import Mathlib.Logic.Basic

/-!
# Programs with a state and exceptions, and their weakest preconditions

* `Prog σ ε α` : a program over a state `σ` that returns an `α` or stops with an exception `ε`; the
  state reached survives the exception, so what a program leaves behind when it throws can be stated;
* `wp x Q E s` : from `s` the program `x` ends in `Q` if it returns and in `E` if it throws;
* one rule for each way of building a program (`wp_pure`, `wp_bind`, `wp_throw`, `wp_tryCatch`,
  `wp_ite`), and the structural rules `wp_mono` and `wp_and`.

A program is a total function, so `wp` is total correctness: a loop that could run forever has to be
written with fuel and an exception of its own for running out of it.
-/

namespace SwiftKStdlib.Lib

universe u

/-- A program over a state `σ` with exceptions `ε`; the state survives an exception. -/
def Prog (σ ε α : Type u) : Type u := σ → Except ε α × σ

namespace Prog

variable {σ ε α β : Type u}

/-- Run the two programs in sequence; an exception of the first skips the second. -/
protected def bind (x : Prog σ ε α) (f : α → Prog σ ε β) : Prog σ ε β := fun s =>
  match x s with
  | (.ok a, s') => f a s'
  | (.error e, s') => (.error e, s')

instance : Monad (Prog σ ε) where
  pure a := fun s => (.ok a, s)
  bind := Prog.bind

theorem bind_run {x : Prog σ ε α} {f : α → Prog σ ε β} {s s' : σ} {a : α} (h : x s = (.ok a, s')) :
    (x >>= f) s = f a s' := by
  change Prog.bind x f s = f a s'
  rw [Prog.bind, h]

theorem bind_error {x : Prog σ ε α} {f : α → Prog σ ε β} {s s' : σ} {e : ε} (h : x s = (.error e, s')) :
    (x >>= f) s = (.error e, s') := by
  change Prog.bind x f s = (.error e, s')
  rw [Prog.bind, h]

theorem bind_congr {x x' : Prog σ ε α} {f : α → Prog σ ε β} {s s' : σ} (h : x s = x' s') :
    (x >>= f) s = (x' >>= f) s' := by
  change Prog.bind x f s = Prog.bind x' f s'
  rw [Prog.bind, Prog.bind, h]

def get : Prog σ ε σ := fun s => (.ok s, s)

theorem get_run (s : σ) : (get : Prog σ ε σ) s = (.ok s, s) := rfl

/-- Stop with the exception `e`. -/
def throw (e : ε) : Prog σ ε α := fun s => (.error e, s)

/-- Run `x`, and the handler from where `x` stopped if it threw. -/
def tryCatch (x : Prog σ ε α) (handler : ε → Prog σ ε α) : Prog σ ε α := fun s =>
  match x s with
  | (.ok a, s') => (.ok a, s')
  | (.error e, s') => handler e s'

/-- `x` from `s` ends in `Q` if it returns and in `E` if it throws. -/
def wp (x : Prog σ ε α) (Q : α → σ → Prop) (E : ε → σ → Prop) (s : σ) : Prop :=
  match x s with
  | (.ok a, s') => Q a s'
  | (.error e, s') => E e s'

variable {Q Q' : α → σ → Prop} {E E' : ε → σ → Prop} {s : σ}

@[simp] theorem wp_pure (a : α) : wp (pure a : Prog σ ε α) Q E s ↔ Q a s := Iff.rfl

@[simp] theorem wp_throw (e : ε) : wp (throw e : Prog σ ε α) Q E s ↔ E e s := Iff.rfl

@[simp] theorem wp_bind (x : Prog σ ε β) (f : β → Prog σ ε α) :
    wp (x >>= f) Q E s ↔ wp x (fun b s' => wp (f b) Q E s') E s := by
  change (match Prog.bind x f s with | (.ok a, s') => Q a s' | (.error e, s') => E e s') ↔
    (match x s with | (.ok b, s') => wp (f b) Q E s' | (.error e, s') => E e s')
  unfold Prog.bind
  rcases x s with ⟨_ | _, s'⟩ <;> rfl

@[simp] theorem wp_tryCatch (x : Prog σ ε α) (handler : ε → Prog σ ε α) :
    wp (tryCatch x handler) Q E s ↔ wp x Q (fun e s' => wp (handler e) Q E s') s := by
  unfold wp tryCatch
  rcases x s with ⟨_ | _, s'⟩ <;> rfl

theorem wp_ite (c : Prop) [Decidable c] (x y : Prog σ ε α) :
    wp (if c then x else y) Q E s ↔ (c → wp x Q E s) ∧ (¬ c → wp y Q E s) := by
  by_cases h : c <;> simp [h]

theorem wp_mono {x : Prog σ ε α} (h : wp x Q E s) (hQ : ∀ a s', Q a s' → Q' a s')
    (hE : ∀ e s', E e s' → E' e s') : wp x Q' E' s := by
  unfold wp at h ⊢
  rcases hx : x s with ⟨e | a, s'⟩ <;> rw [hx] at h
  · exact hE e s' h
  · exact hQ a s' h

theorem wp_and {x : Prog σ ε α} (h : wp x Q E s) (h' : wp x Q' E' s) :
    wp x (fun a s' => Q a s' ∧ Q' a s') (fun e s' => E e s' ∧ E' e s') s := by
  unfold wp at h h' ⊢
  rcases hx : x s with ⟨e | a, s'⟩ <;> rw [hx] at h h'
  · exact ⟨h, h'⟩
  · exact ⟨h, h'⟩

theorem wp_returns {x : Prog σ ε α} (h : wp x Q (fun _ _ => False) s) : ∃ a s', x s = (.ok a, s') ∧ Q a s' := by
  unfold wp at h
  rcases hx : x s with ⟨e | a, s'⟩ <;> rw [hx] at h
  · exact h.elim
  · exact ⟨a, s', rfl, h⟩

theorem of_wp {x : Prog σ ε α} {a : α} {s' : σ} (h : wp x Q E s) (hx : x s = (.ok a, s')) : Q a s' := by
  unfold wp at h
  rwa [hx] at h

theorem wp_of_run {x : Prog σ ε α} {a : α} {s' : σ} (hx : x s = (.ok a, s')) (hQ : Q a s') : wp x Q E s := by
  unfold wp
  rwa [hx]

/-! ## Partial correctness -/

/-- `x` from `s` ends in `Q` if it returns; nothing is said about a run that throws. -/
def wlp (x : Prog σ ε α) (Q : α → σ → Prop) (s : σ) : Prop := wp x Q (fun _ _ => True) s

@[simp] theorem wlp_pure (a : α) : wlp (pure a : Prog σ ε α) Q s ↔ Q a s := Iff.rfl

@[simp] theorem wlp_bind (x : Prog σ ε β) (f : β → Prog σ ε α) :
    wlp (x >>= f) Q s ↔ wlp x (fun b s' => wlp (f b) Q s') s := wp_bind x f

theorem wlp_ite (c : Prop) [Decidable c] (x y : Prog σ ε α) :
    wlp (if c then x else y) Q s ↔ (c → wlp x Q s) ∧ (¬ c → wlp y Q s) := wp_ite c x y

theorem wlp_mono {x : Prog σ ε α} (h : wlp x Q s) (hQ : ∀ a s', Q a s' → Q' a s') : wlp x Q' s :=
  wp_mono h hQ fun _ _ h => h

theorem wlp_tryCatch_throw (x : Prog σ ε α) (handler : ε → Prog σ ε α)
    (h : ∀ e s', wlp (handler e) Q s') (hx : wlp x Q s) : wlp (tryCatch x handler) Q s :=
  (wp_tryCatch x handler).2 (wp_mono hx (fun _ _ h => h) fun e s' _ => h e s')

theorem wlp_mono_of_wp {R : α → σ → Prop} {x : Prog σ ε α} (h : wp x Q E s) (h' : wlp x Q' s)
    (hR : ∀ a s', Q a s' → Q' a s' → R a s') : wlp x R s :=
  wp_mono (wp_and h h') (fun a s' h => hR a s' h.1 h.2) fun _ _ _ => trivial

theorem wp_of_wlp {x : Prog σ ε α} (h : wp x Q E s) (h' : wlp x Q' s) :
    wp x (fun a s' => Q a s' ∧ Q' a s') E s :=
  wp_mono (wp_and h h') (fun _ _ h => h) fun _ _ h => h.1

end Prog

end SwiftKStdlib.Lib
