import Mathlib.Data.List.Infix
import Mathlib.Tactic.Common

/-!
# Cutting a text into words, from either end

A scanner gives for a position of a text the next one, or the previous one.

* `Forwards next s i ws` : from position `i` on, `next` cuts the text `s` into the words `ws`;
* `Backwards prev s i ws` : so does `prev` up to position `i`;
* `Forwards.word`, `Backwards.word` : one more word, or none where it is empty;
* `flatMap_eq_flatMap_iff` : a text that is made of blocks is cut the same way twice when each of
  its blocks is.
-/

namespace SwiftKStdlib.Lib

variable {α β : Type} {s a x r : List α} {ws vs : List (List α)} {i : Nat}

def nonEmpty (ws : List (List α)) : List (List α) := ws.filter fun w => !w.isEmpty

theorem nonEmpty_cons (x : List α) (ws : List (List α)) : nonEmpty (x :: ws) = nonEmpty [x] ++ nonEmpty ws :=
  List.filter_append [x] ws

@[simp] theorem nonEmpty_nil : nonEmpty ([] : List (List α)) = [] := rfl

@[simp] theorem nonEmpty_nil_cons (ws : List (List α)) : nonEmpty ([] :: ws) = nonEmpty ws := rfl

theorem nonEmpty_cons_of_ne_nil {x : List α} (h : x ≠ []) (ws : List (List α)) :
    nonEmpty (x :: ws) = x :: nonEmpty ws := by
  rw [nonEmpty, List.filter_cons_of_pos (by simpa using h)]
  rfl

theorem nonEmpty_cons_inj {x : List α} : nonEmpty (x :: ws) = nonEmpty (x :: vs) ↔ nonEmpty ws = nonEmpty vs := by
  rw [nonEmpty_cons, nonEmpty_cons x vs, List.append_cancel_left_eq]

theorem nonEmpty_cons_append (x : List α) (ws vs : List (List α)) :
    nonEmpty (x :: ws) ++ vs = nonEmpty [x] ++ (nonEmpty ws ++ vs) := by
  rw [nonEmpty_cons, List.append_assoc]

theorem ne_nil_of_mem_nonEmpty {w : List α} (h : w ∈ nonEmpty ws) : w ≠ [] := by
  have hw := (List.mem_filter.1 h).2
  rintro rfl
  cases hw

theorem flatten_nonEmpty (ws : List (List α)) : (nonEmpty ws).flatten = ws.flatten := by
  induction ws with
  | nil => rfl
  | cons w ws ih =>
      rw [nonEmpty_cons, List.flatten_append, ih, List.flatten_cons]
      cases w with
      | nil => rfl
      | cons c w => simp [nonEmpty]

/-- From position `i` on, the positions that `next` gives cut `s` into `ws`. -/
inductive Forwards (next : Nat → Option Nat) (s : List α) : Nat → List (List α) → Prop where
  | done : Forwards next s s.length []
  | step {i j : Nat} {ws : List (List α)} : next i = some j → i < s.length → i < j → Forwards next s j ws →
      Forwards next s i ((s.drop i).take (j - i) :: ws)

/-- Up to position `i`, the positions that `prev` gives cut `s` into `ws`. -/
inductive Backwards (prev : Nat → Option Nat) (s : List α) : Nat → List (List α) → Prop where
  | done : Backwards prev s 0 []
  | step {i j : Nat} {ws : List (List α)} : prev j = some i → i < j → j ≤ s.length → Backwards prev s i ws →
      Backwards prev s j (ws ++ [(s.drop i).take (j - i)])

theorem take_drop_eq (hs : s = a ++ (x ++ r)) : (s.drop a.length).take (a.length + x.length - a.length) = x := by
  rw [hs, List.drop_left, Nat.add_sub_cancel_left, List.take_left]

theorem Forwards.word {next : Nat → Option Nat} (hs : s = a ++ (x ++ r))
    (hnext : x ≠ [] → next a.length = some (a.length + x.length)) (h : Forwards next s (a ++ x).length ws) :
    Forwards next s a.length (nonEmpty [x] ++ ws) := by
  cases x with
  | nil => simpa [nonEmpty] using h
  | cons c x =>
      have hstep := Forwards.step (hnext (List.cons_ne_nil c x)) (by simp [hs]) (by simp)
        (List.length_append ▸ h)
      rwa [take_drop_eq hs] at hstep

theorem Backwards.word {prev : Nat → Option Nat} (hs : s = a ++ (x ++ r))
    (hprev : x ≠ [] → prev (a.length + x.length) = some a.length) (h : Backwards prev s a.length ws) :
    Backwards prev s (a.length + x.length) (ws ++ nonEmpty [x]) := by
  cases x with
  | nil => simpa [nonEmpty] using h
  | cons c x =>
      have hstep := Backwards.step (hprev (List.cons_ne_nil c x)) (by simp) (by simp [hs]) h
      rwa [take_drop_eq hs] at hstep

theorem Forwards.le {next : Nat → Option Nat} (h : Forwards next s i ws) : i ≤ s.length := by
  cases h with
  | done => exact Nat.le_refl _
  | step _ hi _ _ => exact hi.le

theorem Backwards.flatten {prev : Nat → Option Nat} (h : Backwards prev s i ws) : ws.flatten = s.take i := by
  induction h with
  | done => rw [List.take_zero, List.flatten_nil]
  | @step i j ws _ hij _ _ ih =>
      have htake : s.take i = (s.take j).take i := by rw [List.take_take, Nat.min_eq_left hij.le]
      rw [List.flatten_append, ih, List.flatten_singleton, ← List.drop_take, htake, List.take_append_drop]

/-! ## Blocks -/

theorem append_eq_append_of_flatten {xs ys : List (List α)} (h : ws ++ xs = vs ++ ys)
    (hflat : ws.flatten = vs.flatten) (hws : ∀ w ∈ ws, w ≠ []) (hvs : ∀ v ∈ vs, v ≠ []) : ws = vs := by
  induction ws generalizing vs with
  | nil =>
      cases vs with
      | nil => rfl
      | cons v vs =>
          have hv : v = [] := (List.append_eq_nil_iff.1 hflat.symm).1
          exact absurd hv (hvs v List.mem_cons_self)
  | cons w ws ih =>
      cases vs with
      | nil =>
          have hw : w = [] := (List.append_eq_nil_iff.1 hflat).1
          exact absurd hw (hws w List.mem_cons_self)
      | cons v vs =>
          rw [List.cons_append, List.cons_append, List.cons.injEq] at h
          obtain ⟨rfl, h⟩ := h
          rw [ih h (List.append_cancel_left hflat) (fun u hu => hws u (List.mem_cons_of_mem _ hu))
            (fun u hu => hvs u (List.mem_cons_of_mem _ hu))]

theorem flatMap_eq_flatMap_iff {f g : β → List (List α)} (bs : List β)
    (hflat : ∀ b ∈ bs, (f b).flatten = (g b).flatten) (hf : ∀ b ∈ bs, ∀ w ∈ f b, w ≠ [])
    (hg : ∀ b ∈ bs, ∀ w ∈ g b, w ≠ []) : bs.flatMap f = bs.flatMap g ↔ ∀ b ∈ bs, f b = g b := by
  induction bs with
  | nil => simp
  | cons b bs ih =>
      have ih := ih (fun c hc => hflat c (List.mem_cons_of_mem _ hc)) (fun c hc => hf c (List.mem_cons_of_mem _ hc))
        (fun c hc => hg c (List.mem_cons_of_mem _ hc))
      rw [List.flatMap_cons, List.flatMap_cons, List.forall_mem_cons]
      constructor
      · intro h
        have hb := append_eq_append_of_flatten h (hflat b List.mem_cons_self) (hf b List.mem_cons_self)
          (hg b List.mem_cons_self)
        rw [hb] at h
        exact ⟨hb, ih.1 (List.append_cancel_left h)⟩
      · intro ⟨hb, hbs⟩
        rw [hb, ih.2 hbs]

end SwiftKStdlib.Lib
