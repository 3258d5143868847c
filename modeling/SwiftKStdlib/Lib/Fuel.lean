import Mathlib.Tactic

/-!
# Computations with fuel

* loops in `Option` : what their results tell of the steps;
* `Settles` : with enough fuel, a computation gives one result;
* `Settles.mapM`, `Settles.allM` and others : a loop settles when its steps do.
-/

namespace SwiftKStdlib.Lib

variable {α β γ : Type}

/-! ## Loops that have ended -/

section Loops

variable {l : List α}

theorem forall_of_allM {f : α → Option Bool} (h : l.allM f = some true) : ∀ x ∈ l, f x = some true := by
  induction l with
  | nil => exact fun x hx => absurd hx List.not_mem_nil
  | cons a rest ih =>
    rw [List.allM_cons] at h
    obtain ⟨b, hb, hrest⟩ := Option.bind_eq_some_iff.1 h
    cases b with
    | false => cases hrest
    | true =>
      intro x hx
      rcases List.mem_cons.1 hx with rfl | hx
      · exact hb
      · exact ih hrest x hx

theorem exists_of_anyM {f : α → Option Bool} (h : l.anyM f = some true) : ∃ x ∈ l, f x = some true := by
  induction l with
  | nil => cases h
  | cons a rest ih =>
    rw [List.anyM_cons] at h
    obtain ⟨b, hb, hrest⟩ := Option.bind_eq_some_iff.1 h
    cases b with
    | true => exact ⟨a, List.mem_cons_self, hb⟩
    | false =>
      obtain ⟨x, hx, hfx⟩ := ih hrest
      exact ⟨x, List.mem_cons_of_mem _ hx, hfx⟩

theorem exists_of_mapM {f : α → Option β} {ys : List β} (h : l.mapM f = some ys) :
    ∀ x ∈ l, ∃ y ∈ ys, f x = some y := by
  induction l generalizing ys with
  | nil => exact fun x hx => absurd hx List.not_mem_nil
  | cons a rest ih =>
    rw [List.mapM_cons] at h
    obtain ⟨y, hy, hrest⟩ := Option.bind_eq_some_iff.1 h
    obtain ⟨ys', hys', heq⟩ := Option.bind_eq_some_iff.1 hrest
    rw [← Option.some.inj heq]
    intro x hx
    rcases List.mem_cons.1 hx with rfl | hx
    · exact ⟨y, List.mem_cons_self, hy⟩
    · obtain ⟨y', hy', hfx⟩ := ih hys' x hx
      exact ⟨y', List.mem_cons_of_mem _ hy', hfx⟩

theorem foldlM_induct {f : β → α → Option β} {P : β → Prop} {b b' : β} (hb : P b)
    (hstep : ∀ b, P b → ∀ x ∈ l, ∀ b', f b x = some b' → P b') (h : l.foldlM f b = some b') : P b' := by
  induction l generalizing b with
  | nil =>
    rw [← Option.some.inj h]
    exact hb
  | cons a rest ih =>
    rw [List.foldlM_cons] at h
    obtain ⟨b₁, hb₁, hrest⟩ := Option.bind_eq_some_iff.1 h
    exact ih (hstep b hb a List.mem_cons_self b₁ hb₁)
      (fun b hb x hx => hstep b hb x (List.mem_cons_of_mem _ hx)) hrest

end Loops

/-! ## Enough fuel -/

/-- From some fuel on, the result is `a`. -/
def Settles (f : Nat → Option α) (a : α) : Prop := ∃ enough, ∀ n, enough ≤ n → f n = some a

theorem Settles.pure (a : α) : Settles (fun _ => some a) a := ⟨0, fun _ _ => rfl⟩

theorem Settles.unique {f : Nat → Option α} {a b : α} (ha : Settles f a) (hb : Settles f b) : a = b := by
  obtain ⟨n, ha⟩ := ha
  obtain ⟨m, hb⟩ := hb
  have hsame := ha (max n m) (le_max_left _ _)
  rw [hb (max n m) (le_max_right _ _)] at hsame
  exact (Option.some.inj hsame).symm

theorem Settles.result {f : Nat → Option α} {a : α} (h : Settles f a) : ∃ n, f n = some a := by
  obtain ⟨n, h⟩ := h
  exact ⟨n, h n (le_refl n)⟩

theorem Settles.step {f g : Nat → Option α} {a : α} (h : Settles f a) (hg : ∀ n, g (n + 1) = f n) :
    Settles g a := by
  obtain ⟨enough, h⟩ := h
  refine ⟨enough + 1, fun n hn => ?_⟩
  obtain ⟨m, rfl⟩ : ∃ m, n = m + 1 := ⟨n - 1, by omega⟩
  rw [hg]
  exact h m (by omega)

theorem Settles.bind {f : Nat → Option α} {g : Nat → α → Option β} {a : α} {b : β} (hf : Settles f a)
    (hg : Settles (fun n => g n a) b) : Settles (fun n => f n >>= g n) b := by
  obtain ⟨n, hf⟩ := hf
  obtain ⟨m, hg⟩ := hg
  refine ⟨max n m, fun k hk => ?_⟩
  show (f k).bind (g k) = some b
  rw [hf k (by omega)]
  exact hg k (by omega)

theorem Settles.map {f : Nat → Option α} {a : α} (h : Settles f a) (g : α → β) :
    Settles (fun n => do return g (← f n)) (g a) :=
  h.bind (.pure (g a))

section Lists

variable {l : List α}

theorem Settles.mapM {f : Nat → α → Option β} {R : α → β → Prop}
    (h : ∀ x ∈ l, ∃ y, Settles (fun n => f n x) y ∧ R x y) :
    ∃ ys, Settles (fun n => l.mapM (f n)) ys ∧ ∀ y ∈ ys, ∃ x ∈ l, R x y := by
  induction l with
  | nil => exact ⟨[], .pure [], fun y hy => absurd hy List.not_mem_nil⟩
  | cons a rest ih =>
    obtain ⟨y, hy, hr⟩ := h a List.mem_cons_self
    obtain ⟨ys, hys, hrs⟩ := ih fun x hx => h x (List.mem_cons_of_mem _ hx)
    refine ⟨y :: ys, ?_, fun z hz => ?_⟩
    · simp only [List.mapM_cons]
      exact hy.bind (hys.bind (.pure _))
    · rcases List.mem_cons.1 hz with rfl | hz
      · exact ⟨a, List.mem_cons_self, hr⟩
      · obtain ⟨x, hx, hr'⟩ := hrs z hz
        exact ⟨x, List.mem_cons_of_mem _ hx, hr'⟩

theorem Settles.allM {f : Nat → α → Option Bool} (h : ∀ x ∈ l, ∃ b, Settles (fun n => f n x) b) :
    ∃ b, Settles (fun n => l.allM (f n)) b := by
  induction l with
  | nil => exact ⟨true, .pure true⟩
  | cons a rest ih =>
    obtain ⟨b, hb⟩ := h a List.mem_cons_self
    obtain ⟨c, hc⟩ := ih fun x hx => h x (List.mem_cons_of_mem _ hx)
    simp only [List.allM_cons]
    cases b with
    | true => exact ⟨c, hb.bind hc⟩
    | false => exact ⟨false, hb.bind (.pure false)⟩

theorem Settles.anyM {f : Nat → α → Option Bool} (h : ∀ x ∈ l, ∃ b, Settles (fun n => f n x) b) :
    ∃ b, Settles (fun n => l.anyM (f n)) b := by
  induction l with
  | nil => exact ⟨false, .pure false⟩
  | cons a rest ih =>
    obtain ⟨b, hb⟩ := h a List.mem_cons_self
    obtain ⟨c, hc⟩ := ih fun x hx => h x (List.mem_cons_of_mem _ hx)
    simp only [List.anyM_cons]
    cases b with
    | true => exact ⟨true, hb.bind (.pure true)⟩
    | false => exact ⟨c, hb.bind hc⟩

theorem Settles.foldlM {f : Nat → β → α → Option β} {P : β → List α → Prop} {b : β}
    {before : List α} (hb : P b before)
    (h : ∀ b before x, x ∈ l → P b before → ∃ b', Settles (fun n => f n b x) b' ∧ P b' (before ++ [x])) :
    ∃ b', Settles (fun n => l.foldlM (f n) b) b' ∧ P b' (before ++ l) := by
  induction l generalizing b before with
  | nil =>
    rw [List.append_nil]
    exact ⟨b, .pure b, hb⟩
  | cons a rest ih =>
    obtain ⟨b₁, hb₁, hp⟩ := h b before a List.mem_cons_self hb
    obtain ⟨b', hb', hp'⟩ := ih hp fun b before x hx => h b before x (List.mem_cons_of_mem _ hx)
    rw [List.append_assoc] at hp'
    refine ⟨b', ?_, hp'⟩
    simp only [List.foldlM_cons]
    exact hb₁.bind hb'

end Lists

end SwiftKStdlib.Lib
