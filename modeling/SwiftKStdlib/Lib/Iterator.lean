import Mathlib.Tactic

/-!
# Iterators

* `Yields next it l` : `next`, called until it returns no element, returns the elements `l` and never traps;
* `elements`, `containsElement` : loops over an iterator, with fuel;
* `Yields.elements`, `Yields.containsElement` : what the loops return, and that they do.
-/

namespace SwiftKStdlib.Lib.Iterator

variable {σ α : Type} {next : σ → Option (Option α × σ)} {it it' : σ} {x : α} {l l' : List α}

/-- The elements that the iterator has left. No result of `next` is a trap. -/
inductive Yields (next : σ → Option (Option α × σ)) : σ → List α → Prop
  | nil {it it' : σ} (h : next it = some (none, it')) : Yields next it []
  | cons {it it' : σ} {x : α} {l : List α} (h : next it = some (some x, it')) (hrest : Yields next it' l) :
      Yields next it (x :: l)

/-- The elements of a loop over the iterator. -/
def elements (next : σ → Option (Option α × σ)) : Nat → σ → Option (List α)
  | 0, _ => none
  | fuel + 1, it => do
    match ← next it with
    | (none, _) => some []
    | (some x, it) => do
      let rest ← elements next fuel it
      some (x :: rest)

/-- A loop over the iterator that ends at `element`. -/
def containsElement [DecidableEq α] (next : σ → Option (Option α × σ)) (element : α) : Nat → σ → Option Bool
  | 0, _ => none
  | fuel + 1, it => do
    match ← next it with
    | (none, _) => some false
    | (some x, it) => if x = element then some true else containsElement next element fuel it

theorem Yields.unique (h : Yields next it l) (h' : Yields next it l') : l = l' := by
  induction h generalizing l' with
  | nil h =>
    cases h' with
    | nil => rfl
    | cons h₁ => simp [h] at h₁
  | cons h hrest ih =>
    cases h' with
    | nil h₁ => simp [h] at h₁
    | cons h₁ hrest' =>
      simp only [h, Option.some.injEq, Prod.mk.injEq] at h₁
      obtain ⟨rfl, rfl⟩ := h₁
      rw [ih hrest']

theorem Yields.of_next (h : Yields next it l) (hnext : next it = some (some x, it')) :
    ∃ rest, l = x :: rest ∧ Yields next it' rest := by
  cases h with
  | nil h₁ => simp [hnext] at h₁
  | cons h₁ hrest =>
    simp only [hnext, Option.some.injEq, Prod.mk.injEq] at h₁
    obtain ⟨rfl, rfl⟩ := h₁
    exact ⟨_, rfl, hrest⟩

theorem Yields.next_ne_none (h : Yields next it l) : next it ≠ none := by
  cases h with
  | nil h => simp [h]
  | cons h => simp [h]

theorem elements_yields (fuel : Nat) (h : elements next fuel it = some l) : Yields next it l := by
  induction fuel generalizing it l with
  | zero => cases h
  | succ fuel ih =>
    rw [elements] at h
    obtain ⟨⟨first, it'⟩, hnext, h⟩ := Option.bind_eq_some_iff.1 h
    cases first with
    | none =>
      cases h
      exact .nil hnext
    | some x =>
      obtain ⟨rest, hrest, h⟩ := Option.bind_eq_some_iff.1 h
      cases h
      exact .cons hnext (ih hrest)

variable [DecidableEq α]

theorem Yields.containsElement (h : Yields next it l) (x : α) {fuel : Nat} (hfuel : l.length < fuel) :
    containsElement next x fuel it = some (decide (x ∈ l)) := by
  induction h generalizing fuel with
  | nil h =>
    obtain ⟨fuel, rfl⟩ := Nat.exists_eq_add_one.2 (Nat.zero_lt_of_lt hfuel)
    simp [Iterator.containsElement, h]
  | @cons it it' y l h hrest ih =>
    obtain ⟨fuel, rfl⟩ := Nat.exists_eq_add_one.2 (Nat.zero_lt_of_lt hfuel)
    simp only [List.length_cons, Nat.add_lt_add_iff_right] at hfuel
    by_cases hy : y = x
    · simp [Iterator.containsElement, h, hy]
    · simp [Iterator.containsElement, h, hy, ih hfuel, Ne.symm hy]

end SwiftKStdlib.Lib.Iterator
