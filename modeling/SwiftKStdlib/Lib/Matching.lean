import Mathlib.Data.List.Infix
import Mathlib.Tactic.Common

/-!
# Occurrences of a word in a text

* `OccursAt w s i` : the word `w` stands at index `i` of `s`;
* `IsFirst w s start i` : its first occurrence from `start` on is at `i`;
* `Matches w s start l` : `l` are the occurrences that a scan from `start` finds when it resumes
  behind each one;
* `find` : the search for the first occurrence, with `find_eq_some_iff` and `find_eq_none_iff`.
-/

namespace SwiftKStdlib.Lib

variable {α : Type} {w s : List α} {start i j : Nat} {l k : List Nat}

/-- `w` stands at index `i` of `s`. -/
def OccursAt (w s : List α) (i : Nat) : Prop := w <+: s.drop i

/-- The first occurrence from `start` on is at `i`. -/
structure IsFirst (w s : List α) (start i : Nat) : Prop where
  start_le : start ≤ i
  occursAt : OccursAt w s i
  least : ∀ j, start ≤ j → j < i → ¬ OccursAt w s j

/-- The non-overlapping occurrences from `start` on, from the left. -/
inductive Matches (w s : List α) : Nat → List Nat → Prop where
  | nil {start : Nat} : (∀ j, start ≤ j → ¬ OccursAt w s j) → Matches w s start []
  | cons {start i : Nat} {l : List Nat} : IsFirst w s start i → Matches w s (i + w.length) l →
      Matches w s start (i :: l)

theorem OccursAt.add_length_le (hw : w ≠ []) (h : OccursAt w s i) : i + w.length ≤ s.length := by
  have hlen := h.length_le
  have hpos := List.length_pos_of_ne_nil hw
  rw [List.length_drop] at hlen
  omega

section Find

variable [DecidableEq α]

/-- The first occurrence of `w` in `s`, from `start` on. -/
def find (s w : List α) (start : Nat) : Option Nat :=
  (List.range' start (s.length + 1 - start)).find? fun i => w.isPrefixOf (s.drop i)

theorem find_eq_some_iff (hw : w ≠ []) : find s w start = some i ↔ IsFirst w s start i := by
  rw [find, List.find?_range'_eq_some]
  simp only [List.isPrefixOf_iff_prefix, List.mem_range'_1, Bool.not_eq_true', ← Bool.not_eq_true]
  constructor
  · intro h
    exact ⟨h.2.1.1, h.1, h.2.2⟩
  · intro h
    have := h.occursAt.add_length_le hw
    have := h.start_le
    exact ⟨h.occursAt, ⟨h.start_le, by omega⟩, h.least⟩

theorem find_eq_none_iff (hw : w ≠ []) : find s w start = none ↔ ∀ j, start ≤ j → ¬ OccursAt w s j := by
  rw [find, List.find?_eq_none]
  simp only [List.isPrefixOf_iff_prefix, List.mem_range'_1]
  constructor
  · intro h j hj hocc
    have hlen := hocc.add_length_le hw
    exact h j ⟨hj, by omega⟩ hocc
  · intro h j hj
    exact h j hj.1

theorem Matches.exists (hw : w ≠ []) (s : List α) (start : Nat) : ∃ l, Matches w s start l := by
  induction hn : s.length - start using Nat.strong_induction_on generalizing start with
  | _ n ih =>
    cases hf : find s w start with
    | none => exact ⟨[], .nil ((find_eq_none_iff hw).1 hf)⟩
    | some i =>
        have hi := (find_eq_some_iff hw).1 hf
        have hlen := hi.occursAt.add_length_le hw
        have hpos := List.length_pos_of_ne_nil hw
        have hstart := hi.start_le
        obtain ⟨l, hl⟩ := ih (s.length - (i + w.length)) (by omega) (i + w.length) rfl
        exact ⟨i :: l, .cons hi hl⟩

end Find

end SwiftKStdlib.Lib
