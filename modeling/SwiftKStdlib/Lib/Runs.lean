import Mathlib.Data.List.Induction
import Mathlib.Tactic.Common

/-!
# Runs of operations, one after the other

* `foldlM_append_singleton` : a run is the run up to the last operation, and that operation;
* `forall_getElem?_append_singleton_iff`, `forall_take_append_singleton_iff` : what holds of every operation of a run
  at its place, or after the operations before it.
-/

namespace SwiftKStdlib.Lib

variable {σ ι : Type} {l : List ι} {a : ι}

theorem foldlM_append_singleton (step : σ → ι → Option σ) (s : σ) (l : List ι) (a : ι) :
    (l ++ [a]).foldlM step s = (l.foldlM step s).bind fun t => step t a := by
  rw [List.foldlM_append]
  simp

theorem forall_getElem?_append_singleton_iff {P : Nat → ι → Prop} :
    (∀ (k : Nat) (o : ι), (l ++ [a])[k]? = some o → P k o) ↔
      (∀ (k : Nat) (o : ι), l[k]? = some o → P k o) ∧ P l.length a := by
  constructor
  · intro h
    refine ⟨?_, h _ _ (by simp)⟩
    intro k o ho
    obtain ⟨hlt, -⟩ := List.getElem?_eq_some_iff.1 ho
    exact h k o ((List.getElem?_append_left hlt).trans ho)
  · intro h k o ho
    rcases Nat.lt_or_ge k l.length with hlt | hge
    · rw [List.getElem?_append_left hlt] at ho
      exact h.1 k o ho
    · rw [List.getElem?_append_right hge, List.getElem?_singleton] at ho
      split_ifs at ho with hk
      obtain rfl := Option.some.inj ho
      rw [show k = l.length by omega]
      exact h.2

theorem forall_take_append_singleton_iff {P : List ι → ι → Prop} :
    (∀ (k : Nat) (o : ι), (l ++ [a])[k]? = some o → P ((l ++ [a]).take k) o) ↔
      (∀ (k : Nat) (o : ι), l[k]? = some o → P (l.take k) o) ∧ P l a := by
  rw [forall_getElem?_append_singleton_iff, List.take_left' rfl]
  refine and_congr_left fun _ => forall_congr' fun k => forall_congr' fun o => imp_congr_right fun ho => ?_
  obtain ⟨hlt, -⟩ := List.getElem?_eq_some_iff.1 ho
  rw [List.take_append_of_le_length (Nat.le_of_lt hlt)]

end SwiftKStdlib.Lib
