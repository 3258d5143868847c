import Mathlib.Data.List.Sort
import Mathlib.Data.Finset.Sort

/-!
# Ascending lists as finite sets

* `SortedLT.toFinset_inj` : an ascending list is given by its elements;
* `IsUnion` : a list that holds the elements of two others in ascending order, with one rule for each step of a
  merge and `IsUnion.unique`;
* `mem_dropWhile_lt` : what stands behind the smaller elements.
-/

namespace SwiftKStdlib.Lib

variable {α : Type} [LinearOrder α] {a b : α} {l l' k k' m m' : List α}

theorem sortedLT_cons_iff : (a :: l).SortedLT ↔ (∀ x ∈ l, a < x) ∧ l.SortedLT := by
  simp only [List.sortedLT_iff_pairwise, List.pairwise_cons]

theorem sortedLT_cons_cons_iff : (a :: b :: l).SortedLT ↔ a < b ∧ (b :: l).SortedLT := by
  simp only [List.sortedLT_iff_isChain, List.isChain_cons_cons]

theorem SortedLT.toFinset_inj (hl : l.SortedLT) (hk : k.SortedLT) (h : l.toFinset = k.toFinset) : l = k := by
  apply hl.eq_of_mem_iff hk
  intro x
  rw [← List.mem_toFinset, h, List.mem_toFinset]

/-- The elements of `l` and `k` in ascending order. -/
structure IsUnion (l k m : List α) : Prop where
  sorted : m.SortedLT
  mem_iff : ∀ x, x ∈ m ↔ x ∈ l ∨ x ∈ k

namespace IsUnion

theorem unique (h : IsUnion l k m) (h' : IsUnion l k m') : m = m' := by
  apply h.sorted.eq_of_mem_iff h'.sorted
  intro x
  rw [h.mem_iff, h'.mem_iff]

theorem symm (h : IsUnion l k m) : IsUnion k l m := by
  refine ⟨h.sorted, ?_⟩
  intro x
  rw [h.mem_iff, or_comm]

theorem nil_left (h : k.SortedLT) : IsUnion [] k k := ⟨h, by simp⟩

theorem nil_right (h : l.SortedLT) : IsUnion l [] l := ⟨h, by simp⟩

theorem cons_left (hl : (a :: l).SortedLT) (hk : (b :: k).SortedLT) (hab : a < b) (h : IsUnion l (b :: k) m) :
    IsUnion (a :: l) (b :: k) (a :: m) := by
  rw [sortedLT_cons_iff] at hl hk
  constructor
  · rw [sortedLT_cons_iff]
    refine ⟨?_, h.sorted⟩
    intro x hx
    rcases (h.mem_iff x).1 hx with hx | hx
    · exact hl.1 x hx
    · rcases List.mem_cons.1 hx with rfl | hx
      · exact hab
      · exact hab.trans (hk.1 x hx)
  · intro x
    rw [List.mem_cons, h.mem_iff, @List.mem_cons _ a l x, or_assoc]

theorem cons_right (hl : (a :: l).SortedLT) (hk : (b :: k).SortedLT) (hba : b < a) (h : IsUnion (a :: l) k m) :
    IsUnion (a :: l) (b :: k) (b :: m) :=
  (cons_left hk hl hba h.symm).symm

theorem cons_both (hl : (a :: l).SortedLT) (hk : (a :: k).SortedLT) (h : IsUnion l k m) :
    IsUnion (a :: l) (a :: k) (a :: m) := by
  rw [sortedLT_cons_iff] at hl hk
  constructor
  · rw [sortedLT_cons_iff]
    refine ⟨?_, h.sorted⟩
    intro x hx
    rcases (h.mem_iff x).1 hx with hx | hx
    · exact hl.1 x hx
    · exact hk.1 x hx
  · intro x
    simp only [List.mem_cons, h.mem_iff]
    tauto

theorem toFinset_eq (h : IsUnion l k m) : m.toFinset = l.toFinset ∪ k.toFinset := by
  ext x
  simp only [List.mem_toFinset, Finset.mem_union, h.mem_iff]

theorem length_eq (h : IsUnion l k m) : m.length = (l.toFinset ∪ k.toFinset).card := by
  rw [← h.toFinset_eq, List.toFinset_card_of_nodup h.sorted.nodup]

end IsUnion

theorem mem_iff_head_dropWhile_lt (h : l.SortedLT) : a ∈ l ↔ (l.dropWhile fun x => decide (x < a)).head? = some a := by
  induction l with
  | nil => simp
  | cons b l ih =>
      rw [sortedLT_cons_iff] at h
      by_cases hb : b < a
      · rw [List.dropWhile_cons_of_pos (by simpa using hb), ← ih h.2, List.mem_cons, or_iff_right hb.ne']
      · rw [List.dropWhile_cons_of_neg (by simpa using hb), List.head?_cons, Option.some.injEq, List.mem_cons]
        constructor
        · intro hmem
          rcases hmem with rfl | hmem
          · rfl
          · exact absurd (h.1 a hmem) hb
        · intro heq
          exact Or.inl heq.symm

end SwiftKStdlib.Lib
