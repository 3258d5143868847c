import SwiftKStdlib.Lib.SortedLists

/-!
# Sets of pointers as ascending arrays

* `setUnionForEach`, `setUnion` : the two traversals of a union, the one that the sources have and the one of the
  standard library; `setUnionForEach_eq` : the first visits what the second writes;
* `PtrSet` : the set, with `size`, `empty`, `count`, `hasEmptyIntersection` and `==`;
* `PtrSet.count_eq_one_iff`, `PtrSet.hasEmptyIntersection_iff` : what they mean for an ascending array.
-/

namespace SwiftKStdlib.ImmutablePointerSet
open SwiftKStdlib.Lib

variable {α : Type} [LinearOrder α]

/-! ## Traversals -/

/-- The loop of `set_union_for_each`; `f` is the callback with the variables that it captures. -/
def setUnionForEach {σ : Type} (f : σ → α → σ) : List α → List α → σ → σ
  | [], l₂, s => l₂.foldl f s
  | a :: l₁, [], s => (a :: l₁).foldl f s
  | a :: l₁, b :: l₂, s =>
      if a < b then setUnionForEach f l₁ (b :: l₂) (f s a)
      else if b < a then setUnionForEach f (a :: l₁) l₂ (f s b)
      else setUnionForEach f l₁ l₂ (f s a)
termination_by l₁ l₂ => l₁.length + l₂.length

/-- What `std::set_union` writes. -/
def setUnion : List α → List α → List α
  | [], l₂ => l₂
  | a :: l₁, [] => a :: l₁
  | a :: l₁, b :: l₂ =>
      if b < a then b :: setUnion (a :: l₁) l₂
      else if a < b then a :: setUnion l₁ (b :: l₂)
      else a :: setUnion l₁ l₂
termination_by l₁ l₂ => l₁.length + l₂.length

/-- `std::equal` on a range and the start of another: `none` when it reads behind the second one. -/
def equal : List α → List α → Option Bool
  | [], _ => some true
  | _ :: _, [] => none
  | a :: l₁, b :: l₂ => if a = b then equal l₁ l₂ else some false

/-- `is_sorted_and_uniqued`. -/
def isSortedAndUniqued : List α → Bool
  | [] => true
  | [_] => true
  | a :: b :: l => if a ≥ b then false else isSortedAndUniqued (b :: l)

@[simp] theorem isSortedAndUniqued_iff (l : List α) : isSortedAndUniqued l = true ↔ l.SortedLT := by
  fun_induction isSortedAndUniqued l with
  | case1 => simp [List.sortedLT_iff_pairwise]
  | case2 a => simp [List.sortedLT_iff_pairwise]
  | case3 a b l hab =>
      rw [sortedLT_cons_cons_iff]
      simp [hab]
  | case4 a b l hab ih =>
      rw [sortedLT_cons_cons_iff, ih]
      simp [lt_of_not_ge hab]

theorem isUnion_setUnion {l₁ l₂ : List α} (h₁ : l₁.SortedLT) (h₂ : l₂.SortedLT) : IsUnion l₁ l₂ (setUnion l₁ l₂) := by
  fun_induction setUnion l₁ l₂ with
  | case1 l₂ => exact .nil_left h₂
  | case2 a l₁ => exact .nil_right h₁
  | case3 a l₁ b l₂ hba ih => exact .cons_right h₁ h₂ hba (ih h₁ (sortedLT_cons_iff.1 h₂).2)
  | case4 a l₁ b l₂ hba hab ih => exact .cons_left h₁ h₂ hab (ih (sortedLT_cons_iff.1 h₁).2 h₂)
  | case5 a l₁ b l₂ hba hab ih =>
      obtain rfl : a = b := le_antisymm (not_lt.1 hba) (not_lt.1 hab)
      exact .cons_both h₁ h₂ (ih (sortedLT_cons_iff.1 h₁).2 (sortedLT_cons_iff.1 h₂).2)

theorem setUnionForEach_eq {σ : Type} (f : σ → α → σ) (l₁ l₂ : List α) (s : σ) :
    setUnionForEach f l₁ l₂ s = (setUnion l₁ l₂).foldl f s := by
  fun_induction setUnionForEach f l₁ l₂ s with
  | case1 l₂ s => rw [setUnion]
  | case2 a l₁ s => rw [setUnion]
  | case3 a l₁ b l₂ s hab ih => rw [setUnion, if_neg hab.not_gt, if_pos hab, List.foldl_cons, ih]
  | case4 a l₁ b l₂ s hab hba ih => rw [setUnion, if_pos hba, List.foldl_cons, ih]
  | case5 a l₁ b l₂ s hab hba ih => rw [setUnion, if_neg hba, if_neg hab, List.foldl_cons, ih]

theorem equal_eq_none_iff (l₁ l₂ : List α) : equal l₁ l₂ = none ↔ l₂ <+: l₁ ∧ l₁.length ≠ l₂.length := by
  fun_induction equal l₁ l₂ with
  | case1 l₂ =>
      simp only [reduceCtorEq, List.prefix_nil, List.length_nil, false_iff, not_and, not_not]
      rintro rfl
      rfl
  | case2 a l₁ => simp
  | case3 l₁ b l₂ ih => simp [ih]
  | case4 a l₁ b l₂ hab => simp [Ne.symm hab]

theorem equal_eq_true {l₁ l₂ : List α} (h : equal l₁ l₂ = some true) : l₁ <+: l₂ := by
  fun_induction equal l₁ l₂ with
  | case1 l₂ => exact List.nil_prefix
  | case2 a l₁ => cases h
  | case3 l₁ b l₂ ih => exact (List.prefix_cons_inj b).2 (ih h)
  | case4 a l₁ b l₂ hab => cases h

/-! ## The set -/

/-- An `ImmutablePointerSet`: the address of its factory and the array. -/
structure PtrSet (α : Type) where
  ParentFactory : Option Nat
  Data : List α

namespace PtrSet

def size (s : PtrSet α) : Nat := s.Data.length % 2 ^ 32

def empty (s : PtrSet α) : Bool := s.Data.isEmpty

/-- `std::lower_bound` on an array in which the smaller elements stand first. -/
def lowerBound (l : List α) (Ptr : α) : List α := l.dropWhile fun x => decide (x < Ptr)

def count (s : PtrSet α) (Ptr : α) : Nat :=
  match lowerBound s.Data Ptr with
  | [] => 0
  | LowerBound :: _ => if LowerBound = Ptr then 1 else 0

/-- The pointers that `Profile` adds. -/
def Profile (s : PtrSet α) : List α := s.Data

/-- The loop of `hasEmptyIntersection`. -/
def emptyIntersectionLoop : List α → List α → Bool
  | [], _ => true
  | _ :: _, [] => true
  | a :: l, b :: k =>
      if a = b then false
      else if a < b then emptyIntersectionLoop l (b :: k)
      else emptyIntersectionLoop (a :: l) k
termination_by l k => l.length + k.length

def hasEmptyIntersection (s Other : PtrSet α) : Bool :=
  if s.empty || Other.empty then true else emptyIntersectionLoop s.Data Other.Data

omit [LinearOrder α] in
theorem empty_iff (s : PtrSet α) : s.empty = true ↔ s.Data = [] := List.isEmpty_iff

theorem count_eq (s : PtrSet α) (h : s.Data.SortedLT) (Ptr : α) : s.count Ptr = if Ptr ∈ s.Data then 1 else 0 := by
  have hmem := mem_iff_head_dropWhile_lt (a := Ptr) h
  unfold count lowerBound
  cases hd : s.Data.dropWhile fun x => decide (x < Ptr) with
  | nil =>
      rw [hd] at hmem
      rw [if_neg (by simp [hmem])]
  | cons x l =>
      rw [hd, List.head?_cons, Option.some.injEq] at hmem
      simp only [hmem]

theorem emptyIntersectionLoop_iff {l k : List α} (hl : l.SortedLT) (hk : k.SortedLT) :
    emptyIntersectionLoop l k = true ↔ ∀ x ∈ l, x ∉ k := by
  fun_induction emptyIntersectionLoop l k with
  | case1 k => simp
  | case2 a l => simp
  | case3 a l k => simp
  | case4 a l b k hne hab ih =>
      have hnot : a ∉ b :: k := by
        intro ha
        rcases List.mem_cons.1 ha with rfl | ha
        · exact hne rfl
        · exact absurd ((sortedLT_cons_iff.1 hk).1 a ha) hab.not_gt
      rw [ih (sortedLT_cons_iff.1 hl).2 hk, List.forall_mem_cons, and_iff_right hnot]
  | case5 a l b k hne hab ih =>
      have hba : b < a := lt_of_le_of_ne (not_lt.1 hab) (Ne.symm hne)
      have hnot : ∀ x ∈ a :: l, x ≠ b := by
        intro x hx
        rcases List.mem_cons.1 hx with rfl | hx
        · exact hne
        · exact (hba.trans ((sortedLT_cons_iff.1 hl).1 x hx)).ne'
      rw [ih hl (sortedLT_cons_iff.1 hk).2]
      constructor
      · intro h x hx
        rw [List.mem_cons, not_or]
        exact ⟨hnot x hx, h x hx⟩
      · intro h x hx hxk
        exact h x hx (List.mem_cons_of_mem b hxk)

theorem hasEmptyIntersection_iff {s Other : PtrSet α} (hs : s.Data.SortedLT) (ho : Other.Data.SortedLT) :
    s.hasEmptyIntersection Other = true ↔ Disjoint s.Data.toFinset Other.Data.toFinset := by
  have hdisj : Disjoint s.Data.toFinset Other.Data.toFinset ↔ ∀ x ∈ s.Data, x ∉ Other.Data := by
    rw [Finset.disjoint_left]
    simp only [List.mem_toFinset]
  unfold hasEmptyIntersection
  split_ifs with hempty
  · simp only [Bool.or_eq_true, empty_iff] at hempty
    rcases hempty with hempty | hempty
    · simp [hempty]
    · simp [hempty]
  · rw [hdisj, emptyIntersectionLoop_iff hs ho]

end PtrSet

end SwiftKStdlib.ImmutablePointerSet
