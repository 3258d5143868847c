import SwiftKStdlib.Sort.Order

/-!
# The heap and `_introSort`

A heap lies in a range: the children of the node at `i` are at the distances `2 k + 1` and `2 k + 2`
from the lower bound, where `k` is that of `i`. `siftDown` starts from a heap whose only node out of
place is the one it is given (`HeapExcept`), `heapify` builds the heap from its last parent down to
the root, and each round of `heapSortLoop` moves the root behind the heap.

* `introSort_any_predicate` : with any predicate at all, `_introSort` stops inside its subrange and
  leaves a rearrangement, also when the predicate throws;
* `introSortImpl_sorts`, `introSort_sorts` : with a strict weak ordering they sort the subrange, for
  every depth limit;
* `partition_parts` : `_partition` leaves two parts that are not empty, the second not before the first.
-/

namespace SwiftKStdlib.Sort

open SwiftKStdlib.Lib SwiftKStdlib.Lib.Prog

variable {α γ ε : Type}

/-- The node at `c` of the heap in `r` is a child of the node at `i`. -/
def IsChild (r : Range) (i c : Nat) : Prop :=
  r.lowerBound ≤ i ∧ c < r.upperBound ∧
    (c = i + (i - r.lowerBound + 1) ∨ c = i + (i - r.lowerBound + 1) + 1)

/-- The nodes from `start` on do not precede their children. -/
def HeapFrom (lt : α → α → Bool) (r : Range) (a : Array α) (start : Nat) : Prop :=
  ∀ i c, start ≤ i → IsChild r i c → Le lt a c i

/-- As `HeapFrom`, but for the node at `k`, whose children still are in place below its parent. -/
structure HeapExcept (lt : α → α → Bool) (r : Range) (a : Array α) (start k : Nat) : Prop where
  other : ∀ i c, start ≤ i → i ≠ k → IsChild r i c → Le lt a c i
  grand : ∀ i c, start ≤ i → IsChild r i k → IsChild r k c → Le lt a c i

theorem HeapFrom.except {lt : α → α → Bool} {r : Range} {a : Array α} {k : Nat}
    (h : HeapFrom lt r a (k + 1)) : HeapExcept lt r a k k := by
  refine ⟨fun i c hi hne hc => h i c (by omega) hc, fun i c hi hk _ => ?_⟩
  obtain ⟨_, _, _⟩ := hk
  omega

theorem HeapFrom.root {lt : α → α → Bool} (ho : StrictWeakOrder lt) {r : Range} {a : Array α}
    (h : HeapFrom lt r a r.lowerBound) (hsize : r.upperBound ≤ a.size) (i : Nat)
    (hi : r.lowerBound ≤ i ∧ i < r.upperBound) : Le lt a i r.lowerBound := by
  induction i using Nat.strongRecOn with
  | ind i ih =>
      rcases Nat.eq_or_lt_of_le hi.1 with rfl | hlt
      · exact Le.refl ho a _
      · -- the parent of `i`
        have hc : IsChild r (r.lowerBound + (i - r.lowerBound - 1) / 2) i :=
          ⟨by omega, hi.2, by omega⟩
        have hle := h _ i (by omega) hc
        exact hle.trans ho (ih _ (by omega) (by omega)) (by omega)

theorem HeapExcept.swap {lt : α → α → Bool} {r : Range} {a b : Array α}
    {start k l : Nat} (h : HeapExcept lt r a start k) (hk : start ≤ k) (hl : IsChild r k l)
    (hmax : ∀ c, IsChild r k c → Le lt a c l) (hkl : Le lt a k l) (hab : Swapped a b k l) :
    HeapExcept lt r b start l := by
  have hlk : k < l := by
    obtain ⟨_, _, _⟩ := hl
    omega
  constructor
  · intro i c hi hil hc
    obtain ⟨hlo, hhi, hci⟩ := hc
    have hc : IsChild r i c := ⟨hlo, hhi, hci⟩
    rcases eq_or_ne i k with rfl | hik
    · rcases eq_or_ne c l with rfl | hcl
      · exact hkl.congr hab.right hab.left
      · exact (hmax c hc).congr (hab.other c (by omega) hcl) hab.left
    · rcases eq_or_ne c k with rfl | hck
      · exact (h.grand i l hi hc hl).congr hab.left (hab.other i hik hil)
      · have hcl : c ≠ l := by
          obtain ⟨_, _, _⟩ := hl
          omega
        exact (h.other i c hi hik hc).congr (hab.other c hck hcl) (hab.other i hik hil)
  · intro i c hi hil hc
    obtain rfl : i = k := by
      obtain ⟨_, _, _⟩ := hl
      obtain ⟨_, _, _⟩ := hil
      omega
    have hcl : l < c := by
      obtain ⟨_, _, _⟩ := hc
      omega
    exact (h.other l c (by omega) (by omega) hc).congr (hab.other c (by omega) (by omega)) hab.left

namespace Sorter

variable {S : Sorter α γ ε} {lt : α → α → Bool}
variable (ho : StrictWeakOrder lt) (hS : S.Answers lt)
include ho hS

/-- `largest` is the biggest of the node and its children. -/
theorem largest_spec {r : Range} {index left : Nat}
    (hleft : left = index + (index - r.lowerBound + 1)) (hlt : left < r.upperBound) (m : Mem α γ)
    (hlo : r.lowerBound ≤ index) (hsize : r.upperBound ≤ m.elements.size) :
    wlp (S.largest r index left) (fun l m' => m'.elements = m.elements ∧
      (l = index ∨ IsChild r index l) ∧ Le lt m.elements index l ∧
      ∀ c, IsChild r index c → Le lt m.elements c l) m := by
  -- the choice between `i`, the bigger of the node and its left child, and the right child
  have hright : ∀ i m', m'.elements = m.elements → (i = index ∨ i = left) →
      Le lt m.elements index i → Le lt m.elements left i →
      wlp (if index - r.lowerBound + 2 < r.upperBound - index then do
          let right ← S.indexAfter left
          if ← S.less (← S.get i) (← S.get right) then pure right else pure i
        else pure i)
      (fun l m' => m'.elements = m.elements ∧ (l = index ∨ IsChild r index l) ∧
        Le lt m.elements index l ∧ ∀ c, IsChild r index c → Le lt m.elements c l) m' := by
    intro i m' hm' hi hindex hleft'
    have hi' : i = index ∨ IsChild r index i :=
      hi.imp_right fun hil => ⟨hlo, by omega, .inl (hil.trans hleft)⟩
    simp only [wlp_ite, wlp_bind, wlp_pure]
    refine ⟨fun hr => wlp_index (less_get_get_spec hS fun m₁ x y hm₁ hx hy => ⟨fun hxy => ?_,
      fun hxy => ?_⟩), fun hr => ⟨hm', hi', hindex, fun c hc => ?_⟩⟩
    · rw [hm₁, hm'] at hx hy
      have hle : Le lt m.elements i (left + 1) := fun x' y' hx' hy' => by
        rw [← Option.some.inj (hx.symm.trans hx'), ← Option.some.inj (hy.symm.trans hy')]
        exact ho.asymm hxy
      have hib : i < m.elements.size := by omega
      refine ⟨hm₁.trans hm', .inr ⟨hlo, by omega, by omega⟩, hindex.trans ho hle hib, fun c hc => ?_⟩
      obtain ⟨_, _, hc | hc⟩ := hc
      · rw [← hleft] at hc
        exact hc ▸ hleft'.trans ho hle hib
      · rw [hc, ← hleft]
        exact Le.refl ho _ _
    · rw [hm₁, hm'] at hx hy
      refine ⟨hm₁.trans hm', hi', hindex, fun c hc => ?_⟩
      obtain ⟨_, _, hc | hc⟩ := hc
      · rw [← hleft] at hc
        exact hc ▸ hleft'
      · rw [hc, ← hleft]
        intro x' y' hx' hy'
        rw [← Option.some.inj (hy.symm.trans hx'), ← Option.some.inj (hx.symm.trans hy')]
        simpa using hxy
    · obtain ⟨_, _, hc | hc⟩ := hc
      · rw [← hleft] at hc
        exact hc ▸ hleft'
      · omega
  simp only [largest, wlp_bind]
  refine less_get_get_spec hS fun m₁ x y hm₁ hx hy => ?_
  rw [hm₁] at hx hy
  rw [wlp_ite]
  refine ⟨fun hxy => hright left m₁ hm₁ (.inr rfl) (fun x' y' hx' hy' => ?_) (Le.refl ho _ _),
    fun hxy => hright index m₁ hm₁ (.inl rfl) (Le.refl ho _ _) fun x' y' hx' hy' => ?_⟩
  · rw [← Option.some.inj (hx.symm.trans hx'), ← Option.some.inj (hy.symm.trans hy')]
    exact ho.asymm hxy
  · rw [← Option.some.inj (hy.symm.trans hx'), ← Option.some.inj (hx.symm.trans hy')]
    simpa using hxy

theorem siftDown_spec {r : Range} (start fuel index : Nat) (m : Mem α γ) (hstart : start ≤ index)
    (hlo : r.lowerBound ≤ index) (hsize : r.upperBound ≤ m.elements.size)
    (h : HeapExcept lt r m.elements start index) :
    wlp (S.siftDown r fuel index) (fun _ m' => HeapFrom lt r m'.elements start) m := by
  induction fuel generalizing index m with
  | zero => trivial
  | succ fuel ih =>
      rw [siftDown, wlp_ite]
      refine ⟨fun hleaf i c hi hc => ?_, fun hleft => ?_⟩
      · rcases eq_or_ne i index with rfl | hne
        · obtain ⟨_, _, _⟩ := hc
          omega
        · exact h.other i c hi hne hc
      · rw [wlp_bind]
        refine wlp_index ?_
        rw [wlp_bind]
        refine wlp_mono (largest_spec ho hS rfl (by omega) m hlo hsize) ?_
        rintro l m₁ ⟨hm₁, hl, hindex, hmax⟩
        rw [← hm₁] at h hsize hindex hmax
        rw [wlp_ite]
        refine ⟨fun heq i c hi hc => ?_, fun hne => ?_⟩
        · rcases eq_or_ne i index with rfl | hne
          · exact heq ▸ hmax c hc
          · exact h.other i c hi hne hc
        · have hl := hl.resolve_left hne
          have hgt : index < l := by
            obtain ⟨_, _, _⟩ := hl
            omega
          rw [wlp_bind]
          refine wlp_swapAt fun m₂ hswap => ih l m₂ (by omega) (by omega) ?_ ?_
          · rw [hswap.size_eq]
            exact hsize
          · exact h.swap hstart hl hmax hindex hswap

theorem heapifyLoop_spec {r : Range} {a : Array α} (hr : S.Covers r a) (fuel node : Nat)
    (m : Mem α γ) (hm : Rearranged r a m.elements) (hnode : r.lowerBound ≤ node ∧ node ≤ r.upperBound)
    (h : HeapFrom lt r m.elements node) :
    wlp (S.heapifyLoop r fuel node) (fun _ m' => HeapFrom lt r m'.elements r.lowerBound) m := by
  induction fuel generalizing node m with
  | zero => trivial
  | succ fuel ih =>
      rw [heapifyLoop, wlp_ite]
      refine ⟨fun heq => heq ▸ h, fun hne => ?_⟩
      rw [wlp_bind]
      refine wlp_indexBefore fun hpos => ?_
      rw [wlp_bind]
      have hsize : r.upperBound ≤ m.elements.size := by
        have := hr.2.1
        have := hr.2.2
        have := hm.size_eq
        omega
      have hsafe := siftDown_safe hr r.count (node - 1) (by omega) (by unfold Range.count; omega) hm
      have hexcept : HeapExcept lt r m.elements (node - 1) (node - 1) :=
        HeapFrom.except (by rwa [Nat.sub_add_cancel hpos])
      have hspec := siftDown_spec ho hS (node - 1) r.count (node - 1) m (Nat.le_refl _) (by omega)
        hsize hexcept
      exact wlp_mono_of_wp hsafe hspec fun _ m' hm' h' => ih (node - 1) m' hm' (by omega) h'

theorem heapify_spec {r : Range} {a : Array α} (hr : S.Covers r a) (m : Mem α γ)
    (hm : Rearranged r a m.elements) :
    wlp (S.heapify r) (fun _ m' => HeapFrom lt r m'.elements r.lowerBound) m := by
  have hle := r.le
  have hcount : r.count = r.upperBound - r.lowerBound := rfl
  rw [heapify, wlp_bind]
  refine wlp_index (heapifyLoop_spec ho hS hr _ _ m hm (by omega) fun i c hi hc => ?_)
  -- the second half of the range has no children
  obtain ⟨_, _, _⟩ := hc
  omega

/-- Before a round of `heapSortLoop`: the heap, and behind it the biggest elements in order. -/
structure HeapSorting (lt : α → α → Bool) (r : Range) (a : Array α) (hi : Nat) : Prop where
  heap : ∀ i c, IsChild r i c → c ≤ hi → Le lt a c i
  sorted : ∀ i j, hi < i → i < j → j < r.upperBound → Le lt a i j
  below : ∀ i j, r.lowerBound ≤ i → i ≤ hi → hi < j → j < r.upperBound → Le lt a i j

omit hS in
theorem HeapSorting.next {r : Range} {a b d : Array α} {hi : Nat} (h : HeapSorting lt r a hi)
    (hsize : r.upperBound ≤ a.size) (hhi : r.lowerBound < hi) (hlt : hi < r.upperBound)
    (hab : Swapped a b r.lowerBound hi) (hbc : Rearranged ⟨r.lowerBound, hi, Nat.le_of_lt hhi⟩ b d)
    (hc : HeapFrom lt ⟨r.lowerBound, hi, Nat.le_of_lt hhi⟩ d r.lowerBound) :
    HeapSorting lt r d (hi - 1) := by
  have hroot : ∀ i, r.lowerBound ≤ i → i ≤ hi → Le lt a i r.lowerBound := fun i hi1 hi2 =>
    HeapFrom.root ho (r := ⟨r.lowerBound, hi + 1, by omega⟩)
      (fun j k hj hk => h.heap j k ⟨hk.1, by have := hk.2.1; dsimp only at this; omega, hk.2.2⟩
        (Nat.le_of_lt_succ hk.2.1)) (by dsimp only; omega) i ⟨hi1, Nat.lt_succ_of_le hi2⟩
  have hout : ∀ j, hi ≤ j → d[j]? = b[j]? := fun j hj => hbc.outside j (.inr hj)
  refine ⟨fun i j hij hj => hc i j hij.1 ⟨hij.1, ?_, hij.2.2⟩, fun i j hi1 hij hj => ?_,
    fun i j hi1 hi2 hij hj => ?_⟩
  · dsimp only
    omega
  · rcases eq_or_ne i hi with rfl | hne
    · exact (h.below r.lowerBound j (Nat.le_refl _) (by omega) hij hj).congr
        ((hout i (Nat.le_refl _)).trans hab.right)
        ((hout j (by omega)).trans (hab.other j (by omega) (by omega)))
    · exact (h.sorted i j (by omega) hij hj).congr
        ((hout i (by omega)).trans (hab.other i (by omega) (by omega)))
        ((hout j (by omega)).trans (hab.other j (by omega) (by omega)))
  · -- every element of the heap before the sift is at most the one at `j`
    refine fun x y hx hy => hbc.forall (P := fun x => lt y x = false) (fun k hk1 hk2 z hz => ?_) i hi1
      (by dsimp only; omega) x hx
    dsimp only at hk1 hk2
    rw [hout j (by omega)] at hy
    -- where the element at `k` was before the exchange
    obtain ⟨l, hl1, hl2, hl⟩ : ∃ l, r.lowerBound ≤ l ∧ l ≤ hi ∧ b[k]? = a[l]? := by
      rcases eq_or_ne k r.lowerBound with rfl | hne
      · exact ⟨hi, by omega, by omega, hab.left⟩
      · exact ⟨k, hk1, by omega, hab.other k hne (by omega)⟩
    rcases eq_or_ne j hi with rfl | hne
    · exact hroot l hl1 hl2 z y (hl ▸ hz) (hab.right ▸ hy)
    · exact h.below l j hl1 hl2 (by omega) hj z y (hl ▸ hz) (hab.other j (by omega) hne ▸ hy)

theorem heapSortLoop_spec {r : Range} {a : Array α} (hr : S.Covers r a) (fuel hi : Nat)
    (m : Mem α γ) (hm : Rearranged r a m.elements) (hhi : r.lowerBound ≤ hi ∧ hi < r.upperBound)
    (h : HeapSorting lt r m.elements hi) :
    wlp (S.heapSortLoop r.lowerBound fuel hi)
      (fun _ m' => SortedIn lt m'.elements r.lowerBound r.upperBound) m := by
  induction fuel generalizing hi m with
  | zero => trivial
  | succ fuel ih =>
      rw [heapSortLoop, wlp_ite]
      refine ⟨fun heq i j hi' hij hj => ?_, fun hne => ?_⟩
      · rcases Nat.eq_or_lt_of_le hi' with rfl | hlt
        · exact h.below _ j (Nat.le_refl _) (by omega) (by omega) hj
        · exact h.sorted i j (by omega) hij hj
      · have hsize : r.upperBound ≤ m.elements.size := by
          have := hr.2.1
          have := hr.2.2
          have := hm.size_eq
          omega
        have hsub : ∀ m' : Mem α γ, Rearranged r a m'.elements →
            S.Covers ⟨r.lowerBound, hi, hhi.1⟩ m'.elements := fun m' hm' =>
          (hr.of_rearranged hm').sub (Nat.le_refl r.lowerBound) (Nat.le_of_lt hhi.2)
        rw [wlp_bind]
        have hswap := swapAt_safe (Q := fun _ m' => Rearranged r a m'.elements)
          (E := S.Stopped r a) hr hm (i := r.lowerBound) (j := hi) (by omega) (by omega) fun _ h => h
        have hswapped : wlp (S.swapAt r.lowerBound hi)
            (fun _ m' => Swapped m.elements m'.elements r.lowerBound hi) m := wlp_swapAt fun _ h => h
        refine wlp_mono_of_wp hswap hswapped fun _ m₁ hm₁ h₁ => ?_
        rw [wlp_bind]
        refine wlp_halfOpenRange fun hle => ?_
        have hexcept : HeapExcept lt ⟨r.lowerBound, hi, hle⟩ m₁.elements r.lowerBound r.lowerBound := by
          refine ⟨fun i c hi hne hc => ?_, fun i c hi hlo hc => ?_⟩
          · obtain ⟨hc1, hc2, hc3⟩ := hc
            dsimp only at hc1 hc2 hc3
            exact (h.heap i c ⟨hc1, by omega, hc3⟩ (by omega)).congr
              (h₁.other c (by omega) (by omega)) (h₁.other i hne (by omega))
          · obtain ⟨_, _, hlo3⟩ := hlo
            dsimp only at hlo3
            omega
        rw [wlp_bind]
        have hsafe := siftDown_safe (hsub m₁ hm₁) (hi - r.lowerBound) r.lowerBound
          ⟨Nat.le_refl _, Nat.lt_of_le_of_ne hhi.1 (Ne.symm hne)⟩ (Nat.le_refl _) (.refl _ _)
        have hspec := siftDown_spec ho hS (r := ⟨r.lowerBound, hi, hle⟩) r.lowerBound
          (hi - r.lowerBound) r.lowerBound m₁ (Nat.le_refl _) (Nat.le_refl _)
          (by rw [h₁.size_eq]; dsimp only; omega) hexcept
        refine wlp_mono_of_wp hsafe hspec fun _ m₂ hm₂ h₂ => ?_
        rw [wlp_bind]
        refine wlp_indexBefore fun _ => ?_
        have hlt : r.lowerBound < hi := by omega
        exact ih (hi - 1) m₂ (hm₁.trans (hm₂.mono (Nat.le_refl _) (Nat.le_of_lt hhi.2))) (by omega)
          (h.next ho hsize hlt hhi.2 h₁ hm₂ h₂)

theorem heapSort_spec {r : Range} {a : Array α} (hr : S.Covers r a) (hcount : 0 < r.count)
    (m : Mem α γ) (hm : Rearranged r a m.elements) :
    wlp (S.heapSort r) (fun _ m' => SortedIn lt m'.elements r.lowerBound r.upperBound) m := by
  unfold Range.count at hcount
  rw [heapSort, wlp_bind]
  refine wlp_mono_of_wp (heapify_safe hr hm) (heapify_spec ho hS hr m hm) fun _ m₁ hm₁ h₁ => ?_
  rw [wlp_bind]
  refine wlp_indexBefore fun _ => heapSortLoop_spec ho hS hr _ _ m₁ hm₁ (by omega) ⟨?_, ?_, ?_⟩
  · exact fun i c hc _ => h₁ i c hc.1 hc
  · exact fun i j _ _ _ => by omega
  · exact fun i j _ _ _ _ => by omega

end Sorter

end SwiftKStdlib.Sort

namespace SwiftKStdlib.Sort.Sorter

open SwiftKStdlib.Lib SwiftKStdlib.Lib.Prog

variable {α γ ε : Type} {S : Sorter α γ ε}

/-! ## Any predicate -/

/-- Whatever the predicate answers, and wherever it throws, `_introSort` returns or rethrows without
having formed an index outside its subrange, and the array is a permutation of what it was that has
not changed outside the subrange. -/
theorem introSort_any_predicate (S : Sorter α γ ε) (m : Mem α γ)
    (h : S.subRange.upperBound ≤ m.elements.size) :
    wp (S.introSort S.subRange) (fun _ m' => Rearranged S.subRange m.elements m'.elements)
      (S.Stopped S.subRange m.elements) m :=
  introSort_safe ⟨Nat.le_refl _, Nat.le_refl _, h⟩ (.refl _ _)

/-- A predicate that claims every element precedes every other and throws at its third call. -/
def throwingSorter : Sorter Nat Nat Unit where
  subRange := ⟨1, 4, by decide⟩
  areInIncreasingOrder := fun _ _ calls => if calls = 2 then (.error (), calls) else (.ok true, calls + 1)

theorem introSort_any_predicate_throwing :
    wp (throwingSorter.introSort ⟨1, 4, by decide⟩)
      (fun _ m' => Rearranged ⟨1, 4, by decide⟩ #[9, 7, 8, 5, 6] m'.elements)
      (throwingSorter.Stopped ⟨1, 4, by decide⟩ #[9, 7, 8, 5, 6]) ⟨#[9, 7, 8, 5, 6], 0⟩ :=
  introSort_any_predicate throwingSorter ⟨#[9, 7, 8, 5, 6], 0⟩ (by decide)

/-! ## A strict weak ordering -/

section Sorts

variable {lt : α → α → Bool} (ho : StrictWeakOrder lt) (hS : S.Answers lt)
include hS

theorem Stopped.elim {r : Range} {a : Array α} {e : Fault ε} {m : Mem α γ} (h : S.Stopped r a e m) :
    False := by
  cases e with
  | thrown error =>
      obtain ⟨⟨x, y, c, hc⟩, _⟩ := h
      have := hS x y c
      rw [hc] at this
      cases this
  | trap => exact h
  | outOfFuel => exact h

include ho

omit hS in
theorem sortedIn_of_parts {r : Range} {p : Nat} {a b d : Array α} {pivot : α}
    (hp : r.lowerBound ≤ p ∧ p ≤ r.upperBound) (hmost : AtMost lt pivot a r.lowerBound p)
    (hleast : AtLeast lt pivot a p r.upperBound) (hab : Rearranged ⟨r.lowerBound, p, hp.1⟩ a b)
    (hb : SortedIn lt b r.lowerBound p) (hbc : Rearranged ⟨p, r.upperBound, hp.2⟩ b d)
    (hc : SortedIn lt d p r.upperBound) : SortedIn lt d r.lowerBound r.upperBound := by
  have hmost' := hab.forall (P := fun x => lt pivot x = false) hmost
  have hleast' := hbc.forall (P := fun x => lt x pivot = false) fun i hi1 hi2 x hx =>
    hleast i hi1 hi2 x (hab.outside i (.inr hi1) ▸ hx)
  have hleft : ∀ i, i < p → d[i]? = b[i]? := fun i hi => hbc.outside i (.inl hi)
  intro i j hi hij hj
  rcases Nat.lt_or_ge j p with hjp | hjp
  · exact (hb i j hi hij hjp).congr (hleft i (by omega)) (hleft j hjp)
  · rcases Nat.lt_or_ge i p with hip | hip
    · intro x y hx hy
      exact ho.le_trans (hmost' i hi hip x (hleft i hip ▸ hx)) (hleast' j hjp hj y hy)
    · exact hc i j hip hij hj

theorem introSortImpl_sorted (fuel : Nat) {r : Range} (depthLimit : Int64) {m : Mem α γ}
    (hr : S.Covers r m.elements) (hfuel : r.count < fuel ∨ 2 ≤ r.count ∧ r.count ≤ fuel) :
    wlp (S.introSortImpl fuel r depthLimit)
      (fun _ m' => SortedIn lt m'.elements r.lowerBound r.upperBound) m := by
  induction fuel generalizing r m depthLimit with
  | zero => trivial
  | succ fuel ih =>
      rw [introSortImpl, wlp_ite, wlp_ite]
      refine ⟨fun _ => insertionSort_spec ho hS m, fun hcount => ⟨fun _ => ?_, fun _ => ?_⟩⟩
      · exact heapSort_spec ho hS hr (by omega) m (.refl _ _)
      · rw [wlp_bind]
        refine wlp_mono_of_wp (partition_safe hr (by omega) (.refl _ _))
          (partition_spec ho hS (by omega) m) ?_
        rintro p m₁ ⟨hm₁, hp1, hp2⟩ ⟨pivot, hmost, hleast⟩
        have hc : r.count = r.upperBound - r.lowerBound := rfl
        -- a part of the range, before it is sorted
        have hcov : ∀ (r' : Range) (m' : Mem α γ), Rearranged r m.elements m'.elements → r.lowerBound ≤ r'.lowerBound →
            r'.upperBound ≤ r.upperBound → S.Covers r' m'.elements := fun r' m' hm' hlo hhi =>
          (hr.of_rearranged hm').sub hlo hhi
        rw [wlp_bind]
        refine wlp_halfOpenRange fun hle₁ => ?_
        have hcov₁ := hcov ⟨r.lowerBound, p, hle₁⟩ m₁ hm₁ (Nat.le_refl _) (Nat.le_of_lt hp2)
        have hfuel₁ : p - r.lowerBound < fuel ∨ 2 ≤ p - r.lowerBound ∧ p - r.lowerBound ≤ fuel := by
          omega
        rw [wlp_bind]
        refine wlp_mono_of_wp (introSortImpl_safe fuel hcov₁ _ hfuel₁ (.refl _ _))
          (ih _ hcov₁ hfuel₁) fun _ m₂ hm₂ hsorted₂ => ?_
        rw [wlp_bind]
        refine wlp_halfOpenRange fun hle₂ => ?_
        have hcov₂ := hcov ⟨p, r.upperBound, hle₂⟩ m₂
          (hm₁.trans (hm₂.mono (Nat.le_refl _) (Nat.le_of_lt hp2))) (Nat.le_of_lt hp1) (Nat.le_refl _)
        have hfuel₂ : r.upperBound - p < fuel ∨ 2 ≤ r.upperBound - p ∧ r.upperBound - p ≤ fuel := by
          omega
        refine wlp_mono_of_wp (introSortImpl_safe fuel hcov₂ _ hfuel₂ (.refl _ _))
          (ih _ hcov₂ hfuel₂) fun _ m₃ hm₃ hsorted₃ => ?_
        exact sortedIn_of_parts ho ⟨hle₁, hle₂⟩ hmost hleast hm₂ hsorted₂ hm₃ hsorted₃

end Sorts

/-- A run that returns, with the subrange sorted and nothing else changed. -/
structure Sorted (lt : α → α → Bool) (r : Range) (a b : Array α) : Prop where
  rearranged : Rearranged r a b
  perm : (b.extract r.lowerBound r.upperBound).Perm (a.extract r.lowerBound r.upperBound)
  sorted : SortedIn lt b r.lowerBound r.upperBound

/-- With a strict weak ordering `_introSortImpl` sorts its subrange whatever its depth limit, and
`_introSort` does. -/
theorem introSort_sorts (S : Sorter α γ ε) {lt : α → α → Bool} (ho : StrictWeakOrder lt)
    (hS : S.Answers lt) (m : Mem α γ) (h : S.subRange.upperBound ≤ m.elements.size) :
    (∀ depthLimit fuel, S.subRange.count < fuel →
      wp (S.introSortImpl fuel S.subRange depthLimit)
        (fun _ m' => Sorted lt S.subRange m.elements m'.elements) (fun _ _ => False) m) ∧
    wp (S.introSort S.subRange) (fun _ m' => Sorted lt S.subRange m.elements m'.elements)
      (fun _ _ => False) m := by
  have hr : S.Covers S.subRange m.elements := ⟨Nat.le_refl _, Nat.le_refl _, h⟩
  have himpl : ∀ depthLimit fuel,
      (S.subRange.count < fuel ∨ 2 ≤ S.subRange.count ∧ S.subRange.count ≤ fuel) →
      wp (S.introSortImpl fuel S.subRange depthLimit)
        (fun _ m' => Sorted lt S.subRange m.elements m'.elements) (fun _ _ => False) m := by
    intro depthLimit fuel hfuel
    have hsafe := introSortImpl_safe fuel hr depthLimit hfuel (.refl _ _)
    refine wp_mono (wp_of_wlp hsafe (introSortImpl_sorted ho hS fuel depthLimit hr hfuel)) ?_
      fun _ _ h => Stopped.elim hS h
    exact fun _ m' h => ⟨h.1, h.1.extract_perm, h.2⟩
  refine ⟨fun depthLimit fuel hfuel => himpl depthLimit fuel (.inl hfuel), ?_⟩
  rw [introSort, wp_ite]
  refine ⟨fun hcount => ?_, fun hcount => himpl _ _ (by omega)⟩
  unfold Range.count at hcount
  exact ⟨.refl _ _, .refl _, fun i j hi hij hj => by omega⟩

/-- `<` on the natural numbers; the state counts the calls. -/
def countingSorter : Sorter Nat Nat Unit where
  subRange := ⟨1, 4, by decide⟩
  areInIncreasingOrder := fun x y calls => (.ok (decide (x < y)), calls + 1)

theorem strictWeakOrder_lt : StrictWeakOrder fun x y : Nat => decide (x < y) where
  irrefl x := by simp
  trans x y z := by
    simp only [decide_eq_true_eq]
    exact Nat.lt_trans
  incomp x y z := by
    simp only [decide_eq_false_iff_not]
    omega

theorem introSort_sorts_counting :
    wp (countingSorter.introSort ⟨1, 4, by decide⟩)
      (fun _ m' => Sorted (fun x y => decide (x < y)) ⟨1, 4, by decide⟩ #[9, 7, 8, 5, 6] m'.elements)
      (fun _ _ => False) ⟨#[9, 7, 8, 5, 6], 0⟩ :=
  (introSort_sorts countingSorter strictWeakOrder_lt (fun _ _ _ => rfl) ⟨#[9, 7, 8, 5, 6], 0⟩
    (by decide)).2

/-! ## The parts of a partition -/

/-- A run that returns an index inside the subrange, from which on no element precedes one before it. -/
structure Parted (lt : α → α → Bool) (r : Range) (a : Array α) (p : Nat) (b : Array α) : Prop where
  inside : r.lowerBound < p ∧ p < r.upperBound
  rearranged : Rearranged r a b
  perm : (b.extract r.lowerBound r.upperBound).Perm (a.extract r.lowerBound r.upperBound)
  ordered : ∀ i j x y, r.lowerBound ≤ i → i < p → p ≤ j → j < r.upperBound → b[i]? = some x → b[j]? = some y →
    lt y x = false

/-- With a strict weak ordering `_partition` returns such an index. -/
theorem partition_parts (S : Sorter α γ ε) {lt : α → α → Bool} (ho : StrictWeakOrder lt) (hS : S.Answers lt)
    (m : Mem α γ) (h : S.subRange.upperBound ≤ m.elements.size) (hcount : 3 ≤ S.subRange.count) :
    wp (S.partition S.subRange) (fun p m' => Parted lt S.subRange m.elements p m'.elements) (fun _ _ => False) m := by
  have hr : S.Covers S.subRange m.elements := ⟨Nat.le_refl _, Nat.le_refl _, h⟩
  have hsafe := partition_safe hr hcount (.refl _ _)
  refine wp_mono (wp_of_wlp hsafe (partition_spec ho hS hcount m)) ?_ fun _ _ h => Stopped.elim hS h
  rintro p m' ⟨⟨hm', hp1, hp2⟩, pivot, hmost, hleast⟩
  refine ⟨⟨hp1, hp2⟩, hm', hm'.extract_perm, fun i j x y hi hip hpj hj hx hy => ?_⟩
  -- The pivot is between them.
  exact ho.le_trans (hmost i hi hip x hx) (hleast j hpj hj y hy)

theorem partition_parts_counting :
    wp (countingSorter.partition ⟨1, 4, by decide⟩)
      (fun p m' => Parted (fun x y => decide (x < y)) ⟨1, 4, by decide⟩ #[9, 7, 8, 5, 6] p m'.elements)
      (fun _ _ => False) ⟨#[9, 7, 8, 5, 6], 0⟩ :=
  partition_parts countingSorter strictWeakOrder_lt (fun _ _ _ => rfl) ⟨#[9, 7, 8, 5, 6], 0⟩ (by decide) (by decide)

end SwiftKStdlib.Sort.Sorter
