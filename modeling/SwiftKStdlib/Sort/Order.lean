import SwiftKStdlib.Sort.Safety

/-!
# Sorting with a strict weak ordering

* `StrictWeakOrder lt`, and `Le lt a i j` : the element at `j` does not precede the one at `i`;
* `Answers S lt` : the client's predicate is `lt`, whatever state it keeps;
* for each function of `Basic` what it does to the order of the elements, by the rules `wlp_get`,
  `wlp_set`, `wlp_swapAt`, `wlp_less`, which leave the bounds to `Safety`;
* `introSortImpl_sorted` for every depth limit.
-/

namespace SwiftKStdlib.Sort

open SwiftKStdlib.Lib SwiftKStdlib.Lib.Prog

variable {α γ ε : Type}

/-- What Swift documents a predicate `areInIncreasingOrder` to be. -/
structure StrictWeakOrder (lt : α → α → Bool) : Prop where
  irrefl : ∀ x, lt x x = false
  trans : ∀ x y z, lt x y = true → lt y z = true → lt x z = true
  /-- Incomparability is transitive. -/
  incomp : ∀ x y z, lt x y = false → lt y x = false → lt y z = false → lt z y = false →
    lt x z = false ∧ lt z x = false

namespace StrictWeakOrder

variable {lt : α → α → Bool} (ho : StrictWeakOrder lt)
include ho

theorem asymm {x y : α} (h : lt x y = true) : lt y x = false := by
  by_contra hyx
  have := ho.trans x y x h (by simpa using hyx)
  rw [ho.irrefl] at this
  exact Bool.noConfusion this

theorem le_trans {x y z : α} (hxy : lt y x = false) (hyz : lt z y = false) : lt z x = false := by
  by_contra hzx
  rw [Bool.not_eq_false] at hzx
  -- `z < x` and `¬ y < x` rule out `x < y` and `y < z`, so all three would be incomparable
  have hx : lt x y = false := by
    by_contra h
    rw [Bool.not_eq_false] at h
    rw [ho.trans z x y hzx h] at hyz
    exact Bool.noConfusion hyz
  have hz : lt y z = false := by
    by_contra h
    rw [Bool.not_eq_false] at h
    rw [ho.trans y z x h hzx] at hxy
    exact Bool.noConfusion hxy
  have := (ho.incomp x y z hx hxy hz hyz).2
  rw [hzx] at this
  exact Bool.noConfusion this

end StrictWeakOrder

/-- The element at `j` does not precede the element at `i`. -/
def Le (lt : α → α → Bool) (a : Array α) (i j : Nat) : Prop :=
  ∀ x y, a[i]? = some x → a[j]? = some y → lt y x = false

/-- No later element of `lo ..< hi` precedes an earlier one. -/
def SortedIn (lt : α → α → Bool) (a : Array α) (lo hi : Nat) : Prop :=
  ∀ i j, lo ≤ i → i < j → j < hi → Le lt a i j

theorem Le.trans {lt : α → α → Bool} (ho : StrictWeakOrder lt) {a : Array α} {i j k : Nat}
    (hij : Le lt a i j) (hjk : Le lt a j k) (hj : j < a.size) : Le lt a i k := fun x z hx hz =>
  ho.le_trans (hij x a[j] hx (Array.getElem?_eq_getElem hj))
    (hjk a[j] z (Array.getElem?_eq_getElem hj) hz)

theorem Le.refl {lt : α → α → Bool} (ho : StrictWeakOrder lt) (a : Array α) (i : Nat) :
    Le lt a i i := fun x y hx hy => by
  rw [hx] at hy
  rw [Option.some.inj hy]
  exact ho.irrefl y

theorem Le.congr {lt : α → α → Bool} {a b : Array α} {i j k l : Nat} (h : Le lt a i j)
    (hi : b[k]? = a[i]?) (hj : b[l]? = a[j]?) : Le lt b k l := fun x y hx hy =>
  h x y (hi ▸ hx) (hj ▸ hy)

theorem Rearranged.forall {r : Range} {a b : Array α} (h : Rearranged r a b) {P : α → Prop}
    (hP : ∀ i, r.lowerBound ≤ i → i < r.upperBound → ∀ x, a[i]? = some x → P x) :
    ∀ i, r.lowerBound ≤ i → i < r.upperBound → ∀ x, b[i]? = some x → P x := by
  intro i hlo hhi x hx
  have hmem : x ∈ b.extract r.lowerBound r.upperBound := by
    rw [Array.mem_iff_getElem?]
    refine ⟨i - r.lowerBound, ?_⟩
    have hlt : i < b.size := (Array.getElem?_eq_some_iff.1 hx).1
    rw [Array.getElem?_extract, if_pos (by omega), Nat.add_sub_cancel' hlo, hx]
  rw [h.extract_perm.mem_iff, Array.mem_iff_getElem?] at hmem
  obtain ⟨k, hk⟩ := hmem
  rw [Array.getElem?_extract] at hk
  split at hk
  · exact hP _ (by omega) (by omega) x hk
  · cases hk

/-- `b` is `a` with the elements at `i` and `j` exchanged. -/
structure Swapped (a b : Array α) (i j : Nat) : Prop where
  size_eq : b.size = a.size
  left : b[i]? = a[j]?
  right : b[j]? = a[i]?
  other : ∀ k, k ≠ i → k ≠ j → b[k]? = a[k]?

theorem Swapped.swap (a : Array α) {i j : Nat} (hi : i < a.size) (hj : j < a.size) :
    Swapped a (a.swap i j hi hj) i j := by
  refine ⟨Array.size_swap, ?_, ?_, fun k hki hkj => ?_⟩
  · rcases eq_or_ne j i with rfl | hji
    · rw [Array.getElem?_swap, if_pos rfl, Array.getElem?_eq_getElem hi]
    · rw [Array.getElem?_swap, if_neg hji, if_pos rfl, Array.getElem?_eq_getElem hj]
  · rw [Array.getElem?_swap, if_pos rfl, Array.getElem?_eq_getElem hi]
  · rw [Array.getElem?_swap, if_neg (Ne.symm hkj), if_neg (Ne.symm hki)]

namespace Sorter

variable {S : Sorter α γ ε} {lt : α → α → Bool}

variable (S lt) in
/-- The client's predicate is `lt`, whatever its state, and does not throw. -/
def Answers : Prop := ∀ x y c, (S.areInIncreasingOrder x y c).1 = .ok (lt x y)

/-! ## The primitive operations -/

section Primitives

variable {m : Mem α γ} {i j : Nat}

theorem wlp_get {Q : α → Mem α γ → Prop} (hQ : ∀ x, m.elements[i]? = some x → Q x m) :
    wlp (S.get i) Q m := by
  by_cases h : S.Inside m i
  · exact wp_get h hQ
  · unfold wlp wp get
    rw [dif_neg h]
    trivial

theorem wlp_set {Q : PUnit → Mem α γ → Prop} {x : α}
    (hQ : i < m.elements.size → Q ⟨⟩ { m with elements := m.elements.setIfInBounds i x }) :
    wlp (S.set i x) Q m := by
  by_cases h : S.Inside m i
  · refine wp_set h ?_
    have := hQ h.2.2
    rwa [Array.setIfInBounds, dif_pos h.2.2] at this
  · unfold wlp wp set
    rw [dif_neg h]
    trivial

theorem wlp_swapAt {Q : PUnit → Mem α γ → Prop}
    (hQ : ∀ m', Swapped m.elements m'.elements i j → Q ⟨⟩ m') : wlp (S.swapAt i j) Q m := by
  by_cases h : S.Inside m i ∧ S.Inside m j
  · exact wp_swapAt h.1 h.2 (hQ _ (.swap _ _ _))
  · unfold wlp wp swapAt
    rw [dif_neg h]
    trivial

theorem wlp_index {Q : Nat → Mem α γ → Prop} (hQ : Q i m) : wlp (S.index i) Q m := by
  unfold wlp wp index
  split_ifs
  · exact hQ
  · trivial

theorem wlp_indexBefore {Q : Nat → Mem α γ → Prop} (hQ : 0 < i → Q (i - 1) m) :
    wlp (S.indexBefore i) Q m := by
  cases i with
  | zero => trivial
  | succ i => exact wlp_index (hQ (Nat.succ_pos i))

theorem wlp_less (hS : S.Answers lt) {Q : Bool → Mem α γ → Prop} {x y : α}
    (hQ : ∀ m', m'.elements = m.elements → Q (lt x y) m') : wlp (S.less x y) Q m := by
  have h := hS x y m.client
  unfold wlp wp less
  rcases hc : S.areInIncreasingOrder x y m.client with ⟨e | b, c⟩
  · trivial
  · rw [hc] at h
    rw [← Except.ok.inj h] at hQ
    exact hQ _ rfl

theorem wlp_halfOpenRange {Q : Range → Mem α γ → Prop} (hQ : ∀ h : i ≤ j, Q ⟨i, j, h⟩ m) :
    wlp (halfOpenRange i j : SortM α γ ε Range) Q m := by
  unfold halfOpenRange
  split_ifs with h
  · exact hQ h
  · trivial

end Primitives

variable (ho : StrictWeakOrder lt) (hS : S.Answers lt)
include ho hS

/-! ## `_insertionSort` -/

/-- While `x` is held at `i`: the other elements up to `sortedEnd` are in order, and those after `i`
are not preceded by `x`. -/
structure Shifting (lt : α → α → Bool) (a : Array α) (x : α) (start sortedEnd i : Nat) : Prop where
  others : ∀ j k, start ≤ j → j < k → k ≤ sortedEnd → j ≠ i → k ≠ i → Le lt a j k
  after : ∀ k, i < k → k ≤ sortedEnd → ∀ y, a[k]? = some y → lt y x = false

omit ho hS in
theorem Shifting.shift {a : Array α} {x p : α} {start sortedEnd i : Nat}
    (h : Shifting lt a x start sortedEnd (i + 1)) (hi : start ≤ i ∧ i + 1 ≤ sortedEnd)
    (hp : a[i]? = some p) (hlt : lt p x = false) :
    Shifting lt (a.setIfInBounds (i + 1) p) x start sortedEnd i := by
  have hget : ∀ k, k ≠ i + 1 → (a.setIfInBounds (i + 1) p)[k]? = a[k]? := fun k hk => by
    rw [Array.getElem?_setIfInBounds, if_neg (Ne.symm hk)]
  have hset : i + 1 < a.size → (a.setIfInBounds (i + 1) p)[i + 1]? = a[i]? := fun hlt => by
    rw [Array.getElem?_setIfInBounds, if_pos rfl, if_pos hlt, hp]
  have hnone : ¬ i + 1 < a.size → (a.setIfInBounds (i + 1) p)[i + 1]? = none := fun hlt => by
    rw [Array.getElem?_setIfInBounds, if_pos rfl, if_neg hlt]
  constructor
  · intro j k hj hjk hk hji hki
    by_cases hsize : i + 1 < a.size
    · rcases eq_or_ne j (i + 1) with rfl | hj1
      · exact (h.others i k hi.1 (by omega) hk (by omega) (by omega)).congr (hset hsize)
          (hget k (by omega))
      · rcases eq_or_ne k (i + 1) with rfl | hk1
        · exact (h.others j i hj (by omega) (by omega) hj1 (by omega)).congr (hget j hj1) (hset hsize)
        · exact (h.others j k hj hjk hk hj1 hk1).congr (hget j hj1) (hget k hk1)
    · intro y z hy hz
      rcases eq_or_ne k (i + 1) with rfl | hk1
      · rw [hnone hsize] at hz
        cases hz
      · rcases eq_or_ne j (i + 1) with rfl | hj1
        · rw [hnone hsize] at hy
          cases hy
        · rw [hget j hj1] at hy
          rw [hget k hk1] at hz
          exact h.others j k hj hjk hk hj1 hk1 y z hy hz
  · intro k hik hk y hy
    rcases eq_or_ne k (i + 1) with rfl | hk1
    · by_cases hsize : i + 1 < a.size
      · rw [hset hsize, hp] at hy
        rw [← Option.some.inj hy]
        exact hlt
      · rw [hnone hsize] at hy
        cases hy
    · rw [hget k hk1] at hy
      exact h.after k (by omega) hk y hy

theorem insertionShift_spec (x : α) (start sortedEnd i : Nat) (m : Mem α γ)
    (hi : start < i ∧ i ≤ sortedEnd) (h : Shifting lt m.elements x start sortedEnd i) :
    wlp (S.insertionShift x start i) (fun j m' => start ≤ j ∧ j ≤ i ∧
      Shifting lt m'.elements x start sortedEnd j ∧ (j = i → m'.elements = m.elements) ∧
      ∀ k, start ≤ k → k < j → ∀ y, m'.elements[k]? = some y → lt x y = false) m := by
  induction i generalizing m with
  | zero => omega
  | succ i ih =>
      simp only [insertionShift, wlp_bind]
      refine wlp_index (wlp_get fun p hp => ?_)
      refine wlp_tryCatch_throw _ _ (fun e s' => ?_) (wlp_less hS fun m' hm' => ?_)
      · exact (wlp_bind _ _).2 (wlp_set fun _ => trivial)
      · rw [← hm'] at h hp
        rw [wlp_ite]
        refine ⟨fun hlt => ?_, fun hlt => ⟨by omega, by omega, h, fun _ => hm', fun k hk hki y hy => ?_⟩⟩
        · rw [wlp_bind]
          refine wlp_set fun _ => ?_
          have hshift := h.shift (by omega) hp (ho.asymm hlt)
          rw [wlp_ite]
          refine ⟨fun heq => ⟨by omega, by omega, hshift, fun _ => by omega, fun k hk hki => by omega⟩,
            fun hne => wlp_mono (ih _ (by omega) hshift) ?_⟩
          rintro j m'' ⟨hj1, hj2, hj3, -, hj4⟩
          exact ⟨hj1, by omega, hj3, fun _ => by omega, hj4⟩
        · -- `x` does not precede its predecessor, so it precedes nothing before it
          have hxp : lt x p = false := by simpa using hlt
          rcases eq_or_ne k i with rfl | hne
          · rw [hy] at hp
            rw [Option.some.inj hp]
            exact hxp
          · exact ho.le_trans (h.others k i hk (by omega) (by omega) (by omega) (by omega) y p hy hp)
              hxp

omit ho hS in
theorem Shifting.sorted {a : Array α} {x : α} {start sortedEnd i : Nat}
    (h : Shifting lt a x start sortedEnd i)
    (hbefore : ∀ k, start ≤ k → k < i → ∀ y, a[k]? = some y → lt x y = false) (hx : a[i]? = some x)
    (hi : i ≤ sortedEnd) : SortedIn lt a start (sortedEnd + 1) := by
  intro j k hj hjk hk y z hy hz
  rcases eq_or_ne j i with rfl | hji
  · rw [hx] at hy
    rw [← Option.some.inj hy]
    exact h.after k hjk (by omega) z hz
  · rcases eq_or_ne k i with rfl | hki
    · rw [hx] at hz
      rw [← Option.some.inj hz]
      exact hbefore j hj hjk y hy
    · exact h.others j k hj hjk (by omega) hji hki y z hy hz

omit ho hS in
theorem Shifting.setIfInBounds {a : Array α} {x : α} {start sortedEnd i : Nat}
    (h : Shifting lt a x start sortedEnd i) :
    Shifting lt (a.setIfInBounds i x) x start sortedEnd i := by
  have hget : ∀ k, k ≠ i → (a.setIfInBounds i x)[k]? = a[k]? := fun k hk => by
    rw [Array.getElem?_setIfInBounds, if_neg (Ne.symm hk)]
  refine ⟨fun j k hj hjk hk hji hki => ?_, fun k hik hk y hy => ?_⟩
  · exact (h.others j k hj hjk hk hji hki).congr (hget j hji) (hget k hki)
  · rw [hget k (by omega)] at hy
    exact h.after k hik hk y hy

theorem insertionLoop_spec {r : Range} (fuel sortedEnd : Nat) (m : Mem α γ)
    (hlo : r.lowerBound < sortedEnd) (h : SortedIn lt m.elements r.lowerBound sortedEnd) :
    wlp (S.insertionLoop r fuel sortedEnd)
      (fun _ m' => SortedIn lt m'.elements r.lowerBound r.upperBound) m := by
  induction fuel generalizing sortedEnd m with
  | zero => trivial
  | succ fuel ih =>
      rw [insertionLoop, wlp_ite]
      refine ⟨fun heq => heq ▸ h, fun _ => ?_⟩
      rw [wlp_bind]
      refine wlp_get fun x hx => ?_
      have hshift : Shifting lt m.elements x r.lowerBound sortedEnd sortedEnd :=
        ⟨fun j k hj hjk hk _ hke => h j k hj hjk (by omega), fun k hk hk' => by omega⟩
      rw [wlp_bind]
      refine wlp_mono (insertionShift_spec ho hS x _ sortedEnd sortedEnd m (by omega) hshift) ?_
      rintro i m' ⟨_, hi2, hshift', heq, hbefore⟩
      have hnext : ∀ m'' : Mem α γ, SortedIn lt m''.elements r.lowerBound (sortedEnd + 1) →
          wlp (S.indexAfter sortedEnd >>= S.insertionLoop r fuel)
            (fun _ m' => SortedIn lt m'.elements r.lowerBound r.upperBound) m'' := fun m'' h'' => by
        rw [wlp_bind]
        exact wlp_index (ih _ _ (by omega) h'')
      simp only [wlp_ite, wlp_bind] at hnext ⊢
      refine ⟨fun hi => hnext m' (hshift'.sorted hbefore ?_ hi2), fun _ => wlp_set fun hsize => ?_⟩
      · rw [heq hi, hi, hx]
      · refine hnext _ (hshift'.setIfInBounds.sorted (fun k hk hki y hy => ?_) ?_ hi2)
        · rw [Array.getElem?_setIfInBounds, if_neg (by omega)] at hy
          exact hbefore k hk hki y hy
        · rw [Array.getElem?_setIfInBounds, if_pos rfl, if_pos hsize]

theorem insertionSort_spec {r : Range} (m : Mem α γ) :
    wlp (S.insertionSort r) (fun _ m' => SortedIn lt m'.elements r.lowerBound r.upperBound) m := by
  rw [insertionSort, wlp_ite]
  refine ⟨fun hempty => ?_, fun _ => ?_⟩
  · simp only [Range.isEmpty, beq_iff_eq] at hempty
    exact fun i j hi hij hj => by omega
  · rw [wlp_bind]
    exact wlp_index (insertionLoop_spec ho hS _ _ m (by omega) fun i j hi hij hj => by omega)

/-! ## `_partition` -/

omit ho in
theorem less_get_get_spec {i j : Nat} {m : Mem α γ} {Q : Bool → Mem α γ → Prop}
    (hQ : ∀ m' x y, m'.elements = m.elements → m'.elements[i]? = some x → m'.elements[j]? = some y →
      Q (lt x y) m') :
    wlp (S.get i) (fun x m₁ => wlp (S.get j) (fun y m₂ => wlp (S.less x y) Q m₂) m₁) m :=
  wlp_get fun x hx => wlp_get fun y hy => wlp_less hS fun m' hm' =>
    hQ m' x y hm' (hm' ▸ hx) (hm' ▸ hy)

theorem sort3_spec {i j k : Nat} (hij : i < j) (hjk : j < k) (m : Mem α γ) :
    wlp (S.sort3 i j k) (fun _ m' => Le lt m'.elements i j ∧ Le lt m'.elements j k) m := by
  simp only [sort3, wlp_bind]
  refine less_get_get_spec hS fun m₁ b a _ hb ha => ?_
  refine less_get_get_spec hS fun m₂ c b' hm hc hb' => ?_
  rw [← hm] at ha hb
  obtain rfl : b = b' := Option.some.inj (hb.symm.trans hb')
  -- the values at the three indices decide `Le`
  have hle : ∀ m' : Mem α γ, ∀ x y z, m'.elements[i]? = some x → m'.elements[j]? = some y →
      m'.elements[k]? = some z → lt y x = false → lt z y = false →
      Le lt m'.elements i j ∧ Le lt m'.elements j k := by
    intro m' x y z hx hy hz hyx hzy
    constructor
    · intro x' y' hx' hy'
      rw [← Option.some.inj (hx.symm.trans hx'), ← Option.some.inj (hy.symm.trans hy')]
      exact hyx
    · intro y' z' hy' hz'
      rw [← Option.some.inj (hy.symm.trans hy'), ← Option.some.inj (hz.symm.trans hz')]
      exact hzy
  rcases hba : lt b a with _ | _ <;> rcases hcb : lt c b with _ | _ <;>
    simp only [wlp_bind, wlp_ite, wlp_pure]
  case false.false => exact hle m₂ a b c ha hb hc hba hcb
  case true.true =>
    refine wlp_swapAt fun m' h => hle m' c b a ?_ ?_ ?_ (ho.asymm hcb) (ho.asymm hba)
    · rw [h.left, hc]
    · rw [h.other j (by omega) (by omega), hb]
    · rw [h.right, ha]
  case true.false =>
    refine wlp_swapAt fun m₃ h₃ => less_get_get_spec hS fun m₄ x y hm₄ hx hy => ?_
    rw [← hm₄] at h₃
    have hb₄ : m₄.elements[i]? = some b := by rw [h₃.left, hb]
    have ha₄ : m₄.elements[j]? = some a := by rw [h₃.right, ha]
    have hc₄ : m₄.elements[k]? = some c := by rw [h₃.other k (by omega) (by omega), hc]
    obtain rfl : c = x := Option.some.inj (hc₄.symm.trans hx)
    obtain rfl : a = y := Option.some.inj (ha₄.symm.trans hy)
    refine ⟨fun hca => wlp_swapAt fun m' h => ?_, fun hca => ?_⟩
    · refine hle m' b c a ?_ ?_ ?_ hcb (ho.asymm hca)
      · rw [h.other i (by omega) (by omega), hb₄]
      · rw [h.left, hc₄]
      · rw [h.right, ha₄]
    · exact hle m₄ b a c hb₄ ha₄ hc₄ (ho.asymm hba) (by simpa using hca)
  case false.true =>
    refine wlp_swapAt fun m₃ h₃ => less_get_get_spec hS fun m₄ x y hm₄ hx hy => ?_
    rw [← hm₄] at h₃
    have ha₄ : m₄.elements[i]? = some a := by rw [h₃.other i (by omega) (by omega), ha]
    have hc₄ : m₄.elements[j]? = some c := by rw [h₃.left, hc]
    have hb₄ : m₄.elements[k]? = some b := by rw [h₃.right, hb]
    obtain rfl : c = x := Option.some.inj (hc₄.symm.trans hx)
    obtain rfl : a = y := Option.some.inj (ha₄.symm.trans hy)
    refine ⟨fun hca => wlp_swapAt fun m' h => ?_, fun hca => ?_⟩
    · refine hle m' c a b ?_ ?_ ?_ (ho.asymm hca) hba
      · rw [h.left, hc₄]
      · rw [h.right, ha₄]
      · rw [h.other k (by omega) (by omega), hb₄]
    · exact hle m₄ a c b ha₄ hc₄ hb₄ (by simpa using hca) (ho.asymm hcb)

/-- The elements of `lo ..< hi` are at most `pivot`. -/
def AtMost (lt : α → α → Bool) (pivot : α) (a : Array α) (lo hi : Nat) : Prop :=
  ∀ i, lo ≤ i → i < hi → ∀ x, a[i]? = some x → lt pivot x = false

/-- The elements of `lo ..< hi` are at least `pivot`. -/
def AtLeast (lt : α → α → Bool) (pivot : α) (a : Array α) (lo hi : Nat) : Prop :=
  ∀ i, lo ≤ i → i < hi → ∀ x, a[i]? = some x → lt x pivot = false

theorem findLo_spec (pivot : α) (start hi fuel lo : Nat) (m : Mem α γ) (hlo : lo ≤ hi)
    (h : AtMost lt pivot m.elements start lo) :
    wlp (S.findLo pivot hi fuel lo) (fun p m' => m'.elements = m.elements ∧
      AtMost lt pivot m.elements start p.1 ∧ (p.2 = false → p.1 = hi) ∧
      (p.2 = true → p.1 < hi ∧ ∀ x, m.elements[p.1]? = some x → lt x pivot = false)) m := by
  induction fuel generalizing lo m with
  | zero => trivial
  | succ fuel ih =>
      rw [findLo, wlp_ite]
      refine ⟨fun heq => ⟨rfl, h, fun _ => heq, by simp⟩, fun _ => ?_⟩
      simp only [wlp_ite, wlp_bind, wlp_pure]
      refine wlp_get fun x hx => wlp_less hS fun m' hm' => ⟨fun hlt => wlp_index ?_, fun hlt => ?_⟩
      · rw [← hm'] at h hx ⊢
        refine ih _ _ (by omega) fun i hi1 hi2 y hy => ?_
        rcases eq_or_ne i lo with rfl | hne
        · rw [← Option.some.inj (hx.symm.trans hy)]
          exact ho.asymm hlt
        · exact h i hi1 (by omega) y hy
      · refine ⟨hm', h, by simp, fun _ => ⟨by omega, fun y hy => ?_⟩⟩
        rw [← Option.some.inj (hx.symm.trans hy)]
        simpa using hlt

theorem findHi_spec (pivot : α) (lo stop fuel hi : Nat) (m : Mem α γ) (hhi : lo ≤ hi)
    (h : AtLeast lt pivot m.elements (hi + 1) stop) :
    wlp (S.findHi pivot lo fuel hi) (fun p m' => m'.elements = m.elements ∧
      AtLeast lt pivot m.elements (p.1 + 1) stop ∧ (p.2 = false → p.1 = lo) ∧
      (p.2 = true → lo < p.1 ∧ ∀ x, m.elements[p.1]? = some x → lt pivot x = false)) m := by
  induction fuel generalizing hi m with
  | zero => trivial
  | succ fuel ih =>
      rw [findHi, wlp_ite]
      refine ⟨fun heq => ⟨rfl, h, fun _ => heq, by simp⟩, fun _ => ?_⟩
      simp only [wlp_ite, wlp_bind, wlp_pure]
      refine wlp_get fun x hx => wlp_less hS fun m' hm' =>
        ⟨fun hlt => ?_, fun hlt => wlp_indexBefore fun hpos => ?_⟩
      · refine ⟨hm', h, by simp, fun _ => ⟨by omega, fun y hy => ?_⟩⟩
        rw [← Option.some.inj (hx.symm.trans hy)]
        exact ho.asymm hlt
      · rw [← hm'] at h hx ⊢
        refine ih _ _ (by omega) fun i hi1 hi2 y hy => ?_
        rcases eq_or_ne i hi with rfl | hne
        · rw [← Option.some.inj (hx.symm.trans hy)]
          simpa using hlt
        · exact h i (by omega) hi2 y hy

theorem partitionLoop_spec (pivot : α) (r : Range) (fuel lo hi : Nat) (m : Mem α γ)
    (hlohi : lo < hi) (hlo : AtMost lt pivot m.elements r.lowerBound (lo + 1))
    (hhi : AtLeast lt pivot m.elements hi r.upperBound) :
    wlp (S.partitionLoop pivot r fuel lo hi) (fun p m' =>
      AtMost lt pivot m'.elements r.lowerBound p ∧ AtLeast lt pivot m'.elements p r.upperBound) m := by
  induction fuel generalizing lo hi m with
  | zero => trivial
  | succ fuel ih =>
      rw [partitionLoop, wlp_bind]
      refine wlp_index ?_
      rw [wlp_bind]
      refine wlp_mono (findLo_spec ho hS pivot r.lowerBound hi _ _ m hlohi hlo) ?_
      rintro ⟨lo', found⟩ m₁ ⟨hm₁, hlo', hend, hat⟩
      dsimp only at hlo' hend hat ⊢
      rw [← hm₁] at hlo' hat hhi
      rw [wlp_ite]
      refine ⟨fun hfound => ?_, fun hfound => ⟨hlo', ?_⟩⟩
      · obtain ⟨hlt, hlo_at⟩ := hat hfound
        rw [wlp_bind]
        refine wlp_indexBefore fun hpos => ?_
        rw [wlp_bind]
        refine wlp_mono (findHi_spec ho hS pivot lo' r.upperBound _ (hi - 1) m₁ (by omega) ?_) ?_
        · rwa [Nat.sub_add_cancel hpos]
        · rintro ⟨hi', found'⟩ m₂ ⟨hm₂, hhi', hend', hat'⟩
          dsimp only at hhi' hend' hat' ⊢
          rw [← hm₂] at hhi' hat' hlo' hlo_at
          rw [wlp_ite]
          refine ⟨fun hfound' => ?_, fun hfound' => ⟨hlo', fun i hi1 hi2 x hx => ?_⟩⟩
          · obtain ⟨hlt', hhi_at⟩ := hat' hfound'
            rw [wlp_bind]
            refine wlp_swapAt fun m₃ hswap => ih lo' hi' m₃ hlt' ?_ ?_
            · intro i hi1 hi2 x hx
              rcases eq_or_ne i lo' with rfl | hne
              · exact hhi_at x (hswap.left ▸ hx)
              · exact hlo' i hi1 (by omega) x (hswap.other i hne (by omega) ▸ hx)
            · intro i hi1 hi2 x hx
              rcases eq_or_ne i hi' with rfl | hne
              · exact hlo_at x (hswap.right ▸ hx)
              · exact hhi' i (by omega) hi2 x (hswap.other i (by omega) hne ▸ hx)
          · rcases eq_or_ne i lo' with rfl | hne
            · exact hlo_at x hx
            · have := hend' (by simpa using hfound')
              exact hhi' i (by omega) hi2 x hx
      · rw [hend (by simpa using hfound)]
        exact hhi

theorem partition_spec {r : Range} (hcount : 3 ≤ r.count) (m : Mem α γ) :
    wlp (S.partition r) (fun p m' => ∃ pivot, AtMost lt pivot m'.elements r.lowerBound p ∧
      AtLeast lt pivot m'.elements p r.upperBound) m := by
  unfold Range.count at hcount
  simp only [partition, wlp_bind]
  refine wlp_indexBefore fun _ => wlp_index ?_
  refine wlp_mono (sort3_spec ho hS (by omega) (by omega) m) fun _ m₁ h => ?_
  refine wlp_get fun pivot hpivot => ?_
  refine wlp_mono (partitionLoop_spec ho hS pivot r _ _ _ m₁ (by omega) ?_ ?_)
    fun p m₂ h => ⟨pivot, h⟩
  · intro i hi1 hi2 x hx
    obtain rfl : i = r.lowerBound := by omega
    exact h.1 x pivot hx hpivot
  · intro i hi1 hi2 x hx
    obtain rfl : i = r.upperBound - 1 := by omega
    exact h.2 pivot x hpivot hx

end Sorter

end SwiftKStdlib.Sort
