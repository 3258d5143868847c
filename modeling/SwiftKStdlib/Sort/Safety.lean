import Mathlib
import SwiftKStdlib.Sort.Basic

/-!
# Sorting with any predicate

Whatever the client's predicate answers, and whether or not it throws, the sorting functions stay
inside their subrange, stop, and leave a rearrangement of what they were given.

* `Rearranged r a b` : `b` is a permutation of `a` that agrees with it outside `r`;
* `Stopped S r a` : the run ended early because the predicate threw, with a rearrangement in place;
* `wp_get`, `wp_set`, `wp_swapAt`, `wp_index`, `wp_less` : the rules of the primitive operations;
* one lemma for each function of `Basic`, up to `introSort_safe`.
-/

namespace SwiftKStdlib.Sort

open SwiftKStdlib.Lib SwiftKStdlib.Lib.Prog

variable {α γ ε : Type}

/-! ## Rearrangements -/

/-- `b` is a permutation of `a` that agrees with it outside `r`. -/
structure Rearranged (r : Range) (a b : Array α) : Prop where
  perm : b.Perm a
  outside : ∀ i, i < r.lowerBound ∨ r.upperBound ≤ i → b[i]? = a[i]?

namespace Rearranged

variable {r r' : Range} {a b c : Array α}

theorem refl (r : Range) (a : Array α) : Rearranged r a a := ⟨.refl a, fun _ _ => rfl⟩

theorem trans (h : Rearranged r a b) (h' : Rearranged r b c) : Rearranged r a c :=
  ⟨h'.perm.trans h.perm, fun i hi => (h'.outside i hi).trans (h.outside i hi)⟩

theorem size_eq (h : Rearranged r a b) : b.size = a.size := h.perm.size_eq

theorem mono (h : Rearranged r a b) (hlo : r'.lowerBound ≤ r.lowerBound)
    (hhi : r.upperBound ≤ r'.upperBound) : Rearranged r' a b :=
  ⟨h.perm, fun i hi => h.outside i (by omega)⟩

theorem swap (r : Range) (a : Array α) {i j : Nat} (hi : i < a.size) (hj : j < a.size)
    (hri : r.lowerBound ≤ i ∧ i < r.upperBound) (hrj : r.lowerBound ≤ j ∧ j < r.upperBound) :
    Rearranged r a (a.swap i j hi hj) := by
  refine ⟨Array.swap_perm hi hj, fun k hk => ?_⟩
  rw [Array.getElem?_swap, if_neg (by omega), if_neg (by omega)]

theorem extract_perm (h : Rearranged r a b) :
    (b.extract r.lowerBound r.upperBound).Perm (a.extract r.lowerBound r.upperBound) :=
  h.perm.extract (fun i hi => h.outside i (.inl hi)) fun i hi => h.outside i (.inr hi)

end Rearranged

namespace Sorter

variable (S : Sorter α γ ε)

/-- The client's predicate can throw `error`. -/
def Throws (error : ε) : Prop := ∃ x y c, (S.areInIncreasingOrder x y c).1 = .error error

/-- The run ended early because the predicate threw, with a rearrangement of `a` in place. -/
def Stopped (r : Range) (a : Array α) : Fault ε → Mem α γ → Prop
  | .thrown error, m => S.Throws error ∧ Rearranged r a m.elements
  | .trap, _ => False
  | .outOfFuel, _ => False

/-- `r` is a part of the call's subrange, which is a part of `a`. -/
def Covers (r : Range) (a : Array α) : Prop :=
  S.subRange.lowerBound ≤ r.lowerBound ∧ r.upperBound ≤ S.subRange.upperBound ∧
    S.subRange.upperBound ≤ a.size

variable {S}

theorem Stopped.mono {r r' : Range} {a b : Array α} {e : Fault ε} {m : Mem α γ}
    (h : S.Stopped r b e m) (hab : Rearranged r' a b) (hlo : r'.lowerBound ≤ r.lowerBound)
    (hhi : r.upperBound ≤ r'.upperBound) : S.Stopped r' a e m := by
  cases e with
  | thrown error => exact ⟨h.1, hab.trans (h.2.mono hlo hhi)⟩
  | trap => exact h
  | outOfFuel => exact h

/-! ## The primitive operations -/

section Primitives

variable {m : Mem α γ} {E : Fault ε → Mem α γ → Prop} {i j : Nat}

theorem wp_get {Q : α → Mem α γ → Prop} (h : S.Inside m i)
    (hQ : ∀ x, m.elements[i]? = some x → Q x m) : wp (S.get i) Q E m := by
  unfold wp get
  rw [dif_pos h]
  exact hQ _ (Array.getElem?_eq_getElem h.2.2)

theorem wp_set {Q : PUnit → Mem α γ → Prop} {x : α} (h : S.Inside m i)
    (hQ : Q ⟨⟩ { m with elements := m.elements.set i x h.2.2 }) : wp (S.set i x) Q E m := by
  unfold wp set
  rw [dif_pos h]
  exact hQ

theorem wp_swapAt {Q : PUnit → Mem α γ → Prop} (hi : S.Inside m i) (hj : S.Inside m j)
    (hQ : Q ⟨⟩ { m with elements := m.elements.swap i j hi.2.2 hj.2.2 }) :
    wp (S.swapAt i j) Q E m := by
  unfold wp swapAt
  rw [dif_pos ⟨hi, hj⟩]
  exact hQ

theorem wp_index {Q : Nat → Mem α γ → Prop}
    (h : S.subRange.lowerBound ≤ i ∧ i ≤ S.subRange.upperBound) (hQ : Q i m) :
    wp (S.index i) Q E m := by
  unfold wp index
  rw [if_pos h]
  exact hQ

theorem wp_indexBefore {Q : Nat → Mem α γ → Prop}
    (h : S.subRange.lowerBound < i ∧ i ≤ S.subRange.upperBound) (hQ : Q (i - 1) m) :
    wp (S.indexBefore i) Q E m := by
  cases i with
  | zero => omega
  | succ i => exact wp_index (by omega) hQ

theorem wp_halfOpenRange {Q : Range → Mem α γ → Prop} (h : i ≤ j) (hQ : Q ⟨i, j, h⟩ m) :
    wp (halfOpenRange i j : SortM α γ ε Range) Q E m := by
  rw [halfOpenRange, dif_pos h]
  exact hQ

theorem wp_less {Q : Bool → Mem α γ → Prop} {x y : α} (hQ : ∀ b c, Q b { m with client := c })
    (hE : ∀ e c, S.Throws e → E (.thrown e) { m with client := c }) : wp (S.less x y) Q E m := by
  unfold wp less
  rcases h : S.areInIncreasingOrder x y m.client with ⟨e | b, c⟩
  · exact hE e c ⟨x, y, m.client, by rw [h]⟩
  · exact hQ b c

end Primitives

theorem wp_less_of_rearranged {r : Range} {a : Array α} {m : Mem α γ} {Q : Bool → Mem α γ → Prop}
    {x y : α} (h : Rearranged r a m.elements) (hQ : ∀ b c, Q b { m with client := c }) :
    wp (S.less x y) Q (S.Stopped r a) m :=
  wp_less hQ fun _ _ he => ⟨he, h⟩

theorem Covers.inside {r : Range} {a : Array α} {m : Mem α γ} (hr : S.Covers r a)
    (h : Rearranged r a m.elements) {i : Nat} (hi : r.lowerBound ≤ i ∧ i < r.upperBound) :
    S.Inside m i := by
  have := hr.2.2
  have := h.size_eq
  have := hr.1
  have := hr.2.1
  exact ⟨by omega, by omega, by omega⟩

/-! ## `_insertionSort` -/

/-- The array with `x` back in its place at `i` is a rearrangement of `a`. -/
def Held (r : Range) (a : Array α) (x : α) (i : Nat) (m : Mem α γ) : Prop :=
  Rearranged r a (m.elements.setIfInBounds i x)

theorem Held.shift {r : Range} {a : Array α} {x predecessor : α} {i : Nat} {m : Mem α γ}
    (h : Held r a x (i + 1) m) (hi : r.lowerBound ≤ i ∧ i + 1 < r.upperBound)
    (hsize : i + 1 < m.elements.size) (hp : m.elements[i]? = some predecessor) :
    Held r a x i { m with elements := m.elements.set (i + 1) predecessor hsize } := by
  have hswap := Rearranged.swap r (m.elements.setIfInBounds (i + 1) x) (i := i) (j := i + 1)
    (by simp; omega) (by simp; omega) (by omega) (by omega)
  have heq : (m.elements.setIfInBounds (i + 1) x).swap i (i + 1) (by simp; omega) (by simp; omega) =
      (m.elements.set (i + 1) predecessor hsize).setIfInBounds i x := by
    ext k hk hk'
    · simp
    · grind
  unfold Held
  rw [← heq]
  exact h.trans hswap

theorem insertionShift_safe {r : Range} {a : Array α} (hr : S.Covers r a) (x : α) (i : Nat)
    (m : Mem α γ) (hi : r.lowerBound < i ∧ i < r.upperBound) (h : Held r a x i m) :
    wp (S.insertionShift x r.lowerBound i)
      (fun j m' => r.lowerBound ≤ j ∧ j ≤ i ∧ Held r a x j m' ∧ (j = i → m'.elements = m.elements))
      (S.Stopped r a) m := by
  induction i generalizing m with
  | zero => omega
  | succ i ih =>
      have hsize : m.elements.size = a.size := by simpa [Held] using h.size_eq
      have hin : ∀ k, r.lowerBound ≤ k → k < r.upperBound → S.Inside m k := fun k h1 h2 => by
        have := hr.1; have := hr.2.1; have := hr.2.2
        exact ⟨by omega, by omega, by omega⟩
      have hr1 := hr.1
      have hr2 := hr.2.1
      simp only [insertionShift, wp_bind, wp_tryCatch, wp_throw]
      refine wp_index (by omega) (wp_get (hin i (by omega) (by omega)) fun p hp => ?_)
      refine wp_less (fun less c => ?_) (fun e c he => ?_)
      · rw [wp_ite]
        refine ⟨fun _ => ?_, fun _ => ⟨by omega, by omega, h, fun _ => rfl⟩⟩
        rw [wp_bind]
        refine wp_set (hin (i + 1) (by omega) (by omega)) ?_
        have hheld := h.shift (by omega) (hin (i + 1) (by omega) (by omega)).2.2 hp
        rw [wp_ite]
        refine ⟨fun _ => ⟨by omega, by omega, hheld, fun _ => by omega⟩, fun hne => ?_⟩
        refine wp_mono (ih _ (by omega) hheld) (fun j m' hj => ?_) fun _ _ h => h
        have := hj.2.1
        exact ⟨hj.1, by omega, hj.2.2.1, fun _ => by omega⟩
      · refine wp_set (hin (i + 1) (by omega) (by omega)) ⟨he, ?_⟩
        have hlt := (hin (i + 1) (by omega) (by omega)).2.2
        unfold Held at h
        rwa [Array.setIfInBounds, dif_pos hlt] at h

theorem insertionLoop_safe {r : Range} {a : Array α} (hr : S.Covers r a) (fuel sortedEnd : Nat)
    (m : Mem α γ) (hlo : r.lowerBound < sortedEnd) (hhi : sortedEnd ≤ r.upperBound)
    (hfuel : r.upperBound - sortedEnd < fuel) (h : Rearranged r a m.elements) :
    wp (S.insertionLoop r fuel sortedEnd) (fun _ m' => Rearranged r a m'.elements)
      (S.Stopped r a) m := by
  induction fuel generalizing sortedEnd m with
  | zero => omega
  | succ fuel ih =>
      rw [insertionLoop, wp_ite]
      refine ⟨fun _ => h, fun hne => ?_⟩
      have hin := hr.inside h (i := sortedEnd) (by omega)
      rw [wp_bind]
      refine wp_get hin fun x hx => ?_
      have hheld : Held r a x sortedEnd m := by
        have : m.elements.setIfInBounds sortedEnd x = m.elements := by
          ext k hk hk' <;> grind
        rwa [Held, this]
      rw [wp_bind]
      refine wp_mono (insertionShift_safe hr x sortedEnd m (by omega) hheld) ?_ fun _ _ h => h
      rintro i m' ⟨hi1, hi2, hheld', heq⟩
      have hnext : ∀ m'' : Mem α γ, Rearranged r a m''.elements →
          wp (S.indexAfter sortedEnd >>= S.insertionLoop r fuel)
            (fun _ m' => Rearranged r a m'.elements) (S.Stopped r a) m'' := fun m'' h'' => by
        have := hr.1
        have := hr.2.1
        rw [wp_bind]
        exact wp_index (by omega) (ih _ _ (by omega) (by omega) (by omega) h'')
      simp only [wp_ite, wp_bind] at hnext ⊢
      refine ⟨fun hi => hnext m' (by rw [heq hi]; exact h), fun _ => ?_⟩
      have hsize : m'.elements.size = a.size := by simpa [Held] using hheld'.size_eq
      have hin' : S.Inside m' i := by
        have := hr.1; have := hr.2.1; have := hr.2.2
        exact ⟨by omega, by omega, by omega⟩
      refine wp_set hin' (hnext _ ?_)
      unfold Held at hheld'
      rwa [Array.setIfInBounds, dif_pos hin'.2.2] at hheld'

theorem insertionSort_safe {r : Range} {a : Array α} (hr : S.Covers r a) (m : Mem α γ)
    (h : Rearranged r a m.elements) :
    wp (S.insertionSort r) (fun _ m' => Rearranged r a m'.elements) (S.Stopped r a) m := by
  have hle := r.le
  have hlo := hr.1
  have hhi := hr.2.1
  rw [insertionSort, wp_ite]
  refine ⟨fun _ => h, fun hne => ?_⟩
  have hlt : r.lowerBound < r.upperBound := by
    simp only [Range.isEmpty, beq_iff_eq] at hne
    omega
  rw [wp_bind]
  refine wp_index (by omega) (insertionLoop_safe hr _ _ m (by omega) (by omega) ?_ h)
  unfold Range.count
  omega

/-! ## `_partition` -/

section Partition

variable {r : Range} {a : Array α} {m : Mem α γ}

theorem swapAt_safe (hr : S.Covers r a) (h : Rearranged r a m.elements) {i j : Nat}
    (hi : r.lowerBound ≤ i ∧ i < r.upperBound) (hj : r.lowerBound ≤ j ∧ j < r.upperBound)
    {Q : PUnit → Mem α γ → Prop} {E : Fault ε → Mem α γ → Prop}
    (hQ : ∀ m', Rearranged r a m'.elements → Q ⟨⟩ m') : wp (S.swapAt i j) Q E m :=
  wp_swapAt (hr.inside h hi) (hr.inside h hj) (hQ _ (h.trans (.swap r _ _ _ hi hj)))

theorem less_get_get_safe (hr : S.Covers r a) (h : Rearranged r a m.elements) {i j : Nat}
    (hi : r.lowerBound ≤ i ∧ i < r.upperBound) (hj : r.lowerBound ≤ j ∧ j < r.upperBound)
    {Q : Bool → Mem α γ → Prop} (hQ : ∀ b m', Rearranged r a m'.elements → Q b m') :
    wp (S.get i) (fun x m₁ => wp (S.get j) (fun y m₂ => wp (S.less x y) Q (S.Stopped r a) m₂)
      (S.Stopped r a) m₁) (S.Stopped r a) m :=
  wp_get (hr.inside h hi) fun _ _ => wp_get (hr.inside h hj) fun _ _ =>
    wp_less_of_rearranged h fun b _ => hQ b _ h

theorem sort3_safe (hr : S.Covers r a) (h : Rearranged r a m.elements) {i j k : Nat}
    (hi : r.lowerBound ≤ i ∧ i < r.upperBound) (hj : r.lowerBound ≤ j ∧ j < r.upperBound)
    (hk : r.lowerBound ≤ k ∧ k < r.upperBound) :
    wp (S.sort3 i j k) (fun _ m' => Rearranged r a m'.elements) (S.Stopped r a) m := by
  simp only [sort3, wp_bind]
  refine less_get_get_safe hr h hj hi fun ba m h => ?_
  refine less_get_get_safe hr h hk hj fun cb m h => ?_
  rcases ba with _ | _ <;> rcases cb with _ | _ <;> simp only [wp_bind, wp_ite, wp_pure]
  case false.false => exact h
  case true.true => exact swapAt_safe hr h hi hk fun _ h => h
  case true.false =>
    refine swapAt_safe hr h hi hj fun m h => less_get_get_safe hr h hk hj fun _ m h => ?_
    exact ⟨fun _ => swapAt_safe hr h hj hk fun _ h => h, fun _ => h⟩
  case false.true =>
    refine swapAt_safe hr h hj hk fun m h => less_get_get_safe hr h hj hi fun _ m h => ?_
    exact ⟨fun _ => swapAt_safe hr h hi hj fun _ h => h, fun _ => h⟩

theorem findLo_safe (hr : S.Covers r a) (pivot : α) {hi : Nat} (hhi : hi < r.upperBound)
    (fuel lo : Nat) (hlo : r.lowerBound ≤ lo ∧ lo ≤ hi) (hfuel : hi - lo < fuel)
    (h : Rearranged r a m.elements) :
    wp (S.findLo pivot hi fuel lo) (fun p m' => Rearranged r a m'.elements ∧
      lo ≤ p.1 ∧ p.1 ≤ hi ∧ (p.2 = true → p.1 < hi)) (S.Stopped r a) m := by
  induction fuel generalizing lo m with
  | zero => omega
  | succ fuel ih =>
      have := hr.1
      have := hr.2.1
      simp only [findLo, wp_ite, wp_bind, wp_pure]
      refine ⟨fun heq => ⟨h, by omega, by omega, by simp⟩, fun hne => ?_⟩
      refine wp_get (hr.inside h (by omega)) fun x _ => wp_less_of_rearranged h fun b c => ?_
      refine ⟨fun _ => ?_, fun _ => ⟨h, by omega, by omega, fun _ => by omega⟩⟩
      refine wp_index (by omega) (wp_mono (ih _ (by omega) (by omega) h) ?_ fun _ _ h => h)
      rintro p m' ⟨h', hp⟩
      exact ⟨h', by omega, hp.2⟩

theorem findHi_safe (hr : S.Covers r a) (pivot : α) {lo : Nat} (hlo : r.lowerBound ≤ lo)
    (fuel hi : Nat) (hhi : lo ≤ hi ∧ hi < r.upperBound) (hfuel : hi - lo < fuel)
    (h : Rearranged r a m.elements) :
    wp (S.findHi pivot lo fuel hi) (fun p m' => Rearranged r a m'.elements ∧
      lo ≤ p.1 ∧ p.1 ≤ hi ∧ (p.2 = true → lo < p.1)) (S.Stopped r a) m := by
  induction fuel generalizing hi m with
  | zero => omega
  | succ fuel ih =>
      have := hr.1
      have := hr.2.1
      simp only [findHi, wp_ite, wp_bind, wp_pure]
      refine ⟨fun heq => ⟨h, by omega, by omega, by simp⟩, fun hne => ?_⟩
      refine wp_get (hr.inside h (by omega)) fun x _ => wp_less_of_rearranged h fun b c => ?_
      refine ⟨fun _ => ⟨h, by omega, by omega, fun _ => by omega⟩, fun _ => ?_⟩
      refine wp_indexBefore (by omega) (wp_mono (ih _ (by omega) (by omega) h) ?_ fun _ _ h => h)
      rintro p m' ⟨h', hp⟩
      exact ⟨h', by omega, by omega, hp.2.2⟩

theorem partitionLoop_safe (hr : S.Covers r a) (pivot : α) (fuel lo hi : Nat)
    (hlo : r.lowerBound ≤ lo) (hlohi : lo < hi) (hhi : hi < r.upperBound) (hfuel : hi - lo ≤ fuel)
    (h : Rearranged r a m.elements) :
    wp (S.partitionLoop pivot r fuel lo hi)
      (fun p m' => Rearranged r a m'.elements ∧ lo < p ∧ p ≤ hi) (S.Stopped r a) m := by
  induction fuel generalizing lo hi m with
  | zero => omega
  | succ fuel ih =>
      have := hr.1
      have := hr.2.1
      have hcount : r.count = r.upperBound - r.lowerBound := rfl
      simp only [partitionLoop, wp_bind]
      refine wp_index (by omega) ?_
      refine wp_mono (findLo_safe hr pivot hhi _ (lo + 1) (by omega) (by omega) h) ?_ fun _ _ h => h
      rintro ⟨lo', found⟩ m ⟨h, h1, h2, h3⟩
      dsimp only at h1 h2 h3 ⊢
      rw [wp_ite]
      refine ⟨fun hfound => ?_, fun _ => ⟨h, by omega, h2⟩⟩
      have := h3 hfound
      rw [wp_bind]
      refine wp_indexBefore (by omega) ?_
      rw [wp_bind]
      refine wp_mono (findHi_safe hr pivot (by omega : r.lowerBound ≤ lo') _ (hi - 1) (by omega) (by omega) h)
        ?_ fun _ _ h => h
      rintro ⟨hi', found'⟩ m ⟨h, h4, h5, h6⟩
      dsimp only at h4 h5 h6 ⊢
      rw [wp_ite]
      refine ⟨fun hfound' => ?_, fun _ => ⟨h, by omega, by omega⟩⟩
      have := h6 hfound'
      rw [wp_bind]
      refine swapAt_safe hr h (by omega) (by omega) fun m h => ?_
      refine wp_mono (ih lo' hi' (by omega) (by omega) (by omega) (by omega) h) ?_ fun _ _ h => h
      rintro p m' ⟨h, h7, h8⟩
      exact ⟨h, by omega, by omega⟩

theorem partition_safe (hr : S.Covers r a) (hcount : 3 ≤ r.count) (h : Rearranged r a m.elements) :
    wp (S.partition r) (fun p m' => Rearranged r a m'.elements ∧ r.lowerBound < p ∧ p < r.upperBound)
      (S.Stopped r a) m := by
  have := hr.1
  have := hr.2.1
  unfold Range.count at hcount
  simp only [partition, wp_bind]
  refine wp_indexBefore (by omega) (wp_index (by omega) ?_)
  refine wp_mono (sort3_safe hr h (by omega) (by omega) (by omega)) ?_ fun _ _ h => h
  intro _ m h
  refine wp_get (hr.inside h (by omega)) fun pivot _ => ?_
  refine wp_mono (partitionLoop_safe hr pivot _ _ _ (Nat.le_refl _) (by omega) (by omega) ?_ h) ?_
    fun _ _ h => h
  · unfold Range.count
    omega
  · rintro p m' ⟨h, h1, h2⟩
    exact ⟨h, h1, by omega⟩

end Partition

/-! ## `_heapSort` -/

section Heap

variable {r : Range} {a : Array α} {m : Mem α γ}

theorem largest_safe (hr : S.Covers r a) {index left : Nat} (hi : r.lowerBound ≤ index)
    (hleft : left = index + (index - r.lowerBound + 1)) (hlt : left < r.upperBound)
    (h : Rearranged r a m.elements) :
    wp (S.largest r index left) (fun i m' => Rearranged r a m'.elements ∧
      (i = index ∨ i = left ∨ i = left + 1) ∧ i < r.upperBound) (S.Stopped r a) m := by
  have := hr.1
  have := hr.2.1
  have hright : ∀ i m, Rearranged r a m.elements → (i = index ∨ i = left) →
      wp (if index - r.lowerBound + 2 < r.upperBound - index then do
          let right ← S.indexAfter left
          if ← S.less (← S.get i) (← S.get right) then pure right else pure i
        else pure i)
      (fun i m' => Rearranged r a m'.elements ∧ (i = index ∨ i = left ∨ i = left + 1) ∧
        i < r.upperBound) (S.Stopped r a) m := by
    intro i m h hil
    simp only [wp_ite, wp_bind, wp_pure]
    refine ⟨fun _ => wp_index (by omega) ?_, fun _ => ⟨h, by omega, by omega⟩⟩
    refine less_get_get_safe hr h (by omega) (by omega) fun b m h => ?_
    exact ⟨fun _ => ⟨h, by omega, by omega⟩, fun _ => ⟨h, by omega, by omega⟩⟩
  simp only [largest, wp_bind]
  refine less_get_get_safe hr h (by omega) (by omega) fun b m h => ?_
  rw [wp_ite]
  exact ⟨fun _ => hright left m h (.inr rfl), fun _ => hright index m h (.inl rfl)⟩

theorem siftDown_safe (hr : S.Covers r a) (fuel index : Nat)
    (hi : r.lowerBound ≤ index ∧ index < r.upperBound) (hfuel : r.upperBound - index ≤ fuel)
    (h : Rearranged r a m.elements) :
    wp (S.siftDown r fuel index) (fun _ m' => Rearranged r a m'.elements) (S.Stopped r a) m := by
  induction fuel generalizing index m with
  | zero => omega
  | succ fuel ih =>
      have := hr.1
      have := hr.2.1
      simp only [siftDown, wp_ite, wp_bind, wp_pure]
      refine ⟨fun _ => h, fun hleft => wp_index (by omega) ?_⟩
      refine wp_mono (largest_safe hr hi.1 rfl (by omega) h) ?_ fun _ _ h => h
      rintro largest m ⟨h, h1, h2⟩
      refine ⟨fun _ => h, fun hne => ?_⟩
      refine swapAt_safe hr h hi (by omega) fun m h => ?_
      exact ih largest (by omega) (by omega) h

theorem heapifyLoop_safe (hr : S.Covers r a) (fuel node : Nat)
    (hnode : r.lowerBound ≤ node ∧ node ≤ r.upperBound) (hfuel : node - r.lowerBound < fuel)
    (h : Rearranged r a m.elements) :
    wp (S.heapifyLoop r fuel node) (fun _ m' => Rearranged r a m'.elements) (S.Stopped r a) m := by
  induction fuel generalizing node m with
  | zero => omega
  | succ fuel ih =>
      have := hr.1
      have := hr.2.1
      simp only [heapifyLoop, wp_ite, wp_bind, wp_pure]
      refine ⟨fun _ => h, fun hne => wp_indexBefore (by omega) ?_⟩
      refine wp_mono (siftDown_safe hr _ (node - 1) (by omega) ?_ h) ?_ fun _ _ h => h
      · unfold Range.count
        omega
      · exact fun _ m h => ih (node - 1) (by omega) (by omega) h

theorem heapify_safe (hr : S.Covers r a) (h : Rearranged r a m.elements) :
    wp (S.heapify r) (fun _ m' => Rearranged r a m'.elements) (S.Stopped r a) m := by
  have := hr.1
  have := hr.2.1
  have hle := r.le
  have hcount : r.count = r.upperBound - r.lowerBound := rfl
  simp only [heapify, wp_bind]
  exact wp_index (by omega) (heapifyLoop_safe hr _ _ (by omega) (by omega) h)

theorem Covers.sub (hr : S.Covers r a) {r' : Range} (hlo : r.lowerBound ≤ r'.lowerBound)
    (hhi : r'.upperBound ≤ r.upperBound) : S.Covers r' a :=
  ⟨Nat.le_trans hr.1 hlo, Nat.le_trans hhi hr.2.1, hr.2.2⟩

theorem Covers.of_rearranged {b : Array α} {r' : Range} (hr : S.Covers r a)
    (h : Rearranged r' a b) : S.Covers r b :=
  ⟨hr.1, hr.2.1, by rw [h.size_eq]; exact hr.2.2⟩

theorem wp_sub {r' : Range} {x : SortM α γ ε PUnit} (h : Rearranged r a m.elements)
    (hlo : r.lowerBound ≤ r'.lowerBound) (hhi : r'.upperBound ≤ r.upperBound)
    (hx : wp x (fun _ m' => Rearranged r' m.elements m'.elements) (S.Stopped r' m.elements) m) :
    wp x (fun _ m' => Rearranged r a m'.elements) (S.Stopped r a) m :=
  wp_mono hx (fun _ _ h' => h.trans (h'.mono hlo hhi)) fun _ _ h' => h'.mono h hlo hhi

theorem heapSortLoop_safe (hr : S.Covers r a) (fuel hi : Nat)
    (hhi : r.lowerBound ≤ hi ∧ hi < r.upperBound) (hfuel : hi - r.lowerBound < fuel)
    (h : Rearranged r a m.elements) :
    wp (S.heapSortLoop r.lowerBound fuel hi) (fun _ m' => Rearranged r a m'.elements)
      (S.Stopped r a) m := by
  induction fuel generalizing hi m with
  | zero => omega
  | succ fuel ih =>
      have := hr.1
      have := hr.2.1
      simp only [heapSortLoop, wp_ite, wp_bind, wp_pure]
      refine ⟨fun _ => h, fun hne => swapAt_safe hr h (by omega) (by omega) fun m h => ?_⟩
      refine wp_halfOpenRange hhi.1 ?_
      have hcov : S.Covers ⟨r.lowerBound, hi, hhi.1⟩ m.elements := by
        refine (hr.of_rearranged h).sub ?_ ?_
        · exact Nat.le_refl _
        · exact Nat.le_of_lt hhi.2
      have hsift := siftDown_safe hcov (hi - r.lowerBound) r.lowerBound
        ⟨Nat.le_refl _, Nat.lt_of_le_of_ne hhi.1 (Ne.symm hne)⟩ (Nat.le_refl _) (.refl _ _)
      refine wp_mono (wp_sub h ?_ ?_ hsift) ?_ fun _ _ h => h
      · exact Nat.le_refl _
      · exact Nat.le_of_lt hhi.2
      · exact fun _ m h => wp_indexBefore (by omega) (ih (hi - 1) (by omega) (by omega) h)

theorem heapSort_safe (hr : S.Covers r a) (hcount : 0 < r.count) (h : Rearranged r a m.elements) :
    wp (S.heapSort r) (fun _ m' => Rearranged r a m'.elements) (S.Stopped r a) m := by
  have := hr.1
  have := hr.2.1
  unfold Range.count at hcount
  simp only [heapSort, wp_bind]
  refine wp_mono (heapify_safe hr h) (fun _ m h => wp_indexBefore (by omega) ?_) fun _ _ h => h
  refine heapSortLoop_safe hr _ _ (by omega) ?_ h
  unfold Range.count
  omega

end Heap

/-! ## `_introSort` -/

section IntroSort

theorem introSortImpl_safe (fuel : Nat) {r : Range} {a : Array α} (hr : S.Covers r a)
    (depthLimit : Int64) {m : Mem α γ} (hfuel : r.count < fuel ∨ 2 ≤ r.count ∧ r.count ≤ fuel)
    (h : Rearranged r a m.elements) :
    wp (S.introSortImpl fuel r depthLimit) (fun _ m' => Rearranged r a m'.elements)
      (S.Stopped r a) m := by
  induction fuel generalizing r a m depthLimit with
  | zero => omega
  | succ fuel ih =>
      simp only [introSortImpl, wp_ite, wp_bind]
      refine ⟨fun _ => insertionSort_safe hr m h, fun hcount => ?_⟩
      refine ⟨fun _ => heapSort_safe hr (by omega) h, fun _ => ?_⟩
      refine wp_mono (partition_safe hr (by omega) h) ?_ fun _ _ h => h
      rintro p m ⟨h, h1, h2⟩
      have hc : r.count = r.upperBound - r.lowerBound := rfl
      have hpart : ∀ r' : Range, r.lowerBound ≤ r'.lowerBound → r'.upperBound ≤ r.upperBound →
          r'.count < r.count → ∀ m, Rearranged r a m.elements →
          wp (S.introSortImpl fuel r' (depthLimit - 1)) (fun _ m' => Rearranged r a m'.elements)
            (S.Stopped r a) m := fun r' hlo hhi hlt m h =>
        wp_sub h hlo hhi (ih ((hr.of_rearranged h).sub hlo hhi) _ (by omega) (.refl _ _))
      refine wp_halfOpenRange (by omega) (wp_mono (hpart _ ?_ ?_ ?_ m h) ?_ fun _ _ h => h)
      · exact Nat.le_refl _
      · exact Nat.le_of_lt h2
      · simp only [Range.count]
        omega
      · intro _ m h
        refine wp_halfOpenRange (by omega) (hpart _ ?_ ?_ ?_ m h)
        · exact Nat.le_of_lt h1
        · exact Nat.le_refl _
        · simp only [Range.count]
          omega

theorem introSort_safe {r : Range} {a : Array α} (hr : S.Covers r a) {m : Mem α γ}
    (h : Rearranged r a m.elements) :
    wp (S.introSort r) (fun _ m' => Rearranged r a m'.elements) (S.Stopped r a) m := by
  rw [introSort, wp_ite]
  refine ⟨fun _ => h, fun hcount => introSortImpl_safe _ hr _ (by omega) h⟩

end IntroSort

end Sorter

end SwiftKStdlib.Sort
