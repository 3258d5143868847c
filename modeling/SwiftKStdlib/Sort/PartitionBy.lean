import SwiftKStdlib.Sort.MutableCollection

/-!
# `partition(by:)` separates the elements

* `Indices.position_index`, `wp_get`, `wp_swapAt`, `wp_indexAfter`, … : the rules of the primitive
  operations, at the index of the element `k`;
* `Split C a m lo mid hi` : `m` holds the elements of `a`, those before `lo` have been answered
  `false` and those of `mid..<hi` have been answered `true`;
* one lemma for each loop, and the two versions of `partition(by:)` at the end.

The split says what has been answered, so it is there for every predicate; for one that gives a fixed
answer for each element it is the partition.
-/

namespace SwiftKStdlib.Sort

open SwiftKStdlib.Lib SwiftKStdlib.Lib.Prog

variable {ι α γ ε : Type} [LinearOrder ι]

namespace Indices

variable (I : Indices ι) {j k : Nat}

theorem index_lt_iff (hj : j ≤ I.count) (hk : k ≤ I.count) : I.index j < I.index k ↔ j < k := by
  refine ⟨fun h => ?_, fun h => I.lt h hk⟩
  by_contra hle
  rcases Nat.lt_or_eq_of_le (Nat.le_of_not_lt hle) with hlt | heq
  · exact lt_asymm h (I.lt hlt hj)
  · rw [heq] at h
    exact lt_irrefl _ h

theorem index_le_iff (hj : j ≤ I.count) (hk : k ≤ I.count) : I.index j ≤ I.index k ↔ j ≤ k := by
  rw [← not_lt, I.index_lt_iff hk hj, Nat.not_lt]

theorem index_inj (hj : j ≤ I.count) (hk : k ≤ I.count) : I.index j = I.index k ↔ j = k := by
  rw [le_antisymm_iff, I.index_le_iff hj hk, I.index_le_iff hk hj, Nat.le_antisymm_iff]

theorem position_index (hk : k ≤ I.count) : I.position (I.index k) = some k := by
  rw [position, List.find?_range_eq_some]
  refine ⟨by simp, List.mem_range.2 (by omega), fun j hj => ?_⟩
  have hne : I.index j ≠ I.index k := (I.lt hj hk).ne
  simp [hne]

theorem position_eq_some {i : ι} (h : I.position i = some k) : k ≤ I.count ∧ I.index k = i := by
  rw [position, List.find?_range_eq_some] at h
  have hk := List.mem_range.1 h.2.1
  exact ⟨by omega, by simpa using h.1⟩

theorem elementPosition_index (hk : k < I.count) :
    I.elementPosition (I.index k) = some ⟨k, hk⟩ := by
  rw [elementPosition, I.position_index hk.le]
  exact dif_pos hk

theorem elementPosition_eq_some {i : ι} {k : Fin I.count} (h : I.elementPosition i = some k) :
    I.index k = i := by
  rw [elementPosition] at h
  split at h
  next l hl =>
    split at h
    · cases h
      exact (I.position_eq_some hl).2
    · cases h
  next => cases h

end Indices

namespace Partitioner

variable {C : Partitioner ι α γ ε}

/-- The client's predicate can answer `b` for `x`. -/
def Answers (C : Partitioner ι α γ ε) (x : α) (b : Bool) : Prop :=
  ∃ c, (C.belongsInSecondPartition x c).1 = .ok b

/-- The client's predicate can throw `error`. -/
def Throws (C : Partitioner ι α γ ε) (error : ε) : Prop :=
  ∃ x c, (C.belongsInSecondPartition x c).1 = .error error

/-- Whenever the client's predicate answers for `x`, its answer is `q x`. -/
def GivesFixedAnswers (C : Partitioner ι α γ ε) (q : α → Bool) : Prop :=
  ∀ x b, C.Answers x b → b = q x

/-- The run ended early because the predicate threw, with a permutation of `a` in place. -/
def Stopped (C : Partitioner ι α γ ε) (a : Vector α C.count) :
    Fault ε → Elements α γ C.count → Prop
  | .thrown error, m => C.Throws error ∧ m.elements.Perm a
  | .trap, _ => False
  | .outOfFuel, _ => False

/-! ## The primitive operations -/

section Primitives

variable {m : Elements α γ C.count} {E : Fault ε → Elements α γ C.count → Prop} {j k : Nat}

theorem wp_get {Q : α → Elements α γ C.count → Prop} (hk : k < C.count) (hQ : Q m.elements[k] m) :
    wp (C.get (C.index k)) Q E m := by
  unfold wp get
  rw [C.elementPosition_index hk]
  exact hQ

theorem wp_swapAt {Q : PUnit → Elements α γ C.count → Prop} (hj : j < C.count) (hk : k < C.count)
    (hQ : Q ⟨⟩ { m with elements := m.elements.swap j k }) :
    wp (C.swapAt (C.index j) (C.index k)) Q E m := by
  unfold wp swapAt
  rw [C.elementPosition_index hj, C.elementPosition_index hk]
  exact hQ

theorem wp_indexAfter {Q : ι → Elements α γ C.count → Prop} (hk : k < C.count)
    (hQ : Q (C.index (k + 1)) m) : wp (C.indexAfter (C.index k)) Q E m := by
  rw [indexAfter, C.position_index hk.le]
  dsimp only
  rw [if_pos hk]
  exact hQ

theorem wp_indexBefore {Q : ι → Elements α γ C.count → Prop} (hk : 0 < k ∧ k ≤ C.count)
    (hQ : Q (C.index (k - 1)) m) : wp (C.indexBefore (C.index k)) Q E m := by
  rw [indexBefore, C.position_index hk.2]
  cases k with
  | zero => omega
  | succ k => exact hQ

theorem wp_indexOffsetBy {Q : ι → Elements α γ C.count → Prop} (n : Nat) (k : Nat)
    (hk : k + n ≤ C.count) (hQ : Q (C.index (k + n)) m) :
    wp (C.indexOffsetBy (C.index k) n) Q E m := by
  induction n generalizing k with
  | zero => exact hQ
  | succ n ih =>
      rw [indexOffsetBy, wp_bind]
      apply wp_indexAfter (by omega)
      exact ih (k + 1) (by omega) (by rwa [Nat.add_right_comm, Nat.add_assoc])

theorem wp_belongs {Q : Bool → Elements α γ C.count → Prop} {x : α}
    (hQ : ∀ b c, C.Answers x b → Q b { m with client := c })
    (hE : ∀ e c, C.Throws e → E (.thrown e) { m with client := c }) : wp (C.belongs x) Q E m := by
  unfold wp belongs
  rcases h : C.belongsInSecondPartition x m.client with ⟨e | b, c⟩
  · exact hE e c ⟨x, m.client, by rw [h]⟩
  · exact hQ b c ⟨m.client, by rw [h]⟩

end Primitives

/-! ## What has been answered -/

/-- `m` holds the elements of `a`; those before `lo` have been answered `false`, and those of
`mid..<hi` have been answered `true`. -/
structure Split (C : Partitioner ι α γ ε) (a : Vector α C.count) (m : Elements α γ C.count)
    (lo mid hi : Nat) : Prop where
  perm : m.elements.Perm a
  low : ∀ j (h : j < C.count), j < lo → C.Answers m.elements[j] false
  high : ∀ j (h : j < C.count), mid ≤ j → j < hi → C.Answers m.elements[j] true

namespace Split

variable {a : Vector α C.count} {m : Elements α γ C.count} {lo mid mid' hi hi' j k : Nat}

theorem client (h : Split C a m lo mid hi) (c : γ) : Split C a { m with client := c } lo mid hi :=
  ⟨h.perm, h.low, h.high⟩

theorem extendLow (h : Split C a m lo mid hi) (hlo : lo < C.count)
    (hx : C.Answers m.elements[lo] false) : Split C a m (lo + 1) mid hi := by
  refine ⟨h.perm, fun j hj hlt => ?_, h.high⟩
  by_cases heq : j = lo
  · subst heq
    exact hx
  · exact h.low j hj (by omega)

theorem extendHigh (h : Split C a m lo mid hi) (hk : k < C.count)
    (hx : C.Answers m.elements[k] true)
    (hcover : ∀ j, mid' ≤ j → j < hi' → j < C.count → j = k ∨ (mid ≤ j ∧ j < hi)) :
    Split C a m lo mid' hi' := by
  refine ⟨h.perm, h.low, fun j hj hmid hhi => ?_⟩
  rcases hcover j hmid hhi hj with heq | ⟨hmid, hhi⟩
  · subst heq
    exact hx
  · exact h.high j hj hmid hhi

theorem swap (h : Split C a m lo mid hi) (hk : k < C.count) (hlo : lo < k)
    (hx : C.Answers m.elements[lo] true) (hy : C.Answers m.elements[k] false)
    (hcover : ∀ j, mid' ≤ j → j < hi' → j < C.count → j = k ∨ (mid ≤ j ∧ j < hi ∧ j ≠ lo)) :
    Split C a { m with elements := m.elements.swap lo k } (lo + 1) mid' hi' := by
  refine ⟨(Vector.swap_perm (hlo.trans hk) hk).trans h.perm, fun j hj hlt => ?_, fun j hj hmid hhi => ?_⟩
  · by_cases heq : j = lo
    · subst heq
      rwa [Vector.getElem_swap_left]
    · rw [Vector.getElem_swap_of_ne heq (by omega)]
      exact h.low j hj (by omega)
  · by_cases heq : j = k
    · subst heq
      rwa [Vector.getElem_swap_right]
    · obtain hjk | ⟨hmid, hhi, hne⟩ := hcover j hmid hhi hj
      · exact absurd hjk heq
      · rw [Vector.getElem_swap_of_ne hne heq]
        exact h.high j hj hmid hhi

theorem wp_belongs (h : Split C a m lo mid hi) {x : α} {Q : Bool → Elements α γ C.count → Prop}
    (hQ : ∀ b c, C.Answers x b → Q b { m with client := c }) :
    wp (C.belongs x) Q (C.Stopped a) m :=
  Partitioner.wp_belongs hQ fun _ _ he => ⟨he, h.perm⟩

end Split

/-! ## `MutableCollection.partition(by:)` -/

section Loops

variable {a : Vector α C.count} {m : Elements α γ C.count} {lo hi i k pivot : Nat}

theorem endIndex_eq (C : Partitioner ι α γ ε) : C.endIndex = C.index C.count := rfl

theorem findPivot_split (fuel k : Nat) (hk : k ≤ C.count) (hfuel : C.count - k < fuel)
    (h : Split C a m k k k) :
    wp (C.findPivot fuel (C.index k)) (fun p m' => ∃ k', p.1 = C.index k' ∧
      (p.2 = true → k' < C.count ∧ Split C a m' k' k' (k' + 1)) ∧
      (p.2 = false → k' = C.count ∧ Split C a m' k' k' k')) (C.Stopped a) m := by
  induction fuel generalizing k m with
  | zero => omega
  | succ fuel ih =>
      rw [findPivot, wp_ite, endIndex_eq, C.index_inj hk le_rfl]
      refine ⟨fun heq => ⟨k, rfl, by simp, fun _ => ⟨heq, h⟩⟩, fun hne => ?_⟩
      have hlt : k < C.count := by omega
      simp only [wp_bind]
      apply wp_get hlt
      apply h.wp_belongs
      intro b c hb
      rw [wp_ite]
      refine ⟨fun htrue => ?_, fun hfalse => ?_⟩
      · rw [htrue] at hb
        have h' : Split C a { m with client := c } k k (k + 1) :=
          (h.client c).extendHigh hlt hb (by omega)
        exact ⟨k, rfl, fun _ => ⟨hlt, h'⟩, by simp⟩
      · rw [Bool.not_eq_true] at hfalse
        rw [hfalse] at hb
        have h' : Split C a { m with client := c } (k + 1) (k + 1) (k + 1) :=
          ⟨h.perm, ((h.client c).extendLow hlt hb).low, by omega⟩
        rw [wp_bind]
        apply wp_indexAfter hlt
        exact ih (k + 1) hlt (by omega) h'

theorem pivotLoop_split (fuel pivot i : Nat) (hpivot : pivot < i) (hi : i ≤ C.count)
    (hfuel : C.count - i < fuel) (h : Split C a m pivot pivot i) :
    wp (C.pivotLoop fuel (C.index pivot) (C.index i)) (fun p m' => ∃ k ≤ C.count, p = C.index k ∧
      Split C a m' k k C.count) (C.Stopped a) m := by
  induction fuel generalizing pivot i m with
  | zero => omega
  | succ fuel ih =>
      rw [pivotLoop, wp_ite, endIndex_eq, C.index_lt_iff hi le_rfl]
      refine ⟨fun hlt => ?_, fun hle => ?_⟩
      · simp only [wp_bind]
        apply wp_get hlt
        apply h.wp_belongs
        intro b c hb
        rw [wp_ite]
        refine ⟨fun htrue => ?_, fun hfalse => ?_⟩
        · rw [htrue] at hb
          have h' : Split C a { m with client := c } pivot pivot (i + 1) :=
            (h.client c).extendHigh hlt hb (by omega)
          rw [wp_bind]
          apply wp_indexAfter hlt
          exact ih pivot (i + 1) (by omega) hlt (by omega) h'
        · rw [Bool.not_eq_true] at hfalse
          rw [hfalse] at hb
          have hp : C.Answers m.elements[pivot] true :=
            h.high pivot (by omega) le_rfl hpivot
          have h' : Split C a ⟨m.elements.swap pivot i, c⟩ (pivot + 1) (pivot + 1) (i + 1) :=
            (h.client c).swap hlt hpivot hp hb (by omega)
          rw [Vector.swap_comm] at h'
          simp only [wp_bind]
          apply wp_swapAt hlt (by omega)
          apply wp_indexAfter (by omega)
          apply wp_indexAfter hlt
          exact ih (pivot + 1) (i + 1) (by omega) hlt (by omega) h'
      · have heq : i = C.count := by omega
        subst heq
        exact ⟨pivot, hpivot.le, rfl, h⟩

theorem partition_split (m : Elements α γ C.count) :
    wp C.partition (fun p m' => ∃ k ≤ C.count, p = C.index k ∧ Split C m.elements m' k k C.count)
      (C.Stopped m.elements) m := by
  have hstart : Split C m.elements m 0 0 0 := ⟨.refl _, by omega, by omega⟩
  rw [partition, wp_bind]
  refine wp_mono (findPivot_split (C.count + 1) 0 (by omega) (by omega) hstart) ?_ fun _ _ h => h
  intro ⟨p, found⟩ m' ⟨k, hp, htrue, hfalse⟩
  dsimp only at hp htrue hfalse ⊢
  subst hp
  rw [wp_ite]
  refine ⟨fun hfound => ?_, fun hfound => ?_⟩
  · obtain ⟨hlt, h⟩ := htrue hfound
    rw [wp_bind]
    apply wp_indexAfter hlt
    exact pivotLoop_split (C.count + 1) k (k + 1) (by omega) hlt (by omega) h
  · obtain ⟨heq, h⟩ := hfalse (Bool.not_eq_true _ ▸ hfound)
    subst heq
    exact ⟨C.count, le_rfl, rfl, ⟨h.perm, h.low, h.high⟩⟩

/-! ## `BidirectionalCollection.partition(by:)` -/

theorem findLo_split (hhi : hi ≤ C.count) (fuel lo : Nat) (hlo : lo ≤ hi) (hfuel : hi - lo < fuel)
    (h : Split C a m lo hi C.count) :
    wp (C.findLo (C.index hi) fuel (C.index lo)) (fun p m' => ∃ lo', p.1 = C.index lo' ∧
      lo ≤ lo' ∧ Split C a m' lo' hi C.count ∧
      (p.2 = true → lo' < hi ∧ ∀ hn : lo' < C.count, C.Answers m'.elements[lo'] true) ∧
      (p.2 = false → lo' = hi)) (C.Stopped a) m := by
  induction fuel generalizing lo m with
  | zero => omega
  | succ fuel ih =>
      rw [findLo, wp_ite, C.index_lt_iff (by omega) hhi]
      refine ⟨fun hlt => ?_, fun hle => ⟨lo, rfl, le_rfl, h, by simp, fun _ => by omega⟩⟩
      have hn : lo < C.count := by omega
      simp only [wp_bind]
      apply wp_get hn
      apply h.wp_belongs
      intro b c hb
      rw [wp_ite]
      refine ⟨fun htrue => ?_, fun hfalse => ?_⟩
      · rw [htrue] at hb
        exact ⟨lo, rfl, le_rfl, h.client c, fun _ => ⟨hlt, fun _ => hb⟩, by simp⟩
      · rw [Bool.not_eq_true] at hfalse
        rw [hfalse] at hb
        rw [wp_bind]
        apply wp_indexAfter hn
        refine wp_mono (ih (lo + 1) (by omega) (by omega) ((h.client c).extendLow hn hb)) ?_
          fun _ _ h => h
        rintro p m' ⟨lo', hp, hle, hpost⟩
        exact ⟨lo', hp, by omega, hpost⟩

theorem findHi_split (fuel hi : Nat) (hlo : lo ≤ hi) (hhi : hi < C.count)
    (hfuel : hi - lo < fuel) (h : Split C a m lo (hi + 1) C.count)
    (hx : ∀ hn : lo < C.count, C.Answers m.elements[lo] true) :
    wp (C.findHi (C.index lo) fuel (C.index hi)) (fun p m' => ∃ hi', p.1 = C.index hi' ∧
      hi' ≤ hi ∧ Split C a m' lo (hi' + 1) C.count ∧
      (∀ hn : lo < C.count, C.Answers m'.elements[lo] true) ∧
      (p.2 = true → lo < hi' ∧ ∀ hn : hi' < C.count, C.Answers m'.elements[hi'] false) ∧
      (p.2 = false → hi' = lo)) (C.Stopped a) m := by
  induction fuel generalizing hi m with
  | zero => omega
  | succ fuel ih =>
      rw [findHi, wp_ite, C.index_lt_iff (by omega) hhi.le]
      refine ⟨fun hlt => ?_, fun hle => ⟨hi, rfl, le_rfl, h, hx, by simp, fun _ => by omega⟩⟩
      simp only [wp_bind]
      apply wp_get hhi
      apply h.wp_belongs
      intro b c hb
      rw [wp_ite]
      refine ⟨fun htrue => ?_, fun hfalse => ?_⟩
      · rw [htrue] at hb
        have h' : Split C a { m with client := c } lo hi C.count :=
          (h.client c).extendHigh hhi hb (by omega)
        rw [wp_bind]
        apply wp_indexBefore (by omega)
        have h' : Split C a { m with client := c } lo (hi - 1 + 1) C.count := by
          rwa [Nat.sub_add_cancel (by omega)]
        refine wp_mono (ih (hi - 1) (by omega) (by omega) (by omega) h' hx) ?_ fun _ _ h => h
        rintro p m' ⟨hi', hp, hle, hpost⟩
        exact ⟨hi', hp, by omega, hpost⟩
      · rw [Bool.not_eq_true] at hfalse
        rw [hfalse] at hb
        exact ⟨hi, rfl, le_rfl, h.client c, hx, fun _ => ⟨hlt, fun _ => hb⟩, by simp⟩

theorem loop_split (fuel lo hi : Nat) (hlo : lo ≤ hi) (hhi : hi ≤ C.count)
    (hfuel : hi - lo < fuel) (h : Split C a m lo hi C.count) :
    wp (C.loop fuel (C.index lo) (C.index hi)) (fun p m' => ∃ k ≤ C.count, p = C.index k ∧
      Split C a m' k k C.count) (C.Stopped a) m := by
  induction fuel generalizing lo hi m with
  | zero => omega
  | succ fuel ih =>
      rw [loop, wp_bind]
      refine wp_mono (findLo_split hhi (C.count + 1) lo hlo (by omega) h) ?_ fun _ _ h => h
      rintro ⟨p, found⟩ m₁ ⟨lo₁, hp, hle₁, h₁, htrue, hfalse⟩
      dsimp only at hp htrue hfalse ⊢
      subst hp
      rw [wp_ite]
      refine ⟨fun hfound => ?_, fun hfound => ?_⟩
      · obtain ⟨hlt, hx⟩ := htrue hfound
        simp only [wp_bind]
        apply wp_indexBefore (by omega)
        have h₁' : Split C a m₁ lo₁ (hi - 1 + 1) C.count := by
          rwa [Nat.sub_add_cancel (by omega)]
        refine wp_mono (findHi_split (C.count + 1) (hi - 1) (by omega) (by omega) (by omega) h₁' hx)
          ?_ fun _ _ h => h
        rintro ⟨p, found⟩ m₂ ⟨hi₂, hp, hle₂, h₂, hx, htrue, hfalse⟩
        dsimp only at hp htrue hfalse ⊢
        subst hp
        have hhi₂ : hi₂ < C.count := by omega
        rw [wp_ite]
        refine ⟨fun hfound => ?_, fun hfound => ?_⟩
        · obtain ⟨hlt₂, hy⟩ := htrue hfound
          have hn : lo₁ < C.count := by omega
          have h₃ : Split C a { m₂ with elements := m₂.elements.swap lo₁ hi₂ } (lo₁ + 1) hi₂ C.count :=
            h₂.swap hhi₂ hlt₂ (hx hn) (hy hhi₂) (by omega)
          simp only [wp_bind]
          apply wp_swapAt hn hhi₂
          apply wp_indexAfter hn
          exact ih (lo₁ + 1) hi₂ hlt₂ hhi₂.le (by omega) h₃
        · have heq := hfalse (Bool.not_eq_true _ ▸ hfound)
          subst heq
          exact ⟨hi₂, hhi₂.le, rfl, h₂.extendHigh hhi₂ (hx hhi₂) (by omega)⟩
      · have heq := hfalse (Bool.not_eq_true _ ▸ hfound)
        subst heq
        exact ⟨lo₁, hhi, rfl, h₁⟩

theorem partitionInPlace_split (m : Elements α γ C.count) :
    wp C.partitionInPlace (fun p m' => ∃ k ≤ C.count, p = C.index k ∧
      Split C m.elements m' k k C.count) (C.Stopped m.elements) m := by
  have hstart : Split C m.elements m 0 C.count C.count := ⟨.refl _, by omega, by omega⟩
  exact loop_split (C.count + 1) 0 C.count (by omega) le_rfl (by omega) hstart

theorem partitionBuffer_split (m : Elements α γ C.count) :
    wp C.partitionBuffer (fun k m' => k ≤ C.count ∧ Split C m.elements m' k k C.count)
      (C.Stopped m.elements) m := by
  have hbuffer := partitionInPlace_split (C := C.bufferPointer) m
  refine wp_mono hbuffer (fun p m' ⟨k, hk, hp, h⟩ => ?_) fun e m' h => ?_
  · have heq : p = k := hp
    subst heq
    exact ⟨hk, h.perm, h.low, h.high⟩
  · cases e with
    | thrown error => exact h
    | trap => exact h
    | outOfFuel => exact h

theorem partitionBidirectional_split (m : Elements α γ C.count) :
    wp C.partitionBidirectional (fun p m' => ∃ k ≤ C.count, p = C.index k ∧
      Split C m.elements m' k k C.count) (C.Stopped m.elements) m := by
  rw [partitionBidirectional, wp_ite]
  refine ⟨fun _ => ?_, fun _ => partitionInPlace_split m⟩
  rw [wp_bind]
  refine wp_mono (partitionBuffer_split m) (fun k m' ⟨hk, h⟩ => ?_) fun _ _ h => h
  apply wp_indexOffsetBy k 0 (by simpa using hk)
  exact ⟨k, hk, by rw [Nat.zero_add], h⟩

end Loops

/-! ## The partition -/

/-- The index `p` separates the elements of which `q` does not hold from those of which it does. -/
structure PartitionedAt (C : Partitioner ι α γ ε) (q : α → Bool) (p : ι) (a : Vector α C.count) :
    Prop where
  index : ∃ k ≤ C.count, p = C.index k
  belongs_iff : ∀ i k, C.elementPosition i = some k → (q a[k] = true ↔ p ≤ i)

section Partitioned

variable {a b : Vector α C.count} {m : Elements α γ C.count} {q : α → Bool} {p p' : ι} {k : Nat}

theorem Split.partitionedAt (h : Split C a m k k C.count) (hk : k ≤ C.count)
    (hq : C.GivesFixedAnswers q) : C.PartitionedAt q (C.index k) m.elements := by
  refine ⟨⟨k, hk, rfl⟩, fun i j hj => ?_⟩
  rw [← C.elementPosition_eq_some hj, C.index_le_iff hk j.isLt.le]
  by_cases hlt : j.val < k
  · have hfalse : q m.elements[j] = false := (hq _ _ (h.low j j.isLt hlt)).symm
    rw [hfalse]
    simp [hlt]
  · have hle : k ≤ j.val := by omega
    have htrue : q m.elements[j] = true := (hq _ _ (h.high j j.isLt hle j.isLt)).symm
    exact iff_of_true htrue hle

theorem PartitionedAt.index_eq (h : C.PartitionedAt q p a) :
    p = C.index (a.toList.countP fun x => !q x) := by
  obtain ⟨k, hk, rfl⟩ := h.index
  have hq : ∀ j (hj : j < C.count), q a[j] = true ↔ k ≤ j := fun j hj => by
    have := h.belongs_iff (C.index j) ⟨j, hj⟩ (C.elementPosition_index hj)
    rwa [C.index_le_iff hk hj.le] at this
  have hlow : (a.toList.take k).countP (fun x => !q x) = k := by
    rw [List.countP_eq_length.2, List.length_take, Vector.length_toList, Nat.min_eq_left hk]
    intro x hx
    obtain ⟨j, hj, rfl⟩ := List.mem_iff_getElem.1 hx
    rw [List.length_take, Vector.length_toList] at hj
    have := hq j (by omega)
    simp [show ¬ k ≤ j by omega] at this
    simpa using this
  have hhigh : (a.toList.drop k).countP (fun x => !q x) = 0 := by
    rw [List.countP_eq_zero]
    intro x hx
    obtain ⟨j, hj, rfl⟩ := List.mem_iff_getElem.1 hx
    rw [List.length_drop, Vector.length_toList] at hj
    have := hq (k + j) (by omega)
    simpa using this
  have hsum : (a.toList.countP fun x => !q x) = k + 0 := by
    conv_lhs => rw [← List.take_append_drop k a.toList, List.countP_append, hlow, hhigh]
  rw [hsum, Nat.add_zero]

theorem PartitionedAt.unique (h : C.PartitionedAt q p a) (h' : C.PartitionedAt q p' b)
    (hab : a.Perm b) : p = p' := by
  rw [h.index_eq, h'.index_eq, hab.toList.countP_eq]

/-- What `partition(by:)` promises of the index it returns and of the elements it leaves. -/
def Partitions (C : Partitioner ι α γ ε) (m : Elements α γ C.count) (p : ι)
    (m' : Elements α γ C.count) : Prop :=
  m'.elements.Perm m.elements ∧ ∀ q, C.GivesFixedAnswers q → C.PartitionedAt q p m'.elements

theorem Split.partitions (hk : k ≤ C.count) {m' : Elements α γ C.count}
    (h : Split C m.elements m' k k C.count) : C.Partitions m (C.index k) m' :=
  ⟨h.perm, fun _ hq => h.partitionedAt hk hq⟩

theorem partition_partitions (m : Elements α γ C.count) :
    wp C.partition (C.Partitions m) (C.Stopped m.elements) m :=
  wp_mono (partition_split m) (fun _ _ ⟨_, hk, hp, h⟩ => hp ▸ h.partitions hk) fun _ _ h => h

theorem partitionBidirectional_partitions (m : Elements α γ C.count) :
    wp C.partitionBidirectional (C.Partitions m) (C.Stopped m.elements) m :=
  wp_mono (partitionBidirectional_split m) (fun _ _ ⟨_, hk, hp, h⟩ => hp ▸ h.partitions hk)
    fun _ _ h => h

theorem returns_of_stopped {β : Type} {x : C.M β} {Q : β → Elements α γ C.count → Prop}
    (h : wp x Q (C.Stopped m.elements) m) (hthrows : ∀ e, ¬ C.Throws e) :
    ∃ b m', x m = (.ok b, m') ∧ Q b m' := by
  refine wp_returns (wp_mono h (fun _ _ h => h) fun e m' he => ?_)
  cases e with
  | thrown error => exact hthrows error he.1
  | trap => exact he
  | outOfFuel => exact he

end Partitioned

end Partitioner

/-- Both versions of `partition(by:)` leave a permutation, also when the predicate throws, and
nothing else stops them; what they return separates the elements of any predicate that gives a fixed
answer for each, and is then the same index. -/
theorem partition_separates (C : Partitioner ι α γ ε) (m : Elements α γ C.count) :
    wp C.partition (C.Partitions m) (C.Stopped m.elements) m ∧
      wp C.partitionBidirectional (C.Partitions m) (C.Stopped m.elements) m ∧
      ∀ q, C.GivesFixedAnswers q →
        (∀ p p' m₁ m₂, C.partition m = (.ok p, m₁) → C.partitionBidirectional m = (.ok p', m₂) →
          p = p') ∧
        ((∀ e, ¬ C.Throws e) → ∃ p m₁ m₂, C.partition m = (.ok p, m₁) ∧
          C.partitionBidirectional m = (.ok p, m₂)) := by
  have hforward := Partitioner.partition_partitions m
  have hback := Partitioner.partitionBidirectional_partitions m
  have hsame : ∀ q, C.GivesFixedAnswers q → ∀ p p' m₁ m₂, C.partition m = (.ok p, m₁) →
      C.partitionBidirectional m = (.ok p', m₂) → p = p' := fun q hq p p' m₁ m₂ h₁ h₂ => by
    obtain ⟨hperm₁, hpart₁⟩ := of_wp hforward h₁
    obtain ⟨hperm₂, hpart₂⟩ := of_wp hback h₂
    exact (hpart₁ q hq).unique (hpart₂ q hq) (hperm₁.trans hperm₂.symm)
  refine ⟨hforward, hback, fun q hq => ⟨hsame q hq, fun hthrows => ?_⟩⟩
  obtain ⟨p, m₁, h₁, _⟩ := Partitioner.returns_of_stopped hforward hthrows
  obtain ⟨p', m₂, h₂, _⟩ := Partitioner.returns_of_stopped hback hthrows
  have heq : p = p' := hsame q hq p p' m₁ m₂ h₁ h₂
  exact ⟨p, m₁, m₂, h₁, by rw [heq, h₂]⟩

end SwiftKStdlib.Sort
