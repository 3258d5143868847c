import SwiftKStdlib.IRGen.EnumPayload

/-!
# Gathering the spare bits of a payload

* `consecutiveBits` : a run of the mask; `consecutiveBits_spec`;
* `emitGatherSpareBits` : the spare bits of one chunk; `emitGatherSpareBits_spec`, `…_eq_none`;
* `EnumPayload.emitGatherSpareBits` : the spare bits of a payload.
-/

namespace SwiftKStdlib.IRGen

open Lib.BitWords

/-! ## Runs of a mask -/

/-- The number of consecutive bits, `left` bits before the end of the mask, and what the enumeration has
left. -/
def consecutiveBits (spareBitMask : List Bool) (maxBits : Nat) :
    Nat → Nat → Nat → List Nat → Nat × List Nat
  | 0, _, numBits, rest => (numBits, rest)
  | left + 1, u, numBits, rest =>
    if numBits < maxBits ∧ bit spareBitMask u = true then
      consecutiveBits spareBitMask maxBits left (u + 1) (numBits + 1) rest.tail
    else (numBits, rest)

theorem consecutiveBits_spec {spareBitMask : List Bool} (maxBits : Nat) {u : Nat} :
    ∀ left numBits, spareBitMask.length = u + numBits + left →
      (∀ i, i < numBits → bit spareBitMask (u + i) = true) → ∃ n,
        consecutiveBits spareBitMask maxBits left (u + numBits) numBits
          (onesFrom spareBitMask (u + numBits)) = (n, onesFrom spareBitMask (u + n)) ∧
        numBits ≤ n ∧ n ≤ max numBits maxBits ∧ ∀ i, i < n → bit spareBitMask (u + i) = true := by
  intro left
  induction left with
  | zero =>
    intro numBits _ hset
    exact ⟨numBits, rfl, le_refl _, le_max_left _ _, hset⟩
  | succ left ih =>
    intro numBits hlen hset
    rw [consecutiveBits]
    split_ifs with h
    · obtain ⟨hlt, hbit⟩ := h
      obtain ⟨n, heq, hle, hmax, hrun⟩ := ih (numBits + 1) (by omega) (run_succ hset hbit)
      rw [onesFrom_of_bit hbit, List.tail_cons]
      exact ⟨n, heq, by omega, by omega, hrun⟩
    · exact ⟨numBits, rfl, le_refl _, le_max_left _ _, hset⟩

/-! ## One chunk -/

section Chunk

variable {size w : Nat}

/-- The builder accumulates the parts of a result. -/
def accumulate (result : Option (BitVec w)) (newBits : BitVec w) : BitVec w :=
  match result with
  | some result => result ||| newBits
  | none => newBits

/-- Shift the bits into place, in the width of the chunk. -/
def shiftIntoPlace (spareBits : BitVec size) (u usedBits : Nat) : Option (BitVec size) :=
  if usedBits < u then createLShr spareBits (u - usedBits)
  else if u < usedBits then createShl spareBits (usedBits - u)
  else some spareBits

def runMask (w numBits usedBits : Nat) : BitVec w := (BitVec.allOnes numBits).setWidth w <<< usedBits

/-- The loop over the set bits of the mask, with the fuel `n`. -/
def gatherLoop (spareBitMask : List Bool) (spareBits : BitVec size) (resultLowBit resultBitWidth : Nat) :
    Nat → List Nat → Nat → Option (BitVec resultBitWidth) → Option (Option (BitVec resultBitWidth))
  | _, [], _, result => some result
  | 0, _ :: _, _, _ => none
  | n + 1, u :: rest, usedBits, result =>
    if resultBitWidth ≤ usedBits then some result
    -- used more bits than we've processed?!
    else if u < usedBits - resultLowBit then none
    else do
      let newBits ← shiftIntoPlace spareBits u usedBits
      let run := consecutiveBits spareBitMask (resultBitWidth - usedBits) (spareBitMask.length - (u + 1))
        (u + 1) 1 rest
      let newBits := newBits.setWidth resultBitWidth &&& runMask resultBitWidth run.1 usedBits
      gatherLoop spareBitMask spareBits resultLowBit resultBitWidth n run.2 (usedBits + run.1)
        (some (accumulate result newBits))

def emitGatherSpareBits (spareBitMask : List Bool) (spareBits : BitVec size)
    (resultLowBit resultBitWidth : Nat) : Option (Option (BitVec resultBitWidth)) :=
  gatherLoop spareBitMask spareBits resultLowBit resultBitWidth (ones spareBitMask).length
    (ones spareBitMask) resultLowBit none

theorem shiftIntoPlace_spec (spareBits : BitVec size) (u usedBits : Nat) (hu : u < size)
    (hfits : usedBits < u + size) : ∃ newBits, shiftIntoPlace spareBits u usedBits = some newBits ∧
      ∀ i, newBits.getLsbD (usedBits + i) = (decide (usedBits + i < size) && spareBits.getLsbD (u + i)) := by
  unfold shiftIntoPlace
  rcases lt_trichotomy usedBits u with hlt | rfl | hlt
  · refine ⟨spareBits >>> (u - usedBits), ?_, fun i => ?_⟩
    · rw [if_pos hlt, createLShr, if_pos (by omega)]
    · have hindex : u - usedBits + (usedBits + i) = u + i := by omega
      rw [BitVec.getLsbD_ushiftRight, hindex]
      by_cases hi : usedBits + i < size
      · simp [hi]
      · rw [BitVec.getLsbD_of_ge _ _ (by omega), Bool.and_false]
  · refine ⟨spareBits, ?_, fun i => ?_⟩
    · rw [if_neg (lt_irrefl _), if_neg (lt_irrefl _)]
    · by_cases hi : usedBits + i < size
      · simp [hi]
      · rw [BitVec.getLsbD_of_ge _ _ (by omega), Bool.and_false]
  · refine ⟨spareBits <<< (usedBits - u), ?_, fun i => ?_⟩
    · rw [if_neg (by omega), if_pos hlt, createShl, if_pos (by omega)]
    · have hindex : usedBits + i - (usedBits - u) = u + i := by omega
      have hle : ¬ usedBits + i < usedBits - u := by omega
      rw [BitVec.getLsbD_shiftLeft, hindex, decide_eq_false hle, Bool.not_false, Bool.and_true]

theorem shiftIntoPlace_eq_none (spareBits : BitVec size) {u usedBits : Nat} (hfits : u + size ≤ usedBits)
    (hu : u < size) : shiftIntoPlace spareBits u usedBits = none := by
  rw [shiftIntoPlace, if_neg (by omega), if_pos (by omega), createShl, if_neg (by omega)]

theorem getLsbD_runMask (numBits usedBits j : Nat) : (runMask w numBits usedBits).getLsbD j =
    (decide (j < w) && decide (usedBits ≤ j) && decide (j - usedBits < numBits)) := by
  rw [runMask, BitVec.getLsbD_shiftLeft, BitVec.getLsbD_setWidth, BitVec.getLsbD_allOnes]
  by_cases hj : j < w
  · by_cases hle : usedBits ≤ j
    · have hlt : j - usedBits < w := by omega
      simp [hj, hle, hlt]
    · simp [hj, hle]
  · simp [hj]

theorem getLsbD_accumulate (result : Option (BitVec w)) (newBits : BitVec w) (j : Nat) :
    (accumulate result newBits).getLsbD j = ((result.getD 0).getLsbD j || newBits.getLsbD j) := by
  cases result with
  | none => simp [accumulate]
  | some result => exact BitVec.getLsbD_or

theorem getLsbD_run {spareBits newBits : BitVec size} {u usedBits numBits : Nat}
    (hbits : ∀ i, newBits.getLsbD (usedBits + i) =
      (decide (usedBits + i < size) && spareBits.getLsbD (u + i))) (j : Nat) :
    (newBits.setWidth w &&& runMask w numBits usedBits).getLsbD j = true ↔ j < w ∧ j < size ∧
      ∃ i, i < numBits ∧ usedBits + i = j ∧ spareBits.getLsbD (u + i) = true := by
  rw [BitVec.getLsbD_and, BitVec.getLsbD_setWidth, getLsbD_runMask]
  simp only [Bool.and_eq_true, decide_eq_true_eq]
  refine ⟨fun h => ?_, fun h => ?_⟩
  · obtain ⟨⟨-, hbit⟩, ⟨hw, hle⟩, hlt⟩ := h
    obtain ⟨i, rfl⟩ := Nat.exists_eq_add_of_le hle
    rw [hbits, Bool.and_eq_true, decide_eq_true_eq] at hbit
    rw [Nat.add_sub_cancel_left] at hlt
    exact ⟨hw, hbit.1, i, hlt, rfl, hbit.2⟩
  · obtain ⟨hw, hsize, i, hi, rfl, hbit⟩ := h
    rw [hbits, decide_eq_true hsize, hbit, Nat.add_sub_cancel_left]
    exact ⟨⟨hw, rfl⟩, ⟨hw, Nat.le_add_right _ _⟩, hi⟩

/-- A bit of the chunk, from `u` on, that is moved to `j`. -/
def Placed (spareBitMask : List Bool) (spareBits : BitVec size) (lowBit w u j : Nat) : Prop :=
  j < w ∧ j < size ∧ ∃ p, u ≤ p ∧ bit spareBitMask p = true ∧ lowBit + rank spareBitMask p = j ∧
    spareBits.getLsbD p = true

/-- The bits of the mask from `u` on can be shifted into place. -/
def Shiftable (spareBitMask : List Bool) (size lowBit w u : Nat) : Prop :=
  ∀ p, u ≤ p → bit spareBitMask p = true → lowBit + rank spareBitMask p < w →
    lowBit + rank spareBitMask p < p + size

variable {spareBitMask : List Bool} {spareBits : BitVec size} {lowBit : Nat}

theorem Placed.split {u n j : Nat} (hrun : ∀ i, i < n → bit spareBitMask (u + i) = true) :
    Placed spareBitMask spareBits lowBit w u j ↔
      (j < w ∧ j < size ∧ ∃ i, i < n ∧ lowBit + rank spareBitMask u + i = j ∧
        spareBits.getLsbD (u + i) = true) ∨ Placed spareBitMask spareBits lowBit w (u + n) j := by
  have hrank : ∀ i, i < n → rank spareBitMask (u + i) = rank spareBitMask u + i := fun i hi =>
    rank_add fun k hk => hrun k (by omega)
  refine ⟨fun h => ?_, fun h => ?_⟩
  · obtain ⟨hw, hsize, p, hp, hbit, hplace, hset⟩ := h
    rcases Nat.lt_or_ge p (u + n) with hlt | hge
    · obtain ⟨i, rfl⟩ := Nat.exists_eq_add_of_le hp
      rw [hrank i (by omega)] at hplace
      exact .inl ⟨hw, hsize, i, by omega, by omega, hset⟩
    · exact .inr ⟨hw, hsize, p, hge, hbit, hplace, hset⟩
  · rcases h with ⟨hw, hsize, i, hi, hplace, hset⟩ | ⟨hw, hsize, p, hp, h⟩
    · refine ⟨hw, hsize, u + i, Nat.le_add_right _ _, hrun i hi, ?_, hset⟩
      rw [hrank i hi]
      omega
    · exact ⟨hw, hsize, p, by omega, h⟩

theorem Shiftable.split {u n : Nat} (hn : 0 < n) (hrun : ∀ i, i < n → bit spareBitMask (u + i) = true) :
    Shiftable spareBitMask size lowBit w u ↔
      (lowBit + rank spareBitMask u < w → lowBit + rank spareBitMask u < u + size) ∧
        Shiftable spareBitMask size lowBit w (u + n) := by
  refine ⟨fun h => ⟨h u (le_refl u) (hrun 0 hn), fun p hp => h p (by omega)⟩, fun h => ?_⟩
  intro p hp hbit hlt
  rcases Nat.lt_or_ge p (u + n) with hlt' | hge
  · obtain ⟨i, rfl⟩ := Nat.exists_eq_add_of_le hp
    have hrank : rank spareBitMask (u + i) = rank spareBitMask u + i :=
      rank_add fun k hk => hrun k (by omega)
    have hfirst := h.1 (by omega)
    omega
  · exact h.2 p hge hbit hlt

theorem Placed.skip {u u' j : Nat} (hle : u ≤ u')
    (hnext : ∀ p, u ≤ p → bit spareBitMask p = true → u' ≤ p) :
    Placed spareBitMask spareBits lowBit w u j ↔ Placed spareBitMask spareBits lowBit w u' j := by
  refine ⟨fun h => ?_, fun h => ?_⟩
  · obtain ⟨hw, hsize, p, hp, hbit, hrest⟩ := h
    exact ⟨hw, hsize, p, hnext p hp hbit, hbit, hrest⟩
  · obtain ⟨hw, hsize, p, hp, hrest⟩ := h
    exact ⟨hw, hsize, p, le_trans hle hp, hrest⟩

theorem Shiftable.skip {u u' : Nat} (hle : u ≤ u')
    (hnext : ∀ p, u ≤ p → bit spareBitMask p = true → u' ≤ p) :
    Shiftable spareBitMask size lowBit w u ↔ Shiftable spareBitMask size lowBit w u' :=
  ⟨fun h p hp => h p (le_trans hle hp), fun h p hp hbit => h p (hnext p hp hbit) hbit⟩

theorem next_of_onesFrom {u u' : Nat} {rest : List Nat} (h : onesFrom spareBitMask u = u' :: rest) (p : Nat)
    (hp : u ≤ p) (hbit : bit spareBitMask p = true) : u' ≤ p := by
  have hmem : p ∈ u' :: rest := h ▸ mem_onesFrom.2 ⟨hp, hbit⟩
  rcases List.mem_cons.1 hmem with rfl | hmem
  · exact le_refl _
  · rw [(onesFrom_eq_cons h).2.2.2] at hmem
    have hle := (mem_onesFrom.1 hmem).1
    omega

variable (spareBits) in
theorem gatherLoop_step (n : Nat) (result : Option (BitVec w)) {u usedBits : Nat} (hbit : bit spareBitMask u = true)
    (hused : usedBits = lowBit + rank spareBitMask u) (hlt : usedBits < w) : ∃ k, 0 < k ∧
      (∀ i, i < k → bit spareBitMask (u + i) = true) ∧
      gatherLoop spareBitMask spareBits lowBit w (n + 1) (u :: onesFrom spareBitMask (u + 1)) usedBits
        result = (shiftIntoPlace spareBits u usedBits).bind fun newBits =>
          gatherLoop spareBitMask spareBits lowBit w n (onesFrom spareBitMask (u + k)) (usedBits + k)
            (some (accumulate result (newBits.setWidth w &&& runMask w k usedBits))) := by
  have hset : ∀ i, i < 1 → bit spareBitMask (u + i) = true := by
    intro i hi
    rw [Nat.lt_one_iff.1 hi]
    exact hbit
  have hlen := lt_length_of_bit hbit
  obtain ⟨k, hk, hpos, -, hrun⟩ := consecutiveBits_spec (w - usedBits)
    (spareBitMask.length - (u + 1)) 1 (by omega) hset
  refine ⟨k, hpos, hrun, ?_⟩
  have hrank := rank_le spareBitMask u
  rw [gatherLoop, if_neg (by omega), if_neg (by omega), hk]
  rfl

variable (spareBits) in
/-- What the loop adds to its result. -/
theorem gatherLoop_spec (hlen : spareBitMask.length = size) :
    ∀ n u usedBits (result : Option (BitVec w)), usedBits = lowBit + rank spareBitMask u →
      (onesFrom spareBitMask u).length ≤ n → Shiftable spareBitMask size lowBit w u → ∃ result',
        gatherLoop spareBitMask spareBits lowBit w n (onesFrom spareBitMask u) usedBits result =
          some result' ∧
        (∀ j, (result'.getD 0).getLsbD j = true ↔
          (result.getD 0).getLsbD j = true ∨ Placed spareBitMask spareBits lowBit w u j) ∧
        (result.isSome = true ∨ onesFrom spareBitMask u ≠ [] ∧ usedBits < w → result'.isSome = true) := by
  have hdone : ∀ u (result : Option (BitVec w)),
      (∀ p, u ≤ p → bit spareBitMask p = true → w ≤ lowBit + rank spareBitMask p) → ∀ j,
        ((result.getD 0).getLsbD j = true ↔
          (result.getD 0).getLsbD j = true ∨ Placed spareBitMask spareBits lowBit w u j) := by
    intro u result hfull j
    refine ⟨.inl, fun h => h.resolve_right ?_⟩
    rintro ⟨hw, -, p, hp, hbit, hplace, -⟩
    have hle := hfull p hp hbit
    omega
  intro n
  induction n with
  | zero =>
    intro u usedBits result _ hn _
    have hnil : onesFrom spareBitMask u = [] := List.eq_nil_of_length_eq_zero (Nat.le_zero.1 hn)
    rw [hnil]
    refine ⟨result, rfl, hdone u result fun p hp hbit => ?_, fun h => h.resolve_right fun h => h.1 rfl⟩
    exact absurd (mem_onesFrom.2 ⟨hp, hbit⟩) (by rw [hnil]; simp)
  | succ n ih =>
    intro u usedBits result hused hn hshift
    cases hones : onesFrom spareBitMask u with
    | nil =>
      refine ⟨result, rfl, hdone u result fun p hp hbit => ?_, fun h => h.resolve_right fun h => h.1 rfl⟩
      exact absurd (mem_onesFrom.2 ⟨hp, hbit⟩) (by rw [hones]; simp)
    | cons u' rest =>
      have hnext := next_of_onesFrom hones
      rw [hones] at hn
      obtain ⟨hle, hbit, hrank, rfl⟩ := onesFrom_eq_cons hones
      rcases Nat.lt_or_ge usedBits w with hlt | hge
      · obtain ⟨k, hk, hrun, hstep⟩ := gatherLoop_step spareBits n result
          hbit (by omega : usedBits = lowBit + rank spareBitMask u') hlt
        obtain ⟨hfits, hshift'⟩ := (Shiftable.split hk hrun).1 ((Shiftable.skip hle hnext).1 hshift)
        have hu' := lt_length_of_bit hbit
        obtain ⟨newBits, hnew, hbits⟩ := shiftIntoPlace_spec spareBits u' usedBits
          (by omega) (by omega)
        rw [hstep, hnew, Option.bind_some]
        have hlength := length_onesFrom_mono (l := spareBitMask) (u := u' + 1) (v := u' + k) (by omega)
        rw [List.length_cons] at hn
        obtain ⟨result', hloop, hresult, hsome⟩ := ih (u' + k) (usedBits + k)
          (some (accumulate result (newBits.setWidth w &&& runMask w k usedBits)))
          (by rw [rank_add hrun]; omega) (by omega) hshift'
        refine ⟨result', hloop, fun j => ?_, fun _ => hsome (.inl rfl)⟩
        rw [hresult, Option.getD_some, getLsbD_accumulate, Bool.or_eq_true, getLsbD_run hbits, or_assoc,
          Placed.skip hle hnext, Placed.split hrun, hused, hrank]
      · rw [gatherLoop, if_pos hge]
        refine ⟨result, rfl, hdone u result fun p hp _ => ?_,
          fun h => h.resolve_right fun h => absurd h.2 (Nat.not_lt.2 hge)⟩
        have hmono := rank_mono (l := spareBitMask) hp
        omega

variable (spareBits) in
theorem gatherLoop_eq_none (hlen : spareBitMask.length = size) :
    ∀ n u usedBits (result : Option (BitVec w)), usedBits = lowBit + rank spareBitMask u →
      (onesFrom spareBitMask u).length ≤ n → ¬ Shiftable spareBitMask size lowBit w u →
        gatherLoop spareBitMask spareBits lowBit w n (onesFrom spareBitMask u) usedBits result = none := by
  intro n
  induction n with
  | zero =>
    intro u usedBits result _ hn hshift
    have hnil : onesFrom spareBitMask u = [] := List.eq_nil_of_length_eq_zero (Nat.le_zero.1 hn)
    refine absurd (fun p hp hbit => ?_) hshift
    exact absurd (mem_onesFrom.2 ⟨hp, hbit⟩) (by rw [hnil]; simp)
  | succ n ih =>
    intro u usedBits result hused hn hshift
    cases hones : onesFrom spareBitMask u with
    | nil =>
      refine absurd (fun p hp hbit => ?_) hshift
      exact absurd (mem_onesFrom.2 ⟨hp, hbit⟩) (by rw [hones]; simp)
    | cons u' rest =>
      have hnext := next_of_onesFrom hones
      rw [hones] at hn
      obtain ⟨hle, hbit, hrank, rfl⟩ := onesFrom_eq_cons hones
      rcases Nat.lt_or_ge usedBits w with hlt | hge
      · obtain ⟨k, hk, hrun, hstep⟩ := gatherLoop_step spareBits n result
          hbit (by omega : usedBits = lowBit + rank spareBitMask u') hlt
        have hrest : usedBits < u' + size → ¬ Shiftable spareBitMask size lowBit w (u' + k) := by
          intro hfits hrest
          apply hshift
          rw [Shiftable.skip hle hnext, Shiftable.split hk hrun]
          exact ⟨fun _ => by omega, hrest⟩
        have hu' := lt_length_of_bit hbit
        rw [hstep]
        rcases Nat.lt_or_ge usedBits (u' + size) with hfits | hfits
        · obtain ⟨newBits, hnew, -⟩ := shiftIntoPlace_spec spareBits u' usedBits (by omega) hfits
          have hlength := length_onesFrom_mono (l := spareBitMask) (u := u' + 1) (v := u' + k) (by omega)
          rw [List.length_cons] at hn
          rw [hnew, Option.bind_some]
          exact ih _ _ _ (by rw [rank_add hrun]; omega) (by omega) (hrest hfits)
        · rw [shiftIntoPlace_eq_none _ hfits (by omega)]
          rfl
      · refine absurd (fun p hp _ hlt => ?_) hshift
        have hmono := rank_mono (l := spareBitMask) hp
        omega

variable (spareBits) in
theorem emitGatherSpareBits_spec (hlen : spareBitMask.length = size) (hmask : ones spareBitMask ≠ [])
    (hlt : lowBit < w) (hshift : Shiftable spareBitMask size lowBit w 0) : ∃ bits,
      emitGatherSpareBits spareBitMask spareBits lowBit w = some (some bits) ∧
      ∀ j, bits.getLsbD j = true ↔ Placed spareBitMask spareBits lowBit w 0 j := by
  rw [← onesFrom_zero] at hmask
  obtain ⟨result, hloop, hresult, hsome⟩ := gatherLoop_spec spareBits hlen
    (ones spareBitMask).length 0 lowBit (none : Option (BitVec w)) (by rw [rank_zero]; rfl)
    (by rw [onesFrom_zero]) hshift
  obtain ⟨bits, rfl⟩ := Option.isSome_iff_exists.1 (hsome (.inr ⟨hmask, hlt⟩))
  rw [onesFrom_zero] at hloop
  refine ⟨bits, hloop, fun j => ?_⟩
  have hbit := hresult j
  simpa using hbit

variable (spareBits) in
theorem emitGatherSpareBits_eq_none (hlen : spareBitMask.length = size)
    (hshift : ¬ Shiftable spareBitMask size lowBit w 0) :
    emitGatherSpareBits spareBitMask spareBits lowBit w = none := by
  have hloop := gatherLoop_eq_none spareBits hlen (ones spareBitMask).length 0 lowBit
    (none : Option (BitVec w)) (by rw [rank_zero]; rfl) (by rw [onesFrom_zero]) hshift
  rwa [onesFrom_zero] at hloop

end Chunk

namespace EnumPayload

def spareBitsPart (spareBits : List Bool) (payloadOffset size : Nat) : List Bool :=
  (List.range size).map fun i => bit spareBits (payloadOffset + i)

/-- The loop over the chunks. -/
def gatherChunks (spareBits : List Bool) (bitWidth : Nat) :
    List LazyValue → Nat → Nat → Option (BitVec bitWidth) → Option (Option (BitVec bitWidth))
  | [], _, _, spareBitValue => some spareBitValue
  -- If this value is zero, it has nothing to add to the spare bits.
  | .type size :: pvs, payloadOffset, firstBitOffset, spareBitValue =>
    gatherChunks spareBits bitWidth pvs (payloadOffset + size) firstBitOffset spareBitValue
  | @LazyValue.value size v :: pvs, payloadOffset, firstBitOffset, spareBitValue =>
    let part := spareBitsPart spareBits payloadOffset size
    let numBitsInPart := part.count true
    if numBitsInPart = 0 then
      gatherChunks spareBits bitWidth pvs (payloadOffset + size) firstBitOffset spareBitValue
    else if bitWidth ≤ firstBitOffset then some spareBitValue
    else do
      let bits ← IRGen.emitGatherSpareBits part v firstBitOffset bitWidth
      -- The null value cannot be accumulated.
      let bits ← bits
      gatherChunks spareBits bitWidth pvs (payloadOffset + size) (firstBitOffset + numBitsInPart)
        (some (accumulate spareBitValue bits))

def emitGatherSpareBits (payload : EnumPayload) (spareBits : List Bool) (firstBitOffset bitWidth : Nat) :
    Option (BitVec bitWidth) := do
  let spareBitValue ← gatherChunks spareBits bitWidth payload.payloadValues 0 firstBitOffset none
  some (spareBitValue.getD 0)

end EnumPayload

end SwiftKStdlib.IRGen
