import SwiftKStdlib.IRGen.GatherSpareBits

/-!
# Interleaving bits, at compile time and at run time

* `interleaveSpareBits` : the constant; `getLsbD_interleaveSpareBits`;
* `emitScatterSpareBits` : a value, scattered over the set bits of a mask; `emitScatterSpareBits_spec`;
* `interleaveSpareBitsDynamic` : the payload of a dynamic value; `interleaveSpareBitsDynamic_spec`;
* `MultiPayloadEnumImplStrategy.getEmptyCasePayload`, `…Dynamic` : the payload of an empty case;
  `getEmptyCasePayloadDynamic_toNat` : they have the same bits.
-/

namespace SwiftKStdlib.IRGen

open Lib.BitWords

/-! ## The constant -/

/-- The words of a value, while bits are written to the last one. -/
structure ValueParts where
  full : List (BitVec 64)
  back : BitVec 64
  valueBit : BitVec 64

namespace ValueParts

def initial : ValueParts := ⟨[], 0, 1⟩

def advanceValueBit (parts : ValueParts) : ValueParts :=
  let valueBit := parts.valueBit <<< 1
  if valueBit = 0 then ⟨parts.full ++ [parts.back], 0, 1⟩ else { parts with valueBit }

def orBack (parts : ValueParts) : ValueParts := { parts with back := parts.back ||| parts.valueBit }

def words (parts : ValueParts) : List (BitVec 64) := parts.full ++ [parts.back]

end ValueParts

def wordsToNat : List (BitVec 64) → Nat
  | [] => 0
  | w :: ws => 2 ^ 64 * wordsToNat ws + w.toNat

/-- The loop over the bits of the mask. -/
def interleaveLoop : List Bool → BitVec 32 → BitVec 32 → ValueParts → ValueParts
  | [], _, _, parts => parts
  | spareBit :: spareBits, spareValue, occupiedValue, parts =>
    if occupiedValue = 0 ∧ spareValue = 0 then parts
    else if spareBit then
      let parts := if spareValue.getLsbD 0 then parts.orBack else parts
      interleaveLoop spareBits (spareValue >>> 1) occupiedValue parts.advanceValueBit
    else
      let parts := if occupiedValue.getLsbD 0 then parts.orBack else parts
      interleaveLoop spareBits spareValue (occupiedValue >>> 1) parts.advanceValueBit

/-- Interleave the occupiedValue and spareValue bits, taking a bit from one or the other at each position
based on the spareBits mask. -/
def interleaveSpareBits (spareBits : List Bool) (bits : Nat) (spareValue occupiedValue : BitVec 32) :
    BitVec bits :=
  BitVec.ofNat bits (wordsToNat (interleaveLoop spareBits spareValue occupiedValue .initial).words)

def pick (spareBits : List Bool) (spareValue occupiedValue : BitVec 32) (i : Nat) : Bool :=
  decide (i < spareBits.length) && if bit spareBits i then spareValue.getLsbD (rank spareBits i)
    else occupiedValue.getLsbD (i - rank spareBits i)

section Constant

variable {spareBits : List Bool} {spareValue occupiedValue : BitVec 32}

theorem pick_cons_zero (b : Bool) : pick (b :: spareBits) spareValue occupiedValue 0 =
    if b then spareValue.getLsbD 0 else occupiedValue.getLsbD 0 := by
  simp [pick, bit_cons_zero, rank_zero]

theorem pick_cons_succ (b : Bool) (i : Nat) : pick (b :: spareBits) spareValue occupiedValue (i + 1) =
    if b then pick spareBits (spareValue >>> 1) occupiedValue i
    else pick spareBits spareValue (occupiedValue >>> 1) i := by
  have hle := rank_le spareBits i
  unfold pick
  rw [bit_cons_succ, rank_cons_succ, List.length_cons]
  cases b with
  | true =>
    have hsub : i + 1 - (1 + rank spareBits i) = i - rank spareBits i := by omega
    simp [hsub]
  | false =>
    have hsub : i + 1 - rank spareBits i = 1 + (i - rank spareBits i) := by omega
    simp [hsub]

theorem pick_zero (i : Nat) : pick spareBits 0 0 i = false := by
  simp [pick]

theorem testBit_wordsToNat_concat (ws : List (BitVec 64)) (w : BitVec 64) (j : Nat) :
    (wordsToNat (ws ++ [w])).testBit j =
      if j < 64 * ws.length then (wordsToNat ws).testBit j else w.getLsbD (j - 64 * ws.length) := by
  induction ws generalizing j with
  | nil =>
    have hw : wordsToNat [w] = w.toNat := by simp [wordsToNat]
    rw [List.nil_append, hw, List.length_nil, Nat.mul_zero, if_neg (Nat.not_lt_zero j), Nat.sub_zero]
    rfl
  | cons x ws ih =>
    rw [List.cons_append, wordsToNat, wordsToNat, Nat.testBit_two_pow_mul_add _ x.isLt,
      Nat.testBit_two_pow_mul_add _ x.isLt, ih, List.length_cons]
    by_cases hj : j < 64
    · rw [if_pos hj, if_pos hj, if_pos (by omega)]
    · have hsub : j - 64 - 64 * ws.length = j - 64 * (ws.length + 1) := by omega
      rw [if_neg hj, if_neg hj, hsub]
      split_ifs
      · rfl
      · omega
      · omega
      · rfl

namespace ValueParts

/-- The next bit to be written is the bit `i`. -/
structure At (parts : ValueParts) (i : Nat) : Prop where
  length_full : parts.full.length = i / 64
  valueBit : parts.valueBit = 1#64 <<< (i % 64)

theorem at_initial : At initial 0 := ⟨rfl, rfl⟩

def testBit (parts : ValueParts) (j : Nat) : Bool := (wordsToNat parts.words).testBit j

theorem testBit_initial (j : Nat) : initial.testBit j = false := by
  unfold testBit initial words
  rw [testBit_wordsToNat_concat]
  simp

variable {parts : ValueParts} {i : Nat}

theorem At.testBit_orBack (h : At parts i) (j : Nat) :
    parts.orBack.testBit j = (parts.testBit j || decide (j = i)) := by
  unfold testBit words orBack
  rw [testBit_wordsToNat_concat, testBit_wordsToNat_concat, h.length_full, h.valueBit]
  split_ifs with hj
  · have hne : ¬ j = i := by omega
    rw [decide_eq_false hne, Bool.or_false]
  · rw [BitVec.getLsbD_or, BitVec.getLsbD_shiftLeft, BitVec.getLsbD_one]
    congr 1
    by_cases hji : j = i
    · subst hji
      have hmod : j - 64 * (j / 64) = j % 64 := by omega
      have hlt := Nat.mod_lt j (by decide : 0 < 64)
      simp [hmod, hlt]
    · rw [decide_eq_false hji]
      by_cases hlt : j - 64 * (i / 64) < i % 64
      · simp [hlt]
      · have hne : ¬ j - 64 * (i / 64) - i % 64 = 0 := by omega
        simp [hne]

theorem At.orBack (h : At parts i) : At parts.orBack i := ⟨h.length_full, h.valueBit⟩

theorem At.advance (h : At parts i) :
    At parts.advanceValueBit (i + 1) ∧ ∀ j, parts.advanceValueBit.testBit j = parts.testBit j := by
  have hlt := Nat.mod_lt i (by decide : 0 < 64)
  have hshift : parts.valueBit <<< 1 = 1#64 <<< (i % 64 + 1) := by
    rw [h.valueBit, BitVec.shiftLeft_add]
  unfold advanceValueBit
  dsimp only
  rw [hshift]
  by_cases hlast : i % 64 = 63
  · rw [hlast, if_pos (by decide)]
    refine ⟨⟨?_, ?_⟩, fun j => ?_⟩
    · dsimp only
      rw [List.length_append, h.length_full, List.length_singleton]
      omega
    · have hmod : (i + 1) % 64 = 0 := by omega
      rw [hmod]
      rfl
    · unfold testBit words
      dsimp only
      rw [testBit_wordsToNat_concat]
      split_ifs with hj
      · rfl
      · rw [List.length_append, List.length_singleton] at hj
        rw [testBit_wordsToNat_concat, if_neg (by omega), BitVec.getLsbD_of_ge parts.back _ (by omega)]
        exact BitVec.getLsbD_zero
  · have hbit : (1#64 <<< (i % 64 + 1)).getLsbD (i % 64 + 1) = true := by
      have hin : i % 64 + 1 < 64 := by omega
      rw [BitVec.getLsbD_shiftLeft, Nat.sub_self]
      simp [hin]
    have hne : 1#64 <<< (i % 64 + 1) ≠ 0 := by
      intro hzero
      rw [hzero] at hbit
      exact absurd hbit (by simp)
    rw [if_neg hne]
    refine ⟨⟨?_, ?_⟩, fun j => rfl⟩
    · dsimp only
      rw [h.length_full]
      omega
    · have hmod : (i + 1) % 64 = i % 64 + 1 := by omega
      rw [hmod]

theorem At.write (h : At parts i) (b : Bool) :
    At (if b then parts.orBack else parts).advanceValueBit (i + 1) ∧
      ∀ j, (if b then parts.orBack else parts).advanceValueBit.testBit j =
        (parts.testBit j || (decide (j = i) && b)) := by
  cases b with
  | true =>
    obtain ⟨hat, hbits⟩ := h.orBack.advance
    refine ⟨hat, fun j => ?_⟩
    rw [Bool.and_true, ← h.testBit_orBack]
    exact hbits j
  | false =>
    obtain ⟨hat, hbits⟩ := h.advance
    refine ⟨hat, fun j => ?_⟩
    rw [Bool.and_false, Bool.or_false]
    exact hbits j

end ValueParts

theorem testBit_interleaveLoop (spareBits : List Bool) : ∀ (spareValue occupiedValue : BitVec 32)
    (parts : ValueParts) (i : Nat), parts.At i →
      (∀ j, j < i → (interleaveLoop spareBits spareValue occupiedValue parts).testBit j = parts.testBit j) ∧
      ∀ k, (interleaveLoop spareBits spareValue occupiedValue parts).testBit (i + k) =
        (parts.testBit (i + k) || pick spareBits spareValue occupiedValue k) := by
  induction spareBits with
  | nil =>
    intro spareValue occupiedValue parts i _
    exact ⟨fun j _ => rfl, fun k => by simp [interleaveLoop, pick]⟩
  | cons b spareBits ih =>
    intro spareValue occupiedValue parts i hat
    by_cases hzero : occupiedValue = 0 ∧ spareValue = 0
    · rw [interleaveLoop, if_pos hzero]
      refine ⟨fun j _ => rfl, fun k => ?_⟩
      rw [hzero.1, hzero.2, pick_zero, Bool.or_false]
    · -- The bit here, and what the rest of the loop picks.
      have hwritten : ∀ (bitHere : Bool) (spareValue' occupiedValue' : BitVec 32),
          pick (b :: spareBits) spareValue occupiedValue 0 = bitHere →
          (∀ k, pick (b :: spareBits) spareValue occupiedValue (k + 1) =
            pick spareBits spareValue' occupiedValue' k) →
          let result := interleaveLoop spareBits spareValue' occupiedValue'
            (if bitHere then parts.orBack else parts).advanceValueBit
          (∀ j, j < i → result.testBit j = parts.testBit j) ∧
            ∀ k, result.testBit (i + k) =
              (parts.testBit (i + k) || pick (b :: spareBits) spareValue occupiedValue k) := by
        intro bitHere spareValue' occupiedValue' hhere hrest result
        obtain ⟨hat', hbits⟩ := hat.write bitHere
        obtain ⟨hbefore, hfrom⟩ := ih spareValue' occupiedValue' _ (i + 1) hat'
        refine ⟨fun j hj => ?_, fun k => ?_⟩
        · rw [hbefore j (by omega), hbits, decide_eq_false (by omega), Bool.false_and, Bool.or_false]
        · cases k with
          | zero => rw [Nat.add_zero, hbefore i (by omega), hbits, decide_eq_true rfl, Bool.true_and, hhere]
          | succ k =>
            have hindex : i + (k + 1) = i + 1 + k := by omega
            rw [hindex, hfrom, hbits, decide_eq_false (by omega), Bool.false_and, Bool.or_false, hrest]
      rw [interleaveLoop, if_neg hzero]
      cases b with
      | true =>
        exact hwritten (spareValue.getLsbD 0) (spareValue >>> 1) occupiedValue (pick_cons_zero true)
          (pick_cons_succ true)
      | false =>
        exact hwritten (occupiedValue.getLsbD 0) spareValue (occupiedValue >>> 1) (pick_cons_zero false)
          (pick_cons_succ false)

theorem getLsbD_interleaveSpareBits (spareBits : List Bool) (bits : Nat)
    (spareValue occupiedValue : BitVec 32) (i : Nat) :
    (interleaveSpareBits spareBits bits spareValue occupiedValue).getLsbD i =
      (decide (i < bits) && pick spareBits spareValue occupiedValue i) := by
  have hloop := (testBit_interleaveLoop spareBits spareValue occupiedValue .initial 0
    ValueParts.at_initial).2 i
  rw [Nat.zero_add, ValueParts.testBit_initial, Bool.false_or] at hloop
  rw [interleaveSpareBits, BitVec.getLsbD_ofNat, ← hloop]
  rfl

end Constant

/-! ## The dynamic value -/

/-- The number of consecutive bits, and what the enumeration has left. It has every bit of the run. -/
def consecutiveSpareBits (spareBitMask : List Bool) : Nat → Nat → Nat → List Nat → Option (Nat × List Nat)
  | 0, _, numBits, rest => some (numBits, rest)
  | left + 1, u, numBits, rest =>
    if bit spareBitMask u then
      match rest with
      | [] => none
      | _ :: rest => consecutiveSpareBits spareBitMask left (u + 1) (numBits + 1) rest
    else some (numBits, rest)

/-- The loop over the set bits of the mask, with the fuel `n`. -/
def scatterLoop {w : Nat} (spareBitMask : List Bool) (packedBits : BitVec w) (packedLowBit : Nat) :
    Nat → List Nat → Nat → Option (BitVec w) → Option (Option (BitVec w))
  | _, [], _, result => some result
  | 0, _ :: _, _, _ => none
  | n + 1, u :: rest, usedBits, result =>
    -- used more bits than we've processed?!
    if u < usedBits - packedLowBit then none
    else do
      let newBits ← (if usedBits < u then createShl packedBits (u - usedBits)
        else if u < usedBits then createLShr packedBits (usedBits - u)
        else some packedBits : Option (BitVec w))
      let run ← consecutiveSpareBits spareBitMask (spareBitMask.length - (u + 1)) (u + 1) 1 rest
      scatterLoop spareBitMask packedBits packedLowBit n run.2 (usedBits + run.1)
        (some (accumulate result (newBits &&& runMask w run.1 u)))

def emitScatterSpareBits {n : Nat} (spareBitMask : List Bool) (packedBits : BitVec n) (packedLowBit : Nat) :
    Option (Option (BitVec spareBitMask.length)) :=
  scatterLoop spareBitMask (packedBits.setWidth spareBitMask.length) packedLowBit
    (ones spareBitMask).length (ones spareBitMask) packedLowBit none

section Scatter

variable {w : Nat} {spareBitMask : List Bool}

theorem consecutiveSpareBits_spec {u : Nat} : ∀ left numBits, spareBitMask.length = u + numBits + left →
    (∀ i, i < numBits → bit spareBitMask (u + i) = true) → ∃ n,
      consecutiveSpareBits spareBitMask left (u + numBits) numBits (onesFrom spareBitMask (u + numBits)) =
        some (n, onesFrom spareBitMask (u + n)) ∧
      numBits ≤ n ∧ ∀ i, i < n → bit spareBitMask (u + i) = true := by
  intro left
  induction left with
  | zero =>
    intro numBits _ hset
    exact ⟨numBits, rfl, le_refl _, hset⟩
  | succ left ih =>
    intro numBits hlen hset
    unfold consecutiveSpareBits
    split_ifs with hbit
    · obtain ⟨n, heq, hle, hrun⟩ := ih (numBits + 1) (by omega) (run_succ hset hbit)
      rw [onesFrom_of_bit hbit]
      exact ⟨n, heq, by omega, hrun⟩
    · exact ⟨numBits, rfl, le_refl _, hset⟩

def scattered (spareBitMask : List Bool) (packedBits : BitVec w) (j : Nat) : Bool :=
  bit spareBitMask j && packedBits.getLsbD (rank spareBitMask j)

theorem getLsbD_scatterRun (packedBits : BitVec w) {u k : Nat}
    (hrun : ∀ i, i < k → bit spareBitMask (u + i) = true) (j : Nat) :
    (packedBits <<< (u - rank spareBitMask u) &&& runMask w k u).getLsbD j =
      (decide (u ≤ j ∧ j < u + k) && (decide (j < w) && scattered spareBitMask packedBits j)) := by
  have hle := rank_le spareBitMask u
  rw [BitVec.getLsbD_and, BitVec.getLsbD_shiftLeft, getLsbD_runMask]
  by_cases hj : u ≤ j ∧ j < u + k
  · obtain ⟨i, rfl⟩ := Nat.exists_eq_add_of_le hj.1
    have hi : i < k := by omega
    have hrank : rank spareBitMask (u + i) = rank spareBitMask u + i := rank_add fun m hm => hrun m (by omega)
    have hindex : u + i - (u - rank spareBitMask u) = rank spareBitMask u + i := by omega
    have hnot : ¬ u + i < u - rank spareBitMask u := by omega
    unfold scattered
    rw [hrun i hi, hrank, hindex, decide_eq_false hnot, decide_eq_true hj]
    by_cases hw : u + i < w
    · simp [hw, hi]
    · simp [hw]
  · rw [decide_eq_false hj, Bool.false_and]
    by_cases hu : u ≤ j
    · have hlt : ¬ j - u < k := by omega
      simp [hlt]
    · simp [hu]

variable {packedBits : BitVec w}

variable (packedBits) in
/-- What the loop adds to its result. -/
theorem scatterLoop_spec (hlen : spareBitMask.length = w) : ∀ n u usedBits (result : Option (BitVec w)),
    usedBits = rank spareBitMask u → (onesFrom spareBitMask u).length ≤ n → ∃ result',
      scatterLoop spareBitMask packedBits 0 n (onesFrom spareBitMask u) usedBits result = some result' ∧
      (∀ j, (result'.getD 0).getLsbD j =
        ((result.getD 0).getLsbD j || (decide (u ≤ j) && scattered spareBitMask packedBits j))) ∧
      (result.isSome = true ∨ onesFrom spareBitMask u ≠ [] → result'.isSome = true) := by
  have hdone : ∀ u (result : Option (BitVec w)), onesFrom spareBitMask u = [] → ∀ j,
      (result.getD 0).getLsbD j =
        ((result.getD 0).getLsbD j || (decide (u ≤ j) && scattered spareBitMask packedBits j)) := by
    intro u result hnil j
    have hnone : (decide (u ≤ j) && scattered spareBitMask packedBits j) = false := by
      by_contra h
      rw [Bool.not_eq_false, scattered, Bool.and_eq_true, Bool.and_eq_true, decide_eq_true_eq] at h
      exact absurd (mem_onesFrom.2 ⟨h.1, h.2.1⟩) (by rw [hnil]; simp)
    rw [hnone, Bool.or_false]
  intro n
  induction n with
  | zero =>
    intro u usedBits result _ hn
    have hnil : onesFrom spareBitMask u = [] := List.eq_nil_of_length_eq_zero (Nat.le_zero.1 hn)
    rw [hnil]
    exact ⟨result, rfl, hdone u result hnil, fun h => h.resolve_right fun h => h rfl⟩
  | succ n ih =>
    intro u usedBits result hused hn
    cases hones : onesFrom spareBitMask u with
    | nil => exact ⟨result, rfl, hdone u result hones, fun h => h.resolve_right fun h => h rfl⟩
    | cons u' rest =>
      have hnext := next_of_onesFrom hones
      rw [hones] at hn
      obtain ⟨hle, hbit, hrank, rfl⟩ := onesFrom_eq_cons hones
      have hu' := lt_length_of_bit hbit
      have hrankle := rank_le spareBitMask u'
      have hset : ∀ i, i < 1 → bit spareBitMask (u' + i) = true := by
        intro i hi
        rw [Nat.lt_one_iff.1 hi]
        exact hbit
      obtain ⟨k, hk, hpos, hrun⟩ := consecutiveSpareBits_spec (u := u')
        (spareBitMask.length - (u' + 1)) 1 (by omega) hset
      have hshift : (if usedBits < u' then createShl packedBits (u' - usedBits)
          else if u' < usedBits then createLShr packedBits (usedBits - u')
          else some packedBits : Option (BitVec w)) =
            some (packedBits <<< (u' - rank spareBitMask u')) := by
        rw [hused, ← hrank]
        split_ifs with hlt
        · rw [createShl, if_pos (by omega)]
        · omega
        · have hzero : u' - rank spareBitMask u' = 0 := by omega
          rw [hzero, BitVec.shiftLeft_zero]
      rw [scatterLoop, if_neg (by omega), hshift, hk]
      have hlength := length_onesFrom_mono (l := spareBitMask) (u := u' + 1) (v := u' + k) (by omega)
      rw [List.length_cons] at hn
      obtain ⟨result', hloop, hresult, hsome⟩ := ih (u' + k) (usedBits + k)
        (some (accumulate result (packedBits <<< (u' - rank spareBitMask u') &&& runMask w k u')))
        (by rw [rank_add hrun]; omega) (by omega)
      refine ⟨result', hloop, fun j => ?_, fun _ => hsome (.inl rfl)⟩
      rw [hresult, Option.getD_some, getLsbD_accumulate, getLsbD_scatterRun packedBits hrun, Bool.or_assoc]
      congr 1
      -- A bit from `u` on is in the run, behind it, or not in the mask.
      by_cases hj : bit spareBitMask j = true
      · have hw : j < w := hlen ▸ lt_length_of_bit hj
        by_cases hge : u ≤ j
        · have hge' := hnext j hge hj
          by_cases hin : j < u' + k
          · simp [hge, hge', hin, hw, Nat.not_le.2 hin]
          · simp [hge, hin, Nat.le_of_not_lt hin]
        · have hlt : ¬ u' ≤ j := by omega
          have hlt' : ¬ u' + k ≤ j := by omega
          simp [hge, hlt, hlt']
      · simp [scattered, hj]

theorem emitScatterSpareBits_spec {n : Nat} (packedBits : BitVec n) (hmask : ones spareBitMask ≠ []) :
    ∃ result, emitScatterSpareBits spareBitMask packedBits 0 = some (some result) ∧
      ∀ j, result.getLsbD j = scattered spareBitMask packedBits j := by
  obtain ⟨result, hloop, hresult, hsome⟩ := scatterLoop_spec
    (packedBits.setWidth spareBitMask.length) rfl (ones spareBitMask).length 0 0 none
    (rank_zero _).symm (by rw [onesFrom_zero])
  rw [onesFrom_zero] at hloop hsome
  obtain ⟨bits, rfl⟩ := Option.isSome_iff_exists.1 (hsome (.inr hmask))
  refine ⟨bits, hloop, fun j => ?_⟩
  have hbits := hresult j
  rw [Option.getD_some, Option.getD_none, decide_eq_true (Nat.zero_le j), Bool.true_and] at hbits
  rw [hbits, scattered, scattered, BitVec.getLsbD_setWidth]
  by_cases hj : bit spareBitMask j = true
  · have hlt := lt_of_le_of_lt (rank_le spareBitMask j) (lt_length_of_bit hj)
    simp [hlt]
  · simp [hj]

end Scatter

namespace SpareBitVector

def asAPInt (v : List Bool) : BitVec v.length := BitVec.ofBoolListLE v

def fromAPInt {n : Nat} (bits : BitVec n) : List Bool := (List.range n).map bits.getLsbD

def flipAll (v : List Bool) : List Bool := v.map not

end SpareBitVector

/-- The chunk of a payload for a part of the value. -/
def interleaveChunk (spareBitsChunk : List Bool) (value : BitVec 32) (usedBits : Nat) : Option LazyValue :=
  if 32 ≤ usedBits ∨ spareBitsChunk.count true = 0 then some (.type spareBitsChunk.length)
  else do
    let payloadValue ← (if 0 < usedBits then createLShr value usedBits else some value : Option (BitVec 32))
    let payloadValue ← emitScatterSpareBits spareBitsChunk payloadValue 0
    let payloadValue ← payloadValue
    some (.value payloadValue)

/-- The loop over the types of the schema. -/
def interleaveChunks {n : Nat} (value : BitVec 32) : List Nat → BitVec n → Nat → Option (List LazyValue)
  | [], _, _ => some []
  | bitSize :: sizes, spareBits, usedBits => do
    let spareBitsChunk := SpareBitVector.fromAPInt (spareBits.setWidth bitSize)
    let chunk ← interleaveChunk spareBitsChunk value usedBits
    let chunks ← interleaveChunks value sizes (spareBits >>> bitSize) (usedBits + spareBitsChunk.count true)
    some (chunk :: chunks)

def interleaveSpareBitsDynamic (IGM : IRGenModule) (schema : EnumPayloadSchema) (spareBitVector : List Bool)
    (value : BitVec 32) : Option EnumPayload := do
  let chunks ← interleaveChunks value (schema.forEachType IGM) (SpareBitVector.asAPInt spareBitVector) 0
  some ⟨chunks⟩

section Dynamic

open EnumPayload

theorem bit_asAPInt (v : List Bool) (i : Nat) : (SpareBitVector.asAPInt v).getLsbD i = bit v i := by
  rw [SpareBitVector.asAPInt, BitVec.getLsbD_ofBoolListLE]
  rfl

theorem length_fromAPInt {n : Nat} (bits : BitVec n) : (SpareBitVector.fromAPInt bits).length = n := by
  rw [SpareBitVector.fromAPInt, List.length_map, List.length_range]

theorem bit_fromAPInt {n : Nat} (bits : BitVec n) (i : Nat) :
    bit (SpareBitVector.fromAPInt bits) i = bits.getLsbD i := by
  rcases Nat.lt_or_ge i n with hlt | hge
  · rw [bit, SpareBitVector.fromAPInt, List.getD_eq_getElem _ _ (by simpa using hlt), List.getElem_map,
      List.getElem_range]
  · rw [bit_of_le (by rw [length_fromAPInt]; exact hge), BitVec.getLsbD_of_ge _ _ hge]

theorem length_flipAll (v : List Bool) : (SpareBitVector.flipAll v).length = v.length := List.length_map _

theorem bit_flipAll (v : List Bool) (i : Nat) :
    bit (SpareBitVector.flipAll v) i = (decide (i < v.length) && !bit v i) := by
  rcases Nat.lt_or_ge i v.length with hlt | hge
  · rw [bit, bit, SpareBitVector.flipAll, List.getD_eq_getElem _ _ (by simpa using hlt), List.getElem_map,
      List.getD_eq_getElem _ _ hlt, decide_eq_true hlt, Bool.true_and]
  · rw [bit_of_le (by rw [length_flipAll]; exact hge), decide_eq_false (Nat.not_lt.2 hge), Bool.false_and]

theorem rank_flipAll {v : List Bool} {i : Nat} (hi : i ≤ v.length) :
    rank (SpareBitVector.flipAll v) i + rank v i = i := by
  induction i with
  | zero => rw [rank_zero, rank_zero]
  | succ i ih =>
    have hrest := ih (by omega)
    rw [rank_succ, rank_succ, bit_flipAll, decide_eq_true (show i < v.length from hi), Bool.true_and]
    cases bit v i with
    | false =>
      simp
      omega
    | true =>
      simp
      omega

variable {value : BitVec 32}

theorem interleaveChunk_spec (spareBitsChunk : List Bool) (value : BitVec 32) (usedBits : Nat) : ∃ chunk,
    interleaveChunk spareBitsChunk value usedBits = some chunk ∧ chunk.size = spareBitsChunk.length ∧
      ∀ j, chunk.testBit j = (bit spareBitsChunk j && value.getLsbD (usedBits + rank spareBitsChunk j)) := by
  unfold interleaveChunk
  by_cases hvacant : 32 ≤ usedBits ∨ spareBitsChunk.count true = 0
  · rw [if_pos hvacant]
    refine ⟨_, rfl, rfl, fun j => ?_⟩
    rw [LazyValue.testBit_type]
    symm
    rcases hvacant with hused | hcount
    · rw [BitVec.getLsbD_of_ge value _ (by omega), Bool.and_false]
    · have hbit : ¬ bit spareBitsChunk j = true := by
        intro hbit
        have hmono := rank_mono (l := spareBitsChunk) (show j + 1 ≤ _ from lt_length_of_bit hbit)
        rw [rank_succ, rank_length, hcount, if_pos hbit] at hmono
        omega
      simp [hbit]
  · have hmask : ones spareBitsChunk ≠ [] := by
      intro hnil
      have hlen := length_ones spareBitsChunk
      rw [hnil] at hlen
      exact hvacant (.inr hlen.symm)
    have hshift : (if 0 < usedBits then createLShr value usedBits else some value : Option (BitVec 32)) =
        some (value >>> usedBits) := by
      split_ifs with hpos
      · rw [createLShr, if_pos (by omega)]
      · have hzero : usedBits = 0 := by omega
        rw [hzero, BitVec.ushiftRight_zero]
    obtain ⟨bits, hbits, hscattered⟩ := emitScatterSpareBits_spec (value >>> usedBits) hmask
    rw [if_neg hvacant, hshift]
    refine ⟨.value bits, ?_, rfl, fun j => ?_⟩
    · change (emitScatterSpareBits spareBitsChunk (value >>> usedBits) 0).bind _ = _
      rw [hbits]
      rfl
    · rw [LazyValue.testBit_value, hscattered, scattered, BitVec.getLsbD_ushiftRight]

/-- The chunks have the sizes of the schema, and the bits of the value at the bits of the mask. -/
theorem interleaveChunks_spec {n : Nat} (value : BitVec 32) (sizes : List Nat) : ∀ (spareBits : BitVec n)
    (mask : List Bool) (usedBits : Nat), (∀ i, spareBits.getLsbD i = bit mask i) → ∃ chunks,
      interleaveChunks value sizes spareBits usedBits = some chunks ∧
      chunks.map LazyValue.size = sizes ∧
      ∀ i, (chunksToNat chunks).testBit i =
        (decide (i < sizes.sum) && (bit mask i && value.getLsbD (usedBits + rank mask i))) := by
  induction sizes with
  | nil =>
    intro spareBits mask usedBits _
    exact ⟨[], rfl, rfl, fun i => by simp [chunksToNat]⟩
  | cons bitSize sizes ih =>
    intro spareBits mask usedBits hmask
    have hlen : (SpareBitVector.fromAPInt (spareBits.setWidth bitSize)).length = bitSize :=
      length_fromAPInt _
    have hbit : ∀ i, i < bitSize →
        bit (SpareBitVector.fromAPInt (spareBits.setWidth bitSize)) i = bit mask i := by
      intro i hi
      rw [bit_fromAPInt, testBit_piece spareBits hi, hmask]
    have hcount : (SpareBitVector.fromAPInt (spareBits.setWidth bitSize)).count true = rank mask bitSize := by
      rw [← rank_length, hlen]
      exact rank_congr hbit
    have hrest : ∀ i, (spareBits >>> bitSize).getLsbD i = bit (mask.drop bitSize) i := by
      intro i
      rw [BitVec.getLsbD_ushiftRight, hmask, bit_drop]
    obtain ⟨chunk, hchunk, hsize, hbits⟩ :=
      interleaveChunk_spec (SpareBitVector.fromAPInt (spareBits.setWidth bitSize)) value usedBits
    obtain ⟨chunks, hchunks, hsizes, hrestBits⟩ :=
      ih (spareBits >>> bitSize) (mask.drop bitSize) (usedBits + rank mask bitSize) hrest
    rw [hlen] at hsize
    refine ⟨chunk :: chunks, ?_, ?_, fun i => ?_⟩
    · unfold interleaveChunks
      dsimp only
      rw [hchunk, hcount]
      change (interleaveChunks value sizes (spareBits >>> bitSize) (usedBits + rank mask bitSize)).bind _ = _
      rw [hchunks]
      rfl
    · rw [List.map_cons, hsize, hsizes]
    · rw [testBit_chunksToNat_cons, hsize, List.sum_cons]
      split_ifs with hi
      · have hlt : i < bitSize + sizes.sum := by omega
        rw [hbits, hbit i hi, decide_eq_true hlt, Bool.true_and,
          rank_congr fun k hk => hbit k (lt_trans hk hi)]
      · obtain ⟨k, rfl⟩ := Nat.exists_eq_add_of_le (Nat.le_of_not_lt hi)
        rw [hrestBits, Nat.add_sub_cancel_left, bit_drop, rank_drop, Nat.add_assoc]
        congr 1
        exact decide_eq_decide.2 (by omega)

theorem interleaveSpareBitsDynamic_spec (IGM : IRGenModule) (schema : EnumPayloadSchema) (mask : List Bool)
    (value : BitVec 32) : ∃ payload, interleaveSpareBitsDynamic IGM schema mask value = some payload ∧
      payload.sizes = schema.forEachType IGM ∧ ∀ i, payload.toNat.testBit i =
        (decide (i < (schema.forEachType IGM).sum) && (bit mask i && value.getLsbD (rank mask i))) := by
  obtain ⟨chunks, hchunks, hsizes, hbits⟩ := interleaveChunks_spec value (schema.forEachType IGM)
    (SpareBitVector.asAPInt mask) mask 0 (bit_asAPInt mask)
  refine ⟨⟨chunks⟩, ?_, hsizes, fun i => ?_⟩
  · rw [interleaveSpareBitsDynamic, hchunks]
    rfl
  · have hbit := hbits i
    rwa [Nat.zero_add] at hbit

end Dynamic

/-- The masks of a multi-payload enum, over the bits of its payload. -/
structure MultiPayloadEnumImplStrategy where
  IGM : IRGenModule
  payloadSchema : EnumPayloadSchema
  commonSpareBits : List Bool
  payloadTagBits : List Bool
  size_commonSpareBits : commonSpareBits.length = (payloadSchema.forEachType IGM).sum
  size_payloadTagBits : payloadTagBits.length = commonSpareBits.length

namespace MultiPayloadEnumImplStrategy

/-- Pack tag into spare bits and tagIndex into payload bits. -/
def getEmptyCasePayload (strategy : MultiPayloadEnumImplStrategy) (tag tagIndex : BitVec 32) : Value :=
  -- The payload may be empty.
  if strategy.commonSpareBits.isEmpty then ⟨1, 0⟩
  else
    let v := interleaveSpareBits strategy.payloadTagBits strategy.payloadTagBits.length tag 0
    ⟨strategy.commonSpareBits.length, v.cast strategy.size_payloadTagBits |||
      interleaveSpareBits strategy.commonSpareBits strategy.commonSpareBits.length 0 tagIndex⟩

def getEmptyCasePayloadDynamic (strategy : MultiPayloadEnumImplStrategy) (tag tagIndex : BitVec 32) :
    Option EnumPayload := do
  let result ← interleaveSpareBitsDynamic strategy.IGM strategy.payloadSchema
    (SpareBitVector.flipAll strategy.commonSpareBits) tagIndex
  let mask ← interleaveSpareBitsDynamic strategy.IGM strategy.payloadSchema strategy.payloadTagBits tag
  result.emitApplyOrMaskPayload mask

theorem testBit_getEmptyCasePayload (strategy : MultiPayloadEnumImplStrategy) (tag tagIndex : BitVec 32)
    (i : Nat) : (strategy.getEmptyCasePayload tag tagIndex).2.toNat.testBit i =
      (decide (i < strategy.commonSpareBits.length) &&
        (pick strategy.payloadTagBits tag 0 i || pick strategy.commonSpareBits 0 tagIndex i)) := by
  by_cases hempty : strategy.commonSpareBits.isEmpty = true
  · have hlen : ¬ i < strategy.commonSpareBits.length := by
      rw [List.isEmpty_iff.1 hempty]
      exact Nat.not_lt_zero i
    rw [getEmptyCasePayload, if_pos hempty, decide_eq_false hlen, Bool.false_and]
    exact Nat.zero_testBit i
  · rw [getEmptyCasePayload, if_neg hempty]
    refine BitVec.getLsbD_or.trans ?_
    rw [BitVec.getLsbD_cast, getLsbD_interleaveSpareBits, getLsbD_interleaveSpareBits,
      decide_eq_decide.2 (by rw [strategy.size_payloadTagBits] : i < strategy.payloadTagBits.length ↔
        i < strategy.commonSpareBits.length), Bool.and_or_distrib_left]

/-- The payload that is built at run time has the bits of the constant that is built at compile time. -/
theorem getEmptyCasePayloadDynamic_toNat (strategy : MultiPayloadEnumImplStrategy)
    (tag tagIndex : BitVec 32) : ∃ payload,
      strategy.getEmptyCasePayloadDynamic tag tagIndex = some payload ∧
        payload.toNat = (strategy.getEmptyCasePayload tag tagIndex).2.toNat := by
  obtain ⟨result, hresult, hsizes, hbits⟩ := interleaveSpareBitsDynamic_spec strategy.IGM
    strategy.payloadSchema (SpareBitVector.flipAll strategy.commonSpareBits) tagIndex
  obtain ⟨mask, hmask, hsizes', hbits'⟩ := interleaveSpareBitsDynamic_spec strategy.IGM
    strategy.payloadSchema strategy.payloadTagBits tag
  obtain ⟨payload, hpayload, -, hor⟩ := EnumPayload.toNat_emitApplyOrMaskPayload (hsizes.trans hsizes'.symm)
  refine ⟨payload, ?_, ?_⟩
  · rw [getEmptyCasePayloadDynamic, hresult, hmask]
    exact hpayload
  · apply Nat.eq_of_testBit_eq
    intro i
    rw [hor, Nat.testBit_or, hbits, hbits', testBit_getEmptyCasePayload, ← strategy.size_commonSpareBits,
      ← Bool.and_or_distrib_left, Bool.or_comm]
    by_cases hi : i < strategy.commonSpareBits.length
    · have hflip := rank_flipAll (v := strategy.commonSpareBits) (le_of_lt hi)
      have hrank : rank (SpareBitVector.flipAll strategy.commonSpareBits) i =
          i - rank strategy.commonSpareBits i := by omega
      have hi' : i < strategy.payloadTagBits.length := strategy.size_payloadTagBits ▸ hi
      congr 1
      unfold pick
      rw [bit_flipAll, hrank, decide_eq_true hi, decide_eq_true hi', Bool.true_and, Bool.true_and,
        Bool.true_and]
      congr 1
      · cases bit strategy.payloadTagBits i with
        | false => simp
        | true => simp
      · cases bit strategy.commonSpareBits i with
        | false => simp
        | true => simp
    · rw [decide_eq_false hi, Bool.false_and, Bool.false_and]

end MultiPayloadEnumImplStrategy

end SwiftKStdlib.IRGen
