import SwiftKStdlib.BitVector.Appending

/-!
# What each operation does to the bits

* `Represents v l` : the vector `v`, in any of its representations, stands for the list `l`;
* `Room` : the storage after `reserve` or `reserveExtra`;
* one lemma for each operation.
-/

namespace SwiftKStdlib.BitVector

open Lib.BitWords

namespace ClusteredBitVector

/-- The vector stands for the bits `l`: inline, with the one chunk it needs or all clear, or out of line,
with the words of `l` in the chunks in use. -/
structure Represents (v : ClusteredBitVector) (l : List Bool) : Prop where
  length : v.lengthInBits = l.length
  inlined : v.hasOutOfLineData = false →
    v.chunks = [word 64 l 0] ∧ (64 < l.length → ∀ i, bit l i = false)
  outOfLine : v.hasOutOfLineData = true → Holds 64 v.chunks l

theorem represents_empty : Represents empty [] where
  length := rfl
  inlined _ := ⟨by rw [word_eq_zero (Nat.zero_le _)]; rfl, fun h => absurd h (Nat.not_lt_zero _)⟩
  outOfLine h := Bool.noConfusion h

section Facts

variable {v : ClusteredBitVector} {l : List Bool} (h : Represents v l)
include h

theorem Represents.lengthInChunks : v.getLengthInChunks = numWords 64 l.length := by
  unfold getLengthInChunks
  rw [h.length]
  rfl

theorem Represents.isInlineAndAllClear_iff :
    v.isInlineAndAllClear = true ↔ v.hasOutOfLineData = false ∧ word 64 l 0 = 0 := by
  unfold isInlineAndAllClear data
  cases hout : v.hasOutOfLineData with
  | true => simp
  | false =>
    rw [(h.inlined hout).1]
    simp

theorem Represents.bit_of_clear (hclear : v.isInlineAndAllClear = true) (i : Nat) :
    bit l i = false := by
  obtain ⟨hout, hzero⟩ := h.isInlineAndAllClear_iff.1 hclear
  by_cases hlen : 64 < l.length
  · exact (h.inlined hout).2 hlen i
  · by_cases hi : i < 64
    · have hbit := congrArg (fun x : BitVec 64 => x.getLsbD i) hzero
      simp only [getLsbD_word, hi, decide_true, Bool.true_and, Nat.mul_zero, Nat.zero_add] at hbit
      exact hbit.trans BitVec.getLsbD_zero
    · exact bit_of_le (by omega)

theorem Represents.eq_replicate (hclear : v.isInlineAndAllClear = true) :
    l = List.replicate l.length false := by
  refine ext_bit List.length_replicate.symm fun i => ?_
  rw [h.bit_of_clear hclear, bit_replicate, Bool.and_false]

theorem Represents.holds (hclear : v.isInlineAndAllClear = false ∨ l.length ≤ 64) :
    Holds 64 v.chunks l := by
  cases hout : v.hasOutOfLineData with
  | true => exact h.outOfLine hout
  | false =>
    obtain ⟨hchunks, hlong⟩ := h.inlined hout
    have hlen : l.length ≤ 64 := by
      rcases hclear with hclear | hlen
      · by_contra hgt
        have hzero : word 64 l 0 = 0 := by
          refine (eq_word fun j _ => ?_).symm
          rw [hlong (by omega)]
          exact BitVec.getLsbD_zero
        rw [h.isInlineAndAllClear_iff.2 ⟨hout, hzero⟩] at hclear
        exact Bool.noConfusion hclear
      · exact hlen
    intro k hk
    unfold numWords at hk
    obtain rfl : k = 0 := by omega
    rw [hchunks]
    rfl

theorem Represents.length_chunks_of_inline (hout : v.hasOutOfLineData = false) : v.chunks.length = 1 := by
  rw [(h.inlined hout).1]
  rfl

end Facts

/-! ## Storage -/

theorem length_copyTo (dest source : List ChunkType) : (copyTo dest source).length = dest.length := by
  unfold copyTo
  rw [List.length_take, List.length_append, List.length_drop]
  omega

theorem getElem?_copyTo {dest source : List ChunkType} (hle : source.length ≤ dest.length) {k : Nat}
    (hk : k < source.length) : (copyTo dest source)[k]? = source[k]? := by
  unfold copyTo
  rw [List.getElem?_take_of_lt (by omega), List.getElem?_append_left hk]

theorem length_allocate (fresh : Nat → ChunkType) (n : Nat) : (allocate fresh n).length = n := by
  unfold allocate
  rw [List.length_map, List.length_range]

theorem holds_copyTo {dest source : List ChunkType} {l : List Bool} (h : Holds 64 source l)
    (hle : numWords 64 l.length ≤ dest.length) :
    Holds 64 (copyTo dest (source.take (numWords 64 l.length))) l := by
  intro k hk
  have hsource := h.numWords_le
  have htake : (source.take (numWords 64 l.length)).length = numWords 64 l.length := by
    rw [List.length_take, Nat.min_eq_left hsource]
  rw [getElem?_copyTo (by omega) (by omega), List.getElem?_take_of_lt hk, h k hk]

theorem holds_copyTo_clear {dest : List ChunkType} {l : List Bool} (h : ∀ i, bit l i = false)
    (hle : numWords 64 l.length ≤ dest.length) :
    Holds 64 (copyTo dest (List.replicate (numWords 64 l.length) 0)) l := by
  intro k hk
  have hlen : (List.replicate (numWords 64 l.length) (0 : ChunkType)).length = numWords 64 l.length :=
    List.length_replicate
  have hzero : word 64 l k = 0 := by
    refine (eq_word fun j _ => ?_).symm
    rw [h]
    exact BitVec.getLsbD_zero
  rw [getElem?_copyTo (by omega) (by omega), List.getElem?_replicate, if_pos hk, hzero]

/-- The vector has its bits in chunks, with room for `capacity` chunks. -/
structure Room (v : ClusteredBitVector) (l : List Bool) (capacity : Nat) : Prop where
  length : v.lengthInBits = l.length
  holds : Holds 64 v.chunks l
  capacity_le : capacity ≤ v.chunks.length
  inlined : v.hasOutOfLineData = false → v.chunks.length = 1

theorem le_growChunkCount (required : Nat) : ∀ fuel chunkCount, required ≤ chunkCount + fuel →
    required ≤ growChunkCount required fuel chunkCount
  | 0, chunkCount, hle => by
    rw [growChunkCount]
    omega
  | fuel + 1, chunkCount, hle => by
    rw [growChunkCount]
    split_ifs with hlt
    · exact le_growChunkCount required fuel _ (by omega)
    · omega

theorem Room.mono {v : ClusteredBitVector} {l : List Bool} {capacity capacity' : Nat}
    (hroom : Room v l capacity) (hle : capacity' ≤ capacity) : Room v l capacity' :=
  { hroom with capacity_le := hle.trans hroom.capacity_le }

section Room

variable {v : ClusteredBitVector} {l : List Bool} (h : Represents v l) (fresh : Nat → ChunkType)
include h

theorem Represents.room_reallocate {capacity : Nat} (hle : numWords 64 l.length ≤ capacity) :
    Room (v.reallocate fresh capacity) l capacity := by
  unfold reallocate
  have hlen := length_allocate fresh capacity
  cases hout : v.hasOutOfLineData with
  | true =>
    rw [if_pos rfl, h.lengthInChunks]
    refine ⟨h.length, holds_copyTo (h.outOfLine hout) (by omega), ?_, fun hin => ?_⟩
    · change capacity ≤ (copyTo _ _).length
      rw [length_copyTo, hlen]
    · exact Bool.noConfusion hin
  | false =>
    obtain ⟨hchunks, hlong⟩ := h.inlined hout
    have hdata : v.data = word 64 l 0 := by
      unfold data
      rw [hchunks]
      rfl
    rw [if_neg Bool.false_ne_true]
    refine ⟨h.length, ?_, ?_, fun hin => Bool.noConfusion hin⟩
    · dsimp only
      rw [h.lengthInChunks]
      split
      next heq =>
        intro k hk
        omega
      next heq =>
        intro k hk
        obtain rfl : k = 0 := by omega
        rw [hdata, List.getElem?_set_self (by omega)]
      next length hzero hone =>
        refine holds_copyTo_clear (hlong ?_) (by omega)
        have hne : numWords 64 l.length ≠ 0 := hzero
        have hne' : numWords 64 l.length ≠ 1 := hone
        unfold numWords at hne hne'
        omega
    · dsimp only
      split
      · rw [hlen]
      · rw [List.length_set, hlen]
      · rw [length_copyTo, hlen]

theorem Represents.room_reserveExtra {n : Nat} (h63 : l.length + n < 2 ^ 63) :
    Room (v.reserveExtra fresh n) l (numWords 64 (l.length + n)) := by
  have hrequired : (v.lengthInBits + n) % 2 ^ 64 = l.length + n := by
    rw [h.length]
    exact Nat.mod_eq_of_lt (by omega)
  unfold reserveExtra getCapacityInBits getCapacityInChunks chunkSizeInBits
  simp only [hrequired]
  split_ifs with hcapacity
  · refine Room.mono (h.room_reallocate fresh ?_) (le_growChunkCount _ _ _ (Nat.le_add_left _ _))
    refine le_trans ?_ (le_growChunkCount _ _ _ (Nat.le_add_left _ _))
    change (l.length + 64 - 1) / 64 ≤ (l.length + n + 64 - 1) / 64
    omega
  · refine ⟨h.length, h.holds ?_, by unfold numWords; omega, h.length_chunks_of_inline⟩
    cases hout : v.hasOutOfLineData with
    | true =>
      refine .inl ?_
      unfold isInlineAndAllClear
      rw [hout]
      rfl
    | false =>
      have hone := h.length_chunks_of_inline hout
      exact .inr (by omega)

theorem Represents.room_reserveIfClear : Room (v.reserveIfClear fresh) l (numWords 64 l.length) := by
  unfold reserveIfClear reserve getCapacityInBits getCapacityInChunks chunkSizeInBits
  split_ifs with hclear hcapacity
  · rw [show getNumChunksForBits v.lengthInBits = numWords 64 l.length from h.lengthInChunks]
    exact h.room_reallocate fresh (le_refl _)
  · obtain ⟨hout, -⟩ := h.isInlineAndAllClear_iff.1 hclear
    have hone := h.length_chunks_of_inline hout
    have hlen := h.length
    refine ⟨hlen, h.holds (.inr (by omega)), ?_, h.length_chunks_of_inline⟩
    unfold numWords
    omega
  · have hholds := h.holds (.inl (Bool.eq_false_iff.2 hclear))
    exact ⟨h.length, hholds, hholds.numWords_le, h.length_chunks_of_inline⟩

end Room

theorem represents_of_holds {v : ClusteredBitVector} {l : List Bool} (hlen : v.lengthInBits = l.length)
    (hholds : Holds 64 v.chunks l) (hinline : v.hasOutOfLineData = false → v.chunks.length = 1)
    (hempty : v.hasOutOfLineData = false → l = [] → v.chunks = [0]) : Represents v l where
  length := hlen
  inlined hout := by
    have hone := hinline hout
    have hwords := hholds.numWords_le
    unfold numWords at hwords
    refine ⟨?_, fun hlong => by omega⟩
    cases hnil : l with
    | nil => rw [hempty hout hnil, word_eq_zero (Nat.zero_le _)]
    | cons b bs =>
      have hpos : 0 < l.length := by rw [hnil]; exact Nat.zero_lt_succ _
      have hget := hholds 0 (by unfold numWords; omega)
      obtain ⟨c, hc⟩ := List.length_eq_one_iff.1 hone
      rw [hc, List.getElem?_cons_zero, Option.some.injEq] at hget
      rw [hc, hget, hnil]
  outOfLine _ := hholds

theorem Appends.represents {v v' : ClusteredBitVector} {l m : List Bool} {capacity : Nat}
    (hroom : Room v l capacity) (h : Appends v v' (l ++ m)) (hm : m ≠ []) : Represents v' (l ++ m) := by
  refine represents_of_holds h.length h.holds (fun hout => ?_) (fun _ hnil => ?_)
  · rw [h.capacity]
    exact hroom.inlined (h.hasOutOfLineData ▸ hout)
  · exact absurd (List.append_eq_nil_iff.1 hnil).2 hm

/-! ## Appending -/

section Append

variable {v : ClusteredBitVector} {l : List Bool} (h : Represents v l) (fresh : Nat → ChunkType)
include h

theorem Represents.extendClear (hclear : v.isInlineAndAllClear = true) {n : Nat}
    (h63 : l.length + n < 2 ^ 63) :
    Represents { v with lengthInBits := length63 (v.lengthInBits + n) }
      (l ++ List.replicate n false) := by
  obtain ⟨hout, hzero⟩ := h.isInlineAndAllClear_iff.1 hclear
  have hbits : ∀ i, bit (l ++ List.replicate n false) i = false := fun i => by
    rw [bit_append, bit_replicate, h.bit_of_clear hclear, Bool.and_false, ite_self]
  have hword : word 64 (l ++ List.replicate n false) 0 = 0 := by
    refine (eq_word fun j _ => ?_).symm
    rw [hbits]
    exact BitVec.getLsbD_zero
  refine ⟨?_, fun _ => ⟨?_, fun _ => hbits⟩, fun hin => ?_⟩
  · rw [List.length_append, List.length_replicate, ← h.length]
    exact Nat.mod_eq_of_lt (h.length ▸ h63)
  · rw [hword, ← hzero]
    exact (h.inlined hout).1
  · exact absurd (hout.symm.trans hin) Bool.false_ne_true

theorem Represents.appendConstant {n : Nat} (b : Bool) (hn : n ≠ 0) (h63 : l.length + n < 2 ^ 63) :
    Represents ((v.reserveExtra fresh n).appendConstantBitsReserved n b) (l ++ List.replicate n b) := by
  have hroom := h.room_reserveExtra fresh h63
  have hnil : List.replicate n b ≠ [] :=
    List.ne_nil_of_length_pos (by rw [List.length_replicate]; omega)
  exact (appendConstantBitsReserved_spec hroom.holds hroom.length b hn hroom.capacity_le h63).represents
    hroom hnil

theorem Represents.appendChunks {m : List Bool} {cs : List ChunkType} (hm : Holds 64 cs m)
    (hnil : m ≠ []) (h63 : l.length + m.length < 2 ^ 63) :
    Represents ((v.reserveExtra fresh m.length).appendChunksReserved m.length cs) (l ++ m) := by
  have hroom := h.room_reserveExtra fresh h63
  exact (appendChunksReserved_spec hroom.holds hroom.length hm hnil hroom.capacity_le h63).represents
    hroom hnil

theorem Represents.append {other : ClusteredBitVector} {m : List Bool} (hother : Represents other m)
    (h63 : l.length + m.length < 2 ^ 63) : Represents (v.append fresh other) (l ++ m) := by
  unfold ClusteredBitVector.append size
  rw [hother.length]
  split_ifs with hzero hboth hclear
  · rw [List.length_eq_zero_iff.1 hzero, List.append_nil]
    exact h
  · obtain ⟨hclear, hclear'⟩ := Bool.and_eq_true_iff.1 hboth
    rw [hother.eq_replicate hclear', List.length_replicate]
    exact h.extendClear hclear h63
  · have hconstant := h.appendConstant fresh false hzero h63
    rwa [← hother.eq_replicate hclear] at hconstant
  · have hnil : m ≠ [] := fun hnil => hzero (by rw [hnil]; rfl)
    exact h.appendChunks fresh (hother.holds (.inl (Bool.eq_false_iff.2 hclear))) hnil h63

theorem Represents.appendClearBits {n : Nat} (h63 : l.length + n < 2 ^ 63) :
    Represents (v.appendClearBits fresh n) (l ++ List.replicate n false) := by
  unfold ClusteredBitVector.appendClearBits
  split_ifs with hzero hclear
  · rw [hzero, List.replicate_zero, List.append_nil]
    exact h
  · exact h.extendClear hclear h63
  · exact h.appendConstant fresh false hzero h63

theorem Represents.appendSetBits {n : Nat} (h63 : l.length + n < 2 ^ 63) :
    Represents (v.appendSetBits fresh n) (l ++ List.replicate n true) := by
  unfold ClusteredBitVector.appendSetBits
  split_ifs with hzero
  · rw [hzero, List.replicate_zero, List.append_nil]
    exact h
  · exact h.appendConstant fresh true hzero h63

/-- The low `n` bits of a value. -/
def lowBits (n : Nat) (value : ChunkType) : List Bool := (List.range n).map value.getLsbD

omit h in
theorem length_lowBits (n : Nat) (value : ChunkType) : (lowBits n value).length = n := by
  unfold lowBits
  rw [List.length_map, List.length_range]

omit h in
theorem bit_lowBits {n : Nat} {value : ChunkType} (hvalue : value.toNat < 2 ^ n) (i : Nat) :
    bit (lowBits n value) i = value.getLsbD i := by
  by_cases hi : i < n
  · unfold bit lowBits
    rw [List.getD_eq_getElem?_getD, List.getElem?_map, List.getElem?_range hi]
    rfl
  · rw [bit_of_le (by rw [length_lowBits]; omega)]
    have hpow : 2 ^ n ≤ 2 ^ i := Nat.pow_le_pow_right (by decide) (by omega)
    exact (Nat.testBit_lt_two_pow (by omega)).symm

theorem Represents.add {n : Nat} {value : ChunkType} (hn : n ≤ 64) (hvalue : value.toNat < 2 ^ n)
    (h63 : l.length + n < 2 ^ 63) : Represents (v.add fresh n value) (l ++ lowBits n value) := by
  have hlen := length_lowBits n value
  unfold ClusteredBitVector.add
  split_ifs with hzero hclear
  · rw [List.length_eq_zero_iff.1 (hlen.trans hzero), List.append_nil]
    exact h
  · obtain ⟨hvalue0, hclear⟩ := Bool.and_eq_true_iff.1 hclear
    have hbits : lowBits n value = List.replicate n false := by
      refine ext_bit (by rw [hlen, List.length_replicate]) fun i => ?_
      rw [bit_lowBits hvalue, bit_replicate, Bool.and_false, eq_of_beq hvalue0]
      exact BitVec.getLsbD_zero
    rw [hbits]
    exact h.extendClear hclear h63
  · have hholds : Holds 64 [value] (lowBits n value) := by
      intro k hk
      rw [hlen] at hk
      unfold numWords at hk
      obtain rfl : k = 0 := by omega
      rw [List.getElem?_cons_zero, Option.some.injEq]
      refine eq_word fun j _ => ?_
      rw [bit_lowBits hvalue, Nat.mul_zero, Nat.zero_add]
    have hnil : lowBits n value ≠ [] := List.ne_nil_of_length_pos (by omega)
    have happend := h.appendChunks fresh hholds hnil (by rw [hlen]; exact h63)
    rwa [hlen] at happend

end Append

/-! ## Changing bits -/

section Change

variable {v : ClusteredBitVector} {l l' : List Bool} {capacity : Nat}

theorem Room.modifyChunk (hroom : Room v l capacity) {i : Nat} (hi : i < l.length)
    (hlen : l'.length = l.length) {f : ChunkType → ChunkType}
    (hword : f (word 64 l (i / 64)) = word 64 l' (i / 64))
    (hothers : ∀ k, k ≠ i / 64 → word 64 l' k = word 64 l k) : Represents (v.modifyChunk i f) l' := by
  have hfit := hroom.holds.numWords_le
  unfold numWords at hfit
  have hget := hroom.holds (i / 64) (by unfold numWords; omega)
  have hchunk : v.chunks.getD (i / 64) 0 = word 64 l (i / 64) := by
    rw [List.getD_eq_getElem?_getD, hget, Option.getD_some]
  have hchunks : (v.modifyChunk i f).chunks = v.chunks.set (i / 64) (word 64 l' (i / 64)) := by
    rw [← hword, ← hchunk]
    rfl
  refine represents_of_holds (hroom.length.trans hlen.symm) (fun k hk => ?_) (fun hout => ?_)
    fun _ hnil => ?_
  · rw [hlen] at hk
    rw [hchunks]
    by_cases hki : k = i / 64
    · rw [hki, List.getElem?_set_self (by omega)]
    · rw [List.getElem?_set_ne (Ne.symm hki), hroom.holds k hk, hothers k hki]
  · rw [hchunks, List.length_set]
    exact hroom.inlined hout
  · rw [hnil] at hlen
    exact absurd hlen (by simp; omega)

theorem word_set_of_ne {i : Nat} (hi : i < l.length) (b : Bool) {k : Nat} (hk : k ≠ i / 64) :
    word 64 (l.set i b) k = word 64 l k := by
  refine eq_word fun j hj => ?_
  rw [getLsbD_word, bit_set _ _ _ _ hi, if_neg (by omega), decide_eq_true hj, Bool.true_and]

theorem getLsbD_mask_bit (i j : Nat) (hj : j < 64) :
    (1#64 <<< (i % 64)).getLsbD j = decide (j = i % 64) := by
  rw [BitVec.getLsbD_shiftLeft, BitVec.getLsbD_one]
  by_cases h : j = i % 64
  · simp [h]
    omega
  · by_cases hlt : j < i % 64
    · simp [h, hlt]
    · have hne : ¬ j - i % 64 = 0 := by omega
      simp [h, hne]

theorem word_set_eq {i : Nat} (hi : i < l.length) {b : Bool} {x : ChunkType}
    (hx : ∀ j, j < 64 → x.getLsbD j = if j = i % 64 then b else bit l (64 * (i / 64) + j)) :
    x = word 64 (l.set i b) (i / 64) := by
  refine eq_word fun j hj => ?_
  rw [bit_set _ _ _ _ hi, hx j hj]
  split_ifs with h h'
  · rfl
  · omega
  · omega
  · rfl

variable (h : Represents v l) (fresh : Nat → ChunkType) {i : Nat} (hi : i < l.length)
include h hi

theorem Represents.setBit : Represents (v.setBit fresh i) (l.set i true) := by
  refine (h.room_reserveIfClear fresh).modifyChunk hi List.length_set ?_ fun k hk =>
    word_set_of_ne hi true hk
  refine word_set_eq hi fun j hj => ?_
  unfold chunkSizeInBits
  rw [BitVec.getLsbD_or, getLsbD_mask_bit i j hj, getLsbD_word, decide_eq_true hj, Bool.true_and]
  split_ifs with hij
  · simp [hij]
  · simp [hij]

theorem Represents.flipBit : Represents (v.flipBit fresh i) (l.set i (!bit l i)) := by
  refine (h.room_reserveIfClear fresh).modifyChunk hi List.length_set ?_ fun k hk =>
    word_set_of_ne hi _ hk
  refine word_set_eq hi fun j hj => ?_
  unfold chunkSizeInBits
  rw [BitVec.getLsbD_xor, getLsbD_mask_bit i j hj, getLsbD_word, decide_eq_true hj, Bool.true_and]
  split_ifs with hij
  · rw [hij, Nat.div_add_mod, decide_eq_true rfl, Bool.xor_true]
  · simp [hij]

theorem Represents.clearBit : Represents (v.clearBit i) (l.set i false) := by
  unfold ClusteredBitVector.clearBit
  split_ifs with hclear
  · have hsame : l.set i false = l := by
      refine ext_bit List.length_set fun j => ?_
      rw [bit_set _ _ _ _ hi, h.bit_of_clear hclear, ite_self]
    rw [hsame]
    exact h
  · have hholds := h.holds (.inl (Bool.eq_false_iff.2 hclear))
    have hroom : Room v l 0 := ⟨h.length, hholds, Nat.zero_le _, h.length_chunks_of_inline⟩
    refine hroom.modifyChunk hi List.length_set ?_ fun k hk => word_set_of_ne hi false hk
    refine word_set_eq hi fun j hj => ?_
    unfold chunkSizeInBits
    rw [BitVec.getLsbD_and, BitVec.getLsbD_not, getLsbD_mask_bit i j hj, getLsbD_word,
      decide_eq_true hj, Bool.true_and, Bool.true_and]
    split_ifs with hij
    · simp [hij]
    · simp [hij]

end Change

end ClusteredBitVector

end SwiftKStdlib.BitVector
