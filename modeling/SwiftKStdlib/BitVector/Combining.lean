import SwiftKStdlib.BitVector.Operations

/-!
# Operations on all chunks

* `getChunks_eq` : the chunks in use are the words of the bits;
* `flipAll`, `clear`, the copies, `intersect` and `unite`, each by what it does to the bits.
-/

namespace SwiftKStdlib.BitVector

open Lib.BitWords

namespace ClusteredBitVector

theorem getChunks_eq {v : ClusteredBitVector} {l : List Bool} (hlen : v.lengthInBits = l.length)
    (hholds : Holds 64 v.chunks l) : v.getChunks = (List.range (numWords 64 l.length)).map (word 64 l) := by
  have hfit := hholds.numWords_le
  have hcount : v.getLengthInChunks = numWords 64 l.length := by
    unfold getLengthInChunks
    rw [hlen]
    rfl
  unfold getChunks
  rw [hcount]
  refine List.ext_getElem? fun k => ?_
  by_cases hk : k < numWords 64 l.length
  · rw [List.getElem?_take_of_lt hk, hholds k hk, List.getElem?_map, List.getElem?_range hk]
    rfl
  · rw [List.getElem?_eq_none (by rw [List.length_take]; omega),
      List.getElem?_eq_none (by rw [List.length_map, List.length_range]; omega)]

/-! ## Replacing the chunks -/

section Chunks

variable {v : ClusteredBitVector} {l l' : List Bool} {capacity : Nat}

theorem Room.represents (hroom : Room v l capacity)
    (hempty : v.hasOutOfLineData = false → l = [] → v.chunks = [0]) : Represents v l :=
  represents_of_holds hroom.length hroom.holds hroom.inlined hempty

theorem Room.setChunks (hroom : Room v l capacity) (hlen : l'.length = l.length)
    {chunks : List ChunkType} (hcount : chunks.length = numWords 64 l.length)
    (hwords : ∀ k, k < numWords 64 l.length → chunks[k]? = some (word 64 l' k)) :
    Room (v.setChunks chunks) l' capacity := by
  have hfit := hroom.holds.numWords_le
  refine ⟨hroom.length.trans hlen.symm, fun k hk => ?_, ?_, fun hout => ?_⟩
  · rw [hlen] at hk
    change (copyTo v.chunks chunks)[k]? = _
    rw [getElem?_copyTo (by omega) (by omega), hwords k hk]
  · change capacity ≤ (copyTo v.chunks chunks).length
    rw [length_copyTo]
    exact hroom.capacity_le
  · change (copyTo v.chunks chunks).length = 1
    rw [length_copyTo]
    exact hroom.inlined hout

theorem Represents.setChunks (h : Represents v l) (hclear : v.isInlineAndAllClear = false)
    (hlen : l'.length = l.length) {chunks : List ChunkType}
    (hcount : chunks.length = numWords 64 l.length)
    (hwords : ∀ k, k < numWords 64 l.length → chunks[k]? = some (word 64 l' k)) :
    Represents (v.setChunks chunks) l' := by
  have hroom : Room v l 0 :=
    ⟨h.length, h.holds (.inl hclear), Nat.zero_le _, h.length_chunks_of_inline⟩
  refine (hroom.setChunks hlen hcount hwords).represents fun hout hnil => ?_
  -- an inline vector without bits is all clear
  have hnil' : l = [] := List.eq_nil_of_length_eq_zero (hlen ▸ by rw [hnil]; rfl)
  rw [h.isInlineAndAllClear_iff.2 ⟨hout, word_eq_zero (by rw [hnil']; exact Nat.zero_le _)⟩] at hclear
  exact Bool.noConfusion hclear

end Chunks

/-! ## Flipping all bits -/

section FlipAll

variable {v : ClusteredBitVector} {l : List Bool}

theorem bit_map_not (l : List Bool) (i : Nat) :
    bit (l.map not) i = (decide (i < l.length) && !bit l i) := by
  unfold bit
  by_cases hi : i < l.length
  · rw [List.getD_eq_getElem _ _ (by rw [List.length_map]; exact hi), List.getD_eq_getElem _ _ hi,
      List.getElem_map, decide_eq_true hi, Bool.true_and]
  · rw [List.getD_eq_default _ _ (by rw [List.length_map]; omega), decide_eq_false hi, Bool.false_and]

theorem word_map_not {k : Nat} {x : ChunkType}
    (hx : ∀ j, j < 64 → x.getLsbD j = (decide (64 * k + j < l.length) && !(word 64 l k).getLsbD j)) :
    x = word 64 (l.map not) k := by
  refine eq_word fun j hj => ?_
  rw [hx j hj, bit_map_not, getLsbD_word, decide_eq_true hj, Bool.true_and]

theorem not_word_of_full {k : Nat} (hk : 64 * k + 64 ≤ l.length) :
    ~~~word 64 l k = word 64 (l.map not) k := by
  refine word_map_not fun j hj => ?_
  rw [BitVec.getLsbD_not, decide_eq_true hj, decide_eq_true (by omega)]

theorem not_word_of_tail {k w : Nat} (hk : 64 * k + w = l.length) (hw : w < 64) :
    ~~~word 64 l k &&& ((1#64 <<< w) - 1) = word 64 (l.map not) k := by
  refine word_map_not fun j hj => ?_
  have hmask : ((1#64 <<< w) - 1).getLsbD j = decide (j < w) := by
    rw [BitVec.getLsbD, Lib.BitField.toNat_ones hw, Nat.testBit_two_pow_sub_one]
  have hin : j < w ↔ 64 * k + j < l.length := by omega
  rw [BitVec.getLsbD_and, BitVec.getLsbD_not, hmask, decide_eq_true hj, Bool.true_and, Bool.and_comm]
  simp only [hin]

theorem Room.flipChunks {capacity : Nat} (hroom : Room v l capacity) (hempty : l.length ≠ 0) :
    Represents (let v := v.setChunks (v.getChunks.map fun chunk => ~~~chunk)
      if l.length % 64 = 0 then v
      else
        let back := v.getLengthInChunks - 1
        let chunk := v.chunks.getD back 0 &&& ((1#64 <<< (l.length % 64)) - 1)
        { v with chunks := v.chunks.set back chunk }) (l.map not) := by
  have hlen := hroom.length
  have hfit := hroom.holds.numWords_le
  have hchunks : ∀ k, k < numWords 64 l.length →
      (v.getChunks.map fun chunk => ~~~chunk)[k]? = some (~~~word 64 l k) := by
    intro k hk
    rw [getChunks_eq hlen hroom.holds, List.map_map, List.getElem?_map, List.getElem?_range hk]
    rfl
  have hcount : (v.getChunks.map fun chunk => ~~~chunk).length = numWords 64 l.length := by
    rw [getChunks_eq hlen hroom.holds, List.length_map, List.length_map, List.length_range]
  have hnil : l.map not ≠ [] := fun hnil => hempty (by rw [List.map_eq_nil_iff.1 hnil]; rfl)
  dsimp only
  split_ifs with htail
  · refine (hroom.setChunks (List.length_map _) hcount fun k hk => ?_).represents
      fun _ h => absurd h hnil
    unfold numWords at hk
    rw [hchunks k hk, not_word_of_full (by omega)]
  · have hback : (v.setChunks (v.getChunks.map fun chunk => ~~~chunk)).getLengthInChunks - 1 =
        l.length / 64 := by
      unfold getLengthInChunks getNumChunksForBits chunkSizeInBits
      change (v.lengthInBits + 64 - 1) / 64 - 1 = _
      rw [hlen]
      omega
    have hget : ∀ k, k < numWords 64 l.length →
        (v.setChunks (v.getChunks.map fun chunk => ~~~chunk)).chunks[k]? = some (~~~word 64 l k) := by
      intro k hk
      change (copyTo v.chunks _)[k]? = _
      rw [getElem?_copyTo (by omega) (by omega), hchunks k hk]
    have hcapacity : (v.setChunks (v.getChunks.map fun chunk => ~~~chunk)).chunks.length =
        v.chunks.length := length_copyTo _ _
    unfold numWords at hfit hget
    rw [hback, List.getD_eq_getElem?_getD, hget _ (by omega), Option.getD_some,
      not_word_of_tail (by omega) (by omega)]
    refine represents_of_holds (hlen.trans (List.length_map _).symm) (fun k hk => ?_) (fun hout => ?_)
      fun _ h => absurd h hnil
    · rw [List.length_map] at hk
      unfold numWords at hk
      by_cases hlast : k = l.length / 64
      · rw [hlast, List.getElem?_set_self (by omega)]
      · rw [List.getElem?_set_ne (Ne.symm hlast), hget k hk, not_word_of_full (by omega)]
    · rw [List.length_set, hcapacity]
      exact hroom.inlined hout

theorem Represents.flipAll (h : Represents v l) (fresh : Nat → ChunkType) :
    Represents (v.flipAll fresh) (l.map not) := by
  unfold ClusteredBitVector.flipAll
  split_ifs with hempty
  · have hnil : l = [] := List.eq_nil_of_length_eq_zero (h.length ▸ hempty)
    rw [hnil] at h ⊢
    exact h
  · have hroom := h.room_reserveIfClear fresh
    have hsize : ((v.reserveIfClear fresh).setChunks
        ((v.reserveIfClear fresh).getChunks.map fun chunk => ~~~chunk)).size = l.length := hroom.length
    have hflip := hroom.flipChunks (h.length ▸ hempty)
    unfold chunkSizeInBits
    simp only [hsize]
    exact hflip

end FlipAll

/-! ## Copies -/

section Copies

variable {other : ClusteredBitVector} {m : List Bool}

theorem represents_clear (v : ClusteredBitVector) : Represents v.clear [] := by
  unfold ClusteredBitVector.clear
  split_ifs with hout
  · refine represents_of_holds rfl (fun k hk => ?_) (fun hin => ?_) fun hin _ => ?_
    · exact absurd hk (by unfold numWords; simp)
    · exact absurd (hout.symm.trans hin) Bool.noConfusion
    · exact absurd (hout.symm.trans hin) Bool.noConfusion
  · exact represents_empty

theorem Represents.copy (h : Represents other m) (fresh : Nat → ChunkType) :
    Represents (copy fresh other) m := by
  unfold ClusteredBitVector.copy
  split_ifs with hout
  · rw [h.lengthInChunks]
    refine ⟨h.length, fun hin => absurd (hout.symm.trans hin) Bool.noConfusion, fun _ => ?_⟩
    exact holds_copyTo (h.outOfLine hout) (by rw [length_allocate])
  · exact h

theorem Represents.assign (v : ClusteredBitVector) (h : Represents other m) (fresh : Nat → ChunkType) :
    Represents (v.assign fresh other) m := by
  unfold ClusteredBitVector.assign
  rw [h.lengthInChunks]
  split_ifs with hfit hclear
  · obtain ⟨hout, hle⟩ := Bool.and_eq_true_iff.1 hfit
    refine ⟨h.length, fun hin => absurd (hout.symm.trans hin) Bool.noConfusion, fun _ => ?_⟩
    exact holds_copyTo_clear (h.bit_of_clear hclear) (of_decide_eq_true hle)
  · obtain ⟨hout, hle⟩ := Bool.and_eq_true_iff.1 hfit
    refine ⟨h.length, fun hin => absurd (hout.symm.trans hin) Bool.noConfusion, fun _ => ?_⟩
    exact holds_copyTo (h.holds (.inl (Bool.eq_false_iff.2 hclear))) (of_decide_eq_true hle)
  · exact h.copy fresh

end Copies

/-! ## Set operations -/

section Sets

variable {v other : ClusteredBitVector} {l m : List Bool}

theorem bit_zipWith {f : Bool → Bool → Bool} (hf : f false false = false) (hlen : l.length = m.length)
    (i : Nat) : bit (List.zipWith f l m) i = f (bit l i) (bit m i) := by
  have hzip : (List.zipWith f l m).length = l.length := by
    rw [List.length_zipWith, ← hlen, Nat.min_self]
  by_cases hi : i < l.length
  · unfold bit
    rw [List.getD_eq_getElem _ _ (hzip.symm ▸ hi), List.getD_eq_getElem _ _ hi,
      List.getD_eq_getElem _ _ (hlen ▸ hi), List.getElem_zipWith]
  · rw [bit_of_le (by omega), bit_of_le (by omega), bit_of_le (by omega), hf]

variable (h : Represents v l) (hother : Represents other m) (hlen : l.length = m.length)
include h hother hlen

theorem Represents.zipChunks (hclear : v.isInlineAndAllClear = false)
    (hclear' : other.isInlineAndAllClear = false) {f : Bool → Bool → Bool} (hf : f false false = false)
    {g : ChunkType → ChunkType → ChunkType}
    (hg : ∀ x y j, (g x y).getLsbD j = f (x.getLsbD j) (y.getLsbD j)) :
    Represents (v.setChunks (List.zipWith g v.getChunks other.chunks)) (List.zipWith f l m) := by
  have hholds := hother.holds (.inl hclear')
  have hfit := hholds.numWords_le
  have hchunks := getChunks_eq h.length (h.holds (.inl hclear))
  rw [← hlen] at hfit
  refine h.setChunks hclear (by rw [List.length_zipWith, ← hlen, Nat.min_self]) ?_ fun k hk => ?_
  · rw [hchunks, List.length_zipWith, List.length_map, List.length_range, Nat.min_eq_left hfit]
  · rw [hchunks, List.getElem?_zipWith, List.getElem?_map, List.getElem?_range hk, hholds k (hlen ▸ hk)]
    refine congrArg some (eq_word fun j hj => ?_)
    rw [hg, bit_zipWith hf hlen, getLsbD_word, getLsbD_word, decide_eq_true hj, Bool.true_and,
      Bool.true_and]

theorem Represents.intersect : Represents (v.intersect other) (List.zipWith and l m) := by
  have hbit : ∀ i, bit (List.zipWith and l m) i = (bit l i && bit m i) :=
    bit_zipWith rfl hlen
  have hzip : (List.zipWith and l m).length = l.length := by
    rw [List.length_zipWith, ← hlen, Nat.min_self]
  unfold ClusteredBitVector.intersect
  split_ifs with hclear hclear'
  · have hsame : List.zipWith and l m = l := ext_bit hzip fun i => by
      rw [hbit, h.bit_of_clear hclear, Bool.false_and]
    rw [hsame]
    exact h
  · rw [Bool.not_eq_true] at hclear
    rw [getChunks_eq h.length (h.holds (.inl hclear)), List.map_map]
    refine h.setChunks hclear hzip (by rw [List.length_map, List.length_range]) fun k hk => ?_
    rw [List.getElem?_map, List.getElem?_range hk]
    refine congrArg some (eq_word fun j _ => ?_)
    rw [hbit, hother.bit_of_clear hclear', Bool.and_false]
    exact BitVec.getLsbD_zero
  · exact h.zipChunks hother hlen (Bool.eq_false_iff.2 hclear) (Bool.eq_false_iff.2 hclear') rfl
      fun x y j => BitVec.getLsbD_and

theorem Represents.unite (fresh : Nat → ChunkType) :
    Represents (v.unite fresh other) (List.zipWith or l m) := by
  have hbit : ∀ i, bit (List.zipWith or l m) i = (bit l i || bit m i) :=
    bit_zipWith rfl hlen
  have hzip : (List.zipWith or l m).length = l.length := by
    rw [List.length_zipWith, ← hlen, Nat.min_self]
  unfold ClusteredBitVector.unite
  split_ifs with hclear' hclear
  · have hsame : List.zipWith or l m = l := ext_bit hzip fun i => by
      rw [hbit, hother.bit_of_clear hclear', Bool.or_false]
    rw [hsame]
    exact h
  · have hsame : List.zipWith or l m = m := ext_bit (hzip.trans hlen) fun i => by
      rw [hbit, h.bit_of_clear hclear, Bool.false_or]
    rw [hsame]
    exact hother.assign v fresh
  · exact h.zipChunks hother hlen (Bool.eq_false_iff.2 hclear) (Bool.eq_false_iff.2 hclear') rfl
      fun x y j => BitVec.getLsbD_or

end Sets

end ClusteredBitVector

end SwiftKStdlib.BitVector
