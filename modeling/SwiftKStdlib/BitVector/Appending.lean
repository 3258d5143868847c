import SwiftKStdlib.Lib.BitField
import SwiftKStdlib.BitVector.ClusteredBitVector

/-!
# Appending bits

* `Supplies gen I` : a generator hands out the bits of a list, kept by `I`;
* `writeChunks_spec`, `appendReserved_spec` : appending from such a generator;
* `constantBits_supplies`, `wholeChunks_supplies`, `mixedChunks_supplies` : the three generators.
-/

namespace SwiftKStdlib.BitVector

open Lib.BitWords

namespace ClusteredBitVector

section Generator

variable {σ : Type} {gen : σ → Nat → ChunkType × σ} {I : List Bool → σ → Prop}

/-- Asked for as many bits as a chunk takes, the generator hands out the next ones. -/
def Supplies (gen : σ → Nat → ChunkType × σ) (I : List Bool → σ → Prop) : Prop :=
  ∀ m s, I m s → m ≠ [] → (gen s (min m.length 64)).1 = word 64 m 0 ∧
    I (m.drop (min m.length 64)) (gen s (min m.length 64)).2

theorem writeChunks_zero (s : σ) (next : Nat) (chunks : List ChunkType) :
    writeChunks gen s next 0 chunks = chunks := by
  rw [writeChunks, if_pos rfl]

theorem writeChunks_pos (s : σ) (next : Nat) (chunks : List ChunkType) {numBits : Nat}
    (h : numBits ≠ 0) :
    writeChunks gen s next numBits chunks =
      writeChunks gen (gen s (min numBits 64)).2 (next + 1) (numBits - min numBits 64)
        (chunks.set next (gen s (min numBits 64)).1) := by
  rw [writeChunks, if_neg h]
  rfl

theorem writeChunks_spec (hgen : Supplies gen I) (m : List Bool) (s : σ) (hm : I m s) (next : Nat)
    (chunks : List ChunkType) (hfit : next + numWords 64 m.length ≤ chunks.length) :
    (writeChunks gen s next m.length chunks).length = chunks.length ∧
      (∀ k, k < next → (writeChunks gen s next m.length chunks)[k]? = chunks[k]?) ∧
      ∀ k, k < numWords 64 m.length →
        (writeChunks gen s next m.length chunks)[next + k]? = some (word 64 m k) := by
  -- one chunk a round, on the number of bits left
  induction hlen : m.length using Nat.strong_induction_on generalizing m s next chunks with
  | _ len ih =>
    subst hlen
    by_cases hnil : m.length = 0
    · rw [hnil, writeChunks_zero]
      exact ⟨rfl, fun _ _ => rfl, fun k hk => absurd hk (by unfold numWords; omega)⟩
    · obtain ⟨hword, hrest⟩ := hgen m s hm fun h => hnil (by rw [h]; rfl)
      have hdrop : (m.drop (min m.length 64)).length = m.length - min m.length 64 := List.length_drop
      unfold numWords at hfit
      have hnext := ih (m.length - min m.length 64) (by omega) (m.drop (min m.length 64)) _ hrest
        (next + 1) (chunks.set next (word 64 m 0)) (by rw [hdrop, List.length_set]; unfold numWords; omega)
        hdrop
      rw [writeChunks_pos s next chunks hnil, hword]
      obtain ⟨hlength, hbefore, hwords⟩ := hnext
      refine ⟨by rw [hlength, List.length_set], fun k hk => ?_, fun k hk => ?_⟩
      · rw [hbefore k (by omega), List.getElem?_set_ne (by omega)]
      · cases k with
        | zero => exact (hbefore next (by omega)).trans (List.getElem?_set_self (by omega))
        | succ k =>
          unfold numWords at hk hwords
          have hmin : min m.length 64 = 64 := by omega
          rw [hmin] at hwords ⊢
          rw [show next + (k + 1) = next + 1 + k by omega, hwords k (by omega), word_drop]

/-- What is appended to the bits `l`, when there is room. -/
structure Appends (v v' : ClusteredBitVector) (l : List Bool) : Prop where
  hasOutOfLineData : v'.hasOutOfLineData = v.hasOutOfLineData
  capacity : v'.chunks.length = v.chunks.length
  length : v'.lengthInBits = l.length
  holds : Holds 64 v'.chunks l

theorem appendReserved_spec (hgen : Supplies gen I) {v : ClusteredBitVector} {l m : List Bool}
    (hl : Holds 64 v.chunks l) (hlen : v.lengthInBits = l.length) (hm : m ≠ []) {s : σ}
    (haligned : l.length % 64 = 0 → I m s)
    (hoffset : l.length % 64 ≠ 0 → (gen s (min m.length (64 - l.length % 64))).1 =
        word 64 (m.take (min m.length (64 - l.length % 64))) 0 ∧
      I (m.drop (min m.length (64 - l.length % 64))) (gen s (min m.length (64 - l.length % 64))).2)
    (hfit : numWords 64 (l ++ m).length ≤ v.chunks.length)
    (h63 : (l ++ m).length < 2 ^ 63) :
    Appends v (v.appendReserved gen m.length s) (l ++ m) := by
  have hpos := List.length_pos_of_ne_nil hm
  rw [List.length_append] at hfit h63
  have hlength : length63 (v.lengthInBits + m.length) = (l ++ m).length := by
    rw [hlen, List.length_append]
    exact Nat.mod_eq_of_lt h63
  unfold numWords at hfit
  unfold appendReserved chunkSizeInBits
  simp only [hlen]
  split_ifs with hmod
  · have hwrite := writeChunks_spec hgen m s (haligned hmod) (l.length / 64) v.chunks
      (by unfold numWords; omega)
    obtain ⟨hcapacity, hbefore, hwords⟩ := hwrite
    refine ⟨rfl, hcapacity, hlen ▸ hlength, fun k hk => ?_⟩
    rw [List.length_append] at hk
    unfold numWords at hk hwords
    by_cases hlt : k < l.length / 64
    · rw [hbefore k hlt, hl k (by unfold numWords; omega), word_append_left l m (by omega)]
    · obtain ⟨i, rfl⟩ := Nat.exists_eq_add_of_le (Nat.le_of_not_lt hlt)
      have hright := word_append_right (n := 64) l m (k := l.length / 64) (w := 0) (by omega) i
      rw [hwords i (by omega), hright, List.drop_zero]
  · obtain ⟨hfirst, hrest⟩ := hoffset hmod
    generalize hw : min m.length (64 - l.length % 64) = w at *
    have hdrop : (m.drop w).length = m.length - w := List.length_drop
    have hchunk : v.chunks.getD (l.length / 64) 0 = word 64 l (l.length / 64) := by
      rw [List.getD_eq_getElem?_getD, hl _ (by unfold numWords; omega), Option.getD_some]
    have hmeet : word 64 (l ++ m) (l.length / 64) =
        word 64 l (l.length / 64) ||| word 64 (m.take w) 0 <<< (l.length % 64) :=
      word_append_meet l m (by omega) (by omega) (by omega)
    have hwrite := writeChunks_spec hgen (m.drop w) _ hrest (l.length / 64 + 1)
      (v.chunks.set (l.length / 64) (word 64 (l ++ m) (l.length / 64)))
      (by rw [hdrop, List.length_set]; unfold numWords; omega)
    rw [hdrop] at hwrite
    obtain ⟨hcapacity, hbefore, hwords⟩ := hwrite
    rw [hfirst, hchunk, ← hmeet]
    refine ⟨rfl, by rw [hcapacity, List.length_set], hlen ▸ hlength, fun k hk => ?_⟩
    rw [List.length_append] at hk
    unfold numWords at hk hwords
    rcases Nat.lt_trichotomy k (l.length / 64) with hlt | rfl | hgt
    · rw [hbefore k (by omega), List.getElem?_set_ne (by omega), hl k (by unfold numWords; omega),
        word_append_left l m (by omega)]
    · rw [hbefore _ (Nat.lt_succ_self _), List.getElem?_set_self (by omega)]
    · obtain ⟨i, rfl⟩ := Nat.exists_eq_add_of_le hgt
      have hright := word_append_right (n := 64) l m (k := l.length / 64 + 1) (w := w) (by omega) i
      rw [hwords i (by omega), ← hright]

end Generator

/-! ## The generators -/

theorem getLsbD_resultMask {w : Nat} (hw : w ≤ 64) (j : Nat) :
    (resultMask w).getLsbD j = decide (j < w) := by
  unfold resultMask chunkSizeInBits
  split_ifs with h
  · rw [h, BitVec.getLsbD_allOnes]
  · rw [BitVec.getLsbD, Lib.BitField.toNat_ones (by omega), Nat.testBit_two_pow_sub_one]

theorem constantBits_fst (b : Bool) {w : Nat} (hw : w ≤ 64) :
    (constantBits b () w).1 = word 64 (List.replicate w b) 0 := by
  refine eq_word fun j hj => ?_
  rw [bit_replicate, Nat.mul_zero, Nat.zero_add]
  unfold constantBits chunkSizeInBits
  simp only [BitVec.getLsbD_ushiftRight]
  cases b with
  | false => simp
  | true =>
    simp only [if_true, BitVec.getLsbD_allOnes, Bool.and_true, decide_eq_decide]
    omega

theorem constantBits_supplies (b : Bool) :
    Supplies (constantBits b) fun m _ => m = List.replicate m.length b := by
  intro m s hm _
  rw [constantBits_fst b (Nat.min_le_right _ _)]
  refine ⟨?_, ?_⟩
  · refine eq_word fun j hj => ?_
    rw [getLsbD_word, hm, bit_replicate, bit_replicate, List.length_replicate, decide_eq_true hj,
      Bool.true_and, Nat.mul_zero, Nat.zero_add]
    congr 1
    rw [decide_eq_decide]
    omega
  · change m.drop (min m.length 64) = List.replicate (m.drop (min m.length 64)).length b
    rw [List.length_drop]
    conv_lhs => rw [hm]
    rw [List.length_replicate]
    exact List.drop_replicate

theorem wholeChunks_supplies : Supplies wholeChunks fun m cs => Holds 64 cs m := by
  intro m cs hm hnil
  have hpos := List.length_pos_of_ne_nil hnil
  refine ⟨?_, fun k hk => ?_⟩
  · change cs.getD 0 0 = _
    rw [List.getD_eq_getElem?_getD, hm 0 (by unfold numWords; omega), Option.getD_some]
  · rw [List.length_drop] at hk
    unfold numWords at hk
    have hmin : min m.length 64 = 64 := by omega
    change cs.tail[k]? = _
    rw [hmin, word_drop, List.getElem?_tail, hm (k + 1) (by unfold numWords; omega)]

/-- The bits left in `prevChunk`, and the words of the others. -/
structure Mixes (l : List Bool) (m : Mixing) : Prop where
  bitsRemaining_lt : m.bitsRemaining < 64
  prevChunk : m.prevChunk = word 64 (l.take m.bitsRemaining) 0
  nextChunk : Holds 64 m.nextChunk (l.drop m.bitsRemaining)

theorem mixedChunks_spec {l : List Bool} {m : Mixing} (h : Mixes l m) {w : Nat} (hpos : 0 < w)
    (hw : w ≤ 64) (hlen : w ≤ l.length) :
    (mixedChunks m w).1 = word 64 (l.take w) 0 ∧ Mixes (l.drop w) (mixedChunks m w).2 := by
  have hlt := h.bitsRemaining_lt
  unfold mixedChunks
  split_ifs with hle
  · refine ⟨eq_word fun j hj => ?_, ⟨?_, eq_word fun j hj => ?_, ?_⟩⟩
    · rw [BitVec.getLsbD_and, getLsbD_resultMask hw, h.prevChunk, getLsbD_word, bit_take, bit_take,
        decide_eq_true hj, Nat.mul_zero, Nat.zero_add]
      by_cases hjw : j < w
      · have hjr : j < m.bitsRemaining := by omega
        simp [hjw, hjr]
      · simp [hjw]
    · change m.bitsRemaining - w < 64
      omega
    · rw [BitVec.getLsbD_ushiftRight, h.prevChunk, getLsbD_word, bit_take, bit_take, bit_drop,
        Nat.mul_zero, Nat.zero_add, Nat.zero_add]
      by_cases hjr : j < m.bitsRemaining - w
      · have hin : w + j < m.bitsRemaining := by omega
        have hin' : w + j < 64 := by omega
        simp [hjr, hin, hin']
      · have hout : ¬ w + j < m.bitsRemaining := by omega
        simp [hjr, hout]
    · change Holds 64 m.nextChunk ((l.drop w).drop (m.bitsRemaining - w))
      rw [List.drop_drop, Nat.add_sub_cancel' hle]
      exact h.nextChunk
  · have hnew : m.nextChunk.getD 0 0 = word 64 (l.drop m.bitsRemaining) 0 := by
      have hpos' : 0 < (l.drop m.bitsRemaining).length := by rw [List.length_drop]; omega
      rw [List.getD_eq_getElem?_getD, h.nextChunk 0 (by unfold numWords; omega), Option.getD_some]
    refine ⟨eq_word fun j hj => ?_, ⟨?_, eq_word fun j hj => ?_, ?_⟩⟩
    · rw [BitVec.getLsbD_and, getLsbD_resultMask hw, BitVec.getLsbD_or, BitVec.getLsbD_shiftLeft,
        h.prevChunk, hnew, getLsbD_word, getLsbD_word, bit_take, bit_take, bit_drop,
        decide_eq_true hj, Nat.mul_zero, Nat.zero_add, Nat.zero_add]
      by_cases hjw : j < w
      · by_cases hjr : j < m.bitsRemaining
        · simp [hjw, hjr]
        · have hsub : m.bitsRemaining + (j - m.bitsRemaining) = j := by omega
          have hin : j - m.bitsRemaining < 64 := by omega
          simp [hjw, hjr, hsub, hin]
      · simp [hjw]
    · change 64 + m.bitsRemaining - w < 64
      omega
    · change ((m.nextChunk.getD 0 0) >>> (w - m.bitsRemaining)).getLsbD j =
        bit ((l.drop w).take (64 + m.bitsRemaining - w)) (64 * 0 + j)
      rw [BitVec.getLsbD_ushiftRight, hnew, getLsbD_word, bit_take, bit_drop, bit_drop,
        Nat.mul_zero, Nat.zero_add, Nat.zero_add]
      have hindex : m.bitsRemaining + (w - m.bitsRemaining + j) = w + j := by omega
      have hrange : w - m.bitsRemaining + j < 64 ↔ j < 64 + m.bitsRemaining - w := by omega
      simp only [hindex, hrange]
    · intro k hk
      change m.nextChunk.tail[k]? = some (word 64 ((l.drop w).drop (64 + m.bitsRemaining - w)) k)
      change k < numWords 64 ((l.drop w).drop (64 + m.bitsRemaining - w)).length at hk
      have hdrop : (l.drop w).drop (64 + m.bitsRemaining - w) = (l.drop m.bitsRemaining).drop 64 := by
        rw [List.drop_drop, List.drop_drop]
        congr 1
        omega
      rw [hdrop, List.length_drop, List.length_drop] at hk
      unfold numWords at hk
      rw [hdrop, word_drop, List.getElem?_tail,
        h.nextChunk (k + 1) (by rw [List.length_drop]; unfold numWords; omega)]

theorem mixedChunks_supplies : Supplies mixedChunks Mixes := by
  intro l m h hnil
  have hpos := List.length_pos_of_ne_nil hnil
  have hlt := h.bitsRemaining_lt
  obtain ⟨hword, hrest⟩ := mixedChunks_spec h (w := min l.length 64) (by omega) (by omega) (by omega)
  refine ⟨hword.trans (eq_word fun j hj => ?_), hrest⟩
  rw [getLsbD_word, bit_take, decide_eq_true hj, Bool.true_and, Nat.mul_zero, Nat.zero_add]
  by_cases hjl : j < l.length
  · have hjw : j < min l.length 64 := by omega
    simp [hjw]
  · rw [bit_of_le (Nat.le_of_not_lt hjl), Bool.and_false]

/-! ## Appending, when there is room -/

section Room

variable {v : ClusteredBitVector} {l : List Bool} (hl : Holds 64 v.chunks l)
  (hlen : v.lengthInBits = l.length)
include hl hlen

theorem appendConstantBitsReserved_spec {n : Nat} (b : Bool) (hn : n ≠ 0)
    (hfit : numWords 64 (l.length + n) ≤ v.chunks.length) (h63 : l.length + n < 2 ^ 63) :
    Appends v (v.appendConstantBitsReserved n b) (l ++ List.replicate n b) := by
  have hlength : (List.replicate n b).length = n := List.length_replicate
  have hnil : List.replicate n b ≠ [] := List.ne_nil_of_length_pos (by rw [hlength]; omega)
  have happend := appendReserved_spec (constantBits_supplies b) hl hlen hnil (s := ()) (fun _ => by
      rw [hlength]) (fun hmod => by
      rw [hlength, constantBits_fst b (by omega), List.take_replicate, List.drop_replicate]
      refine ⟨?_, by rw [List.length_replicate]⟩
      congr 2
      omega)
    (by rw [List.length_append, hlength]; exact hfit) (by rw [List.length_append, hlength]; exact h63)
  rw [hlength] at happend
  exact happend

theorem appendChunksReserved_spec {m : List Bool} {cs : List ChunkType} (hm : Holds 64 cs m)
    (hnil : m ≠ []) (hfit : numWords 64 (l.length + m.length) ≤ v.chunks.length)
    (h63 : l.length + m.length < 2 ^ 63) :
    Appends v (v.appendChunksReserved m.length cs) (l ++ m) := by
  have hpos := List.length_pos_of_ne_nil hnil
  rw [← List.length_append] at hfit h63
  unfold appendChunksReserved chunkSizeInBits
  rw [hlen]
  split_ifs with hmod
  · exact appendReserved_spec wholeChunks_supplies hl hlen hnil (fun _ => hm) (fun h => absurd hmod h)
      hfit h63
  · have hmixes : Mixes m ⟨0, 0, cs⟩ :=
      ⟨Nat.zero_lt_succ _, (word_eq_zero (Nat.zero_le _)).symm, by simpa using hm⟩
    refine appendReserved_spec mixedChunks_supplies hl hlen hnil (fun h => absurd h hmod) (fun _ => ?_)
      hfit h63
    exact mixedChunks_spec hmixes (by omega) (by omega) (by omega)

end Room

end ClusteredBitVector

end SwiftKStdlib.BitVector
