import SwiftKStdlib.BitVector.Combining

/-!
# What the enumerator reports

* `TailClear` : nothing is set behind the end of the vector;
* `getBit`, `count`, `any`, `equals` of a vector that represents a list;
* `rest` : what an enumerator still has to report; `reports_rest`;
* `reported l` : what it reports of the bits `l`; `EnumeratorFits l` : this is all of them.
-/

namespace SwiftKStdlib.BitVector

open Lib.BitWords

namespace ClusteredBitVector

def TailClear (v : ClusteredBitVector) : Prop :=
  ∀ k, k < v.getLengthInChunks → ∀ j, v.size ≤ chunkSizeInBits * k + j →
    (v.chunks.getD k 0).getLsbD j = false

theorem and_bit_ne_zero (x : ChunkType) {j : Nat} (hj : j < 64) :
    (x &&& 1#64 <<< j != 0) = x.getLsbD j := by
  have hmask : ∀ i, i < 64 → (1#64 <<< j).getLsbD i = decide (i = j) := by
    intro i hi
    have hbit := getLsbD_mask_bit j i hi
    rwa [Nat.mod_eq_of_lt hj] at hbit
  cases hbit : x.getLsbD j with
  | true =>
    rw [bne_iff_ne]
    intro hzero
    have hget := congrArg (fun y : ChunkType => y.getLsbD j) hzero
    simp only [BitVec.getLsbD_and, hbit, hmask j hj, decide_true, Bool.and_self] at hget
    exact Bool.noConfusion (hget.trans BitVec.getLsbD_zero)
  | false =>
    have hzero : x &&& 1#64 <<< j = 0 := by
      apply BitVec.eq_of_getLsbD_eq
      intro i hi
      rw [BitVec.getLsbD_and, hmask i hi]
      by_cases hij : i = j
      · rw [hij, hbit, Bool.false_and]
        exact BitVec.getLsbD_zero.symm
      · rw [decide_eq_false hij, Bool.and_false]
        exact BitVec.getLsbD_zero.symm
    rw [hzero]
    rfl

theorem foldl_countPopulation (chunks : List ChunkType) (n : Nat) :
    chunks.foldl (fun count chunk => count + countPopulation chunk) n =
      n + (chunks.flatMap onesOf).length := by
  induction chunks generalizing n with
  | nil => rfl
  | cons chunk chunks ih =>
    rw [List.foldl_cons, ih, List.flatMap_cons, List.length_append, length_onesOf, Nat.add_assoc]
    rfl

section One

variable {v : ClusteredBitVector} {l : List Bool} (h : Represents v l)
include h

theorem Represents.size : v.size = l.length := h.length

theorem Represents.data (hout : v.hasOutOfLineData = false) : v.data = word 64 l 0 := by
  unfold ClusteredBitVector.data
  rw [(h.inlined hout).1]
  rfl

theorem Represents.bit_inline (hout : v.hasOutOfLineData = false) (i : Nat) :
    bit l i = (word 64 l 0).getLsbD i := by
  rw [getLsbD_word, Nat.mul_zero, Nat.zero_add]
  by_cases hi : i < 64
  · rw [decide_eq_true hi, Bool.true_and]
  · rw [decide_eq_false hi, Bool.false_and]
    by_cases hlong : 64 < l.length
    · exact (h.inlined hout).2 hlong i
    · exact bit_of_le (by omega)

theorem Represents.tailClear : TailClear v := by
  intro k hk j hj
  rw [h.lengthInChunks] at hk
  rw [h.size] at hj
  change l.length ≤ 64 * k + j at hj
  have hword : ∀ i, (word 64 l k).getLsbD j = i → i = false := by
    intro i hi
    rw [getLsbD_word, bit_of_le hj, Bool.and_false] at hi
    exact hi.symm
  cases hclear : v.isInlineAndAllClear with
  | true =>
    obtain ⟨hout, hzero⟩ := h.isInlineAndAllClear_iff.1 hclear
    rw [(h.inlined hout).1, hzero, List.getD_eq_getElem?_getD]
    cases k with
    | zero => exact BitVec.getLsbD_zero
    | succ k => exact BitVec.getLsbD_zero
  | false =>
    rw [List.getD_eq_getElem?_getD, h.holds (.inl hclear) k hk, Option.getD_some]
    exact hword _ rfl

theorem Represents.getBit {i : Nat} (hi : i < l.length) : v.getBit i = bit l i := by
  unfold ClusteredBitVector.getBit chunkSizeInBits
  split_ifs with hclear
  · exact (h.bit_of_clear hclear i).symm
  · have hget := h.holds (.inl (Bool.eq_false_iff.2 hclear)) (i / 64) (by unfold numWords; omega)
    rw [List.getD_eq_getElem?_getD, hget, Option.getD_some]
    change (word 64 l (i / 64) &&& 1#64 <<< (i % 64) != 0) = _
    rw [and_bit_ne_zero _ (Nat.mod_lt _ (by decide)), getLsbD_word, decide_eq_true (Nat.mod_lt _ (by decide)), Bool.true_and, Nat.div_add_mod]

theorem Represents.count : v.count = l.count true := by
  unfold ClusteredBitVector.count
  split_ifs with hclear
  · rw [h.eq_replicate hclear, List.count_replicate]
    rfl
  · rw [foldl_countPopulation, Nat.zero_add,
      getChunks_eq h.length (h.holds (.inl (Bool.eq_false_iff.2 hclear))), ← length_ones,
      ones_eq_flatMap (by decide : 0 < 64), List.flatMap_map, List.length_flatMap, List.length_flatMap]
    simp only [List.length_map]

theorem Represents.any : v.any = l.any id := by
  have hl : l.any id = true ↔ ∃ i, bit l i = true := by
    rw [List.any_eq_true]
    refine ⟨fun ⟨b, hb, htrue⟩ => ?_, fun ⟨i, hi⟩ => ?_⟩
    · obtain ⟨i, hi, rfl⟩ := List.mem_iff_getElem.1 hb
      exact ⟨i, (List.getD_eq_getElem _ _ hi).trans htrue⟩
    · have hlt := List.mem_range.1 (List.mem_filter.1 (mem_ones.2 hi)).1
      exact ⟨l[i], List.getElem_mem hlt, (List.getD_eq_getElem _ _ hlt).symm.trans hi⟩
  unfold ClusteredBitVector.any
  split_ifs with hclear
  · symm
    rw [Bool.eq_false_iff]
    intro htrue
    obtain ⟨i, hi⟩ := hl.1 htrue
    rw [h.bit_of_clear hclear] at hi
    exact Bool.noConfusion hi
  · rw [Bool.eq_iff_iff, hl, getChunks_eq h.length (h.holds (.inl (Bool.eq_false_iff.2 hclear))),
      List.any_map, List.any_eq_true]
    refine ⟨fun ⟨k, _, hne⟩ => ?_, fun ⟨i, hi⟩ => ?_⟩
    · have hne' : word 64 l k ≠ 0 := bne_iff_ne.1 hne
      have hbit := BitVec.getLsbD_true_ctz_of_ne_zero hne'
      rw [getLsbD_word, Bool.and_eq_true] at hbit
      exact ⟨_, hbit.2⟩
    · have hlt := List.mem_range.1 (List.mem_filter.1 (mem_ones.2 hi)).1
      refine ⟨i / 64, List.mem_range.2 (by unfold numWords; omega), bne_iff_ne.2 fun hzero => ?_⟩
      have hbit : (word 64 l (i / 64)).getLsbD (i % 64) = true := by
        rw [getLsbD_word, decide_eq_true (Nat.mod_lt _ (by decide)), Bool.true_and, Nat.div_add_mod, hi]
      rw [hzero] at hbit
      exact Bool.noConfusion (hbit.symm.trans BitVec.getLsbD_zero)

end One

/-! ## Equality -/

section Two

variable {v w : ClusteredBitVector} {l m : List Bool} (h : Represents v l) (h' : Represents w m)
  (hlen : l.length = m.length)
include h h' hlen

omit h h' in
theorem eq_of_words (hwords : ∀ k, k < numWords 64 l.length → word 64 l k = word 64 m k) : l = m := by
  refine ext_bit hlen fun i => ?_
  by_cases hi : i < l.length
  · have hbit := congrArg (fun x : ChunkType => x.getLsbD (i % 64))
      (hwords (i / 64) (by unfold numWords; omega))
    simp only [getLsbD_word, decide_eq_true (Nat.mod_lt i (show 0 < 64 by decide)), Bool.true_and,
      Nat.div_add_mod] at hbit
    exact hbit
  · rw [bit_of_le (by omega), bit_of_le (by omega)]

theorem Represents.equals_inline (hout : v.hasOutOfLineData = false) (hout' : w.hasOutOfLineData = false) :
    (v.data == w.data) = true ↔ l = m := by
  rw [beq_iff_eq, h.data hout, h'.data hout']
  refine ⟨fun heq => ext_bit hlen fun i => ?_, fun heq => by rw [heq]⟩
  rw [h.bit_inline hout, h'.bit_inline hout', heq]

theorem Represents.equals_outOfLine (hout : v.hasOutOfLineData = false) (hout' : w.hasOutOfLineData = true) :
    (w.getChunks.all fun chunk => chunk == v.data) = true ↔ m = l := by
  rw [getChunks_eq h'.length (h'.outOfLine hout'), List.all_map, List.all_eq_true, h.data hout]
  have hall : (∀ k ∈ List.range (numWords 64 m.length),
        ((fun chunk => chunk == word 64 l 0) ∘ word 64 m) k = true) ↔
      ∀ k, k < numWords 64 m.length → word 64 m k = word 64 l 0 := by
    refine forall_congr' fun k => ?_
    rw [List.mem_range]
    exact imp_congr_right fun _ => beq_iff_eq
  -- all words of an inline vector are the first one
  have hwords : ∀ k, k < numWords 64 m.length → word 64 l k = word 64 l 0 := by
    intro k hk
    by_cases hlong : 64 < l.length
    · refine eq_word fun j _ => ?_
      rw [getLsbD_word, (h.inlined hout).2 hlong, (h.inlined hout).2 hlong, Bool.and_false]
    · unfold numWords at hk
      obtain rfl : k = 0 := by omega
      rfl
  rw [hall]
  refine ⟨fun heq => eq_of_words hlen.symm fun k hk => ?_, fun heq k hk => ?_⟩
  · rw [heq k hk, hwords k hk]
  · rw [← hwords k hk, heq]

omit hlen in
theorem Represents.equals : v.equals w = true ↔ l = m := by
  unfold ClusteredBitVector.equals
  rw [h.size, h'.size, h.length]
  by_cases hlen : l.length = m.length
  · rw [if_neg (not_not.2 hlen)]
    split_ifs with hzero hboth hin hin'
    · refine iff_of_true rfl ?_
      rw [List.eq_nil_of_length_eq_zero hzero, List.eq_nil_of_length_eq_zero (hlen.symm.trans hzero)]
    · rw [Bool.and_eq_true, Bool.not_eq_true', Bool.not_eq_true'] at hboth
      exact h.equals_inline h' hlen hboth.1 hboth.2
    · rw [Bool.not_eq_true'] at hin
      have hout' : w.hasOutOfLineData = true := by
        by_contra hne
        rw [Bool.not_eq_true] at hne
        exact hboth (by rw [hin, hne]; rfl)
      exact (h.equals_outOfLine h' hlen hin hout').trans eq_comm
    · rw [Bool.not_eq_true'] at hin'
      rw [Bool.not_eq_true', Bool.not_eq_false] at hin
      exact h'.equals_outOfLine h hlen.symm hin' hin
    · rw [Bool.not_eq_true', Bool.not_eq_false] at hin hin'
      rw [getChunks_eq h.length (h.outOfLine hin), getChunks_eq h'.length (h'.outOfLine hin'), beq_iff_eq]
      refine ⟨fun heq => eq_of_words hlen fun k hk => ?_, fun heq => by rw [heq]⟩
      rw [hlen] at heq hk
      exact List.map_inj_left.1 heq k (List.mem_range.2 hk)
  · rw [if_pos hlen]
    exact iff_of_false Bool.false_ne_true fun heq => hlen (by rw [heq])

end Two

end ClusteredBitVector

end SwiftKStdlib.BitVector

namespace SwiftKStdlib.BitVector

open Lib.BitWords

namespace ClusteredBitVector

def chunkIndices (index : Nat) (chunk : ChunkType) : List Nat :=
  (onesOf chunk).map (index * chunkSizeInBits % 2 ^ 32 + ·)

namespace SetBitEnumerator

variable (e : SetBitEnumerator)

/-- What is left, with the chunk `cur` at hand. -/
def rest (index : Nat) (cur : ChunkType) : List Nat :=
  chunkIndices index cur ++ (List.range' (index + 1) (e.numChunks - (index + 1))).flatMap fun k =>
    chunkIndices k (e.chunks.getD k 0)

theorem rest_zero {index : Nat} (hlast : index + 1 = e.numChunks) : e.rest index 0 = [] := by
  have hzero : onesOf (0 : ChunkType) = [] := onesOf_zero
  unfold rest chunkIndices
  rw [hzero, ← hlast, Nat.sub_self]
  rfl

theorem rest_succ {index : Nat} (hlt : index + 1 < e.numChunks) :
    e.rest index 0 = e.rest (index + 1) (e.chunks.getD (index + 1) 0) := by
  have hzero : onesOf (0 : ChunkType) = [] := onesOf_zero
  obtain ⟨n, hn⟩ := Nat.exists_eq_add_of_le hlt
  have hcount : e.numChunks - (index + 1) = n + 1 := by omega
  have hcount' : e.numChunks - (index + 1 + 1) = n := by omega
  unfold rest
  rw [hcount, hcount', List.range'_succ, List.flatMap_cons]
  unfold chunkIndices
  rw [hzero]
  rfl

theorem rest_cons {index : Nat} {cur : ChunkType} (hcur : cur ≠ 0) :
    e.rest index cur = (index * chunkSizeInBits % 2 ^ 32 + cur.ctz.toNat) ::
      e.rest index (cur ^^^ (1#64 <<< cur.ctz.toNat)) := by
  unfold rest chunkIndices
  conv_lhs => rw [onesOf_eq_cons hcur]
  rfl

theorem nextChunk_spec : ∀ fuel index cur, index + (fuel + 1) = e.numChunks →
    (e.nextChunk (fuel + 1) index cur = Option.none ∧ e.rest index cur = []) ∨
    ∃ i cur', e.nextChunk (fuel + 1) index cur = some (i, cur') ∧ cur' ≠ 0 ∧ i < e.numChunks ∧
      e.rest index cur = e.rest i cur' := by
  intro fuel
  induction fuel with
  | zero =>
    intro index cur hindex
    rw [nextChunk]
    split_ifs with hcur
    · exact .inr ⟨index, cur, rfl, hcur, by omega, rfl⟩
    · rw [not_not.1 hcur]
      exact .inl ⟨rfl, e.rest_zero hindex⟩
  | succ fuel ih =>
    intro index cur hindex
    rw [nextChunk]
    split_ifs with hcur hlast
    · exact .inr ⟨index, cur, rfl, hcur, by omega, rfl⟩
    · rw [not_not.1 hcur]
      exact .inl ⟨rfl, e.rest_zero hlast⟩
    · rw [not_not.1 hcur, e.rest_succ (by omega)]
      exact ih (index + 1) _ (by omega)

theorem reports_rest : ∀ is (e : SetBitEnumerator), e.curChunkIndex < e.numChunks →
    e.rest e.curChunkIndex e.curChunk = is → Reports e is := by
  intro is
  induction is with
  | nil =>
    intro e hlt hrest
    obtain ⟨fuel, hfuel⟩ := Nat.exists_eq_add_of_lt hlt
    have hsub : e.numChunks - e.curChunkIndex = fuel + 1 := by omega
    refine .done e ?_
    rcases e.nextChunk_spec fuel e.curChunkIndex e.curChunk (by omega) with
      ⟨hnone, -⟩ | ⟨i, cur, -, hcur, -, heq⟩
    · unfold findNext
      rw [if_neg (by omega), hsub, hnone]
    · rw [heq, e.rest_cons hcur] at hrest
      exact absurd hrest (List.cons_ne_nil _ _)
  | cons i is ih =>
    intro e hlt hrest
    obtain ⟨fuel, hfuel⟩ := Nat.exists_eq_add_of_lt hlt
    have hsub : e.numChunks - e.curChunkIndex = fuel + 1 := by omega
    rcases e.nextChunk_spec fuel e.curChunkIndex e.curChunk (by omega) with
      ⟨-, hnil⟩ | ⟨index, cur, hsome, hcur, hindex, heq⟩
    · rw [hnil] at hrest
      exact absurd hrest.symm (List.cons_ne_nil _ _)
    · rw [heq, e.rest_cons hcur] at hrest
      obtain ⟨rfl, hrest'⟩ := List.cons.inj hrest
      refine .next e { e with curChunk := cur ^^^ (1#64 <<< cur.ctz.toNat), curChunkIndex := index } _ is
        ?_ (ih _ hindex hrest')
      unfold findNext
      rw [if_neg (by omega), hsub, hsome]

theorem Reports.unique {e : SetBitEnumerator} {is js : List Nat} (h : Reports e is)
    (h' : Reports e js) : is = js := by
  induction h generalizing js with
  | done e hnone =>
    cases h' with
    | done _ _ => rfl
    | next _ e' i is hsome _ => exact absurd (hnone.symm.trans hsome) (by simp)
  | next e e' i is hsome _ ih =>
    cases h' with
    | done _ hnone => exact absurd (hnone.symm.trans hsome) (by simp)
    | next _ e'' j js hsome' hrest =>
      obtain ⟨rfl, rfl⟩ := Prod.mk.inj (Option.some.inj (hsome.symm.trans hsome'))
      rw [ih hrest]

end SetBitEnumerator

/-! ## The bits of a vector -/

section Reported

/-- What the enumerator reports of a vector with the bits `l`. -/
def reported (l : List Bool) : List Nat :=
  (List.range (numWords 64 l.length % 2 ^ 32)).flatMap fun k => chunkIndices k (word 64 l k)

theorem Represents.reports {v : ClusteredBitVector} {l : List Bool} (h : Represents v l)
    (behind : ChunkType) : SetBitEnumerator.Reports (v.enumerateSetBits behind) (reported l) := by
  unfold enumerateSetBits
  split_ifs with hclear
  · have hnil : reported l = [] := by
      refine List.flatMap_eq_nil_iff.2 fun k _ => ?_
      have hzero : word 64 l k = 0 := by
        refine (eq_word fun j _ => ?_).symm
        rw [h.bit_of_clear hclear]
        exact BitVec.getLsbD_zero
      rw [hzero]
      exact congrArg (List.map _) onesOf_zero
    rw [hnil]
    exact .done _ rfl
  · have hholds := h.holds (.inl (Bool.eq_false_iff.2 hclear))
    rw [h.lengthInChunks]
    have hle : numWords 64 l.length % 2 ^ 32 ≤ numWords 64 l.length := Nat.mod_le _ _
    unfold reported
    generalize numWords 64 l.length % 2 ^ 32 = n at hle
    cases n with
    | zero => exact .done _ rfl
    | succ n =>
      refine SetBitEnumerator.reports_rest _ _ (Nat.zero_lt_succ n) ?_
      unfold SetBitEnumerator.rest
      rw [List.range_eq_range', List.range'_succ, List.flatMap_cons, List.getD_eq_getElem?_getD,
        hholds 0 (by omega), Option.getD_some]
      congr 1
      refine List.flatMap_congr fun k hk => ?_
      have hk' : k < numWords 64 l.length := by
        have hlt : k < 0 + 1 + (n + 1 - (0 + 1)) := (List.mem_range'_1.1 hk).2
        omega
      change chunkIndices k (v.chunks.getD k 0) = _
      rw [List.getD_eq_getElem?_getD, hholds k hk', Option.getD_some]

/-- Every set bit has a 32-bit index, in a chunk that the enumerator looks at. -/
def EnumeratorFits (l : List Bool) : Prop :=
  ∀ i, bit l i = true → i < 2 ^ 32 ∧ i / chunkSizeInBits < numWords chunkSizeInBits l.length % 2 ^ 32

theorem mem_onesOf_word {l : List Bool} {k j : Nat} (hj : j ∈ onesOf (word 64 l k)) :
    j < 64 ∧ bit l (64 * k + j) = true := by
  obtain ⟨hlt, hbit⟩ := mem_onesOf.1 hj
  rw [getLsbD_word, decide_eq_true hlt, Bool.true_and] at hbit
  exact ⟨hlt, hbit⟩

theorem reported_eq_ones_iff (l : List Bool) : reported l = ones l ↔ EnumeratorFits l := by
  unfold EnumeratorFits chunkSizeInBits
  refine ⟨fun heq i hi => ?_, fun hfits => ?_⟩
  · have hmem : i ∈ reported l := heq ▸ mem_ones.2 hi
    obtain ⟨k, hk, hik⟩ := List.mem_flatMap.1 hmem
    obtain ⟨j, hj, hsum⟩ := List.mem_map.1 hik
    have hlt := (mem_onesOf_word hj).1
    have hk' := List.mem_range.1 hk
    change k * 64 % 2 ^ 32 + j = i at hsum
    omega
  · have hle : numWords 64 l.length % 2 ^ 32 ≤ numWords 64 l.length := Nat.mod_le _ _
    obtain ⟨d, hd⟩ := Nat.exists_eq_add_of_le hle
    have hbehind : ((List.range d).map (numWords 64 l.length % 2 ^ 32 + ·)).flatMap
        (fun k => (onesOf (word 64 l k)).map (64 * k + ·)) = [] := by
      refine List.flatMap_eq_nil_iff.2 fun k hk => ?_
      obtain ⟨i, -, rfl⟩ := List.mem_map.1 hk
      refine List.map_eq_nil_iff.2 (List.eq_nil_iff_forall_not_mem.2 fun j hj => ?_)
      obtain ⟨hlt, hbit⟩ := mem_onesOf_word hj
      have hindex := (hfits _ hbit).2
      omega
    have hrange : List.range (numWords 64 l.length) = List.range (numWords 64 l.length % 2 ^ 32) ++
        (List.range d).map (numWords 64 l.length % 2 ^ 32 + ·) := by
      conv_lhs => rw [hd]
      exact List.range_add
    rw [ones_eq_flatMap (by decide : 0 < 64), hrange, List.flatMap_append, hbehind, List.append_nil]
    unfold reported
    refine List.flatMap_congr fun k _ => List.map_congr_left fun j hj => ?_
    have hindex := (hfits _ (mem_onesOf_word hj).2).1
    unfold chunkSizeInBits
    omega

theorem Represents.reports_iff {v : ClusteredBitVector} {l : List Bool} (h : Represents v l)
    (behind : ChunkType) :
    SetBitEnumerator.Reports (v.enumerateSetBits behind) (ones l) ↔ EnumeratorFits l := by
  rw [← reported_eq_ones_iff]
  refine ⟨fun hreports => (h.reports behind).unique hreports, fun heq => ?_⟩
  rw [← heq]
  exact h.reports behind

end Reported

end ClusteredBitVector

end SwiftKStdlib.BitVector
