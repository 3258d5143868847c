import SwiftKStdlib.BitVector.Runs

/-!
# Adding the low bits of any value

* `mixedChunks_supplies_prefix` : in the middle of a chunk, the bits behind those wanted are masked;
* `represents_add_of_offset` : there `add` takes the low bits of every value;
* `chunks_add_of_aligned` : at a chunk boundary it stores the value as it is;
* `Op.Masked` : no bit of the value gets behind the end; `reportsThroughout_iff` : the runs that `add`
  does not spoil.
-/

namespace SwiftKStdlib.BitVector

open Lib.BitWords

namespace ClusteredBitVector

theorem bit_lowBits_eq (n : Nat) (value : ChunkType) (i : Nat) :
    bit (lowBits n value) i = (decide (i < n) && value.getLsbD i) := by
  by_cases hi : i < n
  · unfold bit lowBits
    rw [List.getD_eq_getElem?_getD, List.getElem?_map, List.getElem?_range hi, decide_eq_true hi]
    rfl
  · rw [bit_of_le (by rw [length_lowBits]; omega), decide_eq_false hi, Bool.false_and]

theorem prefix_lowBits {n m : Nat} (h : n ≤ m) (value : ChunkType) : lowBits n value <+: lowBits m value := by
  rw [List.prefix_iff_eq_take, length_lowBits]
  unfold lowBits
  rw [← List.map_take, List.take_range, Nat.min_eq_left h]

theorem holds_value (value : ChunkType) : Holds 64 [value] (lowBits 64 value) := by
  intro k hk
  rw [length_lowBits] at hk
  obtain rfl : k = 0 := by unfold numWords at hk; omega
  rw [List.getElem?_cons_zero, Option.some.injEq]
  refine eq_word fun j hj => ?_
  rw [bit_lowBits_eq, Nat.mul_zero, Nat.zero_add, decide_eq_true hj, Bool.true_and]

/-! ## In the middle of a chunk -/

theorem prefix_take_eq {m l : List Bool} (h : m <+: l) {w : Nat} (hw : w ≤ m.length) :
    l.take w = m.take w := by
  obtain ⟨rest, rfl⟩ := h
  exact List.take_append_of_le_length hw

theorem mixedChunks_supplies_prefix :
    Supplies mixedChunks fun m s => ∃ l, m <+: l ∧ Mixes l s := by
  intro m s ⟨l, hstart, hmixes⟩ hnil
  have hpos := List.length_pos_of_ne_nil hnil
  have hle := hstart.length_le
  obtain ⟨hword, hrest⟩ := mixedChunks_spec hmixes (w := min m.length 64) (by omega) (by omega) (by omega)
  refine ⟨hword.trans (eq_word fun j hj => ?_), _, hstart.drop _, hrest⟩
  rw [prefix_take_eq hstart (Nat.min_le_left _ _), getLsbD_word, bit_take, decide_eq_true hj,
    Bool.true_and, Nat.mul_zero, Nat.zero_add]
  by_cases hjm : j < m.length
  · have hjw : j < min m.length 64 := by omega
    rw [decide_eq_true hjw, Bool.true_and]
  · rw [bit_of_le (Nat.le_of_not_lt hjm), Bool.and_false]

theorem appendChunksReserved_of_prefix {v : ClusteredBitVector} {l m whole : List Bool}
    {cs : List ChunkType} (hl : Holds 64 v.chunks l) (hlen : v.lengthInBits = l.length)
    (hwhole : Holds 64 cs whole) (hstart : m <+: whole) (hnil : m ≠ []) (hmod : l.length % 64 ≠ 0)
    (hfit : numWords 64 (l.length + m.length) ≤ v.chunks.length)
    (h63 : l.length + m.length < 2 ^ 63) :
    Appends v (v.appendChunksReserved m.length cs) (l ++ m) := by
  have hpos := List.length_pos_of_ne_nil hnil
  have hle := hstart.length_le
  have hmixes : Mixes whole ⟨0, 0, cs⟩ :=
    ⟨Nat.zero_lt_succ _, (word_eq_zero (Nat.zero_le _)).symm, by simpa using hwhole⟩
  rw [← List.length_append] at hfit h63
  unfold appendChunksReserved chunkSizeInBits
  rw [hlen, if_neg hmod]
  refine appendReserved_spec mixedChunks_supplies_prefix hl hlen hnil (fun h => absurd h hmod)
    (fun _ => ?_) hfit h63
  obtain ⟨hword, hrest⟩ := mixedChunks_spec hmixes
    (w := min m.length (64 - l.length % 64)) (by omega) (by omega) (by omega)
  rw [prefix_take_eq hstart (Nat.min_le_left _ _)] at hword
  exact ⟨hword, whole.drop _, hstart.drop _, hrest⟩

section Add

variable {v : ClusteredBitVector} {l : List Bool} (h : Represents v l) (fresh : Nat → ChunkType)
include h

theorem represents_add_of_offset {n : Nat} (hn : n ≤ 64) (value : ChunkType) (hmod : l.length % 64 ≠ 0)
    (h63 : l.length + n < 2 ^ 63) : Represents (v.add fresh n value) (l ++ lowBits n value) := by
  by_cases hzero : value = 0
  · refine h.add fresh hn ?_ h63
    rw [hzero]
    exact Nat.two_pow_pos n
  have hlen := length_lowBits n value
  unfold ClusteredBitVector.add
  split_ifs with hn0 hclear
  · rw [List.length_eq_zero_iff.1 (hlen.trans hn0), List.append_nil]
    exact h
  · exact absurd (eq_of_beq (Bool.and_eq_true_iff.1 hclear).1) hzero
  · have hnil : lowBits n value ≠ [] := List.ne_nil_of_length_pos (by omega)
    have hroom := h.room_reserveExtra fresh h63
    have happend := appendChunksReserved_of_prefix hroom.holds hroom.length (holds_value value)
      (prefix_lowBits hn value) hnil hmod (by rw [hlen]; exact hroom.capacity_le) (by rw [hlen]; exact h63)
    rw [hlen] at happend
    exact happend.represents hroom hnil

/-! ## At a chunk boundary -/

theorem chunks_add_of_aligned {n : Nat} (hn : n ≤ 64) {value : ChunkType} (hvalue : 2 ^ n ≤ value.toNat)
    (hn0 : n ≠ 0) (hmod : l.length % 64 = 0) (h63 : l.length + n < 2 ^ 63) :
    (v.add fresh n value).chunks[l.length / 64]? = some value ∧
      (v.add fresh n value).lengthInBits = l.length + n := by
  have hne : (value == 0) = false := by
    refine beq_eq_false_iff_ne.2 fun hzero => ?_
    rw [hzero] at hvalue
    exact absurd hvalue (Nat.not_le.2 (Nat.two_pow_pos n))
  have hroom := h.room_reserveExtra fresh h63
  have hcapacity := hroom.capacity_le
  unfold ClusteredBitVector.add
  rw [if_neg hn0, hne, Bool.false_and, if_neg Bool.false_ne_true]
  unfold appendChunksReserved appendReserved chunkSizeInBits
  simp only [hroom.length, hmod, if_true]
  refine ⟨?_, Nat.mod_eq_of_lt h63⟩
  rw [writeChunks_pos _ _ _ hn0, Nat.min_eq_left hn, Nat.sub_self, writeChunks_zero]
  refine List.getElem?_set_self ?_
  unfold numWords at hcapacity
  omega

def Masks (length n : Nat) (value : ChunkType) : Prop :=
  n = 0 ∨ length % 64 ≠ 0 ∨ value.toNat < 2 ^ n

omit h in
instance (length n : Nat) (value : ChunkType) : Decidable (Masks length n value) :=
  inferInstanceAs (Decidable (n = 0 ∨ length % 64 ≠ 0 ∨ value.toNat < 2 ^ n))

theorem represents_add_of_masks {n : Nat} (hn : n ≤ 64) {value : ChunkType}
    (hmasks : Masks l.length n value) (h63 : l.length + n < 2 ^ 63) :
    Represents (v.add fresh n value) (l ++ lowBits n value) := by
  rcases hmasks with rfl | hmod | hvalue
  · have hnil : lowBits 0 value = [] := rfl
    rw [hnil, List.append_nil]
    exact h
  · exact represents_add_of_offset h fresh hn value hmod h63
  · exact h.add fresh hn hvalue h63

theorem not_tailClear_add {n : Nat} (hn : n ≤ 64) {value : ChunkType} (hmasks : ¬ Masks l.length n value)
    (h63 : l.length + n < 2 ^ 63) : ¬ TailClear (v.add fresh n value) := by
  intro hclear
  simp only [Masks, not_or, not_not, not_lt] at hmasks
  obtain ⟨hn0, hmod, hvalue⟩ := hmasks
  obtain ⟨hchunk, hlength⟩ := chunks_add_of_aligned h fresh hn hvalue hn0 hmod h63
  obtain ⟨j, hj, hbit⟩ := Nat.exists_ge_and_testBit_of_ge_two_pow hvalue
  have htail := hclear (l.length / 64) (by
    unfold getLengthInChunks getNumChunksForBits chunkSizeInBits
    omega) j (by
    unfold size chunkSizeInBits
    omega)
  rw [List.getD_eq_getElem?_getD, hchunk, Option.getD_some] at htail
  exact Bool.false_ne_true (htail.symm.trans hbit)

end Add

/-! ## Runs -/

namespace Op

/-- What the operation asserts; `add` takes any value. -/
def Asserts (env : Nat → List Bool) : Op → Prop
  | add _ numBits _ => numBits ≤ 64
  | op => op.Allowed env

instance (env : Nat → List Bool) (op : Op) : Decidable (op.Asserts env) :=
  match op with
  | add _ numBits _ => inferInstanceAs (Decidable (numBits ≤ 64))
  | append dst src => inferInstanceAs (Decidable ((append dst src).Allowed env))
  | appendMoved dst src => inferInstanceAs (Decidable ((appendMoved dst src).Allowed env))
  | setBit dst i => inferInstanceAs (Decidable ((setBit dst i).Allowed env))
  | clearBit dst i => inferInstanceAs (Decidable ((clearBit dst i).Allowed env))
  | flipBit dst i => inferInstanceAs (Decidable ((flipBit dst i).Allowed env))
  | unite dst src => inferInstanceAs (Decidable ((unite dst src).Allowed env))
  | intersect dst src => inferInstanceAs (Decidable ((intersect dst src).Allowed env))
  | moveAssign dst src => inferInstanceAs (Decidable ((moveAssign dst src).Allowed env))
  | appendClearBits _ _ | appendSetBits _ _ | flipAll _ | clear _ | copy _ _ | assign _ _ =>
    inferInstanceAs (Decidable True)

/-- An `add` leaves out the bits that are not wanted. -/
def Masked (env : Nat → List Bool) : Op → Prop
  | add dst numBits value => Masks (env dst).length numBits value
  | _ => True

instance (env : Nat → List Bool) (op : Op) : Decidable (op.Masked env) :=
  match op with
  | add dst numBits value => inferInstanceAs (Decidable (Masks (env dst).length numBits value))
  | append _ _ | appendMoved _ _ | appendClearBits _ _ | appendSetBits _ _ | setBit _ _ | clearBit _ _
  | flipBit _ _ | flipAll _ | clear _ | unite _ _ | intersect _ _ | copy _ _ | assign _ _
  | moveAssign _ _ => inferInstanceAs (Decidable True)

end Op

/-- Every vector is one of the list of the same name, and reports what that says. -/
def ReportsAll (env : Nat → ClusteredBitVector) (lists : Nat → List Bool) : Prop :=
  RepresentsAll env lists ∧
    ∀ x, Tells (env x) (lists x) ∧ ∀ y, (env x).equals (env y) = true ↔ lists x = lists y

theorem RepresentsAll.reportsAll {env : Nat → ClusteredBitVector} {lists : Nat → List Bool}
    (h : RepresentsAll env lists) : ReportsAll env lists :=
  ⟨h, fun x => ⟨(h x).tells, fun y => (h x).equals (h y)⟩⟩

/-- After each operation of the run, every vector reports what its list says. -/
def Run.ReportsThroughout : Run → (Nat → ClusteredBitVector) → (Nat → List Bool) → Prop
  | [], _, _ => True
  | step :: run, env, lists =>
    ReportsAll (step.1.run step.2 env) (step.1.runLists lists) ∧
      Run.ReportsThroughout run (step.1.run step.2 env) (step.1.runLists lists)

section Steps

variable {env : Nat → ClusteredBitVector} {lists : Nat → List Bool} (h : RepresentsAll env lists)
include h

theorem RepresentsAll.step_of_masked (fresh : Nat → ChunkType) {op : Op} (hop : op.Asserts lists)
    (hfits : op.Fits lists) (hmasked : op.Masked lists) :
    RepresentsAll (op.run fresh env) (op.runLists lists) := by
  cases op with
  | add dst numBits value =>
    exact h.update dst (represents_add_of_masks (h dst) fresh hop hmasked hfits)
  | _ => exact h.step fresh hop hfits

theorem RepresentsAll.masked_of_step (fresh : Nat → ChunkType) {op : Op} (hop : op.Asserts lists)
    (hfits : op.Fits lists) (hstep : RepresentsAll (op.run fresh env) (op.runLists lists)) :
    op.Masked lists := by
  cases op with
  | add dst numBits value =>
    by_contra hmasks
    refine not_tailClear_add (h dst) fresh hop hmasks hfits ?_
    have hdst := hstep dst
    simp only [Op.run, Op.runLists, Function.update_self] at hdst
    exact hdst.tailClear
  | _ => trivial

end Steps

theorem Run.reportsThroughout_iff_masked {env : Nat → ClusteredBitVector} {lists : Nat → List Bool}
    (h : RepresentsAll env lists) (run : Run) (hasserts : run.Each (fun ls op => op.Asserts ls) lists)
    (hfits : run.Each (fun ls op => op.Fits ls) lists) :
    run.ReportsThroughout env lists ↔ run.Each (fun ls op => op.Masked ls) lists := by
  induction run generalizing env lists with
  | nil => exact Iff.rfl
  | cons step run ih =>
    refine ⟨fun ⟨hstep, hrest⟩ => ?_, fun ⟨hmasked, hrest⟩ => ?_⟩
    · refine ⟨h.masked_of_step step.2 hasserts.1 hfits.1 hstep.1, ?_⟩
      exact (ih hstep.1 hasserts.2 hfits.2).1 hrest
    · have hstep := h.step_of_masked step.2 hasserts.1 hfits.1 hmasked
      exact ⟨hstep.reportsAll, (ih hstep hasserts.2 hfits.2).2 hrest⟩

/-- A run from empty vectors appends the low bits, and keeps what is behind them clear, exactly when
each `add` at a chunk boundary is given a value with no other bits. -/
theorem reportsThroughout_iff (run : Run) (hasserts : run.Each (fun ls op => op.Asserts ls) fun _ => [])
    (hfits : run.Each (fun ls op => op.Fits ls) fun _ => []) :
    run.ReportsThroughout (fun _ => empty) (fun _ => []) ↔
      run.Each (fun ls op => op.Masked ls) fun _ => [] :=
  Run.reportsThroughout_iff_masked (fun _ => represents_empty) run hasserts hfits

/-- Values with bits that are not wanted, in the middle of a chunk and across a boundary. -/
def strayRun : Run :=
  [(.add 0 3 5, fun _ => 7), (.add 0 2 14, fun _ => 7), (.add 0 62 (BitVec.allOnes 64), fun _ => 7)]

theorem reportsThroughout_iff_strayRun :
    strayRun.ReportsThroughout (fun _ => empty) (fun _ => []) ↔
      strayRun.Each (fun ls op => op.Masked ls) fun _ => [] :=
  reportsThroughout_iff strayRun (by decide) (by decide)

/-- An empty vector is asked to add one bit of `2`: its second bit is kept behind the end. -/
theorem not_reportsThroughout_add_two :
    ¬ ∀ run : Run, run.Each (fun ls op => op.Asserts ls) (fun _ => []) →
      run.Each (fun ls op => op.Fits ls) (fun _ => []) →
      run.ReportsThroughout (fun _ => empty) (fun _ => []) := by
  intro hclaim
  have hrun := hclaim [(.add 0 1 2, fun _ => 0)] (by decide) (by decide)
  rw [Run.reportsThroughout_iff_masked (fun _ => represents_empty) _ (by decide) (by decide)] at hrun
  exact absurd hrun (by decide)

end ClusteredBitVector

end SwiftKStdlib.BitVector
