import SwiftKStdlib.Runtime.Enum

/-!
# Single-payload enums

* `SinglePayloadLayout`, `ExtraInhabitantWitnesses` : the payload type, `LawfulExtraInhabitants` : what is known of it;
* `initEnumMetadataSinglePayload` : the layout of the enum;
* `storeEnumTagSinglePayloadImpl`, `getEnumTagSinglePayloadImpl` : the case of a value in memory, with the little-endian
  branches of the source;
* `singlePayload_roundTrip` : every case is read back, inside the layout.
-/

namespace SwiftKStdlib.Runtime

open Lib (Memory)

/-! ## The payload type -/

/-- The flags of a type have 31 bits for the number of its extra inhabitants. -/
structure SinglePayloadLayout extends TypeLayout where
  numExtraInhabitants : Nat
  numExtraInhabitants_lt : numExtraInhabitants < 2 ^ 31

structure ExtraInhabitantWitnesses where
  getExtraInhabitantIndex : Memory → Int
  storeExtraInhabitant : Memory → Int → Memory

/-- The witnesses invert each other and work on the bytes of the payload; valid payloads have index -1. -/
structure LawfulExtraInhabitants (layout : SinglePayloadLayout) (valid : Memory → Prop)
    (witnesses : ExtraInhabitantWitnesses) : Prop where
  get_store (m : Memory) {c : Int} (h0 : 0 ≤ c) (hlt : c < layout.numExtraInhabitants) :
    witnesses.getExtraInhabitantIndex (witnesses.storeExtraInhabitant m c) = c
  store_frame (m : Memory) (c : Int) {i : Nat} (hi : layout.size ≤ i) : witnesses.storeExtraInhabitant m c i = m i
  get_congr {m m' : Memory} (h : ∀ i < layout.size, m i = m' i) :
    witnesses.getExtraInhabitantIndex m = witnesses.getExtraInhabitantIndex m'
  get_valid {m : Memory} (h : valid m) : witnesses.getExtraInhabitantIndex m = -1

/-! ## Layout -/

/-- The value witness table of the enum, and the number in its extra inhabitant flags if they are set. -/
def initEnumMetadataSinglePayload (payloadLayout : SinglePayloadLayout) (emptyCases : Nat) :
    ValueWitnessTable × Option Nat :=
  let payloadSize := payloadLayout.size
  let payloadNumExtraInhabitants := payloadLayout.numExtraInhabitants
  let (size, unusedExtraInhabitants) :=
    if emptyCases ≤ payloadNumExtraInhabitants then (payloadSize, payloadNumExtraInhabitants - emptyCases)
    else ((payloadSize + getNumTagBytes payloadSize (emptyCases - payloadNumExtraInhabitants) 1) % 2 ^ 64, 0)
  let align := payloadLayout.alignMask + 1
  let rawStride := (size + align - 1) % 2 ^ 64 / align * align
  ({ size, alignMask := payloadLayout.alignMask, isPOD := payloadLayout.isPOD,
     isBitwiseTakable := payloadLayout.isBitwiseTakable, extraInhabitants := decide (0 < unusedExtraInhabitants),
     enumWitnesses := true, inlineStorage := isValueInline size align,
     stride := if rawStride = 0 then 1 else rawStride },
    if 0 < unusedExtraInhabitants then some unusedExtraInhabitants else none)

/-! ## Tags -/

/-- An `unsigned` or `size_t` as an `int`. -/
def asInt (n : Nat) : Int := (BitVec.ofNat 32 n).toInt

/-- The counts for which `small_memcpy` does not crash. -/
def isSmallCount (count : Nat) (countMaybeThree : Bool) : Bool :=
  count = 1 || count = 2 || (countMaybeThree && count = 3) || count = 4

/-- `small_memcpy` to memory, of the low bytes of an `unsigned`; `none` is a crash. -/
def smallStore (value : Memory) (dest count source : Nat) (countMaybeThree : Bool) : Option Memory :=
  if isSmallCount count countMaybeThree then some (value.store dest count source) else none

/-- `small_memcpy` from memory, to an `unsigned` that is zero. -/
def smallLoad (value : Memory) (source count : Nat) (countMaybeThree : Bool) : Option Nat :=
  if isSmallCount count countMaybeThree then some (value.load source count) else none

def smallMemset (value : Memory) (dest : Nat) (byte : BitVec 8) (count : Nat) : Option Memory :=
  if isTagByteCount count then some (value.memset dest byte count) else none

section Tags

variable (emptyCases : Nat) (payload : SinglePayloadLayout) (witnesses : ExtraInhabitantWitnesses)

/-- The bytes after the payload. -/
def numExtraTagBytes : Nat :=
  if payload.numExtraInhabitants < emptyCases then
    getNumTagBytes payload.size ((emptyCases - payload.numExtraInhabitants) % 2 ^ 32) 1
  else 0

def getEnumTagSinglePayloadImpl (value : Memory) : Option Int := do
  let extraTagBits ←
    (if payload.numExtraInhabitants < emptyCases then
      smallLoad value payload.size (numExtraTagBytes emptyCases payload) false
    else some 0 : Option Nat)
  if 0 < extraTagBits then
    let caseIndexFromExtraTagBits :=
      if 4 ≤ payload.size then 0 else (extraTagBits - 1) <<< (payload.size * 8) % 2 ^ 32
    let numPayloadTagBytes := min 4 payload.size
    let caseIndexFromValue ←
      (if numPayloadTagBytes ≠ 0 then smallLoad value 0 numPayloadTagBytes true else some 0 : Option Nat)
    return asInt ((caseIndexFromExtraTagBits ||| caseIndexFromValue) + payload.numExtraInhabitants)
  else if 0 < payload.numExtraInhabitants then return witnesses.getExtraInhabitantIndex value
  else return -1

/-- The case index in its payload and extra tag parts. -/
def payloadAndTagIndex (caseIndex : Nat) : Nat × Nat :=
  if 4 ≤ payload.size then (caseIndex, 1)
  else
    let payloadBits := payload.size * 8
    (caseIndex &&& (1 <<< payloadBits - 1), (1 + caseIndex >>> payloadBits) % 2 ^ 32)

def storeEnumTagSinglePayloadImpl (value : Memory) (whichCase : Int) : Option Memory :=
  let numExtraTagBytes := numExtraTagBytes emptyCases payload
  if whichCase < asInt payload.numExtraInhabitants then do
    let value ←
      (if numExtraTagBytes ≠ 0 then smallMemset value payload.size 0 numExtraTagBytes else some value : Option Memory)
    if whichCase = -1 then return value
    return witnesses.storeExtraInhabitant value whichCase
  else do
    -- a `size_t`, then an `unsigned`
    let caseIndex := ((whichCase - payload.numExtraInhabitants) % 2 ^ 64 % 2 ^ 32).toNat
    let (payloadIndex, extraTagIndex) := payloadAndTagIndex payload caseIndex
    let numPayloadTagBytes := min 4 payload.size
    let value ←
      (if numPayloadTagBytes ≠ 0 then smallStore value 0 numPayloadTagBytes payloadIndex true else some value :
        Option Memory)
    let value := if 4 < payload.size then value.memset 4 0 (payload.size - 4) else value
    if numExtraTagBytes ≠ 0 then smallStore value payload.size numExtraTagBytes extraTagIndex false else some value

end Tags

/-! ## The parts of a case -/

theorem asInt_of_lt {n : Nat} (h : n < 2 ^ 31) : asInt n = n := by
  have hnat : (BitVec.ofNat 32 n).toNat = n := by rw [BitVec.toNat_ofNat, Nat.mod_eq_of_lt (by omega)]
  rw [asInt, BitVec.toInt_eq_toNat_of_lt (by omega), hnat]

theorem isSmallCount_of_isTagByteCount {count : Nat} (h : isTagByteCount count = true) (countMaybeThree : Bool) :
    isSmallCount count countMaybeThree = true := by
  simp only [isTagByteCount, Bool.or_eq_true, decide_eq_true_eq] at h
  rcases h with (rfl | rfl) | rfl <;> cases countMaybeThree <;> rfl

section Parts

variable {emptyCases : Nat} {payload : SinglePayloadLayout} (hcases : emptyCases < 2 ^ 31)
  (hextra : payload.numExtraInhabitants < emptyCases)
include hcases hextra

theorem two_le_numTags : 2 ≤ numTags payload.size (emptyCases - payload.numExtraInhabitants) 1 := by
  by_cases hsize : 4 ≤ payload.size
  · rw [numTags, if_pos (by omega), if_pos hsize]
    decide
  · have hpow : 2 ^ (8 * payload.size) ≤ 2 ^ 24 := Nat.pow_le_pow_right (by decide) (by omega)
    have hdiv : 1 ≤ (emptyCases - payload.numExtraInhabitants + 2 ^ (8 * payload.size) - 1) / 2 ^ (8 * payload.size) :=
      (Nat.one_le_div_iff (Nat.two_pow_pos _)).2 (by omega)
    rw [numTags_small (by omega) (by omega) (by omega) ⟨by omega, by omega⟩]
    omega

theorem numExtraTagBytes_eq : numExtraTagBytes emptyCases payload =
    getNumTagBytes payload.size (emptyCases - payload.numExtraInhabitants) 1 := by
  rw [numExtraTagBytes, if_pos hextra, Nat.mod_eq_of_lt (by omega)]

theorem isTagByteCount_numExtraTagBytes : isTagByteCount (numExtraTagBytes emptyCases payload) = true := by
  rw [numExtraTagBytes_eq hcases hextra]
  exact (getNumTagBytes_spec (two_le_numTags hcases hextra) (numTags_lt (by decide))).1

theorem payloadAndTagIndex_spec {e : Nat} (he : e < emptyCases - payload.numExtraInhabitants) :
    let parts := payloadAndTagIndex payload e
    0 < parts.2 ∧ parts.2 < 2 ^ (8 * numExtraTagBytes emptyCases payload) ∧
      (if 4 ≤ payload.size then 0 else (parts.2 - 1) <<< (payload.size * 8) % 2 ^ 32) |||
        parts.1 % 2 ^ (8 * min 4 payload.size) = e := by
  have htags := two_le_numTags hcases hextra
  have hfit := (getNumTagBytes_spec htags (numTags_lt (by decide))).2
  rw [numExtraTagBytes_eq hcases hextra]
  unfold payloadAndTagIndex
  by_cases hsize : 4 ≤ payload.size
  · simp only [if_pos hsize]
    refine ⟨by decide, by omega, ?_⟩
    rw [Nat.zero_or, Nat.min_eq_left hsize, Nat.mod_eq_of_lt (by omega)]
  · simp only [if_neg hsize]
    have hpow : 2 ^ (8 * payload.size) ≤ 2 ^ 24 := Nat.pow_le_pow_right (by decide) (by omega)
    have hpos := Nat.two_pow_pos (8 * payload.size)
    have hle := Nat.div_le_self e (2 ^ (8 * payload.size))
    have hdiv := div_lt_tags hpos he
    have hsmall : numTags payload.size (emptyCases - payload.numExtraInhabitants) 1 =
        1 + (emptyCases - payload.numExtraInhabitants + 2 ^ (8 * payload.size) - 1) / 2 ^ (8 * payload.size) :=
      numTags_small (Nat.lt_of_not_le hsize) (Nat.zero_lt_of_lt he) (by omega) ⟨by omega, by omega⟩
    rw [hsmall] at hfit
    have hpart : e / 2 ^ (8 * payload.size) * 2 ^ (8 * payload.size) ≤ e := Nat.div_mul_le_self _ _
    rw [Nat.mul_comm payload.size 8, Nat.shiftRight_eq_div_pow, Nat.one_shiftLeft, Nat.and_two_pow_sub_one_eq_mod,
      Nat.mod_eq_of_lt (by omega : 1 + e / 2 ^ (8 * payload.size) < 2 ^ 32)]
    refine ⟨Nat.add_pos_left Nat.one_pos _, by omega, ?_⟩
    rw [Nat.min_eq_right (by omega), Nat.mod_mod, Nat.add_sub_cancel_left, Nat.shiftLeft_eq,
      Nat.mod_eq_of_lt (hpart.trans_lt (by omega)), Nat.mul_comm,
      ← Nat.two_pow_add_eq_or_of_lt (Nat.mod_lt e hpos), Nat.div_add_mod]

end Parts

/-! ## Values in memory -/

/-- The memory after a case is stored that is no payload and no extra inhabitant. -/
def storedCase (value : Memory) (payloadSize numTagBytes payloadIndex extraTagIndex : Nat) : Memory :=
  let value := value.store 0 (min 4 payloadSize) payloadIndex
  let value := if 4 < payloadSize then value.memset 4 0 (payloadSize - 4) else value
  value.store payloadSize numTagBytes extraTagIndex

section Stored

variable (value : Memory) (payloadSize numTagBytes payloadIndex extraTagIndex : Nat)

theorem storedCase_of_le {i : Nat} (hi : payloadSize + numTagBytes ≤ i) :
    storedCase value payloadSize numTagBytes payloadIndex extraTagIndex i = value i := by
  unfold storedCase
  rw [Memory.store_of_not_mem (by omega)]
  split_ifs
  · rw [Memory.memset_of_not_mem (by omega), Memory.store_of_not_mem (by omega)]
  · exact Memory.store_of_not_mem (by omega)

theorem load_storedCase_tag :
    (storedCase value payloadSize numTagBytes payloadIndex extraTagIndex).load payloadSize numTagBytes =
      extraTagIndex % 2 ^ (8 * numTagBytes) :=
  Memory.load_store extraTagIndex

theorem load_storedCase_payload :
    (storedCase value payloadSize numTagBytes payloadIndex extraTagIndex).load 0 (min 4 payloadSize) =
      payloadIndex % 2 ^ (8 * min 4 payloadSize) := by
  rw [← Memory.load_store (m := value) (a := 0)]
  refine Memory.load_congr fun i _ hi => ?_
  unfold storedCase
  rw [Memory.store_of_not_mem (by omega)]
  split_ifs
  · exact Memory.memset_of_not_mem (by omega)
  · rfl

theorem store_zero (x : Nat) : value.store 0 0 x = value := by
  funext i
  exact Memory.store_of_not_mem (.inr (by omega))

end Stored

section Cases

variable {emptyCases : Nat} {payload : SinglePayloadLayout} {witnesses : ExtraInhabitantWitnesses}

theorem isSmallCount_payload (h : min 4 payload.size ≠ 0) : isSmallCount (min 4 payload.size) true = true := by
  have hcases : min 4 payload.size = 1 ∨ min 4 payload.size = 2 ∨ min 4 payload.size = 3 ∨ min 4 payload.size = 4 := by
    omega
  rcases hcases with h | h | h | h <;> rw [h] <;> rfl

theorem storePayloadIndex_eq (value : Memory) (payloadIndex : Nat) :
    (if min 4 payload.size ≠ 0 then smallStore value 0 (min 4 payload.size) payloadIndex true else some value) =
      some (value.store 0 (min 4 payload.size) payloadIndex) := by
  split_ifs with h
  · rw [smallStore, if_pos (isSmallCount_payload h)]
  · rw [not_not.1 h, store_zero]

theorem loadPayloadIndex_eq (value : Memory) :
    (if min 4 payload.size ≠ 0 then smallLoad value 0 (min 4 payload.size) true else some 0) =
      some (value.load 0 (min 4 payload.size)) := by
  split_ifs with h
  · rw [smallLoad, if_pos (isSmallCount_payload h)]
  · rw [not_not.1 h]
    rfl

theorem storeEnumTag_emptyCase (hcases : emptyCases < 2 ^ 31) {e : Nat}
    (he : payload.numExtraInhabitants + e < emptyCases) (value : Memory) :
    storeEnumTagSinglePayloadImpl emptyCases payload witnesses value (payload.numExtraInhabitants + e : Nat) =
      some (storedCase value payload.size (numExtraTagBytes emptyCases payload) (payloadAndTagIndex payload e).1
        (payloadAndTagIndex payload e).2) := by
  have hextra : payload.numExtraInhabitants < emptyCases := by omega
  have hcount := isTagByteCount_numExtraTagBytes hcases hextra
  have hne : numExtraTagBytes emptyCases payload ≠ 0 := by
    intro hzero
    rw [hzero] at hcount
    exact absurd hcount (by decide)
  have hindex : (((payload.numExtraInhabitants + e : Nat) : Int) - payload.numExtraInhabitants) % 2 ^ 64 % 2 ^ 32 = e := by
    omega
  unfold storeEnumTagSinglePayloadImpl
  dsimp only
  rw [asInt_of_lt payload.numExtraInhabitants_lt, if_neg (by omega), hindex, Int.toNat_natCast, storePayloadIndex_eq]
  simp only [Option.bind_eq_bind, Option.bind_some]
  rw [if_pos hne, smallStore, if_pos (isSmallCount_of_isTagByteCount hcount false)]
  rfl

theorem getEnumTag_storedCase (hcases : emptyCases < 2 ^ 31) {e : Nat}
    (he : payload.numExtraInhabitants + e < emptyCases) (value : Memory) :
    getEnumTagSinglePayloadImpl emptyCases payload witnesses
      (storedCase value payload.size (numExtraTagBytes emptyCases payload) (payloadAndTagIndex payload e).1
        (payloadAndTagIndex payload e).2) = some ((payload.numExtraInhabitants + e : Nat) : Int) := by
  have hextra : payload.numExtraInhabitants < emptyCases := by omega
  have hcount := isTagByteCount_numExtraTagBytes hcases hextra
  obtain ⟨hpos, hlt, hparts⟩ := payloadAndTagIndex_spec hcases hextra (by omega : e < _)
  unfold getEnumTagSinglePayloadImpl
  rw [if_pos hextra, smallLoad, if_pos (isSmallCount_of_isTagByteCount hcount false), load_storedCase_tag,
    Nat.mod_eq_of_lt hlt]
  simp only [Option.bind_eq_bind, Option.bind_some]
  rw [if_pos hpos, loadPayloadIndex_eq, load_storedCase_payload]
  simp only [Option.bind_some]
  rw [hparts, Nat.add_comm, asInt_of_lt (by omega)]
  rfl

/-- The memory after a payload or extra inhabitant case is stored. -/
def clearedCase (emptyCases : Nat) (payload : SinglePayloadLayout) (witnesses : ExtraInhabitantWitnesses)
    (value : Memory) (whichCase : Int) : Memory :=
  let value := value.memset payload.size 0 (numExtraTagBytes emptyCases payload)
  if whichCase = -1 then value else witnesses.storeExtraInhabitant value whichCase

theorem storeEnumTag_cleared (hcases : emptyCases < 2 ^ 31) {whichCase : Int}
    (h : whichCase < payload.numExtraInhabitants) (value : Memory) :
    storeEnumTagSinglePayloadImpl emptyCases payload witnesses value whichCase =
      some (clearedCase emptyCases payload witnesses value whichCase) := by
  have hset : (if numExtraTagBytes emptyCases payload ≠ 0 then
      smallMemset value payload.size 0 (numExtraTagBytes emptyCases payload) else some value : Option Memory) =
        some (value.memset payload.size 0 (numExtraTagBytes emptyCases payload)) := by
    split_ifs with hne
    · have hextra : payload.numExtraInhabitants < emptyCases := by
        by_contra hle
        exact hne (if_neg hle)
      rw [smallMemset, if_pos (isTagByteCount_numExtraTagBytes hcases hextra)]
    · rw [not_not.1 hne]
      congr
      funext i
      exact (Memory.memset_of_not_mem (by omega)).symm
  unfold storeEnumTagSinglePayloadImpl
  dsimp only
  rw [asInt_of_lt payload.numExtraInhabitants_lt, if_pos h, hset]
  simp only [Option.bind_eq_bind, Option.bind_some]
  unfold clearedCase
  split_ifs
  · rfl
  · rfl

variable {valid : Memory → Prop} (hlawful : LawfulExtraInhabitants payload valid witnesses)
include hlawful

theorem clearedCase_of_le (value : Memory) (whichCase : Int) {i : Nat} (hi : payload.size ≤ i) :
    clearedCase emptyCases payload witnesses value whichCase i =
      if i < payload.size + numExtraTagBytes emptyCases payload then 0 else value i := by
  have hset : value.memset payload.size 0 (numExtraTagBytes emptyCases payload) i =
      if i < payload.size + numExtraTagBytes emptyCases payload then 0 else value i := by
    unfold Memory.memset
    simp only [hi, true_and]
  unfold clearedCase
  split_ifs at hset ⊢ with hcase hlt
  · exact hset
  · exact hset
  · rw [hlawful.store_frame _ _ hi, hset]
  · rw [hlawful.store_frame _ _ hi, hset]

theorem getEnumTag_clearedCase (hcases : emptyCases < 2 ^ 31) (value : Memory) {whichCase : Int} (hlow : -1 ≤ whichCase)
    (h : whichCase < payload.numExtraInhabitants) (hvalid : whichCase = -1 → valid value) :
    getEnumTagSinglePayloadImpl emptyCases payload witnesses
      (clearedCase emptyCases payload witnesses value whichCase) = some whichCase := by
  have htag : (if payload.numExtraInhabitants < emptyCases then
      smallLoad (clearedCase emptyCases payload witnesses value whichCase) payload.size
        (numExtraTagBytes emptyCases payload) false else some 0 : Option Nat) = some 0 := by
    split_ifs with hextra
    · rw [smallLoad, if_pos (isSmallCount_of_isTagByteCount (isTagByteCount_numExtraTagBytes hcases hextra) false),
        Memory.load_eq_zero fun i hi hlt => (clearedCase_of_le hlawful value whichCase hi).trans (if_pos hlt)]
    · rfl
  unfold getEnumTagSinglePayloadImpl
  rw [htag]
  simp only [Option.bind_eq_bind, Option.bind_some]
  rw [if_neg (lt_irrefl 0)]
  by_cases hcase : whichCase = -1
  · have hpayload : witnesses.getExtraInhabitantIndex (clearedCase emptyCases payload witnesses value whichCase) = -1 := by
      rw [← hlawful.get_valid (hvalid hcase), clearedCase, if_pos hcase]
      exact hlawful.get_congr fun i hi => Memory.memset_of_not_mem (.inl hi)
    rw [hpayload, hcase, ite_self]
    rfl
  · have hextra : 0 < payload.numExtraInhabitants := by omega
    rw [if_pos hextra, clearedCase, if_neg hcase, hlawful.get_store _ (by omega) h]
    rfl

end Cases

/-! ## Round trip -/

theorem size_initEnumMetadataSinglePayload {emptyCases : Nat} (payload : SinglePayloadLayout)
    (hcases : emptyCases < 2 ^ 31) : (initEnumMetadataSinglePayload payload emptyCases).1.size =
      payload.size + numExtraTagBytes emptyCases payload := by
  unfold initEnumMetadataSinglePayload
  by_cases hextra : payload.numExtraInhabitants < emptyCases
  · have hsize := payload.size_lt
    have hcount := isTagByteCount_numExtraTagBytes hcases hextra
    rw [numExtraTagBytes_eq hcases hextra] at hcount ⊢
    simp only [isTagByteCount, Bool.or_eq_true, decide_eq_true_eq] at hcount
    simp only [if_neg (Nat.not_le.2 hextra)]
    exact Nat.mod_eq_of_lt (by omega)
  · rw [numExtraTagBytes, if_neg hextra]
    simp only [if_pos (Nat.le_of_not_lt hextra)]
    rfl

/-- Every case, over a valid payload if it is the payload case, is stored inside the layout of the enum and read back, and
the payload case leaves the payload. -/
theorem singlePayload_roundTrip (payload : SinglePayloadLayout) {valid : Memory → Prop}
    {witnesses : ExtraInhabitantWitnesses} (hlawful : LawfulExtraInhabitants payload valid witnesses) {emptyCases : Nat}
    (hcases : emptyCases < 2 ^ 31) (value : Memory) {whichCase : Int} (hlow : -1 ≤ whichCase)
    (hlt : whichCase < emptyCases) (hvalid : whichCase = -1 → valid value) :
    ∃ value', storeEnumTagSinglePayloadImpl emptyCases payload witnesses value whichCase = some value' ∧
      getEnumTagSinglePayloadImpl emptyCases payload witnesses value' = some whichCase ∧
      (whichCase = -1 → ∀ i < payload.size, value' i = value i) ∧
      ∀ i, (initEnumMetadataSinglePayload payload emptyCases).1.size ≤ i → value' i = value i := by
  rw [size_initEnumMetadataSinglePayload payload hcases]
  by_cases h : whichCase < payload.numExtraInhabitants
  · refine ⟨_, storeEnumTag_cleared hcases h value, getEnumTag_clearedCase hlawful hcases value hlow h hvalid,
      fun hcase i hi => ?_, fun i hi => ?_⟩
    · rw [clearedCase, if_pos hcase]
      exact Memory.memset_of_not_mem (.inl hi)
    · rw [clearedCase_of_le hlawful value whichCase (by omega), if_neg (by omega)]
  · obtain ⟨e, rfl⟩ : ∃ e : Nat, whichCase = (payload.numExtraInhabitants + e : Nat) :=
      ⟨(whichCase - payload.numExtraInhabitants).toNat, by omega⟩
    exact ⟨_, storeEnumTag_emptyCase hcases (by omega) value, getEnumTag_storedCase hcases (by omega) value,
      fun hcase => by omega, fun i hi => storedCase_of_le value _ _ _ _ hi⟩

/-- A payload of three bytes, whose last one is never 255, and case 300 of 400. -/
theorem singlePayload_roundTrip_threeBytes :
    let payload : SinglePayloadLayout := ⟨⟨3, 0, true, true, by decide⟩, 1, by decide⟩
    let witnesses : ExtraInhabitantWitnesses :=
      ⟨fun m => if m 2 = 255 then 0 else -1, fun m _ => Function.update m 2 255⟩
    ∃ value', storeEnumTagSinglePayloadImpl 400 payload witnesses (fun _ => 7) 300 = some value' ∧
      getEnumTagSinglePayloadImpl 400 payload witnesses value' = some 300 := by
  intro payload witnesses
  have hlawful : LawfulExtraInhabitants payload (fun m => m 2 ≠ 255) witnesses := by
    refine ⟨fun m c h0 hlt => ?_, fun m c i hi => ?_, fun h => ?_, fun h => if_neg h⟩
    · have hzero : c = 0 := by
        have hlt' : c < ((1 : Nat) : Int) := hlt
        omega
      have hlast : Function.update m 2 255 2 = 255 := Function.update_self 2 255 m
      rw [hzero]
      show (if Function.update m 2 255 2 = 255 then (0 : Int) else -1) = 0
      rw [if_pos hlast]
    · have hi' : 3 ≤ i := hi
      exact Function.update_of_ne (by omega) _ _
    · exact congrArg (fun b : BitVec 8 => if b = 255 then (0 : Int) else -1) (h 2 (by decide))
  obtain ⟨value', hstore, hget, -⟩ := singlePayload_roundTrip payload hlawful (by decide : 400 < 2 ^ 31) (fun _ => 7)
    (by decide : (-1 : Int) ≤ 300) (by decide) (fun h => absurd h (by decide))
  exact ⟨value', hstore, hget⟩

end SwiftKStdlib.Runtime
