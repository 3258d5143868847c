import Mathlib.Tactic
import SwiftKStdlib.Lib.Bytes

/-!
# Multi-payload enums

* `getNumTagBytes`, `initEnumMetadataMultiPayload` : the layout of a dynamically laid out enum;
* `storeEnumTagMultiPayload`, `getEnumCaseMultiPayload` : the case of a value in memory, with the
  little-endian branches of the source;
* `CasesRoundTrip` : every case is read back, payloads stay, empty cases differ;
* `casesRoundTrip_iff` : the layouts for which they do.
-/

namespace SwiftKStdlib.Runtime

open Lib (Memory)

/-! ## Layout -/

/-- The parts of a `TypeLayout` that an enum's layout reads; sizes are `Int`s in the language. -/
structure TypeLayout where
  size : Nat
  alignMask : Nat
  isPOD : Bool
  isBitwiseTakable : Bool
  size_lt : size < 2 ^ 63

/-- The enum's nominal type descriptor: 24 bits of payload cases, 32 bits of cases. -/
structure EnumDescription where
  numPayloadCases : Nat
  numEmptyCases : Nat
  numPayloadCases_lt : numPayloadCases < 2 ^ 24
  numCases_lt : numPayloadCases + numEmptyCases < 2 ^ 32

structure ValueWitnessTable where
  size : Nat
  alignMask : Nat
  isPOD : Bool
  isBitwiseTakable : Bool
  extraInhabitants : Bool
  enumWitnesses : Bool
  inlineStorage : Bool
  stride : Nat

structure EnumMetadata where
  description : EnumDescription
  payloadSize : Nat
  valueWitnesses : ValueWitnessTable

def isValueInline (size alignment : Nat) : Bool := size ≤ 24 && alignment ≤ 8

def getNumTagBytes (size emptyCases payloadCases : Nat) : Nat :=
  let numTags :=
    if 0 < emptyCases then
      if 4 ≤ size then (payloadCases + 1) % 2 ^ 32
      else
        let bits := size * 8
        let casesPerTagBitValue := 1 <<< bits
        (payloadCases + ((emptyCases + (casesPerTagBitValue - 1)) % 2 ^ 32) >>> bits) % 2 ^ 32
    else payloadCases
  if numTags ≤ 1 then 0 else if numTags < 256 then 1 else if numTags < 65536 then 2 else 4

def maxPayloadSize (payloadLayouts : List TypeLayout) : Nat :=
  payloadLayouts.foldl (fun payloadSize payloadLayout => max payloadSize payloadLayout.size) 0

def initEnumMetadataMultiPayload (description : EnumDescription)
    (payloadLayouts : List TypeLayout) : EnumMetadata :=
  let payloadSize := maxPayloadSize payloadLayouts
  let alignMask := payloadLayouts.foldl (fun alignMask l => alignMask ||| l.alignMask) 0
  let isPOD := payloadLayouts.foldl (fun isPOD l => isPOD && l.isPOD) true
  let isBT := payloadLayouts.foldl (fun isBT l => isBT && l.isBitwiseTakable) true
  -- an `unsigned`
  let totalSize := (payloadSize +
    getNumTagBytes payloadSize description.numEmptyCases payloadLayouts.length) % 2 ^ 32
  let rawStride := (totalSize + alignMask) % 2 ^ 64 &&& (alignMask ^^^ (2 ^ 64 - 1))
  { description, payloadSize,
    valueWitnesses :=
      { size := totalSize, alignMask, isPOD, isBitwiseTakable := isBT, extraInhabitants := false,
        enumWitnesses := true, inlineStorage := isValueInline totalSize (alignMask + 1),
        stride := if rawStride = 0 then 1 else rawStride } }

structure MultiPayloadLayout where
  payloadSize : Nat
  numTagBytes : Nat
  deriving DecidableEq

def getMultiPayloadLayout (enumType : EnumMetadata) : MultiPayloadLayout :=
  let payloadSize := enumType.payloadSize
  let totalSize := enumType.valueWitnesses.size
  ⟨payloadSize, (totalSize + 2 ^ 64 - payloadSize) % 2 ^ 64⟩

/-! ## Tags -/

/-- The counts for which `small_memcpy` does not crash. -/
def isTagByteCount (count : Nat) : Bool := count = 1 || count = 2 || count = 4

def storeMultiPayloadTag (value : Memory) (layout : MultiPayloadLayout) (tag : Nat) :
    Option Memory :=
  if isTagByteCount layout.numTagBytes then
    some (value.store layout.payloadSize layout.numTagBytes tag)
  else none

def storeMultiPayloadValue (value : Memory) (layout : MultiPayloadLayout) (payloadValue : Nat) :
    Memory :=
  let bytes := value.store 0 (min layout.payloadSize 4) payloadValue
  if 4 < layout.payloadSize then bytes.memset 4 0 (layout.payloadSize - 4) else bytes

def loadMultiPayloadTag (value : Memory) (layout : MultiPayloadLayout) : Option Nat :=
  if isTagByteCount layout.numTagBytes then
    some (value.load layout.payloadSize layout.numTagBytes)
  else none

def loadMultiPayloadValue (value : Memory) (layout : MultiPayloadLayout) : Nat :=
  value.load 0 (min layout.payloadSize 4)

/-- `1U << n`, undefined from the width on. -/
def oneShiftedBy (n : Nat) : Option Nat := if n < 32 then some (2 ^ n) else none

/-- `none` is a crash or undefined behaviour. -/
def storeEnumTagMultiPayload (value : Memory) (enumType : EnumMetadata) (whichCase : Nat) :
    Option Memory := do
  let layout := getMultiPayloadLayout enumType
  let numPayloads := enumType.description.numPayloadCases
  if whichCase < numPayloads then
    storeMultiPayloadTag value layout whichCase
  else
    let whichEmptyCase := whichCase - numPayloads
    if 4 ≤ layout.payloadSize then
      let value ← storeMultiPayloadTag value layout numPayloads
      some (storeMultiPayloadValue value layout whichEmptyCase)
    else
      let numPayloadBits := layout.payloadSize * 8
      let whichTag := (numPayloads + (whichEmptyCase >>> numPayloadBits)) % 2 ^ 32
      -- the mask has `numPayloads` bits
      let mask ← oneShiftedBy numPayloads
      let whichPayloadValue := whichEmptyCase &&& (mask - 1)
      let value ← storeMultiPayloadTag value layout whichTag
      some (storeMultiPayloadValue value layout whichPayloadValue)

def getEnumCaseMultiPayload (value : Memory) (enumType : EnumMetadata) : Option Nat := do
  let layout := getMultiPayloadLayout enumType
  let numPayloads := enumType.description.numPayloadCases
  let tag ← loadMultiPayloadTag value layout
  if tag < numPayloads then
    some tag
  else
    let payloadValue := loadMultiPayloadValue value layout
    if 4 ≤ layout.payloadSize then
      some ((numPayloads + payloadValue) % 2 ^ 32)
    else
      let numPayloadBits := layout.payloadSize * 8
      some (((payloadValue ||| ((tag - numPayloads) <<< numPayloadBits) % 2 ^ 32) + numPayloads) %
        2 ^ 32)

/-! ## Tag bytes -/

/-- The tags a layout uses. -/
def numTags (size emptyCases payloadCases : Nat) : Nat :=
  if 0 < emptyCases then
    if 4 ≤ size then (payloadCases + 1) % 2 ^ 32
    else (payloadCases +
      ((emptyCases + (1 <<< (size * 8) - 1)) % 2 ^ 32) >>> (size * 8)) % 2 ^ 32
  else payloadCases

theorem getNumTagBytes_eq (size emptyCases payloadCases : Nat) :
    getNumTagBytes size emptyCases payloadCases =
      if numTags size emptyCases payloadCases ≤ 1 then 0
      else if numTags size emptyCases payloadCases < 256 then 1
      else if numTags size emptyCases payloadCases < 65536 then 2 else 4 := rfl

theorem getNumTagBytes_spec {size emptyCases payloadCases : Nat}
    (htags : 2 ≤ numTags size emptyCases payloadCases)
    (hlt : numTags size emptyCases payloadCases < 2 ^ 32) :
    isTagByteCount (getNumTagBytes size emptyCases payloadCases) = true ∧
      numTags size emptyCases payloadCases ≤
        2 ^ (8 * getNumTagBytes size emptyCases payloadCases) := by
  rw [getNumTagBytes_eq, if_neg (by omega)]
  split_ifs with h256 h65536
  · exact ⟨rfl, by omega⟩
  · exact ⟨rfl, by omega⟩
  · exact ⟨rfl, by omega⟩

theorem numTags_lt {size emptyCases payloadCases : Nat} (h : payloadCases < 2 ^ 32) :
    numTags size emptyCases payloadCases < 2 ^ 32 := by
  unfold numTags
  split_ifs
  · exact Nat.mod_lt _ (by decide)
  · exact Nat.mod_lt _ (by decide)
  · exact h

theorem numTags_small {size emptyCases payloadCases : Nat} (hsize : size < 4)
    (hempty : 0 < emptyCases) (hfit : emptyCases + 2 ^ (8 * size) ≤ 2 ^ 32)
    (hcases : payloadCases < 2 ^ 24 ∧ payloadCases + emptyCases < 2 ^ 32) :
    numTags size emptyCases payloadCases =
      payloadCases + (emptyCases + 2 ^ (8 * size) - 1) / 2 ^ (8 * size) := by
  have hpos := Nat.two_pow_pos (8 * size)
  unfold numTags
  rw [if_pos hempty, if_neg (by omega), Nat.mul_comm size 8, Nat.shiftLeft_eq, Nat.one_mul,
    Nat.shiftRight_eq_div_pow, Nat.mod_eq_of_lt (b := 2 ^ 32) (by omega : _ + (_ - 1) < _),
    Nat.add_sub_assoc hpos]
  apply Nat.mod_eq_of_lt
  have hcases' : size = 0 ∨ size = 1 ∨ size = 2 ∨ size = 3 := by omega
  rcases hcases' with rfl | rfl | rfl | rfl
  · simp only [Nat.mul_zero, Nat.pow_zero, Nat.div_one]
    omega
  · omega
  · omega
  · omega

/-! ## Reading back -/

section ReadBack

variable (value : Memory) {layout : MultiPayloadLayout} {payloadValue : Nat}

theorem loadMultiPayloadTag_store (tag : Nat) (hcount : isTagByteCount layout.numTagBytes = true) :
    loadMultiPayloadTag (value.store layout.payloadSize layout.numTagBytes tag) layout =
      some (tag % 2 ^ (8 * layout.numTagBytes)) := by
  unfold loadMultiPayloadTag
  rw [if_pos hcount, Memory.load_store]

theorem storeMultiPayloadValue_of_le {value : Memory} {i : Nat} (h : layout.payloadSize ≤ i) :
    storeMultiPayloadValue value layout payloadValue i = value i := by
  unfold storeMultiPayloadValue
  split_ifs with hsize
  · rw [Memory.memset_of_not_mem (by omega), Memory.store_of_not_mem (by omega)]
  · exact Memory.store_of_not_mem (by omega)

theorem loadMultiPayloadTag_storeMultiPayloadValue :
    loadMultiPayloadTag (storeMultiPayloadValue value layout payloadValue) layout =
      loadMultiPayloadTag value layout := by
  unfold loadMultiPayloadTag
  rw [Memory.load_congr fun i hi _ => storeMultiPayloadValue_of_le hi]

theorem loadMultiPayloadValue_storeMultiPayloadValue :
    loadMultiPayloadValue (storeMultiPayloadValue value layout payloadValue) layout =
      payloadValue % 2 ^ (8 * min layout.payloadSize 4) := by
  unfold loadMultiPayloadValue
  rw [← Memory.load_store (m := value) (a := 0)]
  refine Memory.load_congr fun i _ hi => ?_
  unfold storeMultiPayloadValue
  split_ifs with hsize
  · exact Memory.memset_of_not_mem (by omega)
  · rfl

end ReadBack

section Cases

variable {enumType : EnumMetadata} {payloadSize numTagBytes : Nat}
  (hlayout : getMultiPayloadLayout enumType = ⟨payloadSize, numTagBytes⟩)
  (hcount : isTagByteCount numTagBytes = true)
include hlayout hcount

theorem storeEnumTag_payload (value : Memory) {c : Nat}
    (hc : c < enumType.description.numPayloadCases) :
    storeEnumTagMultiPayload value enumType c = some (value.store payloadSize numTagBytes c) := by
  unfold storeEnumTagMultiPayload storeMultiPayloadTag
  simp only [hlayout]
  rw [if_pos hc, if_pos hcount]

theorem getEnumCase_store_payload (value : Memory) {c : Nat}
    (hc : c < enumType.description.numPayloadCases) (hfit : c < 2 ^ (8 * numTagBytes)) :
    getEnumCaseMultiPayload (value.store payloadSize numTagBytes c) enumType = some c := by
  have hload : loadMultiPayloadTag (value.store payloadSize numTagBytes c)
      ⟨payloadSize, numTagBytes⟩ = some (c % 2 ^ (8 * numTagBytes)) :=
    loadMultiPayloadTag_store value c hcount
  unfold getEnumCaseMultiPayload
  simp only [hlayout]
  rw [hload, Nat.mod_eq_of_lt hfit]
  exact if_pos hc

theorem storeEnumTag_large (value : Memory) {c : Nat}
    (hc : enumType.description.numPayloadCases ≤ c) (hsize : 4 ≤ payloadSize) :
    storeEnumTagMultiPayload value enumType c =
      some (storeMultiPayloadValue
        (value.store payloadSize numTagBytes enumType.description.numPayloadCases)
        ⟨payloadSize, numTagBytes⟩ (c - enumType.description.numPayloadCases)) := by
  unfold storeEnumTagMultiPayload storeMultiPayloadTag
  simp only [hlayout]
  rw [if_neg (Nat.not_lt.2 hc), if_pos hsize, if_pos hcount]
  rfl

theorem getEnumCase_store_large (value : Memory) {c : Nat}
    (hc : enumType.description.numPayloadCases ≤ c) (hlt : c < 2 ^ 32) (hsize : 4 ≤ payloadSize)
    (hfit : enumType.description.numPayloadCases < 2 ^ (8 * numTagBytes)) :
    getEnumCaseMultiPayload (storeMultiPayloadValue
      (value.store payloadSize numTagBytes enumType.description.numPayloadCases)
      ⟨payloadSize, numTagBytes⟩ (c - enumType.description.numPayloadCases)) enumType = some c := by
  have hload : loadMultiPayloadTag
      (value.store payloadSize numTagBytes enumType.description.numPayloadCases)
      ⟨payloadSize, numTagBytes⟩ =
        some (enumType.description.numPayloadCases % 2 ^ (8 * numTagBytes)) :=
    loadMultiPayloadTag_store value _ hcount
  unfold getEnumCaseMultiPayload
  simp only [hlayout]
  rw [loadMultiPayloadTag_storeMultiPayloadValue, hload, loadMultiPayloadValue_storeMultiPayloadValue,
    Nat.mod_eq_of_lt hfit, Nat.min_eq_right hsize, Nat.mod_eq_of_lt (by omega)]
  simp only [Option.bind_eq_bind, Option.bind_some, Nat.lt_irrefl, if_false]
  rw [if_pos hsize, Nat.mod_eq_of_lt (by omega), Nat.add_sub_cancel' hc]

/-- The tag that is read back for an empty case whose payload area is smaller than a word. -/
def smallTag (payloadSize numTagBytes numPayloads whichEmptyCase : Nat) : Nat :=
  (numPayloads + whichEmptyCase / 2 ^ (8 * payloadSize)) % 2 ^ 32 % 2 ^ (8 * numTagBytes)

theorem storeEnumTag_small (value : Memory) {c : Nat}
    (hc : enumType.description.numPayloadCases ≤ c) (hsize : payloadSize < 4) :
    storeEnumTagMultiPayload value enumType c =
      if enumType.description.numPayloadCases < 32 then
        some (storeMultiPayloadValue
          (value.store payloadSize numTagBytes ((enumType.description.numPayloadCases +
            (c - enumType.description.numPayloadCases) / 2 ^ (8 * payloadSize)) % 2 ^ 32))
          ⟨payloadSize, numTagBytes⟩ ((c - enumType.description.numPayloadCases) %
            2 ^ enumType.description.numPayloadCases))
      else none := by
  unfold storeEnumTagMultiPayload storeMultiPayloadTag oneShiftedBy
  simp only [hlayout]
  rw [if_neg (Nat.not_lt.2 hc), if_neg (Nat.not_le.2 hsize), if_pos hcount]
  split_ifs with hmask
  · rw [Nat.shiftRight_eq_div_pow, Nat.mul_comm payloadSize 8, 
      ← Nat.and_two_pow_sub_one_eq_mod (c - _)]
    rfl
  · rfl

theorem getEnumCase_store_small (value : Memory) {e : Nat} (hsize : payloadSize < 4) :
    getEnumCaseMultiPayload (storeMultiPayloadValue
        (value.store payloadSize numTagBytes ((enumType.description.numPayloadCases +
          e / 2 ^ (8 * payloadSize)) % 2 ^ 32))
        ⟨payloadSize, numTagBytes⟩ (e % 2 ^ enumType.description.numPayloadCases)) enumType =
      some (if smallTag payloadSize numTagBytes enumType.description.numPayloadCases e <
          enumType.description.numPayloadCases then
        smallTag payloadSize numTagBytes enumType.description.numPayloadCases e
      else ((e % 2 ^ enumType.description.numPayloadCases % 2 ^ (8 * payloadSize) |||
        ((smallTag payloadSize numTagBytes enumType.description.numPayloadCases e -
          enumType.description.numPayloadCases) <<< (8 * payloadSize)) % 2 ^ 32) +
        enumType.description.numPayloadCases) % 2 ^ 32) := by
  have hload : loadMultiPayloadTag (value.store payloadSize numTagBytes
      ((enumType.description.numPayloadCases + e / 2 ^ (8 * payloadSize)) % 2 ^ 32))
      ⟨payloadSize, numTagBytes⟩ =
        some (smallTag payloadSize numTagBytes enumType.description.numPayloadCases e) :=
    loadMultiPayloadTag_store value _ hcount
  unfold getEnumCaseMultiPayload
  simp only [hlayout]
  rw [loadMultiPayloadTag_storeMultiPayloadValue, hload, loadMultiPayloadValue_storeMultiPayloadValue,
    Nat.min_eq_left (Nat.le_of_lt hsize), Nat.mul_comm payloadSize 8]
  simp only [Option.bind_eq_bind, Option.bind_some]
  rw [if_neg (Nat.not_le.2 hsize)]
  split_ifs with htag
  · rfl
  · rfl

end Cases

/-! ## Which layouts keep the cases apart -/

/-- Every case is read back as it was stored, a payload case leaves the payload bytes, and two empty
cases differ in a byte of the value. -/
structure CasesRoundTrip (enumType : EnumMetadata) : Prop where
  getEnumCase_store : ∀ (value : Memory) (c : Nat),
    c < enumType.description.numPayloadCases + enumType.description.numEmptyCases →
      ∃ value', storeEnumTagMultiPayload value enumType c = some value' ∧
        getEnumCaseMultiPayload value' enumType = some c
  payload : ∀ (value value' : Memory) (c : Nat), c < enumType.description.numPayloadCases →
    storeEnumTagMultiPayload value enumType c = some value' →
      ∀ i, i < enumType.payloadSize → value' i = value i
  empty : ∀ (value₁ value₂ value₁' value₂' : Memory) (c₁ c₂ : Nat), c₁ ≠ c₂ →
    enumType.description.numPayloadCases ≤ c₁ → enumType.description.numPayloadCases ≤ c₂ →
    c₁ < enumType.description.numPayloadCases + enumType.description.numEmptyCases →
    c₂ < enumType.description.numPayloadCases + enumType.description.numEmptyCases →
    storeEnumTagMultiPayload value₁ enumType c₁ = some value₁' →
    storeEnumTagMultiPayload value₂ enumType c₂ = some value₂' →
      ∃ i, i < enumType.valueWitnesses.size ∧ value₁' i ≠ value₂' i

/-- The layouts for which they do: the total size fits an `unsigned`, and where empty cases are
spread over a payload area of one to three bytes, the mask of `numPayloads` bits loses no bit of
them and the number of tags does not overflow. -/
def LayoutSafe (description : EnumDescription) (payloadSize : Nat) : Prop :=
  payloadSize + (if description.numPayloadCases + min description.numEmptyCases 1 < 256 then 1
    else if description.numPayloadCases + min description.numEmptyCases 1 < 65536 then 2
    else 4) < 2 ^ 32 ∧
  (description.numEmptyCases = 0 ∨ 4 ≤ payloadSize ∨
    description.numPayloadCases < 32 ∧
      (payloadSize = 0 ∨ description.numEmptyCases ≤ 2 ^ description.numPayloadCases ∨
        8 * payloadSize ≤ description.numPayloadCases ∧
          description.numEmptyCases + 2 ^ (8 * payloadSize) ≤ 2 ^ 32))

section Layouts

variable (description : EnumDescription) (payloadLayouts : List TypeLayout)

theorem maxPayloadSize_lt : maxPayloadSize payloadLayouts < 2 ^ 63 := by
  have hfold : ∀ (ls : List TypeLayout) (n : Nat), n < 2 ^ 63 →
      ls.foldl (fun payloadSize payloadLayout => max payloadSize payloadLayout.size) n < 2 ^ 63 := by
    intro ls
    induction ls with
    | nil => exact fun n hn => hn
    | cons l ls ih => exact fun n hn => ih _ (max_lt hn l.size_lt)
  exact hfold payloadLayouts 0 (by decide)

theorem getMultiPayloadLayout_init_of_lt {payloadSize : Nat}
    (hmax : maxPayloadSize payloadLayouts = payloadSize)
    (hfit : payloadSize + getNumTagBytes payloadSize description.numEmptyCases
      payloadLayouts.length < 2 ^ 32) :
    getMultiPayloadLayout (initEnumMetadataMultiPayload description payloadLayouts) =
      ⟨payloadSize, getNumTagBytes payloadSize description.numEmptyCases payloadLayouts.length⟩ := by
  unfold getMultiPayloadLayout initEnumMetadataMultiPayload
  simp only [hmax]
  congr
  rw [Nat.mod_eq_of_lt hfit]
  omega

theorem not_isTagByteCount_init {payloadSize : Nat}
    (hmax : maxPayloadSize payloadLayouts = payloadSize)
    (hle : getNumTagBytes payloadSize description.numEmptyCases payloadLayouts.length ≤ 4)
    (hfit : ¬ payloadSize + getNumTagBytes payloadSize description.numEmptyCases
      payloadLayouts.length < 2 ^ 32) :
    isTagByteCount (getMultiPayloadLayout
      (initEnumMetadataMultiPayload description payloadLayouts)).numTagBytes = false := by
  have hlt := maxPayloadSize_lt payloadLayouts
  rw [hmax] at hlt
  unfold getMultiPayloadLayout initEnumMetadataMultiPayload isTagByteCount
  simp only [hmax]
  generalize getNumTagBytes payloadSize description.numEmptyCases payloadLayouts.length = n at hle hfit
  have hbig : 4 < ((payloadSize + n) % 2 ^ 32 + 2 ^ 64 - payloadSize) % 2 ^ 64 := by omega
  rw [Bool.eq_false_iff]
  simp only [ne_eq, Bool.or_eq_true, decide_eq_true_eq]
  omega

end Layouts

section Small

variable {payloadSize numTagBytes numPayloads e : Nat}

theorem smallTag_of_fit (payloadSize numTagBytes : Nat) (hnum : numPayloads + e < 2 ^ 32)
    (hfit : numPayloads + e / 2 ^ (8 * payloadSize) < 2 ^ (8 * numTagBytes)) :
    smallTag payloadSize numTagBytes numPayloads e = numPayloads + e / 2 ^ (8 * payloadSize) := by
  have hle := Nat.div_le_self e (2 ^ (8 * payloadSize))
  unfold smallTag
  rw [Nat.mod_eq_of_lt (b := 2 ^ 32) (by omega), Nat.mod_eq_of_lt hfit]

theorem smallCase_of_mask (hnum : numPayloads + e < 2 ^ 32)
    (hmask : e % 2 ^ numPayloads % 2 ^ (8 * payloadSize) = e % 2 ^ (8 * payloadSize)) :
    ((e % 2 ^ numPayloads % 2 ^ (8 * payloadSize) |||
      ((numPayloads + e / 2 ^ (8 * payloadSize) - numPayloads) <<< (8 * payloadSize)) % 2 ^ 32) +
      numPayloads) % 2 ^ 32 = numPayloads + e := by
  have hpart : e / 2 ^ (8 * payloadSize) * 2 ^ (8 * payloadSize) ≤ e := Nat.div_mul_le_self _ _
  have hlow : e % 2 ^ (8 * payloadSize) < 2 ^ (8 * payloadSize) :=
    Nat.mod_lt _ (Nat.two_pow_pos _)
  rw [hmask, Nat.add_sub_cancel_left, Nat.shiftLeft_eq, Nat.mod_eq_of_lt (hpart.trans_lt (by omega)),
    Nat.or_comm, Nat.mul_comm, ← Nat.two_pow_add_eq_or_of_lt hlow, Nat.div_add_mod,
    Nat.mod_eq_of_lt (by omega), Nat.add_comm]

theorem mod_mod_of_mask (he : e < 2 ^ numPayloads ∨ 8 * payloadSize ≤ numPayloads ∨ payloadSize = 0) :
    e % 2 ^ numPayloads % 2 ^ (8 * payloadSize) = e % 2 ^ (8 * payloadSize) := by
  rcases he with he | hle | hzero
  · rw [Nat.mod_eq_of_lt he]
  · exact Nat.mod_mod_of_dvd e (Nat.pow_dvd_pow 2 hle)
  · rw [hzero, Nat.mul_zero, Nat.pow_zero, Nat.mod_one, Nat.mod_one]

theorem emptyCases_fit {emptyCases : Nat} (hsize : payloadSize < 4)
    (h32 : numPayloads + emptyCases < 2 ^ 32) (h2 : 2 ≤ numPayloads) (hshift : numPayloads < 32)
    (hmask : payloadSize = 0 ∨ emptyCases ≤ 2 ^ numPayloads ∨
      8 * payloadSize ≤ numPayloads ∧ emptyCases + 2 ^ (8 * payloadSize) ≤ 2 ^ 32) :
    emptyCases + 2 ^ (8 * payloadSize) ≤ 2 ^ 32 := by
  have hpow : 2 ^ (8 * payloadSize) ≤ 2 ^ 24 := Nat.pow_le_pow_right (by decide) (by omega)
  rcases hmask with rfl | hle | ⟨-, hle⟩
  · omega
  · have hbits : 2 ^ numPayloads ≤ 2 ^ 31 := Nat.pow_le_pow_right (by decide) (by omega)
    omega
  · exact hle

theorem div_lt_tags {emptyCases n : Nat} (hn : 0 < n) (he : e < emptyCases) :
    e / n < (emptyCases + n - 1) / n := by
  have hstep : (e + n) / n = e / n + 1 := Nat.add_div_right e hn
  have hmono : (e + n) / n ≤ (emptyCases + n - 1) / n := Nat.div_le_div_right (by omega)
  omega

end Small

section Main

variable (description : EnumDescription) (payloadLayouts : List TypeLayout)

theorem le_numTags {emptyCases payloadCases : Nat} (size : Nat) (h2 : 2 ≤ payloadCases)
    (hcases : payloadCases < 2 ^ 24 ∧ payloadCases + emptyCases < 2 ^ 32) :
    payloadCases ≤ numTags size emptyCases payloadCases := by
  unfold numTags
  split_ifs with hempty hsize
  · omega
  · rw [Nat.shiftRight_eq_div_pow, Nat.shiftLeft_eq, Nat.one_mul, Nat.mul_comm size 8]
    have hcases' : size = 0 ∨ size = 1 ∨ size = 2 ∨ size = 3 := by omega
    rcases hcases' with rfl | rfl | rfl | rfl
    · simp only [Nat.mul_zero, Nat.pow_zero, Nat.div_one]
      omega
    · omega
    · omega
    · omega
  · exact le_refl _

theorem fits_iff {payloadSize : Nat} (h2 : 2 ≤ description.numPayloadCases) :
    payloadSize + getNumTagBytes payloadSize description.numEmptyCases description.numPayloadCases <
        2 ^ 32 ↔
      payloadSize + (if description.numPayloadCases + min description.numEmptyCases 1 < 256 then 1
        else if description.numPayloadCases + min description.numEmptyCases 1 < 65536 then 2
        else 4) < 2 ^ 32 := by
  have h24 := description.numPayloadCases_lt
  rw [getNumTagBytes_eq]
  by_cases hsize : 4 ≤ payloadSize
  · have htags : numTags payloadSize description.numEmptyCases description.numPayloadCases =
        description.numPayloadCases + min description.numEmptyCases 1 := by
      unfold numTags
      rw [if_pos hsize]
      split_ifs with hempty
      · omega
      · omega
    rw [htags, if_neg (by omega)]
  · split_ifs
    all_goals omega

theorem not_casesRoundTrip_of_not_fit (hlen : payloadLayouts.length = description.numPayloadCases)
    (h2 : 2 ≤ description.numPayloadCases)
    (hfit : ¬ maxPayloadSize payloadLayouts + getNumTagBytes (maxPayloadSize payloadLayouts)
      description.numEmptyCases description.numPayloadCases < 2 ^ 32) :
    ¬ CasesRoundTrip (initEnumMetadataMultiPayload description payloadLayouts) := by
  intro h
  have hle : getNumTagBytes (maxPayloadSize payloadLayouts) description.numEmptyCases
      description.numPayloadCases ≤ 4 := by
    rw [getNumTagBytes_eq]
    split_ifs
    all_goals omega
  rw [← hlen] at hle hfit
  have hcrash := not_isTagByteCount_init description payloadLayouts rfl hle hfit
  obtain ⟨value', hstore, -⟩ := h.getEnumCase_store (fun _ => 0) 0 (by
    change 0 < description.numPayloadCases + description.numEmptyCases
    omega)
  have hzero : 0 < (initEnumMetadataMultiPayload description
      payloadLayouts).description.numPayloadCases := by
    change 0 < description.numPayloadCases
    omega
  unfold storeEnumTagMultiPayload storeMultiPayloadTag at hstore
  simp only [hcrash, if_pos hzero, Bool.false_eq_true, if_false] at hstore
  exact absurd hstore (by simp)

theorem casesRoundTrip_of_store {enumType : EnumMetadata} {payloadSize numTagBytes : Nat}
    (hlayout : getMultiPayloadLayout enumType = ⟨payloadSize, numTagBytes⟩)
    (hsize : enumType.payloadSize + numTagBytes = enumType.valueWitnesses.size)
    (hcount : isTagByteCount numTagBytes = true)
    (hstore : ∀ (value : Memory) (c : Nat),
      c < enumType.description.numPayloadCases + enumType.description.numEmptyCases →
        ∃ value', storeEnumTagMultiPayload value enumType c = some value' ∧
          getEnumCaseMultiPayload value' enumType = some c) :
    CasesRoundTrip enumType := by
  refine ⟨hstore, ?_, ?_⟩
  · intro value value' c hc hvalue i hi
    rw [storeEnumTag_payload hlayout hcount value hc, Option.some.injEq] at hvalue
    have hpayload : payloadSize = enumType.payloadSize :=
      (congrArg MultiPayloadLayout.payloadSize hlayout).symm
    rw [← hvalue, Memory.store_of_not_mem (.inl (by omega))]
  · intro value₁ value₂ value₁' value₂' c₁ c₂ hne _ _ hc₁ hc₂ h₁ h₂
    by_contra hsame
    push Not at hsame
    -- what is read depends on the bytes of the value alone
    have hread : getEnumCaseMultiPayload value₁' enumType = getEnumCaseMultiPayload value₂' enumType := by
      have hpayload : payloadSize = enumType.payloadSize :=
        (congrArg MultiPayloadLayout.payloadSize hlayout).symm
      unfold getEnumCaseMultiPayload loadMultiPayloadTag loadMultiPayloadValue
      simp only [hlayout]
      have htag : value₁'.load payloadSize numTagBytes = value₂'.load payloadSize numTagBytes :=
        Memory.load_congr fun i _ hi => hsame i (by omega)
      rw [htag]
      have hlow : value₁'.load 0 (min payloadSize 4) = value₂'.load 0 (min payloadSize 4) :=
        Memory.load_congr fun i _ hi => hsame i (by omega)
      rw [hlow]
    obtain ⟨w₁, hw₁, hget₁⟩ := hstore value₁ c₁ hc₁
    obtain ⟨w₂, hw₂, hget₂⟩ := hstore value₂ c₂ hc₂
    rw [h₁, Option.some.injEq] at hw₁
    rw [h₂, Option.some.injEq] at hw₂
    rw [hw₁, hw₂, hget₁, hget₂, Option.some.injEq] at hread
    exact hne hread

variable {enumType : EnumMetadata} {payloadSize : Nat}

/-- Storing and reading back, when the tag bytes are those of the layout. -/
theorem getEnumCase_store_of_safe
    (hlayout : getMultiPayloadLayout enumType =
      ⟨payloadSize, getNumTagBytes payloadSize enumType.description.numEmptyCases
        enumType.description.numPayloadCases⟩)
    (h2 : 2 ≤ enumType.description.numPayloadCases)
    (hsafe : LayoutSafe enumType.description payloadSize) (value : Memory) {c : Nat}
    (hc : c < enumType.description.numPayloadCases + enumType.description.numEmptyCases) :
    ∃ value', storeEnumTagMultiPayload value enumType c = some value' ∧
      getEnumCaseMultiPayload value' enumType = some c := by
  have h24 := enumType.description.numPayloadCases_lt
  have h32 := enumType.description.numCases_lt
  have hcases := And.intro h24 h32
  have hle := le_numTags payloadSize h2 hcases
  obtain ⟨hcount, hfit⟩ := getNumTagBytes_spec (h2.trans hle) (numTags_lt (by omega))
  by_cases hpayload : c < enumType.description.numPayloadCases
  · exact ⟨_, storeEnumTag_payload hlayout hcount value hpayload,
      getEnumCase_store_payload hlayout hcount value hpayload (by omega)⟩
  have hc' : enumType.description.numPayloadCases ≤ c := Nat.le_of_not_lt hpayload
  have hempty : 0 < enumType.description.numEmptyCases := by omega
  by_cases hsize : 4 ≤ payloadSize
  · have htags : numTags payloadSize enumType.description.numEmptyCases
        enumType.description.numPayloadCases = enumType.description.numPayloadCases + 1 := by
      unfold numTags
      rw [if_pos hempty, if_pos hsize]
      omega
    exact ⟨_, storeEnumTag_large hlayout hcount value hc' hsize,
      getEnumCase_store_large hlayout hcount value hc' (by omega) hsize (by omega)⟩
  · have hsmall : payloadSize < 4 := Nat.lt_of_not_le hsize
    obtain ⟨hshift, hmask⟩ : enumType.description.numPayloadCases < 32 ∧ (payloadSize = 0 ∨
        enumType.description.numEmptyCases ≤ 2 ^ enumType.description.numPayloadCases ∨
        8 * payloadSize ≤ enumType.description.numPayloadCases ∧
          enumType.description.numEmptyCases + 2 ^ (8 * payloadSize) ≤ 2 ^ 32) := by
      rcases hsafe.2 with h | h | h
      · omega
      · omega
      · exact h
    obtain ⟨e, rfl⟩ := Nat.exists_eq_add_of_le hc'
    have he : e < enumType.description.numEmptyCases := by omega
    have hcount32 : enumType.description.numEmptyCases + 2 ^ (8 * payloadSize) ≤ 2 ^ 32 :=
      emptyCases_fit hsmall h32 h2 hshift hmask
    have hdiv := div_lt_tags (Nat.two_pow_pos (8 * payloadSize)) he
    have htags := numTags_small hsmall hempty hcount32 hcases
    have hnum : enumType.description.numPayloadCases + e < 2 ^ 32 := by omega
    have htag := smallTag_of_fit payloadSize (getNumTagBytes payloadSize
      enumType.description.numEmptyCases enumType.description.numPayloadCases) hnum (by omega)
    refine ⟨_, (storeEnumTag_small hlayout hcount value hc' hsmall).trans (if_pos hshift), ?_⟩
    rw [Nat.add_sub_cancel_left, getEnumCase_store_small hlayout hcount value hsmall, htag,
      if_neg (Nat.not_lt.2 (Nat.le_add_right _ _)), smallCase_of_mask hnum]
    refine mod_mod_of_mask ?_
    rcases hmask with h | h | h
    · exact .inr (.inr h)
    · exact .inl (by omega)
    · exact .inr (.inl h.1)

/-! ### Where they do not -/

theorem not_casesRoundTrip_of_mask {numTagBytes : Nat}
    (hlayout : getMultiPayloadLayout enumType = ⟨payloadSize, numTagBytes⟩)
    (hcount : isTagByteCount numTagBytes = true)
    (hsmall : payloadSize < 4) (hbits : enumType.description.numPayloadCases < 8 * payloadSize)
    (hmask : 2 ^ enumType.description.numPayloadCases < enumType.description.numEmptyCases) :
    ¬ CasesRoundTrip enumType := by
  intro h
  have hshift : enumType.description.numPayloadCases < 32 := by omega
  have hpow : 2 ^ enumType.description.numPayloadCases < 2 ^ (8 * payloadSize) :=
    Nat.pow_lt_pow_right (by decide) hbits
  have hpos := Nat.two_pow_pos enumType.description.numPayloadCases
  have hbytes : 2 ^ 8 ≤ 2 ^ (8 * numTagBytes) := by
    refine Nat.pow_le_pow_right (by decide) ?_
    simp only [isTagByteCount, Bool.or_eq_true, decide_eq_true_eq] at hcount
    omega
  obtain ⟨value', hstore, hget⟩ := h.getEnumCase_store (fun _ => 0)
    (enumType.description.numPayloadCases + 2 ^ enumType.description.numPayloadCases) (by omega)
  rw [storeEnumTag_small hlayout hcount _ (Nat.le_add_right _ _) hsmall, if_pos hshift,
    Option.some.injEq] at hstore
  have h32 : enumType.description.numPayloadCases + 2 ^ enumType.description.numPayloadCases <
      2 ^ 32 := by
    have := enumType.description.numCases_lt
    omega
  have hdiv : 2 ^ enumType.description.numPayloadCases / 2 ^ (8 * payloadSize) = 0 :=
    Nat.div_eq_of_lt hpow
  have htag := smallTag_of_fit payloadSize numTagBytes h32 (by omega)
  rw [← hstore, Nat.add_sub_cancel_left, getEnumCase_store_small hlayout hcount _ hsmall, htag,
    Nat.mod_self, Nat.zero_mod, hdiv, Nat.add_zero, if_neg (Nat.lt_irrefl _), Nat.sub_self,
    Option.some.injEq] at hget
  simp only [Nat.zero_shiftLeft, Nat.zero_mod, Nat.or_zero, Nat.zero_add] at hget
  omega

theorem not_casesRoundTrip_of_overflow
    (hlayout : getMultiPayloadLayout enumType =
      ⟨payloadSize, getNumTagBytes payloadSize enumType.description.numEmptyCases
        enumType.description.numPayloadCases⟩)
    (h2 : 2 ≤ enumType.description.numPayloadCases)
    (hsize : payloadSize = 1 ∨ payloadSize = 2 ∨ payloadSize = 3)
    (hshift : enumType.description.numPayloadCases < 32)
    (hover : 2 ^ 32 < enumType.description.numEmptyCases + 2 ^ (8 * payloadSize)) :
    ¬ CasesRoundTrip enumType := by
  intro h
  have h32 := enumType.description.numCases_lt
  have hpow : 2 ^ (8 * payloadSize) ≤ 2 ^ 24 := Nat.pow_le_pow_right (by decide) (by omega)
  generalize hnp : enumType.description.numPayloadCases = np at *
  generalize hne : enumType.description.numEmptyCases = ne at *
  have htags : numTags payloadSize ne np = np := by
    unfold numTags
    rcases hsize with rfl | rfl | rfl
    all_goals
      rw [if_pos (by omega), if_neg (by omega), Nat.shiftRight_eq_div_pow, Nat.shiftLeft_eq]
      omega
  have hbytes : getNumTagBytes payloadSize ne np = 1 := by
    rw [getNumTagBytes_eq, htags, if_neg (by omega), if_pos (by omega)]
  rw [hbytes] at hlayout
  obtain ⟨value', hstore, hget⟩ := h.getEnumCase_store (fun _ => 0) (np + (ne - 1)) (by omega)
  rw [storeEnumTag_small hlayout rfl _ (hnp ▸ Nat.le_add_right _ _) (by omega), hnp, if_pos hshift,
    Option.some.injEq] at hstore
  have htag : smallTag payloadSize 1 np (ne - 1) = np - 1 := by
    unfold smallTag
    rcases hsize with rfl | rfl | rfl
    all_goals omega
  have hread := getEnumCase_store_small hlayout rfl (fun _ => 0) (e := ne - 1) (by omega)
  rw [hnp, htag, if_pos (by omega)] at hread
  rw [← hstore, Nat.add_sub_cancel_left, hread, Option.some.injEq] at hget
  omega

theorem not_casesRoundTrip_of_shift {numTagBytes : Nat}
    (hlayout : getMultiPayloadLayout enumType = ⟨payloadSize, numTagBytes⟩)
    (hcount : isTagByteCount numTagBytes = true) (hsmall : payloadSize < 4)
    (hempty : 0 < enumType.description.numEmptyCases)
    (hshift : ¬ enumType.description.numPayloadCases < 32) : ¬ CasesRoundTrip enumType := by
  intro h
  obtain ⟨value', hstore, -⟩ := h.getEnumCase_store (fun _ => 0)
    enumType.description.numPayloadCases (by omega)
  rw [storeEnumTag_small hlayout hcount _ (le_refl _) hsmall, if_neg hshift] at hstore
  exact absurd hstore (by simp)

end Main

end SwiftKStdlib.Runtime
