import Mathlib
import SwiftKStdlib.IRGen.EnumPayload

/-!
# Values in enum payloads

* `Ty`, `TypedValue` : the types and values of the generated code; `createBitOrPointerCast`;
* `TypedPayload` : a payload whose chunks have types, `erase` : the payload of their bits;
* `insertValue`, `extractValue`, `packIntoEnumPayload`, `unpackFromEnumPayload` : the functions of the source;
* `Castable` : the types between which the builder casts without an integer;
* `insertChunk_spec`, `extractChunk_spec` : what the functors do to the bits of a chunk.

An operation that the builder asserts to be invalid has no value.
-/

namespace SwiftKStdlib.IRGen

/-! ## Types and values -/

inductive Kind where
  | integer
  | floatingPoint
  | vector (elements : Nat)
  | pointer (pointee : Nat)
  deriving DecidableEq

/-- A type of values in registers, with its size in the data layout. -/
structure Ty where
  kind : Kind
  bits : Nat
  bits_pos : 0 < bits
  deriving DecidableEq

namespace Ty

def isPointerTy (ty : Ty) : Bool :=
  match ty.kind with
  | .pointer _ => true
  | _ => false

def isIntegerTy (ty : Ty) : Bool := ty.kind == .integer

/-- `IntegerType::get` for the size of a type. -/
def toInteger (ty : Ty) : Ty := { ty with kind := .integer }

@[simp] theorem bits_toInteger (ty : Ty) : ty.toInteger.bits = ty.bits := rfl

@[simp] theorem isIntegerTy_toInteger (ty : Ty) : ty.toInteger.isIntegerTy = true := rfl

end Ty

structure TypedValue where
  ty : Ty
  bits : BitVec ty.bits

/-- `CreateBitOrPointerCast`. Pointers are cast to integers, integers to pointers, and otherwise the bits of a
type to one of its size, where both are pointers or neither is. -/
def createBitOrPointerCast (v : TypedValue) (destTy : Ty) : Option TypedValue :=
  if v.ty = destTy then some v
  else if v.ty.isPointerTy && destTy.isIntegerTy then some ⟨destTy, v.bits.setWidth destTy.bits⟩
  else if v.ty.isIntegerTy && destTy.isPointerTy then some ⟨destTy, v.bits.setWidth destTy.bits⟩
  else if v.ty.bits = destTy.bits ∧ v.ty.isPointerTy = destTy.isPointerTy then
    some ⟨destTy, v.bits.setWidth destTy.bits⟩
  else none

inductive TypedChunk where
  | value (v : TypedValue)
  | type (ty : Ty)

namespace TypedChunk

/-- `getPayloadType`. -/
def payloadType : TypedChunk → Ty
  | value v => v.ty
  | type ty => ty

/-- `forcePayloadValue`; a vacant chunk is replaced by the zero. -/
def forcePayloadValue : TypedChunk → TypedValue
  | value v => v
  | type ty => ⟨ty, 0⟩

def erase : TypedChunk → LazyValue
  | value v => .value v.bits
  | type ty => .type ty.bits

end TypedChunk

inductive TypedSchema where
  | explosionSchema (elements : List Ty)
  | bitSize (bits : Nat)

/-- Pointer-sized integers, and the rest. -/
def chunkIntegers (IGM : IRGenModule) (bitSize : Nat) : List Ty :=
  if IGM.pointerSize ≤ bitSize then
    ⟨.integer, IGM.pointerSize, IGM.pointerSize_pos⟩ :: chunkIntegers IGM (bitSize - IGM.pointerSize)
  else if h : 0 < bitSize then [⟨.integer, bitSize, h⟩] else []
termination_by bitSize
decreasing_by
  have := IGM.pointerSize_pos
  omega

/-- The types that `forEachType` hands to its functor. -/
def TypedSchema.forEachType (IGM : IRGenModule) : TypedSchema → List Ty
  | explosionSchema elements => elements
  | bitSize bits => chunkIntegers IGM bits

structure TypedPayload where
  payloadValues : List TypedChunk

namespace TypedPayload

def types (payload : TypedPayload) : List Ty := payload.payloadValues.map TypedChunk.payloadType

def erase (payload : TypedPayload) : EnumPayload := ⟨payload.payloadValues.map TypedChunk.erase⟩

def zero (IGM : IRGenModule) (schema : TypedSchema) : TypedPayload :=
  ⟨(schema.forEachType IGM).map TypedChunk.type⟩

/-! ## The functions of the source -/

/-- The loop of `withValueInPayload`. The functor has a state and may replace the chunk. -/
def withChunks {σ : Type} (valueBitWidth : Nat)
    (f : σ → TypedChunk → (payloadValueOffset valueOffset : Nat) → Option (σ × TypedChunk)) :
    (payloadValueOffset valueOffset : Nat) → σ → List TypedChunk → Option (σ × List TypedChunk)
  | _, _, _, [] => none
  | payloadValueOffset, valueOffset, s, payload :: payloads =>
    let payloadBitWidth := payload.payloadType.bits
    -- Does this element overlap the area we need to touch?
    if payloadValueOffset < payloadBitWidth then do
      -- See how much of the value we can fit here.
      let valueChunkWidth := min (payloadBitWidth - payloadValueOffset) (valueBitWidth - valueOffset)
      let (s, payload) ← f s payload payloadValueOffset valueOffset
      -- If we used the entire value, we're done.
      if valueBitWidth ≤ valueOffset + valueChunkWidth then some (s, payload :: payloads)
      else do
        let (s, payloads) ← withChunks valueBitWidth f (payloadValueOffset - payloadBitWidth)
          (valueOffset + valueChunkWidth) s payloads
        some (s, payload :: payloads)
    else do
      let (s, payloads) ← withChunks valueBitWidth f (payloadValueOffset - payloadBitWidth) valueOffset s payloads
      some (s, payload :: payloads)

/-- `withValueInPayload`; a negative `numBitsUsedInValue` stands for all bits of the type. -/
def withValueInPayload {σ : Type} (payload : TypedPayload) (valueType : Ty) (numBitsUsedInValue : Int)
    (payloadOffset : Nat) (f : σ → TypedChunk → (payloadValueOffset valueOffset : Nat) → Option (σ × TypedChunk))
    (s : σ) : Option (σ × TypedPayload) :=
  let valueBitWidth := if numBitsUsedInValue < 0 then valueType.bits else numBitsUsedInValue.toNat
  if numBitsUsedInValue ≤ valueType.bits then do
    let (s, payloadValues) ← withChunks valueBitWidth f payloadOffset 0 s payload.payloadValues
    some (s, ⟨payloadValues⟩)
  else none

def asInteger (v : TypedValue) : Option (BitVec v.ty.bits) := do
  let v' ← createBitOrPointerCast v v.ty.toInteger
  some (v'.bits.setWidth v.ty.bits)

/-- The functor of `insertValue`. -/
def insertChunk (value : TypedValue) (payloadValue : TypedChunk) (payloadValueOffset valueOffset : Nat) :
    Option TypedChunk :=
  let payloadType := payloadValue.payloadType
  -- See if the value matches the payload type exactly.
  if payloadValueOffset = 0 ∧ valueOffset = 0 ∧ value.ty = payloadType then some (.value value)
  -- If only the width matches exactly, we can still do a bitcast.
  else if payloadValueOffset = 0 ∧ valueOffset = 0 ∧ payloadType.bits = value.ty.bits then
    (createBitOrPointerCast value payloadType).map .value
  else do
    -- Select out the chunk of the value to merge with the existing payload.
    let subvalue ← asInteger value
    let subvalue ← (if 0 < valueOffset then createLShr subvalue valueOffset else some subvalue)
    let subvalue := subvalue.setWidth payloadType.bits
    let subvalue ← (if 0 < payloadValueOffset then createShl subvalue payloadValueOffset else some subvalue)
    match payloadValue with
    -- If there hasn't yet been a value stored here, we can use the adjusted value directly.
    | .type _ => (createBitOrPointerCast ⟨payloadType.toInteger, subvalue⟩ payloadType).map .value
    -- Otherwise, bitwise-or it in.
    | .value lastValue => do
      let lastValue ← createBitOrPointerCast lastValue payloadType.toInteger
      let lastValue : BitVec payloadType.bits := lastValue.bits.setWidth payloadType.bits ||| subvalue
      (createBitOrPointerCast ⟨payloadType.toInteger, lastValue⟩ payloadType).map .value

def insertValue (payload : TypedPayload) (value : TypedValue) (payloadOffset : Nat) (numBitsUsedInValue : Int) :
    Option TypedPayload := do
  let (_, payload) ← payload.withValueInPayload value.ty numBitsUsedInValue payloadOffset
    (fun _ payloadValue payloadValueOffset valueOffset =>
      (insertChunk value payloadValue payloadValueOffset valueOffset).map ((), ·)) ()
  some payload

/-- The functor of `extractValue`, whose state is the result so far. -/
def extractChunk (type : Ty) (result : Option TypedValue) (payloadValue : TypedChunk)
    (payloadValueOffset valueOffset : Nat) : Option (Option TypedValue × TypedChunk) :=
  let payloadType := payloadValue.payloadType
  let forced := payloadValue.forcePayloadValue
  if payloadValueOffset = 0 ∧ valueOffset = 0 ∧ type = payloadType then some (some forced, .value forced)
  -- If only the width matches exactly, do a bitcast.
  else if payloadValueOffset = 0 ∧ valueOffset = 0 ∧ payloadType.bits = type.bits then do
    let result ← createBitOrPointerCast forced type
    some (some result, .value forced)
  else do
    -- Integrate the chunk of payload into the result value.
    let value ← asInteger forced
    let value ← (if 0 < payloadValueOffset then createLShr value payloadValueOffset else some value)
    let value : BitVec type.bits ← (
      if forced.ty.bits < type.bits then
        (if 0 < valueOffset then createShl (value.setWidth type.bits) valueOffset else some (value.setWidth type.bits))
      else (if 0 < valueOffset then createShl value valueOffset else some value).map (·.setWidth type.bits))
    match result with
    | none => some (some ⟨type.toInteger, value⟩, .value forced)
    | some result => do
      -- the operands of `or` have one type
      let merged : BitVec type.bits := result.bits.setWidth type.bits ||| value
      if result.ty = type.toInteger then some (some ⟨type.toInteger, merged⟩, .value forced) else none

/-- `extractValue`. The payload is returned too, as chunks that were vacant have values afterwards. -/
def extractValue (payload : TypedPayload) (type : Ty) (payloadOffset : Nat) : Option (TypedValue × TypedPayload) := do
  let (result, payload) ← payload.withValueInPayload type (-1) payloadOffset (extractChunk type) none
  let result ← result
  let result ← createBitOrPointerCast result type
  some (result, payload)

/-- The loop of `packIntoEnumPayload`. -/
def packChunks : List TypedChunk → TypedPayload → Nat → Option TypedPayload
  | [], outerPayload, _ => some outerPayload
  | value :: values, outerPayload, bitOffset => do
    let v := value.forcePayloadValue
    let outerPayload ← outerPayload.insertValue v bitOffset (-1)
    packChunks values outerPayload (bitOffset + v.ty.bits)

/-- `packIntoEnumPayload`: the outer payload, and the inner one, which has no vacant chunks any more. -/
def packIntoEnumPayload (payload outerPayload : TypedPayload) (bitOffset : Nat) : Option (TypedPayload × TypedPayload) := do
  let outerPayload ← packChunks payload.payloadValues outerPayload bitOffset
  some (outerPayload, ⟨payload.payloadValues.map fun value => .value value.forcePayloadValue⟩)

/-- The loop of `unpackFromEnumPayload`. -/
def unpackChunks : List Ty → TypedPayload → Nat → Option (List TypedChunk × TypedPayload)
  | [], outerPayload, _ => some ([], outerPayload)
  | type :: types, outerPayload, bitOffset => do
    let (v, outerPayload) ← outerPayload.extractValue type bitOffset
    let (values, outerPayload) ← unpackChunks types outerPayload (bitOffset + type.bits)
    some (.value v :: values, outerPayload)

/-- `unpackFromEnumPayload`: the payload, and the outer one afterwards. -/
def unpackFromEnumPayload (IGM : IRGenModule) (outerPayload : TypedPayload) (bitOffset : Nat) (schema : TypedSchema) :
    Option (TypedPayload × TypedPayload) := do
  let (values, outerPayload) ← unpackChunks (schema.forEachType IGM) outerPayload bitOffset
  some (⟨values⟩, outerPayload)

end TypedPayload

/-! ## Casts -/

def Castable (a b : Ty) : Prop :=
  a.bits = b.bits ∧ (a.isPointerTy = b.isPointerTy ∨ a.isIntegerTy = true ∨ b.isIntegerTy = true)

instance (a b : Ty) : Decidable (Castable a b) := inferInstanceAs (Decidable (_ ∧ _))

theorem Castable.symm {a b : Ty} (h : Castable a b) : Castable b a :=
  ⟨h.1.symm, h.2.imp Eq.symm Or.symm⟩

theorem Ty.isPointerTy_of_isIntegerTy {ty : Ty} (h : ty.isIntegerTy = true) : ty.isPointerTy = false := by
  have hkind : ty.kind = .integer := by simpa [Ty.isIntegerTy] using h
  simp [Ty.isPointerTy, hkind]

theorem castable_toInteger (ty : Ty) : Castable ty ty.toInteger := ⟨rfl, .inr (.inr rfl)⟩

theorem toInteger_castable (ty : Ty) : Castable ty.toInteger ty := ⟨rfl, .inr (.inl rfl)⟩

theorem createBitOrPointerCast_eq {v : TypedValue} {destTy : Ty} (h : Castable v.ty destTy) :
    createBitOrPointerCast v destTy = some ⟨destTy, v.bits.setWidth destTy.bits⟩ := by
  unfold createBitOrPointerCast
  split_ifs with hsame hto hfrom hbits
  · obtain ⟨ty, bits⟩ := v
    obtain rfl : ty = destTy := hsame
    simp
  · rfl
  · rfl
  · rfl
  · exfalso
    rw [Bool.and_eq_true] at hto hfrom
    rcases h.2 with hpointer | hinteger | hinteger
    · exact hbits ⟨h.1, hpointer⟩
    · have hv := Ty.isPointerTy_of_isIntegerTy hinteger
      cases hdest : destTy.isPointerTy with
      | false => exact hbits ⟨h.1, hv.trans hdest.symm⟩
      | true => exact hfrom ⟨hinteger, hdest⟩
    · have hdest := Ty.isPointerTy_of_isIntegerTy hinteger
      cases hv : v.ty.isPointerTy with
      | false => exact hbits ⟨h.1, hv.trans hdest.symm⟩
      | true => exact hto ⟨hv, hinteger⟩

theorem createBitOrPointerCast_eq_none {v : TypedValue} {destTy : Ty} (h : ¬ Castable v.ty destTy)
    (hbits : v.ty.bits = destTy.bits) : createBitOrPointerCast v destTy = none := by
  unfold Castable at h
  rw [not_and, not_or, not_or] at h
  obtain ⟨hpointer, hv, hdest⟩ := h hbits
  unfold createBitOrPointerCast
  rw [if_neg (fun heq => hpointer (congrArg Ty.isPointerTy heq)), if_neg, if_neg, if_neg (fun h => hpointer h.2)]
  · rw [Bool.and_eq_true]
    exact fun h => hv h.1
  · rw [Bool.and_eq_true]
    exact fun h => hdest h.2

theorem asInteger_eq (v : TypedValue) : TypedPayload.asInteger v = some v.bits := by
  unfold TypedPayload.asInteger
  rw [createBitOrPointerCast_eq (castable_toInteger v.ty)]
  simp

/-! ## The bits of chunks -/

namespace TypedChunk

variable {c : TypedChunk}

def testBit (c : TypedChunk) (i : Nat) : Bool := c.erase.testBit i

@[simp] theorem size_erase (c : TypedChunk) : c.erase.size = c.payloadType.bits := by
  cases c <;> rfl

@[simp] theorem testBit_value (v : TypedValue) (i : Nat) : (value v).testBit i = v.bits.getLsbD i := rfl

@[simp] theorem testBit_type (ty : Ty) (i : Nat) : (type ty).testBit i = false := LazyValue.testBit_type ty.bits i

@[simp] theorem payloadType_value (v : TypedValue) : (value v).payloadType = v.ty := rfl

@[simp] theorem ty_forcePayloadValue (c : TypedChunk) : c.forcePayloadValue.ty = c.payloadType := by
  cases c <;> rfl

@[simp] theorem getLsbD_forcePayloadValue (c : TypedChunk) (i : Nat) :
    c.forcePayloadValue.bits.getLsbD i = c.testBit i := by
  cases c with
  | value v => rfl
  | type ty => simp [forcePayloadValue]

theorem testBit_of_le {i : Nat} (h : c.payloadType.bits ≤ i) : c.testBit i = false :=
  LazyValue.testBit_of_le (by rwa [size_erase])

end TypedChunk

namespace TypedPayload

/-! ## One chunk -/

section Chunk

variable {m n : Nat} {value : TypedValue} {c : TypedChunk} {payloadValueOffset valueOffset : Nat}

theorem createLShr_eq {v : BitVec n} {k : Nat} (hk : k < n) :
    (if 0 < k then createLShr v k else some v) = some (v >>> k) := by
  split_ifs with h
  · exact if_pos hk
  · obtain rfl : k = 0 := by omega
    simp

theorem createShl_eq {v : BitVec n} {k : Nat} (hk : k < n) :
    (if 0 < k then createShl v k else some v) = some (v <<< k) := by
  split_ifs with h
  · exact if_pos hk
  · obtain rfl : k = 0 := by omega
    simp

theorem getLsbD_piece (v : BitVec n) {p o i : Nat} (hi : i < m) :
    (((v >>> o).setWidth m) <<< p).getLsbD i = (decide (p ≤ i) && v.getLsbD (i - p + o)) := by
  rw [BitVec.getLsbD_shiftLeft, BitVec.getLsbD_setWidth, BitVec.getLsbD_ushiftRight, Nat.add_comm o]
  by_cases hp : p ≤ i
  · simp [hi, hp, show i - p < m by omega]
  · simp [hi, show i < p by omega, hp]

theorem insertChunk_merges (hp : payloadValueOffset < c.payloadType.bits) (ho : valueOffset < value.ty.bits)
    (hslow : ¬ (payloadValueOffset = 0 ∧ valueOffset = 0 ∧ c.payloadType.bits = value.ty.bits)) :
    ∃ v, insertChunk value c payloadValueOffset valueOffset = some (.value v) ∧ v.ty = c.payloadType ∧
      ∀ i < c.payloadType.bits, v.bits.getLsbD i = (c.testBit i ||
        (decide (payloadValueOffset ≤ i) && value.bits.getLsbD (i - payloadValueOffset + valueOffset))) := by
  have hsame : ¬ (payloadValueOffset = 0 ∧ valueOffset = 0 ∧ value.ty = c.payloadType) := fun h =>
    hslow ⟨h.1, h.2.1, (congrArg Ty.bits h.2.2).symm⟩
  unfold insertChunk
  dsimp only
  rw [if_neg hsame, if_neg hslow, asInteger_eq, Option.bind_eq_bind, Option.bind_some, createLShr_eq ho,
    Option.bind_eq_bind, Option.bind_some, createShl_eq hp, Option.bind_eq_bind, Option.bind_some]
  cases c with
  | type ty =>
    refine ⟨_, by rw [createBitOrPointerCast_eq (toInteger_castable _)]; rfl, rfl, fun i hi => ?_⟩
    simp only [TypedChunk.payloadType] at hi
    simp only [TypedChunk.payloadType, Ty.bits_toInteger, BitVec.setWidth_eq, TypedChunk.testBit_type, Bool.false_or]
    exact getLsbD_piece _ hi
  | value lastValue =>
    refine ⟨⟨lastValue.ty, lastValue.bits |||
      ((value.bits >>> valueOffset).setWidth lastValue.ty.bits) <<< payloadValueOffset⟩, ?_, rfl, fun i hi => ?_⟩
    · dsimp only [TypedChunk.payloadType]
      rw [createBitOrPointerCast_eq (castable_toInteger _), Option.bind_some, createBitOrPointerCast_eq (toInteger_castable _)]
      simp
      rfl
    · dsimp only [TypedChunk.payloadType] at hi
      rw [BitVec.getLsbD_or, TypedChunk.testBit_value, getLsbD_piece _ hi]

theorem insertChunk_spec (hp : payloadValueOffset < c.payloadType.bits) (ho : valueOffset < value.ty.bits)
    (hzero : ∀ i, payloadValueOffset ≤ i → i - payloadValueOffset + valueOffset < value.ty.bits → c.testBit i = false)
    (hcast : payloadValueOffset = 0 → valueOffset = 0 → c.payloadType.bits = value.ty.bits →
      Castable value.ty c.payloadType) :
    ∃ v, insertChunk value c payloadValueOffset valueOffset = some (.value v) ∧ v.ty = c.payloadType ∧
      ∀ i < c.payloadType.bits, v.bits.getLsbD i = (c.testBit i ||
        (decide (payloadValueOffset ≤ i) && value.bits.getLsbD (i - payloadValueOffset + valueOffset))) := by
  by_cases hslow : payloadValueOffset = 0 ∧ valueOffset = 0 ∧ c.payloadType.bits = value.ty.bits
  · obtain ⟨rfl, rfl, hbits⟩ := hslow
    have hcopy (i : Nat) (hi : i < c.payloadType.bits) : value.bits.getLsbD i = (c.testBit i ||
        (decide (0 ≤ i) && value.bits.getLsbD (i - 0 + 0))) := by
      rw [hzero i (Nat.zero_le i) (by omega)]
      simp
    unfold insertChunk
    dsimp only
    by_cases hsame : value.ty = c.payloadType
    · rw [if_pos ⟨rfl, rfl, hsame⟩]
      exact ⟨value, rfl, hsame, hcopy⟩
    · rw [if_neg fun h => hsame h.2.2, if_pos ⟨rfl, rfl, hbits⟩, createBitOrPointerCast_eq (hcast rfl rfl hbits)]
      refine ⟨_, rfl, rfl, fun i hi => ?_⟩
      rw [BitVec.getLsbD_setWidth, decide_eq_true hi, Bool.true_and, hcopy i hi]
  · exact insertChunk_merges hp ho hslow

theorem insertChunk_eq_none (hbits : c.payloadType.bits = value.ty.bits) (hcast : ¬ Castable value.ty c.payloadType) :
    insertChunk value c 0 0 = none := by
  have hsame : value.ty ≠ c.payloadType := by
    intro h
    rw [h] at hcast
    exact hcast ⟨rfl, .inl rfl⟩
  unfold insertChunk
  dsimp only
  rw [if_neg fun h => hsame h.2.2, if_pos ⟨rfl, rfl, hbits⟩, createBitOrPointerCast_eq_none hcast hbits.symm]
  rfl

def resultBit (result : Option TypedValue) (j : Nat) : Bool := (result.map fun r => r.bits.getLsbD j).getD false

theorem piece_eq (v : BitVec m) {p o : Nat} (hp : p < m) (ho : o < n) : ∃ piece : BitVec n,
    ((if 0 < p then createLShr v p else some v).bind fun v =>
      if m < n then (if 0 < o then createShl (v.setWidth n) o else some (v.setWidth n))
      else (if 0 < o then createShl v o else some v).map (·.setWidth n)) = some piece ∧
      ∀ j < n, piece.getLsbD j = (decide (o ≤ j) && v.getLsbD (j - o + p)) := by
  rw [createLShr_eq hp, Option.bind_some]
  by_cases hmn : m < n
  · rw [if_pos hmn, createShl_eq ho]
    refine ⟨_, rfl, fun j hj => ?_⟩
    rw [BitVec.getLsbD_shiftLeft, BitVec.getLsbD_setWidth, BitVec.getLsbD_ushiftRight, Nat.add_comm p]
    by_cases hoj : o ≤ j
    · simp [hj, hoj, show j - o < n by omega]
    · simp [hj, show j < o by omega, hoj]
  · rw [if_neg hmn, createShl_eq (by omega)]
    refine ⟨_, rfl, fun j hj => ?_⟩
    rw [BitVec.getLsbD_setWidth, BitVec.getLsbD_shiftLeft, BitVec.getLsbD_ushiftRight, Nat.add_comm p]
    by_cases hoj : o ≤ j
    · simp [hj, hoj, show j < m by omega]
    · simp [hj, show j < o by omega, hoj]

theorem extractChunk_spec {type : Ty} {result : Option TypedValue} (hp : payloadValueOffset < c.payloadType.bits)
    (ho : valueOffset < type.bits) (hresult : ∀ r, result = some r → r.ty = type.toInteger)
    (hcast : payloadValueOffset = 0 → valueOffset = 0 → c.payloadType.bits = type.bits →
      result = none ∧ Castable c.payloadType type) :
    ∃ r, extractChunk type result c payloadValueOffset valueOffset = some (some r, .value c.forcePayloadValue) ∧
      Castable r.ty type ∧
      (r.ty = type.toInteger ∨ payloadValueOffset = 0 ∧ valueOffset = 0 ∧ c.payloadType.bits = type.bits) ∧
      ∀ j < type.bits, r.bits.getLsbD j = (resultBit result j ||
        (decide (valueOffset ≤ j) && c.testBit (j - valueOffset + payloadValueOffset))) := by
  by_cases hslow : payloadValueOffset = 0 ∧ valueOffset = 0 ∧ c.payloadType.bits = type.bits
  · obtain ⟨rfl, rfl, hbits⟩ := hslow
    obtain ⟨rfl, hcastable⟩ := hcast rfl rfl hbits
    unfold extractChunk
    dsimp only
    by_cases hsame : type = c.payloadType
    · rw [if_pos ⟨rfl, rfl, hsame⟩]
      refine ⟨_, rfl, ?_, .inr ⟨rfl, rfl, hbits⟩, fun j hj => ?_⟩
      · rwa [TypedChunk.ty_forcePayloadValue]
      · simp [resultBit]
    · rw [if_neg fun h => hsame h.2.2, if_pos ⟨rfl, rfl, hbits⟩,
        createBitOrPointerCast_eq (by rwa [TypedChunk.ty_forcePayloadValue])]
      refine ⟨_, rfl, ⟨rfl, .inl rfl⟩, .inr ⟨rfl, rfl, hbits⟩, fun j hj => ?_⟩
      simp [resultBit, hj]
  · have hsame : ¬ (payloadValueOffset = 0 ∧ valueOffset = 0 ∧ type = c.payloadType) := fun h =>
      hslow ⟨h.1, h.2.1, (congrArg Ty.bits h.2.2).symm⟩
    obtain ⟨piece, hpiece, hbits⟩ := piece_eq c.forcePayloadValue.bits
      (show payloadValueOffset < c.forcePayloadValue.ty.bits by rwa [TypedChunk.ty_forcePayloadValue]) ho
    unfold extractChunk
    dsimp only
    rw [if_neg hsame, if_neg hslow, asInteger_eq]
    simp only [Option.bind_eq_bind, Option.bind_some]
    rw [← Option.bind_assoc, hpiece, Option.bind_some]
    cases hr : result with
    | none =>
      refine ⟨_, rfl, toInteger_castable type, .inl rfl, fun j hj => ?_⟩
      simp [resultBit, hbits j hj]
    | some r =>
      dsimp only
      rw [if_pos (hresult r hr)]
      refine ⟨_, rfl, toInteger_castable type, .inl rfl, fun j hj => ?_⟩
      change (r.bits.setWidth type.bits ||| piece).getLsbD j = _
      rw [BitVec.getLsbD_or, BitVec.getLsbD_setWidth, hbits j hj]
      simp [resultBit, hj]

end Chunk

end TypedPayload

end SwiftKStdlib.IRGen
