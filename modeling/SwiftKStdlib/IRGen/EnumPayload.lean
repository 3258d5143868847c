import SwiftKStdlib.Lib.RankSelect

/-!
# Enum payloads in generated code

A value of the generated code is the bits it has when the code runs.

* `createLShr`, `createShl` : the shifts of the builder; a shift by the operand's width or more has
  no value;
* `LazyValue` : a chunk of a payload, present or vacant; `EnumPayload` : the chunks, low bits first;
* `EnumPayload.toNat` : the bits of the whole payload; `testBit_toNat`;
* `toNat_emitApplyOrMaskPayload` : what the operation does to these bits.
-/

namespace SwiftKStdlib.IRGen

open Lib.BitWords

/-! ## Values -/

abbrev Value := (size : Nat) × BitVec size

section Builder

variable {w : Nat}

def createLShr (v : BitVec w) (n : Nat) : Option (BitVec w) :=
  if n < w then some (v >>> n) else none

def createShl (v : BitVec w) (n : Nat) : Option (BitVec w) :=
  if n < w then some (v <<< n) else none

end Builder

inductive LazyValue where
  | value {size : Nat} (v : BitVec size)
  | type (size : Nat)

namespace LazyValue

def size : LazyValue → Nat
  | @value size _ => size
  | type size => size

def isType : LazyValue → Bool
  | value _ => false
  | type _ => true

def forcePayloadValue : (pv : LazyValue) → BitVec pv.size
  | value v => v
  | type size => 0#(size)

def testBit (pv : LazyValue) (i : Nat) : Bool := pv.forcePayloadValue.getLsbD i

@[simp] theorem testBit_value {size : Nat} (v : BitVec size) (i : Nat) :
    (value v).testBit i = v.getLsbD i := rfl

@[simp] theorem testBit_type (size i : Nat) : (type size).testBit i = false := BitVec.getLsbD_zero

theorem testBit_of_le {pv : LazyValue} {i : Nat} (h : pv.size ≤ i) : pv.testBit i = false :=
  BitVec.getLsbD_of_ge _ _ h

end LazyValue

/-! ## Payloads -/

structure IRGenModule where
  pointerSize : Nat
  pointerSize_pos : 0 < pointerSize

/-- How an enum payload is represented: by the types of an explosion schema, or by a number of bits. -/
inductive EnumPayloadSchema where
  | explosionSchema (elements : List Nat)
  | bitSize (bits : Nat)

namespace EnumPayloadSchema

/-- Pointer-sized integers, and the rest. -/
def chunkTypes (IGM : IRGenModule) (bitSize : Nat) : List Nat :=
  if IGM.pointerSize ≤ bitSize then
    IGM.pointerSize :: chunkTypes IGM (bitSize - IGM.pointerSize)
  else if 0 < bitSize then [bitSize] else []
termination_by bitSize
decreasing_by
  have := IGM.pointerSize_pos
  omega

/-- The sizes of the types that `forEachType` hands to its functor. -/
def forEachType (IGM : IRGenModule) : EnumPayloadSchema → List Nat
  | explosionSchema elements => elements
  | bitSize bits => chunkTypes IGM bits

end EnumPayloadSchema

structure EnumPayload where
  payloadValues : List LazyValue

namespace EnumPayload

def sizes (payload : EnumPayload) : List Nat := payload.payloadValues.map LazyValue.size

def bitSize (payload : EnumPayload) : Nat := payload.sizes.sum

/-- A chunk, merged with the chunk of a mask. Two values of different types cannot be merged. -/
def orPiece : LazyValue → LazyValue → Option LazyValue
  | pv, .type _ => some pv
  | .type _, mask => some mask
  | @LazyValue.value size v1, @LazyValue.value size' v2 =>
    if h : size' = size then some (.value (v1 ||| v2.cast h)) else none

def orChunks : List LazyValue → List LazyValue → Option (List LazyValue)
  | [], [] => some []
  | pv :: pvs, mask :: masks => do
    let chunk ← orPiece pv mask
    let chunks ← orChunks pvs masks
    some (chunk :: chunks)
  | _, _ => none

def emitApplyOrMaskPayload (payload mask : EnumPayload) : Option EnumPayload := do
  let chunks ← orChunks payload.payloadValues mask.payloadValues
  some ⟨chunks⟩

/-! ## The bits of a payload -/

def chunksToNat : List LazyValue → Nat
  | [] => 0
  | pv :: pvs => 2 ^ pv.size * chunksToNat pvs + pv.forcePayloadValue.toNat

theorem chunksToNat_type (size : Nat) (pvs : List LazyValue) :
    chunksToNat (.type size :: pvs) = 2 ^ size * chunksToNat pvs := rfl

def toNat (payload : EnumPayload) : Nat := chunksToNat payload.payloadValues

theorem testBit_chunksToNat_cons (pv : LazyValue) (pvs : List LazyValue) (i : Nat) :
    (chunksToNat (pv :: pvs)).testBit i =
      if i < pv.size then pv.testBit i else (chunksToNat pvs).testBit (i - pv.size) := by
  rw [chunksToNat, Nat.testBit_two_pow_mul_add _ pv.forcePayloadValue.isLt]
  rfl

/-! ## Masks -/

section Masks

theorem testBit_piece {n : Nat} (mask : BitVec n) {size i : Nat} (h : i < size) :
    (mask.setWidth size).getLsbD i = mask.getLsbD i := by
  rw [BitVec.getLsbD_setWidth, decide_eq_true h, Bool.true_and]

theorem testBit_shiftPiece {n : Nat} (mask : BitVec n) {size i : Nat} (h : ¬ i < size) :
    (mask >>> size).getLsbD (i - size) = mask.getLsbD i := by
  rw [BitVec.getLsbD_ushiftRight, Nat.add_sub_cancel' (Nat.le_of_not_lt h)]

variable (payload : EnumPayload)

theorem orPiece_spec {pv mask : LazyValue} (h : pv.size = mask.size) :
    ∃ chunk, orPiece pv mask = some chunk ∧ chunk.size = pv.size ∧
      ∀ i, chunk.testBit i = (pv.testBit i || mask.testBit i) := by
  cases mask with
  | type size =>
    refine ⟨pv, by cases pv <;> rfl, rfl, fun i => ?_⟩
    simp
  | @value size' v2 =>
    cases pv with
    | type size =>
      refine ⟨.value v2, rfl, h.symm, fun i => ?_⟩
      simp
    | @value size v1 =>
      obtain rfl : size = size' := h
      refine ⟨.value (v1 ||| v2.cast rfl), dif_pos rfl, rfl, fun i => ?_⟩
      simp

theorem orChunks_spec {pvs masks : List LazyValue} (h : pvs.map LazyValue.size = masks.map LazyValue.size) :
    ∃ chunks, orChunks pvs masks = some chunks ∧ chunks.map LazyValue.size = pvs.map LazyValue.size ∧
      chunksToNat chunks = chunksToNat pvs ||| chunksToNat masks := by
  induction pvs generalizing masks with
  | nil =>
    obtain rfl : masks = [] := List.map_eq_nil_iff.1 h.symm
    exact ⟨[], rfl, rfl, rfl⟩
  | cons pv pvs ih =>
    cases masks with
    | nil => exact absurd h (by simp)
    | cons mask masks =>
      obtain ⟨hsize, hsizes⟩ := List.cons.inj h
      obtain ⟨chunk, hchunk, hsame, hbits⟩ := orPiece_spec hsize
      obtain ⟨chunks, hchunks, hsames, heq⟩ := ih hsizes
      refine ⟨chunk :: chunks, ?_, ?_, ?_⟩
      · rw [orChunks, hchunk, hchunks]
        rfl
      · rw [List.map_cons, List.map_cons, hsame, hsames]
      · apply Nat.eq_of_testBit_eq
        intro i
        rw [Nat.testBit_or, testBit_chunksToNat_cons, testBit_chunksToNat_cons, testBit_chunksToNat_cons,
          hsame, ← hsize, heq]
        split_ifs
        · exact hbits i
        · exact Nat.testBit_or _ _ _

theorem toNat_emitApplyOrMaskPayload {payload mask : EnumPayload} (h : payload.sizes = mask.sizes) :
    ∃ result, payload.emitApplyOrMaskPayload mask = some result ∧ result.sizes = payload.sizes ∧
      result.toNat = payload.toNat ||| mask.toNat := by
  obtain ⟨chunks, hchunks, hsizes, heq⟩ := orChunks_spec h
  refine ⟨⟨chunks⟩, ?_, hsizes, heq⟩
  rw [emitApplyOrMaskPayload, hchunks]
  rfl

end Masks

end EnumPayload

end SwiftKStdlib.IRGen
