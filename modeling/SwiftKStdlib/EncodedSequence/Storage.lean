import SwiftKStdlib.Lib.Loop
import Mathlib.Data.List.Basic
import Mathlib.Tactic.Common
import SwiftKStdlib.Lib.BitField

/-!
# Encoded sequences and their storage

* `encodeIndex`, `decodeIndex`, `getEncodedIndexSize` : an index as chunks of seven bits;
* `decodeIndex_encodeIndex` : what is encoded is decoded, up to where the encoding ends;
* `Element` : elements that are encoded as indices, with `encode`, `decode` and `getEncodedSize`;
* `elements` : the iteration over chunks; `elements_encode` : it gives the elements that were encoded, if each of them
  has an index;
* `Data` : the word of a sequence, which holds up to seven chunks with their number and a tag, or the address of an
  `OutOfLineStorage` in the `Heap`;
* `claimStorage`, `copyConstruct`, `copyAssign`, `destroy`, `push_back` : `none` where an assertion fails, memory is
  written behind its end, or storage is used that is not there;
* `take_writeAt`, `inlineStorage_writeInline`, `setInlineSize_spec` : what the writes leave;
* `capacity_le`, `newAllocSize_le` : the size of new storage.
-/

namespace SwiftKStdlib.EncodedSequence
open SwiftKStdlib.Lib

abbrev Chunk := BitVec 8

/-- A byte of memory: `none` as long as nothing is written to it. -/
abbrev Cell := Option Chunk

def IndexBitsPerChunk : Nat := 7

def IndexContinuesMask : BitVec 32 := 0x80

def IndexChunkMask : BitVec 32 := 0x7F

/-! ## Indices -/

theorem toNat_ushiftRight_lt {value : BitVec 32} (h : ¬ value >>> IndexBitsPerChunk = 0) :
    (value >>> IndexBitsPerChunk).toNat < value.toNat := by
  have hne : value.toNat / 2 ^ 7 ≠ 0 := by
    intro hzero
    apply h
    apply BitVec.eq_of_toNat_eq
    simpa [IndexBitsPerChunk, Nat.shiftRight_eq_div_pow] using hzero
  simp only [IndexBitsPerChunk, BitVec.toNat_ushiftRight, Nat.shiftRight_eq_div_pow]
  omega

/-- The chunks that `encodeIndex` writes. -/
def encodeIndex (value : BitVec 32) : List Chunk :=
  let chunk := (value &&& IndexChunkMask).setWidth 8
  let nextValue := value >>> IndexBitsPerChunk
  if nextValue = 0 then [chunk] else (chunk ||| IndexContinuesMask.setWidth 8) :: encodeIndex nextValue
termination_by value.toNat
decreasing_by exact toNat_ushiftRight_lt ‹_›

def getEncodedIndexSize (value : BitVec 32) : Nat :=
  let nextValue := value >>> IndexBitsPerChunk
  if nextValue = 0 then 1 else 1 + getEncodedIndexSize nextValue
termination_by value.toNat
decreasing_by exact toNat_ushiftRight_lt ‹_›

/-- The loop of `decodeIndex`, with where the pointer is after it. A shift by 32 or more is not defined. -/
def decodeIndexLoop : List Cell → BitVec 32 → Nat → Option (BitVec 32 × List Cell)
  | some c :: ptr, value, shift =>
      let chunk := c.setWidth 32
      if 32 ≤ shift then none
      else if chunk &&& IndexContinuesMask ≠ 0 then
        decodeIndexLoop ptr (value ||| ((chunk ^^^ IndexContinuesMask) <<< shift)) (shift + IndexBitsPerChunk)
      else some (value ||| (chunk <<< shift), ptr)
  | _, _, _ => none

def decodeIndex (ptr : List Cell) : Option (BitVec 32 × List Cell) := decodeIndexLoop ptr 0 0

theorem length_encodeIndex (value : BitVec 32) : (encodeIndex value).length = getEncodedIndexSize value := by
  fun_induction getEncodedIndexSize value with
  | case1 value nextValue hzero =>
      rw [encodeIndex, if_pos hzero]
      rfl
  | case2 value nextValue hne ih =>
      rw [encodeIndex, if_neg hne, List.length_cons, ih, Nat.add_comm]

theorem encodeIndex_ne_nil (value : BitVec 32) : encodeIndex value ≠ [] := by
  rw [encodeIndex]
  split
  · exact List.cons_ne_nil _ _
  · exact List.cons_ne_nil _ _

theorem chunk_continues (c : BitVec 7) :
    ((c.setWidth 8 ||| IndexContinuesMask.setWidth 8).setWidth 32 &&& IndexContinuesMask ≠ 0) ∧
      (c.setWidth 8 ||| IndexContinuesMask.setWidth 8).setWidth 32 ^^^ IndexContinuesMask = c.setWidth 32 := by
  revert c
  decide +kernel

theorem chunk_ends (c : BitVec 7) : ¬ (c.setWidth 8).setWidth 32 &&& IndexContinuesMask ≠ 0 := by
  revert c
  decide +kernel

theorem setWidth_setWidth_chunk (c : BitVec 7) : (c.setWidth 8).setWidth 32 = c.setWidth 32 := by
  revert c
  decide +kernel

theorem setWidth_and_mask (value : BitVec 32) :
    (value &&& IndexChunkMask).setWidth 8 = (value.setWidth 7).setWidth 8 := by
  ext i hi
  simp only [BitVec.getElem_setWidth, BitVec.getLsbD_and, BitVec.getLsbD_setWidth]
  rcases lt_or_ge i 7 with h | h
  · have hmask : IndexChunkMask.getLsbD i = true := by
      revert h
      revert i
      decide
    simp [hmask, h]
  · obtain rfl : i = 7 := by omega
    simp [IndexChunkMask]

theorem shiftLeft_or_shiftLeft (value : BitVec 32) (shift : Nat) :
    ((value.setWidth 7).setWidth 32 <<< shift) ||| ((value >>> IndexBitsPerChunk) <<< (shift + IndexBitsPerChunk)) =
      value <<< shift := by
  apply BitVec.eq_of_getLsbD_eq
  intro i hi
  simp only [BitVec.getLsbD_or, BitVec.getLsbD_shiftLeft, BitVec.getLsbD_setWidth, BitVec.getLsbD_ushiftRight,
    IndexBitsPerChunk]
  by_cases h : i < shift
  · simp [h, show i < shift + 7 by omega]
  · by_cases h' : i < shift + 7
    · simp [h, h', hi, show i - shift < 7 by omega, show i - shift < 32 by omega]
    · simp [h, h', hi, show ¬ i - shift < 7 by omega, show 7 + (i - (shift + 7)) = i - shift by omega]

theorem decodeIndexLoop_encodeIndex (value acc : BitVec 32) (shift : Nat) (rest : List Cell) (hshift : shift < 32)
    (hvalue : value.toNat < 2 ^ (32 - shift)) :
    decodeIndexLoop ((encodeIndex value).map some ++ rest) acc shift = some (acc ||| (value <<< shift), rest) := by
  fun_induction encodeIndex value generalizing acc shift with
  | case1 value chunk nextValue hzero =>
      have hsplit := shiftLeft_or_shiftLeft value shift
      rw [show value >>> IndexBitsPerChunk = 0 from hzero] at hsplit
      rw [List.map_cons, List.map_nil, List.singleton_append, decodeIndexLoop]
      simp only [chunk, setWidth_and_mask, if_neg (not_le.2 hshift), if_neg (chunk_ends _)]
      rw [setWidth_setWidth_chunk, ← hsplit]
      simp
  | case2 value chunk nextValue hne ih =>
      have hnext : nextValue.toNat = value.toNat / 2 ^ 7 := by
        simp only [nextValue, IndexBitsPerChunk, BitVec.toNat_ushiftRight, Nat.shiftRight_eq_div_pow]
      have hpos : nextValue.toNat ≠ 0 := by
        intro hzero
        exact hne (BitVec.eq_of_toNat_eq hzero)
      have hroom : shift + IndexBitsPerChunk < 32 := by
        rw [IndexBitsPerChunk]
        by_contra hcontra
        have hpow : 2 ^ (32 - shift) ≤ 2 ^ 7 := Nat.pow_le_pow_right (by decide) (by omega)
        omega
      have hpow : 2 ^ (32 - shift) = 2 ^ (32 - (shift + IndexBitsPerChunk)) * 2 ^ 7 := by
        rw [IndexBitsPerChunk] at hroom ⊢
        rw [← Nat.pow_add]
        congr 1
        omega
      obtain ⟨hcontinues, hxor⟩ := chunk_continues (value.setWidth 7)
      rw [List.map_cons, List.cons_append, decodeIndexLoop]
      simp only [chunk, setWidth_and_mask, if_neg (not_le.2 hshift), if_pos hcontinues, hxor]
      rw [ih _ _ hroom ?_, BitVec.or_assoc, shiftLeft_or_shiftLeft]
      rw [hnext]
      rw [hpow] at hvalue
      exact Nat.div_lt_of_lt_mul (by rwa [Nat.mul_comm])

theorem decodeIndex_encodeIndex (value : BitVec 32) (rest : List Cell) :
    decodeIndex ((encodeIndex value).map some ++ rest) = some (value, rest) := by
  rw [decodeIndex, decodeIndexLoop_encodeIndex value 0 0 rest (by decide) value.isLt]
  simp

/-! ## Elements -/

inductive Decoder (E : Type) where
  | done (elt : E)
  | index (next : BitVec 32 → Decoder E)

/-- The element that is read from exactly these indices. -/
def Decoder.apply {E : Type} : Decoder E → List (BitVec 32) → Option E
  | .done elt, [] => some elt
  | .done _, _ :: _ => none
  | .index _, [] => none
  | .index next, value :: values => (next value).apply values

/-- A type of elements: the indices that `encode` writes, and the reads of `decode`, which goes as far. -/
structure Element (E : Type) where
  indices : E → List (BitVec 32)
  decoder : Decoder E
  apply_indices : ∀ elt, decoder.apply (indices elt) = some elt

namespace Element

variable {E : Type} (T : Element E)

def encode (elt : E) : List Chunk := (T.indices elt).flatMap encodeIndex

/-- An `unsigned` sum. -/
def getEncodedSize (elt : E) : Nat := ((T.indices elt).map getEncodedIndexSize).sum % 2 ^ 32

end Element

variable {E : Type}

def Decoder.decode : Decoder E → List Cell → Option (E × List Cell)
  | .done elt, ptr => some (elt, ptr)
  | .index next, ptr => do
    let (value, ptr) ← decodeIndex ptr
    (next value).decode ptr

/-- One element of an iteration, with the elements up to there. -/
def elementsBody (decoder : Decoder E) (s : List Cell × List E) : Option (Step (List Cell × List E) (List E)) :=
  if s.1.isEmpty then some (.done s.2)
  else do
    let (elt, ptr) ← decoder.decode s.1
    some (.next (ptr, s.2 ++ [elt]))

def elements (decoder : Decoder E) (fuel : Nat) (chunks : List Cell) : Option (List E) :=
  iterate (elementsBody decoder) fuel (chunks, [])

theorem Decoder.decode_flatMap {decoder : Decoder E} {values : List (BitVec 32)} {elt : E}
    (h : decoder.apply values = some elt) (rest : List Cell) :
    decoder.decode ((values.flatMap encodeIndex).map some ++ rest) = some (elt, rest) := by
  induction values generalizing decoder with
  | nil =>
      cases decoder with
      | done e =>
          cases h
          rfl
      | index next => cases h
  | cons value values ih =>
      cases decoder with
      | done e => cases h
      | index next =>
          rw [List.flatMap_cons, List.map_append, List.append_assoc, Decoder.decode, decodeIndex_encodeIndex]
          exact ih h

namespace Element

variable {T : Element E} {elt : E} {l : List E}

theorem decode_encode (elt : E) (rest : List Cell) :
    T.decoder.decode ((T.encode elt).map some ++ rest) = some (elt, rest) :=
  Decoder.decode_flatMap (T.apply_indices elt) rest

theorem getEncodedSize_eq (elt : E) : T.getEncodedSize elt = (T.encode elt).length % 2 ^ 32 := by
  simp only [getEncodedSize, encode, List.length_flatMap, length_encodeIndex]

theorem encode_eq_nil_iff : T.encode elt = [] ↔ T.indices elt = [] := by
  unfold encode
  rw [List.flatMap_eq_nil_iff]
  constructor
  · intro h
    cases hi : T.indices elt with
    | nil => rfl
    | cons value values =>
        rw [hi] at h
        exact absurd (h value List.mem_cons_self) (encodeIndex_ne_nil value)
  · intro h value hvalue
    rw [h] at hvalue
    cases hvalue

theorem iterate_flatMap (h : ∀ elt ∈ l, T.indices elt ≠ []) (acc : List E) {fuel : Nat} (hfuel : l.length < fuel) :
    iterate (elementsBody T.decoder) fuel ((l.flatMap T.encode).map some, acc) = some (acc ++ l) := by
  obtain ⟨fuel, rfl⟩ := Nat.exists_eq_add_one.2 (Nat.zero_lt_of_lt hfuel)
  induction l generalizing acc fuel with
  | nil =>
      rw [List.append_nil]
      exact iterate_done rfl
  | cons elt l ih =>
      rw [List.forall_mem_cons] at h
      rw [List.length_cons, Nat.add_lt_add_iff_right] at hfuel
      obtain ⟨fuel, rfl⟩ := Nat.exists_eq_add_one.2 (Nat.zero_lt_of_lt hfuel)
      have hne : T.encode elt ≠ [] := by
        rw [Ne, encode_eq_nil_iff]
        exact h.1
      have hbody : elementsBody T.decoder (((elt :: l).flatMap T.encode).map some, acc) =
          some (.next ((l.flatMap T.encode).map some, acc ++ [elt])) := by
        unfold elementsBody
        rw [if_neg (by simp [hne]), List.flatMap_cons, List.map_append, decode_encode]
        rfl
      rw [iterate_next hbody, ih h.2 _ _ hfuel, List.append_assoc, List.singleton_append]

theorem elements_flatMap (h : ∀ elt ∈ l, T.indices elt ≠ []) {fuel : Nat} (hfuel : l.length < fuel) :
    elements T.decoder fuel ((l.flatMap T.encode).map some) = some l :=
  iterate_flatMap h [] hfuel

end Element

end SwiftKStdlib.EncodedSequence

namespace SwiftKStdlib.EncodedSequence
open SwiftKStdlib.Lib

/-! ## Memory -/

/-- Out-of-line chunk storage: two fields of 16 bits, and the bytes that are allocated behind them. -/
structure OutOfLineStorage where
  Size : Nat
  Capacity : Nat
  cells : List Cell

def sizeofOutOfLineStorage : Nat := 4

/-- What `memcpy` leaves in the bytes that it copies to. -/
def memcpy (dst src : List Cell) : Option (List Cell) :=
  if src.length ≤ dst.length then some (src ++ dst.drop src.length) else none

def writeAt : List Cell → Nat → List Chunk → List Cell
  | cells, _, [] => cells
  | cells, i, c :: cs => writeAt (cells.set i (some c)) (i + 1) cs

namespace OutOfLineStorage

/-- The constructor on `bytes` bytes of new memory. -/
def mk' (capacity bytes : Nat) : OutOfLineStorage := ⟨0, capacity % 2 ^ 16, List.replicate bytes none⟩

def setSize (s : OutOfLineStorage) (newSize : Nat) : Option OutOfLineStorage :=
  if newSize ≤ s.Capacity then some { s with Size := newSize % 2 ^ 16 } else none

def chunkStorage (s : OutOfLineStorage) : List Cell := s.cells.take s.Capacity

def chunks (s : OutOfLineStorage) : List Cell := s.cells.take s.Size

def clone (s : OutOfLineStorage) (newCapacity : Nat) : Option OutOfLineStorage := do
  if newCapacity < s.Size then none
  else
    let newData ← (mk' newCapacity newCapacity).setSize s.Size
    let cells ← memcpy newData.cells s.chunks
    some { newData with cells := cells }

def alloc (newSizeInBytes : Nat) : OutOfLineStorage :=
  mk' (newSizeInBytes - sizeofOutOfLineStorage) (newSizeInBytes - sizeofOutOfLineStorage)

end OutOfLineStorage

/-- The heap: the storage at each address, and the first address that is not yet given. -/
structure Heap where
  cells : Nat → Option OutOfLineStorage
  next : Nat

namespace Heap

def store (h : Heap) (p : Nat) (s : OutOfLineStorage) : Heap := { h with cells := Function.update h.cells p (some s) }

def new (h : Heap) (s : OutOfLineStorage) : Heap := ⟨Function.update h.cells h.next (some s), h.next + 1⟩

def delete (h : Heap) (p : Nat) : Option Heap :=
  if (h.cells p).isSome then some { h with cells := Function.update h.cells p none } else none

variable (h : Heap) (s : OutOfLineStorage) {p q : Nat}

@[simp] theorem store_next : (h.store p s).next = h.next := rfl

@[simp] theorem store_cells_self : (h.store p s).cells p = some s := Function.update_self p _ _

theorem store_cells_of_ne (hne : q ≠ p) : (h.store p s).cells q = h.cells q := Function.update_of_ne hne _ _

@[simp] theorem new_next : (h.new s).next = h.next + 1 := rfl

@[simp] theorem new_cells_self : (h.new s).cells h.next = some s := Function.update_self h.next _ _

theorem new_cells_of_ne (hne : q ≠ h.next) : (h.new s).cells q = h.cells q := Function.update_of_ne hne _ _

variable {h s}

theorem delete_spec (hs : h.cells p = some s) :
    ∃ h', h.delete p = some h' ∧ h'.next = h.next ∧ h'.cells p = none ∧ ∀ q, q ≠ p → h'.cells q = h.cells q := by
  refine ⟨{ h with cells := Function.update h.cells p none }, ?_, rfl, Function.update_self p _ _, ?_⟩
  · rw [delete, hs, Option.isSome_some, if_pos rfl]
  · intro q hq
    exact Function.update_of_ne hq _ _

end Heap

/-! ## The word -/

/-- The field `Data`: an address, which is even, or the word itself. -/
inductive Data where
  | word (w : BitVec 64)
  | pointer (p : Nat)

def IsInline : BitVec 64 := 1

def InitialDataValue : Data := .word IsInline

def Data.hasOutOfLineStorage : Data → Bool
  | .word w => w &&& IsInline == 0
  | .pointer _ => true

def getInlineSize (w : BitVec 64) : Option Nat :=
  if (Data.word w).hasOutOfLineStorage then none else some ((w &&& 0xFF#64) >>> 1).toNat

def setInlineSize (w : BitVec 64) (size : Nat) : Option (BitVec 64) :=
  if (Data.word w).hasOutOfLineStorage then none
  else some ((w &&& ~~~0xFF#64) ||| (BitVec.ofNat 64 size <<< 1) ||| IsInline)

def inlineChunk (w : BitVec 64) (k : Nat) : Chunk := (BitField.get w (8 * (k + 1)) 8).setWidth 8

def setInlineChunk (w : BitVec 64) (k : Nat) (c : Chunk) : BitVec 64 := BitField.set w (8 * (k + 1)) 8 (c.setWidth 64)

def inlineCapacity : Nat := 7

def inlineStorage (w : BitVec 64) : List Cell := (List.range inlineCapacity).map fun k => some (inlineChunk w k)

def writeInline : BitVec 64 → Nat → List Chunk → BitVec 64
  | w, _, [] => w
  | w, i, c :: cs => writeInline (setInlineChunk w i c) (i + 1) cs

/-! ## Operations -/

def getOutOfLineStorage (h : Heap) : Data → Option (Nat × OutOfLineStorage)
  | .word _ => none
  | .pointer p => (h.cells p).map fun s => (p, s)

def chunkStorage (h : Heap) : Data → Option (List Cell)
  | .word w => some (inlineStorage w)
  | .pointer p => (h.cells p).map OutOfLineStorage.chunkStorage

def chunks (h : Heap) : Data → Option (List Cell)
  | .word w => (getInlineSize w).map fun n => (inlineStorage w).take n
  | .pointer p => (h.cells p).map OutOfLineStorage.chunks

def cloneOutOfLineStorage (h : Heap) (d : Data) : Option (Heap × Data) := do
  let (_, oldStorage) ← getOutOfLineStorage h d
  let newStorage ← oldStorage.clone oldStorage.Capacity
  some (h.new newStorage, .pointer h.next)

def destroyOutOfLineStorage (h : Heap) (d : Data) : Option Heap := do
  let (p, _) ← getOutOfLineStorage h d
  h.delete p

def copyConstruct (h : Heap) (other : Data) : Option (Heap × Data) :=
  if other.hasOutOfLineStorage then cloneOutOfLineStorage h other else some (h, other)

def destroy (h : Heap) (d : Data) : Option Heap :=
  if d.hasOutOfLineStorage then destroyOutOfLineStorage h d else some h

def copyAssign (h : Heap) (self other : Data) : Option (Heap × Data) :=
  if self.hasOutOfLineStorage then do
    let otherChunks ← chunks h other
    let (p, selfStorage) ← getOutOfLineStorage h self
    if otherChunks.length ≤ selfStorage.Capacity then
      let cells ← memcpy selfStorage.cells otherChunks
      let selfStorage ← { selfStorage with cells := cells }.setSize otherChunks.length
      some (h.store p selfStorage, self)
    else
      let h ← destroyOutOfLineStorage h self
      copyConstruct h other
  else copyConstruct h other

/-- The loop for `newAllocSize`, from 32 times `2 ^ n` on. -/
def newAllocSize (bytes n : Nat) : Nat :=
  if bytes > 32 * 2 ^ n then newAllocSize bytes (n + 1) else 32 * 2 ^ n
termination_by bytes - 32 * 2 ^ n
decreasing_by
  have := Nat.two_pow_pos n
  rw [Nat.pow_succ]
  omega

/-- Gives the old size too, which is where the claimed chunks begin. -/
def claimStorage (h : Heap) (d : Data) (extra : Nat) : Option (Heap × Data × Nat) := do
  let oldStorage ← chunkStorage h d
  let oldSize := (← chunks h d).length
  let newSize := oldSize + extra
  if newSize ≤ oldStorage.length then
    match d with
    | .word w =>
        let w ← setInlineSize w newSize
        some (h, .word w, oldSize)
    | .pointer p =>
        let s ← (h.cells p).bind fun s => s.setSize newSize
        some (h.store p s, d, oldSize)
  else
    let newStorage ← (OutOfLineStorage.alloc (newAllocSize (newSize + sizeofOutOfLineStorage) 0)).setSize newSize
    let cells ← memcpy newStorage.cells (oldStorage.take oldSize)
    let h' ← destroy (h.new { newStorage with cells := cells }) d
    some (h', .pointer h.next, oldSize)

/-- Writes chunks from an offset of the storage on. -/
def write (h : Heap) (d : Data) (offset : Nat) (cs : List Chunk) : Option (Heap × Data) :=
  match d with
  | .word w => if offset + cs.length ≤ inlineCapacity then some (h, .word (writeInline w offset cs)) else none
  | .pointer p => do
    let s ← h.cells p
    if offset + cs.length ≤ s.cells.length then some (h.store p { s with cells := writeAt s.cells offset cs }, d)
    else none

def push_back {E : Type} (T : Element E) (h : Heap) (d : Data) (elt : E) : Option (Heap × Data) := do
  let encodedSize := T.getEncodedSize elt
  let (h, d, offset) ← claimStorage h d encodedSize
  write h d offset (T.encode elt)

/-! ## Cells -/

theorem length_writeAt (cells : List Cell) (i : Nat) (cs : List Chunk) :
    (writeAt cells i cs).length = cells.length := by
  induction cs generalizing cells i with
  | nil => rfl
  | cons c cs ih => rw [writeAt, ih, List.length_set]

theorem take_writeAt (cells : List Cell) (i : Nat) (cs : List Chunk) (h : i + cs.length ≤ cells.length) :
    (writeAt cells i cs).take (i + cs.length) = cells.take i ++ cs.map some := by
  induction cs generalizing cells i with
  | nil => simp [writeAt]
  | cons c cs ih =>
      rw [List.length_cons] at h
      rw [writeAt, List.length_cons, ← Nat.add_assoc, Nat.add_right_comm, ih _ _ (by rw [List.length_set]; omega),
        List.take_add_one, List.take_set_of_le (Nat.le_refl i), List.getElem?_set_self (by omega), List.map_cons]
      simp

theorem take_memcpy {dst src cells : List Cell} (h : memcpy dst src = some cells) :
    cells.length = dst.length ∧ cells.take src.length = src := by
  unfold memcpy at h
  split_ifs at h with hle
  obtain rfl := Option.some.inj h
  refine ⟨?_, List.take_left⟩
  rw [List.length_append, List.length_drop]
  omega

theorem memcpy_eq_some {dst src : List Cell} (h : src.length ≤ dst.length) :
    memcpy dst src = some (src ++ dst.drop src.length) := if_pos h

theorem length_inlineStorage (w : BitVec 64) : (inlineStorage w).length = inlineCapacity := by
  rw [inlineStorage, List.length_map, List.length_range]

theorem inlineStorage_setInlineChunk (w : BitVec 64) {k : Nat} (c : Chunk) (hk : k < inlineCapacity) :
    inlineStorage (setInlineChunk w k c) = (inlineStorage w).set k (some c) := by
  unfold inlineCapacity at hk
  apply List.ext_getElem
  · rw [List.length_set, length_inlineStorage, length_inlineStorage]
  · intro j hj hj'
    rw [length_inlineStorage, inlineCapacity] at hj
    rw [List.getElem_set]
    simp only [inlineStorage, List.getElem_map, List.getElem_range, inlineChunk, setInlineChunk]
    split_ifs with heq
    · subst heq
      congr 1
      apply BitVec.eq_of_toNat_eq
      rw [BitVec.toNat_setWidth, BitField.get_set_self (by decide) (by omega), BitVec.toNat_setWidth]
      have := c.isLt
      omega
    · rw [BitField.get_set_of_disjoint (by decide) (by decide) (by omega)]

theorem inlineStorage_writeInline (w : BitVec 64) {i : Nat} {cs : List Chunk} (h : i + cs.length ≤ inlineCapacity) :
    inlineStorage (writeInline w i cs) = writeAt (inlineStorage w) i cs := by
  induction cs generalizing w i with
  | nil => rfl
  | cons c cs ih =>
      rw [List.length_cons] at h
      rw [writeInline, writeAt, ih _ (by omega), inlineStorage_setInlineChunk _ _ (by omega)]

/-! ## The low byte -/

theorem getInlineSize_eq_some_iff {w : BitVec 64} {n : Nat} :
    getInlineSize w = some n ↔ w &&& IsInline ≠ 0 ∧ ((w &&& 0xFF#64) >>> 1).toNat = n := by
  simp [getInlineSize, Data.hasOutOfLineStorage]

theorem hasOutOfLineStorage_word {w : BitVec 64} {n : Nat} (h : getInlineSize w = some n) :
    (Data.word w).hasOutOfLineStorage = false := by
  simpa [Data.hasOutOfLineStorage] using (getInlineSize_eq_some_iff.1 h).1

theorem getInlineSize_congr {w w' : BitVec 64} (h : w &&& 0xFF#64 = w' &&& 0xFF#64) :
    getInlineSize w = getInlineSize w' := by
  have htag : ∀ v : BitVec 64, v &&& IsInline = (v &&& 0xFF#64) &&& IsInline := by
    intro v
    rw [BitVec.and_assoc]
    rfl
  simp only [getInlineSize, Data.hasOutOfLineStorage, h, htag w, htag w']

theorem setInlineChunk_and (w : BitVec 64) (k : Nat) (c : Chunk) :
    setInlineChunk w k c &&& 0xFF#64 = w &&& 0xFF#64 := by
  apply BitVec.eq_of_getLsbD_eq
  intro i hi
  rw [BitVec.getLsbD_and, BitVec.getLsbD_and, setInlineChunk, BitField.getLsbD_set (by decide) _ _ hi]
  by_cases hlow : i < 8
  · rw [if_neg (by omega)]
  · have hmask : (0xFF#64).getLsbD i = false := by
      have hi' : 8 ≤ i := not_lt.1 hlow
      clear hlow
      revert i
      decide
    rw [hmask, Bool.and_false, Bool.and_false]

theorem getInlineSize_writeInline (w : BitVec 64) (i : Nat) (cs : List Chunk) :
    getInlineSize (writeInline w i cs) = getInlineSize w := by
  induction cs generalizing w i with
  | nil => rfl
  | cons c cs ih => rw [writeInline, ih, getInlineSize_congr (setInlineChunk_and w i c)]

theorem sizeField_eq {n : Nat} (hn : n ≤ inlineCapacity) :
    ((BitVec.ofNat 64 n <<< 1) ||| IsInline) &&& 0xFF#64 = (BitVec.ofNat 64 n <<< 1) ||| IsInline ∧
      ((BitVec.ofNat 64 n <<< 1) ||| IsInline) &&& IsInline ≠ 0 ∧
      (((BitVec.ofNat 64 n <<< 1) ||| IsInline) >>> 1).toNat = n := by
  unfold inlineCapacity at hn
  revert n
  decide

theorem field_and_mask (w m k : BitVec 64) : ((w &&& ~~~m) ||| k) &&& m = k &&& m := by
  apply BitVec.eq_of_getLsbD_eq
  intro i hi
  simp only [BitVec.getLsbD_and, BitVec.getLsbD_or, BitVec.getLsbD_not, hi, decide_true, Bool.true_and]
  cases w.getLsbD i <;> cases m.getLsbD i <;> simp

theorem setInlineSize_spec {w : BitVec 64} {n m : Nat} (h : getInlineSize w = some m) (hn : n ≤ inlineCapacity) :
    ∃ w', setInlineSize w n = some w' ∧ getInlineSize w' = some n ∧ inlineStorage w' = inlineStorage w := by
  obtain ⟨hfield, htag, hsize⟩ := sizeField_eq hn
  have hlow : ((w &&& ~~~0xFF#64) ||| (BitVec.ofNat 64 n <<< 1) ||| IsInline) &&& 0xFF#64 =
      (BitVec.ofNat 64 n <<< 1) ||| IsInline := by
    rw [BitVec.or_assoc, field_and_mask, hfield]
  refine ⟨(w &&& ~~~0xFF#64) ||| (BitVec.ofNat 64 n <<< 1) ||| IsInline, ?_, ?_, ?_⟩
  · rw [setInlineSize, hasOutOfLineStorage_word h]
    rfl
  · have hcongr := getInlineSize_congr (hlow.trans hfield.symm)
    rw [hcongr, getInlineSize_eq_some_iff, hfield]
    exact ⟨htag, hsize⟩
  · unfold inlineStorage inlineChunk
    apply List.map_congr_left
    intro k hk
    rw [List.mem_range, inlineCapacity] at hk
    congr 2
    apply BitVec.eq_of_getLsbD_eq
    intro i hi
    rw [BitField.getLsbD_get (by decide), BitField.getLsbD_get (by decide)]
    by_cases hi8 : i < 8
    · have hmask : (0xFF#64).getLsbD (8 * (k + 1) + i) = false := by
        generalize hj : 8 * (k + 1) + i = j
        have hj' : j < 64 := by omega
        have hj8 : 8 ≤ j := by omega
        clear hj
        revert j
        decide
      have hbit := congrArg (fun v => v.getLsbD (8 * (k + 1) + i)) hfield
      simp only [BitVec.getLsbD_and, hmask, Bool.and_false] at hbit
      rw [BitVec.or_assoc, BitVec.getLsbD_or, ← hbit, BitVec.getLsbD_and, BitVec.getLsbD_not, hmask]
      simp [show 8 * (k + 1) + i < 64 by omega]
    · simp [hi8]

/-! ## The size of new storage -/

theorem le_newAllocSize (bytes n : Nat) : bytes ≤ newAllocSize bytes n := by
  fun_induction newAllocSize bytes n with
  | case1 n h ih => exact ih
  | case2 n h => exact not_lt.1 h

theorem newAllocSize_eq {bytes : Nat} (n : Nat) (m : Nat) (hnm : n ≤ m) (hm : bytes ≤ 32 * 2 ^ m) :
    ∃ k, n ≤ k ∧ k ≤ m ∧ newAllocSize bytes n = 32 * 2 ^ k := by
  fun_induction newAllocSize bytes n with
  | case1 n h ih =>
      have hne : n ≠ m := by
        rintro rfl
        omega
      obtain ⟨k, hnk, hkm, hk⟩ := ih (by omega)
      exact ⟨k, by omega, hkm, hk⟩
  | case2 n h => exact ⟨n, Nat.le_refl n, hnm, rfl⟩

theorem exists_newAllocSize_eq (bytes n : Nat) : ∃ k, newAllocSize bytes n = 32 * 2 ^ k := by
  fun_induction newAllocSize bytes n with
  | case1 n h ih => exact ih
  | case2 n h => exact ⟨n, rfl⟩

theorem capacity_le (size : Nat) :
    (newAllocSize (size + sizeofOutOfLineStorage) 0 - sizeofOutOfLineStorage) % 2 ^ 16 ≤ 65532 := by
  obtain ⟨k, hk⟩ := exists_newAllocSize_eq (size + sizeofOutOfLineStorage) 0
  have hpos := Nat.two_pow_pos k
  rw [hk, sizeofOutOfLineStorage]
  omega

theorem newAllocSize_le {size : Nat} (h : size ≤ 65532) : newAllocSize (size + sizeofOutOfLineStorage) 0 ≤ 65536 := by
  have hbytes : size + sizeofOutOfLineStorage ≤ 32 * 2 ^ 11 := by
    rw [sizeofOutOfLineStorage]
    omega
  obtain ⟨k, -, hk, heq⟩ := newAllocSize_eq 0 11 (by decide) hbytes
  have hpow : 2 ^ k ≤ 2 ^ 11 := Nat.pow_le_pow_right (by decide) hk
  rw [heq]
  omega

end SwiftKStdlib.EncodedSequence
