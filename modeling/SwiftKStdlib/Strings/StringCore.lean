import Mathlib.Tactic

/-!
# `_StringCore`, growing

A native `_StringCore` is the elements it shows and the buffer that owns them, if one does. The
elements are stored in 8 or in 16 bits each. What is done with the units of a sequence is kept in a
log: `Appending` is the string so far with every `Store` of a unit into it, by the width of the
elements at that moment. `none` is a trap.

`heapCapacity` is what the allocator makes of a request, in 16-bit elements.
-/

namespace SwiftKStdlib.Strings

/-- The contiguous storage, by its element width. -/
inductive Storage where
  | ascii (units : List (BitVec 8))
  | utf16 (units : List (BitVec 16))
  deriving DecidableEq, Repr

/-- `UTF8.CodeUnit(u)`, which traps if the value does not fit. -/
def utf8CodeUnit (u : BitVec 16) : Option (BitVec 8) :=
  if u.toNat ≤ 0xff then some (u.setWidth 8) else none

namespace Storage

def elementWidth : Storage → Nat
  | ascii _ => 1
  | utf16 _ => 2

def count : Storage → Nat
  | ascii units => units.length
  | utf16 units => units.length

def units : Storage → List (BitVec 16)
  | ascii units => units.map (BitVec.setWidth 16)
  | utf16 units => units

/-- Claim storage up to `newSize`. The new elements are garbage, zero here. -/
def extend (newSize : Nat) : Storage → Storage
  | ascii units => ascii (units ++ List.replicate (newSize - units.length) 0)
  | utf16 units => utf16 (units ++ List.replicate (newSize - units.length) 0)

/-- `destination[i] = u` at the width of the storage. -/
def set (position : Nat) (u : BitVec 16) : Storage → Option Storage
  | ascii units => do
    let u ← utf8CodeUnit u
    some (ascii (units.set position u))
  | utf16 units => some (utf16 (units.set position u))

/-- `isRepresentableAsASCII()`. -/
def isRepresentableAsASCII : Storage → Bool
  | ascii _ => true
  | utf16 units => !units.any fun u => 0x7f < u.toNat

/-- `_copyElements` into new storage of the given element width. -/
def copyElements (dstElementWidth : Nat) : Storage → Option Storage
  | ascii units =>
    if dstElementWidth = 1 then some (ascii units) else some (utf16 (units.map (BitVec.setWidth 16)))
  | utf16 units =>
    if dstElementWidth = 1 then do
      let units ← units.mapM utf8CodeUnit
      some (ascii units)
    else some (utf16 units)

end Storage

/-- What a `_StringCore` asks of the `_StringBuffer` that owns its storage. The counts are in elements
of its width; `baseOffset` is how far into the buffer the string begins. -/
structure NativeBuffer where
  capacity : Nat
  usedCount : Nat
  baseOffset : Nat
  isUniquelyReferenced : Bool
  deriving DecidableEq, Repr

/-- `_StringBuffer(capacity:initialSize:elementWidth:)`. -/
def NativeBuffer.allocate (heapCapacity : Nat → Nat) (capacity initialSize elementWidth : Nat) :
    NativeBuffer :=
  let elementShift := elementWidth - 1
  let capacityBump := 1 - elementShift
  let divRound := 1 - elementShift
  let storageCapacity := heapCapacity ((capacity + capacityBump + divRound) >>> divRound)
  { capacity := ((storageCapacity - capacityBump) <<< 1) >>> elementShift
    usedCount := initialSize
    baseOffset := 0
    isUniquelyReferenced := true }

/-- A native `_StringCore`. -/
structure StringCore where
  storage : Storage
  nativeBuffer : Option NativeBuffer
  deriving DecidableEq, Repr

namespace StringCore

def count (core : StringCore) : Nat := core.storage.count

def elementWidth (core : StringCore) : Nat := core.storage.elementWidth

def units (core : StringCore) : List (BitVec 16) := core.storage.units

end StringCore

/-- `_growArrayCapacity(capacity)`. -/
def growArrayCapacity (capacity : Nat) : Nat := capacity * 2

/-- `_claimCapacity(newSize, minElementWidth:)`: the string with the capacity claimed, or a new capacity
to allocate. -/
def StringCore.claimCapacity (core : StringCore) (newSize minElementWidth : Nat) :
    Nat × Option StringCore :=
  match core.nativeBuffer with
  | none => (newSize, none)
  | some buffer =>
    if minElementWidth ≤ core.elementWidth ∧ buffer.isUniquelyReferenced = true then
      if buffer.baseOffset = 0 ∧ newSize ≤ buffer.capacity then
        (0, some ⟨core.storage.extend newSize, some { buffer with usedCount := newSize }⟩)
      else if buffer.capacity < newSize then (max (growArrayCapacity buffer.capacity) newSize, none)
      else (newSize, none)
    else (newSize, none)

/-- The element width of the storage that `_copyInPlace` allocates: it may be less than that of the
string. -/
def StringCore.newElementWidth (core : StringCore) (minElementWidth : Nat) : Nat :=
  if core.elementWidth ≤ minElementWidth then minElementWidth
  else if core.storage.isRepresentableAsASCII then 1 else 2

section

variable (heapCapacity : Nat → Nat)

/-- `_copyInPlace(newSize:newCapacity:minElementWidth:)`. -/
def StringCore.copyInPlace (core : StringCore) (newSize newCapacity minElementWidth : Nat) :
    Option StringCore := do
  let newElementWidth := core.newElementWidth minElementWidth
  let newStorage := NativeBuffer.allocate heapCapacity newCapacity newSize newElementWidth
  let copied ← core.storage.copyElements newElementWidth
  some ⟨copied.extend newSize, some newStorage⟩

/-- `_growBuffer(newSize, minElementWidth:)`; the garbage begins at the old count. -/
def StringCore.growBuffer (core : StringCore) (newSize minElementWidth : Nat) : Option StringCore :=
  match core.claimCapacity newSize minElementWidth with
  | (_, some core) => some core
  | (newCapacity, none) => core.copyInPlace heapCapacity newSize newCapacity minElementWidth

/-- A unit was stored, as an element of the given width. -/
structure Store where
  elementWidth : Nat
  unit : BitVec 16
  deriving DecidableEq, Repr

/-- A string that is being appended to, and the units stored into it. -/
structure Appending where
  core : StringCore
  stores : List Store
  deriving DecidableEq, Repr

def Appending.store (a : Appending) (position : Nat) (u : BitVec 16) : Option Appending := do
  let storage ← a.core.storage.set position u
  some ⟨{ a.core with storage }, a.stores ++ [⟨a.core.elementWidth, u⟩]⟩

/-- `_growBuffer`, of a string that is being appended to. -/
def Appending.growBuffer (a : Appending) (newSize minElementWidth : Nat) : Option Appending := do
  let core ← a.core.growBuffer heapCapacity newSize minElementWidth
  some { a with core }

/-- `append(u0, u1)`. -/
def Appending.append (a : Appending) (u0 : BitVec 16) (u1 : Option (BitVec 16)) : Option Appending := do
  let minBytesPerCodeUnit := if u0.toNat ≤ 0x7f then 1 else 2
  let utf16Width := if u1.isNone then 1 else 2
  let destination := a.core.count
  let a ← a.growBuffer heapCapacity (destination + utf16Width) minBytesPerCodeUnit
  if a.core.elementWidth = 1 then a.store destination u0
  else do
    let a ← a.store destination u0
    match u1 with
    | none => some a
    | some u1 => a.store (destination + 1) u1

/-! ## `append(contentsOf:)` -/

/-- A sequence of code units, with what it says of itself. -/
structure CodeUnitSequence where
  units : List (BitVec 16)
  underestimatedCount : Int
  underestimatedCount_le : underestimatedCount ≤ units.length
  /-- It can be iterated more than once, as a collection can. -/
  isMultiPass : Bool

/-- `_preprocessingPass(preprocess)`: a sequence that may be iterated only once does not run it. -/
def CodeUnitSequence.preprocessingPass {R : Type} (s : CodeUnitSequence)
    (preprocess : List (BitVec 16) → R) : Option R :=
  if s.isMultiPass then some (preprocess s.units) else none

/-- The loop that stores the first `growth` units of the iterator into the storage that has been
claimed for them. What is left of the iterator is the first component. -/
def Appending.storeInitial (destination : Nat) :
    Nat → List (BitVec 16) → Appending → Option (List (BitVec 16) × Appending)
  | 0, iter, a => some (iter, a)
  | _ + 1, [], _ => none
  | growth + 1, u :: iter, a => do
    let a ← a.store destination u
    storeInitial (destination + 1) growth iter a

def Appending.appendRemaining (a : Appending) (iter : List (BitVec 16)) : Option Appending :=
  iter.foldlM (fun a u => a.append heapCapacity u none) a

/-- The element width that `append(contentsOf:)` asks for. -/
def StringCore.appendWidth (core : StringCore) (s : CodeUnitSequence) : Nat :=
  let width := core.elementWidth
  if width = 1 then
    match s.preprocessingPass fun units => units.any fun u => 0x7f < u.toNat with
    | some hasNonAscii => if hasNonAscii then 2 else 1
    | none => width
  else width

/-- `append(contentsOf: s)`. -/
def StringCore.appendContentsOf (core : StringCore) (s : CodeUnitSequence) : Option Appending := do
  let width := core.appendWidth s
  let growth := s.underestimatedCount
  let a : Appending := ⟨core, []⟩
  let (iter, a) ← (if 0 < growth then do
      let destination := core.count
      let a ← a.growBuffer heapCapacity (destination + growth.toNat) width
      a.storeInitial destination growth.toNat s.units
    else some (s.units, a))
  a.appendRemaining heapCapacity iter

end

end SwiftKStdlib.Strings
