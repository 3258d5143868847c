import Mathlib.Tactic
import SwiftKStdlib.Lib.Bytes
import SwiftKStdlib.Demangling.MangleIdentifier

/-!
# The node factory

* `Factory`, `allocate` : the bump-pointer allocator with its list of slabs;
* `Vec` : an array with its number of elements and its capacity, as the vectors and the children of
  nodes are;
* `State`, `step` : the factory with its clients, and the operations on them;
* `Block` : an array that has been handed out; the model records them since the last `clear`.
-/

namespace SwiftKStdlib.Demangling.NodeFactory

open Lib (Memory)
open Lib.Memory

/-! ## The allocator -/

/-- Arithmetic of type `size_t`. -/
def sizeT (x : Nat) : Nat := x % 2 ^ 64

/-- Size and alignment of a type; the alignment is a power of two. -/
@[ext]
structure Layout where
  size : Nat
  alignLog : Nat
  size_pos : 0 < size
  alignLog_lt : alignLog < 63

instance : DecidableEq Layout := fun _ _ => decidable_of_iff' _ Layout.ext_iff

namespace Layout

def alignof (T : Layout) : Nat := 2 ^ T.alignLog

def char : Layout := ⟨1, 0, by decide, by decide⟩

/-- `NodePointer`. -/
def pointer : Layout := ⟨8, 3, by decide, by decide⟩

/-- `Node`. -/
def node : Layout := ⟨48, 3, by decide, by decide⟩

end Layout

/-- A block of memory that `malloc` has returned. -/
structure Slab where
  start : Nat
  size : Nat
  deriving DecidableEq

/-- `sizeof(Slab)`: the link to the previous slab. -/
def slabHeader : Nat := 8

/-- The members of `NodeFactory`; the current slab comes first. -/
structure Factory where
  curPtr : Nat
  endPtr : Nat
  slabs : List Slab
  slabSize : Nat
  deriving DecidableEq

namespace Factory

/-- `100 * sizeof(Node)` is the first size. -/
def new : Factory := ⟨0, 0, [], 100 * Layout.node.size⟩

/-- `NodeFactory::align`, for an address of 64 bits. -/
def align (ptr alignment : Nat) : Nat := (ptr + alignment - 1) &&& (2 ^ 64 - 1 - (alignment - 1))

/-- `Allocate`; it fails where `malloc` returns a null pointer. -/
def allocate (f : Factory) (T : Layout) (numObjects : Nat) (malloc : Nat → Option Nat) : Option (Nat × Factory) :=
  let objectSize := sizeT (numObjects * T.size)
  let curPtr := align f.curPtr T.alignof
  if f.endPtr < curPtr + objectSize then
    let slabSize := max (sizeT (f.slabSize * 2)) (sizeT (objectSize + T.alignof))
    let allocSize := sizeT (slabHeader + slabSize)
    match malloc allocSize with
    | none => none
    | some newSlab =>
      let curPtr := align (newSlab + slabHeader) T.alignof
      let endPtr := newSlab + allocSize
      -- the assertion
      if curPtr + objectSize ≤ endPtr then
        some (curPtr, ⟨curPtr + objectSize, endPtr, ⟨newSlab, allocSize⟩ :: f.slabs, slabSize⟩)
      else none
  else some (curPtr, { f with curPtr := curPtr + objectSize })

/-- `NodeFactory::clear`, with its assertion: the last slab is used again. -/
def clear (f : Factory) : Option Factory :=
  match f.slabs with
  | [] => some f
  | slab :: _ =>
    if f.endPtr = slab.start + slabHeader + f.slabSize then
      some { f with slabs := [slab], curPtr := slab.start + slabHeader }
    else none

end Factory

/-! ## Clients -/

/-- An array of a client. The members `Elems`, `NumElems` and `Capacity` of a vector are the `Children`,
`NumChildren` and `ReservedChildren` of a node. `block` is the number of the array that was handed out. -/
structure Vec where
  layout : Layout
  elems : Nat
  numElems : Nat
  capacity : Nat
  block : Option Nat
  deriving DecidableEq

structure Block where
  start : Nat
  extent : Nat
  alignLog : Nat
  deriving DecidableEq

structure State where
  factory : Factory
  memory : Memory
  vectors : List Vec
  blocks : List Block

abbrev Elem := List (BitVec 8)

namespace State

def new : State := ⟨.new, fun _ => 0, [], []⟩

/-- `Allocate`, with the array that it hands out. -/
def allocate (s : State) (T : Layout) (numObjects : Nat) (malloc : Nat → Option Nat) : Option (Nat × State) := do
  let (p, factory) ← s.factory.allocate T numObjects malloc
  some (p, { s with
    factory := factory
    blocks := s.blocks ++ [⟨p, sizeT (numObjects * T.size), T.alignLog⟩] })

def setVec (s : State) (i : Nat) (v : Vec) : State := { s with vectors := s.vectors.set i v }

def growth (capacity minGrowth : Nat) : Nat :=
  let growth := if 4 ≤ minGrowth then minGrowth else 4
  if growth < sizeT (capacity * 2) then sizeT (capacity * 2) else growth

/-- The array stands at the end of the current slab, with enough space behind it. -/
def canGrow (s : State) (v : Vec) (minGrowth : Nat) : Prop :=
  v.elems + sizeT (v.capacity * v.layout.size) = s.factory.curPtr ∧
    s.factory.curPtr + sizeT (minGrowth * v.layout.size) ≤ s.factory.endPtr

instance (s : State) (v : Vec) (minGrowth : Nat) : Decidable (s.canGrow v minGrowth) :=
  inferInstanceAs (Decidable (_ ∧ _))

/-- `Reallocate`, of the array of the vector `i`. -/
def reallocate (s : State) (i minGrowth : Nat) (malloc : Nat → Option Nat) : Option State := do
  let v ← s.vectors[i]?
  if s.canGrow v minGrowth then
    let additionalAlloc := sizeT (minGrowth * v.layout.size)
    some { s.setVec i { v with capacity := sizeT (v.capacity + minGrowth) } with
      factory := { s.factory with curPtr := s.factory.curPtr + additionalAlloc }
      blocks := match v.block with
        | some k => s.blocks.modify k fun b => { b with extent := b.extent + additionalAlloc }
        | none => s.blocks }
  else do
    let growth := growth v.capacity minGrowth
    let (p, s') ← s.allocate v.layout (sizeT (v.capacity + growth)) malloc
    let memory := s.memory.write p (s.memory.read v.elems (sizeT (v.capacity * v.layout.size)))
    some { s'.setVec i { v with elems := p, capacity := sizeT (v.capacity + growth), block := some s.blocks.length } with
      memory := memory }

/-! ## Operations -/

/-- More elements, each with the bytes of its type, behind those of the vector; it fails where they do not
fit its capacity. -/
def store (s : State) (i : Nat) (elems : List Elem) : Option State := do
  let v ← s.vectors[i]?
  if v.numElems + elems.length ≤ v.capacity ∧ ∀ e ∈ elems, e.length = v.layout.size then
    some { s.setVec i { v with numElems := v.numElems + elems.length } with
      memory := s.memory.write (v.elems + v.numElems * v.layout.size) elems.flatten }
  else none

/-- The test of the operations that append `room` elements at most, and grow by as many. -/
def reserve (s : State) (i room : Nat) (malloc : Nat → Option Nat) : Option State := do
  let v ← s.vectors[i]?
  if v.capacity < sizeT (v.numElems + room) then s.reallocate i room malloc else some s

def create (s : State) (T : Layout) : State := { s with vectors := s.vectors ++ [⟨T, 0, 0, 0, none⟩] }

/-- An array that is filled when it is allocated, as for a node or the copy of a text. -/
def copy (s : State) (T : Layout) (elems : List Elem) (malloc : Nat → Option Nat) : Option State := do
  let (p, s') ← s.allocate T elems.length malloc
  if ∀ e ∈ elems, e.length = T.size then
    some { s' with
      memory := s.memory.write p elems.flatten
      vectors := s.vectors ++ [⟨T, p, elems.length, elems.length, some s.blocks.length⟩] }
  else none

/-- `Vector::init`. -/
def init (s : State) (i initialCapacity : Nat) (malloc : Nat → Option Nat) : Option State := do
  let v ← s.vectors[i]?
  let (p, s') ← s.allocate v.layout initialCapacity malloc
  some (s'.setVec i { v with elems := p, numElems := 0, capacity := initialCapacity, block := some s.blocks.length })

/-- `Vector::push_back`. -/
def pushBack (s : State) (i : Nat) (newElem : Elem) (malloc : Nat → Option Nat) : Option State := do
  let v ← s.vectors[i]?
  let s ← if v.capacity ≤ v.numElems then s.reallocate i 1 malloc else some s
  s.store i [newElem]

/-- `Node::addChild`. -/
def addChild (s : State) (i : Nat) (child : Elem) (malloc : Nat → Option Nat) : Option State := s.pushBack i child malloc

/-- `Vector::pop_back_val`. -/
def popBackVal (s : State) (i : Nat) : Option State := do
  let v ← s.vectors[i]?
  some (s.setVec i { v with numElems := v.numElems - 1 })

/-- `CharVector::append`, of a text. -/
def appendText (s : State) (i : Nat) (rhs : StringRef) (malloc : Nat → Option Nat) : Option State := do
  let s ← s.reserve i rhs.length malloc
  s.store i (rhs.map fun c => [c])

/-- What `snprintf` prints for an `int`. -/
def printed (number : Int) : StringRef :=
  if number < 0 then [0x2D] ++ decimal number.natAbs else decimal number.natAbs

/-- `CharVector::append`, of a number. What is printed ends with a null character; longer numbers do not
pass the assertion. -/
def appendNumber (s : State) (i : Nat) (number : Int) (malloc : Nat → Option Nat) : Option State := do
  let maxIntPrintSize := 8
  let s ← s.reserve i maxIntPrintSize malloc
  let v ← s.vectors[i]?
  if (printed number).length < maxIntPrintSize then
    let s' ← s.store i ((printed number).map fun c => [c])
    some { s' with memory := s.memory.write (v.elems + v.numElems * v.layout.size) (printed number ++ [0]) }
  else none

/-- The bytes of `n` elements. -/
def elemBytes (s : State) (v : Vec) (start n : Nat) : List (BitVec 8) :=
  s.memory.read (v.elems + start * v.layout.size) (n * v.layout.size)

/-- `Node::removeChildAt`; the reserved children stay as many as they were. -/
def removeChildAt (s : State) (i pos : Nat) (malloc : Nat → Option Nat) : Option State := do
  let v ← s.vectors[i]?
  if pos < v.numElems then do
    let (p, s') ← s.allocate v.layout (v.numElems - 1) malloc
    some { s'.setVec i { v with elems := p, numElems := v.numElems - 1, block := some s.blocks.length } with
      memory := s.memory.write p (s.elemBytes v 0 pos ++ s.elemBytes v (pos + 1) (v.numElems - 1 - pos)) }
  else none

/-- `Node::reverseChildren`. -/
def reverseChildren (s : State) (i startingAt : Nat) : Option State := do
  let v ← s.vectors[i]?
  if startingAt ≤ v.numElems then
    let elems := (List.range' startingAt (v.numElems - startingAt)).map fun k => s.elemBytes v k 1
    some { s with memory := s.memory.write (v.elems + startingAt * v.layout.size) elems.reverse.flatten }
  else none

/-- `NodeFactory::clear`; nothing that was handed out is used any more. -/
def clear (s : State) : Option State := do
  let factory ← s.factory.clear
  some { s with factory := factory, vectors := [], blocks := [] }

end State

/-- The operations on a factory and its clients. -/
inductive Op where
  | create (T : Layout)
  | copy (T : Layout) (elems : List Elem)
  | init (i initialCapacity : Nat)
  | reallocate (i minGrowth : Nat)
  | pushBack (i : Nat) (newElem : Elem)
  | addChild (i : Nat) (child : Elem)
  | popBackVal (i : Nat)
  | appendText (i : Nat) (rhs : StringRef)
  | appendNumber (i : Nat) (number : Int)
  | removeChildAt (i pos : Nat)
  | reverseChildren (i startingAt : Nat)
  | clear

/-- One operation. -/
def step (s : State) (op : Op) (malloc : Nat → Option Nat) : Option State :=
  match op with
  | .create T => some (s.create T)
  | .copy T elems => s.copy T elems malloc
  | .init i initialCapacity => s.init i initialCapacity malloc
  | .reallocate i minGrowth => s.reallocate i minGrowth malloc
  | .pushBack i newElem => s.pushBack i newElem malloc
  | .addChild i child => s.addChild i child malloc
  | .popBackVal i => s.popBackVal i
  | .appendText i rhs => s.appendText i rhs malloc
  | .appendNumber i number => s.appendNumber i number malloc
  | .removeChildAt i pos => s.removeChildAt i pos malloc
  | .reverseChildren i startingAt => s.reverseChildren i startingAt
  | .clear => s.clear

end SwiftKStdlib.Demangling.NodeFactory
