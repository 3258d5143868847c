import Mathlib
import SwiftKStdlib.Lib.Prog
import SwiftKStdlib.Sort.Basic

/-!
# `partition(by:)` of `CollectionAlgorithms.swift.gyb`

A collection is known by its indices, which are of any ordered type: `startIndex` is the first of
them, `endIndex` the last, and `index(after:)` leads from one to the next. A call of `partition(by:)`
runs over the elements and the client's predicate, which keeps a state of its own and may throw.
Accessing an element at anything but the index of one, and stepping outside
`startIndex...endIndex`, is the fault `trap`.
-/

namespace SwiftKStdlib.Sort

open SwiftKStdlib.Lib SwiftKStdlib.Lib.Prog

/-- The indices of a collection of `count` elements: `index 0` is `startIndex`, and `index count` is
`endIndex`. -/
structure Indices (ι : Type) [LinearOrder ι] where
  count : Nat
  index : Nat → ι
  lt : ∀ {j k}, j < k → k ≤ count → index j < index k

/-- What a call of `partition(by:)` works on: the elements, and the state of the predicate. -/
structure Elements (α γ : Type) (n : Nat) where
  elements : Vector α n
  client : γ
  deriving DecidableEq, Repr

/-- A call of `partition(by:)`. -/
structure Partitioner (ι α γ ε : Type) [LinearOrder ι] extends Indices ι where
  belongsInSecondPartition : α → γ → Except ε Bool × γ
  /-- The collection has mutable contiguous storage to offer. -/
  supportsBuffer : Bool

variable {ι α γ ε : Type} [LinearOrder ι]

namespace Indices

variable (I : Indices ι)

def startIndex : ι := I.index 0

def endIndex : ι := I.index I.count

/-- How far into the collection the index `i` is, if it is one of the collection's. -/
def position (i : ι) : Option Nat := (List.range (I.count + 1)).find? fun k => I.index k = i

/-- The place of the element at `i`, if there is one. -/
def elementPosition (i : ι) : Option (Fin I.count) :=
  match I.position i with
  | some k => if h : k < I.count then some ⟨k, h⟩ else none
  | none => none

end Indices

namespace Partitioner

variable (C : Partitioner ι α γ ε)

/-- The programs that `partition(by:)` is made of. -/
abbrev M (C : Partitioner ι α γ ε) (β : Type) := Prog (Elements α γ C.count) (Fault ε) β

/-- `self[i]`. -/
def get (i : ι) : C.M α := fun m =>
  match C.elementPosition i with
  | some k => (.ok m.elements[k], m)
  | none => (.error .trap, m)

/-- `swapAt(i, j)`. -/
def swapAt (i j : ι) : C.M PUnit := fun m =>
  match C.elementPosition i, C.elementPosition j with
  | some k, some l => (.ok ⟨⟩, { m with elements := m.elements.swap k l })
  | _, _ => (.error .trap, m)

/-- `index(after: i)`. -/
def indexAfter (i : ι) : C.M ι :=
  match C.position i with
  | some k => if k < C.count then pure (C.index (k + 1)) else throw .trap
  | none => throw .trap

/-- `index(before: i)`. -/
def indexBefore (i : ι) : C.M ι :=
  match C.position i with
  | some (k + 1) => pure (C.index k)
  | _ => throw .trap

/-- `index(i, offsetBy: n)` for an `n` that is not negative. -/
def indexOffsetBy (i : ι) : Nat → C.M ι
  | 0 => pure i
  | n + 1 => do indexOffsetBy (← C.indexAfter i) n

/-- `try belongsInSecondPartition(x)`. -/
def belongs (x : α) : C.M Bool := fun m =>
  match C.belongsInSecondPartition x m.client with
  | (.ok b, c) => (.ok b, { m with client := c })
  | (.error e, c) => (.error (.thrown e), { m with client := c })

/-! ## `MutableCollection.partition(by:)` -/

/-- The loop that looks for the first `pivot`; whether it was left by `break`. -/
def findPivot : Nat → ι → C.M (ι × Bool)
  | 0, _ => throw .outOfFuel
  | fuel + 1, pivot =>
    if pivot = C.endIndex then pure (pivot, false)
    else do
      if ← C.belongs (← C.get pivot) then pure (pivot, true)
      else findPivot fuel (← C.indexAfter pivot)

/-- The loop over the elements after the first `pivot`; returns the final `pivot`. -/
def pivotLoop : Nat → ι → ι → C.M ι
  | 0, _, _ => throw .outOfFuel
  | fuel + 1, pivot, i =>
    if i < C.endIndex then do
      if ← C.belongs (← C.get i) then pivotLoop fuel pivot (← C.indexAfter i)
      else
        C.swapAt i pivot
        let pivot ← C.indexAfter pivot
        pivotLoop fuel pivot (← C.indexAfter i)
    else pure pivot

/-- `partition(by:)` of a `MutableCollection`. -/
def partition : C.M ι := do
  let (pivot, found) ← C.findPivot (C.count + 1) C.startIndex
  if found then C.pivotLoop (C.count + 1) pivot (← C.indexAfter pivot) else pure pivot

/-! ## `BidirectionalCollection.partition(by:)` -/

/-- The `while` loop of `FindLo`, and whether it was left by `break FindLo`. -/
def findLo (hi : ι) : Nat → ι → C.M (ι × Bool)
  | 0, _ => throw .outOfFuel
  | fuel + 1, lo =>
    if lo < hi then do
      if ← C.belongs (← C.get lo) then pure (lo, true)
      else findLo hi fuel (← C.indexAfter lo)
    else pure (lo, false)

/-- The `while` loop of `FindHi`, and whether it was left by `break FindHi`. -/
def findHi (lo : ι) : Nat → ι → C.M (ι × Bool)
  | 0, _ => throw .outOfFuel
  | fuel + 1, hi =>
    if lo < hi then do
      if ← C.belongs (← C.get hi) then findHi lo fuel (← C.indexBefore hi)
      else pure (hi, true)
    else pure (hi, false)

/-- `Loop`; returns the final `lo`. -/
def loop : Nat → ι → ι → C.M ι
  | 0, _, _ => throw .outOfFuel
  | fuel + 1, lo, hi => do
    let (lo, found) ← C.findLo hi (C.count + 1) lo
    if found then
      let (hi, found) ← C.findHi lo (C.count + 1) (← C.indexBefore hi)
      if found then
        C.swapAt lo hi
        loop fuel (← C.indexAfter lo) hi
      else pure lo
    else pure lo

/-- What `partition(by:)` of a `BidirectionalCollection` does without contiguous storage. -/
def partitionInPlace : C.M ι := C.loop (C.count + 1) C.startIndex C.endIndex

/-- The `UnsafeMutableBufferPointer` over the collection's storage: its indices are the offsets from
0, and it has no storage of another kind to offer. -/
def bufferPointer : Partitioner Nat α γ ε where
  count := C.count
  index := id
  lt := fun h _ => h
  belongsInSecondPartition := C.belongsInSecondPartition
  supportsBuffer := false

/-- `bufferPointer.partition(by: belongsInSecondPartition)`, run on the collection. -/
def partitionBuffer : C.M Nat := C.bufferPointer.partitionInPlace

/-- `partition(by:)` of a `BidirectionalCollection`. -/
def partitionBidirectional : C.M ι :=
  if C.supportsBuffer then do
    let unsafeBufferPivot ← C.partitionBuffer
    C.indexOffsetBy C.startIndex (unsafeBufferPivot - C.bufferPointer.startIndex)
  else C.partitionInPlace

end Partitioner

end SwiftKStdlib.Sort
