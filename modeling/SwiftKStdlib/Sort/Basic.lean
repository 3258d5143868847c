import Mathlib.Order.Basic
import SwiftKStdlib.Lib.Prog

/-!
# The sorting algorithms of `Sort.swift.gyb`

The version with an explicit predicate. A call is a `Sorter`: the subrange handed to `_introSort`
and the client's predicate, which keeps a state of its own (it may answer differently on each call)
and may throw. Every index the algorithms form or access is checked against the subrange of the
call, so an index outside it is the fault `trap`.

Loops take fuel and stop with `outOfFuel` when it runs out; each call passes the number of elements
it has to cover.
-/

namespace SwiftKStdlib.Sort

open SwiftKStdlib.Lib SwiftKStdlib.Lib.Prog

/-- A `Range` of indices; Swift traps on forming one with its bounds reversed. -/
structure Range where
  lowerBound : Nat
  upperBound : Nat
  le : lowerBound ≤ upperBound

namespace Range

/-- `distance(from: lowerBound, to: upperBound)`. -/
def count (r : Range) : Nat := r.upperBound - r.lowerBound

def isEmpty (r : Range) : Bool := r.lowerBound == r.upperBound

end Range

/-- How a run can stop early: the client's error, an invalid index, or a loop that does not end. -/
inductive Fault (ε : Type) where
  | thrown (error : ε)
  | trap
  | outOfFuel
  deriving DecidableEq, Repr

/-- The collection being sorted, and the state of the client's predicate. -/
structure Mem (α γ : Type) where
  elements : Array α
  client : γ
  deriving DecidableEq, Repr

structure Sorter (α γ ε : Type) where
  subRange : Range
  areInIncreasingOrder : α → α → γ → Except ε Bool × γ

variable {α γ ε : Type}

abbrev SortM (α γ ε β : Type) := Prog (Mem α γ) (Fault ε) β

/-- `lo..<hi`. -/
def halfOpenRange (lo hi : Nat) : SortM α γ ε Range :=
  if h : lo ≤ hi then pure ⟨lo, hi, h⟩ else throw .trap

namespace Sorter

variable (S : Sorter α γ ε)

/-- `i` is the index of an element of the call's subrange. -/
def Inside (m : Mem α γ) (i : Nat) : Prop :=
  S.subRange.lowerBound ≤ i ∧ i < S.subRange.upperBound ∧ i < m.elements.size

instance (m : Mem α γ) (i : Nat) : Decidable (S.Inside m i) := inferInstanceAs (Decidable (_ ∧ _))

/-- `elements[i]`. -/
def get (i : Nat) : SortM α γ ε α := fun m =>
  if h : S.Inside m i then
    have := h.2.2
    (.ok m.elements[i], m)
  else (.error .trap, m)

/-- `elements[i] = x`. -/
def set (i : Nat) (x : α) : SortM α γ ε PUnit := fun m =>
  if h : S.Inside m i then
    (.ok ⟨⟩, { m with elements := m.elements.set i x h.2.2 })
  else (.error .trap, m)

/-- `elements.swapAt(i, j)`. -/
def swapAt (i j : Nat) : SortM α γ ε PUnit := fun m =>
  if h : S.Inside m i ∧ S.Inside m j then
    (.ok ⟨⟩, { m with elements := m.elements.swap i j h.1.2.2 h.2.2.2 })
  else (.error .trap, m)

def index (i : Nat) : SortM α γ ε Nat := fun m =>
  if S.subRange.lowerBound ≤ i ∧ i ≤ S.subRange.upperBound then (.ok i, m) else (.error .trap, m)

/-- `elements.index(after: i)`. -/
def indexAfter (i : Nat) : SortM α γ ε Nat := S.index (i + 1)

/-- `elements.index(before: i)`. -/
def indexBefore : Nat → SortM α γ ε Nat
  | 0 => throw .trap
  | i + 1 => S.index i

/-- `try areInIncreasingOrder(x, y)`. -/
def less (x y : α) : SortM α γ ε Bool := fun m =>
  match S.areInIncreasingOrder x y m.client with
  | (.ok b, c) => (.ok b, { m with client := c })
  | (.error e, c) => (.error (.thrown e), { m with client := c })

/-! ## `_insertionSort` -/

/-- The `repeat` loop of `_insertionSort`: move elements forward until the place of `x` is found.
Returns the `i` at which the loop is left. -/
def insertionShift (x : α) (start : Nat) : Nat → SortM α γ ε Nat
  | 0 => throw .trap
  | i + 1 => do
    let predecessor ← S.get (← S.index i)
    -- a throwing predicate: put `x` back, then rethrow
    let less ← tryCatch (S.less x predecessor) fun error => do
      S.set (i + 1) x
      throw error
    if less then
      S.set (i + 1) predecessor
      if i = start then pure i else insertionShift x start i
    else pure (i + 1)

/-- The `while` loop of `_insertionSort`. -/
def insertionLoop (range : Range) : Nat → Nat → SortM α γ ε PUnit
  | 0, _ => throw .outOfFuel
  | fuel + 1, sortedEnd =>
    if sortedEnd = range.upperBound then pure ⟨⟩
    else do
      let x ← S.get sortedEnd
      let i ← S.insertionShift x range.lowerBound sortedEnd
      if i = sortedEnd then pure ⟨⟩ else S.set i x
      insertionLoop range fuel (← S.indexAfter sortedEnd)

/-- `_insertionSort(&elements, subRange: range, by: areInIncreasingOrder)`. -/
def insertionSort (range : Range) : SortM α γ ε PUnit :=
  if range.isEmpty then pure ⟨⟩
  else do
    let sortedEnd ← S.indexAfter range.lowerBound
    S.insertionLoop range range.count sortedEnd

/-! ## `_partition` -/

/-- `_sort3(&elements, a, b, c, by: areInIncreasingOrder)`. -/
def sort3 (a b c : Nat) : SortM α γ ε PUnit := do
  let ba ← S.less (← S.get b) (← S.get a)
  let cb ← S.less (← S.get c) (← S.get b)
  match ba, cb with
  | false, false => pure ⟨⟩
  | true, true => S.swapAt a c
  | true, false =>
    S.swapAt a b
    if ← S.less (← S.get c) (← S.get b) then S.swapAt b c else pure ⟨⟩
  | false, true =>
    S.swapAt b c
    if ← S.less (← S.get b) (← S.get a) then S.swapAt a b else pure ⟨⟩

/-- The `while` loop of `FindLo`: the index it is left at, and whether by `break FindLo` (rather
than falling through to `break Loop`). -/
def findLo (pivot : α) (hi : Nat) : Nat → Nat → SortM α γ ε (Nat × Bool)
  | 0, _ => throw .outOfFuel
  | fuel + 1, lo =>
    if lo = hi then pure (lo, false)
    else do
      if ← S.less (← S.get lo) pivot then findLo pivot hi fuel (← S.indexAfter lo)
      else pure (lo, true)

/-- The `while` loop of `FindHi`: the index it is left at, and whether by `break FindHi`. -/
def findHi (pivot : α) (lo : Nat) : Nat → Nat → SortM α γ ε (Nat × Bool)
  | 0, _ => throw .outOfFuel
  | fuel + 1, hi =>
    if hi = lo then pure (hi, false)
    else do
      if ← S.less (← S.get hi) pivot then pure (hi, true)
      else findHi pivot lo fuel (← S.indexBefore hi)

/-- `Loop` of `_partition`; returns the final `lo`. -/
def partitionLoop (pivot : α) (range : Range) : Nat → Nat → Nat → SortM α γ ε Nat
  | 0, _, _ => throw .outOfFuel
  | fuel + 1, lo, hi => do
    let (lo, found) ← S.findLo pivot hi range.count (← S.indexAfter lo)
    if found then
      let (hi, found) ← S.findHi pivot lo range.count (← S.indexBefore hi)
      if found then
        S.swapAt lo hi
        partitionLoop pivot range fuel lo hi
      else pure lo
    else pure lo

/-- `_partition(&elements, subRange: range, by: areInIncreasingOrder)`. -/
def partition (range : Range) : SortM α γ ε Nat := do
  let lo := range.lowerBound
  let hi ← S.indexBefore range.upperBound
  let half := (hi - lo) / 2
  let mid ← S.index (lo + half)
  S.sort3 lo mid hi
  let pivot ← S.get mid
  S.partitionLoop pivot range range.count lo hi

/-! ## `_heapSort` -/

/-- `largest` of `_siftDown`: the node at `index`, or the bigger one of its children. -/
def largest (range : Range) (index left : Nat) : SortM α γ ε Nat := do
  let largest ← if ← S.less (← S.get index) (← S.get left) then pure left else pure index
  -- is the right child within bounds?
  if index - range.lowerBound + 2 < range.upperBound - index then
    let right ← S.indexAfter left
    if ← S.less (← S.get largest) (← S.get right) then pure right else pure largest
  else pure largest

/-- `_siftDown(&elements, index: index, subRange: range, by: areInIncreasingOrder)`; the recursion
goes to a child. -/
def siftDown (range : Range) : Nat → Nat → SortM α γ ε PUnit
  | 0, _ => throw .outOfFuel
  | fuel + 1, index => do
    let countToIndex := index - range.lowerBound
    let countFromIndex := range.upperBound - index
    if countToIndex + 1 ≥ countFromIndex then pure ⟨⟩
    else do
      let left ← S.index (index + (countToIndex + 1))
      let largest ← S.largest range index left
      if largest = index then pure ⟨⟩
      else do
        S.swapAt index largest
        siftDown range fuel largest

/-- The `while` loop of `_heapify`. -/
def heapifyLoop (range : Range) : Nat → Nat → SortM α γ ε PUnit
  | 0, _ => throw .outOfFuel
  | fuel + 1, node =>
    if node = range.lowerBound then pure ⟨⟩
    else do
      let node ← S.indexBefore node
      S.siftDown range range.count node
      heapifyLoop range fuel node

/-- `_heapify(&elements, subRange: range, by: areInIncreasingOrder)`. -/
def heapify (range : Range) : SortM α γ ε PUnit := do
  let node ← S.index (range.lowerBound + range.count / 2)
  S.heapifyLoop range (range.count + 1) node

/-- The `while` loop of `_heapSort`. -/
def heapSortLoop (lo : Nat) : Nat → Nat → SortM α γ ε PUnit
  | 0, _ => throw .outOfFuel
  | fuel + 1, hi =>
    if hi = lo then pure ⟨⟩
    else do
      S.swapAt lo hi
      let heap ← halfOpenRange lo hi
      S.siftDown heap heap.count lo
      heapSortLoop lo fuel (← S.indexBefore hi)

/-- `_heapSort(&elements, subRange: range, by: areInIncreasingOrder)`. -/
def heapSort (range : Range) : SortM α γ ε PUnit := do
  S.heapify range
  let hi ← S.indexBefore range.upperBound
  S.heapSortLoop range.lowerBound range.count hi

/-! ## `_introSort` -/

/-- `_introSortImpl(&elements, subRange: range, by: areInIncreasingOrder, depthLimit: depthLimit)`. -/
def introSortImpl : Nat → Range → Int64 → SortM α γ ε PUnit
  | 0, _, _ => throw .outOfFuel
  | fuel + 1, range, depthLimit =>
    if range.count < 20 then S.insertionSort range
    else if depthLimit = 0 then S.heapSort range
    else do
      let partIdx ← S.partition range
      introSortImpl fuel (← halfOpenRange range.lowerBound partIdx) (depthLimit - 1)
      introSortImpl fuel (← halfOpenRange partIdx range.upperBound) (depthLimit - 1)

/-- `_introSort(&elements, subRange: range, by: areInIncreasingOrder)`. -/
def introSort (range : Range) : SortM α γ ε PUnit :=
  if range.count < 2 then pure ⟨⟩
  else S.introSortImpl range.count range (Int64.ofNat (2 * Nat.log2 range.count))

end Sorter

end SwiftKStdlib.Sort
