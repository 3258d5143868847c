import Mathlib.Tactic
import SwiftKStdlib.Lib.Iterator

/-!
# Flattened collections

* `BidirectionalCollection` : what a collection answers; `none` is a trap;
* `Presents` : the collection has these elements, at these indices. Nothing is said about other indices;
* `ofList` : a collection that traps on all other indices;
* `FlattenIterator.next` : the iterator of a flattened sequence;
* `FlattenIndex`, `FlattenCollection` : the positions of a flattened collection, and how to step between them;
* `distance`, `indexOffsetBy`, `indexOffsetByLimitedBy` : the loops over these steps.

The `while` and `repeat` loops have fuel. `none` is a trap.
-/

namespace SwiftKStdlib.Collections

open Lib.Iterator

/-- A collection with indices `ι`, iterators `σ` and elements `α`. -/
structure BidirectionalCollection (ι σ α : Type) where
  startIndex : ι
  endIndex : ι
  isEmpty : Bool
  indexAfter : ι → Option ι
  indexOffsetBy : ι → Int → Option ι
  indexOffsetByLimitedBy : ι → Int → ι → Option (Option ι)
  distance : ι → ι → Option Int
  get : ι → Option α
  makeIterator : σ

/-- `Int.max`. -/
def maxInt : Int := 2 ^ 63 - 1

/-- `Int.min`. -/
def minInt : Int := -2 ^ 63

/-- The result of an operation on type `Int`. -/
def checkInt (x : Int) : Option Int := if minInt ≤ x ∧ x ≤ maxInt then some x else none

/-- `abs`, of an `Int`. -/
def abs (x : Int) : Option Int := if x < 0 then checkInt (-x) else some x

theorem abs_eq {n : Int} (h : n ≠ minInt) (hle : minInt ≤ n) : abs n = some (n.natAbs : Int) := by
  rw [abs]
  split_ifs with hneg
  · rw [checkInt, if_pos (by rw [minInt, maxInt] at *; omega)]
    exact congrArg some (by omega)
  · exact congrArg some (by omega)

theorem abs_minInt : abs minInt = none := rfl

variable {ι σ α : Type} [LinearOrder ι]

/-- The collection has these elements, the `k`-th of which is at `index k`. -/
structure Presents (c : BidirectionalCollection ι σ α) (next : σ → Option (Option α × σ)) (index : Nat → ι)
    (elems : List α) : Prop where
  startIndex : c.startIndex = index 0
  endIndex : c.endIndex = index elems.length
  isEmpty : c.isEmpty = elems.isEmpty
  lt : ∀ k l, k < l → l ≤ elems.length → index k < index l
  indexAfter : ∀ k < elems.length, c.indexAfter (index k) = some (index (k + 1))
  indexBefore : ∀ k < elems.length, c.indexOffsetBy (index (k + 1)) (-1) = some (index k)
  limitedBy : ∃ i, c.indexOffsetByLimitedBy c.endIndex (-1) c.startIndex = some i
  distance : ∃ d, c.distance c.endIndex c.startIndex = some d
  get : ∀ (k : Nat) (x : α), elems[k]? = some x → c.get (index k) = some x
  yields : Yields next c.makeIterator elems

namespace Presents

variable {c : BidirectionalCollection ι σ α} {next : σ → Option (Option α × σ)} {index : Nat → ι} {elems : List α}

theorem ne (h : Presents c next index elems) {k l : Nat} (hkl : k < l) (hl : l ≤ elems.length) : index k ≠ index l :=
  (h.lt k l hkl hl).ne

theorem lt_iff (h : Presents c next index elems) {k l : Nat} (hk : k ≤ elems.length) (hl : l ≤ elems.length) :
    index k < index l ↔ k < l := by
  refine ⟨fun hlt => ?_, fun hlt => h.lt k l hlt hl⟩
  by_contra hle
  rcases (not_lt.1 hle).eq_or_lt with rfl | hgt
  · exact lt_irrefl _ hlt
  · exact lt_asymm hlt (h.lt l k hgt hk)

end Presents

/-! ## An array -/

def nextOf : List α → Option (Option α × List α)
  | [] => some (none, [])
  | x :: l => some (some x, l)

theorem yields_nextOf (l : List α) : Yields nextOf l l := by
  induction l with
  | nil => exact .nil rfl
  | cons x l ih => exact .cons rfl ih

def ofList (elems : List α) : BidirectionalCollection Nat (List α) α where
  startIndex := 0
  endIndex := elems.length
  isEmpty := elems.isEmpty
  indexAfter i := if i < elems.length then some (i + 1) else none
  indexOffsetBy i n := if 0 ≤ i + n ∧ i + n ≤ elems.length then some (i + n).toNat else none
  indexOffsetByLimitedBy i n limit :=
    if 0 < n ∧ i ≤ limit ∧ limit < i + n ∨ n < 0 ∧ limit ≤ i ∧ i + n < limit then some none
    else if 0 ≤ i + n ∧ i + n ≤ elems.length then some (some (i + n).toNat) else none
  distance i j := checkInt (j - i)
  get i := elems[i]?
  makeIterator := elems

theorem presents_ofList {elems : List α} (h : elems.length ≤ maxInt) : Presents (ofList elems) nextOf id elems := by
  refine ⟨rfl, rfl, rfl, fun k l hkl _ => hkl, fun k hk => if_pos hk, fun k hk => ?_, ?_, ?_, fun k x hx => hx,
    yields_nextOf elems⟩
  · refine (if_pos ?_).trans (congrArg some ?_)
    · simp only [id_eq]
      omega
    · simp only [id_eq]
      omega
  · rcases Nat.eq_zero_or_pos elems.length with hzero | hpos
    · refine ⟨none, if_pos ?_⟩
      simp only [ofList]
      omega
    · refine ⟨some (elems.length - 1), (if_neg ?_).trans ((if_pos ?_).trans ?_)⟩
      · simp only [ofList]
        omega
      · simp only [ofList]
        omega
      · refine congrArg (fun i => some (some i)) ?_
        simp only [ofList]
        omega
  · refine ⟨-elems.length, ?_⟩
    simp only [ofList, checkInt]
    rw [if_pos (by rw [minInt, maxInt] at *; omega)]
    exact congrArg some (by omega)

end SwiftKStdlib.Collections

namespace SwiftKStdlib.Collections

variable {ι κ σ τ α : Type}

/-! ## Iterators -/

/-- `FlattenSequence.Iterator`. -/
structure FlattenIterator (σ τ : Type) where
  base : σ
  inner : Option τ

/-- `next`, for iterators of the base and of its elements. -/
def FlattenIterator.next (nextBase : σ → Option (Option (BidirectionalCollection κ τ α) × σ))
    (nextInner : τ → Option (Option α × τ)) : Nat → FlattenIterator σ τ → Option (Option α × FlattenIterator σ τ)
  | 0, _ => none
  | fuel + 1, it => do
    let (ret, it) ← match it.inner with
      | some inner => do
        let (ret, inner) ← nextInner inner
        some (ret, { it with inner := some inner })
      | none => some (none, it)
    match ret with
    | some x => some (some x, it)
    | none => do
      let (s, base) ← nextBase it.base
      match s with
      | none => some (none, { it with base := base })
      | some s => next nextBase nextInner fuel ⟨base, some s.makeIterator⟩

/-! ## Indices -/

/-- `FlattenCollection.Index`. -/
structure FlattenIndex (ι κ : Type) where
  outer : ι
  inner : Option κ
  deriving DecidableEq

/-- `<`, with its precondition. -/
def FlattenIndex.lt [LinearOrder ι] [LinearOrder κ] (lhs rhs : FlattenIndex ι κ) : Option Bool :=
  if lhs.outer ≠ rhs.outer then some (lhs.outer < rhs.outer)
  else
    match lhs.inner, rhs.inner with
    | some lhsInner, some rhsInner => some (lhsInner < rhsInner)
    | none, none => some false
    | _, _ => none

/-- `FlattenCollection`. -/
structure FlattenCollection (ι κ σ τ α : Type) where
  base : BidirectionalCollection ι σ (BidirectionalCollection κ τ α)

namespace FlattenCollection

variable [LinearOrder ι] [LinearOrder κ]

def makeIterator (c : FlattenCollection ι κ σ τ α) : FlattenIterator σ τ := ⟨c.base.makeIterator, none⟩

def endIndex (c : FlattenCollection ι κ σ τ α) : FlattenIndex ι κ := ⟨c.base.endIndex, none⟩

/-- The loop to the next element of the base that is not empty. -/
def skipEmpty (c : FlattenCollection ι κ σ τ α) : Nat → ι → Option (FlattenIndex ι κ)
  | 0, _ => none
  | fuel + 1, outer =>
    if outer ≠ c.base.endIndex then do
      let innerCollection ← c.base.get outer
      if ¬ innerCollection.isEmpty then some ⟨outer, some innerCollection.startIndex⟩
      else do
        let outer ← c.base.indexAfter outer
        c.skipEmpty fuel outer
    else some c.endIndex

def startIndex (c : FlattenCollection ι κ σ τ α) (fuel : Nat) : Option (FlattenIndex ι κ) :=
  c.skipEmpty fuel c.base.startIndex

/-- `index(after:)`. -/
def indexAfter (c : FlattenCollection ι κ σ τ α) (fuel : Nat) (i : FlattenIndex ι κ) : Option (FlattenIndex ι κ) := do
  let innerCollection ← c.base.get i.outer
  let inner ← i.inner
  let nextInner ← innerCollection.indexAfter inner
  if nextInner ≠ innerCollection.endIndex then some ⟨i.outer, some nextInner⟩
  else do
    let nextOuter ← c.base.indexAfter i.outer
    c.skipEmpty fuel nextOuter

/-- The loop of `index(before:)`. -/
def beforeLoop (c : FlattenCollection ι κ σ τ α) :
    Nat → ι → BidirectionalCollection κ τ α → κ → Option (FlattenIndex ι κ)
  | 0, _, _, _ => none
  | fuel + 1, prevOuter, prevInnerCollection, prevInner =>
    if prevInner = prevInnerCollection.startIndex then do
      let prevOuter ← c.base.indexOffsetBy prevOuter (-1)
      let prevInnerCollection ← c.base.get prevOuter
      c.beforeLoop fuel prevOuter prevInnerCollection prevInnerCollection.endIndex
    else do
      let inner ← prevInnerCollection.indexOffsetBy prevInner (-1)
      some ⟨prevOuter, some inner⟩

/-- `index(before:)`. -/
def indexBefore (c : FlattenCollection ι κ σ τ α) (fuel : Nat) (i : FlattenIndex ι κ) : Option (FlattenIndex ι κ) := do
  let prevOuter ← if i.outer = c.base.endIndex then c.base.indexOffsetBy i.outer (-1) else some i.outer
  let prevInnerCollection ← c.base.get prevOuter
  c.beforeLoop fuel prevOuter prevInnerCollection (i.inner.getD prevInnerCollection.endIndex)

/-- `subscript`. -/
def get (c : FlattenCollection ι κ σ τ α) (position : FlattenIndex ι κ) : Option α := do
  let innerCollection ← c.base.get position.outer
  let inner ← position.inner
  innerCollection.get inner

/-! ## Distances -/

/-- The loop of `distance(from:to:)`. -/
def distanceLoop (c : FlattenCollection ι κ σ τ α) (fuel : Nat) (step : Int) :
    Nat → FlattenIndex ι κ → FlattenIndex ι κ → Int → Option Int
  | 0, _, _, _ => none
  | n + 1, start, last, count =>
    if start ≠ last then do
      let count ← checkInt (count + step)
      let start ← c.indexAfter fuel start
      c.distanceLoop fuel step n start last count
    else some count

/-- `distance(from:to:)`. -/
def distance (c : FlattenCollection ι κ σ τ α) (fuel : Nat) (start last : FlattenIndex ι κ) : Option Int := do
  if ← last.lt start then
    let _ ← c.base.distance c.base.endIndex c.base.startIndex
  if ← last.lt start then c.distanceLoop fuel (-1) fuel last start 0
  else c.distanceLoop fuel 1 fuel start last 0

/-- `_advanceIndex`. -/
def advanceIndex (c : FlattenCollection ι κ σ τ α) (fuel : Nat) (i : FlattenIndex ι κ) (step : Int) :
    Option (FlattenIndex ι κ) :=
  if step < 0 then c.indexBefore fuel i else c.indexAfter fuel i

/-- `_ensureBidirectional`. -/
def ensureBidirectional (c : FlattenCollection ι κ σ τ α) (step : Int) : Option Unit :=
  if step < 0 then do
    let _ ← c.base.indexOffsetByLimitedBy c.base.endIndex step c.base.startIndex
    some ()
  else some ()

/-- The loop of `index(_:offsetBy:)`. -/
def offsetLoop (c : FlattenCollection ι κ σ τ α) (fuel : Nat) (step : Int) :
    Nat → FlattenIndex ι κ → Option (FlattenIndex ι κ)
  | 0, i => some i
  | n + 1, i => do
    let i ← c.advanceIndex fuel i step
    c.offsetLoop fuel step n i

/-- `index(_:offsetBy:)`. -/
def indexOffsetBy (c : FlattenCollection ι κ σ τ α) (fuel : Nat) (i : FlattenIndex ι κ) (n : Int) :
    Option (FlattenIndex ι κ) := do
  let step := n.sign
  c.ensureBidirectional step
  let count ← abs n
  c.offsetLoop fuel step count.toNat i

/-- The loop of `index(_:offsetBy:limitedBy:)`. -/
def limitedLoop (c : FlattenCollection ι κ σ τ α) (fuel : Nat) (step : Int) (limit : FlattenIndex ι κ) :
    Nat → FlattenIndex ι κ → Option (Option (FlattenIndex ι κ))
  | 0, i => some (some i)
  | n + 1, i =>
    if i = limit then some none
    else do
      let i ← c.advanceIndex fuel i step
      c.limitedLoop fuel step limit n i

/-- `index(_:offsetBy:limitedBy:)`. -/
def indexOffsetByLimitedBy (c : FlattenCollection ι κ σ τ α) (fuel : Nat) (i : FlattenIndex ι κ) (n : Int)
    (limit : FlattenIndex ι κ) : Option (Option (FlattenIndex ι κ)) := do
  let step := n.sign
  c.ensureBidirectional step
  let count ← abs n
  c.limitedLoop fuel step limit count.toNat i

/-- A walk from an index to the end, with the elements on the way. -/
def elements (c : FlattenCollection ι κ σ τ α) (fuel : Nat) : Nat → FlattenIndex ι κ → Option (List α)
  | 0, _ => none
  | n + 1, i =>
    if i ≠ c.endIndex then do
      let x ← c.get i
      let i ← c.indexAfter fuel i
      let rest ← c.elements fuel n i
      some (x :: rest)
    else some []

end FlattenCollection

end SwiftKStdlib.Collections
