import Mathlib
import SwiftKStdlib.Lib.BinaryTree

/-!
# `SuccessorMap`

The splay tree of `SuccessorMap.h`. A node holds a half-open range of keys and one value for them; the
two side trees that `splay` builds are kept with their open slots, `lowerTree` at the right of its
root and `upperTree` at the end of its left arm. Every `assert` of the source is a check: the ones
that say "key already mapped!" fail with `keyAlreadyMapped`, the others with `malformed`.
-/

namespace SwiftKStdlib.SuccessorMap

open BinaryTree

/-- `SuccessorMapTraits`: the keys are in order, and `getSuccessor` gives the next one. What it makes of
the largest key, if there is one, is left open (`value + 1` may wrap or trap there). -/
class SuccessorMapTraits (K : Type) [LinearOrder K] where
  getSuccessor : K → K
  lt_getSuccessor : ∀ {k}, ¬ IsMax k → k < getSuccessor k
  getSuccessor_le : ∀ {k l}, k < l → getSuccessor k ≤ l

export SuccessorMapTraits (getSuccessor lt_getSuccessor getSuccessor_le)

/-- The default implementation, for a type without a largest key. -/
instance : SuccessorMapTraits Nat where
  getSuccessor k := k + 1
  lt_getSuccessor := fun _ => Nat.lt_succ_self _
  getSuccessor_le := Nat.succ_le_of_lt

section

variable {K : Type} [LinearOrder K] [SuccessorMapTraits K] {k l : K}

theorem lt_getSuccessor_iff (h : ¬ IsMax k) : l < getSuccessor k ↔ l ≤ k := by
  refine ⟨fun hlt => ?_, fun hle => hle.trans_lt (lt_getSuccessor h)⟩
  by_contra hgt
  exact absurd (getSuccessor_le (lt_of_not_ge hgt)) hlt.not_ge

theorem getSuccessor_le_iff (h : ¬ IsMax k) : getSuccessor k ≤ l ↔ k < l :=
  ⟨fun hle => (lt_getSuccessor h).trans_le hle, getSuccessor_le⟩

end

/-- The assertion that stopped an operation. -/
inductive Assertion where
  | keyAlreadyMapped
  | malformed
  deriving DecidableEq, Repr

/-- `SuccessorMap::Node`, without its children: the range `beginKey ..< endKey` and its value. -/
@[ext]
structure Node (K V : Type) where
  beginKey : K
  endKey : K
  value : V
  deriving DecidableEq, Repr

abbrev Tree (K V : Type) := BinaryTree (Node K V)

variable {K V : Type}

/-- `assert(condition)`. -/
def check (condition : Bool) : Except Assertion PUnit :=
  if condition then .ok ⟨⟩ else .error .malformed

/-! ## `splay` -/

/-- `rotateAsLowerRoot(node)`, for a node with the left child `left`. -/
def rotateAsLowerRoot (lowerTree : Tree K V) (node : Node K V) (left : Tree K V) :
    Except Assertion (Tree K V) := do
  check lowerTree.right.isNil
  pure (.node node (lowerTree.withRight left) nil)

/-- `placeInUpperLeftmost(node)`, for a node whose left child has been cleared. -/
def placeInUpperLeftmost (upperTree : Tree K V) (node : Node K V) (right : Tree K V) : Tree K V :=
  upperTree.withLeftmost (.node node nil right)

/-- `reassemble(foundUpperBound)`: the root is `cur`. -/
def reassemble (foundUpperBound : Bool) (cur : Node K V) (left right lowerTree upperTree : Tree K V) :
    Except Assertion (Bool × Tree K V) := do
  check lowerTree.right.isNil
  let root := node cur (lowerTree.withRight left) (upperTree.withLeftmost right)
  check (!foundUpperBound || root.left.right.isNil)
  pure (foundUpperBound, root)

/-- `finishWithUpperBound()`. -/
def finishWithUpperBound (cur : Node K V) (left right lowerTree upperTree : Tree K V) :
    Except Assertion (Bool × Tree K V) := do
  check left.isNil
  reassemble true cur left right lowerTree upperTree

/-- `finishWithoutUpperBound()`. -/
def finishWithoutUpperBound (cur : Node K V) (left right lowerTree upperTree : Tree K V) :
    Except Assertion (Bool × Tree K V) := do
  check right.isNil
  match upperTree.popLeftmost with
  | none => reassemble false cur left right lowerTree upperTree
  | some (newRoot, upperTree) => do
    let lowerTree ← rotateAsLowerRoot lowerTree cur left
    -- a leftmost node has no left child, and its right one has taken its place
    finishWithUpperBound newRoot nil nil lowerTree upperTree

section

variable [LinearOrder K]

/-- `assert(!precedes(key, node->End) && "key already mapped!")`. -/
def checkUnmapped (key : K) (n : Node K V) : Except Assertion PUnit :=
  if key < n.endKey then .error .keyAlreadyMapped else .ok ⟨⟩

/-- The `while` loop of `splay`. -/
def splayLoop (key : K) : Tree K V → Tree K V → Tree K V → Except Assertion (Bool × Tree K V)
  | nil, _, _ => .error .malformed
  | node cur curLeft curRight, lowerTree, upperTree => do
    check lowerTree.right.isNil
    if key < cur.beginKey then
      match curLeft with
      | nil => finishWithUpperBound cur nil curRight lowerTree upperTree
      | node left leftLeft leftRight =>
        if key < left.beginKey then
          -- zig left, or zig-zig left
          if leftLeft.isNil then
            finishWithUpperBound left leftLeft leftRight lowerTree
              (placeInUpperLeftmost upperTree cur curRight)
          else
            splayLoop key leftLeft lowerTree
              (placeInUpperLeftmost upperTree left (node cur leftRight curRight))
        else do
          checkUnmapped key left
          let lowerTree ← rotateAsLowerRoot lowerTree left leftLeft
          if leftRight.isNil then finishWithUpperBound cur nil curRight lowerTree upperTree
          else splayLoop key leftRight lowerTree (placeInUpperLeftmost upperTree cur curRight)
    else do
      checkUnmapped key cur
      match curRight with
      | nil => finishWithoutUpperBound cur curLeft nil lowerTree upperTree
      | node right rightLeft rightRight =>
        if key < right.beginKey then do
          let lowerTree ← rotateAsLowerRoot lowerTree cur curLeft
          if rightLeft.isNil then
            finishWithUpperBound right rightLeft rightRight lowerTree upperTree
          else splayLoop key rightLeft lowerTree (placeInUpperLeftmost upperTree right rightRight)
        else do
          checkUnmapped key right
          if rightRight.isNil then do
            let lowerTree ← rotateAsLowerRoot lowerTree cur curLeft
            finishWithoutUpperBound right rightLeft rightRight lowerTree upperTree
          else do
            -- zig-zig right
            let lowerTree ← rotateAsLowerRoot lowerTree right (node cur curLeft rightLeft)
            splayLoop key rightRight lowerTree upperTree

/-- `splay(key)`: whether the root is now an upper bound of `key`, and the tree. -/
def splay (key : K) (root : Tree K V) : Except Assertion (Bool × Tree K V) :=
  if root.isNil then .ok (false, nil) else splayLoop key root nil nil

/-! ## The operations -/

/-- `findLeastUpperBound(key)`: the stored value, and the tree that the search leaves. -/
def findLeastUpperBound (key : K) (root : Tree K V) : Except Assertion (Option V × Tree K V) := do
  let (foundUpperBound, root) ← splay key root
  match foundUpperBound, root with
  | true, node n l r => pure (some n.value, node n l r)
  -- `Root->Value` with no root
  | true, nil => .error .malformed
  | false, root => pure (none, root)

variable [SuccessorMapTraits K]

/-- The lower bound `l` grows by one key, and takes in the upper bound if it reaches it. -/
def appendTo (l : Node K V) (lowerLeft lowerRight upperBound : Tree K V) : Tree K V :=
  let l := { l with endKey := getSuccessor l.endKey }
  match upperBound with
  | nil => node l lowerLeft lowerRight
  | node u _ upperRight =>
    if l.endKey = u.beginKey then node { l with endKey := u.endKey } lowerLeft upperRight
    else node u (node l lowerLeft lowerRight) upperRight

/-- What `insert` does when the lower bound does not end at the key: prepend to the upper bound, or
create a new node. -/
def prependOrCreate (key : K) (value : V) (lowerBound upperBound : Tree K V) : Tree K V :=
  match upperBound with
  | nil => node ⟨key, getSuccessor key, value⟩ lowerBound nil
  | node u _ upperRight =>
    if getSuccessor key = u.beginKey then
      node { u with beginKey := getSuccessor key, value := value } lowerBound upperRight
    else node ⟨key, getSuccessor key, value⟩ lowerBound (node u nil upperRight)

/-- What `insert` does between the bounds of the key. -/
def insertBetween (key : K) (value : V) (lowerBound upperBound : Tree K V) : Tree K V :=
  match lowerBound with
  | node l lowerLeft lowerRight =>
    if l.endKey = key then appendTo l lowerLeft lowerRight upperBound
    else prependOrCreate key value (node l lowerLeft lowerRight) upperBound
  | nil => prependOrCreate key value nil upperBound

/-- An assertion of `insert` about a bound, if there is one. -/
def holdsOfRoot (p : Node K V → Bool) : Tree K V → Bool
  | nil => true
  | node n _ _ => p n

/-- `insert(key, value)`. -/
def insert (key : K) (value : V) (root : Tree K V) : Except Assertion (Tree K V) := do
  let (haveUpperBound, root) ← splay key root
  let upperBound := if haveUpperBound then root else nil
  let lowerBound := if haveUpperBound then root.left else root
  check (haveUpperBound == !upperBound.isNil)
  check lowerBound.right.isNil
  check (holdsOfRoot (fun u => key < u.beginKey) upperBound)
  check (holdsOfRoot (fun l => !decide (key < l.endKey)) lowerBound)
  pure (insertBetween key value lowerBound upperBound)

end

end SwiftKStdlib.SuccessorMap
