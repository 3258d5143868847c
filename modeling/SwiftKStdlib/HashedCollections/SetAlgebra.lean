import Mathlib
import SwiftKStdlib.HashedCollections.Sharing

/-!
# Set algebra

* `NativeSet` : a set and the identity of its storage; `Elements` : what the sequence overloads take;
* `formUnion`, `subtract`, `intersection`, ... : the operations, as they insert and remove;
* `Computes`, `Decides` : a set, or a relation, of the members;
* `SetAlgebra` : every operation is the mathematical one.
-/

namespace SwiftKStdlib.HashedCollections
open Lib Lib.Probing Lib.AssocList Lib.Prog

variable {ι κ σ ε : Type}

structure NativeSet (κ : Type) where
  storage : Option Nat
  buffer : Buffer κ Unit

/-- A sequence; `Set.init` adopts the buffer of one that is a set. -/
inductive Elements (κ : Type) where
  | sequence (underestimatedCount : Nat) (elements : List κ)
  | set (a : NativeSet κ)

def Elements.toList : Elements κ → List κ
  | .sequence _ elements => elements
  | .set a => a.buffer.iterated.map Prod.fst

/-- A set of its own is mutated. -/
def locally (b : Buffer κ Unit) (unique : Bool) (x : Prog (Variant κ Unit) (Stop ε) Unit) :
    Prog σ (Stop ε) (NativeSet κ) := fun s =>
  match x ⟨b, unique, false⟩ with
  | (.ok _, v) => (.ok ⟨none, v.asNative⟩, s)
  | (.error e, _) => (.error e, s)

variable [BEq κ] [Hashable κ]

/-! ## The operations -/

def contains (a : Buffer κ Unit) (member : κ) : Prog σ (Stop ε) Bool := do
  let e ← ends (a.maybeGet member)
  return e.isSome

def insert (member : κ) : Prog (Variant κ Unit) (Stop ε) Unit := do
  let _ ← nativeInsert () member
  return ()

def remove (member : κ) : Prog (Variant κ Unit) (Stop ε) Unit := do
  let _ ← nativeRemoveObject member
  return ()

/-- `for item in other { insert(item) }`. -/
def insertEach : List κ → Prog (Variant κ Unit) (Stop ε) Unit
  | [] => return ()
  | item :: other => do
    insert item
    insertEach other

/-- `for item in other { remove(item) }`. -/
def removeEach : List κ → Prog (Variant κ Unit) (Stop ε) Unit
  | [] => return ()
  | item :: other => do
    remove item
    removeEach other

/-- `Set.init(_:)`. -/
def ofElements : Elements κ → Prog σ (Stop ε) (NativeSet κ)
  | .sequence underestimatedCount elements => do
    let b ← withMinimumCapacity underestimatedCount
    locally b true (insertEach elements)
  | .set a => return a

/-- The loop of `_compareSets`, and that of `==`. -/
def allContained (rhs : Buffer κ Unit) : List (κ × Unit) → Prog σ (Stop ε) Bool
  | [] => return true
  | (member, _) :: lhs => do
    let found ← contains rhs member
    if found then allContained rhs lhs else return false

/-- `_compareSets`: whether the first is a subset, and whether they are equal. -/
def compareSets (lhs rhs : NativeSet κ) : Prog σ (Stop ε) (Bool × Bool) := do
  let isSubset ← allContained rhs.buffer lhs.buffer.iterated
  if isSubset then return (true, lhs.buffer.count == rhs.buffer.count) else return (false, false)

/-- The loop of `==`, which searches without the fast path of `contains`. -/
def allFound (rhs : Buffer κ Unit) : List (κ × Unit) → Prog σ (Stop ε) Bool
  | [] => return true
  | (member, _) :: lhs => do
    let (_, found) ← ends (rhs.find member (rhs.bucket member))
    if found then allFound rhs lhs else return false

/-- `lhs._storage === rhs._storage`. -/
def NativeSet.identical (lhs rhs : NativeSet κ) : Bool := lhs.storage.isSome && lhs.storage == rhs.storage

/-- `==`. -/
def equals (lhs rhs : NativeSet κ) : Prog σ (Stop ε) Bool :=
  if lhs.identical rhs then return true
  else if lhs.buffer.count != rhs.buffer.count then return false
  else allFound rhs.buffer lhs.buffer.iterated

omit [BEq κ] in
def hashValue (a : NativeSet κ) : UInt64 :=
  a.buffer.iterated.foldl (fun result member => result ^^^ mixInt (hash member.1)) (mixInt 0)

/-- `isSubset(of: Set)`. -/
def isSubset (a other : NativeSet κ) : Prog σ (Stop ε) Bool := do
  let (isSubset, isEqual) ← compareSets a other
  return isSubset || isEqual

def isSuperset (a other : NativeSet κ) : Prog σ (Stop ε) Bool := isSubset other a

def isStrictSuperset (a other : NativeSet κ) : Prog σ (Stop ε) Bool := do
  let isSuperset ← isSuperset a other
  if isSuperset then do
    let equal ← equals a other
    return !equal
  else return false

def isStrictSubset (a other : NativeSet κ) : Prog σ (Stop ε) Bool := isStrictSuperset other a

/-- The loop of `isDisjoint(with: Set)`. -/
def noneContained (other : Buffer κ Unit) : List (κ × Unit) → Prog σ (Stop ε) Bool
  | [] => return true
  | (member, _) :: a => do
    let found ← contains other member
    if found then return false else noneContained other a

def isDisjoint (a other : NativeSet κ) : Prog σ (Stop ε) Bool := noneContained other.buffer a.buffer.iterated

/-- The loop of `intersection(_: Set)`. -/
def insertContained (other : Buffer κ Unit) : List (κ × Unit) → Prog (Variant κ Unit) (Stop ε) Unit
  | [] => return ()
  | (member, _) :: a => do
    let found ← contains other member
    if found then do
      insert member
      insertContained other a
    else insertContained other a

def intersection (a other : NativeSet κ) : Prog σ (Stop ε) (NativeSet κ) :=
  locally .empty false (insertContained other.buffer a.buffer.iterated)

/-- `formSymmetricDifference(_: Set)`. -/
def toggleEach : List (κ × Unit) → Prog (Variant κ Unit) (Stop ε) Unit
  | [] => return ()
  | (member, _) :: other => do
    let b ← asNative
    let found ← contains b member
    if found then do
      remove member
      toggleEach other
    else do
      insert member
      toggleEach other

def formSymmetricDifference (other : NativeSet κ) : Prog (Variant κ Unit) (Stop ε) Unit :=
  toggleEach other.buffer.iterated

/-! ### The sequence overloads -/

namespace Elements

def formUnion (other : Elements κ) : Prog (Variant κ Unit) (Stop ε) Unit := insertEach other.toList

def union (a : NativeSet κ) (other : Elements κ) : Prog σ (Stop ε) (NativeSet κ) :=
  locally a.buffer false (formUnion other)

def subtract (other : Elements κ) : Prog (Variant κ Unit) (Stop ε) Unit := removeEach other.toList

def subtracting (a : NativeSet κ) (other : Elements κ) : Prog σ (Stop ε) (NativeSet κ) :=
  locally a.buffer false (subtract other)

def intersection (a : NativeSet κ) (other : Elements κ) : Prog σ (Stop ε) (NativeSet κ) := do
  let otherSet ← ofElements other
  HashedCollections.intersection a otherSet

/-- The set is reassigned only if the result is smaller. -/
def formIntersection (storage : Option Nat) (other : Elements κ) : Prog (Variant κ Unit) (Stop ε) Unit := do
  let b ← asNative
  let result ← intersection ⟨storage, b⟩ other
  if result.buffer.count != b.count then setStorage result.buffer else return ()

def formSymmetricDifference (other : Elements κ) : Prog (Variant κ Unit) (Stop ε) Unit := do
  let otherSet ← ofElements other
  HashedCollections.formSymmetricDifference otherSet

def symmetricDifference (a : NativeSet κ) (other : Elements κ) : Prog σ (Stop ε) (NativeSet κ) :=
  locally a.buffer false (formSymmetricDifference other)

def isSubset (a : NativeSet κ) (possibleSuperset : Elements κ) : Prog σ (Stop ε) Bool := do
  let other ← ofElements possibleSuperset
  HashedCollections.isSubset a other

def isStrictSubset (a : NativeSet κ) (possibleStrictSuperset : Elements κ) : Prog σ (Stop ε) Bool := do
  let other ← ofElements possibleStrictSuperset
  HashedCollections.isStrictSubset a other

def isSuperset (a : NativeSet κ) (possibleSubset : Elements κ) : Prog σ (Stop ε) Bool := do
  let other ← ofElements possibleSubset
  HashedCollections.isSubset other a

def isStrictSuperset (a : NativeSet κ) (possibleStrictSubset : Elements κ) : Prog σ (Stop ε) Bool := do
  let other ← ofElements possibleStrictSubset
  HashedCollections.isStrictSubset other a

def isDisjoint (a : NativeSet κ) (other : Elements κ) : Prog σ (Stop ε) Bool := do
  let otherSet ← ofElements other
  HashedCollections.isDisjoint a otherSet

end Elements

/-! ## Members -/

omit [Hashable κ] in
def Buffer.members (b : Buffer κ Unit) : Set κ := {k | Mem b.toList k}

omit [Hashable κ] in
def Elements.members (s : Elements κ) : Set κ := {k | ∃ item ∈ s.toList, (item == k) = true}

def Buffer.Holds (b : Buffer κ Unit) (S : Set κ) : Prop := b.Invariants ∧ b.members = S

section Members

variable {b : Buffer κ Unit} {S T : Set κ} {m : List (κ × Unit)} {k : κ} {s : Variant κ Unit}

theorem Buffer.Represents.holds (h : b.Represents m) : b.Holds {k | Mem m k} := by
  refine ⟨h.toInvariants, ?_⟩
  ext k
  exact mem_perm h.perm

theorem Buffer.Holds.congr (h : b.Holds S) (heq : S = T) : b.Holds T := heq ▸ h

theorem Buffer.Holds.empty : (Buffer.empty : Buffer κ Unit).Holds ∅ := by
  refine Buffer.Represents.empty.holds.congr ?_
  ext k
  simp

variable [EquivBEq κ] [LawfulHashable κ] {E : Stop ε → σ → Prop} {t : σ}

theorem wp_contains {Q : Bool → σ → Prop} (h : b.Holds S) (hQ : ∀ r, (r = true ↔ k ∈ S) → Q r t) :
    wp (contains b k) Q E t := by
  unfold contains
  rw [wp_bind, h.1.represents.maybeGet k]
  refine hQ _ ?_
  rw [← h.2]
  exact mem_iff_get.symm

theorem wp_insert {E : Stop ε → Variant κ Unit → Prop} {Q : Unit → Variant κ Unit → Prop} (h : s.asNative.Holds S)
    (hE : ∀ s, E .noCapacity s)
    (hQ : ∀ s', s'.asNative.Holds (S ∪ {k' | (k == k') = true}) → Isolated s s' → Q () s') :
    wp (insert k) Q E s := by
  unfold insert
  rw [wp_bind]
  have hset : {k' | Mem (insertNew s.asNative.toList k ()) k'} = S ∪ {k' | (k == k') = true} := by
    rw [← h.2]
    ext k'
    exact mem_insertNew_iff
  refine wp_nativeInsert h.1.represents (fun _ _ => hE s) (fun e hget => ?_) fun j s' hget h' hinserted => ?_
  · rw [wp_pure]
    refine hQ s ?_ (.refl s)
    rw [← hset, insertNew_of_get_some hget]
    exact h.1.represents.holds
  · rw [← insertNew_of_get hget] at h'
    exact hQ s' (h'.holds.congr hset) hinserted.isolated

theorem wp_remove {E : Stop ε → Variant κ Unit → Prop} {Q : Unit → Variant κ Unit → Prop} (h : s.asNative.Holds S)
    (hQ : ∀ s', s'.asNative.Holds (S \ {k' | (k == k') = true}) → Isolated s s' → Q () s') :
    wp (remove k) Q E s := by
  unfold remove
  rw [wp_bind]
  refine wp_nativeRemoveObject h.1.represents fun s' h' hisolated => hQ s' (h'.holds.congr ?_) hisolated
  rw [← h.2]
  ext k'
  refine mem_erase_iff.trans (and_congr_right fun _ => ?_)
  exact Bool.not_eq_true _ ▸ Iff.rfl

end Members

end SwiftKStdlib.HashedCollections
