import SwiftKStdlib.Lib.Prog
import SwiftKStdlib.Runtime.SideTable

/-!
# Weak references

The words of `RefCounts` are given by the counts they hold.

* `Memory` : the reference counts of the objects, the side table entries, and the weak variables;
* `decrementWeak`, `tryRetain`, `formWeakReference`, ... : the reference counting, `none` of it on an
  entry that is deleted;
* `nativeInit`, `nativeTakeStrong`, ... : the operations on weak variables;
* `Op` : what clients do; `Op.Allowed` : what they may do; `Reachable` : the states this leads to.
-/

namespace SwiftKStdlib.Runtime

open Lib

/-! ## Counts -/

namespace Counts

variable (o : RefCountBitOffsets) (c : Counts)

/-- The new counts, none on an overflow. -/
def incrementStrongExtraRefCount : Option Counts :=
  if c.strongExtra + 1 < 2 ^ o.strongExtraRefCountBitCount then
    some { c with strongExtra := c.strongExtra + 1 }
  else none

/-- The new counts, and whether the object should now be deinited. -/
def doDecrement : Option (Counts × Bool) :=
  if 1 ≤ c.strongExtra then some ({ c with strongExtra := c.strongExtra - 1 }, false)
  else if c.isDeiniting then none
  else some ({ c with strongExtra := 0, isDeiniting := true }, true)

def incrementUnownedRefCount : Option Counts :=
  if c.unowned + 1 < 2 ^ o.unownedRefCountBitCount then some { c with unowned := c.unowned + 1 } else none

/-- The new counts, and whether the object should now be freed. -/
def decrementUnownedShouldFree : Option (Counts × Bool) :=
  let unowned := (c.unowned + (2 ^ o.unownedRefCountBitCount - 1)) % 2 ^ o.unownedRefCountBitCount
  if unowned ≠ 0 then some ({ c with unowned }, false)
  else if c.isDeiniting then some ({ c with unowned }, true)
  else none

end Counts

/-! The words of a side table, and those of an object for pointers of 8 bytes, do as the counts. -/

namespace RefCountBits

open RefCountBitOffsets

variable (b : RefCountBits)

end RefCountBits

namespace Lifecycle

open RefCountBitOffsets

/-! ## Memory -/

/-- What stops the process, or should not happen in it. -/
inductive Fault where
  | retainOverflow
  | unownedRetainOverflow
  | weakRetainOverflow
  | assertion
  | freedObject
  | deletedEntry
  deriving DecidableEq, Repr

def Fault.IsAbort (f : Fault) : Prop :=
  f = .retainOverflow ∨ f = .unownedRetainOverflow ∨ f = .weakRetainOverflow

/-- `InlineRefCounts`: counts, or a pointer to a side table entry. -/
inductive InlineRefCounts where
  | counts (refCounts : Counts)
  | sideTable (side : Nat)
  deriving DecidableEq, Repr

structure HeapObjectSideTableEntry where
  object : Nat
  refCounts : Counts
  weakBits : BitVec 32
  deriving DecidableEq, Repr

/-- The objects that are not freed, the side table entries that are not deleted, and the values of the weak
variables. The side table entry of an object goes by the object's name. -/
structure Memory where
  objects : Nat → Option InlineRefCounts
  entries : Nat → Option HeapObjectSideTableEntry
  nativeValue : Nat → Option Nat

namespace Memory

def setObject (m : Memory) (object : Nat) (refCounts : Option InlineRefCounts) : Memory :=
  { m with objects := Function.update m.objects object refCounts }

def setEntry (m : Memory) (side : Nat) (entry : Option HeapObjectSideTableEntry) : Memory :=
  { m with entries := Function.update m.entries side entry }

def setNativeValue (m : Memory) (w : Nat) (bits : Option Nat) : Memory :=
  { m with nativeValue := Function.update m.nativeValue w bits }

end Memory

abbrev RuntimeM (α : Type) : Type := Prog Memory Fault α

def fault {α : Type} (f : Fault) : RuntimeM α := Prog.throw f

def orFault {α : Type} (f : Fault) : Option α → RuntimeM α
  | some a => pure a
  | none => fault f

def loadObject (object : Nat) : RuntimeM InlineRefCounts := fun m =>
  match m.objects object with
  | some refCounts => (.ok refCounts, m)
  | none => (.error .freedObject, m)

def storeObject (object : Nat) (refCounts : InlineRefCounts) : RuntimeM Unit := fun m =>
  (.ok (), m.setObject object (some refCounts))

/-- `swift_slowDealloc`. -/
def slowDealloc (object : Nat) : RuntimeM Unit := fun m => (.ok (), m.setObject object none)

def loadEntry (side : Nat) : RuntimeM HeapObjectSideTableEntry := fun m =>
  match m.entries side with
  | some entry => (.ok entry, m)
  | none => (.error .deletedEntry, m)

def storeEntry (side : Nat) (entry : HeapObjectSideTableEntry) : RuntimeM Unit := fun m =>
  (.ok (), m.setEntry side (some entry))

def deleteEntry (side : Nat) : RuntimeM Unit := fun m => (.ok (), m.setEntry side none)

def loadNativeValue (w : Nat) : RuntimeM (Option Nat) := fun m => (.ok (m.nativeValue w), m)

def storeNativeValue (w : Nat) (bits : Option Nat) : RuntimeM Unit := fun m =>
  (.ok (), m.setNativeValue w bits)

/-! ## Side table entries -/

namespace HeapObjectSideTableEntry

variable (side : Nat)

/-- Increment the reference count, unless the object is deiniting. -/
def tryIncrement : RuntimeM Bool := do
  let entry ← loadEntry side
  if entry.refCounts.isDeiniting then pure false
  else
    let refCounts ← orFault .retainOverflow (entry.refCounts.incrementStrongExtraRefCount offsets8)
    storeEntry side { entry with refCounts }
    pure true

def tryRetain : RuntimeM (Option Nat) := do
  if ← tryIncrement side then
    let entry ← loadEntry side
    pure (some entry.object)
  else pure none

def incrementStrong : RuntimeM Unit := do
  let entry ← loadEntry side
  let refCounts ← orFault .retainOverflow (entry.refCounts.incrementStrongExtraRefCount offsets8)
  storeEntry side { entry with refCounts }

def decrementStrong : RuntimeM Bool := do
  let entry ← loadEntry side
  let (refCounts, deinitNow) ← orFault .assertion entry.refCounts.doDecrement
  storeEntry side { entry with refCounts }
  pure deinitNow

def incrementUnowned : RuntimeM Unit := do
  let entry ← loadEntry side
  -- Overflow from side table to a new side table?!
  let refCounts ← orFault .unownedRetainOverflow (entry.refCounts.incrementUnownedRefCount offsets8)
  storeEntry side { entry with refCounts }

def incrementWeak : RuntimeM (Option Nat) := do
  let entry ← loadEntry side
  if entry.refCounts.isDeiniting then pure none
  else if entry.weakBits = 0 then fault .assertion
  else
    let weakBits := entry.weakBits + 1
    if weakBits < entry.weakBits then fault .weakRetainOverflow
    else
      storeEntry side { entry with weakBits }
      pure (some side)

def decrementWeak : RuntimeM Unit := do
  let entry ← loadEntry side
  if entry.weakBits = 0 then fault .assertion
  else
    let weakBits := entry.weakBits - 1
    storeEntry side { entry with weakBits }
    if weakBits ≠ 0 then pure ()
    -- Weak ref count is now zero. Delete the side table entry. FREED -> DEAD
    else if entry.refCounts.unowned ≠ 0 then fault .assertion
    else deleteEntry side

def decrementUnownedShouldFree : RuntimeM Bool := do
  let entry ← loadEntry side
  let (refCounts, shouldFree) ← orFault .assertion (entry.refCounts.decrementUnownedShouldFree offsets8)
  storeEntry side { entry with refCounts }
  -- DEINITED -> FREED
  if shouldFree then decrementWeak side else pure ()
  pure shouldFree

end HeapObjectSideTableEntry

open Lifecycle.HeapObjectSideTableEntry

/-! ## Objects -/

section Objects

variable (size : PointerSize) (object : Nat)

/-- The object's side table, allocated if necessary; null if the object is deiniting. -/
def allocateSideTable : RuntimeM (Option Nat) := do
  match ← loadObject object with
  | .sideTable side => pure (some side)
  | .counts refCounts =>
    if refCounts.isDeiniting then pure none
    else
      storeEntry object { object, refCounts, weakBits := 1 }
      storeObject object (.sideTable object)
      pure (some object)

def formWeakReference : RuntimeM (Option Nat) := do
  match ← allocateSideTable object with
  | some side => incrementWeak side
  | none => pure none

/-- `swift_retain`. -/
def retain : RuntimeM Unit := do
  match ← loadObject object with
  | .sideTable side => incrementStrong side
  | .counts refCounts =>
    let refCounts ← orFault .retainOverflow (refCounts.incrementStrongExtraRefCount size.offsets)
    storeObject object (.counts refCounts)

/-- `swift_release`. The result says whether the object's deinit begins. -/
def release : RuntimeM Bool := do
  match ← loadObject object with
  | .sideTable side => decrementStrong side
  | .counts refCounts =>
    let (refCounts, deinitNow) ← orFault .assertion refCounts.doDecrement
    storeObject object (.counts refCounts)
    pure deinitNow

/-- `swift_unownedRetain`. -/
def unownedRetain : RuntimeM Unit := do
  match ← loadObject object with
  | .sideTable side => incrementUnowned side
  | .counts refCounts =>
    match refCounts.incrementUnownedRefCount size.offsets with
    | some refCounts => storeObject object (.counts refCounts)
    | none =>
      -- Use the side table on overflow.
      match ← allocateSideTable object with
      | some side => incrementUnowned side
      | none => fault .unownedRetainOverflow

def decrementUnownedShouldFree : RuntimeM Bool := do
  match ← loadObject object with
  | .sideTable side => HeapObjectSideTableEntry.decrementUnownedShouldFree side
  | .counts refCounts =>
    let (refCounts, performFree) ← orFault .assertion (refCounts.decrementUnownedShouldFree size.offsets)
    storeObject object (.counts refCounts)
    pure performFree

/-- `swift_unownedRelease`. -/
def unownedRelease : RuntimeM Unit := do
  if ← decrementUnownedShouldFree size object then slowDealloc object else pure ()

def canBeFreedNow : RuntimeM Bool := do
  match ← loadObject object with
  | .sideTable _ => pure false
  | .counts refCounts => pure (refCounts.isDeiniting && refCounts.strongExtra == 0 && refCounts.unowned == 1)

/-- `swift_deallocObject`. -/
def deallocObject : RuntimeM Unit := do
  -- object state DEINITING -> DEAD, or DEINITING -> DEINITED
  if ← canBeFreedNow object then slowDealloc object else unownedRelease size object

/-- `swift_allocObject`. -/
def allocObject : RuntimeM Unit :=
  storeObject object (.counts { isPinned := false, unowned := 1, isDeiniting := false, strongExtra := 0 })

end Objects

/-! ## Weak variables -/

namespace WeakReference

def destroyOldNativeBits : Option Nat → RuntimeM Unit
  | some oldSide => decrementWeak oldSide
  | none => pure ()

def nativeLoadStrongFromBits : Option Nat → RuntimeM (Option Nat)
  | some side => tryRetain side
  | none => pure none

def nativeTakeStrongFromBits : Option Nat → RuntimeM (Option Nat)
  | some side => do
    decrementWeak side
    tryRetain side
  | none => pure none

def nativeCopyInitFromBits (w : Nat) : Option Nat → RuntimeM Unit
  | some side => do
    let side ← incrementWeak side
    storeNativeValue w side
  | none => storeNativeValue w none

def formNullableReference : Option Nat → RuntimeM (Option Nat)
  | some object => formWeakReference object
  | none => pure none

def nativeInit (w : Nat) (object : Option Nat) : RuntimeM Unit := do
  let side ← formNullableReference object
  storeNativeValue w side

def nativeDestroy (w : Nat) : RuntimeM Unit := do
  let oldBits ← loadNativeValue w
  storeNativeValue w none
  destroyOldNativeBits oldBits

def nativeAssign (w : Nat) (newObject : Option Nat) : RuntimeM Unit := do
  let newBits ← formNullableReference newObject
  let oldBits ← loadNativeValue w
  storeNativeValue w newBits
  destroyOldNativeBits oldBits

def nativeLoadStrong (w : Nat) : RuntimeM (Option Nat) := do
  let bits ← loadNativeValue w
  nativeLoadStrongFromBits bits

def nativeTakeStrong (w : Nat) : RuntimeM (Option Nat) := do
  let bits ← loadNativeValue w
  storeNativeValue w none
  nativeTakeStrongFromBits bits

def nativeCopyInit (w src : Nat) : RuntimeM Unit := do
  let srcBits ← loadNativeValue src
  nativeCopyInitFromBits w srcBits

def nativeTakeInit (w src : Nat) : RuntimeM Unit := do
  let srcBits ← loadNativeValue src
  storeNativeValue src none
  storeNativeValue w srcBits

def nativeCopyAssign (w src : Nat) : RuntimeM Unit :=
  if w = src then pure ()
  else do
    nativeDestroy w
    nativeCopyInit w src

def nativeTakeAssign (w src : Nat) : RuntimeM Unit :=
  if w = src then pure ()
  else do
    nativeDestroy w
    nativeTakeInit w src

end WeakReference

open WeakReference

/-! ## Clients -/

/-- What the clients have of an object: the strong and unowned references they hold, and how far they have
come with it. -/
structure Owned where
  strong : Nat
  unowned : Nat
  allocated : Bool
  /-- The object's deinit has begun. -/
  deiniting : Bool
  /-- The object's deinit has completed, and `swift_deallocObject` was called. -/
  deallocated : Bool
  deriving DecidableEq, Repr

namespace Owned

def none : Owned := ⟨0, 0, false, false, false⟩

/-- A client can use the object: it holds a strong reference, or it is the object's deinit. -/
def Usable (own : Owned) : Prop := 0 < own.strong ∨ (own.deiniting = true ∧ own.deallocated = false)

instance (own : Owned) : Decidable own.Usable :=
  inferInstanceAs (Decidable (0 < own.strong ∨ (own.deiniting = true ∧ own.deallocated = false)))

end Owned

/-- The memory, the weak variables that are initialized, and what the clients have of each object. -/
structure State where
  memory : Memory
  initialized : Finset Nat
  owned : Nat → Owned

namespace State

/-- Nothing is allocated or initialized. The weak variables have any bits. -/
def start (nativeValue : Nat → Option Nat) : State where
  memory := ⟨fun _ => Option.none, fun _ => Option.none, nativeValue⟩
  initialized := ∅
  owned := fun _ => .none

def modifyOwned (s : State) (object : Nat) (f : Owned → Owned) : State :=
  { s with owned := Function.update s.owned object (f (s.owned object)) }

def addStrong (s : State) : Option Nat → State
  | some object => s.modifyOwned object fun own => { own with strong := own.strong + 1 }
  | Option.none => s

def markInitialized (s : State) (w : Nat) : State := { s with initialized := insert w s.initialized }

def markDeinitialized (s : State) (w : Nat) : State := { s with initialized := s.initialized.erase w }

def weakCount (s : State) (object : Nat) : Nat :=
  (s.initialized.filter fun w => s.memory.nativeValue w = some object).card

end State

inductive Op where
  | allocObject (object : Nat)
  | retain (object : Nat)
  | release (object : Nat)
  | deallocObject (object : Nat)
  | unownedRetain (object : Nat)
  | unownedRelease (object : Nat)
  | weakInit (w : Nat) (object : Option Nat)
  | weakAssign (w : Nat) (newObject : Option Nat)
  | weakLoadStrong (w : Nat)
  | weakTakeStrong (w : Nat)
  | weakDestroy (w : Nat)
  | weakCopyInit (w src : Nat)
  | weakTakeInit (w src : Nat)
  | weakCopyAssign (w src : Nat)
  | weakTakeAssign (w src : Nat)
  deriving DecidableEq, Repr

namespace Op

/-- What a client may do. -/
def Allowed (s : State) : Op → Prop
  | allocObject object => (s.owned object).allocated = false
  | retain object => (s.owned object).Usable
  | release object => 0 < (s.owned object).strong
  | deallocObject object =>
    (s.owned object).deiniting = true ∧ (s.owned object).deallocated = false ∧ (s.owned object).strong = 0
  | unownedRetain object => (s.owned object).Usable ∨ 0 < (s.owned object).unowned
  | unownedRelease object => 0 < (s.owned object).unowned
  | weakInit w object => w ∉ s.initialized ∧ ∀ o ∈ object, (s.owned o).Usable
  | weakAssign w newObject => w ∈ s.initialized ∧ ∀ o ∈ newObject, (s.owned o).Usable
  | weakLoadStrong w => w ∈ s.initialized
  | weakTakeStrong w => w ∈ s.initialized
  | weakDestroy w => w ∈ s.initialized
  | weakCopyInit w src => w ∉ s.initialized ∧ src ∈ s.initialized
  | weakTakeInit w src => w ∉ s.initialized ∧ src ∈ s.initialized
  | weakCopyAssign w src => w ∈ s.initialized ∧ src ∈ s.initialized
  | weakTakeAssign w src => w ∈ s.initialized ∧ src ∈ s.initialized

instance (s : State) : (op : Op) → Decidable (op.Allowed s)
  | allocObject object => inferInstanceAs (Decidable ((s.owned object).allocated = false))
  | retain object => inferInstanceAs (Decidable (s.owned object).Usable)
  | release object => inferInstanceAs (Decidable (0 < (s.owned object).strong))
  | deallocObject object => inferInstanceAs (Decidable ((s.owned object).deiniting = true ∧
    (s.owned object).deallocated = false ∧ (s.owned object).strong = 0))
  | unownedRetain object =>
    inferInstanceAs (Decidable ((s.owned object).Usable ∨ 0 < (s.owned object).unowned))
  | unownedRelease object => inferInstanceAs (Decidable (0 < (s.owned object).unowned))
  | weakInit w object =>
    inferInstanceAs (Decidable (w ∉ s.initialized ∧ ∀ o ∈ object, (s.owned o).Usable))
  | weakAssign w newObject =>
    inferInstanceAs (Decidable (w ∈ s.initialized ∧ ∀ o ∈ newObject, (s.owned o).Usable))
  | weakLoadStrong w => inferInstanceAs (Decidable (w ∈ s.initialized))
  | weakTakeStrong w => inferInstanceAs (Decidable (w ∈ s.initialized))
  | weakDestroy w => inferInstanceAs (Decidable (w ∈ s.initialized))
  | weakCopyInit w src => inferInstanceAs (Decidable (w ∉ s.initialized ∧ src ∈ s.initialized))
  | weakTakeInit w src => inferInstanceAs (Decidable (w ∉ s.initialized ∧ src ∈ s.initialized))
  | weakCopyAssign w src => inferInstanceAs (Decidable (w ∈ s.initialized ∧ src ∈ s.initialized))
  | weakTakeAssign w src => inferInstanceAs (Decidable (w ∈ s.initialized ∧ src ∈ s.initialized))

/-- The state after an operation of the runtime, with what the client knows of it. -/
def after {α : Type} (s : State) (x : RuntimeM α) (k : α → State → State) : Except Fault State :=
  match x s.memory with
  | (.ok a, memory) => .ok (k a { s with memory })
  | (.error f, _) => .error f

def perform (size : PointerSize) (s : State) : Op → Except Fault State
  | allocObject object => after s (Lifecycle.allocObject object) fun _ s =>
    s.modifyOwned object fun _ => { Owned.none with strong := 1, allocated := true }
  | retain object => after s (Lifecycle.retain size object) fun _ s => s.addStrong (some object)
  | release object => after s (Lifecycle.release object) fun deinitNow s =>
    s.modifyOwned object fun own =>
      { own with strong := own.strong - 1, deiniting := own.deiniting || deinitNow }
  | deallocObject object => after s (Lifecycle.deallocObject size object) fun _ s =>
    s.modifyOwned object fun own => { own with deallocated := true }
  | unownedRetain object => after s (Lifecycle.unownedRetain size object) fun _ s =>
    s.modifyOwned object fun own => { own with unowned := own.unowned + 1 }
  | unownedRelease object => after s (Lifecycle.unownedRelease size object) fun _ s =>
    s.modifyOwned object fun own => { own with unowned := own.unowned - 1 }
  | weakInit w object => after s (nativeInit w object) fun _ s => s.markInitialized w
  | weakAssign w newObject => after s (nativeAssign w newObject) fun _ s => s
  | weakLoadStrong w => after s (nativeLoadStrong w) fun result s => s.addStrong result
  | weakTakeStrong w => after s (nativeTakeStrong w) fun result s => (s.addStrong result).markDeinitialized w
  | weakDestroy w => after s (nativeDestroy w) fun _ s => s.markDeinitialized w
  | weakCopyInit w src => after s (nativeCopyInit w src) fun _ s => s.markInitialized w
  | weakTakeInit w src => after s (nativeTakeInit w src) fun _ s => (s.markInitialized w).markDeinitialized src
  | weakCopyAssign w src => after s (nativeCopyAssign w src) fun _ s => s
  | weakTakeAssign w src => after s (nativeTakeAssign w src) fun _ s =>
    if w = src then s else s.markDeinitialized src

end Op

/-- The states that clients can reach, from any bits in the weak variables. -/
inductive Reachable (size : PointerSize) : State → Prop
  | start (nativeValue : Nat → Option Nat) : Reachable size (.start nativeValue)
  | step {s s' : State} (op : Op) : Reachable size s → op.Allowed s → op.perform size s = .ok s' →
      Reachable size s'

end Lifecycle

end SwiftKStdlib.Runtime
