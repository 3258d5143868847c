import SwiftKStdlib.Lib.Prog
import SwiftKStdlib.Lib.Probing
import Mathlib.Tactic

/-!
# Native buffers of sets and dictionaries

* `hash16Bytes`, `mixInt`, `squeezeHashValue` : from a hash value to a bucket;
* `Buffer` : the storage; a set's entries have the value `()`;
* `Buffer.find`, `unsafeAddNew`, `fromArray`, `nativeDelete` : probing;
* `Variant` : a dictionary that is mutated, and whether others share its storage;
* `ensureUniqueNativeBuffer`, `nativeInsert`, `nativeUpdateValue`, `nativeRemoveObject`, ... : its operations.
-/

namespace SwiftKStdlib.HashedCollections
open Lib Lib.Probing

/-! ## Hashing -/

/-- `_HashingDetail.hash16Bytes`. -/
def hash16Bytes (low high : UInt64) : UInt64 :=
  let mul : UInt64 := 0x9ddfea08eb382d69
  let a := (low ^^^ high) * mul
  let a := a ^^^ (a >>> 47)
  let b := (high ^^^ a) * mul
  let b := b ^^^ (b >>> 47)
  b * mul

/-- `getExecutionSeed`, with no `fixedSeedOverride`. -/
def getExecutionSeed : UInt64 := 0xff51afd7ed558ccd

/-- `_mixInt`: an `Int` and a `UInt64` of the same bits. -/
def mixInt (value : UInt64) : UInt64 :=
  hash16Bytes (getExecutionSeed + ((value &&& 0xffffffff) <<< 3)) (value >>> 32)

/-- `_squeezeHashValue`. -/
def squeezeHashValue (hashValue : UInt64) (upperBound : Nat) : Nat := (mixInt hashValue).toNat &&& (upperBound - 1)

/-! ## Buffers -/

structure Buffer (κ ν : Type) where
  capacity : Nat
  entries : Nat → Option (κ × ν)
  count : Nat

namespace Buffer

variable {κ ν : Type}

/-- `init(capacity:)`. -/
def ofCapacity (capacity : Nat) : Buffer κ ν := ⟨capacity, fun _ => none, 0⟩

def empty : Buffer κ ν := ofCapacity 1

/-- The loop of `init(minimumCapacity:)`. -/
def doubled (minimumCapacity : Int) : Option Nat :=
  whileLoop (fun capacity => decide ((capacity : Int) < minimumCapacity)) (fun capacity => capacity <<< 1) 64 2

def isInitializedEntry (b : Buffer κ ν) (i : Nat) : Bool := (b.entries i).isSome

def destroyEntry (b : Buffer κ ν) (i : Nat) : Buffer κ ν := { b with entries := Function.update b.entries i none }

/-- `initializeKey(_:value:at:)`. -/
def initializeKey (b : Buffer κ ν) (key : κ) (value : ν) (i : Nat) : Buffer κ ν :=
  { b with entries := Function.update b.entries i (some (key, value)) }

/-- `setKey(_:value:at:)`. -/
def setKey (b : Buffer κ ν) (key : κ) (value : ν) (i : Nat) : Buffer κ ν :=
  { b with entries := Function.update b.entries i (some (key, value)) }

/-- `moveInitializeEntry(from: self, at:toEntryAt:)`. -/
def moveInitializeEntry (b : Buffer κ ν) (i toEntryAt : Nat) : Buffer κ ν :=
  { b with entries := Function.update (Function.update b.entries toEntryAt (b.entries i)) i none }

def setCount (b : Buffer κ ν) (count : Nat) : Buffer κ ν := { b with count := count }

/-- `_bucketMask`. -/
def bucketMask (b : Buffer κ ν) : Nat := b.capacity - 1

/-- `_bucket`. -/
def bucket [Hashable κ] (b : Buffer κ ν) (key : κ) : Nat := squeezeHashValue (hash key) b.capacity

/-- `_index(after:)`. -/
def indexAfter (b : Buffer κ ν) (bucket : Nat) : Nat := (bucket + 1) &&& b.bucketMask

/-- `_prev`: the subtraction wraps. -/
def prev (b : Buffer κ ν) (bucket : Nat) : Nat := (bucket + (2 ^ 64 - 1)) % 2 ^ 64 &&& b.bucketMask

/-- `minimumCapacity(minimumCount:maxLoadFactorInverse:)`, for the default factor. -/
def minimumCapacity (minimumCount : Int) : Int := max (minimumCount * 2) (minimumCount + 1)

section Find

variable [BEq κ]

/-- `_find`. After `capacity` buckets the loop is back where it was, and never ends. -/
def find (b : Buffer κ ν) (key : κ) (startBucket : Nat) : Option (Nat × Bool) := do
  let bucket ← whileLoop (fun bucket => (b.entries bucket).any fun e => !(e.1 == key)) b.indexAfter b.capacity
    startBucket
  return (bucket, b.isInitializedEntry bucket)

variable [Hashable κ]

def unsafeAddNew (b : Buffer κ ν) (key : κ) (value : ν) : Option (Buffer κ ν) := do
  let (i, _) ← b.find key (b.bucket key)
  return b.initializeKey key value i

/-- `index(forKey:)`. -/
def indexForKey (b : Buffer κ ν) (key : κ) : Option (Option Nat) :=
  if b.count = 0 then some none
  else do
    let (i, found) ← b.find key (b.bucket key)
    return if found then some i else none

/-- `maybeGet`, with the key it finds. -/
def maybeGet (b : Buffer κ ν) (key : κ) : Option (Option (κ × ν)) :=
  if b.count = 0 then some none
  else do
    let (i, found) ← b.find key (b.bucket key)
    return if found then b.entries i else none

/-- The loop of `ensureUniqueNativeBufferNative`, from bucket `i` on. -/
def copyEntries (old : Buffer κ ν) : List Nat → Buffer κ ν → Option (Buffer κ ν)
  | [], new => some new
  | i :: is, new =>
    match old.entries i with
    | none => copyEntries old is new
    | some (key, value) => do
      let new ← (if old.capacity = new.capacity then some (new.initializeKey key value i)
        else new.unsafeAddNew key value : Option (Buffer κ ν))
      copyEntries old is new

/-! ## Deletion -/

/-- Whether the entry of bucket `b` belongs between `start` and `hole`. -/
def belongs (b : Buffer κ ν) (start hole bucket : Nat) : Bool :=
  (b.entries bucket).any fun e =>
    let idealBucket := b.bucket e.1
    if start ≤ hole then decide (start ≤ idealBucket ∧ idealBucket ≤ hole)
    else decide (start ≤ idealBucket ∨ idealBucket ≤ hole)

/-- The last loop of `nativeDelete`. -/
def relocate (start lastInChain : Nat) : Nat → Buffer κ ν → Nat → Option (Buffer κ ν)
  | 0, _, _ => none
  | fuel + 1, b, hole =>
    if hole = lastInChain then some b
    else do
      let bucket ← whileLoop (fun bucket => bucket != hole && !b.belongs start hole bucket) b.prev b.capacity
        lastInChain
      if bucket = hole then return b else relocate start lastInChain fuel (b.moveInitializeEntry bucket hole) bucket

def nativeDelete (b : Buffer κ ν) (idealBucket offset : Nat) : Option (Buffer κ ν) := do
  let b := (b.destroyEntry offset).setCount (b.count - 1)
  let start ← whileLoop (fun start => b.isInitializedEntry (b.prev start)) b.prev b.capacity idealBucket
  let lastInChain ← whileLoop (fun last => b.isInitializedEntry (b.indexAfter last)) b.indexAfter b.capacity offset
  relocate start lastInChain b.capacity b offset

end Find

/-! ## Iteration -/

/-- The loop of `index(after:)`, with `n` buckets to the end. -/
def skipHoles (b : Buffer κ ν) : Nat → Nat → Nat
  | 0, idx => idx
  | n + 1, idx => if b.isInitializedEntry idx then idx else skipHoles b n (idx + 1)

def startIndex (b : Buffer κ ν) : Nat := b.skipHoles b.capacity 0

def formIndexAfter (b : Buffer κ ν) (i : Nat) : Nat := b.skipHoles (b.capacity - (i + 1)) (i + 1)

/-- The entries from index `i` on. -/
def entriesFrom (b : Buffer κ ν) : Nat → Nat → List (κ × ν)
  | 0, _ => []
  | n + 1, i => if i = b.capacity then [] else (b.entries i).toList ++ entriesFrom b n (b.formIndexAfter i)

def iterated (b : Buffer κ ν) : List (κ × ν) := b.entriesFrom (b.capacity + 1) b.startIndex

end Buffer

/-! ## Mutation -/

/-- How an operation stops without a result. -/
inductive Stop (ε : Type) where
  /-- `init(minimumCapacity:)` finds no power of two that is large enough. -/
  | noCapacity
  | neverEnds
  /-- A `_precondition`, or a `_sanityCheck` on an entry that is read. -/
  | checkFails
  | throws (e : ε)
  deriving DecidableEq

/-- A `_VariantBuffer` that is mutated. -/
structure Variant (κ ν : Type) where
  asNative : Buffer κ ν
  isUniquelyReferenced : Bool
  /-- Whether it has got another storage. -/
  reallocated : Bool

section Mutation

variable {κ ν ε σ α : Type}

/-- A loop that may never end. -/
def ends (x : Option α) : Prog σ (Stop ε) α := fun s =>
  match x with
  | some a => (.ok a, s)
  | none => (.error .neverEnds, s)

/-- What is read of a bucket. -/
def initialized (x : Option α) : Prog σ (Stop ε) α := fun s =>
  match x with
  | some a => (.ok a, s)
  | none => (.error .checkFails, s)

/-- `NativeBuffer(minimumCapacity:)`. -/
def withMinimumCapacity (minimumCapacity : Int) : Prog σ (Stop ε) (Buffer κ ν) :=
  if minimumCapacity ≤ 2 ^ 62 then do
    let capacity ← ends (Buffer.doubled minimumCapacity)
    return .ofCapacity capacity
  else Prog.throw .noCapacity

def asNative : Prog (Variant κ ν) (Stop ε) (Buffer κ ν) := fun s => (.ok s.asNative, s)

def setNative (b : Buffer κ ν) : Prog (Variant κ ν) (Stop ε) Unit := fun s => (.ok (), { s with asNative := b })

/-- `self = .native(_)`. -/
def setStorage (b : Buffer κ ν) : Prog (Variant κ ν) (Stop ε) Unit := fun _ => (.ok (), ⟨b, true, true⟩)

variable [BEq κ] [Hashable κ]

/-- `ensureUniqueNativeBufferNative`: whether the buffer was reallocated, and whether its capacity changed. -/
def ensureUniqueNativeBuffer (minimumCapacity : Int) : Prog (Variant κ ν) (Stop ε) (Bool × Bool) := do
  let s ← Prog.get
  let oldNativeBuffer := s.asNative
  let oldCapacity := oldNativeBuffer.capacity
  if minimumCapacity ≤ oldCapacity ∧ s.isUniquelyReferenced = true then return (false, false)
  else do
    let newNativeBuffer ← withMinimumCapacity minimumCapacity
    let newNativeBuffer ← ends (oldNativeBuffer.copyEntries (List.range oldCapacity) newNativeBuffer)
    setStorage (newNativeBuffer.setCount oldNativeBuffer.count)
    return (true, oldCapacity != newNativeBuffer.capacity)

def reserveCapacity (capacity : Int) : Prog (Variant κ ν) (Stop ε) Unit := do
  let _ ← ensureUniqueNativeBuffer (Buffer.minimumCapacity capacity)
  return ()

/-- The search after `ensureUniqueNativeBuffer`, for an index found before. -/
def findAgain (capacityChanged : Bool) (key : κ) (i : Nat) : Prog (Variant κ ν) (Stop ε) Nat := do
  let b ← asNative
  if capacityChanged then do
    let (i, _) ← ends (b.find key (b.bucket key))
    return i
  else return i

/-- The end of `nativeInsert`, `nativeUpdateValue`, `nativePointerToValue` and `nativeMerge`. -/
def initializeNew (key : κ) (value : ν) (i : Nat) : Prog (Variant κ ν) (Stop ε) Unit := do
  let b ← asNative
  setNative ((b.initializeKey key value i).setCount (b.count + 1))

/-- What an absent key goes through in all of them: `i` is the hole that the search came to. -/
def insertAbsent (key : κ) (value : ν) (i : Nat) : Prog (Variant κ ν) (Stop ε) Nat := do
  let b ← asNative
  let (_, capacityChanged) ← ensureUniqueNativeBuffer (Buffer.minimumCapacity (b.count + 1))
  let i ← findAgain capacityChanged key i
  initializeNew key value i
  return i

/-- `nativeInsert`: whether it inserted, and the entry after it (a set returns the key of it, a dictionary the value). -/
def nativeInsert (value : ν) (key : κ) : Prog (Variant κ ν) (Stop ε) (Bool × (κ × ν)) := do
  let b ← asNative
  let (i, found) ← ends (b.find key (b.bucket key))
  if found then do
    let e ← initialized (b.entries i)
    return (false, e)
  else do
    let _ ← insertAbsent key value i
    return (true, (key, value))

/-- `nativeUpdateValue`: the entry before it. -/
def nativeUpdateValue (value : ν) (key : κ) : Prog (Variant κ ν) (Stop ε) (Option (κ × ν)) := do
  let b ← asNative
  let (i, found) ← ends (b.find key (b.bucket key))
  if found then do
    let (_, capacityChanged) ← ensureUniqueNativeBuffer b.capacity
    let i ← findAgain capacityChanged key i
    let b ← asNative
    let oldValue ← initialized (b.entries i)
    setNative (b.setKey key value i)
    return some oldValue
  else do
    let _ ← insertAbsent key value i
    return none

/-- `nativePointerToValue(at:)`: an offset in the values of the buffer. -/
def nativePointerToValue (i : Nat) : Prog (Variant κ ν) (Stop ε) Nat := do
  let b ← asNative
  let _ ← ensureUniqueNativeBuffer b.capacity
  return i

/-- `nativePointerToValue(forKey:insertingDefault:)`. -/
def nativePointerToValueInsertingDefault (key : κ) (defaultValue : ν) :
    Prog (Variant κ ν) (Stop ε) (Bool × Nat) := do
  let b ← asNative
  let (i, found) ← ends (b.find key (b.bucket key))
  if found then do
    let pointer ← nativePointerToValue i
    return (false, pointer)
  else do
    let i ← insertAbsent key defaultValue i
    return (true, i)

/-- `self[key, default: defaultValue] = f(self[key, default: defaultValue])`, through the pointer. -/
def subscriptDefault (key : κ) (defaultValue : ν) (f : ν → ν) : Prog (Variant κ ν) (Stop ε) Unit := do
  let (_, pointer) ← nativePointerToValueInsertingDefault key defaultValue
  let b ← asNative
  let (k, value) ← initialized (b.entries pointer)
  setNative (b.setKey k (f value) pointer)

/-- `nativeRemoveObject`: the entry that is removed. -/
def nativeRemoveObject (key : κ) : Prog (Variant κ ν) (Stop ε) (Option (κ × ν)) := do
  let b ← asNative
  let (i, found) ← ends (b.find key (b.bucket key))
  if found then do
    let (_, capacityChanged) ← ensureUniqueNativeBuffer b.capacity
    let i ← findAgain capacityChanged key i
    let nativeBuffer ← asNative
    let oldValue ← initialized (nativeBuffer.entries i)
    let nativeBuffer ← ends (nativeBuffer.nativeDelete (nativeBuffer.bucket key) i)
    setNative nativeBuffer
    return some oldValue
  else return none

/-- `nativeRemove(at:)`. -/
def nativeRemove (nativeIndex : Nat) : Prog (Variant κ ν) (Stop ε) (κ × ν) := do
  let b ← asNative
  let _ ← ensureUniqueNativeBuffer b.capacity
  let nativeBuffer ← asNative
  let result ← initialized (if nativeIndex < nativeBuffer.capacity then nativeBuffer.entries nativeIndex else none)
  let nativeBuffer ← ends (nativeBuffer.nativeDelete (nativeBuffer.bucket result.1) nativeIndex)
  setNative nativeBuffer
  return result

omit [BEq κ] [Hashable κ]

def nativeRemoveAll : Prog (Variant κ ν) (Stop ε) Unit := do
  let s ← Prog.get
  if s.isUniquelyReferenced = true then setNative ((Buffer.ofCapacity s.asNative.capacity).setCount 0)
  else do
    let b ← withMinimumCapacity s.asNative.capacity
    setStorage b

def removeAll (keepingCapacity : Bool) : Prog (Variant κ ν) (Stop ε) Unit := do
  let b ← asNative
  if b.count = 0 then return ()
  else if keepingCapacity then nativeRemoveAll
  else do
    let b ← withMinimumCapacity 2
    setStorage b

variable [BEq κ] [Hashable κ]

/-- The loop of `nativeMerge`; `combine` may throw. -/
def nativeMerge (combine : ν → ν → Except ε ν) : List (κ × ν) → Prog (Variant κ ν) (Stop ε) Unit
  | [] => return ()
  | (key, value) :: keysAndValues => do
    let b ← asNative
    let (i, found) ← ends (b.find key (b.bucket key))
    if found then do
      let _ ← ensureUniqueNativeBuffer b.capacity
      let b ← asNative
      let e ← initialized (b.entries i)
      match combine e.2 value with
      | .error e => Prog.throw (.throws e)
      | .ok newValue =>
        setNative (b.setKey key newValue i)
        nativeMerge combine keysAndValues
    else do
      let _ ← insertAbsent key value i
      nativeMerge combine keysAndValues

end Mutation

/-! ## Literals -/

section Literals

variable {κ ν ε σ : Type} [BEq κ] [Hashable κ]

/-- The loop of a dictionary's `fromArray`. -/
def initializeKeys : List (κ × ν) → Buffer κ ν → Prog σ (Stop ε) (Buffer κ ν)
  | [], b => return b
  | (key, value) :: elements, b => do
    let (i, found) ← ends (b.find key (b.bucket key))
    if found then Prog.throw .checkFails else initializeKeys elements (b.initializeKey key value i)

/-- A dictionary's `fromArray`, of a literal with at least one element. -/
def fromArray (elements : List (κ × ν)) : Prog σ (Stop ε) (Buffer κ ν) := do
  let b ← withMinimumCapacity (Buffer.minimumCapacity elements.length)
  let b ← initializeKeys elements b
  return b.setCount elements.length

/-- The loop of a set's `fromArray`: a member that is there already is skipped. -/
def initializeMembers : List (κ × ν) → Buffer κ ν → Nat → Prog σ (Stop ε) (Buffer κ ν)
  | [], b, count => return b.setCount count
  | (key, value) :: elements, b, count => do
    let (i, found) ← ends (b.find key (b.bucket key))
    if found then initializeMembers elements b count
    else initializeMembers elements (b.initializeKey key value i) (count + 1)

/-- A set's `fromArray`, of a literal with at least one member. -/
def setFromArray (elements : List (κ × ν)) : Prog σ (Stop ε) (Buffer κ ν) := do
  let b ← withMinimumCapacity (Buffer.minimumCapacity elements.length)
  initializeMembers elements b 0

end Literals

end SwiftKStdlib.HashedCollections
