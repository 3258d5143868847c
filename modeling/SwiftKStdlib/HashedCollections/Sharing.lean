import SwiftKStdlib.HashedCollections.Merging
import Mathlib.Data.Fintype.Basic

/-!
# Values that share storage

* `Heap` : dictionaries `ι`, and the storage that each refers to;
* `Heap.mutate` : a mutation, in place or into new storage;
* `Operation`, `Heap.perform` : the operations of a program; `Reaches` : its runs;
* `Operation.onMaps` : the same operations on finite maps;
* `Operation.LeavesHole` : a reservation does not fill the buffer that it copies to;
* `Reaches.agrees` : every run is one on finite maps.
-/

namespace SwiftKStdlib.HashedCollections
open Lib Lib.Probing Lib.AssocList Lib.Prog

variable {ι κ ν ε α : Type}

/-- The storage objects, and which one each value refers to. Object 0 is the empty singleton. -/
structure Heap (ι κ ν : Type) where
  storage : Nat → Buffer κ ν
  allocated : Nat
  refs : ι → Nat

namespace Heap

def initial : Heap ι κ ν := ⟨fun _ => .empty, 1, fun _ => 0⟩

def buffer (h : Heap ι κ ν) (x : ι) : Buffer κ ν := h.storage (h.refs x)

variable [DecidableEq ι]

/-- A new object for `x`. -/
def allocate (h : Heap ι κ ν) (x : ι) (b : Buffer κ ν) : Heap ι κ ν :=
  ⟨Function.update h.storage h.allocated b, h.allocated + 1, Function.update h.refs x h.allocated⟩

/-- What a mutation of `x` leaves. -/
def store (h : Heap ι κ ν) (x : ι) (s : Variant κ ν) : Heap ι κ ν :=
  if s.reallocated = true then h.allocate x s.asNative
  else { h with storage := Function.update h.storage (h.refs x) s.asNative }

/-- `x` is given the empty singleton. -/
def clear (x : ι) : Prog (Heap ι κ ν) (Stop ε) Unit := fun h =>
  (.ok (), { h with refs := Function.update h.refs x 0 })

/-- `x = y`. -/
def assign (x y : ι) : Prog (Heap ι κ ν) (Stop ε) Unit := fun h =>
  (.ok (), { h with refs := Function.update h.refs x (h.refs y) })

variable [Fintype ι]

def isUniquelyReferenced (h : Heap ι κ ν) (x : ι) : Bool :=
  decide (h.refs x ≠ 0 ∧ ∀ y, y ≠ x → h.refs y ≠ h.refs x)

def variant (h : Heap ι κ ν) (x : ι) : Variant κ ν := ⟨h.buffer x, h.isUniquelyReferenced x, false⟩

def mutate (x : ι) (op : Prog (Variant κ ν) (Stop ε) α) : Prog (Heap ι κ ν) (Stop ε) α := fun h =>
  ((op (h.variant x)).1, h.store x (op (h.variant x)).2)

/-- `x` is given another buffer. -/
def create (x : ι) (buffer : Prog (Heap ι κ ν) (Stop ε) (Buffer κ ν)) : Prog (Heap ι κ ν) (Stop ε) Unit := do
  let b ← buffer
  let h ← Prog.get
  fun _ => (.ok (), h.allocate x b)

end Heap

/-- The operations of a program, on its values. -/
inductive Operation (ι κ ν ε : Type) where
  | insert (x : ι) (key : κ) (value : ν)
  | updateValue (x : ι) (key : κ) (value : ν)
  | subscriptDefault (x : ι) (key : κ) (defaultValue : ν) (f : ν → ν)
  | removeValue (x : ι) (key : κ)
  | removeAt (x : ι) (index : Nat)
  | removeAll (x : ι) (keepingCapacity : Bool)
  | reserveCapacity (x : ι) (capacity : Int)
  | merge (x : ι) (keysAndValues : List (κ × ν)) (combine : ν → ν → Except ε ν)
  | literal (x : ι) (elements : List (κ × ν))
  /-- A set's literal. -/
  | setLiteral (x : ι) (elements : List (κ × ν))
  | minimumCapacity (x : ι) (capacity : Int)
  | assign (x y : ι)

/-- What is thrown is caught by the program. -/
def caught (x : Prog (Heap ι κ ν) (Stop ε) Unit) : Prog (Heap ι κ ν) (Stop ε) Unit :=
  Prog.tryCatch x fun e =>
    match e with
    | .throws _ => pure ()
    | e => Prog.throw e

variable [DecidableEq ι] [Fintype ι] [BEq κ] [Hashable κ]

/-- An operation, its result aside. -/
def Operation.perform : Operation ι κ ν ε → Prog (Heap ι κ ν) (Stop ε) Unit
  | .insert x key value => do
    let _ ← Heap.mutate x (nativeInsert value key)
    return ()
  | .updateValue x key value => do
    let _ ← Heap.mutate x (nativeUpdateValue value key)
    return ()
  | .subscriptDefault x key defaultValue f => Heap.mutate x (HashedCollections.subscriptDefault key defaultValue f)
  | .removeValue x key => do
    let _ ← Heap.mutate x (nativeRemoveObject key)
    return ()
  | .removeAt x index => do
    let _ ← Heap.mutate x (nativeRemove index)
    return ()
  | .removeAll x keepingCapacity => Heap.mutate x (HashedCollections.removeAll keepingCapacity)
  | .reserveCapacity x capacity => Heap.mutate x (HashedCollections.reserveCapacity capacity)
  | .merge x keysAndValues combine => caught (Heap.mutate x (nativeMerge combine keysAndValues))
  | .literal x elements =>
    if elements.isEmpty then Heap.clear x
    else Heap.create x (fromArray elements)
  | .setLiteral x elements =>
    if elements.isEmpty then Heap.clear x
    else Heap.create x (setFromArray elements)
  | .minimumCapacity x capacity => Heap.create x (withMinimumCapacity capacity)
  | .assign x y => Heap.assign x y

omit [Fintype ι] [Hashable κ] in
/-- The same operation on finite maps; an index is that of an entry. -/
def Operation.onMaps (entry : ι → Nat → Option (κ × ν)) (M : ι → List (κ × ν)) :
    Operation ι κ ν ε → ι → List (κ × ν)
  | .insert x key value => Function.update M x (insertNew (M x) key value)
  | .updateValue x key value => Function.update M x (put (M x) key value)
  | .subscriptDefault x key defaultValue f => Function.update M x (AssocList.modify (M x) key defaultValue f)
  | .removeValue x key => Function.update M x (erase (M x) key)
  | .removeAt x index =>
    match entry x index with
    | some e => Function.update M x (erase (M x) e.1)
    | none => M
  | .removeAll x _ => Function.update M x []
  | .reserveCapacity _ _ => M
  | .merge x keysAndValues combine => Function.update M x (merged combine keysAndValues (M x)).1
  | .literal x elements => Function.update M x elements
  | .setLiteral x elements => Function.update M x (inserted elements [])
  | .minimumCapacity x _ => Function.update M x []
  | .assign x y => Function.update M x (M y)

omit [DecidableEq ι] [Fintype ι] [Hashable κ] in
/-- What the operations ask for: a valid index, and a literal without duplicate keys. -/
def Operation.Valid (h : Heap ι κ ν) : Operation ι κ ν ε → Prop
  | .removeAt x index => index < (h.buffer x).capacity ∧ (h.buffer x).isInitializedEntry index = true
  | .literal _ elements => Distinct elements
  | _ => True

omit [BEq κ] [Hashable κ] in
/-- A buffer that is copied to reserve a capacity is copied to one with more buckets than entries. -/
def Operation.LeavesHole (h : Heap ι κ ν) : Operation ι κ ν ε → Prop
  | .reserveCapacity x capacity => h.isUniquelyReferenced x = true ∨
      ∀ c, Buffer.doubled (Buffer.minimumCapacity capacity) = some c → (h.buffer x).count < c
  | _ => True

/-- The runs of programs, and the finite maps after the same operations. -/
inductive Reaches (ε : Type) (allowed : Heap ι κ ν → Operation ι κ ν ε → Prop) :
    Heap ι κ ν → (ι → List (κ × ν)) → Prop
  | initial : Reaches ε allowed .initial fun _ => []
  | step {h h' : Heap ι κ ν} {M : ι → List (κ × ν)} (op : Operation ι κ ν ε) (run : Reaches ε allowed h M)
      (valid : op.Valid h) (holds : allowed h op) (performs : op.perform h = (.ok (), h')) :
      Reaches ε allowed h' (op.onMaps (fun x => (h.buffer x).entries) M)

/-! ## Steps -/

omit [DecidableEq ι] [Fintype ι] in
/-- Every value's buffer is a table of its finite map. -/
structure Heap.Sound (h : Heap ι κ ν) (M : ι → List (κ × ν)) : Prop where
  represents : ∀ x, (h.buffer x).Represents (M x)
  refs_lt : ∀ x, h.refs x < h.allocated
  allocated_pos : 0 < h.allocated
  singleton : h.storage 0 = .empty

namespace Heap

variable {h : Heap ι κ ν} {M : ι → List (κ × ν)} {x : ι} {m : List (κ × ν)}

omit [DecidableEq ι] [Fintype ι] in
theorem Sound.initial : (Heap.initial : Heap ι κ ν).Sound fun _ => [] :=
  ⟨fun _ => .empty, fun _ => Nat.one_pos, Nat.one_pos, rfl⟩

omit [Fintype ι] in
theorem Sound.allocate (hsound : h.Sound M) (x : ι) {b : Buffer κ ν} (hb : b.Represents m) :
    (h.allocate x b).Sound (Function.update M x m) ∧ ∀ y, y ≠ x → (h.allocate x b).buffer y = h.buffer y := by
  have hself : (h.allocate x b).buffer x = b := by
    unfold buffer Heap.allocate
    simp only [Function.update_self]
  have hother : ∀ y, y ≠ x → (h.allocate x b).buffer y = h.buffer y := by
    intro y hy
    unfold buffer Heap.allocate
    simp only [Function.update_of_ne hy]
    rw [Function.update_of_ne (Nat.ne_of_lt (hsound.refs_lt y))]
  refine ⟨⟨fun y => ?_, fun y => ?_, Nat.succ_pos _, ?_⟩, hother⟩
  · by_cases hy : y = x
    · subst hy
      rw [hself, Function.update_self]
      exact hb
    · rw [hother y hy, Function.update_of_ne hy]
      exact hsound.represents y
  · have hlt := hsound.refs_lt y
    unfold Heap.allocate
    by_cases hy : y = x
    · subst hy
      simp only [Function.update_self]
      omega
    · simp only [Function.update_of_ne hy]
      omega
  · have hpos := hsound.allocated_pos
    unfold Heap.allocate
    simp only [Function.update_of_ne (Nat.ne_of_lt hpos)]
    exact hsound.singleton

theorem Sound.store (hsound : h.Sound M) {s : Variant κ ν} (hs : s.asNative.Represents m)
    (hisolated : Isolated (h.variant x) s) :
    (h.store x s).Sound (Function.update M x m) ∧ ∀ y, y ≠ x → (h.store x s).buffer y = h.buffer y := by
  unfold Heap.store
  split_ifs with hre
  · exact hsound.allocate x hs
  · obtain ⟨-, -, hsame⟩ := hisolated (Bool.eq_false_iff.2 hre)
    cases hunique : h.isUniquelyReferenced x with
    | false =>
      -- storage that is shared is the same
      have heq := hsame hunique
      have hstore : Function.update h.storage (h.refs x) s.asNative = h.storage := by
        rw [heq]
        exact Function.update_eq_self (h.refs x) h.storage
      rw [hstore]
      refine ⟨⟨fun y => ?_, hsound.refs_lt, hsound.allocated_pos, hsound.singleton⟩, fun _ _ => rfl⟩
      by_cases hy : y = x
      · subst hy
        rw [Function.update_self]
        rw [heq] at hs
        exact hs
      · rw [Function.update_of_ne hy]
        exact hsound.represents y
    | true =>
      obtain ⟨hne, halone⟩ := of_decide_eq_true hunique
      have hother : ∀ y, y ≠ x → ({ h with storage := Function.update h.storage (h.refs x) s.asNative } :
          Heap ι κ ν).buffer y = h.buffer y := fun y hy => Function.update_of_ne (halone y hy) _ _
      refine ⟨⟨fun y => ?_, hsound.refs_lt, hsound.allocated_pos, ?_⟩, hother⟩
      · by_cases hy : y = x
        · subst hy
          rw [Function.update_self]
          show (Function.update h.storage (h.refs y) s.asNative (h.refs y)).Represents m
          rw [Function.update_self]
          exact hs
        · rw [hother y hy, Function.update_of_ne hy]
          exact hsound.represents y
      · exact (Function.update_of_ne (Ne.symm hne) _ _).trans hsound.singleton

omit [Fintype ι] [BEq κ] [Hashable κ] in
theorem buffer_store (h : Heap ι κ ν) (x : ι) (s : Variant κ ν) : (h.store x s).buffer x = s.asNative := by
  unfold Heap.store
  split_ifs
  · show Function.update h.storage h.allocated s.asNative (Function.update h.refs x h.allocated x) = _
    rw [Function.update_self, Function.update_self]
  · exact Function.update_self _ _ _

omit [BEq κ] [Hashable κ] in
theorem store_variant (h : Heap ι κ ν) (x : ι) : h.store x (h.variant x) = h := by
  unfold Heap.store variant buffer
  rw [if_neg Bool.false_ne_true, Function.update_eq_self]

omit [Fintype ι] [BEq κ] [Hashable κ] in
theorem allocated_store (h : Heap ι κ ν) (x : ι) (s : Variant κ ν) :
    (h.store x s).allocated = if s.reallocated = true then h.allocated + 1 else h.allocated := by
  unfold Heap.store
  split_ifs <;> rfl

theorem Sound.unique_store (hsound : h.Sound M) {s : Variant κ ν} (hisolated : Isolated (h.variant x) s)
    (hu : s.isUniquelyReferenced = true) : (h.store x s).isUniquelyReferenced x = true := by
  unfold Heap.store
  split_ifs with hre
  · refine decide_eq_true ?_
    unfold Heap.allocate
    simp only [Function.update_self]
    refine ⟨Nat.ne_of_gt hsound.allocated_pos, fun y hy => ?_⟩
    rw [Function.update_of_ne hy]
    exact Nat.ne_of_lt (hsound.refs_lt y)
  · exact (hisolated (Bool.eq_false_iff.2 hre)).2.1.symm.trans hu

omit [BEq κ] [Hashable κ] in
theorem wp_mutate {op : Prog (Variant κ ν) (Stop ε) α} {Q : α → Heap ι κ ν → Prop}
    {E : Stop ε → Heap ι κ ν → Prop} (hop : wp op (fun a s => Q a (h.store x s)) (fun e s => E e (h.store x s))
      (h.variant x)) : wp (mutate x op) Q E h := by
  unfold wp at hop ⊢
  unfold mutate
  rcases hrun : op (h.variant x) with ⟨_ | _, s⟩ <;> rw [hrun] at hop <;> exact hop

end Heap

/-- The value that an operation changes. -/
def Operation.target : Operation ι κ ν ε → ι
  | .insert x _ _ | .updateValue x _ _ | .subscriptDefault x _ _ _ | .removeValue x _ | .removeAt x _
  | .removeAll x _ | .reserveCapacity x _ | .merge x _ _ | .literal x _ | .setLiteral x _ | .minimumCapacity x _
  | .assign x _ => x

variable [EquivBEq κ] [LawfulHashable κ] {h h' : Heap ι κ ν} {M M' : ι → List (κ × ν)}

/-- What a step leaves: the finite maps after the operation, and the other values' buffers. -/
structure Heap.Steps (h : Heap ι κ ν) (x : ι) (M : ι → List (κ × ν)) (h' : Heap ι κ ν) : Prop where
  sound : h'.Sound M
  frame : ∀ y, y ≠ x → h'.buffer y = h.buffer y

omit [EquivBEq κ] [LawfulHashable κ] in
theorem Heap.Sound.steps_store (hsound : h.Sound M) {x : ι} {s : Variant κ ν} {m : List (κ × ν)}
    (hs : s.asNative.Represents m) (hisolated : Isolated (h.variant x) s) :
    h.Steps x (Function.update M x m) (h.store x s) :=
  ⟨(hsound.store hs hisolated).1, (hsound.store hs hisolated).2⟩

omit [EquivBEq κ] [LawfulHashable κ] [Fintype ι] in
theorem Heap.Sound.wp_create (hsound : h.Sound M) {x : ι} {m : List (κ × ν)}
    {buffer : Prog (Heap ι κ ν) (Stop ε) (Buffer κ ν)}
    (hbuffer : wp buffer (fun b h' => h' = h ∧ b.Represents m) (fun e _ => e = .noCapacity) h) :
    wp (Heap.create x buffer) (fun _ h' => h.Steps x (Function.update M x m) h') (fun e _ => e = .noCapacity) h := by
  unfold Heap.create
  rw [wp_bind]
  refine wp_mono hbuffer (fun b h' ⟨heq, hb⟩ => ?_) fun _ _ he => he
  subst heq
  exact ⟨(hsound.allocate x hb).1, (hsound.allocate x hb).2⟩

omit [EquivBEq κ] [LawfulHashable κ] [Fintype ι] in
theorem Heap.Sound.steps_refs (hsound : h.Sound M) (x : ι) {i : Nat} {m : List (κ × ν)}
    (hi : i < h.allocated) (hm : (h.storage i).Represents m) :
    h.Steps x (Function.update M x m) { h with refs := Function.update h.refs x i } := by
  refine ⟨⟨fun y => ?_, fun y => ?_, hsound.allocated_pos, hsound.singleton⟩, fun y hy => ?_⟩
  · unfold buffer
    by_cases hy : y = x
    · subst hy
      simp only [Function.update_self]
      exact hm
    · simp only [Function.update_of_ne hy]
      exact hsound.represents y
  · by_cases hy : y = x
    · subst hy
      simp only [Function.update_self]
      exact hi
    · simp only [Function.update_of_ne hy]
      exact hsound.refs_lt y
  · unfold buffer
    simp only [Function.update_of_ne hy]

/-- One operation does on the tables what it does on the finite maps. -/
theorem Operation.wp_perform (op : Operation ι κ ν ε) (hsound : h.Sound M) (hvalid : op.Valid h)
    (hole : op.LeavesHole h) :
    wp op.perform (fun _ h' => h.Steps op.target (op.onMaps (fun x => (h.buffer x).entries) M) h')
      (fun e _ => e = .noCapacity) h := by
  have hempty : (h.storage 0).Represents [] := by
    rw [hsound.singleton]
    exact .empty
  cases op with
  | insert x key value =>
    refine (wp_bind _ _).2 (Heap.wp_mutate ?_)
    refine wp_nativeInsert (hsound.represents x) (fun _ _ => rfl) (fun e hget => ?_) fun j s' hget h' hinserted => ?_
    · have hsteps := hsound.steps_store (x := x) (s := h.variant x) (hsound.represents x) (.refl _)
      rw [← (insertNew_of_get_some hget : insertNew _ key value = _)] at hsteps
      exact hsteps
    · rw [← insertNew_of_get hget] at h'
      exact hsound.steps_store h' hinserted.isolated
  | updateValue x key value =>
    refine (wp_bind _ _).2 (Heap.wp_mutate ?_)
    refine wp_nativeUpdateValue (hsound.represents x) (fun _ => rfl) (fun e s' _ h' hisolated => ?_)
      fun j s' hget h' hinserted => ?_
    · exact hsound.steps_store h' hisolated
    · rw [← put_of_get hget] at h'
      exact hsound.steps_store h' hinserted.isolated
  | subscriptDefault x key defaultValue f =>
    refine Heap.wp_mutate (wp_subscriptDefault (hsound.represents x) (fun _ => rfl) fun s' h' hisolated => ?_)
    exact hsound.steps_store h' hisolated
  | removeValue x key =>
    refine (wp_bind _ _).2 (Heap.wp_mutate ?_)
    refine wp_nativeRemoveObject (hsound.represents x) fun s' h' hisolated => ?_
    exact hsound.steps_store h' hisolated
  | removeAt x index =>
    obtain ⟨e, he⟩ := Option.isSome_iff_exists.1 hvalid.2
    refine (wp_bind _ _).2 (Heap.wp_mutate ?_)
    refine wp_nativeRemove (hsound.represents x) hvalid.1 he fun s' h' hisolated => ?_
    have hsteps := hsound.steps_store h' hisolated
    rw [wp_pure]
    unfold Operation.onMaps
    simp only [he]
    exact hsteps
  | removeAll x keepingCapacity =>
    refine Heap.wp_mutate (wp_removeAll (hsound.represents x) fun s' h' hisolated => ?_)
    exact hsound.steps_store h' hisolated
  | reserveCapacity x capacity =>
    refine Heap.wp_mutate (wp_reserveCapacity (hsound.represents x) hole (fun _ => rfl) fun r s' h' hensured => ?_)
    have hsteps := hsound.steps_store h' hensured.isolated
    rw [Function.update_eq_self] at hsteps
    exact hsteps
  | merge x keysAndValues combine =>
    refine (wp_tryCatch _ _).2 (Heap.wp_mutate ?_)
    refine wp_nativeMerge (hsound.represents x) (fun _ => rfl) (fun e s' _ h' hisolated => ?_)
      fun s' _ h' hisolated => ?_
    · exact hsound.steps_store h' hisolated
    · exact hsound.steps_store h' hisolated
  | literal x elements =>
    refine (wp_ite _ _ _).2 ⟨fun hnil => ?_, fun _ => ?_⟩
    · obtain rfl := List.isEmpty_iff.1 hnil
      exact hsound.steps_refs x hsound.allocated_pos hempty
    · exact hsound.wp_create (wp_fromArray hvalid rfl fun b hb => ⟨rfl, hb⟩)
  | setLiteral x elements =>
    refine (wp_ite _ _ _).2 ⟨fun hnil => ?_, fun _ => ?_⟩
    · obtain rfl := List.isEmpty_iff.1 hnil
      exact hsound.steps_refs x hsound.allocated_pos hempty
    · exact hsound.wp_create (wp_setFromArray rfl fun b hb => ⟨rfl, hb⟩)
  | minimumCapacity x capacity =>
    refine hsound.wp_create (wp_withMinimumCapacity (fun _ => rfl) fun c _ ⟨k, _, h62, hk⟩ _ => ⟨rfl, ?_⟩)
    exact .ofCapacity ⟨k, h62, hk⟩
  | assign x y => exact hsound.steps_refs x (hsound.refs_lt y) (hsound.represents y)

/-! ## Runs -/

theorem Reaches.sound {allowed : Heap ι κ ν → Operation ι κ ν ε → Prop}
    (hallowed : ∀ h (op : Operation ι κ ν ε), allowed h op → op.LeavesHole h) (hrun : Reaches ε allowed h M) :
    h.Sound M := by
  induction hrun with
  | initial => exact .initial
  | step op run valid holds performs ih =>
    have hstep := op.wp_perform ih valid (hallowed _ op holds)
    unfold wp at hstep
    rw [performs] at hstep
    exact hstep.sound

omit [EquivBEq κ] [LawfulHashable κ] in
/-- The values are tables of the finite maps, what is read of them is read of the maps, and the next operation
ends and changes no other value. -/
structure Heap.Agrees (allowed : Heap ι κ ν → Operation ι κ ν ε → Prop) (h : Heap ι κ ν) (M : ι → List (κ × ν)) :
    Prop where
  invariants : ∀ x, (h.buffer x).Invariants
  find : ∀ x key, ((h.buffer x).find key ((h.buffer x).bucket key)).isSome = true
  maybeGet : ∀ x key, (h.buffer x).maybeGet key = some (get (M x) key)
  indexForKey : ∀ x key, ∃ r, (h.buffer x).indexForKey key = some r ∧ r.isSome = (get (M x) key).isSome ∧
    ∀ i, r = some i → i < (h.buffer x).capacity ∧ (h.buffer x).entries i = get (M x) key
  count : ∀ x, (h.buffer x).count = (M x).length
  iterated : ∀ x, (h.buffer x).iterated.Perm (M x)
  performs : ∀ op : Operation ι κ ν ε, op.Valid h → allowed h op →
    ∃ r h', op.perform h = (r, h') ∧ (r = .ok () ∧ (∀ y, y ≠ op.target → h'.buffer y = h.buffer y) ∨
      r = .error .noCapacity)

/-- While no reservation fills the buffer that it copies to, the tables are those of finite maps. -/
theorem Reaches.agrees (hrun : Reaches ε (fun h op => op.LeavesHole h) h M) :
    h.Agrees (fun h (op : Operation ι κ ν ε) => op.LeavesHole h) M := by
  have hsound := hrun.sound fun _ _ hole => hole
  refine ⟨fun x => (hsound.represents x).toInvariants, fun x key => ?_, fun x key => (hsound.represents x).maybeGet key,
    fun x key => (hsound.represents x).indexForKey key, fun x => (hsound.represents x).count_eq, fun x => ?_,
    fun op hvalid hole => ?_⟩
  · obtain ⟨r, hr, -⟩ := (hsound.represents x).find key
    rw [hr]
    rfl
  · rw [Buffer.iterated_eq]
    exact (hsound.represents x).perm
  · have hstep := op.wp_perform hsound hvalid hole
    unfold wp at hstep
    rcases hrun : op.perform h with ⟨e | u, h'⟩ <;> rw [hrun] at hstep
    · exact ⟨_, h', rfl, .inr (by rw [hstep])⟩
    · exact ⟨_, h', rfl, .inl ⟨rfl, hstep.frame⟩⟩

/-! ### A reservation that fills its buffer -/

def twoEntries : Heap Bool Nat Nat :=
  ((Operation.literal false [(0, 0), (1, 1)] : Operation Bool Nat Nat Unit).perform .initial).2

def twoCopies : Heap Bool Nat Nat :=
  ((Operation.assign true false : Operation Bool Nat Nat Unit).perform twoEntries).2

theorem reaches_twoCopies (allowed : Heap Bool Nat Nat → Operation Bool Nat Nat Unit → Prop)
    (hliteral : ∀ h x elements, allowed h (.literal x elements)) (hassign : ∀ h x y, allowed h (.assign x y)) :
    ∃ M, Reaches Unit allowed twoCopies M := by
  have hperforms : (Operation.literal false [(0, 0), (1, 1)] : Operation Bool Nat Nat Unit).perform .initial =
    (.ok (), twoEntries) := Prod.ext rfl rfl
  have hdistinct : Distinct [((0 : Nat), (0 : Nat)), (1, 1)] := by
    unfold Distinct
    decide
  have hfirst := Reaches.step (.literal false [(0, 0), (1, 1)]) .initial hdistinct (hliteral _ _ _) hperforms
  have hperforms' : (Operation.assign true false : Operation Bool Nat Nat Unit).perform twoEntries =
    (.ok (), twoCopies) := Prod.ext rfl rfl
  exact ⟨_, hfirst.step (.assign true false) trivial (hassign _ _ _) hperforms'⟩

def reserved (capacity : Int) : Heap Bool Nat Nat :=
  ((Operation.reserveCapacity true capacity : Operation Bool Nat Nat Unit).perform twoCopies).2

theorem reaches_reserved_two :
    ∃ M, Reaches Unit (fun h (op : Operation Bool Nat Nat Unit) => op.LeavesHole h) (reserved 2) M := by
  obtain ⟨M, hrun⟩ := reaches_twoCopies (fun h op => op.LeavesHole h) (fun _ _ _ => trivial)
    fun _ _ _ => trivial
  have hfour : Buffer.doubled (Buffer.minimumCapacity 2) = some 4 := by decide
  have hole : (Operation.reserveCapacity true 2 : Operation Bool Nat Nat Unit).LeavesHole twoCopies := by
    refine .inr fun c hc => ?_
    rw [hfour, Option.some.injEq] at hc
    subst hc
    decide
  have hperforms : (Operation.reserveCapacity true 2 : Operation Bool Nat Nat Unit).perform twoCopies =
    (.ok (), reserved 2) := Prod.ext rfl rfl
  exact ⟨_, hrun.step (.reserveCapacity true 2) trivial hole hperforms⟩

theorem agrees_reserved_two :
    ∃ M, (reserved 2).Agrees (fun h (op : Operation Bool Nat Nat Unit) => op.LeavesHole h) M := by
  obtain ⟨M, hrun⟩ := reaches_reserved_two
  exact ⟨M, hrun.agrees⟩

theorem reaches_reserved_zero : ∃ M, Reaches Unit (fun _ (_ : Operation Bool Nat Nat Unit) => True) (reserved 0) M := by
  obtain ⟨M, hrun⟩ := reaches_twoCopies (fun _ _ => True) (fun _ _ _ => trivial) fun _ _ _ => trivial
  have hperforms : (Operation.reserveCapacity true 0 : Operation Bool Nat Nat Unit).perform twoCopies =
    (.ok (), reserved 0) := Prod.ext rfl rfl
  exact ⟨_, hrun.step (.reserveCapacity true 0) trivial trivial hperforms⟩

/-- A search for a third key never ends. -/
theorem not_agrees_reserved_zero : ¬ ∀ (h : Heap Bool Nat Nat) (M : Bool → List (Nat × Nat)),
    Reaches Unit (fun _ _ => True) h M → h.Agrees (fun _ (_ : Operation Bool Nat Nat Unit) => True) M := by
  intro hclaim
  obtain ⟨M, hrun⟩ := reaches_reserved_zero
  have hfind := (hclaim _ M hrun).find true 2
  revert hfind
  decide

end SwiftKStdlib.HashedCollections
