import SwiftKStdlib.HashedCollections.Sharing

/-!
# What a program is told of its values

* `Heap.Merges` : a merge leaves the fold of the pairs before the one that throws;
* `Heap.IndexStays` : an index into a copy, after an insertion that does not exceed the load;
* `StoresWithoutReallocation` : insertions up to a capacity that was asked for.
-/

namespace SwiftKStdlib.HashedCollections
open Lib Lib.Probing Lib.AssocList Lib.Prog

variable {ι κ ν ε : Type} [DecidableEq ι] [Fintype ι] [BEq κ] [Hashable κ]

/-! ## Merging -/

/-- The merge ends with what the fold throws, leaves the finite map of the fold, and other values alone. -/
def Heap.Merges (h : Heap ι κ ν) (M : ι → List (κ × ν)) (x : ι) (keysAndValues : List (κ × ν))
    (combine : ν → ν → Except ε ν) : Prop :=
  ∃ r h', Heap.mutate x (nativeMerge combine keysAndValues) h = (r, h') ∧
    (r = (match (merged combine keysAndValues (M x)).2 with
        | none => .ok ()
        | some e => .error (.throws e)) ∧
      (h'.buffer x).Represents (merged combine keysAndValues (M x)).1 ∧ (∀ y, y ≠ x → h'.buffer y = h.buffer y) ∨
    r = .error .noCapacity)

variable [EquivBEq κ] [LawfulHashable κ] {h : Heap ι κ ν} {M : ι → List (κ × ν)}

theorem Reaches.merges (hrun : Reaches ε (fun h op => op.LeavesHole h) h M) (x : ι) (keysAndValues : List (κ × ν))
    (combine : ν → ν → Except ε ν) : h.Merges M x keysAndValues combine := by
  have hsound := hrun.sound fun _ _ hole => hole
  have hmerge : wp (Heap.mutate x (nativeMerge combine keysAndValues))
      (fun _ h' => (merged combine keysAndValues (M x)).2 = none ∧
        h.Steps x (Function.update M x (merged combine keysAndValues (M x)).1) h')
      (fun e h' => e = .noCapacity ∨ ∃ err, e = .throws err ∧ (merged combine keysAndValues (M x)).2 = some err ∧
        h.Steps x (Function.update M x (merged combine keysAndValues (M x)).1) h') h := by
    refine Heap.wp_mutate (wp_nativeMerge (hsound.represents x) (fun _ => .inl rfl)
      (fun e s' herr h' hisolated => ?_) fun s' hnone h' hisolated => ?_)
    · exact .inr ⟨e, rfl, herr, hsound.steps_store h' hisolated⟩
    · exact ⟨hnone, hsound.steps_store h' hisolated⟩
  have hbuffer : ∀ h', h.Steps x (Function.update M x (merged combine keysAndValues (M x)).1) h' →
      (h'.buffer x).Represents (merged combine keysAndValues (M x)).1 := by
    intro h' hsteps
    have hx := hsteps.sound.represents x
    rwa [Function.update_self] at hx
  unfold wp at hmerge
  rcases hresult : Heap.mutate x (nativeMerge combine keysAndValues) h with ⟨e | u, h'⟩ <;> rw [hresult] at hmerge
  · refine ⟨_, h', hresult, ?_⟩
    rcases hmerge with rfl | ⟨err, rfl, herr, hsteps⟩
    · exact .inr rfl
    · refine .inl ⟨?_, hbuffer h' hsteps, hsteps.frame⟩
      rw [herr]
  · refine ⟨_, h', hresult, .inl ⟨?_, hbuffer h' hmerge.2, hmerge.2.frame⟩⟩
    rw [hmerge.1]

/-- A merge that throws at its second pair. -/
theorem merges_reserved_two : ∃ M, (reserved 2).Merges M true [(2, 2), (0, 5), (3, 3)]
    fun _ _ => (.error () : Except Unit Nat) := by
  obtain ⟨M, hrun⟩ := reaches_reserved_two
  exact ⟨M, hrun.merges true [(2, 2), (0, 5), (3, 3)] fun _ _ => .error ()⟩

/-- Where both buckets are filled, the search for a third key never ends. -/
theorem not_merges_reserved_zero : ¬ ∀ (h : Heap Bool Nat Nat) (M : Bool → List (Nat × Nat)),
    Reaches Unit (fun _ _ => True) h M → ∀ x keysAndValues (combine : Nat → Nat → Except Unit Nat),
      h.Merges M x keysAndValues combine := by
  intro hclaim
  obtain ⟨M, hrun⟩ := reaches_reserved_zero
  obtain ⟨r, h', hresult, hr⟩ := hclaim _ M hrun true [(2, 2)] fun _ v => .ok v
  have hnever : (Heap.mutate true (nativeMerge (fun _ v => (.ok v : Except Unit Nat)) [(2, 2)]) (reserved 0)).1 =
    .error .neverEnds := rfl
  rw [hresult] at hnever
  subst hnever
  rcases hr with ⟨heq, -⟩ | heq
  · revert heq
    split <;> simp
  · simp at heq

/-! ## Indices -/

omit [EquivBEq κ] [LawfulHashable κ] in
/-- After `y = x` and an insertion into `y`, the index accesses the same entry of `y`. -/
def Heap.IndexStays (ε : Type) (h : Heap ι κ ν) (x y : ι) (i : Nat) (key' : κ) (value' : ν) : Prop :=
  ∃ h₁ h₂, (Operation.assign y x : Operation ι κ ν ε).perform h = (.ok (), h₁) ∧
    (Operation.updateValue y key' value' : Operation ι κ ν ε).perform h₁ = (.ok (), h₂) ∧
    i < (h₂.buffer y).capacity ∧ (h₂.buffer y).entries i = (h.buffer x).entries i

/-- The copy has the same buckets if the capacity for one more entry is the capacity that there is. -/
theorem Reaches.indexStays (hrun : Reaches ε (fun h op => op.LeavesHole h) h M) {x y : ι} (hne : y ≠ x)
    (key : κ) {key' : κ} {i : Nat} (value' : ν) (hindex : (h.buffer x).indexForKey key = some (some i))
    (habsent : (h.buffer x).indexForKey key' = some none)
    (hload : 2 * ((h.buffer x).count + 1) ≤ (h.buffer x).capacity)
    (hsame : Buffer.doubled (Buffer.minimumCapacity ((h.buffer x).count + 1)) = some (h.buffer x).capacity) :
    h.IndexStays ε x y i key' value' := by
  have hsound := hrun.sound fun _ _ hole => hole
  have hx := hsound.represents x
  obtain ⟨r, hr, hsome, hentry⟩ := hx.indexForKey key
  rw [hindex, Option.some.injEq] at hr
  subst hr
  obtain ⟨hi, hget⟩ := hentry i rfl
  obtain ⟨e, he⟩ := Option.isSome_iff_exists.1 hsome.symm
  rw [he] at hget
  obtain ⟨r, hr, hnone, -⟩ := hx.indexForKey key'
  rw [habsent, Option.some.injEq] at hr
  rw [← hr, Option.isSome_none, eq_comm, Option.isSome_eq_false_iff, Option.isNone_iff_eq_none] at hnone
  have hfits : Buffer.minimumCapacity ((h.buffer x).count + 1) ≤ 2 ^ 62 := by
    obtain ⟨k, h62, hk⟩ := hx.capacity
    have hle : (h.buffer x).capacity ≤ 2 ^ 62 := by
      rw [hk]
      exact Nat.pow_le_pow_right (by omega) h62
    unfold Buffer.minimumCapacity
    omega
  have hassign := (hsound.steps_refs y (hsound.refs_lt x) hx).sound.represents y
  obtain ⟨h₁, hh₁⟩ : ∃ h₁ : Heap ι κ ν, h₁ = { h with refs := Function.update h.refs y (h.refs x) } := ⟨_, rfl⟩
  have hbuffer : h₁.buffer y = h.buffer x := by
    rw [hh₁]
    unfold Heap.buffer
    simp only [Function.update_self]
  rw [← hh₁, Function.update_self] at hassign
  rw [← hbuffer] at hsame hfits hi hget
  have hupdate : wp (Operation.updateValue y key' value' : Operation ι κ ν ε).perform
      (fun _ h₂ => i < (h₂.buffer y).capacity ∧ (h₂.buffer y).entries i = (h.buffer x).entries i)
      (fun _ _ => False) h₁ := by
    refine (wp_bind _ _).2 (Heap.wp_mutate ?_)
    refine wp_nativeUpdateValue hassign (fun hbig => absurd hfits hbig) (fun e s' hsome _ _ => ?_)
      fun j s' _ h' hinserted => ?_
    · rw [hnone] at hsome
      exact absurd hsome.symm (Option.some_ne_none e)
    · obtain ⟨hcapacity, hstays⟩ := hinserted.stays fun c hc => (Option.some.inj (hsame.symm.trans hc)).symm
      rw [wp_pure, Heap.buffer_store, ← hbuffer]
      refine ⟨by rw [hcapacity]; exact hi, ?_⟩
      rw [hget]
      exact hstays i hi e hget
  obtain ⟨_, h₂, hperforms, hstays⟩ := wp_returns hupdate
  exact ⟨h₁, h₂, by rw [hh₁]; rfl, hperforms, hstays⟩

def threeEntries : Heap Bool Nat Nat :=
  ((Operation.literal false [(0, 0), (1, 1), (2, 2)] : Operation Bool Nat Nat Unit).perform .initial).2

theorem indexStays_threeEntries : threeEntries.IndexStays Unit false true 5 3 3 := by
  have hdistinct : Distinct [((0 : Nat), (0 : Nat)), (1, 1), (2, 2)] := by
    unfold Distinct
    decide
  have hperforms : (Operation.literal false [(0, 0), (1, 1), (2, 2)] : Operation Bool Nat Nat Unit).perform .initial =
    (.ok (), threeEntries) := Prod.ext rfl rfl
  have hrun : Reaches Unit (fun h op => op.LeavesHole h) threeEntries _ :=
    .step (.literal false [(0, 0), (1, 1), (2, 2)]) .initial hdistinct trivial hperforms
  exact hrun.indexStays (by decide) 0 3 (by decide) (by decide) (by decide) (by decide)

def oneOfEight : Heap Bool Nat Nat :=
  ((Operation.updateValue false 0 0 : Operation Bool Nat Nat Unit).perform
    ((Operation.minimumCapacity false 8 : Operation Bool Nat Nat Unit).perform .initial).2).2

/-- The entry is in bucket 5, and the copy has four buckets. -/
theorem not_indexStays_oneOfEight : ¬ ∀ (h : Heap Bool Nat Nat) (M : Bool → List (Nat × Nat)),
    Reaches Unit (fun _ _ => True) h M → ∀ (x y : Bool) (key key' value' i : Nat), y ≠ x →
      (h.buffer x).indexForKey key = some (some i) → (h.buffer x).indexForKey key' = some none →
      2 * ((h.buffer x).count + 1) ≤ (h.buffer x).capacity → h.IndexStays Unit x y i key' value' := by
  intro hclaim
  have hperforms : (Operation.minimumCapacity false 8 : Operation Bool Nat Nat Unit).perform .initial =
    (.ok (), ((Operation.minimumCapacity false 8 : Operation Bool Nat Nat Unit).perform .initial).2) := Prod.ext rfl rfl
  have hperforms' : (Operation.updateValue false 0 0 : Operation Bool Nat Nat Unit).perform
    ((Operation.minimumCapacity false 8 : Operation Bool Nat Nat Unit).perform .initial).2 = (.ok (), oneOfEight) :=
    Prod.ext rfl rfl
  have hfirst : Reaches Unit (fun _ (_ : Operation Bool Nat Nat Unit) => True) _ _ :=
    .step (.minimumCapacity false 8) .initial trivial trivial hperforms
  have hrun := hfirst.step (.updateValue false 0 0) trivial trivial hperforms'
  obtain ⟨h₁, h₂, hassign, hupdate, hlt, -⟩ := hclaim _ _ hrun false true 0 1 1 5 (by decide) (by decide) (by decide)
    (by decide)
  have hcapacity : (((Operation.updateValue true 1 1 : Operation Bool Nat Nat Unit).perform
      ((Operation.assign true false : Operation Bool Nat Nat Unit).perform oneOfEight).2).2.buffer true).capacity = 4 := by
    decide
  rw [hassign] at hcapacity
  change (((Operation.updateValue true 1 1 : Operation Bool Nat Nat Unit).perform h₁).2.buffer true).capacity = 4
    at hcapacity
  rw [hupdate] at hcapacity
  change (h₂.buffer true).capacity = 4 at hcapacity
  omega

/-! ## Capacities -/

section Capacity

variable {h h' : Heap ι κ Unit} {M : ι → List (κ × Unit)} {x : ι} {n : Nat}

/-- Members are inserted one by one. -/
def insertAll (x : ι) : List κ → Prog (Heap ι κ Unit) (Stop ε) Unit
  | [] => return ()
  | key :: keys => do
    (Operation.insert x key ()).perform
    insertAll x keys

def members (keys : List κ) : List (κ × Unit) := keys.map fun key => (key, ())

omit [DecidableEq ι] [Fintype ι] [Hashable κ] [EquivBEq κ] [LawfulHashable κ] in
theorem length_inserted (elements m : List (κ × ν)) : m.length ≤ (inserted elements m).length := by
  induction elements generalizing m with
  | nil => exact Nat.le_refl _
  | cons e elements ih => exact Nat.le_trans length_insertNew (ih _)

/-- The set can grow to `n` members without other storage. -/
structure Heap.Ready (h : Heap ι κ Unit) (M : ι → List (κ × Unit)) (x : ι) (n : Nat) : Prop where
  sound : h.Sound M
  unique : (M x).length < n → h.isUniquelyReferenced x = true
  large : (M x).length < n → Buffer.minimumCapacity n ≤ (h.buffer x).capacity

/-- Every member inserted up to `n` is stored in the same storage. -/
theorem Heap.Ready.insertAll (hready : h.Ready M x n) (keys : List κ)
    (hkeys : (inserted (members keys) (M x)).length ≤ n) :
    wp (insertAll x keys) (fun _ h' => h'.allocated = h.allocated)
      (fun (_ : Stop ε) _ => False) h := by
  induction keys generalizing h M with
  | nil => rfl
  | cons key keys ih =>
    unfold HashedCollections.insertAll
    rw [wp_bind]
    refine (wp_bind _ _).2 (Heap.wp_mutate ?_)
    have hx := hready.sound.represents x
    have hcons : inserted (members (key :: keys)) (M x) = inserted (members keys) (insertNew (M x) key ()) := rfl
    rw [hcons] at hkeys
    have hfits : get (M x) key = none → Buffer.minimumCapacity ((h.buffer x).count + 1) ≤ (h.buffer x).capacity ∧
        h.isUniquelyReferenced x = true := by
      intro hget
      have hlen := length_inserted (members keys) (insertNew (M x) key ())
      rw [insertNew_of_get hget, List.length_cons, ← hx.count_eq] at hlen
      rw [insertNew_of_get hget] at hkeys
      have hlt : (M x).length < n := by
        rw [← hx.count_eq]
        omega
      have hlarge := hready.large hlt
      unfold Buffer.minimumCapacity at hlarge ⊢
      exact ⟨by omega, hready.unique hlt⟩
    refine wp_nativeInsert hx (fun hget hbig => ?_) (fun e hget => ?_) fun j s' hget h' hinserted => ?_
    · have hle := (hfits hget).1
      obtain ⟨k, h62, hk⟩ := hx.capacity
      have hcapacity : (h.buffer x).capacity ≤ 2 ^ 62 := by
        rw [hk]
        exact Nat.pow_le_pow_right (by omega) h62
      change ¬ Buffer.minimumCapacity ((h.buffer x).count + 1) ≤ 2 ^ 62 at hbig
      omega
    · rw [wp_pure, Heap.store_variant]
      rw [insertNew_of_get_some hget] at hkeys
      exact ih hready hkeys
    · rw [wp_pure]
      obtain ⟨hre, hcapacity⟩ := hinserted.kept (hfits hget)
      have hsound := hready.sound.store h' hinserted.isolated
      rw [insertNew_of_get hget, ← Function.update_self x ((key, ()) :: M x) M] at hkeys
      have hnext : (h.store x s').Ready (Function.update M x ((key, ()) :: M x)) x n := by
        refine ⟨hsound.1, fun _ => hready.sound.unique_store hinserted.isolated hinserted.unique, fun hlt => ?_⟩
        rw [Heap.buffer_store, hcapacity]
        rw [Function.update_self, List.length_cons] at hlt
        exact hready.large (by omega)
      refine wp_mono (ih hnext hkeys) (fun _ h'' heq => ?_) fun _ _ hfalse => hfalse
      rw [heq, Heap.allocated_store, hre]
      rfl

/-! ### The two ways to ask for a capacity -/

/-- `Set(minimumCapacity: n)` stores `n` members without other storage, and so does a set with reserved capacity. -/
def StoresWithoutReallocation (n : Nat) : Prop :=
  ∀ (ι κ : Type) [DecidableEq ι] [Fintype ι] [BEq κ] [Hashable κ] [EquivBEq κ] [LawfulHashable κ]
    (h : Heap ι κ Unit) (M : ι → List (κ × Unit)), Reaches Unit (fun h op => op.LeavesHole h) h M → ∀ x : ι,
    (∀ h₁, (Operation.minimumCapacity x n : Operation ι κ Unit Unit).perform h = (.ok (), h₁) →
      ∀ keys : List κ, (inserted (members keys) []).length ≤ n →
        ∃ h₂, insertAll x keys h₁ = ((.ok () : Except (Stop Unit) Unit), h₂) ∧ h₂.allocated = h₁.allocated) ∧
    (∀ h₁, (Operation.reserveCapacity x n : Operation ι κ Unit Unit).perform h = (.ok (), h₁) →
      ∀ keys : List κ, (inserted (members keys) (M x)).length ≤ n →
        ∃ h₂, insertAll x keys h₁ = ((.ok () : Except (Stop Unit) Unit), h₂) ∧ h₂.allocated = h₁.allocated)

theorem Heap.Sound.ready_reserveCapacity (hsound : h.Sound M) (hlen : (M x).length ≤ n)
    {E : Stop ε → Heap ι κ Unit → Prop} (hE : ∀ h', E .noCapacity h') :
    wp (Operation.reserveCapacity x n : Operation ι κ Unit ε).perform (fun _ h₁ => h₁.Ready M x n) E h := by
  have hx := hsound.represents x
  refine Heap.wp_mutate (wp_reserveCapacity hx (.inr fun c hc => ?_) (fun _ => hE _) fun r s' h' hensured => ?_)
  · have hle := Buffer.le_doubled hc
    have hcount : (h.variant x).asNative.count = (M x).length := hx.count_eq
    unfold Buffer.minimumCapacity at hle
    omega
  · have hstore := (hsound.store h' hensured.isolated).1
    rw [Function.update_eq_self] at hstore
    refine ⟨hstore, fun _ => hsound.unique_store hensured.isolated hensured.unique, fun _ => ?_⟩
    rw [Heap.buffer_store]
    exact hensured.large

omit [EquivBEq κ] [LawfulHashable κ] in
theorem Heap.Sound.wp_minimumCapacity (hsound : h.Sound M) {E : Stop ε → Heap ι κ Unit → Prop}
    (hE : ¬ (n : Int) ≤ 2 ^ 62 → E .noCapacity h) :
    wp (Operation.minimumCapacity x n : Operation ι κ Unit ε).perform (fun _ h₁ => h₁.Sound (Function.update M x []) ∧
      h₁.isUniquelyReferenced x = true ∧ Buffer.doubled n = some (h₁.buffer x).capacity) E h := by
  refine (wp_bind _ _).2 (wp_withMinimumCapacity hE fun c hc ⟨k, _, h62, hk⟩ _ => ?_)
  have hempty : (Buffer.ofCapacity c : Buffer κ Unit).Represents [] := .ofCapacity ⟨k, h62, hk⟩
  have hunique := hsound.unique_store (x := x) (.setStorage (Buffer.ofCapacity c)) rfl
  have hbuffer := Heap.buffer_store h x ⟨Buffer.ofCapacity c, true, true⟩
  refine ⟨(hsound.allocate x hempty).1, hunique, ?_⟩
  change (h.allocate x (Buffer.ofCapacity c)).buffer x = _ at hbuffer
  rw [hbuffer]
  exact hc

omit [EquivBEq κ] [LawfulHashable κ] in
theorem Heap.Sound.ready_minimumCapacity (hsound : h.Sound M) (hn : n ≤ 1) {E : Stop ε → Heap ι κ Unit → Prop} :
    wp (Operation.minimumCapacity x n : Operation ι κ Unit ε).perform
      (fun _ h₁ => h₁.Ready (Function.update M x []) x n) E h := by
  have hfits : (n : Int) ≤ 2 ^ 62 := by
    norm_num
    omega
  refine wp_mono (hsound.wp_minimumCapacity (E := fun _ _ => False) fun hbig => hbig hfits)
    (fun _ h₁ ⟨hsound', hunique, hdoubled⟩ => ⟨hsound', fun _ => hunique, fun _ => ?_⟩) fun _ _ hfalse => hfalse.elim
  obtain ⟨c, hc, k, h1, -, hk, -, -⟩ := Buffer.doubled_spec hfits
  rw [hc, Option.some.injEq] at hdoubled
  rw [← hdoubled, hk]
  have htwo : 2 ^ 1 ≤ 2 ^ k := Nat.pow_le_pow_right (by omega) h1
  unfold Buffer.minimumCapacity
  omega

theorem Heap.Sound.insertAll_large (hsound : h.Sound M)
    (hlarge : M x = [] ∨ Buffer.minimumCapacity (M x).length ≤ (h.buffer x).capacity) (keys : List κ) :
    wp (HashedCollections.insertAll x keys) (fun _ h' => h.allocated ≤ h'.allocated ∧
      (h'.allocated = h.allocated → (h'.buffer x).capacity = (h.buffer x).capacity) ∧
      (inserted (members keys) (M x) = [] ∨
        Buffer.minimumCapacity (inserted (members keys) (M x)).length ≤ (h'.buffer x).capacity))
      (fun (_ : Stop ε) _ => True) h := by
  induction keys generalizing h M with
  | nil => exact ⟨Nat.le_refl _, fun _ => rfl, hlarge⟩
  | cons key keys ih =>
    unfold HashedCollections.insertAll
    rw [wp_bind]
    refine (wp_bind _ _).2 (Heap.wp_mutate ?_)
    have hx := hsound.represents x
    have hcons : inserted (members (key :: keys)) (M x) = inserted (members keys) (insertNew (M x) key ()) := rfl
    rw [hcons]
    refine wp_nativeInsert hx (fun _ _ => trivial) (fun e hget => ?_) fun j s' hget h' hinserted => ?_
    · rw [wp_pure, Heap.store_variant, insertNew_of_get_some hget]
      exact ih hsound hlarge
    · rw [wp_pure, insertNew_of_get hget]
      have hstore := (hsound.store h' hinserted.isolated).1
      have hbuffer := Heap.buffer_store h x s'
      have hallocated := Heap.allocated_store h x s'
      have hcount : (h.variant x).asNative.count = (M x).length := hx.count_eq
      have hnext := ih hstore (by
        rw [Function.update_self, hbuffer, List.length_cons, ← hcount]
        exact .inr hinserted.large)
      rw [Function.update_self] at hnext
      refine wp_mono hnext (fun _ h'' ⟨hle, hsame, hlarge'⟩ => ⟨?_, fun heq => ?_, hlarge'⟩) fun _ _ h => h
      · rw [hallocated] at hle
        split_ifs at hle <;> omega
      · have hre : s'.reallocated = false := by
          apply Bool.eq_false_iff.2
          intro hre
          rw [hallocated, if_pos hre] at hle
          omega
        rw [hre, if_neg Bool.false_ne_true] at hallocated
        rw [hsame (heq.trans hallocated.symm), hbuffer]
        exact hinserted.still hre

omit [DecidableEq ι] [Fintype ι] [Hashable κ] [EquivBEq κ] [LawfulHashable κ] in
theorem mem_inserted {elements m : List (κ × ν)} {e : κ × ν} (he : e ∈ inserted elements m) :
    e ∈ elements ∨ e ∈ m := by
  induction elements generalizing m with
  | nil => exact .inr he
  | cons e' elements ih =>
    rcases ih he with h | h
    · exact .inl (List.mem_cons_of_mem _ h)
    · change e ∈ insertNew m e'.1 e'.2 at h
      unfold insertNew at h
      split_ifs at h
      · exact .inr h
      · rcases List.mem_cons.1 h with rfl | h
        · exact .inl List.mem_cons_self
        · exact .inr h

theorem length_inserted_range (n : Nat) : (inserted (members (List.range n)) []).length = n := by
  induction n with
  | zero => rfl
  | succ n ih =>
    have hsplit : inserted (members (List.range (n + 1))) [] = insertNew (inserted (members (List.range n)) []) n () := by
      unfold inserted members
      rw [List.range_succ, List.map_append, List.foldl_append]
      rfl
    have hnone : get (inserted (members (List.range n)) []) n = none := by
      refine get_eq_none.2 fun e he => ?_
      rcases mem_inserted he with h | h
      · obtain ⟨k, hk, rfl⟩ := List.mem_map.1 h
        exact beq_eq_false_iff_ne.2 (Nat.ne_of_lt (List.mem_range.1 hk))
      · exact absurd h List.not_mem_nil
    rw [hsplit, insertNew_of_get hnone, List.length_cons, ih]

/-- `Set(minimumCapacity: 2)`. -/
def twoBuckets : Heap Unit Nat Unit :=
  ((Operation.minimumCapacity () 2 : Operation Unit Nat Unit Unit).perform .initial).2

end Capacity

end SwiftKStdlib.HashedCollections
