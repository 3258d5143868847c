import SwiftKStdlib.HashedCollections.Tables

/-!
# The operations keep the tables

* `Buffer.Invariants`, `Buffer.Represents` : the buffer is a table of a finite map;
* `Isolated` : storage that others share is not written;
* `wp_ensureUniqueNativeBuffer`, `wp_insertAbsent` : the ways to another storage;
* `wp_nativeInsert`, `wp_nativeUpdateValue`, ... : every operation is the one on finite maps.
-/

namespace SwiftKStdlib.HashedCollections
open Lib Lib.Probing Lib.AssocList Lib.Prog

variable {κ ν ε σ α : Type}

/-! ## Rules for the basic steps -/

section Rules

variable {s : Variant κ ν} {b : Buffer κ ν} {E : Stop ε → Variant κ ν → Prop}

@[simp] theorem wp_get' {Q : Variant κ ν → Variant κ ν → Prop} :
    wp (Prog.get : Prog (Variant κ ν) (Stop ε) _) Q E s ↔ Q s s := Iff.rfl

@[simp] theorem wp_asNative {Q : Buffer κ ν → Variant κ ν → Prop} : wp asNative Q E s ↔ Q s.asNative s := Iff.rfl

@[simp] theorem wp_setNative {Q : Unit → Variant κ ν → Prop} :
    wp (setNative b) Q E s ↔ Q () { s with asNative := b } := Iff.rfl

@[simp] theorem wp_setStorage {Q : Unit → Variant κ ν → Prop} : wp (setStorage b) Q E s ↔ Q () ⟨b, true, true⟩ :=
  Iff.rfl

theorem wp_ends {x : Option α} {P : α → Prop} {Q : α → σ → Prop} {E : Stop ε → σ → Prop} {s : σ} (h : Returns x P)
    (hQ : ∀ a, P a → Q a s) : wp (ends x) Q E s := by
  obtain ⟨a, rfl, ha⟩ := h
  exact hQ a ha

theorem wp_initialized {x : Option α} {a : α} {Q : α → σ → Prop} {E : Stop ε → σ → Prop} {s : σ} (h : x = some a)
    (hQ : Q a s) : wp (initialized x) Q E s := by
  rw [h]
  exact hQ

theorem wp_withMinimumCapacity {m : Int} {Q : Buffer κ ν → σ → Prop} {E : Stop ε → σ → Prop} {s : σ}
    (hE : ¬ m ≤ 2 ^ 62 → E .noCapacity s)
    (hQ : ∀ c, Buffer.doubled m = some c → (∃ k, 1 ≤ k ∧ k ≤ 62 ∧ c = 2 ^ k) → m ≤ c → Q (.ofCapacity c) s) :
    wp (withMinimumCapacity m) Q E s := by
  unfold withMinimumCapacity
  rw [wp_ite]
  refine ⟨fun hm => ?_, hE⟩
  obtain ⟨c, hc, k, h1, h62, hk, hle, -⟩ := Buffer.doubled_spec hm
  rw [wp_bind, hc]
  exact hQ c hc ⟨k, h1, h62, hk⟩ hle

end Rules

variable [BEq κ] [Hashable κ]

/-! ## Invariants -/

namespace Buffer

structure Invariants (b : Buffer κ ν) : Prop extends b.Table where
  count : b.count = b.toList.length

structure Represents (b : Buffer κ ν) (m : List (κ × ν)) : Prop extends b.Invariants where
  perm : b.toList.Perm m

variable {b b' : Buffer κ ν} {m m' : List (κ × ν)}

theorem Invariants.represents (h : b.Invariants) : b.Represents b.toList := ⟨h, .refl _⟩

theorem Represents.count_eq (h : b.Represents m) : b.count = m.length := h.count.trans h.perm.length_eq

theorem Represents.count_lt (h : b.Represents m) : b.count < b.capacity := by
  rw [h.count]
  exact h.length_lt

theorem Represents.trans (h : b.Represents m) (hp : m.Perm m') : b.Represents m' := ⟨h.toInvariants, h.perm.trans hp⟩

theorem Table.represents (h : b.Table) (hcount : b.count = m.length) (hp : b.toList.Perm m) : b.Represents m :=
  ⟨⟨h, hcount.trans hp.length_eq.symm⟩, hp⟩

theorem Table.setCount (h : b.Table) (count : Nat) : (b.setCount count).Table := ⟨h.capacity, h.hole, h.distinct, h.probed⟩

theorem Represents.ofCapacity {c : Nat} (h : ∃ k ≤ 62, c = 2 ^ k) : (ofCapacity c : Buffer κ ν).Represents [] :=
  (Table.ofCapacity h).represents rfl (by rw [toList_ofCapacity])

theorem Represents.empty : (Buffer.empty : Buffer κ ν).Represents [] := .ofCapacity ⟨0, by omega, rfl⟩

variable [EquivBEq κ]

theorem Represents.distinct_map (h : b.Represents m) : Distinct m := h.distinct.perm h.perm

theorem Represents.position (h : b.Represents m) {key : κ} {i : Nat} {found : Bool}
    (hpos : b.Position key (i, found)) : (if found then b.entries i else none) = get m key := by
  cases hpos with
  | found lt entry beq =>
    rw [if_pos rfl, entry, ← h.distinct.get_perm h.perm]
    exact (h.distinct.get_eq_some.2 ⟨mem_toList.2 ⟨i, lt, entry⟩, beq⟩).symm
  | absent lt hole first absent =>
    rw [if_neg Bool.false_ne_true, ← h.distinct.get_perm h.perm]
    exact (get_eq_none.2 absent).symm

end Buffer

/-! ## Sharing -/

section Sharing

variable {s s' s'' : Variant κ ν}

omit [BEq κ] [Hashable κ] in
/-- Unless there is another storage, it is the old one; and it is not written when others share it. -/
def Isolated (s s' : Variant κ ν) : Prop :=
  s'.reallocated = false → s.reallocated = false ∧ s'.isUniquelyReferenced = s.isUniquelyReferenced ∧
    (s.isUniquelyReferenced = false → s'.asNative = s.asNative)

omit [BEq κ] [Hashable κ]

theorem Isolated.refl (s : Variant κ ν) : Isolated s s := fun h => ⟨h, rfl, fun _ => rfl⟩

theorem Isolated.trans (h : Isolated s s') (h' : Isolated s' s'') : Isolated s s'' := by
  intro hre
  obtain ⟨hre', hu', heq'⟩ := h' hre
  obtain ⟨hre'', hu, heq⟩ := h hre'
  exact ⟨hre'', hu'.trans hu, fun hs => (heq' (hu.trans hs)).trans (heq hs)⟩

theorem Isolated.setStorage (b : Buffer κ ν) : Isolated s ⟨b, true, true⟩ := fun h => Bool.noConfusion h

theorem Isolated.setNative (h : Isolated s s') (hu : s'.isUniquelyReferenced = true) (b : Buffer κ ν) :
    Isolated s { s' with asNative := b } := by
  intro hre
  obtain ⟨hre', hu', -⟩ := h hre
  refine ⟨hre', hu', fun hs => ?_⟩
  rw [hs, hu] at hu'
  exact Bool.noConfusion hu'

end Sharing

/-! ## Another storage -/

section Ensure

variable [EquivBEq κ] [LawfulHashable κ] {s s' : Variant κ ν} {m : List (κ × ν)} {minimumCapacity : Int}
  {E : Stop ε → Variant κ ν → Prop}

/-- What `ensureUniqueNativeBuffer` leaves, besides the finite map. -/
structure Ensured (minimumCapacity : Int) (s : Variant κ ν) (r : Bool × Bool) (s' : Variant κ ν) : Prop where
  isolated : Isolated s s'
  unique : s'.isUniquelyReferenced = true
  large : minimumCapacity ≤ s'.asNative.capacity
  /-- Where the capacity is the same, so are the buckets. -/
  unchanged : r.2 = false → s'.asNative.capacity = s.asNative.capacity ∧
    ∀ i < s.asNative.capacity, s'.asNative.entries i = s.asNative.entries i
  changed : r.2 = true → Buffer.doubled minimumCapacity = some s'.asNative.capacity ∧
    s'.asNative.capacity ≠ s.asNative.capacity
  /-- Where there is room in storage of its own, nothing happens. -/
  kept : minimumCapacity ≤ s.asNative.capacity ∧ s.isUniquelyReferenced = true → s' = s
  grown : s' = s ∨ s'.reallocated = true

theorem wp_ensureUniqueNativeBuffer {Q : Bool × Bool → Variant κ ν → Prop} (h : s.asNative.Represents m)
    (hroom : s.isUniquelyReferenced = true ∧ minimumCapacity ≤ s.asNative.capacity ∨
      ∀ c, Buffer.doubled minimumCapacity = some c → m.length < c)
    (hE : ¬ minimumCapacity ≤ 2 ^ 62 → E .noCapacity s)
    (hQ : ∀ r s', s'.asNative.Represents m → Ensured minimumCapacity s r s' → Q r s') :
    wp (ensureUniqueNativeBuffer minimumCapacity) Q E s := by
  unfold ensureUniqueNativeBuffer
  rw [wp_bind, wp_get', wp_ite]
  refine ⟨fun ⟨hle, hu⟩ => ?_, fun hnot => ?_⟩
  · refine hQ _ s h ⟨.refl s, hu, hle, fun _ => ⟨rfl, fun _ _ => rfl⟩, fun h => Bool.noConfusion h, fun _ => rfl, .inl rfl⟩
  · rw [wp_bind]
    refine wp_withMinimumCapacity hE fun c hc ⟨k, h1, h62, hk⟩ hle => ?_
    have hlen : s.asNative.toList.length < c := by
      rw [h.perm.length_eq]
      rcases hroom with hroom | hroom
      · exact absurd ⟨hroom.2, hroom.1⟩ hnot
      · exact hroom c hc
    rw [wp_bind]
    refine wp_ends (h.copyEntries ⟨k, h62, hk⟩ hlen) fun b ⟨htable, hcap, hperm, hsame⟩ => ?_
    rw [wp_bind, wp_setStorage]
    refine hQ _ _ ((htable.setCount _).represents h.count_eq (hperm.trans h.perm))
      ⟨.setStorage _, rfl, by rw [← hcap] at hle; exact hle, fun heq => ?_, fun hne => ?_, fun hkept => absurd hkept hnot,
        .inr rfl⟩
    · have hcap' : s.asNative.capacity = b.capacity := by simpa using heq
      rw [hcap] at hcap'
      refine ⟨hcap.trans hcap'.symm, fun i hi => hsame hcap' i (by omega)⟩
    · have hcap' : s.asNative.capacity ≠ b.capacity := by simpa using hne
      rw [← hcap] at hc
      exact ⟨hc, Ne.symm hcap'⟩

omit [EquivBEq κ] [LawfulHashable κ] in
theorem Buffer.Position.congr {b b' : Buffer κ ν} {key : κ} {r : Nat × Bool} (hpos : b.Position key r)
    (hc : b'.capacity = b.capacity) (hentries : ∀ i < b.capacity, b'.entries i = b.entries i) :
    b'.Position key r := by
  have hbucket : b'.bucket key = b.bucket key := by
    unfold Buffer.bucket
    rw [hc]
  have hlist : b'.toList = b.toList := by
    unfold Buffer.toList
    rw [hc]
    exact elements_congr hentries
  cases hpos with
  | found lt entry beq => exact .found (by rwa [hc]) ((hentries _ lt).trans entry) beq
  | absent lt hole first absent =>
    refine .absent (by rwa [hc]) ((hentries _ lt).trans hole) (fun c hcb hlt => ?_) (by rwa [hlist])
    rw [hc] at hcb
    rw [hbucket, hc] at hlt
    rw [hentries c hcb]
    exact first c hcb hlt

theorem wp_findAgain {Q : Nat → Variant κ ν → Prop} {key : κ} {i : Nat} {found : Bool} {r : Bool × Bool}
    (hpos : s.asNative.Position key (i, found)) (h : s.asNative.Represents m) (h' : s'.asNative.Represents m)
    (hensured : Ensured minimumCapacity s r s')
    (hQ : ∀ j, s'.asNative.Position key (j, found) → (r.2 = false → j = i) → Q j s') :
    wp (findAgain (ε := ε) r.2 key i) Q E s' := by
  unfold findAgain
  rw [wp_bind, wp_asNative]
  cases hr : r.2 with
  | false =>
    rw [if_neg Bool.false_ne_true]
    obtain ⟨hc, hentries⟩ := hensured.unchanged hr
    exact hQ i (hpos.congr hc hentries) fun _ => rfl
  | true =>
    rw [if_pos rfl, wp_bind]
    refine wp_ends (h'.find key) fun ⟨j, found'⟩ hpos' => ?_
    have hsame : found' = found := by
      have hget := (h'.position hpos').trans (h.position hpos).symm
      cases hpos' with
      | found lt entry beq =>
        cases hpos with
        | found => rfl
        | absent =>
          simp only [if_true, entry, Bool.false_eq_true, if_false] at hget
          exact absurd hget (Option.some_ne_none _)
      | absent lt hole first absent =>
        cases hpos with
        | found lt' entry' beq' =>
          simp only [if_true, entry', Bool.false_eq_true, if_false] at hget
          exact absurd hget.symm (Option.some_ne_none _)
        | absent => rfl
    subst hsame
    exact hQ j hpos' fun h => by rw [hr] at h; exact Bool.noConfusion h

/-- What inserting an absent key leaves, besides the finite map. -/
structure Inserted (key : κ) (value : ν) (s : Variant κ ν) (j : Nat) (s' : Variant κ ν) : Prop where
  isolated : Isolated s s'
  unique : s'.isUniquelyReferenced = true
  entry : s'.asNative.entries j = some (key, value)
  lt : j < s'.asNative.capacity
  large : Buffer.minimumCapacity (s.asNative.count + 1) ≤ s'.asNative.capacity
  /-- Without another storage, the capacity is the same. -/
  still : s'.reallocated = false → s'.asNative.capacity = s.asNative.capacity
  /-- Where there is room in storage of its own, it stays. -/
  kept : Buffer.minimumCapacity (s.asNative.count + 1) ≤ s.asNative.capacity ∧ s.isUniquelyReferenced = true →
    s'.reallocated = s.reallocated ∧ s'.asNative.capacity = s.asNative.capacity
  /-- Unless the capacity changes, every other entry stays in its bucket. -/
  stays : (∀ c, Buffer.doubled (Buffer.minimumCapacity (s.asNative.count + 1)) = some c → c = s.asNative.capacity) →
    s'.asNative.capacity = s.asNative.capacity ∧
      ∀ i < s.asNative.capacity, ∀ e, s.asNative.entries i = some e → s'.asNative.entries i = some e

omit [BEq κ] [Hashable κ] [EquivBEq κ] [LawfulHashable κ] in
theorem Buffer.le_doubled {c : Nat} (hc : Buffer.doubled minimumCapacity = some c) : minimumCapacity ≤ c :=
  Int.not_lt.1 (of_decide_eq_false (whileLoop_false hc))

theorem Buffer.lt_of_minimumCapacity {n c : Nat} (hc : Buffer.minimumCapacity (n + 1) ≤ c) : n + 1 < c := by
  unfold Buffer.minimumCapacity at hc
  omega

theorem wp_insertAbsent {Q : Nat → Variant κ ν → Prop} {key : κ} {value : ν} {i : Nat} (h : s.asNative.Represents m)
    (hpos : s.asNative.Position key (i, false))
    (hE : ¬ Buffer.minimumCapacity (s.asNative.count + 1) ≤ 2 ^ 62 → E .noCapacity s)
    (hQ : ∀ j s', s'.asNative.Represents ((key, value) :: m) → Inserted key value s j s' → Q j s') :
    wp (insertAbsent key value i) Q E s := by
  unfold insertAbsent
  rw [wp_bind, wp_asNative, wp_bind]
  have hroom : ∀ c : Nat, Buffer.minimumCapacity (s.asNative.count + 1) ≤ c → m.length + 1 < c := by
    intro c hc
    rw [← h.count_eq]
    exact Buffer.lt_of_minimumCapacity hc
  refine wp_ensureUniqueNativeBuffer h (.inr fun c hc => ?_) hE fun r s₁ h₁ hensured => ?_
  · have hlt := hroom c (Buffer.le_doubled hc)
    omega
  · rw [wp_bind]
    refine wp_findAgain hpos h h₁ hensured fun j hpos' hsame => ?_
    rw [wp_bind]
    unfold initializeNew
    rw [wp_bind, wp_asNative, wp_setNative]
    have hlen : s₁.asNative.toList.length + 1 < s₁.asNative.capacity := by
      rw [h₁.perm.length_eq]
      exact hroom _ hensured.large
    have htable := h₁.initializeKey value hpos' hlen
    obtain - | ⟨hj, hnone, -, -⟩ := hpos'
    have hperm := (Buffer.toList_initializeKey key value hj hnone).trans (h₁.perm.cons _)
    refine hQ j _ ((htable.setCount _).represents (by rw [List.length_cons, ← h₁.count_eq]; rfl) hperm)
      ⟨hensured.isolated.setNative hensured.unique _, hensured.unique, Function.update_self _ _ _, hj,
        hensured.large, fun hre => ?_, fun hkept => ?_, fun hstays => ?_⟩
    · rcases hensured.grown with heq | hgrown
      · rw [heq]
        rfl
      · exact Bool.noConfusion (hre.symm.trans hgrown)
    · rw [hensured.kept hkept]
      exact ⟨rfl, rfl⟩
    · have hr : r.2 = false := by
        apply Bool.eq_false_iff.2
        intro hchanged
        obtain ⟨hc, hne⟩ := hensured.changed hchanged
        exact hne (hstays _ hc)
      refine ⟨(hensured.unchanged hr).1, fun k hk e he => ?_⟩
      have hk' := (hensured.unchanged hr).2 k hk
      have hkj : k ≠ j := by
        rintro rfl
        rw [hk', he] at hnone
        exact Option.some_ne_none e hnone
      exact (Function.update_of_ne hkj _ _).trans (hk'.trans he)

end Ensure

/-! ## Operations -/

section Operations

variable [EquivBEq κ] [LawfulHashable κ] {s : Variant κ ν} {m : List (κ × ν)} {E : Stop ε → Variant κ ν → Prop}
  {key : κ} {value : ν}

theorem wp_find {σ : Type} {b : Buffer κ ν} {Q : Nat × Bool → σ → Prop} {E : Stop ε → σ → Prop} {s : σ}
    (h : b.Represents m) (key : κ)
    (hfound : ∀ i e, b.Position key (i, true) → i < b.capacity → b.entries i = some e → (e.1 == key) = true →
      get m key = some e → Q (i, true) s)
    (habsent : ∀ i, b.Position key (i, false) → get m key = none → Q (i, false) s) :
    wp (ends (b.find key (b.bucket key))) Q E s := by
  refine wp_ends (h.find key) fun ⟨i, found⟩ hpos => ?_
  have hget := h.position hpos
  cases hpos with
  | found lt entry beq =>
    rw [if_pos rfl, entry] at hget
    exact hfound i _ (.found lt entry beq) lt entry beq hget.symm
  | absent lt hole first absent =>
    exact habsent i (.absent lt hole first absent) hget.symm

omit [EquivBEq κ] [LawfulHashable κ] in
theorem room_of_capacity (h : s.asNative.Represents m) :
    ∀ c, Buffer.doubled (s.asNative.capacity : Int) = some c → m.length < c := by
  intro c hc
  have hle := Buffer.le_doubled hc
  have hlt := h.count_lt
  rw [← h.count_eq]
  omega

omit [EquivBEq κ] [LawfulHashable κ] in
theorem two_le_capacity {i : Nat} {e : κ × ν} (h : s.asNative.Represents m) (hi : i < s.asNative.capacity)
    (he : s.asNative.entries i = some e) : 2 ≤ s.asNative.capacity := by
  obtain ⟨z, hz, hznone⟩ := h.hole
  have hzi : z ≠ i := by
    rintro rfl
    exact Option.some_ne_none e (he.symm.trans hznone)
  omega

omit [EquivBEq κ] [LawfulHashable κ] in
theorem capacity_le (h : s.asNative.Represents m) : (s.asNative.capacity : Int) ≤ 2 ^ 62 := by
  obtain ⟨k, h62, hk⟩ := h.capacity
  rw [hk]
  exact_mod_cast Nat.pow_le_pow_right (by omega) h62

theorem wp_reserveCapacity {Q : Unit → Variant κ ν → Prop} {n : Int} (h : s.asNative.Represents m)
    (hroom : s.isUniquelyReferenced = true ∨
      ∀ c, Buffer.doubled (Buffer.minimumCapacity n) = some c → s.asNative.count < c)
    (hE : ¬ Buffer.minimumCapacity n ≤ 2 ^ 62 → E .noCapacity s)
    (hQ : ∀ r s', s'.asNative.Represents m → Ensured (Buffer.minimumCapacity n) s r s' → Q () s') :
    wp (reserveCapacity n) Q E s := by
  unfold reserveCapacity
  rw [wp_bind]
  refine wp_ensureUniqueNativeBuffer h ?_ hE hQ
  have hcount := h.count_lt
  rcases hroom with hu | hroom
  · by_cases hle : Buffer.minimumCapacity n ≤ s.asNative.capacity
    · exact .inl ⟨hu, hle⟩
    · refine .inr fun c hc => ?_
      have hc' := Buffer.le_doubled hc
      rw [← h.count_eq]
      omega
  · refine .inr fun c hc => ?_
    rw [← h.count_eq]
    exact hroom c hc

theorem wp_nativeInsert {Q : Bool × (κ × ν) → Variant κ ν → Prop} (h : s.asNative.Represents m)
    (hE : get m key = none → ¬ Buffer.minimumCapacity (s.asNative.count + 1) ≤ 2 ^ 62 → E .noCapacity s)
    (hfound : ∀ e, get m key = some e → Q (false, e) s)
    (habsent : ∀ j s', get m key = none → s'.asNative.Represents ((key, value) :: m) →
      Inserted key value s j s' → Q (true, (key, value)) s') :
    wp (nativeInsert value key) Q E s := by
  unfold nativeInsert
  rw [wp_bind, wp_asNative, wp_bind]
  refine wp_find h key (fun i e _ _ he _ hget => ?_) fun i hpos hget => ?_
  · simp only [if_true, wp_bind]
    exact wp_initialized he (hfound e hget)
  · simp only [Bool.false_eq_true, if_false, wp_bind]
    exact wp_insertAbsent h hpos (hE hget) fun j s' h' hinserted => habsent j s' hget h' hinserted

theorem Buffer.Represents.setKey {b : Buffer κ ν} {i : Nat} {e : κ × ν} (h : b.Represents m) (hi : i < b.capacity)
    (he : b.entries i = some e) (hk : (e.1 == key) = true) : (b.setKey key value i).Represents (put m key value) := by
  have hperm := Buffer.toList_setKey value h.distinct hi he hk
  refine ⟨⟨Table.setKey h.toTable hi he hk, ?_⟩, hperm.trans (perm_put h.perm)⟩
  have hget := h.distinct.get_eq_some.2 ⟨Buffer.mem_toList.2 ⟨i, hi, he⟩, hk⟩
  rw [hperm.length_eq, h.distinct.length_put hget]
  exact h.count

theorem wp_ensureEntry {Q : Nat → Variant κ ν → Prop} {i : Nat} (h : s.asNative.Represents m)
    (hpos : s.asNative.Position key (i, true))
    (hQ : ∀ j s' e, s'.asNative.Represents m → Isolated s s' → s'.isUniquelyReferenced = true →
      j < s'.asNative.capacity → s'.asNative.entries j = some e → (e.1 == key) = true → get m key = some e →
      Q j s') :
    wp (do
      let (_, capacityChanged) ← ensureUniqueNativeBuffer s.asNative.capacity
      findAgain capacityChanged key i) Q E s := by
  rw [wp_bind]
  refine wp_ensureUniqueNativeBuffer h (.inr (room_of_capacity h)) (absurd (capacity_le h)) fun r s₁ h₁ hensured => ?_
  refine wp_findAgain hpos h h₁ hensured fun j hpos' _ => ?_
  have hget := h₁.position hpos'
  obtain ⟨lt, entry, beq⟩ | - := hpos'
  rw [if_pos rfl, entry] at hget
  exact hQ j s₁ _ h₁ hensured.isolated hensured.unique lt entry beq hget.symm

theorem wp_ensureAt {Q : Bool × Bool → Variant κ ν → Prop} {i : Nat} {e : κ × ν} (h : s.asNative.Represents m)
    (hi : i < s.asNative.capacity) (he : s.asNative.entries i = some e)
    (hQ : ∀ r s', s'.asNative.Represents m → Isolated s s' → s'.isUniquelyReferenced = true →
      i < s'.asNative.capacity → s'.asNative.entries i = some e → Q r s') :
    wp (ensureUniqueNativeBuffer s.asNative.capacity) Q E s := by
  refine wp_ensureUniqueNativeBuffer h (.inr (room_of_capacity h)) (absurd (capacity_le h)) fun r s₁ h₁ hensured => ?_
  have hr : r.2 = false := by
    apply Bool.eq_false_iff.2
    intro hchanged
    obtain ⟨hc, hne⟩ := hensured.changed hchanged
    rw [h.doubled_capacity (two_le_capacity h hi he), Option.some.injEq] at hc
    exact hne hc.symm
  obtain ⟨hc, hentries⟩ := hensured.unchanged hr
  exact hQ r s₁ h₁ hensured.isolated hensured.unique (by rwa [hc]) (by rw [hentries i hi, he])

theorem wp_nativeUpdateValue {Q : Option (κ × ν) → Variant κ ν → Prop} (h : s.asNative.Represents m)
    (hE : ¬ Buffer.minimumCapacity (s.asNative.count + 1) ≤ 2 ^ 62 → E .noCapacity s)
    (hfound : ∀ e s', get m key = some e → s'.asNative.Represents (put m key value) → Isolated s s' → Q (some e) s')
    (habsent : ∀ j s', get m key = none → s'.asNative.Represents ((key, value) :: m) → Inserted key value s j s' →
      Q none s') :
    wp (nativeUpdateValue value key) Q E s := by
  unfold nativeUpdateValue
  rw [wp_bind, wp_asNative, wp_bind]
  refine wp_find h key (fun i e hpos _ _ _ _ => ?_) fun i hpos hget => ?_
  · have hensure := wp_ensureEntry (E := E) h hpos (Q := fun j s' => wp (do
      let b ← asNative
      let oldValue ← initialized (b.entries j)
      setNative (b.setKey key value j)
      return some oldValue) Q E s') fun j s' e h' hisolated hu lt entry beq hget => by
        simp only [wp_bind, wp_asNative]
        refine wp_initialized entry ?_
        rw [wp_setNative, wp_pure]
        exact hfound e _ hget (h'.setKey lt entry beq) (hisolated.setNative hu _)
    simp only [if_true, wp_bind] at hensure ⊢
    exact hensure
  · simp only [Bool.false_eq_true, if_false, wp_bind]
    exact wp_insertAbsent h hpos hE fun j s' h' hinserted => habsent j s' hget h' hinserted

theorem wp_subscriptDefault {Q : Unit → Variant κ ν → Prop} {f : ν → ν} (h : s.asNative.Represents m)
    (hE : ¬ Buffer.minimumCapacity (s.asNative.count + 1) ≤ 2 ^ 62 → E .noCapacity s)
    (hQ : ∀ s', s'.asNative.Represents (modify m key value f) → Isolated s s' → Q () s') :
    wp (subscriptDefault key value f) Q E s := by
  have hwrite : ∀ (j : Nat) (s' : Variant κ ν) (m' : List (κ × ν)) (e : κ × ν), s'.asNative.Represents m' →
      Isolated s s' → s'.isUniquelyReferenced = true → j < s'.asNative.capacity → s'.asNative.entries j = some e →
      put m' e.1 (f e.2) = modify m key value f →
      wp (initialized (s'.asNative.entries j))
        (fun e s'' => wp (setNative (s'.asNative.setKey e.1 (f e.2) j)) Q E s'') E s' := by
    intro j s' m' e h' hisolated hu hj he hput
    refine wp_initialized he ?_
    rw [wp_setNative]
    refine hQ _ ?_ (hisolated.setNative hu _)
    rw [← hput]
    exact h'.setKey hj he BEq.rfl
  unfold subscriptDefault nativePointerToValueInsertingDefault
  simp only [wp_bind, wp_asNative]
  refine wp_find h key (fun i e hpos hi he hk hget => ?_) fun i hpos hget => ?_
  · simp only [if_true, wp_bind]
    unfold nativePointerToValue
    simp only [wp_bind, wp_asNative]
    refine wp_ensureAt h hi he fun _ s₁ h₁ hisolated hu hi' he' => ?_
    rw [wp_pure, wp_pure]
    refine hwrite i s₁ m e h₁ hisolated hu hi' he' ?_
    unfold AssocList.modify
    rw [hget]
  · simp only [Bool.false_eq_true, if_false, wp_bind]
    refine wp_insertAbsent h hpos hE fun j s' h' hinserted => ?_
    rw [wp_pure]
    refine hwrite j s' _ (key, value) h' hinserted.isolated hinserted.unique hinserted.lt hinserted.entry ?_
    unfold AssocList.modify put
    rw [hget, Distinct.erase_cons h'.distinct_map BEq.rfl]

theorem Buffer.Represents.nativeDelete {b : Buffer κ ν} {i : Nat} {e : κ × ν} (h : b.Represents m)
    (hi : i < b.capacity) (he : b.entries i = some e) (hk : (e.1 == key) = true) :
    Returns (b.nativeDelete (b.bucket key) i) fun b' => b'.Represents (erase m key) := by
  refine (Table.nativeDelete h.toTable hi he hk).mono fun b' ⟨htable, _, hcount, hperm⟩ => ?_
  refine htable.represents ?_ (hperm.trans (perm_erase key h.perm))
  have hget := h.distinct.get_eq_some.2 ⟨Buffer.mem_toList.2 ⟨i, hi, he⟩, hk⟩
  have hlen := h.distinct.perm_cons_erase (mem_of_get hget) (beq_of_get hget)
  rw [hcount, h.count, hlen.length_eq, List.length_cons, Nat.add_sub_cancel]
  exact (perm_erase key h.perm).length_eq

theorem wp_nativeRemoveObject {Q : Option (κ × ν) → Variant κ ν → Prop} (h : s.asNative.Represents m)
    (hQ : ∀ s', s'.asNative.Represents (erase m key) → Isolated s s' → Q (get m key) s') :
    wp (nativeRemoveObject key) Q E s := by
  unfold nativeRemoveObject
  rw [wp_bind, wp_asNative, wp_bind]
  refine wp_find h key (fun i e hpos _ _ _ _ => ?_) fun i hpos hget => ?_
  · have hensure := wp_ensureEntry (E := E) h hpos (Q := fun j s' => wp (do
      let nativeBuffer ← asNative
      let oldValue ← initialized (nativeBuffer.entries j)
      let nativeBuffer ← ends (nativeBuffer.nativeDelete (nativeBuffer.bucket key) j)
      setNative nativeBuffer
      return some oldValue) Q E s') fun j s' e h' hisolated hu lt entry beq hget => by
        simp only [wp_bind, wp_asNative]
        refine wp_initialized entry (wp_ends (h'.nativeDelete lt entry beq) fun b hb => ?_)
        rw [wp_setNative, wp_pure, ← hget]
        exact hQ _ hb (hisolated.setNative hu _)
    simp only [if_true, wp_bind] at hensure ⊢
    exact hensure
  · simp only [Bool.false_eq_true, if_false, wp_pure]
    rw [← hget]
    refine hQ s ?_ (.refl s)
    rw [erase_of_get hget]
    exact h

theorem wp_nativeRemove {Q : κ × ν → Variant κ ν → Prop} {i : Nat} {e : κ × ν} (h : s.asNative.Represents m)
    (hi : i < s.asNative.capacity) (he : s.asNative.entries i = some e)
    (hQ : ∀ s', s'.asNative.Represents (erase m e.1) → Isolated s s' → Q e s') :
    wp (nativeRemove i) Q E s := by
  unfold nativeRemove
  simp only [wp_bind, wp_asNative]
  refine wp_ensureAt h hi he fun _ s₁ h₁ hisolated hu hi' he' => ?_
  refine wp_initialized (a := e) (by rw [if_pos hi', he']) ?_
  refine wp_ends (h₁.nativeDelete hi' he' BEq.rfl) fun b hb => ?_
  rw [wp_setNative, wp_pure]
  exact hQ _ hb (hisolated.setNative hu _)

omit [EquivBEq κ] [LawfulHashable κ] in
theorem wp_removeAll {Q : Unit → Variant κ ν → Prop} {keepingCapacity : Bool} (h : s.asNative.Represents m)
    (hQ : ∀ s', s'.asNative.Represents [] → Isolated s s' → Q () s') :
    wp (removeAll keepingCapacity) Q E s := by
  have hnew : ∀ n : Int, n ≤ 2 ^ 62 → wp (do
      let b ← withMinimumCapacity n
      setStorage b) Q E s := by
    intro n hn
    rw [wp_bind]
    refine wp_withMinimumCapacity (absurd hn) fun c _ ⟨k, _, h62, hk⟩ _ => ?_
    rw [wp_setStorage]
    exact hQ _ (.ofCapacity ⟨k, h62, hk⟩) (.setStorage _)
  unfold removeAll
  rw [wp_bind, wp_asNative, wp_ite]
  refine ⟨fun hzero => ?_, fun _ => ?_⟩
  · rw [h.count_eq, List.length_eq_zero_iff] at hzero
    subst hzero
    exact hQ s h (.refl s)
  · rw [wp_ite]
    refine ⟨fun _ => ?_, fun _ => hnew 2 (by norm_num)⟩
    unfold nativeRemoveAll
    rw [wp_bind, wp_get', wp_ite]
    refine ⟨fun hu => ?_, fun _ => hnew _ (capacity_le h)⟩
    rw [wp_setNative]
    exact hQ _ (.ofCapacity h.capacity) (Isolated.setNative (.refl s) hu _)

/-! ## Reading -/

variable {b : Buffer κ ν}

theorem Buffer.Represents.indexForKey (h : b.Represents m) (key : κ) :
    Returns (b.indexForKey key) fun r => (r.isSome = (get m key).isSome) ∧
      ∀ i, r = some i → i < b.capacity ∧ b.entries i = get m key := by
  unfold Buffer.indexForKey
  refine .ite (fun hzero => .pure ?_) fun _ => (h.find key).bind fun ⟨i, found⟩ hpos => .pure ?_
  · rw [h.count_eq, List.length_eq_zero_iff] at hzero
    subst hzero
    exact ⟨rfl, fun i hi => absurd hi.symm (Option.some_ne_none i)⟩
  · have hget := h.position hpos
    cases hpos with
    | found lt entry beq =>
      simp only [if_true, entry] at hget ⊢
      rw [← hget]
      refine ⟨rfl, fun j hj => ?_⟩
      rw [← Option.some.inj hj]
      exact ⟨lt, entry⟩
    | absent =>
      simp only [Bool.false_eq_true, if_false] at hget ⊢
      rw [← hget]
      exact ⟨rfl, fun j hj => absurd hj.symm (Option.some_ne_none j)⟩

theorem Buffer.Represents.maybeGet (h : b.Represents m) (key : κ) : b.maybeGet key = some (get m key) := by
  unfold Buffer.maybeGet
  split_ifs with hzero
  · rw [h.count_eq, List.length_eq_zero_iff] at hzero
    rw [hzero]
    rfl
  · obtain ⟨⟨i, found⟩, hfind, hpos⟩ := h.find key
    rw [hfind]
    exact congrArg some (h.position hpos)

end Operations

end SwiftKStdlib.HashedCollections
