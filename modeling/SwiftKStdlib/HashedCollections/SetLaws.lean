import SwiftKStdlib.HashedCollections.SetAlgebra

/-!
# The laws of set algebra

* one rule for each loop: `wp_insertEach`, `wp_removeEach`, `wp_toggleEach`, ...;
* `Computes`, `Mutates`, `Decides` : a set, a mutated set, or a relation of the members;
* `SequenceLaws`, `SetLaws` : every operation is the mathematical one;
* `Reaches.setAlgebra` : the laws hold of all sets of all runs.
-/

namespace SwiftKStdlib.HashedCollections
open Lib Lib.Probing Lib.AssocList Lib.Prog

variable {ι κ σ ε : Type} [BEq κ] [Hashable κ]

/-! ## Loops -/

section Loops

variable [EquivBEq κ] [LawfulHashable κ] {s : Variant κ Unit} {S T : Set κ} {b : Buffer κ Unit}

theorem wp_insertEach {E : Stop ε → Variant κ Unit → Prop} {Q : Unit → Variant κ Unit → Prop} {items : List κ}
    (h : s.asNative.Holds S) (hE : ∀ s, E .noCapacity s)
    (hQ : ∀ s', s'.asNative.Holds (S ∪ {k | ∃ item ∈ items, (item == k) = true}) → Isolated s s' → Q () s') :
    wp (insertEach items) Q E s := by
  induction items generalizing s S with
  | nil =>
    refine hQ s (h.congr ?_) (.refl s)
    ext k
    simp
  | cons item items ih =>
    unfold insertEach
    rw [wp_bind]
    refine wp_insert h hE fun s₁ h₁ hisolated => ih h₁ fun s' h' hisolated' => hQ s' (h'.congr ?_)
      (hisolated.trans hisolated')
    ext k
    simp [or_assoc]

theorem wp_removeEach {E : Stop ε → Variant κ Unit → Prop} {Q : Unit → Variant κ Unit → Prop} {items : List κ}
    (h : s.asNative.Holds S)
    (hQ : ∀ s', s'.asNative.Holds (S \ {k | ∃ item ∈ items, (item == k) = true}) → Isolated s s' → Q () s') :
    wp (removeEach items) Q E s := by
  induction items generalizing s S with
  | nil =>
    refine hQ s (h.congr ?_) (.refl s)
    ext k
    simp
  | cons item items ih =>
    unfold removeEach
    rw [wp_bind]
    refine wp_remove h fun s₁ h₁ hisolated => ih h₁ fun s' h' hisolated' => hQ s' (h'.congr ?_)
      (hisolated.trans hisolated')
    ext k
    simp [and_assoc]

theorem wp_allContained {E : Stop ε → σ → Prop} {Q : Bool → σ → Prop} {t : σ} {l : List (κ × Unit)} (h : b.Holds T)
    (hQ : ∀ r, (r = true ↔ ∀ e ∈ l, e.1 ∈ T) → Q r t) : wp (allContained b l) Q E t := by
  induction l with
  | nil => exact hQ true (by simp)
  | cons e l ih =>
    unfold allContained
    rw [wp_bind]
    refine wp_contains h fun found hfound => ?_
    rw [wp_ite]
    refine ⟨fun hin => ih fun r hr => hQ r ?_, fun hout => hQ false ?_⟩
    · rw [hr, List.forall_mem_cons, and_iff_right (hfound.1 hin)]
    · rw [List.forall_mem_cons, ← hfound, Bool.eq_false_iff.2 hout]
      simp

theorem wp_allFound {E : Stop ε → σ → Prop} {Q : Bool → σ → Prop} {t : σ} {l : List (κ × Unit)} (h : b.Holds T)
    (hQ : ∀ r, (r = true ↔ ∀ e ∈ l, e.1 ∈ T) → Q r t) : wp (allFound b l) Q E t := by
  induction l with
  | nil => exact hQ true (by simp)
  | cons e l ih =>
    unfold allFound
    rw [wp_bind]
    refine wp_find h.1.represents e.1 (fun i e' _ _ _ _ hget => ?_) fun i _ hget => ?_
    · have hin : e.1 ∈ T := by
        rw [← h.2]
        exact mem_iff_get.2 (by rw [hget]; rfl)
      refine ih fun r hr => hQ r ?_
      rw [hr, List.forall_mem_cons, and_iff_right hin]
    · have hout : e.1 ∉ T := by
        rw [← h.2]
        intro hin
        rw [Buffer.members, Set.mem_ofPred_eq, mem_iff_get, hget] at hin
        exact Bool.false_ne_true hin
      refine hQ false ?_
      rw [List.forall_mem_cons]
      simp [hout]

theorem wp_noneContained {E : Stop ε → σ → Prop} {Q : Bool → σ → Prop} {t : σ} {l : List (κ × Unit)} (h : b.Holds T)
    (hQ : ∀ r, (r = true ↔ ∀ e ∈ l, e.1 ∉ T) → Q r t) : wp (noneContained b l) Q E t := by
  induction l with
  | nil => exact hQ true (by simp)
  | cons e l ih =>
    unfold noneContained
    rw [wp_bind]
    refine wp_contains h fun found hfound => ?_
    rw [wp_ite]
    refine ⟨fun hin => hQ false ?_, fun hout => ih fun r hr => hQ r ?_⟩
    · rw [List.forall_mem_cons]
      simp [hfound.1 hin]
    · have hout' : e.1 ∉ T := fun hin => hout (hfound.2 hin)
      rw [hr, List.forall_mem_cons, and_iff_right hout']

theorem wp_insertContained {E : Stop ε → Variant κ Unit → Prop} {Q : Unit → Variant κ Unit → Prop}
    {l : List (κ × Unit)} (h : s.asNative.Holds S) (hb : b.Holds T) (hE : ∀ s, E .noCapacity s)
    (hQ : ∀ s', s'.asNative.Holds (S ∪ {k | Mem l k ∧ k ∈ T}) → Isolated s s' → Q () s') :
    wp (insertContained b l) Q E s := by
  have hclosed : ∀ k k' : κ, (k == k') = true → (k ∈ T ↔ k' ∈ T) := by
    intro k k' hk
    rw [← hb.2]
    exact mem_congr hk
  induction l generalizing s S with
  | nil =>
    refine hQ s (h.congr ?_) (.refl s)
    ext k
    simp
  | cons e l ih =>
    unfold insertContained
    rw [wp_bind]
    refine wp_contains hb fun found hfound => ?_
    rw [wp_ite]
    refine ⟨fun hin => (wp_bind _ _).2 (wp_insert h hE fun s₁ h₁ hisolated => ?_), fun hout => ?_⟩
    · refine ih h₁ fun s' h' hisolated' => hQ s' (h'.congr ?_) (hisolated.trans hisolated')
      ext k
      simp only [Set.mem_union, Set.mem_ofPred_eq, mem_cons, or_and_right, or_assoc]
      refine or_congr_right (or_congr_left ⟨fun hk => ⟨hk, (hclosed _ _ hk).1 (hfound.1 hin)⟩, And.left⟩)
    · refine ih h fun s' h' hisolated' => hQ s' (h'.congr ?_) hisolated'
      ext k
      simp only [Set.mem_union, Set.mem_ofPred_eq, mem_cons, or_and_right]
      refine or_congr_right ⟨.inr, fun hor => hor.resolve_left fun hkin => hout ?_⟩
      exact hfound.2 ((hclosed _ _ hkin.1).2 hkin.2)

theorem wp_toggleEach {E : Stop ε → Variant κ Unit → Prop} {Q : Unit → Variant κ Unit → Prop}
    {l : List (κ × Unit)} (h : s.asNative.Holds S) (hl : Distinct l) (hE : ∀ s, E .noCapacity s)
    (hQ : ∀ s', s'.asNative.Holds (symmDiff S {k | Mem l k}) → Isolated s s' → Q () s') :
    wp (toggleEach l) Q E s := by
  induction l generalizing s S with
  | nil =>
    refine hQ s (h.congr ?_) (.refl s)
    ext k
    simp [Set.mem_symmDiff]
  | cons e l ih =>
    obtain ⟨hfirst, hrest⟩ := List.pairwise_cons.1 hl
    have honce : ∀ k, (e.1 == k) = true → ¬ Mem l k := by
      rintro k hk ⟨e', he', hk'⟩
      exact Bool.false_ne_true ((hfirst e' he').symm.trans (BEq.trans hk (BEq.symm hk')))
    have hclosed : ∀ k, (e.1 == k) = true → (e.1 ∈ S ↔ k ∈ S) := by
      intro k hk
      rw [← h.2]
      exact mem_congr hk
    unfold toggleEach
    rw [wp_bind, wp_asNative, wp_bind]
    refine wp_contains h fun found hfound => ?_
    rw [wp_ite]
    refine ⟨fun hin => (wp_bind _ _).2 (wp_remove h fun s₁ h₁ hisolated => ?_),
      fun hout => (wp_bind _ _).2 (wp_insert h hE fun s₁ h₁ hisolated => ?_)⟩
    · refine ih h₁ hrest fun s' h' hisolated' => hQ s' (h'.congr ?_) (hisolated.trans hisolated')
      ext k
      have hone := honce k
      have hsame := hclosed k
      rw [iff_true_left (hfound.1 hin)] at hsame
      simp only [Set.mem_symmDiff, Set.mem_sdiff, Set.mem_ofPred_eq, mem_cons]
      tauto
    · refine ih h₁ hrest fun s' h' hisolated' => hQ s' (h'.congr ?_) (hisolated.trans hisolated')
      ext k
      have hone := honce k
      have hsame := hclosed k
      rw [iff_false_left fun hin => hout (hfound.2 hin)] at hsame
      simp only [Set.mem_symmDiff, Set.mem_union, Set.mem_ofPred_eq, mem_cons]
      tauto

end Loops

/-! ## Laws -/

def Computes (x : Prog Unit (Stop ε) (NativeSet κ)) (T : Set κ) : Prop :=
  wp x (fun r _ => r.buffer.Holds T) (fun e _ => e = .noCapacity) ()

def Mutates (a : NativeSet κ) (x : Prog (Variant κ Unit) (Stop ε) Unit) (T : Set κ) : Prop :=
  ∀ unique, wp x (fun _ s => s.asNative.Holds T ∧ Isolated ⟨a.buffer, unique, false⟩ s)
    (fun e _ => e = .noCapacity) ⟨a.buffer, unique, false⟩

omit [BEq κ] [Hashable κ] in
def Decides (x : Prog Unit (Stop ε) Bool) (P : Prop) : Prop :=
  wp x (fun r _ => r = true ↔ P) (fun e _ => e = .noCapacity) ()

omit [Hashable κ] in
def NativeSet.members (a : NativeSet κ) : Set κ := a.buffer.members

/-- The operations of `a` with a sequence. -/
structure SequenceLaws (ε : Type) (a : NativeSet κ) (s : Elements κ) : Prop where
  union : Computes (ε := ε) (s.union a) (a.members ∪ s.members)
  formUnion : Mutates (ε := ε) a s.formUnion (a.members ∪ s.members)
  intersection : Computes (ε := ε) (s.intersection a) (a.members ∩ s.members)
  formIntersection : Mutates (ε := ε) a (s.formIntersection a.storage) (a.members ∩ s.members)
  subtracting : Computes (ε := ε) (s.subtracting a) (a.members \ s.members)
  subtract : Mutates (ε := ε) a s.subtract (a.members \ s.members)
  symmetricDifference : Computes (ε := ε) (s.symmetricDifference a) (symmDiff a.members s.members)
  formSymmetricDifference : Mutates (ε := ε) a s.formSymmetricDifference (symmDiff a.members s.members)
  isSubset : Decides (ε := ε) (s.isSubset a) (a.members ⊆ s.members)
  isStrictSubset : Decides (ε := ε) (s.isStrictSubset a) (a.members ⊂ s.members)
  isSuperset : Decides (ε := ε) (s.isSuperset a) (s.members ⊆ a.members)
  isStrictSuperset : Decides (ε := ε) (s.isStrictSuperset a) (s.members ⊂ a.members)
  isDisjoint : Decides (ε := ε) (s.isDisjoint a) (Disjoint a.members s.members)

/-- The operations of two sets. -/
structure SetLaws (ε : Type) (a b : NativeSet κ) : Prop where
  intersection : Computes (ε := ε) (HashedCollections.intersection a b) (a.members ∩ b.members)
  formSymmetricDifference : Mutates (ε := ε) a (HashedCollections.formSymmetricDifference b)
    (symmDiff a.members b.members)
  isSubset : Decides (ε := ε) (HashedCollections.isSubset a b) (a.members ⊆ b.members)
  isStrictSubset : Decides (ε := ε) (HashedCollections.isStrictSubset a b) (a.members ⊂ b.members)
  isSuperset : Decides (ε := ε) (HashedCollections.isSuperset a b) (b.members ⊆ a.members)
  isStrictSuperset : Decides (ε := ε) (HashedCollections.isStrictSuperset a b) (b.members ⊂ a.members)
  isDisjoint : Decides (ε := ε) (HashedCollections.isDisjoint a b) (Disjoint a.members b.members)
  equals : Decides (ε := ε) (HashedCollections.equals a b) (a.members = b.members)
  hashValue : a.members = b.members → HashedCollections.hashValue a = HashedCollections.hashValue b

section Laws

variable [EquivBEq κ] [LawfulHashable κ] {a b c : NativeSet κ} {s : Elements κ} {E : Stop ε → σ → Prop} {t : σ}

omit [BEq κ] [Hashable κ] [EquivBEq κ] [LawfulHashable κ] in
def Coherent (a b : NativeSet κ) : Prop := ∀ i, a.storage = some i → b.storage = some i → a.buffer = b.buffer

omit [BEq κ] [Hashable κ] [EquivBEq κ] [LawfulHashable κ] in
theorem Coherent.symm (h : Coherent a b) : Coherent b a := fun i hb ha => (h i ha hb).symm

omit [BEq κ] [Hashable κ] [EquivBEq κ] [LawfulHashable κ] in
theorem Coherent.of_none (h : b.storage = none) : Coherent a b :=
  fun i _ hb => absurd (h.symm.trans hb).symm (Option.some_ne_none i)

omit [LawfulHashable κ] in
theorem subset_iff {T : Set κ} (hb : b.buffer.Holds T) :
    a.members ⊆ T ↔ ∀ e ∈ a.buffer.toList, e.1 ∈ T := by
  constructor
  · intro hsub e he
    exact hsub ⟨e, he, BEq.rfl⟩
  · rintro hall k ⟨e, he, hk⟩
    have hin := hall e he
    rw [← hb.2] at hin ⊢
    exact (mem_congr hk).1 hin

omit [EquivBEq κ] in
theorem foldl_hash {l l' : List (κ × Unit)} (h : List.Forall₂ (fun e e' => (e'.1 == e.1) = true) l l')
    (result : UInt64) : l.foldl (fun result member => result ^^^ mixInt (hash member.1)) result =
      l'.foldl (fun result member => result ^^^ mixInt (hash member.1)) result := by
  induction h generalizing result with
  | nil => rfl
  | cons hk _ ih => rw [List.foldl_cons, List.foldl_cons, ← hash_eq hk, ih]

theorem count_le (ha : a.buffer.Invariants) (hb : b.buffer.Invariants) (hsub : a.members ⊆ b.members) :
    a.buffer.count ≤ b.buffer.count ∧ (a.buffer.count = b.buffer.count → a.members = b.members ∧
      hashValue a = hashValue b) := by
  have hall := (subset_iff (a := a) ⟨hb, rfl⟩).1 hsub
  obtain ⟨l, rest, hperm, hmatch⟩ := ha.distinct.exists_forall₂ hb.distinct hall
  have hlen := hperm.length_eq
  rw [List.length_append, ← hmatch.length_eq] at hlen
  rw [ha.count, hb.count]
  refine ⟨by omega, fun heq => ?_⟩
  obtain rfl : rest = [] := List.eq_nil_of_length_eq_zero (by omega)
  rw [List.append_nil] at hperm
  refine ⟨Set.Subset.antisymm hsub ?_, ?_⟩
  · intro k hk
    exact (mem_forall₂ hmatch).1 ((mem_perm hperm).1 hk)
  · unfold hashValue
    rw [Buffer.iterated_eq, Buffer.iterated_eq, foldl_hash hmatch]
    refine (hperm.foldl_eq' (fun x _ y _ result => ?_) _).symm
    rw [UInt64.xor_assoc, UInt64.xor_comm (mixInt _), ← UInt64.xor_assoc]

theorem wp_compareSets {Q : Bool × Bool → σ → Prop} {A B : Set κ} (ha : a.buffer.Holds A) (hb : b.buffer.Holds B)
    (hQ : ∀ r, ((r.1 || r.2) = true ↔ A ⊆ B) → Q r t) : wp (compareSets a b) Q E t := by
  unfold compareSets
  rw [wp_bind, Buffer.iterated_eq]
  refine wp_allContained hb fun r hr => ?_
  have hsub := (subset_iff (a := a) hb).symm
  rw [← hr, NativeSet.members, ha.2] at hsub
  rw [wp_ite]
  refine ⟨fun h => hQ _ ?_, fun h => hQ _ ?_⟩
  · simpa using hsub.1 h
  · simpa [h] using hsub

theorem wp_isSubset {Q : Bool → σ → Prop} {A B : Set κ} (ha : a.buffer.Holds A) (hb : b.buffer.Holds B)
    (hQ : ∀ r, (r = true ↔ A ⊆ B) → Q r t) : wp (isSubset a b) Q E t := by
  unfold isSubset
  rw [wp_bind]
  exact wp_compareSets ha hb fun r hr => hQ _ hr

theorem wp_equals {Q : Bool → σ → Prop} {A B : Set κ} (ha : a.buffer.Holds A) (hb : b.buffer.Holds B)
    (hcoherent : Coherent a b) (hQ : ∀ r, (r = true ↔ A = B) → Q r t) : wp (equals a b) Q E t := by
  obtain ⟨ha, rfl⟩ := ha
  obtain ⟨hb, rfl⟩ := hb
  unfold equals
  rw [wp_ite]
  refine ⟨fun hidentical => hQ true ?_, fun _ => ?_⟩
  · -- one storage, one buffer
    unfold NativeSet.identical at hidentical
    rw [Bool.and_eq_true, beq_iff_eq] at hidentical
    obtain ⟨i, hi⟩ := Option.isSome_iff_exists.1 hidentical.1
    have heq := hcoherent i hi (hidentical.2.symm.trans hi)
    simp [heq]
  · rw [wp_ite]
    have hle := count_le ha hb
    have hle' := count_le hb ha
    refine ⟨fun hne => hQ false ?_, fun heq => ?_⟩
    · have hne' : a.buffer.count ≠ b.buffer.count := by simpa using hne
      refine iff_of_false Bool.false_ne_true fun hsame => hne' ?_
      exact Nat.le_antisymm (hle hsame.subset).1 (hle' hsame.symm.subset).1
    · have heq' : a.buffer.count = b.buffer.count := by simpa using heq
      rw [Buffer.iterated_eq]
      refine wp_allFound ⟨hb, rfl⟩ fun r hr => hQ r ?_
      rw [hr, ← subset_iff ⟨hb, rfl⟩]
      exact ⟨fun hsub => ((hle hsub).2 heq').1, Eq.subset⟩

theorem wp_isStrictSuperset {Q : Bool → σ → Prop} {A B : Set κ} (ha : a.buffer.Holds A) (hb : b.buffer.Holds B)
    (hcoherent : Coherent a b) (hQ : ∀ r, (r = true ↔ B ⊂ A) → Q r t) : wp (isStrictSuperset a b) Q E t := by
  unfold isStrictSuperset isSuperset
  rw [wp_bind]
  refine wp_isSubset hb ha fun r hr => ?_
  rw [wp_ite]
  refine ⟨fun h => (wp_bind _ _).2 (wp_equals ha hb hcoherent fun r' hr' => hQ _ ?_), fun h => hQ _ ?_⟩
  · rw [Set.ssubset_iff_subset_ne, and_iff_right (hr.1 h), ne_comm, ne_eq, ← hr']
    simp
  · refine iff_of_false Bool.false_ne_true fun hss => h (hr.2 hss.subset)

theorem wp_isDisjoint {Q : Bool → σ → Prop} {A B : Set κ} (ha : a.buffer.Holds A) (hb : b.buffer.Holds B)
    (hQ : ∀ r, (r = true ↔ Disjoint A B) → Q r t) : wp (isDisjoint a b) Q E t := by
  unfold isDisjoint
  rw [Buffer.iterated_eq]
  refine wp_noneContained hb fun r hr => hQ r ?_
  obtain ⟨-, rfl⟩ := ha
  rw [hr, Set.disjoint_left]
  constructor
  · rintro hall k ⟨e, he, hk⟩ hin
    refine hall e he ?_
    rw [← hb.2] at hin ⊢
    exact (mem_congr hk).2 hin
  · intro hdisjoint e he
    exact hdisjoint ⟨e, he, BEq.rfl⟩

omit [EquivBEq κ] [LawfulHashable κ] [BEq κ] [Hashable κ] in
theorem wp_locally {b : Buffer κ Unit} {unique : Bool} {x : Prog (Variant κ Unit) (Stop ε) Unit}
    {Q : NativeSet κ → σ → Prop} (hE : ∀ t, E .noCapacity t)
    (hx : wp x (fun _ s => Q ⟨none, s.asNative⟩ t) (fun e _ => e = .noCapacity) ⟨b, unique, false⟩) :
    wp (locally b unique x) Q E t := by
  unfold wp at hx ⊢
  unfold locally
  rcases hrun : x ⟨b, unique, false⟩ with ⟨e | u, s⟩ <;> rw [hrun] at hx
  · rw [hx]
    exact hE t
  · exact hx

theorem wp_intersection {Q : NativeSet κ → σ → Prop} {A B : Set κ} (ha : a.buffer.Holds A) (hb : b.buffer.Holds B)
    (hE : ∀ t, E .noCapacity t) (hQ : ∀ r, r.storage = none → r.buffer.Holds (A ∩ B) → Q r t) :
    wp (intersection a b) Q E t := by
  refine wp_locally hE ?_
  rw [Buffer.iterated_eq]
  refine wp_insertContained (s := ⟨.empty, false, false⟩) .empty hb (fun _ => rfl) fun s' h' _ => hQ _ rfl (h'.congr ?_)
  obtain ⟨-, rfl⟩ := ha
  rw [Set.empty_union]
  rfl

def Elements.Sound (a : NativeSet κ) : Elements κ → Prop
  | .sequence _ _ => True
  | .set b => b.buffer.Invariants ∧ Coherent a b

theorem wp_ofElements {Q : NativeSet κ → σ → Prop} (hs : s.Sound a) (hE : ∀ t, E .noCapacity t)
    (hQ : ∀ r, Coherent a r → r.buffer.Holds s.members → Q r t) : wp (ofElements s) Q E t := by
  cases s with
  | sequence underestimatedCount elements =>
    refine (wp_bind _ _).2 (wp_withMinimumCapacity (fun _ => hE t) fun c _ ⟨k, _, h62, hk⟩ _ => ?_)
    refine wp_locally hE ?_
    have hempty : (Buffer.ofCapacity c : Buffer κ Unit).Holds ∅ := by
      refine (Buffer.Represents.ofCapacity ⟨k, h62, hk⟩).holds.congr ?_
      ext k
      simp
    refine wp_insertEach (s := ⟨.ofCapacity c, true, false⟩) hempty (fun _ => rfl) fun s' h' _ =>
      hQ _ (.of_none rfl) (h'.congr (Set.empty_union _))
  | set b =>
    refine hQ b hs.2 ⟨hs.1, ?_⟩
    have hlist : (Elements.set b).toList = b.buffer.toList.map Prod.fst := congrArg _ Buffer.iterated_eq
    ext k
    unfold Elements.members Buffer.members
    rw [hlist]
    simp [Mem]

theorem wp_formSymmetricDifference {v : Variant κ Unit} {E : Stop ε → Variant κ Unit → Prop}
    {Q : Unit → Variant κ Unit → Prop} {A B : Set κ} (ha : v.asNative.Holds A) (hb : b.buffer.Holds B)
    (hE : ∀ v, E .noCapacity v) (hQ : ∀ v', v'.asNative.Holds (symmDiff A B) → Isolated v v' → Q () v') :
    wp (formSymmetricDifference b) Q E v := by
  unfold formSymmetricDifference
  rw [Buffer.iterated_eq]
  refine wp_toggleEach ha hb.1.distinct hE fun v' h' => hQ v' (h'.congr ?_)
  rw [← hb.2]
  rfl

theorem sequenceLaws (ε : Type) (ha : a.buffer.Invariants) (hs : s.Sound a) : SequenceLaws ε a s := by
  have hself : a.buffer.Holds a.members := ⟨ha, rfl⟩
  have hform : ∀ unique, wp (s.formSymmetricDifference : Prog (Variant κ Unit) (Stop ε) Unit)
      (fun _ v => v.asNative.Holds (symmDiff a.members s.members) ∧ Isolated ⟨a.buffer, unique, false⟩ v)
      (fun e _ => e = .noCapacity) ⟨a.buffer, unique, false⟩ := by
    intro unique
    refine (wp_bind _ _).2 (wp_ofElements hs (fun _ => rfl) fun r _ hr => ?_)
    exact wp_formSymmetricDifference hself hr (fun _ => rfl) fun v' h' hisolated => ⟨h', hisolated⟩
  refine
    { union := wp_locally (fun _ => rfl) (wp_insertEach (s := ⟨a.buffer, false, false⟩) hself (fun _ => rfl)
        fun v' h' _ => h')
      formUnion := fun unique => wp_insertEach (s := ⟨a.buffer, unique, false⟩) hself (fun _ => rfl)
        fun v' h' hisolated => ⟨h', hisolated⟩
      intersection := (wp_bind _ _).2 (wp_ofElements hs (fun _ => rfl) fun r _ hr =>
        wp_intersection hself hr (fun _ => rfl) fun r' _ h' => h')
      formIntersection := fun unique => ?_
      subtracting := wp_locally (fun _ => rfl) (wp_removeEach (s := ⟨a.buffer, false, false⟩) hself fun v' h' _ => h')
      subtract := fun unique => wp_removeEach (s := ⟨a.buffer, unique, false⟩) hself
        fun v' h' hisolated => ⟨h', hisolated⟩
      symmetricDifference := wp_locally (fun _ => rfl) (wp_mono (hform false) (fun _ _ h => h.1) fun _ _ h => h)
      formSymmetricDifference := hform
      isSubset := (wp_bind _ _).2 (wp_ofElements hs (fun _ => rfl) fun r _ hr => wp_isSubset hself hr fun _ h => h)
      isStrictSubset := (wp_bind _ _).2 (wp_ofElements hs (fun _ => rfl) fun r hcoherent hr =>
        wp_isStrictSuperset hr hself hcoherent.symm fun _ h => h)
      isSuperset := (wp_bind _ _).2 (wp_ofElements hs (fun _ => rfl) fun r _ hr => wp_isSubset hr hself fun _ h => h)
      isStrictSuperset := (wp_bind _ _).2 (wp_ofElements hs (fun _ => rfl) fun r hcoherent hr =>
        wp_isStrictSuperset hself hr hcoherent fun _ h => h)
      isDisjoint := (wp_bind _ _).2 (wp_ofElements hs (fun _ => rfl) fun r _ hr => wp_isDisjoint hself hr fun _ h => h) }
  refine (wp_bind _ _).2 ((wp_bind _ _).2 ((wp_bind _ _).2 (wp_ofElements (a := a) hs (fun _ => rfl) fun r _ hr => ?_)))
  refine wp_intersection (a := ⟨a.storage, a.buffer⟩) hself hr (fun _ => rfl) fun result _ hresult => ?_
  rw [wp_ite]
  refine ⟨fun _ => ⟨hresult, .setStorage _⟩, fun hcount => ⟨hself.congr ?_, .refl _⟩⟩
  -- as many members as the set has: it is the set
  have hcount' : result.buffer.count = a.buffer.count := by simpa using hcount
  have hsub : result.members ⊆ a.members := by
    rw [NativeSet.members, hresult.2]
    exact Set.inter_subset_left
  exact (((count_le hresult.1 ha hsub).2 hcount').1.symm.trans hresult.2)

theorem setLaws (ε : Type) (ha : a.buffer.Invariants) (hb : b.buffer.Invariants) (hcoherent : Coherent a b) :
    SetLaws ε a b := by
  have ha' : a.buffer.Holds a.members := ⟨ha, rfl⟩
  have hb' : b.buffer.Holds b.members := ⟨hb, rfl⟩
  exact
    { intersection := wp_intersection ha' hb' (fun _ => rfl) fun r _ h => h
      formSymmetricDifference := fun unique => wp_formSymmetricDifference (v := ⟨a.buffer, unique, false⟩) ha' hb'
        (fun _ => rfl) fun v' h' hisolated => ⟨h', hisolated⟩
      isSubset := wp_isSubset ha' hb' fun _ h => h
      isStrictSubset := wp_isStrictSuperset hb' ha' hcoherent.symm fun _ h => h
      isSuperset := wp_isSubset hb' ha' fun _ h => h
      isStrictSuperset := wp_isStrictSuperset ha' hb' hcoherent fun _ h => h
      isDisjoint := wp_isDisjoint ha' hb' fun _ h => h
      equals := wp_equals ha' hb' hcoherent fun _ h => h
      hashValue := fun heq => ((count_le ha hb heq.subset).2 (Nat.le_antisymm (count_le ha hb heq.subset).1
        (count_le hb ha heq.symm.subset).1)).2 }

end Laws

/-! ## Runs -/

def Heap.set (h : Heap ι κ Unit) (x : ι) : NativeSet κ := ⟨some (h.refs x), h.buffer x⟩

/-- The laws of two sets of a program, and of one with sequences. -/
structure SetAlgebra (ε : Type) (a b : NativeSet κ) : Prop where
  sequences : ∀ underestimatedCount elements, SequenceLaws ε a (.sequence underestimatedCount elements)
  sequenceOfSet : SequenceLaws ε a (.set b)
  sets : SetLaws ε a b

variable [DecidableEq ι] [Fintype ι]

theorem Reaches.setAlgebra [EquivBEq κ] [LawfulHashable κ] {h : Heap ι κ Unit} {M : ι → List (κ × Unit)}
    (hrun : Reaches ε (fun h op => op.LeavesHole h) h M) (x y : ι) : SetAlgebra ε (h.set x) (h.set y) := by
  have hsound := hrun.sound fun _ _ hole => hole
  have hx : (h.set x).buffer.Invariants := (hsound.represents x).toInvariants
  have hy : (h.set y).buffer.Invariants := (hsound.represents y).toInvariants
  have hcoherent : Coherent (h.set x) (h.set y) := by
    intro i hi hj
    have href : h.refs x = h.refs y := Option.some.inj (hi.trans hj.symm)
    exact congrArg h.storage href
  exact ⟨fun _ _ => sequenceLaws ε hx trivial, sequenceLaws ε hx ⟨hy, hcoherent⟩, setLaws ε hx hy hcoherent⟩

def twoMembers : Heap Bool Nat Unit :=
  ((Operation.setLiteral false [(0, ()), (1, ())] : Operation Bool Nat Unit Unit).perform .initial).2

def copiedMembers : Heap Bool Nat Unit :=
  ((Operation.assign true false : Operation Bool Nat Unit Unit).perform twoMembers).2

def reservedMembers (capacity : Int) : Heap Bool Nat Unit :=
  ((Operation.reserveCapacity true capacity : Operation Bool Nat Unit Unit).perform copiedMembers).2

theorem reaches_copiedMembers (allowed : Heap Bool Nat Unit → Operation Bool Nat Unit Unit → Prop)
    (hliteral : ∀ h x elements, allowed h (.setLiteral x elements)) (hassign : ∀ h x y, allowed h (.assign x y)) :
    ∃ M, Reaches Unit allowed copiedMembers M := by
  have hperforms : (Operation.setLiteral false [(0, ()), (1, ())] : Operation Bool Nat Unit Unit).perform .initial =
    (.ok (), twoMembers) := Prod.ext rfl rfl
  have hfirst := Reaches.step (.setLiteral false [(0, ()), (1, ())]) .initial trivial (hliteral _ _ _) hperforms
  have hperforms' : (Operation.assign true false : Operation Bool Nat Unit Unit).perform twoMembers =
    (.ok (), copiedMembers) := Prod.ext rfl rfl
  exact ⟨_, hfirst.step (.assign true false) trivial (hassign _ _ _) hperforms'⟩

theorem setAlgebra_copiedMembers : SetAlgebra Unit (copiedMembers.set false) (copiedMembers.set true) := by
  obtain ⟨M, hrun⟩ := reaches_copiedMembers (fun h op => op.LeavesHole h) (fun _ _ _ => trivial) fun _ _ _ => trivial
  exact hrun.setAlgebra false true

/-- The copy has two buckets and two members: the union with a third never ends. -/
theorem not_setAlgebra_reservedMembers : ¬ ∀ (h : Heap Bool Nat Unit) (M : Bool → List (Nat × Unit)),
    Reaches Unit (fun _ _ => True) h M → ∀ x y, SetAlgebra Unit (h.set x) (h.set y) := by
  intro hclaim
  obtain ⟨M, hrun⟩ := reaches_copiedMembers (fun _ _ => True) (fun _ _ _ => trivial) fun _ _ _ => trivial
  have hperforms : (Operation.reserveCapacity true 0 : Operation Bool Nat Unit Unit).perform copiedMembers =
    (.ok (), reservedMembers 0) := Prod.ext rfl rfl
  have hreserved := hrun.step (.reserveCapacity true 0) trivial trivial hperforms
  have hunion := ((hclaim _ _ hreserved true true).sequences 1 [2]).union
  have hnever : (((Elements.sequence 1 [2]).union ((reservedMembers 0).set true) :
    Prog Unit (Stop Unit) (NativeSet Nat)) ()) = (.error .neverEnds, ()) := rfl
  unfold Computes wp at hunion
  rw [hnever] at hunion
  exact absurd hunion (by decide)

end SwiftKStdlib.HashedCollections
