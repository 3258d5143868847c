import SwiftKStdlib.HashedCollections.Invariants

/-!
# Merging, and literals

* `merged` : the left fold of the pairs up to the one where `combine` throws;
* `wp_nativeMerge` : what `nativeMerge` leaves, whether it returns or throws;
* `wp_fromArray`, `wp_setFromArray` : the tables of literals.
-/

namespace SwiftKStdlib.HashedCollections
open Lib Lib.Probing Lib.AssocList Lib.Prog

variable {κ ν ε : Type} [BEq κ]

def merged (combine : ν → ν → Except ε ν) : List (κ × ν) → List (κ × ν) → List (κ × ν) × Option ε
  | [], m => (m, none)
  | (key, value) :: keysAndValues, m =>
    match get m key with
    | none => merged combine keysAndValues ((key, value) :: m)
    | some e =>
      match combine e.2 value with
      | .ok newValue => merged combine keysAndValues (put m key newValue)
      | .error err => (m, some err)

variable [Hashable κ] [EquivBEq κ] [LawfulHashable κ] {s : Variant κ ν} {m : List (κ × ν)}
  {E : Stop ε → Variant κ ν → Prop} {combine : ν → ν → Except ε ν}

theorem wp_nativeMerge {Q : Unit → Variant κ ν → Prop} {keysAndValues : List (κ × ν)} (h : s.asNative.Represents m)
    (hE : ∀ s', E .noCapacity s')
    (hthrows : ∀ e s', (merged combine keysAndValues m).2 = some e →
      s'.asNative.Represents (merged combine keysAndValues m).1 → Isolated s s' → E (.throws e) s')
    (hQ : ∀ s', (merged combine keysAndValues m).2 = none →
      s'.asNative.Represents (merged combine keysAndValues m).1 → Isolated s s' → Q () s') :
    wp (nativeMerge combine keysAndValues) Q E s := by
  induction keysAndValues generalizing s m with
  | nil => exact hQ s rfl h (.refl s)
  | cons pair keysAndValues ih =>
    obtain ⟨key, value⟩ := pair
    unfold nativeMerge
    unfold merged at hthrows hQ
    rw [wp_bind, wp_asNative, wp_bind]
    refine wp_find h key (fun i e hpos hi he hk hget => ?_) fun i hpos hget => ?_
    · simp only [hget] at hthrows hQ
      simp only [if_true, wp_bind]
      refine wp_ensureAt h hi he fun _ s₁ h₁ hisolated hu hi' he' => ?_
      rw [wp_asNative]
      refine wp_initialized he' ?_
      cases hcombine : combine e.2 value with
      | error err =>
        simp only [hcombine] at hthrows ⊢
        exact hthrows err s₁ rfl h₁ hisolated
      | ok newValue =>
        simp only [hcombine] at hthrows hQ ⊢
        rw [wp_bind, wp_setNative]
        have hisolated' := hisolated.setNative hu (s₁.asNative.setKey key newValue i)
        refine ih (h₁.setKey hi' he' hk) (fun err s' herr h' hrest => ?_) fun s' hnone h' hrest => ?_
        · exact hthrows err s' herr h' (hisolated'.trans hrest)
        · exact hQ s' hnone h' (hisolated'.trans hrest)
    · simp only [hget] at hthrows hQ
      simp only [Bool.false_eq_true, if_false, wp_bind]
      refine wp_insertAbsent h hpos (fun _ => hE s) fun j s₁ h₁ hinserted => ?_
      refine ih h₁ (fun err s' herr h' hrest => ?_) fun s' hnone h' hrest => ?_
      · exact hthrows err s' herr h' (hinserted.isolated.trans hrest)
      · exact hQ s' hnone h' (hinserted.isolated.trans hrest)

/-! ## Literals -/

section Literals

variable {σ : Type} {s : σ} {E : Stop ε → σ → Prop} {b : Buffer κ ν} {elements : List (κ × ν)}

theorem wp_initializeKeys {Q : Buffer κ ν → σ → Prop} (h : b.Table) (hd : Distinct (b.toList ++ elements))
    (hroom : b.toList.length + elements.length < b.capacity)
    (hQ : ∀ b' : Buffer κ ν, b'.Table → b'.toList.Perm (b.toList ++ elements) → Q b' s) :
    wp (initializeKeys elements b) Q E s := by
  induction elements generalizing b with
  | nil => exact hQ b h (by rw [List.append_nil])
  | cons e elements ih =>
    obtain ⟨key, value⟩ := e
    unfold initializeKeys
    rw [wp_bind]
    refine wp_ends (h.find key) fun ⟨i, found⟩ hpos => ?_
    cases hpos with
    | found lt entry beq =>
      have hfalse := (List.pairwise_append.1 hd).2.2 _ (Buffer.mem_toList.2 ⟨i, lt, entry⟩) _ (List.mem_cons_self ..)
      exact absurd (hfalse.symm.trans beq) Bool.false_ne_true
    | absent lt hole first absent =>
      simp only [Bool.false_eq_true, if_false]
      rw [List.length_cons] at hroom
      have hlist := Buffer.toList_initializeKey key value lt hole
      have hperm : ((b.initializeKey key value i).toList ++ elements).Perm (b.toList ++ (key, value) :: elements) :=
        (hlist.append_right elements).trans List.perm_middle.symm
      refine ih (h.initializeKey value (.absent lt hole first absent) (by omega)) (hd.perm hperm.symm) ?_
        fun b' h' hperm' => hQ b' h' (hperm'.trans hperm)
      rw [hlist.length_eq, List.length_cons]
      show b.toList.length + 1 + elements.length < b.capacity
      omega

theorem wp_fromArray {Q : Buffer κ ν → σ → Prop} (hd : Distinct elements) (hE : E .noCapacity s)
    (hQ : ∀ b : Buffer κ ν, b.Represents elements → Q b s) : wp (fromArray elements) Q E s := by
  unfold fromArray
  rw [wp_bind]
  refine wp_withMinimumCapacity (fun _ => hE) fun c _ ⟨k, _, h62, hk⟩ hle => ?_
  rw [wp_bind]
  have hlist : (Buffer.ofCapacity c : Buffer κ ν).toList = [] := Buffer.toList_ofCapacity
  have hroom : elements.length < c := by
    unfold Buffer.minimumCapacity at hle
    omega
  refine wp_initializeKeys (.ofCapacity ⟨k, h62, hk⟩) (by rwa [hlist]) (by rw [hlist]; show 0 + elements.length < c; omega)
    fun b h hperm => ?_
  rw [hlist, List.nil_append] at hperm
  rw [wp_pure]
  exact hQ _ ((h.setCount _).represents rfl hperm)

def inserted (elements m : List (κ × ν)) : List (κ × ν) := elements.foldl (fun m e => insertNew m e.1 e.2) m

theorem wp_initializeMembers {Q : Buffer κ ν → σ → Prop} {m : List (κ × ν)} {count : Nat} (h : b.Table)
    (hcount : count = m.length) (hperm : b.toList.Perm m) (hroom : b.toList.length + elements.length < b.capacity)
    (hQ : ∀ b' : Buffer κ ν, b'.Represents (inserted elements m) → Q b' s) :
    wp (initializeMembers elements b count) Q E s := by
  induction elements generalizing b m count with
  | nil => exact hQ _ ((h.setCount count).represents hcount hperm)
  | cons e elements ih =>
    obtain ⟨key, value⟩ := e
    unfold initializeMembers
    have hm : (b.setCount count).Represents m := (h.setCount count).represents hcount hperm
    rw [List.length_cons] at hroom
    rw [wp_bind]
    refine wp_find hm key (fun i e _ _ _ _ hget => ?_) fun i hpos hget => ?_
    · refine ih h hcount hperm (by omega) fun b' h' => hQ b' ?_
      unfold inserted at h' ⊢
      rw [List.foldl_cons, insertNew_of_get_some hget]
      exact h'
    · simp only [Bool.false_eq_true, if_false]
      obtain - | ⟨lt, hole, first, absent⟩ := hpos
      have hlist := Buffer.toList_initializeKey (b := b) key value lt hole
      refine ih (h.initializeKey value (.absent lt hole first absent) (by omega)) ?_ (hlist.trans (hperm.cons _)) ?_
        fun b' h' => hQ b' ?_
      · rw [List.length_cons, hcount]
      · rw [hlist.length_eq, List.length_cons]
        show b.toList.length + 1 + elements.length < b.capacity
        omega
      · unfold inserted at h' ⊢
        rw [List.foldl_cons, insertNew_of_get hget]
        exact h'

theorem wp_setFromArray {Q : Buffer κ ν → σ → Prop} (hE : E .noCapacity s)
    (hQ : ∀ b : Buffer κ ν, b.Represents (inserted elements []) → Q b s) : wp (setFromArray elements) Q E s := by
  unfold setFromArray
  rw [wp_bind]
  refine wp_withMinimumCapacity (fun _ => hE) fun c _ ⟨k, _, h62, hk⟩ hle => ?_
  have hlist : (Buffer.ofCapacity c : Buffer κ ν).toList = [] := Buffer.toList_ofCapacity
  have hroom : elements.length < c := by
    unfold Buffer.minimumCapacity at hle
    omega
  refine wp_initializeMembers (.ofCapacity ⟨k, h62, hk⟩) rfl (by rw [hlist]) ?_ hQ
  rw [hlist]
  show 0 + elements.length < c
  omega

end Literals

end SwiftKStdlib.HashedCollections
