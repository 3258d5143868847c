import Mathlib.Data.List.Forall2
import Mathlib.Data.List.Pairwise
import Mathlib.Data.List.Perm.Basic

/-!
# Finite maps as association lists

* `Distinct` : no two entries have equal keys;
* `get`, `Mem`, `erase`, `put`, `modify`, `insertNew` : a map and its updates, for keys with an equivalence `==`;
* `Distinct.get_perm`, `perm_erase`, ... : neither depends on the order of the entries.
-/

namespace SwiftKStdlib.Lib.AssocList

variable {κ ν : Type} [BEq κ] {m m' : List (κ × ν)} {e : κ × ν} {key : κ} {value : ν}

def Distinct (m : List (κ × ν)) : Prop := m.Pairwise fun e e' => (e.1 == e'.1) = false

instance (m : List (κ × ν)) : Decidable (Distinct m) :=
  inferInstanceAs (Decidable (m.Pairwise fun e e' => (e.1 == e'.1) = false))

def get (m : List (κ × ν)) (key : κ) : Option (κ × ν) := m.find? fun e => e.1 == key

def erase (m : List (κ × ν)) (key : κ) : List (κ × ν) := m.filter fun e => !(e.1 == key)

def put (m : List (κ × ν)) (key : κ) (value : ν) : List (κ × ν) := (key, value) :: erase m key

/-- The key's value is changed, or this one inserted. -/
def modify (m : List (κ × ν)) (key : κ) (defaultValue : ν) (f : ν → ν) : List (κ × ν) :=
  match get m key with
  | some e => put m e.1 (f e.2)
  | none => (key, f defaultValue) :: m

def insertNew (m : List (κ × ν)) (key : κ) (value : ν) : List (κ × ν) :=
  if (get m key).isSome then m else (key, value) :: m

def Mem (m : List (κ × ν)) (key : κ) : Prop := ∃ e ∈ m, (e.1 == key) = true

theorem mem_iff_get : Mem m key ↔ (get m key).isSome = true := by
  unfold Mem get
  rw [List.find?_isSome]

@[simp] theorem not_mem_nil : ¬ Mem ([] : List (κ × ν)) key := by
  rintro ⟨e, he, -⟩
  exact List.not_mem_nil he

@[simp] theorem mem_cons : Mem (e :: m) key ↔ (e.1 == key) = true ∨ Mem m key := by
  unfold Mem
  simp only [List.mem_cons, or_and_right, exists_or, exists_eq_left]

theorem mem_perm (h : m.Perm m') : Mem m key ↔ Mem m' key := by
  unfold Mem
  simp only [h.mem_iff]

theorem get_eq_none : get m key = none ↔ ∀ e ∈ m, (e.1 == key) = false := by
  unfold get
  simp only [List.find?_eq_none, Bool.not_eq_true]

theorem mem_of_get (h : get m key = some e) : e ∈ m := List.mem_of_find?_eq_some h

theorem beq_of_get (h : get m key = some e) : (e.1 == key) = true := by
  exact List.find?_some (p := fun e : κ × ν => e.1 == key) h

theorem mem_erase : e ∈ erase m key ↔ e ∈ m ∧ (e.1 == key) = false := by
  unfold erase
  simp only [List.mem_filter, Bool.not_eq_true']

theorem erase_eq_self (h : ∀ e ∈ m, (e.1 == key) = false) : erase m key = m := by
  unfold erase
  rw [List.filter_eq_self]
  intro e he
  rw [h e he]
  rfl

theorem put_of_get (h : get m key = none) : put m key value = (key, value) :: m := by
  unfold put
  rw [erase_eq_self (get_eq_none.1 h)]

theorem erase_of_get (h : get m key = none) : erase m key = m := erase_eq_self (get_eq_none.1 h)

theorem insertNew_of_get (h : get m key = none) : insertNew m key value = (key, value) :: m := by
  unfold insertNew
  rw [h]
  rfl

theorem insertNew_of_get_some (h : get m key = some e) : insertNew m key value = m := by
  unfold insertNew
  rw [h]
  rfl

theorem length_insertNew : m.length ≤ (insertNew m key value).length := by
  unfold insertNew
  split_ifs
  · exact Nat.le_refl _
  · exact Nat.le_succ _

theorem perm_erase (key : κ) (h : m.Perm m') : (erase m key).Perm (erase m' key) := h.filter _

theorem perm_put (h : m.Perm m') : (put m key value).Perm (put m' key value) := (perm_erase key h).cons _

theorem Distinct.erase (h : Distinct m) : Distinct (erase m key) := h.filter _

variable [EquivBEq κ]

theorem Distinct.perm (h : Distinct m) (hp : m.Perm m') : Distinct m' :=
  hp.pairwise h fun h => BEq.comm.trans h

theorem Distinct.eq_of_beq (h : Distinct m) {e e' : κ × ν} (he : e ∈ m) (he' : e' ∈ m) (hk : (e.1 == e'.1) = true) :
    e = e' := by
  have : Std.Symm fun e e' : κ × ν => (e.1 == e'.1) = false := ⟨fun _ _ h => BEq.comm.trans h⟩
  by_contra hne
  have hfalse := List.Pairwise.forall h he he' hne
  exact Bool.false_ne_true (hfalse.symm.trans hk)

theorem Distinct.get_eq_some (h : Distinct m) : get m key = some e ↔ e ∈ m ∧ (e.1 == key) = true := by
  constructor
  · intro hget
    exact ⟨mem_of_get hget, beq_of_get hget⟩
  · rintro ⟨he, hk⟩
    cases hget : get m key with
    | none => exact absurd hk (by rw [get_eq_none.1 hget e he]; exact Bool.false_ne_true)
    | some e' =>
      have hk' := beq_of_get hget
      rw [h.eq_of_beq (mem_of_get hget) he (BEq.trans hk' (BEq.symm hk))]

theorem Distinct.get_perm (h : Distinct m) (hp : m.Perm m') (key : κ) : get m key = get m' key := by
  apply Option.ext
  intro e
  rw [h.get_eq_some, (h.perm hp).get_eq_some, hp.mem_iff]

theorem Distinct.put (h : Distinct m) : Distinct (put m key value) := by
  refine List.pairwise_cons.2 ⟨fun e he => ?_, h.erase⟩
  rw [BEq.comm]
  exact (mem_erase.1 he).2

theorem Distinct.erase_cons (h : Distinct (e :: m)) (hk : (e.1 == key) = true) : AssocList.erase (e :: m) key = m := by
  have hrest : ∀ e' ∈ m, (e'.1 == key) = false := by
    intro e' he'
    have hne := (List.pairwise_cons.1 h).1 e' he'
    apply Bool.eq_false_iff.2
    intro hk'
    exact Bool.false_ne_true (hne.symm.trans (BEq.trans hk (BEq.symm hk')))
  unfold AssocList.erase
  rw [List.filter_cons_of_neg (by simp [hk])]
  exact erase_eq_self hrest

theorem Distinct.perm_cons_erase (h : Distinct m) (he : e ∈ m) (hk : (e.1 == key) = true) :
    m.Perm (e :: AssocList.erase m key) := by
  obtain ⟨l, l', rfl⟩ := List.append_of_mem he
  have hp : (l ++ e :: l').Perm (e :: (l ++ l')) := List.perm_middle
  have hrest := perm_erase key hp
  rw [Distinct.erase_cons (h.perm hp) hk] at hrest
  exact hp.trans (hrest.symm.cons e)

theorem Distinct.length_put (h : Distinct m) (he : get m key = some e) : (AssocList.put m key value).length = m.length :=
  (h.perm_cons_erase (mem_of_get he) (beq_of_get he)).length_eq.symm

theorem mem_congr {key' : κ} (h : (key == key') = true) : Mem m key ↔ Mem m key' := by
  unfold Mem
  exact exists_congr fun e => and_congr_right fun _ => ⟨fun hk => BEq.trans hk h, fun hk => BEq.trans hk (BEq.symm h)⟩

theorem beq_false_of {k k' key : κ} (h : (k == k') = false) (hk : (k == key) = true) : (k' == key) = false := by
  apply Bool.eq_false_iff.2
  intro hk'
  exact Bool.false_ne_true (h.symm.trans (BEq.trans hk (BEq.symm hk')))

theorem mem_erase_iff {k : κ} : Mem (AssocList.erase m k) key ↔ Mem m key ∧ (k == key) = false := by
  unfold Mem
  constructor
  · rintro ⟨e, he, hk⟩
    obtain ⟨hmem, hne⟩ := mem_erase.1 he
    exact ⟨⟨e, hmem, hk⟩, beq_false_of hne hk⟩
  · rintro ⟨⟨e, he, hk⟩, hne⟩
    refine ⟨e, mem_erase.2 ⟨he, ?_⟩, hk⟩
    apply Bool.eq_false_iff.2
    intro hek
    exact Bool.false_ne_true (hne.symm.trans (BEq.trans (BEq.symm hek) hk))

theorem mem_insertNew_iff {k : κ} : Mem (AssocList.insertNew m k value) key ↔ Mem m key ∨ (k == key) = true := by
  unfold AssocList.insertNew
  split_ifs with hget
  · rw [or_iff_left_of_imp]
    intro hk
    exact (mem_congr hk).1 (mem_iff_get.2 hget)
  · rw [mem_cons, or_comm]

theorem Distinct.exists_forall₂ (h : Distinct m) (h' : Distinct m') (hsub : ∀ e ∈ m, Mem m' e.1) :
    ∃ l rest, m'.Perm (l ++ rest) ∧ List.Forall₂ (fun e e' => (e'.1 == e.1) = true) m l := by
  induction m generalizing m' with
  | nil => exact ⟨[], m', .refl _, .nil⟩
  | cons e m ih =>
    obtain ⟨hfirst, hrest⟩ := List.pairwise_cons.1 h
    obtain ⟨e', he', hk⟩ := hsub e List.mem_cons_self
    have hperm := h'.perm_cons_erase he' hk
    obtain ⟨l, rest, hl, hall⟩ := ih hrest h'.erase fun e'' he'' => mem_erase_iff.2
      ⟨hsub e'' (List.mem_cons_of_mem _ he''), hfirst e'' he''⟩
    exact ⟨e' :: l, rest, hperm.trans (hl.cons e'), .cons hk hall⟩

theorem mem_forall₂ {l : List (κ × ν)} (h : List.Forall₂ (fun e e' => (e'.1 == e.1) = true) m l) :
    Mem l key ↔ Mem m key := by
  induction h with
  | nil => rfl
  | cons hk _ ih =>
    rw [mem_cons, mem_cons, ih]
    exact or_congr_left ⟨fun h => BEq.trans (BEq.symm hk) h, fun h => BEq.trans hk h⟩

end SwiftKStdlib.Lib.AssocList
