import SwiftKStdlib.Strings.StringCore

/-!
# Appending a sequence to a `_StringCore`

* `Storage.set_eq_some`, `growBuffer_grown`, `append_appended` : what the operations do to the units of a
  string, whatever its buffer;
* `storeInitial_stored`, `appendRemaining_appended` : the two loops of `append(contentsOf:)`;
* `appendsExactly_iff` : when the units of a sequence are appended, each at a width that holds it.
-/

namespace SwiftKStdlib.Strings

def IsASCII (u : BitVec 16) : Prop := u.toNat ≤ 0x7f

instance (u : BitVec 16) : Decidable (IsASCII u) := inferInstanceAs (Decidable (_ ≤ _))

/-! ## Storage -/

namespace Storage

variable {s s' : Storage} {u : BitVec 16} {i n : Nat}

theorem count_eq (s : Storage) : s.count = s.units.length := by
  cases s with
  | ascii l => simp [count, units]
  | utf16 l => rfl

theorem elementWidth_cases (s : Storage) : s.elementWidth = 1 ∨ s.elementWidth = 2 := by
  cases s with
  | ascii units => exact .inl rfl
  | utf16 units => exact .inr rfl

@[simp] theorem elementWidth_extend (s : Storage) (n : Nat) : (s.extend n).elementWidth = s.elementWidth := by
  cases s <;> rfl

theorem units_extend (s : Storage) (n : Nat) :
    (s.extend n).units = s.units ++ List.replicate (n - s.count) 0 := by
  cases s with
  | ascii l => simp [extend, units, count]
  | utf16 l => rfl

theorem utf8CodeUnit_eq_some {x : BitVec 8} (h : utf8CodeUnit u = some x) : x.setWidth 16 = u := by
  rw [utf8CodeUnit] at h
  split at h
  next hle =>
    cases h
    apply BitVec.eq_of_toNat_eq
    simp
    omega
  next => cases h

theorem utf8CodeUnit_of_ascii (h : IsASCII u) : utf8CodeUnit u = some (u.setWidth 8) := by
  rw [utf8CodeUnit, if_pos]
  exact le_trans h (by decide)

theorem set_eq_some (h : s.set i u = some s') :
    s'.units = s.units.set i u ∧ s'.elementWidth = s.elementWidth := by
  cases s with
  | ascii units =>
      obtain ⟨x, hx, h⟩ := Option.bind_eq_some_iff.1 h
      cases h
      exact ⟨by rw [Storage.units, Storage.units, List.map_set, utf8CodeUnit_eq_some hx], rfl⟩
  | utf16 units =>
      cases h
      exact ⟨rfl, rfl⟩

theorem exists_set (h : s.elementWidth = 1 → IsASCII u) : ∃ s', s.set i u = some s' := by
  cases s with
  | ascii units => exact ⟨_, by rw [set, utf8CodeUnit_of_ascii (h rfl)]; rfl⟩
  | utf16 units => exact ⟨_, rfl⟩

theorem isRepresentableAsASCII_iff : s.isRepresentableAsASCII = true ↔
    s.elementWidth = 1 ∨ ∀ u ∈ s.units, IsASCII u := by
  cases s with
  | ascii l => simp [isRepresentableAsASCII, elementWidth]
  | utf16 l => simp [isRepresentableAsASCII, elementWidth, units, IsASCII]

theorem mapM_utf8CodeUnit {l : List (BitVec 16)} (h : ∀ u ∈ l, IsASCII u) :
    ∃ l', l.mapM utf8CodeUnit = some l' ∧ l'.map (BitVec.setWidth 16) = l := by
  induction l with
  | nil => exact ⟨[], rfl, rfl⟩
  | cons u l ih =>
      obtain ⟨l', hl', heq⟩ := ih fun x hx => h x (List.mem_cons_of_mem u hx)
      have hu := utf8CodeUnit_of_ascii (h u List.mem_cons_self)
      refine ⟨u.setWidth 8 :: l', by simp [hu, hl'], ?_⟩
      rw [List.map_cons, heq, utf8CodeUnit_eq_some hu]

theorem exists_copyElements {width : Nat} (hwidth : width = 1 ∨ width = 2)
    (h : width = 1 → s.isRepresentableAsASCII = true) :
    ∃ s', s.copyElements width = some s' ∧ s'.units = s.units ∧ s'.elementWidth = width := by
  cases s with
  | ascii l =>
      rcases hwidth with rfl | rfl
      · exact ⟨ascii l, rfl, rfl, rfl⟩
      · exact ⟨utf16 _, rfl, rfl, rfl⟩
  | utf16 l =>
      rcases hwidth with rfl | rfl
      · have hl : ∀ u ∈ l, IsASCII u :=
          (isRepresentableAsASCII_iff.1 (h rfl)).resolve_left (by simp [elementWidth])
        obtain ⟨l', hl', heq⟩ := mapM_utf8CodeUnit hl
        exact ⟨ascii l', by simp [copyElements, hl'], heq, rfl⟩
      · exact ⟨utf16 l, rfl, rfl, rfl⟩

end Storage

/-! ## Growing the buffer -/

section Growing

variable {heapCapacity : Nat → Nat} {core core' : StringCore} {a a' : Appending} {u : BitVec 16}
  {newSize minElementWidth : Nat}

def StringCore.Fits (core : StringCore) : Prop := core.elementWidth = 1 → ∀ u ∈ core.units, IsASCII u

/-- The string `core'` is `core` with room for elements up to `newSize`, of at least the width asked
for. -/
structure Grown (core : StringCore) (newSize minElementWidth : Nat) (core' : StringCore) : Prop where
  units : core'.units = core.units ++ List.replicate (newSize - core.count) 0
  wide : minElementWidth ≤ core'.elementWidth
  notWider : core.elementWidth ≤ minElementWidth → core'.elementWidth = minElementWidth
  fits : core.Fits → core'.elementWidth = 1 → ∀ u ∈ core.units, IsASCII u

theorem elementWidth_cases (core : StringCore) : core.elementWidth = 1 ∨ core.elementWidth = 2 :=
  core.storage.elementWidth_cases

theorem newElementWidth_spec (core : StringCore) (hmin : minElementWidth = 1 ∨ minElementWidth = 2) :
    (core.newElementWidth minElementWidth = 1 ∨ core.newElementWidth minElementWidth = 2) ∧
      minElementWidth ≤ core.newElementWidth minElementWidth ∧
      (core.elementWidth ≤ minElementWidth → core.newElementWidth minElementWidth = minElementWidth) ∧
      (core.newElementWidth minElementWidth = 1 → core.storage.isRepresentableAsASCII = true) := by
  have hcases := elementWidth_cases core
  rw [StringCore.newElementWidth]
  by_cases hle : core.elementWidth ≤ minElementWidth
  · rw [if_pos hle]
    refine ⟨hmin, le_rfl, fun _ => rfl, fun h1 => ?_⟩
    have hwidth : core.storage.elementWidth = 1 := by
      change core.elementWidth = 1
      omega
    exact Storage.isRepresentableAsASCII_iff.2 (.inl hwidth)
  · have hmin' : minElementWidth = 1 := by omega
    rw [if_neg hle, hmin']
    by_cases hascii : core.storage.isRepresentableAsASCII = true
    · rw [if_pos hascii]
      exact ⟨.inl rfl, le_rfl, fun _ => rfl, fun _ => hascii⟩
    · rw [if_neg hascii]
      exact ⟨.inr rfl, by omega, fun h => by omega, fun h => absurd h (by decide)⟩

theorem copyInPlace_grown (newCapacity : Nat) (hmin : minElementWidth = 1 ∨ minElementWidth = 2) :
    ∃ core', core.copyInPlace heapCapacity newSize newCapacity minElementWidth = some core' ∧
      Grown core newSize minElementWidth core' := by
  obtain ⟨hwidth, hwide, hnotWider, hascii⟩ := newElementWidth_spec core hmin
  obtain ⟨copied, hcopied, hunits, hcopiedWidth⟩ := Storage.exists_copyElements hwidth hascii
  have hcount : copied.count = core.count := by
    rw [StringCore.count, Storage.count_eq, Storage.count_eq, hunits]
  refine ⟨⟨copied.extend newSize, _⟩, by rw [StringCore.copyInPlace, hcopied]; rfl, ?_, ?_, ?_, ?_⟩
  · change (copied.extend newSize).units = core.storage.units ++ _
    rw [Storage.units_extend, hunits, hcount]
  · simpa [StringCore.elementWidth, hcopiedWidth] using hwide
  · simpa [StringCore.elementWidth, hcopiedWidth] using hnotWider
  · intro hfits h1
    rw [StringCore.elementWidth, Storage.elementWidth_extend, hcopiedWidth] at h1
    rcases Storage.isRepresentableAsASCII_iff.1 (hascii h1) with hcore | hall
    · exact hfits hcore
    · exact hall

theorem claimCapacity_grown {capacity : Nat}
    (h : core.claimCapacity newSize minElementWidth = (capacity, some core')) :
    Grown core newSize minElementWidth core' := by
  rw [StringCore.claimCapacity] at h
  split at h
  · cases h
  next buffer _ =>
    split at h
    next hclaim =>
      split at h
      · cases h
        have hwidth : (core.storage.extend newSize).elementWidth = core.elementWidth :=
          Storage.elementWidth_extend _ _
        refine ⟨Storage.units_extend _ _, hclaim.1.trans hwidth.ge, fun hle => ?_, fun hfits h1 => ?_⟩
        · exact hwidth.trans (le_antisymm hle hclaim.1)
        · exact hfits (hwidth.symm.trans h1)
      · split at h <;> cases h
    next => cases h

theorem growBuffer_grown (heapCapacity : Nat → Nat) (core : StringCore) (newSize : Nat)
    (hmin : minElementWidth = 1 ∨ minElementWidth = 2) :
    ∃ core', core.growBuffer heapCapacity newSize minElementWidth = some core' ∧
      Grown core newSize minElementWidth core' := by
  rw [StringCore.growBuffer]
  split
  next core' hclaim => exact ⟨core', rfl, claimCapacity_grown hclaim⟩
  next newCapacity hclaim => exact copyInPlace_grown newCapacity hmin

end Growing

/-! ## Storing units -/

section Storing

variable {heapCapacity : Nat → Nat} {a a' : Appending} {u : BitVec 16} {pre l iter : List (BitVec 16)}

theorem store_eq_some {i : Nat} (h : a.store i u = some a') :
    a'.core.units = a.core.units.set i u ∧ a'.core.elementWidth = a.core.elementWidth ∧
      a'.stores = a.stores ++ [⟨a.core.elementWidth, u⟩] := by
  obtain ⟨storage, hset, h⟩ := Option.bind_eq_some_iff.1 h
  cases h
  obtain ⟨hunits, hwidth⟩ := Storage.set_eq_some hset
  exact ⟨hunits, hwidth, rfl⟩

theorem exists_store (i : Nat) (h : a.core.elementWidth = 1 → IsASCII u) : ∃ a', a.store i u = some a' := by
  obtain ⟨storage, hset⟩ := Storage.exists_set (i := i) h
  exact ⟨_, by rw [Appending.store, hset]; rfl⟩

theorem append_appended (heapCapacity : Nat → Nat) (a : Appending) (u : BitVec 16) :
    ∃ a', a.append heapCapacity u none = some a' ∧ a'.core.units = a.core.units ++ [u] ∧
      a'.stores = a.stores ++ [⟨a'.core.elementWidth, u⟩] ∧ (a'.core.elementWidth = 1 → IsASCII u) ∧
      (a.core.Fits → a'.core.Fits) := by
  have hmin : (if u.toNat ≤ 0x7f then 1 else 2) = 1 ∨ (if u.toNat ≤ 0x7f then 1 else 2) = 2 := by
    split
    · exact .inl rfl
    · exact .inr rfl
  obtain ⟨core, hgrow, hgrown⟩ := growBuffer_grown heapCapacity a.core
    (a.core.count + 1) hmin
  have hascii : core.elementWidth = 1 → IsASCII u := fun h1 => by
    have hwide := hgrown.wide
    rw [h1] at hwide
    by_contra hnot
    rw [if_neg (show ¬ u.toNat ≤ 0x7f from hnot)] at hwide
    omega
  obtain ⟨a', hstore⟩ := exists_store (a := { a with core }) a.core.count hascii
  obtain ⟨hunits, hwidth, hstores⟩ := store_eq_some hstore
  have hcount : a.core.units.length = a.core.count := (Storage.count_eq a.core.storage).symm
  have hunits' : a'.core.units = a.core.units ++ [u] := by
    rw [hunits]
    change core.units.set _ u = _
    rw [hgrown.units, Nat.add_sub_cancel_left, ← hcount, List.replicate_one, List.set_append_right _ _ le_rfl,
      Nat.sub_self]
    rfl
  refine ⟨a', ?_, hunits', by rw [hstores, hwidth], fun h1 => hascii (hwidth ▸ h1), fun hfits h1 => ?_⟩
  · rw [Appending.append]
    simp only [Option.isNone_none, if_true, Appending.growBuffer, hgrow, Option.bind_eq_bind,
      Option.bind_some, hstore, ite_self]
  · rw [hunits']
    intro x hx
    have h1' : core.elementWidth = 1 := hwidth.symm.trans h1
    rcases List.mem_append.1 hx with hx | hx
    · exact hgrown.fits hfits h1' x hx
    · rw [List.mem_singleton.1 hx]
      exact hascii h1'

/-- What a loop that appends the units `l` has done. -/
structure Appended (a : Appending) (l : List (BitVec 16)) (a' : Appending) : Prop where
  units : a'.core.units = a.core.units ++ l
  stores : ∃ stores, a'.stores = a.stores ++ stores ∧ stores.map Store.unit = l ∧
    ∀ st ∈ stores, st.elementWidth = 1 → IsASCII st.unit
  fits : a.core.Fits → a'.core.Fits

theorem appendRemaining_appended (heapCapacity : Nat → Nat) (a : Appending) (iter : List (BitVec 16)) :
    ∃ a', a.appendRemaining heapCapacity iter = some a' ∧ Appended a iter a' := by
  induction iter generalizing a with
  | nil => exact ⟨a, rfl, ⟨by simp, ⟨[], by simp, rfl, by simp⟩, id⟩⟩
  | cons u iter ih =>
      obtain ⟨a₁, happend, hunits, hstores, hascii, hfits⟩ := append_appended heapCapacity a u
      obtain ⟨a₂, hrest, hdone⟩ := ih a₁
      obtain ⟨stores, hstores', hmap, hall⟩ := hdone.stores
      refine ⟨a₂, ?_, ?_, ⟨⟨a₁.core.elementWidth, u⟩ :: stores, ?_, ?_, ?_⟩, hdone.fits ∘ hfits⟩
      · rw [Appending.appendRemaining, List.foldlM_cons, happend]
        exact hrest
      · rw [hdone.units, hunits, List.append_assoc]
        rfl
      · rw [hstores', hstores, List.append_assoc]
        rfl
      · rw [List.map_cons, hmap]
      · intro st hst
        rcases List.mem_cons.1 hst with rfl | hst
        · exact hascii
        · exact hall st hst

theorem storeInitial_eq_some {growth destination : Nat} {iter' : List (BitVec 16)}
    (hpre : pre.length = destination) (hunits : a.core.units = pre ++ l) (hlength : l.length = growth)
    (h : a.storeInitial destination growth iter = some (iter', a')) :
    iter' = iter.drop growth ∧ a'.core.units = pre ++ iter.take growth ∧
      a'.core.elementWidth = a.core.elementWidth ∧
      a'.stores = a.stores ++ (iter.take growth).map fun u => ⟨a.core.elementWidth, u⟩ := by
  induction growth generalizing a iter pre l destination with
  | zero =>
      cases h
      rw [List.length_eq_zero_iff.1 hlength] at hunits
      exact ⟨rfl, hunits, rfl, by simp⟩
  | succ growth ih =>
      rcases iter with _ | ⟨u, iter⟩
      · cases h
      obtain ⟨a₁, hstore, h⟩ := Option.bind_eq_some_iff.1 h
      obtain ⟨hunits₁, hwidth₁, hstores₁⟩ := store_eq_some hstore
      obtain ⟨x, l, rfl⟩ := List.exists_cons_of_length_eq_add_one hlength
      have hset : a₁.core.units = (pre ++ [u]) ++ l := by
        rw [hunits₁, hunits, ← hpre, List.set_append_right _ _ le_rfl, Nat.sub_self, List.set_cons_zero,
          List.append_assoc, List.singleton_append]
      have hdestination : (pre ++ [u]).length = destination + 1 := by simp [hpre]
      obtain ⟨hiter, hunits', hwidth, hstores⟩ := ih hdestination hset (by simpa using hlength) h
      refine ⟨hiter, by simpa using hunits', hwidth.trans hwidth₁, ?_⟩
      rw [hstores, hstores₁, hwidth₁, List.append_assoc]
      rfl

theorem exists_storeInitial {growth : Nat} (destination : Nat) (hgrowth : growth ≤ iter.length)
    (h : a.core.elementWidth = 1 → ∀ u ∈ iter.take growth, IsASCII u) :
    ∃ r, a.storeInitial destination growth iter = some r := by
  induction growth generalizing a iter destination with
  | zero => exact ⟨_, rfl⟩
  | succ growth ih =>
      rcases iter with _ | ⟨u, iter⟩
      · simp at hgrowth
      obtain ⟨a₁, hstore⟩ := exists_store (a := a) (u := u) destination fun h1 => h h1 u (by simp)
      have hwidth₁ := (store_eq_some hstore).2.1
      have hrest : a₁.core.elementWidth = 1 → ∀ u ∈ iter.take growth, IsASCII u := fun h1 x hx =>
        h (hwidth₁.symm.trans h1) x (by simp [hx])
      obtain ⟨r, hr⟩ := ih (destination + 1) (by simpa using hgrowth) hrest
      exact ⟨r, by rw [Appending.storeInitial, hstore]; exact hr⟩

end Storing

/-! ## `append(contentsOf:)` -/

/-- `append(contentsOf:)` returns; the string has the units of the sequence at its end, each was stored
once and in order, and none of them that is not ASCII as an element of 8 bits. -/
def AppendsExactly (heapCapacity : Nat → Nat) (core : StringCore) (s : CodeUnitSequence) : Prop :=
  ∃ a, core.appendContentsOf heapCapacity s = some a ∧ a.core.units = core.units ++ s.units ∧
    a.stores.map Store.unit = s.units ∧ (∀ st ∈ a.stores, st.elementWidth = 1 → IsASCII st.unit) ∧
    (core.Fits → a.core.Fits)

def CodeUnitSequence.initialUnits (s : CodeUnitSequence) : List (BitVec 16) :=
  s.units.take s.underestimatedCount.toNat

section

variable {heapCapacity : Nat → Nat} {core : StringCore} {s : CodeUnitSequence}

theorem appendWidth_cases (core : StringCore) (s : CodeUnitSequence) :
    (core.appendWidth s = 1 ∨ core.appendWidth s = 2) ∧ core.elementWidth ≤ core.appendWidth s := by
  have hcases := elementWidth_cases core
  rw [StringCore.appendWidth]
  split
  · split
    · split <;> omega
    · omega
  · omega

theorem appendWidth_enough (h : s.isMultiPass = true ∨ core.elementWidth = 2 ∨
    ∀ u ∈ s.initialUnits, IsASCII u) (h1 : core.appendWidth s = 1) : ∀ u ∈ s.initialUnits, IsASCII u := by
  rcases h with hmulti | htwo | hascii
  · intro u hu
    rw [StringCore.appendWidth, CodeUnitSequence.preprocessingPass, hmulti] at h1
    have hle := (appendWidth_cases core s).2
    simp only [if_true] at h1
    split at h1
    · split at h1
      next => cases h1
      next hnone =>
        rw [Bool.not_eq_true, List.any_eq_false] at hnone
        have hu' := hnone u (List.mem_of_mem_take hu)
        rw [decide_eq_true_eq, Nat.not_lt] at hu'
        exact hu'
    next hne => exact absurd h1 hne
  · have hle := (appendWidth_cases core s).2
    omega
  · exact hascii

theorem appendWidth_onePass (h : s.isMultiPass = false) : core.appendWidth s = core.elementWidth := by
  rw [StringCore.appendWidth, CodeUnitSequence.preprocessingPass, h]
  simp

theorem growth_le (s : CodeUnitSequence) : s.underestimatedCount.toNat ≤ s.units.length := by
  have := s.underestimatedCount_le
  omega

theorem growBuffer_initial (heapCapacity : Nat → Nat) (core : StringCore) (s : CodeUnitSequence) :
    ∃ core', core.growBuffer heapCapacity (core.count + s.underestimatedCount.toNat)
        (core.appendWidth s) = some core' ∧
      core'.units = core.units ++ List.replicate s.underestimatedCount.toNat 0 ∧
      core'.elementWidth = core.appendWidth s ∧
      (core.Fits → core'.elementWidth = 1 → ∀ u ∈ core.units, IsASCII u) := by
  obtain ⟨hwidth, hle⟩ := appendWidth_cases core s
  obtain ⟨core', hgrow, hgrown⟩ := growBuffer_grown heapCapacity core
    (core.count + s.underestimatedCount.toNat) hwidth
  refine ⟨core', hgrow, ?_, hgrown.notWider hle, hgrown.fits⟩
  rw [hgrown.units, Nat.add_sub_cancel_left]

theorem count_eq_length (core : StringCore) : core.units.length = core.count :=
  (Storage.count_eq core.storage).symm

theorem appendContentsOf_initial {core₁ : StringCore} {a₁ : Appending} {iter : List (BitVec 16)}
    (hgrowth : 0 < s.underestimatedCount)
    (hgrow : core.growBuffer heapCapacity (core.count + s.underestimatedCount.toNat)
      (core.appendWidth s) = some core₁)
    (hstore : Appending.storeInitial core.count s.underestimatedCount.toNat s.units ⟨core₁, []⟩ =
      some (iter, a₁)) :
    core.appendContentsOf heapCapacity s = a₁.appendRemaining heapCapacity iter := by
  rw [StringCore.appendContentsOf]
  simp only [if_pos hgrowth, Appending.growBuffer, hgrow, hstore, Option.bind_eq_bind, Option.bind_some]

theorem appendContentsOf_noInitial (hgrowth : ¬ 0 < s.underestimatedCount) :
    core.appendContentsOf heapCapacity s = Appending.appendRemaining heapCapacity ⟨core, []⟩ s.units := by
  rw [StringCore.appendContentsOf]
  simp only [if_neg hgrowth, Option.bind_eq_bind, Option.bind_some]

theorem appendsExactly_of_enough (h : core.appendWidth s = 1 → ∀ u ∈ s.initialUnits, IsASCII u) :
    AppendsExactly heapCapacity core s := by
  by_cases hgrowth : 0 < s.underestimatedCount
  · obtain ⟨core₁, hgrow, hunits, hwidth, hfits⟩ := growBuffer_initial heapCapacity core s
    obtain ⟨⟨iter, a₁⟩, hstore⟩ := exists_storeInitial (a := ⟨core₁, []⟩) core.count (growth_le s)
      fun h1 => h (hwidth.symm.trans h1)
    obtain ⟨hiter, hunits₁, hwidth₁, hstores₁⟩ := storeInitial_eq_some (count_eq_length core) hunits
      List.length_replicate hstore
    obtain ⟨a₂, hrest, hdone⟩ := appendRemaining_appended heapCapacity a₁ iter
    obtain ⟨stores, hstores₂, hmap, hall⟩ := hdone.stores
    have hascii : core₁.elementWidth = 1 → ∀ u ∈ s.units.take s.underestimatedCount.toNat, IsASCII u :=
      fun h1 => h (hwidth.symm.trans h1)
    refine ⟨a₂, (appendContentsOf_initial hgrowth hgrow hstore).trans hrest, ?_, ?_, ?_,
      fun hcore => hdone.fits fun h1 => ?_⟩
    · rw [hdone.units, hunits₁, hiter, List.append_assoc, List.take_append_drop]
    · rw [hstores₂, hstores₁, List.nil_append, List.map_append, List.map_map, hmap, hiter]
      have hid : (Store.unit ∘ fun u => (⟨core₁.elementWidth, u⟩ : Store)) = id := rfl
      rw [hid, List.map_id, List.take_append_drop]
    · intro st hst h1
      rw [hstores₂, hstores₁, List.nil_append] at hst
      rcases List.mem_append.1 hst with hst | hst
      · obtain ⟨u, hu, rfl⟩ := List.mem_map.1 hst
        exact hascii h1 u hu
      · exact hall st hst h1
    · rw [hunits₁]
      intro u hu
      have h1' : core₁.elementWidth = 1 := hwidth₁.symm.trans h1
      rcases List.mem_append.1 hu with hu | hu
      · exact hfits hcore h1' u hu
      · exact hascii h1' u hu
  · obtain ⟨a₂, hrest, hdone⟩ := appendRemaining_appended heapCapacity ⟨core, []⟩ s.units
    obtain ⟨stores, hstores, hmap, hall⟩ := hdone.stores
    rw [List.nil_append] at hstores
    refine ⟨a₂, (appendContentsOf_noInitial hgrowth).trans hrest, hdone.units, by rw [hstores, hmap], ?_,
      hdone.fits⟩
    rw [hstores]
    exact hall

end

/-- A sequence is appended exactly if and only if it can be looked at first, the elements have 16 bits
already, or the units up to its `underestimatedCount` are ASCII. -/
theorem appendsExactly_iff (heapCapacity : Nat → Nat) (core : StringCore) (s : CodeUnitSequence) :
    AppendsExactly heapCapacity core s ↔
      s.isMultiPass = true ∨ core.elementWidth = 2 ∨ ∀ u ∈ s.initialUnits, IsASCII u := by
  refine ⟨fun ⟨a, hrun, _, _, hstores, _⟩ => ?_, fun h => appendsExactly_of_enough (appendWidth_enough h)⟩
  by_contra hnot
  simp only [not_or, Bool.not_eq_true] at hnot
  obtain ⟨honce, htwo, hnot⟩ := hnot
  have hone : core.appendWidth s = 1 := by
    rw [appendWidth_onePass honce]
    exact (elementWidth_cases core).resolve_right htwo
  refine hnot fun u hu => ?_
  have hgrowth : 0 < s.underestimatedCount := by
    by_contra hle
    rw [CodeUnitSequence.initialUnits, Int.toNat_of_nonpos (by omega), List.take_zero] at hu
    cases hu
  obtain ⟨core₁, hgrow, hunits, hwidth, -⟩ := growBuffer_initial heapCapacity core s
  cases hstore : Appending.storeInitial core.count s.underestimatedCount.toNat s.units ⟨core₁, []⟩ with
  | none =>
      -- a unit past 0xff does not even fit
      rw [StringCore.appendContentsOf] at hrun
      simp only [if_pos hgrowth, Appending.growBuffer, hgrow, hstore, Option.bind_eq_bind,
        Option.bind_some, Option.bind_none, reduceCtorEq] at hrun
  | some r =>
      obtain ⟨iter, a₁⟩ := r
      obtain ⟨-, -, -, hstores₁⟩ := storeInitial_eq_some (count_eq_length core) hunits
        List.length_replicate hstore
      obtain ⟨a₂, hrest, hdone⟩ := appendRemaining_appended heapCapacity a₁ iter
      have heq : a₂ = a := by
        rw [appendContentsOf_initial hgrowth hgrow hstore, hrest] at hrun
        exact Option.some.inj hrun
      subst heq
      obtain ⟨stores, hstores₂, -⟩ := hdone.stores
      have hmem : (⟨core₁.elementWidth, u⟩ : Store) ∈ a₂.stores := by
        rw [hstores₂, hstores₁, List.nil_append]
        exact List.mem_append_left _ (List.mem_map_of_mem (f := fun u => (⟨core₁.elementWidth, u⟩ : Store)) hu)
      exact hstores _ hmem (hwidth.trans hone)

/-- "A", with room for more, and a sequence of one unit 0xE9 that says so. -/
theorem not_appendsExactly_latin1 : ¬ AppendsExactly id ⟨.ascii [0x41], some ⟨15, 1, 0, true⟩⟩
    ⟨[0xE9], 1, by decide, false⟩ := by
  intro ⟨a, hrun, _, _, hstores, _⟩
  have heq : (⟨⟨.ascii [0x41, 0xE9], some ⟨15, 2, 0, true⟩⟩, [⟨1, 0xE9⟩]⟩ : Appending) = a :=
    Option.some.inj ((by decide : _ = _).symm.trans hrun)
  subst heq
  exact absurd (hstores ⟨1, 0xE9⟩ (by decide) rfl) (by decide)

end SwiftKStdlib.Strings
