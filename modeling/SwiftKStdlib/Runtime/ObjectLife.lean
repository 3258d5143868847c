import Mathlib.Tactic
import SwiftKStdlib.Runtime.WeakReference

/-!
# The life of an object

* `Counted` : the counts are those of the references that the clients hold;
* `Life` : what an object and its side table entry are, from its allocation until both are gone;
* `LivesOn` : every object is somewhere in its life;
* `decrementWeak_spec`, `tryRetain_spec`, `formWeakReference_spec`, ... : what the reference counting does to it.
-/

namespace SwiftKStdlib.Runtime

open Lib Lib.Prog

namespace Lifecycle

open RefCountBitOffsets Lifecycle.HeapObjectSideTableEntry

/-! ## Counts -/

namespace Owned

/-- The strong and unowned counts are those of the references that the clients hold. The object has one strong
reference fewer once its deinit begins, and one unowned reference of its own until it is deallocated. -/
structure Counted (own : Owned) (c : Counts) (o : RefCountBitOffsets) : Prop where
  allocated : own.allocated = true
  strong : own.strong = c.strongExtra + if c.isDeiniting then 0 else 1
  unowned : c.unowned = own.unowned + if own.deallocated then 0 else 1
  pos : 0 < c.unowned
  lt : c.unowned < 2 ^ o.unownedRefCountBitCount
  deiniting : own.deiniting = c.isDeiniting
  deallocated : own.deallocated = true → own.deiniting = true ∧ own.strong = 0

/-- No reference is left, and none can be formed. -/
structure Gone (own : Owned) : Prop where
  allocated : own.allocated = true
  deiniting : own.deiniting = true
  deallocated : own.deallocated = true
  strong : own.strong = 0
  unowned : own.unowned = 0

/-- An unowned reference is given up, or the object's own one is. -/
structure Drops (own own' : Owned) : Prop where
  allocated : own'.allocated = own.allocated
  strong : own'.strong = own.strong
  deiniting : own'.deiniting = own.deiniting
  unowned : (own.unowned + if own.deallocated then 0 else 1) =
    (own'.unowned + if own'.deallocated then 0 else 1) + 1
  deallocated : own'.deallocated = true → own.deiniting = true ∧ own.strong = 0

def addStrong (own : Owned) : Owned := { own with strong := own.strong + 1 }

def addUnowned (own : Owned) : Owned := { own with unowned := own.unowned + 1 }

def removeStrong (own : Owned) (deinitNow : Bool) : Owned :=
  { own with strong := own.strong - 1, deiniting := own.deiniting || deinitNow }

variable {own own' : Owned} {c c' : Counts} {o : RefCountBitOffsets}

theorem Gone.not_usable (h : own.Gone) : ¬ own.Usable := by
  rintro (hstrong | ⟨-, hdeallocated⟩)
  · have := h.strong
    omega
  · exact Bool.noConfusion (hdeallocated.symm.trans h.deallocated)

theorem Counted.not_deallocated (h : own.Counted c o) (hown : own.Usable) : own.deallocated = false := by
  obtain hstrong | ⟨-, hdeallocated⟩ := hown
  · apply Bool.eq_false_iff.2
    intro hdeallocated
    have := (h.deallocated hdeallocated).2
    omega
  · exact hdeallocated

theorem Counted.not_deallocated_of_live (h : own.Counted c o) (hc : c.isDeiniting = false) :
    own.deallocated = false := by
  apply Bool.eq_false_iff.2
  intro hdeallocated
  exact Bool.noConfusion (((h.deallocated hdeallocated).1.symm.trans h.deiniting).trans hc)

theorem Counted.widen {o' : RefCountBitOffsets} (h : own.Counted c o)
    (ho : o.unownedRefCountBitCount ≤ o'.unownedRefCountBitCount) : own.Counted c o' where
  __ := h
  lt := lt_of_lt_of_le h.lt (Nat.pow_le_pow_right (by decide) ho)

theorem Counted.incrementStrong (h : own.Counted c o) (hown : own.deallocated = false)
    (hc : c.incrementStrongExtraRefCount o = some c') : own.addStrong.Counted c' o := by
  unfold Counts.incrementStrongExtraRefCount at hc
  by_cases hlt : c.strongExtra + 1 < 2 ^ o.strongExtraRefCountBitCount
  · rw [if_pos hlt] at hc
    obtain rfl := Option.some.inj hc
    have hstrong := h.strong
    exact {
      allocated := h.allocated
      strong := by
        simp only [addStrong]
        omega
      unowned := h.unowned
      pos := h.pos
      lt := h.lt
      deiniting := h.deiniting
      deallocated := fun hdeallocated => Bool.noConfusion (hown.symm.trans hdeallocated) }
  · rw [if_neg hlt] at hc
    nomatch hc

theorem Counted.doDecrement (h : own.Counted c o) (hown : 0 < own.strong) :
    ∃ c' deinitNow, c.doDecrement = some (c', deinitNow) ∧ (own.removeStrong deinitNow).Counted c' o := by
  have hstrong := h.strong
  have hdeallocated : own.deallocated = false := h.not_deallocated (Or.inl hown)
  unfold Counts.doDecrement
  by_cases hextra : 1 ≤ c.strongExtra
  · rw [if_pos hextra]
    refine ⟨_, _, rfl, ?_⟩
    exact {
      allocated := h.allocated
      strong := by
        simp only [removeStrong]
        omega
      unowned := h.unowned
      pos := h.pos
      lt := h.lt
      deiniting := by simpa [removeStrong] using h.deiniting
      deallocated := by simp [removeStrong, hdeallocated] }
  · rw [if_neg hextra]
    -- The last strong reference: the object is not deiniting, since it would hold none.
    by_cases hc : c.isDeiniting = true
    · rw [if_pos hc] at hstrong
      omega
    · rw [if_neg hc] at hstrong ⊢
      refine ⟨_, _, rfl, ?_⟩
      exact {
        allocated := h.allocated
        strong := by
          simp only [removeStrong, if_true]
          omega
        unowned := h.unowned
        pos := h.pos
        lt := h.lt
        deiniting := by simp [removeStrong]
        deallocated := by simp [removeStrong, hdeallocated] }

theorem Counted.incrementUnowned (h : own.Counted c o) (hc : c.incrementUnownedRefCount o = some c') :
    own.addUnowned.Counted c' o := by
  unfold Counts.incrementUnownedRefCount at hc
  by_cases hlt : c.unowned + 1 < 2 ^ o.unownedRefCountBitCount
  · rw [if_pos hlt] at hc
    obtain rfl := Option.some.inj hc
    have hunowned := h.unowned
    exact {
      allocated := h.allocated
      strong := h.strong
      unowned := by
        show c.unowned + 1 = own.unowned + 1 + if own.deallocated then 0 else 1
        omega
      pos := Nat.succ_pos _
      lt := hlt
      deiniting := h.deiniting
      deallocated := h.deallocated }
  · rw [if_neg hlt] at hc
    nomatch hc

theorem Counted.decrementUnowned (h : own.Counted c o) (hdrops : Drops own own') :
    (c.unowned ≠ 1 ∧ ∃ c', c.decrementUnownedShouldFree o = some (c', false) ∧ own'.Counted c' o) ∨
      (c.unowned = 1 ∧ c.isDeiniting = true ∧ c.decrementUnownedShouldFree o = some ({ c with unowned := 0 }, true) ∧
        own'.Gone) := by
  have hlt := h.lt
  have hpos := h.pos
  have hmod : (c.unowned + (2 ^ o.unownedRefCountBitCount - 1)) % 2 ^ o.unownedRefCountBitCount = c.unowned - 1 := by
    rw [show c.unowned + (2 ^ o.unownedRefCountBitCount - 1) = c.unowned - 1 + 2 ^ o.unownedRefCountBitCount by omega,
      Nat.add_mod_right, Nat.mod_eq_of_lt (by omega)]
  have hunowned := h.unowned
  rw [hdrops.unowned] at hunowned
  unfold Counts.decrementUnownedShouldFree
  rw [hmod]
  by_cases hone : c.unowned = 1
  · right
    have hdeallocated : own'.deallocated = true := by
      by_contra hdeallocated
      rw [if_neg hdeallocated] at hunowned
      omega
    rw [if_pos hdeallocated] at hunowned
    obtain ⟨hdeiniting, hstrong⟩ := hdrops.deallocated hdeallocated
    have hc : c.isDeiniting = true := h.deiniting.symm.trans hdeiniting
    refine ⟨hone, hc, by simp [hone, hc], ?_⟩
    exact ⟨hdrops.allocated.trans h.allocated, hdrops.deiniting.trans hdeiniting, hdeallocated,
      hdrops.strong.trans hstrong, by omega⟩
  · left
    have hne : c.unowned - 1 ≠ 0 := by omega
    refine ⟨hone, _, if_pos hne, ?_⟩
    exact {
      allocated := hdrops.allocated.trans h.allocated
      strong := hdrops.strong.trans h.strong
      unowned := by
        dsimp only
        omega
      pos := Nat.pos_of_ne_zero hne
      lt := by
        dsimp only
        omega
      deiniting := hdrops.deiniting.trans h.deiniting
      deallocated := by
        intro hdeallocated
        rw [hdrops.deiniting, hdrops.strong]
        exact hdrops.deallocated hdeallocated }

end Owned

/-! ## Lives -/

/-- What an object and its side table entry are, from what the clients have of the object and the number of weak
references to it. -/
inductive Life (size : PointerSize) (object : Nat) :
    Option InlineRefCounts → Option HeapObjectSideTableEntry → Owned → Nat → Prop
  | unallocated : Life size object none none .none 0
  | withoutSideTable {own : Owned} {c : Counts} (hcounted : own.Counted c size.offsets) :
      Life size object (some (.counts c)) none own 0
  | withSideTable {own : Owned} {c : Counts} {weakBits : BitVec 32} {weak : Nat}
      (hcounted : own.Counted c offsets8) (hweak : weakBits.toNat = weak + 1) :
      Life size object (some (.sideTable object)) (some ⟨object, c, weakBits⟩) own weak
  | freed {own : Owned} {c : Counts} {weakBits : BitVec 32} {weak : Nat} (hgone : own.Gone)
      (hdeiniting : c.isDeiniting = true) (hunowned : c.unowned = 0) (hweak : weakBits.toNat = weak)
      (hpos : 0 < weak) : Life size object none (some ⟨object, c, weakBits⟩) own weak
  | dead {own : Owned} (hgone : own.Gone) : Life size object none none own 0

theorem unownedRefCountBitCount_le (size : PointerSize) :
    size.offsets.unownedRefCountBitCount ≤ offsets8.unownedRefCountBitCount := by
  cases size <;> decide

section Life

variable {size : PointerSize} {object : Nat} {refCounts : Option InlineRefCounts}
  {entry : Option HeapObjectSideTableEntry} {own : Owned} {weak : Nat} {c : Counts}

theorem Life.of_counts (h : Life size object (some (.counts c)) entry own weak) :
    entry = none ∧ own.Counted c size.offsets ∧ weak = 0 := by
  cases h with
  | withoutSideTable hcounted => exact ⟨rfl, hcounted, rfl⟩

theorem Life.of_sideTable {side : Nat} (h : Life size object (some (.sideTable side)) entry own weak) :
    side = object ∧ ∃ c weakBits, entry = some ⟨object, c, weakBits⟩ ∧ own.Counted c offsets8 ∧
      weakBits.toNat = weak + 1 := by
  cases h with
  | withSideTable hcounted hweak => exact ⟨rfl, _, _, rfl, hcounted, hweak⟩

theorem Life.of_entry {e : HeapObjectSideTableEntry} (h : Life size object refCounts (some e) own weak) :
    ∃ c weakBits, e = ⟨object, c, weakBits⟩ ∧
      ((refCounts = some (.sideTable object) ∧ own.Counted c offsets8 ∧ weakBits.toNat = weak + 1) ∨
        (refCounts = none ∧ own.Gone ∧ c.isDeiniting = true ∧ c.unowned = 0 ∧ weakBits.toNat = weak ∧ 0 < weak)) := by
  cases h with
  | withSideTable hcounted hweak => exact ⟨_, _, rfl, Or.inl ⟨rfl, hcounted, hweak⟩⟩
  | freed hgone hdeiniting hunowned hweak hpos =>
    exact ⟨_, _, rfl, Or.inr ⟨rfl, hgone, hdeiniting, hunowned, hweak, hpos⟩⟩

theorem Life.exists_entry (h : Life size object refCounts entry own weak) (hweak : 0 < weak) :
    ∃ e, entry = some e := by
  cases h with
  | unallocated => omega
  | withoutSideTable => omega
  | withSideTable => exact ⟨_, rfl⟩
  | freed => exact ⟨_, rfl⟩
  | dead => omega

theorem Life.exists_object (h : Life size object refCounts entry own weak)
    (hown : own.Usable ∨ 0 < own.unowned) : ∃ r, refCounts = some r := by
  have hgone : ¬ own.Gone := by
    intro hgone
    obtain husable | hunowned := hown
    · exact hgone.not_usable husable
    · exact Nat.ne_of_gt hunowned hgone.unowned
  cases h with
  | unallocated => simp [Owned.none, Owned.Usable] at hown
  | withoutSideTable => exact ⟨_, rfl⟩
  | withSideTable => exact ⟨_, rfl⟩
  | freed hgone' => exact absurd hgone' hgone
  | dead hgone' => exact absurd hgone' hgone

theorem Life.of_not_allocated (h : Life size object refCounts entry own weak) (hown : own.allocated = false) :
    refCounts = none ∧ entry = none ∧ own = .none ∧ weak = 0 := by
  cases h with
  | unallocated => exact ⟨rfl, rfl, rfl, rfl⟩
  | withoutSideTable hcounted => exact Bool.noConfusion (hown.symm.trans hcounted.allocated)
  | withSideTable hcounted => exact Bool.noConfusion (hown.symm.trans hcounted.allocated)
  | freed hgone => exact Bool.noConfusion (hown.symm.trans hgone.allocated)
  | dead hgone => exact Bool.noConfusion (hown.symm.trans hgone.allocated)

theorem Life.of_deallocated (h : Life size object refCounts entry own weak) (hown : own.deallocated = true) :
    own.deiniting = true ∧ own.strong = 0 := by
  cases h with
  | unallocated => exact Bool.noConfusion hown
  | withoutSideTable hcounted => exact hcounted.deallocated hown
  | withSideTable hcounted => exact hcounted.deallocated hown
  | freed hgone => exact ⟨hgone.deiniting, hgone.strong⟩
  | dead hgone => exact ⟨hgone.deiniting, hgone.strong⟩

end Life

/-- The weak variables have these bits, and every object is somewhere in its life. -/
structure LivesOn (size : PointerSize) (nativeValue : Nat → Option Nat) (owned : Nat → Owned) (weak : Nat → Nat)
    (m : Memory) : Prop where
  nativeValue : m.nativeValue = nativeValue
  life : ∀ object, Life size object (m.objects object) (m.entries object) (owned object) (weak object)

def hold (bits : Option Nat) : Nat → Nat := fun object => if bits = some object then 1 else 0

@[simp] theorem hold_none : hold none = 0 := rfl

@[simp] theorem hold_some_self (object : Nat) : hold (some object) object = 1 := if_pos rfl

theorem hold_some_of_ne {object other : Nat} (h : other ≠ object) : hold (some object) other = 0 :=
  if_neg fun hsome => h (Option.some.inj hsome).symm

def addStrongTo (owned : Nat → Owned) : Option Nat → Nat → Owned
  | some object => Function.update owned object (owned object).addStrong
  | none => owned

section Specs

variable {size : PointerSize} {nativeValue : Nat → Option Nat} {owned : Nat → Owned} {weak : Nat → Nat}
  {m m' : Memory} {object side : Nat}

theorem LivesOn.update {owned' : Nat → Owned} {weak' : Nat → Nat} (h : LivesOn size nativeValue owned weak m)
    (object : Nat) (hvalue : m'.nativeValue = m.nativeValue)
    (hlife : Life size object (m'.objects object) (m'.entries object) (owned' object) (weak' object))
    (hobjects : ∀ other, other ≠ object → m'.objects other = m.objects other)
    (hentries : ∀ other, other ≠ object → m'.entries other = m.entries other)
    (howned : ∀ other, other ≠ object → owned' other = owned other)
    (hweak : ∀ other, other ≠ object → weak' other = weak other) :
    LivesOn size nativeValue owned' weak' m' := by
  apply LivesOn.mk (hvalue.trans h.nativeValue)
  intro other
  by_cases hother : other = object
  · rw [hother]
    exact hlife
  · rw [hobjects other hother, hentries other hother, howned other hother, hweak other hother]
    exact h.life other

theorem LivesOn.setEntry {weak' : Nat → Nat} {own : Owned} {entry : Option HeapObjectSideTableEntry}
    (h : LivesOn size nativeValue owned weak m)
    (hlife : Life size object (m.objects object) entry own (weak' object))
    (hweak : ∀ other, other ≠ object → weak' other = weak other) :
    LivesOn size nativeValue (Function.update owned object own) weak' (m.setEntry object entry) := by
  have hvalue : (m.setEntry object entry).nativeValue = m.nativeValue := rfl
  apply h.update object hvalue
  · simpa [Memory.setEntry] using hlife
  · exact fun _ _ => rfl
  · exact fun other hother => Function.update_of_ne hother ..
  · exact fun other hother => Function.update_of_ne hother ..
  · exact hweak

theorem LivesOn.setObject {own : Owned} {refCounts : Option InlineRefCounts}
    (h : LivesOn size nativeValue owned weak m)
    (hlife : Life size object refCounts (m.entries object) own (weak object)) :
    LivesOn size nativeValue (Function.update owned object own) weak (m.setObject object refCounts) := by
  have hvalue : (m.setObject object refCounts).nativeValue = m.nativeValue := rfl
  apply h.update object hvalue
  · simpa [Memory.setObject] using hlife
  · exact fun other hother => Function.update_of_ne hother ..
  · exact fun _ _ => rfl
  · exact fun other hother => Function.update_of_ne hother ..
  · exact fun _ _ => rfl

theorem LivesOn.setEntryObject {own : Owned} {entry : Option HeapObjectSideTableEntry}
    {refCounts : Option InlineRefCounts} (h : LivesOn size nativeValue owned weak m)
    (hlife : Life size object refCounts entry own (weak object)) :
    LivesOn size nativeValue (Function.update owned object own) weak
      ((m.setEntry object entry).setObject object refCounts) := by
  have hvalue : ((m.setEntry object entry).setObject object refCounts).nativeValue = m.nativeValue := rfl
  apply h.update object hvalue
  · simpa [Memory.setEntry, Memory.setObject] using hlife
  · exact fun other hother => Function.update_of_ne hother ..
  · exact fun other hother => Function.update_of_ne hother ..
  · exact fun other hother => Function.update_of_ne hother ..
  · exact fun _ _ => rfl

theorem LivesOn.setNativeValue (h : LivesOn size nativeValue owned weak m) (w : Nat) (bits : Option Nat) :
    LivesOn size (Function.update nativeValue w bits) owned weak (m.setNativeValue w bits) :=
  ⟨by rw [← h.nativeValue]; rfl, h.life⟩

/-! ## What the reference counting does -/

variable {α : Type} {Q : α → Memory → Prop} {E : Fault → Memory → Prop}

theorem wp_loadObject {Q : InlineRefCounts → Memory → Prop} {refCounts : InlineRefCounts}
    (h : m.objects object = some refCounts) (hQ : Q refCounts m) : wp (loadObject object) Q E m := by
  unfold wp loadObject
  rw [h]
  exact hQ

theorem wp_loadEntry {Q : HeapObjectSideTableEntry → Memory → Prop} {entry : HeapObjectSideTableEntry}
    (h : m.entries side = some entry) (hQ : Q entry m) : wp (loadEntry side) Q E m := by
  unfold wp loadEntry
  rw [h]
  exact hQ

@[simp] theorem wp_storeObject {Q : Unit → Memory → Prop} (refCounts : InlineRefCounts) :
    wp (storeObject object refCounts) Q E m ↔ Q () (m.setObject object (some refCounts)) := Iff.rfl

@[simp] theorem wp_slowDealloc {Q : Unit → Memory → Prop} :
    wp (slowDealloc object) Q E m ↔ Q () (m.setObject object none) := Iff.rfl

@[simp] theorem wp_storeEntry {Q : Unit → Memory → Prop} (entry : HeapObjectSideTableEntry) :
    wp (storeEntry side entry) Q E m ↔ Q () (m.setEntry side (some entry)) := Iff.rfl

@[simp] theorem orFault_some (f : Fault) (a : α) : orFault f (some a) = pure a := rfl

theorem wp_orFault {f : Fault} {x : Option α} (hsome : ∀ a, x = some a → Q a m) (hnone : x = none → E f m) :
    wp (orFault f x) Q E m := by
  cases x with
  | none => exact hnone rfl
  | some a => exact hsome a rfl

def Aborts : Fault → Memory → Prop := fun f _ => f.IsAbort

theorem toNat_sub_one {x : BitVec 32} (h : 0 < x.toNat) : (x - 1).toNat = x.toNat - 1 := by
  bv_omega

theorem toNat_add_one {x : BitVec 32} (h : ¬ x + 1 < x) : (x + 1).toNat = x.toNat + 1 := by
  bv_omega

theorem ne_zero_of_toNat_pos {x : BitVec 32} (h : 0 < x.toNat) : x ≠ 0 := by
  intro hzero
  rw [hzero] at h
  simp at h

def entryAfter (entry : HeapObjectSideTableEntry) : Option HeapObjectSideTableEntry :=
  if entry.weakBits.toNat = 1 then none else some { entry with weakBits := entry.weakBits - 1 }

theorem decrementWeak_run {entry : HeapObjectSideTableEntry} (hentry : m.entries side = some entry)
    (hpos : 0 < entry.weakBits.toNat) (hunowned : entry.weakBits.toNat = 1 → entry.refCounts.unowned = 0) :
    decrementWeak side m = (.ok (), m.setEntry side (entryAfter entry)) := by
  have hload : loadEntry side m = (.ok entry, m) := by
    unfold loadEntry
    rw [hentry]
  have htoNat := toNat_sub_one hpos
  unfold decrementWeak entryAfter
  rw [bind_run hload, if_neg (ne_zero_of_toNat_pos hpos)]
  have hstore : storeEntry side { entry with weakBits := entry.weakBits - 1 } m =
      (.ok (), m.setEntry side (some { entry with weakBits := entry.weakBits - 1 })) := rfl
  rw [bind_run hstore]
  by_cases hone : entry.weakBits.toNat = 1
  · have hzero : entry.weakBits - 1 = 0 := BitVec.eq_of_toNat_eq (show (entry.weakBits - 1).toNat = 0 by omega)
    rw [if_neg (not_not_intro hzero), if_neg (not_not_intro (hunowned hone)), if_pos hone]
    show ((Except.ok (), (m.setEntry side _).setEntry side none) : Except Fault Unit × Memory) = _
    unfold Memory.setEntry
    rw [Function.update_idem]
  · rw [if_pos (ne_zero_of_toNat_pos (by omega)), if_neg hone]
    rfl

theorem Life.release_weak {c : Counts} {weakBits : BitVec 32} {own : Owned} {weak : Nat} (hgone : own.Gone)
    (hdeiniting : c.isDeiniting = true) (hunowned : c.unowned = 0) (hweak : weakBits.toNat = weak + 1) :
    Life size object none (entryAfter ⟨object, c, weakBits⟩) own weak := by
  have htoNat := toNat_sub_one (x := weakBits) (by omega)
  unfold entryAfter
  dsimp only
  by_cases hone : weakBits.toNat = 1
  · rw [if_pos hone, show weak = 0 by omega]
    exact .dead hgone
  · rw [if_neg hone]
    exact .freed hgone hdeiniting hunowned (by omega) (by omega)

theorem decrementWeak_spec (h : LivesOn size nativeValue owned (weak + hold (some side)) m) :
    wp (decrementWeak side)
      (fun _ m' => LivesOn size nativeValue owned weak m' ∧
        ((∃ refCounts, m.objects side = some refCounts) ∨ 0 < weak side → ∃ entry, m'.entries side = some entry))
      Aborts m := by
  have hlife := h.life side
  have hframe : ∀ other, other ≠ side → weak other = (weak + hold (some side)) other := by
    intro other hother
    rw [Pi.add_apply, hold_some_of_ne hother, Nat.add_zero]
  rw [Pi.add_apply, hold_some_self] at hlife
  obtain ⟨entry, hentry⟩ := hlife.exists_entry (Nat.succ_pos _)
  rw [hentry] at hlife
  obtain ⟨c, weakBits, rfl, hcases⟩ := hlife.of_entry
  obtain ⟨hobjects, hcounted, hweak⟩ | ⟨hobjects, hgone, hdeiniting, hunowned, hweak, -⟩ := hcases
  · -- The unowned count has a weak reference of its own.
    have hone : weakBits.toNat ≠ 1 := by omega
    have hafter : entryAfter ⟨side, c, weakBits⟩ = some ⟨side, c, weakBits - 1⟩ := if_neg hone
    apply wp_of_run (decrementWeak_run hentry (show 0 < weakBits.toNat by omega) fun h => absurd h hone)
    rw [hafter, ← Function.update_eq_self side owned]
    refine ⟨h.setEntry ?_ hframe, fun _ => ⟨_, Function.update_self ..⟩⟩
    rw [hobjects]
    apply Life.withSideTable hcounted
    rw [toNat_sub_one (by omega)]
    omega
  · apply wp_of_run (decrementWeak_run hentry (show 0 < weakBits.toNat by omega) fun _ => hunowned)
    rw [← Function.update_eq_self side owned]
    have hlife' : Life size side (m.objects side) (entryAfter ⟨side, c, weakBits⟩) (owned side) (weak side) := by
      rw [hobjects]
      exact Life.release_weak hgone hdeiniting hunowned hweak
    have hlives := h.setEntry hlife' hframe
    refine ⟨hlives, ?_⟩
    rintro (⟨r, hr⟩ | hpos)
    · rw [hobjects] at hr
      nomatch hr
    · exact (hlives.life side).exists_entry hpos

theorem incrementWeak_spec (h : LivesOn size nativeValue owned weak m)
    (hentry : ∃ entry, m.entries side = some entry) :
    wp (incrementWeak side) (fun bits m' => LivesOn size nativeValue owned (weak + hold bits) m') Aborts m := by
  obtain ⟨entry, hentry⟩ := hentry
  have hlife := h.life side
  rw [hentry] at hlife
  obtain ⟨refCounts, weakBits, rfl, hcases⟩ := hlife.of_entry
  unfold incrementWeak
  rw [wp_bind]
  apply wp_loadEntry hentry
  dsimp only
  by_cases hdeiniting : refCounts.isDeiniting = true
  · rw [if_pos hdeiniting]
    simpa using h
  rw [if_neg hdeiniting]
  obtain ⟨hobjects, hcounted, hweak⟩ | ⟨-, -, hdeiniting', -⟩ := hcases
  · rw [if_neg (ne_zero_of_toNat_pos (by omega))]
    by_cases hoverflow : weakBits + 1 < weakBits
    · rw [if_pos hoverflow]
      exact Or.inr (Or.inr rfl)
    · rw [if_neg hoverflow, wp_bind]
      show LivesOn _ _ _ _ (m.setEntry side (some ⟨side, refCounts, weakBits + 1⟩))
      rw [← Function.update_eq_self side owned]
      apply h.setEntry
      · rw [hobjects, Pi.add_apply, hold_some_self]
        apply Life.withSideTable hcounted
        rw [toNat_add_one hoverflow, hweak]
      · intro other hother
        rw [Pi.add_apply, hold_some_of_ne hother, Nat.add_zero]
  · exact absurd hdeiniting' hdeiniting

theorem tryRetain_run {object : Nat} {c : Counts} {weakBits : BitVec 32}
    (hentry : m.entries side = some ⟨object, c, weakBits⟩) :
    tryRetain side m =
      if c.isDeiniting then (.ok none, m)
      else
        match c.incrementStrongExtraRefCount offsets8 with
        | some c' => (.ok (some object), m.setEntry side (some ⟨object, c', weakBits⟩))
        | none => (.error .retainOverflow, m) := by
  have hload : loadEntry side m = (.ok ⟨object, c, weakBits⟩, m) := by
    unfold loadEntry
    rw [hentry]
  by_cases hdeiniting : c.isDeiniting = true
  · have htry : tryIncrement side m = (.ok false, m) := by
      unfold tryIncrement
      rw [bind_run hload, if_pos hdeiniting]
      rfl
    unfold tryRetain
    rw [bind_run htry, if_pos hdeiniting]
    rfl
  · rw [if_neg hdeiniting]
    cases hincrement : c.incrementStrongExtraRefCount offsets8 with
    | none =>
      have htry : tryIncrement side m = (.error .retainOverflow, m) := by
        unfold tryIncrement
        rw [bind_run hload, if_neg hdeiniting, hincrement]
        rfl
      exact bind_error htry
    | some c' =>
      have htry : tryIncrement side m = (.ok true, m.setEntry side (some ⟨object, c', weakBits⟩)) := by
        unfold tryIncrement
        rw [bind_run hload, if_neg hdeiniting, hincrement]
        rfl
      have hload' : loadEntry side (m.setEntry side (some ⟨object, c', weakBits⟩)) =
          (.ok ⟨object, c', weakBits⟩, m.setEntry side (some ⟨object, c', weakBits⟩)) := by
        unfold loadEntry
        rw [show (m.setEntry side _).entries side = _ from Function.update_self ..]
      unfold tryRetain
      rw [bind_run htry, if_pos rfl, bind_run hload']
      rfl

theorem tryRetain_spec (h : LivesOn size nativeValue owned weak m)
    (hentry : ∃ entry, m.entries side = some entry) :
    wp (tryRetain side) (fun result m' => LivesOn size nativeValue (addStrongTo owned result) weak m') Aborts m := by
  obtain ⟨entry, hentry⟩ := hentry
  have hlife := h.life side
  rw [hentry] at hlife
  obtain ⟨c, weakBits, rfl, hcases⟩ := hlife.of_entry
  unfold wp
  rw [tryRetain_run hentry]
  by_cases hdeiniting : c.isDeiniting = true
  · rw [if_pos hdeiniting]
    exact h
  · rw [if_neg hdeiniting]
    obtain ⟨hobjects, hcounted, hweak⟩ | ⟨-, -, hdeiniting', -⟩ := hcases
    · cases hincrement : c.incrementStrongExtraRefCount offsets8 with
      | none => exact Or.inl rfl
      | some c' =>
        apply h.setEntry _ fun _ _ => rfl
        rw [hobjects]
        exact .withSideTable (hcounted.incrementStrong (hcounted.not_deallocated_of_live
          (Bool.eq_false_iff.2 hdeiniting)) hincrement) hweak
    · exact absurd hdeiniting' hdeiniting

theorem allocateSideTable_spec (h : LivesOn size nativeValue owned weak m)
    (hobject : ∃ refCounts, m.objects object = some refCounts) :
    wp (allocateSideTable object)
      (fun result m' => LivesOn size nativeValue owned weak m' ∧
        ∀ side, result = some side → side = object ∧ m'.objects object = some (.sideTable object))
      Aborts m := by
  obtain ⟨refCounts, hobject⟩ := hobject
  have hlife := h.life object
  rw [hobject] at hlife
  unfold allocateSideTable
  rw [wp_bind]
  apply wp_loadObject hobject
  cases refCounts with
  | sideTable side =>
    obtain ⟨rfl, -⟩ := hlife.of_sideTable
    exact ⟨h, fun other hother => ⟨(Option.some.inj hother).symm, hobject⟩⟩
  | counts refCounts =>
    obtain ⟨hentry, hcounted, hweak⟩ := hlife.of_counts
    dsimp only
    by_cases hdeiniting : refCounts.isDeiniting = true
    · rw [if_pos hdeiniting]
      refine ⟨h, ?_⟩
      rintro side ⟨⟩
    · rw [if_neg hdeiniting, wp_bind]
      show LivesOn _ _ _ _ ((m.setEntry object _).setObject object _) ∧ _
      refine ⟨?_, ?_⟩
      · rw [← Function.update_eq_self object owned]
        apply h.setEntryObject
        rw [hweak]
        exact .withSideTable (hcounted.widen (unownedRefCountBitCount_le size)) rfl
      · rintro side ⟨⟩
        exact ⟨rfl, Function.update_self ..⟩

theorem formWeakReference_spec (h : LivesOn size nativeValue owned weak m)
    (hobject : ∃ refCounts, m.objects object = some refCounts) :
    wp (formWeakReference object) (fun bits m' => LivesOn size nativeValue owned (weak + hold bits) m')
      Aborts m := by
  unfold formWeakReference
  rw [wp_bind]
  refine wp_mono (allocateSideTable_spec h hobject) ?_ fun _ _ habort => habort
  rintro (_ | side) m' ⟨hlives, hside⟩
  · simpa using hlives
  · obtain ⟨rfl, hobject'⟩ := hside side rfl
    apply incrementWeak_spec hlives
    have hlife := hlives.life side
    rw [hobject'] at hlife
    obtain ⟨-, _, _, hentry, -⟩ := hlife.of_sideTable
    exact ⟨_, hentry⟩

theorem retain_spec (h : LivesOn size nativeValue owned weak m) (hown : (owned object).Usable) :
    wp (retain size object)
      (fun _ m' => LivesOn size nativeValue (Function.update owned object (owned object).addStrong) weak m')
      Aborts m := by
  have hlife := h.life object
  obtain ⟨refCounts, hobject⟩ := hlife.exists_object (Or.inl hown)
  rw [hobject] at hlife
  unfold retain
  rw [wp_bind]
  apply wp_loadObject hobject
  cases refCounts with
  | sideTable side =>
    obtain ⟨rfl, c, weakBits, hentry, hcounted, hweak⟩ := hlife.of_sideTable
    dsimp only
    unfold incrementStrong
    rw [wp_bind]
    apply wp_loadEntry hentry
    rw [wp_bind]
    refine wp_orFault (fun c' hincrement => ?_) fun _ => Or.inl rfl
    apply h.setEntry _ fun _ _ => rfl
    rw [hobject]
    exact .withSideTable (hcounted.incrementStrong (hcounted.not_deallocated hown) hincrement) hweak
  | counts c =>
    obtain ⟨hentry, hcounted, hweak⟩ := hlife.of_counts
    dsimp only
    rw [wp_bind]
    refine wp_orFault (fun c' hincrement => ?_) fun _ => Or.inl rfl
    apply h.setObject
    rw [hentry, hweak]
    exact .withoutSideTable (hcounted.incrementStrong (hcounted.not_deallocated hown) hincrement)

theorem release_spec (h : LivesOn size nativeValue owned weak m) (hown : 0 < (owned object).strong) :
    wp (release object)
      (fun deinitNow m' =>
        LivesOn size nativeValue (Function.update owned object ((owned object).removeStrong deinitNow)) weak m')
      Aborts m := by
  have hlife := h.life object
  obtain ⟨refCounts, hobject⟩ := hlife.exists_object (Or.inl (Or.inl hown))
  rw [hobject] at hlife
  unfold release
  rw [wp_bind]
  apply wp_loadObject hobject
  cases refCounts with
  | sideTable side =>
    obtain ⟨rfl, c, weakBits, hentry, hcounted, hweak⟩ := hlife.of_sideTable
    obtain ⟨c', deinitNow, hdecrement, hcounted'⟩ := hcounted.doDecrement hown
    dsimp only
    unfold decrementStrong
    rw [wp_bind]
    apply wp_loadEntry hentry
    dsimp only
    rw [hdecrement, wp_bind]
    apply h.setEntry _ fun _ _ => rfl
    rw [hobject]
    exact .withSideTable hcounted' hweak
  | counts c =>
    obtain ⟨hentry, hcounted, hweak⟩ := hlife.of_counts
    obtain ⟨c', deinitNow, hdecrement, hcounted'⟩ := hcounted.doDecrement hown
    dsimp only
    rw [hdecrement, wp_bind]
    apply h.setObject
    rw [hentry, hweak]
    exact .withoutSideTable hcounted'

theorem incrementUnowned_spec (h : LivesOn size nativeValue owned weak m)
    (hobject : m.objects side = some (.sideTable side)) :
    wp (incrementUnowned side)
      (fun _ m' => LivesOn size nativeValue (Function.update owned side (owned side).addUnowned) weak m')
      Aborts m := by
  have hlife := h.life side
  rw [hobject] at hlife
  obtain ⟨-, c, weakBits, hentry, hcounted, hweak⟩ := hlife.of_sideTable
  unfold incrementUnowned
  rw [wp_bind]
  apply wp_loadEntry hentry
  rw [wp_bind]
  refine wp_orFault (fun c' hincrement => ?_) fun _ => Or.inr (Or.inl rfl)
  apply h.setEntry _ fun _ _ => rfl
  rw [hobject]
  exact .withSideTable (hcounted.incrementUnowned hincrement) hweak

theorem unownedRetain_spec (h : LivesOn size nativeValue owned weak m)
    (hown : (owned object).Usable ∨ 0 < (owned object).unowned) :
    wp (unownedRetain size object)
      (fun _ m' => LivesOn size nativeValue (Function.update owned object (owned object).addUnowned) weak m')
      Aborts m := by
  have hlife := h.life object
  obtain ⟨refCounts, hobject⟩ := hlife.exists_object hown
  rw [hobject] at hlife
  unfold unownedRetain
  rw [wp_bind]
  apply wp_loadObject hobject
  cases refCounts with
  | sideTable side =>
    obtain ⟨rfl, -⟩ := hlife.of_sideTable
    exact incrementUnowned_spec h hobject
  | counts c =>
    obtain ⟨hentry, hcounted, hweak⟩ := hlife.of_counts
    dsimp only
    cases hincrement : c.incrementUnownedRefCount size.offsets with
    | some c' =>
      apply h.setObject
      rw [hentry, hweak]
      exact .withoutSideTable (hcounted.incrementUnowned hincrement)
    | none =>
      -- The counts overflow to the side table.
      dsimp only
      rw [wp_bind]
      refine wp_mono (allocateSideTable_spec h ⟨_, hobject⟩) ?_ fun _ _ habort => habort
      rintro (_ | side) m' ⟨hlives, hside⟩
      · exact Or.inr (Or.inl rfl)
      · obtain ⟨rfl, hobject'⟩ := hside side rfl
        exact incrementUnowned_spec hlives hobject'

/-- An unowned reference is given up, the object's own one perhaps. The object is freed with the last one. -/
theorem unownedRelease_spec {own : Owned} (h : LivesOn size nativeValue owned weak m)
    (hobject : ∃ refCounts, m.objects object = some refCounts) (hdrops : Owned.Drops (owned object) own) :
    wp (unownedRelease size object)
      (fun _ m' => LivesOn size nativeValue (Function.update owned object own) weak m') Aborts m := by
  obtain ⟨refCounts, hobject⟩ := hobject
  have hlife := h.life object
  rw [hobject] at hlife
  unfold unownedRelease decrementUnownedShouldFree
  rw [wp_bind, wp_bind]
  apply wp_loadObject hobject
  cases refCounts with
  | sideTable side =>
    obtain ⟨rfl, c, weakBits, hentry, hcounted, hweak⟩ := hlife.of_sideTable
    have hdecrement := hcounted.decrementUnowned hdrops
    dsimp only
    unfold HeapObjectSideTableEntry.decrementUnownedShouldFree
    rw [wp_bind]
    apply wp_loadEntry hentry
    dsimp only
    generalize c.decrementUnownedShouldFree offsets8 = decremented at hdecrement ⊢
    obtain ⟨-, c', rfl, hcounted'⟩ | ⟨-, hdeiniting, rfl, hgone⟩ := hdecrement
    · rw [wp_bind]
      apply h.setEntry _ fun _ _ => rfl
      rw [hobject]
      exact .withSideTable hcounted' hweak
    · -- DEINITED -> FREED, or on to DEAD without a weak reference.
      rw [wp_bind, orFault_some, wp_pure, wp_bind, wp_storeEntry, if_pos rfl, wp_bind]
      have hpos : 0 < weakBits.toNat := by omega
      apply wp_of_run (decrementWeak_run (Function.update_self ..) hpos fun _ => rfl)
      rw [wp_pure, if_pos rfl, wp_slowDealloc]
      unfold Memory.setEntry
      rw [Function.update_idem]
      apply h.setEntryObject
      exact Life.release_weak hgone hdeiniting rfl hweak
  | counts c =>
    obtain ⟨hentry, hcounted, hweak⟩ := hlife.of_counts
    dsimp only
    obtain ⟨-, c', hdecrement, hcounted'⟩ | ⟨-, hdeiniting, hdecrement, hgone⟩ := hcounted.decrementUnowned hdrops
    · rw [hdecrement, wp_bind]
      apply h.setObject
      rw [hentry, hweak]
      exact .withoutSideTable hcounted'
    · rw [hdecrement, wp_bind, orFault_some, wp_pure, wp_bind, wp_storeObject, wp_pure, if_pos rfl, wp_slowDealloc]
      unfold Memory.setObject
      rw [Function.update_idem]
      apply h.setObject
      rw [hentry, hweak]
      exact .dead hgone

theorem canBeFreedNow_spec {refCounts : InlineRefCounts}
    (hobject : m.objects object = some refCounts) :
    wp (canBeFreedNow object)
      (fun result m' => m' = m ∧ (result = true → ∃ c, refCounts = .counts c ∧ c.unowned = 1)) Aborts m := by
  unfold canBeFreedNow
  rw [wp_bind]
  apply wp_loadObject hobject
  cases refCounts with
  | sideTable side => exact ⟨rfl, fun hfalse => Bool.noConfusion hfalse⟩
  | counts c =>
    refine ⟨rfl, fun hresult => ⟨c, rfl, ?_⟩⟩
    simp at hresult
    exact hresult.2

theorem deallocObject_spec (h : LivesOn size nativeValue owned weak m)
    (hown : (owned object).deiniting = true ∧ (owned object).deallocated = false ∧ (owned object).strong = 0) :
    wp (deallocObject size object)
      (fun _ m' => LivesOn size nativeValue
        (Function.update owned object { owned object with deallocated := true }) weak m') Aborts m := by
  obtain ⟨hdeiniting, hdeallocated, hstrong⟩ := hown
  have hdrops : Owned.Drops (owned object) { owned object with deallocated := true } :=
    ⟨rfl, rfl, rfl, by simp [hdeallocated], fun _ => ⟨hdeiniting, hstrong⟩⟩
  have hlife := h.life object
  obtain ⟨refCounts, hobject⟩ := hlife.exists_object (Or.inl (Or.inr ⟨hdeiniting, hdeallocated⟩))
  rw [hobject] at hlife
  unfold deallocObject
  rw [wp_bind]
  refine wp_mono (canBeFreedNow_spec hobject) ?_ fun _ _ habort => habort
  rintro canBeFreed m' ⟨rfl, hcan⟩
  cases canBeFreed with
  | false => exact unownedRelease_spec h ⟨_, hobject⟩ hdrops
  | true =>
    obtain ⟨c, rfl, hone⟩ := hcan rfl
    obtain ⟨hentry, hcounted, hweak⟩ := hlife.of_counts
    obtain ⟨hne, -⟩ | ⟨-, -, -, hgone⟩ := hcounted.decrementUnowned hdrops
    · exact absurd hone hne
    · apply h.setObject
      rw [hentry, hweak]
      exact .dead hgone

theorem allocObject_spec (h : LivesOn size nativeValue owned weak m) (hown : (owned object).allocated = false) :
    wp (allocObject object)
      (fun _ m' => LivesOn size nativeValue
        (Function.update owned object { Owned.none with strong := 1, allocated := true }) weak m') Aborts m := by
  obtain ⟨-, hentry, -, hweak⟩ := (h.life object).of_not_allocated hown
  apply h.setObject
  rw [hentry, hweak]
  apply Life.withoutSideTable
  cases size <;> exact ⟨rfl, rfl, rfl, by decide, by decide, rfl, fun hfalse => Bool.noConfusion hfalse⟩

end Specs

end Lifecycle

end SwiftKStdlib.Runtime
