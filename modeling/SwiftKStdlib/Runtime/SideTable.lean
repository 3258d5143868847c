import SwiftKStdlib.Runtime.RefCount

/-!
# Allocating a side table

* `RefCountBitOffsets` : the layout of a word for pointers of 4 and of 8 bytes, `Field` : its fields;
* `InlineRefCountBits`, `SideTableRefCountBits` : the words of an object and of a side table entry;
* `counts_ofInline` : the entry gets the counts of the word;
* `allocateSideTable` : the loop over the words that other threads may leave in the object;
* `disposesEntry_iff` : when the entry it allocates is installed or deleted.
-/

namespace SwiftKStdlib.Runtime

open Lib (BitField.get BitField.set BitField.toNat_get BitField.getLsbD_get BitField.get_set_self
  BitField.get_set_of_disjoint)

/-! ## Layout -/

/-- `RefCountBitOffsets`. -/
structure RefCountBitOffsets where
  unownedRefCountBitCount : Nat
  strongExtraRefCountBitCount : Nat
  sideTableUnusedLowBits : Nat

/-- `sizeof(void *)`. -/
inductive PointerSize where
  | four
  | eight
  deriving DecidableEq, Repr

inductive Field where
  | isPinned
  | unownedRefCount
  | isDeiniting
  | strongExtraRefCount
  | useSlowRC
  deriving DecidableEq, Repr

namespace RefCountBitOffsets

def offsets8 : RefCountBitOffsets := ⟨31, 30, 3⟩

def offsets4 : RefCountBitOffsets := ⟨7, 22, 2⟩

variable (o : RefCountBitOffsets)

def bitCount : Field → Nat
  | .isPinned => 1
  | .unownedRefCount => o.unownedRefCountBitCount
  | .isDeiniting => 1
  | .strongExtraRefCount => o.strongExtraRefCountBitCount
  | .useSlowRC => 1

def unownedRefCountShift : Nat := 0 + o.bitCount .isPinned

def isDeinitingShift : Nat := o.unownedRefCountShift + o.bitCount .unownedRefCount

def strongExtraRefCountShift : Nat := o.isDeinitingShift + o.bitCount .isDeiniting

def useSlowRCShift : Nat := o.strongExtraRefCountShift + o.bitCount .strongExtraRefCount

def shift : Field → Nat
  | .isPinned => 0
  | .unownedRefCount => o.unownedRefCountShift
  | .isDeiniting => o.isDeinitingShift
  | .strongExtraRefCount => o.strongExtraRefCountShift
  | .useSlowRC => o.useSlowRCShift

/-- `8 * sizeof(bits)`. -/
def width : Nat := o.useSlowRCShift + o.bitCount .useSlowRC

def sideTableBitCount : Nat := o.width - 2

def getField {n : Nat} (bits : BitVec n) (f : Field) : BitVec n := BitField.get bits (o.shift f) (o.bitCount f)

def setField {n : Nat} (bits : BitVec n) (f : Field) (val : BitVec n) : BitVec n :=
  BitField.set bits (o.shift f) (o.bitCount f) val

def counts {n : Nat} (bits : BitVec n) : Counts :=
  ⟨o.getField bits .isPinned != 0, (o.getField bits .unownedRefCount).toNat, o.getField bits .isDeiniting != 0,
    (o.getField bits .strongExtraRefCount).toNat⟩

theorem shifts : o.unownedRefCountShift = 1 ∧ o.isDeinitingShift = 1 + o.unownedRefCountBitCount ∧
    o.strongExtraRefCountShift = 2 + o.unownedRefCountBitCount ∧
    o.useSlowRCShift = 2 + o.unownedRefCountBitCount + o.strongExtraRefCountBitCount ∧
    o.width = 3 + o.unownedRefCountBitCount + o.strongExtraRefCountBitCount := by
  simp only [width, useSlowRCShift, strongExtraRefCountShift, isDeinitingShift, unownedRefCountShift, bitCount,
    true_and]
  omega

theorem disjoint {f g : Field} (h : f ≠ g) :
    o.shift g + o.bitCount g ≤ o.shift f ∨ o.shift f + o.bitCount f ≤ o.shift g := by
  have hshifts := o.shifts
  cases f <;> cases g <;> first | exact absurd rfl h | (simp only [shift, bitCount]; omega)

theorem shift_add_bitCount_le (f : Field) : o.shift f + o.bitCount f ≤ o.width := by
  have hshifts := o.shifts
  cases f <;> simp only [shift, bitCount] <;> omega

theorem bitCount_lt (f : Field) : o.bitCount f < o.width := by
  have hshifts := o.shifts
  cases f <;> simp only [bitCount] <;> omega

end RefCountBitOffsets

open RefCountBitOffsets

def PointerSize.offsets : PointerSize → RefCountBitOffsets
  | .four => offsets4
  | .eight => offsets8

abbrev Pointer (size : PointerSize) : Type := BitVec size.offsets.width

/-! ## Words -/

/-- `InlineRefCountBits`, the word in an object. -/
abbrev InlineRefCountBits (size : PointerSize) : Type := BitVec size.offsets.width

namespace InlineRefCountBits

variable {size : PointerSize}

/-- `RefCountBitsT(HeapObjectSideTableEntry *side)`. -/
def ofSideTable (side : Pointer size) : InlineRefCountBits size :=
  (side >>> size.offsets.sideTableUnusedLowBits) ||| (1#_ <<< size.offsets.shift .useSlowRC) |||
    (1#_ <<< size.offsets.sideTableBitCount)

def hasSideTable (bits : InlineRefCountBits size) : Bool := size.offsets.getField bits .useSlowRC != 0

def getSideTable (bits : InlineRefCountBits size) : Pointer size :=
  BitField.get bits 0 size.offsets.sideTableBitCount <<< size.offsets.sideTableUnusedLowBits

def getIsDeiniting (bits : InlineRefCountBits size) : Bool := size.offsets.getField bits .isDeiniting != 0

def counts (bits : InlineRefCountBits size) : Counts := size.offsets.counts bits

end InlineRefCountBits

/-- `SideTableRefCountBits`, with the same layout for all pointers. -/
structure SideTableRefCountBits where
  bits : BitVec 64
  weakBits : BitVec 32
  deriving DecidableEq, Repr

namespace SideTableRefCountBits

def counts (b : SideTableRefCountBits) : Counts := offsets8.counts b.bits

/-- `copyFieldFrom`. -/
def copyFieldFrom (o : RefCountBitOffsets) {n : Nat} (src : BitVec n) (bits : BitVec 64) (f : Field) : BitVec 64 :=
  offsets8.setField bits f ((o.getField src f).setWidth 64)

/-- `SideTableRefCountBits(InlineRefCountBits newbits)`. The weak count starts at 1 on behalf of the unowned count. -/
def ofInline {size : PointerSize} (newbits : InlineRefCountBits size) : SideTableRefCountBits where
  bits :=
    if size.offsets.width = 64 then newbits.setWidth 64
    else
      [.unownedRefCount, .isPinned, .isDeiniting, .strongExtraRefCount, .useSlowRC].foldl
        (copyFieldFrom size.offsets newbits) 0
  weakBits := 1

end SideTableRefCountBits

/-! ## The counts of the entry -/

section Copying

variable {o : RefCountBitOffsets} {n : Nat}

theorem toNat_getField (o : RefCountBitOffsets) (bits : BitVec o.width) (f : Field) :
    (o.getField bits f).toNat = bits.toNat / 2 ^ o.shift f % 2 ^ o.bitCount f :=
  BitField.toNat_get (o.bitCount_lt f) bits

theorem getField_copyFieldFrom_of_ne {f g : Field} (h : f ≠ g) (src : BitVec n) (bits : BitVec 64) :
    offsets8.getField (SideTableRefCountBits.copyFieldFrom o src bits f) g = offsets8.getField bits g :=
  BitField.get_set_of_disjoint (offsets8.bitCount_lt f) (offsets8.bitCount_lt g) (offsets8.disjoint h) _ _

theorem toNat_getField_copyFieldFrom_self {f : Field} (src : BitVec o.width) (hwidth : o.width ≤ 64)
    (hle : o.bitCount f ≤ offsets8.bitCount f) (bits : BitVec 64) :
    (offsets8.getField (SideTableRefCountBits.copyFieldFrom o src bits f) f).toNat = (o.getField src f).toNat := by
  have hlt : (o.getField src f).toNat < 2 ^ offsets8.bitCount f := by
    rw [toNat_getField]
    exact (Nat.mod_lt _ (Nat.two_pow_pos _)).trans_le (Nat.pow_le_pow_right (by decide) hle)
  refine (BitField.get_set_self (offsets8.bitCount_lt f) (offsets8.shift_add_bitCount_le f) bits _).trans ?_
  rw [← Nat.mod_eq_of_lt hlt]
  exact congrArg (· % 2 ^ offsets8.bitCount f) (BitVec.toNat_setWidth_of_le hwidth)

theorem toNat_getField_foldl {f : Field} (src : BitVec o.width) (hwidth : o.width ≤ 64)
    (hle : o.bitCount f ≤ offsets8.bitCount f) (fields : List Field) (bits : BitVec 64) :
    (offsets8.getField (fields.foldl (SideTableRefCountBits.copyFieldFrom o src) bits) f).toNat =
      if f ∈ fields then (o.getField src f).toNat else (offsets8.getField bits f).toNat := by
  induction fields generalizing bits with
  | nil => simp
  | cons g fields ih =>
    rw [List.foldl_cons, ih]
    by_cases hmem : f ∈ fields
    · simp [hmem]
    · by_cases hg : f = g
      · simp [hmem, ← hg, toNat_getField_copyFieldFrom_self src hwidth hle]
      · simp [hmem, hg, getField_copyFieldFrom_of_ne (Ne.symm hg)]

end Copying

theorem bne_zero {n : Nat} (x : BitVec n) : (x != 0) = decide (x.toNat ≠ 0) := by
  rw [Bool.eq_iff_iff, bne_iff_ne, decide_eq_true_iff, ne_eq, ← BitVec.toNat_inj]
  rfl

theorem counts_eq_of_toNat {o o' : RefCountBitOffsets} {n n' : Nat} {bits : BitVec n} {bits' : BitVec n'}
    (h : ∀ f, (o.getField bits f).toNat = (o'.getField bits' f).toNat) : o.counts bits = o'.counts bits' := by
  simp only [RefCountBitOffsets.counts, bne_zero, h]

theorem counts_ofInline {size : PointerSize} (newbits : InlineRefCountBits size) :
    (SideTableRefCountBits.ofInline newbits).counts = newbits.counts := by
  apply counts_eq_of_toNat
  intro f
  cases size with
  | eight => rw [SideTableRefCountBits.ofInline, if_pos (show PointerSize.eight.offsets.width = 64 from rfl)]; rfl
  | four =>
    rw [SideTableRefCountBits.ofInline, if_neg (show ¬ PointerSize.four.offsets.width = 64 by decide)]
    have hcopied := toNat_getField_foldl (o := offsets4) (f := f) newbits (by decide) (by cases f <;> decide)
      [.unownedRefCount, .isPinned, .isDeiniting, .strongExtraRefCount, .useSlowRC] 0
    rwa [if_pos (by cases f <;> simp)] at hcopied

/-! ## The pointer of the entry -/

section Pointer

variable {size : PointerSize} (side : Pointer size)

theorem hasSideTable_ofSideTable : InlineRefCountBits.hasSideTable (.ofSideTable side) = true := by
  have hlt := size.offsets.bitCount_lt .useSlowRC
  have hwidth := size.offsets.shift_add_bitCount_le .useSlowRC
  have hbit : (size.offsets.getField (InlineRefCountBits.ofSideTable side) .useSlowRC).getLsbD 0 = true := by
    rw [RefCountBitOffsets.getField, BitField.getLsbD_get hlt, InlineRefCountBits.ofSideTable]
    have hwidth : size.offsets.shift .useSlowRC < size.offsets.width := Nat.lt_of_succ_le hwidth
    simp [hwidth, bitCount]
  rw [InlineRefCountBits.hasSideTable, bne_iff_ne]
  intro hzero
  rw [hzero] at hbit
  simp at hbit

theorem getSideTable_ofSideTable (haligned : side.toNat % 2 ^ size.offsets.sideTableUnusedLowBits = 0) :
    InlineRefCountBits.getSideTable (.ofSideTable side) = side := by
  obtain ⟨-, -, -, hslow, hwidth⟩ := size.offsets.shifts
  have htwo : 2 ≤ size.offsets.sideTableUnusedLowBits := by cases size <;> decide
  apply BitVec.eq_of_getLsbD_eq
  intro i hi
  rw [InlineRefCountBits.getSideTable, BitVec.getLsbD_shiftLeft,
    BitField.getLsbD_get (by rw [sideTableBitCount]; omega), InlineRefCountBits.ofSideTable]
  by_cases hlow : i < size.offsets.sideTableUnusedLowBits
  · have hbit : side.getLsbD i = false := by
      have := Nat.testBit_mod_two_pow side.toNat size.offsets.sideTableUnusedLowBits i
      rw [haligned, Nat.zero_testBit, decide_eq_true hlow, Bool.true_and] at this
      exact this.symm
    simp [hlow, hbit]
  · have hbelow : i - size.offsets.sideTableUnusedLowBits < size.offsets.sideTableBitCount := by
      rw [sideTableBitCount]
      omega
    have hhigh : ¬ size.offsets.shift .useSlowRC ≤ i - size.offsets.sideTableUnusedLowBits := by
      rw [sideTableBitCount] at hbelow
      rw [shift]
      omega
    simp [hlow, hi, hbelow, hhigh, Nat.add_sub_cancel' (Nat.le_of_not_lt hlow)]

end Pointer

/-! ## The loop -/

structure HeapObjectSideTableEntry (size : PointerSize) where
  object : Pointer size
  refCounts : SideTableRefCountBits

/-- What `allocateSideTable` returns and leaves. -/
structure Allocation (size : PointerSize) where
  /-- `none` is `nullptr`. -/
  result : Option (Pointer size)
  /-- The word in the object. -/
  refCounts : InlineRefCountBits size
  /-- The word that the compare-exchange has replaced. -/
  replaced : Option (InlineRefCountBits size)
  /-- What `new` has returned. -/
  allocated : Option (Pointer size)
  /-- The entries in memory. -/
  entries : Pointer size → Option (HeapObjectSideTableEntry size)

section Allocating

variable {size : PointerSize} (object side : Pointer size)

/-- The loop, after `new` has returned `side`. The compare-exchange fails once for each word of `failures`, and reads that
word; then it succeeds. -/
def exchange (entries : Pointer size → Option (HeapObjectSideTableEntry size)) (oldbits : InlineRefCountBits size)
    (failures : List (InlineRefCountBits size)) : Allocation size :=
  if oldbits.hasSideTable then
    ⟨some oldbits.getSideTable, oldbits, none, some side, Function.update entries side none⟩
  else if oldbits.getIsDeiniting then ⟨none, oldbits, none, some side, entries⟩
  else
    let entries := Function.update entries side (some ⟨object, .ofInline oldbits⟩)
    match failures with
    | [] => ⟨some side, .ofSideTable side, some oldbits, some side, entries⟩
    | read :: failures => exchange entries read failures

/-- `refCounts` is the word that is loaded, and `failures` the words that the compare-exchange reads when it fails. -/
def allocateSideTable (entries : Pointer size → Option (HeapObjectSideTableEntry size))
    (refCounts : InlineRefCountBits size) (failures : List (InlineRefCountBits size)) : Allocation size :=
  if refCounts.hasSideTable then ⟨some refCounts.getSideTable, refCounts, none, none, entries⟩
  else if refCounts.getIsDeiniting then ⟨none, refCounts, none, none, entries⟩
  else
    let entries := Function.update entries side (some ⟨object, ⟨0, 0⟩⟩)
    exchange object side entries refCounts failures

namespace Allocation

/-- The entry is the one of the object, with the counts of the word it has replaced. -/
def Installed (a : Allocation size) (side : Pointer size) : Prop :=
  a.refCounts = .ofSideTable side ∧ ∃ oldbits entry, a.replaced = some oldbits ∧ oldbits.hasSideTable = false ∧
    a.entries side = some entry ∧ entry.object = object ∧ entry.refCounts.counts = oldbits.counts ∧
    entry.refCounts.weakBits = 1

/-- The allocated entry is installed or deleted, and the entry of the object is returned if it has one. -/
structure DisposesEntry (a : Allocation size) : Prop where
  disposed : ∀ side, a.allocated = some side → a.Installed object side ∨ a.entries side = none
  result : ∀ side, a.result = some side → a.refCounts.hasSideTable = true ∧ a.refCounts.getSideTable = side
  null : a.result = none → a.refCounts.hasSideTable = false ∧ a.refCounts.getIsDeiniting = true

end Allocation

def stops (oldbits : InlineRefCountBits size) : Bool := oldbits.hasSideTable || oldbits.getIsDeiniting

def BeginsDeinit (refCounts : InlineRefCountBits size) (failures : List (InlineRefCountBits size)) : Prop :=
  stops refCounts = false ∧ ∃ read, failures.find? stops = some read ∧ read.hasSideTable = false

variable {object side}

open Allocation

theorem disposesEntry_deleted {oldbits : InlineRefCountBits size} (h : oldbits.hasSideTable = true)
    (entries : Pointer size → Option (HeapObjectSideTableEntry size)) :
    DisposesEntry object ⟨some oldbits.getSideTable, oldbits, none, some side, Function.update entries side none⟩ where
  disposed side' hside := by
    obtain rfl := Option.some.inj hside
    exact .inr (Function.update_self side none entries)
  result side' hside := ⟨h, Option.some.inj hside⟩
  null hnull := absurd hnull (Option.some_ne_none _)

theorem not_disposesEntry_leaked (oldbits : InlineRefCountBits size)
    {entries : Pointer size → Option (HeapObjectSideTableEntry size)} (hside : entries side ≠ none) :
    ¬ DisposesEntry object ⟨none, oldbits, none, some side, entries⟩ := by
  intro h
  rcases h.disposed side rfl with ⟨-, oldbits', -, hreplaced, -⟩ | hdeleted
  · exact Option.some_ne_none oldbits' hreplaced.symm
  · exact hside hdeleted

theorem disposesEntry_installed (haligned : side.toNat % 2 ^ size.offsets.sideTableUnusedLowBits = 0)
    {oldbits : InlineRefCountBits size} (h : oldbits.hasSideTable = false)
    (entries : Pointer size → Option (HeapObjectSideTableEntry size)) :
    DisposesEntry object ⟨some side, .ofSideTable side, some oldbits, some side,
      Function.update entries side (some ⟨object, .ofInline oldbits⟩)⟩ where
  disposed side' hside := by
    obtain rfl := Option.some.inj hside
    exact .inl ⟨rfl, oldbits, _, rfl, h, Function.update_self side _ entries, rfl, counts_ofInline oldbits, rfl⟩
  result side' hside := by
    obtain rfl := Option.some.inj hside
    exact ⟨hasSideTable_ofSideTable side, getSideTable_ofSideTable side haligned⟩
  null hnull := absurd hnull (Option.some_ne_none _)

theorem disposesEntry_stopped_iff {oldbits : InlineRefCountBits size} (hstops : stops oldbits = true)
    (failures : List (InlineRefCountBits size)) {entries : Pointer size → Option (HeapObjectSideTableEntry size)}
    (hside : entries side ≠ none) :
    (exchange object side entries oldbits failures).DisposesEntry object ↔ oldbits.hasSideTable = true := by
  by_cases htable : oldbits.hasSideTable = true
  · have hexchange : exchange object side entries oldbits failures =
        ⟨some oldbits.getSideTable, oldbits, none, some side, Function.update entries side none⟩ := by
      cases failures <;> rw [exchange, if_pos htable]
    rw [hexchange]
    exact iff_of_true (disposesEntry_deleted htable entries) htable
  · have hdeiniting : oldbits.getIsDeiniting = true := by
      simpa [stops, htable] using hstops
    have hexchange : exchange object side entries oldbits failures = ⟨none, oldbits, none, some side, entries⟩ := by
      cases failures <;> rw [exchange, if_neg htable, if_pos hdeiniting]
    rw [hexchange]
    exact iff_of_false (not_disposesEntry_leaked oldbits hside) htable

theorem disposesEntry_exchange_iff (haligned : side.toNat % 2 ^ size.offsets.sideTableUnusedLowBits = 0)
    (failures : List (InlineRefCountBits size)) (oldbits : InlineRefCountBits size)
    (entries : Pointer size → Option (HeapObjectSideTableEntry size)) (hside : entries side ≠ none) :
    (exchange object side entries oldbits failures).DisposesEntry object ↔
      ¬ ∃ read, (oldbits :: failures).find? stops = some read ∧ read.hasSideTable = false := by
  induction failures generalizing oldbits entries with
  | nil =>
    by_cases hstops : stops oldbits = true
    · rw [disposesEntry_stopped_iff hstops _ hside, List.find?_cons, hstops]
      simp
    · have hstays := Bool.or_eq_false_iff.1 (Bool.eq_false_iff.2 hstops)
      rw [exchange, if_neg (Bool.eq_false_iff.1 hstays.1), if_neg (Bool.eq_false_iff.1 hstays.2)]
      simp [disposesEntry_installed haligned hstays.1, hstops]
  | cons read failures ih =>
    by_cases hstops : stops oldbits = true
    · rw [disposesEntry_stopped_iff hstops _ hside, List.find?_cons, hstops]
      simp
    · have hstays := Bool.or_eq_false_iff.1 (Bool.eq_false_iff.2 hstops)
      rw [exchange, if_neg (Bool.eq_false_iff.1 hstays.1), if_neg (Bool.eq_false_iff.1 hstays.2), List.find?_cons,
        Bool.eq_false_iff.2 hstops]
      exact ih read _ (by simp)

/-- For every sequence of words, the allocated entry is installed with the counts of the word it replaces or deleted, and
the entry of the object is returned, exactly when the object does not begin deinit in between. -/
theorem disposesEntry_iff (haligned : side.toNat % 2 ^ size.offsets.sideTableUnusedLowBits = 0)
    (entries : Pointer size → Option (HeapObjectSideTableEntry size)) (refCounts : InlineRefCountBits size)
    (failures : List (InlineRefCountBits size)) :
    (allocateSideTable object side entries refCounts failures).DisposesEntry object ↔
      ¬ BeginsDeinit refCounts failures := by
  by_cases htable : refCounts.hasSideTable = true
  · rw [allocateSideTable, if_pos htable]
    have hstops : ¬ stops refCounts = false := by simp [stops, htable]
    refine iff_of_true ⟨fun side' hside => ?_, fun side' hside => ?_, fun hnull => ?_⟩ (mt And.left hstops)
    · exact absurd hside.symm (Option.some_ne_none side')
    · exact ⟨htable, Option.some.inj hside⟩
    · exact absurd hnull (Option.some_ne_none _)
  · by_cases hdeiniting : refCounts.getIsDeiniting = true
    · rw [allocateSideTable, if_neg htable, if_pos hdeiniting]
      have hstops : ¬ stops refCounts = false := by simp [stops, hdeiniting]
      refine iff_of_true ⟨fun side' hside => ?_, fun side' hside => ?_, fun hnull => ?_⟩ (mt And.left hstops)
      · exact absurd hside.symm (Option.some_ne_none side')
      · exact absurd hside.symm (Option.some_ne_none side')
      · exact ⟨Bool.eq_false_iff.2 htable, hdeiniting⟩
    · have hstays : stops refCounts = false := by simp [htable, hdeiniting, stops]
      rw [allocateSideTable, if_neg htable, if_neg hdeiniting, BeginsDeinit, and_iff_right hstays]
      refine (disposesEntry_exchange_iff haligned failures refCounts _ (by simp)).trans ?_
      rw [List.find?_cons, hstays]

/-- The counts change once, and then another thread installs an entry. -/
theorem disposesEntry_iff_raced :
    (allocateSideTable (0x7000 : Pointer .eight) 0x9000 (fun _ => none) 2 [2 ^ 33 + 2, .ofSideTable 0x8000]).DisposesEntry
      0x7000 ↔ ¬ BeginsDeinit (2 : InlineRefCountBits .eight) [2 ^ 33 + 2, .ofSideTable 0x8000] :=
  disposesEntry_iff (by decide) _ _ _

/-- The last reference of the object is released after the load. -/
theorem not_disposesEntry_deiniting :
    ¬ (allocateSideTable (0x7000 : Pointer .eight) 0x9000 (fun _ => none) 2 [2 ^ 32 + 2]).DisposesEntry 0x7000 := by
  intro h
  rcases h.disposed 0x9000 rfl with ⟨hword, -⟩ | hdeleted
  · exact absurd hword (by decide)
  · exact absurd (congrArg Option.isSome hdeleted) (by decide)

end Allocating

end SwiftKStdlib.Runtime
