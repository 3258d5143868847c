import Mathlib.Tactic
import SwiftKStdlib.Lib.BitField

/-!
# Reference counts in one word

* `RefCountBits` : the 64-bit layout of `RefCountBitsT`, its fields and the single-addition paths;
* `Encodes` : a word with counts, or with a pointer to a side table;
* `FastPathsAgree` : the paths do what the fields say;
* `fastPathsAgree_iff` : when they do.
-/

namespace SwiftKStdlib.Runtime

open Lib (BitField.get BitField.set BitField.toNat_get BitField.get_set_self BitField.get_set_of_disjoint)

/-- `RefCountBitsT`. -/
structure RefCountBits where
  bits : BitVec 64
  deriving DecidableEq, Repr

namespace RefCountBits

/-! ## Fields -/

def isPinnedShift : Nat := 0
def isPinnedBitCount : Nat := 1
def unownedRefCountShift : Nat := isPinnedShift + isPinnedBitCount
def unownedRefCountBitCount : Nat := 31
def isDeinitingShift : Nat := unownedRefCountShift + unownedRefCountBitCount
def isDeinitingBitCount : Nat := 1
def strongExtraRefCountShift : Nat := isDeinitingShift + isDeinitingBitCount
def strongExtraRefCountBitCount : Nat := 30
def useSlowRCShift : Nat := strongExtraRefCountShift + strongExtraRefCountBitCount
def useSlowRCBitCount : Nat := 1
def sideTableShift : Nat := 0
def sideTableBitCount : Nat := 62
def sideTableUnusedLowBits : Nat := 3
def sideTableMarkShift : Nat := sideTableBitCount

/-- `RefCountBitsT(HeapObjectSideTableEntry *side)`. -/
def ofSideTable (side : BitVec 64) : RefCountBits :=
  ⟨(side >>> sideTableUnusedLowBits) ||| (1#64 <<< useSlowRCShift) ||| (1#64 <<< sideTableMarkShift)⟩

def getUseSlowRC (b : RefCountBits) : Bool :=
  BitField.get b.bits useSlowRCShift useSlowRCBitCount != 0

def hasSideTable (b : RefCountBits) : Bool := b.getUseSlowRC

def getSideTable (b : RefCountBits) : BitVec 64 :=
  BitField.get b.bits sideTableShift sideTableBitCount <<< sideTableUnusedLowBits

def getUnownedRefCount (b : RefCountBits) : BitVec 32 :=
  (BitField.get b.bits unownedRefCountShift unownedRefCountBitCount).setWidth 32

def getIsPinned (b : RefCountBits) : Bool :=
  BitField.get b.bits isPinnedShift isPinnedBitCount != 0

def getIsDeiniting (b : RefCountBits) : Bool :=
  BitField.get b.bits isDeinitingShift isDeinitingBitCount != 0

def getStrongExtraRefCount (b : RefCountBits) : BitVec 32 :=
  (BitField.get b.bits strongExtraRefCountShift strongExtraRefCountBitCount).setWidth 32

def setUnownedRefCount (b : RefCountBits) (value : BitVec 32) : RefCountBits :=
  ⟨BitField.set b.bits unownedRefCountShift unownedRefCountBitCount (value.setWidth 64)⟩

/-! ## Single-addition paths -/

def incrementStrongExtraRefCount (b : RefCountBits) (inc : BitVec 32) : RefCountBits × Bool :=
  let bits := b.bits + (inc.setWidth 64 <<< strongExtraRefCountShift)
  (⟨bits⟩, decide (0 ≤ bits.toInt))

/-- The new bits, and whether the decrement is a fast-path result. -/
def decrementStrongExtraRefCount (b : RefCountBits) (clearPinnedFlag : Bool) (dec : BitVec 32) :
    RefCountBits × Bool :=
  let unpin : BitVec 64 := if clearPinnedFlag then 1#64 <<< isPinnedShift else 0
  let bits := b.bits - (unpin + (dec.setWidth 64 <<< strongExtraRefCountShift))
  (⟨bits⟩, decide (0 ≤ bits.toInt))

def incrementUnownedRefCount (b : RefCountBits) (inc : BitVec 32) : RefCountBits × BitVec 32 :=
  let old := b.getUnownedRefCount
  (b.setUnownedRefCount (old + inc), old)

def isUniquelyReferenced (b : RefCountBits) : Bool :=
  !b.getUseSlowRC && !b.getIsDeiniting && b.getStrongExtraRefCount == 0

def isUniquelyReferencedOrPinned (b : RefCountBits) : Bool :=
  let ignoredBitsCount := unownedRefCountBitCount + isDeinitingBitCount
  let x : BitVec 64 := 1#64 <<< ignoredBitsCount
  let rotatedBits := (b.bits >>> 1) ||| (b.bits <<< (8 * 8 - 1))
  decide (rotatedBits.toInt < x.toInt)

/-- What one round of `incrementUnowned` does with the bits it has loaded. -/
inductive Unowned where
  | sideTable (side : BitVec 64)
  | slow
  | store (newbits : RefCountBits)
  deriving DecidableEq, Repr

def incrementUnowned (oldbits : RefCountBits) (inc : BitVec 32) : Unowned :=
  if oldbits.hasSideTable then .sideTable oldbits.getSideTable
  else
    let (newbits, oldValue) := oldbits.incrementUnownedRefCount inc
    if newbits.getUnownedRefCount ≠ oldValue + inc then .slow else .store newbits

/-! ## The fields as numbers -/

variable (b : RefCountBits)

theorem toNat_setWidth_get {s w : Nat} (hw : w ≤ 32) (x : BitVec 64) :
    ((BitField.get x s w).setWidth 32).toNat = x.toNat / 2 ^ s % 2 ^ w := by
  have hlt : x.toNat / 2 ^ s % 2 ^ w < 2 ^ 32 :=
    (Nat.mod_lt _ (Nat.two_pow_pos w)).trans_le (Nat.pow_le_pow_right (by decide) hw)
  rw [BitVec.toNat_setWidth, BitField.toNat_get (by omega), Nat.mod_eq_of_lt hlt]

theorem get_bit_ne_zero {s : Nat} (x : BitVec 64) :
    (BitField.get x s 1 != 0) = decide (x.toNat / 2 ^ s % 2 = 1) := by
  have hget : (BitField.get x s 1).toNat = x.toNat / 2 ^ s % 2 := BitField.toNat_get (by decide) x
  have hlt : x.toNat / 2 ^ s % 2 < 2 := Nat.mod_lt _ (by decide)
  rw [Bool.eq_iff_iff, bne_iff_ne, ne_eq, decide_eq_true_eq, ← BitVec.toNat_inj, hget]
  change ¬ _ = 0 ↔ _
  omega

theorem getUseSlowRC_eq : b.getUseSlowRC = decide (2 ^ 63 ≤ b.bits.toNat) := by
  have hlt := b.bits.isLt
  unfold getUseSlowRC useSlowRCBitCount
  rw [get_bit_ne_zero, Bool.eq_iff_iff, decide_eq_true_eq, decide_eq_true_eq]
  change b.bits.toNat / 2 ^ 63 % 2 = 1 ↔ _
  omega

theorem getIsPinned_eq : b.getIsPinned = decide (b.bits.toNat % 2 = 1) := by
  unfold getIsPinned isPinnedBitCount
  rw [get_bit_ne_zero]
  change decide (b.bits.toNat / 2 ^ 0 % 2 = 1) = _
  rw [pow_zero, Nat.div_one]

theorem getIsDeiniting_eq : b.getIsDeiniting = decide (b.bits.toNat / 2 ^ 32 % 2 = 1) :=
  get_bit_ne_zero b.bits

theorem toNat_getUnownedRefCount : b.getUnownedRefCount.toNat = b.bits.toNat / 2 % 2 ^ 31 :=
  toNat_setWidth_get (by decide) b.bits

theorem toNat_getStrongExtraRefCount :
    b.getStrongExtraRefCount.toNat = b.bits.toNat / 2 ^ 33 % 2 ^ 30 :=
  toNat_setWidth_get (by decide) b.bits

end RefCountBits

/-! ## The fields, one by one -/

/-- The fields of a word without a side table. -/
structure Counts where
  isPinned : Bool
  unowned : Nat
  isDeiniting : Bool
  strongExtra : Nat
  deriving DecidableEq, Repr

namespace Counts

def incrementStrongExtra (c : Counts) (inc : Nat) : Option Counts :=
  if c.strongExtra + inc < 2 ^ 30 then some { c with strongExtra := c.strongExtra + inc } else none

/-- The decrement that would drop the last reference is none. -/
def decrementStrongExtra (c : Counts) (clearPinnedFlag : Bool) (dec : Nat) : Option Counts :=
  if dec ≤ c.strongExtra then
    some { c with isPinned := c.isPinned && !clearPinnedFlag, strongExtra := c.strongExtra - dec }
  else none

def incrementUnowned (c : Counts) (inc : Nat) : Option Counts :=
  if c.unowned + inc < 2 ^ 31 then some { c with unowned := c.unowned + inc } else none

def IsUniquelyReferenced (c : Counts) : Prop := c.isDeiniting = false ∧ c.strongExtra = 0

end Counts

namespace RefCountBits

/-- The fields of the word, if it has no side table. -/
def counts (b : RefCountBits) : Option Counts :=
  if b.hasSideTable then none
  else some ⟨b.getIsPinned, b.getUnownedRefCount.toNat, b.getIsDeiniting,
    b.getStrongExtraRefCount.toNat⟩

/-- The word holds counts with at least one unowned reference, or an aligned side table pointer. -/
def Encodes (b : RefCountBits) : Prop :=
  (∃ c, b.counts = some c ∧ 0 < c.unowned) ∨
    ∃ side : BitVec 64, side.toNat % 16 = 0 ∧ b = ofSideTable side

/-- A fast path is reported when the fields allow it, and then leaves the fields `expected`. -/
def Reports (r : RefCountBits × Bool) (expected : Option Counts) : Prop :=
  (r.2 = true ↔ expected.isSome) ∧ (r.2 = true → r.1.counts = expected)

structure FastPathsAgree (b : RefCountBits) (inc dec : BitVec 32) (clearPinnedFlag : Bool) :
    Prop where
  increment : Reports (b.incrementStrongExtraRefCount inc)
    (b.counts.bind fun c => c.incrementStrongExtra inc.toNat)
  /-- The assertion: what is unpinned is pinned. -/
  decrement : (∀ c, b.counts = some c → clearPinnedFlag = true → c.isPinned = true) →
    Reports (b.decrementStrongExtraRefCount clearPinnedFlag dec)
      (b.counts.bind fun c => c.decrementStrongExtra clearPinnedFlag dec.toNat)
  unique : b.isUniquelyReferencedOrPinned = true ↔
    ∃ c, b.counts = some c ∧ (c.isPinned = true ∨ c.IsUniquelyReferenced)
  unowned : ∀ c, b.counts = some c →
    match b.incrementUnowned inc with
    | .sideTable _ => False
    | .slow => c.incrementUnowned inc.toNat = none
    | .store newbits => newbits.counts = c.incrementUnowned inc.toNat ∧ newbits.counts ≠ none
  sideTable : b.counts = none → b.incrementUnowned inc = .sideTable b.getSideTable

/-! ## The paths as arithmetic -/

variable (b : RefCountBits)

/-- The fields of a number below `2 ^ 63`. -/
def countsOf (v : Nat) : Counts :=
  ⟨decide (v % 2 = 1), v / 2 % 2 ^ 31, decide (v / 2 ^ 32 % 2 = 1), v / 2 ^ 33 % 2 ^ 30⟩

theorem counts_eq : b.counts = if 2 ^ 63 ≤ b.bits.toNat then none else some (countsOf b.bits.toNat) := by
  unfold counts hasSideTable countsOf
  rw [getUseSlowRC_eq, getIsPinned_eq, getIsDeiniting_eq, toNat_getUnownedRefCount,
    toNat_getStrongExtraRefCount]
  simp only [decide_eq_true_eq]

theorem counts_eq_none : b.counts = none ↔ 2 ^ 63 ≤ b.bits.toNat := by
  rw [counts_eq]
  split_ifs with h
  · exact iff_of_true rfl h
  · exact iff_of_false not_false h

theorem counts_of_lt (h : b.bits.toNat < 2 ^ 63) : b.counts = some (countsOf b.bits.toNat) := by
  rw [counts_eq, if_neg (Nat.not_le.2 h)]

theorem lt_of_counts {b : RefCountBits} {c : Counts} (h : b.counts = some c) :
    b.bits.toNat < 2 ^ 63 := by
  by_contra hge
  rw [(counts_eq_none b).2 (Nat.le_of_not_lt hge)] at h
  exact absurd h (by simp)

theorem hasSideTable_eq : b.hasSideTable = decide (2 ^ 63 ≤ b.bits.toNat) := getUseSlowRC_eq b

theorem nonneg_toInt_iff (x : BitVec 64) : 0 ≤ x.toInt ↔ x.toNat < 2 ^ 63 := by
  have hlt := x.isLt
  rw [BitVec.toInt_eq_toNat_cond]
  split_ifs with h
  · omega
  · omega

theorem toNat_amount {inc : BitVec 32} (hinc : inc.toNat < 2 ^ 29) :
    (inc.setWidth 64 <<< strongExtraRefCountShift).toNat = inc.toNat * 2 ^ 33 := by
  have hwidth : (inc.setWidth 64).toNat = inc.toNat := by
    rw [BitVec.toNat_setWidth, Nat.mod_eq_of_lt (by omega)]
  rw [BitVec.toNat_shiftLeft, hwidth, Nat.shiftLeft_eq]
  change inc.toNat * 2 ^ 33 % 2 ^ 64 = _
  exact Nat.mod_eq_of_lt (by omega)

theorem toNat_ofSideTable {side : BitVec 64} :
    (ofSideTable side).bits.toNat = 2 ^ 63 + 2 ^ 62 + side.toNat / 8 := by
  have hlt := side.isLt
  have hlow : (side >>> sideTableUnusedLowBits).toNat = side.toNat / 8 := by
    rw [BitVec.toNat_ushiftRight, Nat.shiftRight_eq_div_pow]
    rfl
  have hslow : (1#64 <<< useSlowRCShift).toNat = 2 ^ 63 * 1 := by decide
  have hmark : (1#64 <<< sideTableMarkShift).toNat = 2 ^ 62 * 1 := by decide
  unfold ofSideTable
  rw [BitVec.toNat_or, BitVec.toNat_or, hlow, hslow, hmark, Nat.or_assoc, Nat.or_comm,
    ← Nat.two_pow_add_eq_or_of_lt (by decide : 2 ^ 62 * 1 < 2 ^ 63), Nat.or_comm]
  have hsum : 2 ^ 63 * 1 + 2 ^ 62 * 1 = 2 ^ 62 * 3 := by decide
  rw [hsum, Nat.or_comm, ← Nat.two_pow_add_eq_or_of_lt (by omega)]
  omega

theorem counts_ofSideTable (side : BitVec 64) : (ofSideTable side).counts = none := by
  rw [counts_eq_none, toNat_ofSideTable]
  omega

/-! ### Strong references -/

theorem toNat_incrementStrongExtraRefCount {inc : BitVec 32} (hinc : inc.toNat < 2 ^ 29) :
    (b.incrementStrongExtraRefCount inc).1.bits.toNat =
      (b.bits.toNat + inc.toNat * 2 ^ 33) % 2 ^ 64 := by
  unfold incrementStrongExtraRefCount
  rw [BitVec.toNat_add, toNat_amount hinc]

theorem incrementStrongExtraRefCount_snd (inc : BitVec 32) :
    (b.incrementStrongExtraRefCount inc).2 = true ↔
      (b.incrementStrongExtraRefCount inc).1.bits.toNat < 2 ^ 63 := by
  unfold incrementStrongExtraRefCount
  rw [decide_eq_true_eq, nonneg_toInt_iff]

theorem countsOf_incrementStrongExtra {v inc : Nat} (h : v < 2 ^ 63) :
    (countsOf v).incrementStrongExtra inc =
      if v + inc * 2 ^ 33 < 2 ^ 63 then some (countsOf (v + inc * 2 ^ 33)) else none := by
  have hfit : v / 2 ^ 33 % 2 ^ 30 + inc < 2 ^ 30 ↔ v + inc * 2 ^ 33 < 2 ^ 63 := by omega
  unfold Counts.incrementStrongExtra countsOf
  simp only [hfit]
  split_ifs with hv
  · have hpin : (v + inc * 2 ^ 33) % 2 = v % 2 := by omega
    have hunowned : (v + inc * 2 ^ 33) / 2 % 2 ^ 31 = v / 2 % 2 ^ 31 := by omega
    have hdeiniting : (v + inc * 2 ^ 33) / 2 ^ 32 % 2 = v / 2 ^ 32 % 2 := by omega
    have hstrong : (v + inc * 2 ^ 33) / 2 ^ 33 % 2 ^ 30 = v / 2 ^ 33 % 2 ^ 30 + inc := by omega
    rw [hpin, hunowned, hdeiniting, hstrong]
  · rfl

theorem reports_increment_of_counts {inc : BitVec 32} (hinc : inc.toNat < 2 ^ 29)
    (hb : b.bits.toNat < 2 ^ 63) :
    Reports (b.incrementStrongExtraRefCount inc)
      (b.counts.bind fun c => c.incrementStrongExtra inc.toNat) := by
  have hsum := toNat_incrementStrongExtraRefCount b hinc
  rw [Nat.mod_eq_of_lt (by omega)] at hsum
  unfold Reports
  rw [incrementStrongExtraRefCount_snd, counts_of_lt b hb, Option.bind_some,
    countsOf_incrementStrongExtra hb, ← hsum]
  refine ⟨?_, fun hlt => ?_⟩
  · split_ifs with hlt
    · exact iff_of_true hlt rfl
    · exact iff_of_false hlt Bool.false_ne_true
  · rw [if_pos hlt, counts_of_lt _ hlt]

theorem reports_increment_iff_of_sideTable {inc : BitVec 32} (hinc : inc.toNat < 2 ^ 29)
    (side : BitVec 64) :
    Reports ((ofSideTable side).incrementStrongExtraRefCount inc)
      ((ofSideTable side).counts.bind fun c => c.incrementStrongExtra inc.toNat) ↔
      side.toNat / 8 + inc.toNat * 2 ^ 33 < 2 ^ 62 := by
  have hlt := side.isLt
  have hsum := toNat_incrementStrongExtraRefCount (ofSideTable side) hinc
  rw [toNat_ofSideTable] at hsum
  unfold Reports
  rw [counts_ofSideTable, Option.bind_none, Option.isSome_none, incrementStrongExtraRefCount_snd, hsum]
  constructor
  · rintro ⟨hslow, -⟩
    by_contra hcarry
    have hfast : (2 ^ 63 + 2 ^ 62 + side.toNat / 8 + inc.toNat * 2 ^ 33) % 2 ^ 64 < 2 ^ 63 := by omega
    exact absurd (hslow.1 hfast) (by decide)
  · intro hfit
    have hslow : ¬ (2 ^ 63 + 2 ^ 62 + side.toNat / 8 + inc.toNat * 2 ^ 33) % 2 ^ 64 < 2 ^ 63 := by omega
    exact ⟨⟨fun h => absurd h hslow, fun h => absurd h (by decide)⟩, fun h => absurd h hslow⟩

theorem toNat_decrementStrongExtraRefCount {dec : BitVec 32} (hdec : dec.toNat < 2 ^ 29)
    (clearPinnedFlag : Bool) :
    (b.decrementStrongExtraRefCount clearPinnedFlag dec).1.bits.toNat =
      (2 ^ 64 - (clearPinnedFlag.toNat + dec.toNat * 2 ^ 33) + b.bits.toNat) % 2 ^ 64 := by
  have hunpin : (if clearPinnedFlag then 1#64 <<< isPinnedShift else 0 : BitVec 64).toNat =
      clearPinnedFlag.toNat := by
    cases clearPinnedFlag
    · rfl
    · rfl
  have hle := Bool.toNat_le clearPinnedFlag
  unfold decrementStrongExtraRefCount
  rw [BitVec.toNat_sub, BitVec.toNat_add, hunpin, toNat_amount hdec,
    Nat.mod_eq_of_lt (by omega : clearPinnedFlag.toNat + dec.toNat * 2 ^ 33 < 2 ^ 64)]

theorem decrementStrongExtraRefCount_snd (clearPinnedFlag : Bool) (dec : BitVec 32) :
    (b.decrementStrongExtraRefCount clearPinnedFlag dec).2 = true ↔
      (b.decrementStrongExtraRefCount clearPinnedFlag dec).1.bits.toNat < 2 ^ 63 := by
  unfold decrementStrongExtraRefCount
  rw [decide_eq_true_eq, nonneg_toInt_iff]

theorem countsOf_decrementStrongExtra {v dec : Nat} (h : v < 2 ^ 63) {clearPinnedFlag : Bool}
    (hpinned : clearPinnedFlag = true → v % 2 = 1) :
    (countsOf v).decrementStrongExtra clearPinnedFlag dec =
      if clearPinnedFlag.toNat + dec * 2 ^ 33 ≤ v then
        some (countsOf (v - (clearPinnedFlag.toNat + dec * 2 ^ 33))) else none := by
  have hle := Bool.toNat_le clearPinnedFlag
  have hpin : clearPinnedFlag.toNat ≤ v % 2 := by
    cases clearPinnedFlag with
    | false => exact Nat.zero_le _
    | true => exact (hpinned rfl).ge
  have hfit : dec ≤ v / 2 ^ 33 % 2 ^ 30 ↔ clearPinnedFlag.toNat + dec * 2 ^ 33 ≤ v := by omega
  unfold Counts.decrementStrongExtra countsOf
  simp only [hfit]
  split_ifs with hv
  · generalize hv' : v - (clearPinnedFlag.toNat + dec * 2 ^ 33) = v'
    have hlow : v' % 2 = v % 2 - clearPinnedFlag.toNat := by omega
    have hunowned : v' / 2 % 2 ^ 31 = v / 2 % 2 ^ 31 := by omega
    have hdeiniting : v' / 2 ^ 32 % 2 = v / 2 ^ 32 % 2 := by omega
    have hstrong : v' / 2 ^ 33 % 2 ^ 30 = v / 2 ^ 33 % 2 ^ 30 - dec := by omega
    have hbit : decide (v' % 2 = 1) = (decide (v % 2 = 1) && !clearPinnedFlag) := by
      rw [hlow]
      cases clearPinnedFlag with
      | false => simp
      | true => simp [hpinned rfl]
    rw [hbit, hunowned, hdeiniting, hstrong]
  · rfl

theorem reports_decrement (hb : b.Encodes) {dec : BitVec 32} (hdec : dec.toNat < 2 ^ 29)
    (clearPinnedFlag : Bool)
    (hpinned : ∀ c, b.counts = some c → clearPinnedFlag = true → c.isPinned = true) :
    Reports (b.decrementStrongExtraRefCount clearPinnedFlag dec)
      (b.counts.bind fun c => c.decrementStrongExtra clearPinnedFlag dec.toNat) := by
  have hle := Bool.toNat_le clearPinnedFlag
  have hdiff := toNat_decrementStrongExtraRefCount b hdec clearPinnedFlag
  unfold Reports
  rw [decrementStrongExtraRefCount_snd]
  rcases hb with ⟨c, hcounts, -⟩ | ⟨side, -, rfl⟩
  · have hb := lt_of_counts hcounts
    have hpin : clearPinnedFlag = true → b.bits.toNat % 2 = 1 := fun h =>
      of_decide_eq_true (hpinned _ (counts_of_lt b hb) h)
    rw [counts_of_lt b hb, Option.bind_some, countsOf_decrementStrongExtra hb hpin]
    split_ifs with hfit
    · have hval : (b.decrementStrongExtraRefCount clearPinnedFlag dec).1.bits.toNat =
          b.bits.toNat - (clearPinnedFlag.toNat + dec.toNat * 2 ^ 33) := by omega
      have hlt : (b.decrementStrongExtraRefCount clearPinnedFlag dec).1.bits.toNat < 2 ^ 63 := by omega
      refine ⟨iff_of_true hlt rfl, fun _ => ?_⟩
      rw [counts_of_lt _ hlt, hval]
    · have hslow : ¬ (b.decrementStrongExtraRefCount clearPinnedFlag dec).1.bits.toNat < 2 ^ 63 := by omega
      exact ⟨iff_of_false hslow Bool.false_ne_true, fun h => absurd h hslow⟩
  · -- the mark bit takes the borrow, and `UseSlowRC` stays
    rw [toNat_ofSideTable] at hdiff
    have hside := side.isLt
    have hslow : ¬ ((ofSideTable side).decrementStrongExtraRefCount clearPinnedFlag dec).1.bits.toNat <
        2 ^ 63 := by omega
    rw [counts_ofSideTable, Option.bind_none]
    exact ⟨⟨fun h => absurd h hslow, fun h => absurd h (by decide)⟩, fun h => absurd h hslow⟩

/-! ### Uniqueness -/

theorem toNat_rotated :
    ((b.bits >>> 1) ||| (b.bits <<< (8 * 8 - 1))).toNat =
      b.bits.toNat % 2 * 2 ^ 63 + b.bits.toNat / 2 := by
  have hlt := b.bits.isLt
  have hhigh : (b.bits <<< (8 * 8 - 1)).toNat = 2 ^ 63 * (b.bits.toNat % 2) := by
    rw [BitVec.toNat_shiftLeft, Nat.shiftLeft_eq]
    omega
  have hlow : (b.bits >>> 1).toNat = b.bits.toNat / 2 := by
    rw [BitVec.toNat_ushiftRight, Nat.shiftRight_eq_div_pow, pow_one]
  rw [BitVec.toNat_or, hhigh, hlow, Nat.or_comm, ← Nat.two_pow_add_eq_or_of_lt (by omega), Nat.mul_comm]

theorem isUniquelyReferencedOrPinned_iff :
    b.isUniquelyReferencedOrPinned = true ↔ b.bits.toNat % 2 = 1 ∨ b.bits.toNat < 2 ^ 33 := by
  have hlt := b.bits.isLt
  have hx : (1#64 <<< (unownedRefCountBitCount + isDeinitingBitCount)).toInt = 2 ^ 32 := by decide
  unfold isUniquelyReferencedOrPinned
  rw [decide_eq_true_eq, hx, BitVec.toInt_eq_toNat_cond, toNat_rotated]
  -- the pin flag is the sign
  rcases Nat.mod_two_eq_zero_or_one b.bits.toNat with hpin | hpin
  · rw [hpin, if_pos (by omega)]
    omega
  · rw [hpin, if_neg (by omega)]
    omega

theorem unique_iff_of_counts (hb : b.bits.toNat < 2 ^ 63) :
    (b.isUniquelyReferencedOrPinned = true ↔
      ∃ c, b.counts = some c ∧ (c.isPinned = true ∨ c.IsUniquelyReferenced)) ↔
      ¬ ∃ c, b.counts = some c ∧
        c.isDeiniting = true ∧ c.isPinned = false ∧ c.strongExtra = 0 := by
  rw [isUniquelyReferencedOrPinned_iff, counts_of_lt b hb]
  have hstrong : b.bits.toNat < 2 ^ 33 ↔ b.bits.toNat / 2 ^ 33 % 2 ^ 30 = 0 := by omega
  simp only [Option.some.injEq, exists_eq_left', countsOf, Counts.IsUniquelyReferenced,
    decide_eq_true_eq, decide_eq_false_iff_not, hstrong]
  tauto

theorem unique_of_sideTable {side : BitVec 64} (hside : side.toNat % 16 = 0) :
    (ofSideTable side).isUniquelyReferencedOrPinned = false := by
  have hlt := side.isLt
  rw [Bool.eq_false_iff, ne_eq, isUniquelyReferencedOrPinned_iff, toNat_ofSideTable]
  omega

/-! ### Unowned references -/

theorem counts_setUnownedRefCount (hb : b.bits.toNat < 2 ^ 63) (value : BitVec 32) :
    (b.setUnownedRefCount value).counts =
      some { countsOf b.bits.toNat with unowned := value.toNat % 2 ^ 31 } := by
  have hvalue : (value.setWidth 64).toNat = value.toNat :=
    (BitVec.toNat_setWidth 64 value).trans (Nat.mod_eq_of_lt (by omega))
  have hunowned : (b.setUnownedRefCount value).getUnownedRefCount.toNat = value.toNat % 2 ^ 31 := by
    have hfield := BitField.get_set_self (s := 1) (w := 31) (by decide) (by decide) b.bits
      (value.setWidth 64)
    rw [BitField.toNat_get (by decide), hvalue] at hfield
    rw [toNat_getUnownedRefCount]
    exact hfield
  have hslow : (b.setUnownedRefCount value).getUseSlowRC = b.getUseSlowRC :=
    congrArg (· != 0) (BitField.get_set_of_disjoint (by decide) (by decide) (by decide) _ _)
  have hpin : (b.setUnownedRefCount value).getIsPinned = b.getIsPinned :=
    congrArg (· != 0) (BitField.get_set_of_disjoint (by decide) (by decide) (by decide) _ _)
  have hdeiniting : (b.setUnownedRefCount value).getIsDeiniting = b.getIsDeiniting :=
    congrArg (· != 0) (BitField.get_set_of_disjoint (by decide) (by decide) (by decide) _ _)
  have hstrong : (b.setUnownedRefCount value).getStrongExtraRefCount = b.getStrongExtraRefCount :=
    congrArg (BitVec.setWidth 32)
      (BitField.get_set_of_disjoint (by decide) (by decide) (by decide) _ _)
  unfold counts hasSideTable countsOf
  rw [hunowned, hslow, hpin, hdeiniting, hstrong, getUseSlowRC_eq, getIsPinned_eq,
    getIsDeiniting_eq, toNat_getStrongExtraRefCount, if_neg (by simpa using hb)]

theorem incrementUnowned_of_counts {inc : BitVec 32} (hinc : inc.toNat < 2 ^ 29)
    (hb : b.bits.toNat < 2 ^ 63) :
    match b.incrementUnowned inc with
    | .sideTable _ => False
    | .slow => (countsOf b.bits.toNat).incrementUnowned inc.toNat = none
    | .store newbits => newbits.counts = (countsOf b.bits.toNat).incrementUnowned inc.toNat ∧
        newbits.counts ≠ none := by
  have hside : b.hasSideTable = false := by
    rw [hasSideTable_eq]
    exact decide_eq_false (Nat.not_le.2 hb)
  have hold := toNat_getUnownedRefCount b
  have hsum : (b.getUnownedRefCount + inc).toNat = b.getUnownedRefCount.toNat + inc.toNat := by
    rw [BitVec.toNat_add, Nat.mod_eq_of_lt (by omega)]
  have hset := counts_setUnownedRefCount b hb (b.getUnownedRefCount + inc)
  have hread : (b.setUnownedRefCount (b.getUnownedRefCount + inc)).getUnownedRefCount.toNat =
      (b.getUnownedRefCount + inc).toNat % 2 ^ 31 := by
    have hslow : (b.setUnownedRefCount (b.getUnownedRefCount + inc)).hasSideTable = false := by
      rw [hasSideTable_eq]
      exact decide_eq_false (Nat.not_le.2 (lt_of_counts hset))
    rw [counts, hslow, if_neg Bool.false_ne_true, Option.some.injEq] at hset
    exact congrArg Counts.unowned hset
  have hne : (b.setUnownedRefCount (b.getUnownedRefCount + inc)).getUnownedRefCount ≠
      b.getUnownedRefCount + inc ↔ ¬ b.getUnownedRefCount.toNat + inc.toNat < 2 ^ 31 := by
    rw [ne_eq, ← BitVec.toNat_inj, hread, hsum]
    omega
  unfold incrementUnowned incrementUnownedRefCount Counts.incrementUnowned
  rw [hside, if_neg Bool.false_ne_true]
  simp only [hne]
  by_cases hfit : b.getUnownedRefCount.toNat + inc.toNat < 2 ^ 31
  · rw [if_neg (not_not.2 hfit)]
    rw [hsum, Nat.mod_eq_of_lt hfit, hold] at hset
    rw [hold] at hfit
    refine ⟨?_, hset ▸ Option.some_ne_none _⟩
    rw [hset]
    exact (if_pos hfit).symm
  · rw [if_pos hfit]
    rw [hold] at hfit
    exact if_neg hfit

/-! ## When the paths agree with the fields -/

/-- The condition: with a side table, the added amount stays below the mark bit; without one, the
object is not a deiniting one with a single unpinned reference. -/
def FastPathsSafe (inc : BitVec 32) : Prop :=
  if b.hasSideTable then b.getSideTable.toNat / 8 + inc.toNat * 2 ^ 33 < 2 ^ 62
  else ¬ (b.getIsDeiniting = true ∧ b.getIsPinned = false ∧ b.getStrongExtraRefCount = 0)

theorem getSideTable_ofSideTable {side : BitVec 64} (hside : side.toNat % 16 = 0) :
    (ofSideTable side).getSideTable = side := by
  have hlt := side.isLt
  apply BitVec.eq_of_toNat_eq
  unfold getSideTable
  rw [BitVec.toNat_shiftLeft, BitField.toNat_get (by decide), toNat_ofSideTable, Nat.shiftLeft_eq]
  change (2 ^ 63 + 2 ^ 62 + side.toNat / 8) / 2 ^ 0 % 2 ^ 62 * 2 ^ 3 % 2 ^ 64 = side.toNat
  omega

theorem fastPathsSafe_iff_of_counts (inc : BitVec 32) (hb : b.bits.toNat < 2 ^ 63) :
    b.FastPathsSafe inc ↔
      ¬ ∃ c, b.counts = some c ∧
        c.isDeiniting = true ∧ c.isPinned = false ∧ c.strongExtra = 0 := by
  have hstrong : b.getStrongExtraRefCount = 0 ↔ b.bits.toNat / 2 ^ 33 % 2 ^ 30 = 0 := by
    rw [← BitVec.toNat_inj, toNat_getStrongExtraRefCount]
    rfl
  unfold FastPathsSafe
  rw [hasSideTable_eq, if_neg (by simpa using hb), counts_of_lt b hb, hstrong,
    getIsDeiniting_eq, getIsPinned_eq]
  simp only [Option.some.injEq, exists_eq_left', countsOf]

theorem fastPathsSafe_iff_of_sideTable (inc : BitVec 32) {side : BitVec 64}
    (hside : side.toNat % 16 = 0) :
    (ofSideTable side).FastPathsSafe inc ↔ side.toNat / 8 + inc.toNat * 2 ^ 33 < 2 ^ 62 := by
  have hslow : (ofSideTable side).hasSideTable = true := by
    rw [hasSideTable_eq, toNat_ofSideTable]
    exact decide_eq_true (by omega)
  unfold FastPathsSafe
  rw [hslow, if_pos rfl, getSideTable_ofSideTable hside]

/-- For every word that encodes counts or an aligned side table pointer, and for amounts below
`2 ^ 29`, the paths agree with the fields exactly when the condition holds. -/
theorem fastPathsAgree_iff (hb : b.Encodes) (inc dec : BitVec 32) (hinc : inc.toNat < 2 ^ 29)
    (hdec : dec.toNat < 2 ^ 29) (clearPinnedFlag : Bool) :
    b.FastPathsAgree inc dec clearPinnedFlag ↔ b.FastPathsSafe inc := by
  have hdecrement := fun hpinned => reports_decrement b hb hdec clearPinnedFlag hpinned
  rcases hb with ⟨c, hcounts, -⟩ | ⟨side, hside, rfl⟩
  · have hlt := lt_of_counts hcounts
    rw [fastPathsSafe_iff_of_counts b inc hlt, ← unique_iff_of_counts b hlt]
    refine ⟨fun h => h.unique, fun hunique => ?_⟩
    refine ⟨reports_increment_of_counts b hinc hlt, hdecrement, hunique, fun c' hc' => ?_, fun h => ?_⟩
    · rw [counts_of_lt b hlt, Option.some.injEq] at hc'
      rw [← hc']
      exact incrementUnowned_of_counts b hinc hlt
    · rw [hcounts] at h
      exact absurd h (Option.some_ne_none c)
  · rw [fastPathsSafe_iff_of_sideTable inc hside, ← reports_increment_iff_of_sideTable hinc side]
    refine ⟨fun h => h.increment, fun hincrement => ?_⟩
    have hnone := counts_ofSideTable side
    refine ⟨hincrement, hdecrement, ?_, fun c hc => ?_, fun _ => ?_⟩
    · rw [unique_of_sideTable hside, hnone]
      simp
    · rw [hnone] at hc
      exact absurd hc (by simp)
    · have hslow : (ofSideTable side).hasSideTable = true := by
        rw [hasSideTable_eq, toNat_ofSideTable]
        exact decide_eq_true (by omega)
      unfold incrementUnowned
      rw [hslow, if_pos rfl]

/-- A pinned object with two references. -/
theorem fastPathsAgree_iff_pinned :
    (⟨2 ^ 33 + 3⟩ : RefCountBits).FastPathsAgree 1 1 true ↔
      (⟨2 ^ 33 + 3⟩ : RefCountBits).FastPathsSafe 1 :=
  fastPathsAgree_iff _ (.inl ⟨⟨true, 1, false, 1⟩, by decide, by decide⟩) 1 1 (by decide) (by decide) true

/-- A deiniting object counts as unique, and a retain of an object with a side table at
`0x7f0000000000` by `2 ^ 29 - 1` passes for a fast-path result. -/
theorem encodes_not_fastPathsAgree :
    ((⟨2 ^ 32 + 2⟩ : RefCountBits).Encodes ∧
      ¬ (⟨2 ^ 32 + 2⟩ : RefCountBits).FastPathsAgree 1 1 false) ∧
    (ofSideTable 0x7f0000000000).Encodes ∧
      ¬ (ofSideTable 0x7f0000000000).FastPathsAgree (2 ^ 29 - 1) 1 false := by
  have hfields : (⟨2 ^ 32 + 2⟩ : RefCountBits).counts = some ⟨false, 1, true, 0⟩ := by decide
  refine ⟨⟨.inl ⟨_, hfields, by decide⟩, fun h => ?_⟩, .inr ⟨_, by decide, rfl⟩, fun h => ?_⟩
  · obtain ⟨c, hcounts, hunique⟩ := h.unique.1 (by decide)
    rw [hfields, Option.some.injEq] at hcounts
    subst hcounts
    rcases hunique with hpinned | ⟨hdeiniting, -⟩
    · exact absurd hpinned (by decide)
    · exact absurd hdeiniting (by decide)
  · exact absurd (h.increment.1.1 (by decide)) (by decide)

end RefCountBits

end SwiftKStdlib.Runtime
