import Mathlib.Data.BitVec
import Mathlib.Data.Nat.Size
import Mathlib.Tactic

/-!
# Fixed-width integers

* `minValue`, `maxValue`, `Representable` : the numbers of a type with a sign and a width;
* `FixedWidth` : its values, two's complement bits with the number `toInt` they stand for;
* `FixedWidth.ofInt` : the value congruent to a number modulo `2 ^ bitWidth`;
* arithmetic that reports overflow, masking shifts, bitwise operations.
-/

namespace SwiftKStdlib.Lib

def minValue (isSigned : Bool) (bitWidth : Nat) : Int := if isSigned then -(2 ^ bitWidth / 2) else 0

def maxValue (isSigned : Bool) (bitWidth : Nat) : Int :=
  if isSigned then (2 ^ bitWidth - 1) / 2 else 2 ^ bitWidth - 1

/-- The type has a value for `n`. -/
def Representable (isSigned : Bool) (bitWidth : Nat) (n : Int) : Prop :=
  minValue isSigned bitWidth ≤ n ∧ n ≤ maxValue isSigned bitWidth

instance (isSigned : Bool) (bitWidth : Nat) (n : Int) : Decidable (Representable isSigned bitWidth n) :=
  inferInstanceAs (Decidable (_ ∧ _))

section

variable {s : Bool} {w : Nat} {m n : Int}

theorem two_pow_pos_int (w : Nat) : (0 : Int) < 2 ^ w := by positivity

theorem minValue_nonpos (s : Bool) (w : Nat) : minValue s w ≤ 0 := by
  have := two_pow_pos_int w
  unfold minValue
  split_ifs <;> omega

theorem maxValue_eq (s : Bool) (w : Nat) : maxValue s w = minValue s w + 2 ^ w - 1 := by
  have := two_pow_pos_int w
  unfold maxValue minValue
  split_ifs <;> omega

theorem neg_minValue {w : Nat} (hw : 0 < w) : -minValue true w = maxValue true w + 1 := by
  obtain ⟨k, rfl⟩ := Nat.exists_eq_add_one.2 hw
  rw [maxValue_eq, minValue, if_pos rfl, pow_succ, Int.mul_ediv_cancel _ (by decide)]
  ring

theorem representable_iff : Representable s w n ↔ minValue s w ≤ n ∧ n < minValue s w + 2 ^ w := by
  rw [Representable, maxValue_eq]
  omega

theorem representable_unsigned : Representable false w n ↔ 0 ≤ n ∧ n < 2 ^ w := by
  rw [representable_iff, minValue, if_neg Bool.false_ne_true, zero_add]

theorem representable_signed : Representable true w n ↔ -(2 ^ w / 2) ≤ n ∧ n < 2 ^ w - 2 ^ w / 2 := by
  rw [representable_iff, minValue, if_pos rfl]
  omega

theorem representable_zero (s : Bool) (w : Nat) : Representable s w 0 := by
  have := two_pow_pos_int w
  have := minValue_nonpos s w
  have : minValue s w + 2 ^ w > 0 := by
    unfold minValue
    split_ifs <;> omega
  exact representable_iff.2 ⟨by omega, by omega⟩

theorem representable_one (hw : 0 < w) : Representable false w 1 :=
  representable_unsigned.2 ⟨Int.one_nonneg, by exact_mod_cast Nat.one_lt_two_pow hw.ne'⟩

theorem Representable.ediv_two_pow (h : Representable s w n) (d : Nat) : Representable s w (n / 2 ^ d) := by
  have hd := two_pow_pos_int d
  have hmin := minValue_nonpos s w
  obtain ⟨hz0, hz1⟩ := representable_zero s w
  obtain hn | hn := le_or_gt 0 n
  · exact ⟨hmin.trans (Int.ediv_nonneg hn hd.le), (Int.ediv_le_self _ hn).trans h.2⟩
  · refine ⟨h.1.trans (Int.le_ediv_of_mul_le hd ?_), (Int.ediv_neg_of_neg_of_pos hn hd).le.trans hz1⟩
    nlinarith

theorem Representable.bounds (h : Representable s w n) : -(2 ^ w / 2) ≤ n ∧ n < 2 ^ w := by
  have hpow := two_pow_pos_int w
  cases s with
  | false =>
      rw [representable_unsigned] at h
      omega
  | true =>
      rw [representable_signed] at h
      omega

theorem Representable.widen {s' : Bool} {w' : Nat} (h : Representable s w n) (hneg : n < 0 → s' = true)
    (hwider : w < w' ∨ w = w' ∧ (s = true ∨ s' = false)) : Representable s' w' n := by
  have hpow := two_pow_pos_int w
  have hbounds := h.bounds
  have hnonneg : s' = false → 0 ≤ n := fun hs => not_lt.1 fun hlt => Bool.false_ne_true (hs.symm.trans (hneg hlt))
  rcases hwider with hlt | ⟨rfl, hsigns⟩
  · have hle : 2 * (2 : Int) ^ w ≤ 2 ^ w' := by
      rw [← pow_succ']
      exact_mod_cast Nat.pow_le_pow_right Nat.two_pos hlt
    cases s' with
    | false => exact representable_unsigned.2 ⟨hnonneg rfl, by omega⟩
    | true => exact representable_signed.2 ⟨by omega, by omega⟩
  · cases s' with
    | false => exact representable_unsigned.2 ⟨hnonneg rfl, hbounds.2⟩
    | true =>
        obtain rfl : s = true := hsigns.resolve_right Bool.true_eq_false_eq_False
        exact h

theorem Representable.eq_of_emod (hm : Representable s w m) (hn : Representable s w n)
    (h : m % 2 ^ w = n % 2 ^ w) : m = n := by
  obtain ⟨hm0, hm1⟩ := representable_iff.1 hm
  obtain ⟨hn0, hn1⟩ := representable_iff.1 hn
  have hdvd : (2 : Int) ^ w ∣ m - n := Int.ModEq.dvd (Int.ModEq.symm h)
  have := Int.eq_zero_of_abs_lt_dvd hdvd (by rw [abs_lt]; omega)
  omega

end

/-- A value of a type with `isSigned` and `bitWidth`, in two's complement. -/
@[ext]
structure FixedWidth (isSigned : Bool) (bitWidth : Nat) where
  bits : BitVec bitWidth
  deriving DecidableEq

namespace FixedWidth

variable {s : Bool} {w : Nat}

def toInt (x : FixedWidth s w) : Int := if s then x.bits.toInt else x.bits.toNat

/-- The value with the low bits of `n`. -/
def ofInt (n : Int) : FixedWidth s w := ⟨BitVec.ofInt w n⟩

/-- The value of `n`, if there is one. -/
def exactly (n : Int) : Option (FixedWidth s w) := if Representable s w n then some (ofInt n) else none

theorem toInt_unsigned (x : FixedWidth false w) : x.toInt = x.bits.toNat := rfl

theorem toInt_signed (x : FixedWidth true w) : x.toInt = x.bits.toInt := rfl

theorem representable_toInt (x : FixedWidth s w) : Representable s w x.toInt := by
  cases s with
  | false =>
      rw [representable_unsigned, toInt_unsigned]
      exact ⟨Int.natCast_nonneg _, by exact_mod_cast x.bits.isLt⟩
  | true =>
      have h0 : (x.bits.toNat : Int) < 2 ^ w := by exact_mod_cast x.bits.isLt
      rw [representable_signed, toInt_signed, BitVec.toInt_eq_toNat_cond]
      push_cast
      split_ifs with hlt <;> (zify at hlt; omega)

theorem toInt_emod (x : FixedWidth s w) : x.toInt % 2 ^ w = x.bits.toNat := by
  have hlt : (x.bits.toNat : Int) < 2 ^ w := by exact_mod_cast x.bits.isLt
  cases s with
  | false => exact Int.emod_eq_of_lt (Int.natCast_nonneg _) hlt
  | true =>
      rw [toInt_signed, BitVec.toInt_eq_toNat_cond]
      push_cast
      split_ifs
      · exact Int.emod_eq_of_lt (Int.natCast_nonneg _) hlt
      · rw [Int.sub_emod_right]
        exact Int.emod_eq_of_lt (Int.natCast_nonneg _) hlt

theorem toInt_ofInt_emod (n : Int) : (ofInt n : FixedWidth s w).toInt % 2 ^ w = n % 2 ^ w := by
  rw [toInt_emod, ofInt, BitVec.toNat_ofInt]
  push_cast
  exact Int.toNat_of_nonneg (Int.emod_nonneg _ (two_pow_pos_int w).ne')

theorem toInt_ofInt {n : Int} (h : Representable s w n) : (ofInt n : FixedWidth s w).toInt = n :=
  (representable_toInt _).eq_of_emod h (toInt_ofInt_emod n)

theorem toInt_ofInt_of_emod {m n : Int} (h : Representable s w m) (hn : n % 2 ^ w = m % 2 ^ w) :
    (ofInt n : FixedWidth s w).toInt = m :=
  (representable_toInt _).eq_of_emod h ((toInt_ofInt_emod n).trans hn)

theorem toInt_inj {x y : FixedWidth s w} : x.toInt = y.toInt ↔ x = y := by
  refine ⟨fun h => ?_, fun h => h ▸ rfl⟩
  ext1
  apply BitVec.eq_of_toNat_eq
  have := x.toInt_emod
  rw [h, y.toInt_emod] at this
  exact_mod_cast this.symm

theorem ofInt_toInt (x : FixedWidth s w) : ofInt x.toInt = x := toInt_inj.1 (toInt_ofInt x.representable_toInt)

theorem ofInt_eq_ofInt {m n : Int} : (ofInt m : FixedWidth s w) = ofInt n ↔ m % 2 ^ w = n % 2 ^ w := by
  refine ⟨fun h => ?_, fun h => ?_⟩
  · rw [← toInt_ofInt_emod (s := s) m, h, toInt_ofInt_emod]
  · refine toInt_inj.1 ((representable_toInt _).eq_of_emod (representable_toInt _) ?_)
    rw [toInt_ofInt_emod, toInt_ofInt_emod, h]

/-- The value with the low bits of another one: `init(truncatingIfNeeded:)`. -/
def truncating {s' : Bool} {w' : Nat} (x : FixedWidth s w) : FixedWidth s' w' := ofInt x.toInt

theorem exactly_eq_some {n : Int} (h : Representable s w n) : exactly n = some (ofInt n : FixedWidth s w) := if_pos h

/-! ## Operations -/

instance : LT (FixedWidth s w) := ⟨fun x y => x.toInt < y.toInt⟩

instance (x y : FixedWidth s w) : Decidable (x < y) := inferInstanceAs (Decidable (x.toInt < y.toInt))

/-- A literal. -/
instance (n : Nat) : OfNat (FixedWidth s w) n := ⟨ofInt n⟩

theorem toInt_zero : (0 : FixedWidth s w).toInt = 0 := toInt_ofInt (representable_zero s w)

theorem lt_zero_iff {x : FixedWidth s w} : x < 0 ↔ x.toInt < 0 := by
  rw [← toInt_zero (s := s) (w := w)]
  rfl

def min : FixedWidth s w := ofInt (minValue s w)

def max : FixedWidth s w := ofInt (maxValue s w)

/-- The result with the low bits of the exact one, and whether that is not representable. -/
def reportingOverflow (n : Int) : FixedWidth s w × Bool := (ofInt n, !decide (Representable s w n))

theorem reportingOverflow_eq_true {n : Int} :
    (reportingOverflow n : FixedWidth s w × Bool).2 = true ↔ ¬ Representable s w n := by
  rw [reportingOverflow, Bool.not_eq_true', decide_eq_false_iff_not]

theorem reportingOverflow_eq_false {n : Int} :
    (reportingOverflow n : FixedWidth s w × Bool).2 = false ↔ Representable s w n := by
  rw [reportingOverflow, Bool.not_eq_false', decide_eq_true_iff]

def addingReportingOverflow (x y : FixedWidth s w) : FixedWidth s w × Bool := reportingOverflow (x.toInt + y.toInt)

def subtractingReportingOverflow (x y : FixedWidth s w) : FixedWidth s w × Bool :=
  reportingOverflow (x.toInt - y.toInt)

def multipliedReportingOverflow (x y : FixedWidth s w) : FixedWidth s w × Bool :=
  reportingOverflow (x.toInt * y.toInt)

/-- `&+`. -/
def maskingAdd (x y : FixedWidth s w) : FixedWidth s w := ofInt (x.toInt + y.toInt)

/-- `&-`. -/
def maskingSubtract (x y : FixedWidth s w) : FixedWidth s w := ofInt (x.toInt - y.toInt)

/-- `+`, which traps on overflow. -/
def add (x y : FixedWidth s w) : Option (FixedWidth s w) := exactly (x.toInt + y.toInt)

/-- `-`, which traps on overflow. -/
def subtract (x y : FixedWidth s w) : Option (FixedWidth s w) := exactly (x.toInt - y.toInt)

/-- The prefix `-`. -/
def negate (x : FixedWidth s w) : Option (FixedWidth s w) := exactly (-x.toInt)

def magnitude (x : FixedWidth s w) : FixedWidth false w := ofInt |x.toInt|

def multipliedFullWidth (x y : FixedWidth s w) : FixedWidth s w × FixedWidth false w :=
  (ofInt (x.toInt * y.toInt / 2 ^ w), ofInt (x.toInt * y.toInt))

def maskedAmount (x : FixedWidth s w) : Nat := (x.toInt % w).toNat

/-- `&<<`. -/
def maskingShiftLeft (x y : FixedWidth s w) : FixedWidth s w := ofInt (x.toInt * 2 ^ y.maskedAmount)

/-- `&>>`. -/
def maskingShiftRight (x y : FixedWidth s w) : FixedWidth s w := ofInt (x.toInt / 2 ^ y.maskedAmount)

instance : AndOp (FixedWidth s w) := ⟨fun x y => ⟨x.bits &&& y.bits⟩⟩

instance : OrOp (FixedWidth s w) := ⟨fun x y => ⟨x.bits ||| y.bits⟩⟩

/-- `~`. -/
instance : Complement (FixedWidth s w) := ⟨fun x => ⟨~~~x.bits⟩⟩

theorem toInt_or_emod {x y : FixedWidth s w} {i : Nat} (hx : x.toInt % 2 ^ w % 2 ^ i = 0) (hy : y.toInt % 2 ^ w < 2 ^ i) :
    (x ||| y).toInt % 2 ^ w = (x.toInt + y.toInt) % 2 ^ w := by
  rw [toInt_emod] at hx hy
  have hdvd : 2 ^ i ∣ x.bits.toNat := by exact_mod_cast Int.dvd_of_emod_eq_zero hx
  obtain ⟨a, ha⟩ := hdvd
  have hlt : y.bits.toNat < 2 ^ i := by exact_mod_cast hy
  have hor : (x ||| y).bits.toNat = x.bits.toNat + y.bits.toNat := by
    rw [show (x ||| y).bits = x.bits ||| y.bits from rfl, BitVec.toNat_or, ha, ← Nat.two_pow_add_eq_or_of_lt hlt]
  have hbound : ((x.bits.toNat + y.bits.toNat : Nat) : Int) < 2 ^ w := by
    rw [← hor]
    exact_mod_cast (x ||| y).bits.isLt
  rw [toInt_emod, hor, Int.add_emod, toInt_emod, toInt_emod, ← Nat.cast_add]
  exact (Int.emod_eq_of_lt (Int.natCast_nonneg _) hbound).symm

theorem or_comm (x y : FixedWidth s w) : x ||| y = y ||| x := by
  ext1
  exact BitVec.or_comm _ _

theorem toInt_magnitude (x : FixedWidth s w) : x.magnitude.toInt = |x.toInt| := by
  have hbounds := x.representable_toInt.bounds
  have hpow := two_pow_pos_int w
  refine toInt_ofInt (representable_unsigned.2 ⟨abs_nonneg _, ?_⟩)
  rw [abs_lt]
  omega

theorem toInt_complement (x : FixedWidth false w) : (~~~x).toInt = 2 ^ w - 1 - x.toInt := by
  have hlt := x.bits.isLt
  have hnot : (~~~x).bits.toNat = 2 ^ w - 1 - x.bits.toNat := BitVec.toNat_not
  rw [toInt_unsigned, toInt_unsigned, hnot]
  push_cast [Nat.cast_sub (show x.bits.toNat ≤ 2 ^ w - 1 by omega), Nat.cast_sub (show 1 ≤ 2 ^ w by omega)]
  rfl

theorem toInt_complement_zero (hw : 0 < w) : (~~~(0 : FixedWidth true w)).toInt = -1 := by
  have hone : Representable true w (-1) := by
    have : (2 : Int) ^ 1 ≤ 2 ^ w := by exact_mod_cast Nat.pow_le_pow_right Nat.two_pos hw
    rw [representable_signed]
    omega
  refine (representable_toInt _).eq_of_emod hone ?_
  have hbits : (0 : FixedWidth true w).bits = 0#w := BitVec.ofInt_natCast w 0
  rw [toInt_emod, show (~~~(0 : FixedWidth true w)).bits = ~~~(0 : FixedWidth true w).bits from rfl, hbits,
    BitVec.toNat_not]
  have hpos := two_pow_pos_int w
  have hpow : 1 ≤ 2 ^ w := Nat.one_le_two_pow
  rw [← Int.add_emod_right (-1), Int.emod_eq_of_lt (by omega) (by omega), BitVec.toNat_ofNat, Nat.zero_mod, Nat.sub_zero,
    Nat.cast_sub hpow]
  push_cast
  ring

def leadingZeroBitCount (x : FixedWidth s w) : Nat := w - x.bits.toNat.size

end FixedWidth

end SwiftKStdlib.Lib
