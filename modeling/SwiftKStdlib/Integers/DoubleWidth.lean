import SwiftKStdlib.Lib.FixedWidth

/-!
# Double-width integers, their addition and subtraction

* `DoubleWidth` : a high half of type `Base` and a low half of type `Base.Magnitude`;
* `DoubleWidth.toInt` : the number, `high * 2 ^ bitWidth + low`;
* `reporting` : the template of addition and subtraction, and the operators on top of it;
* `magnitude`, comparison and the bitwise operations.

A function that may trap is `none` where it does.

* `Exact` : the value modulo `2 ^ bitWidth` and the overflow flag of an exact result;
* `CarryRestores`, `BorrowRestores` : the low half brings a high half back that left its range;
* `addition_exact_iff` : these are the operands on which a flag is wrong;
* `toInt_adding`, `toInt_subtracting`, `toInt_complement_emod`, `toInt_magnitude` : the values of the operations.
-/

namespace SwiftKStdlib.Integers

open Lib

/-- `DoubleWidth<Base>`, for a `Base` with a sign and a width. -/
@[ext]
structure DoubleWidth (isSigned : Bool) (baseWidth : Nat) where
  high : FixedWidth isSigned baseWidth
  low : FixedWidth false baseWidth
  deriving DecidableEq

namespace DoubleWidth

variable {s : Bool} {w : Nat}

/-- `High.bitWidth + Low.bitWidth`. -/
def bitWidth (w : Nat) : Nat := w + w

def toInt (x : DoubleWidth s w) : Int := x.high.toInt * 2 ^ w + x.low.toInt

/-- The value with the low bits of `n`. -/
def ofInt (n : Int) : DoubleWidth s w := ⟨.ofInt (n / 2 ^ w), .ofInt n⟩

/-- A literal. -/
instance (n : Nat) : OfNat (DoubleWidth s w) n := ⟨ofInt n⟩

def min : DoubleWidth s w := ⟨.min, .min⟩

/-- `<`. -/
def lessThan (lhs rhs : DoubleWidth s w) : Bool :=
  if lhs.high < rhs.high then true
  else if rhs.high < lhs.high then false
  else lhs.low < rhs.low

/-! ## Addition and subtraction -/

/-- The template of `addingReportingOverflow` and `subtractingReportingOverflow`: `op` brings the overflow of the low
half to the high half, which overflows by it at `highAffectedByLowOverflow`. -/
def reporting (op : FixedWidth s w → FixedWidth s w → FixedWidth s w) (highAffectedByLowOverflow : FixedWidth s w)
    (low : FixedWidth false w × Bool) (high : FixedWidth s w × Bool) : DoubleWidth s w × Bool :=
  let result : DoubleWidth s w := ⟨op high.1 (if low.2 then 1 else 0), low.1⟩
  let overflow := high.2 || decide (high.1 = highAffectedByLowOverflow) && low.2
  (result, overflow)

def addingReportingOverflow (x rhs : DoubleWidth s w) : DoubleWidth s w × Bool :=
  reporting .maskingAdd .max (x.low.addingReportingOverflow rhs.low) (x.high.addingReportingOverflow rhs.high)

def subtractingReportingOverflow (x rhs : DoubleWidth s w) : DoubleWidth s w × Bool :=
  reporting .maskingSubtract .min (x.low.subtractingReportingOverflow rhs.low)
    (x.high.subtractingReportingOverflow rhs.high)

def trapping (result : DoubleWidth s w × Bool) : Option (DoubleWidth s w) :=
  if result.2 then none else some result.1

/-- `+`. -/
def add (lhs rhs : DoubleWidth s w) : Option (DoubleWidth s w) := trapping (lhs.addingReportingOverflow rhs)

/-- `-`. -/
def subtract (lhs rhs : DoubleWidth s w) : Option (DoubleWidth s w) := trapping (lhs.subtractingReportingOverflow rhs)

/-- `&+`. -/
def maskingAdd (lhs rhs : DoubleWidth s w) : DoubleWidth s w := (lhs.addingReportingOverflow rhs).1

/-- `&-`. -/
def maskingSubtract (lhs rhs : DoubleWidth s w) : DoubleWidth s w := (lhs.subtractingReportingOverflow rhs).1

/-- `~`, of any fixed-width integer. -/
def complement (x : DoubleWidth s w) : DoubleWidth s w := ((0 : DoubleWidth s w).maskingSubtract x).maskingSubtract 1

/-! ## Magnitudes -/

/-- A value of `Magnitude`. -/
abbrev Magnitude (w : Nat) := DoubleWidth false w

def magnitude (x : DoubleWidth s w) : Magnitude w :=
  let result : Magnitude w := ⟨.ofInt x.high.toInt, x.low⟩
  if s ∧ x.high < 0 then result.complement.maskingAdd 1 else result

/-- `init(_ _magnitude: Magnitude)`. -/
def ofMagnitude (m : Magnitude w) : Option (DoubleWidth s w) :=
  (FixedWidth.exactly m.high.toInt).map fun high => ⟨high, m.low⟩

/-! ## Bits -/

instance : AndOp (DoubleWidth s w) := ⟨fun x y => ⟨x.high &&& y.high, x.low &&& y.low⟩⟩

instance : OrOp (DoubleWidth s w) := ⟨fun x y => ⟨x.high ||| y.high, x.low ||| y.low⟩⟩

def leadingZeroBitCount (x : DoubleWidth s w) : Nat :=
  if x.high = 0 then w + x.low.leadingZeroBitCount else x.high.leadingZeroBitCount

/-! ## The number of a value -/

theorem low_bounds (x : DoubleWidth s w) : 0 ≤ x.low.toInt ∧ x.low.toInt < 2 ^ w :=
  representable_unsigned.1 x.low.representable_toInt

theorem minValue_bitWidth (s : Bool) (w : Nat) : minValue s (bitWidth w) = minValue s w * 2 ^ w := by
  cases s with
  | false => rw [minValue, minValue, if_neg Bool.false_ne_true, if_neg Bool.false_ne_true, zero_mul]
  | true =>
      rw [minValue, minValue, if_pos rfl, if_pos rfl, bitWidth, pow_add]
      cases w with
      | zero => rfl
      | succ w =>
          have h2 : (2 : Int) ^ (w + 1) / 2 = 2 ^ w := by rw [pow_succ]; exact Int.mul_ediv_cancel _ (by decide)
          rw [h2, pow_succ, show (2 : Int) ^ w * 2 * (2 ^ w * 2) = 2 ^ w * (2 ^ w * 2) * 2 by ring,
            Int.mul_ediv_cancel _ (by decide), neg_mul]

theorem two_pow_bitWidth (w : Nat) : (2 : Int) ^ bitWidth w = 2 ^ w * 2 ^ w := pow_add 2 w w

theorem representable_pair {h l : Int} (hl0 : 0 ≤ l) (hl1 : l < 2 ^ w) :
    Representable s (bitWidth w) (h * 2 ^ w + l) ↔ Representable s w h := by
  have hpos := two_pow_pos_int w
  rw [representable_iff, representable_iff, minValue_bitWidth, two_pow_bitWidth, ← add_mul]
  refine and_congr ⟨fun hle => ?_, fun hle => ?_⟩ ⟨fun hlt => ?_, fun hlt => ?_⟩
  · by_contra hcon
    nlinarith
  · nlinarith
  · nlinarith
  · nlinarith

theorem representable_toInt (x : DoubleWidth s w) : Representable s (bitWidth w) x.toInt :=
  (representable_pair x.low_bounds.1 x.low_bounds.2).2 x.high.representable_toInt

theorem toInt_ediv (x : DoubleWidth s w) : x.toInt / 2 ^ w = x.high.toInt := by
  rw [toInt, Int.add_comm, Int.add_mul_ediv_right _ _ (two_pow_pos_int w).ne', Int.ediv_eq_zero_of_lt x.low_bounds.1
    x.low_bounds.2, zero_add]

theorem toInt_emod (x : DoubleWidth s w) : x.toInt % 2 ^ w = x.low.toInt := by
  rw [toInt, Int.add_comm, Int.add_mul_emod_self_right, Int.emod_eq_of_lt x.low_bounds.1 x.low_bounds.2]

theorem toInt_inj {x y : DoubleWidth s w} : x.toInt = y.toInt ↔ x = y := by
  refine ⟨fun h => ?_, fun h => h ▸ rfl⟩
  ext1
  · exact FixedWidth.toInt_inj.1 (x.toInt_ediv.symm.trans ((congrArg (· / 2 ^ w) h).trans y.toInt_ediv))
  · exact FixedWidth.toInt_inj.1 (x.toInt_emod.symm.trans ((congrArg (· % 2 ^ w) h).trans y.toInt_emod))

theorem toInt_ofInt_emod (n : Int) : (ofInt n : DoubleWidth s w).toInt % 2 ^ bitWidth w = n % 2 ^ bitWidth w := by
  have hlow : (FixedWidth.ofInt n : FixedWidth false w).toInt = n % 2 ^ w := by
    rw [← FixedWidth.toInt_ofInt_emod (s := false) n]
    exact (Int.emod_eq_of_lt (representable_unsigned.1 (FixedWidth.representable_toInt _)).1
      (representable_unsigned.1 (FixedWidth.representable_toInt _)).2).symm
  have hhigh : (2 : Int) ^ w ∣ n / 2 ^ w - (FixedWidth.ofInt (n / 2 ^ w) : FixedWidth s w).toInt :=
    Int.ModEq.dvd (FixedWidth.toInt_ofInt_emod _)
  obtain ⟨k, hk⟩ := hhigh
  have hdiv := Int.mul_ediv_add_emod n (2 ^ w)
  apply Int.ModEq.symm
  refine (Int.modEq_iff_dvd.2 ⟨-k, ?_⟩ : n ≡ _ [ZMOD _])
  rw [toInt, ofInt, hlow, two_pow_bitWidth]
  linear_combination (-(2 : Int) ^ w) * hk + hdiv

theorem toInt_ofInt {n : Int} (h : Representable s (bitWidth w) n) : (ofInt n : DoubleWidth s w).toInt = n :=
  (representable_toInt _).eq_of_emod h (toInt_ofInt_emod n)

theorem ofInt_toInt (x : DoubleWidth s w) : ofInt x.toInt = x := toInt_inj.1 (toInt_ofInt x.representable_toInt)

theorem eq_ofInt {x : DoubleWidth s w} {n : Int} (h : x.toInt % 2 ^ bitWidth w = n % 2 ^ bitWidth w) : x = ofInt n :=
  toInt_inj.1 ((representable_toInt _).eq_of_emod (representable_toInt _) (h.trans (toInt_ofInt_emod n).symm))

theorem lessThan_iff (x y : DoubleWidth s w) : x.lessThan y = true ↔ x.toInt < y.toInt := by
  have hx := x.low_bounds
  have hy := y.low_bounds
  have hpos := two_pow_pos_int w
  rw [lessThan, toInt, toInt]
  split_ifs with hlt hgt
  · replace hlt : x.high.toInt < y.high.toInt := hlt
    simp only [true_iff]
    nlinarith
  · replace hgt : y.high.toInt < x.high.toInt := hgt
    simp only [false_iff, not_lt]
    nlinarith
  · have heq : x.high.toInt = y.high.toInt := le_antisymm (not_lt.1 hgt) (not_lt.1 hlt)
    rw [heq, decide_eq_true_iff, Int.add_lt_add_iff_left]
    rfl

/-! ## Bits of magnitudes -/

theorem toNat_toInt (x : Magnitude w) : x.toInt.toNat = 2 ^ w * x.high.bits.toNat + x.low.bits.toNat := by
  have h : x.toInt = ((2 ^ w * x.high.bits.toNat + x.low.bits.toNat : Nat) : Int) := by
    rw [toInt, FixedWidth.toInt_unsigned, FixedWidth.toInt_unsigned, mul_comm]
    push_cast
    rfl
  rw [h, Int.toNat_natCast]

theorem toNat_and (x y : Magnitude w) : (x &&& y).toInt.toNat = x.toInt.toNat &&& y.toInt.toNat := by
  apply Nat.eq_of_testBit_eq
  intro i
  rw [Nat.testBit_and, toNat_toInt, toNat_toInt, toNat_toInt, Nat.testBit_two_pow_mul_add _ (BitVec.isLt _),
    Nat.testBit_two_pow_mul_add _ (BitVec.isLt _), Nat.testBit_two_pow_mul_add _ (BitVec.isLt _)]
  split_ifs
  · exact (congrArg (Nat.testBit · i) (BitVec.toNat_and _ _)).trans (Nat.testBit_and _ _ _)
  · exact (congrArg (Nat.testBit · (i - w)) (BitVec.toNat_and _ _)).trans (Nat.testBit_and _ _ _)

theorem toNat_or (x y : Magnitude w) : (x ||| y).toInt.toNat = x.toInt.toNat ||| y.toInt.toNat := by
  apply Nat.eq_of_testBit_eq
  intro i
  rw [Nat.testBit_or, toNat_toInt, toNat_toInt, toNat_toInt, Nat.testBit_two_pow_mul_add _ (BitVec.isLt _),
    Nat.testBit_two_pow_mul_add _ (BitVec.isLt _), Nat.testBit_two_pow_mul_add _ (BitVec.isLt _)]
  split_ifs
  · exact (congrArg (Nat.testBit · i) (BitVec.toNat_or _ _)).trans (Nat.testBit_or _ _ _)
  · exact (congrArg (Nat.testBit · (i - w)) (BitVec.toNat_or _ _)).trans (Nat.testBit_or _ _ _)

/-! ## Leading zeros -/

theorem size_pair {h l : Nat} (hh : h ≠ 0) (hl : l < 2 ^ w) : (2 ^ w * h + l).size = h.size + w := by
  apply le_antisymm
  · rw [Nat.size_le, pow_add]
    have : h + 1 ≤ 2 ^ h.size := Nat.lt_size_self h
    calc 2 ^ w * h + l < (h + 1) * 2 ^ w := by rw [add_mul, one_mul, mul_comm h]; omega
      _ ≤ 2 ^ h.size * 2 ^ w := Nat.mul_le_mul_right _ this
  · rw [← Nat.size_shiftLeft hh, Nat.shiftLeft_eq, mul_comm h]
    exact Nat.size_le_size (Nat.le_add_right _ _)

theorem leadingZeroBitCount_eq (x : Magnitude w) : x.leadingZeroBitCount = bitWidth w - x.toInt.toNat.size := by
  have hlow : x.low.bits.toNat < 2 ^ w := x.low.bits.isLt
  rw [toNat_toInt, leadingZeroBitCount, bitWidth]
  by_cases hzero : x.high = 0
  · have h0 : x.high.bits.toNat = 0 := by
      have := FixedWidth.toInt_zero (s := false) (w := w)
      rw [← hzero, FixedWidth.toInt_unsigned] at this
      exact_mod_cast this
    have := Nat.size_le.2 hlow
    rw [if_pos hzero, h0, mul_zero, zero_add, FixedWidth.leadingZeroBitCount]
    omega
  · have h0 : x.high.bits.toNat ≠ 0 := fun h => hzero (FixedWidth.toInt_inj.1 (by
      rw [FixedWidth.toInt_unsigned, h, FixedWidth.toInt_zero]; rfl))
    rw [if_neg hzero, size_pair h0 hlow, FixedWidth.leadingZeroBitCount]
    omega

theorem leadingZeroBitCount_eq_zero (x : Magnitude w) :
    x.leadingZeroBitCount = 0 ↔ w = 0 ∨ 2 ^ bitWidth w ≤ 2 * x.toInt := by
  have h0 := (representable_unsigned.1 x.representable_toInt).1
  rw [leadingZeroBitCount_eq, Nat.sub_eq_zero_iff_le]
  obtain rfl | hw := Nat.eq_zero_or_pos w
  · exact iff_of_true (Nat.zero_le _) (.inl rfl)
  · obtain ⟨k, hk⟩ : ∃ k, bitWidth w = k + 1 := Nat.exists_eq_add_one.2 (Nat.add_pos_left hw w)
    have hpow : 2 ^ k ≤ x.toInt.toNat ↔ (2 : Int) ^ k ≤ x.toInt := by
      rw [← Int.toNat_of_nonneg h0, Int.toNat_natCast]
      exact_mod_cast Iff.rfl
    rw [hk, Nat.add_one_le_iff, Nat.lt_size, hpow, or_iff_right hw.ne', pow_succ]
    omega

end DoubleWidth

end SwiftKStdlib.Integers

namespace SwiftKStdlib.Integers.DoubleWidth

open Lib

variable {s : Bool} {w : Nat} {x y : DoubleWidth s w}

/-- The result is `n` modulo `2 ^ bitWidth`, reported as an overflow if `n` is not representable. -/
def Exact (result : DoubleWidth s w × Bool) (n : Int) : Prop :=
  result.1.toInt % 2 ^ bitWidth w = n % 2 ^ bitWidth w ∧ (result.2 = true ↔ ¬ Representable s (bitWidth w) n)

instance (result : DoubleWidth s w × Bool) (n : Int) : Decidable (Exact result n) :=
  inferInstanceAs (Decidable (_ ∧ _))

/-- The sum of the high halves is right below the least value, to which the carry raises it. -/
def CarryRestores (x y : DoubleWidth s w) : Prop :=
  x.high.toInt + y.high.toInt = minValue s w - 1 ∧ 2 ^ w ≤ x.low.toInt + y.low.toInt

/-- The difference of the high halves is right above the greatest value, to which the borrow lowers it. -/
def BorrowRestores (x y : DoubleWidth s w) : Prop :=
  x.high.toInt - y.high.toInt = maxValue s w + 1 ∧ x.low.toInt < y.low.toInt

/-! ## The halves -/

theorem low_adding (x y : FixedWidth false w) : ∃ carry : Bool, (x.addingReportingOverflow y).2 = carry ∧
    (carry = true ↔ 2 ^ w ≤ x.toInt + y.toInt) ∧
    (x.addingReportingOverflow y).1.toInt = x.toInt + y.toInt - carry.toInt * 2 ^ w := by
  have hx := representable_unsigned.1 x.representable_toInt
  have hy := representable_unsigned.1 y.representable_toInt
  by_cases h : 2 ^ w ≤ x.toInt + y.toInt
  · refine ⟨true, ?_, iff_of_true rfl h, ?_⟩
    · rw [FixedWidth.addingReportingOverflow, FixedWidth.reportingOverflow_eq_true, representable_unsigned]
      omega
    · refine FixedWidth.toInt_ofInt_of_emod (representable_unsigned.2 ?_) (Int.sub_mul_emod_self_right _ _ _).symm
      simp only [Bool.toInt_true, one_mul]
      omega
  · refine ⟨false, ?_, iff_of_false Bool.false_ne_true h, ?_⟩
    · rw [FixedWidth.addingReportingOverflow, FixedWidth.reportingOverflow_eq_false, representable_unsigned]
      omega
    · refine (FixedWidth.toInt_ofInt (representable_unsigned.2 ?_)).trans ?_
      · omega
      · simp only [Bool.toInt_false, zero_mul, sub_zero]

theorem low_subtracting (x y : FixedWidth false w) : ∃ borrow : Bool, (x.subtractingReportingOverflow y).2 = borrow ∧
    (borrow = true ↔ x.toInt < y.toInt) ∧
    (x.subtractingReportingOverflow y).1.toInt = x.toInt - y.toInt + borrow.toInt * 2 ^ w := by
  have hx := representable_unsigned.1 x.representable_toInt
  have hy := representable_unsigned.1 y.representable_toInt
  by_cases h : x.toInt < y.toInt
  · refine ⟨true, ?_, iff_of_true rfl h, ?_⟩
    · rw [FixedWidth.subtractingReportingOverflow, FixedWidth.reportingOverflow_eq_true, representable_unsigned]
      omega
    · refine FixedWidth.toInt_ofInt_of_emod (representable_unsigned.2 ?_) (Int.add_mul_emod_self_right _ _ _).symm
      simp only [Bool.toInt_true, one_mul]
      omega
  · refine ⟨false, ?_, iff_of_false Bool.false_ne_true h, ?_⟩
    · rw [FixedWidth.subtractingReportingOverflow, FixedWidth.reportingOverflow_eq_false, representable_unsigned]
      omega
    · refine (FixedWidth.toInt_ofInt (representable_unsigned.2 ?_)).trans ?_
      · omega
      · simp only [Bool.toInt_false, zero_mul, add_zero]

theorem toInt_reporting {op : FixedWidth s w → FixedWidth s w → FixedWidth s w} {affected : FixedWidth s w}
    {low : FixedWidth false w × Bool} {high : FixedWidth s w × Bool} {h l δ : Int}
    (hlow : low.1.toInt = l - δ * 2 ^ w) (hop : (op high.1 (if low.2 then 1 else 0)).toInt % 2 ^ w = (h + δ) % 2 ^ w) :
    (reporting op affected low high).1.toInt % 2 ^ bitWidth w = (h * 2 ^ w + l) % 2 ^ bitWidth w := by
  obtain ⟨k, hk⟩ : (2 : Int) ^ w ∣ (h + δ) - (op high.1 (if low.2 then 1 else 0)).toInt := Int.ModEq.dvd hop
  refine Int.modEq_iff_dvd.2 ⟨k, ?_⟩
  rw [reporting, toInt, hlow, two_pow_bitWidth]
  linear_combination (2 : Int) ^ w * hk

theorem toInt_carry (c : Bool) : (if c then 1 else 0 : FixedWidth s w).toInt % 2 ^ w = c.toInt % 2 ^ w := by
  cases c <;> exact FixedWidth.toInt_ofInt_emod _

theorem toInt_adding (x y : DoubleWidth s w) :
    (x.addingReportingOverflow y).1.toInt % 2 ^ bitWidth w = (x.toInt + y.toInt) % 2 ^ bitWidth w := by
  obtain ⟨carry, hcarry, -, hlow⟩ := low_adding x.low y.low
  refine (toInt_reporting (h := x.high.toInt + y.high.toInt) (l := x.low.toInt + y.low.toInt) (δ := carry.toInt) hlow
    ?_).trans ?_
  · rw [hcarry, FixedWidth.maskingAdd, FixedWidth.toInt_ofInt_emod, Int.add_emod, toInt_carry, ← Int.add_emod]
    exact Int.ModEq.add_right _ (FixedWidth.toInt_ofInt_emod _)
  · rw [toInt, toInt]
    congr 1
    ring

theorem toInt_subtracting (x y : DoubleWidth s w) :
    (x.subtractingReportingOverflow y).1.toInt % 2 ^ bitWidth w = (x.toInt - y.toInt) % 2 ^ bitWidth w := by
  obtain ⟨borrow, hborrow, -, hlow⟩ := low_subtracting x.low y.low
  refine (toInt_reporting (h := x.high.toInt - y.high.toInt) (l := x.low.toInt - y.low.toInt) (δ := -borrow.toInt)
    (hlow.trans (by ring)) ?_).trans ?_
  · rw [hborrow, FixedWidth.maskingSubtract, FixedWidth.toInt_ofInt_emod, Int.sub_emod, toInt_carry, ← Int.sub_emod]
    exact Int.ModEq.sub_right _ (FixedWidth.toInt_ofInt_emod _)
  · rw [toInt, toInt]
    congr 1
    ring

/-! ## The flags -/

theorem ofInt_eq_max {h : Int} (hh : Representable s w h) : (FixedWidth.ofInt h : FixedWidth s w) = .max ↔ h = maxValue s w := by
  have hmax : Representable s w (maxValue s w) := ⟨by have := two_pow_pos_int w; rw [maxValue_eq]; omega, le_rfl⟩
  rw [FixedWidth.max, ← FixedWidth.toInt_inj, FixedWidth.toInt_ofInt hh, FixedWidth.toInt_ofInt hmax]

theorem ofInt_eq_min {h : Int} (hh : Representable s w h) : (FixedWidth.ofInt h : FixedWidth s w) = .min ↔ h = minValue s w := by
  have hmin : Representable s w (minValue s w) := ⟨le_rfl, by have := two_pow_pos_int w; rw [maxValue_eq]; omega⟩
  rw [FixedWidth.min, ← FixedWidth.toInt_inj, FixedWidth.toInt_ofInt hh, FixedWidth.toInt_ofInt hmin]

theorem reporting_snd {op : FixedWidth s w → FixedWidth s w → FixedWidth s w} {affected : FixedWidth s w}
    {low : FixedWidth false w × Bool} {h : Int} : (reporting op affected low (FixedWidth.reportingOverflow h)).2 = true ↔
      ¬ Representable s w h ∨ FixedWidth.ofInt h = affected ∧ low.2 = true := by
  rw [reporting, Bool.or_eq_true, FixedWidth.reportingOverflow_eq_true, Bool.and_eq_true, decide_eq_true_iff]
  rfl

theorem adding_snd (x y : DoubleWidth s w) : ((x.addingReportingOverflow y).2 = true ↔
    ¬ Representable s (bitWidth w) (x.toInt + y.toInt)) ↔ ¬ CarryRestores x y := by
  obtain ⟨carry, hcarry, hiff, hlow⟩ := low_adding x.low y.low
  have hbounds := representable_unsigned.1 (x.low.addingReportingOverflow y.low).1.representable_toInt
  have hsum : x.toInt + y.toInt = (x.high.toInt + y.high.toInt + carry.toInt) * 2 ^ w +
      (x.low.addingReportingOverflow y.low).1.toInt := by
    rw [hlow, toInt, toInt]
    ring
  rw [hsum, representable_pair hbounds.1 hbounds.2, addingReportingOverflow, FixedWidth.addingReportingOverflow,
    FixedWidth.addingReportingOverflow, reporting_snd, CarryRestores, ← hiff]
  rw [FixedWidth.addingReportingOverflow] at hcarry
  rw [hcarry]
  generalize x.high.toInt + y.high.toInt = h
  have hmax := maxValue_eq s w
  have hpos := two_pow_pos_int w
  by_cases hh : Representable s w h
  · rw [ofInt_eq_max hh]
    simp only [Representable] at hh ⊢
    cases carry
    · simp [hh]
    · simp only [Bool.toInt_true, eq_self, and_true]
      omega
  · simp only [Representable] at hh ⊢
    cases carry
    · simp [hh]
    · simp only [Bool.toInt_true, eq_self, and_true]
      omega

theorem subtracting_snd (x y : DoubleWidth s w) : ((x.subtractingReportingOverflow y).2 = true ↔
    ¬ Representable s (bitWidth w) (x.toInt - y.toInt)) ↔ ¬ BorrowRestores x y := by
  obtain ⟨borrow, hborrow, hiff, hlow⟩ := low_subtracting x.low y.low
  have hbounds := representable_unsigned.1 (x.low.subtractingReportingOverflow y.low).1.representable_toInt
  have hdiff : x.toInt - y.toInt = (x.high.toInt - y.high.toInt - borrow.toInt) * 2 ^ w +
      (x.low.subtractingReportingOverflow y.low).1.toInt := by
    rw [hlow, toInt, toInt]
    ring
  rw [hdiff, representable_pair hbounds.1 hbounds.2, subtractingReportingOverflow,
    FixedWidth.subtractingReportingOverflow, FixedWidth.subtractingReportingOverflow, reporting_snd, BorrowRestores,
    ← hiff]
  rw [FixedWidth.subtractingReportingOverflow] at hborrow
  rw [hborrow]
  generalize x.high.toInt - y.high.toInt = h
  have hmax := maxValue_eq s w
  have hpos := two_pow_pos_int w
  by_cases hh : Representable s w h
  · rw [ofInt_eq_min hh]
    simp only [Representable] at hh ⊢
    cases borrow
    · simp [hh]
    · simp only [Bool.toInt_true, eq_self, and_true]
      omega
  · simp only [Representable] at hh ⊢
    cases borrow
    · simp [hh]
    · simp only [Bool.toInt_true, eq_self, and_true]
      omega

/-! ## The results -/

theorem addition_exact_iff (x y : DoubleWidth s w) :
    Exact (x.addingReportingOverflow y) (x.toInt + y.toInt) ∧
        Exact (x.subtractingReportingOverflow y) (x.toInt - y.toInt) ↔
      ¬ CarryRestores x y ∧ ¬ BorrowRestores x y := by
  refine and_congr ?_ ?_
  · rw [Exact, adding_snd]
    exact and_iff_right (toInt_adding x y)
  · rw [Exact, subtracting_snd]
    exact and_iff_right (toInt_subtracting x y)

/-- The least 16-bit value as a sum, the greatest one as a difference. -/
theorem not_exact_int16 :
    (¬ Exact ((⟨.ofInt (-128), 255⟩ : DoubleWidth true 8).addingReportingOverflow ⟨.ofInt (-1), 1⟩)
        ((⟨.ofInt (-128), 255⟩ : DoubleWidth true 8).toInt + (⟨.ofInt (-1), 1⟩ : DoubleWidth true 8).toInt)) ∧
      ¬ Exact ((⟨127, 0⟩ : DoubleWidth true 8).subtractingReportingOverflow ⟨.ofInt (-1), 1⟩)
        ((⟨127, 0⟩ : DoubleWidth true 8).toInt - (⟨.ofInt (-1), 1⟩ : DoubleWidth true 8).toInt) := by
  decide

/-! ## Where no flag is wrong -/

theorem not_carryRestores (x y : DoubleWidth false w) : ¬ CarryRestores x y := by
  rintro ⟨h, -⟩
  have hx := representable_unsigned.1 x.high.representable_toInt
  have hy := representable_unsigned.1 y.high.representable_toInt
  rw [minValue, if_neg Bool.false_ne_true] at h
  omega

theorem not_borrowRestores (x y : DoubleWidth false w) : ¬ BorrowRestores x y := by
  rintro ⟨h, -⟩
  have hx := representable_unsigned.1 x.high.representable_toInt
  have hy := representable_unsigned.1 y.high.representable_toInt
  rw [maxValue, if_neg Bool.false_ne_true] at h
  omega

theorem toInt_maskingAdd_emod (x y : DoubleWidth s w) :
    (x.maskingAdd y).toInt % 2 ^ bitWidth w = (x.toInt + y.toInt) % 2 ^ bitWidth w := toInt_adding x y

theorem toInt_maskingSubtract_emod (x y : DoubleWidth s w) :
    (x.maskingSubtract y).toInt % 2 ^ bitWidth w = (x.toInt - y.toInt) % 2 ^ bitWidth w := toInt_subtracting x y

theorem add_eq (hxy : ¬ CarryRestores x y) (h : Representable s (bitWidth w) (x.toInt + y.toInt)) :
    x.add y = some (ofInt (x.toInt + y.toInt)) := by
  have hflag : (x.addingReportingOverflow y).2 = false :=
    Bool.eq_false_iff.2 (mt ((adding_snd x y).2 hxy).1 (not_not.2 h))
  rw [add, trapping, hflag, if_neg Bool.false_ne_true, ← ofInt_toInt (x.addingReportingOverflow y).1]
  congr 2
  exact (representable_toInt _).eq_of_emod h (toInt_adding x y)

theorem subtract_eq (hxy : ¬ BorrowRestores x y) (h : Representable s (bitWidth w) (x.toInt - y.toInt)) :
    x.subtract y = some (ofInt (x.toInt - y.toInt)) := by
  have hflag : (x.subtractingReportingOverflow y).2 = false :=
    Bool.eq_false_iff.2 (mt ((subtracting_snd x y).2 hxy).1 (not_not.2 h))
  rw [subtract, trapping, hflag, if_neg Bool.false_ne_true, ← ofInt_toInt (x.subtractingReportingOverflow y).1]
  congr 2
  exact (representable_toInt _).eq_of_emod h (toInt_subtracting x y)

/-! ## Literals, complements and magnitudes -/

theorem toInt_zero (s : Bool) (w : Nat) : (0 : DoubleWidth s w).toInt = 0 := toInt_ofInt (representable_zero _ _)

theorem toInt_one (h : Representable s (bitWidth w) 1) : (1 : DoubleWidth s w).toInt = 1 := toInt_ofInt h

theorem lessThan_zero (x : DoubleWidth s w) : x.lessThan 0 = true ↔ x.toInt < 0 := by
  rw [lessThan_iff, toInt_zero]

theorem eq_zero_iff (x : DoubleWidth s w) : x = 0 ↔ x.toInt = 0 := by
  rw [← toInt_inj, toInt_zero]

theorem toInt_complement_emod (x : DoubleWidth s w) :
    x.complement.toInt % 2 ^ bitWidth w = (-1 - x.toInt) % 2 ^ bitWidth w := by
  have h0 : (0 : DoubleWidth s w).toInt ≡ 0 [ZMOD 2 ^ bitWidth w] := toInt_ofInt_emod 0
  have h1 : (1 : DoubleWidth s w).toInt ≡ 1 [ZMOD 2 ^ bitWidth w] := toInt_ofInt_emod 1
  have hsub : ((0 : DoubleWidth s w).maskingSubtract x).toInt ≡ 0 - x.toInt [ZMOD 2 ^ bitWidth w] :=
    (toInt_maskingSubtract_emod _ _).trans (h0.sub_right _)
  calc x.complement.toInt ≡ ((0 : DoubleWidth s w).maskingSubtract x).toInt - (1 : DoubleWidth s w).toInt
        [ZMOD 2 ^ bitWidth w] := toInt_maskingSubtract_emod _ _
    _ ≡ 0 - x.toInt - 1 [ZMOD 2 ^ bitWidth w] := hsub.sub h1
    _ = -1 - x.toInt := by ring

theorem toInt_magnitude_ofInt (n : Int) : (ofInt n : Magnitude w).toInt = n % 2 ^ bitWidth w :=
  have hM := two_pow_pos_int (bitWidth w)
  (representable_toInt _).eq_of_emod (representable_unsigned.2 ⟨Int.emod_nonneg _ hM.ne', Int.emod_lt_of_pos _ hM⟩)
    ((toInt_ofInt_emod _).trans (Int.emod_emod _ _).symm)

theorem toInt_complement_unsigned (x : Magnitude w) : x.complement.toInt = 2 ^ bitWidth w - 1 - x.toInt := by
  have hx := representable_unsigned.1 x.representable_toInt
  refine (representable_toInt _).eq_of_emod (representable_unsigned.2 ⟨by omega, by omega⟩) ?_
  rw [toInt_complement_emod, show (2 : Int) ^ bitWidth w - 1 - x.toInt = -1 - x.toInt + 2 ^ bitWidth w by ring,
    Int.add_emod_right]

theorem toInt_complement_zero (hw : 0 < w) : (0 : DoubleWidth true w).complement.toInt = -1 := by
  have hN : 0 < bitWidth w := Nat.add_pos_left hw w
  have heven := neg_minValue hN
  have hmax := (representable_zero true (bitWidth w)).2
  refine (representable_toInt _).eq_of_emod ⟨by omega, by omega⟩ ?_
  rw [toInt_complement_emod, toInt_zero, sub_zero]

theorem representable_abs (x : DoubleWidth s w) : Representable false (bitWidth w) |x.toInt| := by
  have h := x.representable_toInt
  have hpos := two_pow_pos_int (bitWidth w)
  refine representable_unsigned.2 ⟨abs_nonneg _, abs_lt.2 ?_⟩
  cases s with
  | false =>
      rw [representable_unsigned] at h
      omega
  | true =>
      rw [representable_signed] at h
      omega

theorem abs_le_half (x : DoubleWidth true w) : |x.toInt| ≤ 2 ^ bitWidth w / 2 := by
  have h := representable_signed.1 x.representable_toInt
  rw [abs_le]
  omega

theorem high_lt_zero {x : DoubleWidth s w} : x.high < 0 ↔ x.toInt < 0 := by
  have h := x.low_bounds
  have hpos := two_pow_pos_int w
  rw [FixedWidth.lt_zero_iff, toInt]
  refine ⟨fun hlt => by nlinarith, fun hlt => ?_⟩
  by_contra hcon
  nlinarith

theorem toInt_magnitude (x : DoubleWidth s w) : x.magnitude.toInt = |x.toInt| := by
  refine (representable_toInt _).eq_of_emod (representable_abs x) ?_
  obtain ⟨k, hk⟩ : (2 : Int) ^ w ∣ x.high.toInt - (FixedWidth.ofInt x.high.toInt : FixedWidth false w).toInt :=
    Int.ModEq.dvd (FixedWidth.toInt_ofInt_emod _)
  have hbits : (⟨.ofInt x.high.toInt, x.low⟩ : Magnitude w).toInt ≡ x.toInt [ZMOD 2 ^ bitWidth w] := by
    refine Int.modEq_iff_dvd.2 ⟨k, ?_⟩
    rw [toInt, toInt, two_pow_bitWidth]
    linear_combination (2 : Int) ^ w * hk
  rw [magnitude]
  by_cases hneg : s = true ∧ x.high < 0
  · have h1 : (1 : Magnitude w).toInt ≡ 1 [ZMOD 2 ^ bitWidth w] := toInt_ofInt_emod 1
    rw [if_pos hneg, abs_of_neg (high_lt_zero.1 hneg.2)]
    calc ((⟨.ofInt x.high.toInt, x.low⟩ : Magnitude w).complement.maskingAdd 1).toInt
        ≡ (⟨.ofInt x.high.toInt, x.low⟩ : Magnitude w).complement.toInt + (1 : Magnitude w).toInt
          [ZMOD 2 ^ bitWidth w] := toInt_maskingAdd_emod _ _
      _ ≡ -1 - (⟨.ofInt x.high.toInt, x.low⟩ : Magnitude w).toInt + 1 [ZMOD 2 ^ bitWidth w] :=
          (Int.ModEq.add (toInt_complement_emod _) h1)
      _ ≡ -1 - x.toInt + 1 [ZMOD 2 ^ bitWidth w] := (hbits.sub_left _).add_right _
      _ = -x.toInt := by ring
  · have hnonneg : 0 ≤ x.toInt := by
      cases s with
      | false => exact (representable_unsigned.1 x.representable_toInt).1
      | true => exact not_lt.1 fun h => hneg ⟨rfl, high_lt_zero.2 h⟩
    rw [if_neg hneg, abs_of_nonneg hnonneg]
    exact hbits

theorem ofMagnitude_eq (m : Magnitude w) : (ofMagnitude m : Option (DoubleWidth s w)) =
    if Representable s (bitWidth w) m.toInt then some (ofInt m.toInt) else none := by
  have hiff : Representable s (bitWidth w) m.toInt ↔ Representable s w m.high.toInt :=
    representable_pair m.low_bounds.1 m.low_bounds.2
  rw [ofMagnitude, FixedWidth.exactly]
  by_cases h : Representable s w m.high.toInt
  · rw [if_pos h, if_pos (hiff.2 h), Option.map_some]
    congr 1
    apply toInt_inj.1
    rw [toInt_ofInt (hiff.2 h), toInt, FixedWidth.toInt_ofInt h]
    rfl
  · rw [if_neg h, if_neg (mt hiff.1 h), Option.map_none]

/-! ## Signs -/

theorem signs_differ {a b : DoubleWidth s w} : (a.lessThan 0 != b.lessThan 0) = true ↔ ¬ (a.toInt < 0 ↔ b.toInt < 0) := by
  rw [bne_iff_ne, ne_eq, Bool.eq_iff_iff, lessThan_zero, lessThan_zero]

theorem not_neg_of_unsigned {x : DoubleWidth s w} (hs : ¬ s = true) : ¬ x.toInt < 0 := by
  obtain rfl : s = false := Bool.eq_false_iff.2 hs
  exact not_lt.2 (representable_unsigned.1 x.representable_toInt).1

theorem signed_of_neg {x : DoubleWidth s w} (hx : x.toInt < 0) : s = true ∧ 0 < w := by
  have hs : s = true := not_not.1 fun hs => not_neg_of_unsigned hs hx
  subst hs
  refine ⟨rfl, Nat.pos_of_ne_zero ?_⟩
  rintro rfl
  have := (representable_signed.1 x.representable_toInt).1
  rw [bitWidth, add_zero, pow_zero] at this
  omega

theorem signed_of_signs {a b : DoubleWidth s w} (h : ¬ (a.toInt < 0 ↔ b.toInt < 0)) : s = true ∧ 0 < w := by
  by_cases ha : a.toInt < 0
  · exact signed_of_neg ha
  · exact signed_of_neg (not_le.1 fun hb => h (iff_of_false ha (not_lt.2 hb)))

end SwiftKStdlib.Integers.DoubleWidth
