import Mathlib.Data.Nat.Bitwise
import SwiftKStdlib.Integers.DoubleWidthShifts
import SwiftKStdlib.Lib.Loop

/-!
# Division of double-width integers

* `nonMaskingRightShift`, `nonMaskingLeftShift` : the generic smart shifts by an `Int`;
* `divisionStep`, `divisionLoop` : restoring division of the magnitudes, one bit at a time;
* `Divided` : the invariant, the quotient and the remainder of the leading bits;
* `AmountsSurvive` : the mask keeps the amounts of the two shifts before the loop;
* `dividesExactly_iff` : the division is right except for the least value by one.
-/

namespace SwiftKStdlib.Integers.DoubleWidth

open Lib

variable {s : Bool} {w : Nat}

/-! ## Generic smart shifts -/

/-- `init(_:)` of another integer. -/
def exactly (n : Int) : Option (DoubleWidth s w) := if Representable s (bitWidth w) n then some (ofInt n) else none

/-- The `Int` that an amount is clamped to. -/
def clampedAmount (w : Nat) (rhs : Int) : Int :=
  if rhs < -bitWidth w then -bitWidth w else if bitWidth w < rhs then bitWidth w else rhs

/-- `_nonMaskingRightShift`. -/
def nonMaskingRightShift (lhs : DoubleWidth s w) (rhs : Int) : Option (DoubleWidth s w) := do
  let overshiftR ← (if s then lhs.maskingShiftRight (ofInt (bitWidth w - 1)) else some 0 : Option (DoubleWidth s w))
  if 0 ≤ rhs then
    if rhs < bitWidth w then lhs.maskingShiftRight (ofInt rhs) else some overshiftR
  else if rhs ≤ -bitWidth w then some 0
  else lhs.maskingShiftLeft (ofInt (-rhs))

/-- `_nonMaskingLeftShift`. -/
def nonMaskingLeftShift (lhs : DoubleWidth s w) (rhs : Int) : Option (DoubleWidth s w) := do
  let overshiftR ← (if s then lhs.maskingShiftRight (ofInt (bitWidth w - 1)) else some 0 : Option (DoubleWidth s w))
  if 0 ≤ rhs then
    if rhs < bitWidth w then lhs.maskingShiftLeft (ofInt rhs) else some 0
  else if rhs ≤ -bitWidth w then some overshiftR
  else lhs.maskingShiftRight (ofInt (-rhs))

/-- `>>`. -/
def shiftedRight (lhs : DoubleWidth s w) (rhs : Int) : Option (DoubleWidth s w) :=
  lhs.nonMaskingRightShift (clampedAmount w rhs)

/-- `<<=` with an amount of another type. -/
def shiftedLeft (lhs : DoubleWidth s w) (rhs : Int) : Option (DoubleWidth s w) :=
  lhs.nonMaskingLeftShift (clampedAmount w rhs)

/-! ## The division of the source -/

/-- One iteration, on the quotient and the remainder. -/
def divisionStep (rhs highBit : Magnitude w) (state : Magnitude w × Magnitude w) :
    Option (Magnitude w × Magnitude w) := do
  let r ← state.2.shiftedLeft 1
  let r ← (if state.1 &&& highBit ≠ 0 then r.add 1 else some r : Option (Magnitude w))
  let q ← state.1.shiftedLeft 1
  if r.lessThan rhs then some (q, r)
  else do
    let r ← r.subtract rhs
    some (q ||| 1, r)

def divisionLoop (rhs highBit : Magnitude w) : Nat → Magnitude w × Magnitude w → Option (Magnitude w × Magnitude w)
  | 0, state => some state
  | n + 1, state => do
    let state ← divisionStep rhs highBit state
    divisionLoop rhs highBit n state

/-- The number of bits before `q` and `rhs` line up. -/
def initialOffset (q rhs : Magnitude w) : Int :=
  q.leadingZeroBitCount + (bitWidth w - rhs.leadingZeroBitCount) - 1

/-- `quotientAndRemainder(dividingBy:)`. -/
def quotientAndRemainder (self other : DoubleWidth s w) : Option (DoubleWidth s w × DoubleWidth s w) := do
  let isNegative := self.lessThan 0 != other.lessThan 0
  let rhs := other.magnitude
  let q := self.magnitude
  if rhs.leadingZeroBitCount < q.leadingZeroBitCount then some (0, self)
  else do
    let initialOffset := initialOffset q rhs
    let amount ← exactly (s := false) (w := w) (bitWidth w - initialOffset)
    let r ← q.shiftedRight amount.toInt
    let amount ← exactly initialOffset
    let q ← q.shiftLeft amount
    let ones ← (0 : Magnitude w).complement.shiftedRight 1
    let highBit := ones.complement
    let iterations ← (if initialOffset ≤ bitWidth w then some (bitWidth w - initialOffset).toNat else none : Option Nat)
    let (q, r) ← divisionLoop rhs highBit iterations (q, r)
    let remainder ← ofMagnitude r
    let remainder ←
      (if self.lessThan 0 then (0 : DoubleWidth s w).subtract remainder else some remainder : Option (DoubleWidth s w))
    let quotient ← ofMagnitude q
    if isNegative then
      let quotient ← (0 : DoubleWidth s w).subtract quotient
      some (quotient, remainder)
    else some (quotient, remainder)

/-! ## Shifts by one -/

theorem clampedAmount_one (hw : 0 < w) : clampedAmount w 1 = 1 := by
  unfold clampedAmount bitWidth
  rw [if_neg (by omega), if_neg (by omega)]

theorem maskedAmount_one (hw : 0 < w) : (ofInt 1 : Magnitude w).maskedAmount = 1 := by
  obtain ⟨k, rfl⟩ := Nat.exists_eq_add_one.2 hw
  have hlow : (ofInt 1 : Magnitude (k + 1)).low.bits.toNat = 1 := by
    have h := toInt_low_ofInt (w := k + 1) 1
    rw [Int.emod_eq_of_lt Int.one_nonneg (by exact_mod_cast Nat.one_lt_two_pow (Nat.succ_ne_zero k)),
      FixedWidth.toInt_unsigned] at h
    exact_mod_cast h
  rw [maskedAmount, hlow, Nat.one_and_eq_mod_two, bitWidth]
  omega

theorem shiftedLeft_one (hw : 0 < w) (x : Magnitude w) : x.shiftedLeft 1 = some (ofInt (x.toInt * 2)) := by
  rw [shiftedLeft, clampedAmount_one hw, nonMaskingLeftShift, if_neg Bool.false_ne_true, Option.bind_eq_bind,
    Option.bind_some, if_pos Int.one_nonneg, if_pos (by unfold bitWidth; omega), maskingShiftLeft_eq hw,
    maskedAmount_one hw, pow_one]

theorem shiftedRight_eq (hw : 0 < w) (x : Magnitude w) {n : Nat} (hn : n ≤ bitWidth w)
    (hmask : n < bitWidth w → (ofInt n : Magnitude w).maskedAmount = n) :
    x.shiftedRight n = some (ofInt (x.toInt / 2 ^ n)) := by
  have hclamped : clampedAmount w n = n := by
    unfold clampedAmount
    rw [if_neg (by omega), if_neg (by omega)]
  rw [shiftedRight, hclamped, nonMaskingRightShift, if_neg Bool.false_ne_true, Option.bind_eq_bind, Option.bind_some,
    if_pos (Int.natCast_nonneg n)]
  by_cases hlt : n < bitWidth w
  · rw [if_pos (by exact_mod_cast hlt), maskingShiftRight_eq hw, hmask hlt]
  · have hx := representable_unsigned.1 x.representable_toInt
    have hpow : (2 : Int) ^ bitWidth w ≤ 2 ^ n := by exact_mod_cast Nat.pow_le_pow_right Nat.two_pos (not_lt.1 hlt)
    rw [if_neg (by exact_mod_cast hlt), Int.ediv_eq_zero_of_lt hx.1 (by omega)]
    rfl

/-! ## The high bit -/

theorem toInt_highBit (hw : 0 < w) : (ofInt ((0 : Magnitude w).complement.toInt / 2 ^ 1) : Magnitude w).complement.toInt =
    2 ^ (bitWidth w - 1) := by
  obtain ⟨k, hk⟩ : ∃ k, bitWidth w = k + 1 := Nat.exists_eq_add_one.2 (Nat.add_pos_left hw w)
  have hpos := two_pow_pos_int k
  rw [toInt_complement_unsigned, toInt_complement_unsigned, toInt_zero, toInt_magnitude_ofInt, hk, Nat.add_sub_cancel,
    pow_one, pow_succ, Int.emod_eq_of_lt (by omega) (by omega)]
  omega

theorem and_highBit_ne_zero (hw : 0 < w) {highBit : Magnitude w} (hhigh : highBit.toInt = 2 ^ (bitWidth w - 1))
    (q : Magnitude w) : q &&& highBit ≠ 0 ↔ 2 ^ bitWidth w ≤ 2 * q.toInt := by
  obtain ⟨k, hk⟩ : ∃ k, bitWidth w = k + 1 := Nat.exists_eq_add_one.2 (Nat.add_pos_left hw w)
  have hq := representable_unsigned.1 q.representable_toInt
  have hand := toNat_and q highBit
  rw [hhigh, hk, Nat.add_sub_cancel, show ((2 : Int) ^ k).toNat = 2 ^ k by exact_mod_cast Int.toNat_natCast (2 ^ k),
    Nat.and_two_pow] at hand
  have hand0 := (representable_unsigned.1 (q &&& highBit).representable_toInt).1
  rw [hk, pow_succ] at hq ⊢
  rw [Ne, eq_zero_iff]
  obtain hlt | hge := lt_or_ge q.toInt (2 ^ k)
  · have hnat : q.toInt.toNat < 2 ^ k := by
      zify
      omega
    rw [Nat.testBit_lt_two_pow hnat, Bool.toNat_false, zero_mul] at hand
    omega
  · have hnat : 2 ^ k ≤ q.toInt.toNat ∧ q.toInt.toNat < 2 ^ (k + 1) := by
      rw [pow_succ]
      zify
      omega
    have hpos := Nat.two_pow_pos k
    rw [Nat.testBit_of_two_pow_le_and_two_pow_add_one_gt hnat.1 hnat.2, Bool.toNat_true, one_mul] at hand
    omega

theorem or_one (hw : 0 < w) {q : Magnitude w} (heven : q.toInt % 2 = 0) : (q ||| 1).toInt = q.toInt + 1 := by
  have hq := representable_unsigned.1 q.representable_toInt
  have hone : (1 : Magnitude w).toInt = 1 := toInt_one (representable_one (Nat.add_pos_left hw w))
  have hor := toNat_or q 1
  have hor0 := (representable_unsigned.1 (q ||| 1).representable_toInt).1
  obtain ⟨n, hn⟩ : ∃ n : Nat, q.toInt = 2 ^ 1 * n := ⟨(q.toInt / 2).toNat, by omega⟩
  rw [hone, hn, show ((2 : Int) ^ 1 * n).toNat = 2 ^ 1 * n by omega, show (1 : Int).toNat = 1 from rfl,
    ← Nat.two_pow_add_eq_or_of_lt (by decide)] at hor
  omega

/-! ## One iteration -/

/-- The quotient and the remainder of the bits of `a` above the lowest `m`, which are still in front of the quotient. -/
def Divided (w : Nat) (a d : Int) (m : Nat) (state : Magnitude w × Magnitude w) : Prop :=
  state.1.toInt = a % 2 ^ m * 2 ^ (bitWidth w - m) + a / 2 ^ m / d ∧ state.2.toInt = a / 2 ^ m % d

theorem leading_succ (a : Int) (m : Nat) : a / 2 ^ m = 2 * (a / 2 ^ (m + 1)) + a / 2 ^ m % 2 := by
  rw [pow_succ, ← Int.ediv_ediv_of_nonneg (two_pow_pos_int m).le]
  omega

theorem trailing_succ (a : Int) (m : Nat) : a % 2 ^ (m + 1) = a / 2 ^ m % 2 * 2 ^ m + a % 2 ^ m := by
  have hpow : 2 ^ m * 2 * (a / 2 ^ (m + 1)) + a % 2 ^ (m + 1) = a := by
    rw [← pow_succ]
    exact Int.mul_ediv_add_emod a (2 ^ (m + 1))
  have hpow' := Int.mul_ediv_add_emod a (2 ^ m)
  linear_combination hpow - hpow' + (2 : Int) ^ m * leading_succ a m

def shiftedQuotient (n : Nat) (a d : Int) (m : Nat) : Int := a % 2 ^ m * 2 ^ (n - m) + 2 * (a / 2 ^ (m + 1) / d)

theorem shiftedQuotient_bounds {n m : Nat} {a d : Int} (ha : 0 ≤ a ∧ a < 2 ^ n) (hd : 0 < d) (hm : m < n) :
    0 ≤ shiftedQuotient n a d m ∧ shiftedQuotient n a d m < 2 ^ n ∧ shiftedQuotient n a d m % 2 = 0 := by
  obtain ⟨k, rfl⟩ := Nat.exists_eq_add_of_lt hm
  have hpos := two_pow_pos_int m
  have hk := two_pow_pos_int k
  have h0 := Int.emod_nonneg a hpos.ne'
  have h1 := Int.emod_lt_of_pos a hpos
  have hquot0 : 0 ≤ a / 2 ^ (m + 1) := Int.ediv_nonneg ha.1 (two_pow_pos_int _).le
  have hquot1 : a / 2 ^ (m + 1) < 2 ^ k :=
    Int.ediv_lt_of_lt_mul (two_pow_pos_int _) (by rw [← pow_add]; exact (ha.2.trans_eq (by ring)))
  have hd0 : 0 ≤ a / 2 ^ (m + 1) / d := Int.ediv_nonneg hquot0 hd.le
  have hd1 : a / 2 ^ (m + 1) / d ≤ a / 2 ^ (m + 1) := Int.ediv_le_self _ hquot0
  have hexp : m + k + 1 - m = k + 1 := by omega
  have hsplit : shiftedQuotient (m + k + 1) a d m = 2 * (a % 2 ^ m * 2 ^ k + a / 2 ^ (m + 1) / d) := by
    rw [shiftedQuotient, hexp, pow_succ]
    ring
  have hpow : (2 : Int) ^ (m + k + 1) = 2 * (2 ^ m * 2 ^ k) := by ring
  have hfront : a % 2 ^ m * 2 ^ k ≤ (2 ^ m - 1) * 2 ^ k := mul_le_mul_of_nonneg_right (by omega) hk.le
  rw [hsplit, hpow]
  refine ⟨by positivity, ?_, Int.mul_emod_right 2 _⟩
  linarith

theorem shifted_out {n m : Nat} (a d : Int) (hm : m < n) :
    (a % 2 ^ (m + 1) * 2 ^ (n - (m + 1)) + a / 2 ^ (m + 1) / d) * 2 = a / 2 ^ m % 2 * 2 ^ n + shiftedQuotient n a d m := by
  obtain ⟨k, rfl⟩ := Nat.exists_eq_add_of_lt hm
  have hexp : m + k + 1 - m = k + 1 := by omega
  have hexp' : m + k + 1 - (m + 1) = k := by omega
  rw [shiftedQuotient, hexp, hexp', trailing_succ]
  ring

theorem division_succ (a : Int) {d : Int} (hd : 0 < d) (m : Nat) :
    if 2 * (a / 2 ^ (m + 1) % d) + a / 2 ^ m % 2 < d then
      a / 2 ^ m / d = 2 * (a / 2 ^ (m + 1) / d) ∧ a / 2 ^ m % d = 2 * (a / 2 ^ (m + 1) % d) + a / 2 ^ m % 2
    else a / 2 ^ m / d = 2 * (a / 2 ^ (m + 1) / d) + 1 ∧
      a / 2 ^ m % d = 2 * (a / 2 ^ (m + 1) % d) + a / 2 ^ m % 2 - d := by
  have h0 := Int.emod_nonneg (a / 2 ^ (m + 1)) hd.ne'
  have h1 := Int.emod_lt_of_pos (a / 2 ^ (m + 1)) hd
  have hbit := Int.emod_two_eq_zero_or_one (a / 2 ^ m)
  have hdiv := Int.mul_ediv_add_emod (a / 2 ^ (m + 1)) d
  have hlead := leading_succ a m
  split_ifs with hlt
  · exact (Int.ediv_emod_unique hd).2 ⟨by linear_combination -hlead + 2 * hdiv, by omega, hlt⟩
  · exact (Int.ediv_emod_unique hd).2 ⟨by linear_combination -hlead + 2 * hdiv, by omega, by omega⟩

theorem divisionStep_divided (hw : 0 < w) {rhs highBit : Magnitude w} {a : Int} {m : Nat}
    {state : Magnitude w × Magnitude w} (hhigh : highBit.toInt = 2 ^ (bitWidth w - 1)) (hrhs : 0 < rhs.toInt)
    (ha : Representable false (bitWidth w) a) (hm : m < bitWidth w) (h : Divided w a rhs.toInt (m + 1) state) :
    Returns (divisionStep rhs highBit state) (Divided w a rhs.toInt m) := by
  obtain ⟨hq, hr⟩ := h
  rw [representable_unsigned] at ha
  obtain ⟨hX0, hX1, heven⟩ := shiftedQuotient_bounds ha hrhs hm
  have hout := shifted_out a rhs.toInt hm
  rw [← hq] at hout
  have hbit := Int.emod_two_eq_zero_or_one (a / 2 ^ m)
  have hr0 := Int.emod_nonneg (a / 2 ^ (m + 1)) hrhs.ne'
  have hlead0 : 0 ≤ a / 2 ^ (m + 1) := Int.ediv_nonneg ha.1 (two_pow_pos_int _).le
  have hlead : a / 2 ^ m < 2 ^ bitWidth w := (Int.ediv_le_self _ ha.1).trans_lt ha.2
  have hlead' := leading_succ a m
  have hrle : a / 2 ^ (m + 1) % rhs.toInt ≤ a / 2 ^ (m + 1) := by
    have := mul_nonneg hrhs.le (Int.ediv_nonneg hlead0 hrhs.le)
    have := Int.mul_ediv_add_emod (a / 2 ^ (m + 1)) rhs.toInt
    omega
  have hdiv := division_succ a hrhs m
  -- the remainder takes up the bit in front of the quotient
  have hr1 : (if state.1 &&& highBit ≠ 0 then (ofInt (state.2.toInt * 2) : Magnitude w).add 1
      else some (ofInt (state.2.toInt * 2))) = some (ofInt (2 * (a / 2 ^ (m + 1) % rhs.toInt) + a / 2 ^ m % 2)) := by
    have hdouble : (ofInt (state.2.toInt * 2) : Magnitude w).toInt = 2 * (a / 2 ^ (m + 1) % rhs.toInt) := by
      rw [hr, mul_comm]
      exact toInt_ofInt (representable_unsigned.2 ⟨by omega, by omega⟩)
    have hone : (1 : Magnitude w).toInt = 1 := toInt_one (representable_one (Nat.add_pos_left hw w))
    rcases hbit with hbit | hbit
    · rw [hbit, zero_mul, zero_add] at hout
      rw [if_neg (mt (and_highBit_ne_zero hw hhigh _).1 (by omega)), hbit, add_zero, ← hdouble, ofInt_toInt]
    · rw [hbit, one_mul] at hout
      rw [if_pos ((and_highBit_ne_zero hw hhigh _).2 (by omega)), add_eq (not_carryRestores _ _)]
      · rw [hdouble, hone, hbit]
      · rw [hdouble, hone]
        exact representable_unsigned.2 ⟨by omega, by omega⟩
  have hq1 : (ofInt (state.1.toInt * 2) : Magnitude w).toInt = shiftedQuotient (bitWidth w) a rhs.toInt m := by
    rw [toInt_magnitude_ofInt, hout, Int.add_comm, Int.add_mul_emod_self_right, Int.emod_eq_of_lt hX0 hX1]
  have hr2 : (ofInt (2 * (a / 2 ^ (m + 1) % rhs.toInt) + a / 2 ^ m % 2) : Magnitude w).toInt =
      2 * (a / 2 ^ (m + 1) % rhs.toInt) + a / 2 ^ m % 2 := toInt_ofInt (representable_unsigned.2 ⟨by omega, by omega⟩)
  simp only [divisionStep, shiftedLeft_one hw, Option.bind_eq_bind, Option.bind_some, hr1]
  by_cases hlt : 2 * (a / 2 ^ (m + 1) % rhs.toInt) + a / 2 ^ m % 2 < rhs.toInt
  · rw [if_pos hlt] at hdiv
    rw [if_pos ((lessThan_iff _ _).2 (hr2.trans_lt hlt))]
    exact .pure ⟨by rw [hq1, hdiv.1, shiftedQuotient], by rw [hr2, hdiv.2]⟩
  · rw [if_neg hlt] at hdiv
    have hdiff : Representable false (bitWidth w)
        (2 * (a / 2 ^ (m + 1) % rhs.toInt) + a / 2 ^ m % 2 - rhs.toInt) :=
      representable_unsigned.2 ⟨by omega, by omega⟩
    rw [if_neg (mt (lessThan_iff _ _).1 (by rwa [hr2])), subtract_eq (not_borrowRestores _ _) (by rwa [hr2]), hr2]
    refine .pure ⟨?_, ?_⟩
    · rw [or_one hw (hq1.symm ▸ heven), hq1, hdiv.1, shiftedQuotient, add_assoc]
    · rw [toInt_ofInt hdiff, hdiv.2]

theorem divisionLoop_divided (hw : 0 < w) {rhs highBit : Magnitude w} {a : Int} {m : Nat}
    {state : Magnitude w × Magnitude w} (hhigh : highBit.toInt = 2 ^ (bitWidth w - 1)) (hrhs : 0 < rhs.toInt)
    (ha : Representable false (bitWidth w) a) (hm : m ≤ bitWidth w) (h : Divided w a rhs.toInt m state) :
    Returns (divisionLoop rhs highBit m state) (Divided w a rhs.toInt 0) := by
  induction m generalizing state with
  | zero => exact .pure h
  | succ m ih => exact (divisionStep_divided hw hhigh hrhs ha hm h).bind fun state' h' => ih (by omega) h'

/-! ## The shifts before the loop -/

def iterations (a b : Int) : Nat := a.toNat.size - b.toNat.size + 1

/-- The mask keeps the amounts by which the dividend is shifted, unless the loop is not reached. -/
def AmountsSurvive (a b : DoubleWidth s w) : Prop :=
  |b.toInt|.toNat.size ≤ |a.toInt|.toNat.size →
    (iterations |a.toInt| |b.toInt| < bitWidth w →
      iterations |a.toInt| |b.toInt| &&& (bitWidth w - 1) = iterations |a.toInt| |b.toInt|) ∧
    (bitWidth w - iterations |a.toInt| |b.toInt|) &&& (bitWidth w - 1) = bitWidth w - iterations |a.toInt| |b.toInt|

theorem amountsSurvive_two_pow {k : Nat} (hk : w = 2 ^ k) (a b : DoubleWidth s w) : AmountsSurvive a b := by
  have hwidth : bitWidth w = 2 ^ (k + 1) := by rw [bitWidth, hk, pow_succ, mul_two]
  have hpos := Nat.two_pow_pos (k + 1)
  have h1 : 0 < iterations |a.toInt| |b.toInt| := Nat.succ_pos _
  intro _
  rw [hwidth]
  refine ⟨fun hlt => ?_, ?_⟩
  · rw [Nat.and_two_pow_sub_one_eq_mod, Nat.mod_eq_of_lt hlt]
  · rw [Nat.and_two_pow_sub_one_eq_mod, Nat.mod_eq_of_lt (by omega)]

theorem maskedAmount_ofInt' (hw : 0 < w) {n : Nat} (hn : n < bitWidth w) :
    (ofInt n : Magnitude w).maskedAmount = n &&& (bitWidth w - 1) := by
  have hlow := toInt_low_ofInt (w := w) n
  rw [FixedWidth.toInt_unsigned] at hlow
  rw [Int.emod_eq_of_lt (Int.natCast_nonneg n) (by exact_mod_cast hn.trans_le (bitWidth_le hw))] at hlow
  rw [maskedAmount, show (ofInt n : Magnitude w).low.bits.toNat = n by exact_mod_cast hlow]

theorem size_le_bitWidth {a : Int} (ha : Representable false (bitWidth w) a) : a.toNat.size ≤ bitWidth w := by
  rw [representable_unsigned] at ha
  rw [Nat.size_le]
  zify
  omega

theorem divided_initial {a d : Int} {q r : Magnitude w} (ha : Representable false (bitWidth w) a) (hd : 0 < d)
    (hsize : d.toNat.size ≤ a.toNat.size) (hq : q.toInt = a * 2 ^ (bitWidth w - iterations a d) % 2 ^ bitWidth w)
    (hr : r.toInt = a / 2 ^ iterations a d) : Divided w a d (iterations a d) (q, r) := by
  have hk : iterations a d ≤ bitWidth w := by
    have h0 : 0 < d.toNat.size := Nat.size_pos.2 (by omega)
    have := size_le_bitWidth ha
    unfold iterations
    omega
  rw [representable_unsigned] at ha
  have hpow : 0 < (2 : Int) ^ iterations a d := two_pow_pos_int _
  have hlead0 : 0 ≤ a / 2 ^ iterations a d := Int.ediv_nonneg ha.1 hpow.le
  have hlead : a / 2 ^ iterations a d < d := by
    have hsplit : a.toNat.size = d.toNat.size - 1 + iterations a d := by
      have h0 : 0 < d.toNat.size := Nat.size_pos.2 (by omega)
      unfold iterations
      omega
    have hlow : ((2 ^ (d.toNat.size - 1) : Nat) : Int) ≤ d.toNat :=
      Int.ofNat_le.2 (Nat.lt_size.1 (Nat.sub_lt (Nat.size_pos.2 (by omega)) Nat.one_pos))
    have hhigh : (a.toNat : Int) < ((2 ^ a.toNat.size : Nat) : Int) := Int.ofNat_lt.2 (Nat.lt_size_self _)
    rw [Int.toNat_of_nonneg ha.1, hsplit, pow_add] at hhigh
    rw [Int.toNat_of_nonneg hd.le] at hlow
    push_cast at hhigh hlow
    exact (Int.ediv_lt_of_lt_mul hpow hhigh).trans_le hlow
  refine ⟨?_, ?_⟩
  · rw [Int.ediv_eq_zero_of_lt hlead0 hlead, add_zero, hq]
    have hsplit : (2 : Int) ^ bitWidth w = 2 ^ (bitWidth w - iterations a d) * 2 ^ iterations a d := two_pow_split hk
    rw [hsplit, mul_comm, Int.mul_emod_mul_of_pos _ _ (two_pow_pos_int _), mul_comm]
  · rw [Int.emod_eq_of_lt hlead0 hlead, hr]

/-! ## Signs -/

/-- `q` and `r` are a quotient and a remainder with the sign of the dividend. -/
def IsDivision (a b q r : Int) : Prop := a = q * b + r ∧ |r| < |b| ∧ (r = 0 ∨ (r < 0 ↔ a < 0))

theorem isDivision_iff {a b q r : Int} (hb : b ≠ 0) : IsDivision a b q r ↔ q = a.tdiv b ∧ r = a.tmod b := by
  have hmod : |a.tmod b| < |b| := by
    rw [Int.abs_eq_natAbs, Int.abs_eq_natAbs, Int.natAbs_tmod]
    exact_mod_cast Nat.mod_lt _ (Int.natAbs_pos.2 hb)
  have hsign : (0 ≤ a → 0 ≤ a.tmod b) ∧ (a < 0 → a.tmod b ≤ 0) := by
    refine ⟨fun h => Int.tmod_nonneg b h, fun h => ?_⟩
    have := Int.tmod_nonneg b (neg_nonneg.2 h.le)
    rw [Int.neg_tmod] at this
    omega
  have hdiv := Int.mul_tdiv_add_tmod a b
  refine ⟨?_, ?_⟩
  · rintro ⟨heq, hlt, hr⟩
    have hdvd : b ∣ r - a.tmod b := ⟨a.tdiv b - q, by linear_combination -hdiv - heq⟩
    have hzero : r - a.tmod b = 0 := by
      apply Int.eq_zero_of_abs_lt_dvd ((abs_dvd b _).2 hdvd)
      rw [abs_lt] at hmod hlt ⊢
      omega
    have hr' : r = a.tmod b := by omega
    refine ⟨mul_right_cancel₀ hb ?_, hr'⟩
    linear_combination -heq - hdiv - hr'
  · rintro ⟨rfl, rfl⟩
    refine ⟨by linear_combination -hdiv, hmod, ?_⟩
    omega

/-- `quotientAndRemainder` returns the only quotient and remainder there are. -/
def DividesExactly (a b : DoubleWidth s w) : Prop :=
  ∃ q r, a.quotientAndRemainder b = some (q, r) ∧
    ∀ q' r', IsDivision a.toInt b.toInt q' r' ↔ q' = q.toInt ∧ r' = r.toInt

/-- The least value by one: the quotient of the magnitudes has no signed value. -/
def TopQuotient (a b : DoubleWidth s w) : Prop := s = true ∧ a = .min ∧ b.toInt = 1

theorem bails_iff (a b : DoubleWidth s w) : b.magnitude.leadingZeroBitCount < a.magnitude.leadingZeroBitCount ↔
    |a.toInt|.toNat.size < |b.toInt|.toNat.size := by
  have ha := size_le_bitWidth a.representable_abs
  have hb := size_le_bitWidth b.representable_abs
  rw [leadingZeroBitCount_eq, leadingZeroBitCount_eq, toInt_magnitude, toInt_magnitude]
  omega

theorem initialOffset_eq {a b : DoubleWidth s w} (hb : 0 < |b.toInt|)
    (hsize : |b.toInt|.toNat.size ≤ |a.toInt|.toNat.size) :
    initialOffset a.magnitude b.magnitude = bitWidth w - iterations |a.toInt| |b.toInt| ∧
      iterations |a.toInt| |b.toInt| ≤ bitWidth w := by
  have h0 : 0 < |b.toInt|.toNat.size := Nat.size_pos.2 (by omega)
  have ha := size_le_bitWidth a.representable_abs
  unfold initialOffset iterations
  rw [leadingZeroBitCount_eq, leadingZeroBitCount_eq, toInt_magnitude, toInt_magnitude]
  omega

theorem signed_division {m n : Int} (hn : n ≠ 0) :
    m.tdiv n = (if m < 0 ↔ n < 0 then |m| / |n| else -(|m| / |n|)) ∧
      m.tmod n = if m < 0 then -(|m| % |n|) else |m| % |n| := by
  have hnonneg : ∀ x : Int, 0 ≤ x → x.tdiv n = (if n < 0 then -(x / |n|) else x / |n|) ∧ x.tmod n = x % |n| := by
    intro x hx
    by_cases hneg : n < 0
    · obtain ⟨y, rfl⟩ : ∃ y, n = -y := ⟨-n, (neg_neg n).symm⟩
      rw [if_pos hneg, abs_neg, abs_of_pos (by omega), Int.tdiv_neg, Int.tmod_neg, Int.tdiv_eq_ediv_of_nonneg hx,
        Int.tmod_eq_emod_of_nonneg hx]
      exact ⟨rfl, rfl⟩
    · rw [if_neg hneg, abs_of_nonneg (not_lt.1 hneg), Int.tdiv_eq_ediv_of_nonneg hx, Int.tmod_eq_emod_of_nonneg hx]
      exact ⟨rfl, rfl⟩
  by_cases hm : m < 0
  · obtain ⟨x, rfl⟩ : ∃ x, m = -x := ⟨-m, (neg_neg m).symm⟩
    have hx : 0 < x := by omega
    rw [Int.neg_tdiv, Int.neg_tmod, (hnonneg x hx.le).1, (hnonneg x hx.le).2, abs_neg, abs_of_pos hx, if_pos hm]
    refine ⟨?_, rfl⟩
    split_ifs with h1 h2 h2
    · exact neg_neg _
    · exact absurd ((iff_true_left hm).2 h1) h2
    · exact absurd (h2.1 hm) h1
    · rfl
  · rw [(hnonneg m (not_lt.1 hm)).1, (hnonneg m (not_lt.1 hm)).2, abs_of_nonneg (not_lt.1 hm), if_neg hm]
    refine ⟨?_, rfl⟩
    split_ifs with h1 h2 h2
    · exact absurd (h2.2 h1) hm
    · rfl
    · rfl
    · exact absurd (iff_of_false hm h1) h2

theorem subtract_zero_of_nonneg (hw : 0 < w) {n : Int} (hn : 0 ≤ n) (hrep : Representable true (bitWidth w) n) :
    (0 : DoubleWidth true w).subtract (ofInt n) = some (ofInt (-n)) := by
  have hval : (ofInt n : DoubleWidth true w).toInt = n := toInt_ofInt hrep
  have heven := neg_minValue (w := bitWidth w) (Nat.add_pos_left hw w)
  have hrestores : ¬ BorrowRestores (0 : DoubleWidth true w) (ofInt n) := by
    rintro ⟨h, -⟩
    have hhigh := mt high_lt_zero.1 (not_lt.2 (hval.symm ▸ hn))
    have hmax := (representable_zero true w).2
    rw [FixedWidth.lt_zero_iff] at hhigh
    rw [(zero_high true w).1] at h
    omega
  have hneg : Representable true (bitWidth w) ((0 : DoubleWidth true w).toInt - (ofInt n : DoubleWidth true w).toInt) := by
    have hmax := hrep.2
    rw [toInt_zero, hval, Representable]
    omega
  rw [subtract_eq hrestores hneg, toInt_zero, hval, zero_sub]

theorem representable_remainder {a b : DoubleWidth s w} (hD : 0 < |b.toInt|) :
    Representable s (bitWidth w) (|a.toInt| % |b.toInt|) := by
  have h0 := Int.emod_nonneg |a.toInt| hD.ne'
  have h1 := Int.emod_lt_of_pos |a.toInt| hD
  cases s with
  | false =>
      have := representable_unsigned.1 b.representable_abs
      exact representable_unsigned.2 ⟨h0, by omega⟩
  | true =>
      have := b.abs_le_half
      exact representable_signed.2 ⟨by omega, by omega⟩

theorem signed_remainder (hw : 0 < w) {a b : DoubleWidth s w} (hb : b.toInt ≠ 0) :
    (if a.lessThan 0 then (0 : DoubleWidth s w).subtract (ofInt (|a.toInt| % |b.toInt|))
      else some (ofInt (|a.toInt| % |b.toInt|))) = some (ofInt (a.toInt.tmod b.toInt)) := by
  have hD : 0 < |b.toInt| := abs_pos.2 hb
  rw [(signed_division hb).2]
  by_cases hneg : a.toInt < 0
  · obtain ⟨rfl, -⟩ := signed_of_neg hneg
    rw [if_pos ((lessThan_zero a).2 hneg), if_pos hneg,
      subtract_zero_of_nonneg hw (Int.emod_nonneg _ hD.ne') (representable_remainder hD)]
  · rw [if_neg (mt (lessThan_zero a).1 hneg), if_neg hneg]

theorem pos_of_ne_zero {x : DoubleWidth s w} (hx : x.toInt ≠ 0) : 0 < w := by
  refine Nat.pos_of_ne_zero ?_
  rintro rfl
  have habs := (representable_unsigned.1 x.representable_abs).2
  have hpos := abs_pos.2 hx
  rw [bitWidth, add_zero, pow_zero] at habs
  omega

theorem quotientAndRemainder_eq {a b : DoubleWidth s w} (hb : b ≠ 0) (hs : AmountsSurvive a b) :
    a.quotientAndRemainder b = if Representable s (bitWidth w) (|a.toInt| / |b.toInt|) then
      some (ofInt (a.toInt.tdiv b.toInt), ofInt (a.toInt.tmod b.toInt)) else none := by
  have hb0 : b.toInt ≠ 0 := mt (eq_zero_iff b).2 hb
  have hD : 0 < |b.toInt| := abs_pos.2 hb0
  have ha := a.representable_abs
  have hw := pos_of_ne_zero hb0
  by_cases hbail : |a.toInt|.toNat.size < |b.toInt|.toNat.size
  · have hlt : |a.toInt| < |b.toInt| := by
      by_contra hcon
      exact absurd (Nat.size_le_size (Int.toNat_le_toNat (not_lt.1 hcon))) (not_le.2 hbail)
    rw [quotientAndRemainder, if_pos ((bails_iff a b).2 hbail), Int.ediv_eq_zero_of_lt (abs_nonneg _) hlt,
      if_pos (representable_zero _ _)]
    have hdiv := signed_division (m := a.toInt) hb0
    rw [Int.ediv_eq_zero_of_lt (abs_nonneg _) hlt, Int.emod_eq_of_lt (abs_nonneg _) hlt, neg_zero, ite_self] at hdiv
    have hmod : a.toInt.tmod b.toInt = a.toInt := by
      rw [hdiv.2]
      split_ifs with hneg
      · rw [abs_of_neg hneg, neg_neg]
      · exact abs_of_nonneg (not_lt.1 hneg)
    rw [hdiv.1, hmod, ofInt_toInt]
    rfl
  · have hsize := not_lt.1 hbail
    obtain ⟨hoffset, hk⟩ := initialOffset_eq hD hsize
    obtain ⟨hkeep, hkeep'⟩ := hs hsize
    have hk0 : 0 < iterations |a.toInt| |b.toInt| := Nat.succ_pos _
    have hdivided := divided_initial (w := w) (q := ofInt (|a.toInt| * 2 ^ (bitWidth w - iterations |a.toInt| |b.toInt|)))
      (r := ofInt (|a.toInt| / 2 ^ iterations |a.toInt| |b.toInt|)) ha hD hsize (toInt_magnitude_ofInt _)
      (toInt_ofInt (ha.ediv_two_pow _))
    have hamount : ∀ n ≤ bitWidth w, Representable false (bitWidth w) n := fun n hn =>
      representable_unsigned.2 ⟨Int.natCast_nonneg n, by exact_mod_cast hn.trans_lt Nat.lt_two_pow_self⟩
    have hsub : (bitWidth w : Int) - iterations |a.toInt| |b.toInt| =
        ((bitWidth w - iterations |a.toInt| |b.toInt| : Nat) : Int) := (Nat.cast_sub hk).symm
    generalize iterations |a.toInt| |b.toInt| = k at *
    have hright : a.magnitude.shiftedRight k = some (ofInt (|a.toInt| / 2 ^ k)) := by
      rw [shiftedRight_eq hw _ hk fun hlt => (maskedAmount_ofInt' hw hlt).trans (hkeep hlt), toInt_magnitude]
    have hleft : a.magnitude.shiftLeft (ofInt ((bitWidth w - k : Nat) : Int)) =
        some (ofInt (|a.toInt| * 2 ^ (bitWidth w - k))) := by
      have hval := toInt_ofInt (hamount _ (Nat.sub_le (bitWidth w) k))
      rw [shiftLeft_eq hw (hval.symm ▸ Int.natCast_nonneg _), hval, Int.toNat_natCast, toInt_magnitude]
      intro _
      rw [hval, Int.toNat_natCast, maskedAmount_ofInt' hw (by omega), hkeep']
    have hones : (0 : Magnitude w).complement.shiftedRight 1 = some (ofInt ((0 : Magnitude w).complement.toInt / 2 ^ 1)) :=
      shiftedRight_eq (n := 1) hw _ (by unfold bitWidth; omega) fun _ => maskedAmount_one hw
    have hloop := divisionLoop_divided hw (toInt_highBit hw) (toInt_magnitude b ▸ hD) ha hk (toInt_magnitude b ▸ hdivided)
    obtain ⟨⟨q, r⟩, hloop, hq, hr⟩ := hloop
    have hsub' : (bitWidth w : Int) - ((bitWidth w - k : Nat) : Int) = k := by omega
    have hle : ((bitWidth w - k : Nat) : Int) ≤ bitWidth w := by omega
    rw [quotientAndRemainder, if_neg (mt (bails_iff a b).1 hbail)]
    simp only [hoffset, hsub, hsub', exactly, if_pos (hamount k hk), if_pos (hamount _ (Nat.sub_le (bitWidth w) k)),
      Option.bind_eq_bind, Option.bind_some, toInt_ofInt (hamount k hk), hright, hleft, hones, if_pos hle,
      Int.toNat_natCast, hloop]
    rw [pow_zero, Int.ediv_one, Int.emod_one, zero_mul, zero_add, toInt_magnitude] at hq
    rw [pow_zero, Int.ediv_one, toInt_magnitude] at hr
    have hdiv := (signed_division (m := a.toInt) hb0).1
    rw [ofMagnitude_eq, hr, if_pos (representable_remainder hD), Option.bind_some, signed_remainder hw hb0,
      Option.bind_some, ofMagnitude_eq, hq]
    by_cases hquot : Representable s (bitWidth w) (|a.toInt| / |b.toInt|)
    · rw [if_pos hquot, if_pos hquot, Option.bind_some]
      by_cases hsigns : a.toInt < 0 ↔ b.toInt < 0
      · rw [if_neg (mt signs_differ.1 (not_not.2 hsigns)), hdiv, if_pos hsigns]
      · obtain ⟨rfl, -⟩ := signed_of_signs hsigns
        rw [if_pos (signs_differ.2 hsigns), hdiv, if_neg hsigns,
          subtract_zero_of_nonneg hw (Int.ediv_nonneg (abs_nonneg _) hD.le) hquot, Option.bind_some]
    · rw [if_neg hquot, if_neg hquot, Option.bind_none]

theorem toInt_least (s : Bool) (w : Nat) : (min : DoubleWidth s w).toInt = minValue s (bitWidth w) := by
  rw [min, toInt, toInt_min, toInt_min, minValue_bitWidth]
  exact add_zero _

theorem representable_quotient_iff {a b : DoubleWidth s w} (hw : 0 < w) (hD : 0 < |b.toInt|) :
    Representable s (bitWidth w) (|a.toInt| / |b.toInt|) ↔
      ¬ (s = true ∧ a.toInt = minValue s (bitWidth w) ∧ |b.toInt| = 1) := by
  have h0 : 0 ≤ |a.toInt| / |b.toInt| := Int.ediv_nonneg (abs_nonneg _) hD.le
  have hle : |a.toInt| / |b.toInt| ≤ |a.toInt| := Int.ediv_le_self _ (abs_nonneg _)
  cases s with
  | false =>
      have ha := representable_unsigned.1 a.representable_abs
      exact iff_of_true (representable_unsigned.2 ⟨h0, by omega⟩) fun h => Bool.false_ne_true h.1
  | true =>
      have heven := neg_minValue (w := bitWidth w) (Nat.add_pos_left hw w)
      have ha := a.representable_toInt
      rw [maxValue_eq] at heven
      rw [representable_iff] at ha ⊢
      have hM := two_pow_pos_int (bitWidth w)
      refine ⟨?_, fun h => ⟨by omega, ?_⟩⟩
      · rintro ⟨-, hlt⟩ ⟨-, hmin, hone⟩
        rw [hone, Int.ediv_one, hmin, abs_of_nonpos (minValue_nonpos _ _)] at hlt
        omega
      · by_contra hcon
        have hmul := Int.mul_ediv_self_le (x := |a.toInt|) hD.ne'
        have habs : |a.toInt| ≤ -minValue true (bitWidth w) := abs_le.2 (by omega)
        refine h ⟨rfl, ?_, ?_⟩
        · rcases abs_cases a.toInt with hcase | hcase <;> omega
        · by_contra hone
          have htwo := mul_le_mul_of_nonneg_right (show 2 ≤ |b.toInt| by omega) h0
          omega

theorem representable_tdiv {a b : DoubleWidth s w} (hw : 0 < w) (hb : b.toInt ≠ 0)
    (h : Representable s (bitWidth w) (|a.toInt| / |b.toInt|)) :
    Representable s (bitWidth w) (a.toInt.tdiv b.toInt) ∧ Representable s (bitWidth w) (a.toInt.tmod b.toInt) := by
  obtain ⟨hdiv, hmod⟩ := signed_division (m := a.toInt) hb
  have hneg : ∀ n, 0 ≤ n → Representable true (bitWidth w) n → Representable true (bitWidth w) (-n) := fun n h0 hn => by
    have heven := neg_minValue (w := bitWidth w) (Nat.add_pos_left hw w)
    have hn' := hn.2
    rw [Representable]
    omega
  have hrem := representable_remainder (a := a) (abs_pos.2 hb)
  rw [hdiv, hmod]
  refine ⟨?_, ?_⟩
  · by_cases hsigns : a.toInt < 0 ↔ b.toInt < 0
    · rwa [if_pos hsigns]
    · obtain ⟨rfl, -⟩ := signed_of_signs hsigns
      rw [if_neg hsigns]
      exact hneg _ (Int.ediv_nonneg (abs_nonneg _) (abs_nonneg _)) h
  · by_cases ha : a.toInt < 0
    · obtain ⟨rfl, -⟩ := signed_of_neg ha
      rw [if_pos ha]
      exact hneg _ (Int.emod_nonneg _ (abs_pos.2 hb).ne') hrem
    · rwa [if_neg ha]

theorem dividesExactly_iff {a b : DoubleWidth s w} (hb : b ≠ 0) (hmin : ¬ (s = true ∧ a = .min ∧ b = ofInt (-1))) :
    (AmountsSurvive a b → (DividesExactly a b ↔ ¬ TopQuotient a b)) ∧ ((∃ k, w = 2 ^ k) → AmountsSurvive a b) := by
  refine ⟨fun hs => ?_, fun ⟨k, hk⟩ => amountsSurvive_two_pow hk a b⟩
  have hb0 : b.toInt ≠ 0 := mt (eq_zero_iff b).2 hb
  have hw := pos_of_ne_zero hb0
  have htop : TopQuotient a b ↔ s = true ∧ a.toInt = minValue s (bitWidth w) ∧ |b.toInt| = 1 := by
    rw [TopQuotient, ← toInt_inj (x := a), toInt_least]
    refine and_congr_right fun hs => and_congr_right fun ha => ⟨fun h => by rw [h, abs_one], fun h => ?_⟩
    refine ((abs_eq zero_le_one).1 h).resolve_right fun hneg => hmin ⟨hs, ?_, ?_⟩
    · rw [← toInt_inj, ha, toInt_least]
    · rw [← hneg, ofInt_toInt]
  rw [htop, ← representable_quotient_iff hw (abs_pos.2 hb0)]
  refine ⟨?_, fun hrep => ?_⟩
  · rintro ⟨q, r, hresult, -⟩
    by_contra hrep
    rw [quotientAndRemainder_eq hb hs, if_neg hrep] at hresult
    exact absurd hresult (Option.some_ne_none _).symm
  · obtain ⟨hq, hr⟩ := representable_tdiv hw hb0 hrep
    refine ⟨_, _, (quotientAndRemainder_eq hb hs).trans (if_pos hrep), fun q' r' => ?_⟩
    rw [isDivision_iff hb0, toInt_ofInt hq, toInt_ofInt hr]

/-- The least 16-bit value by three. -/
theorem dividesExactly_min_three : (ofInt 3 : DoubleWidth true 8) ≠ 0 ∧
    ¬ (true = true ∧ (min : DoubleWidth true 8) = .min ∧ (ofInt 3 : DoubleWidth true 8) = ofInt (-1)) ∧
    DividesExactly (min : DoubleWidth true 8) (ofInt 3) := by
  have hb : (ofInt 3 : DoubleWidth true 8) ≠ 0 := by decide
  have hmin : ¬ (true = true ∧ (min : DoubleWidth true 8) = .min ∧ (ofInt 3 : DoubleWidth true 8) = ofInt (-1)) := by
    decide
  obtain ⟨hiff, hsurvive⟩ := dividesExactly_iff hb hmin
  exact ⟨hb, hmin, (hiff (hsurvive ⟨3, rfl⟩)).2 (by unfold TopQuotient; decide)⟩

/-- The least 16-bit value by one. -/
theorem not_dividesExactly_min_one : ¬ DividesExactly (min : DoubleWidth true 8) 1 := by
  rintro ⟨q, r, hresult, -⟩
  rw [quotientAndRemainder_eq (by decide) (amountsSurvive_two_pow (k := 3) rfl _ _), if_neg (by decide)] at hresult
  exact absurd hresult (Option.some_ne_none _).symm

end SwiftKStdlib.Integers.DoubleWidth
