import SwiftKStdlib.Integers.DoubleWidth

/-!
# Shifts of double-width integers

* `maskingShiftLeft`, `maskingShiftRight` : the masking shifts, and their result for any masked amount;
* `shiftLeft`, `shiftRight` : the smart shifts, which call each other for a negative amount;
* `Negatable` : the amounts that can be negated without a trap;
* `shiftsExactly_iff` : these are the amounts for which the smart shifts are right.
-/

namespace SwiftKStdlib.Integers.DoubleWidth

open Lib

variable {s : Bool} {w : Nat} {x : DoubleWidth s w}

/-! ## The shifts of the source -/

/-- `rhs & DoubleWidth(DoubleWidth.bitWidth &- 1)`. -/
def maskAmount (rhs : DoubleWidth s w) : Option (DoubleWidth s w) :=
  if Representable s (bitWidth w) (bitWidth w - 1) then some (rhs &&& ofInt (bitWidth w - 1)) else none

/-- `&<<=`. -/
def maskingShiftLeft (lhs rhs : DoubleWidth s w) : Option (DoubleWidth s w) := do
  let rhs ← maskAmount rhs
  if rhs.low.toInt < w then
    if rhs.low = 0 then some lhs
    else do
      let amount ← FixedWidth.exactly (s := s) rhs.low.toInt
      let baseWidth ← FixedWidth.exactly w
      let high := lhs.high.maskingShiftLeft amount |||
        .ofInt (lhs.low.maskingShiftRight (baseWidth.maskingSubtract rhs.low)).toInt
      some ⟨high, lhs.low.maskingShiftLeft rhs.low⟩
  else do
    let baseWidth ← FixedWidth.exactly w
    some ⟨.ofInt (lhs.low.maskingShiftLeft (rhs.low.maskingSubtract baseWidth)).toInt, 0⟩

/-- `&>>=`. -/
def maskingShiftRight (lhs rhs : DoubleWidth s w) : Option (DoubleWidth s w) := do
  let rhs ← maskAmount rhs
  if rhs.low.toInt < w then
    if rhs.low = 0 then some lhs
    else do
      let baseWidth ← FixedWidth.exactly (s := false) w
      let highAmount ← FixedWidth.exactly (s := s) (baseWidth.maskingSubtract rhs.low).toInt
      let low := lhs.low.maskingShiftRight rhs.low ||| .ofInt (lhs.high.maskingShiftLeft highAmount).toInt
      let amount ← FixedWidth.exactly (s := s) rhs.low.toInt
      some ⟨lhs.high.maskingShiftRight amount, low⟩
  else do
    let baseWidth ← FixedWidth.exactly (s := false) w
    let amount ← FixedWidth.exactly (s := s) (rhs.low.maskingSubtract baseWidth).toInt
    some ⟨if lhs.high < 0 then ~~~0 else 0, .ofInt (lhs.high.maskingShiftRight amount).toInt⟩

theorem toInt_of_subtract {x y z : DoubleWidth s w} (h : x.subtract y = some z) : z.toInt = x.toInt - y.toInt := by
  rw [subtract, trapping, Option.ite_none_left_eq_some, Option.some.injEq] at h
  obtain ⟨hflag, rfl⟩ := h
  have hborrow : ¬ BorrowRestores x y := by
    rintro ⟨hhigh, -⟩
    refine hflag (reporting_snd.2 (.inl ?_))
    rw [hhigh]
    exact fun hrep => absurd hrep.2 (by omega)
  have hrep := not_not.1 (mt ((subtracting_snd x y).2 hborrow).2 hflag)
  exact (representable_toInt _).eq_of_emod hrep (toInt_subtracting x y)

theorem not_lessThan_zero_of_subtract {n m : DoubleWidth s w} (hn : n.lessThan 0 = true)
    (h : (0 : DoubleWidth s w).subtract n = some m) : ¬ m.lessThan 0 = true := by
  have := toInt_of_subtract h
  rw [toInt_zero] at this
  rw [lessThan_zero] at hn ⊢
  omega

mutual

/-- `<<=`. -/
def shiftLeft (lhs rhs : DoubleWidth s w) : Option (DoubleWidth s w) :=
  if hneg : rhs.lessThan 0 then
    match h : (0 : DoubleWidth s w).subtract rhs with
    | none => none
    | some opposite => shiftRight lhs opposite
  else if rhs.high ≠ 0 ∨ bitWidth w ≤ rhs.low.toInt then some 0
  else lhs.maskingShiftLeft rhs
termination_by if rhs.lessThan 0 then 1 else 0
decreasing_by
  rw [if_pos hneg, if_neg (not_lessThan_zero_of_subtract hneg h)]
  exact Nat.zero_lt_one

/-- `>>=`. -/
def shiftRight (lhs rhs : DoubleWidth s w) : Option (DoubleWidth s w) :=
  if hneg : rhs.lessThan 0 then
    match h : (0 : DoubleWidth s w).subtract rhs with
    | none => none
    | some opposite => shiftLeft lhs opposite
  else if rhs.high ≠ 0 ∨ bitWidth w ≤ rhs.low.toInt then some (if lhs.lessThan 0 then (0 : DoubleWidth s w).complement else 0)
  else lhs.maskingShiftRight rhs
termination_by if rhs.lessThan 0 then 1 else 0
decreasing_by
  rw [if_pos hneg, if_neg (not_lessThan_zero_of_subtract hneg h)]
  exact Nat.zero_lt_one

end

/-! ## Amounts -/

def maskedAmount (rhs : DoubleWidth s w) : Nat := rhs.low.bits.toNat &&& (bitWidth w - 1)

theorem maskedAmount_lt (hw : 0 < w) (rhs : DoubleWidth s w) : rhs.maskedAmount < bitWidth w := by
  have : rhs.maskedAmount ≤ bitWidth w - 1 := Nat.and_le_right
  unfold bitWidth at this ⊢
  omega

theorem bitWidth_le (hw : 0 < w) : bitWidth w ≤ 2 ^ w := by
  obtain ⟨k, rfl⟩ := Nat.exists_eq_add_one.2 hw
  have : k < 2 ^ k := Nat.lt_two_pow_self
  rw [bitWidth, pow_succ]
  omega

theorem representable_amount {a : Nat} (h : a < w) : Representable s w a := by
  obtain ⟨k, rfl⟩ := Nat.exists_eq_add_one.2 (Nat.zero_lt_of_lt h)
  have hlt : (a : Int) < 2 ^ k := by exact_mod_cast lt_of_le_of_lt (Nat.le_of_lt_succ h) Nat.lt_two_pow_self
  cases s with
  | false =>
      rw [representable_unsigned, pow_succ]
      omega
  | true =>
      rw [representable_signed, pow_succ]
      omega

theorem maskAmount_eq (hw : 0 < w) (rhs : DoubleWidth s w) :
    ∃ m, maskAmount rhs = some m ∧ m.low.toInt = rhs.maskedAmount := by
  have hrep : Representable s (bitWidth w) ((bitWidth w : Int) - 1) := by
    have h := representable_amount (s := s) (w := bitWidth w) (a := bitWidth w - 1) (by unfold bitWidth; omega)
    rwa [Nat.cast_sub (by unfold bitWidth; omega)] at h
  refine ⟨_, if_pos hrep, ?_⟩
  have hlow : ((ofInt ((bitWidth w : Int) - 1) : DoubleWidth s w).low.bits.toNat) = bitWidth w - 1 := by
    have hle := bitWidth_le hw
    have hpos : 0 < bitWidth w := by unfold bitWidth; omega
    have h := FixedWidth.toInt_emod (FixedWidth.ofInt ((bitWidth w : Int) - 1) : FixedWidth false w)
    rw [FixedWidth.toInt_ofInt_emod, Int.emod_eq_of_lt (by omega) (by zify at hle; omega)] at h
    exact_mod_cast h.symm.trans (Nat.cast_pred hpos).symm
  show (((rhs.low.bits &&& (ofInt ((bitWidth w : Int) - 1) : DoubleWidth s w).low.bits).toNat : Nat) : Int) = _
  rw [BitVec.toNat_and, hlow, maskedAmount]

theorem exactly_baseWidth : FixedWidth.exactly (s := false) (w := w) w = some (.ofInt w) :=
  if_pos (representable_unsigned.2 ⟨Int.natCast_nonneg _, by exact_mod_cast Nat.lt_two_pow_self⟩)

theorem maskedAmount_ofInt {a : Nat} (h : a < w) : (FixedWidth.ofInt a : FixedWidth s w).maskedAmount = a := by
  rw [FixedWidth.maskedAmount, FixedWidth.toInt_ofInt (representable_amount h), Int.emod_eq_of_lt (Int.natCast_nonneg _)
    (by exact_mod_cast h), Int.toNat_natCast]

/-! ## Masking shifts -/

theorem toInt_low_ofInt (n : Int) : (FixedWidth.ofInt n : FixedWidth false w).toInt = n % 2 ^ w :=
  FixedWidth.toInt_ofInt_of_emod (representable_unsigned.2 ⟨Int.emod_nonneg _ (two_pow_pos_int w).ne',
    Int.emod_lt_of_pos _ (two_pow_pos_int w)⟩) (Int.emod_emod _ _).symm

theorem toInt_pair_emod {high : FixedWidth s w} {low : FixedWidth false w} {h n : Int}
    (hhigh : high.toInt % 2 ^ w = h % 2 ^ w) (hn : h * 2 ^ w + low.toInt ≡ n [ZMOD 2 ^ bitWidth w]) :
    (⟨high, low⟩ : DoubleWidth s w).toInt % 2 ^ bitWidth w = n % 2 ^ bitWidth w := by
  obtain ⟨k, hk⟩ : (2 : Int) ^ w ∣ h - high.toInt := Int.ModEq.dvd hhigh
  refine Int.ModEq.trans (Int.modEq_iff_dvd.2 ⟨k, ?_⟩) hn
  rw [toInt, two_pow_bitWidth]
  linear_combination (2 : Int) ^ w * hk

theorem two_pow_split {m : Nat} (h : m ≤ w) : (2 : Int) ^ w = 2 ^ (w - m) * 2 ^ m := by
  rw [← pow_add, Nat.sub_add_cancel h]

theorem low_shiftLeft {l : Int} {m : Nat} (h : m ≤ w) : l * 2 ^ m % 2 ^ w = l * 2 ^ m - l / 2 ^ (w - m) * 2 ^ w := by
  rw [Int.emod_def]
  conv_lhs => rw [two_pow_split h, Int.mul_ediv_mul_of_pos_left _ _ (two_pow_pos_int m)]
  rw [← two_pow_split h]
  ring

theorem opposite_amount {m : Nat} {amount : FixedWidth false w} (hm : m ≤ w) (hlow : amount.toInt = m) :
    (FixedWidth.ofInt w : FixedWidth false w).maskingSubtract amount = .ofInt ((w - m : Nat) : Int) := by
  rw [FixedWidth.maskingSubtract, hlow, FixedWidth.ofInt_eq_ofInt, toInt_low_ofInt, Nat.cast_sub hm]
  exact Int.ModEq.sub_right _ (Int.mod_modEq _ _)

theorem excess_amount {m : Nat} {amount : FixedWidth false w} (hm : w ≤ m) (hlow : amount.toInt = m) :
    amount.maskingSubtract (FixedWidth.ofInt w : FixedWidth false w) = .ofInt ((m - w : Nat) : Int) := by
  rw [FixedWidth.maskingSubtract, hlow, FixedWidth.ofInt_eq_ofInt, toInt_low_ofInt, Nat.cast_sub hm]
  exact Int.ModEq.sub_left _ (Int.mod_modEq _ _)

theorem ediv_bounds {l : Int} {m : Nat} (h : m ≤ w) (h0 : 0 ≤ l) (h1 : l < 2 ^ w) :
    0 ≤ l / 2 ^ (w - m) ∧ l / 2 ^ (w - m) < 2 ^ m := by
  refine ⟨Int.ediv_nonneg h0 (two_pow_pos_int _).le, Int.ediv_lt_of_lt_mul (two_pow_pos_int _) ?_⟩
  rwa [mul_comm, ← two_pow_split h]

theorem maskingShiftLeft_eq (hw : 0 < w) (x rhs : DoubleWidth s w) :
    x.maskingShiftLeft rhs = some (ofInt (x.toInt * 2 ^ rhs.maskedAmount)) := by
  obtain ⟨amount, hamount, hlow⟩ := maskAmount_eq hw rhs
  have hlt := maskedAmount_lt hw rhs
  generalize rhs.maskedAmount = m at hlow hlt ⊢
  have hlow' : amount.low = .ofInt m := (FixedWidth.ofInt_toInt _).symm.trans (congrArg _ hlow)
  obtain ⟨hl0, hl1⟩ := x.low_bounds
  rw [maskingShiftLeft, hamount, Option.bind_eq_bind, Option.bind_some, hlow]
  by_cases hm : m < w
  · rw [if_pos (by exact_mod_cast hm)]
    by_cases hzero : amount.low = 0
    · have : m = 0 := by exact_mod_cast hlow.symm.trans ((FixedWidth.toInt_inj.2 hzero).trans FixedWidth.toInt_zero)
      rw [if_pos hzero, this, pow_zero, mul_one, ofInt_toInt]
    have hpos : 0 < m := Nat.pos_of_ne_zero fun h => hzero (by rw [hlow', h]; rfl)
    rw [if_neg hzero]
    simp only [FixedWidth.exactly_eq_some (representable_amount hm), exactly_baseWidth, Option.bind_eq_bind,
      Option.bind_some, opposite_amount hm.le hlow, FixedWidth.maskingShiftLeft, FixedWidth.maskingShiftRight]
    rw [hlow', maskedAmount_ofInt hm, maskedAmount_ofInt hm, maskedAmount_ofInt (by omega : w - m < w)]
    obtain ⟨hq0, hq1⟩ := ediv_bounds hm.le hl0 hl1
    have hM : (2 : Int) ^ m ≤ 2 ^ w := by exact_mod_cast Nat.pow_le_pow_right Nat.two_pos hm.le
    have hq : (FixedWidth.ofInt (x.low.toInt / 2 ^ (w - m)) : FixedWidth false w).toInt = x.low.toInt / 2 ^ (w - m) :=
      FixedWidth.toInt_ofInt (representable_unsigned.2 ⟨hq0, by omega⟩)
    refine congrArg some (eq_ofInt (toInt_pair_emod (h := x.high.toInt * 2 ^ m + x.low.toInt / 2 ^ (w - m)) ?_ ?_))
    · rw [hq, FixedWidth.toInt_or_emod (i := m)]
      · rw [Int.add_emod, FixedWidth.toInt_ofInt_emod, FixedWidth.toInt_ofInt_emod, ← Int.add_emod]
      · rw [FixedWidth.toInt_ofInt_emod, Int.emod_emod_of_dvd _ (pow_dvd_pow 2 hm.le), Int.mul_emod_left]
      · rwa [FixedWidth.toInt_ofInt_emod, Int.emod_eq_of_lt hq0 (by omega)]
    · rw [toInt_low_ofInt, low_shiftLeft hm.le, toInt]
      exact congrArg (· % _) (by ring)
  · rw [if_neg (by exact_mod_cast hm)]
    have hd : m - w < w := by
      unfold bitWidth at hlt
      omega
    simp only [exactly_baseWidth, Option.bind_eq_bind, Option.bind_some, excess_amount (not_lt.1 hm) hlow,
      FixedWidth.maskingShiftLeft, maskedAmount_ofInt hd]
    refine congrArg some (eq_ofInt (toInt_pair_emod (h := x.low.toInt * 2 ^ (m - w)) ?_ ?_))
    · rw [FixedWidth.toInt_ofInt_emod, FixedWidth.toInt_ofInt_emod]
    · refine Int.modEq_iff_dvd.2 ⟨x.high.toInt * 2 ^ (m - w), ?_⟩
      have hsplit : (2 : Int) ^ m = 2 ^ (m - w) * 2 ^ w := two_pow_split (not_lt.1 hm)
      rw [FixedWidth.toInt_zero, toInt, two_pow_bitWidth, hsplit]
      ring

theorem toInt_pair_ediv {high : FixedWidth s w} {low : FixedWidth false w} {n : Int}
    (hhigh : high.toInt % 2 ^ w = n / 2 ^ w % 2 ^ w) (hlow : low.toInt % 2 ^ w = n % 2 ^ w) :
    (⟨high, low⟩ : DoubleWidth s w).toInt % 2 ^ bitWidth w = n % 2 ^ bitWidth w := by
  have hbounds := representable_unsigned.1 low.representable_toInt
  refine toInt_pair_emod hhigh ?_
  rw [← Int.emod_eq_of_lt hbounds.1 hbounds.2, hlow, mul_comm, Int.mul_ediv_add_emod]

theorem sign_fill {n : Int} (hw : 0 < w) (h0 : minValue s w ≤ n) (h1 : n < 2 ^ w) :
    n / 2 ^ w % 2 ^ w = (if n < 0 then ~~~0 else 0 : FixedWidth s w).toInt % 2 ^ w := by
  have hpos := two_pow_pos_int w
  split_ifs with hneg
  · cases s with
    | false => exact absurd h0 (not_le.2 hneg)
    | true =>
        rw [minValue, if_pos rfl] at h0
        rw [FixedWidth.toInt_complement_zero hw, Int.ediv_eq_neg_one_of_neg_of_le hneg (by omega)]
  · rw [Int.ediv_eq_zero_of_lt (not_lt.1 hneg) h1, FixedWidth.toInt_zero]

theorem maskingShiftRight_eq (hw : 0 < w) (x rhs : DoubleWidth s w) :
    x.maskingShiftRight rhs = some (ofInt (x.toInt / 2 ^ rhs.maskedAmount)) := by
  obtain ⟨amount, hamount, hlow⟩ := maskAmount_eq hw rhs
  have hlt := maskedAmount_lt hw rhs
  generalize rhs.maskedAmount = m at hlow hlt ⊢
  have hlow' : amount.low = .ofInt m := (FixedWidth.ofInt_toInt _).symm.trans (congrArg _ hlow)
  obtain ⟨hl0, hl1⟩ := x.low_bounds
  have hm' := two_pow_pos_int m
  rw [maskingShiftRight, hamount, Option.bind_eq_bind, Option.bind_some, hlow]
  by_cases hm : m < w
  · rw [if_pos (by exact_mod_cast hm)]
    by_cases hzero : amount.low = 0
    · have : m = 0 := by exact_mod_cast hlow.symm.trans ((FixedWidth.toInt_inj.2 hzero).trans FixedWidth.toInt_zero)
      rw [if_pos hzero, this, pow_zero, Int.ediv_one, ofInt_toInt]
    have hpos : 0 < m := Nat.pos_of_ne_zero fun h => hzero (by rw [hlow', h]; rfl)
    have hopp : w - m < w := by omega
    rw [if_neg hzero]
    simp only [FixedWidth.exactly_eq_some (representable_amount hm), exactly_baseWidth, Option.bind_eq_bind,
      Option.bind_some, opposite_amount hm.le hlow, FixedWidth.maskingShiftLeft, FixedWidth.maskingShiftRight,
      FixedWidth.toInt_ofInt (representable_amount (s := false) hopp),
      FixedWidth.exactly_eq_some (representable_amount (s := s) hopp)]
    rw [hlow', maskedAmount_ofInt hm, maskedAmount_ofInt hm, maskedAmount_ofInt hopp]
    have hM : (2 : Int) ^ (w - m) ≤ 2 ^ w := by exact_mod_cast Nat.pow_le_pow_right Nat.two_pos (Nat.sub_le w m)
    have hq0 : 0 ≤ x.low.toInt / 2 ^ m := Int.ediv_nonneg hl0 hm'.le
    have hq1 : x.low.toInt / 2 ^ m < 2 ^ (w - m) := Int.ediv_lt_of_lt_mul hm' (by rwa [← two_pow_split hm.le])
    refine congrArg some (eq_ofInt (toInt_pair_ediv ?_ ?_))
    · rw [FixedWidth.toInt_ofInt_emod, Int.ediv_ediv_of_nonneg hm'.le, mul_comm, ← Int.ediv_ediv_of_nonneg
        (two_pow_pos_int w).le, toInt_ediv]
    · have hsplit : x.toInt / 2 ^ m = x.high.toInt * 2 ^ (w - m) + x.low.toInt / 2 ^ m := by
        rw [toInt, two_pow_split hm.le, ← mul_assoc, Int.add_comm, Int.add_mul_ediv_right _ _ hm'.ne', Int.add_comm]
      rw [FixedWidth.or_comm, FixedWidth.toInt_or_emod (i := w - m), hsplit]
      · rw [Int.add_emod, FixedWidth.toInt_ofInt_emod, FixedWidth.toInt_ofInt_emod, FixedWidth.toInt_ofInt_emod,
          ← Int.add_emod]
      · rw [FixedWidth.toInt_ofInt_emod, FixedWidth.toInt_ofInt_emod, Int.emod_emod_of_dvd _
          (pow_dvd_pow 2 (Nat.sub_le w m)), Int.mul_emod_left]
      · rwa [FixedWidth.toInt_ofInt_emod, Int.emod_eq_of_lt hq0 (by omega)]
  · rw [if_neg (by exact_mod_cast hm)]
    have hd : m - w < w := by
      unfold bitWidth at hlt
      omega
    simp only [exactly_baseWidth, Option.bind_eq_bind, Option.bind_some, excess_amount (not_lt.1 hm) hlow,
      FixedWidth.toInt_ofInt (representable_amount (s := false) hd),
      FixedWidth.exactly_eq_some (representable_amount (s := s) hd), FixedWidth.maskingShiftRight, maskedAmount_ofInt hd]
    have hy : x.toInt / 2 ^ m = x.high.toInt / 2 ^ (m - w) := by
      rw [two_pow_split (not_lt.1 hm), mul_comm, ← Int.ediv_ediv_of_nonneg (two_pow_pos_int w).le,
        toInt_ediv]
    have hrep := x.high.representable_toInt.ediv_two_pow (m - w)
    rw [hy, FixedWidth.toInt_ofInt hrep]
    refine congrArg some (eq_ofInt (toInt_pair_ediv ?_ (FixedWidth.toInt_ofInt_emod _)))
    rw [sign_fill hw hrep.1 (by have := hrep.2; rw [maxValue_eq] at this; have := minValue_nonpos s w; omega)]
    refine congrArg (· % _) (congrArg FixedWidth.toInt (if_congr ?_ rfl rfl))
    rw [FixedWidth.lt_zero_iff]
    refine ⟨fun h => Int.ediv_neg_of_neg_of_pos h (two_pow_pos_int _), fun h => ?_⟩
    by_contra hcon
    exact absurd (Int.ediv_nonneg (not_lt.1 hcon) (two_pow_pos_int (m - w)).le) (not_le.2 h)

/-! ## Smart shifts -/

/-- `r` is `x * 2 ^ n` modulo `2 ^ bitWidth`, for a negative `n` the quotient by `2 ^ -n` rounded down. -/
def IsShifted (r : Option (DoubleWidth s w)) (x n : Int) : Prop :=
  ∃ v, r = some v ∧
    if 0 ≤ n then v.toInt % 2 ^ bitWidth w = x * 2 ^ n.toNat % 2 ^ bitWidth w else v.toInt = x / 2 ^ (-n).toNat

/-- `x << n` and `x >> n` are shifts by `n` and by `-n`. -/
def ShiftsExactly (x n : DoubleWidth s w) : Prop :=
  IsShifted (x.shiftLeft n) x.toInt n.toInt ∧ IsShifted (x.shiftRight n) x.toInt (-n.toInt)

/-- `0 - n` does not trap. -/
def Negatable (n : DoubleWidth s w) : Prop := s = true → n.high ≠ .min

theorem toInt_min (s : Bool) (w : Nat) : (FixedWidth.min : FixedWidth s w).toInt = minValue s w :=
  FixedWidth.toInt_ofInt ⟨le_rfl, by have := two_pow_pos_int w; rw [maxValue_eq]; omega⟩

theorem overshift_iff (hw : 0 < w) {n : DoubleWidth s w} (hn : 0 ≤ n.toInt) :
    n.high ≠ 0 ∨ (bitWidth w : Int) ≤ n.low.toInt ↔ (bitWidth w : Int) ≤ n.toInt := by
  have hlow := n.low_bounds
  have hle : (bitWidth w : Int) ≤ 2 ^ w := by exact_mod_cast bitWidth_le hw
  have hpos := two_pow_pos_int w
  by_cases hhigh : n.high = 0
  · rw [toInt, hhigh, FixedWidth.toInt_zero, zero_mul, zero_add]
    exact or_iff_right (not_not.2 rfl)
  · refine iff_of_true (.inl hhigh) ?_
    have hne : n.high.toInt ≠ 0 := fun h => hhigh (FixedWidth.toInt_inj.1 (h.trans FixedWidth.toInt_zero.symm))
    have hnonneg : 0 ≤ n.high.toInt := not_lt.1 fun h => absurd (high_lt_zero.1 (FixedWidth.lt_zero_iff.2 h)) (not_lt.2 hn)
    have : 1 ≤ n.high.toInt := by omega
    rw [toInt]
    nlinarith

def Survives (n : DoubleWidth s w) : Prop := n.toInt < bitWidth w → n.maskedAmount = n.toInt.toNat

theorem survives_two_pow {k : Nat} (hk : w = 2 ^ k) {n : DoubleWidth s w} (hn : 0 ≤ n.toInt) : Survives n := by
  intro hlt
  have hw : 0 < w := hk ▸ Nat.two_pow_pos k
  have hwidth : bitWidth w = 2 ^ (k + 1) := by rw [bitWidth, hk, pow_succ, mul_two]
  have hhigh := mt (overshift_iff hw hn).1 (not_le.2 hlt)
  have heq : n.toInt = n.low.bits.toNat := by
    rw [toInt, not_not.1 (not_or.1 hhigh).1, FixedWidth.toInt_zero, zero_mul, zero_add, FixedWidth.toInt_unsigned]
  have hbits : n.low.bits.toNat < 2 ^ (k + 1) := by
    rw [heq, hwidth] at hlt
    exact_mod_cast hlt
  rw [heq, Int.toNat_natCast, maskedAmount, hwidth, Nat.and_two_pow_sub_one_eq_mod, Nat.mod_eq_of_lt hbits]

theorem shiftLeft_eq (hw : 0 < w) {n : DoubleWidth s w} (hn : 0 ≤ n.toInt) (hs : Survives n) (x : DoubleWidth s w) :
    x.shiftLeft n = some (ofInt (x.toInt * 2 ^ n.toInt.toNat)) := by
  rw [shiftLeft, dif_neg (mt (lessThan_zero n).1 (not_lt.2 hn))]
  by_cases hover : (bitWidth w : Int) ≤ n.toInt
  · rw [if_pos ((overshift_iff hw hn).2 hover)]
    refine congrArg some (eq_ofInt ?_)
    have hdvd : (2 : Int) ^ bitWidth w ∣ x.toInt * 2 ^ n.toInt.toNat := (pow_dvd_pow 2 (by omega)).mul_left _
    rw [toInt_zero, Int.zero_emod, Int.emod_eq_zero_of_dvd hdvd]
  · rw [if_neg (mt (overshift_iff hw hn).1 hover), maskingShiftLeft_eq hw, hs (not_le.1 hover)]

theorem ediv_overshift (x : DoubleWidth s w) {m : Nat} (hm : bitWidth w ≤ m) :
    x.toInt / 2 ^ m = if x.toInt < 0 then -1 else 0 := by
  have hpow : (2 : Int) ^ bitWidth w ≤ 2 ^ m := by exact_mod_cast Nat.pow_le_pow_right Nat.two_pos hm
  have habs := abs_lt.1 (representable_unsigned.1 (representable_abs x)).2
  split_ifs with hneg
  · exact Int.ediv_eq_neg_one_of_neg_of_le hneg (by omega)
  · exact Int.ediv_eq_zero_of_lt (not_lt.1 hneg) (by omega)

theorem shiftRight_eq (hw : 0 < w) {n : DoubleWidth s w} (hn : 0 ≤ n.toInt) (hs : Survives n) (x : DoubleWidth s w) :
    x.shiftRight n = some (ofInt (x.toInt / 2 ^ n.toInt.toNat)) := by
  rw [shiftRight, dif_neg (mt (lessThan_zero n).1 (not_lt.2 hn))]
  by_cases hover : (bitWidth w : Int) ≤ n.toInt
  · rw [if_pos ((overshift_iff hw hn).2 hover), ediv_overshift x (by omega)]
    refine congrArg some (eq_ofInt ?_)
    by_cases hneg : x.toInt < 0
    · rw [if_pos ((lessThan_zero x).2 hneg), if_pos hneg, toInt_complement_emod, toInt_zero, sub_zero]
    · rw [if_neg (mt (lessThan_zero x).1 hneg), if_neg hneg, toInt_zero]
  · rw [if_neg (mt (overshift_iff hw hn).1 hover), maskingShiftRight_eq hw, hs (not_le.1 hover)]

theorem toInt_ofInt_ediv (x : DoubleWidth s w) (m : Nat) : (ofInt (x.toInt / 2 ^ m) : DoubleWidth s w).toInt = x.toInt / 2 ^ m :=
  toInt_ofInt (x.representable_toInt.ediv_two_pow m)

/-! ## Negative amounts -/

theorem zero_high (s : Bool) (w : Nat) : (0 : DoubleWidth s w).high.toInt = 0 ∧ (0 : DoubleWidth s w).low.toInt = 0 := by
  have h : (0 : DoubleWidth s w) = ⟨0, 0⟩ := toInt_inj.1 (by
    rw [toInt_zero, toInt, FixedWidth.toInt_zero, FixedWidth.toInt_zero, zero_mul, zero_add])
  rw [h]
  exact ⟨FixedWidth.toInt_zero, FixedWidth.toInt_zero⟩

theorem subtract_zero {n : DoubleWidth s w} (hw : 0 < w) (hneg : n.toInt < 0) (hn : Negatable n) :
    ∃ m, (0 : DoubleWidth s w).subtract n = some m ∧ m.toInt = -n.toInt := by
  have hsigned : s = true := by
    by_contra hs
    obtain rfl : s = false := Bool.eq_false_iff.2 hs
    exact absurd (representable_unsigned.1 n.representable_toInt).1 (not_le.2 hneg)
  subst hsigned
  have hhigh : minValue true w < n.high.toInt := lt_of_le_of_ne n.high.representable_toInt.1 fun h =>
    hn rfl (FixedWidth.toInt_inj.1 (h.symm.trans (toInt_min true w).symm))
  have heven := neg_minValue hw
  obtain ⟨hzhigh, hzlow⟩ := zero_high true w
  have hrestores : ¬ BorrowRestores (0 : DoubleWidth true w) n := by
    rintro ⟨h, -⟩
    omega
  have hrep : Representable true (bitWidth w) ((0 : DoubleWidth true w).toInt - n.toInt) := by
    have hlow := n.low_bounds
    have hpos := two_pow_pos_int w
    have hmin : minValue true (bitWidth w) < n.toInt := by
      rw [minValue_bitWidth, toInt]
      nlinarith
    have hdouble := neg_minValue (w := bitWidth w) (Nat.add_pos_left hw w)
    rw [toInt_zero, Representable]
    omega
  refine ⟨_, subtract_eq hrestores hrep, ?_⟩
  rw [toInt_ofInt hrep, toInt_zero, zero_sub]

theorem subtract_zero_trap {n : DoubleWidth s w} (hw : 0 < w) (hn : ¬ Negatable n) :
    (0 : DoubleWidth s w).subtract n = none := by
  obtain ⟨rfl, hhigh⟩ : s = true ∧ n.high = .min := by
    rw [Negatable, Classical.not_imp, not_not] at hn
    exact hn
  refine if_pos (reporting_snd.2 (.inl ?_))
  rw [(zero_high true w).1, hhigh, toInt_min, zero_sub, neg_minValue hw]
  exact fun h => absurd h.2 (not_le.2 (Int.lt_succ _))

theorem shiftLeft_neg {n : DoubleWidth s w} (hneg : n.toInt < 0) (x : DoubleWidth s w) :
    x.shiftLeft n = ((0 : DoubleWidth s w).subtract n).bind x.shiftRight := by
  rw [shiftLeft, dif_pos ((lessThan_zero n).2 hneg)]
  split <;> rename_i h <;> rw [h] <;> rfl

theorem shiftRight_neg {n : DoubleWidth s w} (hneg : n.toInt < 0) (x : DoubleWidth s w) :
    x.shiftRight n = ((0 : DoubleWidth s w).subtract n).bind x.shiftLeft := by
  rw [shiftRight, dif_pos ((lessThan_zero n).2 hneg)]
  split <;> rename_i h <;> rw [h] <;> rfl

/-! ## The shifts by any amount -/

theorem isShifted_left (hw : 0 < w) (x : DoubleWidth s w) {n : DoubleWidth s w} (hn : 0 ≤ n.toInt) (hs : Survives n) :
    IsShifted (x.shiftLeft n) x.toInt n.toInt := by
  refine ⟨_, shiftLeft_eq hw hn hs x, ?_⟩
  rw [if_pos hn, toInt_ofInt_emod]

theorem isShifted_right (hw : 0 < w) (x : DoubleWidth s w) {n : DoubleWidth s w} (hn : 0 ≤ n.toInt) (hs : Survives n) :
    IsShifted (x.shiftRight n) x.toInt (-n.toInt) := by
  refine ⟨_, shiftRight_eq hw hn hs x, ?_⟩
  rw [toInt_ofInt_ediv, neg_neg]
  split_ifs with hzero
  · have : n.toInt = 0 := by omega
    rw [this, neg_zero, Int.toNat_zero, pow_zero, mul_one, Int.ediv_one]
  · rfl

theorem negatable_of_nonneg (hw : 0 < w) {n : DoubleWidth s w} (hn : 0 ≤ n.toInt) : Negatable n := by
  rintro rfl hmin
  refine absurd (high_lt_zero.1 (FixedWidth.lt_zero_iff.2 ?_)) (not_lt.2 hn)
  have heven := neg_minValue hw
  have hnonneg := (representable_zero true w).2
  rw [hmin, toInt_min]
  omega

theorem shiftsExactly_iff (hw : ∃ k, w = 2 ^ k) (x n : DoubleWidth s w) : ShiftsExactly x n ↔ Negatable n := by
  obtain ⟨k, hk⟩ := hw
  have hw : 0 < w := hk ▸ Nat.two_pow_pos k
  have hsurvives : ∀ m : DoubleWidth s w, 0 ≤ m.toInt → Survives m := fun m => survives_two_pow hk
  obtain hn | hneg := le_or_gt 0 n.toInt
  · exact iff_of_true ⟨isShifted_left hw x hn (hsurvives n hn), isShifted_right hw x hn (hsurvives n hn)⟩
      (negatable_of_nonneg hw hn)
  · refine ⟨?_, fun hnegatable => ?_⟩
    · rintro ⟨⟨v, hv, -⟩, -⟩
      by_contra hcon
      rw [shiftLeft_neg hneg, subtract_zero_trap hw hcon] at hv
      exact absurd hv (Option.some_ne_none v).symm
    · obtain ⟨m, hm, hval⟩ := subtract_zero hw hneg hnegatable
      have hm0 : 0 ≤ m.toInt := by omega
      have hl := isShifted_left hw x hm0 (hsurvives m hm0)
      have hr := isShifted_right hw x hm0 (hsurvives m hm0)
      rw [hval] at hl hr
      rw [neg_neg] at hr
      rw [ShiftsExactly, shiftLeft_neg hneg, shiftRight_neg hneg, hm]
      exact ⟨hr, hl⟩

/-- A shift of a 16-bit value by a negative amount. -/
theorem shiftsExactly_neg_one : (∃ k, 8 = 2 ^ k) ∧ Negatable (ofInt (-1) : DoubleWidth true 8) ∧
    ShiftsExactly (ofInt (-300) : DoubleWidth true 8) (ofInt (-1)) :=
  ⟨⟨3, rfl⟩, by unfold Negatable; decide, (shiftsExactly_iff ⟨3, rfl⟩ _ _).2 (by unfold Negatable; decide)⟩

/-- The least amount traps. -/
theorem not_shiftsExactly_min : ¬ ShiftsExactly (1 : DoubleWidth true 8) .min := by
  rintro ⟨⟨v, hv, -⟩, -⟩
  rw [shiftLeft_neg (by decide), show (0 : DoubleWidth true 8).subtract .min = none by decide] at hv
  exact absurd hv (Option.some_ne_none v).symm

end SwiftKStdlib.Integers.DoubleWidth
