import SwiftKStdlib.Integers.DoubleWidth

/-!
# Multiplication of double-width integers

* `multipliedFullWidth` : four products of halves, added up in columns;
* `MiddleFits` : the carry of the second column does not run over the third word;
* `multipliedFullWidth_exact_iff` : these are the operands whose product is computed;
* `multipliedReportingOverflow` : the flag read off the high part of the product.
-/

namespace SwiftKStdlib.Integers.DoubleWidth

open Lib

variable {s : Bool} {w : Nat}

/-! ## The product of the source -/

def mul (x y : FixedWidth false w) : FixedWidth false w × FixedWidth false w :=
  let (high, low) := x.multipliedFullWidth y
  (low, high)

/-- A column of three halves and its carry. -/
def sum (x y z : FixedWidth false w) : Option (FixedWidth false w × FixedWidth false w) := do
  let (sum1, overflow1) := x.addingReportingOverflow y
  let (sum2, overflow2) := sum1.addingReportingOverflow z
  let carry ← FixedWidth.add (if overflow1 then 1 else 0) (if overflow2 then 1 else 0)
  some (sum2, carry)

/-- `multipliedFullWidth(by:)`. -/
def multipliedFullWidth (self other : DoubleWidth s w) : Option (DoubleWidth s w × Magnitude w) := do
  let isNegative := s && (self.lessThan 0 != other.lessThan 0)
  let lhs := self.magnitude
  let rhs := other.magnitude
  let a := mul rhs.low lhs.low
  let b := mul rhs.low lhs.high
  let c := mul rhs.high lhs.low
  let d := mul rhs.high lhs.high
  let mid1 ← sum a.2 b.1 c.1
  let mid2 ← sum b.2 c.2 d.1
  let low : Magnitude w := ⟨mid1.1, a.1⟩
  let top ← mid2.2.add d.2
  let top ← FixedWidth.exactly top.toInt
  let third ← mid1.2.add mid2.1
  let high : DoubleWidth s w := ⟨top, third⟩
  if isNegative then
    let (lowComplement, overflow) := low.complement.addingReportingOverflow 1
    let high ← high.complement.add (if overflow then 1 else 0)
    some (high, lowComplement)
  else some (high, low)

/-- `multipliedReportingOverflow(by:)`. -/
def multipliedReportingOverflow (self rhs : DoubleWidth s w) : Option (DoubleWidth s w × Bool) := do
  let (carry, product) ← self.multipliedFullWidth rhs
  let result := ofInt product.toInt
  let isNegative := self.lessThan 0 != rhs.lessThan 0
  let didCarry := if isNegative then carry != (0 : DoubleWidth s w).complement else carry != 0
  let hadPositiveOverflow := !isNegative && s && product.leadingZeroBitCount == 0
  some (result, didCarry || hadPositiveOverflow)

/-! ## Columns -/

/-- The second column of the product of two pairs of words, with the carry of the first. -/
def secondColumn (w : Nat) (x y : Int) : Int :=
  y % 2 ^ w * (x % 2 ^ w) / 2 ^ w + y % 2 ^ w * (x / 2 ^ w) % 2 ^ w + y / 2 ^ w * (x % 2 ^ w) % 2 ^ w

def thirdColumn (w : Nat) (x y : Int) : Int :=
  y % 2 ^ w * (x / 2 ^ w) / 2 ^ w + y / 2 ^ w * (x % 2 ^ w) / 2 ^ w + y / 2 ^ w * (x / 2 ^ w) % 2 ^ w

def MiddleFits (a b : DoubleWidth s w) : Prop :=
  secondColumn w |a.toInt| |b.toInt| / 2 ^ w ≤ |a.toInt| * |b.toInt| / 2 ^ bitWidth w % 2 ^ w

instance (a b : DoubleWidth s w) : Decidable (MiddleFits a b) := inferInstanceAs (Decidable (_ ≤ _))

theorem mul_fst (x y : FixedWidth false w) : (mul x y).1.toInt = x.toInt * y.toInt % 2 ^ w := by
  have hpos := two_pow_pos_int w
  exact FixedWidth.toInt_ofInt_of_emod (representable_unsigned.2 ⟨Int.emod_nonneg _ hpos.ne', Int.emod_lt_of_pos _ hpos⟩)
    (Int.emod_emod _ _).symm

theorem mul_snd (x y : FixedWidth false w) : (mul x y).2.toInt = x.toInt * y.toInt / 2 ^ w := by
  have hpos := two_pow_pos_int w
  have hx := representable_unsigned.1 x.representable_toInt
  have hy := representable_unsigned.1 y.representable_toInt
  refine FixedWidth.toInt_ofInt (representable_unsigned.2 ⟨Int.ediv_nonneg (mul_nonneg hx.1 hy.1) hpos.le, ?_⟩)
  exact Int.ediv_lt_of_lt_mul hpos (mul_lt_mul'' hx.2 hy.2 hx.1 hy.1)

theorem toInt_flag {c : Bool} (h : c.toInt < 2 ^ w) : (if c then 1 else 0 : FixedWidth false w).toInt = c.toInt := by
  cases c with
  | false => exact FixedWidth.toInt_zero
  | true => exact FixedWidth.toInt_ofInt (representable_unsigned.2 ⟨Int.one_nonneg, h⟩)

theorem sum_eq (x y z : FixedWidth false w) : ∃ p c, sum x y z = some (p, c) ∧
    p.toInt = (x.toInt + y.toInt + z.toInt) % 2 ^ w ∧ c.toInt = (x.toInt + y.toInt + z.toInt) / 2 ^ w := by
  obtain ⟨carry1, h1, -, hlow1⟩ := low_adding x y
  obtain ⟨carry2, h2, -, hlow2⟩ := low_adding (x.addingReportingOverflow y).1 z
  have hx := representable_unsigned.1 x.representable_toInt
  have hy := representable_unsigned.1 y.representable_toInt
  have hz := representable_unsigned.1 z.representable_toInt
  have hp := representable_unsigned.1 ((x.addingReportingOverflow y).1.addingReportingOverflow z).1.representable_toInt
  have hpos := two_pow_pos_int w
  have htotal : x.toInt + y.toInt + z.toInt = (carry1.toInt + carry2.toInt) * 2 ^ w +
      ((x.addingReportingOverflow y).1.addingReportingOverflow z).1.toInt := by
    rw [hlow2, hlow1]
    ring
  have hcarry : 0 ≤ carry1.toInt + carry2.toInt ∧ carry1.toInt + carry2.toInt < 2 ^ w := by
    cases carry1 <;> cases carry2 <;>
      simp only [Bool.toInt_true, Bool.toInt_false, zero_add, add_zero, zero_mul, one_mul] at htotal ⊢ <;> omega
  have hflags : carry1.toInt < 2 ^ w ∧ carry2.toInt < 2 ^ w := by
    cases carry1 <;> cases carry2 <;> simp only [Bool.toInt_true, Bool.toInt_false] at hcarry ⊢ <;> omega
  refine ⟨((x.addingReportingOverflow y).1.addingReportingOverflow z).1, .ofInt (carry1.toInt + carry2.toInt), ?_, ?_, ?_⟩
  · simp only [sum, Option.bind_eq_bind, h1, h2, FixedWidth.add, toInt_flag hflags.1, toInt_flag hflags.2,
      FixedWidth.exactly_eq_some (representable_unsigned.2 hcarry), Option.bind_some]
  · rw [htotal, Int.add_comm, Int.add_mul_emod_self_right, Int.emod_eq_of_lt hp.1 hp.2]
  · rw [FixedWidth.toInt_ofInt (representable_unsigned.2 hcarry), htotal, Int.add_comm (_ * _),
      Int.add_mul_ediv_right _ _ hpos.ne', Int.ediv_eq_zero_of_lt hp.1 hp.2, zero_add]

/-! ## Words of the product -/

theorem product_columns (w : Nat) (x y : Int) : x * y =
    y % 2 ^ w * (x % 2 ^ w) % 2 ^ w + secondColumn w x y * 2 ^ w + thirdColumn w x y * (2 ^ w * 2 ^ w) +
      y / 2 ^ w * (x / 2 ^ w) / 2 ^ w * (2 ^ w * 2 ^ w * 2 ^ w) := by
  have hx := Int.mul_ediv_add_emod x (2 ^ w)
  have hy := Int.mul_ediv_add_emod y (2 ^ w)
  have ha := Int.mul_ediv_add_emod (y % 2 ^ w * (x % 2 ^ w)) (2 ^ w)
  have hb := Int.mul_ediv_add_emod (y % 2 ^ w * (x / 2 ^ w)) (2 ^ w)
  have hc := Int.mul_ediv_add_emod (y / 2 ^ w * (x % 2 ^ w)) (2 ^ w)
  have hd := Int.mul_ediv_add_emod (y / 2 ^ w * (x / 2 ^ w)) (2 ^ w)
  rw [secondColumn, thirdColumn]
  linear_combination (-1 : Int) * hx * y + -(2 ^ w * (x / 2 ^ w) + x % 2 ^ w) * hy - ha - 2 ^ w * hb - 2 ^ w * hc -
    2 ^ w * 2 ^ w * hd

theorem product_parts (w : Nat) (x y : Int) :
    x * y = secondColumn w x y % 2 ^ w * 2 ^ w + y % 2 ^ w * (x % 2 ^ w) % 2 ^ w +
        (secondColumn w x y / 2 ^ w + thirdColumn w x y + y / 2 ^ w * (x / 2 ^ w) / 2 ^ w * 2 ^ w) * 2 ^ bitWidth w ∧
      0 ≤ secondColumn w x y % 2 ^ w * 2 ^ w + y % 2 ^ w * (x % 2 ^ w) % 2 ^ w ∧
      secondColumn w x y % 2 ^ w * 2 ^ w + y % 2 ^ w * (x % 2 ^ w) % 2 ^ w < 2 ^ bitWidth w := by
  have hpos := two_pow_pos_int w
  have h0 := Int.emod_nonneg (y % 2 ^ w * (x % 2 ^ w)) hpos.ne'
  have h1 := Int.emod_lt_of_pos (y % 2 ^ w * (x % 2 ^ w)) hpos
  have h2 := Int.emod_nonneg (secondColumn w x y) hpos.ne'
  have h3 := Int.emod_lt_of_pos (secondColumn w x y) hpos
  have hsecond := Int.mul_ediv_add_emod (secondColumn w x y) (2 ^ w)
  rw [two_pow_bitWidth]
  refine ⟨?_, by positivity, by nlinarith⟩
  linear_combination product_columns w x y - (2 : Int) ^ w * hsecond

theorem product_low (w : Nat) (x y : Int) : x * y % 2 ^ bitWidth w =
    secondColumn w x y % 2 ^ w * 2 ^ w + y % 2 ^ w * (x % 2 ^ w) % 2 ^ w := by
  obtain ⟨h, h0, h1⟩ := product_parts w x y
  rw [h, Int.add_mul_emod_self_right, Int.emod_eq_of_lt h0 h1]

theorem product_high (w : Nat) (x y : Int) : x * y / 2 ^ bitWidth w =
    secondColumn w x y / 2 ^ w + thirdColumn w x y + y / 2 ^ w * (x / 2 ^ w) / 2 ^ w * 2 ^ w := by
  obtain ⟨h, h0, h1⟩ := product_parts w x y
  rw [h, Int.add_mul_ediv_right _ _ (two_pow_pos_int _).ne', Int.ediv_eq_zero_of_lt h0 h1, zero_add]

theorem le_add_emod_iff {b m n : Int} (hm : 0 ≤ m ∧ m < b) (hn : 0 ≤ n ∧ n < b) : m ≤ (m + n) % b ↔ m + n < b := by
  by_cases h : m + n < b
  · rw [Int.emod_eq_of_lt (by omega) h]
    exact iff_of_true (by omega) h
  · rw [← Int.sub_emod_right, Int.emod_eq_of_lt (by omega) (by omega)]
    exact iff_of_false (by omega) h

theorem secondColumn_nonneg (w : Nat) (x y : Int) : 0 ≤ secondColumn w x y := by
  have hpos := two_pow_pos_int w
  have hlow := mul_nonneg (Int.emod_nonneg y hpos.ne') (Int.emod_nonneg x hpos.ne')
  exact add_nonneg (add_nonneg (Int.ediv_nonneg hlow hpos.le) (Int.emod_nonneg _ hpos.ne')) (Int.emod_nonneg _ hpos.ne')

theorem middleFits_iff {a b : DoubleWidth s w} (hcarry : secondColumn w |a.toInt| |b.toInt| / 2 ^ w < 2 ^ w) :
    MiddleFits a b ↔
      secondColumn w |a.toInt| |b.toInt| / 2 ^ w + thirdColumn w |a.toInt| |b.toInt| % 2 ^ w < 2 ^ w := by
  have hpos := two_pow_pos_int w
  have hcarry0 := Int.ediv_nonneg (secondColumn_nonneg w |a.toInt| |b.toInt|) hpos.le
  rw [MiddleFits, product_high, Int.add_mul_emod_self_right, ← Int.add_emod_emod]
  exact le_add_emod_iff ⟨hcarry0, hcarry⟩ ⟨Int.emod_nonneg _ hpos.ne', Int.emod_lt_of_pos _ hpos⟩

/-- The negation of a pair of a low and a high part. -/
theorem negated_pair (hw : 0 < w) {low : Magnitude w} {high : DoubleWidth true w} {n : Int} (hn : 0 ≤ n)
    (hlow : low.toInt = n % 2 ^ bitWidth w) (hhigh : high.toInt = n / 2 ^ bitWidth w) :
    (low.complement.addingReportingOverflow 1).1 = ofInt (-n) ∧
      high.complement.add (if (low.complement.addingReportingOverflow 1).2 then 1 else 0) =
        some (ofInt (-n / 2 ^ bitWidth w)) := by
  have hM := two_pow_pos_int (bitWidth w)
  have hN : 0 < bitWidth w := Nat.add_pos_left hw w
  have hone : (1 : Magnitude w).toInt = 1 := toInt_one (representable_one hN)
  have hlow0 := representable_unsigned.1 low.representable_toInt
  have hlowneg := low.toInt_complement_unsigned
  have hhighneg : high.complement.toInt = -1 - high.toInt := by
    refine (representable_toInt _).eq_of_emod ?_ (toInt_complement_emod _)
    have hrep := high.representable_toInt
    have heven := neg_minValue hN
    rw [Representable] at hrep ⊢
    omega
  have hn0 : 0 ≤ high.toInt := hhigh ▸ Int.ediv_nonneg hn hM.le
  have hflag : (low.complement.addingReportingOverflow 1).2 = true ↔ low.toInt = 0 := by
    rw [(adding_snd low.complement 1).2 (not_carryRestores _ _), hlowneg, hone, representable_unsigned]
    omega
  constructor
  · apply toInt_inj.1
    refine (representable_toInt _).eq_of_emod (representable_toInt _) ?_
    rw [toInt_adding, toInt_ofInt_emod, hlowneg, hone, hlow,
      show (2 : Int) ^ bitWidth w - 1 - n % 2 ^ bitWidth w + 1 = -(n % 2 ^ bitWidth w) + 2 ^ bitWidth w by ring,
      Int.add_emod_right]
    exact (Int.mod_modEq n _).neg
  · have hhigh1 : Representable true (bitWidth w) 1 := by
      have h4 : (2 : Int) ^ 2 ≤ 2 ^ bitWidth w := by
        exact_mod_cast Nat.pow_le_pow_right Nat.two_pos (by unfold bitWidth; omega)
      rw [representable_signed]
      omega
    have hrep := high.representable_toInt
    have heven := neg_minValue hN
    rw [Representable] at hrep
    have hquot : -n / 2 ^ bitWidth w = -1 - high.toInt + (if low.toInt = 0 then 1 else 0) := by
      rw [Int.neg_ediv, hhigh, hlow, Int.sign_eq_one_of_pos hM]
      by_cases hdvd : n % 2 ^ bitWidth w = 0
      · rw [if_pos hdvd, if_pos (Int.dvd_of_emod_eq_zero hdvd)]
        ring
      · rw [if_neg hdvd, if_neg (mt Int.emod_eq_zero_of_dvd hdvd)]
        ring
    have hcarry : ∀ one : DoubleWidth true w, 0 ≤ one.toInt → ¬ CarryRestores high.complement one := by
      rintro one h1 ⟨hsum, -⟩
      have := high.complement.high.representable_toInt.1
      have := mt high_lt_zero.1 (not_lt.2 h1)
      rw [FixedWidth.lt_zero_iff] at this
      omega
    rw [hquot]
    by_cases hzero : low.toInt = 0
    · rw [if_pos (hflag.2 hzero), if_pos hzero, ← hhighneg]
      have h1 := toInt_one hhigh1
      rw [← h1]
      refine add_eq (hcarry _ (h1 ▸ Int.one_nonneg)) ?_
      rw [h1, hhighneg, Representable]
      omega
    · rw [if_neg (mt hflag.1 hzero), if_neg hzero, ← hhighneg]
      have h0 := toInt_zero true w
      rw [← h0]
      refine add_eq (hcarry _ h0.ge) ?_
      rw [h0, hhighneg, Representable]
      omega

theorem representable_top (a b : DoubleWidth s w) :
    Representable s w (|a.toInt| * |b.toInt| / 2 ^ bitWidth w / 2 ^ w) := by
  have hB := two_pow_pos_int w
  have hM := two_pow_pos_int (bitWidth w)
  have hM' := two_pow_bitWidth w
  have hP := mul_nonneg (abs_nonneg a.toInt) (abs_nonneg b.toInt)
  have htop0 : 0 ≤ |a.toInt| * |b.toInt| / 2 ^ bitWidth w / 2 ^ w := Int.ediv_nonneg (Int.ediv_nonneg hP hM.le) hB.le
  cases s with
  | false =>
      have ha0 := representable_unsigned.1 a.representable_abs
      have hb0 := representable_unsigned.1 b.representable_abs
      refine representable_unsigned.2 ⟨htop0, Int.ediv_lt_of_lt_mul hB (Int.ediv_lt_of_lt_mul hM ?_)⟩
      calc |a.toInt| * |b.toInt| < 2 ^ bitWidth w * 2 ^ bitWidth w := mul_lt_mul'' ha0.2 hb0.2 ha0.1 hb0.1
        _ = 2 ^ w * 2 ^ w * 2 ^ bitWidth w := by rw [hM']
  | true =>
      have ha := a.abs_le_half
      have hb := b.abs_le_half
      have ha1 : 2 * |a.toInt| ≤ 2 ^ bitWidth w := by omega
      have hb1 : 2 * |b.toInt| ≤ 2 ^ bitWidth w := by omega
      have hquarter : 4 * (|a.toInt| * |b.toInt| / 2 ^ bitWidth w / 2 ^ w) ≤ 2 ^ w := by
        refine le_of_mul_le_mul_right (le_of_mul_le_mul_right ?_ hM) hB
        calc 4 * (|a.toInt| * |b.toInt| / 2 ^ bitWidth w / 2 ^ w) * 2 ^ w * 2 ^ bitWidth w
            = 4 * ((|a.toInt| * |b.toInt| / 2 ^ bitWidth w / 2 ^ w * 2 ^ w) * 2 ^ bitWidth w) := by ring
          _ ≤ 4 * (|a.toInt| * |b.toInt| / 2 ^ bitWidth w * 2 ^ bitWidth w) := by
              gcongr
              exact Int.ediv_mul_le _ hB.ne'
          _ ≤ 4 * (|a.toInt| * |b.toInt|) := mul_le_mul_of_nonneg_left (Int.ediv_mul_le _ hM.ne') (by decide)
          _ = 2 * |a.toInt| * (2 * |b.toInt|) := by ring
          _ ≤ 2 ^ bitWidth w * 2 ^ bitWidth w := mul_le_mul ha1 hb1 (by positivity) hM.le
          _ = 2 ^ w * 2 ^ w * 2 ^ bitWidth w := by rw [hM']
      rw [representable_signed]
      omega

theorem isNegative_iff {a b : DoubleWidth s w} :
    (s && (a.lessThan 0 != b.lessThan 0)) = true ↔ s = true ∧ ¬ (a.toInt < 0 ↔ b.toInt < 0) := by
  rw [Bool.and_eq_true, signs_differ]

theorem abs_mul_abs_of_signs {m n : Int} (h : ¬ (m < 0 ↔ n < 0)) : |m| * |n| = -(m * n) := by
  by_cases hm : m < 0
  · have hn : 0 ≤ n := not_lt.1 fun hn => h (iff_of_true hm hn)
    rw [abs_of_neg hm, abs_of_nonneg hn, neg_mul]
  · have hn : n < 0 := not_le.1 fun hn => h (iff_of_false hm (not_lt.2 hn))
    rw [abs_of_nonneg (not_lt.1 hm), abs_of_neg hn, mul_neg]

theorem abs_mul_abs_of_same_signs {m n : Int} (h : m < 0 ↔ n < 0) : |m| * |n| = m * n := by
  by_cases hm : m < 0
  · rw [abs_of_neg hm, abs_of_neg (h.1 hm), neg_mul_neg]
  · rw [abs_of_nonneg (not_lt.1 hm), abs_of_nonneg (not_lt.1 (mt h.2 hm))]

theorem multipliedFullWidth_eq (a b : DoubleWidth s w) : a.multipliedFullWidth b =
    if MiddleFits a b then some (ofInt (a.toInt * b.toInt / 2 ^ bitWidth w), ofInt (a.toInt * b.toInt)) else none := by
  have hpos := two_pow_pos_int w
  have hlhs := a.toInt_magnitude
  have hrhs := b.toInt_magnitude
  have hl : a.magnitude.low.toInt = |a.toInt| % 2 ^ w ∧ a.magnitude.high.toInt = |a.toInt| / 2 ^ w :=
    ⟨hlhs ▸ a.magnitude.toInt_emod.symm, hlhs ▸ a.magnitude.toInt_ediv.symm⟩
  have hr : b.magnitude.low.toInt = |b.toInt| % 2 ^ w ∧ b.magnitude.high.toInt = |b.toInt| / 2 ^ w :=
    ⟨hrhs ▸ b.magnitude.toInt_emod.symm, hrhs ▸ b.magnitude.toInt_ediv.symm⟩
  obtain ⟨p1, c1, hsum1, hp1, hc1⟩ := sum_eq (mul b.magnitude.low a.magnitude.low).2
    (mul b.magnitude.low a.magnitude.high).1 (mul b.magnitude.high a.magnitude.low).1
  obtain ⟨p2, c2, hsum2, hp2, hc2⟩ := sum_eq (mul b.magnitude.low a.magnitude.high).2
    (mul b.magnitude.high a.magnitude.low).2 (mul b.magnitude.high a.magnitude.high).1
  simp only [mul_fst, mul_snd, hl.1, hl.2, hr.1, hr.2] at hp1 hc1 hp2 hc2
  rw [← secondColumn] at hp1 hc1
  rw [← thirdColumn] at hp2 hc2
  simp only [multipliedFullWidth, hsum1, hsum2, Option.bind_eq_bind, Option.bind_some]
  have hfits := middleFits_iff (a := a) (b := b) (hc1 ▸ (representable_unsigned.1 c1.representable_toInt).2)
  have hwords : |a.toInt| * |b.toInt| / 2 ^ bitWidth w = c1.toInt + p2.toInt +
      (c2.toInt + (mul b.magnitude.high a.magnitude.high).2.toInt) * 2 ^ w := by
    rw [product_high, hc1, hp2, hc2, mul_snd, hl.2, hr.2]
    linear_combination (-1 : Int) * Int.mul_ediv_add_emod (thirdColumn w |a.toInt| |b.toInt|) (2 ^ w)
  have hc1' := representable_unsigned.1 c1.representable_toInt
  have hp2' := representable_unsigned.1 p2.representable_toInt
  rw [← hc1, ← hp2] at hfits
  by_cases h : MiddleFits a b
  · have hthird := hfits.1 h
    have htop : |a.toInt| * |b.toInt| / 2 ^ bitWidth w / 2 ^ w =
        c2.toInt + (mul b.magnitude.high a.magnitude.high).2.toInt := by
      rw [hwords, Int.add_mul_ediv_right _ _ hpos.ne', Int.ediv_eq_zero_of_lt (by omega) hthird, zero_add]
    have hrep := representable_top a b
    rw [htop] at hrep
    have htop0 : Representable false w (c2.toInt + (mul b.magnitude.high a.magnitude.high).2.toInt) := by
      have h0 := representable_unsigned.1 c2.representable_toInt
      have h1 := representable_unsigned.1 (mul b.magnitude.high a.magnitude.high).2.representable_toInt
      have h2 := minValue_nonpos s w
      rw [representable_iff] at hrep
      exact representable_unsigned.2 ⟨by omega, by omega⟩
    have hthird0 : Representable false w (c1.toInt + p2.toInt) := representable_unsigned.2 ⟨by omega, hthird⟩
    simp only [FixedWidth.add, FixedWidth.exactly_eq_some htop0, Option.bind_some, FixedWidth.toInt_ofInt htop0,
      FixedWidth.exactly_eq_some hrep, FixedWidth.exactly_eq_some hthird0]
    have hlow : (⟨p1, (mul b.magnitude.low a.magnitude.low).1⟩ : Magnitude w).toInt =
        |a.toInt| * |b.toInt| % 2 ^ bitWidth w := by rw [toInt, product_low, hp1, mul_fst, hl.1, hr.1]
    have hhigh : (⟨.ofInt (c2.toInt + (mul b.magnitude.high a.magnitude.high).2.toInt), .ofInt (c1.toInt + p2.toInt)⟩ :
        DoubleWidth s w).toInt = |a.toInt| * |b.toInt| / 2 ^ bitWidth w := by
      rw [toInt, FixedWidth.toInt_ofInt hrep, FixedWidth.toInt_ofInt hthird0, hwords, Int.add_comm]
    rw [if_pos h]
    by_cases hneg : (s && (a.lessThan 0 != b.lessThan 0)) = true
    · have hsigns := (isNegative_iff.1 hneg).2
      obtain ⟨rfl, hw⟩ := signed_of_signs hsigns
      obtain ⟨hl', hh'⟩ := negated_pair hw (mul_nonneg (abs_nonneg _) (abs_nonneg _)) hlow hhigh
      rw [if_pos hneg, hh', Option.bind_some, hl', abs_mul_abs_of_signs hsigns, neg_neg]
    · have hsigns : a.toInt < 0 ↔ b.toInt < 0 := by
        by_cases hs : s = true
        · exact not_not.1 fun h => hneg (isNegative_iff.2 ⟨hs, h⟩)
        · exact iff_of_false (not_neg_of_unsigned hs) (not_neg_of_unsigned hs)
      rw [abs_mul_abs_of_same_signs hsigns] at hlow hhigh
      rw [if_neg hneg, ← hhigh, ofInt_toInt]
      refine congrArg (fun low => some (_, low)) (toInt_inj.1 ((representable_toInt _).eq_of_emod (representable_toInt _) ?_))
      rw [hlow, toInt_ofInt_emod, Int.emod_emod]
  · rw [if_neg h, show c1.add p2 = none from if_neg (mt representable_unsigned.1 fun hr => h (hfits.2 hr.2))]
    simp only [Option.bind_none, Option.bind_fun_none]

/-! ## The exact product -/

/-- The two parts of the product `n`. -/
def IsFullProduct (result : Option (DoubleWidth s w × Magnitude w)) (n : Int) : Prop :=
  ∃ high low, result = some (high, low) ∧ high.toInt * 2 ^ bitWidth w + low.toInt = n

theorem representable_mul_ediv (a b : DoubleWidth s w) :
    Representable s (bitWidth w) (a.toInt * b.toInt / 2 ^ bitWidth w) := by
  have hM := two_pow_pos_int (bitWidth w)
  cases s with
  | false =>
      have ha := representable_unsigned.1 a.representable_toInt
      have hb := representable_unsigned.1 b.representable_toInt
      exact representable_unsigned.2 ⟨Int.ediv_nonneg (mul_nonneg ha.1 hb.1) hM.le,
        Int.ediv_lt_of_lt_mul hM (mul_lt_mul'' ha.2 hb.2 ha.1 hb.1)⟩
  | true =>
      have habs : |a.toInt * b.toInt| ≤ 2 ^ bitWidth w / 2 * (2 ^ bitWidth w / 2) := by
        rw [abs_mul]
        exact mul_le_mul a.abs_le_half b.abs_le_half (abs_nonneg _) (by omega)
      obtain ⟨hlo, hhi⟩ := abs_le.1 habs
      refine representable_signed.2 ⟨Int.le_ediv_of_mul_le hM ?_, Int.ediv_lt_of_lt_mul hM ?_⟩
      · have hhalf : 2 ^ bitWidth w / 2 * (2 ^ bitWidth w / 2) ≤ 2 ^ bitWidth w / 2 * (2 : Int) ^ bitWidth w :=
          mul_le_mul_of_nonneg_left (by omega) (by omega)
        rw [neg_mul]
        omega
      · calc a.toInt * b.toInt ≤ 2 ^ bitWidth w / 2 * (2 ^ bitWidth w / 2) := hhi
          _ ≤ (2 ^ bitWidth w - 2 ^ bitWidth w / 2) * (2 ^ bitWidth w / 2) :=
              mul_le_mul_of_nonneg_right (by omega) (by omega)
          _ < (2 ^ bitWidth w - 2 ^ bitWidth w / 2) * 2 ^ bitWidth w := mul_lt_mul_of_pos_left (by omega) (by omega)

theorem multipliedFullWidth_exact_iff (a b : DoubleWidth s w) :
    IsFullProduct (a.multipliedFullWidth b) (a.toInt * b.toInt) ↔ MiddleFits a b := by
  rw [multipliedFullWidth_eq]
  by_cases h : MiddleFits a b
  · refine iff_of_true ⟨_, _, if_pos h, ?_⟩ h
    rw [toInt_ofInt (representable_mul_ediv a b), toInt_magnitude_ofInt, mul_comm, Int.mul_ediv_add_emod]
  · refine iff_of_false ?_ h
    rintro ⟨high, low, hresult, -⟩
    rw [if_neg h] at hresult
    exact absurd hresult (Option.some_ne_none _).symm

/-- The square of a 16-bit value. -/
theorem not_isFullProduct_5793 : ¬ IsFullProduct ((ofInt 5793 : DoubleWidth false 8).multipliedFullWidth (ofInt 5793))
    ((ofInt 5793 : DoubleWidth false 8).toInt * (ofInt 5793 : DoubleWidth false 8).toInt) := by
  rintro ⟨high, low, hresult, -⟩
  rw [show (ofInt 5793 : DoubleWidth false 8).multipliedFullWidth (ofInt 5793) = none by decide] at hresult
  exact absurd hresult (Option.some_ne_none _).symm

/-! ## The flag of the product -/

def FlagExact (a b : DoubleWidth s w) : Prop :=
  ∃ result, a.multipliedReportingOverflow b = some result ∧
    (result.2 = true ↔ ¬ Representable s (bitWidth w) (a.toInt * b.toInt))

/-- The signed operands whose flag is wrong: zero by a negative value, and products between the least value and the one
with twice its magnitude. -/
def Misreported (a b : DoubleWidth s w) : Prop :=
  s = true ∧ (w = 0 ∨ a.toInt = 0 ∧ b.toInt < 0 ∨ a.toInt < 0 ∧ b.toInt = 0 ∨
    -2 ^ bitWidth w ≤ a.toInt * b.toInt ∧ a.toInt * b.toInt < minValue s (bitWidth w))

theorem multipliedReportingOverflow_eq {a b : DoubleWidth s w} (h : MiddleFits a b) :
    ∃ flag, a.multipliedReportingOverflow b = some (ofInt (a.toInt * b.toInt), flag) ∧
      (flag = true ↔ if a.toInt < 0 ↔ b.toInt < 0 then
          a.toInt * b.toInt / 2 ^ bitWidth w ≠ 0 ∨
            s = true ∧ (w = 0 ∨ 2 ^ bitWidth w ≤ 2 * (a.toInt * b.toInt % 2 ^ bitWidth w))
        else a.toInt * b.toInt / 2 ^ bitWidth w ≠ -1) := by
  have hcarry := toInt_ofInt (representable_mul_ediv a b)
  have hproduct := toInt_magnitude_ofInt (w := w) (a.toInt * b.toInt)
  have hresult : (ofInt (ofInt (a.toInt * b.toInt) : Magnitude w).toInt : DoubleWidth s w) = ofInt (a.toInt * b.toInt) :=
    eq_ofInt ((toInt_ofInt_emod _).trans (by rw [hproduct, Int.emod_emod]))
  rw [multipliedReportingOverflow, multipliedFullWidth_eq, if_pos h]
  refine ⟨_, congrArg (fun result => some (result, _)) hresult, ?_⟩
  by_cases hsigns : a.toInt < 0 ↔ b.toInt < 0
  · have hbeq : (a.lessThan 0 != b.lessThan 0) = false := Bool.eq_false_iff.2 (mt signs_differ.1 (not_not.2 hsigns))
    simp only [hbeq, if_pos hsigns, Bool.or_eq_true, Bool.and_eq_true, bne_iff_ne, beq_iff_eq, Bool.not_false, true_and,
      Bool.false_eq_true, if_false]
    refine or_congr (not_congr ?_) (and_congr_right fun _ => ?_)
    · rw [eq_zero_iff, hcarry]
    · rw [leadingZeroBitCount_eq_zero, hproduct]
  · have hbeq := signs_differ.2 hsigns
    simp only [hbeq, if_neg hsigns, Bool.or_eq_true, Bool.and_eq_true, bne_iff_ne, Bool.not_true, Bool.false_eq_true,
      false_and, or_false, if_true]
    obtain ⟨rfl, hw⟩ := signed_of_signs hsigns
    refine not_congr ?_
    rw [← toInt_inj, hcarry, toInt_complement_zero hw]

theorem mul_nonneg_of_signs {m n : Int} (h : m < 0 ↔ n < 0) : 0 ≤ m * n :=
  abs_mul_abs_of_same_signs h ▸ mul_nonneg (abs_nonneg m) (abs_nonneg n)

theorem mul_nonpos_of_signs {m n : Int} (h : ¬ (m < 0 ↔ n < 0)) : m * n ≤ 0 := by
  have := abs_mul_abs_of_signs h ▸ mul_nonneg (abs_nonneg m) (abs_nonneg n)
  omega

theorem flag_of_same_signs {a b : DoubleWidth s w} (hsigns : a.toInt < 0 ↔ b.toInt < 0) :
    (a.toInt * b.toInt / 2 ^ bitWidth w ≠ 0 ∨
          s = true ∧ (w = 0 ∨ 2 ^ bitWidth w ≤ 2 * (a.toInt * b.toInt % 2 ^ bitWidth w)) ↔
        ¬ Representable s (bitWidth w) (a.toInt * b.toInt)) ↔ ¬ Misreported a b := by
  have hM := two_pow_pos_int (bitWidth w)
  have hP := mul_nonneg_of_signs hsigns
  have hquot : a.toInt * b.toInt / 2 ^ bitWidth w = 0 ↔ a.toInt * b.toInt < 2 ^ bitWidth w := by
    refine ⟨fun h => ?_, Int.ediv_eq_zero_of_lt hP⟩
    rw [← Int.mul_ediv_add_emod (a.toInt * b.toInt) (2 ^ bitWidth w), h, mul_zero, zero_add]
    exact Int.emod_lt_of_pos _ hM
  have hmin := minValue_nonpos s (bitWidth w)
  have hmisreported : Misreported a b ↔ s = true ∧ w = 0 := by
    refine and_congr_right fun _ => or_iff_left ?_
    omega
  rw [hmisreported, Ne, hquot, representable_iff]
  cases s with
  | false =>
      rw [minValue, if_neg Bool.false_ne_true]
      simp only [Bool.false_eq_true, false_and, or_false, not_false_eq_true, iff_true]
      omega
  | true =>
      obtain rfl | hw := Nat.eq_zero_or_pos w
      · have ha := a.abs_le_half
        have ha0 : a.toInt = 0 := abs_eq_zero.1 (le_antisymm ha (abs_nonneg _))
        rw [ha0, zero_mul]
        simp [minValue, bitWidth]
      · have heven := neg_minValue (w := bitWidth w) (Nat.add_pos_left hw w)
        rw [maxValue_eq] at heven
        simp only [hw.ne', and_false, not_false_eq_true, iff_true, true_and, false_or]
        by_cases hlt : a.toInt * b.toInt < 2 ^ bitWidth w
        · rw [Int.emod_eq_of_lt hP hlt]
          omega
        · exact iff_of_true (.inl hlt) (by omega)

theorem flag_of_different_signs {a b : DoubleWidth s w} (hsigns : ¬ (a.toInt < 0 ↔ b.toInt < 0)) :
    (a.toInt * b.toInt / 2 ^ bitWidth w ≠ -1 ↔ ¬ Representable s (bitWidth w) (a.toInt * b.toInt)) ↔
      ¬ Misreported a b := by
  have hM := two_pow_pos_int (bitWidth w)
  have hP := mul_nonpos_of_signs hsigns
  obtain ⟨rfl, hw⟩ := signed_of_signs hsigns
  have hquot : a.toInt * b.toInt / 2 ^ bitWidth w = -1 ↔ -2 ^ bitWidth w ≤ a.toInt * b.toInt ∧ a.toInt * b.toInt < 0 := by
    refine ⟨fun h => ?_, fun h => Int.ediv_eq_neg_one_of_neg_of_le h.2 (by omega)⟩
    have hdiv := Int.mul_ediv_add_emod (a.toInt * b.toInt) (2 ^ bitWidth w)
    have h0 := Int.emod_nonneg (a.toInt * b.toInt) hM.ne'
    have h1 := Int.emod_lt_of_pos (a.toInt * b.toInt) hM
    rw [h, mul_neg_one] at hdiv
    omega
  have hzero : a.toInt * b.toInt = 0 ↔ a.toInt = 0 ∧ b.toInt < 0 ∨ a.toInt < 0 ∧ b.toInt = 0 := by
    rw [mul_eq_zero]
    omega
  have hmisreported : Misreported a b ↔ a.toInt * b.toInt = 0 ∨
      -2 ^ bitWidth w ≤ a.toInt * b.toInt ∧ a.toInt * b.toInt < minValue true (bitWidth w) := by
    rw [hzero, or_assoc, Misreported, and_iff_right rfl, or_iff_right hw.ne']
  have hzero' := representable_iff.1 (representable_zero true (bitWidth w))
  rw [hmisreported, Ne, hquot, representable_iff]
  omega

theorem flagExact_iff {a b : DoubleWidth s w} (h : (a.multipliedFullWidth b).isSome = true) :
    FlagExact a b ↔ ¬ Misreported a b := by
  have hfits : MiddleFits a b := by
    by_contra hcon
    rw [multipliedFullWidth_eq, if_neg hcon] at h
    exact Bool.false_ne_true h
  obtain ⟨flag, hresult, hflag⟩ := multipliedReportingOverflow_eq hfits
  have hexact : FlagExact a b ↔ (flag = true ↔ ¬ Representable s (bitWidth w) (a.toInt * b.toInt)) := by
    refine ⟨?_, fun hiff => ⟨_, hresult, hiff⟩⟩
    rintro ⟨result, hsome, hiff⟩
    obtain rfl := Option.some.inj (hresult.symm.trans hsome)
    exact hiff
  rw [hexact, hflag]
  by_cases hsigns : a.toInt < 0 ↔ b.toInt < 0
  · rw [if_pos hsigns]
    exact flag_of_same_signs hsigns
  · rw [if_neg hsigns]
    exact flag_of_different_signs hsigns

/-- A negative product of 16-bit values. -/
theorem flagExact_neg : ((ofInt (-3) : DoubleWidth true 8).multipliedFullWidth (ofInt 500)).isSome = true ∧
    FlagExact (ofInt (-3) : DoubleWidth true 8) (ofInt 500) :=
  ⟨by decide, (flagExact_iff (by decide)).2 (by unfold Misreported; decide)⟩

/-- Zero by a negative value. -/
theorem not_flagExact_zero : ((0 : DoubleWidth true 8).multipliedFullWidth (ofInt (-1))).isSome = true ∧
    ¬ FlagExact (0 : DoubleWidth true 8) (ofInt (-1)) := by
  refine ⟨by decide, ?_⟩
  rintro ⟨result, hresult, hflag⟩
  rw [show (0 : DoubleWidth true 8).multipliedReportingOverflow (ofInt (-1)) = some (0, true) by decide] at hresult
  obtain rfl := Option.some.inj hresult
  exact absurd (by decide) (hflag.1 rfl)

end SwiftKStdlib.Integers.DoubleWidth
