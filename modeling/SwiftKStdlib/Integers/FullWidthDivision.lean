import SwiftKStdlib.Integers.DoubleWidthDivision

/-!
# Division of a full-width dividend

* `DoubleWidth.ofBase` : `DoubleWidth<Base>(source)`, for a `source` of the base type;
* `dividingFullWidth` : the division of the 64-bit types, by way of `DoubleWidth`;
* `NonnegativeResults` : neither the quotient nor the remainder is negative;
* `dividesFullWidth_iff` : the division is right for these, and traps for the others.
-/

namespace SwiftKStdlib.Integers

open Lib

variable {s : Bool} {w : Nat}

namespace DoubleWidth

/-- `init(_:)` of a value of type `Base`: its magnitude is always one of `Low`. -/
def ofBase (source : FixedWidth s w) : Option (DoubleWidth s w) :=
  if s = true ∨ ¬ source < 0 then
    some (if source < 0 then ⟨~~~0, (~~~source.magnitude).maskingAdd 1⟩ else ⟨0, source.magnitude⟩)
  else none

end DoubleWidth

/-- `dividingFullWidth(_:)`, where `bits == 64`. The conversions of the low halves trap. -/
def dividingFullWidth (divisor : FixedWidth s w) (dividend : FixedWidth s w × FixedWidth false w) :
    Option (FixedWidth s w × FixedWidth s w) := do
  let lhs : DoubleWidth s w := ⟨dividend.1, dividend.2⟩
  let rhs ← DoubleWidth.ofBase divisor
  let (quotient, remainder) ← lhs.quotientAndRemainder rhs
  return (← FixedWidth.exactly quotient.low.toInt, ← FixedWidth.exactly remainder.low.toInt)

/-! ## The divisor -/

theorem DoubleWidth.ofBase_eq (hw : 0 < w) (source : FixedWidth s w) :
    ∃ x, ofBase source = some x ∧ x.toInt = source.toInt := by
  have hbounds := source.representable_toInt.bounds
  have hpow := two_pow_pos_int w
  unfold ofBase
  by_cases hneg : source < 0
  · have hneg' := FixedWidth.lt_zero_iff.1 hneg
    obtain rfl : s = true := by
      by_contra hs
      obtain rfl := Bool.eq_false_iff.2 hs
      exact absurd (representable_unsigned.1 source.representable_toInt).1 (not_le.2 hneg')
    refine ⟨_, by rw [if_pos (.inl rfl), if_pos hneg], ?_⟩
    have hlow : ((~~~source.magnitude).maskingAdd 1).toInt = 2 ^ w + source.toInt := by
      have hone : (1 : FixedWidth false w).toInt = 1 := FixedWidth.toInt_ofInt (representable_one hw)
      rw [FixedWidth.maskingAdd, FixedWidth.toInt_complement, FixedWidth.toInt_magnitude, hone, abs_of_neg hneg']
      refine (FixedWidth.toInt_ofInt (representable_unsigned.2 ⟨?_, ?_⟩)).trans ?_ <;> omega
    rw [toInt, FixedWidth.toInt_complement_zero hw, hlow]
    ring
  · refine ⟨_, by rw [if_pos (.inr hneg), if_neg hneg], ?_⟩
    rw [toInt, FixedWidth.toInt_zero, zero_mul, zero_add, FixedWidth.toInt_magnitude]
    exact abs_of_nonneg (not_lt.1 (mt FixedWidth.lt_zero_iff.2 hneg))

/-! ## Signs -/

def NonnegativeResults (dividend divisor : Int) : Prop :=
  (|dividend| < |divisor| ∨ (dividend < 0 ↔ divisor < 0)) ∧ (dividend < 0 → divisor ∣ dividend)

theorem nonnegativeResults_iff {a b : Int} (hb : b ≠ 0) :
    NonnegativeResults a b ↔ 0 ≤ a.tdiv b ∧ 0 ≤ a.tmod b := by
  obtain ⟨hdiv, hmod⟩ := DoubleWidth.signed_division (m := a) hb
  have hbpos := abs_pos.2 hb
  refine and_congr ?_ ?_
  · have hpos : |b| ≤ |a| ↔ 1 ≤ |a| / |b| := by rw [Int.le_ediv_iff_mul_le hbpos, one_mul]
    have hnonneg : 0 ≤ |a| / |b| := Int.ediv_nonneg (abs_nonneg a) hbpos.le
    rw [hdiv]
    split_ifs with hsigns
    · exact iff_of_true (.inr hsigns) hnonneg
    · rw [or_iff_left hsigns]
      omega
  · have hdvd : b ∣ a ↔ |a| % |b| = 0 := by rw [← Int.dvd_iff_emod_eq_zero, abs_dvd_abs]
    have hnonneg : 0 ≤ |a| % |b| := Int.emod_nonneg _ hbpos.ne'
    rw [hmod, hdvd]
    split_ifs with hneg
    · rw [forall_prop_of_true hneg]
      omega
    · exact iff_of_true (fun h => absurd h hneg) hnonneg

/-! ## The results -/

theorem exactly_low {n : Int} (hn : Representable s w n) :
    (FixedWidth.exactly (DoubleWidth.ofInt n : DoubleWidth s w).low.toInt : Option (FixedWidth s w)) =
      if 0 ≤ n then some (.ofInt n) else none := by
  have hpow := two_pow_pos_int w
  have hlow : (DoubleWidth.ofInt n : DoubleWidth s w).low.toInt = n % 2 ^ w := DoubleWidth.toInt_low_ofInt n
  rw [hlow]
  split_ifs with hnonneg
  · rw [Int.emod_eq_of_lt hnonneg hn.bounds.2, FixedWidth.exactly_eq_some hn]
  · -- the low half of a negative number is above those of the type
    obtain rfl : s = true := by
      by_contra hs
      obtain rfl := Bool.eq_false_iff.2 hs
      exact hnonneg (representable_unsigned.1 hn).1
    have hmod : n % 2 ^ w = n + 2 ^ w := by
      rw [← Int.add_emod_right, Int.emod_eq_of_lt] <;> have := hn.bounds <;> omega
    rw [representable_signed] at hn
    refine if_neg fun h => ?_
    rw [hmod, representable_signed] at h
    omega

theorem representable_abs_quotient (hw : 0 < w) {a b : Int} (hb : b ≠ 0) (hq : Representable s w (a.tdiv b)) :
    Representable s (DoubleWidth.bitWidth w) (|a| / |b|) := by
  have hnonneg : 0 ≤ |a| / |b| := Int.ediv_nonneg (abs_nonneg a) (abs_nonneg b)
  have habs : |a| / |b| < 2 ^ w := by
    have := hq.bounds
    have := two_pow_pos_int w
    have hdiv := (DoubleWidth.signed_division (m := a) hb).1
    split_ifs at hdiv <;> omega
  have hrep : Representable false w (|a| / |b|) := representable_unsigned.2 ⟨hnonneg, habs⟩
  exact hrep.widen (fun hneg => absurd hneg (not_lt.2 hnonneg)) (.inl (by unfold DoubleWidth.bitWidth; omega))

theorem representable_tmod {a b : Int} (hb : Representable s w b) (hb0 : b ≠ 0) (hs : s = false → 0 ≤ a) :
    Representable s w (a.tmod b) := by
  obtain ⟨-, hmod⟩ := DoubleWidth.signed_division (m := a) hb0
  have hrem0 := Int.emod_nonneg |a| (abs_pos.2 hb0).ne'
  have hrem1 := Int.emod_lt_of_pos |a| (abs_pos.2 hb0)
  cases s with
  | false =>
    rw [if_neg (not_lt.2 (hs rfl))] at hmod
    rw [representable_unsigned] at hb ⊢
    rw [abs_of_nonneg hb.1] at hrem0 hrem1 hmod
    omega
  | true =>
    rw [representable_signed] at hb ⊢
    have habs : |b| ≤ 2 ^ w / 2 := abs_le.2 (by omega)
    split_ifs at hmod <;> omega

theorem dividingFullWidth_eq {k : Nat} (hk : w = 2 ^ k) {divisor : FixedWidth s w} {a : DoubleWidth s w}
    (hb : divisor ≠ 0) (hq : Representable s w (a.toInt.tdiv divisor.toInt)) :
    dividingFullWidth divisor (a.high, a.low) =
      if 0 ≤ a.toInt.tdiv divisor.toInt ∧ 0 ≤ a.toInt.tmod divisor.toInt then
        some (FixedWidth.ofInt (a.toInt.tdiv divisor.toInt), FixedWidth.ofInt (a.toInt.tmod divisor.toInt))
      else none := by
  have hw : 0 < w := hk ▸ Nat.two_pow_pos k
  have hb0 : divisor.toInt ≠ 0 := fun h => hb (FixedWidth.toInt_inj.1 (h.trans FixedWidth.toInt_zero.symm))
  obtain ⟨rhs, hrhs, hvalue⟩ := DoubleWidth.ofBase_eq hw divisor
  have hrhs0 : rhs ≠ 0 := fun h => hb0 (hvalue ▸ (DoubleWidth.eq_zero_iff rhs).1 h)
  have hr : Representable s w (a.toInt.tmod divisor.toInt) := by
    refine representable_tmod divisor.representable_toInt hb0 fun hs => ?_
    subst hs
    exact (representable_unsigned.1 a.representable_toInt).1
  have hdivision := DoubleWidth.quotientAndRemainder_eq hrhs0 (DoubleWidth.amountsSurvive_two_pow hk a rhs)
  rw [hvalue, if_pos (representable_abs_quotient hw hb0 hq)] at hdivision
  have hlhs : (⟨a.high, a.low⟩ : DoubleWidth s w) = a := rfl
  unfold dividingFullWidth
  simp only [hlhs, hrhs, hdivision, Option.bind_eq_bind, Option.bind_some, exactly_low hq, exactly_low hr]
  by_cases h : 0 ≤ a.toInt.tdiv divisor.toInt ∧ 0 ≤ a.toInt.tmod divisor.toInt
  · rw [if_pos h, if_pos h.1, if_pos h.2]
    rfl
  · rw [if_neg h]
    by_cases hquotient : 0 ≤ a.toInt.tdiv divisor.toInt
    · rw [if_pos hquotient, if_neg fun hremainder => h ⟨hquotient, hremainder⟩]
      rfl
    · rw [if_neg hquotient]
      rfl

/-- The exact quotient, and the remainder with the sign of the dividend. -/
def DividesFullWidth (divisor high : FixedWidth s w) (low : FixedWidth false w) : Prop :=
  ∃ q r, dividingFullWidth divisor (high, low) = some (q, r) ∧
    q.toInt = (⟨high, low⟩ : DoubleWidth s w).toInt.tdiv divisor.toInt ∧
    r.toInt = (⟨high, low⟩ : DoubleWidth s w).toInt.tmod divisor.toInt

theorem dividesFullWidth_iff {divisor high : FixedWidth s 64} {low : FixedWidth false 64} (hb : divisor ≠ 0)
    (hq : Representable s 64 ((⟨high, low⟩ : DoubleWidth s 64).toInt.tdiv divisor.toInt)) :
    DividesFullWidth divisor high low ↔
      NonnegativeResults (⟨high, low⟩ : DoubleWidth s 64).toInt divisor.toInt := by
  have hb0 : divisor.toInt ≠ 0 := fun h => hb (FixedWidth.toInt_inj.1 (h.trans FixedWidth.toInt_zero.symm))
  have heq := dividingFullWidth_eq (k := 6) rfl (a := ⟨high, low⟩) hb hq
  have hr : Representable s 64 ((⟨high, low⟩ : DoubleWidth s 64).toInt.tmod divisor.toInt) := by
    refine representable_tmod divisor.representable_toInt hb0 fun hs => ?_
    subst hs
    exact (representable_unsigned.1 (DoubleWidth.representable_toInt _)).1
  rw [nonnegativeResults_iff hb0, DividesFullWidth]
  refine ⟨fun ⟨q, r, hresult, _⟩ => ?_, fun h => ?_⟩
  · by_contra hneg
    rw [heq, if_neg hneg] at hresult
    cases hresult
  · exact ⟨_, _, heq.trans (if_pos h), FixedWidth.toInt_ofInt hq, FixedWidth.toInt_ofInt hr⟩

/-- `2 ^ 64 + 1` by four. -/
theorem dividesFullWidth_four : DividesFullWidth (4 : FixedWidth true 64) 1 1 :=
  (dividesFullWidth_iff (by decide) (by decide)).2 ⟨.inr (by decide), fun h => absurd h (by decide)⟩

/-- `-2` by one. -/
theorem not_dividesFullWidth_neg_two :
    ¬ ∀ divisor high : FixedWidth true 64, ∀ low : FixedWidth false 64, divisor ≠ 0 →
      Representable true 64 ((⟨high, low⟩ : DoubleWidth true 64).toInt.tdiv divisor.toInt) →
      DividesFullWidth divisor high low := by
  intro hclaim
  obtain ⟨q, r, hresult, -⟩ := hclaim 1 (.ofInt (-1)) (.ofInt (-2)) (by decide) (by decide)
  rw [dividingFullWidth_eq (k := 6) rfl (a := ⟨.ofInt (-1), .ofInt (-2)⟩) (by decide) (by decide),
    if_neg (by decide)] at hresult
  cases hresult

end SwiftKStdlib.Integers
