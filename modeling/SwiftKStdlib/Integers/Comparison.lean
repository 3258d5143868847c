import SwiftKStdlib.Lib.FixedWidth

/-!
# Comparison of integers of different types

* `equal`, `lessThan` and the operators on top of them, which truncate one value to the type of the other;
* `comparison_exact` : they compare the numbers.
-/

namespace SwiftKStdlib.Integers.Comparison

open Lib

variable {s s' : Bool} {w w' : Nat}

/-! ## The operators of the source -/

/-- `Self.isSigned && x < 0`. -/
def isNegative (x : FixedWidth s w) : Bool := s && decide (x < 0)

/-- `==`. -/
def equal (lhs : FixedWidth s w) (rhs : FixedWidth s' w') : Bool :=
  if isNegative lhs != isNegative rhs then false
  else if w < w' then decide (lhs.truncating = rhs)
  else if w' < w then decide (lhs = rhs.truncating)
  else if s then decide (lhs.truncating = rhs)
  else decide (lhs = rhs.truncating)

/-- `!=`. -/
def notEqual (lhs : FixedWidth s w) (rhs : FixedWidth s' w') : Bool := !equal lhs rhs

/-- `<`. -/
def lessThan (lhs : FixedWidth s w) (rhs : FixedWidth s' w') : Bool :=
  if isNegative lhs != isNegative rhs then isNegative lhs
  else if lhs = 0 ∧ rhs = 0 then false
  else
    let rhsAsSelf : FixedWidth s w := rhs.truncating
    let rhsAsSelfNegative := decide (rhsAsSelf < 0)
    if rhsAsSelf.truncating = rhs ∧ isNegative rhs = rhsAsSelfNegative then decide (lhs < rhsAsSelf)
    else decide (lhs.truncating < rhs)

/-- `<=`. -/
def lessThanOrEqual (lhs : FixedWidth s w) (rhs : FixedWidth s' w') : Bool := !lessThan rhs lhs

/-- `>=`. -/
def greaterThanOrEqual (lhs : FixedWidth s w) (rhs : FixedWidth s' w') : Bool := !lessThan lhs rhs

/-- `>`. -/
def greaterThan (lhs : FixedWidth s w) (rhs : FixedWidth s' w') : Bool := lessThan rhs lhs

/-! ## Signs -/

theorem nonneg_of_unsigned (x : FixedWidth s w) (hx : x.toInt < 0) : s = true := by
  cases s with
  | false => exact absurd (representable_unsigned.1 x.representable_toInt).1 (not_le.2 hx)
  | true => rfl

theorem isNegative_iff (x : FixedWidth s w) : isNegative x = true ↔ x.toInt < 0 := by
  rw [isNegative, Bool.and_eq_true, decide_eq_true_iff, FixedWidth.lt_zero_iff]
  exact and_iff_right_of_imp (nonneg_of_unsigned x)

theorem signs_differ (x : FixedWidth s w) (y : FixedWidth s' w') :
    (isNegative x != isNegative y) = true ↔ ¬ (x.toInt < 0 ↔ y.toInt < 0) := by
  rw [bne_iff_ne, ne_eq, Bool.eq_iff_iff, isNegative_iff, isNegative_iff]

/-! ## Truncation -/

theorem truncating_eq_iff {x : FixedWidth s w} {y : FixedWidth s' w'} (h : Representable s' w' x.toInt) :
    x.truncating = y ↔ x.toInt = y.toInt := by
  rw [← FixedWidth.toInt_inj, FixedWidth.truncating, FixedWidth.toInt_ofInt h]

theorem truncating_lt_iff {x : FixedWidth s w} {y : FixedWidth s' w'} (h : Representable s' w' x.toInt) :
    x.truncating < y ↔ x.toInt < y.toInt := by
  show (x.truncating : FixedWidth s' w').toInt < y.toInt ↔ _
  rw [FixedWidth.truncating, FixedWidth.toInt_ofInt h]

theorem roundTrip_iff (x : FixedWidth s w) (y : FixedWidth s' w') :
    ((y.truncating : FixedWidth s w).truncating = y ∧ isNegative y = decide ((y.truncating : FixedWidth s w) < 0)) ↔
      Representable s w y.toInt := by
  have hq : (y.truncating : FixedWidth s w).toInt % 2 ^ w = y.toInt % 2 ^ w := FixedWidth.toInt_ofInt_emod _
  rw [Bool.eq_iff_iff, isNegative_iff, decide_eq_true_iff, FixedWidth.lt_zero_iff]
  refine ⟨fun ⟨hback, hsign⟩ => ?_, fun h => ?_⟩
  · have hr : y.toInt % 2 ^ w' = (y.truncating : FixedWidth s w).toInt % 2 ^ w' := by
      conv_lhs => rw [← hback]
      exact FixedWidth.toInt_ofInt_emod _
    have hqb := (y.truncating : FixedWidth s w).representable_toInt.bounds
    have hyb := y.representable_toInt.bounds
    generalize hval : (y.truncating : FixedWidth s w).toInt = q at *
    have heq : q - y.toInt = 0 := by
      rcases le_total w w' with hle | hle
      · have hpow : (2 : Int) ^ w ≤ 2 ^ w' := by exact_mod_cast Nat.pow_le_pow_right Nat.two_pos hle
        have hdvd : (2 : Int) ^ w' ∣ q - y.toInt := Int.ModEq.dvd hr
        exact Int.eq_zero_of_abs_lt_dvd hdvd (abs_lt.2 (by omega))
      · have hpow : (2 : Int) ^ w' ≤ 2 ^ w := by exact_mod_cast Nat.pow_le_pow_right Nat.two_pos hle
        have hdvd : (2 : Int) ^ w ∣ q - y.toInt := Int.ModEq.dvd hq.symm
        exact Int.eq_zero_of_abs_lt_dvd hdvd (abs_lt.2 (by omega))
    rw [← sub_eq_zero.1 heq, ← hval]
    exact FixedWidth.representable_toInt _
  · have hval : (y.truncating : FixedWidth s w).toInt = y.toInt := FixedWidth.toInt_ofInt h
    refine ⟨?_, by rw [hval]⟩
    rw [FixedWidth.truncating, hval, FixedWidth.ofInt_toInt]

/-! ## The comparisons -/

theorem equal_iff (lhs : FixedWidth s w) (rhs : FixedWidth s' w') : equal lhs rhs = true ↔ lhs.toInt = rhs.toInt := by
  rw [equal]
  by_cases hsigns : lhs.toInt < 0 ↔ rhs.toInt < 0
  · have hl : lhs.toInt < 0 → s' = true := fun h => nonneg_of_unsigned rhs (hsigns.1 h)
    have hr : rhs.toInt < 0 → s = true := fun h => nonneg_of_unsigned lhs (hsigns.2 h)
    rw [if_neg (mt (signs_differ lhs rhs).1 (not_not.2 hsigns))]
    split_ifs with hlt hgt hs
    · rw [decide_eq_true_iff, truncating_eq_iff (lhs.representable_toInt.widen hl (.inl hlt))]
    · rw [decide_eq_true_iff, eq_comm, truncating_eq_iff (rhs.representable_toInt.widen hr (.inl hgt)), eq_comm]
    · rw [decide_eq_true_iff, truncating_eq_iff (lhs.representable_toInt.widen hl (.inr ⟨by omega, .inl hs⟩))]
    · rw [decide_eq_true_iff, eq_comm,
        truncating_eq_iff (rhs.representable_toInt.widen hr (.inr ⟨by omega, .inr (Bool.eq_false_iff.2 hs)⟩)), eq_comm]
  · rw [if_pos ((signs_differ lhs rhs).2 hsigns)]
    exact iff_of_false Bool.false_ne_true fun h => hsigns (by rw [h])

theorem lessThan_iff (lhs : FixedWidth s w) (rhs : FixedWidth s' w') :
    lessThan lhs rhs = true ↔ lhs.toInt < rhs.toInt := by
  rw [lessThan]
  by_cases hsigns : lhs.toInt < 0 ↔ rhs.toInt < 0
  · rw [if_neg (mt (signs_differ lhs rhs).1 (not_not.2 hsigns))]
    by_cases hzero : lhs = 0 ∧ rhs = 0
    · rw [if_pos hzero, hzero.1, hzero.2, FixedWidth.toInt_zero, FixedWidth.toInt_zero]
      exact iff_of_false Bool.false_ne_true (lt_irrefl 0)
    · rw [if_neg hzero]
      by_cases hrep : Representable s w rhs.toInt
      · show (if _ then _ else _) = true ↔ _
        rw [if_pos ((roundTrip_iff lhs rhs).2 hrep), decide_eq_true_iff]
        show lhs.toInt < (rhs.truncating : FixedWidth s w).toInt ↔ _
        rw [FixedWidth.truncating, FixedWidth.toInt_ofInt hrep]
      · -- `rhs` is beyond the type of `lhs`, which is therefore between zero and `rhs`
        have hlhs : Representable s' w' lhs.toInt := by
          have h1 := lhs.representable_toInt
          have h2 := rhs.representable_toInt
          have h3 := representable_zero s' w'
          have h4 := representable_zero s w
          unfold Representable at *
          omega
        show (if _ then _ else _) = true ↔ _
        rw [if_neg (mt (roundTrip_iff lhs rhs).1 hrep), decide_eq_true_iff, truncating_lt_iff hlhs]
  · rw [if_pos ((signs_differ lhs rhs).2 hsigns), isNegative_iff]
    omega

theorem comparison_exact (lhs : FixedWidth s w) (rhs : FixedWidth s' w') :
    (equal lhs rhs = true ↔ lhs.toInt = rhs.toInt) ∧ (notEqual lhs rhs = true ↔ lhs.toInt ≠ rhs.toInt) ∧
      (lessThan lhs rhs = true ↔ lhs.toInt < rhs.toInt) ∧ (lessThanOrEqual lhs rhs = true ↔ lhs.toInt ≤ rhs.toInt) ∧
      (greaterThan lhs rhs = true ↔ lhs.toInt > rhs.toInt) ∧
      (greaterThanOrEqual lhs rhs = true ↔ lhs.toInt ≥ rhs.toInt) := by
  refine ⟨equal_iff lhs rhs, ?_, lessThan_iff lhs rhs, ?_, lessThan_iff rhs lhs, ?_⟩
  · rw [notEqual, Bool.not_eq_true', ← Bool.not_eq_true, equal_iff]
  · rw [lessThanOrEqual, Bool.not_eq_true', ← Bool.not_eq_true, lessThan_iff, not_lt]
  · rw [greaterThanOrEqual, Bool.not_eq_true', ← Bool.not_eq_true, lessThan_iff, not_lt]

end SwiftKStdlib.Integers.Comparison
