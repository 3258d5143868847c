import SwiftKStdlib.Integers.Comparison

/-!
# Distances between integers

* `distance`, `advanced` : the generic functions, which return and take an `Int`;
* `intDistance`, `intAdvanced` : those of `Int` itself;
* `stridesExactly_iff` : the pairs of values for which they trap.

The width of `Int` is a parameter.
-/

namespace SwiftKStdlib.Integers.Strides

open Lib Comparison

variable {s : Bool} {w i : Nat}

/-! ## The functions of the source -/

/-- `distance(to:)`. -/
def distance (i : Nat) (self other : FixedWidth s w) : Option (FixedWidth true i) :=
  if !s then
    if other < self then do
      let difference ← self.subtract other
      let result ← FixedWidth.exactly difference.toInt
      result.negate
    else do
      let difference ← other.subtract self
      FixedWidth.exactly difference.toInt
  else
    let isNegative := decide (self < 0)
    if isNegative = decide (other < 0) then do
      let difference ← other.subtract self
      FixedWidth.exactly difference.toInt
    else do
      let sum ← self.magnitude.add other.magnitude
      let result ← FixedWidth.exactly sum.toInt
      if isNegative then some result else result.negate

/-- `advanced(by:)`. -/
def advanced (self : FixedWidth s w) (n : FixedWidth true i) : Option (FixedWidth s w) :=
  if !s then
    if n < 0 then do
      let opposite ← n.negate
      let amount ← FixedWidth.exactly opposite.toInt
      self.subtract amount
    else do
      let amount ← FixedWidth.exactly n.toInt
      self.add amount
  else if decide (self < 0) = decide (n < 0) then do
    let amount ← FixedWidth.exactly n.toInt
    self.add amount
  else if lessThan self.magnitude n.magnitude then do
    let asInt ← FixedWidth.exactly (s := true) (w := i) self.toInt
    let sum ← asInt.add n
    FixedWidth.exactly sum.toInt
  else do
    let amount ← FixedWidth.exactly n.toInt
    self.add amount

/-- `distance(to:)` of `Int`. -/
def intDistance (self other : FixedWidth true i) : Option (FixedWidth true i) := other.subtract self

/-- `advanced(by:)` of `Int`. -/
def intAdvanced (self n : FixedWidth true i) : Option (FixedWidth true i) := self.add n

/-! ## Distances -/

/-- The distance of `y` is the difference, and leads back to `y`. -/
def StridesExactly (i : Nat) (x y : FixedWidth s w) : Prop :=
  distance i x y = some (.ofInt (y.toInt - x.toInt)) ∧ advanced x (.ofInt (y.toInt - x.toInt) : FixedWidth true i) = some y

/-- The difference is the least `Int`, and is computed as the negation of its magnitude. -/
def LeastDistance (i : Nat) (x y : FixedWidth s w) : Prop :=
  y.toInt < x.toInt ∧ y.toInt - x.toInt = minValue true i ∧ (s = true → ¬ (x.toInt < 0 ↔ y.toInt < 0))

def FromLeast (x y : FixedWidth s w) : Prop := x.toInt < 0 ∧ x.toInt = minValue s w ∧ y.toInt = 0

theorem representable_neg_iff {d : Int} (hd : d ≤ 0) (hrep : Representable true i d) :
    Representable true i (-d) ↔ ¬ (d < 0 ∧ d = minValue true i) := by
  have hmin := hrep.1
  have hz := representable_zero true i
  obtain rfl | hi := Nat.eq_zero_or_pos i
  · rw [show minValue true 0 = 0 from rfl] at hmin ⊢
    obtain rfl : d = 0 := by omega
    exact iff_of_true hz fun h => lt_irrefl 0 h.1
  · have heven := neg_minValue hi
    rw [Representable] at hz ⊢
    omega

theorem exactly_negate {d : Int} (hd : d ≤ 0) (hrep : Representable true i d) :
    ((FixedWidth.exactly (-d) : Option (FixedWidth true i)).bind fun result => result.negate) = some (.ofInt d) ↔
      ¬ (d < 0 ∧ d = minValue true i) := by
  rw [← representable_neg_iff hd hrep]
  by_cases h : Representable true i (-d)
  · rw [FixedWidth.exactly_eq_some h, Option.bind_some, FixedWidth.negate, FixedWidth.toInt_ofInt h, neg_neg,
      FixedWidth.exactly_eq_some hrep]
    exact iff_of_true rfl h
  · rw [FixedWidth.exactly, if_neg h, Option.bind_none]
    exact iff_of_false (Option.some_ne_none _).symm h

theorem toInt_magnitude (x : FixedWidth s w) : x.magnitude.toInt = |x.toInt| := by
  have h := x.representable_toInt.bounds
  have hpos := two_pow_pos_int w
  exact FixedWidth.toInt_ofInt (representable_unsigned.2 ⟨abs_nonneg _, abs_lt.2 (by omega)⟩)

theorem subtract_of_signs {x y : FixedWidth s w} (h : x.toInt < 0 ↔ y.toInt < 0) (hs : s = false → x.toInt ≤ y.toInt) :
    y.subtract x = some (.ofInt (y.toInt - x.toInt)) ∧ Representable s w (y.toInt - x.toInt) := by
  have hx := x.representable_toInt
  have hy := y.representable_toInt
  have hrep : Representable s w (y.toInt - x.toInt) := by
    cases s with
    | false =>
        have := hs rfl
        rw [representable_unsigned] at hx hy ⊢
        omega
    | true =>
        rw [representable_signed] at hx hy ⊢
        omega
  exact ⟨FixedWidth.exactly_eq_some hrep, hrep⟩

theorem add_magnitudes {x y : FixedWidth s w} (h : ¬ (x.toInt < 0 ↔ y.toInt < 0)) :
    x.magnitude.add y.magnitude = some (.ofInt |y.toInt - x.toInt|) ∧ Representable false w |y.toInt - x.toInt| := by
  have hx := x.representable_toInt
  have hy := y.representable_toInt
  have hsum : |x.toInt| + |y.toInt| = |y.toInt - x.toInt| := by
    rcases abs_cases x.toInt with hxa | hxa <;> rcases abs_cases y.toInt with hya | hya <;>
      rcases abs_cases (y.toInt - x.toInt) with hda | hda <;> omega
  have hrep : Representable false w |y.toInt - x.toInt| := by
    rw [representable_iff] at hx hy
    rw [representable_unsigned]
    exact ⟨abs_nonneg _, abs_lt.2 (by omega)⟩
  refine ⟨?_, hrep⟩
  rw [FixedWidth.add, toInt_magnitude, toInt_magnitude, hsum, FixedWidth.exactly_eq_some hrep]

theorem distance_iff {x y : FixedWidth s w} (hrep : Representable true i (y.toInt - x.toInt)) :
    distance i x y = some (.ofInt (y.toInt - x.toInt)) ↔ ¬ LeastDistance i x y := by
  cases s with
  | false =>
      have hsigns : ∀ a b : FixedWidth false w, a.toInt < 0 ↔ b.toInt < 0 := fun a b =>
        iff_of_false (not_lt.2 (representable_unsigned.1 a.representable_toInt).1)
          (not_lt.2 (representable_unsigned.1 b.representable_toInt).1)
      rw [distance, Bool.not_false, if_pos rfl]
      by_cases hlt : y < x
      · obtain ⟨hsub, hr⟩ := subtract_of_signs (hsigns y x) fun _ => le_of_lt hlt
        have hlt' : y.toInt < x.toInt := hlt
        rw [if_pos hlt, hsub, Option.bind_eq_bind, Option.bind_some, FixedWidth.toInt_ofInt hr, ← neg_sub,
          Option.bind_eq_bind, exactly_negate (by omega) hrep, LeastDistance]
        simp only [Bool.false_eq_true, false_imp_iff, and_true, sub_neg]
      · obtain ⟨hsub, hr⟩ := subtract_of_signs (hsigns x y) fun _ => not_lt.1 hlt
        rw [if_neg hlt, hsub, Option.bind_eq_bind, Option.bind_some, FixedWidth.toInt_ofInt hr,
          FixedWidth.exactly_eq_some hrep]
        exact iff_of_true rfl fun h => hlt h.1
  | true =>
      rw [distance, Bool.not_true, if_neg Bool.false_ne_true]
      simp only [decide_eq_decide, FixedWidth.lt_zero_iff, decide_eq_true_iff]
      by_cases hsigns : x.toInt < 0 ↔ y.toInt < 0
      · obtain ⟨hsub, hr⟩ := subtract_of_signs hsigns fun h => absurd h.symm Bool.false_ne_true
        rw [if_pos hsigns, hsub, Option.bind_eq_bind, Option.bind_some, FixedWidth.toInt_ofInt hr,
          FixedWidth.exactly_eq_some hrep]
        exact iff_of_true rfl fun h => h.2.2 rfl hsigns
      · obtain ⟨hsum, hr⟩ := add_magnitudes hsigns
        rw [if_neg hsigns, hsum, Option.bind_eq_bind, Option.bind_some, FixedWidth.toInt_ofInt hr]
        by_cases hx : x.toInt < 0
        · rw [abs_of_nonneg (by omega), FixedWidth.exactly_eq_some hrep, Option.bind_eq_bind, Option.bind_some, if_pos hx]
          exact iff_of_true rfl fun h => by have := h.1; omega
        · simp only [if_neg hx]
          rw [abs_of_nonpos (by omega), Option.bind_eq_bind, exactly_negate (by omega) hrep, LeastDistance, sub_neg]
          simp only [hsigns, not_false_eq_true, implies_true, and_true]

theorem add_amount {x y : FixedWidth s w} :
    ((FixedWidth.exactly (y.toInt - x.toInt) : Option (FixedWidth s w)).bind fun amount => x.add amount) = some y ↔
      Representable s w (y.toInt - x.toInt) := by
  by_cases h : Representable s w (y.toInt - x.toInt)
  · rw [FixedWidth.exactly_eq_some h, Option.bind_some, FixedWidth.add, FixedWidth.toInt_ofInt h, add_sub_cancel,
      FixedWidth.exactly_eq_some y.representable_toInt, FixedWidth.ofInt_toInt]
    exact iff_of_true rfl h
  · rw [FixedWidth.exactly, if_neg h, Option.bind_none]
    exact iff_of_false (Option.some_ne_none _).symm h

theorem advanced_unsigned_iff {x y : FixedWidth false w} (hrep : Representable true i (y.toInt - x.toInt)) :
    advanced x (.ofInt (y.toInt - x.toInt) : FixedWidth true i) = some y ↔ ¬ LeastDistance i x y := by
  have hx := representable_unsigned.1 x.representable_toInt
  have hy := representable_unsigned.1 y.representable_toInt
  rw [advanced, Bool.not_false, if_pos rfl]
  simp only [FixedWidth.lt_zero_iff, FixedWidth.toInt_ofInt hrep, Option.bind_eq_bind]
  by_cases hneg : y.toInt - x.toInt < 0
  · rw [if_pos hneg]
    have hleast : Representable true i (-(y.toInt - x.toInt)) ↔ ¬ LeastDistance i x y := by
      rw [representable_neg_iff hneg.le hrep, LeastDistance]
      simp only [Bool.false_eq_true, false_imp_iff, and_true, sub_neg]
    rw [FixedWidth.negate, FixedWidth.toInt_ofInt hrep, ← hleast]
    by_cases h : Representable true i (-(y.toInt - x.toInt))
    · have hself : Representable false w (-(y.toInt - x.toInt)) := representable_unsigned.2 ⟨by omega, by omega⟩
      rw [FixedWidth.exactly_eq_some h, Option.bind_some, FixedWidth.toInt_ofInt h, FixedWidth.exactly_eq_some hself,
        Option.bind_some, FixedWidth.subtract, FixedWidth.toInt_ofInt hself, sub_neg_eq_add, add_sub_cancel,
        FixedWidth.exactly_eq_some y.representable_toInt, FixedWidth.ofInt_toInt]
      exact iff_of_true rfl h
    · rw [FixedWidth.exactly, if_neg h, Option.bind_none]
      exact iff_of_false (Option.some_ne_none _).symm h
  · rw [if_neg hneg, add_amount]
    exact iff_of_true (representable_unsigned.2 ⟨by omega, by omega⟩) fun h => hneg (sub_neg.2 h.1)

theorem advanced_signed_iff {x y : FixedWidth true w} (hrep : Representable true i (y.toInt - x.toInt)) :
    advanced x (.ofInt (y.toInt - x.toInt) : FixedWidth true i) = some y ↔ ¬ FromLeast x y := by
  have hx := representable_iff.1 x.representable_toInt
  have hy := representable_iff.1 y.representable_toInt
  have hz := representable_iff.1 (representable_zero true w)
  rw [advanced, Bool.not_true, if_neg Bool.false_ne_true]
  simp only [decide_eq_decide, FixedWidth.lt_zero_iff, Comparison.lessThan_iff, toInt_magnitude,
    FixedWidth.toInt_ofInt hrep, Option.bind_eq_bind]
  by_cases hsigns : x.toInt < 0 ↔ y.toInt - x.toInt < 0
  · rw [if_pos hsigns, add_amount]
    refine iff_of_true (representable_iff.2 ⟨by omega, by omega⟩) fun h => ?_
    unfold FromLeast at h
    omega
  · rw [if_neg hsigns]
    by_cases hlt : |x.toInt| < |y.toInt - x.toInt|
    · have hasInt : Representable true i x.toInt := by
        rw [representable_signed] at hrep ⊢
        rcases abs_cases x.toInt with hxa | hxa <;> rcases abs_cases (y.toInt - x.toInt) with hda | hda <;> omega
      have hsum : Representable true i y.toInt := by
        rw [representable_signed] at hrep ⊢
        rcases abs_cases x.toInt with hxa | hxa <;> rcases abs_cases (y.toInt - x.toInt) with hda | hda <;> omega
      rw [if_pos hlt, FixedWidth.exactly_eq_some hasInt, Option.bind_some, FixedWidth.add, FixedWidth.toInt_ofInt hasInt,
        FixedWidth.toInt_ofInt hrep, add_sub_cancel, FixedWidth.exactly_eq_some hsum, Option.bind_some,
        FixedWidth.toInt_ofInt hsum, FixedWidth.exactly_eq_some y.representable_toInt, FixedWidth.ofInt_toInt]
      refine iff_of_true rfl fun h => ?_
      rw [h.2.2, zero_sub, abs_neg] at hlt
      exact lt_irrefl _ hlt
    · rw [if_neg hlt, add_amount, FromLeast, representable_iff]
      obtain rfl | hw := Nat.eq_zero_or_pos w
      · rw [show minValue true 0 = 0 from rfl, pow_zero] at hx hy
        exact absurd (by omega) hsigns
      · have heven := neg_minValue hw
        rw [maxValue_eq] at heven
        rcases abs_cases x.toInt with hxa | hxa <;> rcases abs_cases (y.toInt - x.toInt) with hda | hda <;> omega

theorem stridesExactly_iff {x y : FixedWidth s w} (hrep : Representable true i (y.toInt - x.toInt)) :
    (StridesExactly i x y ↔ ¬ LeastDistance i x y ∧ ¬ (s = true ∧ FromLeast x y)) ∧
      ∀ a b : FixedWidth true i, Representable true i (b.toInt - a.toInt) →
        intDistance a b = some (.ofInt (b.toInt - a.toInt)) ∧ intAdvanced a (.ofInt (b.toInt - a.toInt)) = some b := by
  refine ⟨?_, fun a b h => ⟨FixedWidth.exactly_eq_some h, ?_⟩⟩
  · cases s with
    | false =>
        rw [StridesExactly, distance_iff hrep, advanced_unsigned_iff hrep]
        exact and_congr_right fun _ => iff_of_true ‹_› fun h => Bool.false_ne_true h.1
    | true => rw [StridesExactly, distance_iff hrep, advanced_signed_iff hrep, eq_self, true_and]
  · rw [intAdvanced, FixedWidth.add, FixedWidth.toInt_ofInt h, add_sub_cancel,
      FixedWidth.exactly_eq_some b.representable_toInt, FixedWidth.ofInt_toInt]

/-- Down from the greatest 64-bit value. -/
theorem stridesExactly_greatest : Representable true 64 ((0 : FixedWidth true 64).toInt - (.max : FixedWidth true 64).toInt) ∧
    StridesExactly 64 (.max : FixedWidth true 64) 0 := by
  have hrep : Representable true 64 ((0 : FixedWidth true 64).toInt - (.max : FixedWidth true 64).toInt) := by decide
  exact ⟨hrep, (stridesExactly_iff hrep).1.2 ⟨by unfold LeastDistance; decide, by unfold FromLeast; decide⟩⟩

/-- From the least 8-bit value to zero, and down by the least `Int` from an unsigned value. -/
theorem not_stridesExactly_least :
    (Representable true 64 ((0 : FixedWidth true 8).toInt - (.min : FixedWidth true 8).toInt) ∧
        ¬ StridesExactly 64 (.min : FixedWidth true 8) 0) ∧
      Representable true 64 ((0 : FixedWidth false 64).toInt - (.ofInt (2 ^ 63) : FixedWidth false 64).toInt) ∧
        ¬ StridesExactly 64 (.ofInt (2 ^ 63) : FixedWidth false 64) 0 := by
  refine ⟨⟨by decide, ?_⟩, by decide, ?_⟩
  · rintro ⟨-, h⟩
    revert h
    decide
  · rintro ⟨h, -⟩
    revert h
    decide

end SwiftKStdlib.Integers.Strides
