import SwiftKStdlib.Integers.Comparison
import SwiftKStdlib.Integers.DoubleWidthDivision

/-!
# Smart shifts

* `FixedWidthInteger` : what the smart shifts use of the type of the shifted value, `LawfulFixedWidthInteger` : what is
  documented of it; the built-in types and `DoubleWidth` over them are such types;
* `BinaryInteger` : an amount, of a type with any width or of one with none;
* `nonMaskingShift`, `smartShift` : the templates of `>>` and `<<`;
* `smartShifts_exact` : they multiply and divide by powers of two.
-/

namespace SwiftKStdlib.Integers

open Lib

/-! ## The shifted value -/

/-- The requirements of `FixedWidthInteger` that the smart shifts use. -/
class FixedWidthInteger (α : Type) where
  isSigned : Bool
  bitWidth : Nat
  /-- The number of a value. -/
  toInt : α → Int
  /-- `init(truncatingIfNeeded:)`, of an `Int`. -/
  truncatingIfNeeded : Int → α
  /-- `&>>` and `&<<`. -/
  maskingShift (isRightShift : Bool) (lhs rhs : α) : Option α

def shiftedBy (isRightShift : Bool) (x : Int) (n : Nat) : Int := if isRightShift then x / 2 ^ n else x * 2 ^ n

open FixedWidthInteger in
/-- The masking shifts need not be right for amounts outside `0..<bitWidth`, and `bitWidth` is an `Int`. -/
class LawfulFixedWidthInteger (α : Type) [FixedWidthInteger α] : Prop where
  bitWidth_pos : 0 < bitWidth α
  bitWidth_lt : bitWidth α < 2 ^ 63
  representable_toInt (x : α) : Representable (isSigned α) (bitWidth α) (toInt x)
  toInt_truncatingIfNeeded (n : Int) : toInt (truncatingIfNeeded n : α) % 2 ^ bitWidth α = n % 2 ^ bitWidth α
  maskingShift_eq (isRightShift : Bool) (lhs rhs : α) (h0 : 0 ≤ toInt rhs) (h1 : toInt rhs < bitWidth α) :
    ∃ r, maskingShift isRightShift lhs rhs = some r ∧
      toInt r % 2 ^ bitWidth α = shiftedBy isRightShift (toInt lhs) (toInt rhs).toNat % 2 ^ bitWidth α

instance (s : Bool) (w : Nat) : FixedWidthInteger (FixedWidth s w) where
  isSigned := s
  bitWidth := w
  toInt := FixedWidth.toInt
  truncatingIfNeeded := FixedWidth.ofInt
  maskingShift isRightShift lhs rhs :=
    some (if isRightShift then lhs.maskingShiftRight rhs else lhs.maskingShiftLeft rhs)

instance (s : Bool) (w : Nat) : FixedWidthInteger (DoubleWidth s w) where
  isSigned := s
  bitWidth := DoubleWidth.bitWidth w
  toInt := DoubleWidth.toInt
  truncatingIfNeeded := DoubleWidth.ofInt
  maskingShift isRightShift lhs rhs := if isRightShift then lhs.maskingShiftRight rhs else lhs.maskingShiftLeft rhs

theorem lawful_fixedWidth {s : Bool} {w : Nat} (hpos : 0 < w) (hlt : w < 2 ^ 63) :
    LawfulFixedWidthInteger (FixedWidth s w) where
  bitWidth_pos := hpos
  bitWidth_lt := hlt
  representable_toInt := FixedWidth.representable_toInt
  toInt_truncatingIfNeeded := FixedWidth.toInt_ofInt_emod
  maskingShift_eq isRightShift lhs rhs h0 h1 := by
    have hmask : rhs.maskedAmount = rhs.toInt.toNat := congrArg Int.toNat (Int.emod_eq_of_lt h0 h1)
    refine ⟨_, rfl, ?_⟩
    rw [← show rhs.maskedAmount = (FixedWidthInteger.toInt rhs).toNat from hmask]
    cases isRightShift
    · exact FixedWidth.toInt_ofInt_emod _
    · exact FixedWidth.toInt_ofInt_emod _

theorem lawful_doubleWidth {s : Bool} {w k : Nat} (hk : w = 2 ^ k) (hlt : DoubleWidth.bitWidth w < 2 ^ 63) :
    LawfulFixedWidthInteger (DoubleWidth s w) where
  bitWidth_pos := by
    have := Nat.two_pow_pos k
    show 0 < DoubleWidth.bitWidth w
    unfold DoubleWidth.bitWidth
    omega
  bitWidth_lt := hlt
  representable_toInt := DoubleWidth.representable_toInt
  toInt_truncatingIfNeeded := DoubleWidth.toInt_ofInt_emod
  maskingShift_eq isRightShift lhs rhs h0 h1 := by
    have hw : 0 < w := hk ▸ Nat.two_pow_pos k
    have hwidth : DoubleWidth.bitWidth w = 2 ^ (k + 1) := by rw [DoubleWidth.bitWidth, hk, pow_succ, mul_two]
    have h0' : 0 ≤ rhs.toInt := h0
    have h1' : rhs.toInt < DoubleWidth.bitWidth w := h1
    have hlow : rhs.low.toInt = rhs.toInt := by
      rw [← DoubleWidth.toInt_emod]
      refine Int.emod_eq_of_lt h0' (h1'.trans_le ?_)
      exact_mod_cast DoubleWidth.bitWidth_le hw
    rw [FixedWidth.toInt_unsigned] at hlow
    have hmask : rhs.maskedAmount = rhs.toInt.toNat := by
      rw [DoubleWidth.maskedAmount, hwidth, Nat.and_two_pow_sub_one_eq_mod, Nat.mod_eq_of_lt (by omega)]
      omega
    rw [show (FixedWidthInteger.toInt rhs).toNat = rhs.maskedAmount from hmask.symm]
    cases isRightShift
    · exact ⟨_, DoubleWidth.maskingShiftLeft_eq hw lhs rhs, DoubleWidth.toInt_ofInt_emod _⟩
    · exact ⟨_, DoubleWidth.maskingShiftRight_eq hw lhs rhs, DoubleWidth.toInt_ofInt_emod _⟩

/-! ## The amount -/

/-- A value of a type that conforms to `BinaryInteger`; an `unbounded` type has a value for each number. -/
inductive BinaryInteger where
  | fixed {s : Bool} {w : Nat} (x : FixedWidth s w)
  | unbounded (n : Int)

namespace BinaryInteger

def toInt : BinaryInteger → Int
  | fixed x => x.toInt
  | unbounded n => n

/-- `Self.isSigned && x < 0`. -/
def isNegative : BinaryInteger → Bool
  | fixed x => Comparison.isNegative x
  | unbounded n => decide (n < 0)

/-- `init(truncatingIfNeeded:)`, to the type of another value. -/
def truncatingTo (x : BinaryInteger) : BinaryInteger → BinaryInteger
  | @fixed s w _ => fixed (FixedWidth.ofInt x.toInt : FixedWidth s w)
  | unbounded _ => unbounded x.toInt

/-- `<`. Values of one type are compared by their numbers. -/
def lessThan (lhs rhs : BinaryInteger) : Bool :=
  if isNegative lhs != isNegative rhs then isNegative lhs
  else if lhs.toInt = 0 ∧ rhs.toInt = 0 then false
  else
    let rhsAsSelf := rhs.truncatingTo lhs
    let rhsAsSelfNegative := decide (rhsAsSelf.toInt < 0)
    if (rhsAsSelf.truncatingTo rhs).toInt = rhs.toInt ∧ isNegative rhs = rhsAsSelfNegative then
      decide (lhs.toInt < rhsAsSelf.toInt)
    else decide ((lhs.truncatingTo rhs).toInt < rhs.toInt)

theorem isNegative_iff (x : BinaryInteger) : isNegative x = true ↔ x.toInt < 0 := by
  cases x with
  | fixed x => exact Comparison.isNegative_iff x
  | unbounded n => exact decide_eq_true_iff

theorem roundTrip (lhs rhs : BinaryInteger) (hsigns : lhs.toInt < 0 ↔ rhs.toInt < 0) :
    if ((rhs.truncatingTo lhs).truncatingTo rhs).toInt = rhs.toInt ∧
        isNegative rhs = decide ((rhs.truncatingTo lhs).toInt < 0) then (rhs.truncatingTo lhs).toInt = rhs.toInt
    else (lhs.truncatingTo rhs).toInt = lhs.toInt := by
  cases lhs with
  | unbounded m =>
    have hback : ((rhs.truncatingTo (.unbounded m)).truncatingTo rhs).toInt = rhs.toInt := by
      cases rhs with
      | fixed y => exact FixedWidth.toInt_ofInt y.representable_toInt
      | unbounded n => rfl
    rw [if_pos ⟨hback, Bool.eq_iff_iff.2 ((isNegative_iff rhs).trans decide_eq_true_iff.symm)⟩]
    rfl
  | @fixed s w x =>
    cases rhs with
    | unbounded n =>
      split_ifs with h
      · exact h.1
      · rfl
    | @fixed s' w' y =>
      have hroundTrip := Comparison.roundTrip_iff x y
      rw [← FixedWidth.toInt_inj, decide_eq_decide.2 FixedWidth.lt_zero_iff] at hroundTrip
      split_ifs with h
      · exact FixedWidth.toInt_ofInt (hroundTrip.1 h)
      · refine FixedWidth.toInt_ofInt ?_
        have hrep : ¬ Representable s w y.toInt := mt hroundTrip.2 h
        have hx := x.representable_toInt
        have hy := y.representable_toInt
        have h0 := representable_zero s w
        have h0' := representable_zero s' w'
        have hsigns' : x.toInt < 0 ↔ y.toInt < 0 := hsigns
        show Representable s' w' x.toInt
        unfold Representable at *
        omega

theorem lessThan_iff (lhs rhs : BinaryInteger) : lessThan lhs rhs = true ↔ lhs.toInt < rhs.toInt := by
  have hdiffer : (isNegative lhs != isNegative rhs) = true ↔ ¬ (lhs.toInt < 0 ↔ rhs.toInt < 0) := by
    rw [bne_iff_ne, ne_eq, Bool.eq_iff_iff, isNegative_iff, isNegative_iff]
  unfold lessThan
  by_cases hsigns : lhs.toInt < 0 ↔ rhs.toInt < 0
  · rw [if_neg (mt hdiffer.1 (not_not.2 hsigns))]
    by_cases hzero : lhs.toInt = 0 ∧ rhs.toInt = 0
    · rw [if_pos hzero, hzero.1, hzero.2]
      exact iff_of_false Bool.false_ne_true (lt_irrefl 0)
    · rw [if_neg hzero]
      have hback := roundTrip lhs rhs hsigns
      dsimp only
      split_ifs at hback ⊢ with h
      · rw [decide_eq_true_iff, hback]
      · rw [decide_eq_true_iff, hback]
  · rw [if_pos (hdiffer.2 hsigns), isNegative_iff]
    omega

end BinaryInteger

/-! ## The templates -/

open FixedWidthInteger

variable {α : Type} [FixedWidthInteger α]

/-- `-Self.bitWidth`, an `Int`. -/
def negatedBitWidth (α : Type) [FixedWidthInteger α] : Option (FixedWidth true 64) :=
  (FixedWidth.ofInt (bitWidth α) : FixedWidth true 64).negate

/-- The amount that `_nonMaskingRightShiftGeneric` and `_nonMaskingLeftShiftGeneric` pass on. -/
def clampedShift (α : Type) [FixedWidthInteger α] (rhs : BinaryInteger) : Option (FixedWidth true 64) := do
  let bound ← negatedBitWidth α
  let width : FixedWidth true 64 := FixedWidth.ofInt (bitWidth α)
  if rhs.lessThan (.fixed bound) then return bound
  else if BinaryInteger.lessThan (.fixed width) rhs then return width
  else FixedWidth.exactly rhs.toInt

/-- The template of `_nonMaskingRightShift` and `_nonMaskingLeftShift`. -/
def nonMaskingShift (isRightShift : Bool) (lhs : α) (rhs : FixedWidth true 64) : Option α := do
  let overshiftR ← (if isSigned α then maskingShift true lhs (truncatingIfNeeded (bitWidth α - 1))
    else some (truncatingIfNeeded 0) : Option α)
  let overshiftL : α := truncatingIfNeeded 0
  if 0 ≤ rhs.toInt then
    if rhs.toInt < bitWidth α then maskingShift isRightShift lhs (truncatingIfNeeded rhs.toInt)
    else return if isRightShift then overshiftR else overshiftL
  else do
    let bound ← negatedBitWidth α
    if rhs.toInt ≤ bound.toInt then return if isRightShift then overshiftL else overshiftR
    else do
      let amount ← rhs.negate
      maskingShift (!isRightShift) lhs (truncatingIfNeeded amount.toInt)

/-- The template of `>>` and `<<`. -/
def smartShift (isRightShift : Bool) (lhs : α) (rhs : BinaryInteger) : Option α := do
  let shift ← clampedShift α rhs
  nonMaskingShift isRightShift lhs shift

/-- `>>`. -/
def shiftedRight (lhs : α) (rhs : BinaryInteger) : Option α := smartShift true lhs rhs

/-- `<<`. -/
def shiftedLeft (lhs : α) (rhs : BinaryInteger) : Option α := smartShift false lhs rhs

/-! ## The numbers -/

def smartlyShifted (isRightShift : Bool) (x n : Int) : Int :=
  if 0 ≤ n then shiftedBy isRightShift x n.toNat else shiftedBy (!isRightShift) x (-n).toNat

theorem ediv_two_pow_of_lt {x : Int} {m : Nat} (h0 : -2 ^ m ≤ x) (h1 : x < 2 ^ m) : x / 2 ^ m = if x < 0 then -1 else 0 := by
  have hpow := two_pow_pos_int m
  split_ifs with hneg
  · rw [Int.ediv_eq_iff_of_pos hpow]
    omega
  · exact Int.ediv_eq_zero_of_lt (not_lt.1 hneg) h1

theorem ediv_overshift {s : Bool} {w n : Nat} {x : Int} (hw : 0 < w) (hx : Representable s w x) (hn : w ≤ n) :
    x / 2 ^ n = if s then x / 2 ^ (w - 1) else 0 := by
  have hpow : (2 : Int) ^ w ≤ 2 ^ n := by exact_mod_cast Nat.pow_le_pow_right Nat.two_pos hn
  cases s with
  | false =>
    rw [representable_unsigned] at hx
    rw [if_neg Bool.false_ne_true, Int.ediv_eq_zero_of_lt hx.1 (by omega)]
  | true =>
    obtain ⟨k, rfl⟩ := Nat.exists_eq_add_one.2 hw
    rw [representable_signed, pow_succ, Int.mul_ediv_cancel _ (by decide)] at hx
    rw [pow_succ] at hpow
    rw [if_pos rfl, Nat.add_sub_cancel, ediv_two_pow_of_lt (by omega) (by omega),
      ediv_two_pow_of_lt (by omega) (by omega)]

theorem mul_overshift {w n : Nat} (x : Int) (hn : w ≤ n) : x * 2 ^ n % 2 ^ w = 0 := by
  obtain ⟨k, rfl⟩ := Nat.exists_eq_add_of_le hn
  rw [pow_add, mul_left_comm]
  exact Int.mul_emod_right _ _

variable [LawfulFixedWidthInteger α]

open LawfulFixedWidthInteger

theorem toInt_amount {n : Int} (h0 : 0 ≤ n) (h1 : n < bitWidth α) : toInt (truncatingIfNeeded n : α) = n := by
  obtain ⟨k, hk⟩ := Nat.exists_eq_add_one.2 (bitWidth_pos (α := α))
  have hlt : (k : Int) < 2 ^ k := by exact_mod_cast Nat.lt_two_pow_self
  have hn : Representable (isSigned α) (bitWidth α) n := by
    rw [hk] at h1 ⊢
    push_cast at h1
    cases isSigned α with
    | false =>
      rw [representable_unsigned, pow_succ]
      omega
    | true =>
      rw [representable_signed, pow_succ, Int.mul_ediv_cancel _ (by decide)]
      omega
  exact (representable_toInt _).eq_of_emod hn (toInt_truncatingIfNeeded n)

theorem toInt_bitWidth : (FixedWidth.ofInt (bitWidth α) : FixedWidth true 64).toInt = bitWidth α := by
  have hlt := bitWidth_lt (α := α)
  refine FixedWidth.toInt_ofInt (representable_signed.2 ?_)
  omega

theorem negatedBitWidth_eq (α : Type) [FixedWidthInteger α] [LawfulFixedWidthInteger α] :
    ∃ bound, negatedBitWidth α = some bound ∧ bound.toInt = -bitWidth α := by
  have hlt := bitWidth_lt (α := α)
  have hrep : Representable true 64 (-(bitWidth α : Int)) := representable_signed.2 (by omega)
  refine ⟨_, ?_, FixedWidth.toInt_ofInt hrep⟩
  rw [negatedBitWidth, FixedWidth.negate, toInt_bitWidth, FixedWidth.exactly_eq_some hrep]

theorem clampedShift_eq (α : Type) [FixedWidthInteger α] [LawfulFixedWidthInteger α] (n : BinaryInteger) :
    ∃ shift, clampedShift α n = some shift ∧
      (n.toInt < -bitWidth α ∧ shift.toInt = -bitWidth α ∨ bitWidth α < n.toInt ∧ shift.toInt = bitWidth α ∨
        -bitWidth α ≤ n.toInt ∧ n.toInt ≤ bitWidth α ∧ shift.toInt = n.toInt) := by
  obtain ⟨bound, hbound, hvalue⟩ := negatedBitWidth_eq α
  have hlt := bitWidth_lt (α := α)
  have hlow : n.lessThan (.fixed bound) = true ↔ n.toInt < -bitWidth α := by
    rw [BinaryInteger.lessThan_iff, ← hvalue]
    rfl
  have hhigh : BinaryInteger.lessThan (.fixed (FixedWidth.ofInt (bitWidth α) : FixedWidth true 64)) n = true ↔
      bitWidth α < n.toInt := by
    rw [BinaryInteger.lessThan_iff]
    show (FixedWidth.ofInt (bitWidth α) : FixedWidth true 64).toInt < n.toInt ↔ _
    rw [toInt_bitWidth]
  unfold clampedShift
  rw [hbound, Option.bind_eq_bind, Option.bind_some]
  dsimp only
  split_ifs with h1 h2
  · exact ⟨bound, rfl, .inl ⟨hlow.1 h1, hvalue⟩⟩
  · exact ⟨_, rfl, .inr (.inl ⟨hhigh.1 h2, toInt_bitWidth⟩)⟩
  · rw [hlow] at h1
    rw [hhigh] at h2
    have hrep : Representable true 64 n.toInt := representable_signed.2 (by omega)
    exact ⟨_, FixedWidth.exactly_eq_some hrep,
      .inr (.inr ⟨not_lt.1 h1, not_lt.1 h2, FixedWidth.toInt_ofInt hrep⟩)⟩

theorem overshiftR_eq (lhs : α) : ∃ r, (if isSigned α then maskingShift true lhs (truncatingIfNeeded (bitWidth α - 1))
    else some (truncatingIfNeeded 0) : Option α) = some r ∧
    ∀ n : Nat, bitWidth α ≤ n → toInt r % 2 ^ bitWidth α = shiftedBy true (toInt lhs) n % 2 ^ bitWidth α := by
  have hpos := bitWidth_pos (α := α)
  have hoverflow := fun n => ediv_overshift (n := n) hpos (representable_toInt lhs)
  cases hs : isSigned α with
  | false =>
    refine ⟨_, rfl, fun n hn => ?_⟩
    rw [toInt_truncatingIfNeeded, shiftedBy, if_pos rfl, hoverflow n hn, hs]
    rfl
  | true =>
    have hamount : toInt (truncatingIfNeeded (bitWidth α - 1) : α) = bitWidth α - 1 := toInt_amount (by omega) (by omega)
    obtain ⟨r, hr, hvalue⟩ := maskingShift_eq true lhs (truncatingIfNeeded (bitWidth α - 1)) (by omega) (by omega)
    refine ⟨r, hr, fun n hn => ?_⟩
    rw [hvalue, shiftedBy, shiftedBy, if_pos rfl, if_pos rfl, hoverflow n hn, hs, hamount]
    have hnat : (bitWidth α - 1 : Int).toNat = bitWidth α - 1 := by omega
    rw [hnat]
    rfl

theorem nonMaskingShift_eq (isRightShift : Bool) (lhs : α) (rhs : FixedWidth true 64) :
    ∃ r, nonMaskingShift isRightShift lhs rhs = some r ∧ ∀ n : Int,
      (rhs.toInt = n ∨ bitWidth α ≤ rhs.toInt ∧ bitWidth α ≤ n ∨ rhs.toInt ≤ -bitWidth α ∧ n ≤ -bitWidth α) →
      toInt r % 2 ^ bitWidth α = smartlyShifted isRightShift (toInt lhs) n % 2 ^ bitWidth α := by
  obtain ⟨overshiftR, hovershiftR, hright⟩ := overshiftR_eq lhs
  obtain ⟨bound, hbound, hvalue⟩ := negatedBitWidth_eq α
  have hpos := bitWidth_pos (α := α)
  have hleft : ∀ n : Nat, bitWidth α ≤ n →
      toInt (truncatingIfNeeded 0 : α) % 2 ^ bitWidth α = shiftedBy false (toInt lhs) n % 2 ^ bitWidth α := by
    intro n hn
    rw [toInt_truncatingIfNeeded, shiftedBy, if_neg Bool.false_ne_true, mul_overshift _ hn, Int.zero_emod]
  -- either overshift, by the direction
  have hovershift : ∀ (right : Bool) (n : Nat), bitWidth α ≤ n →
      toInt (if right then overshiftR else truncatingIfNeeded 0 : α) % 2 ^ bitWidth α =
        shiftedBy right (toInt lhs) n % 2 ^ bitWidth α := by
    intro right n hn
    cases right
    · exact hleft n hn
    · exact hright n hn
  have hmasked : ∀ (right : Bool) (n : Int), 0 ≤ n → n < bitWidth α →
      ∃ r, maskingShift right lhs (truncatingIfNeeded n) = some r ∧
        toInt r % 2 ^ bitWidth α = shiftedBy right (toInt lhs) n.toNat % 2 ^ bitWidth α := by
    intro right n h0 h1
    have hshift := maskingShift_eq right lhs (truncatingIfNeeded n)
    rw [toInt_amount h0 h1] at hshift
    exact hshift h0 h1
  unfold nonMaskingShift
  rw [hovershiftR, Option.bind_eq_bind, Option.bind_some]
  dsimp only
  by_cases h0 : 0 ≤ rhs.toInt
  · rw [if_pos h0]
    by_cases h1 : rhs.toInt < bitWidth α
    · obtain ⟨r, hr, heq⟩ := hmasked isRightShift rhs.toInt h0 h1
      refine ⟨r, (if_pos h1).trans hr, fun n hn => ?_⟩
      obtain rfl : rhs.toInt = n := by omega
      rw [heq, smartlyShifted, if_pos h0]
    · refine ⟨_, if_neg h1, fun n hn => ?_⟩
      have hn0 : 0 ≤ n := by omega
      rw [smartlyShifted, if_pos hn0]
      exact hovershift isRightShift _ (by omega)
  · rw [if_neg h0, hbound, Option.bind_eq_bind, Option.bind_some]
    by_cases h1 : rhs.toInt ≤ bound.toInt
    · refine ⟨_, if_pos h1, fun n hn => ?_⟩
      have hn0 : ¬ 0 ≤ n := by omega
      have hside : (if isRightShift then truncatingIfNeeded 0 else overshiftR : α) =
          if !isRightShift then overshiftR else truncatingIfNeeded 0 := by cases isRightShift <;> rfl
      rw [smartlyShifted, if_neg hn0, hside]
      exact hovershift (!isRightShift) _ (by omega)
    · have hlt := bitWidth_lt (α := α)
      have hrep : Representable true 64 (-rhs.toInt) := representable_signed.2 (by omega)
      have hamount : (FixedWidth.ofInt (-rhs.toInt) : FixedWidth true 64).toInt = -rhs.toInt := FixedWidth.toInt_ofInt hrep
      obtain ⟨r, hr, heq⟩ := hmasked (!isRightShift) (-rhs.toInt) (by omega) (by omega)
      rw [if_neg h1, FixedWidth.negate, FixedWidth.exactly_eq_some hrep, Option.bind_some, hamount]
      refine ⟨r, hr, fun n hn => ?_⟩
      obtain rfl : rhs.toInt = n := by omega
      rw [heq, smartlyShifted, if_neg h0]

theorem smartShift_eq (isRightShift : Bool) (lhs : α) (rhs : BinaryInteger) :
    ∃ r, smartShift isRightShift lhs rhs = some r ∧
      toInt r % 2 ^ bitWidth α = smartlyShifted isRightShift (toInt lhs) rhs.toInt % 2 ^ bitWidth α := by
  obtain ⟨shift, hshift, hvalue⟩ := clampedShift_eq α rhs
  obtain ⟨r, hr, heq⟩ := nonMaskingShift_eq isRightShift lhs shift
  refine ⟨r, ?_, heq rhs.toInt (by omega)⟩
  rw [smartShift, hshift, Option.bind_eq_bind, Option.bind_some, hr]

theorem toInt_eq_ediv {r x : α} {n : Nat} (h : toInt r % 2 ^ bitWidth α = shiftedBy true (toInt x) n % 2 ^ bitWidth α) :
    toInt r = toInt x / 2 ^ n :=
  (representable_toInt r).eq_of_emod ((representable_toInt x).ediv_two_pow n) h

theorem smartShifts_exact (x : α) (n : BinaryInteger) :
    ∃ l r, shiftedLeft x n = some l ∧ shiftedRight x n = some r ∧
      (0 ≤ n.toInt → toInt l % 2 ^ bitWidth α = toInt x * 2 ^ n.toInt.toNat % 2 ^ bitWidth α ∧
        toInt r = toInt x / 2 ^ n.toInt.toNat) ∧
      (n.toInt < 0 → toInt l = toInt x / 2 ^ (-n.toInt).toNat ∧
        toInt r % 2 ^ bitWidth α = toInt x * 2 ^ (-n.toInt).toNat % 2 ^ bitWidth α) := by
  obtain ⟨l, hl, hleft⟩ := smartShift_eq false x n
  obtain ⟨r, hr, hright⟩ := smartShift_eq true x n
  refine ⟨l, r, hl, hr, fun hn => ?_, fun hn => ?_⟩
  · rw [smartlyShifted, if_pos hn] at hleft hright
    exact ⟨hleft, toInt_eq_ediv hright⟩
  · rw [smartlyShifted, if_neg (not_le.2 hn)] at hleft hright
    exact ⟨toInt_eq_ediv hleft, hright⟩

/-- `-3` by `-2`, of a type with no width. -/
theorem smartShifts_exact_neg_two : LawfulFixedWidthInteger (FixedWidth true 8) ∧
    ∃ l r : FixedWidth true 8, shiftedLeft (FixedWidth.ofInt (-3) : FixedWidth true 8) (.unbounded (-2)) = some l ∧
      shiftedRight (FixedWidth.ofInt (-3) : FixedWidth true 8) (.unbounded (-2)) = some r ∧ l.toInt = -1 ∧
      r.toInt % 2 ^ 8 = -12 % 2 ^ 8 := by
  have hlawful : LawfulFixedWidthInteger (FixedWidth true 8) := lawful_fixedWidth (by decide) (by decide)
  obtain ⟨l, r, hl, hr, -, hneg⟩ := smartShifts_exact (FixedWidth.ofInt (-3) : FixedWidth true 8) (.unbounded (-2))
  obtain ⟨hleft, hright⟩ := hneg (by decide)
  exact ⟨hlawful, l, r, hl, hr, hleft.trans (by decide), hright.trans (by decide)⟩

end SwiftKStdlib.Integers
