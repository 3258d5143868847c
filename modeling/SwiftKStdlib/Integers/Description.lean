import Mathlib
import SwiftKStdlib.Integers.IntegerParsing

/-!
# Integers as text

* `uint64ToStringImpl`, `integerToString`, `stringInit` : what `String(_:radix:uppercase:)` computes;
* `description` : the decimal text, with a loop of its own for wide types;
* `numeral` : the text of a number, whatever type it is a value of;
* `stringInit_roundTrip`, `description_eq` : every path gives the numeral, which is read back.
-/

namespace SwiftKStdlib.Integers

open Lib IntegerParsing

variable {s : Bool} {w : Nat}

def ascii8 (ch : Char) : BitVec 8 := .ofNat 8 (ascii16 ch)

/-- The loops over a magnitude, with the number of iterations that are left; `next` gives the quotient and
the digit of the remainder. -/
def digitLoop (next : FixedWidth false w → Option (FixedWidth false w × BitVec 8)) :
    Nat → FixedWidth false w → List (BitVec 8) → Option (List (BitVec 8))
  | 0, _, _ => none
  | fuel + 1, value, result =>
    if value.toInt = 0 then some result
    else do
      let (q, digit) ← next value
      digitLoop next fuel q (result ++ [digit])

/-- What `llvm::hexdigit` is called with: the digit, and whether letters are in lower case. -/
abbrev Hexdigit := BitVec 32 → Bool → BitVec 8

/-- The loops of `uint64ToStringImpl`: the digits, the last one first; `none` if a loop does not end. -/
def uint64Digits (hexdigit : Hexdigit) (value : FixedWidth false 64) (radix : Int) (uppercase : Bool) :
    Option (List (BitVec 8)) :=
  let radix32 := radix % 2 ^ 32
  if value.toInt = 0 then some [ascii8 '0']
  else if radix = 10 then
    digitLoop (fun y => some (.ofInt (y.toInt / 10), ascii8 '0' + .ofInt 8 (y.toInt % 10))) 65 value []
  else
    digitLoop (fun y => if radix32 = 0 then none
      else some (.ofInt (y.toInt / radix32), hexdigit (.ofInt 32 (y.toInt % radix32)) (!uppercase))) 65 value []

/-- `capacity` is the length of the buffer, and `none` that more is written. -/
def uint64ToStringImpl (hexdigit : Hexdigit) (capacity : Nat) (value : FixedWidth false 64) (radix : Int)
    (uppercase negative : Bool) : Option (List (BitVec 8)) := do
  let digits ← uint64Digits hexdigit value radix uppercase
  let buffer := if negative then digits ++ [ascii8 '-'] else digits
  -- the bytes are written one behind the other, so all have room if the last one has
  if buffer.length ≤ capacity then some buffer.reverse else none

/-- `swift_int64ToString`; `none` is a crash. -/
def swiftInt64ToString (hexdigit : Hexdigit) (bufferLength : Nat) (value : FixedWidth true 64) (radix : Int)
    (uppercase : Bool) : Option (List (BitVec 8)) :=
  if (10 ≤ radix ∧ bufferLength < 32) ∨ (radix < 10 ∧ bufferLength < 65) then none
  else if radix = 0 ∨ 36 < radix then none
  else
    let unsignedValue : FixedWidth false 64 := value.truncating
    if value < 0 then uint64ToStringImpl hexdigit bufferLength ((~~~unsignedValue).maskingAdd 1) radix uppercase true
    else uint64ToStringImpl hexdigit bufferLength unsignedValue radix uppercase false

/-- `swift_uint64ToString`. -/
def swiftUint64ToString (hexdigit : Hexdigit) (bufferLength : Nat) (value : FixedWidth false 64) (radix : Int)
    (uppercase : Bool) : Option (List (BitVec 8)) :=
  if (10 ≤ radix ∧ bufferLength < 32) ∨ (radix < 10 ∧ bufferLength < 64) then none
  else if radix = 0 ∨ 36 < radix then none
  else uint64ToStringImpl hexdigit bufferLength value radix uppercase false

/-- `_int64ToString`, with a `_Buffer32` or a `_Buffer72`. -/
def int64ToString (hexdigit : Hexdigit) (value : FixedWidth true 64) (radix : Int) (uppercase : Bool) :=
  if 10 ≤ radix then swiftInt64ToString hexdigit 32 value radix uppercase
  else swiftInt64ToString hexdigit 72 value radix uppercase

/-- `_uint64ToString`. -/
def uint64ToString (hexdigit : Hexdigit) (value : FixedWidth false 64) (radix : Int) (uppercase : Bool) :=
  if 10 ≤ radix then swiftUint64ToString hexdigit 32 value radix uppercase
  else swiftUint64ToString hexdigit 72 value radix uppercase

def digitASCII (digit : BitVec 8) (numeralsOnly uppercase : Bool) : BitVec 8 :=
  if numeralsOnly ∨ digit < 10 then ascii8 '0' + digit
  else (if uppercase then ascii8 'A' else ascii8 'a') - 10 + digit

/-- The closure of `_integerToString`; `ctz` is `trailingZeroBitCount`. -/
def quotientAndRemainder (radixIsPowerOfTwo : Bool) (radix value : FixedWidth false w) :
    Option (FixedWidth false w × FixedWidth false w) :=
  if radixIsPowerOfTwo then do
    some (value.maskingShiftRight (.ofInt radix.bits.ctz.toNat), value &&& (← radix.subtract 1))
  else if radix.toInt = 0 then none
  else some (.ofInt (value.toInt / radix.toInt), .ofInt (value.toInt % radix.toInt))

/-- `_integerToString`; `cpop` is `nonzeroBitCount`. -/
def integerToString (value : FixedWidth s w) (radix : Int) (uppercase : Bool) : Option (List (BitVec 8)) :=
  if value.toInt = 0 then some [ascii8 '0']
  else do
    let radixIsPowerOfTwo := decide ((BitVec.ofInt 64 radix).cpop = 1)
    let radix : FixedWidth false w ← FixedWidth.exactly radix
    let isNegative := s && value < 0
    let digits ← digitLoop (fun value => do
      let (q, r) ← quotientAndRemainder radixIsPowerOfTwo radix value
      some (q, digitASCII (.ofInt 8 r.toInt) (radix.toInt ≤ 10) uppercase)) (w + 1) value.magnitude []
    some (if isNegative then digits ++ [ascii8 '-'] else digits).reverse

/-- `String.init(_:radix:uppercase:)`; the overload for unsigned types does the same. -/
def stringInit (hexdigit : Hexdigit) (value : FixedWidth s w) (radix : Int) (uppercase : Bool) :
    Option (List (BitVec 8)) :=
  if 2 ≤ radix ∧ radix ≤ 36 then
    if w ≤ 64 then
      if s then do int64ToString hexdigit (← FixedWidth.exactly value.toInt) radix uppercase
      else do uint64ToString hexdigit (← FixedWidth.exactly value.toInt) radix uppercase
    else integerToString value radix uppercase
  else none

/-- `UnsignedInteger.description`, with `renderNonZeroDescription`. -/
def unsignedDescription (hexdigit : Hexdigit) (wordBits : Nat) (value : FixedWidth false w) :
    Option (List (BitVec 8)) :=
  if w ≤ wordBits then uint64ToString hexdigit value.truncating 10 false
  else if value.toInt = 0 then some [ascii8 '0']
  else
    (digitLoop (fun x => some (.ofInt (x.toInt / 10), .ofInt 8 (ascii16 '0' + x.toInt % 10))) (w + 1) value []).map
      List.reverse

/-- `description`; `wordBits` is the width of `Int`. -/
def description (hexdigit : Hexdigit) (wordBits : Nat) (value : FixedWidth s w) : Option (List (BitVec 8)) :=
  if s then
    if w ≤ wordBits then int64ToString hexdigit value.truncating 10 false
    else (unsignedDescription hexdigit wordBits value.magnitude).map fun base =>
      if value < 0 then ascii8 '-' :: base else base
  else unsignedDescription hexdigit wordBits (⟨value.bits⟩ : FixedWidth false w)

/-! ## The text of a number -/

/-- The code of a digit; letters stand for those from ten on. -/
def digitCode (uppercase : Bool) (d : Nat) : BitVec 8 :=
  .ofNat 8 (if d < 10 then 48 + d else (if uppercase then 65 else 97) + (d - 10))

/-- The digits without leading zeros, behind a minus sign if the number is negative. -/
def numeral (radix : Nat) (uppercase : Bool) (n : Int) : List (BitVec 8) :=
  (if n < 0 then [ascii8 '-'] else []) ++
    if n = 0 then [ascii8 '0'] else ((Nat.digits radix n.natAbs).map (digitCode uppercase)).reverse

theorem toNat_digitCode (uppercase : Bool) {d : Nat} (hd : d < 36) : (digitCode uppercase d).toNat =
    if d < 10 then 48 + d else (if uppercase then 65 else 97) + (d - 10) := by
  refine Nat.mod_eq_of_lt ?_
  split_ifs <;> omega

theorem isDigit_digitCode {r d : Nat} (hr : r ≤ 36) (hd : d < r) (uppercase : Bool) :
    IsDigit r (digitCode uppercase d) d := by
  obtain ⟨h0, -, hA, -, ha, -, -, -⟩ := ascii16_chars
  rw [IsDigit, toNat_digitCode uppercase (hd.trans_le hr), h0, hA, ha]
  split_ifs <;> omega

theorem denotes_numeral {r : Nat} (h2 : 2 ≤ r) (hr : r ≤ 36) (uppercase : Bool) (n : Int) :
    Denotes r (numeral r uppercase n) n := by
  have hdigits : DenotesDigits r
      (if n = 0 then [ascii8 '0'] else ((Nat.digits r n.natAbs).map (digitCode uppercase)).reverse) n.natAbs := by
    by_cases hn : n = 0
    · rw [if_pos hn, hn]
      exact ⟨[0], List.cons_ne_nil _ _, .cons (isDigit_digitCode hr (by omega) uppercase) .nil, rfl⟩
    · rw [if_neg hn]
      refine ⟨(Nat.digits r n.natAbs).reverse, ?_, List.forall₂_reverse_iff.2 ?_, ?_⟩
      · rw [Ne, List.reverse_eq_nil_iff, List.map_eq_nil_iff, Nat.digits_eq_nil_iff_eq_zero]
        exact Int.natAbs_ne_zero.2 hn
      · rw [List.forall₂_map_left_iff, List.forall₂_same]
        exact fun d hd => isDigit_digitCode hr (Nat.digits_lt_base (by omega) hd) uppercase
      · rw [List.reverse_reverse, Nat.ofDigits_digits]
  unfold numeral
  by_cases hneg : n < 0
  · rw [if_pos hneg]
    exact .inr ⟨_, _, rfl, _, hdigits, .inr ⟨rfl, by omega⟩⟩
  · rw [if_neg hneg]
    exact .inl ⟨_, hdigits, by omega⟩

/-! ## The loops -/

theorem digitLoop_eq {next : FixedWidth false w → Option (FixedWidth false w × BitVec 8)} {r : Nat} (hr : 1 < r)
    (uppercase : Bool) (hnext : ∀ y : FixedWidth false w, next y =
      some (.ofInt (y.toInt / r), digitCode uppercase (y.toInt.toNat % r))) {k : Nat} {value : FixedWidth false w}
    (hk : value.toInt < 2 ^ k) (result : List (BitVec 8)) : digitLoop next (k + 1) value result =
      some (result ++ (Nat.digits r value.toInt.toNat).map (digitCode uppercase)) := by
  have hnonneg : ∀ y : FixedWidth false w, 0 ≤ y.toInt := fun y => (representable_unsigned.1 y.representable_toInt).1
  induction k generalizing value result with
  | zero =>
      have hzero : value.toInt = 0 := le_antisymm (Int.lt_add_one_iff.1 hk) (hnonneg value)
      rw [digitLoop, if_pos hzero, hzero, Int.toNat_zero, Nat.digits_zero, List.map_nil, List.append_nil]
  | succ k ih =>
      rw [digitLoop]
      by_cases hzero : value.toInt = 0
      · rw [if_pos hzero, hzero, Int.toNat_zero, Nat.digits_zero, List.map_nil, List.append_nil]
      · obtain ⟨n, hn⟩ := Int.eq_ofNat_of_zero_le (hnonneg value)
        have hrep := representable_unsigned.1 value.representable_toInt
        have hle : n / r ≤ n := Nat.div_le_self n r
        have hq : (FixedWidth.ofInt (value.toInt / r) : FixedWidth false w).toInt = (n / r : Nat) := by
          rw [hn, ← Int.natCast_ediv]
          exact FixedWidth.toInt_ofInt (representable_unsigned.2 ⟨Int.natCast_nonneg _, by omega⟩)
        have hlt : (n / r : Nat) < 2 ^ k := by
          have hn' : n < 2 ^ k * 2 := by exact_mod_cast (by rw [← hn, ← pow_succ]; exact hk : (n : Int) < 2 ^ k * 2)
          exact Nat.div_lt_of_lt_mul (hn'.trans_le (by rw [Nat.mul_comm]; exact Nat.mul_le_mul_right _ hr))
        rw [if_neg hzero, hnext, Option.bind_eq_bind, Option.bind_some]
        dsimp only
        rw [ih (by rw [hq]; exact_mod_cast hlt), hq, hn, Int.toNat_natCast, Int.toNat_natCast,
          Nat.digits_def' hr (show 0 < n by omega), List.map_cons, List.append_assoc, List.singleton_append]

theorem numeral_natCast (r : Nat) (uppercase : Bool) (n : Nat) : numeral r uppercase n =
    if n = 0 then [ascii8 '0'] else ((Nat.digits r n).map (digitCode uppercase)).reverse := by
  simp [numeral]

theorem length_numeral_le {r n k : Nat} (hr : 1 < r) (hn : n < r ^ k) (hk : 0 < k) (uppercase : Bool) :
    (numeral r uppercase n).length ≤ k := by
  rw [numeral_natCast]
  split_ifs
  · exact hk
  · rw [List.length_reverse, List.length_map]
    exact (Nat.digits_length_le_iff hr n).2 hn

theorem numeral_eq (r : Nat) (uppercase : Bool) (n : Int) :
    numeral r uppercase n = (if n < 0 then [ascii8 '-'] else []) ++ numeral r uppercase |n| := by
  rw [numeral, numeral, if_neg (not_lt.2 (abs_nonneg n)), List.nil_append, Int.natAbs_abs]
  simp only [abs_eq_zero]

section

variable {hexdigit : Hexdigit} {radix : Int}

/-- `llvm::hexdigit` goes on with the letters after `F`. -/
def Hexdigit.Spells (hexdigit : Hexdigit) : Prop :=
  ∀ d < 36, ∀ lowerCase, hexdigit (.ofNat 32 d) lowerCase = digitCode (!lowerCase) d

theorem uint64Digits_eq (hhex : hexdigit.Spells) (hr : 2 ≤ radix ∧ radix ≤ 36) (value : FixedWidth false 64)
    (uppercase : Bool) : uint64Digits hexdigit value radix uppercase =
      some (numeral radix.toNat uppercase value.toInt).reverse := by
  obtain ⟨r, rfl⟩ := Int.eq_ofNat_of_zero_le (show 0 ≤ radix by omega)
  have hnat : ∀ y : FixedWidth false 64, y.toInt.toNat = y.toInt := fun y =>
    Int.toNat_of_nonneg (representable_unsigned.1 y.representable_toInt).1
  have hlt : value.toInt < 2 ^ 64 := (representable_unsigned.1 value.representable_toInt).2
  rw [← hnat value, numeral_natCast, uint64Digits]
  by_cases hzero : value.toInt = 0
  · rw [if_pos hzero, if_pos (show value.toInt.toNat = 0 by rw [hzero]; rfl)]
    rfl
  · have hpos : value.toInt.toNat ≠ 0 := fun h => hzero (by rw [← hnat value, h]; rfl)
    rw [if_neg hzero, if_neg hpos, List.reverse_reverse, Int.toNat_natCast]
    by_cases h10 : (r : Int) = 10
    · obtain rfl : r = 10 := by omega
      have hdigit : ∀ d < 10, ∀ uppercase, ascii8 '0' + BitVec.ofNat 8 d = digitCode uppercase d := by decide
      rw [if_pos h10, digitLoop_eq (r := 10) (by decide) uppercase (fun y => ?_) hlt, List.nil_append]
      rw [← hdigit _ (Nat.mod_lt _ (by decide)), ← BitVec.ofInt_natCast, Int.natCast_mod, hnat]
      rfl
    · have hmod : (r : Int) % 2 ^ 32 = r := Int.emod_eq_of_lt (by omega) (by omega)
      rw [if_neg h10, hmod, digitLoop_eq (r := r) (by omega) uppercase (fun y => ?_) hlt, List.nil_append]
      have hdigit := hhex (y.toInt.toNat % r) ((Nat.mod_lt _ (by omega)).trans_le (by omega)) (!uppercase)
      rw [Bool.not_not, ← BitVec.ofInt_natCast, Int.natCast_mod, hnat] at hdigit
      rw [if_neg (by omega), hdigit]

theorem uint64ToStringImpl_eq (hhex : hexdigit.Spells) (hr : 2 ≤ radix ∧ radix ≤ 36) {capacity : Nat}
    (hcapacity : (if 10 ≤ radix then 20 else 64) < capacity) (value : FixedWidth false 64) (uppercase negative : Bool) :
    uint64ToStringImpl hexdigit capacity value radix uppercase negative =
      some ((if negative then [ascii8 '-'] else []) ++ numeral radix.toNat uppercase value.toInt) := by
  have hlength : (numeral radix.toNat uppercase value.toInt).length < capacity := by
    obtain ⟨hnonneg, hlt⟩ := representable_unsigned.1 value.representable_toInt
    rw [← Int.toNat_of_nonneg hnonneg]
    refine (length_numeral_le (k := if 10 ≤ radix then 20 else 64) (by omega) ?_ ?_ uppercase).trans_lt hcapacity
    · split_ifs with h10
      · exact (show value.toInt.toNat < 10 ^ 20 by omega).trans_le (Nat.pow_le_pow_left (by omega) 20)
      · exact (show value.toInt.toNat < 2 ^ 64 by omega).trans_le (Nat.pow_le_pow_left (by omega) 64)
    · split_ifs <;> decide
  rw [uint64ToStringImpl, uint64Digits_eq hhex hr, Option.bind_eq_bind, Option.bind_some]
  cases negative with
  | false =>
      refine (if_pos ?_).trans (congrArg some (List.reverse_reverse _))
      exact (List.length_reverse.trans_lt hlength).le
  | true =>
      refine (if_pos ?_).trans (congrArg some (by rw [if_pos rfl, List.reverse_append, List.reverse_reverse]; rfl))
      rw [if_pos rfl, List.length_append, List.length_reverse]
      exact hlength

theorem toInt_unsignedValue (value : FixedWidth true 64) : value.toInt < 0 →
    ((~~~(value.truncating : FixedWidth false 64)).maskingAdd 1).toInt = |value.toInt| := fun hneg => by
  have hrep := representable_signed.1 value.representable_toInt
  have hvalue : (value.truncating : FixedWidth false 64).toInt = value.toInt + 2 ^ 64 :=
    FixedWidth.toInt_ofInt_of_emod (representable_unsigned.2 (by omega)) (Int.add_emod_right _ _).symm
  have hone : (1 : FixedWidth false 64).toInt = 1 := by decide
  rw [FixedWidth.maskingAdd, FixedWidth.toInt_complement, hvalue, hone, abs_of_neg hneg]
  rw [show 2 ^ 64 - 1 - (value.toInt + 2 ^ 64) + 1 = -value.toInt by ring]
  exact FixedWidth.toInt_ofInt (representable_unsigned.2 (by omega))

theorem swiftInt64ToString_eq (hhex : hexdigit.Spells) (hr : 2 ≤ radix ∧ radix ≤ 36) {bufferLength : Nat}
    (hlength : (if 10 ≤ radix then 32 else 65) ≤ bufferLength) (value : FixedWidth true 64) (uppercase : Bool) :
    swiftInt64ToString hexdigit bufferLength value radix uppercase = some (numeral radix.toNat uppercase value.toInt) := by
  have hcapacity : (if 10 ≤ radix then 20 else 64) < bufferLength := by split_ifs at hlength ⊢ <;> omega
  rw [swiftInt64ToString, if_neg (by split_ifs at hlength <;> omega), if_neg (by omega), numeral_eq]
  by_cases hneg : value < 0
  · have hneg' := FixedWidth.lt_zero_iff.1 hneg
    rw [if_pos hneg, uint64ToStringImpl_eq hhex hr hcapacity, toInt_unsignedValue value hneg', if_pos rfl, if_pos hneg']
  · have hnonneg : 0 ≤ value.toInt := not_lt.1 (mt FixedWidth.lt_zero_iff.2 hneg)
    have hvalue : (value.truncating : FixedWidth false 64).toInt = |value.toInt| := by
      have hrep := representable_signed.1 value.representable_toInt
      rw [abs_of_nonneg hnonneg]
      exact FixedWidth.toInt_ofInt (representable_unsigned.2 (by omega))
    rw [if_neg hneg, uint64ToStringImpl_eq hhex hr hcapacity, hvalue, if_neg Bool.false_ne_true, if_neg (not_lt.2 hnonneg)]

theorem int64ToString_eq (hhex : hexdigit.Spells) (hr : 2 ≤ radix ∧ radix ≤ 36) (value : FixedWidth true 64)
    (uppercase : Bool) : int64ToString hexdigit value radix uppercase =
      some (numeral radix.toNat uppercase value.toInt) := by
  unfold int64ToString
  split_ifs with h10
  · exact swiftInt64ToString_eq hhex hr (by rw [if_pos h10]) value uppercase
  · exact swiftInt64ToString_eq hhex hr (by rw [if_neg h10]; decide) value uppercase

theorem uint64ToString_eq (hhex : hexdigit.Spells) (hr : 2 ≤ radix ∧ radix ≤ 36) (value : FixedWidth false 64)
    (uppercase : Bool) : uint64ToString hexdigit value radix uppercase =
      some (numeral radix.toNat uppercase value.toInt) := by
  unfold uint64ToString
  split_ifs with h10
  · rw [swiftUint64ToString, if_neg (by omega), if_neg (by omega),
      uint64ToStringImpl_eq hhex hr (by rw [if_pos h10]; decide)]
    rfl
  · rw [swiftUint64ToString, if_neg (by omega), if_neg (by omega),
      uint64ToStringImpl_eq hhex hr (by rw [if_neg h10]; decide)]
    rfl

/-! ## Wide types -/

theorem digitASCII_eq {d : Nat} (hd : d < 36) {numeralsOnly : Bool} (h : numeralsOnly = true → d < 10) (uppercase : Bool) :
    digitASCII (.ofNat 8 d) numeralsOnly uppercase = digitCode uppercase d := by
  have hall : ∀ d < 36, ∀ numeralsOnly uppercase, (numeralsOnly = true → d < 10) →
      digitASCII (.ofNat 8 d) numeralsOnly uppercase = digitCode uppercase d := by decide +kernel
  exact hall d hd numeralsOnly uppercase h

theorem quotientAndRemainder_eq (hw : 64 < w) {r : Nat} (hr : 2 ≤ r ∧ r ≤ 36) {x : FixedWidth false w} (hx : x.toInt = r)
    (value : FixedWidth false w) : quotientAndRemainder (decide ((BitVec.ofInt 64 r).cpop = 1)) x value =
      some (.ofInt (value.toInt / r), .ofInt (value.toInt % r)) := by
  have hpowers : ∀ r ≤ 36, 2 ≤ r → (BitVec.ofInt 64 (r : Nat)).cpop = 1 → ∃ k < 6, r = 2 ^ k := by decide +kernel
  by_cases hcpop : (BitVec.ofInt 64 r).cpop = 1
  · obtain ⟨k, hk, rfl⟩ := hpowers r hr.2 hr.1 hcpop
    have hbits : x.bits.toNat = 2 ^ k := by
      rw [FixedWidth.toInt_unsigned] at hx
      exact_mod_cast hx
    have hctz : x.bits.ctz.toNat = k := by
      have hne : x.bits ≠ 0#w := fun h => by
        rw [h] at hbits
        exact (Nat.two_pow_pos k).ne hbits
      have htrue := BitVec.getLsbD_true_ctz_of_ne_zero hne
      rw [← BitVec.testBit_toNat, hbits, Nat.testBit_two_pow] at htrue
      exact (of_decide_eq_true htrue).symm
    have hkw : 2 ^ k < 2 ^ w := Nat.pow_lt_pow_right (by decide) (by omega)
    have hrep : ∀ n : Nat, n ≤ 2 ^ k → Representable false w n := fun n hn =>
      representable_unsigned.2 ⟨Int.natCast_nonneg n, by exact_mod_cast hn.trans_lt hkw⟩
    have hpos := Nat.two_pow_pos k
    have hamount : (FixedWidth.ofInt k : FixedWidth false w).maskedAmount = k := by
      rw [FixedWidth.maskedAmount, FixedWidth.toInt_ofInt (hrep k Nat.lt_two_pow_self.le),
        Int.emod_eq_of_lt (Int.natCast_nonneg k) (by omega), Int.toNat_natCast]
    have hone : x.subtract 1 = some (.ofInt (2 ^ k - 1 : Nat)) := by
      have h1 : (1 : FixedWidth false w).toInt = (1 : Nat) := FixedWidth.toInt_ofInt (hrep 1 hpos)
      rw [FixedWidth.subtract, hx, h1, ← Nat.cast_sub hpos]
      exact FixedWidth.exactly_eq_some (hrep _ (Nat.sub_le _ _))
    have hmask : value &&& .ofInt (2 ^ k - 1 : Nat) = (.ofInt (value.toInt % (2 ^ k : Nat)) : FixedWidth false w) := by
      ext1
      apply BitVec.eq_of_toNat_eq
      show (value.bits &&& BitVec.ofInt w (2 ^ k - 1 : Nat)).toNat = (BitVec.ofInt w (value.toInt % (2 ^ k : Nat))).toNat
      have hlt := Nat.mod_lt value.bits.toNat hpos
      rw [FixedWidth.toInt_unsigned, ← Int.natCast_mod, BitVec.ofInt_natCast, BitVec.ofInt_natCast, BitVec.toNat_and,
        BitVec.toNat_ofNat, BitVec.toNat_ofNat, Nat.mod_eq_of_lt (by omega), Nat.mod_eq_of_lt (by omega),
        Nat.and_two_pow_sub_one_eq_mod]
    rw [decide_eq_true hcpop, quotientAndRemainder, if_pos rfl, hone, hctz, FixedWidth.maskingShiftRight, hamount,
      Nat.cast_pow, Nat.cast_two]
    exact congrArg (fun remainder => some (_, remainder)) hmask
  · rw [decide_eq_false hcpop, quotientAndRemainder, if_neg Bool.false_ne_true, hx, if_neg (by omega)]

theorem negative_iff (value : FixedWidth s w) : (s && decide (value < 0)) = decide (value.toInt < 0) := by
  cases s with
  | false => exact (decide_eq_false (not_lt.2 (representable_unsigned.1 value.representable_toInt).1)).symm
  | true => exact decide_eq_decide.2 FixedWidth.lt_zero_iff

theorem numeral_reverse {r : Nat} {uppercase : Bool} {n : Int} (hn : n ≠ 0) : numeral r uppercase n =
    (if n < 0 then (Nat.digits r |n|.toNat).map (digitCode uppercase) ++ [ascii8 '-']
      else (Nat.digits r |n|.toNat).map (digitCode uppercase)).reverse := by
  rw [numeral, if_neg hn, ← Int.natCast_natAbs, Int.toNat_natCast]
  split_ifs
  · rw [List.reverse_append, List.reverse_singleton]
  · exact List.nil_append _

theorem integerToString_eq (hw : 64 < w) (hr : 2 ≤ radix ∧ radix ≤ 36) (value : FixedWidth s w) (uppercase : Bool) :
    integerToString value radix uppercase = some (numeral radix.toNat uppercase value.toInt) := by
  by_cases hzero : value.toInt = 0
  · rw [integerToString, if_pos hzero, hzero]
    rfl
  obtain ⟨r, rfl⟩ := Int.eq_ofNat_of_zero_le (show 0 ≤ radix by omega)
  have hr' : 2 ≤ r ∧ r ≤ 36 := by omega
  have hpow : 2 ^ 64 < 2 ^ w := Nat.pow_lt_pow_right (by decide) hw
  have hrep : Representable false w r := representable_unsigned.2 ⟨by omega, by exact_mod_cast (by omega : r < 2 ^ w)⟩
  have hradix := FixedWidth.toInt_ofInt hrep
  have hnext : ∀ y : FixedWidth false w, (do
      let (q, r') ← quotientAndRemainder (decide ((BitVec.ofInt 64 r).cpop = 1)) (.ofInt r) y
      some (q, digitASCII (.ofInt 8 r'.toInt) ((.ofInt r : FixedWidth false w).toInt ≤ 10) uppercase)) =
        some (.ofInt (y.toInt / r), digitCode uppercase (y.toInt.toNat % r)) := fun y => by
    have hnat := Int.toNat_of_nonneg (representable_unsigned.1 y.representable_toInt).1
    have hlt : y.toInt.toNat % r < r := Nat.mod_lt _ (by omega)
    have hrem : y.toInt % r = (y.toInt.toNat % r : Nat) := by rw [Int.natCast_mod, hnat]
    rw [quotientAndRemainder_eq hw hr' hradix, Option.bind_eq_bind, Option.bind_some, hrem]
    dsimp only
    rw [FixedWidth.toInt_ofInt (representable_unsigned.2 ⟨by omega, by exact_mod_cast (by omega)⟩), BitVec.ofInt_natCast,
      digitASCII_eq (by omega) (fun h => by have := of_decide_eq_true h; omega)]
  have hmagnitude := value.toInt_magnitude
  have hlt := (representable_unsigned.1 value.magnitude.representable_toInt).2
  rw [integerToString, if_neg hzero, FixedWidth.exactly_eq_some hrep, Option.bind_eq_bind, Option.bind_some,
    digitLoop_eq (by omega) uppercase hnext hlt, Option.bind_eq_bind, Option.bind_some, negative_iff, hmagnitude, List.nil_append,
    numeral_reverse hzero]
  simp only [decide_eq_true_eq, Int.toNat_natCast]

theorem stringInit_eq (hhex : hexdigit.Spells) (hr : 2 ≤ radix ∧ radix ≤ 36) (value : FixedWidth s w) (uppercase : Bool) :
    stringInit hexdigit value radix uppercase = some (numeral radix.toNat uppercase value.toInt) := by
  have hrep : w ≤ 64 → ∀ s', s = s' → Representable s' 64 value.toInt := by
    rintro hw s' rfl
    refine value.representable_toInt.widen (fun hneg => ?_) (hw.lt_or_eq.imp_right fun hw => ⟨hw, by cases s <;> simp⟩)
    exact (Bool.and_eq_true_iff.1 ((negative_iff value).trans (decide_eq_true hneg))).1
  rw [stringInit, if_pos hr]
  split_ifs with hw hs
  · have h := hrep hw true hs
    rw [FixedWidth.exactly_eq_some h, Option.bind_eq_bind, Option.bind_some, int64ToString_eq hhex hr,
      FixedWidth.toInt_ofInt h]
  · have h := hrep hw false (Bool.eq_false_of_not_eq_true hs)
    rw [FixedWidth.exactly_eq_some h, Option.bind_eq_bind, Option.bind_some, uint64ToString_eq hhex hr,
      FixedWidth.toInt_ofInt h]
  · exact integerToString_eq (not_le.1 hw) hr value uppercase

theorem spells_digitCode : Hexdigit.Spells fun d lowerCase => digitCode (!lowerCase) d.toNat := fun d hd lowerCase => by
  show digitCode (!lowerCase) (BitVec.ofNat 32 d).toNat = _
  rw [BitVec.toNat_ofNat, Nat.mod_eq_of_lt (by omega)]

/-- Whatever the type, the text is the numeral, and is read back in every type that has the number. -/
theorem stringInit_roundTrip (hhex : hexdigit.Spells) (hr : 2 ≤ radix ∧ radix ≤ 36) (value : FixedWidth s w)
    (uppercase : Bool) : ∃ text, stringInit hexdigit value radix uppercase = some text ∧
      text = numeral radix.toNat uppercase value.toInt ∧
      ∀ s' w', Representable s' w' radix → Representable s' w' value.toInt →
        parse text radix = some (some (.ofInt value.toInt : FixedWidth s' w')) := by
  refine ⟨_, stringInit_eq hhex hr value uppercase, rfl, fun s' w' hradix hvalue => ?_⟩
  have hvalue' : (.ofInt radix : FixedWidth s' w').toInt = radix := FixedWidth.toInt_ofInt hradix
  have hdenotes := denotes_numeral (by omega) (by omega) uppercase value.toInt (r := radix.toNat)
  rw [parse, if_pos hr, FixedWidth.exactly_eq_some hradix, Option.map_some]
  refine congrArg some ((parseASCII_eq_some (by decide) (by omega)).2 ?_)
  rwa [hvalue', FixedWidth.toInt_ofInt hvalue]

theorem stringInit_roundTrip_least : ∃ text,
    stringInit (fun d lowerCase => digitCode (!lowerCase) d.toNat) (.min : FixedWidth true 8) 16 true = some text ∧
      text = numeral (16 : Int).toNat true (.min : FixedWidth true 8).toInt ∧
      ∀ s' w', Representable s' w' 16 → Representable s' w' (.min : FixedWidth true 8).toInt →
        parse text 16 = some (some (.ofInt (.min : FixedWidth true 8).toInt : FixedWidth s' w')) :=
  stringInit_roundTrip spells_digitCode (by decide) .min true

theorem unsignedDescription_eq (hhex : hexdigit.Spells) {wordBits : Nat} (hword : wordBits ≤ 64) (value : FixedWidth false w) :
    unsignedDescription hexdigit wordBits value = some (numeral 10 false value.toInt) := by
  have hrep := representable_unsigned.1 value.representable_toInt
  rw [unsignedDescription]
  split_ifs with hw hzero
  · have hpow : (2 : Int) ^ w ≤ 2 ^ 64 := by exact_mod_cast Nat.pow_le_pow_right Nat.two_pos (hw.trans hword)
    have hvalue : (value.truncating : FixedWidth false 64).toInt = value.toInt :=
      FixedWidth.toInt_ofInt (representable_unsigned.2 ⟨hrep.1, hrep.2.trans_le hpow⟩)
    rw [uint64ToString_eq hhex (by decide), hvalue]
    rfl
  · rw [hzero]
    rfl
  · have hnext : ∀ x : FixedWidth false w, (some (.ofInt (x.toInt / 10), .ofInt 8 (ascii16 '0' + x.toInt % 10)) :
        Option (FixedWidth false w × BitVec 8)) =
          some (.ofInt (x.toInt / (10 : Nat)), digitCode false (x.toInt.toNat % 10)) := fun x => by
      have hnat := Int.toNat_of_nonneg (representable_unsigned.1 x.representable_toInt).1
      rw [digitCode, if_pos (Nat.mod_lt _ (by decide)), ← BitVec.ofInt_natCast, Nat.cast_add, Int.natCast_mod, hnat]
      rfl
    rw [digitLoop_eq (by decide) false hnext hrep.2, numeral_reverse hzero, if_neg (not_lt.2 hrep.1), abs_of_nonneg hrep.1]
    rfl

theorem description_eq (hhex : hexdigit.Spells) {wordBits : Nat} (hword : wordBits ≤ 64) (value : FixedWidth s w)
    (uppercase : Bool) : description hexdigit wordBits value = stringInit hexdigit value 10 uppercase := by
  have hcase : numeral 10 uppercase value.toInt = numeral 10 false value.toInt := by
    have hdigits : (Nat.digits 10 value.toInt.natAbs).map (digitCode uppercase) =
        (Nat.digits 10 value.toInt.natAbs).map (digitCode false) := List.map_congr_left fun d hd => by
      have hlt : d < 10 := Nat.digits_lt_base (by decide) hd
      rw [digitCode, digitCode, if_pos hlt, if_pos hlt]
    rw [numeral, numeral, hdigits]
  rw [stringInit_eq hhex (by decide), show (10 : Int).toNat = 10 from rfl, hcase, description]
  cases s with
  | false => exact unsignedDescription_eq hhex hword _
  | true =>
      rw [if_pos rfl]
      by_cases hw : w ≤ wordBits
      · have hvalue : (value.truncating : FixedWidth true 64).toInt = value.toInt := FixedWidth.toInt_ofInt
          (value.representable_toInt.widen (fun _ => rfl) ((hw.trans hword).lt_or_eq.imp_right fun h => ⟨h, .inl rfl⟩))
        rw [if_pos hw, int64ToString_eq hhex (by decide), hvalue]
        rfl
      · rw [if_neg hw, unsignedDescription_eq hhex hword, value.toInt_magnitude, Option.map_some,
          numeral_eq 10 false value.toInt]
        simp only [FixedWidth.lt_zero_iff]
        split_ifs <;> rfl

theorem description_eq_least : description (fun d lowerCase => digitCode (!lowerCase) d.toNat) 64
    (.min : FixedWidth true 128) =
      stringInit (fun d lowerCase => digitCode (!lowerCase) d.toNat) (.min : FixedWidth true 128) 10 false :=
  description_eq spells_digitCode (by decide) .min false

end

end SwiftKStdlib.Integers
