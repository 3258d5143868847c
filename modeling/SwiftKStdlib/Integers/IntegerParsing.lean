import SwiftKStdlib.Lib.FixedWidth
import Mathlib.Data.Nat.Digits.Lemmas

/-!
# Parsing of integers

* `asciiDigit`, `parseUnsignedASCII`, `parseASCII`, `parse` : the functions of the source, on lists of code units;
* `IsDigit`, `Denotes` : the texts of numbers;
* `parse_iff` : a text is parsed exactly if it denotes a number of the type, and to that number.

The code units are bit vectors of any width up to that of UTF-16.
-/

namespace SwiftKStdlib.Integers.IntegerParsing

open Lib

variable {s : Bool} {w c : Nat}

/-! ## The parser of the source -/

def ascii16 (ch : Char) : Nat := ch.toNat

/-- `_asciiDigit(codeUnit:radix:)`. -/
def asciiDigit (codeUnit : BitVec c) (radix : FixedWidth s w) : Option (FixedWidth s w) :=
  let u := codeUnit.toNat % 2 ^ 16
  let d : Option Nat :=
    if ascii16 '0' ≤ u ∧ u ≤ ascii16 '9' then some (u - ascii16 '0')
    else if ascii16 'A' ≤ u ∧ u ≤ ascii16 'Z' then some (u - ascii16 'A' + 10)
    else if ascii16 'a' ≤ u ∧ u ≤ ascii16 'z' then some (u - ascii16 'a' + 10)
    else none
  d.bind fun d => if d < radix.toInt then some (.ofInt d) else none

/-- The loop of `_parseUnsignedASCII`, over the rest of the code units. -/
def parseRest (radix : FixedWidth s w) (positive : Bool) :
    List (BitVec c) → FixedWidth s w → Option (FixedWidth s w)
  | [], result => some result
  | u :: rest, result => do
    let d ← asciiDigit u radix
    let (result1, overflow1) := result.multipliedReportingOverflow radix
    let (result2, overflow2) :=
      if positive then result1.addingReportingOverflow d else result1.subtractingReportingOverflow d
    if !overflow1 && !overflow2 then parseRest radix positive rest result2 else none

/-- `_parseUnsignedASCII(first:rest:radix:positive:)`. -/
def parseUnsignedASCII (first : BitVec c) (rest : List (BitVec c)) (radix : FixedWidth s w) (positive : Bool) :
    Option (FixedWidth s w) := do
  let result ← asciiDigit first radix
  if !positive then
    let (result0, overflow0) := (0 : FixedWidth s w).subtractingReportingOverflow result
    if !overflow0 then parseRest radix positive rest result0 else none
  else parseRest radix positive rest result

/-- `_parseASCII(codeUnits:radix:)`. -/
def parseASCII (codeUnits : List (BitVec c)) (radix : FixedWidth s w) : Option (FixedWidth s w) :=
  match codeUnits with
  | [] => none
  | c0 :: rest =>
    if c0.toNat ≠ ascii16 '+' ∧ c0.toNat ≠ ascii16 '-' then parseUnsignedASCII c0 rest radix true
    else
      match rest with
      | [] => none
      | c1 :: rest =>
        if c0.toNat = ascii16 '-' then parseUnsignedASCII c1 rest radix false
        else parseUnsignedASCII c1 rest radix true

/-- `init?(_:radix:)`, on the code units of the text: `none` is a trap, `some none` is `nil`. -/
def parse (text : List (BitVec c)) (radix : Int) : Option (Option (FixedWidth s w)) :=
  if 2 ≤ radix ∧ radix ≤ 36 then (FixedWidth.exactly radix).map (parseASCII text) else none

/-! ## Texts of numbers -/

/-- The code unit is the digit `d` in this radix. -/
def IsDigit (radix : Nat) (u : BitVec c) (d : Nat) : Prop :=
  d < radix ∧ (d < 10 ∧ u.toNat = ascii16 '0' + d ∨
    10 ≤ d ∧ d < 36 ∧ (u.toNat = ascii16 'A' + (d - 10) ∨ u.toNat = ascii16 'a' + (d - 10)))

/-- One or more digits of the natural number `n`. -/
def DenotesDigits (radix : Nat) (text : List (BitVec c)) (n : Nat) : Prop :=
  ∃ digits, text ≠ [] ∧ List.Forall₂ (IsDigit radix) text digits ∧ n = Nat.ofDigits radix digits.reverse

/-- Digits after at most one sign. -/
def Denotes (radix : Nat) (text : List (BitVec c)) (value : Int) : Prop :=
  (∃ n : Nat, DenotesDigits radix text n ∧ value = n) ∨
  ∃ sign digits, text = sign :: digits ∧ ∃ n : Nat, DenotesDigits radix digits n ∧
    (sign.toNat = ascii16 '+' ∧ value = n ∨ sign.toNat = ascii16 '-' ∧ value = -n)

/-! ## Digits -/

variable {radix : FixedWidth s w} {u : BitVec c}

theorem ascii16_chars : ascii16 '0' = 48 ∧ ascii16 '9' = 57 ∧ ascii16 'A' = 65 ∧ ascii16 'Z' = 90 ∧
    ascii16 'a' = 97 ∧ ascii16 'z' = 122 ∧ ascii16 '+' = 43 ∧ ascii16 '-' = 45 := by decide

theorem asciiDigit_eq_some (hc : c ≤ 16) {d : FixedWidth s w} : asciiDigit u radix = some d ↔
    ∃ k, IsDigit radix.toInt.toNat u k ∧ d = .ofInt k := by
  have hu : u.toNat % 2 ^ 16 = u.toNat := Nat.mod_eq_of_lt (u.isLt.trans_le (Nat.pow_le_pow_right Nat.two_pos hc))
  obtain ⟨h0, h9, hA, hZ, ha, hz, -, -⟩ := ascii16_chars
  simp only [asciiDigit, IsDigit, hu, h0, h9, hA, hZ, ha, hz, Option.bind_eq_some_iff]
  have hchain : ∀ k : Nat, (if 48 ≤ u.toNat ∧ u.toNat ≤ 57 then some (u.toNat - 48)
      else if 65 ≤ u.toNat ∧ u.toNat ≤ 90 then some (u.toNat - 65 + 10)
      else if 97 ≤ u.toNat ∧ u.toNat ≤ 122 then some (u.toNat - 97 + 10) else none) = some k ↔
      (k < 10 ∧ u.toNat = 48 + k ∨ 10 ≤ k ∧ k < 36 ∧ (u.toNat = 65 + (k - 10) ∨ u.toNat = 97 + (k - 10))) := by
    intro k
    split_ifs
    · rw [Option.some.injEq]
      omega
    · rw [Option.some.injEq]
      omega
    · rw [Option.some.injEq]
      omega
    · exact iff_of_false id (by omega)
  have hbelow : ∀ k : Nat, (if (k : Int) < radix.toInt then some (FixedWidth.ofInt k : FixedWidth s w) else none) = some d ↔
      k < radix.toInt.toNat ∧ d = .ofInt k := by
    intro k
    rw [Option.ite_none_right_eq_some, Option.some.injEq, Int.lt_toNat, eq_comm]
  refine exists_congr fun k => ?_
  rw [hchain, hbelow]
  exact and_left_comm.trans and_assoc.symm

theorem IsDigit.not_sign {r k : Nat} (h : IsDigit r u k) : u.toNat ≠ ascii16 '+' ∧ u.toNat ≠ ascii16 '-' := by
  obtain ⟨h0, h9, hA, hZ, ha, hz, hplus, hminus⟩ := ascii16_chars
  rw [IsDigit, h0, hA, ha] at h
  rw [hplus, hminus]
  omega

/-! ## The number that is accumulated -/

def signed (positive : Bool) (n : Nat) : Int := if positive then n else -n

theorem Representable.signed_of_le {positive : Bool} {m n : Nat} (h : m ≤ n)
    (hn : Representable s w (signed positive n)) : Representable s w (signed positive m) := by
  have hz := representable_zero s w
  cases positive <;> simp only [signed, Representable, if_true, Bool.false_eq_true, if_false] at hn hz ⊢ <;> omega

theorem le_foldl {r : Nat} (hr : 1 ≤ r) (digits : List Nat) (n : Nat) :
    n ≤ digits.foldl (fun a d => a * r + d) n := by
  induction digits generalizing n with
  | nil => exact le_rfl
  | cons d digits ih => exact ((Nat.le_mul_of_pos_right n hr).trans (Nat.le_add_right _ d)).trans (ih _)

theorem toInt_digit {k : Nat} (hk : k < radix.toInt.toNat) : (FixedWidth.ofInt k : FixedWidth s w).toInt = k := by
  have hradix := radix.representable_toInt
  have hmin := minValue_nonpos s w
  refine FixedWidth.toInt_ofInt ⟨by omega, ?_⟩
  have := hradix.2
  omega

theorem accumulate {positive : Bool} {result d : FixedWidth s w} {n k : Nat} (hr : 0 ≤ radix.toInt)
    (hresult : result.toInt = signed positive n) (hd : d.toInt = k) :
    ((!(result.multipliedReportingOverflow radix).2 &&
          !(if positive then (result.multipliedReportingOverflow radix).1.addingReportingOverflow d
            else (result.multipliedReportingOverflow radix).1.subtractingReportingOverflow d).2) = true ↔
        Representable s w (signed positive (n * radix.toInt.toNat + k))) ∧
      (Representable s w (signed positive (n * radix.toInt.toNat + k)) →
        (if positive then (result.multipliedReportingOverflow radix).1.addingReportingOverflow d
          else (result.multipliedReportingOverflow radix).1.subtractingReportingOverflow d).1.toInt =
            signed positive (n * radix.toInt.toNat + k)) := by
  have hmul : result.toInt * radix.toInt = signed positive (n * radix.toInt.toNat) := by
    obtain ⟨r, hr⟩ := Int.eq_ofNat_of_zero_le hr
    rw [hresult, hr, Int.toNat_natCast]
    cases positive
    · exact (neg_mul _ _).trans (congrArg Neg.neg (Nat.cast_mul n r).symm)
    · exact (Nat.cast_mul n r).symm
  have hsum : (if positive then signed positive (n * radix.toInt.toNat) + k
      else signed positive (n * radix.toInt.toNat) - k) = signed positive (n * radix.toInt.toNat + k) := by
    cases positive <;> simp only [signed, if_true, Bool.false_eq_true, if_false] <;> push_cast <;> ring
  have hfirst : Representable s w (signed positive (n * radix.toInt.toNat)) →
      (result.multipliedReportingOverflow radix).1.toInt = signed positive (n * radix.toInt.toNat) := fun h => by
    rw [FixedWidth.multipliedReportingOverflow, hmul]
    exact FixedWidth.toInt_ofInt h
  have hsecond : (result.multipliedReportingOverflow radix).1.toInt = signed positive (n * radix.toInt.toNat) →
      (if positive then (result.multipliedReportingOverflow radix).1.addingReportingOverflow d
        else (result.multipliedReportingOverflow radix).1.subtractingReportingOverflow d) =
          FixedWidth.reportingOverflow (signed positive (n * radix.toInt.toNat + k)) := fun h => by
    rw [← hsum, FixedWidth.addingReportingOverflow, FixedWidth.subtractingReportingOverflow, h, hd]
    cases positive <;> rfl
  have hflag : (result.multipliedReportingOverflow radix).2 = false ↔
      Representable s w (signed positive (n * radix.toInt.toNat)) := by
    rw [FixedWidth.multipliedReportingOverflow, hmul, FixedWidth.reportingOverflow_eq_false]
  rw [Bool.and_eq_true, Bool.not_eq_true', Bool.not_eq_true', hflag]
  refine ⟨⟨fun h => ?_, fun h => ?_⟩, fun h => ?_⟩
  · rw [hsecond (hfirst h.1)] at h
    exact FixedWidth.reportingOverflow_eq_false.1 h.2
  · have hrep := Representable.signed_of_le (Nat.le_add_right _ k) h
    rw [hsecond (hfirst hrep)]
    exact ⟨hrep, FixedWidth.reportingOverflow_eq_false.2 h⟩
  · rw [hsecond (hfirst (Representable.signed_of_le (Nat.le_add_right _ k) h))]
    exact FixedWidth.toInt_ofInt h

theorem parseRest_eq_some (hc : c ≤ 16) (hr : 2 ≤ radix.toInt) {positive : Bool} {rest : List (BitVec c)}
    {result v : FixedWidth s w} {n : Nat} (hresult : result.toInt = signed positive n) :
    parseRest radix positive rest result = some v ↔
      ∃ digits, List.Forall₂ (IsDigit radix.toInt.toNat) rest digits ∧
        v.toInt = signed positive (digits.foldl (fun a d => a * radix.toInt.toNat + d) n) := by
  have hr0 : 0 ≤ radix.toInt := by omega
  induction rest generalizing result n with
  | nil =>
      rw [parseRest, Option.some.injEq, ← FixedWidth.toInt_inj, hresult]
      simp only [List.forall₂_nil_left_iff, exists_eq_left, List.foldl_nil]
      exact eq_comm
  | cons u rest ih =>
      have hstep : ∀ k, IsDigit radix.toInt.toNat u k → ∀ digits : List Nat,
          v.toInt = signed positive (digits.foldl (fun a d => a * radix.toInt.toNat + d) (n * radix.toInt.toNat + k)) →
          Representable s w (signed positive (n * radix.toInt.toNat + k)) := fun k _ digits hv =>
        Representable.signed_of_le (le_foldl (by omega) digits _) (hv ▸ v.representable_toInt)
      rw [parseRest, Option.bind_eq_bind, Option.bind_eq_some_iff]
      simp only [asciiDigit_eq_some hc, List.forall₂_cons_left_iff]
      refine ⟨?_, ?_⟩
      · rintro ⟨_, ⟨k, hk, rfl⟩, hv⟩
        obtain ⟨hflags, hvalue⟩ := accumulate hr0 hresult (toInt_digit hk.1)
        rw [Option.ite_none_right_eq_some, hflags] at hv
        obtain ⟨digits, hdigits, hv'⟩ := (ih (hvalue hv.1)).1 hv.2
        exact ⟨k :: digits, ⟨k, digits, hk, hdigits, rfl⟩, hv'⟩
      · rintro ⟨_, ⟨k, digits, hk, hdigits, rfl⟩, hv⟩
        obtain ⟨hflags, hvalue⟩ := accumulate hr0 hresult (toInt_digit hk.1)
        have hrep := hstep k hk digits hv
        refine ⟨_, ⟨k, hk, rfl⟩, ?_⟩
        rw [Option.ite_none_right_eq_some, hflags]
        exact ⟨hrep, (ih (hvalue hrep)).2 ⟨digits, hdigits, hv⟩⟩

theorem ofDigits_reverse (r : Nat) (digits : List Nat) (n : Nat) :
    Nat.ofDigits r (n :: digits).reverse = digits.foldl (fun a d => a * r + d) n := by
  rw [Nat.ofDigits_eq_foldr, List.foldr_reverse, List.foldl_cons, mul_zero, add_zero, Nat.cast_id]
  congr 1
  funext a d
  rw [Nat.cast_id, mul_comm, Nat.add_comm]

theorem parseUnsignedASCII_eq_some (hc : c ≤ 16) (hr : 2 ≤ radix.toInt) {positive : Bool} {first : BitVec c}
    {rest : List (BitVec c)} {v : FixedWidth s w} : parseUnsignedASCII first rest radix positive = some v ↔
      ∃ n, DenotesDigits radix.toInt.toNat (first :: rest) n ∧ v.toInt = signed positive n := by
  have hdenotes : (∃ n, DenotesDigits radix.toInt.toNat (first :: rest) n ∧ v.toInt = signed positive n) ↔
      ∃ k, IsDigit radix.toInt.toNat first k ∧ ∃ digits, List.Forall₂ (IsDigit radix.toInt.toNat) rest digits ∧
        v.toInt = signed positive (digits.foldl (fun a d => a * radix.toInt.toNat + d) k) := by
    simp only [DenotesDigits, List.forall₂_cons_left_iff]
    refine ⟨?_, ?_⟩
    · rintro ⟨_, ⟨_, -, ⟨k, digits, hk, hdigits, rfl⟩, rfl⟩, hv⟩
      exact ⟨k, hk, digits, hdigits, by rw [hv, ofDigits_reverse]⟩
    · rintro ⟨k, hk, digits, hdigits, hv⟩
      exact ⟨_, ⟨_, List.cons_ne_nil _ _, ⟨k, digits, hk, hdigits, rfl⟩, rfl⟩, by rw [hv, ofDigits_reverse]⟩
  rw [hdenotes, parseUnsignedASCII, Option.bind_eq_bind, Option.bind_eq_some_iff]
  simp only [asciiDigit_eq_some hc]
  cases positive with
  | true =>
      refine ⟨?_, ?_⟩
      · rintro ⟨_, ⟨k, hk, rfl⟩, hv⟩
        exact ⟨k, hk, (parseRest_eq_some hc hr (toInt_digit hk.1)).1 hv⟩
      · rintro ⟨k, hk, hv⟩
        exact ⟨_, ⟨k, hk, rfl⟩, (parseRest_eq_some hc hr (toInt_digit hk.1)).2 hv⟩
  | false =>
      have hneg : ∀ k, k < radix.toInt.toNat →
          (0 : FixedWidth s w).subtractingReportingOverflow (.ofInt k) =
            FixedWidth.reportingOverflow (signed false k) := fun k hk => by
        rw [FixedWidth.subtractingReportingOverflow, FixedWidth.toInt_zero, toInt_digit hk, zero_sub]
        rfl
      refine ⟨?_, ?_⟩
      · rintro ⟨_, ⟨k, hk, rfl⟩, hv⟩
        rw [hneg k hk.1, Bool.not_false, if_pos rfl, Option.ite_none_right_eq_some, Bool.not_eq_true',
          FixedWidth.reportingOverflow_eq_false] at hv
        exact ⟨k, hk, (parseRest_eq_some hc hr (FixedWidth.toInt_ofInt hv.1)).1 hv.2⟩
      · rintro ⟨k, hk, digits, hdigits, hv⟩
        have hrep : Representable s w (signed false k) :=
          Representable.signed_of_le (le_foldl (by omega) digits k) (hv ▸ v.representable_toInt)
        refine ⟨_, ⟨k, hk, rfl⟩, ?_⟩
        rw [hneg k hk.1, Bool.not_false, if_pos rfl, Option.ite_none_right_eq_some, Bool.not_eq_true',
          FixedWidth.reportingOverflow_eq_false]
        exact ⟨hrep, (parseRest_eq_some hc hr (FixedWidth.toInt_ofInt hrep)).2 ⟨digits, hdigits, hv⟩⟩

theorem DenotesDigits.not_sign {r n : Nat} {rest : List (BitVec c)} (h : DenotesDigits r (u :: rest) n) :
    u.toNat ≠ ascii16 '+' ∧ u.toNat ≠ ascii16 '-' := by
  obtain ⟨_, -, hdigits, -⟩ := h
  cases hdigits with
  | cons hu _ => exact hu.not_sign

theorem not_denotesDigits_nil (r n : Nat) : ¬ DenotesDigits r ([] : List (BitVec c)) n := fun ⟨_, h, _⟩ => h rfl

theorem denotes_sign {r : Nat} {rest : List (BitVec c)} {value : Int}
    (hu : ¬ (u.toNat ≠ ascii16 '+' ∧ u.toNat ≠ ascii16 '-')) : Denotes r (u :: rest) value ↔
      ∃ n, DenotesDigits r rest n ∧ value = signed (!decide (u.toNat = ascii16 '-')) n := by
  obtain ⟨-, -, -, -, -, -, hplus, hminus⟩ := ascii16_chars
  rw [hplus, hminus] at hu
  refine ⟨?_, ?_⟩
  · rintro (⟨n, hn, -⟩ | ⟨sign, digits, htext, n, hn, hsign⟩)
    · have := hn.not_sign
      rw [hplus, hminus] at this
      exact absurd this hu
    · obtain ⟨rfl, rfl⟩ := List.cons.inj htext
      refine ⟨n, hn, ?_⟩
      rw [hplus, hminus] at hsign
      rw [hminus]
      rcases hsign with ⟨hsign, rfl⟩ | ⟨hsign, rfl⟩
      · rw [hsign]
        rfl
      · rw [hsign]
        rfl
  · rintro ⟨n, hn, rfl⟩
    refine .inr ⟨u, rest, rfl, n, hn, ?_⟩
    rw [hplus, hminus]
    by_cases hsign : u.toNat = 45
    · exact .inr ⟨hsign, by rw [decide_eq_true hsign]; rfl⟩
    · exact .inl ⟨by omega, by rw [decide_eq_false hsign]; rfl⟩

theorem parseASCII_eq_some (hc : c ≤ 16) (hr : 2 ≤ radix.toInt) {text : List (BitVec c)} {v : FixedWidth s w} :
    parseASCII text radix = some v ↔ Denotes radix.toInt.toNat text v.toInt := by
  cases text with
  | nil =>
      refine iff_of_false (Option.some_ne_none v).symm ?_
      rintro (⟨n, hn, -⟩ | ⟨_, _, htext, -⟩)
      · exact not_denotesDigits_nil _ _ hn
      · exact List.cons_ne_nil _ _ htext.symm
  | cons c0 rest =>
      by_cases hsign : c0.toNat ≠ ascii16 '+' ∧ c0.toNat ≠ ascii16 '-'
      · have hdenotes : Denotes radix.toInt.toNat (c0 :: rest) v.toInt ↔
            ∃ n, DenotesDigits radix.toInt.toNat (c0 :: rest) n ∧ v.toInt = signed true n := by
          refine ⟨?_, fun h => .inl h⟩
          rintro (h | ⟨sign, digits, htext, n, -, h⟩)
          · exact h
          · obtain ⟨rfl, rfl⟩ := List.cons.inj htext
            exact absurd hsign fun hs => h.elim (fun h => hs.1 h.1) fun h => hs.2 h.1
        rw [hdenotes, ← parseUnsignedASCII_eq_some hc hr, show parseASCII (c0 :: rest) radix = _ from if_pos hsign]
      · rw [denotes_sign hsign, show parseASCII (c0 :: rest) radix = _ from if_neg hsign]
        cases rest with
        | nil =>
            refine iff_of_false (Option.some_ne_none v).symm ?_
            rintro ⟨n, hn, -⟩
            exact not_denotesDigits_nil _ _ hn
        | cons c1 rest =>
            rw [← parseUnsignedASCII_eq_some hc hr]
            by_cases hminus : c0.toNat = ascii16 '-'
            · rw [decide_eq_true hminus]
              exact iff_of_eq (congrArg (· = some v) (if_pos hminus))
            · rw [decide_eq_false hminus]
              exact iff_of_eq (congrArg (· = some v) (if_neg hminus))

example : parse ([45#8, 49#8, 50#8, 56#8] : List (BitVec 8)) 10 = some (some (.ofInt (-128) : FixedWidth true 8)) := by
  decide

end SwiftKStdlib.Integers.IntegerParsing
