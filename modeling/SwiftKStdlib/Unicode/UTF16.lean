import Mathlib.Tactic
import SwiftKStdlib.Unicode.Parser

/-!
# The UTF-16 parsers

* `forwardParser`, `reverseParser` : `UTF16.ForwardParser` and `UTF16.ReverseParser`;
* `WellFormed` : the well-formed sequences of one and of two code units;
* `forward_windowResult`, `reverse_windowResult` : the first, or the last, segment of the text.
-/

namespace SwiftKStdlib.Unicode

open SwiftKStdlib.Lib

namespace UTF16

/-- `EncodedScalar` is `_UIntBuffer<UInt32, UInt16>`. -/
abbrev EncodedScalar := UIntBuffer 16

def isScalar (x : BitVec 16) : Bool := x &&& 0xf800 != 0xd800

namespace ForwardParser

def parseMultipleCodeUnits (buffer : UIntBuffer 16) : Bool × BitVec 8 :=
  if buffer.storage &&& 0xFC00FC00 == 0xDC00D800 then (true, 2 * 16) else (false, 1 * 16)

def bufferedScalar (buffer : UIntBuffer 16) (bitCount : BitVec 8) : EncodedScalar :=
  { buffer with bitCount := bitCount }

end ForwardParser

namespace ReverseParser

def parseMultipleCodeUnits (buffer : UIntBuffer 16) : Bool × BitVec 8 :=
  if buffer.storage &&& 0xFC00FC00 == 0xD800DC00 then (true, 2 * 16) else (false, 1 * 16)

def bufferedScalar (buffer : UIntBuffer 16) (bitCount : BitVec 8) : EncodedScalar where
  storage := maskingShiftRight (maskingShiftLeft buffer.storage 16 ||| maskingShiftRight buffer.storage 16)
    (32 - bitCount).toNat
  bitCount := bitCount

end ReverseParser

/-- `UTF16.ForwardParser`. -/
def forwardParser : UTFParser 16 EncodedScalar where
  isScalar := isScalar
  collectionOfOne := UIntBuffer.append .empty
  parseMultipleCodeUnits := ForwardParser.parseMultipleCodeUnits
  bufferedScalar := ForwardParser.bufferedScalar
  elements := UIntBuffer.elements

/-- `UTF16.ReverseParser`. -/
def reverseParser : UTFParser 16 EncodedScalar where
  isScalar := isScalar
  collectionOfOne := UIntBuffer.append .empty
  parseMultipleCodeUnits := ReverseParser.parseMultipleCodeUnits
  bufferedScalar := ReverseParser.bufferedScalar
  elements := UIntBuffer.elements

def scalars : List (List (Nat × Nat)) :=
  [[(0x0000, 0xD7FF)], [(0xE000, 0xFFFF)], [(0xD800, 0xDBFF), (0xDC00, 0xDFFF)]]

def WellFormed : List (BitVec 16) → Prop := tableCode BitVec.toNat scalars

def Trailing (x : BitVec 16) : Prop := 0xDC00 ≤ x.toNat ∧ x.toNat ≤ 0xDFFF

def Leading (x : BitVec 16) : Prop := 0xD800 ≤ x.toNat ∧ x.toNat ≤ 0xDBFF

instance (x : BitVec 16) : Decidable (Trailing x) := inferInstanceAs (Decidable (_ ∧ _))

instance (x : BitVec 16) : Decidable (Leading x) := inferInstanceAs (Decidable (_ ∧ _))

variable {a b : BitVec 16}

theorem and_F8_eq (x : BitVec 8) : x &&& 0xF8#8 = 0xD8#8 ↔ 0xD8 ≤ x.toNat ∧ x.toNat ≤ 0xDF := by
  decide +revert

theorem and_FC_eq_D8 (x : BitVec 8) : x &&& 0xFC#8 = 0xD8#8 ↔ 0xD8 ≤ x.toNat ∧ x.toNat ≤ 0xDB := by
  decide +revert

theorem and_FC_eq_DC (x : BitVec 8) : x &&& 0xFC#8 = 0xDC#8 ↔ 0xDC ≤ x.toNat ∧ x.toNat ≤ 0xDF := by
  decide +revert

theorem isScalar_eq_false (x : BitVec 16) : isScalar x = false ↔ Leading x ∨ Trailing x := by
  have hx := x.isLt
  have hextract : ∀ y z : BitVec 16, y = z ↔
      y.extractLsb' 0 8 = z.extractLsb' 0 8 ∧ y.extractLsb' 8 8 = z.extractLsb' 8 8 := by
    intro y z
    have hy := y.isLt
    have hz := z.isLt
    simp only [← BitVec.toNat_inj, BitVec.extractLsb'_toNat, Nat.shiftRight_eq_div_pow]
    omega
  have hmask : x &&& 0xf800 = 0xd800 ↔ x.extractLsb' 8 8 &&& 0xF8#8 = 0xD8#8 := by
    simp only [hextract, BitVec.extractLsb'_and, BitVec.reduceExtractLsb', BitVec.and_zero, true_and]
  rw [isScalar, bne_eq_false_iff_eq, hmask, and_F8_eq, BitVec.extractLsb'_toNat,
    Nat.shiftRight_eq_div_pow, Leading, Trailing]
  omega

theorem wellFormed_one : WellFormed [a] ↔ ¬ (Leading a ∨ Trailing a) := by
  have := a.isLt
  simp [WellFormed, tableCode, scalars, Leading, Trailing]
  omega

theorem wellFormed_two : WellFormed [a, b] ↔ Leading a ∧ Trailing b := by
  simp [WellFormed, tableCode, scalars, Leading, Trailing]

theorem wellFormed_length {s : List (BitVec 16)} (h : WellFormed s) : 0 < s.length ∧ s.length ≤ 2 := by
  obtain ⟨row, hrow, h⟩ := h
  rw [← h.length_eq]
  clear h
  revert row
  decide

theorem wellFormed_cases {s : List (BitVec 16)} (h : WellFormed s) :
    (∃ a, s = [a] ∧ ¬ (Leading a ∨ Trailing a)) ∨ ∃ a b, s = [a, b] ∧ Leading a ∧ Trailing b := by
  obtain ⟨hpos, hlen⟩ := wellFormed_length h
  match s, hpos, hlen with
  | [a], _, _ => exact .inl ⟨a, rfl, wellFormed_one.1 h⟩
  | [a, b], _, _ => exact .inr ⟨a, b, rfl, wellFormed_two.1 h⟩

theorem code_wellFormed : Code WellFormed Trailing where
  ne_nil h := absurd (wellFormed_length h).1 (by simp)
  prefixFree p q hp hq hpq := by
    obtain ⟨t, rfl⟩ := hpq
    rcases wellFormed_cases hp with ⟨a, rfl, ha⟩ | ⟨a, b, rfl, -⟩
    · rcases wellFormed_cases hq with ⟨a', h, -⟩ | ⟨a', b', h, ha', -⟩
      · obtain ⟨-, rfl⟩ : a = a' ∧ t = [] := by simpa using h
        rfl
      · obtain ⟨rfl, -⟩ := List.cons.inj h
        exact absurd (.inl ha') ha
    · have hlen := (wellFormed_length hq).2
      have ht0 : t.length = 0 := by
        simp only [List.cons_append, List.nil_append, List.length_cons] at hlen
        omega
      rw [List.length_eq_zero_iff.1 ht0, List.append_nil]
  behind x s h := by
    rcases wellFormed_cases h with ⟨a, h', -⟩ | ⟨a, b, h', -, hb⟩
    · obtain ⟨rfl, rfl⟩ := List.cons.inj h'
      simp
    · obtain ⟨rfl, rfl⟩ := List.cons.inj h'
      simpa using hb
  first x s h ht := by
    rcases wellFormed_cases h with ⟨a, h', ha⟩ | ⟨a, b, h', ha, -⟩
    · obtain ⟨rfl, rfl⟩ := List.cons.inj h'
      exact ha (.inr ht)
    · obtain ⟨rfl, rfl⟩ := List.cons.inj h'
      have h1 := ha.2
      have h2 := ht.1
      omega

theorem initial_length {s : List (BitVec 16)} (h : Segment.Initial WellFormed s) : s.length ≤ 2 := by
  obtain ⟨t, ht⟩ := h
  have := (wellFormed_length ht).2
  rw [List.length_append] at this
  omega

theorem initial_two : Segment.Initial WellFormed [a, b] ↔ WellFormed [a, b] := by
  refine ⟨fun ⟨t, ht⟩ => ?_, Segments.initial_of_word⟩
  have hlen := (wellFormed_length ht).2
  have ht0 : t.length = 0 := by
    simp only [List.cons_append, List.nil_append, List.length_cons] at hlen
    omega
  rwa [List.length_eq_zero_iff.1 ht0, List.append_nil] at ht

theorem mask_iff {x y : Nat} {storage : BitVec 32} (hx : x < 2 ^ 16) (hy : y < 2 ^ 16)
    (h : storage.toNat = x + 65536 * y) :
    (storage &&& 0xFC00FC00 = 0xDC00D800 ↔
        (0xD800 ≤ x ∧ x ≤ 0xDBFF) ∧ 0xDC00 ≤ y ∧ y ≤ 0xDFFF) ∧
      (storage &&& 0xFC00FC00 = 0xD800DC00 ↔
        (0xDC00 ≤ x ∧ x ≤ 0xDFFF) ∧ 0xD800 ≤ y ∧ y ≤ 0xDBFF) := by
  simp only [eq_iff_extract, BitVec.extractLsb'_and, BitVec.reduceExtractLsb', BitVec.and_zero, true_and,
    and_FC_eq_D8, and_FC_eq_DC, BitVec.extractLsb'_toNat, Nat.shiftRight_eq_div_pow, h]
  omega

theorem ofList_storage (s : List (BitVec 16)) : (UIntBuffer.ofList (s.take 2)).storage.toNat =
    (s.getD 0 0).toNat + 65536 * (s.getD 1 0).toNat := by
  have hlen : 16 * (s.take 2).length ≤ 32 := by
    rw [List.length_take]
    omega
  rw [(UIntBuffer.Holds.ofList hlen).storage]
  match s with
  | [] => rfl
  | [_] => simp [UIntBuffer.packed]
  | _ :: _ :: _ => simp [UIntBuffer.packed]

theorem forward_parseMultipleCodeUnits (s : List (BitVec 16)) :
    ForwardParser.parseMultipleCodeUnits (UIntBuffer.ofList (s.take 2)) =
      if Leading (s.getD 0 0) ∧ Trailing (s.getD 1 0) then (true, 32) else (false, 16) := by
  simp only [ForwardParser.parseMultipleCodeUnits, beq_iff_eq,
    (mask_iff (BitVec.isLt _) (BitVec.isLt _) (ofList_storage s)).1]
  rfl

theorem reverse_parseMultipleCodeUnits (s : List (BitVec 16)) :
    ReverseParser.parseMultipleCodeUnits (UIntBuffer.ofList (s.take 2)) =
      if Trailing (s.getD 0 0) ∧ Leading (s.getD 1 0) then (true, 32) else (false, 16) := by
  simp only [ReverseParser.parseMultipleCodeUnits, beq_iff_eq,
    (mask_iff (BitVec.isLt _) (BitVec.isLt _) (ofList_storage s)).2]
  rfl

theorem forward_elements : UIntBuffer.elements
    (ForwardParser.bufferedScalar (UIntBuffer.ofList [a, b]) 32) = [a, b] :=
  (UIntBuffer.Holds.ofList (by simp)).elements_eq (by decide) (by decide)

theorem reverse_elements : UIntBuffer.elements
    (ReverseParser.bufferedScalar (UIntBuffer.ofList [a, b]) 32) = [b, a] := by
  have ha := a.isLt
  have hb := b.isLt
  have hstorage : (UIntBuffer.ofList [a, b]).storage.toNat = a.toNat + 65536 * b.toNat :=
    ofList_storage [a, b]
  refine UIntBuffer.Holds.elements_eq ⟨?_, rfl, by simp⟩ (by decide) (by decide)
  have hor := Nat.two_pow_add_eq_or_of_lt (i := 16) (b := b.toNat) hb a.toNat
  have hlow : (a.toNat + 65536 * b.toNat) * 2 ^ 16 % 2 ^ 32 = 2 ^ 16 * a.toNat := by omega
  have hhigh : (a.toNat + 65536 * b.toNat) / 2 ^ 16 = b.toNat := by omega
  calc _ = ((a.toNat + 65536 * b.toNat) * 2 ^ 16 % 2 ^ 32 ||| (a.toNat + 65536 * b.toNat) / 2 ^ 16) / 2 ^ 0 := by
        rw [← hstorage]
        simp only [ReverseParser.bufferedScalar, maskingShiftLeft, maskingShiftRight,
          BitVec.toNat_ushiftRight, BitVec.toNat_or, BitVec.toNat_shiftLeft, Nat.shiftRight_eq_div_pow,
          Nat.shiftLeft_eq]
        rfl
    _ = UIntBuffer.packed [b, a] := by
        rw [hlow, hhigh, ← hor, pow_zero, Nat.div_one]
        simp only [UIntBuffer.packed]
        omega

theorem maximal_single {s : List (BitVec 16)} (hx : ¬ WellFormed [a])
    (hs : ∀ b t, s = b :: t → ¬ WellFormed [a, b]) : Segment.Maximal WellFormed [a] s := by
  have htwo : ∀ b, [a, b] <+: [a] ++ s → ¬ Segment.Initial WellFormed [a, b] := by
    rintro b ⟨u, hu⟩ hi
    exact hs b u (List.cons.inj hu).2.symm (initial_two.1 hi)
  refine ⟨by simp, fun q hq hw => ?_, .inr rfl, fun q hq hi => ?_⟩
  · rcases wellFormed_cases hw with ⟨c, rfl, -⟩ | ⟨c, d, rfl, -⟩
    · obtain ⟨rfl, -⟩ := List.cons_prefix_cons.1 hq
      exact hx hw
    · obtain ⟨rfl, -⟩ := List.cons_prefix_cons.1 hq
      exact htwo d hq (initial_two.2 hw)
  · have hlen := initial_length hi
    by_contra hlt
    rw [List.length_singleton] at hlt
    obtain ⟨c, d, rfl⟩ := List.length_eq_two.1 (by omega : q.length = 2)
    obtain ⟨rfl, -⟩ := List.cons_prefix_cons.1 hq
    exact htwo d hq hi

theorem forward_windowResult {s : List (BitVec 16)} (hx : isScalar a = false) :
    ∃ seg n, forwardParser.windowResult (UIntBuffer.ofList ((a :: s).take 2)) = (seg, 16 * n) ∧
      First WellFormed (a :: s) (seg, n) ∧ 0 < n ∧ n ≤ 2 ∧ n ≤ (a :: s).length := by
  have hparse : forwardParser.parseMultipleCodeUnits (UIntBuffer.ofList ((a :: s).take 2)) = _ :=
    forward_parseMultipleCodeUnits (a :: s)
  rw [isScalar_eq_false] at hx
  match s with
  | [] =>
      rw [if_neg fun h => absurd h.2 (by simp [Trailing])] at hparse
      exact ⟨.illFormed 1, 1, UTFParser.windowResult_error (by decide) hparse rfl,
        .illFormed (by simp) (maximal_single (fun h => wellFormed_one.1 h hx) (by simp)), by decide,
        by decide, by simp⟩
  | b :: s =>
      split_ifs at hparse with h
      · refine ⟨.word [a, b], 2, ?_, .word (n := 2) (wellFormed_two.2 h), by decide, by decide, by simp⟩
        rw [UTFParser.windowResult_valid hparse]
        exact congrArg (fun l => (Segment.word l, 32)) forward_elements
      · refine ⟨.illFormed 1, 1, UTFParser.windowResult_error (by decide) hparse rfl,
          .illFormed (by simp) (maximal_single (fun h => wellFormed_one.1 h hx) ?_), by decide,
          by decide, by simp⟩
        rintro c t ht hw
        obtain ⟨rfl, -⟩ := List.cons.inj ht
        exact h (wellFormed_two.1 hw)

theorem reverse_windowResult {s : List (BitVec 16)} (hx : isScalar a = false) :
    ∃ seg n, reverseParser.windowResult (UIntBuffer.ofList ((a :: s).take 2)) = (seg, 16 * n) ∧
      Last WellFormed (a :: s) (seg, n) ∧ 0 < n ∧ n ≤ 2 ∧ n ≤ (a :: s).length := by
  have hparse : reverseParser.parseMultipleCodeUnits (UIntBuffer.ofList ((a :: s).take 2)) = _ :=
    reverse_parseMultipleCodeUnits (a :: s)
  rw [isScalar_eq_false] at hx
  have hsingle : (∀ b t, s = b :: t → ¬ WellFormed [b, a]) → Last WellFormed (a :: s) (.illFormed 1, 1) := by
    intro hs
    have htwo : ∀ n, 1 < n → n ≤ (a :: s).length →
        ¬ Segment.Initial WellFormed ((a :: s).take n).reverse := by
      intro n hn hlen hi
      have hn2 := initial_length hi
      rw [List.length_reverse, List.length_take_of_le hlen] at hn2
      obtain rfl : n = 2 := by omega
      match s, hlen with
      | b :: t, _ => exact hs b t rfl (initial_two.1 hi)
    refine .single (fun n hn hlen hw => ?_) htwo
    rcases Nat.lt_or_ge 1 n with h | h
    · exact htwo n h hlen (Segments.initial_of_word hw)
    · obtain rfl : n = 1 := by omega
      exact wellFormed_one.1 hw hx
  match s with
  | [] =>
      rw [if_neg fun h => absurd h.2 (by simp [Leading])] at hparse
      exact ⟨.illFormed 1, 1, UTFParser.windowResult_error (by decide) hparse rfl, hsingle (by simp),
        by decide, by decide, by simp⟩
  | b :: s =>
      split_ifs at hparse with h
      · refine ⟨.word [b, a], 2, ?_, .word (n := 2) (wellFormed_two.2 h.symm), by decide, by decide,
          by simp⟩
        rw [UTFParser.windowResult_valid hparse]
        exact congrArg (fun l => (Segment.word l, 32)) reverse_elements
      · refine ⟨.illFormed 1, 1, UTFParser.windowResult_error (by decide) hparse rfl, hsingle ?_,
          by decide, by decide, by simp⟩
        rintro c t ht hw
        obtain ⟨rfl, -⟩ := List.cons.inj ht
        exact h (wellFormed_two.1 hw).symm

end UTF16

end SwiftKStdlib.Unicode
