import Mathlib.Tactic
import SwiftKStdlib.Demangling.PunycodeRoundTrip
import SwiftKStdlib.Lib.BitField
import SwiftKStdlib.Unicode.UTF8

/-!
# Punycode of UTF-8 text

* `convert_wellFormed` : `convertUTF8toUTF32` reads a well-formed sequence as a code point that
  `encodeToUTF8` writes back;
* `punycode_roundTrip` : decoding what was encoded, for code points and for UTF-8 text.
-/

namespace SwiftKStdlib.Demangling.Punycode

open Unicode.UTF8 Lib.BitField

/-! ## Bits -/

theorem and_3F (x : Nat) : x &&& 0x3F = x % 64 := Nat.and_two_pow_sub_one_eq_mod x 6

theorem byte_continuation_eq (x : BitVec 8) : ((x ||| 0x80#8) &&& 0xBF#8).toNat = 0x80 + x.toNat % 64 := by
  decide +revert

theorem continuation_eq (s : Nat) : char ((s ||| 0x80) &&& 0xBF) = char (0x80 + s % 64) := by
  have h : char ((s ||| 0x80) &&& 0xBF) = (char s ||| 0x80#8) &&& 0xBF#8 := by
    rw [char, BitVec.ofNat_and, BitVec.ofNat_or]
    rfl
  apply BitVec.eq_of_toNat_eq
  rw [h, byte_continuation_eq, char, char, BitVec.toNat_ofNat, BitVec.toNat_ofNat]
  omega

theorem isContinuationByte_iff (x : BitVec 8) : isContinuationByte x = true ↔ Tail x.toNat := by
  decide +revert

theorem char_eq {n : Nat} {x : BitVec 8} (h : n = x.toNat) : char n = x := by
  rw [char, h, BitVec.ofNat_toNat, BitVec.setWidth_eq]

theorem lead_or_eq {s : Nat} : (s < 0x20 → s ||| 0xC0 = 0xC0 + s) ∧ (s < 0x10 → s ||| 0xE0 = 0xE0 + s) ∧
    (s < 0x08 → s ||| 0xF0 = 0xF0 + s) := by
  refine ⟨fun h => ?_, fun h => ?_, fun h => ?_⟩
  · rw [Nat.or_comm, or_eq_add (k := 5) (by decide) h]
  · rw [Nat.or_comm, or_eq_add (k := 4) (by decide) h]
  · rw [Nat.or_comm, or_eq_add (k := 3) (by decide) h]

theorem codePoint_two (a b : Nat) : (a &&& 0x1F) <<< 6 ||| b &&& 0x3F = a % 32 * 64 + b % 64 := by
  rw [and_3F, Nat.and_two_pow_sub_one_eq_mod a 5, Nat.shiftLeft_eq,
    or_eq_add (k := 6) (by omega) (by omega)]

theorem codePoint_three (a b c : Nat) : (a &&& 0xF) <<< 12 ||| (b &&& 0x3F) <<< 6 ||| c &&& 0x3F =
    a % 16 * 4096 + b % 64 * 64 + c % 64 := by
  have hhigh : a % 16 * 2 ^ 12 ||| b % 64 * 2 ^ 6 = a % 16 * 2 ^ 12 + b % 64 * 2 ^ 6 :=
    or_eq_add (k := 12) (by omega) (by omega)
  rw [and_3F, and_3F, Nat.and_two_pow_sub_one_eq_mod a 4, Nat.shiftLeft_eq, Nat.shiftLeft_eq, hhigh,
    or_eq_add (k := 6) (by omega) (by omega)]
  norm_num

theorem codePoint_four (a b c d : Nat) :
    (a &&& 0x7) <<< 18 ||| (b &&& 0x3F) <<< 12 ||| (c &&& 0x3F) <<< 6 ||| d &&& 0x3F =
      a % 8 * 262144 + b % 64 * 4096 + c % 64 * 64 + d % 64 := by
  have hhigh : a % 8 * 2 ^ 18 ||| b % 64 * 2 ^ 12 = a % 8 * 2 ^ 18 + b % 64 * 2 ^ 12 :=
    or_eq_add (k := 18) (by omega) (by omega)
  have hmid : a % 8 * 2 ^ 18 + b % 64 * 2 ^ 12 ||| c % 64 * 2 ^ 6 =
      a % 8 * 2 ^ 18 + b % 64 * 2 ^ 12 + c % 64 * 2 ^ 6 := or_eq_add (k := 12) (by omega) (by omega)
  rw [and_3F, and_3F, and_3F, Nat.and_two_pow_sub_one_eq_mod a 3, Nat.shiftLeft_eq, Nat.shiftLeft_eq,
    Nat.shiftLeft_eq, hhigh, hmid, or_eq_add (k := 6) (by omega) (by omega)]
  norm_num

theorem convert_wellFormed {w : StringRef} (h : WellFormed w) :
    ∃ c, (∀ rest, convertUTF8toUTF32 true (w ++ rest) = (convertUTF8toUTF32 true rest).map (c :: ·)) ∧
      encodeScalar c = w ∧ isValidUnicodeScalar c = true ∧ c ≤ 0x10FFFF := by
  rcases wellFormed_cases h with ⟨a, rfl⟩ | ⟨a, b, rfl⟩ | ⟨a, b, c, rfl⟩ | ⟨a, b, c, d, rfl⟩
  · have ha := wellFormed_one.1 h
    refine ⟨if Mangle.isValidSymbolChar a then a.toNat else a.toNat + 0xD800, fun rest => ?_, ?_, ?_, ?_⟩
    · rw [List.singleton_append, convertUTF8toUTF32.eq_def true (a :: rest)]
      simp only [if_pos (show a.toNat < 0x80 by omega), Bool.not_true, Bool.or_false]
    · have hs : ∀ s, (s = a.toNat ∨ s = a.toNat + 0xD800) → encodeScalar s = [a] := by
        intro s hs
        have hmap : (if 0xD800 ≤ s ∧ s < 0xD880 then s - 0xD800 else s) = a.toNat := by
          split_ifs <;> omega
        simp only [encodeScalar, hmap, if_pos (show a.toNat < 0x80 by omega), char_eq rfl]
      refine hs _ ?_
      split_ifs
      · exact .inl rfl
      · exact .inr rfl
    · split_ifs
      · simp [isValidUnicodeScalar]
        omega
      · simp [isValidUnicodeScalar]
        omega
    · split_ifs <;> omega
  · obtain ⟨ha, hb⟩ := wellFormed_two.1 h
    have hb' := hb
    unfold Tail at hb'
    refine ⟨a.toNat % 32 * 64 + b.toNat % 64, fun rest => ?_, ?_, ?_, by omega⟩
    · rw [List.cons_append, List.singleton_append, convertUTF8toUTF32.eq_def true (a :: b :: rest)]
      simp only [if_neg (show ¬ a.toNat < 0x80 by omega), if_neg (show ¬ a.toNat < 0xC0 by omega),
        if_pos (show a.toNat < 0xE0 by omega), (isContinuationByte_iff b).2 hb, if_true, codePoint_two]
    · generalize hs : a.toNat % 32 * 64 + b.toNat % 64 = s
      have hmap : (if 0xD800 ≤ s ∧ s < 0xD880 then s - 0xD800 else s) = s := if_neg (by omega)
      simp only [encodeScalar, hmap, if_neg (show ¬ s < 0x80 by omega), if_pos (show s < 0x800 by omega),
        Nat.shiftRight_eq_div_pow, continuation_eq, lead_or_eq.1 (show s / 2 ^ 6 < 0x20 by omega),
        char_eq (show 0xC0 + s / 2 ^ 6 = a.toNat by omega), char_eq (show 0x80 + s % 64 = b.toNat by omega)]
    · simp [isValidUnicodeScalar]
      omega
  · obtain ⟨ha, hc⟩ := wellFormed_three.1 h
    obtain ⟨hrange, hb⟩ := tail_of_lead3 ha
    have hb' := hb
    have hc' := hc
    unfold Tail at hb' hc'
    unfold Lead3 at ha
    generalize hs : a.toNat % 16 * 4096 + b.toNat % 64 * 64 + c.toNat % 64 = s
    have hscalar : 0x800 ≤ s ∧ s < 0x10000 ∧ ¬ (0xD800 ≤ s ∧ s < 0xE000) := by omega
    refine ⟨s, fun rest => ?_, ?_, ?_, by omega⟩
    · simp only [List.cons_append, List.nil_append]
      rw [convertUTF8toUTF32.eq_def true (a :: b :: c :: rest)]
      simp only [if_neg (show ¬ a.toNat < 0x80 by omega), if_neg (show ¬ a.toNat < 0xC0 by omega),
        if_neg (show ¬ a.toNat < 0xE0 by omega), if_pos (show a.toNat < 0xF0 by omega),
        (isContinuationByte_iff b).2 hb, (isContinuationByte_iff c).2 hc, Bool.and_self, if_true,
        codePoint_three, hs]
    · have hmap : (if 0xD800 ≤ s ∧ s < 0xD880 then s - 0xD800 else s) = s := if_neg (by omega)
      simp only [encodeScalar, hmap, if_neg (show ¬ s < 0x80 by omega), if_neg (show ¬ s < 0x800 by omega),
        if_pos (show s < 0x10000 by omega), Nat.shiftRight_eq_div_pow, continuation_eq,
        lead_or_eq.2.1 (show s / 2 ^ 12 < 0x10 by omega), char_eq (show 0xE0 + s / 2 ^ 12 = a.toNat by omega),
        char_eq (show 0x80 + s / 2 ^ 6 % 64 = b.toNat by omega),
        char_eq (show 0x80 + s % 64 = c.toNat by omega)]
    · simp [isValidUnicodeScalar]
      omega
  · obtain ⟨ha, hc, hd⟩ := wellFormed_four.1 h
    obtain ⟨hrange, hb⟩ := tail_of_lead4 ha
    have hb' := hb
    have hc' := hc
    have hd' := hd
    unfold Tail at hb' hc' hd'
    unfold Lead4 at ha
    generalize hs : a.toNat % 8 * 262144 + b.toNat % 64 * 4096 + c.toNat % 64 * 64 + d.toNat % 64 = s
    have hscalar : 0x10000 ≤ s ∧ s ≤ 0x10FFFF := by omega
    refine ⟨s, fun rest => ?_, ?_, ?_, by omega⟩
    · simp only [List.cons_append, List.nil_append]
      rw [convertUTF8toUTF32.eq_def true (a :: b :: c :: d :: rest)]
      simp only [if_neg (show ¬ a.toNat < 0x80 by omega), if_neg (show ¬ a.toNat < 0xC0 by omega),
        if_neg (show ¬ a.toNat < 0xE0 by omega), if_neg (show ¬ a.toNat < 0xF0 by omega),
        if_pos (show a.toNat < 0xF8 by omega), (isContinuationByte_iff b).2 hb,
        (isContinuationByte_iff c).2 hc, (isContinuationByte_iff d).2 hd, Bool.and_self, if_true,
        codePoint_four, hs]
    · have hmap : (if 0xD800 ≤ s ∧ s < 0xD880 then s - 0xD800 else s) = s := if_neg (by omega)
      simp only [encodeScalar, hmap, if_neg (show ¬ s < 0x80 by omega), if_neg (show ¬ s < 0x800 by omega),
        if_neg (show ¬ s < 0x10000 by omega), Nat.shiftRight_eq_div_pow, continuation_eq,
        lead_or_eq.2.2 (show s / 2 ^ 18 < 0x8 by omega), char_eq (show 0xF0 + s / 2 ^ 18 = a.toNat by omega),
        char_eq (show 0x80 + s / 2 ^ 12 % 64 = b.toNat by omega),
        char_eq (show 0x80 + s / 2 ^ 6 % 64 = c.toNat by omega),
        char_eq (show 0x80 + s % 64 = d.toNat by omega)]
    · simp [isValidUnicodeScalar]
      omega

theorem convert_words {words : List StringRef} (hwords : ∀ w ∈ words, WellFormed w) :
    ∃ s, convertUTF8toUTF32 true words.flatten = some s ∧ s.length = words.length ∧
      s.flatMap encodeScalar = words.flatten ∧ (∀ c ∈ s, isValidUnicodeScalar c = true) ∧
      ∀ c ∈ s, c ≤ 0x10FFFF := by
  induction words with
  | nil => exact ⟨[], rfl, rfl, rfl, by simp, by simp⟩
  | cons w words ih =>
      obtain ⟨c, h1, h2, h3, h4⟩ := convert_wellFormed (hwords w (by simp))
      obtain ⟨s, g1, g2, g3, g4, g5⟩ := ih fun w hw => hwords w (List.mem_cons_of_mem _ hw)
      refine ⟨c :: s, ?_, by simp [g2], ?_, ?_, ?_⟩
      · rw [List.flatten_cons, h1, g1]
        rfl
      · rw [List.flatMap_cons, h2, g3, List.flatten_cons]
      · simpa using ⟨h3, g4⟩
      · simpa using ⟨h4, g5⟩

theorem decodePunycodeUTF8_encodePunycodeUTF8 {words : List StringRef}
    (hwords : ∀ w ∈ words, WellFormed w) (hlen : (words.length + 1) * 0x110000 < 2 ^ 31) :
    ∃ out, encodePunycodeUTF8 words.flatten true = some (true, out) ∧
      decodePunycodeUTF8 out = some (true, words.flatten) := by
  obtain ⟨s, h1, h2, h3, h4, h5⟩ := convert_words hwords
  obtain ⟨out, hencode, hdecode⟩ := decodePunycode_encodePunycode s h4 h5 (by rw [h2]; exact hlen)
  refine ⟨out, by rw [encodePunycodeUTF8, h1]; exact hencode, ?_⟩
  simp only [decodePunycodeUTF8, hdecode, Option.bind_eq_bind, Option.bind_some, if_true, encodeToUTF8,
    if_pos (List.all_eq_true.2 h4), h3]

theorem length_encodePunycodeUTF8 {words : List StringRef} {out : StringRef}
    (hwords : ∀ w ∈ words, WellFormed w) (hlen : (words.length + 1) * 0x110000 < 2 ^ 31)
    (h : encodePunycodeUTF8 words.flatten true = some (true, out)) : out.length < 2 ^ 31 := by
  obtain ⟨s, h1, h2, -, h4, h5⟩ := convert_words hwords
  rw [encodePunycodeUTF8, h1] at h
  have hsize := length_encodePunycode h4 h5 (by rw [h2]; exact hlen) h
  omega

/-- The round trip, for code points and for UTF-8 text. -/
theorem punycode_roundTrip :
    (∀ input : List Nat, (∀ c ∈ input, isValidUnicodeScalar c = true) → (∀ c ∈ input, c ≤ 0x10FFFF) →
      (input.length + 1) * 0x110000 < 2 ^ 31 →
      ∃ out, encodePunycode input = some (true, out) ∧ decodePunycode out = some (true, input)) ∧
    ∀ words : List StringRef, (∀ w ∈ words, WellFormed w) → (words.length + 1) * 0x110000 < 2 ^ 31 →
      ∃ out, encodePunycodeUTF8 words.flatten true = some (true, out) ∧
        decodePunycodeUTF8 out = some (true, words.flatten) :=
  ⟨decodePunycode_encodePunycode, fun _ => decodePunycodeUTF8_encodePunycodeUTF8⟩

theorem punycode_roundTrip_nonAscii :
    (∃ out, encodePunycode [0x61, 0x10FFFF, 0xD82D] = some (true, out) ∧
      decodePunycode out = some (true, [0x61, 0x10FFFF, 0xD82D])) ∧
    ∃ out, encodePunycodeUTF8 [0xC3, 0xA9, 0x2D] true = some (true, out) ∧
      decodePunycodeUTF8 out = some (true, [0xC3, 0xA9, 0x2D]) :=
  ⟨punycode_roundTrip.1 [0x61, 0x10FFFF, 0xD82D] (by decide) (by decide) (by decide),
    punycode_roundTrip.2 [[0xC3, 0xA9], [0x2D]] (by decide) (by decide)⟩

end SwiftKStdlib.Demangling.Punycode
