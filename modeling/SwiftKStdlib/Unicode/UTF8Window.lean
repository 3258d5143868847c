import Mathlib.Tactic
import SwiftKStdlib.Unicode.UTF8

/-!
# What the UTF-8 parsers decide about a window

* `ForwardParser.parseMultipleCodeUnits_eq`, `ReverseParser.parseMultipleCodeUnits_eq` : the masks, in
  the ranges of Table 3-7;
* `forward_elements`, `reverse_elements` : the bytes of `bufferedScalar`; those of the reverse parser
  come with a carry;
* `forward_windowResult`, `reverse_windowResult` : the first, or the last, segment of the text.
-/

namespace SwiftKStdlib.Unicode.UTF8

open SwiftKStdlib.Lib

variable {a b c d : BitVec 8}

/-! ## Masks -/

def bytes (x₀ x₁ x₂ x₃ : BitVec 8) : BitVec 32 := x₃ ++ x₂ ++ x₁ ++ x₀

variable {x₀ x₁ x₂ x₃ : BitVec 8}

theorem toNat_append_byte {n : Nat} (x : BitVec n) (y : BitVec 8) :
    (x ++ y).toNat = 256 * x.toNat + y.toNat := by
  rw [BitVec.toNat_append, Nat.shiftLeft_eq, Nat.mul_comm,
    ← Nat.two_pow_add_eq_or_of_lt (by exact y.isLt)]

theorem toNat_bytes : (bytes x₀ x₁ x₂ x₃).toNat =
    x₀.toNat + 256 * (x₁.toNat + 256 * (x₂.toNat + 256 * x₃.toNat)) := by
  simp only [bytes, toNat_append_byte]
  omega

theorem extract_bytes (x₀ x₁ x₂ x₃ : BitVec 8) : (bytes x₀ x₁ x₂ x₃).extractLsb' 0 8 = x₀ ∧
    (bytes x₀ x₁ x₂ x₃).extractLsb' 8 8 = x₁ ∧ (bytes x₀ x₁ x₂ x₃).extractLsb' 16 8 = x₂ ∧
    (bytes x₀ x₁ x₂ x₃).extractLsb' 24 8 = x₃ := by
  simp only [bytes]
  refine ⟨?_, ?_, ?_, ?_⟩ <;> ext i hi <;> simp <;> grind

theorem mask_bytes (m v : BitVec 32) : bytes x₀ x₁ x₂ x₃ &&& m = v ↔
    x₀ &&& m.extractLsb' 0 8 = v.extractLsb' 0 8 ∧ x₁ &&& m.extractLsb' 8 8 = v.extractLsb' 8 8 ∧
      x₂ &&& m.extractLsb' 16 8 = v.extractLsb' 16 8 ∧ x₃ &&& m.extractLsb' 24 8 = v.extractLsb' 24 8 := by
  obtain ⟨h₀, h₁, h₂, h₃⟩ := extract_bytes x₀ x₁ x₂ x₃
  rw [eq_iff_extract]
  simp only [BitVec.extractLsb'_and, h₀, h₁, h₂, h₃]

theorem toNat_mask (m : BitVec 32) : (bytes x₀ x₁ x₂ x₃ &&& m).toNat =
    (x₀ &&& m.extractLsb' 0 8).toNat + 256 * ((x₁ &&& m.extractLsb' 8 8).toNat +
      256 * ((x₂ &&& m.extractLsb' 16 8).toNat + 256 * (x₃ &&& m.extractLsb' 24 8).toNat)) := by
  rw [← toNat_bytes]
  congr 1
  obtain ⟨h₀, h₁, h₂, h₃⟩ := extract_bytes x₀ x₁ x₂ x₃
  rw [eq_iff_extract]
  simp only [extract_bytes, BitVec.extractLsb'_and, h₀, h₁, h₂, h₃, and_self]

/-! What the masks test of a byte. -/

theorem and_E0_eq (x : BitVec 8) : x &&& 0xE0#8 = 0xC0#8 ↔ 0xC0 ≤ x.toNat ∧ x.toNat ≤ 0xDF := by
  decide +revert

theorem and_F0_eq (x : BitVec 8) : x &&& 0xF0#8 = 0xE0#8 ↔ 0xE0 ≤ x.toNat ∧ x.toNat ≤ 0xEF := by
  decide +revert

theorem and_F8_eq (x : BitVec 8) : x &&& 0xF8#8 = 0xF0#8 ↔ 0xF0 ≤ x.toNat ∧ x.toNat ≤ 0xF7 := by
  decide +revert

theorem and_C0_eq (x : BitVec 8) : x &&& 0xC0#8 = 0x80#8 ↔ Tail x.toNat := by decide +revert

theorem and_1E_eq (x : BitVec 8) : x &&& 0x1E#8 = 0#8 ↔ x.toNat % 32 < 2 := by decide +revert

theorem and_0F_eq (x : BitVec 8) : x &&& 0x0F#8 = 0#8 ↔ x.toNat % 16 = 0 := by decide +revert

theorem and_0F_eq_0D (x : BitVec 8) : x &&& 0x0F#8 = 0x0D#8 ↔ x.toNat % 16 = 0x0D := by
  decide +revert

theorem and_20_eq (x : BitVec 8) : x &&& 0x20#8 = 0#8 ↔ x.toNat % 64 < 32 := by decide +revert

theorem and_20_eq_20 (x : BitVec 8) : x &&& 0x20#8 = 0x20#8 ↔ 32 ≤ x.toNat % 64 := by decide +revert

theorem toNat_and_07 (x : BitVec 8) : (x &&& 0x07#8).toNat = x.toNat % 8 := by decide +revert

theorem toNat_and_30 (x : BitVec 8) : (x &&& 0x30#8).toNat = x.toNat % 64 / 16 * 16 := by
  decide +revert

theorem toNat_byteSwapped16 (x : BitVec 16) :
    (byteSwapped16 x).toNat = 256 * (x.toNat % 256) + x.toNat / 256 := by
  have := x.isLt
  rw [byteSwapped16, toNat_append_byte]
  simp only [BitVec.extractLsb'_toNat, Nat.shiftRight_eq_div_pow]
  omega

theorem isScalar_eq_false (x : BitVec 8) : isScalar x = false ↔ 0x80 ≤ x.toNat := by decide +revert

theorem lead3_iff {a b : Nat} (ha : 0xE0 ≤ a ∧ a ≤ 0xEF) (hb : Tail b) :
    ¬ (a % 16 = 0 ∧ b % 64 < 32) ∧ ¬ (a % 16 = 0x0D ∧ 32 ≤ b % 64) ↔ Lead3 a b := by
  simp only [Lead3, Tail] at *
  omega

theorem lead4_iff {a b : Nat} (ha : 0xF0 ≤ a ∧ a ≤ 0xF7) (hb : Tail b) :
    ¬ (a % 8 = 0 ∧ b % 64 / 16 * 16 = 0) ∧ 256 * (a % 8) + b % 64 / 16 * 16 ≤ 1024 ↔ Lead4 a b := by
  simp only [Lead4, Tail] at *
  omega

namespace ForwardParser

theorem top5Bits_iff (ha : 0xE0 ≤ x₀.toNat ∧ x₀.toNat ≤ 0xEF) (hb : Tail x₁.toNat) :
    ((bytes x₀ x₁ x₂ x₃ &&& 0b0010_0000__0000_1111 != 0 &&
      bytes x₀ x₁ x₂ x₃ &&& 0b0010_0000__0000_1111 != 0b0010_0000__0000_1101) = true) ↔
      Lead3 x₀.toNat x₁.toNat := by
  simp only [bne_iff_ne, ne_eq, Bool.and_eq_true, mask_bytes, BitVec.reduceExtractLsb',
    BitVec.and_zero, and_0F_eq, and_0F_eq_0D, and_20_eq, and_20_eq_20, and_true]
  exact lead3_iff ha hb

theorem top5bits_iff (ha : 0xF0 ≤ x₀.toNat ∧ x₀.toNat ≤ 0xF7) (hb : Tail x₁.toNat) :
    (((bytes x₀ x₁ x₂ x₃ &&& 0b0011_0000__0000_0111).setWidth 16 != 0 &&
      byteSwapped16 ((bytes x₀ x₁ x₂ x₃ &&& 0b0011_0000__0000_0111).setWidth 16) ≤
        0b0000_0100__0000_0000) = true) ↔ Lead4 x₀.toNat x₁.toNat := by
  have htop : ((bytes x₀ x₁ x₂ x₃ &&& 0b0011_0000__0000_0111).setWidth 16).toNat =
      x₀.toNat % 8 + 256 * (x₁.toNat % 64 / 16 * 16) := by
    rw [BitVec.toNat_setWidth, toNat_mask]
    simp only [BitVec.reduceExtractLsb', BitVec.and_zero, toNat_and_07, toNat_and_30, BitVec.reduceToNat]
    omega
  rw [← lead4_iff ha hb]
  generalize (bytes x₀ x₁ x₂ x₃ &&& 0b0011_0000__0000_0111).setWidth 16 = top at htop ⊢
  simp only [bne_iff_ne, ne_eq, Bool.and_eq_true, decide_eq_true_eq, BitVec.le_def,
    ← BitVec.toNat_inj, toNat_byteSwapped16, htop, BitVec.reduceToNat]
  have hlow : x₀.toNat % 8 < 256 := by omega
  rw [Nat.add_mul_mod_self_left, Nat.mod_eq_of_lt hlow, Nat.add_mul_div_left _ _ (by decide),
    Nat.div_eq_of_lt hlow]
  omega

theorem invalidLength_eq : invalidLength (bytes x₀ x₁ x₂ x₃) =
    if Lead3 x₀.toNat x₁.toNat then 2 else if Lead4 x₀.toNat x₁.toNat then
      if Tail x₂.toNat then 3 else 2 else 1 := by
  have h3 : bytes x₀ x₁ x₂ x₃ &&& 0b1100_0000__1111_0000 = 0b1000_0000__1110_0000 ↔
      (0xE0 ≤ x₀.toNat ∧ x₀.toNat ≤ 0xEF) ∧ Tail x₁.toNat := by
    simp only [mask_bytes, BitVec.reduceExtractLsb', BitVec.and_zero, and_F0_eq, and_C0_eq, and_true]
  have h4 : bytes x₀ x₁ x₂ x₃ &&& 0b1100_0000__1111_1000 = 0b1000_0000__1111_0000 ↔
      (0xF0 ≤ x₀.toNat ∧ x₀.toNat ≤ 0xF7) ∧ Tail x₁.toNat := by
    simp only [mask_bytes, BitVec.reduceExtractLsb', BitVec.and_zero, and_F8_eq, and_C0_eq, and_true]
  have htail : bytes x₀ x₁ x₂ x₃ &&& 0b1100_0000__0000_0000__0000_0000 =
      0b1000_0000__0000_0000__0000_0000 ↔ Tail x₂.toNat := by
    simp only [mask_bytes, BitVec.reduceExtractLsb', BitVec.and_zero, and_C0_eq, and_true, true_and]
  simp only [invalidLength, beq_iff_eq, h3, h4, htail]
  by_cases hr : (0xE0 ≤ x₀.toNat ∧ x₀.toNat ≤ 0xEF) ∧ Tail x₁.toNat
  · simp only [if_pos hr, top5Bits_iff hr.1 hr.2, not_lead4_of_range hr.1.2, if_false]
  · rw [if_neg hr, if_neg fun h => hr (tail_of_lead3 h)]
    by_cases hr : (0xF0 ≤ x₀.toNat ∧ x₀.toNat ≤ 0xF7) ∧ Tail x₁.toNat
    · simp only [if_pos hr, top5bits_iff hr.1 hr.2]
    · rw [if_neg hr, if_neg fun h => hr (tail_of_lead4 h)]

theorem parseMultipleCodeUnits_eq : parseMultipleCodeUnits (bytes x₀ x₁ x₂ x₃) =
    if WellFormed [x₀, x₁] then (true, 16) else if WellFormed [x₀, x₁, x₂] then (true, 24) else
      if WellFormed [x₀, x₁, x₂, x₃] then (true, 32) else
        (false, invalidLength (bytes x₀ x₁ x₂ x₃) * 8) := by
  have h2 : bytes x₀ x₁ x₂ x₃ &&& 0b1100_0000__1110_0000 = 0b1000_0000__1100_0000 ↔
      (0xC0 ≤ x₀.toNat ∧ x₀.toNat ≤ 0xDF) ∧ Tail x₁.toNat := by
    simp only [mask_bytes, BitVec.reduceExtractLsb', BitVec.and_zero, and_E0_eq, and_C0_eq, and_true]
  have h3 : bytes x₀ x₁ x₂ x₃ &&& 0b1100_0000__1100_0000__1111_0000 =
      0b1000_0000__1000_0000__1110_0000 ↔
      (0xE0 ≤ x₀.toNat ∧ x₀.toNat ≤ 0xEF) ∧ Tail x₁.toNat ∧ Tail x₂.toNat := by
    simp only [mask_bytes, BitVec.reduceExtractLsb', BitVec.and_zero, and_F0_eq, and_C0_eq, and_true]
  have h4 : bytes x₀ x₁ x₂ x₃ &&& 0b1100_0000__1100_0000__1100_0000__1111_1000 =
      0b1000_0000__1000_0000__1000_0000__1111_0000 ↔
      (0xF0 ≤ x₀.toNat ∧ x₀.toNat ≤ 0xF7) ∧ Tail x₁.toNat ∧ Tail x₂.toNat ∧ Tail x₃.toNat := by
    simp only [mask_bytes, BitVec.reduceExtractLsb', and_F8_eq, and_C0_eq]
  have hlow : bytes x₀ x₁ x₂ x₃ &&& 0b0001_1110 = 0 ↔ x₀.toNat % 32 < 2 := by
    simp only [mask_bytes, BitVec.reduceExtractLsb', BitVec.and_zero, and_1E_eq, and_true]
  simp only [parseMultipleCodeUnits, beq_iff_eq, bne_iff_ne, ne_eq, h2, h3, h4, hlow, wellFormed_two,
    wellFormed_three, wellFormed_four]
  by_cases hr : (0xC0 ≤ x₀.toNat ∧ x₀.toNat ≤ 0xDF) ∧ Tail x₁.toNat
  · have hn3 : ¬ Lead3 x₀.toNat x₁.toNat := fun h => by
      have := (tail_of_lead3 h).1
      omega
    have hn4 : ¬ Lead4 x₀.toNat x₁.toNat := not_lead4_of_range (by omega)
    have hC2 : (0xC2 ≤ x₀.toNat ∧ x₀.toNat ≤ 0xDF) ∧ Tail x₁.toNat ↔ ¬ x₀.toNat % 32 < 2 :=
      ⟨fun h => by omega, fun h => ⟨by omega, hr.2⟩⟩
    rw [if_pos hr]
    simp only [hC2, hn3, hn4, false_and, if_false]
    rfl
  · have hn2 : ¬ ((0xC2 ≤ x₀.toNat ∧ x₀.toNat ≤ 0xDF) ∧ Tail x₁.toNat) := fun h =>
      hr ⟨by omega, h.2⟩
    rw [if_neg hr, if_neg hn2]
    by_cases hr : (0xE0 ≤ x₀.toNat ∧ x₀.toNat ≤ 0xEF) ∧ Tail x₁.toNat ∧ Tail x₂.toNat
    · rw [if_pos hr]
      simp only [top5Bits_iff hr.1 hr.2.1, not_lead4_of_range hr.1.2, hr.2.2, and_true, false_and,
        if_false]
      rfl
    · have hn3 : ¬ (Lead3 x₀.toNat x₁.toNat ∧ Tail x₂.toNat) := fun h =>
        hr ⟨(tail_of_lead3 h.1).1, (tail_of_lead3 h.1).2, h.2⟩
      rw [if_neg hr, if_neg hn3]
      by_cases hr : (0xF0 ≤ x₀.toNat ∧ x₀.toNat ≤ 0xF7) ∧ Tail x₁.toNat ∧ Tail x₂.toNat ∧ Tail x₃.toNat
      · rw [if_pos hr]
        simp only [top5bits_iff hr.1 hr.2.1, hr.2.2, and_true]
        rfl
      · rw [if_neg hr, if_neg fun h => hr ⟨(tail_of_lead4 h.1).1, (tail_of_lead4 h.1).2, h.2⟩]

end ForwardParser

namespace ReverseParser

theorem top5Bits_iff {s m v : BitVec 32} {a b : BitVec 8} (ha : 0xE0 ≤ a.toNat ∧ a.toNat ≤ 0xEF)
    (hb : Tail b.toNat) (hm : s &&& m = 0 ↔ b &&& 0x20 = 0 ∧ a &&& 0x0F = 0)
    (hv : s &&& m = v ↔ b &&& 0x20 = 0x20 ∧ a &&& 0x0F = 0x0D) :
    ((s &&& m != 0 && s &&& m != v) = true) ↔ Lead3 a.toNat b.toNat := by
  rw [← lead3_iff ha hb, ← and_20_eq, ← and_20_eq_20, ← and_0F_eq, ← and_0F_eq_0D, and_comm (a := a &&& _ = _),
    and_comm (a := a &&& _ = _)]
  simp only [bne_iff_ne, ne_eq, Bool.and_eq_true, hm, hv]
  rfl

theorem top5bits_iff {s m v : BitVec 32} {a b : BitVec 8} {k : Nat}
    (ha : 0xF0 ≤ a.toNat ∧ a.toNat ≤ 0xF7) (hb : Tail b.toNat)
    (hm : (s &&& m).toNat = (256 * (a.toNat % 8) + b.toNat % 64 / 16 * 16) * 2 ^ k)
    (hv : v.toNat = 1024 * 2 ^ k) :
    ((s &&& m != 0 && s &&& m ≤ v) = true) ↔ Lead4 a.toNat b.toNat := by
  rw [← lead4_iff ha hb]
  simp only [bne_iff_ne, ne_eq, Bool.and_eq_true, decide_eq_true_eq, BitVec.le_def, ← BitVec.toNat_inj,
    hm, hv, Nat.mul_le_mul_right_iff (Nat.two_pow_pos k), BitVec.reduceToNat, Nat.mul_eq_zero]
  have := Nat.two_pow_pos k
  omega

theorem toNat_top5bits :
    (bytes x₀ x₁ x₂ x₃ &&& 0b0111__0011_0000).toNat =
        (256 * (x₁.toNat % 8) + x₀.toNat % 64 / 16 * 16) * 2 ^ 0 ∧
      (bytes x₀ x₁ x₂ x₃ &&& 0b0111__0011_0000__0000_0000).toNat =
        (256 * (x₂.toNat % 8) + x₁.toNat % 64 / 16 * 16) * 2 ^ 8 ∧
      (bytes x₀ x₁ x₂ x₃ &&& 0b0111__0011_0000__0000_0000__0000_0000).toNat =
        (256 * (x₃.toNat % 8) + x₂.toNat % 64 / 16 * 16) * 2 ^ 16 := by
  simp only [toNat_mask, BitVec.reduceExtractLsb', BitVec.and_zero, toNat_and_07, toNat_and_30,
    BitVec.reduceToNat]
  omega

theorem invalidLength_eq : invalidLength (bytes x₀ x₁ x₂ x₃) =
    if Lead3 x₁.toNat x₀.toNat ∨ Lead4 x₁.toNat x₀.toNat then 2 else
      if Lead4 x₂.toNat x₁.toNat ∧ Tail x₀.toNat then 3 else 1 := by
  have h3 : bytes x₀ x₁ x₂ x₃ &&& 0b1111_0000__1100_0000 = 0b1110_0000__1000_0000 ↔
      Tail x₀.toNat ∧ 0xE0 ≤ x₁.toNat ∧ x₁.toNat ≤ 0xEF := by
    simp only [mask_bytes, BitVec.reduceExtractLsb', BitVec.and_zero, and_F0_eq, and_C0_eq, and_true]
  have h4 : bytes x₀ x₁ x₂ x₃ &&& 0b1111_1000__1100_0000 = 0b1111_0000__1000_0000 ↔
      Tail x₀.toNat ∧ 0xF0 ≤ x₁.toNat ∧ x₁.toNat ≤ 0xF7 := by
    simp only [mask_bytes, BitVec.reduceExtractLsb', BitVec.and_zero, and_F8_eq, and_C0_eq, and_true]
  have h4' : bytes x₀ x₁ x₂ x₃ &&& 0b1111_1000__1100_0000__1100_0000 =
      0b1111_0000__1000_0000__1000_0000 ↔
      Tail x₀.toNat ∧ Tail x₁.toNat ∧ 0xF0 ≤ x₂.toNat ∧ x₂.toNat ≤ 0xF7 := by
    simp only [mask_bytes, BitVec.reduceExtractLsb', BitVec.and_zero, and_F8_eq, and_C0_eq, and_true]
  simp only [invalidLength, beq_iff_eq, h3, h4, h4']
  by_cases hr : Tail x₀.toNat ∧ 0xE0 ≤ x₁.toNat ∧ x₁.toNat ≤ 0xEF
  · have hn : ¬ Lead4 x₂.toNat x₁.toNat := fun h => by
      have := (tail_of_lead4 h).2.2
      omega
    rw [if_pos hr, if_congr (top5Bits_iff hr.2 hr.1 (by simp [mask_bytes]) (by simp [mask_bytes])) rfl rfl]
    simp only [not_lead4_of_range hr.2.2, hn, or_false, false_and, if_false]
  · have hn3 : ¬ Lead3 x₁.toNat x₀.toNat := fun h => hr ⟨(tail_of_lead3 h).2, (tail_of_lead3 h).1⟩
    rw [if_neg hr]
    by_cases hr : Tail x₀.toNat ∧ 0xF0 ≤ x₁.toNat ∧ x₁.toNat ≤ 0xF7
    · have hn : ¬ Lead4 x₂.toNat x₁.toNat := fun h => by
        have := (tail_of_lead4 h).2.2
        omega
      rw [if_pos hr, if_congr (top5bits_iff (k := 0) hr.2 hr.1 toNat_top5bits.1 rfl) rfl rfl]
      simp only [hn3, hn, false_or, false_and, if_false]
    · have hn4 : ¬ Lead4 x₁.toNat x₀.toNat := fun h => hr ⟨(tail_of_lead4 h).2, (tail_of_lead4 h).1⟩
      rw [if_neg hr]
      by_cases hr : Tail x₀.toNat ∧ Tail x₁.toNat ∧ 0xF0 ≤ x₂.toNat ∧ x₂.toNat ≤ 0xF7
      · rw [if_pos hr, if_congr (top5bits_iff (k := 8) hr.2.2 hr.2.1 toNat_top5bits.2.1 rfl) rfl rfl]
        simp only [hn3, hn4, or_self, hr.1, and_true, if_false]
      · rw [if_neg hr, if_neg (by simp only [hn3, hn4, or_self, not_false_iff]), if_neg fun h =>
          hr ⟨h.2, (tail_of_lead4 h.1).2, (tail_of_lead4 h.1).1⟩]

theorem parseMultipleCodeUnits_eq : parseMultipleCodeUnits (bytes x₀ x₁ x₂ x₃) =
    if WellFormed [x₁, x₀] then (true, 16) else if WellFormed [x₂, x₁, x₀] then (true, 24) else
      if WellFormed [x₃, x₂, x₁, x₀] then (true, 32) else
        (false, invalidLength (bytes x₀ x₁ x₂ x₃) * 8) := by
  have h2 : bytes x₀ x₁ x₂ x₃ &&& 0b1110_0000__1100_0000 = 0b1100_0000__1000_0000 ↔
      Tail x₀.toNat ∧ 0xC0 ≤ x₁.toNat ∧ x₁.toNat ≤ 0xDF := by
    simp only [mask_bytes, BitVec.reduceExtractLsb', BitVec.and_zero, and_E0_eq, and_C0_eq, and_true]
  have h3 : bytes x₀ x₁ x₂ x₃ &&& 0b1111_0000__1100_0000__1100_0000 =
      0b1110_0000__1000_0000__1000_0000 ↔
      Tail x₀.toNat ∧ Tail x₁.toNat ∧ 0xE0 ≤ x₂.toNat ∧ x₂.toNat ≤ 0xEF := by
    simp only [mask_bytes, BitVec.reduceExtractLsb', BitVec.and_zero, and_F0_eq, and_C0_eq, and_true]
  have h4 : bytes x₀ x₁ x₂ x₃ &&& 0b1111_1000__1100_0000__1100_0000__1100_0000 =
      0b1111_0000__1000_0000__1000_0000__1000_0000 ↔
      Tail x₀.toNat ∧ Tail x₁.toNat ∧ Tail x₂.toNat ∧ 0xF0 ≤ x₃.toNat ∧ x₃.toNat ≤ 0xF7 := by
    simp only [mask_bytes, BitVec.reduceExtractLsb', and_F8_eq, and_C0_eq]
  have hlow : bytes x₀ x₁ x₂ x₃ &&& 0b0001_1110__0000_0000 = 0 ↔ x₁.toNat % 32 < 2 := by
    simp only [mask_bytes, BitVec.reduceExtractLsb', BitVec.and_zero, and_1E_eq, and_true, true_and]
  simp only [parseMultipleCodeUnits, beq_iff_eq, bne_iff_ne, ne_eq, h2, h3, h4, hlow, wellFormed_two,
    wellFormed_three, wellFormed_four]
  by_cases hr : Tail x₀.toNat ∧ 0xC0 ≤ x₁.toNat ∧ x₁.toNat ≤ 0xDF
  · have hn3 : ¬ Lead3 x₂.toNat x₁.toNat := fun h => by
      have := (tail_of_lead3 h).2.2
      omega
    have hn1 : ¬ Tail x₁.toNat := fun h => by
      have := h.2
      omega
    have hC2 : (0xC2 ≤ x₁.toNat ∧ x₁.toNat ≤ 0xDF) ∧ Tail x₀.toNat ↔ ¬ x₁.toNat % 32 < 2 :=
      ⟨fun h => by omega, fun h => ⟨by omega, hr.1⟩⟩
    rw [if_pos hr]
    simp only [hC2, hn3, hn1, false_and, and_false, if_false]
    rfl
  · have hn2 : ¬ ((0xC2 ≤ x₁.toNat ∧ x₁.toNat ≤ 0xDF) ∧ Tail x₀.toNat) := fun h =>
      hr ⟨h.2, by omega⟩
    rw [if_neg hr, if_neg hn2]
    by_cases hr : Tail x₀.toNat ∧ Tail x₁.toNat ∧ 0xE0 ≤ x₂.toNat ∧ x₂.toNat ≤ 0xEF
    · have hn4 : ¬ Lead4 x₃.toNat x₂.toNat := fun h => by
        have := (tail_of_lead4 h).2.2
        omega
      rw [if_pos hr, if_congr (top5Bits_iff hr.2.2 hr.2.1 (by simp [mask_bytes]) (by simp [mask_bytes]))
        rfl rfl]
      simp only [hr.1, and_true, hn4, false_and, if_false]
      rfl
    · have hn3 : ¬ (Lead3 x₂.toNat x₁.toNat ∧ Tail x₀.toNat) := fun h =>
        hr ⟨h.2, (tail_of_lead3 h.1).2, (tail_of_lead3 h.1).1⟩
      rw [if_neg hr, if_neg hn3]
      by_cases hr : Tail x₀.toNat ∧ Tail x₁.toNat ∧ Tail x₂.toNat ∧ 0xF0 ≤ x₃.toNat ∧ x₃.toNat ≤ 0xF7
      · rw [if_pos hr, if_congr (top5bits_iff (k := 16) hr.2.2.2 hr.2.2.1 toNat_top5bits.2.2 rfl) rfl rfl]
        simp only [hr.1, hr.2.1, and_true]
        rfl
      · rw [if_neg hr, if_neg fun h => hr ⟨h.2.2, h.2.1, (tail_of_lead4 h.1).2, (tail_of_lead4 h.1).1⟩]

end ReverseParser

/-! ## Encoded scalars -/

/-- The biased bits of `s`. -/
def biased : List (BitVec 8) → Nat
  | [] => 0
  | x :: s => x.toNat + 1 + 256 * biased s

theorem elements_go {n : Nat} {biasedBits : BitVec 32} {s : List (BitVec 8)} (hn : s.length ≤ n)
    (hs : ∀ x ∈ s, x.toNat < 255) (h : biasedBits.toNat = biased s) :
    ValidUTF8Buffer.elements.go n biasedBits = s := by
  induction n generalizing biasedBits s with
  | zero =>
      rw [List.length_eq_zero_iff.1 (Nat.le_zero.1 hn)]
      rfl
  | succ n ih =>
      cases s with
      | nil =>
          have hz : biasedBits = 0 := BitVec.eq_of_toNat_eq h
          rw [ValidUTF8Buffer.elements.go, if_pos hz]
      | cons x s =>
          have hx := hs x (by simp)
          rw [biased] at h
          have hz : biasedBits ≠ 0 := by
            rintro rfl
            simp only [BitVec.reduceToNat] at h
            omega
          have hfirst : biasedBits.setWidth 8 - 1 = x := by
            apply BitVec.eq_of_toNat_eq
            rw [BitVec.toNat_sub, BitVec.toNat_setWidth, h]
            simp only [BitVec.reduceToNat]
            omega
          rw [ValidUTF8Buffer.elements.go, if_neg hz, hfirst,
            ih (by simpa using hn) fun y hy => hs y (List.mem_cons_of_mem x hy)]
          rw [BitVec.toNat_ushiftRight, Nat.shiftRight_eq_div_pow, h]
          omega

theorem elements_eq {b : ValidUTF8Buffer} {s : List (BitVec 8)} (hn : s.length ≤ 4)
    (hs : ∀ x ∈ s, x.toNat < 255) (h : b.biasedBits.toNat = biased s) : b.elements = s :=
  elements_go hn hs h

theorem elements_collectionOfOne (x : BitVec 8) (hx : isScalar x = true) :
    (ValidUTF8Buffer.collectionOfOne x).elements = [x] := by
  decide +revert

theorem toNat_and_lowBits (x : BitVec 32) {n : Nat} (hn : n = 16 ∨ n = 24 ∨ n = 32) :
    (x &&& lowBits n).toNat = x.toNat % 2 ^ n := by
  have hlow : (lowBits n).toNat = 2 ^ n - 1 := by
    rcases hn with rfl | rfl | rfl <;> decide
  rw [BitVec.toNat_and, hlow, Nat.and_two_pow_sub_one_eq_mod]

theorem byteSwapped_bytes : byteSwapped (bytes x₀ x₁ x₂ x₃) = bytes x₃ x₂ x₁ x₀ := by
  obtain ⟨h₀, h₁, h₂, h₃⟩ := extract_bytes x₀ x₁ x₂ x₃
  rw [byteSwapped, h₀, h₁, h₂, h₃]
  rfl

theorem forward_elements {n : Nat} (hn : n = 2 ∨ n = 3 ∨ n = 4)
    (hs : ∀ x ∈ [x₀, x₁, x₂, x₃].take n, x.toNat < 255) :
    (ForwardParser.bufferedScalar (bytes x₀ x₁ x₂ x₃) (BitVec.ofNat 8 (8 * n))).elements =
      [x₀, x₁, x₂, x₃].take n := by
  refine elements_eq (by simp) hs ?_
  have hlow : (BitVec.ofNat 8 (8 * n)).toNat = 8 * n := by
    rcases hn with rfl | rfl | rfl <;> rfl
  rw [ForwardParser.bufferedScalar, hlow, toNat_and_lowBits _ (by omega), BitVec.toNat_add, toNat_bytes]
  rcases hn with rfl | rfl | rfl <;> simp [biased] at hs ⊢ <;> omega

/-- What the two bytes of the window before a sequence of `n` bytes carry into it, the nearer one
first. -/
def carry (n : Nat) (x y : BitVec 8) : BitVec 8 :=
  if n = 2 ∧ (x = 0xFF ∨ x = 0xFE ∧ y = 0xFF) ∨ n = 3 ∧ y = 0xFF then 1 else 0

def carried (c : BitVec 8) : List (BitVec 8) → List (BitVec 8)
  | [] => []
  | x :: s => (x + c) :: s

theorem toNat_carry (n : Nat) (x y : BitVec 8) : (carry n x y).toNat =
    if n = 2 ∧ (x.toNat = 0xFF ∨ x.toNat = 0xFE ∧ y.toNat = 0xFF) ∨ n = 3 ∧ y.toNat = 0xFF
    then 1 else 0 := by
  rw [carry, apply_ite BitVec.toNat]
  simp only [← BitVec.toNat_inj, BitVec.reduceToNat]

theorem toNat_carry_le (n : Nat) (x y : BitVec 8) : (carry n x y).toNat ≤ 1 := by
  rw [toNat_carry]
  split_ifs <;> decide

theorem reverse_elements {n : Nat} (hn : n = 2 ∨ n = 3 ∨ n = 4)
    (hs : ∀ x ∈ [x₀, x₁, x₂, x₃].take n, x.toNat < 254) :
    (ReverseParser.bufferedScalar (bytes x₀ x₁ x₂ x₃) (BitVec.ofNat 8 (8 * n))).elements =
      carried (carry n x₂ x₃) ([x₀, x₁, x₂, x₃].take n).reverse := by
  have hshift : ((((32 : BitVec 8) - BitVec.ofNat 8 (8 * n)).toNat : Int) % 32).toNat = 32 - 8 * n := by
    rcases hn with rfl | rfl | rfl <;> rfl
  have hbits : (ReverseParser.bufferedScalar (bytes x₀ x₁ x₂ x₃) (BitVec.ofNat 8 (8 * n))).biasedBits.toNat =
      (x₃.toNat + 256 * (x₂.toNat + 256 * (x₁.toNat + 256 * x₀.toNat)) + 16843009) % 2 ^ 32 /
        2 ^ (32 - 8 * n) := by
    rw [ReverseParser.bufferedScalar, maskingShiftRight, hshift, BitVec.toNat_ushiftRight,
      Nat.shiftRight_eq_div_pow, BitVec.toNat_add, byteSwapped_bytes, toNat_bytes]
    rfl
  obtain ⟨x, s, hx⟩ : ∃ x s, ([x₀, x₁, x₂, x₃].take n).reverse = x :: s := by
    rcases hn with rfl | rfl | rfl <;> exact ⟨_, _, rfl⟩
  have hmem : ∀ y ∈ x :: s, y.toNat < 254 := fun y hy => hs y (by rw [← hx] at hy; simpa using hy)
  have hc : (x + carry n x₂ x₃).toNat = x.toNat + (carry n x₂ x₃).toNat := by
    have := hmem x (by simp)
    rw [BitVec.toNat_add, Nat.mod_eq_of_lt]
    have := toNat_carry_le n x₂ x₃
    omega
  rw [hx, carried]
  refine elements_eq ?_ ?_ ?_
  · have := congrArg List.length hx
    simp at this
    simp
    omega
  · intro y hy
    rcases List.mem_cons.1 hy with rfl | hy
    · have := hmem x (by simp)
      have := toNat_carry_le n x₂ x₃
      omega
    · exact (hmem y (List.mem_cons_of_mem x hy)).trans (by decide)
  · rw [hbits, biased, hc, toNat_carry]
    rcases hn with rfl | rfl | rfl <;> obtain ⟨rfl, rfl⟩ := List.cons.inj hx <;>
      simp [biased] at hmem ⊢
    · split_ifs <;> omega
    · split_ifs <;> omega
    · omega

/-! ## Windows -/

theorem ofList_storage (s : List (BitVec 8)) : (UIntBuffer.ofList (s.take 4)).storage =
    bytes (s.getD 0 0) (s.getD 1 0) (s.getD 2 0) (s.getD 3 0) := by
  apply BitVec.eq_of_toNat_eq
  rw [toNat_bytes, UIntBuffer.ofList, BitVec.toNat_ofNat, Nat.mod_eq_of_lt]
  · rcases s with _ | ⟨a, _ | ⟨b, _ | ⟨c, _ | ⟨d, s⟩⟩⟩⟩
    · rfl
    all_goals simp [UIntBuffer.packed]
  · refine (UIntBuffer.packed_lt _).trans_le (Nat.pow_le_pow_right (by decide) ?_)
    rw [List.length_take]
    omega

def window (s : List (BitVec 8)) : List (BitVec 8) := [s.getD 0 0, s.getD 1 0, s.getD 2 0, s.getD 3 0]

theorem take_window {s : List (BitVec 8)} {n : Nat} (hn : n ≤ 4) (hs : n ≤ s.length) :
    s.take n = (window s).take n := by
  obtain ⟨t, ht⟩ : s.take 4 <+: window s := by
    match s with
    | [] => exact List.nil_prefix
    | [a] => exact ⟨[0, 0, 0], rfl⟩
    | [a, b] => exact ⟨[0, 0], rfl⟩
    | [a, b, c] => exact ⟨[0], rfl⟩
    | a :: b :: c :: d :: s => exact ⟨[], rfl⟩
  rw [← ht, List.take_append_of_le_length (by rw [List.length_take]; omega), List.take_take,
    Nat.min_eq_left hn]

theorem lt_length_of_pos {s : List (BitVec 8)} {n : Nat} (h : 0 < (s.getD n 0).toNat) :
    n < s.length := by
  by_contra hn
  rw [List.getD_eq_getElem?_getD, List.getElem?_eq_none (by omega)] at h
  exact absurd h (by decide)

theorem lt_length_of_tail {s : List (BitVec 8)} {n : Nat} (h : Tail (s.getD n 0).toNat) :
    n < s.length :=
  lt_length_of_pos ((by decide : 0 < 0x80).trans_le h.1)

theorem lt_length_of_lead {s : List (BitVec 8)} {n b : Nat}
    (h : Lead3 (s.getD n 0).toNat b ∨ Lead4 (s.getD n 0).toNat b) : n < s.length := by
  refine lt_length_of_pos ?_
  rcases h with h | h
  · exact (by decide : 0 < 0xE0).trans_le (tail_of_lead3 h).1.1
  · exact (by decide : 0 < 0xF0).trans_le (tail_of_lead4 h).1.1

theorem maximal_of_window {s : List (BitVec 8)} {n : Nat} (hpos : 0 < n) (hs : n ≤ s.length)
    (hw : ∀ m, 0 < m → m ≤ 4 → ¬ WellFormed ((window s).take m))
    (hi : Segment.Initial WellFormed ((window s).take n) ∨ n = 1)
    (hl : ∀ m, n < m → m ≤ 4 → ¬ Segment.Initial WellFormed ((window s).take m)) (hn : n ≤ 4) :
    Segment.Maximal WellFormed (s.take n) (s.drop n) where
  ne_nil h := by
    have := congrArg List.length h
    rw [List.length_take_of_le hs, List.length_nil] at this
    omega
  not_word q hq hword := by
    rw [List.take_append_drop] at hq
    obtain ⟨hq0, hq4⟩ := wellFormed_length hword
    refine hw q.length hq0 hq4 ?_
    rwa [← take_window hq4 hq.length_le, ← List.prefix_iff_eq_take.1 hq]
  initial := by
    rw [take_window hn hs]
    exact hi.imp_right fun h => by rw [← take_window hn hs, List.length_take_of_le hs, h]
  longest q hq hinit := by
    rw [List.take_append_drop] at hq
    rw [List.length_take_of_le hs]
    by_contra hlt
    have hq4 := initial_length hinit
    refine hl q.length (by omega) hq4 ?_
    rwa [← take_window hq4 hq.length_le, ← List.prefix_iff_eq_take.1 hq]

theorem initial_four : Segment.Initial WellFormed [a, b, c, d] ↔ WellFormed [a, b, c, d] := by
  refine ⟨fun ⟨t, ht⟩ => ?_, Segments.initial_of_word⟩
  have hlen := (wellFormed_length ht).2
  have ht0 : t.length = 0 := by
    simp only [List.cons_append, List.nil_append, List.length_cons] at hlen
    omega
  rwa [List.length_eq_zero_iff.1 ht0, List.append_nil] at ht

theorem lt_of_wellFormed {s : List (BitVec 8)} (h : WellFormed s) : ∀ x ∈ s, x.toNat < 0xF5 := by
  rcases wellFormed_cases h with ⟨a, rfl⟩ | ⟨a, b, rfl⟩ | ⟨a, b, c, rfl⟩ | ⟨a, b, c, d, rfl⟩ <;>
    simp only [wellFormed_one, wellFormed_two, wellFormed_three, wellFormed_four, Lead3, Lead4,
      Tail] at h <;>
    simp <;>
    omega

theorem prefix_cases {m : Nat} (hpos : 0 < m) (hm : m ≤ 4) : m = 1 ∨ m = 2 ∨ m = 3 ∨ m = 4 := by omega

theorem not_wellFormed_take {s : List (BitVec 8)} (h1 : 0x80 ≤ (s.getD 0 0).toNat)
    (h2 : ¬ WellFormed [s.getD 0 0, s.getD 1 0]) (h3 : ¬ WellFormed [s.getD 0 0, s.getD 1 0, s.getD 2 0])
    (h4 : ¬ WellFormed (window s)) (m : Nat) (hpos : 0 < m) (hm : m ≤ 4) :
    ¬ WellFormed ((window s).take m) := by
  rcases prefix_cases hpos hm with rfl | rfl | rfl | rfl
  · intro h
    have := wellFormed_one.1 h
    omega
  · exact h2
  · exact h3
  · exact h4

theorem forward_windowResult {s : List (BitVec 8)} (hs : 1 ≤ s.length)
    (hx : 0x80 ≤ (s.getD 0 0).toNat) :
    ∃ seg n, forwardParser.windowResult (UIntBuffer.ofList (s.take 4)) = (seg, 8 * n) ∧
      First WellFormed s (seg, n) ∧ 0 < n ∧ n ≤ 4 ∧ n ≤ s.length := by
  have hparse : forwardParser.parseMultipleCodeUnits (UIntBuffer.ofList (s.take 4)) = _ :=
    (congrArg _ (ofList_storage s)).trans ForwardParser.parseMultipleCodeUnits_eq
  have hword : ∀ n, n = 2 ∨ n = 3 ∨ n = 4 → WellFormed ((window s).take n) → n ≤ s.length →
      forwardParser.parseMultipleCodeUnits (UIntBuffer.ofList (s.take 4)) =
        (true, BitVec.ofNat 8 (8 * n)) →
      ∃ seg n, forwardParser.windowResult (UIntBuffer.ofList (s.take 4)) = (seg, 8 * n) ∧
        First WellFormed s (seg, n) ∧ 0 < n ∧ n ≤ 4 ∧ n ≤ s.length := by
    intro n hn hw hlen h
    have hlt := fun y hy => (lt_of_wellFormed hw y hy).trans (by decide : 0xF5 < 255)
    have helements := forward_elements hn hlt
    have hbits : (BitVec.ofNat 8 (8 * n)).toNat = 8 * n := by
      rw [BitVec.toNat_ofNat, Nat.mod_eq_of_lt (by omega)]
    rw [← ofList_storage, ← window, ← take_window (by omega) hlen] at helements
    rw [← take_window (by omega) hlen] at hw
    refine ⟨.word (s.take n), n, ?_, .word hw, by omega, by omega, hlen⟩
    rw [UTFParser.windowResult_valid h, hbits]
    exact congrArg (fun l => (Segment.word l, 8 * n)) helements
  have hill : ∀ n, 0 < n → n ≤ 3 → n ≤ s.length →
      forwardParser.parseMultipleCodeUnits (UIntBuffer.ofList (s.take 4)) =
        (false, BitVec.ofNat 8 (8 * n)) → Segment.Maximal WellFormed (s.take n) (s.drop n) →
      ∃ seg n, forwardParser.windowResult (UIntBuffer.ofList (s.take 4)) = (seg, 8 * n) ∧
        First WellFormed s (seg, n) ∧ 0 < n ∧ n ≤ 4 ∧ n ≤ s.length := by
    intro n hpos hn hlen h hmax
    have hbits : (BitVec.ofNat 8 (8 * n)).toNat = 8 * n := by
      rw [BitVec.toNat_ofNat, Nat.mod_eq_of_lt (by omega)]
    exact ⟨.illFormed n, n, UTFParser.windowResult_error (by decide) h hbits, .illFormed hlen hmax,
      hpos, by omega, hlen⟩
  rw [ForwardParser.invalidLength_eq] at hparse
  split_ifs at hparse with h2 h3 h4 hlead3 hlead4 htail
  · have hlen := lt_length_of_tail (wellFormed_two.1 h2).2
    exact hword 2 (by omega) h2 hlen hparse
  · have hlen := lt_length_of_tail (wellFormed_three.1 h3).2
    exact hword 3 (by omega) h3 hlen hparse
  · have hlen := lt_length_of_tail (wellFormed_four.1 h4).2.2
    exact hword 4 (by omega) h4 hlen hparse
  · -- a 2-byte prefix of a 3-byte sequence
    have hlen := lt_length_of_tail (tail_of_lead3 hlead3).2
    refine hill 2 (by omega) (by omega) hlen hparse (maximal_of_window (by omega) hlen
      (not_wellFormed_take hx h2 h3 h4) (.inl (initial_two.2 (.inr (.inl hlead3)))) ?_ (by omega))
    intro m hm hm4 hinit
    rcases prefix_cases (by omega) hm4 with rfl | rfl | rfl | rfl
    · omega
    · omega
    · exact (initial_three.1 hinit).elim h3 fun h =>
        not_lead4_of_range (tail_of_lead3 hlead3).1.2 h.1
    · exact h4 (initial_four.1 hinit)
  · -- a 3-byte prefix of a 4-byte sequence
    have hlen := lt_length_of_tail htail
    refine hill 3 (by omega) (by omega) hlen hparse (maximal_of_window (by omega) hlen
      (not_wellFormed_take hx h2 h3 h4) (.inl (initial_three.2 (.inr ⟨hlead4, htail⟩))) ?_ (by omega))
    intro m hm hm4 hinit
    obtain rfl : m = 4 := by omega
    exact h4 (initial_four.1 hinit)
  · -- a 2-byte prefix of a 4-byte sequence
    have hlen := lt_length_of_tail (tail_of_lead4 hlead4).2
    refine hill 2 (by omega) (by omega) hlen hparse (maximal_of_window (by omega) hlen
      (not_wellFormed_take hx h2 h3 h4) (.inl (initial_two.2 (.inr (.inr hlead4)))) ?_ (by omega))
    intro m hm hm4 hinit
    rcases prefix_cases (by omega) hm4 with rfl | rfl | rfl | rfl
    · omega
    · omega
    · exact (initial_three.1 hinit).elim h3 fun h => htail h.2
    · exact h4 (initial_four.1 hinit)
  · refine hill 1 (by omega) (by omega) hs hparse (maximal_of_window (by omega) hs
      (not_wellFormed_take hx h2 h3 h4) (.inr rfl) ?_ (by omega))
    have hn2 : ¬ Segment.Initial WellFormed ((window s).take 2) := fun h =>
      (initial_two.1 h).elim h2 fun h => h.elim hlead3 hlead4
    exact fun m hm _ hinit => hn2 (Segments.initial_of_prefix hinit (List.take_prefix_take_left (by omega)))

theorem not_wellFormed_take_reverse {s : List (BitVec 8)} (h1 : 0x80 ≤ (s.getD 0 0).toNat)
    (h2 : ¬ WellFormed [s.getD 1 0, s.getD 0 0]) (h3 : ¬ WellFormed [s.getD 2 0, s.getD 1 0, s.getD 0 0])
    (h4 : ¬ WellFormed (window s).reverse) (m : Nat) (hpos : 0 < m) (hm : m ≤ 4) :
    ¬ WellFormed ((window s).take m).reverse := by
  rcases prefix_cases hpos hm with rfl | rfl | rfl | rfl
  · intro h
    have := wellFormed_one.1 h
    omega
  · exact h2
  · exact h3
  · exact h4

theorem reverse_windowResult {s : List (BitVec 8)} (hs : 1 ≤ s.length)
    (hx : 0x80 ≤ (s.getD 0 0).toNat) :
    ∃ n, 0 < n ∧ n ≤ 4 ∧ n ≤ s.length ∧
      (WellFormed (s.take n).reverse ∧
          reverseParser.windowResult (UIntBuffer.ofList (s.take 4)) =
            (.word (carried (carry n (s.getD 2 0) (s.getD 3 0)) (s.take n).reverse), 8 * n) ∨
        Last WellFormed s (.illFormed n, n) ∧
          reverseParser.windowResult (UIntBuffer.ofList (s.take 4)) = (.illFormed n, 8 * n)) := by
  have hparse : reverseParser.parseMultipleCodeUnits (UIntBuffer.ofList (s.take 4)) = _ :=
    (congrArg _ (ofList_storage s)).trans ReverseParser.parseMultipleCodeUnits_eq
  have hword : ∀ n, n = 2 ∨ n = 3 ∨ n = 4 → WellFormed ((window s).take n).reverse → n ≤ s.length →
      reverseParser.parseMultipleCodeUnits (UIntBuffer.ofList (s.take 4)) =
        (true, BitVec.ofNat 8 (8 * n)) → WellFormed (s.take n).reverse ∧
      reverseParser.windowResult (UIntBuffer.ofList (s.take 4)) =
        (.word (carried (carry n (s.getD 2 0) (s.getD 3 0)) (s.take n).reverse), 8 * n) := by
    intro n hn hw hlen h
    have hlt := fun y hy => (lt_of_wellFormed hw y (List.mem_reverse.2 hy)).trans (by decide : 0xF5 < 254)
    have helements := reverse_elements hn hlt
    have hbits : (BitVec.ofNat 8 (8 * n)).toNat = 8 * n := by
      rw [BitVec.toNat_ofNat, Nat.mod_eq_of_lt (by omega)]
    rw [← ofList_storage, ← window, ← take_window (by omega) hlen] at helements
    rw [← take_window (by omega) hlen] at hw
    refine ⟨hw, ?_⟩
    rw [UTFParser.windowResult_valid h, hbits]
    exact congrArg (fun l => (Segment.word l, 8 * n)) helements
  have hbits : ∀ n, n ≤ 3 → (BitVec.ofNat 8 (8 * n)).toNat = 8 * n := fun n hn => by
    rw [BitVec.toNat_ofNat, Nat.mod_eq_of_lt (by omega)]
  have hprefixes : ∀ n, 0 < n → n ≤ 3 → n ≤ s.length →
      Segment.Initial WellFormed ((window s).take n).reverse →
      ¬ WellFormed ((window s).take n).reverse → Last WellFormed s (.illFormed n, n) := by
    intro n hpos hn hlen hi hw
    rw [← take_window (by omega) hlen] at hi hw
    exact .unfinished hpos hlen hi hw
  rw [ReverseParser.invalidLength_eq] at hparse
  split_ifs at hparse with h2 h3 h4 hlead htail
  · have hlen : 2 ≤ s.length := lt_length_of_pos ((by decide : 0 < 0xC2).trans_le (wellFormed_two.1 h2).1.1)
    exact ⟨2, by omega, by omega, hlen, .inl (hword 2 (by omega) h2 hlen hparse)⟩
  · have hlen : 3 ≤ s.length := lt_length_of_lead (.inl (wellFormed_three.1 h3).1)
    exact ⟨3, by omega, by omega, hlen, .inl (hword 3 (by omega) h3 hlen hparse)⟩
  · have hlen : 4 ≤ s.length := lt_length_of_lead (.inr (wellFormed_four.1 h4).1)
    exact ⟨4, by omega, by omega, hlen, .inl (hword 4 (by omega) h4 hlen hparse)⟩
  · -- a 2-byte prefix of a longer sequence
    have hlen : 2 ≤ s.length := lt_length_of_lead hlead
    exact ⟨2, by omega, by omega, hlen, .inr ⟨hprefixes 2 (by omega) (by omega) hlen
      (initial_two.2 (.inr hlead)) h2, UTFParser.windowResult_error (by decide) hparse rfl⟩⟩
  · -- a 3-byte prefix of a 4-byte sequence
    have hlen : 3 ≤ s.length := lt_length_of_lead (.inr htail.1)
    exact ⟨3, by omega, by omega, hlen, .inr ⟨hprefixes 3 (by omega) (by omega) hlen
      (initial_three.2 (.inr htail)) h3, UTFParser.windowResult_error (by decide) hparse rfl⟩⟩
  · refine ⟨1, by omega, by omega, hs, .inr ⟨.single ?_ ?_,
      UTFParser.windowResult_error (by decide) hparse rfl⟩⟩
    · intro m hpos hm hw
      have hm4 := (wellFormed_length hw).2
      rw [List.length_reverse, List.length_take_of_le hm] at hm4
      rw [take_window hm4 hm] at hw
      exact not_wellFormed_take_reverse hx h2 h3 h4 m hpos hm4 hw
    · intro m hpos hm hi
      have hm4 := initial_length hi
      rw [List.length_reverse, List.length_take_of_le hm] at hm4
      rw [take_window hm4 hm] at hi
      rcases prefix_cases (by omega) hm4 with rfl | rfl | rfl | rfl
      · omega
      · exact (initial_two.1 hi).elim h2 hlead
      · exact (initial_three.1 hi).elim h3 htail
      · exact h4 (initial_four.1 hi)

end SwiftKStdlib.Unicode.UTF8
