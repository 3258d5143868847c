import SwiftKStdlib.Lexer.Reading
import SwiftKStdlib.Unicode.Decoding

/-!
# UTF-8 characters

* `encodeToUTF8` : `EncodeToUTF8`, with the bytes it pushes;
* `CharacterAt` : the bytes at a position begin with the UTF-8 sequence of a scalar, by Table 3-7 of the Unicode Standard;
* `validate_two`, `validate_three`, `validate_four`, `validate_illFormed` : the validation by the length of the sequence;
* `validatesExactly_iff` : it is exact, unless the bytes begin with a sequence of a value beyond the last scalar.
-/

namespace SwiftKStdlib.Parse

open Lib Unicode

/-- The trailing bytes of the encoding, six bits each. -/
def trailingBytes (charValue : Nat) : Nat → List UInt8
  | 0 => []
  | numTrailingBytes + 1 =>
    UInt8.ofNat (0x80 ||| (charValue >>> (numTrailingBytes * 6)) % 2 ^ 6) :: trailingBytes charValue numTrailingBytes

def encodeToUTF8 (charValue : Nat) : Bool × List UInt8 :=
  if charValue < 2 ^ (5 + 6) then (false, UInt8.ofNat (0xC0 ||| charValue >>> 6) :: trailingBytes charValue 1)
  else if charValue < 2 ^ (4 + 6 + 6) then
    let lead := UInt8.ofNat (0xE0 ||| charValue >>> (6 + 6))
    if 0xD800 ≤ charValue ∧ charValue ≤ 0xDFFF then (true, [lead])
    else if 0xFDD0 ≤ charValue ∧ charValue ≤ 0xFDEF then (true, [lead])
    else (false, lead :: trailingBytes charValue 2)
  else if charValue < 2 ^ (3 + 6 + 6 + 6) then
    let lead := UInt8.ofNat (0xF0 ||| charValue >>> (6 + 6 + 6))
    if 0x10FFFF < charValue then (true, [lead]) else (false, lead :: trailingBytes charValue 3)
  else (true, [])

theorem encodeToUTF8_fst (charValue : Nat) : (encodeToUTF8 charValue).1 = encodeToUTF8Fails charValue := by
  unfold encodeToUTF8 encodeToUTF8Fails
  dsimp only
  split_ifs with h1 h2 h3 h4 h5 h6 <;> simp <;> omega

/-! ## The validation, by the length of the sequence -/

namespace Buffer

variable {b : Buffer} {p q : Nat}

def TailAt (b : Buffer) (p : Nat) : Prop := UTF8.Tail (b.byteAt p).toNat

instance (b : Buffer) (p : Nat) : Decidable (b.TailAt p) := inferInstanceAs (Decidable (UTF8.Tail _))

theorem TailAt.of_toNat {k : Nat} (h : (b.byteAt p).toNat = 0x80 + k) (hk : k < 64) : b.TailAt p := by
  rw [TailAt, UTF8.Tail]
  omega

theorem TailAt.lt_size (h : b.TailAt p) : p < b.size := by
  by_contra hp
  rw [TailAt, byteAt_of_size_le (by omega)] at h
  exact absurd h (by decide)

theorem continuationBytes_tail (n value : Nat) (h : b.TailAt p) : b.continuationBytes (n + 1) value p =
    b.continuationBytes n (value * 2 ^ 6 + ((b.byteAt p).toNat - 0x80)) (p + 1) := by
  have hlt := h.lt_size
  obtain ⟨hlow, hhigh⟩ := h
  have hmod : (b.byteAt p).toNat % 2 ^ 6 = (b.byteAt p).toNat - 0x80 := by omega
  rw [continuationBytes, if_neg (by omega)]
  simp only [UInt8.lt_iff_toNat_lt, UInt8.le_iff_toNat_le, UInt8.reduceToNat]
  rw [if_neg (by omega), hmod]

theorem continuationBytes_of_not_tail (n value : Nat) (h : ¬ b.TailAt p) :
    b.continuationBytes (n + 1) value p = (none, p) := by
  rw [continuationBytes]
  split_ifs with hsize
  · rfl
  · simp only [UInt8.lt_iff_toNat_lt, UInt8.le_iff_toNat_le, UInt8.reduceToNat]
    rw [TailAt, UTF8.Tail] at h
    rw [if_pos (by omega)]

theorem validate_one (hp : p < b.size) (hc : (b.byteAt p).toNat ≤ 0x7F) :
    b.validateUTF8CharacterAndAdvance p = (some (b.byteAt p).toNat, p + 1) := by
  rw [validateUTF8CharacterAndAdvance, if_neg (by omega)]
  simp only [UInt8.lt_iff_toNat_lt, UInt8.reduceToNat]
  rw [if_pos (by omega)]

theorem validate_illFormed (hp : p < b.size) (hc : 0x80 ≤ (b.byteAt p).toNat)
    (hlead : (b.byteAt p).toNat < 0xC2 ∨ 0xF5 ≤ (b.byteAt p).toNat) : b.validateUTF8CharacterAndAdvance p =
      (none, p + 1 + ((b.bytes.drop (p + 1)).takeWhile fun c => !isStartOfUTF8Character c).length) := by
  rw [validateUTF8CharacterAndAdvance, if_neg (by omega)]
  have hstart : clo8 (b.byteAt p) = 1 ∨ (!isStartOfUTF8Character (b.byteAt p)) = true := by
    simp only [clo8, isStartOfUTF8Character, UInt8.lt_iff_toNat_lt, UInt8.le_iff_toNat_le, UInt8.reduceToNat]
    by_cases h80 : (b.byteAt p).toNat = 0x80
    · left
      rw [if_neg (by omega), if_pos (by omega)]
    · right
      simp
      omega
  simp only [UInt8.lt_iff_toNat_lt, UInt8.reduceToNat]
  rw [if_neg (by omega), if_pos hstart]

theorem validate_lead (hp : p < b.size) (hlow : 0xC2 ≤ (b.byteAt p).toNat) (hhigh : (b.byteAt p).toNat < 0xF5) :
    b.validateUTF8CharacterAndAdvance p =
      match b.continuationBytes (clo8 (b.byteAt p) - 1)
        ((b.byteAt p).toNat * 2 ^ clo8 (b.byteAt p) % 2 ^ 8 / 2 ^ clo8 (b.byteAt p)) (p + 1) with
      | (none, q) => (none, q)
      | (some value, q) =>
        if 0xD800 ≤ value ∧ value ≤ 0xDFFF then (none, q)
        else if value < 2 ^ (5 + 6) then (if clo8 (b.byteAt p) = 2 then some value else none, q)
        else if value < 2 ^ (4 + 6 + 6) then (if clo8 (b.byteAt p) = 3 then some value else none, q)
        else (if clo8 (b.byteAt p) = 4 then some value else none, q) := by
  have hstart : ¬ (clo8 (b.byteAt p) = 1 ∨ (!isStartOfUTF8Character (b.byteAt p)) = true) := by
    simp only [clo8, isStartOfUTF8Character, UInt8.lt_iff_toNat_lt, UInt8.le_iff_toNat_le, UInt8.reduceToNat]
    rw [if_neg (by omega), if_neg (by omega)]
    simp
    refine ⟨?_, fun _ => ⟨hlow, hhigh⟩⟩
    split_ifs <;> simp
  rw [validateUTF8CharacterAndAdvance, if_neg (by omega)]
  simp only [UInt8.lt_iff_toNat_lt, UInt8.reduceToNat]
  rw [if_neg (by omega), if_neg hstart] <;> rfl

theorem validate_two (hp : p < b.size) (hlow : 0xC2 ≤ (b.byteAt p).toNat) (hhigh : (b.byteAt p).toNat ≤ 0xDF) :
    b.validateUTF8CharacterAndAdvance p =
      if b.TailAt (p + 1) then (some (((b.byteAt p).toNat - 0xC0) * 64 + ((b.byteAt (p + 1)).toNat - 0x80)), p + 2)
      else (none, p + 1) := by
  have hclo : clo8 (b.byteAt p) = 2 := by
    simp only [clo8, UInt8.lt_iff_toNat_lt, UInt8.reduceToNat]
    rw [if_neg (by omega), if_neg (by omega), if_pos (by omega)]
  have hbits : (b.byteAt p).toNat * 2 ^ 2 % 2 ^ 8 / 2 ^ 2 = (b.byteAt p).toNat - 0xC0 := by omega
  rw [validate_lead hp hlow (by omega), hclo, hbits]
  by_cases h1 : b.TailAt (p + 1)
  · have ht1 := h1
    rw [TailAt, UTF8.Tail] at ht1
    rw [if_pos h1, continuationBytes_tail 0 _ h1]
    simp only [continuationBytes]
    rw [if_neg (by omega), if_pos (by omega)]
    rfl
  · rw [if_neg h1, continuationBytes_of_not_tail 0 _ h1]

theorem validate_three (hp : p < b.size) (hlow : 0xE0 ≤ (b.byteAt p).toNat) (hhigh : (b.byteAt p).toNat ≤ 0xEF) :
    b.validateUTF8CharacterAndAdvance p =
      if ¬ b.TailAt (p + 1) then (none, p + 1)
      else if ¬ b.TailAt (p + 2) then (none, p + 2)
      else (if UTF8.Lead3 (b.byteAt p).toNat (b.byteAt (p + 1)).toNat then
        some (((b.byteAt p).toNat - 0xE0) * 4096 + ((b.byteAt (p + 1)).toNat - 0x80) * 64 +
          ((b.byteAt (p + 2)).toNat - 0x80)) else none, p + 3) := by
  have hclo : clo8 (b.byteAt p) = 3 := by
    simp only [clo8, UInt8.lt_iff_toNat_lt, UInt8.reduceToNat]
    rw [if_neg (by omega), if_neg (by omega), if_neg (by omega), if_pos (by omega)]
  have hbits : (b.byteAt p).toNat * 2 ^ 3 % 2 ^ 8 / 2 ^ 3 = (b.byteAt p).toNat - 0xE0 := by omega
  rw [validate_lead hp (by omega) (by omega), hclo, hbits]
  by_cases h1 : b.TailAt (p + 1)
  · rw [if_neg (not_not.2 h1), continuationBytes_tail 1 _ h1]
    by_cases h2 : b.TailAt (p + 2)
    · rw [if_neg (not_not.2 h2), continuationBytes_tail 0 _ h2]
      rw [TailAt, UTF8.Tail] at h1 h2
      simp only [continuationBytes]
      by_cases hlead : UTF8.Lead3 (b.byteAt p).toNat (b.byteAt (p + 1)).toNat
      · rw [if_pos hlead]
        rw [UTF8.Lead3] at hlead
        rw [if_neg (by omega), if_neg (by omega), if_pos (by omega)]
        simp only [if_true, Prod.mk.injEq, and_true, Option.some.injEq]
        omega
      · rw [if_neg hlead]
        rw [UTF8.Lead3] at hlead
        by_cases hsurrogate : (b.byteAt p).toNat = 0xED
        · rw [if_pos (by omega)]
        · rw [if_neg (by omega), if_pos (by omega)]
          rfl
    · rw [if_pos h2, continuationBytes_of_not_tail 0 _ h2]
  · rw [if_pos h1, continuationBytes_of_not_tail 1 _ h1]

theorem validate_four (hp : p < b.size) (hlow : 0xF0 ≤ (b.byteAt p).toNat) (hhigh : (b.byteAt p).toNat ≤ 0xF4) :
    b.validateUTF8CharacterAndAdvance p =
      if ¬ b.TailAt (p + 1) then (none, p + 1)
      else if ¬ b.TailAt (p + 2) then (none, p + 2)
      else if ¬ b.TailAt (p + 3) then (none, p + 3)
      else (if (b.byteAt p).toNat = 0xF0 ∧ (b.byteAt (p + 1)).toNat < 0x90 then none
        else some (((b.byteAt p).toNat - 0xF0) * 262144 + ((b.byteAt (p + 1)).toNat - 0x80) * 4096 +
          ((b.byteAt (p + 2)).toNat - 0x80) * 64 + ((b.byteAt (p + 3)).toNat - 0x80)), p + 4) := by
  have hclo : clo8 (b.byteAt p) = 4 := by
    simp only [clo8, UInt8.lt_iff_toNat_lt, UInt8.reduceToNat]
    rw [if_neg (by omega), if_neg (by omega), if_neg (by omega), if_neg (by omega), if_pos (by omega)]
  have hbits : (b.byteAt p).toNat * 2 ^ 4 % 2 ^ 8 / 2 ^ 4 = (b.byteAt p).toNat - 0xF0 := by omega
  rw [validate_lead hp (by omega) (by omega), hclo, hbits]
  by_cases h1 : b.TailAt (p + 1)
  · rw [if_neg (not_not.2 h1), continuationBytes_tail 2 _ h1]
    by_cases h2 : b.TailAt (p + 2)
    · rw [if_neg (not_not.2 h2), continuationBytes_tail 1 _ h2]
      by_cases h3 : b.TailAt (p + 3)
      · rw [if_neg (not_not.2 h3), continuationBytes_tail 0 _ h3]
        rw [TailAt, UTF8.Tail] at h1 h2 h3
        simp only [continuationBytes]
        by_cases hlong : (b.byteAt p).toNat = 0xF0 ∧ (b.byteAt (p + 1)).toNat < 0x90
        · rw [if_pos hlong]
          split_ifs <;> first | rfl | omega
        · rw [if_neg hlong, if_neg (by omega), if_neg (by omega), if_neg (by omega)]
          simp only [if_true, Prod.mk.injEq, and_true, Option.some.injEq]
          omega
      · rw [if_pos h3, continuationBytes_of_not_tail 0 _ h3]
    · rw [if_pos h2, continuationBytes_of_not_tail 1 _ h2]
  · rw [if_pos h1, continuationBytes_of_not_tail 2 _ h1]

/-! ## The bytes of a scalar -/

/-- From `p` to `q` stands the UTF-8 sequence of the scalar. -/
structure CharacterAt (b : Buffer) (p q : Nat) (x : Scalar) : Prop where
  le : q ≤ b.size
  codeUnits : (b.text p q).map UInt8.toBitVec = UTF8.codeUnits x.value.toNat

/-- The bytes at `p` begin with a well-formed UTF-8 sequence. -/
def BeginsCharacter (b : Buffer) (p : Nat) : Prop :=
  ∃ q, q ≤ b.size ∧ UTF8.WellFormed ((b.text p q).map UInt8.toBitVec)

theorem beginsCharacter_iff : b.BeginsCharacter p ↔ ∃ q x, b.CharacterAt p q x := by
  refine exists_congr fun q => ?_
  rw [UTF8.wellFormed_iff]
  exact ⟨fun ⟨hle, x, hx⟩ => ⟨x, hle, hx.symm⟩, fun ⟨x, hx⟩ => ⟨hx.le, x, hx.codeUnits.symm⟩⟩

theorem toBitVec_eq {c : UInt8} {n : Nat} (hn : n < 256) (h : c.toBitVec = BitVec.ofNat 8 n) : c.toNat = n := by
  rw [← UInt8.toNat_toBitVec, h, UTF8.toNat_byte hn]

theorem toBitVec_of {c : UInt8} {n : Nat} (h : c.toNat = n) : c.toBitVec = BitVec.ofNat 8 n := by
  rw [← h, ← UInt8.toNat_toBitVec, ofNat_of_toNat_eq rfl]

theorem CharacterAt.length {x : Scalar} (h : b.CharacterAt p q x) :
    q = p + (UTF8.codeUnits x.value.toNat).length := by
  have hlen := congrArg List.length h.codeUnits
  have hpos := List.length_pos_iff.2 (UTF8.codeUnits_ne_nil x.value.toNat)
  have hle := h.le
  rw [List.length_map, text, List.length_take, List.length_drop] at hlen
  simp only [size] at hle
  omega

theorem CharacterAt.lt {x : Scalar} (h : b.CharacterAt p q x) : p < q := by
  rw [h.length]
  exact Nat.lt_add_of_pos_right (List.length_pos_iff.2 (UTF8.codeUnits_ne_nil x.value.toNat))

theorem CharacterAt.validate {x : Scalar} (h : b.CharacterAt p q x) :
    b.validateUTF8CharacterAndAdvance p = (some x.value.toNat, q) := by
  have hle := h.le
  have hlen := h.length
  have hbytes := h.codeUnits
  have hvalid := x.valid
  have hlt := h.lt
  generalize x.value.toNat = v at hlen hbytes hvalid ⊢
  unfold UTF8.codeUnits at hlen hbytes
  split_ifs at hlen hbytes with h1 h2 h3
  · obtain rfl : q = p + 1 := hlen
    rw [text_one (by omega), List.map_singleton, List.singleton_inj] at hbytes
    have hc := toBitVec_eq (by omega) hbytes
    rw [validate_one (by omega) (by omega), hc]
  · obtain rfl : q = p + 2 := hlen
    rw [text_cons (by omega) hle, text_one (by omega), List.map_cons, List.map_singleton, List.cons.injEq,
      List.singleton_inj] at hbytes
    have hc := toBitVec_eq (by omega) hbytes.1
    have hd := toBitVec_eq (by omega) hbytes.2
    rw [validate_two (by omega) (by omega) (by omega), if_pos (.of_toNat hd (by omega)), hc, hd]
    simp only [Prod.mk.injEq, Option.some.injEq, and_true]
    omega
  · obtain rfl : q = p + 3 := hlen
    rw [text_cons (by omega) hle, text_cons (by omega) hle, text_one (by omega), List.map_cons, List.map_cons,
      List.map_singleton, List.cons.injEq, List.cons.injEq, List.singleton_inj] at hbytes
    have hc := toBitVec_eq (by omega) hbytes.1
    have hd := toBitVec_eq (by omega) hbytes.2.1
    have he : (b.byteAt (p + 2)).toNat = _ := toBitVec_eq (by omega) hbytes.2.2
    have hlead : UTF8.Lead3 (b.byteAt p).toNat (b.byteAt (p + 1)).toNat := by
      rw [UTF8.Lead3, hc, hd]
      omega
    rw [validate_three (by omega) (by omega) (by omega), if_neg (not_not.2 (.of_toNat hd (by omega))),
      if_neg (not_not.2 (.of_toNat he (by omega))), if_pos hlead, hc, hd, he]
    simp only [Prod.mk.injEq, Option.some.injEq, and_true]
    omega
  · obtain rfl : q = p + 4 := hlen
    rw [text_cons (by omega) hle, text_cons (by omega) hle, text_cons (by omega) hle, text_one (by omega),
      List.map_cons, List.map_cons, List.map_cons, List.map_singleton, List.cons.injEq, List.cons.injEq,
      List.cons.injEq, List.singleton_inj] at hbytes
    have hc := toBitVec_eq (by omega) hbytes.1
    have hd := toBitVec_eq (by omega) hbytes.2.1
    have he : (b.byteAt (p + 2)).toNat = _ := toBitVec_eq (by omega) hbytes.2.2.1
    have hf : (b.byteAt (p + 3)).toNat = _ := toBitVec_eq (by omega) hbytes.2.2.2
    rw [validate_four (by omega) (by omega) (by omega), if_neg (not_not.2 (.of_toNat hd (by omega))),
      if_neg (not_not.2 (.of_toNat he (by omega))), if_neg (not_not.2 (.of_toNat hf (by omega))), if_neg (by omega),
      hc, hd, he, hf]
    simp only [Prod.mk.injEq, Option.some.injEq, and_true]
    omega

/-- The bytes at `p` are those of a value beyond the last scalar, in four bytes. -/
def Overlarge (b : Buffer) (p : Nat) : Prop :=
  (b.byteAt p).toNat = 0xF4 ∧ 0x90 ≤ (b.byteAt (p + 1)).toNat ∧ b.TailAt (p + 1) ∧ b.TailAt (p + 2) ∧ b.TailAt (p + 3)

instance (b : Buffer) (p : Nat) : Decidable (b.Overlarge p) := inferInstanceAs (Decidable (_ ∧ _))

theorem characterAt_of_validate {v : Nat} (hp : p < b.size)
    (h : b.validateUTF8CharacterAndAdvance p = (some v, q)) (hlarge : ¬ b.Overlarge p) :
    ∃ x, x.value.toNat = v ∧ b.CharacterAt p q x := by
  have hscalar : ∀ (v : Nat) (hv : v < 0xD800 ∨ 0xE000 ≤ v ∧ v ≤ 0x10FFFF) {q : Nat}, q ≤ b.size →
      (b.text p q).map UInt8.toBitVec = UTF8.codeUnits v → ∃ x : Scalar, x.value.toNat = v ∧ b.CharacterAt p q x := by
    intro v hv q hq hunits
    exact ⟨.ofNat v hv, Scalar.toNat_ofNat v hv, hq, hunits.trans (congrArg _ (Scalar.toNat_ofNat v hv).symm)⟩
  by_cases h1 : (b.byteAt p).toNat ≤ 0x7F
  · rw [validate_one hp h1, Prod.mk.injEq, Option.some.injEq] at h
    obtain ⟨rfl, rfl⟩ := h
    refine hscalar _ (by omega) (by omega) ?_
    rw [text_one hp, UTF8.codeUnits, if_pos (by omega), List.map_singleton, toBitVec_of rfl]
  by_cases h2 : (b.byteAt p).toNat < 0xC2 ∨ 0xF5 ≤ (b.byteAt p).toNat
  · rw [validate_illFormed hp (by omega) h2] at h
    exact absurd (Prod.mk.inj h).1.symm (Option.some_ne_none v)
  by_cases h3 : (b.byteAt p).toNat ≤ 0xDF
  · rw [validate_two hp (by omega) h3] at h
    split_ifs at h with ht1 <;> first | exact absurd (Prod.mk.inj h).1.symm (Option.some_ne_none v) | skip
    rw [Prod.mk.injEq, Option.some.injEq] at h
    obtain ⟨rfl, rfl⟩ := h
    have := ht1.lt_size
    rw [TailAt, UTF8.Tail] at ht1
    refine hscalar _ (by omega) (by omega) ?_
    rw [text_cons (by omega) (by omega), text_one (by omega), UTF8.codeUnits, if_neg (by omega), if_pos (by omega),
      List.map_cons, List.map_singleton, List.cons.injEq, List.singleton_inj]
    exact ⟨toBitVec_of (by omega), toBitVec_of (by omega)⟩
  by_cases h4 : (b.byteAt p).toNat ≤ 0xEF
  · rw [validate_three hp (by omega) h4] at h
    split_ifs at h with ht1 ht2 hlead <;>
      first | exact absurd (Prod.mk.inj h).1.symm (Option.some_ne_none v) | skip
    rw [Prod.mk.injEq, Option.some.injEq] at h
    obtain ⟨rfl, rfl⟩ := h
    have := ht2.lt_size
    rw [TailAt, UTF8.Tail] at ht1 ht2
    rw [UTF8.Lead3] at hlead
    refine hscalar _ (by omega) (by omega) ?_
    rw [text_cons (by omega) (by omega), text_cons (by omega) (by omega), text_one (by omega), UTF8.codeUnits,
      if_neg (by omega), if_neg (by omega), if_pos (by omega), List.map_cons, List.map_cons, List.map_singleton,
      List.cons.injEq, List.cons.injEq, List.singleton_inj]
    have he : (b.byteAt (p + 1 + 1)).toNat = (b.byteAt (p + 2)).toNat := rfl
    exact ⟨toBitVec_of (by omega), toBitVec_of (by omega), toBitVec_of (by omega)⟩
  · rw [validate_four hp (by omega) (by omega)] at h
    rw [Overlarge] at hlarge
    split_ifs at h with ht1 ht2 ht3 hlong <;>
      first | exact absurd (Prod.mk.inj h).1.symm (Option.some_ne_none v) | skip
    simp only [ht1, ht2, ht3, and_true] at hlarge
    rw [Prod.mk.injEq, Option.some.injEq] at h
    obtain ⟨rfl, rfl⟩ := h
    have := ht3.lt_size
    rw [TailAt, UTF8.Tail] at ht1 ht2 ht3
    refine hscalar _ (by omega) (by omega) ?_
    rw [text_cons (by omega) (by omega), text_cons (by omega) (by omega), text_cons (by omega) (by omega),
      text_one (by omega), UTF8.codeUnits, if_neg (by omega), if_neg (by omega), if_neg (by omega), List.map_cons,
      List.map_cons, List.map_cons, List.map_singleton, List.cons.injEq, List.cons.injEq, List.cons.injEq,
      List.singleton_inj]
    have he : (b.byteAt (p + 1 + 1)).toNat = (b.byteAt (p + 2)).toNat := rfl
    have hf : (b.byteAt (p + 1 + 1 + 1)).toNat = (b.byteAt (p + 3)).toNat := rfl
    exact ⟨toBitVec_of (by omega), toBitVec_of (by omega), toBitVec_of (by omega), toBitVec_of (by omega)⟩

theorem validate_overlarge (hp : p < b.size) (h : b.Overlarge p) : ∃ v, 0x10FFFF < v ∧
    b.validateUTF8CharacterAndAdvance p = (some v, p + 4) := by
  obtain ⟨hlead, hlarge, h1, h2, h3⟩ := h
  rw [validate_four hp (by omega) (by omega), if_neg (not_not.2 h1), if_neg (not_not.2 h2), if_neg (not_not.2 h3),
    if_neg (by omega)]
  exact ⟨_, by omega, rfl⟩

theorem not_beginsCharacter (hlow : 0x80 ≤ (b.byteAt p).toNat)
    (hc : (b.byteAt p).toNat < 0xC2 ∨ 0xF5 ≤ (b.byteAt p).toNat) : ¬ b.BeginsCharacter p := by
  rw [beginsCharacter_iff]
  rintro ⟨q, x, h⟩
  have hvalidate := h.validate
  rw [validate_illFormed (h.lt.trans_le h.le) hlow hc] at hvalidate
  exact Option.some_ne_none _ (Prod.mk.inj hvalidate).1.symm

theorem TailAt.not_beginsCharacter (h : b.TailAt p) : ¬ b.BeginsCharacter p := by
  rw [TailAt, UTF8.Tail] at h
  exact Buffer.not_beginsCharacter (by omega) (by omega)

theorem skipped_start {r : Nat} (hpr : p ≤ r)
    (hr : r < p + ((b.bytes.drop p).takeWhile fun c => !isStartOfUTF8Character c).length) :
    isStartOfUTF8Character (b.byteAt r) = false := by
  obtain ⟨k, rfl⟩ := Nat.exists_eq_add_of_le hpr
  have hk : k < ((b.bytes.drop p).takeWhile fun c => !isStartOfUTF8Character c).length := by omega
  have hmem := List.mem_takeWhile_imp (List.getElem_mem hk)
  rw [(List.takeWhile_prefix _).getElem hk, List.getElem_drop] at hmem
  rw [byteAt, List.getD_eq_getElem?_getD, List.getElem?_eq_getElem]
  simpa using hmem

theorem continuationBytes_skipped {n value r : Nat} (hpr : p ≤ r) (hr : r < (b.continuationBytes n value p).2) :
    b.TailAt r := by
  induction n generalizing value p with
  | zero => exact absurd hr (not_lt.2 hpr)
  | succ n ih =>
      by_cases htail : b.TailAt p
      · rw [continuationBytes_tail n value htail] at hr
        rcases hpr.eq_or_lt with rfl | hlt
        · exact htail
        · exact ih hlt hr
      · rw [continuationBytes_of_not_tail n value htail] at hr
        exact absurd hr (not_lt.2 hpr)

theorem validate_tail {v r : Nat} (hp : p < b.size) (hhigh : 0x80 ≤ (b.byteAt p).toNat)
    (h : b.validateUTF8CharacterAndAdvance p = (some v, q)) (hpr : p < r) (hrq : r < q) : b.TailAt r := by
  by_cases hlead : (b.byteAt p).toNat < 0xC2 ∨ 0xF5 ≤ (b.byteAt p).toNat
  · rw [validate_illFormed hp hhigh hlead] at h
    exact absurd (Prod.mk.inj h).1.symm (Option.some_ne_none v)
  · rw [validate_lead hp (by omega) (by omega)] at h
    generalize hcont : b.continuationBytes _ _ _ = read at h
    have hq : read.2 = q := by
      rcases read with ⟨_ | value, q'⟩
      · exact (Prod.mk.inj h).2
      · dsimp only at h
        split_ifs at h <;> exact (Prod.mk.inj h).2
    exact continuationBytes_skipped hpr (by rwa [hcont, hq])

theorem skipped_not_beginsCharacter {r : Nat} {result : Option Nat} (hp : p < b.size)
    (h : b.validateUTF8CharacterAndAdvance p = (result, q)) (hpr : p < r) (hrq : r < q) : ¬ b.BeginsCharacter r := by
  by_cases h1 : (b.byteAt p).toNat ≤ 0x7F
  · rw [validate_one hp h1] at h
    obtain rfl := (Prod.mk.inj h).2
    omega
  by_cases h2 : (b.byteAt p).toNat < 0xC2 ∨ 0xF5 ≤ (b.byteAt p).toNat
  · rw [validate_illFormed hp (by omega) h2] at h
    obtain rfl := (Prod.mk.inj h).2
    have hstart := skipped_start hpr hrq
    simp [isStartOfUTF8Character, UInt8.le_iff_toNat_le, UInt8.lt_iff_toNat_lt] at hstart
    exact not_beginsCharacter (by omega) (by omega)
  · rw [validate_lead hp (by omega) (by omega)] at h
    generalize hcont : b.continuationBytes _ _ _ = read at h
    have hq : read.2 = q := by
      rcases read with ⟨_ | value, q'⟩
      · exact (Prod.mk.inj h).2
      · dsimp only at h
        split_ifs at h <;> exact (Prod.mk.inj h).2
    exact TailAt.not_beginsCharacter (continuationBytes_skipped hpr (by rwa [hcont, hq]))

/-! ## The encoder -/

theorem toBitVec_or {lead field : Nat} (k m : Nat) (hlead : lead = 2 ^ k * m) (hfield : field < 2 ^ k) :
    (UInt8.ofNat (lead ||| field)).toBitVec = BitVec.ofNat 8 (lead + field) := by
  rw [hlead, ← Nat.two_pow_add_eq_or_of_lt hfield, UInt8.toBitVec_ofNat']

theorem map_trailingBytes (charValue k : Nat) : (trailingBytes charValue (k + 1)).map UInt8.toBitVec =
    BitVec.ofNat 8 (0x80 + charValue / 2 ^ (k * 6) % 2 ^ 6) :: (trailingBytes charValue k).map UInt8.toBitVec := by
  rw [trailingBytes, List.map_cons, Nat.shiftRight_eq_div_pow, toBitVec_or 7 1 (by rfl) (by omega)]

theorem encodeToUTF8_codeUnits {value : Nat} (hvalue : 0x80 ≤ value) (h : (encodeToUTF8 value).1 = false) :
    (encodeToUTF8 value).2.map UInt8.toBitVec = UTF8.codeUnits value := by
  unfold encodeToUTF8 at h ⊢
  dsimp only at h ⊢
  unfold UTF8.codeUnits
  split_ifs at h ⊢ <;> first | omega | skip
  all_goals simp only [List.map_cons, map_trailingBytes, Nat.shiftRight_eq_div_pow]
  · rw [toBitVec_or 6 3 (by rfl) (by omega)]
    simp [trailingBytes]
  · rw [toBitVec_or 5 7 (by rfl) (by omega)]
    simp [trailingBytes]
  · rw [toBitVec_or 4 15 (by rfl) (by omega)]
    simp [trailingBytes]

theorem isScalar_of_encodeToUTF8 {value : Nat} (h : (encodeToUTF8 value).1 = false) :
    value < 0xD800 ∨ 0xE000 ≤ value ∧ value ≤ 0x10FFFF := by
  unfold encodeToUTF8 at h
  dsimp only at h
  split_ifs at h <;> omega

/-! ## The validation is exact -/

/-- The validation at `p`, against Table 3-7 and the encoder. -/
structure ValidatesExactly (b : Buffer) (p : Nat) : Prop where
  /-- A value is returned when a sequence of the table begins at `p`. -/
  value_iff : (∃ v, (b.validateUTF8CharacterAndAdvance p).1 = some v) ↔ b.BeginsCharacter p
  /-- It is the scalar of the sequence, and the pointer is behind the sequence. -/
  value : ∀ v q, b.validateUTF8CharacterAndAdvance p = (some v, q) → ∃ x : Scalar, x.value.toNat = v ∧ b.CharacterAt p q x
  /-- Otherwise the pointer moves on, to the end at most, and over no other sequence. -/
  recovers : ∀ q, b.validateUTF8CharacterAndAdvance p = (none, q) → p < q ∧ q ≤ b.size ∧
    ∀ r, p < r → r < q → ¬ b.BeginsCharacter r
  /-- What the encoder pushes is read back. -/
  inverse : ∀ value, 0x80 ≤ value → (encodeToUTF8 value).1 = false → (encodeToUTF8 value).2 <+: b.bytes.drop p →
    b.validateUTF8CharacterAndAdvance p = (some value, p + (encodeToUTF8 value).2.length)

theorem encoded_characterAt {value : Nat} (hvalue : 0x80 ≤ value) (h : (encodeToUTF8 value).1 = false)
    (hp : p < b.size) (hbytes : (encodeToUTF8 value).2 <+: b.bytes.drop p) :
    b.CharacterAt p (p + (encodeToUTF8 value).2.length) (.ofNat value (isScalar_of_encodeToUTF8 h)) := by
  have hlen := hbytes.length_le
  rw [List.length_drop] at hlen
  refine ⟨?_, ?_⟩
  · rw [size] at hp ⊢
    omega
  · rw [Scalar.toNat_ofNat, ← encodeToUTF8_codeUnits hvalue h, text, Nat.add_sub_cancel_left,
      ← List.prefix_iff_eq_take.1 hbytes]

/-- The validation is exact, unless the bytes are those of a value beyond the last scalar. -/
theorem validatesExactly_iff (b : Buffer) (p : Nat) (hp : p < b.size) : b.ValidatesExactly p ↔ ¬ b.Overlarge p := by
  refine ⟨fun h hlarge => ?_, fun hlarge => ?_⟩
  · obtain ⟨v, hv, hvalidate⟩ := validate_overlarge hp hlarge
    obtain ⟨x, rfl, -⟩ := h.value v _ hvalidate
    rcases x.valid with hx | hx <;> omega
  have hvalue : ∀ v q, b.validateUTF8CharacterAndAdvance p = (some v, q) →
      ∃ x : Scalar, x.value.toNat = v ∧ b.CharacterAt p q x :=
    fun v q h => characterAt_of_validate hp h hlarge
  refine ⟨⟨fun ⟨v, h⟩ => ?_, fun h => ?_⟩, hvalue, fun q h => ?_, fun value hvalue h hbytes => ?_⟩
  · obtain ⟨x, -, hx⟩ := hvalue v _ (Prod.ext h rfl)
    exact beginsCharacter_iff.2 ⟨_, x, hx⟩
  · obtain ⟨q, x, hx⟩ := beginsCharacter_iff.1 h
    exact ⟨_, congrArg Prod.fst hx.validate⟩
  · have hbounds := b.validate_bounds hp
    rw [h] at hbounds
    exact ⟨hbounds.1, hbounds.2, fun r hpr hrq => skipped_not_beginsCharacter hp h hpr hrq⟩
  · rw [(encoded_characterAt hvalue h hp hbytes).validate, Scalar.toNat_ofNat]

theorem validatesExactly_euro : 0 < (⟨[0xE2, 0x82, 0xAC]⟩ : Buffer).size ∧
    ((⟨[0xE2, 0x82, 0xAC]⟩ : Buffer).ValidatesExactly 0 ↔ ¬ (⟨[0xE2, 0x82, 0xAC]⟩ : Buffer).Overlarge 0) :=
  ⟨by decide, validatesExactly_iff ⟨[0xE2, 0x82, 0xAC]⟩ 0 (by decide)⟩

/-- The value 0x110000. -/
theorem not_validatesExactly_overlarge : ¬ (⟨[0xF4, 0x90, 0x80, 0x80]⟩ : Buffer).ValidatesExactly 0 := by
  intro h
  obtain ⟨x, hx, -⟩ := h.value 0x110000 4 (by decide)
  rcases x.valid with h | h <;> omega

end Buffer

end SwiftKStdlib.Parse
