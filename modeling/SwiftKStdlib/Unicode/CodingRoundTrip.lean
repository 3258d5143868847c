import SwiftKStdlib.Unicode.Parsers

/-!
# Scalars come back

* `codeUnits` : the code units of a scalar, `wellFormed_codeUnits`;
* `encode_eq`, `decode_eq`, `transcode_eq` : the functions in terms of code units;
* `UTFParser.parseResults` : the results of `parseScalar`, with the encoded scalars;
* `coding_roundTrip` : encoding, parsing and decoding, and transcoding, of any sequence of scalars.
-/

namespace SwiftKStdlib.Unicode

open SwiftKStdlib.Lib SwiftKStdlib.Lib.BitField

/-! ## Masks and shifts -/

section Bits

variable {n : Nat}

theorem toNat_shiftLeft_of_lt {x : BitVec n} {k : Nat} (h : x.toNat * 2 ^ k < 2 ^ n) :
    (x <<< k).toNat = x.toNat * 2 ^ k := by
  rw [BitVec.toNat_shiftLeft, Nat.shiftLeft_eq, Nat.mod_eq_of_lt h]

theorem toNat_shiftRight (x : BitVec n) (k : Nat) : (x >>> k).toNat = x.toNat / 2 ^ k := by
  rw [BitVec.toNat_ushiftRight, Nat.shiftRight_eq_div_pow]

theorem toNat_or_high {x y : BitVec n} {k : Nat} (hx : x.toNat % 2 ^ k = 0) (hy : y.toNat < 2 ^ k) :
    (x ||| y).toNat = x.toNat + y.toNat := by
  rw [BitVec.toNat_or, or_eq_add hx hy]

theorem toNat_or_low {x y : BitVec n} {k : Nat} (hx : x.toNat < 2 ^ k) (hy : y.toNat % 2 ^ k = 0) :
    (x ||| y).toNat = x.toNat + y.toNat := by
  rw [BitVec.toNat_or, or_eq_add' hx hy]

theorem toNat_and_mask {x m : BitVec n} (s w : Nat) (hm : m.toNat = (2 ^ w - 1) * 2 ^ s) :
    (x &&& m).toNat = x.toNat / 2 ^ s % 2 ^ w * 2 ^ s := by
  rw [BitVec.toNat_and, hm, and_field]

end Bits

namespace UTF8

def codeUnits (c : Nat) : List (BitVec 8) :=
  if c < 0x80 then [BitVec.ofNat 8 c]
  else if c < 0x800 then [BitVec.ofNat 8 (0xC0 + c / 64), BitVec.ofNat 8 (0x80 + c % 64)]
  else if c < 0x10000 then
    [BitVec.ofNat 8 (0xE0 + c / 4096), BitVec.ofNat 8 (0x80 + c / 64 % 64), BitVec.ofNat 8 (0x80 + c % 64)]
  else
    [BitVec.ofNat 8 (0xF0 + c / 262144), BitVec.ofNat 8 (0x80 + c / 4096 % 64),
      BitVec.ofNat 8 (0x80 + c / 64 % 64), BitVec.ofNat 8 (0x80 + c % 64)]

theorem toNat_byte {x : Nat} (h : x < 256) : (BitVec.ofNat 8 x).toNat = x := by
  rw [BitVec.toNat_ofNat, Nat.mod_eq_of_lt h]

theorem biased_codeUnits {c : Nat} (hc : c < 0x110000) : biased (codeUnits c) =
    if c < 0x80 then c + 1
    else if c < 0x800 then c / 64 + c % 64 * 256 + 0x81C1
    else if c < 0x10000 then c / 4096 + c / 64 % 64 * 256 + c % 64 * 65536 + 0x8181E1
    else c / 262144 + c / 4096 % 64 * 256 + c / 64 % 64 * 65536 + c % 64 * 16777216 + 0x818181F1 := by
  unfold codeUnits
  split_ifs
  · rw [biased, biased, toNat_byte (by omega)]
  · rw [biased, biased, biased, toNat_byte (by omega), toNat_byte (by omega)]
    omega
  · rw [biased, biased, biased, biased, toNat_byte (by omega), toNat_byte (by omega), toNat_byte (by omega)]
    omega
  · rw [biased, biased, biased, biased, biased, toNat_byte (by omega), toNat_byte (by omega),
      toNat_byte (by omega), toNat_byte (by omega)]
    omega

theorem toNat_containing {e : BitVec 8} (he : e.toNat < 255) : (containing e).biasedBits.toNat = e.toNat + 1 := by
  rw [containing, BitVec.toNat_setWidth, BitVec.toNat_add]
  simp only [BitVec.reduceToNat]
  omega

theorem toNat_and_3F {n : Nat} {x m : BitVec n} (hm : m.toNat = 0x3F) : (x &&& m).toNat = x.toNat % 64 := by
  rw [toNat_and_mask 0 6 hm]
  omega

theorem toNat_next {o c : BitVec 32} {k : Nat} (ho : o.toNat % 256 = 0) (hlt : o.toNat < 2 ^ k) (hk : k ≤ 24) :
    ((o ||| c &&& 0b0011_1111) <<< 8).toNat = (o.toNat + c.toNat % 64) * 256 := by
  have hlow : (c &&& 0b0011_1111).toNat = c.toNat % 64 := toNat_and_3F rfl
  have hor : (o ||| c &&& 0b0011_1111).toNat = o.toNat + c.toNat % 64 := by
    rw [toNat_or_high (k := 8) ho (by omega), hlow]
  have hpow : 2 ^ k ≤ 2 ^ 24 := Nat.pow_le_pow_right (by decide) hk
  rw [toNat_shiftLeft_of_lt (by omega), hor]
  rfl

theorem toNat_first {c : BitVec 32} : ((c &&& 0b0011_1111) <<< 8).toNat = c.toNat % 64 * 256 := by
  have hlow : (c &&& 0b0011_1111).toNat = c.toNat % 64 := toNat_and_3F rfl
  rw [toNat_shiftLeft_of_lt (by omega), hlow]
  rfl

theorem encode_eq {c : BitVec 32} (hc : c.toNat < 0x110000) :
    ∃ e, encode c = some e ∧ e.biasedBits.toNat = biased (codeUnits c.toNat) := by
  have ho := toNat_first (c := c)
  have hc6 : (c >>> 6).toNat = c.toNat / 64 := toNat_shiftRight c 6
  have hc12 : (c >>> 6 >>> 6).toNat = c.toNat / 4096 := by
    rw [toNat_shiftRight, hc6, Nat.div_div_eq_div_mul]
    rfl
  have hc18 : (c >>> 6 >>> 6 >>> 6).toNat = c.toNat / 262144 := by
    rw [toNat_shiftRight, hc12, Nat.div_div_eq_div_mul]
    rfl
  have h7 : c < 1#32 <<< 7 ↔ c.toNat < 0x80 := BitVec.lt_def
  have h5 : c >>> 6 < 1#32 <<< 5 ↔ (c >>> 6).toNat < 0x20 := BitVec.lt_def
  have h4 : c >>> 6 >>> 6 < 1#32 <<< 4 ↔ (c >>> 6 >>> 6).toNat < 0x10 := BitVec.lt_def
  rw [biased_codeUnits hc]
  unfold encode
  by_cases h80 : c.toNat < 0x80
  · rw [if_pos (h7.2 h80), if_pos h80]
    refine ⟨_, rfl, ?_⟩
    have hbyte : (c.setWidth 8).toNat = c.toNat := by
      rw [BitVec.toNat_setWidth, Nat.mod_eq_of_lt (by omega)]
    rw [toNat_containing (by omega), hbyte]
  rw [if_neg (mt h7.1 h80), if_neg h80]
  by_cases h800 : c.toNat < 0x800
  · have hor : ((c &&& 0b0011_1111) <<< 8 ||| c >>> 6).toNat = c.toNat % 64 * 256 + c.toNat / 64 := by
      rw [toNat_or_high (k := 8) (by omega) (by omega), ho, hc6]
    simp only [if_pos (h5.2 (by omega)), if_pos h800]
    refine ⟨_, rfl, ?_⟩
    rw [BitVec.toNat_add, hor]
    simp only [BitVec.reduceToNat]
    omega
  have ho2 := toNat_next (c := c >>> 6) (k := 14) (o := (c &&& 0b0011_1111) <<< 8) (by omega) (by omega) (by omega)
  by_cases h10000 : c.toNat < 0x10000
  · have hor : (((c &&& 0b0011_1111) <<< 8 ||| c >>> 6 &&& 0b0011_1111) <<< 8 ||| c >>> 6 >>> 6).toNat =
        (c.toNat % 64 * 256 + c.toNat / 64 % 64) * 256 + c.toNat / 4096 := by
      rw [toNat_or_high (k := 8) (by omega) (by omega), ho2, ho, hc12, hc6]
    simp only [if_neg (mt h5.1 (by omega)), if_pos (h4.2 (by omega)), if_neg h800, if_pos h10000]
    refine ⟨_, rfl, ?_⟩
    rw [BitVec.toNat_add, hor]
    simp only [BitVec.reduceToNat]
    omega
  · have ho3 := toNat_next (c := c >>> 6 >>> 6) (k := 22)
      (o := ((c &&& 0b0011_1111) <<< 8 ||| c >>> 6 &&& 0b0011_1111) <<< 8) (by omega) (by omega) (by omega)
    have hor : ((((c &&& 0b0011_1111) <<< 8 ||| c >>> 6 &&& 0b0011_1111) <<< 8 |||
        c >>> 6 >>> 6 &&& 0b0011_1111) <<< 8 ||| c >>> 6 >>> 6 >>> 6).toNat =
        ((c.toNat % 64 * 256 + c.toNat / 64 % 64) * 256 + c.toNat / 4096 % 64) * 256 + c.toNat / 262144 := by
      rw [toNat_or_high (k := 8) (by omega) (by omega), ho3, ho2, ho, hc18, hc12, hc6]
    simp only [if_neg (mt h5.1 (by omega)), if_neg (mt h4.1 (by omega)), if_neg h800, if_neg h10000]
    refine ⟨_, rfl, ?_⟩
    rw [BitVec.toNat_add, hor]
    simp only [BitVec.reduceToNat]
    omega

/-! ## Decoding -/

theorem biased_bounds {s : List (BitVec 8)} (hs : ∀ x ∈ s, x.toNat < 255) (hne : s ≠ []) :
    2 ^ (8 * (s.length - 1)) ≤ biased s ∧ biased s < 2 ^ (8 * s.length) := by
  induction s with
  | nil => exact absurd rfl hne
  | cons x s ih =>
    have hx := hs x List.mem_cons_self
    cases s with
    | nil =>
      rw [biased, biased]
      simp only [List.length_cons, List.length_nil]
      omega
    | cons y s =>
      obtain ⟨hlow, hhigh⟩ := ih (fun z hz => hs z (List.mem_cons_of_mem x hz)) (List.cons_ne_nil y s)
      rw [biased]
      simp only [List.length_cons, Nat.add_sub_cancel, Nat.mul_add, pow_add] at hlow hhigh ⊢
      omega

theorem count_eq {e : ValidUTF8Buffer} {s : List (BitVec 8)} (hs : ∀ x ∈ s, x.toNat < 255) (hne : s ≠ [])
    (h : e.biasedBits.toNat = biased s) : e.count = s.length := by
  obtain ⟨hlow, hhigh⟩ := biased_bounds hs hne
  rw [← h] at hlow hhigh
  have hpos : 0 < s.length := List.length_pos_of_ne_nil hne
  have hzero : e.biasedBits ≠ 0#32 := fun hzero => by
    rw [hzero] at hlow
    have hpow := Nat.two_pow_pos (8 * (s.length - 1))
    simp only [BitVec.toNat_ofNat] at hlow
    omega
  have hclz := BitVec.two_pow_sub_clz_le_toNat_of_ne_zero (by decide) hzero
  have hclz' := BitVec.toNat_lt_two_pow_sub_clz (x := e.biasedBits)
  have h1 := (Nat.pow_lt_pow_iff_right (show 1 < 2 by decide)).1 (hlow.trans_lt hclz')
  have h2 := (Nat.pow_lt_pow_iff_right (show 1 < 2 by decide)).1 (hclz.trans_lt hhigh)
  unfold ValidUTF8Buffer.count ValidUTF8Buffer.leadingZeroBitCount
  omega

theorem length_codeUnits (c : Nat) : (codeUnits c).length =
    if c < 0x80 then 1 else if c < 0x800 then 2 else if c < 0x10000 then 3 else 4 := by
  unfold codeUnits
  split_ifs <;> rfl

theorem codeUnits_lt {c : Nat} (hc : c < 0x110000) : ∀ x ∈ codeUnits c, x.toNat < 255 := by
  intro x hx
  unfold codeUnits at hx
  split_ifs at hx <;> simp only [List.mem_cons, List.not_mem_nil, or_false] at hx
  · rw [hx, toNat_byte (by omega)]
    omega
  · rcases hx with rfl | rfl <;> rw [toNat_byte (by omega)] <;> omega
  · rcases hx with rfl | rfl | rfl <;> rw [toNat_byte (by omega)] <;> omega
  · rcases hx with rfl | rfl | rfl | rfl <;> rw [toNat_byte (by omega)] <;> omega

theorem codeUnits_ne_nil (c : Nat) : codeUnits c ≠ [] := by
  unfold codeUnits
  split_ifs <;> exact List.cons_ne_nil _ _

theorem count_codeUnits {e : ValidUTF8Buffer} {c : Nat} (hc : c < 0x110000)
    (h : e.biasedBits.toNat = biased (codeUnits c)) :
    e.count = if c < 0x80 then 1 else if c < 0x800 then 2 else if c < 0x10000 then 3 else 4 := by
  rw [count_eq (codeUnits_lt hc) (codeUnits_ne_nil c) h, length_codeUnits]

theorem digits (c : Nat) : c % 64 + c / 64 % 64 * 64 + c / 4096 % 64 * 4096 + c / 262144 * 262144 = c := by
  omega

theorem toNat_field {bits m : BitVec 32} (s w low byte high : Nat)
    (hbits : bits.toNat = low + (byte + high * 256) * 2 ^ s) (hm : m.toNat = (2 ^ w - 1) * 2 ^ s) (hw : w ≤ 8)
    (hlow : low < 2 ^ s) : (bits &&& m).toNat = byte % 2 ^ w * 2 ^ s := by
  have hdiv : bits.toNat / 2 ^ s = byte + high * 256 := by
    rw [hbits, Nat.add_mul_div_right _ _ (Nat.two_pow_pos _), Nat.div_eq_of_lt hlow, Nat.zero_add]
  have hpow : 2 ^ w ∣ 256 := pow_dvd_pow 2 hw
  have hmod : (byte + high * 256) % 2 ^ w = byte % 2 ^ w := by
    rw [Nat.add_mod, Nat.mod_eq_zero_of_dvd (hpow.mul_left high), Nat.add_zero, Nat.mod_mod]
  rw [toNat_and_mask s w hm, hdiv, hmod]

theorem decode_eq {e : ValidUTF8Buffer} {c : Nat} (hc : c < 0x110000)
    (h : e.biasedBits.toNat = biased (codeUnits c)) : (decode e).toNat = c := by
  unfold decode
  rw [count_codeUnits hc h]
  rw [biased_codeUnits hc] at h
  by_cases h80 : c < 0x80
  · rw [if_pos h80] at h ⊢
    show (e.biasedBits - 1#32).toNat = c
    rw [BitVec.toNat_sub, h]
    simp only [BitVec.reduceToNat]
    omega
  by_cases h800 : c < 0x800
  · rw [if_neg h80, if_pos h800] at h ⊢
    have hbits : (e.biasedBits - 0x0101).toNat = 0xC0 + c / 64 + (0x80 + c % 64) * 256 := by
      rw [BitVec.toNat_sub, h]
      simp only [BitVec.reduceToNat]
      omega
    show (((e.biasedBits - 0x0101) &&& 0b0011_1111__0000_0000) >>> 8 |||
      ((e.biasedBits - 0x0101) &&& 0b0001_1111) <<< 6).toNat = c
    generalize e.biasedBits - 0x0101 = bits at hbits ⊢
    have h0 : (bits &&& 0b0001_1111).toNat = c / 64 := by
      rw [toNat_field 0 5 0 (0xC0 + c / 64) (0x80 + c % 64) (by omega) rfl (by omega) (by omega)]
      omega
    have h1 : (bits &&& 0b0011_1111__0000_0000).toNat = c % 64 * 256 := by
      rw [toNat_field 8 6 (0xC0 + c / 64) (0x80 + c % 64) 0 (by omega) rfl (by omega) (by omega)]
      omega
    have h0' := toNat_shiftLeft_of_lt (x := bits &&& 0b0001_1111) (k := 6) (by omega)
    have h1' := toNat_shiftRight (bits &&& 0b0011_1111__0000_0000) 8
    rw [toNat_or_low (k := 6) (by omega) (by omega)]
    omega
  by_cases h10000 : c < 0x10000
  · rw [if_neg h80, if_neg h800, if_pos h10000] at h ⊢
    have hbits : (e.biasedBits - 0x010101).toNat =
        0xE0 + c / 4096 + (0x80 + c / 64 % 64) * 256 + (0x80 + c % 64) * 65536 := by
      rw [BitVec.toNat_sub, h]
      simp only [BitVec.reduceToNat]
      omega
    show (((e.biasedBits - 0x010101) &&& 0b0011_1111__0000_0000__0000_0000) >>> 16 |||
      ((e.biasedBits - 0x010101) &&& 0b0011_1111__0000_0000) >>> 2 |||
      ((e.biasedBits - 0x010101) &&& 0b0000_1111) <<< 12).toNat = c
    generalize e.biasedBits - 0x010101 = bits at hbits ⊢
    have h0 : (bits &&& 0b0000_1111).toNat = c / 4096 := by
      rw [toNat_field 0 4 0 (0xE0 + c / 4096) (0x80 + c / 64 % 64 + (0x80 + c % 64) * 256) (by omega) rfl
        (by omega) (by omega)]
      omega
    have h1 : (bits &&& 0b0011_1111__0000_0000).toNat = c / 64 % 64 * 256 := by
      rw [toNat_field 8 6 (0xE0 + c / 4096) (0x80 + c / 64 % 64) (0x80 + c % 64) (by omega) rfl (by omega)
        (by omega)]
      omega
    have h2 : (bits &&& 0b0011_1111__0000_0000__0000_0000).toNat = c % 64 * 65536 := by
      rw [toNat_field 16 6 (0xE0 + c / 4096 + (0x80 + c / 64 % 64) * 256) (0x80 + c % 64) 0 (by omega) rfl
        (by omega) (by omega)]
      omega
    have h0' := toNat_shiftLeft_of_lt (x := bits &&& 0b0000_1111) (k := 12) (by omega)
    have h1' := toNat_shiftRight (bits &&& 0b0011_1111__0000_0000) 2
    have h2' := toNat_shiftRight (bits &&& 0b0011_1111__0000_0000__0000_0000) 16
    have hor := toNat_or_low (x := (bits &&& 0b0011_1111__0000_0000__0000_0000) >>> 16)
      (y := (bits &&& 0b0011_1111__0000_0000) >>> 2) (k := 6) (by omega) (by omega)
    rw [toNat_or_low (k := 12) (by omega) (by omega)]
    omega
  · rw [if_neg h80, if_neg h800, if_neg h10000] at h ⊢
    have hbits : (e.biasedBits - 0x01010101).toNat = 0xF0 + c / 262144 + (0x80 + c / 4096 % 64) * 256 +
        (0x80 + c / 64 % 64) * 65536 + (0x80 + c % 64) * 16777216 := by
      rw [BitVec.toNat_sub, h]
      simp only [BitVec.reduceToNat]
      omega
    show (((e.biasedBits - 0x01010101) &&& 0b0011_1111__0000_0000__0000_0000__0000_0000) >>> 24 |||
      ((e.biasedBits - 0x01010101) &&& 0b0011_1111__0000_0000__0000_0000) >>> 10 |||
      ((e.biasedBits - 0x01010101) &&& 0b0011_1111__0000_0000) <<< 4 |||
      ((e.biasedBits - 0x01010101) &&& 0b0000_0111) <<< 18).toNat = c
    generalize e.biasedBits - 0x01010101 = bits at hbits ⊢
    have h0 : (bits &&& 0b0000_0111).toNat = c / 262144 := by
      rw [toNat_field 0 3 0 (0xF0 + c / 262144) (0x80 + c / 4096 % 64 + (0x80 + c / 64 % 64) * 256 +
        (0x80 + c % 64) * 65536) (by omega) rfl (by omega) (by omega)]
      omega
    have h1 : (bits &&& 0b0011_1111__0000_0000).toNat = c / 4096 % 64 * 256 := by
      rw [toNat_field 8 6 (0xF0 + c / 262144) (0x80 + c / 4096 % 64) (0x80 + c / 64 % 64 + (0x80 + c % 64) * 256)
        (by omega) rfl (by omega) (by omega)]
      omega
    have h2 : (bits &&& 0b0011_1111__0000_0000__0000_0000).toNat = c / 64 % 64 * 65536 := by
      rw [toNat_field 16 6 (0xF0 + c / 262144 + (0x80 + c / 4096 % 64) * 256) (0x80 + c / 64 % 64)
        (0x80 + c % 64) (by omega) rfl (by omega) (by omega)]
      omega
    have h3 : (bits &&& 0b0011_1111__0000_0000__0000_0000__0000_0000).toNat = c % 64 * 16777216 := by
      rw [toNat_field 24 6 (0xF0 + c / 262144 + (0x80 + c / 4096 % 64) * 256 + (0x80 + c / 64 % 64) * 65536)
        (0x80 + c % 64) 0 (by omega) rfl (by omega) (by omega)]
      omega
    have h0' := toNat_shiftLeft_of_lt (x := bits &&& 0b0000_0111) (k := 18) (by omega)
    have h1' := toNat_shiftLeft_of_lt (x := bits &&& 0b0011_1111__0000_0000) (k := 4) (by omega)
    have h2' := toNat_shiftRight (bits &&& 0b0011_1111__0000_0000__0000_0000) 10
    have h3' := toNat_shiftRight (bits &&& 0b0011_1111__0000_0000__0000_0000__0000_0000) 24
    have hor := toNat_or_low (x := (bits &&& 0b0011_1111__0000_0000__0000_0000__0000_0000) >>> 24)
      (y := (bits &&& 0b0011_1111__0000_0000__0000_0000) >>> 10) (k := 6) (by omega) (by omega)
    have hor' := toNat_or_low (x := (bits &&& 0b0011_1111__0000_0000__0000_0000__0000_0000) >>> 24 |||
      (bits &&& 0b0011_1111__0000_0000__0000_0000) >>> 10) (y := (bits &&& 0b0011_1111__0000_0000) <<< 4)
      (k := 12) (by omega) (by omega)
    have hdigits := digits c
    rw [toNat_or_low (k := 18) (by omega) (by omega), hor', hor, h3', h2', h1', h0', h3, h2, h1, h0]
    clear * - hdigits
    omega

theorem biased_go {n : Nat} {biasedBits : BitVec 32} {s : List (BitVec 8)}
    (h : ValidUTF8Buffer.elements.go n biasedBits = s) (hn : biasedBits.toNat < 256 ^ n)
    (hs : ∀ x ∈ s, x.toNat < 255) : biasedBits.toNat = biased s := by
  induction n generalizing biasedBits s with
  | zero =>
      rw [pow_zero, Nat.lt_one_iff] at hn
      rw [← h, hn]
      rfl
  | succ n ih =>
      rw [ValidUTF8Buffer.elements.go] at h
      split_ifs at h with hz
      · rw [← h, hz]
        rfl
      · cases s with
        | nil => cases h
        | cons x s =>
            obtain ⟨hx, h⟩ := List.cons.inj h
            have hshift : (biasedBits >>> 8).toNat = biasedBits.toNat / 256 := toNat_shiftRight biasedBits 8
            have hrest := ih h (by rw [hshift]; omega) fun y hy => hs y (List.mem_cons_of_mem x hy)
            have hlt : x.toNat < 255 := hs x List.mem_cons_self
            rw [← hx, BitVec.toNat_sub, BitVec.toNat_setWidth] at hlt
            have hlow : (biasedBits.setWidth 8 - 1).toNat + 1 = biasedBits.toNat % 256 := by
              rw [BitVec.toNat_sub, BitVec.toNat_setWidth]
              simp only [BitVec.reduceToNat] at hlt ⊢
              omega
            rw [biased, ← hrest, hshift, ← hx, hlow]
            omega

theorem wellFormed_codeUnits (x : Scalar) : WellFormed (codeUnits x.value.toNat) := by
  obtain ⟨value, hvalid⟩ := x
  show WellFormed (codeUnits value.toNat)
  generalize value.toNat = c at hvalid ⊢
  unfold codeUnits
  split_ifs
  · rw [wellFormed_one, toNat_byte (by omega)]
    omega
  · rw [wellFormed_two, toNat_byte (by omega), toNat_byte (by omega), Tail]
    omega
  · rw [wellFormed_three, toNat_byte (by omega), toNat_byte (by omega), toNat_byte (by omega), Lead3, Tail]
    omega
  · rw [wellFormed_four, toNat_byte (by omega), toNat_byte (by omega), toNat_byte (by omega), toNat_byte (by omega),
      Lead4, Tail, Tail]
    omega

theorem biased_of_elements {e : ValidUTF8Buffer} {x : Scalar} (h : e.elements = codeUnits x.value.toNat) :
    e.biasedBits.toNat = biased (codeUnits x.value.toNat) :=
  biased_go h (by omega) fun y hy => (lt_of_wellFormed (wellFormed_codeUnits x) y hy).trans (by decide)

theorem elements_of_biased {e : ValidUTF8Buffer} {x : Scalar}
    (h : e.biasedBits.toNat = biased (codeUnits x.value.toNat)) : e.elements = codeUnits x.value.toNat :=
  elements_eq (wellFormed_length (wellFormed_codeUnits x)).2
    (fun y hy => (lt_of_wellFormed (wellFormed_codeUnits x) y hy).trans (by decide)) h

end UTF8

namespace UTF16

def codeUnits (c : Nat) : List (BitVec 16) :=
  if c < 0x10000 then [BitVec.ofNat 16 c]
  else [BitVec.ofNat 16 (0xD800 + (c - 0x10000) / 1024), BitVec.ofNat 16 (0xDC00 + (c - 0x10000) % 1024)]

theorem toNat_unit {x : Nat} (h : x < 65536) : (BitVec.ofNat 16 x).toNat = x := by
  rw [BitVec.toNat_ofNat, Nat.mod_eq_of_lt h]

theorem packed_codeUnits {c : Nat} (hc : c < 0x110000) : UIntBuffer.packed (codeUnits c) =
    if c < 0x10000 then c else 0xD800 + (c - 0x10000) / 1024 + (0xDC00 + (c - 0x10000) % 1024) * 65536 := by
  unfold codeUnits
  split_ifs
  · rw [UIntBuffer.packed, UIntBuffer.packed, toNat_unit (by omega)]
    omega
  · rw [UIntBuffer.packed, UIntBuffer.packed, UIntBuffer.packed, toNat_unit (by omega), toNat_unit (by omega)]
    omega

theorem length_codeUnits (c : Nat) : (codeUnits c).length = if c < 0x10000 then 1 else 2 := by
  unfold codeUnits
  split_ifs <;> rfl

structure Reads (e : EncodedScalar) (s : List (BitVec 16)) : Prop where
  bitCount : e.bitCount.toNat = 16 * s.length
  storage : e.storage.toNat % 2 ^ (16 * s.length) = UIntBuffer.packed s

theorem encode_eq {c : BitVec 32} (hc : c.toNat < 0x110000) :
    ∃ e, encode c = some e ∧ UIntBuffer.Holds e (codeUnits c.toNat) := by
  have hpacked := packed_codeUnits hc
  have hlength := length_codeUnits c.toNat
  have h16 : c < 1#32 <<< 16 ↔ c.toNat < 0x10000 := BitVec.lt_def
  unfold encode
  by_cases hsmall : c.toNat < 0x10000
  · rw [if_pos (h16.2 hsmall)]
    rw [if_pos hsmall] at hpacked hlength
    refine ⟨_, rfl, hpacked.symm, ?_, ?_⟩
    · rw [hlength]
      rfl
    · rw [hlength]
      decide
  · rw [if_neg (mt h16.1 hsmall)]
    rw [if_neg hsmall] at hpacked hlength
    refine ⟨_, rfl, ?_, ?_, ?_⟩
    rotate_left
    · rw [hlength]
      rfl
    · rw [hlength]
    have hx1 : (c - 1#32 <<< 16).toNat = c.toNat - 0x10000 := by
      rw [BitVec.toNat_sub, show (1#32 <<< 16).toNat = 0x10000 from rfl]
      omega
    show ((0xdc00#32 + ((c - 1#32 <<< 16) &&& 0x3ff#32)) <<< 16 ||| 0xd800#32 + ((c - 1#32 <<< 16) >>> 10 &&& 0x3ff#32)).toNat = _
    generalize c - 1#32 <<< 16 = x1 at hx1
    have hlow : (x1 &&& 0x3ff#32).toNat = x1.toNat % 1024 := by
      rw [toNat_and_mask 0 10 rfl]
      omega
    have hhigh : (x1 >>> 10 &&& 0x3ff#32).toNat = x1.toNat / 1024 % 1024 := by
      rw [toNat_and_mask 0 10 rfl, toNat_shiftRight]
      omega
    have hdc : (0xdc00#32 + (x1 &&& 0x3ff#32)).toNat = 0xdc00 + x1.toNat % 1024 := by
      rw [BitVec.toNat_add, hlow]
      simp only [BitVec.reduceToNat]
      omega
    have hd8 : (0xd800#32 + (x1 >>> 10 &&& 0x3ff#32)).toNat = 0xd800 + x1.toNat / 1024 % 1024 := by
      rw [BitVec.toNat_add, hhigh]
      simp only [BitVec.reduceToNat]
      omega
    have hshift := toNat_shiftLeft_of_lt (x := 0xdc00#32 + (x1 &&& 0x3ff#32)) (k := 16) (by omega)
    rw [toNat_or_high (k := 16) (by omega) (by omega), hshift, hdc, hd8, hpacked, hx1]
    omega

theorem decode_eq {e : EncodedScalar} {c : Nat} (hc : c < 0x110000) (h : Reads e (codeUnits c)) :
    (decode e).toNat = c := by
  have hpacked := packed_codeUnits hc
  have hlength := length_codeUnits c
  have hcount := h.bitCount
  have hstorage := h.storage
  rw [hpacked, hlength] at hstorage
  rw [hlength] at hcount
  unfold decode
  by_cases hsmall : c < 0x10000
  · simp only [if_pos hsmall] at hcount hstorage
    rw [if_pos (BitVec.eq_of_toNat_eq hcount), toNat_and_mask 0 16 rfl, pow_zero, Nat.div_one, Nat.mul_one]
    exact hstorage
  · simp only [if_neg hsmall] at hcount hstorage
    have hne : e.bitCount ≠ 16 := fun heq => by
      rw [heq] at hcount
      cases hcount
    have hbits : e.storage.toNat = 0xD800 + (c - 0x10000) / 1024 + (0xDC00 + (c - 0x10000) % 1024) * 65536 :=
      (Nat.mod_eq_of_lt e.storage.isLt).symm.trans hstorage
    rw [if_neg hne]
    show (0x10000#32 + (e.storage >>> 16 &&& 0x03ff#32 ||| (e.storage &&& 0x03ff#32) <<< 10)).toNat = c
    generalize e.storage = bits at hbits
    have hhalf : bits.toNat / 2 ^ 16 = 0xDC00 + (c - 0x10000) % 1024 := by
      rw [hbits]
      omega
    have hlow : (bits >>> 16 &&& 0x03ff#32).toNat = (c - 0x10000) % 1024 := by
      rw [toNat_and_mask 0 10 rfl, toNat_shiftRight, hhalf, pow_zero, Nat.div_one, Nat.mul_one]
      omega
    have hhigh : (bits &&& 0x03ff#32).toNat = (c - 0x10000) / 1024 := by
      rw [toNat_and_mask 0 10 rfl, hbits, pow_zero, Nat.div_one, Nat.mul_one]
      omega
    have hshift := toNat_shiftLeft_of_lt (x := bits &&& 0x03ff#32) (k := 10) (by omega)
    have hor := toNat_or_low (x := bits >>> 16 &&& 0x03ff#32) (y := (bits &&& 0x03ff#32) <<< 10) (k := 10) (by omega)
      (by omega)
    rw [BitVec.toNat_add, hor, hshift, hlow, hhigh]
    simp only [BitVec.reduceToNat]
    omega

theorem reads_go {fuel : Nat} {e : EncodedScalar} {s : List (BitVec 16)} (h : UIntBuffer.elements.go fuel e = s)
    (hfuel : s.length < fuel) (hs : s.length ≤ 2) : Reads e s := by
  induction s generalizing fuel e with
  | nil =>
      cases fuel with
      | zero => exact absurd hfuel (Nat.lt_irrefl 0)
      | succ fuel =>
          rw [UIntBuffer.elements.go] at h
          split_ifs at h with hz
          exact ⟨by rw [hz]; rfl, Nat.mod_one _⟩
  | cons x s ih =>
      cases fuel with
      | zero => exact absurd hfuel (Nat.not_lt_zero _)
      | succ fuel =>
          rw [UIntBuffer.elements.go] at h
          split_ifs at h with hz
          obtain ⟨hx, h⟩ := List.cons.inj h
          rw [List.length_cons] at hfuel hs
          obtain ⟨hcount, hstorage⟩ := ih h (by omega) (by omega)
          have hshift : (maskingShiftRight e.storage (16 : Nat)).toNat = e.storage.toNat / 2 ^ 16 :=
            toNat_shiftRight e.storage 16
          rw [hshift] at hstorage
          have hlt := e.bitCount.isLt
          have hbits : (e.bitCount - BitVec.ofNat 8 16).toNat = (256 - 16 + e.bitCount.toNat) % 256 :=
            BitVec.toNat_sub _ _
          rw [hbits] at hcount
          refine ⟨?_, ?_⟩
          · rw [List.length_cons]
            omega
          · have hlow : e.storage.toNat % 2 ^ 16 = x.toNat := by rw [← hx, BitVec.toNat_setWidth]
            rw [UIntBuffer.packed, List.length_cons, Nat.mul_succ, Nat.add_comm (16 * _), pow_add, Nat.mod_mul,
              hlow, hstorage]

theorem reads_of_elements {e : EncodedScalar} {c : Nat} (h : e.elements = codeUnits c) : Reads e (codeUnits c) := by
  have hlength := length_codeUnits c
  have hle : (codeUnits c).length ≤ 2 := by split_ifs at hlength <;> omega
  exact reads_go h (by omega) hle

theorem wellFormed_codeUnits (x : Scalar) : WellFormed (codeUnits x.value.toNat) := by
  obtain ⟨value, hvalid⟩ := x
  show WellFormed (codeUnits value.toNat)
  generalize value.toNat = c at hvalid ⊢
  unfold codeUnits
  split_ifs
  · rw [wellFormed_one, Leading, Trailing, toNat_unit (by omega)]
    omega
  · rw [wellFormed_two, Leading, Trailing, toNat_unit (by omega), toNat_unit (by omega)]
    omega

end UTF16

/-! ## Transcoding -/

namespace UTF16

theorem toNat_six (r s : BitVec 32) {k : Nat} (hk : k ≤ 26) :
    (r <<< 6 ||| s &&& 0b0011_1111).toNat % 2 ^ (k + 6) = r.toNat % 2 ^ k * 64 + s.toNat % 64 := by
  have hlow : (s &&& 0b0011_1111).toNat = s.toNat % 64 := UTF8.toNat_and_3F rfl
  have hshift : (r <<< 6).toNat = r.toNat * 64 % 2 ^ 32 := by
    rw [BitVec.toNat_shiftLeft, Nat.shiftLeft_eq]
  have hpow : 2 ^ (k + 6) ∣ 2 ^ 32 := pow_dvd_pow 2 (by omega)
  have hmod : r.toNat * 64 % 2 ^ 32 % 2 ^ (k + 6) = r.toNat % 2 ^ k * 64 := by
    rw [Nat.mod_mod_of_dvd _ hpow, pow_add]
    exact Nat.mul_mod_mul_right 64 r.toNat (2 ^ k)
  have hlt : r.toNat % 2 ^ k * 64 + s.toNat % 64 < 2 ^ (k + 6) := by
    have := Nat.mod_lt r.toNat (Nat.two_pow_pos k)
    rw [pow_add]
    omega
  have hs : s.toNat % 64 < 2 ^ (k + 6) := by omega
  rw [toNat_or_high (k := 6) (by omega) (by omega), hshift, hlow, Nat.add_mod, hmod, Nat.mod_eq_of_lt hs,
    Nat.mod_eq_of_lt hlt]

theorem toNat_ofNat_scalar {c : Nat} (hc : c < 0x110000) : (BitVec.ofNat 32 c).toNat = c := by
  rw [BitVec.toNat_ofNat, Nat.mod_eq_of_lt (by omega)]

theorem encode_of_bits {bits : BitVec 32} {c : Nat} (hc : c < 0x10000) (h : bits.toNat = c) :
    encode (BitVec.ofNat 32 c) = some ⟨bits, 16⟩ := by
  have hbits : BitVec.ofNat 32 c = bits := by
    apply BitVec.eq_of_toNat_eq
    rw [toNat_ofNat_scalar (by omega), h]
  have hlt : bits < 1#32 <<< 16 := BitVec.lt_def.2 (h ▸ hc)
  rw [hbits, encode, if_pos hlt]

theorem trailing_mod (x y : Nat) : (0x80 + x % 64 + y * 256) % 64 = x % 64 := by omega

theorem transcode_eq {e : ValidUTF8Buffer} {c : Nat} (hc : c < 0x110000)
    (h : e.biasedBits.toNat = UTF8.biased (UTF8.codeUnits c)) : transcode e = encode (UTF8.decode e) := by
  have hdecode : UTF8.decode e = BitVec.ofNat 32 c := by
    apply BitVec.eq_of_toNat_eq
    rw [UTF8.decode_eq hc h, toNat_ofNat_scalar hc]
  have hcount := UTF8.count_codeUnits hc h
  rw [hdecode]
  rw [UTF8.biased_codeUnits hc] at h
  unfold transcode
  by_cases h80 : c < 0x80
  · rw [if_pos h80] at h hcount
    rw [hcount, if_pos rfl]
    refine (encode_of_bits (by omega) ?_).symm
    rw [toNat_and_mask 0 7 rfl, BitVec.toNat_sub, h, pow_zero, Nat.div_one, Nat.mul_one]
    simp only [BitVec.reduceToNat]
    omega
  rw [if_neg h80] at h hcount
  have hs := BitVec.toNat_sub e.biasedBits 0x01010101
  rw [h] at hs
  simp only [BitVec.reduceToNat] at hs
  generalize e.biasedBits - 0x01010101 = s at hs ⊢
  have h8 : (s >>> 8).toNat = s.toNat / 256 := toNat_shiftRight s 8
  have h16 : (s >>> 8 >>> 8).toNat = s.toNat / 65536 := by
    rw [toNat_shiftRight, h8, Nat.div_div_eq_div_mul]
    rfl
  have h24 : (s >>> 8 >>> 8 >>> 8).toNat = s.toNat / 16777216 := by
    rw [toNat_shiftRight, h16, Nat.div_div_eq_div_mul]
    rfl
  by_cases h800 : c < 0x800
  · rw [if_pos h800] at hs hcount
    rw [hcount, if_neg (by decide), if_pos rfl]
    refine (encode_of_bits (by omega) ?_).symm
    have hbytes : s.toNat = 0xC0 + c / 64 + (0x80 + c % 64 + 0xFEFF * 256) * 256 := by omega
    have h0 : s.toNat % 2 ^ 5 = c / 64 := by omega
    have h1 : s.toNat / 256 = 0x80 + c % 64 + 0xFEFF * 256 := by omega
    rw [toNat_and_mask 0 11 rfl, pow_zero, Nat.div_one, Nat.mul_one, toNat_six s _ (k := 5) (by omega), h8, h0, h1,
      trailing_mod]
    omega
  rw [if_neg h800] at hs hcount
  by_cases h10000 : c < 0x10000
  · rw [if_pos h10000] at hs hcount
    rw [hcount, if_neg (by decide), if_neg (by decide), if_pos rfl]
    refine (encode_of_bits h10000 ?_).symm
    have hbytes : s.toNat = 0xE0 + c / 4096 + (0x80 + c / 64 % 64 + (0x80 + c % 64 + 0xFF * 256) * 256) * 256 := by
      omega
    have h0 : s.toNat % 2 ^ 4 = c / 4096 := by omega
    have h1 : s.toNat / 256 = 0x80 + c / 64 % 64 + (0x80 + c % 64 + 0xFF * 256) * 256 := by omega
    have h2 : s.toNat / 65536 = 0x80 + c % 64 + 0xFF * 256 := by omega
    have hdigits := UTF8.digits c
    rw [toNat_and_mask 0 16 rfl, pow_zero, Nat.div_one, Nat.mul_one, toNat_six _ _ (k := 10) (by omega),
      toNat_six s _ (k := 4) (by omega), h16, h8, h0, h1, h2, trailing_mod, trailing_mod]
    omega
  · rw [if_neg h10000] at hs hcount
    rw [hcount, if_neg (by decide), if_neg (by decide), if_neg (by decide)]
    have hbytes : s.toNat = 0xF0 + c / 262144 +
        (0x80 + c / 4096 % 64 + (0x80 + c / 64 % 64 + (0x80 + c % 64) * 256) * 256) * 256 := by omega
    have h0 : s.toNat % 2 ^ 3 = c / 262144 := by omega
    have h1 : s.toNat / 256 = 0x80 + c / 4096 % 64 + (0x80 + c / 64 % 64 + (0x80 + c % 64) * 256) * 256 := by omega
    have h2 : s.toNat / 65536 = 0x80 + c / 64 % 64 + (0x80 + c % 64) * 256 := by omega
    have h3 : s.toNat / 16777216 = 0x80 + c % 64 + 0 * 256 := by omega
    have hdigits := UTF8.digits c
    show encode _ = encode _
    congr 1
    apply BitVec.eq_of_toNat_eq
    rw [toNat_and_mask 0 21 rfl, pow_zero, Nat.div_one, Nat.mul_one, toNat_six _ _ (k := 15) (by omega),
      toNat_six _ _ (k := 9) (by omega), toNat_six s _ (k := 3) (by omega), h24, h16, h8, h0, h1, h2, h3,
      trailing_mod, trailing_mod, trailing_mod, toNat_ofNat_scalar hc]
    omega

end UTF16

namespace UTF8

theorem encode_of_biased {bits c : BitVec 32} (hc : c.toNat < 0x110000) (h : bits.toNat = biased (codeUnits c.toNat)) :
    encode c = some ⟨bits⟩ := by
  obtain ⟨e, he, hbits⟩ := encode_eq hc
  have heq : e.biasedBits = bits := BitVec.eq_of_toNat_eq (hbits.trans h.symm)
  rw [he, ← heq]

theorem transcode_eq {e : UTF16.EncodedScalar} (x : Scalar) (h : UTF16.Reads e (UTF16.codeUnits x.value.toNat)) :
    transcode e = encode (UTF16.decode e) := by
  obtain ⟨value, hvalid⟩ := x
  simp only at h
  have hc : value.toNat < 0x110000 := by omega
  have hdecode : UTF16.decode e = value := BitVec.eq_of_toNat_eq (UTF16.decode_eq hc h)
  have hstorage := h.storage
  have hbiased := biased_codeUnits hc
  rw [UTF16.packed_codeUnits hc, UTF16.length_codeUnits] at hstorage
  have hmask : ∀ {x m : BitVec 16} (_ : m.toNat = 0x3F), ((x &&& m).setWidth 32).toNat = x.toNat % 64 := fun hm => by
    rw [BitVec.toNat_setWidth, toNat_and_3F hm]
    omega
  unfold transcode
  generalize hu : e.storage.setWidth 16 = u
  have hu0 : u.toNat = e.storage.toNat % 65536 := by rw [← hu, BitVec.toNat_setWidth]
  have hu6 : (u >>> 6).toNat = u.toNat / 64 := toNat_shiftRight u 6
  have hu12 : (u >>> 6 >>> 6).toNat = u.toNat / 4096 := by
    rw [toNat_shiftRight, hu6, Nat.div_div_eq_div_mul]
    rfl
  have h80 : u < 0x80 ↔ u.toNat < 0x80 := BitVec.lt_def
  have h20 : u >>> 6 < 1#16 <<< 5 ↔ (u >>> 6).toNat < 0x20 := BitVec.lt_def
  have hsurrogate : (u >>> 6 &&& 0xF800#16 >>> 6 != 0xD800#16 >>> 6) = true ↔ u.toNat / 2048 % 32 ≠ 27 := by
    have hfield : (u >>> 6 &&& 0xF800#16 >>> 6).toNat = u.toNat / 64 / 2 ^ 5 % 2 ^ 5 * 2 ^ 5 := by
      rw [toNat_and_mask 5 5 rfl, hu6]
    rw [bne_iff_ne, ne_eq, ← BitVec.toNat_inj, hfield, show (0xD800#16 >>> 6).toNat = 864 from rfl]
    omega
  by_cases h10000 : value.toNat < 0x10000
  · simp only [if_pos h10000] at hstorage hbiased
    have hvalue : u.toNat = value.toNat := hu0.trans hstorage
    rw [hdecode]
    generalize hcv : value.toNat = c at hvalue hvalid hbiased hc h10000
    have hfirst : ((u &&& 0b0011_1111).setWidth 32 <<< 8).toNat = c % 64 * 256 := by
      rw [toNat_shiftLeft_of_lt (by rw [hmask rfl]; omega), hmask rfl, hvalue]
      rfl
    have hlast6 : ((u >>> 6).setWidth 32).toNat = c / 64 := by
      rw [BitVec.toNat_setWidth, hu6, hvalue, Nat.mod_eq_of_lt (by omega)]
    have hlast12 : ((u >>> 6 >>> 6).setWidth 32).toNat = c / 4096 := by
      rw [BitVec.toNat_setWidth, hu12, hvalue, Nat.mod_eq_of_lt (by omega)]
    by_cases hc80 : c < 0x80
    · rw [if_pos (h80.2 (hvalue ▸ hc80))]
      refine (encode_of_biased (hcv ▸ hc) ?_).symm
      have hbyte : (u.setWidth 8).toNat = c := by
        rw [BitVec.toNat_setWidth, hvalue, Nat.mod_eq_of_lt (by omega)]
      rw [hcv, hbiased, if_pos hc80, ← hbyte]
      exact toNat_containing (by omega)
    have h1 : ¬ u < 0x80 := fun h => hc80 (hvalue ▸ h80.1 h)
    rw [if_neg hc80] at hbiased
    rw [if_neg h1]
    by_cases hc800 : c < 0x800
    · rw [if_pos (h20.2 (by omega))]
      refine (encode_of_biased (hcv ▸ hc) ?_).symm
      have hor := toNat_or_low (x := (u >>> 6).setWidth 32) (y := (u &&& 0b0011_1111).setWidth 32 <<< 8) (k := 8)
        (by omega) (by omega)
      rw [hcv, hbiased, if_pos hc800, BitVec.toNat_add, hor, hlast6, hfirst]
      simp only [BitVec.reduceToNat]
      omega
    · have h2 : ¬ u >>> 6 < 1#16 <<< 5 := fun h => absurd (h20.1 h) (by omega)
      have h3 : (u >>> 6 &&& 0xF800#16 >>> 6 != 0xD800#16 >>> 6) = true := by
        refine hsurrogate.2 ?_
        rw [hvalue]
        clear * - hvalid h10000
        omega
      rw [if_neg h2, if_pos h3]
      refine (encode_of_biased (hcv ▸ hc) ?_).symm
      have hsecond : (((u &&& 0b0011_1111).setWidth 32 <<< 8 ||| (u >>> 6 &&& 0b0011_1111).setWidth 32) <<< 8).toNat =
          (c % 64 * 256 + c / 64 % 64) * 256 := by
        have hor := toNat_or_high (x := (u &&& 0b0011_1111).setWidth 32 <<< 8)
          (y := (u >>> 6 &&& 0b0011_1111).setWidth 32) (k := 8) (by omega) (by rw [hmask rfl]; omega)
        rw [hfirst, hmask rfl, hu6, hvalue] at hor
        rw [toNat_shiftLeft_of_lt (by rw [hor]; omega), hor]
        rfl
      have hor := toNat_or_low (x := (u >>> 6 >>> 6).setWidth 32)
        (y := ((u &&& 0b0011_1111).setWidth 32 <<< 8 ||| (u >>> 6 &&& 0b0011_1111).setWidth 32) <<< 8) (k := 8)
        (by omega) (by omega)
      rw [hcv, hbiased, if_neg hc800, BitVec.toNat_add, hor, hlast12, hsecond]
      simp only [BitVec.reduceToNat]
      omega
  · simp only [if_neg h10000] at hstorage
    have hhigh : (value.toNat - 0x10000) / 1024 < 1024 := by omega
    have hlead : u.toNat = 0xD800 + (value.toNat - 0x10000) / 1024 := by
      rw [hu0, ← Nat.mod_eq_of_lt e.storage.isLt, hstorage]
      omega
    have hquotient : u.toNat / 2048 % 32 = 27 := by
      rw [hlead]
      clear * - hhigh
      omega
    have h1 : ¬ u < 0x80 := fun h => absurd (h80.1 h) (by omega)
    have h2 : ¬ u >>> 6 < 1#16 <<< 5 := fun h => absurd (h20.1 h) (by omega)
    have h3 : ¬ (u >>> 6 &&& 0xF800#16 >>> 6 != 0xD800#16 >>> 6) = true := fun h => hsurrogate.1 h hquotient
    rw [if_neg h1, if_neg h2, if_neg h3]

end UTF8

/-! ## Texts -/

namespace UTFParser

variable {w : Nat} {E : Type} (P : UTFParser w E)

/-- `parseScalar` repeated until `.emptyInput`, with its results. -/
def parseResults : Nat → UIntBuffer w → List (BitVec w) → Option (List (ParseResult E))
  | 0, _, _ => none
  | fuel + 1, buffer, input =>
    let (result, buffer, input) := P.parseScalar buffer input
    match result with
    | .emptyInput => some []
    | result => (parseResults fuel buffer input).map (result :: ·)

def parse (input : List (BitVec w)) : Option (List (ParseResult E)) :=
  P.parseResults (input.length + 1) .empty input

variable {P}

theorem parseResults_words {fuel : Nat} {buffer : UIntBuffer w} {input : List (BitVec w)}
    {words : List (List (BitVec w))} (h : P.parseAll fuel buffer input = some (words.map .word)) :
    ∃ chunks : List E, P.parseResults fuel buffer input = some (chunks.map .valid) ∧
      List.Forall₂ (fun word e => P.elements e = word) words chunks := by
  induction fuel generalizing buffer input words with
  | zero => cases h
  | succ fuel ih =>
      rw [parseAll] at h
      rw [parseResults]
      revert h
      obtain ⟨result, buffer', input'⟩ := P.parseScalar buffer input
      intro h
      cases result with
      | emptyInput =>
          have hnil : words = [] := List.map_eq_nil_iff.1 (Option.some.inj h).symm
          exact ⟨[], rfl, hnil ▸ .nil⟩
      | error length =>
          obtain ⟨l, -, hl⟩ := Option.map_eq_some_iff.1 h
          cases words with
          | nil => cases hl
          | cons word words => cases (List.cons.inj hl).1
      | valid e =>
          obtain ⟨l, hparse, hl⟩ := Option.map_eq_some_iff.1 h
          cases words with
          | nil => cases hl
          | cons word words =>
              obtain ⟨hword, hrest⟩ := List.cons.inj hl
              obtain ⟨chunks, hchunks, hall⟩ := ih (hrest ▸ hparse)
              refine ⟨e :: chunks, ?_, .cons (Segment.word.inj hword) hall⟩
              show (P.parseResults fuel buffer' input').map (ParseResult.valid e :: ·) = _
              rw [hchunks]
              rfl

end UTFParser

/-- What an encoding provides, of `_UnicodeEncoding`. -/
structure UnicodeEncoding (w : Nat) (E : Type) where
  decode : E → BitVec 32
  encode : BitVec 32 → Option E
  forwardParser : UTFParser w E

/-- The encoding spells each scalar by its code units. -/
structure UnicodeEncoding.Spells {w : Nat} {E : Type} (U : UnicodeEncoding w E)
    (codeUnits : Scalar → List (BitVec w)) : Prop where
  encode : ∀ x, ∃ e, U.encode x.value = some e ∧ U.forwardParser.elements e = codeUnits x
  decode : ∀ x e, U.forwardParser.elements e = codeUnits x → U.decode e = x.value
  results : ∀ scalars : List Scalar,
    U.forwardParser.results (scalars.flatMap codeUnits) = some ((scalars.map codeUnits).map .word)

theorem segments_flatMap {w : Nat} {code : List (BitVec w) → Prop} {codeUnits : Scalar → List (BitVec w)}
    (h : ∀ x, code (codeUnits x)) (scalars : List Scalar) :
    Segments code (scalars.flatMap codeUnits) ((scalars.map codeUnits).map .word) := by
  induction scalars with
  | nil => exact .nil
  | cons x scalars ih => exact .word (h x) ih

namespace UnicodeEncoding

variable {w : Nat} {E : Type} {U : UnicodeEncoding w E} {codeUnits : Scalar → List (BitVec w)}

theorem Spells.mapM_encode (h : U.Spells codeUnits) (scalars : List Scalar) :
    ∃ encoded, scalars.mapM (fun x => U.encode x.value) = some encoded ∧
      List.Forall₂ (fun x e => U.encode x.value = some e ∧ U.forwardParser.elements e = codeUnits x) scalars encoded := by
  induction scalars with
  | nil => exact ⟨[], rfl, .nil⟩
  | cons x scalars ih =>
      obtain ⟨e, he, helements⟩ := h.encode x
      obtain ⟨encoded, hencoded, hall⟩ := ih
      refine ⟨e :: encoded, ?_, .cons ⟨he, helements⟩ hall⟩
      rw [List.mapM_cons, he, hencoded]
      rfl

theorem Spells.roundTrip (h : U.Spells codeUnits) (scalars : List Scalar) : ∃ encoded chunks,
    scalars.mapM (fun x => U.encode x.value) = some encoded ∧
    List.Forall₂ (fun x e => U.encode x.value = some e ∧ U.forwardParser.elements e = codeUnits x) scalars encoded ∧
    U.forwardParser.parse (encoded.flatMap U.forwardParser.elements) = some (chunks.map .valid) ∧
    List.Forall₂ (fun x e => U.forwardParser.elements e = codeUnits x) scalars chunks ∧
    chunks.map U.decode = scalars.map Scalar.value := by
  obtain ⟨encoded, hencoded, hall⟩ := h.mapM_encode scalars
  have htext : encoded.flatMap U.forwardParser.elements = scalars.flatMap codeUnits := by
    clear hencoded
    induction hall with
    | nil => rfl
    | cons he _ ih => rw [List.flatMap_cons, List.flatMap_cons, he.2, ih]
  obtain ⟨chunks, hparse, hwords⟩ := UTFParser.parseResults_words (h.results scalars)
  rw [List.forall₂_map_left_iff] at hwords
  refine ⟨encoded, chunks, hencoded, hall, htext ▸ hparse, hwords, ?_⟩
  clear hparse hall htext hencoded
  induction hwords with
  | nil => rfl
  | cons he _ ih =>
      rw [List.map_cons, List.map_cons, h.decode _ _ he, ih]

end UnicodeEncoding

theorem Scalar.toNat_lt (x : Scalar) : x.value.toNat < 0x110000 := by
  have := x.valid
  omega

namespace UTF8

def encoding : UnicodeEncoding 8 ValidUTF8Buffer := ⟨decode, encode, forwardParser⟩

theorem encoding_spells : encoding.Spells fun x => codeUnits x.value.toNat where
  encode x := by
    obtain ⟨e, he, hbiased⟩ := encode_eq x.toNat_lt
    exact ⟨e, he, elements_of_biased hbiased⟩
  decode x e he := BitVec.eq_of_toNat_eq (decode_eq x.toNat_lt (biased_of_elements he))
  results scalars := by
    obtain ⟨l, hl, -, hunique, -⟩ := forwardParser_segments (scalars.flatMap fun x => codeUnits x.value.toNat)
    rw [hunique _ (segments_flatMap wellFormed_codeUnits scalars)]
    exact hl

end UTF8

namespace UTF16

def encoding : UnicodeEncoding 16 EncodedScalar := ⟨decode, encode, forwardParser⟩

theorem encoding_spells : encoding.Spells fun x => codeUnits x.value.toNat where
  encode x := by
    obtain ⟨e, he, hholds⟩ := encode_eq x.toNat_lt
    exact ⟨e, he, hholds.elements_eq (by decide) (by decide)⟩
  decode x e he := BitVec.eq_of_toNat_eq (decode_eq x.toNat_lt (reads_of_elements he))
  results scalars := by
    obtain ⟨l, hl, hread⟩ := UTFParser.results_read (by decide) rfl (by decide) forwardParser_lawful
      (scalars.flatMap fun x => codeUnits x.value.toNat)
    have hsegments := hread.segments forwardParser_first
    rw [hsegments.unique code_wellFormed (segments_flatMap wellFormed_codeUnits scalars) rfl]
    exact hl

end UTF16

theorem mapM_transcode {E F : Type} {R : Scalar → E → Prop} {transcode : E → Option F} {encode : BitVec 32 → Option F}
    {scalars : List Scalar} {chunks : List E} (hall : List.Forall₂ R scalars chunks)
    (h : ∀ x e, R x e → transcode e = encode x.value) :
    chunks.mapM transcode = scalars.mapM fun x => encode x.value := by
  induction hall with
  | nil => rfl
  | cons he _ ih => rw [List.mapM_cons, List.mapM_cons, h _ _ he, ih]

theorem exists_of_mem {E : Type} {R : Scalar → E → Prop} {scalars : List Scalar} {chunks : List E}
    (hall : List.Forall₂ R scalars chunks) {e : E} (he : e ∈ chunks) : ∃ x, R x e := by
  induction hall with
  | nil => cases he
  | cons h _ ih =>
      cases he with
      | head => exact ⟨_, h⟩
      | tail _ he => exact ih he

/-- Any sequence of scalars comes back from either encoding; transcoding an encoded scalar is decoding
and encoding it again, and transcoding a text to the other encoding and back is the identity. -/
theorem coding_roundTrip (scalars : List Scalar) : ∃ encoded8 encoded16 chunks8 chunks16,
    (scalars.mapM fun x => UTF8.encode x.value) = some encoded8 ∧
    UTF8.forwardParser.parse (encoded8.flatMap ValidUTF8Buffer.elements) = some (chunks8.map .valid) ∧
    chunks8.map UTF8.decode = scalars.map Scalar.value ∧
    (scalars.mapM fun x => UTF16.encode x.value) = some encoded16 ∧
    UTF16.forwardParser.parse (encoded16.flatMap UIntBuffer.elements) = some (chunks16.map .valid) ∧
    chunks16.map UTF16.decode = scalars.map Scalar.value ∧
    (∀ e ∈ encoded8 ++ chunks8, UTF16.transcode e = UTF16.encode (UTF8.decode e)) ∧
    (∀ e ∈ encoded16 ++ chunks16, UTF8.transcode e = UTF8.encode (UTF16.decode e)) ∧
    encoded8.mapM UTF16.transcode = some encoded16 ∧ encoded16.mapM UTF8.transcode = some encoded8 ∧
    chunks8.mapM UTF16.transcode = some encoded16 ∧ chunks16.mapM UTF8.transcode = some encoded8 := by
  obtain ⟨encoded8, chunks8, hencoded8, hall8, hparse8, hchunks8, hdecode8⟩ := UTF8.encoding_spells.roundTrip scalars
  obtain ⟨encoded16, chunks16, hencoded16, hall16, hparse16, hchunks16, hdecode16⟩ :=
    UTF16.encoding_spells.roundTrip scalars
  have helements8 := hall8.imp fun _ _ h => h.2
  have helements16 := hall16.imp fun _ _ h => h.2
  have h8 : ∀ (x : Scalar) (e : ValidUTF8Buffer), e.elements = UTF8.codeUnits x.value.toNat →
      UTF16.transcode e = UTF16.encode (UTF8.decode e) := fun x e he =>
    UTF16.transcode_eq x.toNat_lt (UTF8.biased_of_elements he)
  have h16 : ∀ (x : Scalar) (e : UTF16.EncodedScalar), e.elements = UTF16.codeUnits x.value.toNat →
      UTF8.transcode e = UTF8.encode (UTF16.decode e) := fun x e he =>
    UTF8.transcode_eq x (UTF16.reads_of_elements he)
  have hto16 : ∀ (x : Scalar) (e : ValidUTF8Buffer), e.elements = UTF8.codeUnits x.value.toNat →
      UTF16.transcode e = UTF16.encode x.value := fun x e he =>
    (h8 x e he).trans (congrArg UTF16.encode (UTF8.encoding_spells.decode x e he))
  have hto8 : ∀ (x : Scalar) (e : UTF16.EncodedScalar), e.elements = UTF16.codeUnits x.value.toNat →
      UTF8.transcode e = UTF8.encode x.value := fun x e he =>
    (h16 x e he).trans (congrArg UTF8.encode (UTF16.encoding_spells.decode x e he))
  refine ⟨encoded8, encoded16, chunks8, chunks16, hencoded8, hparse8, hdecode8, hencoded16, hparse16, hdecode16,
    fun e he => ?_, fun e he => ?_, (mapM_transcode helements8 hto16).trans hencoded16,
    (mapM_transcode helements16 hto8).trans hencoded8, (mapM_transcode hchunks8 hto16).trans hencoded16,
    (mapM_transcode hchunks16 hto8).trans hencoded8⟩
  · rcases List.mem_append.1 he with he | he
    · obtain ⟨x, hx⟩ := exists_of_mem helements8 he
      exact h8 x e hx
    · obtain ⟨x, hx⟩ := exists_of_mem hchunks8 he
      exact h8 x e hx
  · rcases List.mem_append.1 he with he | he
    · obtain ⟨x, hx⟩ := exists_of_mem helements16 he
      exact h16 x e hx
    · obtain ⟨x, hx⟩ := exists_of_mem hchunks16 he
      exact h16 x e hx

end SwiftKStdlib.Unicode
