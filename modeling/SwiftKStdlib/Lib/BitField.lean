import Mathlib.Data.BitVec
import Mathlib.Tactic

/-!
# Bit fields of a word

* `mask n s w` : the mask of the field of `w` bits from bit `s` on;
* `get`, `set` : reading and writing a field through its mask;
* `toNat_get`, `get_set_self`, `get_set_of_disjoint` : what is read back;
* `or_eq_add`, `and_field` : masks and disjoint bits as arithmetic.
-/

namespace SwiftKStdlib.Lib.BitField

variable {n : Nat}

/-! ## Arithmetic -/

theorem or_eq_add {x y k : Nat} (hx : x % 2 ^ k = 0) (hy : y < 2 ^ k) : x ||| y = x + y := by
  obtain ⟨z, rfl⟩ := Nat.dvd_of_mod_eq_zero hx
  exact (Nat.two_pow_add_eq_or_of_lt hy z).symm

theorem or_eq_add' {x y k : Nat} (hx : x < 2 ^ k) (hy : y % 2 ^ k = 0) : x ||| y = x + y := by
  rw [Nat.or_comm, or_eq_add hy hx, Nat.add_comm]

theorem and_field (x s w : Nat) : x &&& (2 ^ w - 1) * 2 ^ s = x / 2 ^ s % 2 ^ w * 2 ^ s := by
  apply Nat.eq_of_testBit_eq
  intro i
  rw [Nat.testBit_and, Nat.testBit_mul_two_pow, Nat.testBit_mul_two_pow, Nat.testBit_two_pow_sub_one,
    Nat.testBit_mod_two_pow, Nat.testBit_div_two_pow]
  by_cases hs : s ≤ i
  · rw [Nat.sub_add_cancel hs]
    simp [hs, Bool.and_comm]
  · simp [hs]

/-! ## Fields -/

/-- The mask of the field of `w` bits from bit `s` on. -/
def mask (n s w : Nat) : BitVec n := ((1#n <<< w) - 1) <<< s

def get (bits : BitVec n) (s w : Nat) : BitVec n := (bits &&& mask n s w) >>> s

def set (bits : BitVec n) (s w : Nat) (val : BitVec n) : BitVec n :=
  (bits &&& ~~~mask n s w) ||| ((val <<< s) &&& mask n s w)

theorem toNat_ones {w : Nat} (hw : w < n) : ((1#n <<< w) - 1).toNat = 2 ^ w - 1 := by
  have hlt : 2 ^ w < 2 ^ n := Nat.pow_lt_pow_right (by decide) hw
  have hpos : 0 < 2 ^ w := Nat.two_pow_pos w
  have hmod : 1 % 2 ^ n = 1 := Nat.mod_eq_of_lt (by omega)
  have hone : (1 : BitVec n).toNat = 1 := (BitVec.toNat_ofNat 1 n).trans hmod
  have hshift : (1#n <<< w).toNat = 2 ^ w := by
    rw [BitVec.toNat_shiftLeft, BitVec.toNat_ofNat, hmod, Nat.shiftLeft_eq, Nat.one_mul,
      Nat.mod_eq_of_lt hlt]
  rw [BitVec.toNat_sub, hshift, hone, show 2 ^ n - 1 + 2 ^ w = 2 ^ w - 1 + 2 ^ n by omega,
    Nat.add_mod_right, Nat.mod_eq_of_lt (by omega)]

theorem getLsbD_mask {s w : Nat} (hw : w < n) (i : Nat) :
    (mask n s w).getLsbD i = (decide (i < n) && decide (s ≤ i) && decide (i < s + w)) := by
  rw [mask, BitVec.getLsbD_shiftLeft, BitVec.getLsbD, toNat_ones hw, Nat.testBit_two_pow_sub_one]
  by_cases hs : i < s
  · simp [hs, Nat.not_le.2 hs]
  · by_cases hi : i < s + w
    · simp [hs, hi, Nat.le_of_not_lt hs, Nat.sub_lt_left_of_lt_add (Nat.le_of_not_lt hs) hi]
    · have hw' : ¬ i - s < w := by omega
      simp [hs, hi, hw']

theorem getLsbD_get {s w : Nat} (hw : w < n) (bits : BitVec n) (i : Nat) :
    (get bits s w).getLsbD i = (bits.getLsbD (s + i) && decide (i < w)) := by
  rw [get, BitVec.getLsbD_ushiftRight, BitVec.getLsbD_and, getLsbD_mask hw]
  by_cases hn : s + i < n
  · simp [hn]
  · rw [BitVec.getLsbD_of_ge bits (s + i) (Nat.le_of_not_lt hn), Bool.false_and, Bool.false_and]

theorem getLsbD_set {s w : Nat} (hw : w < n) (bits val : BitVec n) {i : Nat} (hi : i < n) :
    (set bits s w val).getLsbD i =
      if s ≤ i ∧ i < s + w then val.getLsbD (i - s) else bits.getLsbD i := by
  rw [set, BitVec.getLsbD_or, BitVec.getLsbD_and, BitVec.getLsbD_and, BitVec.getLsbD_not,
    BitVec.getLsbD_shiftLeft, getLsbD_mask hw]
  split_ifs with h
  · simp [hi, h.1, h.2, Nat.not_lt.2 h.1]
  · have hm : (decide (i < n) && decide (s ≤ i) && decide (i < s + w)) = false := by
      simpa [hi] using h
    rw [hm]
    simp [hi]

theorem toNat_get {s w : Nat} (hw : w < n) (bits : BitVec n) :
    (get bits s w).toNat = bits.toNat / 2 ^ s % 2 ^ w := by
  apply Nat.eq_of_testBit_eq
  intro i
  have hget := getLsbD_get (s := s) hw bits i
  rw [BitVec.getLsbD, BitVec.getLsbD] at hget
  rw [hget, Nat.testBit_mod_two_pow, Nat.testBit_div_two_pow, Nat.add_comm, Bool.and_comm]

theorem get_set_self {s w : Nat} (hw : w < n) (hs : s + w ≤ n) (bits val : BitVec n) :
    (get (set bits s w val) s w).toNat = val.toNat % 2 ^ w := by
  apply Nat.eq_of_testBit_eq
  intro i
  have hget := getLsbD_get (s := s) hw (set bits s w val) i
  rw [BitVec.getLsbD] at hget
  rw [hget, Nat.testBit_mod_two_pow]
  by_cases hi : i < w
  · rw [getLsbD_set hw bits val (by omega), if_pos (by omega), Nat.add_sub_cancel_left,
      BitVec.getLsbD, Bool.and_comm]
  · simp [hi]

theorem get_set_of_disjoint {s w s' w' : Nat} (hw : w < n) (hw' : w' < n)
    (h : s' + w' ≤ s ∨ s + w ≤ s') (bits val : BitVec n) :
    get (set bits s w val) s' w' = get bits s' w' := by
  apply BitVec.eq_of_getLsbD_eq
  intro i hi
  rw [getLsbD_get hw', getLsbD_get hw']
  by_cases hi' : i < w'
  · by_cases hn : s' + i < n
    · rw [getLsbD_set hw bits val hn, if_neg (by omega)]
    · rw [BitVec.getLsbD_of_ge _ _ (Nat.le_of_not_lt hn), BitVec.getLsbD_of_ge _ _ (Nat.le_of_not_lt hn)]
  · simp [hi']

end SwiftKStdlib.Lib.BitField
