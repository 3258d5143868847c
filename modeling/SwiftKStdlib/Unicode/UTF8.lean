import Mathlib.Tactic
import SwiftKStdlib.Unicode.Parser

/-!
# The UTF-8 parsers

* `ValidUTF8Buffer` : the bytes of a scalar, biased by one, in 32 bits;
* `forwardParser`, `reverseParser` : `UTF8.ForwardParser` and `UTF8.ReverseParser`, mask by mask;
* `WellFormed` : Table 3-7 of the Unicode Standard, a self-synchronising code (`code_wellFormed`).
-/

namespace SwiftKStdlib.Unicode

open SwiftKStdlib.Lib

/-- `_ValidUTF8Buffer<UInt32>`. -/
structure ValidUTF8Buffer where
  biasedBits : BitVec 32
  deriving DecidableEq, Repr

namespace ValidUTF8Buffer

def leadingZeroBitCount (x : BitVec 32) : Nat := x.clz.toNat

def count (b : ValidUTF8Buffer) : Nat := 32 / 8 - leadingZeroBitCount b.biasedBits / 8

def append (b : ValidUTF8Buffer) (e : BitVec 8) : ValidUTF8Buffer where
  biasedBits := b.biasedBits ||| maskingShiftLeft ((e + 1).setWidth 32) (b.count * 8)

/-- `init(CollectionOfOne(e))`. -/
def collectionOfOne (e : BitVec 8) : ValidUTF8Buffer := append ⟨0⟩ e

/-- The elements its iterator yields; there are at most four bytes in 32 bits. -/
def elements (b : ValidUTF8Buffer) : List (BitVec 8) := go 4 b.biasedBits
where
  go : Nat → BitVec 32 → List (BitVec 8)
    | 0, _ => []
    | n + 1, biasedBits =>
      if biasedBits = 0 then [] else (biasedBits.setWidth 8 - 1) :: go n (biasedBits >>> 8)

end ValidUTF8Buffer

/-- `byteSwapped` of a `UInt32`. -/
def byteSwapped (x : BitVec 32) : BitVec 32 :=
  x.extractLsb' 0 8 ++ x.extractLsb' 8 8 ++ x.extractLsb' 16 8 ++ x.extractLsb' 24 8

/-- `byteSwapped` of a `UInt16`. -/
def byteSwapped16 (x : BitVec 16) : BitVec 16 := x.extractLsb' 0 8 ++ x.extractLsb' 8 8

namespace UTF8

def isScalar (x : BitVec 8) : Bool := x &&& 0x80 == 0

namespace ForwardParser

/-- The length of the invalid sequence that starts with the least significant byte of the storage. -/
def invalidLength (storage : BitVec 32) : BitVec 8 :=
  if storage &&& 0b1100_0000__1111_0000 == 0b1000_0000__1110_0000 then
    -- 2-byte prefix of a 3-byte sequence
    let top5Bits := storage &&& 0b0010_0000__0000_1111
    if top5Bits != 0 && top5Bits != 0b0010_0000__0000_1101 then 2 else 1
  else if storage &&& 0b1100_0000__1111_1000 == 0b1000_0000__1111_0000 then
    -- prefix of a 4-byte sequence
    let top5bits := (storage &&& 0b0011_0000__0000_0111).setWidth 16
    if top5bits != 0 && byteSwapped16 top5bits ≤ 0b0000_0100__0000_0000 then
      if storage &&& 0b1100_0000__0000_0000__0000_0000 == 0b1000_0000__0000_0000__0000_0000 then 3
      else 2
    else 1
  else 1

def parseMultipleCodeUnits (storage : BitVec 32) : Bool × BitVec 8 :=
  let invalid := (false, invalidLength storage * 8)
  if storage &&& 0b1100_0000__1110_0000 == 0b1000_0000__1100_0000 then
    -- 2-byte sequence
    if storage &&& 0b0001_1110 != 0 then (true, 2 * 8) else invalid
  else if storage &&& 0b1100_0000__1100_0000__1111_0000 ==
      0b1000_0000__1000_0000__1110_0000 then
    -- 3-byte sequence
    let top5Bits := storage &&& 0b0010_0000__0000_1111
    if top5Bits != 0 && top5Bits != 0b0010_0000__0000_1101 then (true, 3 * 8) else invalid
  else if storage &&& 0b1100_0000__1100_0000__1100_0000__1111_1000 ==
      0b1000_0000__1000_0000__1000_0000__1111_0000 then
    -- 4-byte sequence
    let top5bits := (storage &&& 0b0011_0000__0000_0111).setWidth 16
    if top5bits != 0 && byteSwapped16 top5bits ≤ 0b0000_0100__0000_0000 then (true, 4 * 8) else invalid
  else invalid

def bufferedScalar (storage : BitVec 32) (bitCount : BitVec 8) : ValidUTF8Buffer :=
  let x := storage + 0x01010101
  ⟨x &&& lowBits bitCount.toNat⟩

end ForwardParser

namespace ReverseParser

/-- The length of the invalid sequence that ends with the least significant byte of the storage. -/
def invalidLength (storage : BitVec 32) : BitVec 8 :=
  if storage &&& 0b1111_0000__1100_0000 == 0b1110_0000__1000_0000 then
    -- 2-byte prefix of a 3-byte sequence
    let top5Bits := storage &&& 0b1111__0010_0000
    if top5Bits != 0 && top5Bits != 0b1101__0010_0000 then 2 else 1
  else if storage &&& 0b1111_1000__1100_0000 == 0b1111_0000__1000_0000 then
    -- 2-byte prefix of a 4-byte sequence
    let top5bits := storage &&& 0b0111__0011_0000
    if top5bits != 0 && top5bits ≤ 0b0100__0000_0000 then 2 else 1
  else if storage &&& 0b1111_1000__1100_0000__1100_0000 == 0b1111_0000__1000_0000__1000_0000 then
    -- 3-byte prefix of a 4-byte sequence
    let top5bits := storage &&& 0b0111__0011_0000__0000_0000
    if top5bits != 0 && top5bits ≤ 0b0100__0000_0000__0000_0000 then 3 else 1
  else 1

def parseMultipleCodeUnits (storage : BitVec 32) : Bool × BitVec 8 :=
  let invalid := (false, invalidLength storage * 8)
  if storage &&& 0b1110_0000__1100_0000 == 0b1100_0000__1000_0000 then
    -- 2-byte sequence
    let top4Bits := storage &&& 0b0001_1110__0000_0000
    if top4Bits != 0 then (true, 2 * 8) else invalid
  else if storage &&& 0b1111_0000__1100_0000__1100_0000 == 0b1110_0000__1000_0000__1000_0000 then
    -- 3-byte sequence
    let top5Bits := storage &&& 0b1111__0010_0000__0000_0000
    if top5Bits != 0 && top5Bits != 0b1101__0010_0000__0000_0000 then (true, 3 * 8) else invalid
  else if storage &&& 0b1111_1000__1100_0000__1100_0000__1100_0000 ==
      0b1111_0000__1000_0000__1000_0000__1000_0000 then
    -- 4-byte sequence
    let top5bits := storage &&& 0b0111__0011_0000__0000_0000__0000_0000
    if top5bits != 0 && top5bits ≤ 0b0100__0000_0000__0000_0000__0000_0000 then (true, 4 * 8)
    else invalid
  else invalid

def bufferedScalar (storage : BitVec 32) (bitCount : BitVec 8) : ValidUTF8Buffer :=
  let x := byteSwapped storage
  let shift := 32 - bitCount
  ⟨maskingShiftRight (x + 0x01010101) shift.toNat⟩

end ReverseParser

/-- `UTF8.ForwardParser`. -/
def forwardParser : UTFParser 8 ValidUTF8Buffer where
  isScalar := isScalar
  collectionOfOne := ValidUTF8Buffer.collectionOfOne
  parseMultipleCodeUnits buffer := ForwardParser.parseMultipleCodeUnits buffer.storage
  bufferedScalar buffer := ForwardParser.bufferedScalar buffer.storage
  elements := ValidUTF8Buffer.elements

/-- `UTF8.ReverseParser`. -/
def reverseParser : UTFParser 8 ValidUTF8Buffer where
  isScalar := isScalar
  collectionOfOne := ValidUTF8Buffer.collectionOfOne
  parseMultipleCodeUnits buffer := ReverseParser.parseMultipleCodeUnits buffer.storage
  bufferedScalar buffer := ReverseParser.bufferedScalar buffer.storage
  elements := ValidUTF8Buffer.elements

/-! ## Table 3-7 -/

/-- Well-formed UTF-8 byte sequences, Table 3-7. -/
def table37 : List (List (Nat × Nat)) :=
  [[(0x00, 0x7F)],
   [(0xC2, 0xDF), (0x80, 0xBF)],
   [(0xE0, 0xE0), (0xA0, 0xBF), (0x80, 0xBF)],
   [(0xE1, 0xEC), (0x80, 0xBF), (0x80, 0xBF)],
   [(0xED, 0xED), (0x80, 0x9F), (0x80, 0xBF)],
   [(0xEE, 0xEF), (0x80, 0xBF), (0x80, 0xBF)],
   [(0xF0, 0xF0), (0x90, 0xBF), (0x80, 0xBF), (0x80, 0xBF)],
   [(0xF1, 0xF3), (0x80, 0xBF), (0x80, 0xBF), (0x80, 0xBF)],
   [(0xF4, 0xF4), (0x80, 0x8F), (0x80, 0xBF), (0x80, 0xBF)]]

def WellFormed : List (BitVec 8) → Prop := tableCode BitVec.toNat table37

def Trailing (x : BitVec 8) : Prop := 0x80 ≤ x.toNat ∧ x.toNat ≤ 0xBF

def Lead3 (a b : Nat) : Prop :=
  (0xE0 ≤ a ∧ a ≤ 0xE0) ∧ 0xA0 ≤ b ∧ b ≤ 0xBF ∨ (0xE1 ≤ a ∧ a ≤ 0xEC) ∧ 0x80 ≤ b ∧ b ≤ 0xBF ∨
    (0xED ≤ a ∧ a ≤ 0xED) ∧ 0x80 ≤ b ∧ b ≤ 0x9F ∨ (0xEE ≤ a ∧ a ≤ 0xEF) ∧ 0x80 ≤ b ∧ b ≤ 0xBF

def Lead4 (a b : Nat) : Prop :=
  (0xF0 ≤ a ∧ a ≤ 0xF0) ∧ 0x90 ≤ b ∧ b ≤ 0xBF ∨ (0xF1 ≤ a ∧ a ≤ 0xF3) ∧ 0x80 ≤ b ∧ b ≤ 0xBF ∨
    (0xF4 ≤ a ∧ a ≤ 0xF4) ∧ 0x80 ≤ b ∧ b ≤ 0x8F

def Tail (b : Nat) : Prop := 0x80 ≤ b ∧ b ≤ 0xBF

instance (a b : Nat) : Decidable (Lead3 a b) := inferInstanceAs (Decidable (_ ∨ _))

instance (a b : Nat) : Decidable (Lead4 a b) := inferInstanceAs (Decidable (_ ∨ _))

instance (b : Nat) : Decidable (Tail b) := inferInstanceAs (Decidable (_ ∧ _))

theorem tail_of_lead3 {a b : Nat} (h : Lead3 a b) : (0xE0 ≤ a ∧ a ≤ 0xEF) ∧ Tail b := by
  simp only [Lead3, Tail] at *
  omega

theorem tail_of_lead4 {a b : Nat} (h : Lead4 a b) : (0xF0 ≤ a ∧ a ≤ 0xF7) ∧ Tail b := by
  simp only [Lead4, Tail] at *
  omega

theorem not_lead4_of_range {a b : Nat} (ha : a ≤ 0xEF) : ¬ Lead4 a b := fun h => by
  have := (tail_of_lead4 h).1
  omega

instance : DecidablePred WellFormed := fun s =>
  inferInstanceAs (Decidable (∃ row ∈ table37,
    List.Forall₂ (fun r x => r.1 ≤ BitVec.toNat x ∧ BitVec.toNat x ≤ r.2) row s))

variable {a b c d : BitVec 8}

theorem wellFormed_one : WellFormed [a] ↔ a.toNat ≤ 0x7F := by
  simp [WellFormed, tableCode, table37]

theorem wellFormed_two : WellFormed [a, b] ↔ (0xC2 ≤ a.toNat ∧ a.toNat ≤ 0xDF) ∧ Tail b.toNat := by
  simp [WellFormed, tableCode, table37, Tail]

theorem wellFormed_three : WellFormed [a, b, c] ↔ Lead3 a.toNat b.toNat ∧ Tail c.toNat := by
  simp [WellFormed, tableCode, table37, Lead3, Tail]
  simp only [or_and_right, and_assoc]

theorem wellFormed_four : WellFormed [a, b, c, d] ↔
    Lead4 a.toNat b.toNat ∧ Tail c.toNat ∧ Tail d.toNat := by
  simp [WellFormed, tableCode, table37, Lead4, Tail]
  simp only [or_and_right, and_assoc]

theorem wellFormed_length {s : List (BitVec 8)} (h : WellFormed s) : 0 < s.length ∧ s.length ≤ 4 := by
  obtain ⟨row, hrow, h⟩ := h
  rw [← h.length_eq]
  clear h
  revert row
  decide

theorem initial_wellFormed {s : List (BitVec 8)} : Segment.Initial WellFormed s ↔
    ∃ row ∈ table37, s.length ≤ row.length ∧
      List.Forall₂ (fun r x => r.1 ≤ BitVec.toNat x ∧ BitVec.toNat x ≤ r.2) (row.take s.length) s := by
  refine initial_tableCode fun row hrow r hr => ?_
  have hr : r.1 ≤ r.2 ∧ r.2 < 2 ^ 8 := by revert row r; decide
  refine ⟨BitVec.ofNat 8 r.2, ?_⟩
  rw [BitVec.toNat_ofNat, Nat.mod_eq_of_lt hr.2]
  exact ⟨hr.1, le_rfl⟩

theorem initial_two : Segment.Initial WellFormed [a, b] ↔
    WellFormed [a, b] ∨ Lead3 a.toNat b.toNat ∨ Lead4 a.toNat b.toNat := by
  rw [initial_wellFormed, wellFormed_two]
  simp [table37, Lead3, Lead4, Tail, or_assoc]

theorem initial_three : Segment.Initial WellFormed [a, b, c] ↔
    WellFormed [a, b, c] ∨ Lead4 a.toNat b.toNat ∧ Tail c.toNat := by
  rw [initial_wellFormed, wellFormed_three]
  simp [table37, Lead3, Lead4, Tail]
  simp only [or_and_right, and_assoc, or_assoc]

theorem initial_length {s : List (BitVec 8)} (h : Segment.Initial WellFormed s) : s.length ≤ 4 := by
  obtain ⟨t, ht⟩ := h
  have := (wellFormed_length ht).2
  rw [List.length_append] at this
  omega

theorem wellFormed_cases {s : List (BitVec 8)} (h : WellFormed s) :
    (∃ a, s = [a]) ∨ (∃ a b, s = [a, b]) ∨ (∃ a b c, s = [a, b, c]) ∨ ∃ a b c d, s = [a, b, c, d] := by
  obtain ⟨hpos, hlen⟩ := wellFormed_length h
  match s, hpos, hlen with
  | [a], _, _ => exact .inl ⟨a, rfl⟩
  | [a, b], _, _ => exact .inr (.inl ⟨a, b, rfl⟩)
  | [a, b, c], _, _ => exact .inr (.inr (.inl ⟨a, b, c, rfl⟩))
  | [a, b, c, d], _, _ => exact .inr (.inr (.inr ⟨a, b, c, d, rfl⟩))

theorem wellFormed_length_eq {x : BitVec 8} {s : List (BitVec 8)} (h : WellFormed (x :: s)) :
    s.length = if x.toNat ≤ 0x7F then 0 else if x.toNat ≤ 0xDF then 1 else
      if x.toNat ≤ 0xEF then 2 else 3 := by
  rcases wellFormed_cases h with ⟨a, h'⟩ | ⟨a, b, h'⟩ | ⟨a, b, c, h'⟩ | ⟨a, b, c, d, h'⟩ <;>
    obtain ⟨rfl, rfl⟩ := List.cons.inj h' <;>
    simp only [wellFormed_one, wellFormed_two, wellFormed_three, wellFormed_four, Lead3, Lead4] at h <;>
    simp only [List.length_cons, List.length_nil] <;>
    split_ifs <;>
    omega

theorem code_wellFormed : Code WellFormed Trailing where
  ne_nil h := absurd (wellFormed_length h).1 (by simp)
  prefixFree p q hp hq hpq := by
    refine hpq.eq_of_length ?_
    obtain ⟨t, rfl⟩ := hpq
    match p, hp with
    | [], hp => exact absurd (wellFormed_length hp).1 (by simp)
    | x :: p, hp =>
        rw [List.cons_append] at hq
        have := (wellFormed_length_eq hp).trans (wellFormed_length_eq hq).symm
        rw [List.length_cons, this, List.cons_append, List.length_cons]
  behind x s h := by
    rcases wellFormed_cases h with ⟨a, h'⟩ | ⟨a, b, h'⟩ | ⟨a, b, c, h'⟩ | ⟨a, b, c, d, h'⟩ <;>
      obtain ⟨rfl, rfl⟩ := List.cons.inj h' <;>
      simp only [wellFormed_one, wellFormed_two, wellFormed_three, wellFormed_four, Lead3, Lead4,
        Tail] at h <;>
      simp [Trailing] <;>
      omega
  first x s h ht := by
    rcases wellFormed_cases h with ⟨a, h'⟩ | ⟨a, b, h'⟩ | ⟨a, b, c, h'⟩ | ⟨a, b, c, d, h'⟩ <;>
      obtain ⟨rfl, rfl⟩ := List.cons.inj h' <;>
      simp only [wellFormed_one, wellFormed_two, wellFormed_three, wellFormed_four, Lead3, Lead4,
        Tail] at h <;>
      simp only [Trailing] at ht <;>
      omega

end UTF8

end SwiftKStdlib.Unicode
