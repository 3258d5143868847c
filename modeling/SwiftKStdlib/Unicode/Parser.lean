import Mathlib.Tactic
import SwiftKStdlib.Lib.Segmentation

/-!
# `_UTFParser`: reading scalars through a 32-bit window

* `UIntBuffer w` : `_UIntBuffer<UInt32, Element>` for elements of `w` bits, with the operations the
  parsers use; `Holds b s` : `b` holds the elements `s`, and nothing else in its storage;
* `UTFParser w E` : what an encoding provides; `parseScalar` is shared by all of them;
* `parseAll` : `parseScalar` until `.emptyInput`;
* `parseAll_read` : the results are those of reading the text by a function `next` of what is left of
  it, wherever the boundaries of the window fall.
-/

namespace SwiftKStdlib.Unicode

open SwiftKStdlib.Lib

/-- `Unicode.ParseResult`. -/
inductive ParseResult (T : Type) where
  | valid (result : T)
  | emptyInput
  | error (length : Nat)
  deriving DecidableEq, Repr

theorem eq_iff_extract (x y : BitVec 32) : x = y ↔ x.extractLsb' 0 8 = y.extractLsb' 0 8 ∧
    x.extractLsb' 8 8 = y.extractLsb' 8 8 ∧ x.extractLsb' 16 8 = y.extractLsb' 16 8 ∧
      x.extractLsb' 24 8 = y.extractLsb' 24 8 := by
  have hx := x.isLt
  have hy := y.isLt
  simp only [← BitVec.toNat_inj, BitVec.extractLsb'_toNat, Nat.shiftRight_eq_div_pow]
  omega

/-! ## `_UIntBuffer` -/

/-- `_UIntBuffer<UInt32, Element>`, the elements having `w` bits. -/
structure UIntBuffer (w : Nat) where
  storage : BitVec 32
  bitCount : BitVec 8
  deriving DecidableEq, Repr

/-- `&<<`, which masks the shift amount. -/
def maskingShiftLeft (x : BitVec 32) (n : Int) : BitVec 32 := x <<< (n % 32).toNat

/-- `&>>`, which masks the shift amount. -/
def maskingShiftRight (x : BitVec 32) (n : Int) : BitVec 32 := x >>> (n % 32).toNat

/-- `_fullShiftLeft`. -/
def fullShiftLeft (x : BitVec 32) (n : Int) : BitVec 32 :=
  maskingShiftLeft (maskingShiftLeft x ((n + 1) / 2)) (n / 2)

/-- `_fullShiftRight`. -/
def fullShiftRight (x : BitVec 32) (n : Int) : BitVec 32 :=
  maskingShiftRight (maskingShiftRight x ((n + 1) / 2)) (n / 2)

/-- `_lowBits`. -/
def lowBits (n : Int) : BitVec 32 := ~~~ fullShiftLeft (BitVec.allOnes 32) n

namespace UIntBuffer

variable {w : Nat}

/-- `init()`. -/
def empty : UIntBuffer w := ⟨0, 0⟩

def isEmpty (b : UIntBuffer w) : Bool := b.bitCount == 0

def capacity (w : Nat) : Nat := 32 / w

def count (b : UIntBuffer w) : Nat := b.bitCount.toNat / w

def append (b : UIntBuffer w) (newElement : BitVec w) : UIntBuffer w where
  storage := b.storage ||| maskingShiftLeft (newElement.setWidth 32) b.bitCount.toNat
  bitCount := b.bitCount + BitVec.ofNat 8 w

/-- `replaceSubrange(target, with: replacement)`; the indices are bit offsets. -/
def replaceSubrange (b : UIntBuffer w) (lower upper : BitVec 8) (replacement : List (BitVec w)) :
    UIntBuffer w :=
  let replacement1 : UIntBuffer w := replacement.foldl append empty
  let targetCount : Int := ((upper.toNat : Int) - lower.toNat) / w
  let growth : Int := replacement1.count - targetCount
  let headCount : Int := lower.toNat / w
  let tailOffset : Int := upper.toNat / w
  let headBits := b.storage &&& lowBits (headCount * w)
  let tailBits := fullShiftRight b.storage (tailOffset * w)
  { storage := headBits ||| maskingShiftLeft replacement1.storage (headCount * w) |||
      maskingShiftLeft tailBits ((tailOffset + growth) * w)
    bitCount := BitVec.ofInt 8 (b.bitCount.toNat + growth * w) }

/-- `remove(at: startIndex)`. -/
def removeAtStart (b : UIntBuffer w) : UIntBuffer w := b.replaceSubrange 0 (BitVec.ofNat 8 w) []

/-- The elements its iterator yields; a `bitCount` of 8 bits bounds their number. -/
def elements (b : UIntBuffer w) : List (BitVec w) := go 256 b
where
  go : Nat → UIntBuffer w → List (BitVec w)
    | 0, _ => []
    | fuel + 1, b =>
      if b.bitCount = 0 then []
      else b.storage.setWidth w ::
        go fuel ⟨maskingShiftRight b.storage w, b.bitCount - BitVec.ofNat 8 w⟩

/-- The number with the digits `s`, the first the lowest. -/
def packed : List (BitVec w) → Nat
  | [] => 0
  | x :: s => x.toNat + 2 ^ w * packed s

/-- `b` holds the elements `s`, and the rest of its storage is zero. -/
structure Holds (b : UIntBuffer w) (s : List (BitVec w)) : Prop where
  storage : b.storage.toNat = packed s
  bitCount : b.bitCount.toNat = w * s.length
  fits : w * s.length ≤ 32

/-- The buffer that holds `s`. -/
def ofList (s : List (BitVec w)) : UIntBuffer w where
  storage := BitVec.ofNat 32 (packed s)
  bitCount := BitVec.ofNat 8 (w * s.length)

theorem packed_lt (s : List (BitVec w)) : packed s < 2 ^ (w * s.length) := by
  induction s with
  | nil => simp [packed]
  | cons x s ih =>
      have hx := x.isLt
      rw [packed, List.length_cons, Nat.mul_succ, Nat.add_comm (w * _), pow_add]
      calc x.toNat + 2 ^ w * packed s < 2 ^ w + 2 ^ w * packed s := by omega
        _ = 2 ^ w * (packed s + 1) := by ring
        _ ≤ 2 ^ w * 2 ^ (w * s.length) := Nat.mul_le_mul_left _ ih

theorem packed_append (s : List (BitVec w)) (x : BitVec w) :
    packed (s ++ [x]) = packed s + 2 ^ (w * s.length) * x.toNat := by
  induction s with
  | nil => simp [packed]
  | cons y s ih =>
      rw [List.cons_append, packed, ih, packed, List.length_cons, Nat.mul_succ, Nat.add_comm (w * _),
        pow_add]
      ring

theorem packed_drop (s : List (BitVec w)) (n : Nat) :
    packed s / 2 ^ (w * n) = packed (s.drop n) := by
  induction n generalizing s with
  | zero => simp
  | succ n ih =>
      cases s with
      | nil => simp [packed]
      | cons x s =>
          rw [Nat.mul_succ, Nat.add_comm, pow_add, ← Nat.div_div_eq_div_mul, packed,
            Nat.add_mul_div_left _ _ (Nat.two_pow_pos w), Nat.div_eq_of_lt x.isLt, Nat.zero_add,
            ih, List.drop_succ_cons]

theorem holds_empty : Holds (empty : UIntBuffer w) [] := ⟨rfl, by simp [empty], by simp⟩

namespace Holds

variable {b : UIntBuffer w} {s : List (BitVec w)}

theorem eq_ofList (h : Holds b s) : b = ofList s := by
  obtain ⟨storage, bitCount⟩ := b
  have h1 : storage.toNat = packed s := h.storage
  have h2 : bitCount.toNat = w * s.length := h.bitCount
  rw [ofList, ← h1, ← h2, BitVec.ofNat_toNat, BitVec.ofNat_toNat, BitVec.setWidth_eq, BitVec.setWidth_eq]

theorem isEmpty_eq (h : Holds b s) (hw : 0 < w) : b.isEmpty = s.isEmpty := by
  have hb := h.bitCount
  cases s with
  | nil => simpa [isEmpty, ← BitVec.toNat_inj] using hb
  | cons x s =>
      simp only [isEmpty, List.isEmpty_cons, beq_eq_false_iff_ne, ne_eq, ← BitVec.toNat_inj, hb]
      simp [List.length_cons]
      omega

theorem count_eq (h : Holds b s) (hw : 0 < w) : b.count = s.length := by
  rw [count, h.bitCount, Nat.mul_div_cancel_left _ hw]

theorem append (h : Holds b s) (x : BitVec w) (hfits : w * (s.length + 1) ≤ 32) :
    Holds (b.append x) (s ++ [x]) := by
  have hlt : w * s.length + w ≤ 32 := hfits
  rcases Nat.eq_zero_or_pos w with rfl | hw
  · refine ⟨?_, by simp [UIntBuffer.append, h.bitCount], by simp⟩
    have hx := x.isLt
    have hb := packed_lt s
    simp only [pow_zero, Nat.zero_mul] at hx hb
    simp [UIntBuffer.append, maskingShiftLeft, h.storage, packed_append, h.bitCount,
      Nat.lt_one_iff.1 hx]
  · refine ⟨?_, ?_, by simpa using hfits⟩
    · have hx := x.isLt
      have hw32 : (2 : Nat) ^ w ≤ 2 ^ 32 := Nat.pow_le_pow_right (by decide) (by omega)
      have hshift : ((w * s.length : Nat) : Int) % 32 = (w * s.length : Nat) :=
        Int.emod_eq_of_lt (by omega) (by omega)
      have hprod : x.toNat * 2 ^ (w * s.length) < 2 ^ 32 := by
        calc x.toNat * 2 ^ (w * s.length) < 2 ^ w * 2 ^ (w * s.length) :=
              Nat.mul_lt_mul_of_pos_right hx (Nat.two_pow_pos _)
          _ = 2 ^ (w + w * s.length) := (pow_add _ _ _).symm
          _ ≤ 2 ^ 32 := Nat.pow_le_pow_right (by decide) (by omega)
      rw [packed_append, UIntBuffer.append, BitVec.toNat_or, h.storage, h.bitCount, maskingShiftLeft,
        hshift, Int.toNat_natCast, BitVec.toNat_shiftLeft, BitVec.toNat_setWidth,
        Nat.mod_eq_of_lt (hx.trans_le hw32), Nat.shiftLeft_eq, Nat.mod_eq_of_lt hprod, Nat.or_comm,
        Nat.mul_comm x.toNat, ← Nat.two_pow_add_eq_or_of_lt (packed_lt s), Nat.add_comm]
    · rw [UIntBuffer.append, BitVec.toNat_add, h.bitCount, BitVec.toNat_ofNat, List.length_append,
        List.length_singleton, Nat.mod_eq_of_lt (by omega : w < 2 ^ 8), Nat.mod_eq_of_lt (by omega)]
      ring

theorem drop (h : Holds b s) {n : Nat} {storage : BitVec 32} {bitCount : BitVec 8}
    (hs : storage.toNat = b.storage.toNat / 2 ^ (w * n)) (hc : bitCount.toNat = w * (s.length - n)) :
    Holds ⟨storage, bitCount⟩ (s.drop n) := by
  refine ⟨by rw [hs, h.storage, packed_drop], by rw [hc, List.length_drop], ?_⟩
  exact (Nat.mul_le_mul_left w (by simp)).trans h.fits

theorem setWidth_storage {x : BitVec w} (h : Holds b (x :: s)) : b.storage.setWidth w = x := by
  apply BitVec.eq_of_toNat_eq
  rw [BitVec.toNat_setWidth, h.storage, packed, Nat.add_mul_mod_self_left, Nat.mod_eq_of_lt x.isLt]

theorem ofList (hs : w * s.length ≤ 32) : Holds (UIntBuffer.ofList s) s where
  storage := by
    rw [UIntBuffer.ofList, BitVec.toNat_ofNat, Nat.mod_eq_of_lt]
    exact (packed_lt s).trans_le (Nat.pow_le_pow_right (by decide) hs)
  bitCount := by
    rw [UIntBuffer.ofList, BitVec.toNat_ofNat, Nat.mod_eq_of_lt (by omega)]
  fits := hs

theorem elements_go {fuel : Nat} (h : Holds b s) (hw : 0 < w) (hw32 : w < 32) (hfuel : s.length < fuel) :
    elements.go fuel b = s := by
  induction fuel generalizing b s with
  | zero => omega
  | succ fuel ih =>
      have hcount := h.bitCount
      cases s with
      | nil =>
          have hz : b.bitCount = 0 := BitVec.eq_of_toNat_eq (by simpa using hcount)
          rw [elements.go, if_pos hz]
      | cons x s =>
          have hfits := h.fits
          rw [List.length_cons, Nat.mul_succ] at hfits hcount
          have hz : b.bitCount ≠ 0 := by
            intro hz
            rw [hz] at hcount
            simp at hcount
            omega
          have hnext : Holds ⟨maskingShiftRight b.storage w, b.bitCount - BitVec.ofNat 8 w⟩ s := by
            refine h.drop (n := 1) ?_ ?_
            · have hshift : ((w : Int) % 32).toNat = w := by omega
              rw [maskingShiftRight, hshift, BitVec.toNat_ushiftRight, Nat.shiftRight_eq_div_pow,
                Nat.mul_one]
            · rw [BitVec.toNat_sub, BitVec.toNat_ofNat, hcount, List.length_cons, Nat.add_sub_cancel]
              omega
          rw [elements.go, if_neg hz, h.setWidth_storage, ih hnext (by simpa using hfuel)]

theorem elements_eq (h : Holds b s) (hw : 0 < w) (hw32 : w < 32) : b.elements = s := by
  refine elements_go h hw hw32 ?_
  have := h.fits
  have := Nat.le_mul_of_pos_left s.length hw
  omega

theorem removeAtStart {x : BitVec w} (h : Holds b (x :: s)) (hw : 0 < w) (hw32 : w < 32) :
    Holds b.removeAtStart s := by
  have hfits := h.fits
  have hcount := h.bitCount
  have hwI : (0 : Int) < w := by omega
  simp only [List.length_cons, Nat.mul_succ] at hfits hcount
  have htarget : (BitVec.ofNat 8 w).toNat = w := by
    rw [BitVec.toNat_ofNat, Nat.mod_eq_of_lt (by omega)]
  have hlow : lowBits 0 = 0 := by decide
  have hright : fullShiftRight b.storage w = b.storage >>> w := by
    have h1 : ((((w : Int) + 1) / 2) % 32).toNat = (w + 1) / 2 := by omega
    have h2 : (((w : Int) / 2) % 32).toNat = w / 2 := by omega
    rw [fullShiftRight, maskingShiftRight, maskingShiftRight, h1, h2, ← BitVec.shiftRight_add]
    congr 1
    omega
  have heq : b.removeAtStart = ⟨b.storage >>> w, BitVec.ofInt 8 (w * s.length)⟩ := by
    have hcountI : (b.bitCount.toNat : Int) + -(w : Int) = w * s.length := by
      rw [hcount]
      push_cast
      ring
    simp [UIntBuffer.removeAtStart, replaceSubrange, htarget, hlow, UIntBuffer.count,
      UIntBuffer.empty, Int.ediv_self hwI.ne', hright, hcountI, maskingShiftLeft]
  rw [heq]
  refine h.drop (n := 1) ?_ ?_
  · rw [BitVec.toNat_ushiftRight, Nat.shiftRight_eq_div_pow, Nat.mul_one]
  · rw [BitVec.toNat_ofInt, List.length_cons, Nat.add_sub_cancel]
    have : ((w : Int) * s.length) = (w * s.length : Nat) := by push_cast; rfl
    rw [this]
    omega

end Holds

end UIntBuffer

/-! ## `_UTFParser` -/

/-- What an encoding provides to `parseScalar`; `w` is the number of bits of its `CodeUnit`. -/
structure UTFParser (w : Nat) (EncodedScalar : Type) where
  isScalar : BitVec w → Bool
  /-- `EncodedScalar(CollectionOfOne(codeUnit))`. -/
  collectionOfOne : BitVec w → EncodedScalar
  parseMultipleCodeUnits : UIntBuffer w → Bool × BitVec 8
  bufferedScalar : UIntBuffer w → BitVec 8 → EncodedScalar
  /-- The code units of a scalar, as its iterator yields them. -/
  elements : EncodedScalar → List (BitVec w)

namespace UTFParser

open UIntBuffer

variable {w : Nat} {E : Type}

/-- The `repeat` loop of `parseScalar`: fill the buffer, from what is left of the input. `none` for
`return .emptyInput`. -/
def fill : List (BitVec w) → UIntBuffer w → Option (UIntBuffer w × List (BitVec w))
  | [], buffer => if buffer.isEmpty then none else some (buffer, [])
  | codeUnit :: input, buffer =>
    let buffer := buffer.append codeUnit
    if buffer.count < capacity w then fill input buffer else some (buffer, input)

variable (P : UTFParser w E)

/-- Buffering mode of `parseScalar`. -/
def parseBuffered (buffer : UIntBuffer w) (input : List (BitVec w)) :
    ParseResult E × UIntBuffer w × List (BitVec w) :=
  match fill input buffer with
  | none => (.emptyInput, buffer, [])
  | some (buffer, input) =>
    let (isValid, scalarBitCount) := P.parseMultipleCodeUnits buffer
    let encodedScalar := P.bufferedScalar buffer scalarBitCount
    -- widened to 64 bits so that the buffer can be emptied
    let storage := (buffer.storage.setWidth 64 >>> (scalarBitCount.toNat % 64)).setWidth 32
    let bitCount := buffer.bitCount - scalarBitCount
    (if isValid then .valid encodedScalar else .error (scalarBitCount.toNat / w),
      ⟨storage, bitCount⟩, input)

/-- `parseScalar(from: &input)`: the result, and the parser's buffer and the input after it. -/
def parseScalar (buffer : UIntBuffer w) (input : List (BitVec w)) :
    ParseResult E × UIntBuffer w × List (BitVec w) :=
  if buffer.isEmpty then
    -- bufferless fast path
    match input with
    | [] => (.emptyInput, buffer, [])
    | codeUnit :: input =>
      if P.isScalar codeUnit then (.valid (P.collectionOfOne codeUnit), buffer, input)
      else P.parseBuffered (buffer.append codeUnit) input
  else
    let codeUnit := buffer.storage.setWidth w
    if P.isScalar codeUnit then (.valid (P.collectionOfOne codeUnit), buffer.removeAtStart, input)
    else P.parseBuffered buffer input

/-- A result as a segment of the text; `none` for `.emptyInput`. -/
def segment : ParseResult E → Option (Segment (BitVec w))
  | .valid encodedScalar => some (.word (P.elements encodedScalar))
  | .error length => some (.illFormed length)
  | .emptyInput => none

/-- `parseScalar` repeated until `.emptyInput`; `none` when the fuel runs out before. -/
def parseAll : Nat → UIntBuffer w → List (BitVec w) → Option (List (Segment (BitVec w)))
  | 0, _, _ => none
  | fuel + 1, buffer, input =>
    let (result, buffer, input) := P.parseScalar buffer input
    match P.segment result with
    | none => some []
    | some segment => (parseAll fuel buffer input).map (segment :: ·)

/-- What `parseBuffered` reports about a window. -/
def windowResult (buffer : UIntBuffer w) : Segment (BitVec w) × Nat :=
  let (isValid, scalarBitCount) := P.parseMultipleCodeUnits buffer
  (if isValid then .word (P.elements (P.bufferedScalar buffer scalarBitCount))
    else .illFormed (scalarBitCount.toNat / w), scalarBitCount.toNat)

/-- The first segment of a text and its length, the window holding the beginning of the text. -/
def next : List (BitVec w) → Segment (BitVec w) × Nat
  | [] => (.illFormed 0, 0)
  | x :: s =>
    if P.isScalar x then (.word [x], 1)
    else
      let (segment, bitCount) := P.windowResult (ofList ((x :: s).take (capacity w)))
      (segment, bitCount / w)

/-- What `parseScalar` relies on. -/
structure Lawful : Prop where
  elements_collectionOfOne : ∀ x, P.isScalar x = true → P.elements (P.collectionOfOne x) = [x]
  bitCount : ∀ x s, P.isScalar x = false →
    ∃ n, (P.windowResult (ofList ((x :: s).take (capacity w)))).2 = w * n ∧ 0 < n ∧ n ≤ capacity w ∧
      n ≤ (x :: s).length

/-- A call that reads the first segment off and leaves the rest, part of it in the buffer. -/
def ReadsOff (call : ParseResult E × UIntBuffer w × List (BitVec w)) (text : List (BitVec w)) : Prop :=
  P.segment call.1 = some (P.next text).1 ∧ ∃ s, Holds call.2.1 s ∧ s.length < capacity w ∧
    s ++ call.2.2 = text.drop (P.next text).2

section Correct

variable {P}

theorem windowResult_valid {b : UIntBuffer w} {bitCount : BitVec 8}
    (h : P.parseMultipleCodeUnits b = (true, bitCount)) :
    P.windowResult b = (.word (P.elements (P.bufferedScalar b bitCount)), bitCount.toNat) := by
  simp only [windowResult, h, if_true]

theorem windowResult_error {b : UIntBuffer w} {bitCount : BitVec 8} {n : Nat} (hw : 0 < w)
    (h : P.parseMultipleCodeUnits b = (false, bitCount)) (hn : bitCount.toNat = w * n) :
    P.windowResult b = (.illFormed n, w * n) := by
  simp only [windowResult, h, Bool.false_eq_true, if_false, hn, Nat.mul_div_cancel_left n hw]

theorem next_scalar {x : BitVec w} (hx : P.isScalar x = true) (s : List (BitVec w)) :
    P.next (x :: s) = (.word [x], 1) := by
  simp [next, hx]

theorem next_of_windowResult (hw : 0 < w) {x : BitVec w} {s : List (BitVec w)}
    {segment : Segment (BitVec w)} {n : Nat} (hx : P.isScalar x = false)
    (h : P.windowResult (UIntBuffer.ofList ((x :: s).take (capacity w))) = (segment, w * n)) :
    P.next (x :: s) = (segment, n) := by
  simp only [next, hx, Bool.false_eq_true, if_false, h, Nat.mul_div_cancel_left n hw]

theorem Lawful.windowResult_eq (hP : P.Lawful) (hw : 0 < w) {x : BitVec w} {s : List (BitVec w)}
    {b : UIntBuffer w} (hx : P.isScalar x = false) (h : Holds b ((x :: s).take (capacity w))) :
    P.windowResult b = ((P.next (x :: s)).1, w * (P.next (x :: s)).2) := by
  obtain ⟨n, hn, -⟩ := hP.bitCount x s hx
  rw [h.eq_ofList, next, if_neg (by simp [hx])]
  ext
  · rfl
  · simp only [hn, Nat.mul_div_cancel_left n hw]

theorem Lawful.next_length (hP : P.Lawful) (hw : 0 < w) {x : BitVec w} {s : List (BitVec w)}
    (hx : P.isScalar x = false) : 0 < (P.next (x :: s)).2 ∧ (P.next (x :: s)).2 ≤ capacity w ∧
      (P.next (x :: s)).2 ≤ (x :: s).length := by
  obtain ⟨n, hn, h⟩ := hP.bitCount x s hx
  have : (P.next (x :: s)).2 = n := by simp [next, hx, hn, Nat.mul_div_cancel_left n hw]
  rwa [this]

theorem fill_eq (hw : 0 < w) (hw32 : capacity w * w = 32) {b : UIntBuffer w} {s : List (BitVec w)}
    (input : List (BitVec w)) (h : Holds b s) (hs : s ≠ []) (hlt : s.length < capacity w) :
    ∃ b' input', fill input b = some (b', input') ∧
      Holds b' ((s ++ input).take (capacity w)) ∧ input' = (s ++ input).drop (capacity w) := by
  induction input generalizing b s with
  | nil =>
      have hne : b.isEmpty = false := by rw [h.isEmpty_eq hw]; simpa using hs
      refine ⟨b, [], by simp [fill, hne], ?_, ?_⟩
      · rw [List.append_nil, List.take_of_length_le (by omega)]
        exact h
      · rw [List.append_nil, List.drop_of_length_le (by omega)]
  | cons x input ih =>
      have hfits : w * (s.length + 1) ≤ 32 := by
        rw [← hw32, Nat.mul_comm]
        exact Nat.mul_le_mul_right w hlt
      have h' := h.append x hfits
      rw [fill]
      have hcount := h'.count_eq hw
      rw [List.length_append, List.length_singleton] at hcount
      simp only [hcount]
      split_ifs with hc
      · obtain ⟨b', input', h1, h2, h3⟩ := ih h' (by simp) (by simpa using hc)
        rw [List.append_assoc, List.singleton_append] at h2 h3
        exact ⟨b', input', h1, h2, h3⟩
      · have hlen : (s ++ [x]).length = capacity w := by
          rw [List.length_append, List.length_singleton]
          omega
        refine ⟨_, _, rfl, ?_, ?_⟩
        · rw [← List.singleton_append, ← List.append_assoc, ← hlen, List.take_left]
          exact h'
        · rw [← List.singleton_append, ← List.append_assoc, ← hlen, List.drop_left]

theorem holds_shifted {b : UIntBuffer w} {s : List (BitVec w)} (h : Holds b s) {n : Nat}
    {bitCount : BitVec 8} (hn : n ≤ s.length) (hbits : bitCount.toNat = w * n) :
    Holds ⟨(b.storage.setWidth 64 >>> (bitCount.toNat % 64)).setWidth 32, b.bitCount - bitCount⟩
      (s.drop n) := by
  have hle : w * n ≤ w * s.length := Nat.mul_le_mul_left w hn
  have hfits := h.fits
  refine h.drop ?_ ?_
  · have hlt : b.storage.toNat / 2 ^ (w * n) < 2 ^ 32 := (Nat.div_le_self _ _).trans_lt b.storage.isLt
    rw [hbits, Nat.mod_eq_of_lt (by omega), BitVec.toNat_setWidth, BitVec.toNat_ushiftRight,
      BitVec.toNat_setWidth_of_le (by omega), Nat.shiftRight_eq_div_pow, Nat.mod_eq_of_lt hlt]
  · have hcount := h.bitCount
    have hsub : w * (s.length - n) = w * s.length - w * n := Nat.mul_sub _ _ _
    rw [BitVec.toNat_sub, hbits]
    omega

theorem parseBuffered_readsOff (hw : 0 < w) (hw32 : capacity w * w = 32) (hP : P.Lawful)
    {b : UIntBuffer w} {x : BitVec w} {s input : List (BitVec w)} (h : Holds b (x :: s))
    (hlt : (x :: s).length < capacity w) (hx : P.isScalar x = false) :
    P.ReadsOff (P.parseBuffered b input) (x :: s ++ input) := by
  obtain ⟨b₁, input₁, hfill, hb₁, rfl⟩ := fill_eq hw hw32 input h (by simp) hlt
  have hwindow := hP.windowResult_eq hw (s := s ++ input) hx hb₁
  obtain ⟨hpos, hcap, hlen⟩ := hP.next_length hw (s := s ++ input) hx
  rw [List.cons_append] at hfill hb₁ ⊢
  obtain ⟨isValid, scalarBitCount, hmulti⟩ :
      ∃ isValid scalarBitCount, P.parseMultipleCodeUnits b₁ = (isValid, scalarBitCount) := ⟨_, _, rfl⟩
  rw [windowResult, hmulti, Prod.mk.injEq] at hwindow
  obtain ⟨hseg, hbits⟩ := hwindow
  have htake : (P.next (x :: (s ++ input))).2 ≤ ((x :: (s ++ input)).take (capacity w)).length := by
    rw [List.length_take]
    exact Nat.le_min.2 ⟨hcap, hlen⟩
  refine ⟨?_, (List.take (capacity w) (x :: (s ++ input))).drop (P.next (x :: (s ++ input))).2, ?_, ?_, ?_⟩
  · simp only [parseBuffered, hfill, hmulti, ← hseg]
    cases isValid <;> rfl
  · simp only [parseBuffered, hfill, hmulti]
    exact holds_shifted hb₁ htake hbits
  · rw [List.length_drop, List.length_take]
    omega
  · simp only [parseBuffered, hfill, hmulti]
    rw [← List.drop_append_of_le_length htake, List.take_append_drop]

theorem parseScalar_readsOff (hw : 0 < w) (hw32 : capacity w * w = 32) (hcap : 1 < capacity w)
    (hP : P.Lawful) {b : UIntBuffer w} {s input : List (BitVec w)} (h : Holds b s)
    (hlt : s.length < capacity w) (hne : s ++ input ≠ []) :
    P.ReadsOff (P.parseScalar b input) (s ++ input) := by
  cases s with
  | nil =>
      cases input with
      | nil => exact absurd rfl hne
      | cons x input =>
          have hempty : b.isEmpty = true := by rw [h.isEmpty_eq hw]; rfl
          rw [parseScalar, if_pos hempty]
          cases hx : P.isScalar x with
          | true =>
              have helements := hP.elements_collectionOfOne x hx
              simp only [if_true, List.nil_append]
              refine ⟨?_, [], h, by omega, ?_⟩
              · rw [next_scalar hx, segment, helements]
              · rw [next_scalar hx, List.nil_append, List.drop_succ_cons, List.drop_zero]
          | false =>
              simp only [Bool.false_eq_true, if_false]
              have happend := h.append x (by rw [List.length_nil, ← hw32]; nlinarith)
              exact parseBuffered_readsOff hw hw32 hP happend hcap hx
  | cons x s =>
      have hempty : b.isEmpty = false := by rw [h.isEmpty_eq hw]; rfl
      simp only [parseScalar, hempty, Bool.false_eq_true, if_false, h.setWidth_storage]
      cases hx : P.isScalar x with
      | true =>
          have helements := hP.elements_collectionOfOne x hx
          simp only [if_true, List.cons_append]
          refine ⟨?_, s, h.removeAtStart hw (by nlinarith), by simp at hlt; omega, ?_⟩
          · rw [next_scalar hx, segment, helements]
          · rw [next_scalar hx, List.drop_succ_cons, List.drop_zero]
      | false =>
          simp only [Bool.false_eq_true, if_false]
          exact parseBuffered_readsOff hw hw32 hP h hlt hx

theorem parseScalar_nil (hw : 0 < w) {b : UIntBuffer w} (h : Holds b []) :
    P.segment (P.parseScalar b []).1 = none := by
  have hempty : b.isEmpty = true := by rw [h.isEmpty_eq hw]; rfl
  rw [parseScalar, if_pos hempty]
  rfl

theorem parseAll_read (hw : 0 < w) (hw32 : capacity w * w = 32) (hcap : 1 < capacity w)
    (hP : P.Lawful) {fuel : Nat} {b : UIntBuffer w} {s input : List (BitVec w)} (h : Holds b s)
    (hlt : s.length < capacity w) (hfuel : (s ++ input).length < fuel) :
    ∃ l, P.parseAll fuel b input = some l ∧ Read P.next (s ++ input) l := by
  induction fuel generalizing b s input with
  | zero => omega
  | succ fuel ih =>
      rcases htext : s ++ input with _ | ⟨x, text⟩
      · obtain ⟨rfl, rfl⟩ := List.append_eq_nil_iff.1 htext
        refine ⟨[], ?_, .nil⟩
        simp only [parseAll, parseScalar_nil hw h]
      · obtain ⟨hseg, s', hs', hlt', hrest⟩ :=
          parseScalar_readsOff hw hw32 hcap hP h hlt (by rw [htext]; simp)
        obtain ⟨hpos, hlen⟩ : 0 < (P.next (x :: text)).2 ∧ (P.next (x :: text)).2 ≤ (x :: text).length := by
          cases hx : P.isScalar x with
          | true => simp [next_scalar hx]
          | false => exact ⟨(hP.next_length hw hx).1, (hP.next_length hw hx).2.2⟩
        rw [htext] at hseg hrest hfuel
        obtain ⟨l, hl, hread⟩ := ih hs' hlt' (by rw [hrest, List.length_drop]; omega)
        rw [hrest] at hread
        refine ⟨_ :: l, ?_, .cons hpos hlen hread⟩
        simp only [parseAll, hseg, hl, Option.map_some]

end Correct

end UTFParser

end SwiftKStdlib.Unicode
