import Mathlib
import SwiftKStdlib.Unicode.Decoding

/-!
# Measuring is transcoding without the units

* `Encoding.transcode_spells` : transcoding a scalar gives its code units in the other encoding;
* `emitted` : the code units that `transcode` passes on for what a text decodes to;
* `transcodeLoop_eq`, `transcodedLengthLoop_eq` : the two loops, in terms of `emitted`;
* `transcodedLength_eq_loop` : the fast path for ASCII is the loop.
-/

namespace SwiftKStdlib.Unicode

open SwiftKStdlib.Lib

namespace Encoding

variable {E : Encoding} {s : E.EncodedScalar} {x : Scalar}

theorem decode_eq (h : E.elements s = E.codeUnits x) : E.decode s = x.value := by
  cases E with
  | utf8 => exact UTF8.encoding_spells.decode x s h
  | utf16 => exact UTF16.encoding_spells.decode x s h
  | utf32 => exact (List.cons.inj h).1

theorem encode_eq (E : Encoding) (x : Scalar) : ∃ t, E.encode x.value = some t ∧ E.elements t = E.codeUnits x := by
  cases E with
  | utf8 => exact UTF8.encoding_spells.encode x
  | utf16 => exact UTF16.encoding_spells.encode x
  | utf32 => exact ⟨x.value, rfl, rfl⟩

theorem transcode_eq (F : Encoding) (h : E.elements s = E.codeUnits x) :
    F.transcode E s = F.encode (E.decode s) ∨ ∃ hEF : E = F, F.transcode E s = some (hEF ▸ s) := by
  cases F with
  | utf8 =>
      cases E with
      | utf8 => exact .inr ⟨rfl, rfl⟩
      | utf16 => exact .inl (UTF8.transcode_eq x (UTF16.reads_of_elements h))
      | utf32 => exact .inl rfl
  | utf16 =>
      cases E with
      | utf8 => exact .inl (UTF16.transcode_eq x.toNat_lt (UTF8.biased_of_elements h))
      | utf16 => exact .inr ⟨rfl, rfl⟩
      | utf32 => exact .inl rfl
  | utf32 => exact .inl rfl

theorem transcode_spells (F : Encoding) (h : E.elements s = E.codeUnits x) :
    ∃ t, F.transcode E s = some t ∧ F.elements t = F.codeUnits x := by
  rcases transcode_eq F h with heq | ⟨rfl, heq⟩
  · rw [heq, decode_eq h]
    exact encode_eq F x
  · exact ⟨s, heq, h⟩

theorem elements_replacement (F : Encoding) : F.elements F.encodedReplacementCharacter = F.codeUnits .replacement := by
  cases F with
  | utf8 => decide
  | utf16 => decide
  | utf32 => rfl

theorem count_eq {t : UTF16.EncodedScalar} (h : t.elements = UTF16.codeUnits x.value.toNat) :
    t.count = (UTF16.codeUnits x.value.toNat).length := by
  rw [UIntBuffer.count, (UTF16.reads_of_elements h).bitCount, Nat.mul_div_cancel_left _ (by decide)]

/-! ## What is emitted -/

def hadError (l : List (Option Scalar)) : Bool := l.any Option.isNone

def emitted (F : Encoding) (stopOnError : Bool) : List (Option Scalar) → List F.CodeUnit
  | [] => []
  | some x :: l => F.codeUnits x ++ emitted F stopOnError l
  | none :: l => if stopOnError then [] else F.codeUnits .replacement ++ emitted F stopOnError l

theorem hadError_eq_true {l : List (Option Scalar)} : hadError l = true ↔ none ∈ l := by
  rw [hadError, List.any_eq_true]
  refine ⟨fun ⟨r, hr, hnone⟩ => ?_, fun h => ⟨none, h, rfl⟩⟩
  rwa [Option.isNone_iff_eq_none.1 hnone] at hr

variable {p : E.ForwardParser} {i : List E.CodeUnit} {l : List (Option Scalar)}

theorem transcodeLoop_eq (h : E.Parses p i l) {fuel : Nat} (hfuel : l.length < fuel) {σ : Type} (F : Encoding)
    (stopOnError : Bool) (processCodeUnit : σ → F.CodeUnit → Option σ) (error : Bool) (state : σ) :
    transcodeLoop E F stopOnError processCodeUnit fuel p i error state =
      ((F.emitted stopOnError l).foldlM processCodeUnit state).map fun state => (state, error || hadError l) := by
  induction h generalizing fuel error state with
  | emptyInput hcall =>
      cases fuel with
      | zero => cases hfuel
      | succ fuel =>
          rw [transcodeLoop, hcall, hadError, List.any_nil, Bool.or_false]
          rfl
  | @valid p i s p' i' x l hcall helements _ ih =>
      cases fuel with
      | zero => cases hfuel
      | succ fuel =>
          obtain ⟨t, ht, hunits⟩ := transcode_spells F helements
          rw [transcodeLoop, hcall]
          simp only [ht, Option.getD_some, hunits, emitted, List.foldlM_append, Option.bind_eq_bind]
          rw [Option.map_bind]
          refine Option.bind_congr fun state _ => ?_
          exact ih (Nat.lt_of_succ_lt_succ hfuel) error state
  | @error p i n p' i' l hcall _ ih =>
      cases fuel with
      | zero => cases hfuel
      | succ fuel =>
          rw [transcodeLoop, hcall, emitted]
          by_cases hstop : stopOnError = true
          · simp only [if_pos hstop, hadError, List.any_cons, Option.isNone_none, Bool.true_or, Bool.or_true]
            rfl
          · simp only [if_neg hstop, elements_replacement, List.foldlM_append, Option.bind_eq_bind]
            rw [Option.map_bind]
            refine Option.bind_congr fun state _ => ?_
            rw [ih (Nat.lt_of_succ_lt_succ hfuel) true state, hadError, hadError, List.any_cons, Option.isNone_none,
              Bool.true_or, Bool.or_true]
            rfl

/-! ## The two loops -/

theorem foldl_or_lt {b : BitVec 16} (units : List (BitVec 16)) :
    units.foldl (fun union x => union ||| x) b < 0x80 ↔ b < 0x80 ∧ ∀ u ∈ units, u < 0x80 := by
  induction units generalizing b with
  | nil => simp
  | cons u units ih =>
      have hor : b ||| u < 0x80 ↔ b < 0x80 ∧ u < 0x80 := by
        simp only [BitVec.lt_def, BitVec.toNat_or]
        refine ⟨fun h => ⟨Nat.left_le_or.trans_lt h, Nat.right_le_or.trans_lt h⟩, fun h => ?_⟩
        exact Nat.or_lt_two_pow (n := 7) h.1 h.2
      rw [List.foldl_cons, ih, hor, List.forall_mem_cons, and_assoc]

/-- What the loop of `transcodedLength` returns of the units that `transcode` would emit. -/
def measured (repairing : Bool) (utf16Count : Nat) (utf16BitUnion : BitVec 16) (l : List (Option Scalar)) :
    Option (Nat × Bool) :=
  let units : List (BitVec 16) := emitted utf16 (!repairing) l
  if hadError l = true ∧ repairing = false then none
  else some (utf16Count + units.length, units.foldl (fun union x => union ||| x) utf16BitUnion < 0x80)

theorem transcodedLengthLoop_eq (h : E.Parses p i l) {fuel : Nat} (hfuel : l.length < fuel) (repairing : Bool)
    (utf16Count : Nat) (utf16BitUnion : BitVec 16) :
    UTF16.transcodedLengthLoop E repairing fuel p i utf16Count utf16BitUnion =
      some (measured repairing utf16Count utf16BitUnion l) := by
  induction h generalizing fuel utf16Count utf16BitUnion with
  | emptyInput hcall =>
      cases fuel with
      | zero => cases hfuel
      | succ fuel =>
          rw [UTF16.transcodedLengthLoop, hcall]
          rfl
  | @valid p i s p' i' x l hcall helements _ ih =>
      cases fuel with
      | zero => cases hfuel
      | succ fuel =>
          obtain ⟨t, ht, hunits⟩ := transcode_spells utf16 helements
          have hunits' : UIntBuffer.elements t = UTF16.codeUnits x.value.toNat := hunits
          rw [UTF16.transcodedLengthLoop, hcall]
          simp only [ht, Option.bind_eq_bind, Option.bind_some, hunits', count_eq hunits']
          rw [ih (Nat.lt_of_succ_lt_succ hfuel), measured, measured, emitted, List.length_append, List.foldl_append,
            Nat.add_assoc]
          rfl
  | @error p i n p' i' l hcall _ ih =>
      cases fuel with
      | zero => cases hfuel
      | succ fuel =>
          rw [UTF16.transcodedLengthLoop, hcall]
          cases repairing with
          | false => rfl
          | true =>
              have hunits : utf16.codeUnits .replacement = [0xFFFD] := by decide
              simp only [if_true]
              rw [ih (Nat.lt_of_succ_lt_succ hfuel), measured, measured, emitted, Bool.not_true,
                if_neg Bool.false_ne_true, hunits, List.length_append, List.foldl_append, Nat.add_assoc]
              simp only [Bool.true_eq_false, and_false, if_false]
              rfl

end Encoding

/-! ## The fast path for ASCII -/

namespace UTFParser

variable {w : Nat} {F : Type} {P : UTFParser w F} {x : BitVec w} {i : List (BitVec w)}

theorem parseScalar_empty : P.parseScalar .empty (x :: i) =
    if P.isScalar x then (.valid (P.collectionOfOne x), .empty, i)
    else P.parseBuffered (UIntBuffer.append .empty x) i := rfl

theorem parseScalar_append (hw : 0 < w) (hw32 : w ≤ 32) (hx : P.isScalar x = false) :
    P.parseScalar (UIntBuffer.append .empty x) i = P.parseScalar .empty (x :: i) := by
  have hholds := UIntBuffer.holds_empty.append x (by simpa using hw32)
  have hempty : (UIntBuffer.append .empty x).isEmpty = false := by
    rw [hholds.isEmpty_eq hw]
    rfl
  rw [parseScalar_empty, if_neg (Bool.eq_false_iff.1 hx), parseScalar.eq_def, if_neg (Bool.eq_false_iff.1 hempty)]
  simp only [hholds.setWidth_storage, hx]
  rfl

end UTFParser

namespace UTF16

variable {u : BitVec 8} {i : List (BitVec 8)}

theorem isScalar_of_lt (hu : u < 0x80) : UTF8.isScalar u = true := by
  decide +revert

theorem isScalar_of_not_lt (hu : ¬ u < 0x80) : UTF8.isScalar u = false := by
  decide +revert

theorem transcodedLengthLoop_ascii (hu : u < 0x80) (repairing : Bool) (fuel utf16Count : Nat) (union : BitVec 16) :
    transcodedLengthLoop .utf8 repairing (fuel + 1) UIntBuffer.empty (u :: i) utf16Count union =
      transcodedLengthLoop .utf8 repairing fuel UIntBuffer.empty i (utf16Count + 1) (union ||| u.setWidth 16) := by
  have hlt : u.toNat < 0x80 := hu
  have hcall : Encoding.parseScalar .utf8 UIntBuffer.empty (u :: i) =
      (.valid (ValidUTF8Buffer.collectionOfOne u), UIntBuffer.empty, i) := by
    apply UTFParser.parseScalar_empty.trans
    exact if_pos (isScalar_of_lt hu)
  have helements : Encoding.elements .utf8 (ValidUTF8Buffer.collectionOfOne u) =
      Encoding.codeUnits .utf8 (.ofNat u.toNat (by omega)) := by
    show ValidUTF8Buffer.elements _ = UTF8.codeUnits _
    rw [UTF8.elements_collectionOfOne u (isScalar_of_lt hu), Scalar.toNat_ofNat, UTF8.codeUnits, if_pos hlt,
      ofNat_of_toNat_eq rfl]
  obtain ⟨t, ht, hunits⟩ := Encoding.transcode_spells .utf16 helements
  have hunits' : UIntBuffer.elements t = codeUnits (Scalar.ofNat u.toNat (by omega)).value.toNat := hunits
  have hword : codeUnits (Scalar.ofNat u.toNat (by omega)).value.toNat = [u.setWidth 16] := by
    rw [Scalar.toNat_ofNat, codeUnits, if_pos (by omega), ofNat_of_toNat_eq]
    rw [BitVec.toNat_setWidth, Nat.mod_eq_of_lt (by omega)]
  rw [transcodedLengthLoop, hcall]
  simp only [ht, Option.bind_eq_bind, Option.bind_some, Encoding.count_eq hunits', hunits', hword]
  rfl

theorem transcodedLengthLoop_peek (hu : ¬ u < 0x80) (repairing : Bool) (fuel utf16Count : Nat) (union : BitVec 16) :
    transcodedLengthLoop .utf8 repairing fuel UIntBuffer.empty (u :: i) utf16Count union =
      transcodedLengthLoop .utf8 repairing fuel (UIntBuffer.append .empty u) i utf16Count union := by
  have hcall : Encoding.parseScalar .utf8 (UIntBuffer.append .empty u) i =
      Encoding.parseScalar .utf8 UIntBuffer.empty (u :: i) :=
    UTFParser.parseScalar_append (by decide) (by decide) (isScalar_of_not_lt hu)
  cases fuel with
  | zero => rfl
  | succ fuel => rw [transcodedLengthLoop, transcodedLengthLoop, hcall]

theorem skipASCII_eq (input : List (BitVec 8)) (repairing : Bool) {peek : BitVec 8} {union : BitVec 16}
    (hpeek : peek < 0x80) (hunion : union < 0x80) (utf16Count : Nat) :
    ∃ union' < (0x80 : BitVec 16),
      transcodedLengthLoop .utf8 repairing (input.length + 1) UIntBuffer.empty input utf16Count union =
        match skipASCII input peek utf16Count with
        | (utf16Count, peek, i) =>
          if peek < 0x80 then some (some (utf16Count, true))
          else transcodedLengthLoop .utf8 repairing (i.length + 2) (UIntBuffer.append .empty peek) i utf16Count
            union' := by
  induction input generalizing peek union utf16Count with
  | nil =>
      refine ⟨union, hunion, ?_⟩
      rw [skipASCII]
      simp only
      rw [if_pos hpeek]
      show some (some (utf16Count, decide (union < 0x80))) = _
      rw [decide_eq_true hunion]
  | cons u input ih =>
      by_cases hu : u < 0x80
      · have hlt : u.toNat < 0x80 := hu
        have hunit : u.setWidth 16 < (0x80 : BitVec 16) := by
          rw [BitVec.lt_def, BitVec.toNat_setWidth, Nat.mod_eq_of_lt (by omega)]
          exact hlt
        have hor : union ||| u.setWidth 16 < (0x80 : BitVec 16) :=
          (Encoding.foldl_or_lt [u.setWidth 16]).2 ⟨hunion, by simpa using hunit⟩
        obtain ⟨union', hunion', heq⟩ := ih hu hor (utf16Count + 1)
        refine ⟨union', hunion', ?_⟩
        rw [skipASCII, if_pos hu, List.length_cons, transcodedLengthLoop_ascii hu, heq]
      · refine ⟨union, hunion, ?_⟩
        rw [skipASCII, if_neg hu]
        simp only
        rw [if_neg hu, List.length_cons, transcodedLengthLoop_peek hu]

end UTF16

namespace Encoding

variable {E : Encoding}

theorem measured_eq_none {repairing : Bool} {utf16Count : Nat} {union : BitVec 16} {l : List (Option Scalar)} :
    measured repairing utf16Count union l = none ↔ hadError l = true ∧ repairing = false := by
  by_cases h : hadError l = true ∧ repairing = false
  · rw [measured, if_pos h]
    exact ⟨fun _ => h, fun _ => rfl⟩
  · rw [measured, if_neg h]
    exact ⟨fun hsome => absurd hsome (Option.some_ne_none _), fun h' => absurd h' h⟩

theorem measured_eq_some {repairing : Bool} {union : BitVec 16} (hunion : union < 0x80) {l : List (Option Scalar)}
    {utf16Count : Nat} [Decidable (∀ u ∈ emitted utf16 (!repairing) l, u < (0x80 : BitVec 16))]
    (h : ¬ (hadError l = true ∧ repairing = false)) : measured repairing utf16Count union l =
      some (utf16Count + (emitted utf16 (!repairing) l).length,
        decide (∀ u ∈ emitted utf16 (!repairing) l, u < (0x80 : BitVec 16))) := by
  rw [measured, if_neg h]
  exact congrArg (fun isASCII => some (_, isASCII))
    (decide_eq_decide.2 ((foldl_or_lt _).trans (and_iff_right hunion)))

theorem measured_union {repairing : Bool} {union : BitVec 16} (hunion : union < 0x80) (l : List (Option Scalar))
    (utf16Count : Nat) : measured repairing utf16Count union l = measured repairing utf16Count 0 l := by
  by_cases h : hadError l = true ∧ repairing = false
  · rw [measured, measured, if_pos h, if_pos h]
  · rw [measured_eq_some hunion h, measured_eq_some (by decide) h]

theorem transcodedLengthLoop_union {p : E.ForwardParser} {s i : List E.CodeUnit} (h : E.Buffers p s) {fuel : Nat}
    (hfuel : (s ++ i).length < fuel) (repairing : Bool) {union : BitVec 16}
    (hunion : union < 0x80) (utf16Count : Nat) : UTF16.transcodedLengthLoop E repairing fuel p i utf16Count union =
      UTF16.transcodedLengthLoop E repairing fuel p i utf16Count 0 := by
  obtain ⟨l, hparses, hdecodes⟩ := exists_decodes (i := i) h
  have hlt : l.length < fuel := hdecodes.length_le.trans_lt hfuel
  rw [transcodedLengthLoop_eq hparses hlt, transcodedLengthLoop_eq hparses hlt, measured_union hunion]

theorem transcodedLength_eq_loop (input : List E.CodeUnit) (repairing : Bool) :
    UTF16.transcodedLength E input repairing =
      UTF16.transcodedLengthLoop E repairing (input.length + 1) E.forwardParser input 0 0 := by
  cases E with
  | utf8 =>
      obtain ⟨union, hunion, hskip⟩ := UTF16.skipASCII_eq input repairing
        (show (0 : BitVec 8) < 0x80 by decide) (show (0 : BitVec 16) < 0x80 by decide) 0
      refine Eq.trans ?_ hskip.symm
      rw [UTF16.transcodedLength]
      obtain ⟨utf16Count, peek, i⟩ := UTF16.skipASCII input 0 0
      simp only
      by_cases hpeek : peek < 0x80
      · rw [if_pos hpeek, if_pos hpeek]
      · rw [if_neg hpeek, if_neg hpeek]
        have hbuffers : Buffers utf8 (UIntBuffer.append .empty peek) [peek] :=
          ⟨UIntBuffer.holds_empty.append peek (by decide), show 1 < 4 by decide⟩
        exact (transcodedLengthLoop_union hbuffers (by simp) repairing hunion utf16Count).symm
  | utf16 => rfl
  | utf32 => rfl

end Encoding

end SwiftKStdlib.Unicode
