import SwiftKStdlib.Unicode.CodingRoundTrip

/-!
# What a text decodes to

* `Encoding` : the encodings, with what `_UnicodeEncoding` asks of each;
* `transcodeText` : `transcode(_:from:to:stoppingOnError:into:)`, the loop over a parser;
* `UTF16.transcodedLength` : the loop that only counts, with its fast path for ASCII.

`none` is a trap, undefined behaviour, or no fuel. The closure a loop calls is given the state it has
captured.

* `Encoding.codeUnits` : the code units of a scalar; `WellFormed` : a text of those of some scalars;
* `Decodes E s l` : the text `s` read as scalars, with `none` for each ill-formed part of it;
* `Parses E p i l` : what the parser `p` returns, one after another, of the input `i`;
* `exists_decodes` : a parser returns what the text, part of which it holds, decodes to.
-/

namespace SwiftKStdlib.Unicode

open SwiftKStdlib.Lib

inductive Encoding where
  | utf8
  | utf16
  | utf32
  deriving DecidableEq, Repr

namespace Encoding

/-- The bits of a `CodeUnit`. -/
abbrev codeUnitBits : Encoding → Nat
  | utf8 => 8
  | utf16 => 16
  | utf32 => 32

abbrev CodeUnit (E : Encoding) : Type := BitVec E.codeUnitBits

abbrev EncodedScalar : Encoding → Type
  | utf8 => ValidUTF8Buffer
  | utf16 => UTF16.EncodedScalar
  | utf32 => BitVec 32

/-- `ForwardParser`: its buffer, where it has one. -/
abbrev ForwardParser : Encoding → Type
  | utf8 => UIntBuffer 8
  | utf16 => UIntBuffer 16
  | utf32 => Unit

/-- `ForwardParser()`. -/
def forwardParser : (E : Encoding) → E.ForwardParser
  | utf8 => .empty
  | utf16 => .empty
  | utf32 => ()

end Encoding

/-- `UTF32.Parser.parseScalar(from: &input)`. -/
def UTF32.parseScalar : List (BitVec 32) → ParseResult (BitVec 32) × Unit × List (BitVec 32)
  | [] => (.emptyInput, (), [])
  | x :: input => (if x >>> 11 ≠ 0b11011 ∧ x ≤ 0x10ffff then .valid x else .error 1, (), input)

namespace Encoding

/-- `parseScalar(from: &input)`: the result, and the parser and the input after it. -/
def parseScalar : (E : Encoding) → E.ForwardParser → List E.CodeUnit →
    ParseResult E.EncodedScalar × E.ForwardParser × List E.CodeUnit
  | utf8, p, input => UTF8.forwardParser.parseScalar p input
  | utf16, p, input => UTF16.forwardParser.parseScalar p input
  | utf32, _, input => UTF32.parseScalar input

/-- The code units of an encoded scalar, as its iterator yields them. -/
def elements : (E : Encoding) → E.EncodedScalar → List E.CodeUnit
  | utf8, s => s.elements
  | utf16, s => UIntBuffer.elements s
  | utf32, s => [s]

/-- The value of the scalar that `decode` returns. -/
def decode : (E : Encoding) → E.EncodedScalar → BitVec 32
  | utf8, s => UTF8.decode s
  | utf16, s => UTF16.decode s
  | utf32, s => s

def encode : (E : Encoding) → BitVec 32 → Option E.EncodedScalar
  | utf8, x => UTF8.encode x
  | utf16, x => UTF16.encode x
  | utf32, x => some x

def encodedReplacementCharacter : (E : Encoding) → E.EncodedScalar
  | utf8 => ⟨0xBDBFEF + 0x010101⟩
  | utf16 => ⟨0xFFFD, 16⟩
  | utf32 => 0xFFFD

/-- `E.transcode(s, from: F.self)`. -/
def transcode : (E F : Encoding) → F.EncodedScalar → Option E.EncodedScalar
  | utf8, utf8, s => some s
  | utf8, utf16, s => UTF8.transcode s
  | utf16, utf8, s => UTF16.transcode s
  | utf16, utf16, s => some s
  | E, F, s => E.encode (F.decode s)

end Encoding

section Transcode

variable {σ : Type} (inputEncoding outputEncoding : Encoding) (stopOnError : Bool)
  (processCodeUnit : σ → outputEncoding.CodeUnit → Option σ)

/-- The loop of `transcode`: what the closure has done, and `hadError`. -/
def transcodeLoop : Nat → inputEncoding.ForwardParser → List inputEncoding.CodeUnit → Bool → σ → Option (σ × Bool)
  | 0, _, _, _, _ => none
  | fuel + 1, p, input, hadError, state =>
    match inputEncoding.parseScalar p input with
    | (.valid s, p, input) => do
      -- the replacement character where the scalar cannot be represented
      let t := (outputEncoding.transcode inputEncoding s).getD outputEncoding.encodedReplacementCharacter
      let state ← (outputEncoding.elements t).foldlM processCodeUnit state
      transcodeLoop fuel p input hadError state
    | (.emptyInput, _, _) => some (state, hadError)
    | (.error _, p, input) =>
      if stopOnError then some (state, true)
      else do
        let state ← (outputEncoding.elements outputEncoding.encodedReplacementCharacter).foldlM processCodeUnit state
        transcodeLoop fuel p input true state

/-- `transcode(_:from:to:stoppingOnError:into:)`. -/
def transcodeText (input : List inputEncoding.CodeUnit) (state : σ) : Option (σ × Bool) :=
  transcodeLoop inputEncoding outputEncoding stopOnError processCodeUnit (input.length + 1)
    inputEncoding.forwardParser input false state

end Transcode

namespace UTF16

/-- The fast path for ASCII: `utf16Count`, `peek` and what is left of the input. -/
def skipASCII : List (BitVec 8) → BitVec 8 → Nat → Nat × BitVec 8 × List (BitVec 8)
  | [], peek, utf16Count => (utf16Count, peek, [])
  | u :: i, _, utf16Count => if u < 0x80 then skipASCII i u (utf16Count + 1) else (utf16Count, u, i)

section

variable (sourceEncoding : Encoding) (repairingIllFormedSequences : Bool)

/-- The loop of `transcodedLength`. -/
def transcodedLengthLoop :
    Nat → sourceEncoding.ForwardParser → List sourceEncoding.CodeUnit → Nat → BitVec 16 → Option (Option (Nat × Bool))
  | 0, _, _, _, _ => none
  | fuel + 1, d, i, utf16Count, utf16BitUnion =>
    match sourceEncoding.parseScalar d i with
    | (.valid scalarContent, d, i) => do
      -- `_unsafelyUnwrappedUnchecked`
      let utf16 ← Encoding.transcode .utf16 sourceEncoding scalarContent
      transcodedLengthLoop fuel d i (utf16Count + UIntBuffer.count utf16)
        ((UIntBuffer.elements utf16).foldl (fun union x => union ||| x) utf16BitUnion)
    | (.error _, d, i) =>
      if repairingIllFormedSequences then transcodedLengthLoop fuel d i (utf16Count + 1) (utf16BitUnion ||| 0xFFFD)
      else some none
    | (.emptyInput, _, _) => some (some (utf16Count, utf16BitUnion < 0x80))

end

/-- `transcodedLength(of:decodedAs:repairingIllFormedSequences:)`. -/
def transcodedLength : (sourceEncoding : Encoding) → List sourceEncoding.CodeUnit → Bool → Option (Option (Nat × Bool))
  | .utf8, input, repairing =>
    let (utf16Count, peek, i) := skipASCII input 0 0
    if peek < 0x80 then some (some (utf16Count, true))
    else transcodedLengthLoop .utf8 repairing (i.length + 2) (UIntBuffer.append .empty peek) i utf16Count 0
  | sourceEncoding, input, repairing =>
    transcodedLengthLoop sourceEncoding repairing (input.length + 1) sourceEncoding.forwardParser input 0 0

end UTF16

end SwiftKStdlib.Unicode

namespace SwiftKStdlib.Unicode

open SwiftKStdlib.Lib

/-! ## The words are the scalars -/

/-- A scalar, from its value. -/
def Scalar.ofNat (c : Nat) (h : c < 0xD800 ∨ 0xE000 ≤ c ∧ c ≤ 0x10FFFF) : Scalar where
  value := BitVec.ofNat 32 c
  valid := by
    rw [BitVec.toNat_ofNat, Nat.mod_eq_of_lt (by omega)]
    exact h

@[simp] theorem Scalar.toNat_ofNat (c : Nat) (h : c < 0xD800 ∨ 0xE000 ≤ c ∧ c ≤ 0x10FFFF) :
    (Scalar.ofNat c h).value.toNat = c := by
  rw [Scalar.ofNat, BitVec.toNat_ofNat, Nat.mod_eq_of_lt (by omega)]

def Scalar.replacement : Scalar := .ofNat 0xFFFD (by omega)

theorem ofNat_of_toNat_eq {w c : Nat} {x : BitVec w} (h : x.toNat = c) : BitVec.ofNat w c = x := by
  rw [← h, BitVec.ofNat_toNat, BitVec.setWidth_eq]

theorem UTF8.wellFormed_iff {s : List (BitVec 8)} : WellFormed s ↔ ∃ x : Scalar, codeUnits x.value.toNat = s := by
  refine ⟨fun h => ?_, fun ⟨x, hx⟩ => hx ▸ wellFormed_codeUnits x⟩
  rcases wellFormed_cases h with ⟨a, rfl⟩ | ⟨a, b, rfl⟩ | ⟨a, b, c, rfl⟩ | ⟨a, b, c, d, rfl⟩
  · rw [wellFormed_one] at h
    refine ⟨.ofNat a.toNat (by omega), ?_⟩
    rw [Scalar.toNat_ofNat, codeUnits, if_pos (by omega), ofNat_of_toNat_eq rfl]
  · rw [wellFormed_two, Tail] at h
    refine ⟨.ofNat ((a.toNat - 0xC0) * 64 + (b.toNat - 0x80)) (by omega), ?_⟩
    rw [Scalar.toNat_ofNat, codeUnits, if_neg (by omega), if_pos (by omega), ofNat_of_toNat_eq (x := a) (by omega),
      ofNat_of_toNat_eq (x := b) (by omega)]
  · rw [wellFormed_three, Lead3, Tail] at h
    refine ⟨.ofNat ((a.toNat - 0xE0) * 4096 + (b.toNat - 0x80) * 64 + (c.toNat - 0x80)) (by omega), ?_⟩
    rw [Scalar.toNat_ofNat, codeUnits, if_neg (by omega), if_neg (by omega), if_pos (by omega),
      ofNat_of_toNat_eq (x := a) (by omega), ofNat_of_toNat_eq (x := b) (by omega),
      ofNat_of_toNat_eq (x := c) (by omega)]
  · rw [wellFormed_four, Lead4, Tail, Tail] at h
    refine ⟨.ofNat ((a.toNat - 0xF0) * 262144 + (b.toNat - 0x80) * 4096 + (c.toNat - 0x80) * 64 +
      (d.toNat - 0x80)) (by omega), ?_⟩
    rw [Scalar.toNat_ofNat, codeUnits, if_neg (by omega), if_neg (by omega), if_neg (by omega),
      ofNat_of_toNat_eq (x := a) (by omega), ofNat_of_toNat_eq (x := b) (by omega),
      ofNat_of_toNat_eq (x := c) (by omega), ofNat_of_toNat_eq (x := d) (by omega)]

theorem UTF16.wellFormed_iff {s : List (BitVec 16)} : WellFormed s ↔ ∃ x : Scalar, codeUnits x.value.toNat = s := by
  refine ⟨fun h => ?_, fun ⟨x, hx⟩ => hx ▸ wellFormed_codeUnits x⟩
  rcases wellFormed_cases h with ⟨a, rfl, ha⟩ | ⟨a, b, rfl, ha, hb⟩
  · have hlt := a.isLt
    rw [Leading, Trailing] at ha
    refine ⟨.ofNat a.toNat (by omega), ?_⟩
    rw [Scalar.toNat_ofNat, codeUnits, if_pos hlt, ofNat_of_toNat_eq rfl]
  · rw [Leading] at ha
    rw [Trailing] at hb
    refine ⟨.ofNat (0x10000 + (a.toNat - 0xD800) * 1024 + (b.toNat - 0xDC00)) (by omega), ?_⟩
    rw [Scalar.toNat_ofNat, codeUnits, if_neg (by omega), ofNat_of_toNat_eq (x := a) (by omega),
      ofNat_of_toNat_eq (x := b) (by omega)]

/-! ## Texts -/

namespace Encoding

/-- The code units of a scalar. -/
def codeUnits : (E : Encoding) → Scalar → List E.CodeUnit
  | utf8, x => UTF8.codeUnits x.value.toNat
  | utf16, x => UTF16.codeUnits x.value.toNat
  | utf32, x => [x.value]

def Word (E : Encoding) (s : List E.CodeUnit) : Prop := ∃ x, E.codeUnits x = s

def WellFormed (E : Encoding) (s : List E.CodeUnit) : Prop := ∃ scalars : List Scalar, scalars.flatMap E.codeUnits = s

/-- The text read as scalars; an ill-formed part is read as `none`. -/
inductive Decodes (E : Encoding) : List E.CodeUnit → List (Option Scalar) → Prop where
  | nil : Decodes E [] []
  | scalar {x s l} : Decodes E s l → Decodes E (E.codeUnits x ++ s) (some x :: l)
  | illFormed {p s l} : Segment.Maximal E.Word p s → Decodes E s l → Decodes E (p ++ s) (none :: l)

variable {E : Encoding}

theorem word_utf8 : Word utf8 = UTF8.WellFormed := funext fun _ => propext UTF8.wellFormed_iff.symm

theorem word_utf16 : Word utf16 = UTF16.WellFormed := funext fun _ => propext UTF16.wellFormed_iff.symm

theorem codeUnits_ne_nil (x : Scalar) : E.codeUnits x ≠ [] := by
  cases E with
  | utf8 => exact UTF8.codeUnits_ne_nil _
  | utf16 =>
      show UTF16.codeUnits x.value.toNat ≠ []
      unfold UTF16.codeUnits
      split_ifs <;> exact List.cons_ne_nil _ _
  | utf32 => exact List.cons_ne_nil _ _

theorem word_prefixFree {p q : List E.CodeUnit} (hp : E.Word p) (hq : E.Word q) (h : p <+: q) : p = q := by
  cases E with
  | utf8 =>
      rw [word_utf8] at hp hq
      exact UTF8.code_wellFormed.prefixFree p q hp hq h
  | utf16 =>
      rw [word_utf16] at hp hq
      exact UTF16.code_wellFormed.prefixFree p q hp hq h
  | utf32 =>
      obtain ⟨x, rfl⟩ := hp
      obtain ⟨y, rfl⟩ := hq
      exact h.eq_of_length rfl

theorem wellFormed_append {x : Scalar} {s : List E.CodeUnit} (h : E.WellFormed (E.codeUnits x ++ s)) :
    E.WellFormed s := by
  obtain ⟨scalars, hscalars⟩ := h
  cases scalars with
  | nil => exact absurd (List.append_eq_nil_iff.1 hscalars.symm).1 (codeUnits_ne_nil x)
  | cons y scalars =>
      rw [List.flatMap_cons] at hscalars
      have heq : E.codeUnits y = E.codeUnits x := by
        rcases List.prefix_or_prefix_of_prefix (hscalars ▸ List.prefix_append (E.codeUnits y) _)
          (List.prefix_append (E.codeUnits x) s) with h | h
        · exact word_prefixFree ⟨y, rfl⟩ ⟨x, rfl⟩ h
        · exact (word_prefixFree ⟨x, rfl⟩ ⟨y, rfl⟩ h).symm
      rw [heq] at hscalars
      exact ⟨scalars, List.append_cancel_left hscalars⟩

namespace Decodes

variable {s : List E.CodeUnit} {l : List (Option Scalar)}

theorem length_le (h : E.Decodes s l) : l.length ≤ s.length := by
  induction h with
  | nil => exact le_rfl
  | @scalar x s l _ ih =>
      have hpos := List.length_pos_of_ne_nil (codeUnits_ne_nil (E := E) x)
      rw [List.length_cons, List.length_append]
      omega
  | @illFormed p s l hmax _ ih =>
      have hpos := List.length_pos_of_ne_nil hmax.ne_nil
      rw [List.length_cons, List.length_append]
      omega

theorem wellFormed_iff (h : E.Decodes s l) : E.WellFormed s ↔ none ∉ l := by
  induction h with
  | nil => exact ⟨fun _ => List.not_mem_nil, fun _ => ⟨[], rfl⟩⟩
  | @scalar x s l _ ih =>
      rw [List.mem_cons, or_iff_right (Option.some_ne_none x).symm, ← ih]
      refine ⟨wellFormed_append, ?_⟩
      rintro ⟨scalars, rfl⟩
      exact ⟨x :: scalars, rfl⟩
  | @illFormed p s l hmax _ ih =>
      refine ⟨?_, fun h => absurd List.mem_cons_self h⟩
      rintro ⟨scalars, hscalars⟩
      cases scalars with
      | nil => exact absurd (List.append_eq_nil_iff.1 hscalars.symm).1 hmax.ne_nil
      | cons y scalars =>
          rw [List.flatMap_cons] at hscalars
          exact absurd ⟨y, rfl⟩ (hmax.not_word _ (hscalars ▸ List.prefix_append (E.codeUnits y) _))

end Decodes

/-! ## Parsers -/

/-- What the parser returns, one after another; a valid scalar has the code units of `x`. -/
inductive Parses (E : Encoding) : E.ForwardParser → List E.CodeUnit → List (Option Scalar) → Prop where
  | emptyInput {p i p' i'} : E.parseScalar p i = (.emptyInput, p', i') → Parses E p i []
  | valid {p i s p' i' x l} : E.parseScalar p i = (.valid s, p', i') → E.elements s = E.codeUnits x →
      Parses E p' i' l → Parses E p i (some x :: l)
  | error {p i n p' i' l} : E.parseScalar p i = (.error n, p', i') → Parses E p' i' l → Parses E p i (none :: l)

/-- The parser holds code units that it has not yet read. -/
def Buffers : (E : Encoding) → E.ForwardParser → List E.CodeUnit → Prop
  | utf8, p, s => UIntBuffer.Holds p s ∧ s.length < 4
  | utf16, p, s => UIntBuffer.Holds p s ∧ s.length < 2
  | utf32, _, s => s = []

theorem buffers_forwardParser (E : Encoding) : E.Buffers E.forwardParser [] := by
  cases E with
  | utf8 => exact ⟨UIntBuffer.holds_empty, by decide⟩
  | utf16 => exact ⟨UIntBuffer.holds_empty, by decide⟩
  | utf32 => rfl

/-- A call that reads the first part of the text off: a scalar, or what is ill-formed. -/
structure ReadsFirst (E : Encoding) (call : ParseResult E.EncodedScalar × E.ForwardParser × List E.CodeUnit)
    (text : List E.CodeUnit) (n : Nat) : Prop where
  pos : 0 < n
  buffers : ∃ s, E.Buffers call.2.1 s ∧ s ++ call.2.2 = text.drop n
  result : (∃ s x, call.1 = .valid s ∧ E.elements s = E.codeUnits x ∧ text.take n = E.codeUnits x) ∨
    ∃ k, call.1 = .error k ∧ n ≤ text.length ∧ Segment.Maximal E.Word (text.take n) (text.drop n)

end Encoding

namespace UTFParser

variable {w : Nat} {E : Type} {P : UTFParser w E} {code : List (BitVec w) → Prop} {trailing : BitVec w → Prop}

theorem ReadsOff.result {call : ParseResult E × UIntBuffer w × List (BitVec w)} {text : List (BitVec w)}
    (h : P.ReadsOff call text) (hfirst : First code text (P.next text)) :
    (∃ s, call.1 = .valid s ∧ P.elements s = text.take (P.next text).2 ∧ code (text.take (P.next text).2)) ∨
      ∃ k, call.1 = .error k ∧ (P.next text).2 ≤ text.length ∧
        Segment.Maximal code (text.take (P.next text).2) (text.drop (P.next text).2) := by
  have hsegment := h.1
  revert hsegment hfirst
  generalize P.next text = next
  intro hfirst hsegment
  obtain ⟨result, p, input⟩ := call
  cases hfirst with
  | word hword =>
      cases result with
      | valid s =>
          have helements := Segment.word.inj (Option.some.inj hsegment)
          exact .inl ⟨s, rfl, helements, hword⟩
      | emptyInput => cases hsegment
      | error k => cases hsegment
  | illFormed hle hmax =>
      cases result with
      | valid s => cases hsegment
      | emptyInput => cases hsegment
      | error k => exact .inr ⟨k, rfl, hle, hmax⟩

theorem parseScalar_first (hw : 0 < w) (hw32 : UIntBuffer.capacity w * w = 32) (hcap : 1 < UIntBuffer.capacity w)
    (hP : P.Lawful) (hcode : Code code trailing) (hfirst : ∀ x s, First code (x :: s) (P.next (x :: s)))
    {p : UIntBuffer w} {s i : List (BitVec w)} (h : UIntBuffer.Holds p s) (hlt : s.length < UIntBuffer.capacity w)
    (hne : s ++ i ≠ []) : ∃ n, 0 < n ∧
      (∃ s', (UIntBuffer.Holds (P.parseScalar p i).2.1 s' ∧ s'.length < UIntBuffer.capacity w) ∧
        s' ++ (P.parseScalar p i).2.2 = (s ++ i).drop n) ∧
      ((∃ t, (P.parseScalar p i).1 = .valid t ∧ P.elements t = (s ++ i).take n ∧ code ((s ++ i).take n)) ∨
        ∃ k, (P.parseScalar p i).1 = .error k ∧ n ≤ (s ++ i).length ∧
          Segment.Maximal code ((s ++ i).take n) ((s ++ i).drop n)) := by
  have hreads := parseScalar_readsOff hw hw32 hcap hP h hlt hne
  obtain ⟨x, text, htext⟩ := List.exists_cons_of_ne_nil hne
  have hnext := hfirst x text
  rw [← htext] at hnext
  have hresult := hreads.result hnext
  obtain ⟨-, s', hs', hlt', hrest⟩ := hreads
  exact ⟨(P.next (s ++ i)).2, hnext.pos hcode, ⟨s', ⟨hs', hlt'⟩, hrest⟩, hresult⟩

end UTFParser

namespace UTF32

theorem valid_iff (x : BitVec 32) :
    x >>> 11 ≠ 0b11011 ∧ x ≤ 0x10ffff ↔ x.toNat < 0xD800 ∨ 0xE000 ≤ x.toNat ∧ x.toNat ≤ 0x10FFFF := by
  have hshift : (x >>> 11).toNat = x.toNat / 2048 := toNat_shiftRight x 11
  have hle : x ≤ 0x10ffff ↔ x.toNat ≤ 0x10FFFF := BitVec.le_def
  rw [ne_eq, ← BitVec.toNat_inj, hshift, hle, show (0b11011 : BitVec 32).toNat = 27 from rfl]
  omega

theorem parseScalar_valid {x : BitVec 32} (i : List (BitVec 32)) (hx : x >>> 11 ≠ 0b11011 ∧ x ≤ 0x10ffff) :
    parseScalar (x :: i) = (.valid x, (), i) := by rw [parseScalar, if_pos hx]

theorem parseScalar_error {x : BitVec 32} (i : List (BitVec 32)) (hx : ¬ (x >>> 11 ≠ 0b11011 ∧ x ≤ 0x10ffff)) :
    parseScalar (x :: i) = (.error 1, (), i) := by rw [parseScalar, if_neg hx]

end UTF32

namespace Encoding

variable {E : Encoding} {p : E.ForwardParser} {s i : List E.CodeUnit}

theorem parseScalar_nil (h : E.Buffers p []) : (E.parseScalar p []).1 = .emptyInput := by
  have hnil : ∀ {w F} {P : UTFParser w F} {r : ParseResult F}, P.segment r = none → r = .emptyInput := by
    intro w F P r hr
    cases r with
    | emptyInput => rfl
    | valid s => cases hr
    | error n => cases hr
  cases E with
  | utf8 => exact hnil (UTFParser.parseScalar_nil (by decide) h.1)
  | utf16 => exact hnil (UTFParser.parseScalar_nil (by decide) h.1)
  | utf32 => rfl

theorem maximal_utf32 {x : BitVec 32} (i : List (BitVec 32)) (hx : ¬ (x >>> 11 ≠ 0b11011 ∧ x ≤ 0x10ffff)) :
    Segment.Maximal (Word utf32) [x] i where
  ne_nil := List.cons_ne_nil x []
  not_word := by
    rintro q hq ⟨y, rfl⟩
    obtain ⟨rfl, -⟩ := List.cons_prefix_cons.1 hq
    exact hx ((UTF32.valid_iff y.value).2 y.valid)
  initial := .inr rfl
  longest := by
    rintro q - ⟨t, y, hy⟩
    have hlength : 1 = (q ++ t).length := congrArg List.length hy
    rw [List.length_append] at hlength
    show q.length ≤ 1
    omega

theorem parseScalar_readsFirst (h : E.Buffers p s) (hne : s ++ i ≠ []) :
    ∃ n, E.ReadsFirst (E.parseScalar p i) (s ++ i) n := by
  cases E with
  | utf8 =>
      obtain ⟨n, hpos, hrest, hresult⟩ := UTFParser.parseScalar_first (by decide) rfl (by decide)
        UTF8.forwardParser_lawful UTF8.code_wellFormed UTF8.forwardParser_first h.1 h.2 hne
      rw [← word_utf8] at hresult
      exact ⟨n, hpos, hrest, hresult.imp_left fun ⟨t, ht, helements, x, hx⟩ => ⟨t, x, ht, helements.trans hx.symm, hx.symm⟩⟩
  | utf16 =>
      obtain ⟨n, hpos, hrest, hresult⟩ := UTFParser.parseScalar_first (by decide) rfl (by decide)
        UTF16.forwardParser_lawful UTF16.code_wellFormed UTF16.forwardParser_first h.1 h.2 hne
      rw [← word_utf16] at hresult
      exact ⟨n, hpos, hrest, hresult.imp_left fun ⟨t, ht, helements, x, hx⟩ => ⟨t, x, ht, helements.trans hx.symm, hx.symm⟩⟩
  | utf32 =>
      obtain rfl : s = [] := h
      cases i with
      | nil => exact absurd rfl hne
      | cons x i =>
          by_cases hx : x >>> 11 ≠ (0b11011 : BitVec 32) ∧ x ≤ (0x10ffff : BitVec 32)
          · have hcall : parseScalar utf32 p (x :: i) = (.valid x, (), i) := UTF32.parseScalar_valid i hx
            refine ⟨1, one_pos, ⟨[], rfl, ?_⟩, .inl ⟨x, ⟨x, (UTF32.valid_iff x).1 hx⟩, ?_, rfl, rfl⟩⟩
            · rw [hcall]
              rfl
            · rw [hcall]
          · have hcall : parseScalar utf32 p (x :: i) = (.error 1, (), i) := UTF32.parseScalar_error i hx
            refine ⟨1, one_pos, ⟨[], rfl, ?_⟩, .inr ⟨1, ?_, ?_, maximal_utf32 i hx⟩⟩
            · rw [hcall]
              rfl
            · rw [hcall]
            · exact Nat.succ_le_succ (Nat.zero_le _)

theorem exists_decodes (h : E.Buffers p s) : ∃ l, E.Parses p i l ∧ E.Decodes (s ++ i) l := by
  generalize hlength : (s ++ i).length = length
  induction length using Nat.strong_induction_on generalizing p s i with
  | _ length ih =>
    by_cases hne : s ++ i = []
    · obtain ⟨rfl, rfl⟩ := List.append_eq_nil_iff.1 hne
      exact ⟨[], .emptyInput (Prod.ext (parseScalar_nil h) rfl), .nil⟩
    obtain ⟨n, hpos, ⟨s', hs', hrest⟩, hresult⟩ := parseScalar_readsFirst h hne
    have hshort : (s' ++ (E.parseScalar p i).2.2).length < length := by
      have := List.length_pos_of_ne_nil hne
      rw [hrest, List.length_drop]
      omega
    obtain ⟨l, hparses, hdecodes⟩ := ih _ hshort hs' rfl
    rw [hrest] at hdecodes
    rcases hresult with ⟨t, x, ht, helements, htake⟩ | ⟨k, hk, -, hmax⟩
    · refine ⟨some x :: l, .valid (Prod.ext ht rfl) helements hparses, ?_⟩
      rw [← List.take_append_drop n (s ++ i), htake]
      exact .scalar hdecodes
    · refine ⟨none :: l, .error (Prod.ext hk rfl) hparses, ?_⟩
      rw [← List.take_append_drop n (s ++ i)]
      exact .illFormed hmax hdecodes

end Encoding

end SwiftKStdlib.Unicode
