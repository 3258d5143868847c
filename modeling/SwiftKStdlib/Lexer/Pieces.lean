import SwiftKStdlib.Lexer.Partition

/-!
# The content of a string literal

* `Piece`, `nextPiece`, `pieces` : literal text as raw bytes, decoded escapes and line breaks;
* `linesContent`, `content` : what the text stands for, by its lines;
* `Spells` : the pieces of a text, one after the other;
* `LiteralText.spells` : the literal text of the lexer has pieces.
-/

namespace SwiftKStdlib.Parse

open Lib Unicode

/-! ## Pieces -/

inductive Piece where
  | raw (c : UInt8)
  | decoded (bytes : List UInt8)
  /-- A CR, LF or CR LF, perhaps behind a backslash and blanks. -/
  | lineBreak (escaped : Bool)
  deriving DecidableEq

/-- The text behind a line break that begins with `c`. -/
def afterLineBreak (c : UInt8) (rest : List UInt8) : List UInt8 :=
  if c = byte '\r' ∧ rest.head? = some (byte '\n') then rest.tail else rest

def utf8 (value : Nat) : List UInt8 := (UTF8.codeUnits value).map UInt8.ofBitVec

def hexNumber (digits : List UInt8) : Nat := digits.foldl (fun value c => value * 16 + hexValue c) 0

/-- Behind the `u` of an escape. -/
def unicodePiece (rest : List UInt8) : Option (Piece × List UInt8) :=
  let digits := rest.tail.takeWhile isHexDigit
  if rest.head? = some (byte '{') ∧ (rest.tail.dropWhile isHexDigit).head? = some (byte '}') ∧ 1 ≤ digits.length ∧
      digits.length ≤ 8 ∧ encodeToUTF8Fails (hexNumber digits) = false then
    some (.decoded (utf8 (hexNumber digits)), (rest.tail.dropWhile isHexDigit).tail)
  else none

/-- Behind a backslash. -/
def escapePiece : List UInt8 → Option (Piece × List UInt8)
  | [] => none
  | d :: rest =>
    match simpleEscape d with
    | some v => some (.decoded [UInt8.ofNat v], rest)
    | none =>
      if d = byte 'u' then unicodePiece rest
      else
        match (d :: rest).dropWhile isIndent with
        | [] => none
        | c :: rest => if isNewline c then some (.lineBreak true, afterLineBreak c rest) else none

/-- The piece that the text begins with, and the text behind it. -/
def nextPiece : List UInt8 → Option (Piece × List UInt8)
  | [] => none
  | c :: rest =>
    if isNewline c then some (.lineBreak false, afterLineBreak c rest)
    else if c = byte '\\' then escapePiece rest
    else some (.raw c, rest)

/-- So many pieces at most. -/
def piecesFrom : Nat → List UInt8 → Option (List Piece)
  | _, [] => some []
  | 0, _ :: _ => none
  | n + 1, c :: rest => do
    let (piece, rest) ← nextPiece (c :: rest)
    return piece :: (← piecesFrom n rest)

def pieces (bytes : List UInt8) : Option (List Piece) := piecesFrom bytes.length bytes

/-! ## Lines -/

/-- A line behind its line break. -/
structure TextLine where
  escaped : Bool
  text : List Piece
  deriving DecidableEq

/-- The text before the first line break, and the lines. -/
def splitLines : List Piece → List Piece × List TextLine
  | [] => ([], [])
  | .lineBreak escaped :: rest => ([], ⟨escaped, (splitLines rest).1⟩ :: (splitLines rest).2)
  | piece :: rest => (piece :: (splitLines rest).1, (splitLines rest).2)

/-- What a piece stands for. -/
def Piece.bytes : Piece → List UInt8
  | .raw c => [c]
  | .decoded bytes => bytes
  | .lineBreak _ => []

def stripIndent (indent : List UInt8) (text : List Piece) : Option (List Piece) :=
  if indent.map Piece.raw <+: text then some (text.drop indent.length) else none

/-- The line without the indentation; an empty line, which a line break follows, has none. -/
def lineContent (indent : List UInt8) (line : TextLine) (rest : List TextLine) : Option (List Piece) :=
  if line.text = [] ∧ rest.head?.any (fun next => !next.escaped) then some [] else stripIndent indent line.text

/-- LF for a line break, but nothing for an escaped one and for the last one of the last segment. -/
def lineBreakContent (isLastSegment escaped : Bool) (rest : List TextLine) : List UInt8 :=
  if escaped || isLastSegment && rest.isEmpty then [] else [byte '\n']

def linesContent (indent : List UInt8) (isLastSegment : Bool) : List TextLine → Option (List UInt8)
  | [] => some []
  | line :: rest => do
    let text ← lineContent indent line rest
    let behind ← linesContent indent isLastSegment rest
    return lineBreakContent isLastSegment line.escaped rest ++ (text.flatMap Piece.bytes ++ behind)

def content (indent : List UInt8) (isLastSegment : Bool) (text : List Piece) : Option (List UInt8) :=
  (linesContent indent isLastSegment (splitLines text).2).map ((splitLines text).1.flatMap Piece.bytes ++ ·)

def dropFirstLineBreak : List Piece → List Piece
  | .lineBreak _ :: rest => .lineBreak true :: rest
  | text => text

def segmentContent (indent : List UInt8) (isFirstSegment isLastSegment : Bool) (bytes : List UInt8) : Option (List UInt8) := do
  let text ← pieces bytes
  content indent isLastSegment (if isFirstSegment then dropFirstLineBreak text else text)

/-! ## The pieces of a text -/

/-- How a piece is written in front of the text behind it. -/
inductive Next : Piece → List UInt8 → List UInt8 → Prop
  | raw {c : UInt8} {rest : List UInt8} (hnewline : isNewline c = false) (hslash : c ≠ byte '\\') :
      Next (.raw c) (c :: rest) rest
  | lineBreak {c : UInt8} {rest : List UInt8} (hnewline : isNewline c) :
      Next (.lineBreak false) (c :: rest) (afterLineBreak c rest)
  | simple {d : UInt8} {v : Nat} {rest : List UInt8} (h : simpleEscape d = some v) :
      Next (.decoded [UInt8.ofNat v]) (byte '\\' :: d :: rest) rest
  | unicode {digits rest : List UInt8} (hdigits : ∀ c ∈ digits, isHexDigit c) (h1 : 1 ≤ digits.length)
      (h8 : digits.length ≤ 8) (hvalue : encodeToUTF8Fails (hexNumber digits) = false) :
      Next (.decoded (utf8 (hexNumber digits))) (byte '\\' :: byte 'u' :: byte '{' :: (digits ++ byte '}' :: rest)) rest
  | escapedBreak {blanks rest : List UInt8} {c : UInt8} (hblanks : ∀ d ∈ blanks, isIndent d) (hnewline : isNewline c) :
      Next (.lineBreak true) (byte '\\' :: (blanks ++ c :: rest)) (afterLineBreak c rest)

inductive Spells : List Piece → List UInt8 → Prop
  | nil : Spells [] []
  | cons {piece : Piece} {text : List Piece} {bytes rest : List UInt8} (h : Next piece bytes rest)
      (hrest : Spells text rest) : Spells (piece :: text) bytes

theorem span_append (rest : List UInt8) {pred : UInt8 → Bool} {x : List UInt8} {c : UInt8} (hx : ∀ d ∈ x, pred d) (hc : pred c = false) :
    (x ++ c :: rest).takeWhile pred = x ∧ (x ++ c :: rest).dropWhile pred = c :: rest := by
  constructor
  · rw [List.takeWhile_append_of_pos hx, List.takeWhile_cons_of_neg (by rw [hc]; exact Bool.false_ne_true), List.append_nil]
  · rw [List.dropWhile_append_of_pos hx, List.dropWhile_cons_of_neg (by rw [hc]; exact Bool.false_ne_true)]

theorem Next.eq {piece : Piece} {bytes rest : List UInt8} (h : Next piece bytes rest) :
    nextPiece bytes = some (piece, rest) := by
  have hslash : isNewline (byte '\\') = false := by decide
  have hblank : ∀ c : UInt8, isIndent c || isNewline c → simpleEscape c = none ∧ c ≠ byte 'u' :=
    forall_byte (by decide +kernel)
  have hnotIndent : ∀ c : UInt8, isNewline c → isIndent c = false := forall_byte (by decide +kernel)
  cases h with
  | raw hnewline hne => rw [nextPiece, hnewline, if_neg Bool.false_ne_true, if_neg hne]
  | lineBreak hnewline => rw [nextPiece, if_pos hnewline]
  | simple h =>
      rw [nextPiece, hslash, if_neg Bool.false_ne_true, if_pos rfl, escapePiece, h]
  | @unicode digits _ hdigits h1 h8 hvalue =>
      obtain ⟨htake, hdrop⟩ := span_append rest hdigits (show isHexDigit (byte '}') = false by decide)
      have hu : simpleEscape (byte 'u') = none := by decide
      rw [nextPiece, hslash, if_neg Bool.false_ne_true, if_pos rfl, escapePiece, hu]
      dsimp only
      rw [if_pos rfl, unicodePiece, List.tail_cons, htake, hdrop, if_pos ⟨rfl, rfl, h1, h8, hvalue⟩]
      rfl
  | @escapedBreak blanks rest c hblanks hnewline =>
      obtain ⟨-, hdrop⟩ := span_append rest hblanks (hnotIndent c hnewline)
      rw [nextPiece, hslash, if_neg Bool.false_ne_true, if_pos rfl]
      cases blanks with
      | nil =>
          obtain ⟨hsimple, hu⟩ := hblank c (by rw [hnewline, Bool.or_true])
          rw [List.nil_append] at hdrop ⊢
          rw [escapePiece, hsimple]
          dsimp only
          rw [if_neg hu, hdrop]
          dsimp only
          rw [if_pos hnewline]
      | cons d blanks =>
          obtain ⟨hsimple, hu⟩ := hblank d (by rw [hblanks d List.mem_cons_self, Bool.true_or])
          rw [List.cons_append] at hdrop ⊢
          rw [escapePiece, hsimple]
          dsimp only
          rw [if_neg hu, hdrop]
          dsimp only
          rw [if_pos hnewline]

theorem length_afterLineBreak (c : UInt8) (rest : List UInt8) : (afterLineBreak c rest).length ≤ rest.length := by
  rw [afterLineBreak]
  split_ifs
  · rw [List.length_tail]
    exact Nat.sub_le _ _
  · exact le_rfl

theorem Next.length_lt {piece : Piece} {bytes rest : List UInt8} (h : Next piece bytes rest) : rest.length < bytes.length := by
  cases h with
  | raw => exact Nat.lt_succ_self _
  | lineBreak => exact Nat.lt_succ_of_le (length_afterLineBreak _ _)
  | simple =>
      simp only [List.length_cons]
      omega
  | unicode =>
      simp only [List.length_cons, List.length_append]
      omega
  | @escapedBreak blanks rest c =>
      have hlen := length_afterLineBreak c rest
      simp only [List.length_cons, List.length_append]
      omega

theorem Spells.pieces_eq {text : List Piece} {bytes : List UInt8} (h : Spells text bytes) : pieces bytes = some text := by
  suffices hfrom : ∀ n, bytes.length ≤ n → piecesFrom n bytes = some text from hfrom _ le_rfl
  induction h with
  | nil =>
      intro n _
      cases n <;> rfl
  | @cons piece text bytes rest h _ ih =>
      intro n hn
      have hlt := h.length_lt
      cases bytes with
      | nil => exact absurd hlt (Nat.not_lt_zero _)
      | cons c bytes =>
          cases n with
          | zero => exact absurd hn (by simp)
          | succ n =>
              simp only [List.length_cons] at hlt hn
              simp only [piecesFrom, h.eq, Option.bind_eq_bind, Option.bind_some, ih n (by omega), Option.pure_def]

theorem Spells.raws {text : List Piece} {bytes front : List UInt8} (h : Spells text bytes)
    (hfront : ∀ c ∈ front, isNewline c = false ∧ c ≠ byte '\\') : Spells (front.map .raw ++ text) (front ++ bytes) := by
  induction front with
  | nil => exact h
  | cons c front ih =>
      obtain ⟨hnewline, hslash⟩ := hfront c List.mem_cons_self
      exact .cons (.raw hnewline hslash) (ih fun d hd => hfront d (List.mem_cons_of_mem c hd))

/-! ## Literal text has pieces -/

theorem utf8_eq {value : Nat} (h : encodeToUTF8Fails value = false) :
    utf8 value = if value < 0x80 then [UInt8.ofNat value] else (encodeToUTF8 value).2 := by
  split_ifs with hvalue
  · rw [utf8, UTF8.codeUnits, if_pos hvalue]
    rfl
  · rw [utf8, ← Buffer.encodeToUTF8_codeUnits (by omega) (by rw [encodeToUTF8_fst, h]), List.map_map]
    exact List.map_id _

namespace Buffer

variable {b : Buffer} {p q m stop : Nat} {quote : UInt8} {multi : Bool}

theorem AllBytes.mem {pred : UInt8 → Bool} (h : b.AllBytes pred p q) (hq : q ≤ b.size) : ∀ c ∈ b.text p q, pred c := by
  intro c hc
  obtain ⟨k, hk, hk', rfl⟩ := mem_text hc hq
  exact h k hk hk'

def lineBreakEnd (b : Buffer) (p : Nat) : Nat :=
  if b.byteAt p = byte '\r' ∧ b.byteAt (p + 1) = byte '\n' then p + 2 else p + 1

theorem lt_lineBreakEnd (b : Buffer) (p : Nat) : p < b.lineBreakEnd p := by
  rw [lineBreakEnd]
  split_ifs <;> omega

theorem isNewline_lineBreakEnd (h : isNewline (b.byteAt p)) : isNewline (b.byteAt (b.lineBreakEnd p - 1)) := by
  rw [lineBreakEnd]
  split_ifs with hbreak
  · rw [show p + 2 - 1 = p + 1 by omega, hbreak.2]
    decide
  · exact h

theorem lineBreakEnd_last (b : Buffer) (p : Nat) : b.lineBreakEnd (b.lineBreakEnd p - 1) = b.lineBreakEnd p := by
  have hne : byte '\n' ≠ byte '\r' := by decide
  by_cases hbreak : b.byteAt p = byte '\r' ∧ b.byteAt (p + 1) = byte '\n'
  · have hend : b.lineBreakEnd p = p + 2 := if_pos hbreak
    rw [hend, lineBreakEnd, show p + 2 - 1 = p + 1 by omega, if_neg fun h => hne (hbreak.2.symm.trans h.1)]
  · have hend : b.lineBreakEnd p = p + 1 := if_neg hbreak
    rw [hend, Nat.add_sub_cancel, hend]

theorem NewlineEscape.end_eq {r : Nat} (h : NewlineEscape b p r q) : q = b.lineBreakEnd r := by
  have hne : byte '\n' ≠ byte '\r' := by decide
  rw [lineBreakEnd]
  rcases h.lineBreak with ⟨hbyte, rfl⟩ | ⟨hbyte, rfl⟩
  · simp [hbyte]
  · simp [hbyte, hne]

theorem lineBreakEnd_le (hp : p < stop) (hend : isNewline (b.byteAt stop) = false) : b.lineBreakEnd p ≤ stop := by
  rw [lineBreakEnd]
  split_ifs with hbreak
  · rcases (show p + 1 ≤ stop from hp).eq_or_lt with rfl | hlt
    · rw [hbreak.2] at hend
      exact absurd hend (by decide)
    · exact hlt
  · exact hp

theorem afterLineBreak_text (hp : p < stop) (hstop : stop ≤ b.size) (hend : isNewline (b.byteAt stop) = false) :
    afterLineBreak (b.byteAt p) (b.text (p + 1) stop) = b.text (b.lineBreakEnd p) stop := by
  rcases (show p + 1 ≤ stop from hp).eq_or_lt with rfl | hlt
  · have hle := lineBreakEnd_le hp hend
    have hge := b.lt_lineBreakEnd p
    rw [show b.lineBreakEnd p = p + 1 by omega, text_self]
    simp [afterLineBreak]
  · rw [afterLineBreak, lineBreakEnd, text_cons hlt hstop]
    simp only [List.head?_cons, List.tail_cons, Option.some.injEq]
    split_ifs
    · rfl
    · rw [text_cons hlt hstop]

theorem LexedChar.spells {v : Nat} {text : List Piece} (h : b.LexedChar multi p v q) (hp : p < b.size)
    (hq : q ≤ stop) (hstop : stop ≤ b.size) (hend : isNewline (b.byteAt stop) = false)
    (hnewline : isNewline (b.byteAt p) = false) (hrest : Spells text (b.text q stop)) :
    ∃ text, Spells text (b.text p stop) := by
  have hbounds := h.bounds hp
  cases h with
  | ascii hc hslash hallow =>
      rw [text_cons (show p < stop by omega) hstop]
      exact ⟨_, .cons (.raw hnewline hslash) hrest⟩
  | high hc h =>
      have hhigh : ∀ c : UInt8, 0x80 ≤ c → isNewline c = false ∧ c ≠ byte '\\' := forall_byte (by decide +kernel)
      rw [text_append hbounds.1.le hq]
      refine ⟨_, hrest.raws fun c hc' => hhigh c ?_⟩
      obtain ⟨k, hk, hk', rfl⟩ := mem_text hc' (by omega)
      rcases hk.eq_or_lt with rfl | hk
      · exact hc
      · exact UInt8.le_iff_toNat_le.2 (validate_tail hp (UInt8.le_iff_toNat_le.1 hc) h hk hk').1
  | simple hslash h =>
      rw [text_cons (show p < stop by omega) hstop, text_cons (show p + 1 < stop by omega) hstop, hslash]
      exact ⟨_, .cons (.simple h) hrest⟩
  | newline hslash hm h =>
      obtain ⟨r, hr, hescape⟩ := maybeConsumeNewlineEscape_some hp h
      have hle := hescape.le
      obtain ⟨hlt, hbreak⟩ := hescape.newlines
      rw [hescape.end_eq, ← afterLineBreak_text (show r < stop by omega) hstop hend] at hrest
      rw [text_cons (show p < stop by omega) hstop, text_append (show p + 1 ≤ r from hle) (show r ≤ stop by omega),
        text_cons (show r < stop by omega) hstop, hslash]
      exact ⟨_, .cons (.escapedBreak (hescape.blanks.mem (by omega)) (hbreak r le_rfl hlt)) hrest⟩
  | unicode hslash hu hbrace h hv =>
      have hsize : p + 2 ≤ b.size := lt_size_of_eq (show p + 1 ≤ b.size from hp) hu (by decide)
      obtain ⟨r, h1, h9, hr, -, hall, hclose, rfl, rfl⟩ := lexUnicodeEscape_some hsize h
      have hvalue : encodeToUTF8Fails (hexNumber (b.text (p + 2 + 1) r)) = false := by
        rcases lt_or_ge (hexNumber (b.text (p + 2 + 1) r)) 0x80 with hlow | hhigh
        · rw [encodeToUTF8Fails, if_pos (by omega)]
        · exact hv hhigh
      rw [text_cons (show p < stop by omega) hstop, text_cons (show p + 1 < stop by omega) hstop,
        text_cons (show p + 1 + 1 < stop by omega) hstop, text_append (show p + 1 + 1 + 1 ≤ r by omega) (show r ≤ stop by omega),
        text_cons (show r < stop by omega) hstop, hslash, hu, hbrace, hclose]
      have hlen : (b.text (p + 1 + 1 + 1) r).length = r - (p + 3) := length_text (by omega)
      exact ⟨_, .cons (.unicode (hall.mem (by omega)) (by omega) (by omega) hvalue) hrest⟩

theorem LexedChar.newline_end {v : Nat} (h : b.LexedChar multi p v q) (hnewline : isNewline (b.byteAt p)) : q = p + 1 := by
  have hclass : ∀ c : UInt8, isNewline c → c < 0x80 ∧ c ≠ byte '\\' := forall_byte (by decide +kernel)
  obtain ⟨hlow, hne⟩ := hclass _ hnewline
  cases h with
  | ascii => rfl
  | high hc => exact absurd hlow (UInt8.not_lt.2 hc)
  | simple hslash => exact absurd hslash hne
  | newline hslash => exact absurd hslash hne
  | unicode hslash => exact absurd hslash hne

theorem LiteralText.spells (h : b.LiteralText quote multi p stop) (hstop : stop ≤ b.size)
    (hend : isNewline (b.byteAt stop) = false) : ∃ text, Spells text (b.text p stop) := by
  induction hn : stop - p using Nat.strong_induction_on generalizing p with
  | _ n ih =>
    have hbefore : ∀ {m}, p < m → m ≤ stop → b.LiteralText quote multi m stop → ∃ text, Spells text (b.text m stop) :=
      fun hlt hle h => ih (stop - _) (by omega) h rfl
    cases h with
    | nil => exact ⟨[], text_self ▸ .nil⟩
    | @char _ m _ v hp h _ rest =>
        have hbounds := h.bounds hp
        have hrest := rest.le
        by_cases hnewline : isNewline (b.byteAt p) = true
        · obtain rfl := h.newline_end hnewline
          have hbehind : b.LiteralText quote multi (b.lineBreakEnd p) stop := by
            rw [lineBreakEnd]
            split_ifs with hbreak
            · have hlf : isNewline (b.byteAt (p + 1)) = true := by
                rw [hbreak.2]
                decide
              cases rest with
              | nil => exact absurd (hend.symm.trans hlf) Bool.false_ne_true
              | char hp' h' _ rest' =>
                  obtain rfl := h'.newline_end hlf
                  exact rest'
            · exact rest
          obtain ⟨text, htext⟩ := hbefore (b.lt_lineBreakEnd p) (lineBreakEnd_le (by omega) hend) hbehind
          rw [← afterLineBreak_text (by omega) hstop hend] at htext
          rw [text_cons (show p < stop by omega) hstop]
          exact ⟨_, .cons (.lineBreak hnewline) htext⟩
        · obtain ⟨text, htext⟩ := hbefore hbounds.1 hrest rest
          exact h.spells hp hrest hstop hend (Bool.eq_false_iff.2 hnewline) htext

end Buffer

end SwiftKStdlib.Parse
