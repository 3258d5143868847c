import SwiftKStdlib.Lib.Loop

/-!
# Tokens and the buffer

* `Tok`, `Token` : a token's text is a range of the buffer;
* `TriviaPiece`, `appendOrSquash`, `printTrivia` : what stands between tokens;
* `byte` and the character classes of the C locale that the lexer asks for;
* `kindOfIdentifier` and the other tables of words;
* `Buffer.read` : reading a byte fails past the terminator, `Buffer.readBack` before the buffer;
* `scanWhile` : the loops that stop at a byte;
* `validateUTF8CharacterAndAdvance`, `advanceIf`, `advanceWhile` : code points;
* the code points of identifiers and operators.

Positions count from `BufferStart`, so `size` is `BufferEnd`.
-/

namespace SwiftKStdlib.Parse

/-- The kinds of `TokenKinds.def`. -/
inductive Tok where
  | kwAssociatedtype | kwClass | kwDeinit | kwEnum | kwExtension | kwFunc | kwImport | kwInit | kwInout | kwLet
  | kwOperator | kwPrecedencegroup | kwProtocol | kwStruct | kwSubscript | kwTypealias | kwVar | kwFileprivate
  | kwInternal | kwPrivate | kwPublic | kwStatic | kwDefer | kwIf | kwGuard | kwDo | kwRepeat | kwElse | kwFor | kwIn
  | kwWhile | kwReturn | kwBreak | kwContinue | kwFallthrough | kwSwitch | kwCase | kwDefault | kwWhere | kwCatch
  | kwAs | kwAny | kwFalse | kwIs | kwNil | kwRethrows | kwSuper | kwSelf | kwCapitalSelf | kwThrow | kwTrue | kwTry
  | kwThrows | kwFile | kwLine | kwColumn | kwFunction | kwDsoHandle | kwUnderscore
  | kwUndef | kwSil | kwSilStage | kwSilVtable | kwSilGlobal | kwSilWitnessTable | kwSilDefaultWitnessTable
  | kwSilCoverageMap | kwSilScope
  | lParen | rParen | lBrace | rBrace | lSquare | rSquare | lAngle | rAngle | period | periodPrefix | comma | colon
  | semi | equal | atSign | pound | ampPrefix | arrow | backtick | backslash | exclaimPostfix | questionPostfix
  | questionInfix | silDollar | silExclamation | lSquareLit | rSquareLit
  | poundIf | poundElse | poundElseif | poundEndif | poundKeyPath | poundLine | poundSourceLocation | poundSelector
  | poundAvailable | poundFileLiteral | poundImageLiteral | poundColorLiteral | poundOldFileReference | poundOldImage
  | poundOldColor | poundFile | poundColumn | poundFunction | poundDsohandle
  | integerLiteral | floatingLiteral | stringLiteral | unknown | eof | codeComplete | identifier | operBinaryUnspaced
  | operBinarySpaced | operPostfix | operPrefix | dollarident | silLocalName | comment | stringInterpolationAnchor
  | contextualKeyword | stringQuote | multilineStringQuote | stringSegment
  /-- `NUM_TOKENS`, the kind of the token that is not lexed yet. -/
  | numTokens
  deriving DecidableEq

/-- `text` is the range of the buffer from its first to its second component. -/
structure Token where
  kind : Tok
  atStartOfLine : Bool
  /-- 27 bits. -/
  commentLength : Nat
  escapedIdentifier : Bool
  multilineString : Bool
  text : Nat × Nat
  deriving DecidableEq

namespace Token

def init : Token := ⟨.numTokens, false, 0, false, false, (0, 0)⟩

def setToken (token : Token) (kind : Tok) (text : Nat × Nat) (commentLength : Nat) (multilineString : Bool) : Token :=
  { token with
    kind := kind
    text := text
    commentLength := commentLength % 2 ^ 27
    escapedIdentifier := false
    multilineString := multilineString }

def setAtStartOfLine (token : Token) (value : Bool) : Token := { token with atStartOfLine := value }

/-- Where `getText` starts and ends: without the backticks of an escaped identifier. -/
def textRange (token : Token) : Nat × Nat :=
  if token.escapedIdentifier then (token.text.1 + 1, token.text.2 - 1) else token.text

end Token

/-! ## Bytes -/

def byte (c : Char) : UInt8 := UInt8.ofNat c.toNat

def isDigit (c : UInt8) : Bool := byte '0' ≤ c && c ≤ byte '9'

def isHexDigit (c : UInt8) : Bool :=
  isDigit c || byte 'a' ≤ c && c ≤ byte 'f' || byte 'A' ≤ c && c ≤ byte 'F'

def isLetter (c : UInt8) : Bool := byte 'a' ≤ c && c ≤ byte 'z' || byte 'A' ≤ c && c ≤ byte 'Z'

def isAlphanumeric (c : UInt8) : Bool := isLetter c || isDigit c

def isIdentifierHead (c : UInt8) (dollar : Bool) : Bool := isLetter c || c = byte '_' || dollar && c = byte '$'

def isIdentifierBody (c : UInt8) (dollar : Bool) : Bool := isIdentifierHead c dollar || isDigit c

theorem forall_byte {P : UInt8 → Prop} (h : ∀ n : Fin 256, P (UInt8.ofNat n)) (c : UInt8) : P c := by
  simpa using h ⟨c.toNat, c.toNat_lt⟩

/-! ## Trivia -/

inductive TriviaKind where
  | space | tab | verticalTab | formfeed | newline | carriageReturn | carriageReturnLineFeed
  | lineComment | blockComment | docLineComment | docBlockComment | garbageText | backtick
  deriving DecidableEq

/-- Either `count` or `text` matters, as the kind has it. -/
structure TriviaPiece where
  kind : TriviaKind
  count : Nat
  text : List UInt8
  deriving DecidableEq

namespace TriviaPiece

def counted (kind : TriviaKind) : TriviaPiece := ⟨kind, 1, []⟩

def ofText (kind : TriviaKind) (text : List UInt8) : TriviaPiece := ⟨kind, 1, text⟩

/-- What a piece of this kind repeats; none for the kinds that keep their text. -/
def repeated : TriviaKind → Option (List UInt8)
  | .space => some [byte ' ']
  | .tab => some [byte '\t']
  | .verticalTab => some [0x0B]
  | .formfeed => some [0x0C]
  | .newline => some [byte '\n']
  | .carriageReturn => some [byte '\r']
  | .carriageReturnLineFeed => some [byte '\r', byte '\n']
  | .backtick => some [byte '\x60']
  | .lineComment | .blockComment | .docLineComment | .docBlockComment | .garbageText => none

def print (piece : TriviaPiece) : List UInt8 :=
  match repeated piece.kind with
  | some unit => (List.replicate piece.count unit).flatten
  | none => piece.text

/-- Compose the piece and the next one, if their kind is counted and is not the backtick. -/
def trySquash (piece next : TriviaPiece) : Option TriviaPiece :=
  if piece.kind = next.kind ∧ (repeated piece.kind).isSome ∧ piece.kind ≠ .backtick then
    some { piece with count := piece.count + next.count }
  else none

end TriviaPiece

def appendOrSquash (pieces : List TriviaPiece) (next : TriviaPiece) : List TriviaPiece :=
  match pieces.getLast? with
  | none => [next]
  | some last =>
    match last.trySquash next with
    | some squashed => pieces.dropLast ++ [squashed]
    | none => pieces ++ [next]

def printTrivia (pieces : List TriviaPiece) : List UInt8 := pieces.flatMap TriviaPiece.print

/-! ## Words -/

def keywords : List (String × Tok) :=
  [("associatedtype", .kwAssociatedtype), ("class", .kwClass), ("deinit", .kwDeinit), ("enum", .kwEnum),
   ("extension", .kwExtension), ("func", .kwFunc), ("import", .kwImport), ("init", .kwInit), ("inout", .kwInout),
   ("let", .kwLet), ("operator", .kwOperator), ("precedencegroup", .kwPrecedencegroup), ("protocol", .kwProtocol),
   ("struct", .kwStruct), ("subscript", .kwSubscript), ("typealias", .kwTypealias), ("var", .kwVar),
   ("fileprivate", .kwFileprivate), ("internal", .kwInternal), ("private", .kwPrivate), ("public", .kwPublic),
   ("static", .kwStatic), ("defer", .kwDefer), ("if", .kwIf), ("guard", .kwGuard), ("do", .kwDo),
   ("repeat", .kwRepeat), ("else", .kwElse), ("for", .kwFor), ("in", .kwIn), ("while", .kwWhile),
   ("return", .kwReturn), ("break", .kwBreak), ("continue", .kwContinue), ("fallthrough", .kwFallthrough),
   ("switch", .kwSwitch), ("case", .kwCase), ("default", .kwDefault), ("where", .kwWhere), ("catch", .kwCatch),
   ("as", .kwAs), ("Any", .kwAny), ("false", .kwFalse), ("is", .kwIs), ("nil", .kwNil), ("rethrows", .kwRethrows),
   ("super", .kwSuper), ("self", .kwSelf), ("Self", .kwCapitalSelf), ("throw", .kwThrow), ("true", .kwTrue),
   ("try", .kwTry), ("throws", .kwThrows), ("__FILE__", .kwFile), ("__LINE__", .kwLine), ("__COLUMN__", .kwColumn),
   ("__FUNCTION__", .kwFunction), ("__DSO_HANDLE__", .kwDsoHandle), ("_", .kwUnderscore)]

def silKeywords : List (String × Tok) :=
  [("undef", .kwUndef), ("sil", .kwSil), ("sil_stage", .kwSilStage), ("sil_vtable", .kwSilVtable),
   ("sil_global", .kwSilGlobal), ("sil_witness_table", .kwSilWitnessTable),
   ("sil_default_witness_table", .kwSilDefaultWitnessTable), ("sil_coverage_map", .kwSilCoverageMap),
   ("sil_scope", .kwSilScope)]

def poundKeywords : List (String × Tok) :=
  [("if", .poundIf), ("else", .poundElse), ("elseif", .poundElseif), ("endif", .poundEndif),
   ("keyPath", .poundKeyPath), ("line", .poundLine), ("sourceLocation", .poundSourceLocation),
   ("selector", .poundSelector), ("available", .poundAvailable), ("fileLiteral", .poundFileLiteral),
   ("imageLiteral", .poundImageLiteral), ("colorLiteral", .poundColorLiteral),
   ("FileReference", .poundOldFileReference), ("Image", .poundOldImage), ("Color", .poundOldColor),
   ("file", .poundFile), ("column", .poundColumn), ("function", .poundFunction), ("dsohandle", .poundDsohandle)]

def kindOfWord (table : List (String × Tok)) (text : List UInt8) : Option Tok :=
  (table.find? fun entry => entry.1.toList.map byte = text).map Prod.snd

def kindOfIdentifier (text : List UInt8) (inSILMode : Bool) : Tok :=
  (kindOfWord (if inSILMode then keywords ++ silKeywords else keywords) text).getD .identifier

end SwiftKStdlib.Parse

namespace SwiftKStdlib.Parse

open Lib

structure Buffer where
  bytes : List UInt8
  deriving DecidableEq

namespace Buffer

variable (b : Buffer)

def size : Nat := b.bytes.length

def byteAt (p : Nat) : UInt8 := b.bytes.getD p 0

/-- `*Ptr`. -/
def read (p : Nat) : Option UInt8 := if p ≤ b.size then some (b.byteAt p) else none

/-- `Ptr[-1]`. -/
def readBack (p : Nat) : Option UInt8 := if p = 0 then none else b.read (p - 1)

/-- `StringRef(Ptr, BufferEnd - Ptr)`. -/
def rest (p : Nat) : Option (List UInt8) := if p ≤ b.size then some (b.bytes.drop p) else none

def text (p q : Nat) : List UInt8 := (b.bytes.drop p).take (q - p)

def fuel : Nat := b.size + 2

/-- `while (pred(*Ptr)) ++Ptr;` -/
def scanWhile (pred : UInt8 → Bool) (p : Nat) : Option Nat :=
  iterate (fun p => do
    let c ← b.read p
    return if pred c then .next (p + 1) else .done p) b.fuel p

/-- `*Ptr == c && Ptr[1] == d`; the second byte is read when the first one is there. -/
def looksAt (p : Nat) (c d : Char) : Option Bool := do
  if (← b.read p) = byte c then return (← b.read (p + 1)) = byte d else return false

end Buffer

/-! ## UTF-8 -/

def clo8 (c : UInt8) : Nat :=
  if c < 0x80 then 0 else if c < 0xC0 then 1 else if c < 0xE0 then 2 else if c < 0xF0 then 3
  else if c < 0xF8 then 4 else if c < 0xFC then 5 else if c < 0xFE then 6 else if c < 0xFF then 7 else 8

def isStartOfUTF8Character (c : UInt8) : Bool := c ≤ 0x80 || 0xC2 ≤ c && c < 0xF5

/-- Whether `EncodeToUTF8` finds the code point erroneous. -/
def encodeToUTF8Fails (value : Nat) : Bool :=
  if value < 2 ^ (5 + 6) then false
  else if value < 2 ^ (4 + 6 + 6) then
    0xD800 ≤ value && value ≤ 0xDFFF || 0xFDD0 ≤ value && value ≤ 0xFDEF
  else if value < 2 ^ (3 + 6 + 6 + 6) then 0x10FFFF < value
  else true

namespace Buffer

variable (b : Buffer)

/-- So many continuation bytes; every read is below `BufferEnd`. -/
def continuationBytes : Nat → Nat → Nat → Option Nat × Nat
  | 0, value, p => (some value, p)
  | n + 1, value, p =>
    if b.size ≤ p then (none, p)
    else
      let c := b.byteAt p
      if c < 0x80 ∨ 0xC0 ≤ c then (none, p)
      else continuationBytes n (value * 2 ^ 6 + c.toNat % 2 ^ 6) (p + 1)

/-- The code point at `p`, none if the encoding is invalid, and where the next character begins. -/
def validateUTF8CharacterAndAdvance (p : Nat) : Option Nat × Nat :=
  if b.size ≤ p then (none, p)
  else
    let c := b.byteAt p
    let encodedBytes := clo8 c
    if c < 0x80 then (some c.toNat, p + 1)
    else if encodedBytes = 1 ∨ !isStartOfUTF8Character c then
      (none, p + 1 + ((b.bytes.drop (p + 1)).takeWhile fun c => !isStartOfUTF8Character c).length)
    else
      match b.continuationBytes (encodedBytes - 1) (c.toNat * 2 ^ encodedBytes % 2 ^ 8 / 2 ^ encodedBytes) (p + 1) with
      | (none, q) => (none, q)
      | (some value, q) =>
        if 0xD800 ≤ value ∧ value ≤ 0xDFFF then (none, q)
        else if value < 2 ^ (5 + 6) then (if encodedBytes = 2 then some value else none, q)
        else if value < 2 ^ (4 + 6 + 6) then (if encodedBytes = 3 then some value else none, q)
        else (if encodedBytes = 4 then some value else none, q)

/-- Where the character at `p` ends, if it is one with the predicate. -/
def advanceIf (predicate : Nat → Bool) (p : Nat) : Option Nat :=
  match b.validateUTF8CharacterAndAdvance p with
  | (some c, next) => if predicate c then some next else none
  | (none, _) => none

/-- `while (advanceIf(Ptr, BufferEnd, predicate));` -/
def advanceWhile (predicate : Nat → Bool) (p : Nat) : Option Nat :=
  iterate (fun p => some <|
    match b.advanceIf predicate p with
    | some next => .next next
    | none => .done p) b.fuel p

end Buffer

/-! ## Identifiers and operators -/

def inRanges (ranges : List (Nat × Nat)) (c : Nat) : Bool := ranges.any fun r => r.1 ≤ c && c ≤ r.2

def isValidIdentifierContinuationCodePoint (c : Nat) : Bool :=
  if c < 0x80 then isIdentifierBody (UInt8.ofNat c) true
  else inRanges
    [(0x00A8, 0x00A8), (0x00AA, 0x00AA), (0x00AD, 0x00AD), (0x00AF, 0x00AF), (0x00B2, 0x00B5), (0x00B7, 0x00BA),
     (0x00BC, 0x00BE), (0x00C0, 0x00D6), (0x00D8, 0x00F6), (0x00F8, 0x00FF), (0x0100, 0x167F), (0x1681, 0x180D),
     (0x180F, 0x1FFF), (0x200B, 0x200D), (0x202A, 0x202E), (0x203F, 0x2040), (0x2054, 0x2054), (0x2060, 0x206F),
     (0x2070, 0x218F), (0x2460, 0x24FF), (0x2776, 0x2793), (0x2C00, 0x2DFF), (0x2E80, 0x2FFF), (0x3004, 0x3007),
     (0x3021, 0x302F), (0x3031, 0x303F), (0x3040, 0xD7FF), (0xF900, 0xFD3D), (0xFD40, 0xFDCF), (0xFDF0, 0xFE44),
     (0xFE47, 0xFFF8), (0x10000, 0x1FFFD), (0x20000, 0x2FFFD), (0x30000, 0x3FFFD), (0x40000, 0x4FFFD),
     (0x50000, 0x5FFFD), (0x60000, 0x6FFFD), (0x70000, 0x7FFFD), (0x80000, 0x8FFFD), (0x90000, 0x9FFFD),
     (0xA0000, 0xAFFFD), (0xB0000, 0xBFFFD), (0xC0000, 0xCFFFD), (0xD0000, 0xDFFFD), (0xE0000, 0xEFFFD)] c

def isValidIdentifierStartCodePoint (c : Nat) : Bool :=
  isValidIdentifierContinuationCodePoint c &&
    !(c < 0x80 && (isDigit (UInt8.ofNat c) || UInt8.ofNat c = byte '$')) &&
    !inRanges [(0x0300, 0x036F), (0x1DC0, 0x1DFF), (0x20D0, 0x20FF), (0xFE20, 0xFE2F)] c

def isOperatorStartCodePoint (c : Nat) : Bool :=
  if c < 0x80 then "/=-+*%<>!&|^~.?".toList.any fun d => d.toNat = c
  else inRanges
    [(0x00A1, 0x00A7), (0x00A9, 0x00A9), (0x00AB, 0x00AB), (0x00AC, 0x00AC), (0x00AE, 0x00AE), (0x00B0, 0x00B0),
     (0x00B1, 0x00B1), (0x00B6, 0x00B6), (0x00BB, 0x00BB), (0x00BF, 0x00BF), (0x00D7, 0x00D7), (0x00F7, 0x00F7),
     (0x2016, 0x2016), (0x2017, 0x2017), (0x2020, 0x2027), (0x2030, 0x203E), (0x2041, 0x2053), (0x2055, 0x205E),
     (0x2190, 0x23FF), (0x2500, 0x2775), (0x2794, 0x2BFF), (0x2E00, 0x2E7F), (0x3001, 0x3003), (0x3008, 0x3030)] c

def isOperatorContinuationCodePoint (c : Nat) : Bool :=
  isOperatorStartCodePoint c ||
    inRanges [(0x0300, 0x036F), (0x1DC0, 0x1DFF), (0x20D0, 0x20FF), (0xFE00, 0xFE0F), (0xFE20, 0xFE2F),
      (0xE0100, 0xE01EF)] c

end SwiftKStdlib.Parse
