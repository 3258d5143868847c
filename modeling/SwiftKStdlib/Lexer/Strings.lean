import SwiftKStdlib.Lexer.Scanners

/-!
# String literals

* `lexCharacter` : a character, the end of the literal, or an error;
* `skipToEndOfInterpolatedExpression` : the bracket and quote matching of an interpolation;
* `validateMultilineIndents` : the indentation of a multi-line literal;
* `lexStringLiteral`, `findEndOfCurlyQuoteStringLiteral`.
-/

namespace SwiftKStdlib.Parse

open Lib

/-- What `lexCharacter` returns: a code point, `~0U`, or `~1U`. -/
inductive Lexed where
  | char (c : Nat)
  | endOfString
  | error
  deriving DecidableEq

def hexValue (c : UInt8) : Nat :=
  if isDigit c then c.toNat - '0'.toNat
  else if byte 'a' ≤ c then c.toNat - 'a'.toNat + 10 else c.toNat - 'A'.toNat + 10

namespace Buffer

variable (b : Buffer)

/-! ## Characters -/

/-- From the opening brace on. -/
def lexUnicodeEscape (p : Nat) : Option (Option Nat × Nat) := do
  guard ((← b.read p) = byte '{')
  let q ← b.scanWhile isHexDigit (p + 1)
  let numDigits := q - (p + 1)
  if (← b.read q) ≠ byte '}' then return (none, q)
  else if numDigits < 1 ∨ 8 < numDigits then return (none, q + 1)
  else return (some ((b.text (p + 1) q).foldl (fun value c => value * 16 + hexValue c) 0), q + 1)

/-- The position after the line, if only whitespace is left of it. -/
def maybeConsumeNewlineEscape (p : Nat) : Option (Option Nat) := do
  let q ← b.scanWhile (fun c => c = byte ' ' || c = byte '\t') p
  let c ← b.read q
  if c = byte '\r' then return some (if (← b.read (q + 1)) = byte '\n' then q + 2 else q + 1)
  else if c = byte '\n' then return some (q + 1)
  else return none

/-- From the character after the backslash on. -/
def lexEscape (multilineString : Bool) (p : Nat) : Option (Lexed × Nat) := do
  let c ← b.read p
  let invalid : Lexed × Nat := (.error, if isAlphanumeric c then p + 1 else p)
  if c = byte ' ' ∨ c = byte '\t' ∨ isNewline c then
    if multilineString then
      match ← b.maybeConsumeNewlineEscape p with
      | some q => return (.char '\n'.toNat, q)
      | none => return invalid
    else return invalid
  else if c = byte '0' then return (.char 0, p + 1)
  else if c = byte 'n' then return (.char '\n'.toNat, p + 1)
  else if c = byte 'r' then return (.char '\r'.toNat, p + 1)
  else if c = byte 't' then return (.char '\t'.toNat, p + 1)
  else if c = byte '"' ∨ c = byte '\'' ∨ c = byte '\\' then return (.char c.toNat, p + 1)
  else if c = byte 'u' then
    if (← b.read (p + 1)) ≠ byte '{' then return (.error, p + 1)
    else
      match ← b.lexUnicodeEscape (p + 1) with
      | (none, q) => return (.error, q)
      | (some value, q) => return (if 0x80 ≤ value ∧ encodeToUTF8Fails value then .error else .char value, q)
  else return invalid

def lexCharacter (stopQuote : UInt8) (multilineString : Bool) (p : Nat) : Option (Lexed × Nat) := do
  let c ← b.read p
  if c = byte '"' ∨ c = byte '\'' then
    return if c = stopQuote then (.endOfString, p) else (.char c.toNat, p + 1)
  else if c = 0 then return if p = b.size then (.error, p) else (.char 0, p + 1)
  else if isNewline c then return if multilineString then (.char c.toNat, p + 1) else (.error, p + 1)
  else if c = byte '\\' then b.lexEscape multilineString (p + 1)
  else if c < 0x80 then return (.char c.toNat, p + 1)
  else
    match b.validateUTF8CharacterAndAdvance p with
    | (some value, q) => return (.char value, q)
    | (none, q) => return (.error, q)

/-! ## Interpolations -/

def isQuote (c : UInt8) : Bool := c = byte '"' || c = byte '\''

def inStringLiteral (openDelimiters : List UInt8) : Bool := openDelimiters.head?.any isQuote

/-- The cursor and the two stacks, their last elements first. -/
structure Interpolation where
  curPtr : Nat
  openDelimiters : List UInt8
  allowNewline : List Bool

def interpolationQuote (s : Interpolation) (c : UInt8) : Option Interpolation := do
  let p := s.curPtr
  let allow ← s.allowNewline.head?
  if !allow ∧ inStringLiteral s.openDelimiters then
    -- A single line literal is closed by its own quote.
    if s.openDelimiters.head? = some c then
      return ⟨p + 1, s.openDelimiters.tail, s.allowNewline.tail⟩
    else return { s with curPtr := p + 1 }
  else
    let isMultilineQuote := (← b.looksAt (p + 1) '"' '"') && c = byte '"'
    let q := if isMultilineQuote then p + 3 else p + 1
    if !inStringLiteral s.openDelimiters then
      return ⟨q, (← b.readBack q) :: s.openDelimiters, isMultilineQuote :: s.allowNewline⟩
    else
      guard allow
      if isMultilineQuote then return ⟨q, s.openDelimiters.tail, s.allowNewline.tail⟩
      else return { s with curPtr := q }

def interpolationStep (s : Interpolation) : Option (Step Interpolation Nat) := do
  let p := s.curPtr
  let c ← b.read p
  if isNewline c then
    return if ← s.allowNewline.head? then .next { s with curPtr := p + 1 } else .done p
  else if isQuote c then return .next (← b.interpolationQuote s c)
  else if c = byte '\\' then
    if inStringLiteral s.openDelimiters then
      let d ← b.read (p + 1)
      if d = byte '(' then return .next { s with curPtr := p + 2, openDelimiters := byte '(' :: s.openDelimiters }
      else if isNewline d then
        return if ← s.allowNewline.head? then .next { s with curPtr := p + 2 } else .done (p + 1)
      else if d = 0 then return .done (p + 1)
      else return .next { s with curPtr := p + 2 }
    else return .next { s with curPtr := p + 1 }
  else if c = 0 then return if p = b.size then .done p else .next { s with curPtr := p + 1 }
  else if c = byte '(' then
    return .next { s with
      curPtr := p + 1
      openDelimiters :=
        if inStringLiteral s.openDelimiters then s.openDelimiters else byte '(' :: s.openDelimiters }
  else if c = byte ')' then
    match s.openDelimiters with
    | [] => return .done p
    | d :: rest =>
      if d = byte '(' then return .next { s with curPtr := p + 1, openDelimiters := rest }
      else
        guard (inStringLiteral s.openDelimiters)
        return .next { s with curPtr := p + 1 }
  else return .next { s with curPtr := p + 1 }

def skipToEndOfInterpolatedExpression (multilineString : Bool) (p : Nat) : Option Nat :=
  iterate b.interpolationStep b.fuel ⟨p, [], [multilineString]⟩

end Buffer

/-! ## Quotes -/

/-- The body of a single-quoted literal between double quotes; none where `str.at` is out of range. -/
def requote : List UInt8 → Option (List UInt8)
  | [] => some []
  | [c] => if c = byte '\\' then none else some (if c = byte '"' then [byte '\\', c] else [c])
  | c :: d :: rest =>
    if c = byte '\\' then
      (requote rest).map fun str => if d = byte '\'' then d :: str else c :: d :: str
    else (requote (d :: rest)).map fun str => if c = byte '"' then byte '\\' :: c :: str else c :: str

/-! ## Multi-line literals -/

def commonPrefixLength : List UInt8 → List UInt8 → Nat
  | c :: shorter, d :: longer => if c = d then commonPrefixLength shorter longer + 1 else 0
  | _, _ => 0

def isIndent (c : UInt8) : Bool := c = byte ' ' || c = byte '\t'

namespace Buffer

variable (b : Buffer)

/-- Where the whitespace that the last line consists of begins. -/
def trailingIndentStart (start stop : Nat) : Option (Option Nat) :=
  iterate (fun p =>
    if p ≤ start then some (.done none)
    else do
      let c ← b.readBack p
      if isIndent c then return .next (p - 1)
      else return .done (if isNewline c then some p else none)) b.fuel stop

/-- Whether the line break before the last line, which begins at `p`, is escaped. -/
def escapedNewlineAtLastLine (start p : Nat) : Option Bool := do
  let p := if (← b.readBack p) = byte '\n' then p - 1 else p
  let p := if (← b.readBack p) = byte '\r' then p - 1 else p
  let p ← iterate (fun p => do
    if start + 1 < p ∧ isIndent (← b.readBack p) then return Step.next (p - 1)
    else return .done p) b.fuel p
  if (← b.readBack p) = byte '\\' then
    iterate (fun (p, invalid) => do
      if (← b.readBack p) = byte '\\' then return Step.next (p - 1, !invalid)
      else return .done invalid) b.fuel (p - 1, true)
  else return false

end Buffer

/-- Consecutive lines with their first error at the same offset. -/
structure IndentRun where
  /-- None before the first line. -/
  mistakeOffset : Option Nat
  lineStarts : List Nat
  commonIndentation : List UInt8

/-- The assertions about a run of lines with a mistake. -/
def diagnoseInvalidMultilineIndents (expectedIndent bytes : List UInt8) (run : IndentRun) : Option Unit :=
  match run.mistakeOffset with
  | none => some ()
  | some mistakeOffset =>
    if expectedIndent.length ≤ mistakeOffset then some ()
    else do
      let line ← run.lineStarts.head?
      let _ ← bytes[line + mistakeOffset]?
      let _ ← expectedIndent[mistakeOffset]?
      guard (mistakeOffset ≤ run.commonIndentation.length)
      guard (expectedIndent.take mistakeOffset = run.commonIndentation.take mistakeOffset)

/-- The line that begins at `nextpos` joins the run, or begins a new one. -/
def indentLine (indent bytes : List UInt8) (run : IndentRun) (nextpos : Nat) : Option IndentRun := do
  let restOfBytes := bytes.drop nextpos
  -- Blank lines are ignored.
  if isNewline (← restOfBytes.head?) then return run
  else
    let errorOffset := commonPrefixLength indent restOfBytes
    if run.mistakeOffset ≠ some errorOffset then
      diagnoseInvalidMultilineIndents indent bytes run
      return ⟨some errorOffset, [nextpos], restOfBytes.takeWhile isIndent⟩
    else
      return ⟨run.mistakeOffset, run.lineStarts ++ [nextpos],
        run.commonIndentation.take (commonPrefixLength run.commonIndentation restOfBytes)⟩

def lineStartsOf (bytes : List UInt8) : List Nat :=
  ((List.range bytes.length).filter fun pos => bytes[pos]? = some (byte '\n')).map (· + 1)

namespace Lexer

variable (L : Lexer)

/-- The literal from `tokStart` to `p`, when there is a diagnostic engine. -/
def validateMultilineIndents (tokStart p : Nat) : Option Unit := do
  guard (tokStart + 6 ≤ p)
  let start := tokStart + 3
  let stop := p - 3
  match ← L.buffer.trailingIndentStart start stop with
  | none => return ()
  | some indentStart =>
    let _ ← L.buffer.escapedNewlineAtLastLine start indentStart
    let indent := L.buffer.text indentStart stop
    if indent = [] then return ()
    else
      let bytes := L.buffer.text start stop
      diagnoseInvalidMultilineIndents indent bytes
        (← (lineStartsOf bytes).foldlM (indentLine indent bytes) ⟨none, [], []⟩)

/-! ## Literals -/

/-- The quote at `p` is the first of three, and no fourth one follows. -/
def closesMultiline (p : Nat) : Option Bool := do
  if ← L.buffer.looksAt (p + 1) '"' '"' then return (← L.buffer.read (p + 3)) ≠ byte '"' else return false

/-- The literal ends at the quote at `p`, unless it is a multi-line literal that goes on. -/
def stringLiteralEnd (tokStart : Nat) (multilineString : Bool) (p : Nat) : Option (Step (Nat × Bool) Scanned) := do
  if multilineString then
    if ← L.closesMultiline p then
      if L.diags then L.validateMultilineIndents tokStart (p + 3)
      return .done ⟨.stringLiteral, p + 3, false, true⟩
    else return .next (p + 1, false)
  else return .done (.plain .stringLiteral (p + 1))

/-- The cursor is at the quote that may end the literal; what was read before may be erroneous. -/
def stringLiteralQuote (tokStart : Nat) (multilineString wasErroneous : Bool) (p : Nat) :
    Option (Step (Nat × Bool) Scanned) := do
  if wasErroneous then return .done (.plain .unknown (p + 1))
  else
    -- Single quotes are only for the diagnostic about them.
    if (← L.buffer.read tokStart) = byte '\'' then
      let _ ← requote (L.buffer.text (tokStart + 1) p)
    L.stringLiteralEnd tokStart multilineString p

def stringLiteralStep (tokStart : Nat) (multilineString : Bool) (s : Nat × Bool) :
    Option (Step (Nat × Bool) Scanned) := do
  let p := s.1
  if ← L.buffer.looksAt p '\\' '(' then
    let endPtr ← L.buffer.skipToEndOfInterpolatedExpression multilineString (p + 2)
    if (← L.buffer.read endPtr) = byte ')' then return .next (endPtr + 1, s.2)
    else return .next (endPtr, true)
  else if isNewline (← L.buffer.read p) ∧ !multilineString ∨ p = L.buffer.size then
    return .done (.plain .unknown p)
  else
    match ← L.buffer.lexCharacter (← L.buffer.read tokStart) multilineString p with
    | (.char _, q) => return .next (q, s.2)
    | (.error, q) => return .next (q, true)
    | (.endOfString, q) => L.stringLiteralQuote tokStart multilineString s.2 q

def lexStringLiteral (tokStart : Nat) : Option Scanned := do
  let multilineString := (← L.buffer.read tokStart) = byte '"' && (← L.buffer.looksAt (tokStart + 1) '"' '"')
  iterate (L.stringLiteralStep tokStart multilineString) L.buffer.fuel
    (if multilineString then tokStart + 3 else tokStart + 1, false)

/-- The end of what looks like a literal that begins with a curly quote, with a straight or a curly quote. -/
def findEndOfCurlyQuoteStringLiteral (body : Nat) : Option (Option Nat) :=
  iterate (fun p => do
    if ← L.buffer.looksAt p '\\' '(' then return .done none
    else if isNewline (← L.buffer.read p) ∨ p = L.buffer.size then return .done none
    else
      match ← L.buffer.lexCharacter 0 false p with
      | (.error, _) => return .done none
      | (.char c, q) => return if c = '"'.toNat ∨ c = 0x201D then .done (some q) else .next q
      | (.endOfString, q) => return .next q) L.buffer.fuel body

end Lexer

end SwiftKStdlib.Parse
