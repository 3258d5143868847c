import SwiftKStdlib.Lexer.Escapes
import SwiftKStdlib.Lexer.Lexer

/-!
# The diagnostics of a string literal

* `Diagnostic` : what is diagnosed, without the locations and the fix-its;
* `characterDiagnostics` : what `lexCharacter` diagnoses;
* `validationDiagnostics` : what `validateMultilineIndents` diagnoses;
* `lexStringLiteralDiagnosed` : the literal with what is diagnosed about it, when there is a diagnostic engine.
-/

namespace SwiftKStdlib.Parse

open Lib

inductive Diagnostic where
  | lexNulCharacter | lexUnprintableAsciiCharacter | lexInvalidUtf8 | lexSingleQuoteString | lexUnterminatedString
  | lexInvalidEscape | lexInvalidUEscape | lexInvalidUEscapeRbrace | lexInvalidUnicodeScalar | lexUnicodeEscapeBraces
  | lexIllegalMultilineStringStart | lexIllegalMultilineStringEnd | lexMultilineStringIndentInconsistent
  | lexMultilineStringIndentShouldMatchHere | lexMultilineStringIndentChangeLine | lexEscapedNewlineAtLastline
  deriving DecidableEq

def isPrintable (c : UInt8) : Bool := 0x20 ≤ c && c < 0x7F

namespace Buffer

variable (b : Buffer)

/-! ## Characters -/

/-- From the opening brace on; the value 0xFFFFFFFE is taken for an escape that was diagnosed before. -/
def unicodeEscapeDiagnostics (p : Nat) : Option (List Diagnostic) := do
  match ← b.lexUnicodeEscape p with
  | (some value, _) =>
    return if value = 0xFFFFFFFE then []
      else if 0x80 ≤ value ∧ encodeToUTF8Fails value then [.lexInvalidUnicodeScalar] else []
  | (none, _) =>
    let digitsEnd ← b.scanWhile isHexDigit (p + 1)
    return if (← b.read digitsEnd) ≠ byte '}' then [.lexInvalidUEscapeRbrace] else [.lexInvalidUEscape]

/-- From the character after the backslash on. -/
def escapeDiagnostics (multilineString : Bool) (p : Nat) : Option (List Diagnostic) := do
  let c ← b.read p
  let invalid : List Diagnostic := [.lexInvalidEscape]
  if isIndent c ∨ isNewline c then
    if multilineString then return if (← b.maybeConsumeNewlineEscape p).isSome then [] else invalid
    else return invalid
  else if (simpleEscape c).isSome then return []
  else if c = byte 'u' then
    if (← b.read (p + 1)) ≠ byte '{' then return [.lexUnicodeEscapeBraces]
    else b.unicodeEscapeDiagnostics (p + 1)
  else return invalid

/-- What `lexCharacter` diagnoses at the position. -/
def characterDiagnostics (multilineString : Bool) (p : Nat) : Option (List Diagnostic) := do
  let c ← b.read p
  if isQuote c then return []
  else if c = 0 then return if p = b.size then [.lexUnterminatedString] else [.lexNulCharacter]
  else if isNewline c then return if multilineString then [] else [.lexUnterminatedString]
  else if c = byte '\\' then b.escapeDiagnostics multilineString (p + 1)
  else if c < 0x80 then
    return if !isPrintable c ∧ !(multilineString ∧ c = byte '\t') then [.lexUnprintableAsciiCharacter] else []
  else
    match b.validateUTF8CharacterAndAdvance p with
    | (some _, _) => return []
    | (none, _) => return [.lexInvalidUtf8]

/-- What the scan of an interpolation diagnoses: the end of the text. -/
def interpolationDiagnostics (multilineString : Bool) (p : Nat) : Option (List Diagnostic) :=
  (iterateReporting b.interpolationStep (fun s => do
    return if (← b.read s.curPtr) = 0 ∧ s.curPtr = b.size then [.lexUnterminatedString] else [])
    b.fuel ⟨p, [], [multilineString]⟩).map Prod.snd

/-! ## Multi-line literals -/

/-- What `getMultilineTrailingIndent` diagnoses about the content. -/
def trailingIndentDiagnostics (start stop : Nat) : Option (List Diagnostic) := do
  match ← b.trailingIndentStart start stop with
  | some p => return if ← b.escapedNewlineAtLastLine start p then [.lexEscapedNewlineAtLastline] else []
  | none => return if (b.text start stop).all isIndent then [] else [.lexIllegalMultilineStringEnd]

end Buffer

/-- The diagnostics about a run of lines with the same first mistake. -/
def runDiagnostics (expectedIndent : List UInt8) (run : IndentRun) : List Diagnostic :=
  match run.mistakeOffset with
  | none => []
  | some mistakeOffset =>
    if expectedIndent.length ≤ mistakeOffset then []
    else [.lexMultilineStringIndentInconsistent, .lexMultilineStringIndentShouldMatchHere,
      .lexMultilineStringIndentChangeLine]

/-- The run that ends where the line at `nextpos` begins another one. -/
def lineDiagnostics (indent bytes : List UInt8) (run : IndentRun) (nextpos : Nat) :
    List Diagnostic :=
  let restOfBytes := bytes.drop nextpos
  if restOfBytes.head?.any isNewline then []
  else if run.mistakeOffset ≠ some (commonPrefixLength indent restOfBytes) then runDiagnostics indent run
  else []

/-- The diagnostics about the lines, and about the last run. -/
def linesDiagnostics (indent bytes : List UInt8) : IndentRun → List Nat → Option (List Diagnostic)
  | run, [] => some (runDiagnostics indent run)
  | run, nextpos :: rest => do
    let next ← indentLine indent bytes run nextpos
    return lineDiagnostics indent bytes run nextpos ++
      (← linesDiagnostics indent bytes next rest)

namespace Lexer

variable (L : Lexer)

/-- What `validateMultilineIndents` diagnoses about the literal from `tokStart` to `p`. -/
def validationDiagnostics (tokStart p : Nat) : Option (List Diagnostic) := do
  let start := tokStart + 3
  let stop := p - 3
  let trailing ← L.buffer.trailingIndentDiagnostics start stop
  match ← L.buffer.trailingIndentStart start stop with
  | none => return trailing
  | some indentStart =>
    let indent := L.buffer.text indentStart stop
    if indent = [] then return trailing
    else
      let bytes := L.buffer.text start stop
      return trailing ++ (← linesDiagnostics indent bytes ⟨none, [], []⟩ (lineStartsOf bytes))

/-! ## Literals -/

/-- What is diagnosed at a quote that may end the literal. -/
def quoteDiagnostics (tokStart : Nat) (multilineString wasErroneous : Bool) (p : Nat) : Option (List Diagnostic) := do
  if wasErroneous then return []
  else
    let single : List Diagnostic :=
      if (← L.buffer.read tokStart) = byte '\'' then [.lexSingleQuoteString] else []
    if multilineString then
      if ← L.closesMultiline p then return single ++ (← L.validationDiagnostics tokStart (p + 3)) else return single
    else return single

/-- What an iteration of the loop of `lexStringLiteral` diagnoses. -/
def stepDiagnostics (tokStart : Nat) (multilineString : Bool) (s : Nat × Bool) : Option (List Diagnostic) := do
  let p := s.1
  if ← L.buffer.looksAt p '\\' '(' then L.buffer.interpolationDiagnostics multilineString (p + 2)
  else if isNewline (← L.buffer.read p) ∧ !multilineString ∨ p = L.buffer.size then
    return [.lexUnterminatedString]
  else
    let diagnostics ← L.buffer.characterDiagnostics multilineString p
    match ← L.buffer.lexCharacter (← L.buffer.read tokStart) multilineString p with
    | (.endOfString, q) => return diagnostics ++ (← L.quoteDiagnostics tokStart multilineString s.2 q)
    | (.char _, _) => return diagnostics
    | (.error, _) => return diagnostics

/-- The literal at `tokStart`, and what is diagnosed when there is an engine to report to. -/
def lexStringLiteralDiagnosed (tokStart : Nat) : Option (Scanned × List Diagnostic) := do
  let multilineString := (← L.buffer.read tokStart) = byte '"' && (← L.buffer.looksAt (tokStart + 1) '"' '"')
  let start := if multilineString then tokStart + 3 else tokStart + 1
  let opening : List Diagnostic :=
    if multilineString ∧ !isNewline (← L.buffer.read start) then [.lexIllegalMultilineStringStart] else []
  let (t, diagnostics) ← iterateReporting (L.stringLiteralStep tokStart multilineString)
    (L.stepDiagnostics tokStart multilineString) L.buffer.fuel (start, false)
  return (t, opening ++ diagnostics)

theorem lexStringLiteral_of_diagnosed {tokStart : Nat} {t : Scanned} {diagnostics : List Diagnostic}
    (h : L.lexStringLiteralDiagnosed tokStart = some (t, diagnostics)) : L.lexStringLiteral tokStart = some t := by
  obtain ⟨c, hread, h⟩ := Option.bind_eq_some_iff.1 h
  obtain ⟨two, hlook, h⟩ := Option.bind_eq_some_iff.1 h
  simp only [lexStringLiteral, hread, hlook, Option.bind_eq_bind, Option.bind_some]
  dsimp only at h
  obtain ⟨first, -, h⟩ := Option.bind_eq_some_iff.1 h
  obtain ⟨⟨t', diagnostics'⟩, hloop, h⟩ := Option.bind_eq_some_iff.1 h
  obtain ⟨rfl, -⟩ := Prod.mk.inj (Option.some.inj h)
  exact iterate_of_reporting hloop

end Lexer

end SwiftKStdlib.Parse
