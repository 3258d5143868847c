import SwiftKStdlib.Lexer.Escapes
import SwiftKStdlib.Lexer.Lexer

/-!
# The segments of a string literal

* `skipToEndOfInterpolatedExpressionTo` : the scan of an interpolation up to another end than the buffer's;
* `getStringLiteralSegments` : the literal text and the expressions of a token;
* `getMultilineTrailingIndent` : the indentation of the last line;
* `getEncodedStringSegment` : the bytes that a segment of literal text stands for.

A length is a natural number: the text of a buffer has fewer than 2 ^ 32 bytes, as its `CharSourceRange` has an
`unsigned` length.
-/

namespace SwiftKStdlib.Parse

open Lib

namespace Buffer

variable (b : Buffer)

/-- Only the byte 0 looks at the end pointer. -/
def interpolationStepTo (endPtr : Nat) (s : Interpolation) : Option (Step Interpolation Nat) := do
  let p := s.curPtr
  if (← b.read p) = 0 then return if p = endPtr then .done p else .next { s with curPtr := p + 1 }
  else b.interpolationStep s

def skipToEndOfInterpolatedExpressionTo (endPtr : Nat) (multilineString : Bool) (p : Nat) : Option Nat :=
  iterate (b.interpolationStepTo endPtr) b.fuel ⟨p, [], [multilineString]⟩

end Buffer

/-! ## Segments -/

inductive SegmentKind where
  | literal
  | expr
  deriving DecidableEq

structure StringSegment where
  kind : SegmentKind
  loc : Nat
  length : Nat
  indentToStrip : Nat
  isFirstSegment : Bool
  isLastSegment : Bool
  deriving DecidableEq

namespace StringSegment

def getLiteral (loc length : Nat) (isFirstSegment isLastSegment : Bool) (indentToStrip : Nat) : StringSegment :=
  ⟨.literal, loc, length, indentToStrip, isFirstSegment, isLastSegment⟩

def getExpr (loc length : Nat) : StringSegment := ⟨.expr, loc, length, 0, false, false⟩

end StringSegment

/-- Where the content of the token starts and ends, inside its quotes. -/
def getStringLiteralContent (str : Token) : Option (Nat × Nat) := do
  let (start, stop) := str.textRange
  let quotes := if str.multilineString then 3 else 1
  guard (start + quotes + quotes ≤ stop)
  return (start + quotes, stop - quotes)

namespace Buffer

variable (b : Buffer)

/-- The indentation of the last line; empty if other than whitespace stands there. -/
def getMultilineTrailingIndent (str : Token) : Option (List UInt8) := do
  let (start, stop) ← getStringLiteralContent str
  match ← b.trailingIndentStart start stop with
  | some p => return b.text p stop
  | none => return []

/-- The cursor, the start of the segment it is in, and the segments before. -/
structure Segmenting where
  bytesPtr : Nat
  segmentStartPtr : Nat
  isFirstSegment : Bool
  segments : List StringSegment

/-- `stop` is the end of the content, `endPtr` the one of the token. -/
def segmentStep (multilineString : Bool) (indentToStrip stop endPtr : Nat) (s : Segmenting) :
    Option (Step Segmenting (List StringSegment)) := do
  if s.bytesPtr = stop then
    return .done (s.segments ++ [.getLiteral s.segmentStartPtr (stop - s.segmentStartPtr) s.isFirstSegment true indentToStrip])
  else if (← b.read s.bytesPtr) ≠ byte '\\' then return .next { s with bytesPtr := s.bytesPtr + 1 }
  else if (← b.read (s.bytesPtr + 1)) ≠ byte '(' then return .next { s with bytesPtr := s.bytesPtr + 2 }
  else
    let bytesPtr := s.bytesPtr + 2
    let literal := StringSegment.getLiteral s.segmentStartPtr (bytesPtr - s.segmentStartPtr - 2) s.isFirstSegment false
      indentToStrip
    let endOfExpression ← b.skipToEndOfInterpolatedExpressionTo endPtr multilineString bytesPtr
    guard ((← b.read endOfExpression) = byte ')')
    let next := endOfExpression + 1
    return .next ⟨next, next, false, s.segments ++ [literal, .getExpr (bytesPtr - 1) (next - bytesPtr + 1)]⟩

/-- The loop over the content from `start` to `stop`. -/
def segmentsOf (multilineString : Bool) (indentToStrip start stop endPtr : Nat) : Option (List StringSegment) :=
  iterate (b.segmentStep multilineString indentToStrip stop endPtr) b.fuel ⟨start, start, true, []⟩

def indentToStrip (str : Token) : Option Nat :=
  if str.multilineString then (b.getMultilineTrailingIndent str).map List.length else some 0

def getStringLiteralSegments (str : Token) : Option (List StringSegment) := do
  guard (str.kind = .stringLiteral)
  let (start, stop) ← getStringLiteralContent str
  b.segmentsOf str.multilineString (← b.indentToStrip str) start stop str.textRange.2

/-! ## The bytes of a segment -/

/-- The cursor, the bytes so far, and whether the line break at the cursor is escaped. -/
structure Encoding where
  bytesPtr : Nat
  tempString : List UInt8
  isEscapedNewline : Bool

def Encoding.push (s : Encoding) (bytesPtr : Nat) (bytes : List UInt8) : Encoding :=
  { s with bytesPtr := bytesPtr, tempString := s.tempString ++ bytes }

/-- The line break `c` at the cursor, and the indentation behind it. -/
def encodeNewline (segment : StringSegment) (c : UInt8) (s : Encoding) : Option Encoding := do
  let stop := segment.loc + segment.length
  let p := s.bytesPtr + 1
  let p := if c = byte '\r' ∧ (← b.read p) = byte '\n' then p + 1 else p
  let p := if isNewline (← b.read p) then p else p + segment.indentToStrip
  let stripNewline := s.isEscapedNewline || segment.isFirstSegment && s.bytesPtr = segment.loc
    || segment.isLastSegment && p = stop
  return ⟨p, if stripNewline then s.tempString else s.tempString ++ [byte '\n'], false⟩

/-- The backslash at the cursor. -/
def encodeEscape (s : Encoding) : Option Encoding := do
  let p := s.bytesPtr + 1
  let d ← b.read p
  if isIndent d ∨ isNewline d then
    match ← b.maybeConsumeNewlineEscape p with
    | some q => return { s with bytesPtr := q - 1, isEscapedNewline := true }
    | none => return s.push (p + 1) []
  else if d = byte '(' then none
  else if d = byte 'u' then
    if (← b.read (p + 1)) ≠ byte '{' then return s.push (p + 1) []
    else
      match ← b.lexUnicodeEscape (p + 1) with
      | (none, q) => return s.push q []
      | (some value, q) => return s.push q (if value < 0x80 then [UInt8.ofNat value] else (encodeToUTF8 value).2)
  else
    match simpleEscape d with
    | some v => return s.push (p + 1) [UInt8.ofNat v]
    | none => return s.push (p + 1) []

def encodingStep (segment : StringSegment) (s : Encoding) : Option (Step Encoding (List UInt8)) := do
  let stop := segment.loc + segment.length
  if stop ≤ s.bytesPtr then return .done s.tempString
  else
    let c ← b.read s.bytesPtr
    if isNewline c then return .next (← b.encodeNewline segment c s)
    else if c = byte '\\' then return .next (← b.encodeEscape s)
    else return .next (s.push (s.bytesPtr + 1) [c])

/-- The segment itself when nothing is escaped or processed in it, as far as the lengths tell. -/
def getEncodedStringSegment (segment : StringSegment) : Option (List UInt8) := do
  let tempString ← iterate (b.encodingStep segment) b.fuel ⟨segment.loc, [], false⟩
  return if tempString.length = segment.length then b.text segment.loc (segment.loc + segment.length) else tempString

end Buffer

end SwiftKStdlib.Parse
