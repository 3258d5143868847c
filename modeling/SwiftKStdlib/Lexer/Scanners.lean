import SwiftKStdlib.Lexer.Buffer

/-!
# The scanners

* `Lexer` : what a lexer is created with;
* `skipToEndOfLine`, `skipSlashStarComment`, `tryLexConflictMarker` : what is skipped;
* `lexIdentifier`, `lexHash`, `lexOperatorIdentifier`, `lexDollarIdent`, `lexNumber`, `lexEscapedIdentifier`,
  `tryLexEditorPlaceholder` : what is a token.

Every scanner takes the position of the token's first byte, and leaves out the diagnostics.
-/

namespace SwiftKStdlib.Parse

open Lib

inductive CommentRetentionMode where
  | none | attachToNextToken | returnAsTokens
  deriving DecidableEq

inductive TriviaRetentionMode where
  | withoutTrivia | withTrivia
  deriving DecidableEq

structure Lexer where
  buffer : Buffer
  codeCompletionPtr : Option Nat
  inSILMode : Bool
  inSILBody : Bool
  /-- Whether there is a diagnostic engine. -/
  diags : Bool
  retainComments : CommentRetentionMode
  triviaRetention : TriviaRetentionMode

/-- A token that is not formed yet, from the first byte to `curPtr`. -/
structure Scanned where
  kind : Tok
  curPtr : Nat
  escaped : Bool
  multiline : Bool

def Scanned.plain (kind : Tok) (curPtr : Nat) : Scanned := ⟨kind, curPtr, false, false⟩

def isNewline (c : UInt8) : Bool := c = byte '\n' || c = byte '\r'

namespace Buffer

variable (b : Buffer)

/-! ## Lines and comments -/

/-- The cursor, and whether a newline was eaten. -/
def skipToEndOfLine (eatNewline : Bool) (p : Nat) : Option (Nat × Bool) :=
  iterate (fun p => do
    let c ← b.read p
    if isNewline c then
      return .done (if eatNewline then (p + 1, true) else (p, false))
    else if c = 0 then
      return if p = b.size then .done (p, false) else .next (p + 1)
    else if 0x80 ≤ c then
      return .next (b.validateUTF8CharacterAndAdvance p).2
    else return .next (p + 1)) b.fuel p

/-- From the star on; the cursor, and whether there was a newline. -/
def skipSlashStarComment (p : Nat) : Option (Nat × Bool) := do
  guard ((← b.readBack p) = byte '/' ∧ (← b.read p) = byte '*')
  iterate (fun (p, depth, newline) => do
    let c ← b.read p
    if c = byte '*' then
      if (← b.read (p + 1)) = byte '/' then
        return if depth = 1 then .done (p + 2, newline) else .next (p + 2, depth - 1, newline)
      else return .next (p + 1, depth, newline)
    else if c = byte '/' then
      return if (← b.read (p + 1)) = byte '*' then .next (p + 2, depth + 1, newline) else .next (p + 1, depth, newline)
    else if isNewline c then
      return .next (p + 1, depth, true)
    else if c = 0 then
      return if p = b.size then .done (p, newline) else .next (p + 1, depth, newline)
    else if 0x80 ≤ c then
      return .next ((b.validateUTF8CharacterAndAdvance p).2, depth, newline)
    else return .next (p + 1, depth, newline)) b.fuel (p + 1, 1, false)

/-! ## Conflict markers and placeholders -/

/-- Where `text` first occurs in the bytes. -/
def findText (text : List UInt8) : List UInt8 → Option Nat
  | [] => if text = [] then some 0 else none
  | c :: rest => if text.isPrefixOf (c :: rest) then some 0 else (findText text rest).map (· + 1)

def findConflictEnd (terminator : List UInt8) (p : Nat) : Option (Option Nat) :=
  iterate (fun start =>
    match findText terminator (b.bytes.drop start) with
    | none => some (.done none)
    | some endPos => some <|
      -- The terminator must occur at the start of a line.
      if endPos ≠ 0 ∧ isNewline (b.byteAt (start + endPos - 1)) then .done (some (start + endPos))
      else .next (start + endPos + terminator.length)) b.fuel (p + terminator.length)

/-- From the character after `<#` on; reads past the terminator when that is where the search begins. -/
def rangeContainsPlaceholderEnd (p : Nat) : Option Bool :=
  iterate (fun p =>
    if p + 1 = b.size then some (.done false)
    else do
      let c ← b.read p
      if c = byte '\n' then return .done false
      else if ← b.looksAt p '#' '>' then return .done true
      else return .next (p + 1)) b.fuel p

/-- Where the placeholder that begins with `<#` ends. -/
def findPlaceholderEnd (p : Nat) : Option (Option Nat) :=
  iterate (fun p =>
    if p + 1 < b.size then do
      if (← b.read p) = byte '\n' then return .done none
      else if ← b.looksAt p '<' '#' then return .done none
      else if ← b.looksAt p '#' '>' then return .done (some (p + 2))
      else return .next (p + 1)
    else some (.done none)) b.fuel p

end Buffer

namespace Lexer

variable (L : Lexer)

def contentStart : Nat := if [0xEF, 0xBB, 0xBF].isPrefixOf L.buffer.bytes then 3 else 0

def isKeepingComments : Bool := L.retainComments = .returnAsTokens

/-- The cursor after the conflict marker and whether a newline was eaten; none if there is no marker. -/
def tryLexConflictMarker (eatNewline : Bool) (p : Nat) : Option (Option (Nat × Bool)) := do
  let atLineStart ← (if p = L.contentStart then some true else (L.buffer.readBack p).map isNewline)
  if !atLineStart then return none
  let rest ← L.buffer.rest p
  if !("<<<<<<< ".toList.map byte).isPrefixOf rest ∧ !(">>>> ".toList.map byte).isPrefixOf rest then return none
  let terminator := if (← L.buffer.read p) = byte '<' then ">>>>>>> " else "<<<<\n"
  match ← L.buffer.findConflictEnd (terminator.toList.map byte) p with
  | none => return none
  | some q =>
    if q = L.buffer.size then return some (q, false)
    else return some (← L.buffer.skipToEndOfLine eatNewline q)

/-! ## Identifiers -/

def lexIdentifier (tokStart : Nat) : Option Scanned := do
  let p ← L.buffer.advanceIf isValidIdentifierStartCodePoint tokStart
  let p ← L.buffer.advanceWhile isValidIdentifierContinuationCodePoint p
  return .plain (kindOfIdentifier (L.buffer.text tokStart p) L.inSILMode) p

/-- The position after the closing backtick, if an identifier comes up to one. -/
def escapedIdentifierEnd (p : Nat) : Option (Option Nat) :=
  match L.buffer.advanceIf isValidIdentifierStartCodePoint p with
  | none => some none
  | some p => do
    let p ← L.buffer.advanceWhile isValidIdentifierContinuationCodePoint p
    return if (← L.buffer.read p) = byte '\x60' then some (p + 1) else none

/-- An identifier between backticks, the special case of the dollar, or the punctuator. -/
def lexEscapedIdentifier (tokStart : Nat) : Option Scanned := do
  match ← L.escapedIdentifierEnd (tokStart + 1) with
  | some p => return ⟨.identifier, p, true, false⟩
  | none =>
    if ← L.buffer.looksAt (tokStart + 1) '$' '\x60' then return ⟨.identifier, tokStart + 3, true, false⟩
    else return .plain .backtick (tokStart + 1)

/-- `prev` is the kind of the token before this one. -/
def lexDollarIdent (prev : Tok) (tokStart : Nat) : Option Scanned := do
  if L.inSILBody ∧ prev ≠ .atSign then return .plain .silDollar (tokStart + 1)
  let p ← L.buffer.scanWhile (isIdentifierBody · true) (tokStart + 1)
  if p = tokStart + 1 then return .plain .identifier p
  else if (L.buffer.text (tokStart + 1) p).all isDigit then return .plain .dollarident p
  else return .plain .identifier p

/-- Where the word that begins at `p` ends. -/
def hashWordEnd (p : Nat) : Option Nat := do
  if isIdentifierHead (← L.buffer.read p) false then L.buffer.scanWhile (isIdentifierBody · false) (p + 1)
  else return p

/-- The word after the sharp sign, when it is known. The hashbang is not lexed here. -/
def lexHash (tokStart : Nat) : Option Scanned := do
  if (← L.buffer.read (tokStart + 1)) = byte ']' then return .plain .rSquareLit (tokStart + 2)
  else
    let p ← L.hashWordEnd (tokStart + 1)
    match kindOfWord poundKeywords (L.buffer.text (tokStart + 1) p) with
    | none => return .plain .pound (tokStart + 1)
    | some kind => return .plain kind p

/-! ## Operators -/

def isLeftSeparator (c : UInt8) : Bool :=
  c = 0 || [' ', '\r', '\n', '\t', '(', '[', '{', ',', ';', ':'].any fun d => byte d = c

def isRightSeparator (c : UInt8) : Bool :=
  [' ', '\r', '\n', '\t', ')', ']', '}', ',', ';', ':'].any fun d => byte d = c

def isLeftBound (tokBegin : Nat) : Option Bool :=
  if tokBegin = L.contentStart then some false
  else do
    let c ← L.buffer.readBack tokBegin
    if isLeftSeparator c then return false
    -- The end of a slash-star comment is whitespace.
    else if c = byte '/' ∧ tokBegin - 1 ≠ L.contentStart then
      return (← L.buffer.readBack (tokBegin - 1)) ≠ byte '*'
    else return true

def isRightBound (tokEnd : Nat) (leftBound : Bool) : Option Bool := do
  let c ← L.buffer.read tokEnd
  if isRightSeparator c then return false
  else if c = 0 then return L.codeCompletionPtr = some tokEnd
  else if c = byte '.' then return !leftBound
  else if c = byte '/' then
    let d ← L.buffer.read (tokEnd + 1)
    return !(d = byte '/' || d = byte '*')
  else return true

/-- Whether an editor placeholder begins at `p`. -/
def placeholderAt (p : Nat) : Option Bool := do
  let rest ← L.buffer.rest p
  if [byte '<', byte '#'].isPrefixOf rest then L.buffer.rangeContainsPlaceholderEnd (p + 2) else return false

/-- One more character of the operator, or its end. -/
def operatorStep (tokStart p : Nat) : Option (Step Nat Nat) := do
  let c ← L.buffer.read p
  if p ≠ L.buffer.size ∧ L.inSILBody ∧ (c = byte '!' ∨ c = byte '?') then return .done p
  else if c = byte '.' ∧ (← L.buffer.read tokStart) ≠ byte '.' then return .done p
  else if ← L.placeholderAt p then return .done p
  else
    match L.buffer.advanceIf isOperatorContinuationCodePoint p with
    | some next => return .next next
    | none => return .done p

/-- Where a comment begins inside the operator, its end if none does. -/
def commentInOperator (tokStart p : Nat) : Option Nat :=
  if tokStart + 2 < p then
    iterate (fun q =>
      if q + 1 = p then some (.done p)
      else do
        if (← L.buffer.looksAt q '/' '/') || (← L.buffer.looksAt q '/' '*') then return .done q
        else return .next (q + 1)) L.buffer.fuel (tokStart + 1)
  else some p

/-- The kind of an operator of one character, if it is reserved. -/
def reservedOperator (c : UInt8) (p : Nat) (leftBound rightBound : Bool) : Option (Option Tok) :=
  if c = byte '=' then some (some .equal)
  else if c = byte '&' then some (if leftBound = rightBound ∨ leftBound then none else some .ampPrefix)
  else if c = byte '.' then
    if leftBound = rightBound then some (some .period)
    else if rightBound then some (some .periodPrefix)
    else do
      let q ← L.buffer.scanWhile (fun d => d = byte ' ' || d = byte '\t') p
      let d ← L.buffer.read q
      if d = 0 ∧ L.codeCompletionPtr = some q then return some .period
      else if (← L.isRightBound q leftBound) ∧ d ≠ byte '/' then return some .period
      else return some .unknown
  else if c = byte '?' then some (some (if leftBound then .questionPostfix else .questionInfix))
  else some none

/-- The kind of an operator of two or more characters, if it is reserved. -/
def reservedText (text : List UInt8) : Option Tok :=
  if text.length = 2 then
    if text = [byte '-', byte '>'] then some .arrow else if text = [byte '*', byte '/'] then some .unknown else none
  -- No end of a comment may stand inside.
  else if (Buffer.findText [byte '*', byte '/'] text).isSome then some .unknown else none

def operatorKind (tokStart p : Nat) (leftBound rightBound : Bool) : Option Tok := do
  let reserved ← (
    if p = tokStart + 1 then L.reservedOperator (L.buffer.byteAt tokStart) p leftBound rightBound
    else some (reservedText (L.buffer.text tokStart p)))
  return reserved.getD <|
    if leftBound = rightBound then (if leftBound then .operBinaryUnspaced else .operBinarySpaced)
    else if leftBound then .operPostfix else .operPrefix

def lexOperatorIdentifier (tokStart : Nat) : Option Scanned := do
  let p ← L.buffer.advanceIf isOperatorStartCodePoint tokStart
  let p ← iterate (L.operatorStep tokStart) L.buffer.fuel p
  let p ← L.commentInOperator tokStart p
  let leftBound ← L.isLeftBound tokStart
  let rightBound ← L.isRightBound p leftBound
  return .plain (← L.operatorKind tokStart p leftBound rightBound) p

def tryLexEditorPlaceholder (tokStart : Nat) : Option Scanned := do
  match ← L.buffer.findPlaceholderEnd (tokStart + 2) with
  | some p => return .plain .identifier p
  | none => L.lexOperatorIdentifier tokStart

/-! ## Numbers -/

def digits (isDigit : UInt8 → Bool) (p : Nat) : Option Nat :=
  L.buffer.scanWhile (fun c => isDigit c || c = byte '_') p

def expectedDigit (p : Nat) : Option Scanned :=
  (L.buffer.advanceWhile isValidIdentifierContinuationCodePoint p).map (.plain .unknown)

/-- The literal ends here, unless an identifier continues it. -/
def literalEnd (kind : Tok) (p : Nat) : Option Scanned :=
  match L.buffer.advanceIf isValidIdentifierContinuationCodePoint p with
  | some next => L.expectedDigit next
  | none => some (.plain kind p)

def expectedExponent (p : Nat) : Option Scanned :=
  L.expectedDigit ((L.buffer.advanceIf isValidIdentifierContinuationCodePoint p).getD p)

def isExponentSign (c : UInt8) : Bool := c = byte '+' || c = byte '-'

/-- The exponent of a hexadecimal literal, from the letter on; `ptrOnDot` is where the point is. -/
def lexHexExponent (ptrOnDot : Option Nat) (p : Nat) : Option Scanned := do
  let c ← L.buffer.read p
  guard (c = byte 'p' ∨ c = byte 'P')
  let signedExponent := isExponentSign (← L.buffer.read (p + 1))
  let p := if signedExponent then p + 2 else p + 1
  if isDigit (← L.buffer.read p) then
    L.literalEnd .floatingLiteral (← L.digits isDigit p)
  else
    match ptrOnDot with
    | some dot =>
      if !isDigit (← L.buffer.read (dot + 1)) ∧ !signedExponent then return .plain .integerLiteral dot
      else L.expectedExponent p
    | none => L.expectedExponent p

def lexHexNumber (tokStart : Nat) : Option Scanned := do
  guard ((← L.buffer.read (tokStart + 1)) = byte 'x' ∧ (← L.buffer.read tokStart) = byte '0')
  let p := tokStart + 2
  if !isHexDigit (← L.buffer.read p) then L.expectedDigit p
  else
    let p ← L.digits isHexDigit p
    let c ← L.buffer.read p
    if c = byte '.' then
      if !isHexDigit (← L.buffer.read (p + 1)) then return .plain .integerLiteral p
      else
        let q ← L.digits isHexDigit (p + 1)
        let d ← L.buffer.read q
        if d = byte 'p' ∨ d = byte 'P' then L.lexHexExponent (some p) q
        else if !isDigit (← L.buffer.read (p + 1)) then return .plain .integerLiteral p
        else return .plain .unknown q
    else if c = byte 'p' ∨ c = byte 'P' then L.lexHexExponent none p
    else L.literalEnd .integerLiteral p

/-- A literal with the prefix `0o` or `0b`. -/
def lexRadixNumber (isRadixDigit : UInt8 → Bool) (tokStart : Nat) : Option Scanned := do
  let p := tokStart + 2
  if !isRadixDigit (← L.buffer.read p) then L.expectedDigit p
  else L.literalEnd .integerLiteral (← L.digits isRadixDigit p)

/-- The exponent of a decimal literal, if there is one. -/
def lexExponent (p : Nat) : Option Scanned := do
  let c ← L.buffer.read p
  if c = byte 'e' ∨ c = byte 'E' then
    let p := if isExponentSign (← L.buffer.read (p + 1)) then p + 2 else p + 1
    if isDigit (← L.buffer.read p) then L.literalEnd .floatingLiteral (← L.digits isDigit p)
    else L.expectedExponent p
  else return .plain .floatingLiteral p

def isOctalDigit (c : UInt8) : Bool := byte '0' ≤ c && c ≤ byte '7'

def isBinaryDigit (c : UInt8) : Bool := c = byte '0' || c = byte '1'

/-- After a period the digits are a sub-tuple access, not the start of a floating literal. -/
def lexNumber (prev : Tok) (tokStart : Nat) : Option Scanned := do
  let zero := (← L.buffer.read tokStart) = byte '0'
  let c ← L.buffer.read (tokStart + 1)
  if zero ∧ c = byte 'x' then L.lexHexNumber tokStart
  else if zero ∧ c = byte 'o' then L.lexRadixNumber isOctalDigit tokStart
  else if zero ∧ c = byte 'b' then L.lexRadixNumber isBinaryDigit tokStart
  else
    let p ← L.digits isDigit (tokStart + 1)
    let c ← L.buffer.read p
    if c = byte '.' then
      if !isDigit (← L.buffer.read (p + 1)) ∨ prev = .period then return .plain .integerLiteral p
      else L.lexExponent (← L.digits isDigit (p + 1))
    else if c = byte 'e' ∨ c = byte 'E' then L.lexExponent p
    else L.literalEnd .integerLiteral p

end Lexer

end SwiftKStdlib.Parse
