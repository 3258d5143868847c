import SwiftKStdlib.Lexer.Strings

/-!
# The lexer

* `Members` : what a lexer changes;
* `lexTrivia` : the trivia before and after a token;
* `dispatch` : what the byte at the start of a token leads to, in either trivia mode;
* `lexImpl`, `primeLexer`, `tokens` : the lexer and its run.
-/

namespace SwiftKStdlib.Parse

open Lib

structure Members where
  curPtr : Nat
  lastCommentBlockStart : Nat
  seenComment : Bool
  nextToken : Token
  leadingTrivia : List TriviaPiece
  trailingTrivia : List TriviaPiece

/-- What `lexTrivia` changes. -/
structure TriviaLexed where
  curPtr : Nat
  atStartOfLine : Bool
  seenComment : Bool
  pieces : List TriviaPiece

/-- The cursor goes on to `q`, perhaps after a newline. -/
def Members.skip (s : Members) (q : Nat) (newline : Bool) : Members :=
  { s with curPtr := q, nextToken := s.nextToken.setAtStartOfLine (s.nextToken.atStartOfLine || newline) }

/-- The trivia goes on at `q`, with a piece for the bytes up to it. -/
def TriviaLexed.push (t : TriviaLexed) (b : Buffer) (kind : TriviaKind) (q : Nat) : TriviaLexed :=
  { t with curPtr := q, pieces := t.pieces ++ [.ofText kind (b.text t.curPtr q)] }

def spaceKind (c : UInt8) : TriviaKind :=
  if c = byte ' ' then .space else if c = byte '\t' then .tab else if c = 0x0B then .verticalTab else .formfeed

/-- What is at a position where a token may begin. -/
inductive Action where
  | newline
  /-- Whitespace or what is presumed to be; `newline` if one was eaten. -/
  | skip (curPtr : Nat) (newline : Bool)
  | comment (curPtr : Nat) (newline : Bool)
  | hashbang (curPtr : Nat)
  | token (t : Scanned)

/-- The cases of the switch over the byte at the start of a token. -/
inductive FirstByte where
  | newline | space | utf16Mark | nul
  | punctuator (kind : Tok)
  | lSquare | hash | slash | percent | exclaim | question | lAngle | rAngle | operator | letter | dollar | digit | quote
  | backtick | other
  deriving DecidableEq

def punctuators : List (Char × Tok) :=
  [('@', .atSign), ('{', .lBrace), ('(', .lParen), ('}', .rBrace), (']', .rSquare), (')', .rParen), (',', .comma),
   (';', .semi), (':', .colon), ('\\', .backslash)]

def isHorizontalSpace (c : UInt8) : Bool := c = byte ' ' || c = byte '\t' || c = 0x0C || c = 0x0B

def isOperatorByte (c : UInt8) : Bool :=
  ['=', '-', '+', '*', '&', '|', '^', '~', '.'].any fun d => byte d = c

def firstByte (c : UInt8) : FirstByte :=
  if isNewline c then .newline
  else if isHorizontalSpace c then .space
  else if c = 0xFF ∨ c = 0xFE then .utf16Mark
  else if c = 0 then .nul
  else
    match punctuators.find? fun entry => byte entry.1 = c with
    | some entry => .punctuator entry.2
    | none =>
      if c = byte '[' then .lSquare
      else if c = byte '#' then .hash
      else if c = byte '/' then .slash
      else if c = byte '%' then .percent
      else if c = byte '!' then .exclaim
      else if c = byte '?' then .question
      else if c = byte '<' then .lAngle
      else if c = byte '>' then .rAngle
      else if isOperatorByte c then .operator
      else if isLetter c ∨ c = byte '_' then .letter
      else if c = byte '$' then .dollar
      else if isDigit c then .digit
      else if Buffer.isQuote c then .quote
      else if c = byte '\x60' then .backtick
      else .other

namespace Lexer

variable (L : Lexer)

/-! ## Trivia -/

def triviaStep (isForTrailingTrivia : Bool) (t : TriviaLexed) : Option (Step TriviaLexed TriviaLexed) := do
  let b := L.buffer
  let p := t.curPtr
  let c ← b.read p
  if c = byte '\n' then
    if isForTrailingTrivia then return .done t
    else return .next ⟨p + 1, true, t.seenComment, appendOrSquash t.pieces (.counted .newline)⟩
  else if c = byte '\r' then
    if isForTrailingTrivia then return .done t
    else if (← b.read (p + 1)) = byte '\n' then
      return .next ⟨p + 2, true, t.seenComment, appendOrSquash t.pieces (.counted .carriageReturnLineFeed)⟩
    else return .next ⟨p + 1, true, t.seenComment, appendOrSquash t.pieces (.counted .carriageReturn)⟩
  else if isHorizontalSpace c then
    return .next { t with curPtr := p + 1, pieces := appendOrSquash t.pieces (.counted (spaceKind c)) }
  else if c = byte '/' then
    if isForTrailingTrivia ∨ L.isKeepingComments then return .done t
    else
      let d ← b.read (p + 1)
      if d = byte '/' then
        let isDocComment := (← b.read (p + 2)) = byte '/'
        let (q, _) ← b.skipToEndOfLine false (p + 1)
        return .next { t.push b (if isDocComment then .docLineComment else .lineComment) q with
          seenComment := true }
      else if d = byte '*' then
        let isDocComment := (← b.read (p + 2)) = byte '*'
        let (q, newline) ← b.skipSlashStarComment (p + 1)
        return .next { t.push b (if isDocComment then .docBlockComment else .blockComment) q with
          seenComment := true
          atStartOfLine := t.atStartOfLine || newline }
      else return .done t
  else if c = byte '#' then
    if p = L.contentStart ∧ (← b.read (p + 1)) = byte '!' then
      let (q, _) ← b.skipToEndOfLine false p
      return .next (t.push b .garbageText q)
    else return .done t
  else if c = byte '<' ∨ c = byte '>' then
    match ← L.tryLexConflictMarker false p with
    | some (q, _) => return .next (t.push b .garbageText q)
    | none => return .done t
  else return .done t

def lexTrivia (isForTrailingTrivia : Bool) (t : TriviaLexed) : Option TriviaLexed :=
  if L.triviaRetention = .withoutTrivia then some t
  else iterate (L.triviaStep isForTrailingTrivia) L.buffer.fuel t

/-! ## Forming tokens -/

/-- The token from `tokStart` to the scanner's cursor, and its trailing trivia. -/
def formToken (s : Members) (tokStart : Nat) (t : Scanned) : Option Members := do
  guard (t.curPtr ≤ L.buffer.size)
  let commentLength :=
    if L.retainComments = .attachToNextToken ∧ s.seenComment then tokStart - s.lastCommentBlockStart else 0
  let trivia ← L.lexTrivia true ⟨t.curPtr, s.nextToken.atStartOfLine, s.seenComment, s.trailingTrivia⟩
  return { s with
    curPtr := trivia.curPtr
    seenComment := trivia.seenComment
    nextToken := (s.nextToken.setAtStartOfLine trivia.atStartOfLine).setToken t.kind (tokStart, t.curPtr)
      commentLength t.multiline
    trailingTrivia := trivia.pieces }

/-- The backticks are trivia. -/
def formEscapedIdentifierToken (s : Members) (tokStart : Nat) (t : Scanned) : Option Members := do
  guard (tokStart + 3 ≤ t.curPtr)
  guard ((← L.buffer.read tokStart) = byte '\x60')
  guard ((← L.buffer.readBack t.curPtr) = byte '\x60')
  guard (L.triviaRetention = .withTrivia → s.trailingTrivia = [])
  let s := if L.triviaRetention = .withTrivia then
      { s with leadingTrivia := s.leadingTrivia ++ [.counted .backtick], trailingTrivia := [.counted .backtick] }
    else s
  let s ← L.formToken s tokStart t
  return { s with nextToken := { s.nextToken with escapedIdentifier := true } }

def formScanned (s : Members) (tokStart : Nat) (t : Scanned) : Option Members :=
  if t.escaped then L.formEscapedIdentifierToken s tokStart t else L.formToken s tokStart t

/-! ## One token -/

/-- A byte that begins no token of the grammar. -/
def lexOther (tokStart : Nat) : Option Action := do
  let b := L.buffer
  if (b.advanceIf isValidIdentifierStartCodePoint tokStart).isSome then return .token (← L.lexIdentifier tokStart)
  else if (b.advanceIf isOperatorStartCodePoint tokStart).isSome then
    return .token (← L.lexOperatorIdentifier tokStart)
  else
    match b.advanceIf isValidIdentifierContinuationCodePoint tokStart with
    | some p =>
      let p ← b.advanceWhile isValidIdentifierContinuationCodePoint p
      return .token (.plain .unknown p)
    | none =>
      match b.validateUTF8CharacterAndAdvance tokStart with
      | (none, p) => return .skip p false
      | (some codepoint, p) =>
        if codepoint = 0x201D then return .token (.plain .unknown p)
        else if codepoint = 0x201C then
          return .token (.plain .unknown ((← L.findEndOfCurlyQuoteStringLiteral p).getD p))
        else return .skip p false

/-- A comment, or an operator. -/
def lexSlash (tokStart : Nat) : Option Action := do
  let d ← L.buffer.read (tokStart + 1)
  if d = byte '/' then
    let (q, newline) ← L.buffer.skipToEndOfLine true (tokStart + 1)
    return .comment q newline
  else if d = byte '*' then
    let (q, newline) ← L.buffer.skipSlashStarComment (tokStart + 1)
    return .comment q newline
  else return .token (← L.lexOperatorIdentifier tokStart)

/-- A conflict marker when the byte stands twice, or an operator. -/
def lexAngle (tokStart : Nat) : Option Action := do
  if (← L.buffer.read (tokStart + 1)) = (← L.buffer.read tokStart) then
    match ← L.tryLexConflictMarker true tokStart with
    | some (q, newline) => return .skip q newline
    | none => return .token (← L.lexOperatorIdentifier tokStart)
  else return .token (← L.lexOperatorIdentifier tokStart)

/-- The switch over the byte at `tokStart`; `prev` is the kind of the token before. -/
def dispatch (prev : Tok) (tokStart : Nat) : Option Action := do
  let b := L.buffer
  let p := tokStart + 1
  match firstByte (← b.read tokStart) with
  | .newline => return .newline
  | .space => return .skip p false
  | .utf16Mark => return .token (.plain .unknown b.size)
  | .nul =>
    if L.codeCompletionPtr = some tokStart then return .token (.plain .codeComplete p)
    else if tokStart ≠ b.size then return .skip p false
    else return .token (.plain .eof tokStart)
  | .punctuator kind => return .token (.plain kind p)
  | .lSquare => return .token (.plain (if (← b.read p) = byte '#' then .lSquareLit else .lSquare) p)
  | .hash =>
    if tokStart = L.contentStart ∧ (← b.read p) = byte '!' then return .hashbang (← b.skipToEndOfLine true tokStart).1
    else return .token (← L.lexHash tokStart)
  | .slash => L.lexSlash tokStart
  | .percent =>
    if L.inSILBody ∧ isIdentifierBody (← b.read p) false then
      return .token (.plain .silLocalName (← b.scanWhile (isIdentifierBody · false) p))
    else return .token (← L.lexOperatorIdentifier tokStart)
  | .exclaim =>
    if L.inSILBody then return .token (.plain .silExclamation p)
    else if ← L.isLeftBound tokStart then return .token (.plain .exclaimPostfix p)
    else return .token (← L.lexOperatorIdentifier tokStart)
  | .question =>
    if ← L.isLeftBound tokStart then return .token (.plain .questionPostfix p)
    else return .token (← L.lexOperatorIdentifier tokStart)
  | .lAngle =>
    if (← b.read p) = byte '#' then return .token (← L.tryLexEditorPlaceholder tokStart) else L.lexAngle tokStart
  | .rAngle => L.lexAngle tokStart
  | .operator => return .token (← L.lexOperatorIdentifier tokStart)
  | .letter => return .token (← L.lexIdentifier tokStart)
  | .dollar => return .token (← L.lexDollarIdent prev tokStart)
  | .digit => return .token (← L.lexNumber prev tokStart)
  | .quote => return .token (← L.lexStringLiteral tokStart)
  | .backtick => return .token (← L.lexEscapedIdentifier tokStart)
  | .other => L.lexOther tokStart

/-- What `lexImpl` does before it looks for a token. -/
def begin (s : Members) : Members :=
  let withTrivia : Bool := L.triviaRetention = .withTrivia
  let bom : Bool := s.curPtr = 0 ∧ 0 < L.contentStart
  let curPtr := if bom then s.curPtr + L.contentStart else s.curPtr
  { curPtr := curPtr
    lastCommentBlockStart := curPtr
    seenComment := false
    nextToken := s.nextToken.setAtStartOfLine (s.curPtr = 0)
    leadingTrivia :=
      if withTrivia then
        (if bom then [.ofText .garbageText (L.buffer.text s.curPtr curPtr)] else [])
      else s.leadingTrivia
    trailingTrivia := if withTrivia then [] else s.trailingTrivia }

/-- The cursor comes to the start of the token. -/
def lexLeadingTrivia (s : Members) : Option Members := do
  let trivia ← L.lexTrivia false ⟨s.curPtr, s.nextToken.atStartOfLine, s.seenComment, s.leadingTrivia⟩
  return { s with
    curPtr := trivia.curPtr
    seenComment := trivia.seenComment
    nextToken := s.nextToken.setAtStartOfLine trivia.atStartOfLine
    leadingTrivia := trivia.pieces }

/-- What the action at the start of the token leads to: the token, or the state that goes back to `Restart`. -/
def act (s : Members) : Action → Option (Step Members Members)
  | .newline => do
    guard (L.triviaRetention ≠ .withTrivia)
    return .next (s.skip (s.curPtr + 1) true)
  | .skip q newline => some (.next (s.skip q newline))
  | .comment q newline => do
    let s' := { s.skip q newline with seenComment := true }
    if L.isKeepingComments then return .done (← L.formToken s' s.curPtr (.plain .comment q)) else return .next s'
  | .hashbang q => some (.next (L.begin { s with curPtr := q }))
  | .token t => do return .done (← L.formScanned s s.curPtr t)

/-- From `Restart` on. -/
def restart (s : Members) : Option (Step Members Members) := do
  let s ← L.lexLeadingTrivia s
  L.act s (← L.dispatch s.nextToken.kind s.curPtr)

def lexImpl (s : Members) : Option Members := do
  guard (s.curPtr ≤ L.buffer.size)
  iterate L.restart L.buffer.fuel (L.begin s)

/-! ## The run -/

/-- What the constructor of the lexer leaves. -/
def primeLexer : Option Members := do
  let s ← L.lexImpl ⟨0, 0, false, .init, [], []⟩
  guard (s.nextToken.atStartOfLine ∨ s.curPtr ≠ 0)
  return s

end Lexer

/-- What `lex` returns. -/
structure Lexeme where
  token : Token
  leadingTrivia : List TriviaPiece
  trailingTrivia : List TriviaPiece
  deriving DecidableEq

def Members.lexeme (s : Members) : Lexeme := ⟨s.nextToken, s.leadingTrivia, s.trailingTrivia⟩

namespace Lexer

variable (L : Lexer)

def lex (s : Members) : Option (Lexeme × Members) :=
  if s.nextToken.kind = .eof then some (s.lexeme, s) else (L.lexImpl s).map fun s' => (s.lexeme, s')

/-- What `lex` returns until `eof`, with fuel for the calls. -/
def lexRest : Nat → Members → Option (List Lexeme)
  | 0, _ => none
  | fuel + 1, s => do
    let (lexeme, s) ← L.lex s
    if lexeme.token.kind = .eof then return [lexeme]
    else return lexeme :: (← lexRest fuel s)

/-- What a new lexer returns until `eof`. -/
def tokens : Option (List Lexeme) := do L.lexRest L.buffer.fuel (← L.primeLexer)

/-! ## Backtracking -/

end Lexer

end SwiftKStdlib.Parse
