import Mathlib.Tactic
import SwiftKStdlib.Lib.Prog
import SwiftKStdlib.Demangling.Punycode

/-!
# Mangling and demangling identifiers

* `Mangler`, `mangleIdentifier` : the mangler's `Words` and its buffer; `UsePunycode` is on;
* `Demangler`, `demangleIdentifier` : the demangler's text, position and `Words`;
* `scanWords` : the loop over the words of a string, which both of them run.
-/

namespace SwiftKStdlib.Demangling

/-- `StringRef::substr`. -/
def substr (s : StringRef) (start n : Nat) : StringRef := (s.drop start).take n

def decimal (n : Nat) : StringRef :=
  if n = 0 then [0x30] else ((Nat.digits 10 n).reverse.map fun d => char (0x30 + d))

theorem decimal_ne_nil (n : Nat) : decimal n ≠ [] := by
  rw [decimal]
  split_ifs with hzero
  · exact List.cons_ne_nil _ _
  · rw [Ne, List.map_eq_nil_iff, List.reverse_eq_nil_iff]
    exact Nat.digits_ne_nil_iff_ne_zero.2 hzero

/-- `MaxNumWords`, of the mangler and of the demangler. -/
def maxNumWords : Nat := 26

/-- The loop over the positions of `s`, one behind its end included, that calls `report` with the
start and the end of each word. -/
def scanStep {σ : Type} (s : StringRef) (report : σ → Nat → Nat → σ) :
    Option Nat × σ → Nat → Option Nat × σ := fun (wordStartPos, st) pos =>
  let ch := s.getD pos 0
  let (wordStartPos, st) := match wordStartPos with
    | some start =>
      if Mangle.isWordEnd ch (s.getD (pos - 1) 0) then (none, report st start pos) else (some start, st)
    | none => (none, st)
  if wordStartPos.isNone && Mangle.isWordStart ch then (some pos, st) else (wordStartPos, st)

def scanWords {σ : Type} (s : StringRef) (report : σ → Nat → Nat → σ) (st : σ) : σ :=
  ((List.range (s.length + 1)).foldl (scanStep s report) (none, st)).2

/-! ## Mangling -/

/-- A word in a mangled identifier. -/
structure SubstitutionWord where
  start : Nat
  length : Nat
  deriving DecidableEq, Repr

/-- A word substitution; the index is `none` for `-1`. -/
structure WordReplacement where
  stringPos : Nat
  wordIdx : Option Nat
  deriving DecidableEq, Repr

structure Mangler where
  words : List SubstitutionWord
  buffer : StringRef
  deriving DecidableEq, Repr

namespace Mangler

/-- What the search for words finds. -/
structure Search where
  words : List SubstitutionWord
  substWordsInIdent : List WordReplacement
  deriving DecidableEq, Repr

/-- The first index from `fromWordIdx` to `toWordIdx` of a word of `str` that is `word`. -/
def lookupWord (words : List SubstitutionWord) (str word : StringRef) (fromWordIdx toWordIdx : Nat) :
    Option Nat :=
  (List.range' fromWordIdx (toWordIdx - fromWordIdx)).find? fun idx =>
    match words[idx]? with
    | some w => word == substr str w.start w.length
    | none => false

/-- What `mangleIdentifier` does at the end of a word. -/
def noteWord (m : Mangler) (ident : StringRef) (s : Search) (wordStartPos pos : Nat) : Search :=
  let wordLen := pos - wordStartPos
  let word := substr ident wordStartPos wordLen
  let wordIdx := match lookupWord s.words m.buffer word 0 m.words.length with
    | some idx => some idx
    | none => lookupWord s.words ident word m.words.length s.words.length
  match wordIdx with
  | some idx =>
    { s with substWordsInIdent := s.substWordsInIdent ++ [⟨wordStartPos, some idx⟩] }
  | none =>
    if 2 ≤ wordLen ∧ s.words.length < maxNumWords then
      { s with words := s.words ++ [⟨wordStartPos, wordLen⟩] }
    else s

/-- The variables of the loops that write the identifier. -/
structure Writer where
  pos : Nat
  words : List SubstitutionWord
  wordsInBuffer : Nat
  buffer : StringRef
  deriving DecidableEq, Repr

/-- One literal character. -/
def writeChar (ident : StringRef) (e : Writer) : Writer :=
  let e := match e.words[e.wordsInBuffer]? with
    | some w =>
      if w.start = e.pos then
        -- the position of a new word in the whole buffer
        { e with
          words := e.words.set e.wordsInBuffer { w with start := e.buffer.length }
          wordsInBuffer := e.wordsInBuffer + 1 }
      else e
    | none => e
  { e with buffer := e.buffer ++ [ident.getD e.pos 0], pos := e.pos + 1 }

/-- The sub-string up to `stringPos`. -/
def writeSubString (ident : StringRef) (stringPos : Nat) (e : Writer) : Writer :=
  if e.pos < stringPos then
    Nat.iterate (writeChar ident) (stringPos - e.pos)
      { e with buffer := e.buffer ++ decimal (stringPos - e.pos) }
  else e

/-- The loop over `SubstWordsInIdent`. -/
def writeReplacements (ident : StringRef) : List WordReplacement → Writer → Writer
  | [], e => e
  | repl :: rest, e =>
    let e := writeSubString ident repl.stringPos e
    match repl.wordIdx with
    | none => writeReplacements ident rest e
    | some idx =>
      let pos := e.pos + ((e.words[idx]?).map SubstitutionWord.length).getD 0
      -- the dummy word comes last
      if 1 < rest.length then
        writeReplacements ident rest { e with pos := pos, buffer := e.buffer ++ [char (idx + 0x61)] }
      else
        let buffer := e.buffer ++ [char (idx + 0x41)]
        let buffer := if pos = ident.length then buffer ++ [0x30] else buffer
        writeReplacements ident rest { e with pos := pos, buffer := buffer }

def mangleIdentifier (m : Mangler) (ident : StringRef) : Option Mangler :=
  if Mangle.needsPunycodeEncoding ident then do
    let (_, pcIdent) ← Punycode.encodePunycodeUTF8 ident true
    let buffer := m.buffer ++ [0x30, 0x30] ++ decimal pcIdent.length
    let first := pcIdent.headD 0
    let buffer := if Mangle.isDigit first || first == 0x5F then buffer ++ [0x5F] else buffer
    some { m with buffer := buffer ++ pcIdent }
  else
    let s := scanWords ident (noteWord m ident) ⟨m.words, []⟩
    let buffer := if s.substWordsInIdent.isEmpty then m.buffer else m.buffer ++ [0x30]
    let e := writeReplacements ident (s.substWordsInIdent ++ [⟨ident.length, none⟩])
      ⟨0, s.words, m.words.length, buffer⟩
    some ⟨e.words, e.buffer⟩

end Mangler

/-! ## Demangling -/

structure Demangler where
  text : StringRef
  pos : Nat
  words : List StringRef
  deriving DecidableEq, Repr

namespace Demangler

open Lib (Prog)

/-- Why the demangler stops: it returns `nullptr`, or an `int` overflows, or a loop of the model runs
out of fuel. -/
inductive Failure where
  | nullptr
  | overflow
  | fuel
  deriving DecidableEq, Repr

def peekChar : Prog Demangler Failure (BitVec 8) := fun d => (.ok (d.text.getD d.pos 0), d)

def nextChar : Prog Demangler Failure (BitVec 8) := fun d =>
  if d.text.length ≤ d.pos then (.ok 0, d)
  else (.ok (d.text.getD d.pos 0), { d with pos := d.pos + 1 })

def nextIf (c : BitVec 8) : Prog Demangler Failure Bool := fun d =>
  if d.text.getD d.pos 0 ≠ c then (.ok false, d) else (.ok true, { d with pos := d.pos + 1 })

/-- Arithmetic of type `int`. -/
def checkInt (x : Nat) : Prog Demangler Failure Nat :=
  match int x with
  | none => Prog.throw .overflow
  | some y => pure y

/-- The `while` loop of `demangleNatural`; `none` for `-1000`. -/
def naturalLoop : Nat → Nat → Prog Demangler Failure (Option Nat)
  | 0, _ => Prog.throw .fuel
  | fuel + 1, num => do
    let c ← peekChar
    if Mangle.isDigit c then do
      let newNum ← checkInt (10 * num + (c.toNat - 0x30))
      if newNum < num then pure none
      else do
        let _ ← nextChar
        naturalLoop fuel newNum
    else pure (some num)

def demangleNatural : Prog Demangler Failure (Option Nat) := do
  let c ← peekChar
  let d ← Prog.get
  if Mangle.isDigit c then naturalLoop (d.text.length + 1) 0 else pure none

/-- The loop over word substitutions. -/
def wordSubsts : Nat → Bool → StringRef → Prog Demangler Failure (Bool × StringRef)
  | 0, _, _ => Prog.throw .fuel
  | fuel + 1, hasWordSubsts, identifier => do
    let c ← peekChar
    if hasWordSubsts && Mangle.isLetter c then do
      let c ← nextChar
      let wordIdx := if Mangle.isLowerLetter c then c.toNat - 0x61 else c.toNat - 0x41
      let hasWordSubsts := Mangle.isLowerLetter c
      let d ← Prog.get
      if d.words.length ≤ wordIdx then Prog.throw .nullptr
      else wordSubsts fuel hasWordSubsts (identifier ++ d.words.getD wordIdx [])
    else pure (hasWordSubsts, identifier)

/-- What `demangleIdentifier` does at the end of a word. -/
def addWord (slice : StringRef) (words : List StringRef) (wordStartPos idx : Nat) : List StringRef :=
  if 2 ≤ idx - wordStartPos ∧ words.length < maxNumWords then
    words ++ [substr slice wordStartPos (idx - wordStartPos)]
  else words

/-- A slice of `numChars` characters, appended to the identifier. -/
def appendSlice (isPunycoded : Bool) (numChars : Nat) (identifier : StringRef) :
    Prog Demangler Failure StringRef := fun d =>
  if d.text.length < d.pos + numChars then (.error .nullptr, d)
  else
    let slice := substr d.text d.pos numChars
    if isPunycoded then
      match Punycode.decodePunycodeUTF8 slice with
      | none => (.error .overflow, d)
      | some (false, _) => (.error .nullptr, d)
      | some (true, punycodedString) =>
        (.ok (identifier ++ punycodedString), { d with pos := d.pos + numChars })
    else
      (.ok (identifier ++ slice),
        { d with pos := d.pos + numChars, words := scanWords slice (addWord slice) d.words })

/-- The `do` loop of `demangleIdentifier`. -/
def identifierLoop (isPunycoded : Bool) : Nat → Bool → StringRef → Prog Demangler Failure StringRef
  | 0, _, _ => Prog.throw .fuel
  | fuel + 1, hasWordSubsts, identifier => do
    let d ← Prog.get
    let (hasWordSubsts, identifier) ← wordSubsts (d.text.length + 1) hasWordSubsts identifier
    if ← nextIf 0x30 then pure identifier
    else do
      match ← demangleNatural with
      | none => Prog.throw .nullptr
      | some numChars =>
        if numChars = 0 then Prog.throw .nullptr
        else do
          if isPunycoded then do
            let _ ← nextIf 0x5F
          let identifier ← appendSlice isPunycoded numChars identifier
          if hasWordSubsts then identifierLoop isPunycoded fuel hasWordSubsts identifier
          else pure identifier

/-- `demangleIdentifier`: the text of the node it creates. -/
def demangleIdentifier : Prog Demangler Failure StringRef := do
  let c ← peekChar
  if !Mangle.isDigit c then Prog.throw .nullptr
  else do
    let (isPunycoded, hasWordSubsts) ← do
      if c == 0x30 then do
        let _ ← nextChar
        if ← nextIf 0x30 then pure (true, false) else pure (false, true)
      else pure (false, false)
    let d ← Prog.get
    let identifier ← identifierLoop isPunycoded (d.text.length + 1) hasWordSubsts []
    if identifier.isEmpty then Prog.throw .nullptr else pure identifier

end Demangler

end SwiftKStdlib.Demangling
