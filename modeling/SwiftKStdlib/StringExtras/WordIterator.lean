import SwiftKStdlib.StringExtras.Strings

/-!
# Camel case words

* `computeNextPosition`, `computePrevPosition` : the two scanners;
* `WordIterator` : a position with the cached results of the scanners, and its operators;
* `ReverseWordIterator` : `std::reverse_iterator` over it;
* `getFirstWord`, `getLastWord` : the words at the two ends;
* `words`, `reverseWords` : loops over `getWords`, forwards and backwards.
-/

namespace SwiftKStdlib.StringExtras

/-- A value of type `unsigned`. -/
def unsigned (x : Nat) : Nat := x % 2 ^ 32

/-- What the bit-fields `NextPosition` and `PrevPosition` hold of `x`. -/
def bits31 (x : Nat) : Nat := x % 2 ^ 31

def isPluralSuffix (word : StringRef) : Bool :=
  word == literal "s" || word == literal "es" || word == literal "ies"

/-- The characters that the scanners call neither an uppercase letter nor an underscore. -/
def isOther (c : BitVec 8) : Bool := !isUppercase c && c != underscore

/-- `while (i < n && p(String[i])) ++i;` -/
def skip (String : StringRef) (p : BitVec 8 → Bool) (i n : Nat) : Nat :=
  i + (((String.take n).drop i).takeWhile p).length

/-- `while (i > 0 && p(String[i-1])) --i;` -/
def skipBack (String : StringRef) (p : BitVec 8 → Bool) (i : Nat) : Nat :=
  i - ((String.take i).reverse.takeWhile p).length

/-- The character at `i` is in `p`. -/
def charAt (String : StringRef) (i : Nat) (p : BitVec 8 → Bool) : Bool := String[i]?.any p

/-- The next position after `Position`. -/
def computeNextPosition (String : StringRef) (Position : Nat) : Option Nat := do
  guard (Position < String.length)
  let n := unsigned String.length
  -- an underscore is a word on its own
  if charAt String Position (· == underscore) then return bits31 (Position + 1)
  let i := skip String isUppercase Position n
  if i - Position > 1 then
    -- an acronym
    let endOfNext := skip String isLowercase i n
    if i == n || (isPluralSuffix (String.slice i endOfNext) && String.slice (i - 1) endOfNext != literal "Is") then
      return bits31 endOfNext
    else if charAt String i isLowercase then return bits31 (i - 1)
    else return bits31 i
  else return bits31 (skip String isOther i n)

/-- The position before `Position`. -/
def computePrevPosition (String : StringRef) (Position : Nat) : Option Nat := do
  guard (0 < Position)
  let i := skipBack String isOther Position
  let plural := decide (0 < i) && isPluralSuffix (String.slice i Position)
  let effectiveEndPosition := if plural then i else Position
  let i := if plural then skipBack String isOther i else i
  if i < effectiveEndPosition then
    -- a word that is not an acronym
    if i != 0 && charAt String i isLowercase && !charAt String (i - 1) (· == underscore) then return bits31 (i - 1)
    else return bits31 i
  else if charAt String (i - 1) (· == underscore) then return bits31 (i - 1)
  else return bits31 (skipBack String isUppercase i)

/-- A position in a string. A cached position is `none` where its `Valid` flag is not set. -/
structure WordIterator where
  String : StringRef
  Position : Nat
  NextPosition : Option Nat
  PrevPosition : Option Nat
  deriving DecidableEq, Repr

/-- `WordIterator(string, position)`. -/
def wordIterator (string : StringRef) (position : Nat) : Option WordIterator := do
  guard (!string.isEmpty)
  return { String := string, Position := unsigned position, NextPosition := none, PrevPosition := none }

namespace WordIterator

/-- The next position, computed where it is not cached. -/
def nextPosition (it : WordIterator) : Option Nat :=
  match it.NextPosition with
  | some next => some next
  | none => computeNextPosition it.String it.Position

/-- The previous position, computed where it is not cached. -/
def prevPosition (it : WordIterator) : Option Nat :=
  match it.PrevPosition with
  | some prev => some prev
  | none => computePrevPosition it.String it.Position

/-- `*it`, with the iterator that has cached the position. -/
def deref (it : WordIterator) : Option (StringRef × WordIterator) := do
  let next ← it.nextPosition
  return (it.String.slice it.Position next, { it with NextPosition := some next })

/-- `++it`. -/
def next (it : WordIterator) : Option WordIterator := do
  let next ← it.nextPosition
  return { it with Position := next, NextPosition := none, PrevPosition := some (bits31 it.Position) }

/-- `--it`. -/
def prev (it : WordIterator) : Option WordIterator := do
  let prev ← it.prevPosition
  return { it with Position := prev, NextPosition := some (bits31 it.Position), PrevPosition := none }

end WordIterator

/-- `std::reverse_iterator<WordIterator>`, with the iterator that it is made from. -/
structure ReverseWordIterator where
  base : WordIterator
  deriving DecidableEq, Repr

namespace ReverseWordIterator

/-- `*it`: the word before the base. -/
def deref (it : ReverseWordIterator) : Option StringRef := do
  let tmp ← it.base.prev
  let (word, _) ← tmp.deref
  return word

/-- `++it`. -/
def next (it : ReverseWordIterator) : Option ReverseWordIterator := do return ⟨← it.base.prev⟩

/-- `--it`. -/
def prev (it : ReverseWordIterator) : Option ReverseWordIterator := do return ⟨← it.base.next⟩

end ReverseWordIterator

def getFirstWord (string : StringRef) : Option StringRef :=
  if string.isEmpty then some [] else do
    let (word, _) ← (← wordIterator string 0).deref
    return word

def getLastWord (string : StringRef) : Option StringRef :=
  if string.isEmpty then some [] else do
    let it ← (← wordIterator string string.length).prev
    let (word, _) ← it.deref
    return word

/-- The loop from `it` to the position `last` over the words, each with the position that it begins at. -/
def words : Nat → WordIterator → Nat → Option (List (Nat × StringRef))
  | 0, _, _ => none
  | fuel + 1, it, last =>
    if it.Position = last then some [] else do
      let (word, it) ← it.deref
      let rest ← words fuel (← it.next) last
      return (it.Position, word) :: rest

/-- The loop backwards from `it` to the position `first`. -/
def reverseWords : Nat → ReverseWordIterator → Nat → Option (List (Nat × StringRef))
  | 0, _, _ => none
  | fuel + 1, it, first =>
    if it.base.Position = first then some [] else do
      let word ← it.deref
      let it ← it.next
      let rest ← reverseWords fuel it first
      return (it.base.Position, word) :: rest

end SwiftKStdlib.StringExtras
