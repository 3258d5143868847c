import SwiftKStdlib.StringExtras.TypeNames

/-!
# Omitting needless words from a name

* `MatchState`, `matchWords` : the loop that matches the last words of a type name to the words of a
  name, with one definition for each of its special cases;
* `stripMatched` : what is done with the matched words, by the role of the name;
* `omitNeedlessWords` : the function of the source on one name.
-/

namespace SwiftKStdlib.StringExtras

open Lib

/-- The role of a name in a signature. -/
inductive NameRole where
  | BaseName
  | BaseNameSelf
  | FirstParameter
  | SubsequentParameter
  | Property
  | Partial
  deriving DecidableEq, Repr

/-- What the matching loop works on. -/
structure MatchState where
  nameWordRevIter : ReverseWordIterator
  firstMatchingNameWordRevIter : ReverseWordIterator
  anyMatches : Bool
  typeName : StringRef
  typeWordRevIter : ReverseWordIterator
  deriving DecidableEq, Repr

namespace MatchState

/-- `matched`: the first match is noted. -/
def matched (s : MatchState) : MatchState :=
  if s.anyMatches then s
  else { s with anyMatches := true, firstMatchingNameWordRevIter := s.nameWordRevIter }

def namePosition (s : MatchState) : Nat := s.nameWordRevIter.base.Position

def firstPosition (s : MatchState) : Nat := s.firstMatchingNameWordRevIter.base.Position

/-- `++nameWordRevIter; ++typeWordRevIter;` behind a match. -/
def advance (s : MatchState) : Option MatchState := do
  return { s.matched with nameWordRevIter := ← s.nameWordRevIter.next, typeWordRevIter := ← s.typeWordRevIter.next }

def sameWord (s : MatchState) (nameWord typeWord : StringRef) : Option (Option MatchState) := do
  if matchNameWordToTypeWord nameWord typeWord then return some (← s.advance)
  return none

/-- "Indexes" and "Indices" match "IndexSet". -/
def indexSet (s : MatchState) (nameWord typeWord : StringRef) : Option (Option MatchState) := do
  if (matchNameWordToTypeWord nameWord (literal "Indexes") || matchNameWordToTypeWord nameWord (literal "Indices"))
      && typeWord == literal "Set" then
    let nextTypeWordRevIter ← s.typeWordRevIter.next
    if nextTypeWordRevIter.base.Position != 0 then
      if matchNameWordToTypeWord (literal "Index") (← nextTypeWordRevIter.deref) then
        let nameWordRevIter ← s.nameWordRevIter.next
        let typeWordRevIter ← nextTypeWordRevIter.next
        return some { s.matched with nameWordRevIter, typeWordRevIter }
  return none

/-- "Index" matches "Int" and "Integer". -/
def indexInt (s : MatchState) (nameWord typeWord : StringRef) : Option (Option MatchState) := do
  if matchNameWordToTypeWord nameWord (literal "Index")
      && (matchNameWordToTypeWord (literal "Int") typeWord || matchNameWordToTypeWord (literal "Integer") typeWord) then
    return some (← s.advance)
  return none

/-- "ObjectValue" matches "Object". -/
def objectValue (s : MatchState) (nameWord typeWord : StringRef) : Option (Option MatchState) := do
  if matchNameWordToTypeWord (literal "Object") typeWord && matchNameWordToTypeWord nameWord (literal "Value") then
    let nextNameWordRevIter ← s.nameWordRevIter.next
    if nextNameWordRevIter.base.Position != 0 then
      if matchNameWordToTypeWord (← nextNameWordRevIter.deref) (literal "Object") then
        let nameWordRevIter ← nextNameWordRevIter.next
        let typeWordRevIter ← s.typeWordRevIter.next
        return some { s.matched with nameWordRevIter, typeWordRevIter }
  return none

/-- `while (nameWordRevIter.base().getPosition() > targetSize) ++nameWordRevIter;` -/
def skipTo.body (targetSize : Nat) (it : ReverseWordIterator) : Option (Step ReverseWordIterator ReverseWordIterator) :=
  if it.base.Position > targetSize then do return .next (← it.next) else return .done it

/-- Omit the words of the element type from the name without its plural ending. -/
def omitPlural (omitElement : StringRef → Option StringRef) (shortenedNameWord : StringRef) : Option StringRef := do
  let newShortenedNameWord ← omitElement shortenedNameWord
  if shortenedNameWord == newShortenedNameWord && shortenedNameWord.getLast? == (literal "e").head? then
    -- the result of `drop_back` is not used: the same name is tried again
    omitElement shortenedNameWord
  else return newShortenedNameWord

/-- The plural of the element type of a collection; `omitElement` omits the words of that type. -/
def plural (omitElement : StringRef → Option StringRef) (name : StringRef) (collectionElement : StringRef)
    (role : NameRole) (s : MatchState) (nameWord : StringRef) : Option (Option MatchState) := do
  if !collectionElement.isEmpty && nameWord.length > 2 && nameWord.getLast? == (literal "s").head?
      && role != .BaseNameSelf then
    let shortenedNameWord := name.substr 0 (s.namePosition - 1)
    let newShortenedNameWord ← omitPlural omitElement shortenedNameWord
    if shortenedNameWord != newShortenedNameWord then
      let nameWordRevIter ← iterate (skipTo.body newShortenedNameWord.length) (name.length + 1) s.nameWordRevIter
      return some { s.matched with nameWordRevIter }
  return none

/-- A suffix of the type name that can be dropped, while no word of the name is passed. -/
def typeSuffix (name : StringRef) (s : MatchState) : Option (Option MatchState) := do
  if s.namePosition == unsigned name.length then
    if let some withoutSuffix ← skipTypeSuffix s.typeName then
      let rend ← wordIterator withoutSuffix withoutSuffix.length
      return some { s with typeName := withoutSuffix, typeWordRevIter := ⟨rend⟩ }
  return none

/-- The words of the name before any match, for the type of 'Self'. -/
def skipWord (role : NameRole) (s : MatchState) : Option (Option MatchState) := do
  if role == .BaseNameSelf && !s.anyMatches then
    return some { s with nameWordRevIter := ← s.nameWordRevIter.next }
  return none

end MatchState

/-- The first of the cases that applies. -/
def firstCase {α : Type} : List (Option (Option α)) → Option (Option α)
  | [] => some none
  | case :: cases => do
    match ← case with
    | some a => return some a
    | none => firstCase cases

/-- One iteration of the matching loop. -/
def matchWords.body (omitElement : StringRef → Option StringRef) (name collectionElement : StringRef) (role : NameRole)
    (s : MatchState) : Option (Step MatchState MatchState) := do
  if s.namePosition == 0 || s.typeWordRevIter.base.Position == 0 then return .done s
  let nameWord ← s.nameWordRevIter.deref
  let typeWord ← s.typeWordRevIter.deref
  let next ← firstCase [s.sameWord nameWord typeWord, s.indexSet nameWord typeWord, s.indexInt nameWord typeWord,
    s.objectValue nameWord typeWord, s.plural omitElement name collectionElement role nameWord, s.typeSuffix name,
    s.skipWord role]
  match next with
  | some s => return .next s
  | none => return .done s

/-- Match the last words of the type name to words of the name. -/
def matchWords (omitElement : StringRef → Option StringRef) (name : StringRef) (typeName : OmissionTypeName)
    (role : NameRole) : Option MatchState := do
  let nameWordRevIter ← wordIterator name name.length
  let typeWordRevIter ← wordIterator typeName.Name typeName.Name.length
  iterate (matchWords.body omitElement name typeName.CollectionElement role) (name.length + typeName.Name.length + 1)
    { nameWordRevIter := ⟨nameWordRevIter⟩, firstMatchingNameWordRevIter := ⟨nameWordRevIter⟩, anyMatches := false,
      typeName := typeName.Name, typeWordRevIter := ⟨typeWordRevIter⟩ }

/-- The check of the result: a name that is no member name, or is vacuous, is not taken. -/
def checkName (role : NameRole) (origName name : StringRef) : StringRef :=
  match role with
  | .BaseName | .BaseNameSelf | .Property =>
    if !canBeMemberName name then origName
    else if isVacuousName name then origName
    else name
  | .SubsequentParameter | .FirstParameter | .Partial => name

/-- Strip off the part of the name that is redundant with type information, unless there is a
corresponding property. -/
def stripRedundant (name : StringRef) (role : NameRole) (allPropertyNames : Option InheritedNameSet) (s : MatchState) :
    Option StringRef := do
  if role == .BaseName then
    if ← textMatchesPropertyName (name.drop s.namePosition) allPropertyNames then return name
  return checkName role name (name.substr 0 s.namePosition)

/-- Splice together the parts before and after the matched words. -/
def splice (name : StringRef) (role : NameRole) (allPropertyNames : Option InheritedNameSet) (s : MatchState) :
    Option StringRef := do
  let removedText := name.substr s.namePosition s.firstPosition
  if ← textMatchesPropertyName removedText allPropertyNames then return name
  return checkName role name (name.substr 0 s.namePosition ++ name.drop s.firstPosition)

/-- The only matched word is "Error", at the end of the name. -/
def justError (name : StringRef) (s : MatchState) : Option Bool := do
  if s.namePosition != unsigned name.length then
    let nameWordPrev ← s.nameWordRevIter.prev
    if nameWordPrev.base.Position == unsigned name.length then return (← nameWordPrev.deref) == literal "Error"
  return false

/-- The base name of a method, against the type of 'Self'. -/
def stripSelf (name : StringRef) (role : NameRole) (allPropertyNames : Option InheritedNameSet) (s : MatchState) :
    Option StringRef := do
  match getPartOfSpeech (← s.nameWordRevIter.deref) with
  | .Verb => splice name role allPropertyNames s
  | .Preposition | .Gerund | .Unknown => return name

/-- The other names: the part of speech of the word before the type information decides. -/
def stripWord (name : StringRef) (role : NameRole) (allPropertyNames : Option InheritedNameSet) (s : MatchState) :
    Option StringRef := do
  match getPartOfSpeech (← s.nameWordRevIter.deref) with
  | .Preposition =>
    if role == .BaseName then
      let next ← s.nameWordRevIter.next
      if next.base.Position != 0 then return checkName role name (name.substr 0 s.namePosition)
      else return checkName role name name
    else stripRedundant name role allPropertyNames s
  | .Verb | .Gerund => stripRedundant name role allPropertyNames s
  | .Unknown => return checkName role name name

def stripMatched (name : StringRef) (role : NameRole) (allPropertyNames : Option InheritedNameSet) (s : MatchState) :
    Option StringRef := do
  if s.namePosition == 0 then
    -- the complete name
    if role == .Partial || role == .FirstParameter then return [] else return name
  else if ← justError name s then return name
  else
    match role with
    | .Property => return checkName role name (name.substr 0 s.namePosition)
    | .BaseNameSelf => stripSelf name role allPropertyNames s
    | .BaseName | .FirstParameter | .Partial | .SubsequentParameter => stripWord name role allPropertyNames s

/-- Omit needless words from one name, with `omitElement` for the element type of a collection. -/
def omitNeedlessWords.with (omitElement : StringRef → Option StringRef) (name : StringRef) (typeName : OmissionTypeName)
    (role : NameRole) (allPropertyNames : Option InheritedNameSet) : Option StringRef := do
  if name.isEmpty || typeName.empty then return name
  let s ← matchWords omitElement name typeName role
  if s.anyMatches then stripMatched name role allPropertyNames s
  else return checkName role name name

/-- Omit the words of the element type of a collection, which has no element type of its own. -/
def omitElement (collectionElement : StringRef) (allPropertyNames : Option InheritedNameSet) (name : StringRef) :
    Option StringRef :=
  omitNeedlessWords.with (fun _ => none) name (.ofString collectionElement) .Partial allPropertyNames

def omitNeedlessWords (name : StringRef) (typeName : OmissionTypeName) (role : NameRole)
    (allPropertyNames : Option InheritedNameSet) : Option StringRef :=
  omitNeedlessWords.with (omitElement typeName.CollectionElement allPropertyNames) name typeName role allPropertyNames

end SwiftKStdlib.StringExtras
