import SwiftKStdlib.StringExtras.OmitNeedlessWords

/-!
# Omitting needless words from the names of a declaration

* `findLastPreposition`, `splitBaseNameAfterLastPreposition`, `splitBaseName` : splitting the base name;
* `baseNameBeforeSplit` : the steps for the context and the result type;
* `omitParameterNames` : the steps for the types of the parameters;
* `swift.omitNeedlessWords` : the function of the source on a whole declaration.
-/

namespace SwiftKStdlib.StringExtras

open Lib

def wordConflictsBeforePreposition (word preposition : StringRef) : Bool :=
  sameWordIgnoreFirstCase preposition (literal "in") && sameWordIgnoreFirstCase word (literal "plug")

def wordConflictsAfterPreposition (word preposition : StringRef) : Bool :=
  (sameWordIgnoreFirstCase preposition (literal "with")
    && (sameWordIgnoreFirstCase word (literal "error") || sameWordIgnoreFirstCase word (literal "no")))
  || (sameWordIgnoreFirstCase preposition (literal "to")
    && (sameWordIgnoreFirstCase word (literal "visible") || sameWordIgnoreFirstCase word (literal "backing")))
  || (sameWordIgnoreFirstCase preposition (literal "from") && sameWordIgnoreFirstCase word (literal "backing"))
  || (sameWordIgnoreFirstCase preposition (literal "and") && sameWordIgnoreFirstCase word (literal "return"))

def shouldPlacePrepositionOnArgLabel (afterPreposition : StringRef) : Bool :=
  !(afterPreposition == literal "X" || afterPreposition == literal "Y" || afterPreposition == literal "Z")

def priorWordExtendsPreposition (preceding preposition : StringRef) : Bool :=
  (sameWordIgnoreFirstCase preceding (literal "compatible") && sameWordIgnoreFirstCase preposition (literal "with"))
  || (sameWordIgnoreFirstCase preceding (literal "best") && sameWordIgnoreFirstCase preposition (literal "matching"))
  || (sameWordIgnoreFirstCase preceding (literal "according") && sameWordIgnoreFirstCase preposition (literal "to"))
  || (sameWordIgnoreFirstCase preceding (literal "bound") && sameWordIgnoreFirstCase preposition (literal "by"))
  || (sameWordIgnoreFirstCase preceding (literal "separated") && sameWordIgnoreFirstCase preposition (literal "by"))

/-- Whether the preposition of a split should be removed. -/
def isVacuousPreposition (preposition afterPreposition : StringRef) (paramType : OmissionTypeName) : Option Bool := do
  if !sameWordIgnoreFirstCase preposition (literal "with") && !sameWordIgnoreFirstCase preposition (literal "using") then
    return false
  let firstWord ← getFirstWord afterPreposition
  if sameWordIgnoreFirstCase preposition (literal "with") && sameWordIgnoreFirstCase firstWord (literal "zone") then
    return false
  return paramType.DefaultArgument || paramType.Function

/-- One iteration of `std::find_if`. -/
def findPreposition.body (it : ReverseWordIterator) : Option (Step ReverseWordIterator ReverseWordIterator) := do
  if it.base.Position == 0 then return .done it
  if getPartOfSpeech (← it.deref) == .Preposition then return .done it
  return .next (← it.next)

/-- The last preposition before the iterator, or the beginning of the string. -/
def findPreposition (first : ReverseWordIterator) : Option ReverseWordIterator :=
  iterate findPreposition.body (first.base.Position + 1) first

/-- The last preposition; the one before it if that is "of", unless it is "of" or "for". -/
def findLastPreposition (first : ReverseWordIterator) : Option ReverseWordIterator := do
  let result ← findPreposition first
  if result.base.Position != 0 then
    if sameWordIgnoreFirstCase (← result.deref) (literal "of") then
      let prevPreposition ← findPreposition (← result.next)
      if prevPreposition.base.Position != 0 then
        let word ← prevPreposition.deref
        if !sameWordIgnoreFirstCase word (literal "of") && !sameWordIgnoreFirstCase word (literal "for") then
          return prevPreposition
  return result

/-- Whether there is enough left in the base name: a keyword needs a second word, and a vacuous name a
third one. -/
def enoughWords (newBaseName : StringRef) : Option Bool := do
  let newWordsIter ← wordIterator newBaseName 0
  let newWordsEnd ← wordIterator newBaseName newBaseName.length
  let (word, newWordsIter) ← newWordsIter.deref
  let isKeyword := !canBeMemberName word
  let isVacuous := isVacuousName word
  if isKeyword || isVacuous then
    let newWordsIter ← newWordsIter.next
    if newWordsIter.Position == newWordsEnd.Position then return false
    let newWordsIter ← newWordsIter.next
    if newWordsIter.Position == newWordsEnd.Position && isVacuous then return false
  return true

/-- A conflict with the word before the preposition, or with the word behind it. -/
def prepositionConflicts (baseName preposition : StringRef) (nameWordRevIter : ReverseWordIterator) : Option Bool := do
  let next ← nameWordRevIter.next
  if next.base.Position != 0 then
    if wordConflictsBeforePreposition (← next.deref) preposition then return true
  if nameWordRevIter.base.Position != unsigned baseName.length then
    let prev ← nameWordRevIter.prev
    if wordConflictsAfterPreposition (← prev.deref) preposition then return true
  return false

/-- The preposition, with the word before it when that extends it. -/
def extendPreposition (baseName preposition : StringRef) (nameWordRevIter : ReverseWordIterator) :
    Option (ReverseWordIterator × StringRef) := do
  let next ← nameWordRevIter.next
  if next.base.Position != 0 then
    let preceding ← next.deref
    if priorWordExtendsPreposition preceding preposition then
      return (next, baseName.substr (next.base.Position - preceding.length) (preposition.length + preceding.length))
  return (nameWordRevIter, preposition)

/-- Where the base name ends and where the argument label begins. -/
def splitPositions (baseName : StringRef) (paramType : OmissionTypeName) (nameWordRevIter : ReverseWordIterator)
    (preposition : StringRef) : Option (Nat × Nat) := do
  let startOfPreposition := nameWordRevIter.base.Position - (← nameWordRevIter.deref).length
  let afterPreposition := baseName.drop (startOfPreposition + preposition.length)
  let dropPreposition ← isVacuousPreposition preposition afterPreposition paramType
  let prepositionOnArgLabel := shouldPlacePrepositionOnArgLabel afterPreposition
  let nameWordRevIter ← (if prepositionOnArgLabel then nameWordRevIter.next else some nameWordRevIter)
  let position := nameWordRevIter.base.Position
  if dropPreposition then
    if prepositionOnArgLabel then return (position, unsigned (position + preposition.length))
    else return (unsigned (position + 2 ^ 32 - preposition.length), position)
  else return (position, position)

/-- Split the base name after the last preposition: the base name and the argument label. -/
def splitBaseNameAfterLastPreposition (baseName : StringRef) (paramType : OmissionTypeName) :
    Option (Option (StringRef × StringRef)) := do
  let nameWordRevIter ← findLastPreposition ⟨← wordIterator baseName baseName.length⟩
  if nameWordRevIter.base.Position == 0 then return none
  let preposition ← nameWordRevIter.deref
  if ← prepositionConflicts baseName preposition nameWordRevIter then return none
  let (nameWordRevIter, preposition) ← extendPreposition baseName preposition nameWordRevIter
  let (endOfBaseName, startOfArgumentLabel) ← splitPositions baseName paramType nameWordRevIter preposition
  if endOfBaseName == 0 then return none
  let newBaseName := baseName.substr 0 endOfBaseName
  if !(← enoughWords newBaseName) then return none
  return some (newBaseName, baseName.drop startOfArgumentLabel)

/-- Split the base name, if it makes sense. -/
def splitBaseName (baseName argName : StringRef) (paramType : OmissionTypeName) (paramName : StringRef) :
    Option (Option (StringRef × StringRef)) := do
  if !argName.isEmpty then return none
  if paramType.Boolean && (← getLastWord baseName) == literal "Animated" then
    return some (baseName.substr 0 (baseName.length - (literal "Animated").length), literal "animated")
  if (← getFirstWord baseName) == literal "set" then return none
  if paramName == literal "sender" && (← getLastWord paramType.Name) == literal "Object" then return none
  splitBaseNameAfterLastPreposition baseName paramType

def baseNameBeforeSplit (baseName : StringRef) (contextType : OmissionTypeName) (resultTypeMatchesContext isProperty : Bool)
    (allPropertyNames : Option InheritedNameSet) : Option StringRef := do
  let baseName ← (if resultTypeMatchesContext then omitNeedlessWordsFromPrefix baseName contextType else some baseName)
  if isProperty then return baseName else omitNeedlessWords baseName contextType .BaseNameSelf allPropertyNames

/-- The names of the parameters behind the first one. -/
def omitSubsequentNames : List StringRef → List OmissionTypeName → Option (List StringRef)
  | argName :: argNames, paramType :: paramTypes => do
    let newName ← omitNeedlessWords argName paramType .SubsequentParameter none
    return newName :: (← omitSubsequentNames argNames paramTypes)
  | argNames, _ => some argNames

/-- The role of the first name. -/
def firstRole (baseName argName : StringRef) (paramType : OmissionTypeName) : NameRole :=
  if argName.isEmpty then .BaseName
  else if baseName == literal "init" then .SubsequentParameter
  else if paramType.DefaultArgument then .SubsequentParameter
  else .FirstParameter

def omitParameterNames (baseName : StringRef) (argNames : List StringRef) (paramTypes : List OmissionTypeName)
    (allPropertyNames : Option InheritedNameSet) : Option (StringRef × List StringRef) := do
  match argNames, paramTypes with
  | argName :: argNames, paramType :: paramTypes =>
    if firstRole baseName argName paramType == .BaseName then
      let baseName ← omitNeedlessWords baseName paramType .BaseName allPropertyNames
      return (baseName, argName :: (← omitSubsequentNames argNames paramTypes))
    else
      let argName ← omitNeedlessWords argName paramType (firstRole baseName argName paramType) none
      return (baseName, argName :: (← omitSubsequentNames argNames paramTypes))
  | argNames, _ => return (baseName, argNames)

/-- The steps for a declaration with parameters. -/
def omitWithParameters (baseName : StringRef) (argNames : List StringRef) (firstParamName : StringRef)
    (contextType paramType : OmissionTypeName) (paramTypes : List OmissionTypeName)
    (allPropertyNames : Option InheritedNameSet) : Option (StringRef × List StringRef) := do
  let firstWord ← getFirstWord baseName
  let baseName ← (if firstWord == literal "set" then omitNeedlessWords baseName contextType .Property allPropertyNames
    else some baseName)
  match argNames with
  | [] => omitParameterNames baseName [] (paramType :: paramTypes) allPropertyNames
  | argName :: argNames =>
    match ← splitBaseName baseName argName paramType firstParamName with
    | some (baseName, argName) =>
      omitParameterNames baseName (argName :: argNames) (paramType :: paramTypes) allPropertyNames
    | none => omitParameterNames baseName (argName :: argNames) (paramType :: paramTypes) allPropertyNames

/-- Omit needless words from the names of a declaration: the base name, the names of the arguments, and
whether any of them has changed. A step removes or lowercases characters, or fills an empty name, so that
no later step undoes a change. -/
def swift.omitNeedlessWords (baseName : StringRef) (argNames : List StringRef) (firstParamName : StringRef)
    (resultType contextType : OmissionTypeName) (paramTypes : List OmissionTypeName) (returnsSelf isProperty : Bool)
    (allPropertyNames : Option InheritedNameSet) : Option (StringRef × List StringRef × Bool) := do
  let resultTypeMatchesContext := returnsSelf || resultType.equals contextType
  let name ← baseNameBeforeSplit baseName contextType resultTypeMatchesContext isProperty allPropertyNames
  let (name, args) ← (match paramTypes with
    | [] => do
      let name ← (if resultTypeMatchesContext then
          StringExtras.omitNeedlessWords name (if returnsSelf then contextType else resultType) .Property allPropertyNames
        else some name)
      pure (name, argNames)
    | paramType :: paramTypes =>
      omitWithParameters name argNames firstParamName contextType paramType paramTypes allPropertyNames)
  let name ← toLowercaseInitialisms name
  let args ← args.mapM toLowercaseInitialisms
  return (name, args, name != baseName || args != argNames)

end SwiftKStdlib.StringExtras
