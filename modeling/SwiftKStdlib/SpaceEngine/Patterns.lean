import SwiftKStdlib.SpaceEngine.Exactness

/-!
# Patterns

* `Pattern`, `projectPattern` : patterns after type checking, and their spaces;
* `isUseful`, `computeSize` : the other questions about a space;
* `uncovered`, `isRedundant` : what `checkExhaustiveness` asks of the patterns without a guard;
* `Pattern.WellTyped`, `Pattern.Matches` : the patterns of a type, and the values they match.
-/

namespace SwiftKStdlib.SpaceEngine

/-- A pattern after type checking. Typed patterns do not occur in a `switch`. -/
inductive Pattern (Ty : Type) where
  | any (ty : Ty)
  | named (ty : Ty) (boundName : String)
  | bool (value : Bool)
  /-- A cast; `coerces` if its kind is `Coercion` or `BridgingCoercion`. -/
  | is (ty : Ty) (coerces : Bool) (identity : Nat)
  | expr (identity : Nat)
  | var (subPattern : Pattern Ty)
  | paren (subPattern : Pattern Ty)
  | optionalSome (ty : Ty) (subPattern : Pattern Ty)
  /-- An enum element with no sub-pattern. -/
  | enumElement (ty : Ty) (name : String) (downgrade : Bool)
  | enumPayload (ty : Ty) (name : String) (downgrade : Bool) (subPattern : Pattern Ty)
  | tuple (ty : Ty) (elements : List (Pattern Ty))

variable {Ty : Type}

namespace Pattern

def getSemanticsProvidingPattern : Pattern Ty → Pattern Ty
  | .var subPattern => getSemanticsProvidingPattern subPattern
  | .paren subPattern => getSemanticsProvidingPattern subPattern
  | pattern => pattern

/-- The elements of the payload, where a pattern in parentheses is projected "like the tuple it really is". -/
def payloadTuple (tc : TypeContext Ty) (subPattern : Pattern Ty) : Option (List (TupleTypeElt Ty)) :=
  match getSemanticsProvidingPattern subPattern with
  | .named ty _ => tc.asTuple ty
  | .any ty => tc.asTuple ty
  | .tuple ty _ => tc.asTuple ty
  | _ => none

end Pattern

namespace Space

/-- `.some` of the space of a sub-pattern: that of a tuple has its elements. -/
def optionalSome (ty : Ty) : Space Ty → Space Ty
  | .constructor ty' head downgrade spaces =>
    if head = "" then .constructor ty "some" false spaces
    else .constructor ty "some" false [.constructor ty' head downgrade spaces]
  | subSpace => .constructor ty "some" false [subSpace]

variable (tc : TypeContext Ty)

mutual

def projectPattern : Pattern Ty → Space Ty
  | .any ty => .type ty ""
  | .named ty boundName => .type ty boundName
  | .bool value => .booleanConstant value
  | .is ty coerces _ => if coerces then .type ty "" else .empty
  | .expr _ => .empty
  | .var subPattern => projectPattern subPattern
  | .paren subPattern => projectPattern subPattern
  | .optionalSome ty subPattern => optionalSome ty (projectPattern subPattern)
  | .enumElement ty name downgrade => .constructor ty name downgrade []
  | .enumPayload ty name _ (.tuple _ elements) => .constructor ty name false (projectPatterns elements)
  | .enumPayload ty name _ (.paren subPattern) =>
    match subPattern.payloadTuple tc with
    | some elements => .constructor ty name false (ofElements elements)
    | none => .constructor ty name false [projectPattern subPattern]
  | .enumPayload _ _ _ subPattern => projectPattern subPattern
  | .tuple ty elements => .constructor ty "" false (projectPatterns elements)

def projectPatterns : List (Pattern Ty) → List (Space Ty)
  | [] => []
  | pattern :: patterns => projectPattern pattern :: projectPatterns patterns

end

mutual

def isUseful : Space Ty → Bool
  | .empty => false
  | .type .. => true
  | .booleanConstant _ => true
  | .disjunct spaces => !spaces.isEmpty && subspacesUseful spaces
  | .constructor _ _ _ spaces => subspacesUseful spaces

def subspacesUseful : List (Space Ty) → Bool
  | [] => true
  | space :: spaces => isUseful space && subspacesUseful spaces

end

section

variable [DecidableEq Ty]

/-- The size of a space, and the types left in the cache. -/
def computeSize : Nat → Space Ty → List Ty → Option (UInt64 × List Ty)
  | 0, _, _ => none
  | fuel + 1, space, cache =>
    match space with
    | .empty => some (0, cache)
    | .booleanConstant _ => some (1, cache)
    | .type ty _ =>
      if !tc.canDecompose ty then some (1, cache)
      else do
        let (acc, cache) ← (decompose tc ty).foldlM (fun (acc, cache) sp => do
          let (size, cache) ← computeSize fuel sp cache
          return (acc + size, cache)) ((0 : UInt64), cache.insert ty)
        return (acc, cache.filter (· ≠ ty))
    | .constructor _ _ _ spaces =>
      spaces.foldlM (fun (acc, cache) sp => do
        let recursive := match sp with
          | .type ty _ => cache.contains ty
          | _ => false
        if recursive then return (acc, cache)
        let (size, cache) ← computeSize fuel sp cache
        return (acc * size, cache)) ((1 : UInt64), cache)
    | .disjunct spaces =>
      spaces.foldlM (fun (acc, cache) sp => do
        let (size, cache) ← computeSize fuel sp cache
        return (acc + size, cache)) ((0 : UInt64), cache)

def getSize (fuel : Nat) (space : Space Ty) : Option UInt64 := (computeSize tc fuel space []).map Prod.fst

/-- `MAX_SPACE_SIZE`. -/
def maximumSize : UInt64 := 128

def uncovered (fuel : Nat) (subjectType : Ty) (patterns : List (Pattern Ty)) : Option (Space Ty) := do
  return simplify tc (← minus tc fuel (.type subjectType "") (.disjunct (patterns.map (projectPattern tc))))

/-- Whether a pattern is diagnosed as handled by the patterns before it. -/
def isRedundant (fuel : Nat) (previous : List (Pattern Ty)) (pattern : Pattern Ty) : Option Bool :=
  let projection := projectPattern tc pattern
  if projection.isUseful then isSubspace tc fuel projection (.disjunct (previous.map (projectPattern tc)))
  else some false

end

end Space

/-! ## Well-typed patterns -/

variable (tc : TypeContext Ty)

/-- The payload of an enum value, as a value of the payload's type. -/
def TypeContext.IsPayload (ty : Ty) (vs : List Value) (v : Value) : Prop :=
  match tc.asTuple ty with
  | some _ => v = .constructor "" vs
  | none => vs = [v]

namespace Pattern

/-- A cast, or the payload patterns that balance its optionals. -/
def isCast : Pattern Ty → Bool
  | .is .. => true
  | .enumPayload _ _ _ subPattern => isCast subPattern
  | _ => false

def isTuple : Pattern Ty → Bool
  | .tuple .. => true
  | _ => false

def isParen : Pattern Ty → Bool
  | .paren _ => true
  | _ => false

/-- The patterns that `coercePatternToType` leaves for a type. Only a payload with a label is a tuple of one element:
its pattern in parentheses is made a tuple pattern. -/
inductive WellTyped : Ty → Pattern Ty → Prop
  | any {ty} : WellTyped ty (.any ty)
  | named {ty} (boundName : String) : WellTyped ty (.named ty boundName)
  | bool {ty} (hbool : tc.isBool ty = true) (value : Bool) : WellTyped ty (.bool value)
  | is {ty} (coerces : Bool) (identity : Nat) : WellTyped ty (.is ty coerces identity)
  | expr {ty} (identity : Nat) : WellTyped ty (.expr identity)
  | var {ty p} (h : WellTyped ty p) : WellTyped ty (.var p)
  | paren {ty p} (h : WellTyped ty p) : WellTyped ty (.paren p)
  | tuple {ty elements ps} (hty : tc.asTuple ty = some elements) (hps : ps.length = elements.length)
      (h : ∀ (i : Nat) a p, elements[i]? = some a → ps[i]? = some p → WellTyped a.type p) :
      WellTyped ty (.tuple ty ps)
  /-- An element with a payload is given a payload pattern of wildcards. -/
  | enumElement {ty elements e} (hview : tc.view ty = .enum elements) (he : e ∈ elements)
      (hvalid : e.hasInterfaceType = true) (hargument : e.argumentType = none) :
      WellTyped ty (.enumElement ty e.name e.downgrade)
  | enumPayload {ty elements e payload p} (hview : tc.view ty = .enum elements) (he : e ∈ elements)
      (hvalid : e.hasInterfaceType = true) (hargument : e.argumentType = some payload)
      (hform : p.isTuple = true ∨ p.isParen = true ∨ p.isCast = true)
      (hsingle : ∀ p' a, p = .paren p' → tc.asTuple payload = some [a] → p'.getSemanticsProvidingPattern.isTuple = true)
      (h : WellTyped payload p) : WellTyped ty (.enumPayload ty e.name e.downgrade p)
  | optionalSome {ty elements e payload p} (hview : tc.view ty = .enum elements) (he : e ∈ elements)
      (hvalid : e.hasInterfaceType = true) (hname : e.name = "some") (hargument : e.argumentType = some payload)
      (hsingle : ∀ a, tc.asTuple payload ≠ some [a]) (h : WellTyped payload p) :
      WellTyped ty (.optionalSome ty p)

/-- The values that a pattern matches, where `tests` has those of the casts and the expressions. -/
inductive Matches (tests : Nat → Value → Prop) : Pattern Ty → Value → Prop
  | any {ty v} : Matches tests (.any ty) v
  | named {ty boundName v} : Matches tests (.named ty boundName) v
  | bool {value} : Matches tests (.bool value) (.bool value)
  | is {ty coerces identity v} (h : tests identity v) : Matches tests (.is ty coerces identity) v
  | expr {identity v} (h : tests identity v) : Matches tests (.expr identity) v
  | var {p v} (h : Matches tests p v) : Matches tests (.var p) v
  | paren {p v} (h : Matches tests p v) : Matches tests (.paren p) v
  | tuple {ty ps vs} (hps : ps.length = vs.length)
      (h : ∀ (i : Nat) p v, ps[i]? = some p → vs[i]? = some v → Matches tests p v) :
      Matches tests (.tuple ty ps) (.constructor "" vs)
  | enumElement {ty name downgrade vs} : Matches tests (.enumElement ty name downgrade) (.constructor name vs)
  | enumPayload {ty elements e payload downgrade p vs v} (hview : tc.view ty = .enum elements) (he : e ∈ elements)
      (hargument : e.argumentType = some payload) (hv : tc.IsPayload payload vs v) (h : Matches tests p v) :
      Matches tests (.enumPayload ty e.name downgrade p) (.constructor e.name vs)
  | optionalSome {ty elements e payload p vs v} (hview : tc.view ty = .enum elements) (he : e ∈ elements)
      (hname : e.name = "some") (hargument : e.argumentType = some payload) (hv : tc.IsPayload payload vs v)
      (h : Matches tests p v) : Matches tests (.optionalSome ty p) (.constructor "some" vs)

mutual

/-- The pattern and its sub-patterns, at any depth. -/
def subPatterns : Pattern Ty → List (Pattern Ty)
  | .var p => .var p :: subPatterns p
  | .paren p => .paren p :: subPatterns p
  | .optionalSome ty p => .optionalSome ty p :: subPatterns p
  | .enumPayload ty name downgrade p => .enumPayload ty name downgrade p :: subPatterns p
  | .tuple ty ps => .tuple ty ps :: allSubPatterns ps
  | p => [p]

def allSubPatterns : List (Pattern Ty) → List (Pattern Ty)
  | [] => []
  | p :: ps => subPatterns p ++ allSubPatterns ps

end

end Pattern

end SwiftKStdlib.SpaceEngine
