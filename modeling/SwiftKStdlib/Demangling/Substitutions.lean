import SwiftKStdlib.Demangling.MangleIdentifier

/-!
# One-letter substitutions

* `SubstitutionMerging.tryMergeSubst`, `mangleSubst` : how the mangler writes them, merged;
* `NodeDemangler` : the demangler with its stack of nodes and its substitutions;
* `demangleMultiSubstitutions`, `demangleStandardSubstitution` : how it reads them;
* `demangleOperator`, `Step`, `ParsesAndPushes` : the loop around them, with the other operators as a
  parameter.
-/

namespace SwiftKStdlib.Demangling

open Lib (Prog)
open Mangle

def literal (s : String) : StringRef := s.toList.map fun c => char c.toNat

/-! ## Mangling -/

namespace Mangle

structure SubstitutionMerging where
  lastSubstPosition : Nat
  lastSubstSize : Nat
  lastNumSubsts : Nat
  lastSubstIsStandardSubst : Bool

def maxRepeatCount : Nat := 2048

namespace SubstitutionMerging

def init : SubstitutionMerging := ⟨0, 0, 0, false⟩

def remember (buffer : StringRef) (isStandardSubst : Bool) : SubstitutionMerging :=
  ⟨buffer.length + 1, 1, 1, isStandardSubst⟩

/-- Whether the substitution was merged, and the buffer then. -/
def tryMergeSubst (m : SubstitutionMerging) (buffer : StringRef) (subst : BitVec 8)
    (isStandardSubst : Bool) : Bool × SubstitutionMerging × StringRef :=
  if 0 < m.lastNumSubsts ∧ m.lastNumSubsts < maxRepeatCount ∧
      buffer.length = m.lastSubstPosition + m.lastSubstSize ∧
      m.lastSubstIsStandardSubst = isStandardSubst then
    let lastSubst := buffer.getLastD 0
    if lastSubst ≠ subst ∧ isStandardSubst = false then
      -- `AB` becomes `AbC`
      let lower := char (lastSubst.toNat - 0x41 + 0x61)
      (true, ⟨buffer.length, 1, 1, m.lastSubstIsStandardSubst⟩, buffer.dropLast ++ [lower, subst])
    else if lastSubst = subst then
      -- `AB` becomes `A2B`
      let buffer' := buffer.take m.lastSubstPosition ++ decimal (m.lastNumSubsts + 1) ++ [subst]
      (true, ⟨m.lastSubstPosition, buffer'.length - m.lastSubstPosition, m.lastNumSubsts + 1,
        m.lastSubstIsStandardSubst⟩, buffer')
    else (false, remember buffer isStandardSubst, buffer)
  else (false, remember buffer isStandardSubst, buffer)

end SubstitutionMerging

structure SubstMangler where
  merging : SubstitutionMerging
  buffer : StringRef

def substOperator (isStandardSubst : Bool) : BitVec 8 := if isStandardSubst then 0x53 else 0x41

/-- `mangleSubstitution` and `tryAppendStandardSubstitution`, for a one-letter substitution. -/
def mangleSubst (m : SubstMangler) (subst : BitVec 8) (isStandardSubst : Bool) : SubstMangler :=
  match m.merging.tryMergeSubst m.buffer subst isStandardSubst with
  | (true, merging, buffer) => ⟨merging, buffer⟩
  | (false, merging, buffer) => ⟨merging, buffer ++ [substOperator isStandardSubst, subst]⟩

end Mangle

/-! ## Nodes -/

/-- `Node::Kind`: the kinds that the modelled operators make, and the rest. -/
inductive NodeKind where
  | Module | Identifier | Structure | Enum | TypeKind | TypeList | BoundGenericEnum
  | other (kind : Nat)
  deriving DecidableEq, Repr

inductive Node where
  | mk (kind : NodeKind) (text : Option StringRef) (children : List Node)

def Node.kind : Node → NodeKind
  | .mk kind _ _ => kind

def createSwiftType (typeKind : NodeKind) (name : String) : Node :=
  .mk .TypeKind none [.mk typeKind none [.mk .Module (some (literal "Swift")) [],
    .mk .Identifier (some (literal name)) []]]

/-- `StandardTypesMangling.def`. -/
def standardTypes : List (BitVec 8 × NodeKind × String) :=
  [(0x61, .Structure, "Array"), (0x62, .Structure, "Bool"), (0x63, .Structure, "UnicodeScalar"),
   (0x64, .Structure, "Double"), (0x66, .Structure, "Float"), (0x69, .Structure, "Int"),
   (0x56, .Structure, "UnsafeRawPointer"), (0x76, .Structure, "UnsafeMutableRawPointer"),
   (0x50, .Structure, "UnsafePointer"), (0x70, .Structure, "UnsafeMutablePointer"),
   (0x52, .Structure, "UnsafeBufferPointer"), (0x72, .Structure, "UnsafeMutableBufferPointer"),
   (0x53, .Structure, "String"), (0x75, .Structure, "UInt"), (0x71, .Enum, "Optional"),
   (0x51, .Enum, "ImplicitlyUnwrappedOptional")]

def createStandardSubstitution (subst : BitVec 8) : Option Node :=
  (standardTypes.find? fun t => t.1 = subst).map fun t => createSwiftType t.2.1 t.2.2

/-! ## Demangling -/

/-- What the operators change besides the position. -/
structure Nodes where
  words : List StringRef
  nodeStack : List Node
  substitutions : List Node

structure NodeDemangler where
  text : StringRef
  pos : Nat
  nodes : Nodes

namespace NodeDemangler

open Demangler (Failure)

def onText {α : Type} (x : Prog Demangler Failure α) : Prog NodeDemangler Failure α := fun d =>
  match x ⟨d.text, d.pos, d.nodes.words⟩ with
  | (r, d') => (r, ⟨d'.text, d'.pos, { d.nodes with words := d'.words }⟩)

def pushBack : Prog NodeDemangler Failure Unit := fun d => (.ok (), { d with pos := d.pos - 1 })

def push (d : NodeDemangler) (nd : Node) : NodeDemangler :=
  { d with nodes := { d.nodes with nodeStack := d.nodes.nodeStack ++ [nd] } }

def pushNode (nd : Node) : Prog NodeDemangler Failure Unit := fun d => (.ok (), d.push nd)

def popNode (kind : NodeKind) : Prog NodeDemangler Failure (Option Node) := fun d =>
  match d.nodes.nodeStack.getLast? with
  | none => (.ok none, d)
  | some nd =>
    if nd.kind = kind then
      (.ok (some nd), { d with nodes := { d.nodes with nodeStack := d.nodes.nodeStack.dropLast } })
    else (.ok none, d)

def addSubstitution (nd : Node) : Prog NodeDemangler Failure Unit := fun d =>
  (.ok (), { d with nodes := { d.nodes with substitutions := d.nodes.substitutions ++ [nd] } })

/-- `while (RepeatCount-- > 1) pushNode(Nd)`. -/
def pushRepeated (nd : Node) : Nat → Prog NodeDemangler Failure Unit
  | 0 => pure ()
  | n + 1 => do
    pushNode nd
    pushRepeated nd n

/-- The node at an index of the substitutions; `none` is a `nullptr`. -/
def substitutionAt (idx : Nat) : Prog NodeDemangler Failure Node := fun d =>
  match d.nodes.substitutions[idx]? with
  | none => (.error .nullptr, d)
  | some nd => (.ok nd, d)

/-- `repeatCount` is `none` for `-1`. -/
def pushMultiSubstitutions (repeatCount : Option Nat) (substIdx : Nat) :
    Prog NodeDemangler Failure Node := do
  let nd ← substitutionAt substIdx
  if maxRepeatCount < repeatCount.getD 0 then Prog.throw .nullptr
  else do
    pushRepeated nd (repeatCount.getD 0 - 1)
    pure nd

/-- `RepeatCount + 27`. -/
def largeIndex : Option Nat → Nat
  | none => 26
  | some n => n + 27

/-- The `while` loop of `demangleMultiSubstitutions`. -/
def multiSubstitutionsLoop : Nat → Option Nat → Prog NodeDemangler Failure Node
  | 0, _ => Prog.throw .fuel
  | fuel + 1, repeatCount => do
    let c ← onText Demangler.nextChar
    if c = 0 then Prog.throw .nullptr
    else if isLowerLetter c then do
      let nd ← pushMultiSubstitutions repeatCount (c.toNat - 0x61)
      pushNode nd
      multiSubstitutionsLoop fuel none
    else if isUpperLetter c then pushMultiSubstitutions repeatCount (c.toNat - 0x41)
    else if c = 0x5F then do
      -- a large index, not a repeat count
      let idx ← onText (Demangler.checkInt (largeIndex repeatCount))
      substitutionAt idx
    else do
      pushBack
      match ← onText Demangler.demangleNatural with
      | none => Prog.throw .nullptr
      | some n => multiSubstitutionsLoop fuel (some n)

def demangleMultiSubstitutions : Prog NodeDemangler Failure Node := do
  let d ← Prog.get
  multiSubstitutionsLoop (d.text.length + 1) none

def demangleStandardSubstitution : Prog NodeDemangler Failure Node := do
  let c ← onText Demangler.nextChar
  if c = 0x6F then pure (.mk .Module (some (literal "__C")) [])
  else if c = 0x43 then pure (.mk .Module (some (literal "__C_Synthesized")) [])
  else if c = 0x67 then do
    match ← popNode .TypeKind with
    | none => Prog.throw .nullptr
    | some type =>
      let optionalTy := .mk .TypeKind none [.mk .BoundGenericEnum none
        [createSwiftType .Enum "Optional", .mk .TypeList none [type]]]
      addSubstitution optionalTy
      pure optionalTy
  else do
    pushBack
    let repeatCount ← onText Demangler.demangleNatural
    if maxRepeatCount < repeatCount.getD 0 then Prog.throw .nullptr
    else do
      let c ← onText Demangler.nextChar
      match createStandardSubstitution c with
      | none => Prog.throw .nullptr
      | some nd =>
        pushRepeated nd (repeatCount.getD 0 - 1)
        pure nd

/-- `demangleIdentifier`, with the node it creates. -/
def demangleIdentifier : Prog NodeDemangler Failure Node := do
  let identifier ← onText Demangler.demangleIdentifier
  let ident := .mk .Identifier (some identifier) []
  addSubstitution ident
  pure ident

variable (demangleOther : BitVec 8 → Prog NodeDemangler Failure Node)

/-- The operators besides substitutions and identifiers are `demangleOther`. -/
def demangleOperator : Prog NodeDemangler Failure Node := do
  let c ← onText Demangler.nextChar
  if c = 0x41 then demangleMultiSubstitutions
  else if c = 0x53 then demangleStandardSubstitution
  else if isDigit c then do
    pushBack
    demangleIdentifier
  else demangleOther c

/-- One round of `parseAndPushNodes`. -/
def Step (d d' : NodeDemangler) : Prop :=
  d.pos < d.text.length ∧ ∃ nd d₁, demangleOperator demangleOther d = (.ok nd, d₁) ∧ d' = d₁.push nd

/-- The round of `parseAndPushNodes` that returns `false`. -/
def Stops (d d' : NodeDemangler) : Prop :=
  d.pos < d.text.length ∧ ∃ e, demangleOperator demangleOther d = (.error e, d')

/-- `parseAndPushNodes`: its result, and the demangler then. -/
inductive ParsesAndPushes : NodeDemangler → Bool → NodeDemangler → Prop where
  | finish (d : NodeDemangler) : d.text.length ≤ d.pos → ParsesAndPushes d true d
  | stop (d d' : NodeDemangler) : Stops demangleOther d d' → ParsesAndPushes d false d'
  | step (d d' d'' : NodeDemangler) (r : Bool) : Step demangleOther d d' →
      ParsesAndPushes d' r d'' → ParsesAndPushes d r d''

end NodeDemangler

/-! ## Sequences of substitutions and other text -/

/-- What the mangler appends: an `A` substitution, an `S` substitution with a one-letter code, or
other text. -/
inductive Appended where
  | index (idx : Fin 26)
  | standard (code : BitVec 8) (h : (createStandardSubstitution code).isSome = true)
  | text (t : StringRef)

namespace Appended

/-- Mangled with merging. -/
def mangle (m : SubstMangler) : Appended → SubstMangler
  | index idx => mangleSubst m (char (0x41 + idx)) false
  | standard code _ => mangleSubst m code true
  | text t => { m with buffer := m.buffer ++ t }

/-- Mangled alone. -/
def unmerged : Appended → StringRef
  | index idx => [0x41, char (0x41 + idx)]
  | standard code _ => [0x53, code]
  | text t => t

end Appended

def mergedText (items : List Appended) : StringRef :=
  (items.foldl Appended.mangle ⟨SubstitutionMerging.init, []⟩).buffer

def unmergedText (items : List Appended) : StringRef := items.flatMap Appended.unmerged

end SwiftKStdlib.Demangling
