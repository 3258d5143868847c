import Mathlib.Tactic
import SwiftKStdlib.Demangling.MangleIdentifier

/-!
# Writing JSON

* `Output` : the stream, the stack of states and the flags of `json::Output`, with its callbacks;
* `Value`, `Field` : what the traits describe, a value with the mapping of each of its fields;
* `jsonize` : writing a value, which every mapping takes by reference and may assign to;
* `afterwards` : the value that is left behind;
* `jsonize_returns` : writing succeeds, and leaves the stack as it was;
* `Kept`, `writesUnchanged_iff` : the values that writing leaves as they are.
-/

namespace SwiftKStdlib.Basic.Json

open Demangling (StringRef decimal char)

/-! ## The output -/

inductive State where
  | arrayFirstValue
  | arrayOtherValue
  | objectFirstKey
  | objectOtherKey
  deriving DecidableEq, Repr

/-- `json::Output`; the back of the stack comes first. -/
structure Output where
  stream : StringRef
  stateStack : List State
  prettyPrint : Bool
  needBitValueComma : Bool
  enumerationMatchFound : Bool
  deriving DecidableEq, Repr

namespace Output

def new (prettyPrint : Bool) : Output := ⟨[], [], prettyPrint, false, false⟩

def write (out : Output) (s : StringRef) : Output := { out with stream := out.stream ++ s }

def pretty (out : Output) (s : StringRef) : Output := if out.prettyPrint then out.write s else out

def indentation (depth : Nat) : StringRef := List.replicate (depth * 2) 0x20

def indent (out : Output) : Output := out.write (indentation out.stateStack.length)

/-- `if (PrettyPrint) indent()`. -/
def prettyIndent (out : Output) : Output := if out.prettyPrint then out.indent else out

def pushState (out : Output) (s : State) : Output := { out with stateStack := s :: out.stateStack }

def popState (out : Output) : Output := { out with stateStack := out.stateStack.tail }

def beginArray (out : Output) : Output := ((out.pushState .arrayFirstValue).write [0x5B]).pretty [0x0A]

/-- It fails where its assertion does. -/
def preflightElement (out : Output) : Option Output :=
  match out.stateStack.head? with
  | some .arrayFirstValue => some out.prettyIndent
  | some .arrayOtherValue => some ((out.write [0x2C]).pretty [0x0A]).prettyIndent
  | _ => none

def postflightElement (out : Output) : Output :=
  match out.stateStack.head? with
  | some .arrayFirstValue => out.popState.pushState .arrayOtherValue
  | _ => out

def endArray (out : Output) : Output := ((out.popState.pretty [0x0A]).prettyIndent).write [0x5D]

def canElideEmptyArray (out : Output) : Bool :=
  match out.stateStack with
  | back :: checkedState :: _ =>
    if back ≠ .objectFirstKey then true
    else checkedState ≠ .arrayFirstValue && checkedState ≠ .arrayOtherValue
  | _ => true

def beginObject (out : Output) : Output := ((out.pushState .objectFirstKey).write [0x7B]).pretty [0x0A]

def endObject (out : Output) : Output := ((out.popState.pretty [0x0A]).prettyIndent).write [0x7D]

/-- The separator in front of a key, with the assertion. -/
def separateKey (out : Output) : Option Output :=
  match out.stateStack.head? with
  | some .objectFirstKey => some out
  | some .objectOtherKey => some ((out.write [0x2C]).pretty [0x0A])
  | _ => none

/-- It returns whether the key is to be written, and `UseDefault`. -/
def preflightKey (out : Output) (key : StringRef) (required sameAsDefault : Bool) : Option (Bool × Bool × Output) :=
  if required || !sameAsDefault then do
    let out ← out.separateKey
    some (true, false, ((out.prettyIndent.write ([0x22] ++ key ++ [0x22, 0x3A])).pretty [0x20]))
  else some (false, false, out)

def postflightKey (out : Output) : Output :=
  match out.stateStack.head? with
  | some .objectFirstKey => out.popState.pushState .objectOtherKey
  | _ => out

def hexdigit (x : Nat) : BitVec 8 := if x < 10 then char (0x30 + x) else char (0x41 + (x - 10))

/-- What is written for one byte of a string in quotation marks. -/
def escape (c : BitVec 8) : StringRef :=
  if c = 0x22 then [0x5C, 0x22]
  else if c = 0x5C then [0x5C, 0x5C]
  else if c = 0x2F then [0x5C, 0x2F]
  else if c = 0x08 then [0x5C, 0x62]
  else if c = 0x0C then [0x5C, 0x66]
  else if c = 0x0A then [0x5C, 0x6E]
  else if c = 0x0D then [0x5C, 0x72]
  else if c = 0x09 then [0x5C, 0x74]
  else if c.toNat ≤ 0x1F then
    [0x5C, 0x75, 0x30, 0x30, hexdigit (c.toNat / 16 % 16), hexdigit (c.toNat % 16)]
  else [c]

def quoted (s : StringRef) : StringRef := [0x22] ++ s.flatMap escape ++ [0x22]

def scalarString (out : Output) (s : StringRef) (mustQuote : Bool) : Output :=
  out.write (if mustQuote then quoted s else s)

def beginEnumScalar (out : Output) : Output := { out with enumerationMatchFound := false }

/-- It always returns `false`. -/
def matchEnumScalar (out : Output) (str : StringRef) (isMatch : Bool) : Bool × Output :=
  if isMatch && !out.enumerationMatchFound then
    (false, { out.scalarString str true with enumerationMatchFound := true })
  else (false, out)

def endEnumScalar (out : Output) : Option Output := if out.enumerationMatchFound then some out else none

/-- It returns `DoClear`. -/
def beginBitSetScalar (out : Output) : Bool × Output :=
  (false, { (out.write [0x5B]).pretty [0x20] with needBitValueComma := false })

/-- It always returns `false`. -/
def bitSetMatch (out : Output) (str : StringRef) (isMatch : Bool) : Bool × Output :=
  if isMatch then
    let out := if out.needBitValueComma then (out.write [0x2C]).pretty [0x20] else out
    (false, out.scalarString str true)
  else (false, out)

def endBitSetScalar (out : Output) : Output := (out.pretty [0x20]).write [0x5D]

/-! ## Cases -/

def enumCase (out : Output) (val : Nat) (str : StringRef) (constVal : Nat) : Nat × Output :=
  let (assign, out) := out.matchEnumScalar str (val == constVal)
  (if assign then constVal else val, out)

def maskedBitSetCase (out : Output) (val : Nat) (str : StringRef) (constVal mask : Nat) : Nat × Output :=
  let (assign, out) := out.bitSetMatch str (val &&& mask == constVal)
  (if assign then val ||| constVal else val, out)

def bitSetCase (out : Output) (val : Nat) (str : StringRef) (constVal : Nat) : Nat × Output :=
  let (assign, out) := out.bitSetMatch str (val &&& constVal == constVal)
  (if assign then val ||| constVal else val, out)

end Output

/-! ## Values -/

/-- A case of an enumeration. -/
structure EnumCase where
  str : StringRef
  constVal : Nat
  deriving DecidableEq, Repr

/-- A case of a bit set, with a mask if it is a `maskedBitSetCase`. -/
structure BitSetCase where
  str : StringRef
  constVal : Nat
  mask : Option Nat
  deriving DecidableEq, Repr

mutual

/-- A value, with what the traits of its type say of it. -/
inductive Value where
  | bool (b : Bool)
  | int (n : Int)
  | string (s : StringRef)
  | enumScalar (cases : List EnumCase) (val : Nat)
  | bitSet (cases : List BitSetCase) (val : Nat)
  | array (elements : List Value)
  | object (fields : List Field)

/-- A field, with its mapping: `mapRequired`, or `mapOptional` of a type without a default, of an
`Optional` that has a value or none, with the value `T()` of its type, or with a default. -/
inductive Field where
  | required (key : StringRef) (val : Value)
  | optional (key : StringRef) (val : Value)
  | present (key : StringRef) (val : Value)
  | absent (key : StringRef) (init : Value)
  | defaulted (key : StringRef) (val default : Value)

end

def Value.isEmptyArray : Value → Bool
  | .array [] => true
  | _ => false

/-- `true` or `false`. -/
def boolText (b : Bool) : StringRef :=
  if b then [0x74, 0x72, 0x75, 0x65] else [0x66, 0x61, 0x6C, 0x73, 0x65]

def intText (n : Int) : StringRef := if n < 0 then [0x2D] ++ decimal n.natAbs else decimal n.natAbs

namespace Output

/-! ## Mappings -/

variable {α : Type}

/-- `processKey`, with `jsonize` for the value; it returns the value that is left behind. -/
def processKey (out : Output) (key : StringRef) (val : α) (jsonize : Output → Option (α × Output)) (required : Bool) :
    Option (α × Output) := do
  let (go, _, out) ← out.preflightKey key required false
  if go then do
    let (val, out) ← jsonize out
    some (val, out.postflightKey)
  else some (val, out)

/-- `processKeyWithDefault`, for a value and its default. -/
def processKeyWithDefault (out : Output) (key : StringRef) (val default : α)
    (jsonize : Output → Option (α × Output)) (sameAsDefault required : Bool) : Option (α × Output) := do
  let (go, useDefault, out) ← out.preflightKey key required sameAsDefault
  if go then do
    let (val, out) ← jsonize out
    some (val, out.postflightKey)
  else some (if useDefault then default else val, out)

/-- `processKeyWithDefault`, for an `Optional`; `val` is what it holds, or what it is given when it is
absent. -/
def processOptionalWithDefault (out : Output) (key : StringRef) (hasValue : Bool) (val : α)
    (jsonize : Output → Option (α × Output)) (required : Bool) : Option (Option α × Output) := do
  let (go, useDefault, out) ← out.preflightKey key required (!hasValue)
  if go then do
    let (val, out) ← jsonize out
    some (some val, out.postflightKey)
  else some (if useDefault then none else some val, out)

end Output

open Output

section

-- the `operator==` of the fields with a default
variable (equal : Value → Value → Bool)

mutual

/-- `jsonize`; it returns the value that is left behind. -/
def jsonize : Value → Output → Option (Value × Output)
  | .bool b, out => some (.bool b, out.scalarString (boolText b) false)
  | .int n, out => some (.int n, out.scalarString (intText n) false)
  | .string s, out => some (.string s, out.scalarString s true)
  | .enumScalar cases val, out => do
    let (val, out) := cases.foldl (fun s c => enumCase s.2 s.1 c.str c.constVal) (val, out.beginEnumScalar)
    let out ← out.endEnumScalar
    some (.enumScalar cases val, out)
  | .bitSet cases val, out =>
    let (doClear, out) := out.beginBitSetScalar
    let val := if doClear then 0 else val
    let (val, out) := cases.foldl (fun s c => match c.mask with
      | some mask => maskedBitSetCase s.2 s.1 c.str c.constVal mask
      | none => bitSetCase s.2 s.1 c.str c.constVal) (val, out)
    some (.bitSet cases val, out.endBitSetScalar)
  | .array elements, out => do
    -- `count` is an `unsigned`
    let (elements, out) ← jsonizeElements (elements.length % 2 ^ 32) elements out.beginArray
    some (.array elements, out.endArray)
  | .object fields, out => do
    let (fields, out) ← mapping fields out.beginObject
    some (.object fields, out.endObject)

/-- The loop over the first `count` elements. -/
def jsonizeElements : Nat → List Value → Output → Option (List Value × Output)
  | 0, elements, out => some (elements, out)
  | _ + 1, [], out => some ([], out)
  | count + 1, val :: elements, out => do
    let out ← out.preflightElement
    let (val, out) ← jsonize val out
    let (elements, out) ← jsonizeElements count elements out.postflightElement
    some (val :: elements, out)

/-- The mappings of the fields, one after the other. -/
def mapping : List Field → Output → Option (List Field × Output)
  | [], out => some ([], out)
  | field :: fields, out => do
    let (field, out) ← mapField field out
    let (fields, out) ← mapping fields out
    some (field :: fields, out)

def mapField : Field → Output → Option (Field × Output)
  | .required key val, out => do
    let (val, out) ← out.processKey key val (jsonize val) true
    some (.required key val, out)
  | .optional key val, out =>
    if out.canElideEmptyArray && val.isEmptyArray then some (.optional key val, out)
    else do
      let (val, out) ← out.processKey key val (jsonize val) false
      some (.optional key val, out)
  | .present key val, out => do
    let (val, out) ← out.processOptionalWithDefault key true val (jsonize val) false
    match val with
    | some val => some (.present key val, out)
    -- a value that is there is not the default
    | none => none
  | .absent key init, out => do
    let (val, out) ← out.processOptionalWithDefault key false init (jsonize init) false
    match val with
    | some val => some (.present key val, out)
    | none => some (.absent key init, out)
  | .defaulted key val default, out => do
    let (val, out) ← out.processKeyWithDefault key val default (jsonize val) (equal val default) false
    some (.defaulted key val default, out)

end

end

/-! ## The text -/

section

variable (p : Bool)

def newline : StringRef := if p then [0x0A] else []

def blank : StringRef := if p then [0x20] else []

def margin (depth : Nat) : StringRef := if p then indentation depth else []

def separator (first : Bool) (depth : Nat) : StringRef :=
  (if first then [] else [0x2C] ++ newline p) ++ margin p depth

def BitSetCase.isMatch (val : Nat) (c : BitSetCase) : Bool := val &&& c.mask.getD c.constVal == c.constVal

def bitSetText (cases : List BitSetCase) (val : Nat) : StringRef :=
  [0x5B] ++ blank p ++ (cases.filter (BitSetCase.isMatch val)).flatMap (fun c => quoted c.str) ++ blank p ++ [0x5D]

def enumText (cases : List EnumCase) (val : Nat) : StringRef :=
  ((cases.find? fun c => val == c.constVal).map fun c => quoted c.str).getD []

variable (equal : Value → Value → Bool)

mutual

/-- What is written for a value, at this depth, as an element of an array or not. -/
def text : Bool → Nat → Value → StringRef
  | _, _, .bool b => boolText b
  | _, _, .int n => intText n
  | _, _, .string s => quoted s
  | _, _, .enumScalar cases val => enumText cases val
  | _, _, .bitSet cases val => bitSetText p cases val
  | _, depth, .array elements =>
    [0x5B] ++ newline p ++ elementsText (depth + 1) true (elements.length % 2 ^ 32) elements ++ newline p ++
      margin p depth ++ [0x5D]
  | inArray, depth, .object fields =>
    [0x7B] ++ newline p ++ fieldsText inArray (depth + 1) true fields ++ newline p ++ margin p depth ++ [0x7D]

def elementsText (depth : Nat) : Bool → Nat → List Value → StringRef
  | _, 0, _ => []
  | _, _ + 1, [] => []
  | first, count + 1, val :: elements =>
    separator p first depth ++ text true depth val ++ elementsText depth false count elements

def fieldsText (inArray : Bool) (depth : Nat) : Bool → List Field → StringRef
  | _, [] => []
  | first, field :: fields =>
    match fieldText depth (!(first && inArray)) field with
    | some t => separator p first depth ++ t ++ fieldsText inArray depth false fields
    | none => fieldsText inArray depth first fields

/-- What is written for a field, if it is written. -/
def fieldText (depth : Nat) (elide : Bool) : Field → Option StringRef
  | .required key val => some ([0x22] ++ key ++ [0x22, 0x3A] ++ blank p ++ text false depth val)
  | .optional key val =>
    if elide && val.isEmptyArray then none
    else some ([0x22] ++ key ++ [0x22, 0x3A] ++ blank p ++ text false depth val)
  | .present key val => some ([0x22] ++ key ++ [0x22, 0x3A] ++ blank p ++ text false depth val)
  | .absent _ _ => none
  | .defaulted key val default =>
    if equal val default then none
    else some ([0x22] ++ key ++ [0x22, 0x3A] ++ blank p ++ text false depth val)

end

end

/-! ## What is left behind -/

section

variable (equal : Value → Value → Bool)

mutual

def afterwards : Value → Value
  | .bool b => .bool b
  | .int n => .int n
  | .string s => .string s
  | .enumScalar cases val => .enumScalar cases val
  | .bitSet cases val => .bitSet cases val
  | .array elements => .array (elementsAfterwards (elements.length % 2 ^ 32) elements)
  | .object fields => .object (fieldsAfterwards fields)

def elementsAfterwards : Nat → List Value → List Value
  | 0, elements => elements
  | _ + 1, [] => []
  | count + 1, val :: elements => afterwards val :: elementsAfterwards count elements

def fieldsAfterwards : List Field → List Field
  | [] => []
  | field :: fields => fieldAfterwards field :: fieldsAfterwards fields

def fieldAfterwards : Field → Field
  | .required key val => .required key (afterwards val)
  | .optional key val => .optional key (afterwards val)
  | .present key val => .present key (afterwards val)
  -- the temporary value stays
  | .absent key init => .present key init
  | .defaulted key val default => .defaulted key (if equal val default then val else afterwards val) default

end

mutual

/-- The value of every enumeration is one of its cases. -/
def Enumerated : Value → Prop
  | .bool _ => True
  | .int _ => True
  | .string _ => True
  | .enumScalar cases val => ∃ c ∈ cases, c.constVal = val
  | .bitSet _ _ => True
  | .array elements => ElementsEnumerated elements
  | .object fields => FieldsEnumerated fields

def ElementsEnumerated : List Value → Prop
  | [] => True
  | val :: elements => Enumerated val ∧ ElementsEnumerated elements

def FieldsEnumerated : List Field → Prop
  | [] => True
  | field :: fields => FieldEnumerated field ∧ FieldsEnumerated fields

def FieldEnumerated : Field → Prop
  | .required _ val => Enumerated val
  | .optional _ val => Enumerated val
  | .present _ val => Enumerated val
  | .absent _ _ => True
  | .defaulted _ val _ => Enumerated val

end

end

/-! ## Steps of the output -/

namespace Output

variable (out : Output)

/-- The next value is an element of an array. -/
def inArray : Bool :=
  match out.stateStack.head? with
  | some .arrayFirstValue => true
  | some .arrayOtherValue => true
  | _ => false

theorem write_nil : out.write [] = out := by
  rw [write, List.append_nil]

theorem write_write (s t : StringRef) : (out.write s).write t = out.write (s ++ t) := by
  rw [write, write, write, List.append_assoc]

theorem pretty_eq (s : StringRef) : out.pretty s = out.write (if out.prettyPrint then s else []) := by
  rw [pretty]
  split_ifs
  · rfl
  · exact (write_nil out).symm

theorem prettyIndent_eq : out.prettyIndent = out.write (margin out.prettyPrint out.stateStack.length) := by
  rw [prettyIndent, margin]
  split_ifs
  · rfl
  · exact (write_nil out).symm

theorem separate_eq : ((out.write [0x2C]).pretty [0x0A]).prettyIndent =
    out.write (separator out.prettyPrint false out.stateStack.length) := by
  rw [pretty_eq, prettyIndent_eq, write_write, write_write, ← List.append_assoc]
  rfl

theorem beginArray_eq : out.beginArray =
    (out.pushState .arrayFirstValue).write ([0x5B] ++ newline out.prettyPrint) := by
  rw [beginArray, pretty_eq, write_write]
  rfl

theorem beginObject_eq : out.beginObject =
    (out.pushState .objectFirstKey).write ([0x7B] ++ newline out.prettyPrint) := by
  rw [beginObject, pretty_eq, write_write]
  rfl

theorem endArray_eq : out.endArray =
    out.popState.write (newline out.prettyPrint ++ margin out.prettyPrint out.stateStack.tail.length ++ [0x5D]) := by
  rw [endArray, pretty_eq, prettyIndent_eq, write_write, write_write, List.append_assoc (newline _)]
  rfl

theorem endObject_eq : out.endObject =
    out.popState.write (newline out.prettyPrint ++ margin out.prettyPrint out.stateStack.tail.length ++ [0x7D]) := by
  rw [endObject, pretty_eq, prettyIndent_eq, write_write, write_write, List.append_assoc (newline _)]
  rfl

end Output

/-- The output goes on with this text, in the state it is in. -/
structure Continues (out out' : Output) (t : StringRef) : Prop where
  stream : out'.stream = out.stream ++ t
  stateStack : out'.stateStack = out.stateStack
  prettyPrint : out'.prettyPrint = out.prettyPrint

section

variable {out out' : Output} {s t : StringRef} {first : Bool} {rest : List State}

theorem Continues.write (h : Continues out out' s) (t : StringRef) : Continues out (out'.write t) (s ++ t) :=
  ⟨by rw [Output.write, h.stream, List.append_assoc], h.stateStack, h.prettyPrint⟩

theorem continues_write (out : Output) (t : StringRef) : Continues out (out.write t) t := ⟨rfl, rfl, rfl⟩

/-- The state in an array, and in an object, in front of the first value and behind it. -/
def arrayState (first : Bool) : State := if first then .arrayFirstValue else .arrayOtherValue

def objectState (first : Bool) : State := if first then .objectFirstKey else .objectOtherKey

theorem preflightElement_eq (h : out.stateStack = arrayState first :: rest) :
    out.preflightElement = some (out.write (separator out.prettyPrint first (rest.length + 1))) := by
  cases first with
  | true =>
      rw [Output.preflightElement, h, Output.prettyIndent_eq, h]
      rfl
  | false =>
      rw [Output.preflightElement, h]
      change some ((out.write [0x2C]).pretty [0x0A]).prettyIndent = _
      rw [Output.separate_eq, h]
      rfl

theorem postflightElement_stateStack (h : out.stateStack = arrayState first :: rest) :
    out.postflightElement.stateStack = arrayState false :: rest ∧
      out.postflightElement.stream = out.stream ∧ out.postflightElement.prettyPrint = out.prettyPrint := by
  cases first with
  | true =>
      rw [Output.postflightElement, h]
      refine ⟨?_, rfl, rfl⟩
      rw [Output.pushState, Output.popState, h]
      rfl
  | false =>
      rw [Output.postflightElement, h]
      exact ⟨h, rfl, rfl⟩

theorem postflightKey_stateStack (h : out.stateStack = objectState first :: rest) :
    out.postflightKey.stateStack = objectState false :: rest ∧
      out.postflightKey.stream = out.stream ∧ out.postflightKey.prettyPrint = out.prettyPrint := by
  cases first with
  | true =>
      rw [Output.postflightKey, h]
      refine ⟨?_, rfl, rfl⟩
      rw [Output.pushState, Output.popState, h]
      rfl
  | false =>
      rw [Output.postflightKey, h]
      exact ⟨h, rfl, rfl⟩

theorem preflightKey_eq (h : out.stateStack = objectState first :: rest) {required sameAsDefault : Bool}
    (hkey : (required || !sameAsDefault) = true) (key : StringRef) :
    out.preflightKey key required sameAsDefault = some (true, false,
      out.write (separator out.prettyPrint first (rest.length + 1) ++
        ([0x22] ++ key ++ [0x22, 0x3A] ++ blank out.prettyPrint))) := by
  have hsep : out.separateKey.map Output.prettyIndent =
      some (out.write (separator out.prettyPrint first (rest.length + 1))) := by
    cases first with
    | true =>
        rw [Output.separateKey, h]
        change some out.prettyIndent = _
        rw [Output.prettyIndent_eq, h]
        rfl
    | false =>
        rw [Output.separateKey, h]
        change some ((out.write [0x2C]).pretty [0x0A]).prettyIndent = _
        rw [Output.separate_eq, h]
        rfl
  obtain ⟨out', hout', hindent⟩ := Option.map_eq_some_iff.1 hsep
  rw [Output.preflightKey, if_pos hkey, hout']
  change some (true, false, (out'.prettyIndent.write _).pretty _) = _
  rw [hindent, Output.pretty_eq, Output.write_write, Output.write_write]
  simp only [List.append_assoc]
  rfl

/-! ## Cases of enumerations and bit sets -/

theorem foldl_enumCase (cases : List EnumCase) (val : Nat) (out : Output) :
    cases.foldl (fun s c => Output.enumCase s.2 s.1 c.str c.constVal) (val, out) =
      (val, if out.enumerationMatchFound then out
        else match cases.find? fun c => val == c.constVal with
          | some c => { out.write (quoted c.str) with enumerationMatchFound := true }
          | none => out) := by
  induction cases generalizing out with
  | nil => rw [List.foldl_nil, List.find?_nil, ite_self]
  | cons c cases ih =>
      have hcase : Output.enumCase out val c.str c.constVal =
          (val, if (val == c.constVal) && !out.enumerationMatchFound then
            { out.write (quoted c.str) with enumerationMatchFound := true } else out) := by
        rw [Output.enumCase, Output.matchEnumScalar]
        split_ifs <;> rfl
      rw [List.foldl_cons, hcase, ih, List.find?_cons]
      cases hfound : out.enumerationMatchFound with
      | true => simp [hfound]
      | false => cases hmatch : (val == c.constVal) <;> simp [hfound]

theorem foldl_bitSetCase (cases : List BitSetCase) (val : Nat) (out : Output) (hcomma : out.needBitValueComma = false) :
    cases.foldl (fun s c => match c.mask with
      | some mask => Output.maskedBitSetCase s.2 s.1 c.str c.constVal mask
      | none => Output.bitSetCase s.2 s.1 c.str c.constVal) (val, out) =
      (val, out.write ((cases.filter (BitSetCase.isMatch val)).flatMap fun c => quoted c.str)) := by
  induction cases generalizing out with
  | nil => rw [List.foldl_nil, List.filter_nil, List.flatMap_nil, Output.write_nil]
  | cons c cases ih =>
      have hmatch : ∀ str isMatch, out.bitSetMatch str isMatch =
          (false, if isMatch then out.write (quoted str) else out) := fun str isMatch => by
        rw [Output.bitSetMatch, hcomma]
        cases isMatch <;> rfl
      have hcase : (match c.mask with
          | some mask => Output.maskedBitSetCase out val c.str c.constVal mask
          | none => Output.bitSetCase out val c.str c.constVal) =
          (val, if c.isMatch val then out.write (quoted c.str) else out) := by
        cases hmask : c.mask with
        | none =>
            rw [BitSetCase.isMatch, hmask]
            change Output.bitSetCase out val c.str c.constVal = _
            rw [Output.bitSetCase, hmatch]
            rfl
        | some mask =>
            rw [BitSetCase.isMatch, hmask]
            change Output.maskedBitSetCase out val c.str c.constVal mask = _
            rw [Output.maskedBitSetCase, hmatch]
            rfl
      rw [List.foldl_cons, hcase, List.filter_cons]
      split_ifs with h
      · rw [ih (out.write (quoted c.str)) hcomma, List.flatMap_cons, Output.write_write]
      · exact ih out hcomma

end

/-! ## What a value writes -/

section

variable (equal : Value → Value → Bool)

theorem jsonize_enumScalar {cases : List EnumCase} {val : Nat} (h : ∃ c ∈ cases, c.constVal = val) (out : Output) :
    ∃ out', jsonize equal (.enumScalar cases val) out = some (.enumScalar cases val, out') ∧
      Continues out out' (enumText cases val) := by
  obtain ⟨c, hc, hval⟩ := h
  have hsome : (cases.find? fun c => val == c.constVal).isSome := by
    rw [List.find?_isSome]
    exact ⟨c, hc, by rw [hval]; exact beq_self_eq_true val⟩
  obtain ⟨d, hd⟩ := Option.isSome_iff_exists.1 hsome
  refine ⟨{ out.beginEnumScalar.write (quoted d.str) with enumerationMatchFound := true }, ?_, ?_⟩
  · have hfound : ¬ out.beginEnumScalar.enumerationMatchFound = true := Bool.false_ne_true
    rw [jsonize, foldl_enumCase, hd, if_neg hfound]
    rfl
  · rw [enumText, hd]
    exact ⟨rfl, rfl, rfl⟩

theorem jsonize_bitSet (cases : List BitSetCase) (val : Nat) (out : Output) :
    ∃ out', jsonize equal (.bitSet cases val) out = some (.bitSet cases val, out') ∧
      Continues out out' (bitSetText out.prettyPrint cases val) := by
  have hbegin : out.beginBitSetScalar =
      (false, { out.write ([0x5B] ++ blank out.prettyPrint) with needBitValueComma := false }) := by
    rw [Output.beginBitSetScalar, Output.pretty_eq, Output.write_write]
    rfl
  have hrun : jsonize equal (.bitSet cases val) out = some (.bitSet cases val,
      { out.write (bitSetText out.prettyPrint cases val) with needBitValueComma := false }) := by
    rw [jsonize, hbegin]
    simp only [Bool.false_eq_true, if_false]
    rw [foldl_bitSetCase _ _ _ rfl]
    simp only [Output.endBitSetScalar, Output.pretty_eq, bitSetText, Output.write, blank,
      List.append_assoc]
  exact ⟨_, hrun, rfl, rfl, rfl⟩

theorem afterwards_of_isEmptyArray {val : Value} (h : val.isEmptyArray = true) : afterwards equal val = val := by
  cases val with
  | array elements =>
      cases elements with
      | nil => rfl
      | cons v elements => exact absurd h Bool.false_ne_true
  | bool | int | string | enumScalar | bitSet | object => exact absurd h Bool.false_ne_true

def JsonizeReturns (val : Value) : Prop :=
  ∀ out : Output, ∃ out', jsonize equal val out = some (afterwards equal val, out') ∧
    Continues out out' (text out.prettyPrint equal out.inArray out.stateStack.length val)

theorem JsonizeReturns.key {equal : Value → Value → Bool} {val : Value} (h : JsonizeReturns equal val) {out : Output}
    {first : Bool} {rest : List State} (hstack : out.stateStack = objectState first :: rest) (key : StringRef) :
    ∃ out₁ out', (∀ required sameAsDefault, (required || !sameAsDefault) = true →
        out.preflightKey key required sameAsDefault = some (true, false, out₁)) ∧
      jsonize equal val out₁ = some (afterwards equal val, out') ∧
      out'.postflightKey.stream = out.stream ++ (separator out.prettyPrint first (rest.length + 1) ++
        ([0x22] ++ key ++ [0x22, 0x3A] ++ blank out.prettyPrint ++
          text out.prettyPrint equal false (rest.length + 1) val)) ∧
      out'.postflightKey.stateStack = objectState false :: rest ∧
      out'.postflightKey.prettyPrint = out.prettyPrint := by
  have hlength : out.stateStack.length = rest.length + 1 := by rw [hstack]; rfl
  obtain ⟨out', hrun, hcont⟩ := h (out.write (separator out.prettyPrint first (rest.length + 1) ++
    ([0x22] ++ key ++ [0x22, 0x3A] ++ blank out.prettyPrint)))
  have hinArray : (out.write (separator out.prettyPrint first (rest.length + 1) ++
      ([0x22] ++ key ++ [0x22, 0x3A] ++ blank out.prettyPrint))).inArray = false := by
    rw [Output.inArray, Output.write]
    dsimp only
    rw [hstack]
    cases first <;> rfl
  obtain ⟨hstack', hstream, hpretty⟩ := postflightKey_stateStack (hcont.stateStack.trans hstack)
  refine ⟨_, out', fun required sameAsDefault hkey => preflightKey_eq hstack hkey key, hrun, ?_, hstack', ?_⟩
  · rw [hstream, hcont.stream, hinArray, Output.write]
    dsimp only
    rw [hlength]
    simp only [List.append_assoc]
  · rw [hpretty, hcont.prettyPrint]
    rfl

mutual

theorem jsonize_returns : ∀ (v : Value), Enumerated v → JsonizeReturns equal v
  | .bool b, _, out => ⟨_, rfl, continues_write out _⟩
  | .int n, _, out => ⟨_, rfl, continues_write out _⟩
  | .string s, _, out => ⟨_, rfl, continues_write out _⟩
  | .enumScalar cases val, h, out => jsonize_enumScalar equal h out
  | .bitSet cases val, _, out => jsonize_bitSet equal cases val out
  | .array elements, h, out => by
      obtain ⟨out', hrun, hstream, ⟨last, hstack⟩, hpretty⟩ :=
        jsonizeElements_returns (elements.length % 2 ^ 32) elements h out.beginArray true out.stateStack
          (by rw [Output.beginArray_eq]; rfl)
      rw [Output.beginArray_eq] at hstream hpretty
      refine ⟨out'.endArray, ?_, ?_⟩
      · rw [jsonize, hrun]
        rfl
      · have hp : out'.prettyPrint = out.prettyPrint := hpretty
        rw [Output.endArray_eq, hstack, hp]
        refine ⟨?_, ?_, hp⟩
        · rw [Output.write, Output.popState]
          dsimp only
          rw [hstream, text, Output.write]
          dsimp only [Output.pushState, List.tail_cons]
          simp only [List.append_assoc]
        · rw [Output.write, Output.popState]
          dsimp only
          rw [hstack, List.tail_cons]
  | .object fields, h, out => by
      obtain ⟨out', hrun, hstream, ⟨last, hstack⟩, hpretty⟩ :=
        mapping_returns fields h out.beginObject true out.stateStack (by rw [Output.beginObject_eq]; rfl)
      rw [Output.beginObject_eq] at hstream hpretty
      refine ⟨out'.endObject, ?_, ?_⟩
      · rw [jsonize, hrun]
        rfl
      · have hp : out'.prettyPrint = out.prettyPrint := hpretty
        rw [Output.endObject_eq, hstack, hp]
        refine ⟨?_, ?_, hp⟩
        · rw [Output.write, Output.popState]
          dsimp only
          rw [hstream, text, Output.write]
          dsimp only [Output.pushState, List.tail_cons]
          simp only [List.append_assoc]
          rfl
        · rw [Output.write, Output.popState]
          dsimp only
          rw [hstack, List.tail_cons]

theorem jsonizeElements_returns : ∀ (count : Nat) (elements : List Value), ElementsEnumerated elements →
    ∀ (out : Output) (first : Bool) (rest : List State), out.stateStack = arrayState first :: rest →
    ∃ out', jsonizeElements equal count elements out = some (elementsAfterwards equal count elements, out') ∧
      out'.stream = out.stream ++ elementsText out.prettyPrint equal (rest.length + 1) first count elements ∧
      (∃ last, out'.stateStack = arrayState last :: rest) ∧ out'.prettyPrint = out.prettyPrint
  | 0, elements, _, out, first, rest, hstack =>
      ⟨out, by cases elements <;> rfl, (by rw [elementsText, List.append_nil]), ⟨first, hstack⟩, rfl⟩
  | count + 1, [], _, out, first, rest, hstack =>
      ⟨out, rfl, (by rw [elementsText, List.append_nil]), ⟨first, hstack⟩, rfl⟩
  | count + 1, val :: elements, h, out, first, rest, hstack => by
      have hlength : out.stateStack.length = rest.length + 1 := by rw [hstack]; rfl
      have hinArray : (out.write (separator out.prettyPrint first (rest.length + 1))).inArray = true := by
        rw [Output.inArray, Output.write]
        dsimp only
        rw [hstack]
        cases first <;> rfl
      obtain ⟨out₁, hval, hcont⟩ :=
        jsonize_returns val h.1 (out.write (separator out.prettyPrint first (rest.length + 1)))
      rw [hinArray] at hcont
      obtain ⟨hstack₁, hstream₁, hpretty₁⟩ := postflightElement_stateStack (hcont.stateStack.trans hstack)
      have hp : out₁.postflightElement.prettyPrint = out.prettyPrint := hpretty₁.trans hcont.prettyPrint
      obtain ⟨out', hrun, hstream, hlast, hpretty⟩ :=
        jsonizeElements_returns count elements h.2 out₁.postflightElement false rest hstack₁
      refine ⟨out', ?_, ?_, hlast, hpretty.trans hp⟩
      · rw [jsonizeElements, preflightElement_eq hstack]
        change (jsonize equal val _).bind _ = _
        rw [hval]
        change (jsonizeElements equal count elements _).bind _ = _
        rw [hrun]
        rfl
      · rw [hstream, hp, hstream₁, hcont.stream, elementsText, Output.write]
        dsimp only
        rw [hlength]
        simp only [List.append_assoc]

theorem mapping_returns : ∀ (fields : List Field), FieldsEnumerated fields →
    ∀ (out : Output) (first : Bool) (rest : List State), out.stateStack = objectState first :: rest →
    ∃ out', mapping equal fields out = some (fieldsAfterwards equal fields, out') ∧
      out'.stream = out.stream ++ fieldsText out.prettyPrint equal
        (Output.inArray { out with stateStack := rest }) (rest.length + 1) first fields ∧
      (∃ last, out'.stateStack = objectState last :: rest) ∧ out'.prettyPrint = out.prettyPrint
  | [], _, out, first, rest, hstack =>
      ⟨out, rfl, (by rw [fieldsText, List.append_nil]), ⟨first, hstack⟩, rfl⟩
  | field :: fields, h, out, first, rest, hstack => by
      have hfield := mapField_returns field h.1 out first rest hstack
      rw [fieldsText, mapping]
      cases ht : fieldText out.prettyPrint equal (rest.length + 1)
          (!(first && Output.inArray { out with stateStack := rest })) field with
      | none =>
          rw [ht] at hfield
          obtain ⟨out', hrun, hstream, hlast, hpretty⟩ := mapping_returns fields h.2 out first rest hstack
          refine ⟨out', ?_, hstream, hlast, hpretty⟩
          rw [hfield]
          change (mapping equal fields _).bind _ = _
          rw [hrun]
          rfl
      | some t =>
          rw [ht] at hfield
          obtain ⟨out₁, hrun₁, hstream₁, hstack₁, hpretty₁⟩ := hfield
          obtain ⟨out', hrun, hstream, hlast, hpretty⟩ := mapping_returns fields h.2 out₁ false rest hstack₁
          refine ⟨out', ?_, ?_, hlast, hpretty.trans hpretty₁⟩
          · rw [hrun₁]
            change (mapping equal fields _).bind _ = _
            rw [hrun]
            rfl
          · rw [hstream, hstream₁, hpretty₁]
            simp only [List.append_assoc]
            rfl

theorem mapField_returns : ∀ (field : Field), FieldEnumerated field →
    ∀ (out : Output) (first : Bool) (rest : List State), out.stateStack = objectState first :: rest →
    match fieldText out.prettyPrint equal (rest.length + 1)
      (!(first && Output.inArray { out with stateStack := rest })) field with
    | some t => ∃ out', mapField equal field out = some (fieldAfterwards equal field, out') ∧
        out'.stream = out.stream ++ (separator out.prettyPrint first (rest.length + 1) ++ t) ∧
        out'.stateStack = objectState false :: rest ∧ out'.prettyPrint = out.prettyPrint
    | none => mapField equal field out = some (fieldAfterwards equal field, out)
  | .required key val, h, out, first, rest, hstack => by
      obtain ⟨out₁, out', hpre, hrun, hout'⟩ := JsonizeReturns.key (jsonize_returns val h) hstack key
      refine ⟨out'.postflightKey, ?_, hout'⟩
      rw [mapField, Output.processKey, hpre true false rfl]
      change (((jsonize equal val out₁).bind _).bind _) = _
      rw [hrun]
      rfl
  | .optional key val, h, out, first, rest, hstack => by
      have helide : out.canElideEmptyArray = !(first && Output.inArray { out with stateStack := rest }) := by
        rw [Output.canElideEmptyArray, hstack, Output.inArray]
        cases first <;> rcases rest with _ | ⟨s, rest⟩ <;> first | rfl | (cases s <;> rfl)
      rw [fieldText, mapField, helide]
      split_ifs with hempty
      · obtain ⟨-, hempty⟩ := (Bool.and_eq_true _ _).mp hempty
        rw [fieldAfterwards, afterwards_of_isEmptyArray equal hempty]
      · obtain ⟨out₁, out', hpre, hrun, hout'⟩ := JsonizeReturns.key (jsonize_returns val h) hstack key
        refine ⟨out'.postflightKey, ?_, hout'⟩
        rw [Output.processKey, hpre false false rfl]
        change (((jsonize equal val out₁).bind _).bind _) = _
        rw [hrun]
        rfl
  | .present key val, h, out, first, rest, hstack => by
      obtain ⟨out₁, out', hpre, hrun, hout'⟩ := JsonizeReturns.key (jsonize_returns val h) hstack key
      refine ⟨out'.postflightKey, ?_, hout'⟩
      rw [mapField, Output.processOptionalWithDefault, hpre false _ rfl]
      change (((jsonize equal val out₁).bind _).bind _) = _
      rw [hrun]
      rfl
  | .absent key init, _, out, first, rest, hstack => rfl
  | .defaulted key val default, h, out, first, rest, hstack => by
      rw [fieldText, fieldAfterwards]
      split_ifs with hsame
      · rw [mapField, Output.processKeyWithDefault, hsame]
        rfl
      · obtain ⟨out₁, out', hpre, hrun, hout'⟩ := JsonizeReturns.key (jsonize_returns val h) hstack key
        refine ⟨out'.postflightKey, ?_, hout'⟩
        rw [mapField, Output.processKeyWithDefault, hpre false _ (by rw [Bool.eq_false_iff.2 hsame]; rfl)]
        change (((jsonize equal val out₁).bind _).bind _) = _
        rw [hrun]
        rfl

end

/-! ## Values that stay as they are -/

mutual

/-- No `Optional` without a value is written. Those in a field that is its default, and in elements behind
the ones that are counted, are not written. -/
def Kept : Value → Prop
  | .bool _ => True
  | .int _ => True
  | .string _ => True
  | .enumScalar _ _ => True
  | .bitSet _ _ => True
  | .array elements => ElementsKept (elements.length % 2 ^ 32) elements
  | .object fields => FieldsKept fields

def ElementsKept : Nat → List Value → Prop
  | 0, _ => True
  | _ + 1, [] => True
  | count + 1, val :: elements => Kept val ∧ ElementsKept count elements

def FieldsKept : List Field → Prop
  | [] => True
  | field :: fields => FieldKept field ∧ FieldsKept fields

def FieldKept : Field → Prop
  | .required _ val => Kept val
  | .optional _ val => Kept val
  | .present _ val => Kept val
  | .absent _ _ => False
  | .defaulted _ val default => equal val default = true ∨ Kept val

end

mutual

theorem kept_iff : ∀ v, Kept equal v ↔ afterwards equal v = v
  | .bool b => iff_of_true trivial rfl
  | .int n => iff_of_true trivial rfl
  | .string s => iff_of_true trivial rfl
  | .enumScalar cases val => iff_of_true trivial rfl
  | .bitSet cases val => iff_of_true trivial rfl
  | .array elements => by
      rw [Kept, afterwards, Value.array.injEq]
      exact elementsKept_iff (elements.length % 2 ^ 32) elements
  | .object fields => by
      rw [Kept, afterwards, Value.object.injEq]
      exact fieldsKept_iff fields

theorem elementsKept_iff : ∀ count elements,
    ElementsKept equal count elements ↔ elementsAfterwards equal count elements = elements
  | 0, elements => by cases elements <;> exact iff_of_true trivial rfl
  | count + 1, [] => iff_of_true trivial rfl
  | count + 1, val :: elements => by
      rw [ElementsKept, elementsAfterwards, List.cons.injEq, kept_iff val, elementsKept_iff count elements]

theorem fieldsKept_iff : ∀ fields, FieldsKept equal fields ↔ fieldsAfterwards equal fields = fields
  | [] => iff_of_true trivial rfl
  | field :: fields => by
      rw [FieldsKept, fieldsAfterwards, List.cons.injEq, fieldKept_iff field, fieldsKept_iff fields]

theorem fieldKept_iff : ∀ field, FieldKept equal field ↔ fieldAfterwards equal field = field
  | .required key val => by
      rw [FieldKept, fieldAfterwards, Field.required.injEq, kept_iff val, and_iff_right rfl]
  | .optional key val => by
      rw [FieldKept, fieldAfterwards, Field.optional.injEq, kept_iff val, and_iff_right rfl]
  | .present key val => by
      rw [FieldKept, fieldAfterwards, Field.present.injEq, kept_iff val, and_iff_right rfl]
  | .absent key init => iff_of_false id (fun h => by cases h)
  | .defaulted key val default => by
      rw [FieldKept, fieldAfterwards, Field.defaulted.injEq, kept_iff val, and_iff_right rfl, and_iff_left rfl]
      split_ifs with hsame
      · exact iff_of_true (.inl hsame) rfl
      · exact or_iff_right hsame

end

/-- Writing succeeds, leaves the value unchanged, and writes the same text a second time. -/
def WritesUnchanged (v : Value) : Prop :=
  ∀ out : Output, ∃ v' first v'' second, jsonize equal v out = some (v', first) ∧ v' = v ∧
    jsonize equal v' out = some (v'', second) ∧ second.stream = first.stream

/-- Writing leaves a value unchanged, if and only if no `Optional` without a value is written. -/
theorem writesUnchanged_iff {v : Value} (h : Enumerated v) : WritesUnchanged equal v ↔ Kept equal v := by
  rw [kept_iff]
  constructor
  · intro hwrites
    obtain ⟨v', first, v'', second, hrun, hsame, -⟩ := hwrites (.new false)
    obtain ⟨first', hrun', -⟩ := jsonize_returns equal v h (.new false)
    rw [hrun] at hrun'
    rw [← (Prod.mk.inj (Option.some.inj hrun')).1, hsame]
  · intro hafter out
    obtain ⟨first, hrun, -⟩ := jsonize_returns equal v h out
    rw [hafter] at hrun
    exact ⟨v, first, v, first, hrun, rfl, hrun, rfl⟩

/-- An object whose `Optional` has a value. -/
theorem writesUnchanged_present :
    WritesUnchanged (fun _ _ => false) (.object [.present [0x61] (.array [.int 1, .bool true])]) := by
  refine (writesUnchanged_iff _ ?_).2 ?_
  · exact ⟨⟨trivial, trivial, trivial⟩, trivial⟩
  · exact ⟨⟨trivial, trivial, trivial⟩, trivial⟩

/-- An `Optional` without a value has one afterwards. -/
theorem not_writesUnchanged_absent :
    ¬ WritesUnchanged (fun _ _ => false) (.object [.absent [0x61] (.int 0)]) := by
  intro hwrites
  obtain ⟨v', first, v'', second, hrun, hsame, -⟩ := hwrites (.new false)
  have hleft : jsonize (fun _ _ => false) (.object [.absent [0x61] (.int 0)]) (.new false) =
      some (.object [.present [0x61] (.int 0)], ⟨[0x7B, 0x7D], [], false, false, false⟩) := rfl
  rw [hleft] at hrun
  have hobject : Value.object [.present [0x61] (.int 0)] = .object [.absent [0x61] (.int 0)] :=
    (Prod.mk.inj (Option.some.inj hrun)).1.trans hsame
  cases hobject

end

end SwiftKStdlib.Basic.Json
