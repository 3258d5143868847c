import Mathlib.Tactic
import SwiftKStdlib.Demangling.Naturals

/-!
# Numbers in the texts of nodes

* `append`, `demangleBuiltinType`, `mangleBuiltinTypeName` : reading and writing the names of builtin types;
* `getDependentGenericParamType`, `demangleGenericParamIndex` : the names of generic parameters;
* `Digits`, `Mangled` : the numbers in a mangled text, and what they stand in;
* `demangleIndex_digits` : what an index is read as;
* `WritesNumber` : the text of the node has the numbers of the mangled text, and is mangled as it was;
* `writesNumber_iff` : the numbers for which that is so.
-/

namespace SwiftKStdlib.Demangling

open Lib (Prog)
open Lib.Prog (bind_run bind_error get_run)

def chars (s : String) : StringRef := s.toList.map fun c => char c.toNat

/-! ## Demangling -/

/-- `CharVector::append`, of a number that is not negative; `none` where the assertion fails. -/
def append (name : StringRef) (number : Int) : Option StringRef :=
  let maxIntPrintSize := 8
  if (decimal number.toNat).length < maxIntPrintSize then some (name ++ decimal number.toNat) else none

/-- What `popTypeAndGetChild` returns. -/
structure TypeChild where
  isBuiltinTypeName : Bool
  text : StringRef

namespace Demangler

/-- `demangleBuiltinType`, up to the text of the node; `none` where an assertion fails. -/
def demangleBuiltinType (popTypeAndGetChild : Option TypeChild) : Prog Demangler Failure (Option StringRef) := do
  let c ← nextChar
  if c = 0x62 then pure (some (chars "Builtin.BridgeObject"))
  else if c = 0x42 then pure (some (chars "Builtin.UnsafeValueBuffer"))
  else if c = 0x66 then do
    let index ← Wrapping.demangleIndex
    let size := wrapInt (index - 1)
    if size ≤ 0 then Prog.throw .nullptr else pure (append (chars "Builtin.Float") size)
  else if c = 0x69 then do
    let index ← Wrapping.demangleIndex
    let size := wrapInt (index - 1)
    if size ≤ 0 then Prog.throw .nullptr else pure (append (chars "Builtin.Int") size)
  else if c = 0x76 then do
    let index ← Wrapping.demangleIndex
    let elts := wrapInt (index - 1)
    if elts ≤ 0 then Prog.throw .nullptr
    else
      match popTypeAndGetChild with
      | none => Prog.throw .nullptr
      | some eltType =>
        if eltType.isBuiltinTypeName = false ∨ ¬ chars "Builtin." <+: eltType.text then Prog.throw .nullptr
        else pure ((append (chars "Builtin.Vec") elts).map fun name =>
          name ++ [0x78] ++ eltType.text.drop (chars "Builtin.").length)
  else if c = 0x4F then pure (some (chars "Builtin.UnknownObject"))
  else if c = 0x6F then pure (some (chars "Builtin.NativeObject"))
  else if c = 0x70 then pure (some (chars "Builtin.RawPointer"))
  else if c = 0x74 then pure (some (chars "Builtin.SILToken"))
  else if c = 0x77 then pure (some (chars "Builtin.Word"))
  else Prog.throw .nullptr

/-- The loop over the letters of an index. -/
def indexLetters (idxChar : Nat) : StringRef :=
  if h : idxChar / 26 = 0 then [char (0x41 + idxChar % 26)]
  else char (0x41 + idxChar % 26) :: indexLetters (idxChar / 26)
termination_by idxChar
decreasing_by omega

/-- `getDependentGenericParamType`, with the text and the two numbers of the node. -/
def getDependentGenericParamType (depth index : Int) : Prog Demangler Failure (Option (StringRef × Int × Int)) :=
  if depth < 0 ∨ index < 0 then Prog.throw .nullptr
  else
    let name := indexLetters index.toNat
    let name := if depth ≠ 0 then append name depth else some name
    pure (name.map fun name => (name, depth, index))

def demangleGenericParamIndex : Prog Demangler Failure (Option (StringRef × Int × Int)) := do
  if ← nextIf 0x64 then do
    let depth ← Wrapping.demangleIndex
    let index ← Wrapping.demangleIndex
    getDependentGenericParamType (wrapInt (depth + 1)) index
  else if ← nextIf 0x7A then getDependentGenericParamType 0 0
  else do
    let index ← Wrapping.demangleIndex
    getDependentGenericParamType 0 (wrapInt (index + 1))

end Demangler

/-! ## Mangling -/

/-- `stripPrefix`, with what is left. -/
def stripPrefix (string data : StringRef) : Option StringRef :=
  if data <+: string then some (string.drop data.length) else none

/-- `StringRef::split`. -/
def split (s : StringRef) (separator : BitVec 8) : StringRef × StringRef :=
  (s.takeWhile (· ≠ separator), (s.dropWhile (· ≠ separator)).tail)

/-- The part of `mangleBuiltinTypeName` for the element type of a vector; `none` where it is unreachable. -/
def mangleVectorElement (second : StringRef) : Option StringRef :=
  if second = chars "RawPointer" then some (chars "Bp")
  else
    match stripPrefix second (chars "Float"), stripPrefix second (chars "Int") with
    | some second, _ => some (chars "Bf" ++ second ++ [0x5F])
    | none, some second => some (chars "Bi" ++ second ++ [0x5F])
    | none, none => none

/-- `mangleBuiltinTypeName`, of a node with this text; `none` where it is unreachable. -/
def mangleBuiltinTypeName (text : StringRef) : Option StringRef :=
  if text = chars "Builtin.BridgeObject" then some (chars "Bb")
  else if text = chars "Builtin.UnsafeValueBuffer" then some (chars "BB")
  else if text = chars "Builtin.UnknownObject" then some (chars "BO")
  else if text = chars "Builtin.NativeObject" then some (chars "Bo")
  else if text = chars "Builtin.RawPointer" then some (chars "Bp")
  else if text = chars "Builtin.SILToken" then some (chars "Bt")
  else if text = chars "Builtin.Word" then some (chars "Bw")
  else
    match stripPrefix text (chars "Builtin.Int"), stripPrefix text (chars "Builtin.Float"),
      stripPrefix text (chars "Builtin.Vec") with
    | some text, _, _ => some (chars "Bi" ++ text ++ [0x5F])
    | none, some text, _ => some (chars "Bf" ++ text ++ [0x5F])
    | none, none, some text =>
      let split := split text 0x78
      let element := mangleVectorElement split.2
      element.map fun element => element ++ chars "Bv" ++ split.1 ++ [0x5F]
    | none, none, none => none

/-! ## Decimal numerals -/

section

variable {n m : Nat} {name : StringRef}

theorem denotes_decimal (n : Nat) : denotes (decimal n) = n := foldl_decimal n

theorem decimal_inj (h : decimal n = decimal m) : n = m := by
  rw [← denotes_decimal n, h, denotes_decimal]

theorem length_decimal_lt : (decimal n).length < 8 ↔ n < 10 ^ 7 := by
  rw [decimal]
  split_ifs with hzero
  · rw [hzero]
    exact iff_of_true (by decide) (by decide)
  · rw [List.length_map, List.length_reverse, Nat.lt_succ_iff, Nat.digits_length_le_iff (by decide)]

theorem append_nat (name : StringRef) (n : Nat) :
    append name n = if n < 10 ^ 7 then some (name ++ decimal n) else none := by
  rw [append, Int.toNat_natCast]
  exact if_congr length_decimal_lt rfl rfl

end

/-! ## Mangled numbers -/

/-- A string of digits. -/
structure Digits where
  chars : StringRef
  ne_nil : chars ≠ []
  isDigit : ∀ c ∈ chars, Mangle.isDigit c = true

def indexChars (i : Option Digits) : StringRef := (i.elim [] Digits.chars) ++ [0x5F]

def indexValue (i : Option Digits) : Nat := i.elim 0 fun ds => denotes ds.chars + 1

def IndexLowered (i : Option Digits) : Prop := ∃ ds ∈ i, Lowered [] ds.chars

section

variable {text rest : StringRef} {pos : Nat} {T : List StringRef} {i : Option Digits}

theorem wrapInt_add (x y : Int) : wrapInt (wrapInt x + y) = wrapInt (x + y) := Int.bmod_add_bmod

theorem wrapInt_sub (x y : Int) : wrapInt (wrapInt x - y) = wrapInt (x - y) := Int.bmod_sub_bmod

theorem neg_wrapInt_le (x : Int) : -2 ^ 31 ≤ wrapInt x := by
  have h := Int.le_bmod (x := x) (m := 2 ^ 32) (by norm_num)
  norm_num at h
  exact h

theorem digitsAt_digits (ds : Digits) (h : text.drop pos = ds.chars ++ 0x5F :: rest) : digitsAt text pos = ds.chars := by
  rw [digitsAt, h, List.takeWhile_append_of_pos ds.isDigit, List.takeWhile_cons_of_neg (by decide), List.append_nil]

theorem demangleIndex_digits (h : text.drop pos = indexChars i ++ rest) :
    (¬ IndexLowered i → Wrapping.demangleIndex ⟨text, pos, T⟩ =
        (.ok (wrapInt (indexValue i)), ⟨text, pos + (indexChars i).length, T⟩)) ∧
      (IndexLowered i → ∃ d', Wrapping.demangleIndex ⟨text, pos, T⟩ = (.ok (-1000), d')) := by
  cases i with
  | none =>
      have hnext := nextIf_run (T := T) h 0x5F
      refine ⟨fun _ => ?_, fun ⟨ds, hds, _⟩ => absurd hds (Option.not_mem_none ds)⟩
      rw [Wrapping.demangleIndex, bind_run hnext]
      rfl
  | some ds =>
      have hdrop : text.drop pos = ds.chars ++ 0x5F :: rest := by
        rw [h, indexChars, List.append_assoc]
        rfl
      have hat := digitsAt_digits ds hdrop
      have hne : digitsAt text pos ≠ [] := hat ▸ ds.ne_nil
      have hnext := nextIf_run (T := T) hdrop 0x5F
      have hhead : (ds.chars ++ 0x5F :: rest).headD 0 ≠ 0x5F := by
        obtain ⟨c, cs, hcons⟩ := List.exists_cons_of_ne_nil ds.ne_nil
        have hc := ds.isDigit c (hcons ▸ List.mem_cons_self)
        rw [hcons, List.cons_append, List.headD_cons]
        rintro rfl
        exact absurd hc (by decide)
      rw [if_neg hhead] at hnext
      obtain ⟨hread, hrefuse⟩ := demangleNatural_spec hne T
      rw [hat] at hread hrefuse
      rw [Wrapping.demangleIndex, bind_run hnext, if_neg Bool.false_ne_true]
      refine ⟨fun hlow => ?_, fun hlow => ?_⟩
      · have hnot : ¬ Lowered [] ds.chars := fun hl => hlow ⟨ds, rfl, hl⟩
        have hnonneg : (0 : Int) ≤ wrapInt (denotes ds.chars) := by
          have hle := wrapInt_le_of_not_lowered hnot
          rwa [List.nil_append] at hle
        have hend : text.drop (pos + ds.chars.length) = 0x5F :: rest := drop_add hdrop
        have hclose := nextIf_run (T := T) hend 0x5F
        rw [List.headD_cons, if_pos rfl] at hclose
        rw [bind_run (hread hnot), if_pos hnonneg, bind_run hclose, if_pos rfl, wrapInt_add]
        refine Prod.ext ?_ ?_
        · exact congrArg Except.ok (congrArg wrapInt (Nat.cast_succ _).symm)
        · rw [indexChars, List.length_append, ← Nat.add_assoc]
          rfl
      · obtain ⟨ds', hds, hl⟩ := hlow
        obtain rfl := Option.some.inj hds
        obtain ⟨pos', hstop⟩ := hrefuse hl
        refine ⟨⟨text, pos', T⟩, ?_⟩
        rw [bind_run hstop]
        rfl

end

/-! ## Builtin types -/

/-- The builtin types. -/
inductive BuiltinType where
  | bridgeObject
  | unsafeValueBuffer
  | unknownObject
  | nativeObject
  | rawPointer
  | silToken
  | word
  | int (size : Nat)
  | float (size : Nat)
  | vec (elts : Nat) (elt : BuiltinType)

namespace BuiltinType

/-- The name in the module `Builtin`. -/
def name : BuiltinType → StringRef
  | bridgeObject => chars "BridgeObject"
  | unsafeValueBuffer => chars "UnsafeValueBuffer"
  | unknownObject => chars "UnknownObject"
  | nativeObject => chars "NativeObject"
  | rawPointer => chars "RawPointer"
  | silToken => chars "SILToken"
  | word => chars "Word"
  | int size => chars "Int" ++ decimal size
  | float size => chars "Float" ++ decimal size
  | vec elts elt => chars "Vec" ++ decimal elts ++ [0x78] ++ elt.name

def text (b : BuiltinType) : StringRef := chars "Builtin." ++ b.name

def popped (b : BuiltinType) : Option TypeChild := some ⟨true, b.text⟩

/-- The mangled type. -/
def mangled : BuiltinType → StringRef
  | bridgeObject => chars "Bb"
  | unsafeValueBuffer => chars "BB"
  | unknownObject => chars "BO"
  | nativeObject => chars "Bo"
  | rawPointer => chars "Bp"
  | silToken => chars "Bt"
  | word => chars "Bw"
  | int size => chars "Bi" ++ decimal size ++ [0x5F]
  | float size => chars "Bf" ++ decimal size ++ [0x5F]
  | vec elts elt => elt.mangled ++ chars "Bv" ++ decimal elts ++ [0x5F]

def InVector : BuiltinType → Prop
  | int _ | float _ | rawPointer => True
  | _ => False

end BuiltinType

theorem ne_of_take {x y : StringRef} (k : Nat) (h : x.take k ≠ y.take k) : x ≠ y := fun heq => h (congrArg _ heq)

theorem stripPrefix_append (x y : StringRef) : stripPrefix (x ++ y) x = some y := by
  rw [stripPrefix, if_pos (List.prefix_append _ _), List.drop_left]

theorem stripPrefix_of_take {x y : StringRef} (h : x.take y.length ≠ y) : stripPrefix x y = none :=
  if_neg fun hpre => h (List.prefix_iff_eq_take.1 hpre).symm

def fixedNames : List StringRef :=
  [chars "Builtin.BridgeObject", chars "Builtin.UnsafeValueBuffer", chars "Builtin.UnknownObject",
    chars "Builtin.NativeObject", chars "Builtin.RawPointer", chars "Builtin.SILToken", chars "Builtin.Word"]

theorem mangleBuiltinTypeName_of_ne {text x : StringRef} (htake : text.take 9 = x)
    (h : ∀ name ∈ fixedNames, x ≠ name.take 9) :
    mangleBuiltinTypeName text =
      match stripPrefix text (chars "Builtin.Int"), stripPrefix text (chars "Builtin.Float"),
        stripPrefix text (chars "Builtin.Vec") with
      | some text, _, _ => some (chars "Bi" ++ text ++ [0x5F])
      | none, some text, _ => some (chars "Bf" ++ text ++ [0x5F])
      | none, none, some text =>
        (mangleVectorElement (split text 0x78).2).map fun element =>
          element ++ chars "Bv" ++ (split text 0x78).1 ++ [0x5F]
      | none, none, none => none := by
  have hne : ∀ name ∈ fixedNames, text ≠ name := fun name hname => ne_of_take 9 (htake ▸ h name hname)
  simp only [fixedNames, List.forall_mem_cons] at hne
  obtain ⟨h1, h2, h3, h4, h5, h6, h7, -⟩ := hne
  rw [mangleBuiltinTypeName, if_neg h1, if_neg h2, if_neg h3, if_neg h4, if_neg h5, if_neg h6, if_neg h7]

theorem mangleBuiltinTypeName_int (s : StringRef) :
    mangleBuiltinTypeName (chars "Builtin.Int" ++ s) = some (chars "Bi" ++ s ++ [0x5F]) := by
  have htake : (chars "Builtin.Int" ++ s).take 9 = chars "Builtin.I" := rfl
  rw [mangleBuiltinTypeName_of_ne htake (by decide), stripPrefix_append]

theorem mangleBuiltinTypeName_float (s : StringRef) :
    mangleBuiltinTypeName (chars "Builtin.Float" ++ s) = some (chars "Bf" ++ s ++ [0x5F]) := by
  have htake : (chars "Builtin.Float" ++ s).take 9 = chars "Builtin.F" := rfl
  have hint : stripPrefix (chars "Builtin.Float" ++ s) (chars "Builtin.Int") = none :=
    stripPrefix_of_take fun h => absurd h (by decide : chars "Builtin.Flo" ≠ chars "Builtin.Int")
  rw [mangleBuiltinTypeName_of_ne htake (by decide), hint, stripPrefix_append]

theorem split_decimal (n : Nat) (s : StringRef) : split (decimal n ++ 0x78 :: s) 0x78 = (decimal n, s) := by
  have hdigits : ∀ c ∈ decimal n, (decide (c ≠ 0x78)) = true := by
    intro c hc
    refine decide_eq_true ?_
    rintro rfl
    exact absurd (isDigit_decimal hc) (by decide)
  rw [split, List.takeWhile_append_of_pos hdigits, List.dropWhile_append_of_pos hdigits,
    List.takeWhile_cons_of_neg (by decide), List.dropWhile_cons_of_neg (by decide), List.append_nil]
  rfl

theorem mangleVectorElement_name (elt : BuiltinType) :
    (elt.InVector → mangleVectorElement elt.name = some elt.mangled) ∧
      (¬ elt.InVector → mangleVectorElement elt.name = none) := by
  cases elt with
  | int size =>
      have hne : chars "Int" ++ decimal size ≠ chars "RawPointer" :=
        ne_of_take 1 (by decide : chars "I" ≠ chars "R")
      have hfloat : stripPrefix (chars "Int" ++ decimal size) (chars "Float") = none :=
        if_neg fun ⟨y, hy⟩ => absurd (congrArg (List.take 1) hy) (by decide : chars "F" ≠ chars "I")
      refine ⟨fun _ => ?_, fun h => absurd trivial h⟩
      rw [BuiltinType.name, mangleVectorElement, if_neg hne, hfloat, stripPrefix_append]
      rfl
  | float size =>
      have hne : chars "Float" ++ decimal size ≠ chars "RawPointer" :=
        ne_of_take 1 (by decide : chars "F" ≠ chars "R")
      refine ⟨fun _ => ?_, fun h => absurd trivial h⟩
      rw [BuiltinType.name, mangleVectorElement, if_neg hne, stripPrefix_append]
      rfl
  | rawPointer => exact ⟨fun _ => rfl, fun h => absurd trivial h⟩
  | vec elts elt =>
      have hne : (BuiltinType.vec elts elt).name ≠ chars "RawPointer" :=
        ne_of_take 1 (by decide : chars "V" ≠ chars "R")
      have hfloat : stripPrefix (BuiltinType.vec elts elt).name (chars "Float") = none :=
        if_neg fun ⟨y, hy⟩ => absurd (congrArg (List.take 1) hy) (by decide : chars "F" ≠ chars "V")
      have hint : stripPrefix (BuiltinType.vec elts elt).name (chars "Int") = none :=
        if_neg fun ⟨y, hy⟩ => absurd (congrArg (List.take 1) hy) (by decide : chars "I" ≠ chars "V")
      refine ⟨fun h => h.elim, fun _ => ?_⟩
      rw [mangleVectorElement, if_neg hne, hfloat, hint]
  | bridgeObject => exact ⟨fun h => h.elim, fun _ => rfl⟩
  | unsafeValueBuffer => exact ⟨fun h => h.elim, fun _ => rfl⟩
  | unknownObject => exact ⟨fun h => h.elim, fun _ => rfl⟩
  | nativeObject => exact ⟨fun h => h.elim, fun _ => rfl⟩
  | silToken => exact ⟨fun h => h.elim, fun _ => rfl⟩
  | word => exact ⟨fun h => h.elim, fun _ => rfl⟩

theorem mangleBuiltinTypeName_vec (n : Nat) (elt : BuiltinType) :
    (elt.InVector → mangleBuiltinTypeName (BuiltinType.vec n elt).text = some (BuiltinType.vec n elt).mangled) ∧
      (¬ elt.InVector → mangleBuiltinTypeName (BuiltinType.vec n elt).text = none) := by
  have htext : (BuiltinType.vec n elt).text = chars "Builtin.Vec" ++ (decimal n ++ 0x78 :: elt.name) := by
    simp only [BuiltinType.text, BuiltinType.name, List.append_assoc, List.singleton_append]
    rfl
  have htake : (chars "Builtin.Vec" ++ (decimal n ++ 0x78 :: elt.name)).take 9 = chars "Builtin.V" := rfl
  have hint : stripPrefix (chars "Builtin.Vec" ++ (decimal n ++ 0x78 :: elt.name)) (chars "Builtin.Int") = none :=
    stripPrefix_of_take fun h => absurd h (by decide : chars "Builtin.Vec" ≠ chars "Builtin.Int")
  have hfloat : stripPrefix (chars "Builtin.Vec" ++ (decimal n ++ 0x78 :: elt.name)) (chars "Builtin.Float") = none := by
    refine if_neg fun ⟨y, hy⟩ => ?_
    exact absurd (congrArg (List.take 9) hy) (by decide : chars "Builtin.F" ≠ chars "Builtin.V")
  rw [htext, mangleBuiltinTypeName_of_ne htake (by decide), hint, hfloat, stripPrefix_append]
  simp only [split_decimal]
  obtain ⟨hmangled, hnone⟩ := mangleVectorElement_name elt
  refine ⟨fun helt => ?_, fun helt => ?_⟩
  · rw [hmangled helt]
    rfl
  · rw [hnone helt]
    rfl

/-! ## What is read -/

/-- At this mangled text the demangler returns `nullptr`, or it returns `result`, behind the text, and `again`
holds. -/
def RefusesOr {β : Type} (run : Prog Demangler Demangler.Failure (Option β)) (mangled : StringRef) (result : β)
    (again : Prop) : Prop :=
  ∀ text pos words rest, text.drop pos = mangled ++ rest →
    (run ⟨text, pos, words⟩).1 = .error .nullptr ∨
      run ⟨text, pos, words⟩ = (.ok (some result), ⟨text, pos + mangled.length, words⟩) ∧ again

/-- A number of a builtin type is refused: a digit makes the accumulator smaller, or it is 0. -/
def SizeRefused (ds : Digits) : Prop := Lowered [] ds.chars ∨ wrapInt (denotes ds.chars) = 0

/-- The part of `demangleBuiltinType` that reads a number. -/
def readSize (k : Int → Prog Demangler Demangler.Failure (Option StringRef)) :
    Prog Demangler Demangler.Failure (Option StringRef) := do
  let index ← Wrapping.demangleIndex
  let size := wrapInt (index - 1)
  if size ≤ 0 then Prog.throw .nullptr else k size

section

variable {text rest : StringRef} {pos : Nat} {T : List StringRef}
  {k : Int → Prog Demangler Demangler.Failure (Option StringRef)}

theorem readSize_digits (ds : Digits) (h : text.drop pos = indexChars (some ds) ++ rest) :
    (SizeRefused ds → (readSize k ⟨text, pos, T⟩).1 = .error .nullptr) ∧
      (¬ SizeRefused ds →
        readSize k ⟨text, pos, T⟩ =
          k (wrapInt (denotes ds.chars)) ⟨text, pos + (indexChars (some ds)).length, T⟩) := by
  obtain ⟨hread, hlow⟩ := demangleIndex_digits (T := T) h
  have hsize : wrapInt (wrapInt (indexValue (some ds)) - 1) = wrapInt (denotes ds.chars) := by
    rw [wrapInt_sub]
    congr 1
    change ((denotes ds.chars + 1 : Nat) : Int) - 1 = denotes ds.chars
    omega
  rw [readSize]
  by_cases hlowered : Lowered [] ds.chars
  · obtain ⟨d', hrun⟩ := hlow ⟨ds, rfl, hlowered⟩
    refine ⟨fun _ => ?_, fun hrefused => absurd (.inl hlowered) hrefused⟩
    rw [bind_run hrun]
    rfl
  · have hnot : ¬ IndexLowered (some ds) := by
      rintro ⟨ds', hds, hl⟩
      obtain rfl := Option.some.inj hds
      exact hlowered hl
    have hnonneg : (0 : Int) ≤ wrapInt (denotes ds.chars) := by
      have hle := wrapInt_le_of_not_lowered hlowered
      rwa [List.nil_append] at hle
    rw [bind_run (hread hnot)]
    simp only [hsize]
    refine ⟨fun hrefused => ?_, fun hrefused => ?_⟩
    · rw [if_pos (hrefused.resolve_left hlowered).le]
      rfl
    · rw [if_neg fun hle => hrefused (.inr (le_antisymm hle hnonneg))]

theorem refusesOr_size_iff {run : Prog Demangler Demangler.Failure (Option StringRef)} {c : BitVec 8} {ds : Digits}
    {pre : StringRef} {post : StringRef → StringRef} {again : Prop} (hpost : ∀ x y, post x = post y → x = y)
    (hrun : ∀ text pos words rest, text.drop pos = c :: rest → run ⟨text, pos, words⟩ =
      readSize (fun size => pure ((append pre size).map post)) ⟨text, pos + 1, words⟩) :
    RefusesOr run (c :: indexChars (some ds)) (post (pre ++ decimal (denotes ds.chars))) again ↔
      SizeRefused ds ∨ denotes ds.chars < 10 ^ 7 ∧ again := by
  constructor
  · intro h
    by_contra! hcon
    obtain ⟨hrefused, hnot⟩ := hcon
    have hread := (@readSize_digits (c :: indexChars (some ds)) [] 1 []
      (fun size => pure ((append pre size).map post)) ds (List.append_nil _).symm).2 hrefused
    have hstart := h (c :: indexChars (some ds)) 0 [] [] (List.append_nil _).symm
    rw [hrun _ 0 [] _ rfl, hread] at hstart
    have hnonneg : (0 : Int) ≤ wrapInt (denotes ds.chars) := by
      have hle := wrapInt_le_of_not_lowered fun hl => hrefused (.inl hl)
      rwa [List.nil_append] at hle
    obtain ⟨n, hn⟩ := Int.eq_ofNat_of_zero_le hnonneg
    rw [hn, append_nat] at hstart
    rcases hstart with hnull | ⟨hres, hagain⟩
    · cases hnull
    · split_ifs at hres with hlt
      · have hsame := Option.some.inj (Except.ok.inj (Prod.mk.inj hres).1)
        obtain rfl := decimal_inj (List.append_cancel_left (hpost _ _ hsame))
        exact hnot hlt hagain
      · cases Except.ok.inj (Prod.mk.inj hres).1
  · intro h text pos words rest hdrop
    have hnext : text.drop (pos + 1) = indexChars (some ds) ++ rest := drop_add (x := [_]) hdrop
    obtain ⟨hnull, hread⟩ := readSize_digits (T := words) (k := fun size => pure ((append pre size).map post)) ds hnext
    rw [hrun text pos words _ hdrop]
    by_cases hrefused : SizeRefused ds
    · exact .inl (hnull hrefused)
    · obtain ⟨hlt, hagain⟩ := h.resolve_left hrefused
      refine .inr ⟨?_, hagain⟩
      rw [hread hrefused, wrapInt_of_fits (by omega) (by omega), append_nat, if_pos hlt, List.length_cons, Nat.add_assoc,
        Nat.add_comm 1]
      rfl

end

/-! ## Generic parameters -/

/-- An index, and `n` more, is refused: a digit makes the accumulator smaller, or the sum is negative. -/
def IndexRefused (i : Option Digits) (n : Nat) : Prop := IndexLowered i ∨ wrapInt (indexValue i + n) < 0

section

variable {text rest : StringRef} {pos : Nat} {T : List StringRef} {d : Demangler}

theorem demangleNatural_total (d : Demangler) : ∃ r d', Wrapping.demangleNatural d = (.ok r, d') := by
  obtain ⟨text, pos, words⟩ := d
  by_cases hdigits : digitsAt text pos = []
  · exact ⟨_, _, demangleNatural_no_digits hdigits words⟩
  · obtain ⟨hread, hlow⟩ := demangleNatural_spec hdigits words
    by_cases hlowered : Lowered [] (digitsAt text pos)
    · obtain ⟨pos', hrun⟩ := hlow hlowered
      exact ⟨_, _, hrun⟩
    · exact ⟨_, _, hread hlowered⟩

theorem demangleIndex_total (d : Demangler) : ∃ r d', Wrapping.demangleIndex d = (.ok r, d') := by
  obtain ⟨text, pos, words⟩ := d
  obtain ⟨r, d', hrun⟩ := demangleNatural_total ⟨text, pos, words⟩
  have hnext := nextIf_run (T := words) (rfl : text.drop pos = _) 0x5F
  rw [Wrapping.demangleIndex]
  split_ifs at hnext with hunder
  · rw [bind_run hnext]
    exact ⟨_, _, rfl⟩
  · rw [bind_run hnext, if_neg Bool.false_ne_true, bind_run hrun]
    obtain ⟨text', pos', words'⟩ := d'
    have hclose := nextIf_run (T := words') (rfl : text'.drop pos' = _) 0x5F
    split_ifs with hr
    · split_ifs at hclose
      · rw [bind_run hclose]
        exact ⟨_, _, rfl⟩
      · rw [bind_run hclose]
        exact ⟨_, _, rfl⟩
    · exact ⟨_, _, rfl⟩

theorem indexChars_headD (i : Option Digits) (rest : StringRef) :
    (indexChars i ++ rest).headD 0 ≠ 0x64 ∧ (indexChars i ++ rest).headD 0 ≠ 0x7A := by
  cases i with
  | none => exact ⟨(by decide : (0x5F : BitVec 8) ≠ 0x64), (by decide : (0x5F : BitVec 8) ≠ 0x7A)⟩
  | some ds =>
      obtain ⟨c, cs, hcons⟩ := List.exists_cons_of_ne_nil ds.ne_nil
      have hc := ds.isDigit c (hcons ▸ List.mem_cons_self)
      have hhead : (indexChars (some ds) ++ rest).headD 0 = c := by
        simp only [indexChars, Option.elim, hcons, List.cons_append, List.headD_cons]
      rw [hhead]
      constructor
      · rintro rfl
        exact absurd hc (by decide)
      · rintro rfl
        exact absurd hc (by decide)

theorem getDependentGenericParamType_nat (depth index : Nat) (d : Demangler) :
    Demangler.getDependentGenericParamType depth index d =
      (.ok (if depth = 0 then some (Demangler.indexLetters index, 0, index)
        else if depth < 10 ^ 7 then some (Demangler.indexLetters index ++ decimal depth, depth, index) else none), d) := by
  rw [Demangler.getDependentGenericParamType, if_neg (by omega)]
  by_cases hzero : depth = 0
  · rw [hzero]
    rfl
  · rw [if_neg hzero, if_pos (by omega), append_nat, Int.toNat_natCast]
    split_ifs
    · rfl
    · rfl

theorem demangleGenericParamIndex_index {i : Option Digits} (h : text.drop pos = indexChars i ++ rest) :
    (IndexRefused i 1 → (Demangler.demangleGenericParamIndex ⟨text, pos, T⟩).1 = .error .nullptr) ∧
      (¬ IndexRefused i 1 → Demangler.demangleGenericParamIndex ⟨text, pos, T⟩ =
        (.ok (some (Demangler.indexLetters (wrapInt (indexValue i + 1)).toNat, 0, wrapInt (indexValue i + 1))),
          ⟨text, pos + (indexChars i).length, T⟩)) := by
  obtain ⟨hd, hz⟩ := indexChars_headD i rest
  have hdnext := nextIf_run (T := T) h 0x64
  have hznext := nextIf_run (T := T) h 0x7A
  rw [if_neg hd] at hdnext
  rw [if_neg hz] at hznext
  obtain ⟨hread, hlow⟩ := demangleIndex_digits (T := T) h
  rw [Demangler.demangleGenericParamIndex, bind_run hdnext, if_neg Bool.false_ne_true, bind_run hznext,
    if_neg Bool.false_ne_true]
  by_cases hlowered : IndexLowered i
  · obtain ⟨d', hrun⟩ := hlow hlowered
    refine ⟨fun _ => ?_, fun hnot => absurd (.inl hlowered) hnot⟩
    rw [bind_run hrun]
    rfl
  · rw [bind_run (hread hlowered), wrapInt_add, Demangler.getDependentGenericParamType]
    refine ⟨fun hrefused => ?_, fun hrefused => ?_⟩
    · rw [if_pos (.inr (hrefused.resolve_left hlowered))]
      rfl
    · rw [if_neg]
      · rfl
      · rintro (hneg | hneg)
        · exact absurd hneg (by decide)
        · exact hrefused (.inr hneg)

theorem demangleGenericParamIndex_deep {depth i : Option Digits}
    (h : text.drop pos = 0x64 :: indexChars depth ++ indexChars i ++ rest) :
    (IndexRefused depth 1 ∨ IndexRefused i 0 →
        (Demangler.demangleGenericParamIndex ⟨text, pos, T⟩).1 = .error .nullptr) ∧
      (¬ (IndexRefused depth 1 ∨ IndexRefused i 0) → Demangler.demangleGenericParamIndex ⟨text, pos, T⟩ =
        Demangler.getDependentGenericParamType (wrapInt (indexValue depth + 1)) (wrapInt (indexValue i))
          ⟨text, pos + (0x64 :: indexChars depth ++ indexChars i).length, T⟩) := by
  have hdnext := nextIf_run (T := T) (y := 0x64 :: (indexChars depth ++ indexChars i ++ rest)) h 0x64
  rw [List.headD_cons, if_pos rfl] at hdnext
  have hdrop : text.drop pos = [0x64] ++ (indexChars depth ++ (indexChars i ++ rest)) := by
    rw [h, List.cons_append, List.cons_append, List.append_assoc]
    rfl
  have hfirst : text.drop (pos + 1) = indexChars depth ++ (indexChars i ++ rest) := drop_add hdrop
  obtain ⟨hdread, hdlow⟩ := demangleIndex_digits (T := T) hfirst
  rw [Demangler.demangleGenericParamIndex, bind_run hdnext, if_pos rfl]
  by_cases hdlowered : IndexLowered depth
  · -- the depth is negative, whatever the index
    obtain ⟨d', hrun⟩ := hdlow hdlowered
    obtain ⟨r, d'', hrun'⟩ := demangleIndex_total d'
    refine ⟨fun _ => ?_, fun hnot => absurd (.inl (.inl hdlowered)) hnot⟩
    rw [bind_run hrun, bind_run hrun', Demangler.getDependentGenericParamType, if_pos (.inl (by decide))]
    rfl
  · have hsecond : text.drop (pos + 1 + (indexChars depth).length) = indexChars i ++ rest := drop_add hfirst
    obtain ⟨hiread, hilow⟩ := demangleIndex_digits (T := T) hsecond
    rw [bind_run (hdread hdlowered), wrapInt_add]
    by_cases hilowered : IndexLowered i
    · obtain ⟨d', hrun⟩ := hilow hilowered
      refine ⟨fun _ => ?_, fun hnot => absurd (.inr (.inl hilowered)) hnot⟩
      rw [bind_run hrun, Demangler.getDependentGenericParamType, if_pos (.inr (by decide))]
      rfl
    · rw [bind_run (hiread hilowered)]
      refine ⟨fun hrefused => ?_, fun hrefused => ?_⟩
      · rw [Demangler.getDependentGenericParamType, if_pos]
        · rfl
        · rcases hrefused with hrefused | hrefused
          · exact .inl (hrefused.resolve_left hdlowered)
          · have hneg := hrefused.resolve_left hilowered
            rw [Nat.cast_zero, Int.add_zero] at hneg
            exact .inr hneg
      · congr 2
        rw [List.length_append, List.length_cons]
        omega

end

/-! ## Numbers in mangled texts -/

/-- The builtin types and generic parameters that are mangled with a number. -/
inductive Mangled where
  | int (size : Digits)
  | float (size : Digits)
  | vec (elt : BuiltinType) (elts : Digits)
  | param (index : Option Digits)
  | firstParam
  | deepParam (depth index : Option Digits)

/-- The text of the node has the numbers of the mangled text, and a builtin type is mangled again as it was, if
the demangler does not return `nullptr`. -/
def WritesNumber : Mangled → Prop
  | .int size => ∀ popped, RefusesOr (Demangler.demangleBuiltinType popped) (0x69 :: indexChars (some size))
      (BuiltinType.int (denotes size.chars)).text
      (mangleBuiltinTypeName (BuiltinType.int (denotes size.chars)).text = some (chars "Bi" ++ size.chars ++ [0x5F]))
  | .float size => ∀ popped, RefusesOr (Demangler.demangleBuiltinType popped) (0x66 :: indexChars (some size))
      (BuiltinType.float (denotes size.chars)).text
      (mangleBuiltinTypeName (BuiltinType.float (denotes size.chars)).text = some (chars "Bf" ++ size.chars ++ [0x5F]))
  | .vec elt elts => RefusesOr (Demangler.demangleBuiltinType elt.popped) (0x76 :: indexChars (some elts))
      (BuiltinType.vec (denotes elts.chars) elt).text
      (mangleBuiltinTypeName (BuiltinType.vec (denotes elts.chars) elt).text =
        some (elt.mangled ++ chars "Bv" ++ elts.chars ++ [0x5F]))
  | .param index => RefusesOr Demangler.demangleGenericParamIndex (indexChars index)
      (Demangler.indexLetters (indexValue index + 1), 0, indexValue index + 1) True
  | .firstParam => RefusesOr Demangler.demangleGenericParamIndex [0x7A] (Demangler.indexLetters 0, 0, 0) True
  | .deepParam depth index => RefusesOr Demangler.demangleGenericParamIndex (0x64 :: indexChars depth ++ indexChars index)
      (Demangler.indexLetters (indexValue index) ++ decimal (indexValue depth + 1), indexValue depth + 1, indexValue index)
      True

/-- The number is refused, or it has seven digits at most, and is not mangled with more. -/
def SizePrinted (ds : Digits) : Prop :=
  SizeRefused ds ∨ denotes ds.chars < 10 ^ 7 ∧ ds.chars = decimal (denotes ds.chars)

/-- The numbers that are refused, and those that are written as they are read. -/
def Printed : Mangled → Prop
  | .int size | .float size => SizePrinted size
  | .vec elt elts => SizeRefused elts ∨
      denotes elts.chars < 10 ^ 7 ∧ elts.chars = decimal (denotes elts.chars) ∧ elt.InVector
  | .param index => IndexRefused index 1 ∨ indexValue index + 1 < 2 ^ 31
  | .firstParam => True
  | .deepParam depth index => (IndexRefused depth 1 ∨ IndexRefused index 0) ∨
      indexValue depth + 1 < 10 ^ 7 ∧ indexValue index < 2 ^ 31

section

variable {popped : Option TypeChild} {ds : Digits} {elt : BuiltinType} {index depth : Option Digits}

theorem demangleBuiltinType_int (popped : Option TypeChild) (text : StringRef) (pos : Nat) (words : List StringRef)
    (rest : StringRef) (h : text.drop pos = 0x69 :: rest) : Demangler.demangleBuiltinType popped ⟨text, pos, words⟩ =
      readSize (fun size => pure ((append (chars "Builtin.Int") size).map id)) ⟨text, pos + 1, words⟩ := by
  rw [Demangler.demangleBuiltinType, bind_run (nextChar_run h)]
  simp only [Option.map_id]
  rfl

theorem demangleBuiltinType_float (popped : Option TypeChild) (text : StringRef) (pos : Nat) (words : List StringRef)
    (rest : StringRef) (h : text.drop pos = 0x66 :: rest) : Demangler.demangleBuiltinType popped ⟨text, pos, words⟩ =
      readSize (fun size => pure ((append (chars "Builtin.Float") size).map id)) ⟨text, pos + 1, words⟩ := by
  rw [Demangler.demangleBuiltinType, bind_run (nextChar_run h)]
  simp only [Option.map_id]
  rfl

theorem demangleBuiltinType_vec (elt : BuiltinType) (text : StringRef) (pos : Nat) (words : List StringRef)
    (rest : StringRef) (h : text.drop pos = 0x76 :: rest) :
    Demangler.demangleBuiltinType elt.popped ⟨text, pos, words⟩ =
      readSize (fun size => pure ((append (chars "Builtin.Vec") size).map fun name => name ++ [0x78] ++ elt.name))
        ⟨text, pos + 1, words⟩ := by
  have htext : ¬ (true = false ∨ ¬ chars "Builtin." <+: elt.text) := by
    simp only [Bool.true_eq_false, false_or, not_not]
    exact List.prefix_append _ _
  have hname : elt.text.drop (chars "Builtin.").length = elt.name := List.drop_left
  rw [Demangler.demangleBuiltinType, bind_run (nextChar_run h)]
  simp only [BuiltinType.popped, if_neg htext, hname]
  rfl

theorem mangled_int_iff :
    mangleBuiltinTypeName (BuiltinType.int (denotes ds.chars)).text = some (chars "Bi" ++ ds.chars ++ [0x5F]) ↔
      ds.chars = decimal (denotes ds.chars) := by
  have htext : (BuiltinType.int (denotes ds.chars)).text = chars "Builtin.Int" ++ decimal (denotes ds.chars) := rfl
  rw [htext, mangleBuiltinTypeName_int, Option.some.injEq, List.append_left_inj, List.append_right_inj, eq_comm]

theorem mangled_float_iff :
    mangleBuiltinTypeName (BuiltinType.float (denotes ds.chars)).text = some (chars "Bf" ++ ds.chars ++ [0x5F]) ↔
      ds.chars = decimal (denotes ds.chars) := by
  have htext : (BuiltinType.float (denotes ds.chars)).text = chars "Builtin.Float" ++ decimal (denotes ds.chars) := rfl
  rw [htext, mangleBuiltinTypeName_float, Option.some.injEq, List.append_left_inj, List.append_right_inj, eq_comm]

theorem mangled_vec_iff :
    mangleBuiltinTypeName (BuiltinType.vec (denotes ds.chars) elt).text =
        some (elt.mangled ++ chars "Bv" ++ ds.chars ++ [0x5F]) ↔
      ds.chars = decimal (denotes ds.chars) ∧ elt.InVector := by
  obtain ⟨hmangled, hnone⟩ := mangleBuiltinTypeName_vec (denotes ds.chars) elt
  by_cases helt : elt.InVector
  · rw [hmangled helt, BuiltinType.mangled, Option.some.injEq, List.append_left_inj, List.append_right_inj, eq_comm]
    exact (and_iff_left helt).symm
  · rw [hnone helt]
    exact iff_of_false (Option.some_ne_none _).symm fun h => helt h.2

theorem writesNumber_param_iff : WritesNumber (.param index) ↔ Printed (.param index) := by
  constructor
  · intro h
    refine or_iff_not_imp_left.2 fun hnot => ?_
    have hstart := h (indexChars index) 0 [] [] (List.append_nil _).symm
    have hread := (@demangleGenericParamIndex_index (indexChars index) [] 0 [] index (List.append_nil _).symm).2 hnot
    rw [hread] at hstart
    rcases hstart with hnull | ⟨hres, -⟩
    · cases hnull
    · have hvalue : wrapInt (indexValue index + 1) = indexValue index + 1 :=
        (Prod.mk.inj (Prod.mk.inj (Option.some.inj (Except.ok.inj (Prod.mk.inj hres).1))).2).2
      have hlt := wrapInt_lt (indexValue index + 1)
      omega
  · intro h text pos words rest hdrop
    obtain ⟨hnull, hread⟩ := demangleGenericParamIndex_index (T := words) hdrop
    by_cases hrefused : IndexRefused index 1
    · exact .inl (hnull hrefused)
    · have hlt := h.resolve_left hrefused
      rw [wrapInt_of_fits (by omega) (by omega)] at hread
      exact .inr ⟨hread hrefused, trivial⟩

theorem writesNumber_deepParam_iff : WritesNumber (.deepParam depth index) ↔ Printed (.deepParam depth index) := by
  constructor
  · intro h
    refine or_iff_not_imp_left.2 fun hnot => ?_
    have hstart := h (0x64 :: indexChars depth ++ indexChars index) 0 [] [] (List.append_nil _).symm
    obtain ⟨hdnot, hinot⟩ := not_or.1 hnot
    obtain ⟨n, hn⟩ := Int.eq_ofNat_of_zero_le (not_lt.1 fun hneg => hdnot (.inr hneg))
    obtain ⟨m, hm⟩ := Int.eq_ofNat_of_zero_le (not_lt.1 fun hneg => hinot (.inr hneg))
    rw [Nat.cast_zero, Int.add_zero] at hm
    have hread := (@demangleGenericParamIndex_deep (0x64 :: indexChars depth ++ indexChars index) [] 0 [] depth index
      (List.append_nil _).symm).2 hnot
    rw [Nat.cast_one] at hn
    rw [hn, hm, getDependentGenericParamType_nat] at hread
    rw [hread] at hstart
    have hlt := wrapInt_lt (indexValue index)
    rcases hstart with hnull | ⟨hres, -⟩
    · cases hnull
    · have hnode := Except.ok.inj (Prod.mk.inj hres).1
      split_ifs at hnode with hzero hseven
      · have hdepth : (0 : Int) = indexValue depth + 1 := (Prod.mk.inj (Prod.mk.inj (Option.some.inj hnode)).2).1
        omega
      · obtain ⟨hdepth, hindex⟩ := Prod.mk.inj (Prod.mk.inj (Option.some.inj hnode)).2
        omega
  · intro h text pos words rest hdrop
    obtain ⟨hnull, hread⟩ := demangleGenericParamIndex_deep (T := words) hdrop
    by_cases hrefused : IndexRefused depth 1 ∨ IndexRefused index 0
    · exact .inl (hnull hrefused)
    · obtain ⟨hdepth, hindex⟩ := h.resolve_left hrefused
      refine .inr ⟨?_, trivial⟩
      rw [hread hrefused, wrapInt_of_fits (by omega) (by omega), wrapInt_of_fits (by omega) (by omega)]
      have hnode := getDependentGenericParamType_nat (indexValue depth + 1) (indexValue index)
        ⟨text, pos + (0x64 :: indexChars depth ++ indexChars index).length, words⟩
      rw [if_neg (Nat.succ_ne_zero _), if_pos hdepth] at hnode
      exact_mod_cast hnode

theorem writesNumber_firstParam : WritesNumber .firstParam := by
  intro text pos words rest h
  have hdnext := nextIf_run (T := words) h 0x64
  have hznext := nextIf_run (T := words) h 0x7A
  rw [List.cons_append, List.headD_cons, if_neg (by decide)] at hdnext
  rw [List.cons_append, List.headD_cons, if_pos rfl] at hznext
  refine .inr ⟨?_, trivial⟩
  rw [Demangler.demangleGenericParamIndex, bind_run hdnext, if_neg Bool.false_ne_true, bind_run hznext, if_pos rfl]
  exact getDependentGenericParamType_nat 0 0 _

end

/-- The numbers that a node is demangled with are those of the mangled text, up to seven digits. -/
theorem writesNumber_iff (m : Mangled) : WritesNumber m ↔ Printed m := by
  cases m with
  | int size =>
      have hsize := fun popped => @refusesOr_size_iff _ _ size _ id
        (mangleBuiltinTypeName (BuiltinType.int (denotes size.chars)).text = some (chars "Bi" ++ size.chars ++ [0x5F]))
        (fun _ _ h => h) (demangleBuiltinType_int popped)
      exact (forall_congr' hsize).trans ((forall_const _).trans (or_congr_right (and_congr_right' mangled_int_iff)))
  | float size =>
      have hsize := fun popped => @refusesOr_size_iff _ _ size _ id
        (mangleBuiltinTypeName (BuiltinType.float (denotes size.chars)).text = some (chars "Bf" ++ size.chars ++ [0x5F]))
        (fun _ _ h => h) (demangleBuiltinType_float popped)
      exact (forall_congr' hsize).trans ((forall_const _).trans (or_congr_right (and_congr_right' mangled_float_iff)))
  | vec elt elts =>
      have hsize := @refusesOr_size_iff _ _ elts _ (fun name => name ++ [0x78] ++ elt.name)
        (mangleBuiltinTypeName (BuiltinType.vec (denotes elts.chars) elt).text =
          some (elt.mangled ++ chars "Bv" ++ elts.chars ++ [0x5F]))
        (fun x y h => List.append_cancel_right (List.append_cancel_right h)) (demangleBuiltinType_vec elt)
      exact hsize.trans (or_congr_right (and_congr_right' mangled_vec_iff))
  | param index => exact writesNumber_param_iff
  | firstParam => exact iff_of_true writesNumber_firstParam trivial
  | deepParam depth index => exact writesNumber_deepParam_iff

/-- `Bi10000000_` has eight digits. -/
theorem not_writesNumber_eightDigits : ¬ WritesNumber (.int ⟨chars "10000000", by decide, by decide⟩) := by
  intro h
  have hsize := (@refusesOr_size_iff _ _ _ _ id _ (fun _ _ h => h) (demangleBuiltinType_int none)).1 (h none)
  rcases hsize with (hlow | hzero) | ⟨hlt, -⟩
  · exact not_lowered_of_fits (by decide) hlow
  · exact absurd hzero (by decide)
  · exact absurd hlt (by decide)

end SwiftKStdlib.Demangling
