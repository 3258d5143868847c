import Mathlib.Tactic

/-!
# Spaces and their values

* `TypeContext` : what the engine asks of a type;
* `Space` : the algebra of spaces; `decompose`, `simplify`;
* `isSubspace`, `intersect`, `minus` : with fuel; `none` when it runs out, or at `llvm_unreachable`;
* `Value`, `HasType` : the values of a type;
* `Contains`, `Misses` : the values that a space stands for, and those that it does not reach;
* `contains_decompose`, `Contains.content` : what decomposition and simplification do to them.
-/

namespace SwiftKStdlib.SpaceEngine

structure TupleTypeElt (Ty : Type) where
  type : Ty
  name : String

structure EnumElementDecl (Ty : Type) where
  name : String
  /-- Whether it has `DowngradeExhaustivityCheckAttr`. -/
  downgrade : Bool
  hasInterfaceType : Bool
  /-- The type of the payload, without the parentheses. -/
  argumentType : Option Ty

/-- The kinds of types that the engine tells apart. -/
inductive TypeView (Ty : Type) where
  | bool
  | enum (elements : List (EnumElementDecl Ty))
  | tuple (elements : List (TupleTypeElt Ty))
  | other

/-- Types up to `isEqual`. The elements of an enum have names, and no two of them have the same. -/
structure TypeContext (Ty : Type) where
  view : Ty → TypeView Ty
  name_ne : ∀ ty elements, view ty = .enum elements → ∀ e ∈ elements, e.name ≠ ""
  nodup_names : ∀ ty elements, view ty = .enum elements → (elements.map EnumElementDecl.name).Nodup

inductive Space (Ty : Type) where
  | empty
  | type (ty : Ty) (name : String)
  | constructor (ty : Ty) (head : String) (downgrade : Bool) (spaces : List (Space Ty))
  | disjunct (spaces : List (Space Ty))
  | booleanConstant (value : Bool)

variable {Ty : Type}

namespace TypeContext

variable (tc : TypeContext Ty)

def isBool (ty : Ty) : Bool :=
  match tc.view ty with
  | .bool => true
  | _ => false

/-- The elements of a type that is a tuple. -/
def asTuple (ty : Ty) : Option (List (TupleTypeElt Ty)) :=
  match tc.view ty with
  | .tuple elements => some elements
  | _ => none

def canDecompose (ty : Ty) : Bool :=
  match tc.view ty with
  | .other => false
  | _ => true

/-- The types of the payload: those of its elements if it is a tuple. -/
def payload (e : EnumElementDecl Ty) : List (TupleTypeElt Ty) :=
  match e.argumentType with
  | none => []
  | some ty => (tc.asTuple ty).getD [⟨ty, ""⟩]

end TypeContext

namespace Space

def isEmpty : Space Ty → Bool
  | .empty => true
  | _ => false

def ofElements (elements : List (TupleTypeElt Ty)) : List (Space Ty) :=
  elements.map fun e => .type e.type e.name

/-- The component spaces of a type; the source asserts `canDecompose`. -/
def decompose (tc : TypeContext Ty) (ty : Ty) : List (Space Ty) :=
  match tc.view ty with
  | .bool => [.booleanConstant true, .booleanConstant false]
  | .enum elements => elements.map fun e =>
    if !e.hasInterfaceType then .empty
    else .constructor ty e.name e.downgrade (ofElements (tc.payload e))
  | .tuple elements => [.constructor ty "" false (ofElements elements)]
  | .other => []

/-- The lambda `examineDecomp`. -/
def examineDecomp : List (Space Ty) → Space Ty
  | [] => .empty
  | [space] => space
  | spaces => .disjunct spaces

mutual

def simplify (tc : TypeContext Ty) : Space Ty → Space Ty
  | .constructor ty head downgrade spaces =>
    let simplifiedSpaces := simplifyAll tc spaces
    if simplifiedSpaces.any isEmpty then .empty
    else .constructor ty head downgrade simplifiedSpaces
  | .type ty name =>
    if tc.canDecompose ty && (decompose tc ty).isEmpty then .empty else .type ty name
  | .disjunct spaces =>
    match simplifyAll tc spaces with
    | [space] => space
    | simplifiedSpaces =>
      match simplifiedSpaces.filter (!·.isEmpty) with
      | [] => .empty
      | [space] => space
      | compactedSpaces => .disjunct compactedSpaces
  | .empty => .empty
  | .booleanConstant value => .booleanConstant value

def simplifyAll (tc : TypeContext Ty) : List (Space Ty) → List (Space Ty)
  | [] => []
  | space :: spaces => simplify tc space :: simplifyAll tc spaces

end

variable [DecidableEq Ty] (tc : TypeContext Ty)

/-! ## Subspaces -/

def isSubspace : Nat → Space Ty → Space Ty → Option Bool
  | 0, _, _ => none
  | fuel + 1, this, other =>
    match this, other with
    | .empty, _ => some true
    | _, .empty => some false
    | .disjunct spaces, other => spaces.allM fun space => isSubspace fuel space other
    | .type ty name, .type ty' name' =>
      if ty = ty' then some true
      else do
        if tc.canDecompose ty then
          if ← isSubspace fuel (.disjunct (decompose tc ty)) (.type ty' name') then return true
        if tc.canDecompose ty' then
          return ← isSubspace fuel (.type ty name) (.disjunct (decompose tc ty'))
        return true
    | .type ty name, .disjunct others => do
      if ← others.anyM fun dis => isSubspace fuel (.type ty name) dis then return true
      if !tc.canDecompose ty then return false
      isSubspace fuel (.disjunct (decompose tc ty)) (.disjunct others)
    | .type ty _, .constructor ty' head downgrade spaces =>
      if tc.canDecompose ty then
        isSubspace fuel (.disjunct (decompose tc ty)) (.constructor ty' head downgrade spaces)
      else some false
    | .constructor .., .type .. => some true
    | .booleanConstant _, .type ty' _ => some (tc.isBool ty')
    | .constructor _ head _ spaces, .constructor _ head' _ spaces' =>
      if head ≠ head' then some false
      else if spaces'.isEmpty then some true
      else (spaces.zip spaces').allM fun p => isSubspace fuel p.1 p.2
    | .constructor ty head downgrade spaces, .disjunct others =>
      others.anyM fun param => isSubspace fuel (.constructor ty head downgrade spaces) param
    | .booleanConstant value, .disjunct others =>
      others.anyM fun param => isSubspace fuel (.booleanConstant value) param
    | .booleanConstant value, .booleanConstant value' => some (value == value')
    | .constructor .., .booleanConstant _ => some false
    | .type .., .booleanConstant _ => some false
    | .booleanConstant _, .constructor .. => none

/-! ## Intersections -/

/-- The intersections of the arguments, or `none` when one of them is empty. -/
def intersectParams (intersect : Space Ty → Space Ty → Option (Space Ty)) :
    List (Space Ty × Space Ty) → Option (Option (List (Space Ty)))
  | [] => some (some [])
  | (i, j) :: rest => do
    let intersection ← intersect i j
    if (simplify tc intersection).isEmpty then return none
    let paramSpace ← intersectParams intersect rest
    return paramSpace.map (intersection :: ·)

def intersect : Nat → Space Ty → Space Ty → Option (Space Ty)
  | 0, _, _ => none
  | fuel + 1, this, other =>
    match this, other with
    | .empty, _ => some .empty
    | _, .empty => some .empty
    | this, .disjunct others => do
      let intersectedCases ← others.mapM fun s => intersect fuel this s
      return examineDecomp (intersectedCases.filter (!·.isEmpty))
    | .disjunct spaces, other => do
      let intersectedCases ← spaces.mapM fun s => intersect fuel s other
      return examineDecomp (intersectedCases.filter (!·.isEmpty))
    | .type ty name, .type ty' name' =>
      if ty = ty' then some (.type ty' name')
      else if tc.canDecompose ty then intersect fuel (examineDecomp (decompose tc ty)) (.type ty' name')
      else if tc.canDecompose ty' then intersect fuel (.type ty name) (examineDecomp (decompose tc ty'))
      else some (.type ty' name')
    | .type ty _, .constructor ty' head downgrade spaces =>
      if tc.canDecompose ty then
        intersect fuel (examineDecomp (decompose tc ty)) (.constructor ty' head downgrade spaces)
      else some (.constructor ty' head downgrade spaces)
    | .constructor ty head downgrade spaces, .type .. => some (.constructor ty head downgrade spaces)
    | .constructor ty head downgrade spaces, .constructor _ head' _ spaces' =>
      if head ≠ head' then some .empty
      else if spaces'.isEmpty then some (.constructor ty head downgrade spaces)
      else do
        match ← intersectParams tc (intersect fuel) (spaces.zip spaces') with
        | none => return .empty
        | some paramSpace => return examineDecomp paramSpace
    | .booleanConstant value, .booleanConstant value' =>
      some (if value = value' then .booleanConstant value else .empty)
    | .booleanConstant value, .type ty' _ =>
      if tc.isBool ty' then some (.booleanConstant value)
      else if tc.canDecompose ty' then intersect fuel (.booleanConstant value) (examineDecomp (decompose tc ty'))
      else some .empty
    | .booleanConstant _, .constructor .. => some .empty
    | .type ty _, .booleanConstant value =>
      if tc.canDecompose ty then intersect fuel (examineDecomp (decompose tc ty)) (.booleanConstant value)
      else some .empty
    | .constructor .., .booleanConstant _ => some .empty

/-! ## Differences -/

/-- The loop over the arguments from `idx` on: the constructor spaces with whether one of the arguments is
not covered, or `none` when an argument is disjoint from that of the other space. -/
def minusParams (intersect minus : Space Ty → Space Ty → Option (Space Ty))
    (isSubspace : Space Ty → Space Ty → Option Bool) (constr : List (Space Ty) → Space Ty)
    (params : List (Space Ty)) (idx : Nat) :
    List (Space Ty × Space Ty) → Option (Option (List (Space Ty) × Bool))
  | [] => some (some ([], false))
  | (s1, s2) :: rest => do
    let intersection ← intersect s1 s2
    if (simplify tc intersection).isEmpty then return none
    let covered ← isSubspace s1 s2
    let difference ← minus s1 s2
    let constrSpaces ← minusParams intersect minus isSubspace constr params (idx + 1) rest
    return constrSpaces.map fun (spaces, foundBad) =>
      (constr (params.set idx difference) :: spaces, !covered || foundBad)

def minus : Nat → Space Ty → Space Ty → Option (Space Ty)
  | 0, _, _ => none
  | fuel + 1, this, other =>
    match this, other with
    | .empty, _ => some .empty
    | this, .empty => some this
    | .type ty name, .type ty' name' =>
      if ty = ty' then some .empty
      else if tc.canDecompose ty then intersect tc fuel (examineDecomp (decompose tc ty)) (.type ty' name')
      else if tc.canDecompose ty' then intersect tc fuel (.type ty name) (examineDecomp (decompose tc ty'))
      else some .empty
    | .type ty name, .constructor ty' head downgrade spaces =>
      if tc.canDecompose ty then
        minus fuel (examineDecomp (decompose tc ty)) (.constructor ty' head downgrade spaces)
      else some (.type ty name)
    | this, .disjunct others => others.foldlM (fun left right => minus fuel left right) this
    | .disjunct spaces, other => do
      let smallSpaces ← spaces.mapM fun first => minus fuel first other
      return examineDecomp smallSpaces
    | .constructor .., .type .. => some .empty
    | .constructor ty head downgrade spaces, .constructor _ head' _ spaces' =>
      if head ≠ head' then some (.constructor ty head downgrade spaces)
      else if spaces'.isEmpty then some .empty
      else do
        match ← minusParams tc (intersect tc fuel) (minus fuel) (isSubspace tc fuel)
            (.constructor ty head downgrade) spaces 0 (spaces.zip spaces') with
        | none => return .constructor ty head downgrade spaces
        | some (constrSpaces, foundBad) => return if foundBad then examineDecomp constrSpaces else .empty
    | .booleanConstant value, .booleanConstant value' =>
      some (if value = value' then .empty else .booleanConstant value)
    | .booleanConstant value, .type ty' _ =>
      if tc.isBool ty' then some .empty
      else if tc.canDecompose ty' then minus fuel (.booleanConstant value) (examineDecomp (decompose tc ty'))
      else some (.booleanConstant value)
    | .booleanConstant value, .constructor .. => some (.booleanConstant value)
    | .type ty name, .booleanConstant value =>
      if tc.canDecompose ty then minus fuel (examineDecomp (decompose tc ty)) (.booleanConstant value)
      else some (.type ty name)
    | .constructor .., .booleanConstant _ => some .empty

end Space

end SwiftKStdlib.SpaceEngine

namespace SwiftKStdlib.SpaceEngine

inductive Value where
  | bool (value : Bool)
  | constructor (head : String) (arguments : List Value)
  | other (identity : Nat)

structure Signature (Ty : Type) where
  head : String
  arguments : List (TupleTypeElt Ty)

variable {Ty : Type} (tc : TypeContext Ty)

/-- The constructors of a type, with the types of their arguments. -/
def TypeContext.signatures (ty : Ty) : List (Signature Ty) :=
  match tc.view ty with
  | .enum elements => (elements.filter (·.hasInterfaceType)).map fun e => ⟨e.name, tc.payload e⟩
  | .tuple elements => [⟨"", elements⟩]
  | _ => []

inductive Value.HasType : Value → Ty → Prop
  | bool {ty} (hbool : tc.isBool ty = true) (value : Bool) : HasType (.bool value) ty
  | constructor {ty c vs} (hc : c ∈ tc.signatures ty) (hvs : vs.length = c.arguments.length)
      (harguments : ∀ (i : Nat) a v, c.arguments[i]? = some a → vs[i]? = some v → HasType v a.type) :
      HasType (.constructor c.head vs) ty
  | other {ty} (hother : tc.canDecompose ty = false) (identity : Nat) : HasType (.other identity) ty

namespace Space

/-- The values of a space of a type. -/
inductive Contains : Ty → Space Ty → Value → Prop
  | type {ty v} (name : String) (hv : v.HasType tc ty) : Contains ty (.type ty name) v
  | booleanConstant {ty} (hbool : tc.isBool ty = true) (value : Bool) :
      Contains ty (.booleanConstant value) (.bool value)
  | constructor {ty c spaces vs} (ty' : Ty) (downgrade : Bool) (hc : c ∈ tc.signatures ty)
      (hspaces : spaces.length = c.arguments.length) (hvs : vs.length = c.arguments.length)
      (harguments : ∀ (i : Nat) a s v, c.arguments[i]? = some a → spaces[i]? = some s → vs[i]? = some v →
        Contains a.type s v) :
      Contains ty (.constructor ty' c.head downgrade spaces) (.constructor c.head vs)
  | disjunct {ty s spaces v} (hs : s ∈ spaces) (hv : Contains ty s v) : Contains ty (.disjunct spaces) v

/-- A space that does not reach a value, whatever else it stands for. -/
inductive Misses : Ty → Space Ty → Value → Prop
  | empty {ty v} : Misses ty .empty v
  | booleanConstant {ty value value'} (hne : value ≠ value') : Misses ty (.booleanConstant value) (.bool value')
  | head {ty head head' spaces vs} (ty' : Ty) (downgrade : Bool) (hne : head ≠ head') :
      Misses ty (.constructor ty' head downgrade spaces) (.constructor head' vs)
  | argument {ty c spaces vs s v} {i : Nat} {a : TupleTypeElt Ty} (ty' : Ty) (downgrade : Bool) (hc : c ∈ tc.signatures ty)
      (ha : c.arguments[i]? = some a) (hs : spaces[i]? = some s) (hv : vs[i]? = some v)
      (hmisses : Misses a.type s v) :
      Misses ty (.constructor ty' c.head downgrade spaces) (.constructor c.head vs)
  | disjunct {ty spaces v} (hall : ∀ s ∈ spaces, Misses ty s v) : Misses ty (.disjunct spaces) v

variable {tc}

theorem signature_unique {ty : Ty} {c c' : Signature Ty} (hc : c ∈ tc.signatures ty) (hc' : c' ∈ tc.signatures ty)
    (hhead : c.head = c'.head) : c = c' := by
  unfold TypeContext.signatures at hc hc'
  cases hview : tc.view ty with
  | bool =>
    rw [hview] at hc
    exact absurd hc List.not_mem_nil
  | other =>
    rw [hview] at hc
    exact absurd hc List.not_mem_nil
  | tuple elements =>
    rw [hview] at hc hc'
    rw [List.mem_singleton.1 hc, List.mem_singleton.1 hc']
  | enum elements =>
    rw [hview] at hc hc'
    obtain ⟨e, he, rfl⟩ := List.mem_map.1 hc
    obtain ⟨e', he', rfl⟩ := List.mem_map.1 hc'
    have hsame : e = e' := List.inj_on_of_nodup_map (tc.nodup_names ty elements hview)
      (List.mem_of_mem_filter he) (List.mem_of_mem_filter he') hhead
    rw [hsame]

theorem Contains.hasType {ty : Ty} {s : Space Ty} {v : Value} (h : Contains tc ty s v) : v.HasType tc ty := by
  induction h with
  | type name hv => exact hv
  | booleanConstant hbool value => exact .bool hbool value
  | disjunct hs hv ih => exact ih
  | @constructor ty c spaces vs ty' downgrade hc hspaces hvs harguments ih =>
    refine .constructor hc hvs fun i a v ha hv => ?_
    have hi : i < spaces.length := by
      rw [hspaces]
      exact (List.getElem?_eq_some_iff.1 ha).1
    exact ih i a spaces[i] v ha (List.getElem?_eq_getElem hi) hv

/-! ## Decomposition -/

theorem contains_disjunct {ty : Ty} {spaces : List (Space Ty)} {v : Value} :
    Contains tc ty (.disjunct spaces) v ↔ ∃ s ∈ spaces, Contains tc ty s v := by
  refine ⟨fun h => ?_, fun ⟨s, hs, hv⟩ => .disjunct hs hv⟩
  cases h with
  | disjunct hs hv => exact ⟨_, hs, hv⟩

theorem contains_examineDecomp {ty : Ty} {spaces : List (Space Ty)} {v : Value} :
    Contains tc ty (examineDecomp spaces) v ↔ ∃ s ∈ spaces, Contains tc ty s v := by
  match spaces with
  | [] =>
    refine ⟨fun h => ?_, fun ⟨_, hs, _⟩ => absurd hs List.not_mem_nil⟩
    cases h
  | [space] =>
    refine ⟨fun h => ⟨space, List.mem_singleton_self _, h⟩, fun ⟨s, hs, hv⟩ => ?_⟩
    rw [← List.mem_singleton.1 hs]
    exact hv
  | s₁ :: s₂ :: rest => exact contains_disjunct

theorem getElem?_ofElements (elements : List (TupleTypeElt Ty)) (i : Nat) :
    (ofElements elements)[i]? = elements[i]?.map fun e => .type e.type e.name :=
  List.getElem?_map

theorem length_ofElements (elements : List (TupleTypeElt Ty)) :
    (ofElements elements).length = elements.length :=
  List.length_map _

theorem contains_ofElements {ty : Ty} {c : Signature Ty} (hc : c ∈ tc.signatures ty) {vs : List Value}
    (hv : (Value.constructor c.head vs).HasType tc ty) (ty' : Ty) (downgrade : Bool) :
    Contains tc ty (.constructor ty' c.head downgrade (ofElements c.arguments)) (.constructor c.head vs) := by
  generalize hhead : c.head = head at hv ⊢
  cases hv with
  | @constructor _ c' _ hc' hvs harguments =>
    obtain rfl := signature_unique hc hc' hhead
    refine .constructor ty' downgrade hc (length_ofElements _) hvs fun i a s v ha hs hv => ?_
    rw [getElem?_ofElements, ha] at hs
    rw [← Option.some.inj hs]
    exact .type a.name (harguments i a v ha hv)

theorem contains_decompose {ty : Ty} (hty : tc.canDecompose ty = true) {v : Value} (hv : v.HasType tc ty) :
    ∃ s ∈ decompose tc ty, Contains tc ty s v := by
  unfold decompose
  cases hv with
  | bool hbool value =>
    have hview : tc.view ty = .bool := by
      unfold TypeContext.isBool at hbool
      split at hbool
      · assumption
      · cases hbool
    rw [hview]
    cases value with
    | true => exact ⟨_, List.mem_cons_self, .booleanConstant hbool true⟩
    | false => exact ⟨_, List.mem_cons_of_mem _ List.mem_cons_self, .booleanConstant hbool false⟩
  | other hother identity =>
    rw [hother] at hty
    cases hty
  | @constructor _ c vs hc hvs harguments =>
    have hv : (Value.constructor c.head vs).HasType tc ty := .constructor hc hvs harguments
    have hc' := hc
    unfold TypeContext.signatures at hc'
    cases hview : tc.view ty with
    | bool =>
      rw [hview] at hc'
      exact absurd hc' List.not_mem_nil
    | other =>
      rw [hview] at hc'
      exact absurd hc' List.not_mem_nil
    | tuple elements =>
      rw [hview] at hc'
      have hsignature := List.mem_singleton.1 hc'
      refine ⟨_, List.mem_singleton_self _, ?_⟩
      have hcontains := contains_ofElements hc hv ty false
      rw [hsignature] at hcontains ⊢
      exact hcontains
    | enum elements =>
      rw [hview] at hc'
      obtain ⟨e, he, rfl⟩ := List.mem_map.1 hc'
      obtain ⟨hmem, hvalid⟩ := List.mem_filter.1 he
      refine ⟨_, List.mem_map_of_mem hmem, ?_⟩
      rw [hvalid, Bool.not_true, if_neg Bool.false_ne_true]
      exact contains_ofElements hc hv ty e.downgrade

/-! ## Simplification -/

theorem simplifyAll_eq (spaces : List (Space Ty)) : simplifyAll tc spaces = spaces.map (simplify tc) := by
  induction spaces with
  | nil => rfl
  | cons s rest ih => rw [simplifyAll, ih, List.map_cons]

theorem simplify_constructor_isEmpty (ty : Ty) (head : String) (downgrade : Bool) (spaces : List (Space Ty)) :
    (simplify tc (.constructor ty head downgrade spaces)).isEmpty = true ↔
      ∃ s ∈ spaces, (simplify tc s).isEmpty = true := by
  rw [simplify, simplifyAll_eq]
  by_cases hany : (spaces.map (simplify tc)).any isEmpty = true
  · rw [if_pos hany]
    refine iff_of_true rfl ?_
    simpa using hany
  · rw [if_neg hany]
    refine iff_of_false Bool.false_ne_true fun hex => hany ?_
    simpa using hex

theorem simplify_disjunct_isEmpty (spaces : List (Space Ty)) :
    (simplify tc (.disjunct spaces)).isEmpty = true ↔ ∀ s ∈ spaces, (simplify tc s).isEmpty = true := by
  rw [simplify, simplifyAll_eq]
  have hall : (∀ s ∈ spaces, (simplify tc s).isEmpty = true) ↔
      ∀ s ∈ spaces.map (simplify tc), s.isEmpty = true := by
    simp
  rw [hall]
  generalize spaces.map (simplify tc) = simplifiedSpaces
  split
  next s => simp
  next hnot =>
    split
    next hfilter =>
      refine iff_of_true rfl fun s hs => ?_
      have hnone := List.filter_eq_nil_iff.1 hfilter s hs
      simpa using hnone
    next s hfilter =>
      have hs : s ∈ simplifiedSpaces.filter (!·.isEmpty) := hfilter ▸ List.mem_singleton_self _
      obtain ⟨hmem, hcontent⟩ := List.mem_filter.1 hs
      have hcontent' : ¬ s.isEmpty = true := by simpa using hcontent
      exact iff_of_false hcontent' fun hempty => hcontent' (hempty s hmem)
    next hnil hsingle =>
      refine iff_of_false Bool.false_ne_true fun hempty => hnil ?_
      exact List.filter_eq_nil_iff.2 fun s hs => by simpa using hempty s hs

theorem simplify_examineDecomp_isEmpty (spaces : List (Space Ty)) :
    (simplify tc (examineDecomp spaces)).isEmpty = true ↔ ∀ s ∈ spaces, (simplify tc s).isEmpty = true := by
  match spaces with
  | [] => exact iff_of_true rfl fun _ hs => absurd hs List.not_mem_nil
  | [s] =>
    refine ⟨fun h s' hs' => ?_, fun h => h s (List.mem_singleton_self _)⟩
    rw [List.mem_singleton.1 hs']
    exact h
  | s₁ :: s₂ :: rest => exact simplify_disjunct_isEmpty _

theorem Contains.content {ty : Ty} {s : Space Ty} {v : Value} (h : Contains tc ty s v) :
    ¬ (simplify tc s).isEmpty = true := by
  induction h with
  | @type ty v name hv =>
    rw [simplify]
    split_ifs with hempty
    · obtain ⟨hty, hnil⟩ := Bool.and_eq_true_iff.1 hempty
      obtain ⟨s, hs, -⟩ := contains_decompose hty hv
      rw [List.isEmpty_iff.1 hnil] at hs
      exact absurd hs List.not_mem_nil
    · exact Bool.false_ne_true
  | booleanConstant hbool value => exact Bool.false_ne_true
  | @constructor ty c spaces vs ty' downgrade hc hspaces hvs harguments ih =>
    rw [simplify_constructor_isEmpty]
    rintro ⟨s, hs, hempty⟩
    obtain ⟨i, hi, rfl⟩ := List.mem_iff_getElem.1 hs
    have ha : i < c.arguments.length := hspaces ▸ hi
    have hv : i < vs.length := hvs ▸ ha
    exact ih i _ _ _ (List.getElem?_eq_getElem ha) (List.getElem?_eq_getElem hi)
      (List.getElem?_eq_getElem hv) hempty
  | disjunct hs hv ih =>
    rw [simplify_disjunct_isEmpty]
    exact fun hempty => ih (hempty _ hs)

end Space

end SwiftKStdlib.SpaceEngine
