import Mathlib.Tactic
import Mathlib.Data.List.Lex

/-!
# Versions and their order

* `Version.parseCompilerVersionString` : the parser, with what it tells the diagnostic engine;
* `InRange` : the components are in the ranges that the class documents;
* `parseCompilerVersionString_spec` : those of an accepted version are, and the second one is zero;
* `isSome_iff_no_error` : a version is accepted exactly if no error is diagnosed;
* `preprocessorDefinition_orders` : the constant of the compiler's weights is exact, and orders the
  versions by their components; `greaterEqual_iff_versionConstant` : so does `operator>=`;
* `Version.equal` : `operator==`;
* `withoutTrailingZeros`, `significant` : the components that count;
* `greaterEqual_iff`, `equal_iff` : what the operators compare;
* `Ordered` : `>=` as it is documented, on some versions;
* `ordered_iff` : it is so exactly where the empty version is by itself.
-/

namespace SwiftKStdlib.Basic

/-! ## The parser -/

abbrev SplitComponent := List UInt8 × Option (Nat × Nat)

def ascii (c : Char) : UInt8 := c.toNat.toUInt8

/-- `StringRef::split`: what stands before the separator, and after it. -/
def split (s : List UInt8) (separator : UInt8) : List UInt8 × List UInt8 :=
  (s.takeWhile (· != separator), (s.dropWhile (· != separator)).drop 1)

/-- The loop of `splitVersionComponents`, for as many tokens as there is fuel. -/
def splitTokens : Nat → List UInt8 → Option Nat → List SplitComponent
  | 0, _, _ => []
  | fuel + 1, versionString, start =>
    if versionString.isEmpty then []
    else
      let (splitComponent, rest) := split versionString (ascii '.')
      let range := start.map fun start => (start, start + splitComponent.length)
      (splitComponent, range) :: splitTokens fuel rest (start.map (· + splitComponent.length + 1))

/-- `splitVersionComponents`; every token takes a byte of the string. -/
def splitVersionComponents (versionString : List UInt8) (loc : Option Nat) (skipQuote : Bool) : List SplitComponent :=
  splitTokens versionString.length versionString (if skipQuote then loc.map (· + 1) else loc)

/-- The value of a digit, in any radix up to 36. -/
def digit (c : UInt8) : Option Nat :=
  if ascii '0' ≤ c ∧ c ≤ ascii '9' then some (c - ascii '0').toNat
  else if ascii 'a' ≤ c ∧ c ≤ ascii 'z' then some ((c - ascii 'a').toNat + 10)
  else if ascii 'A' ≤ c ∧ c ≤ ascii 'Z' then some ((c - ascii 'A').toNat + 10)
  else none

/-- `StringRef::getAsInteger` for 64 bits. -/
def getAsInteger (radix : Nat) (s : List UInt8) : Option UInt64 :=
  if s.isEmpty then none
  else do
    let n ← s.foldlM (fun n c => do
      let d ← digit c
      if d < radix then some (n * radix + d) else none) 0
    if n < 2 ^ 64 then some (UInt64.ofNat n) else none

inductive Diagnostic where
  | emptyVersionComponent (loc : Option Nat)
  /-- A warning; it comes with a fix that replaces the range by `*`. -/
  | unusedCompilerVersionComponent (range : Option (Nat × Nat))
  | versionComponentNotNumber (loc : Option Nat)
  | compilerVersionComponentOutOfRange (loc : Option Nat) (limit : UInt32)
  | compilerVersionTooManyComponents (loc : Option Nat)
  deriving DecidableEq

def Diagnostic.isError : Diagnostic → Bool
  | unusedCompilerVersionComponent _ => false
  | _ => true

structure Version where
  components : List UInt32
  deriving DecidableEq

/-- The variables of `parseCompilerVersionString`. -/
structure Parsed where
  cv : Version
  isValidVersion : Bool
  diags : List Diagnostic

namespace Parsed

def diagnose (p : Parsed) (d : Diagnostic) : Parsed := { p with diags := p.diags ++ [d] }

def reject (p : Parsed) (d : Diagnostic) : Parsed := { p.diagnose d with isValidVersion := false }

def pushBack (p : Parsed) (component : UInt32) : Parsed := { p with cv := ⟨p.cv.components ++ [component]⟩ }

def checkVersionComponent (p : Parsed) (component : UInt32) (range : Option (Nat × Nat)) : Parsed :=
  let limit : UInt32 := if p.cv.components.length = 0 then 9223371 else 999
  if limit < component then p.reject (.compilerVersionComponentOutOfRange (range.map Prod.fst) limit) else p

/-- The body of the loop over the components. -/
def parseComponent (p : Parsed) (i : Nat) (splitComponent : List UInt8) (range : Option (Nat × Nat)) : Parsed :=
  -- Version components can't be empty.
  if splitComponent.isEmpty then p.reject (.emptyVersionComponent (range.map Prod.fst))
  -- The second version component isn't used for comparison.
  else if i = 1 then
    let p := if splitComponent = [ascii '*'] then p else p.diagnose (.unusedCompilerVersionComponent range)
    p.pushBack 0
  else
    match getAsInteger 10 splitComponent with
    | some componentNumber =>
      -- the check and the vector both take 32 bits of the number
      (p.checkVersionComponent componentNumber.toUInt32 range).pushBack componentNumber.toUInt32
    | none => p.reject (.versionComponentNotNumber (range.map Prod.fst))

def parseComponents (p : Parsed) : Nat → List SplitComponent → Parsed
  | _, [] => p
  | i, (splitComponent, range) :: rest => (p.parseComponent i splitComponent range).parseComponents (i + 1) rest

end Parsed

/-- The state before `parseCompilerVersionString` returns. -/
def Version.parsed (versionString : List UInt8) (loc : Option Nat) : Parsed :=
  let p := (⟨⟨[]⟩, true, []⟩ : Parsed).parseComponents 0 (splitVersionComponents versionString loc true)
  if 5 < p.cv.components.length then p.reject (.compilerVersionTooManyComponents loc) else p

def Version.parseCompilerVersionString (versionString : List UInt8) (loc : Option Nat) : Option Version × List Diagnostic :=
  let p := Version.parsed versionString loc
  (if p.isValidVersion then some p.cv else none, p.diags)

/-! ## Weights -/

def compilerWeights : List UInt64 := [1000000000, 0, 1000000, 1000, 1]

/-- `versionConstant` after the loop. -/
def Version.versionConstant (v : Version) (componentWeights : List UInt64) : UInt64 :=
  (componentWeights.zip v.components).foldl (fun versionConstant (weight, component) =>
    versionConstant + weight * component.toUInt64) 0

def Version.preprocessorDefinition (v : Version) (macroName : String) (componentWeights : List UInt64) : String :=
  "-D" ++ macroName ++ "=" ++ toString (v.versionConstant componentWeights)

/-- `operator>=`. -/
def Version.greaterEqual (lhs rhs : Version) : Bool :=
  lhs.components.isEmpty || go (max lhs.components.length rhs.components.length) 0
where
  /-- The loop, with the number of iterations that are left. -/
  go : Nat → Nat → Bool
    | 0, _ => true
    | left + 1, i =>
      let lv := lhs.components.getD i 0
      let rv := rhs.components.getD i 0
      if lv < rv then false else if rv < lv then true else go left (i + 1)

/-! ## Accepted versions -/

def componentLimit (i : Nat) : Nat := if i = 0 then 9223371 else 999

structure InRange (v : Version) : Prop where
  length : v.components.length ≤ 5
  component : ∀ i (h : i < v.components.length), v.components[i].toNat ≤ componentLimit i

namespace Parsed

variable {p : Parsed} {i : Nat}

@[simp] theorem cv_reject (d : Diagnostic) : (p.reject d).cv = p.cv := rfl

@[simp] theorem isValidVersion_reject (d : Diagnostic) : (p.reject d).isValidVersion = false := rfl

@[simp] theorem isValidVersion_pushBack (component : UInt32) : (p.pushBack component).isValidVersion = p.isValidVersion := rfl

@[simp] theorem components_pushBack (component : UInt32) :
    (p.pushBack component).cv.components = p.cv.components ++ [component] := rfl

/-- As long as every component has been accepted, there is one for each that was read. -/
structure Accepts (p : Parsed) (i : Nat) : Prop where
  length : p.cv.components.length = i
  component : ∀ j (h : j < p.cv.components.length), p.cv.components[j].toNat ≤ componentLimit j
  second : ∀ h : 1 < p.cv.components.length, p.cv.components[1] = 0

theorem Accepts.diagnose (h : Accepts p i) (d : Diagnostic) : Accepts (p.diagnose d) i :=
  ⟨h.length, h.component, h.second⟩

theorem Accepts.pushBack (h : Accepts p i) {component : UInt32} (hle : component.toNat ≤ componentLimit i)
    (hsecond : i = 1 → component = 0) : Accepts (p.pushBack component) (i + 1) := by
  obtain ⟨rfl, hcomponent, hzero⟩ := h
  refine ⟨by simp, fun j hj => ?_, fun hlt => ?_⟩
  · simp only [components_pushBack, List.length_append, List.length_singleton] at hj ⊢
    obtain hlt | rfl := Nat.lt_succ_iff_lt_or_eq.1 hj
    · rw [List.getElem_append_left hlt]
      exact hcomponent j hlt
    · simpa using hle
  · simp only [components_pushBack, List.length_append, List.length_singleton] at hlt ⊢
    obtain hlt' | heq : 1 < p.cv.components.length ∨ p.cv.components.length = 1 := by omega
    · rw [List.getElem_append_left hlt']
      exact hzero hlt'
    · simpa [List.getElem_append, heq] using hsecond heq

theorem parseComponent_accepts (h : p.isValidVersion = true → Accepts p i) (splitComponent : List UInt8)
    (range : Option (Nat × Nat)) (hvalid : (p.parseComponent i splitComponent range).isValidVersion = true) :
    Accepts (p.parseComponent i splitComponent range) (i + 1) := by
  unfold parseComponent at hvalid ⊢
  by_cases hempty : splitComponent.isEmpty
  · rw [if_pos hempty] at hvalid
    cases hvalid
  rw [if_neg hempty] at hvalid ⊢
  by_cases hsecond : i = 1
  · rw [if_pos hsecond] at hvalid ⊢
    by_cases hstar : splitComponent = [ascii '*']
    · simp only [if_pos hstar] at hvalid ⊢
      exact (h hvalid).pushBack (Nat.zero_le _) fun _ => rfl
    · simp only [if_neg hstar] at hvalid ⊢
      exact ((h hvalid).diagnose _).pushBack (Nat.zero_le _) fun _ => rfl
  · rw [if_neg hsecond] at hvalid ⊢
    cases hnumber : getAsInteger 10 splitComponent with
    | none =>
      rw [hnumber] at hvalid
      cases hvalid
    | some n =>
      simp only [hnumber, isValidVersion_pushBack, checkVersionComponent] at hvalid ⊢
      by_cases hlimit : (if p.cv.components.length = 0 then (9223371 : UInt32) else 999) < n.toUInt32
      · rw [if_pos hlimit] at hvalid
        cases hvalid
      · rw [if_neg hlimit] at hvalid ⊢
        have hold := h hvalid
        refine hold.pushBack ?_ fun hi => absurd hi hsecond
        rw [hold.length, UInt32.lt_iff_toNat_lt, not_lt] at hlimit
        unfold componentLimit
        split_ifs at hlimit ⊢ <;> exact hlimit

theorem parseComponents_accepts (tokens : List SplitComponent) (h : p.isValidVersion = true → Accepts p i)
    (hvalid : (p.parseComponents i tokens).isValidVersion = true) : Accepts (p.parseComponents i tokens) (i + tokens.length) := by
  induction tokens generalizing p i with
  | nil => exact h hvalid
  | cons token rest ih =>
    rw [List.length_cons, Nat.add_comm rest.length, ← Nat.add_assoc]
    exact ih (parseComponent_accepts h token.1 token.2) hvalid

end Parsed

theorem parseCompilerVersionString_spec {versionString : List UInt8} {loc : Option Nat} {v : Version}
    (h : (Version.parseCompilerVersionString versionString loc).1 = some v) :
    InRange v ∧ ∀ hlt : 1 < v.components.length, v.components[1] = 0 := by
  unfold Version.parseCompilerVersionString at h
  dsimp only at h
  split_ifs at h with hvalid
  cases h
  unfold Version.parsed at hvalid ⊢
  dsimp only at hvalid ⊢
  by_cases hlong : 5 < ((⟨⟨[]⟩, true, []⟩ : Parsed).parseComponents 0
      (splitVersionComponents versionString loc true)).cv.components.length
  · rw [if_pos hlong] at hvalid
    cases hvalid
  · rw [if_neg hlong] at hvalid ⊢
    have haccepts := Parsed.parseComponents_accepts _ (fun _ => ⟨rfl, by simp, by simp⟩) hvalid
    exact ⟨⟨Nat.le_of_not_lt hlong, haccepts.component⟩, haccepts.second⟩

/-! ## Diagnostics -/

namespace Parsed

variable {p : Parsed}

def Consistent (p : Parsed) : Prop := p.isValidVersion = true ↔ ∀ d ∈ p.diags, d.isError = false

theorem consistent_reject (d : Diagnostic) (hd : d.isError = true) : Consistent (p.reject d) := by
  refine iff_of_false (by simp) fun h => ?_
  have hfalse := h d (List.mem_append_right _ List.mem_cons_self)
  rw [hd] at hfalse
  cases hfalse

theorem Consistent.warn (h : Consistent p) {d : Diagnostic} (hd : d.isError = false) : Consistent (p.diagnose d) := by
  have hdiags : (p.diagnose d).diags = p.diags ++ [d] := rfl
  unfold Consistent
  rw [hdiags]
  simp only [List.mem_append, List.mem_singleton, or_imp, forall_and, forall_eq, hd, and_true]
  exact h

theorem Consistent.pushBack (h : Consistent p) (component : UInt32) : Consistent (p.pushBack component) := h

theorem Consistent.checkVersionComponent (h : Consistent p) (component : UInt32) (range : Option (Nat × Nat)) :
    Consistent (p.checkVersionComponent component range) := by
  unfold Parsed.checkVersionComponent
  dsimp only
  split_ifs
  · exact consistent_reject _ rfl
  · exact h
  · exact consistent_reject _ rfl
  · exact h

theorem Consistent.parseComponent (h : Consistent p) (i : Nat) (splitComponent : List UInt8) (range : Option (Nat × Nat)) :
    Consistent (p.parseComponent i splitComponent range) := by
  unfold Parsed.parseComponent
  by_cases hempty : splitComponent.isEmpty
  · rw [if_pos hempty]
    exact consistent_reject _ rfl
  rw [if_neg hempty]
  by_cases hsecond : i = 1
  · rw [if_pos hsecond]
    apply Consistent.pushBack
    split_ifs
    · exact h
    · exact h.warn rfl
  · rw [if_neg hsecond]
    cases getAsInteger 10 splitComponent with
    | none => exact consistent_reject _ rfl
    | some n => exact (h.checkVersionComponent _ _).pushBack _

theorem Consistent.parseComponents (h : Consistent p) (i : Nat) (tokens : List SplitComponent) :
    Consistent (p.parseComponents i tokens) := by
  induction tokens generalizing p i with
  | nil => exact h
  | cons token rest ih => exact ih (h.parseComponent i token.1 token.2) (i + 1)

end Parsed

/-- A version is accepted exactly if no error is diagnosed. -/
theorem isSome_iff_no_error (versionString : List UInt8) (loc : Option Nat) :
    (Version.parseCompilerVersionString versionString loc).1.isSome ↔
      ∀ d ∈ (Version.parseCompilerVersionString versionString loc).2, d.isError = false := by
  have hconsistent : Parsed.Consistent (Version.parsed versionString loc) := by
    unfold Version.parsed
    dsimp only
    split_ifs
    · exact Parsed.consistent_reject _ rfl
    · exact Parsed.Consistent.parseComponents (by simp [Parsed.Consistent]) 0 _
  unfold Version.parseCompilerVersionString
  unfold Parsed.Consistent at hconsistent
  dsimp only
  rw [← hconsistent]
  cases (Version.parsed versionString loc).isValidVersion <;> simp

/-! ## Weighted sums -/

def weightedSum (weights : List UInt64) (components : List UInt32) : Nat :=
  (List.zipWith (fun weight component => weight.toNat * component.toNat) weights components).sum

theorem toNat_foldl {weights : List UInt64} {components : List UInt32} (acc : UInt64)
    (hfits : acc.toNat + weightedSum weights components < 2 ^ 64) :
    ((weights.zip components).foldl (fun versionConstant (weight, component) =>
      versionConstant + weight * component.toUInt64) acc).toNat = acc.toNat + weightedSum weights components := by
  induction weights generalizing components acc with
  | nil => simp [weightedSum]
  | cons weight weights ih =>
    cases components with
    | nil => simp [weightedSum]
    | cons component components =>
      have hsum : weightedSum (weight :: weights) (component :: components) =
          weight.toNat * component.toNat + weightedSum weights components := by simp [weightedSum]
      rw [hsum] at hfits ⊢
      have hstep : (acc + weight * component.toUInt64).toNat = acc.toNat + weight.toNat * component.toNat := by
        rw [UInt64.toNat_add, UInt64.toNat_mul, UInt32.toNat_toUInt64, Nat.add_mod_mod, Nat.mod_eq_of_lt (by omega)]
      rw [List.zip_cons_cons, List.foldl_cons, ih _ (by rw [hstep]; omega), hstep, Nat.add_assoc]

theorem toNat_versionConstant {v : Version} {weights : List UInt64} (hfits : weightedSum weights v.components < 2 ^ 64) :
    (v.versionConstant weights).toNat = weightedSum weights v.components := by
  have := toNat_foldl 0 (by simpa using hfits)
  simpa [Version.versionConstant] using this

def Version.component (v : Version) (i : Nat) : Nat := (v.components.getD i 0).toNat

def Version.comparedComponents (v : Version) : List Nat := [v.component 0, v.component 2, v.component 3, v.component 4]

section Weights

variable {v w : Version}

theorem InRange.component_le (h : InRange v) (i : Nat) : v.component i ≤ componentLimit i := by
  unfold Version.component
  by_cases hi : i < v.components.length
  · simpa [hi] using h.component i hi
  · simp [hi]

theorem InRange.weightedSum_eq (h : InRange v) : weightedSum compilerWeights v.components =
    1000000000 * v.component 0 + 1000000 * v.component 2 + 1000 * v.component 3 + v.component 4 := by
  obtain ⟨components⟩ := v
  have hlength : components.length ≤ 5 := h.length
  unfold Version.component compilerWeights weightedSum
  match components, hlength with
  | [], _ => rfl
  | [a], _ => simp
  | [a, b], _ => simp
  | [a, b, c], _ => simp
  | [a, b, c, d], _ => simp [Nat.add_assoc]
  | [a, b, c, d, e], _ => simp [Nat.add_assoc]

theorem InRange.weightedSum_lt (h : InRange v) : weightedSum compilerWeights v.components < 2 ^ 63 := by
  rw [h.weightedSum_eq]
  have h0 : v.component 0 ≤ 9223371 := h.component_le 0
  have h2 : v.component 2 ≤ 999 := h.component_le 2
  have h3 : v.component 3 ≤ 999 := h.component_le 3
  have h4 : v.component 4 ≤ 999 := h.component_le 4
  omega

theorem InRange.toNat_versionConstant (h : InRange v) :
    (v.versionConstant compilerWeights).toNat = weightedSum compilerWeights v.components :=
  Basic.toNat_versionConstant (h.weightedSum_lt.trans (by decide))

theorem InRange.lt_iff (hv : InRange v) (hw : InRange w) :
    weightedSum compilerWeights v.components < weightedSum compilerWeights w.components ↔
      v.comparedComponents < w.comparedComponents := by
  have hbounds {u : Version} (h : InRange u) : u.component 2 ≤ 999 ∧ u.component 3 ≤ 999 ∧ u.component 4 ≤ 999 :=
    ⟨h.component_le 2, h.component_le 3, h.component_le 4⟩
  have hv' := hbounds hv
  have hw' := hbounds hw
  rw [hv.weightedSum_eq, hw.weightedSum_eq]
  unfold Version.comparedComponents
  simp only [List.cons_lt_cons_iff, List.lt_irrefl, and_false, or_false]
  omega

theorem Version.go_extend {left extra i : Nat} (h : ∀ j, i + left ≤ j → v.components.getD j 0 = w.components.getD j 0) :
    Version.greaterEqual.go v w (left + extra) i = Version.greaterEqual.go v w left i := by
  induction left generalizing i with
  | zero =>
    induction extra generalizing i with
    | zero => rfl
    | succ extra ih =>
      have hsame := h i le_rfl
      have hrest := ih fun j (hj : i + 1 + 0 ≤ j) => h j (by omega)
      rw [Nat.zero_add] at hrest ⊢
      rw [show greaterEqual.go v w 0 i = true from rfl, greaterEqual.go, hsame,
        if_neg (UInt32.lt_irrefl _), if_neg (UInt32.lt_irrefl _), hrest]
      rfl
  | succ left ih =>
    rw [Nat.add_right_comm, greaterEqual.go, greaterEqual.go, ih fun j hj => h j (by omega)]

theorem InRange.greaterEqual_iff (hv : InRange v) (hw : InRange w) (hempty : v.components ≠ [])
    (hsecond : v.component 1 = w.component 1) : v.greaterEqual w = true ↔
      weightedSum compilerWeights w.components ≤ weightedSum compilerWeights v.components := by
  have hgo : v.greaterEqual w = Version.greaterEqual.go v w 5 0 := by
    obtain ⟨extra, hextra⟩ := Nat.exists_eq_add_of_le (max_le hv.length hw.length)
    rw [hextra, Version.go_extend fun j hj => ?_, Version.greaterEqual]
    · simp [hempty]
    · rw [Nat.zero_add, Nat.max_le] at hj
      simp [List.getElem?_eq_none hj.1, List.getElem?_eq_none hj.2]
  rw [hgo, ← not_lt, hv.lt_iff hw]
  have hcomponent (u : Version) (i : Nat) : (u.components.getD i 0).toNat = u.component i := rfl
  simp only [Version.greaterEqual.go, Version.comparedComponents, UInt32.lt_iff_toNat_lt, hcomponent, zero_add,
    Nat.reduceAdd, List.cons_lt_cons_iff, List.lt_irrefl, and_false, or_false]
  split_ifs <;> simp only [false_iff, true_iff, not_not] <;> omega

end Weights

/-- The constant of an accepted version is exact, and orders the versions by their components. -/
theorem preprocessorDefinition_orders {versionString versionString' : List UInt8} {loc loc' : Option Nat} {v w : Version}
    (hv : (Version.parseCompilerVersionString versionString loc).1 = some v)
    (hw : (Version.parseCompilerVersionString versionString' loc').1 = some w) (macroName : String) :
    InRange v ∧ v.preprocessorDefinition macroName compilerWeights =
        "-D" ++ macroName ++ "=" ++ toString (weightedSum compilerWeights v.components) ∧
      weightedSum compilerWeights v.components < 2 ^ 63 ∧
      (v.versionConstant compilerWeights < w.versionConstant compilerWeights ↔
        v.comparedComponents < w.comparedComponents) := by
  have hv' := (parseCompilerVersionString_spec hv).1
  have hw' := (parseCompilerVersionString_spec hw).1
  refine ⟨hv', ?_, hv'.weightedSum_lt, ?_⟩
  · rw [Version.preprocessorDefinition, ← hv'.toNat_versionConstant]
    rfl
  · rw [UInt64.lt_iff_toNat_lt, hv'.toNat_versionConstant, hw'.toNat_versionConstant, hv'.lt_iff hw']

/-- `4.*.1` and `5`. -/
theorem preprocessorDefinition_fourFive : (⟨[4, 0, 1]⟩ : Version).versionConstant compilerWeights <
    (⟨[5]⟩ : Version).versionConstant compilerWeights :=
  have hfour : (Version.parseCompilerVersionString [52, 46, 42, 46, 49] none).1 = some ⟨[4, 0, 1]⟩ := by decide
  have hfive : (Version.parseCompilerVersionString [53] none).1 = some ⟨[5]⟩ := by decide
  (preprocessorDefinition_orders hfour hfive "V").2.2.2.2 (by decide)

/-- Accepted versions compare as their constants do, unless the first one is empty. -/
theorem greaterEqual_iff_versionConstant {versionString versionString' : List UInt8} {loc loc' : Option Nat} {v w : Version}
    (hv : (Version.parseCompilerVersionString versionString loc).1 = some v)
    (hw : (Version.parseCompilerVersionString versionString' loc').1 = some w) (hempty : v.components ≠ []) :
    v.greaterEqual w = true ↔ w.versionConstant compilerWeights ≤ v.versionConstant compilerWeights := by
  have hsecond {u : Version} (h : ∀ hlt : 1 < u.components.length, u.components[1] = 0) : u.component 1 = 0 := by
    rw [Version.component, List.getD_eq_getElem?_getD]
    by_cases hlt : 1 < u.components.length
    · rw [List.getElem?_eq_getElem hlt, h hlt]
      rfl
    · rw [List.getElem?_eq_none (not_lt.1 hlt)]
      rfl
  obtain ⟨hv', hv1⟩ := parseCompilerVersionString_spec hv
  obtain ⟨hw', hw1⟩ := parseCompilerVersionString_spec hw
  rw [hv'.greaterEqual_iff hw' hempty ((hsecond hv1).trans (hsecond hw1).symm), UInt64.le_iff_toNat_le,
    hv'.toNat_versionConstant, hw'.toNat_versionConstant]

theorem greaterEqual_iff_versionConstant_five : (⟨[5]⟩ : Version).greaterEqual ⟨[4, 0, 1]⟩ = true :=
  have hfour : (Version.parseCompilerVersionString [52, 46, 42, 46, 49] none).1 = some ⟨[4, 0, 1]⟩ := by decide
  have hfive : (Version.parseCompilerVersionString [53] none).1 = some ⟨[5]⟩ := by decide
  (greaterEqual_iff_versionConstant hfive hfour (List.cons_ne_nil _ _)).2 (by decide)

end SwiftKStdlib.Basic

namespace SwiftKStdlib.Basic

/-- `operator==`. -/
def Version.equal (lhs rhs : Version) : Bool :=
  go (max lhs.components.length rhs.components.length) 0
where
  /-- The loop, with the number of iterations that are left. -/
  go : Nat → Nat → Bool
    | 0, _ => true
    | left + 1, i =>
      let lv := lhs.components.getD i 0
      let rv := rhs.components.getD i 0
      if lv ≠ rv then false else go left (i + 1)

/-! ## Trailing zeros -/

def withoutTrailingZeros : List Nat → List Nat
  | [] => []
  | c :: rest => if withoutTrailingZeros rest = [] ∧ c = 0 then [] else c :: withoutTrailingZeros rest

def Version.significant (v : Version) : List Nat := withoutTrailingZeros (v.components.map UInt32.toNat)

section

variable {v w : Version} {x y : List Nat} {a c : Nat}

theorem withoutTrailingZeros_lt (h : a < c) : withoutTrailingZeros (a :: x) < withoutTrailingZeros (c :: y) := by
  have hc : ¬ (withoutTrailingZeros y = [] ∧ c = 0) := fun h0 => by omega
  rw [withoutTrailingZeros, withoutTrailingZeros, if_neg hc]
  split_ifs
  · exact List.nil_lt_cons c _
  · exact List.cons_lt_cons_iff.2 (.inl h)

theorem withoutTrailingZeros_cons_lt : withoutTrailingZeros (a :: x) < withoutTrailingZeros (a :: y) ↔
    withoutTrailingZeros x < withoutTrailingZeros y := by
  rw [withoutTrailingZeros, withoutTrailingZeros]
  by_cases hx : withoutTrailingZeros x = [] ∧ a = 0
  · rw [if_pos hx, hx.1]
    by_cases hy : withoutTrailingZeros y = []
    · rw [if_pos ⟨hy, hx.2⟩, hy]
    · obtain ⟨d, rest, hd⟩ := List.exists_cons_of_ne_nil hy
      rw [if_neg fun h => hy h.1, hd]
      simp
  · rw [if_neg hx]
    split_ifs with hy
    · rw [hy.1]
      simp
    · rw [List.cons_lt_cons_iff]
      simp

theorem withoutTrailingZeros_cons_inj : withoutTrailingZeros (a :: x) = withoutTrailingZeros (a :: y) ↔
    withoutTrailingZeros x = withoutTrailingZeros y := by
  rw [le_antisymm_iff, le_antisymm_iff, ← not_lt, ← not_lt, ← not_lt, ← not_lt, withoutTrailingZeros_cons_lt,
    withoutTrailingZeros_cons_lt]

def Version.significantFrom (v : Version) (i : Nat) : List Nat :=
  withoutTrailingZeros ((v.components.drop i).map UInt32.toNat)

theorem Version.significantFrom_eq (v : Version) (i : Nat) : v.significantFrom i =
    withoutTrailingZeros ((v.components.getD i 0).toNat :: (v.components.drop (i + 1)).map UInt32.toNat) := by
  rw [significantFrom]
  rcases lt_or_ge i v.components.length with hi | hi
  · rw [List.drop_eq_getElem_cons hi, List.map_cons, List.getD_eq_getElem?_getD, List.getElem?_eq_getElem hi]
    rfl
  · rw [List.drop_of_length_le hi, List.drop_of_length_le (by omega), List.getD_eq_getElem?_getD, List.getElem?_eq_none hi]
    rfl

theorem Version.significantFrom_of_le {i : Nat} (h : v.components.length ≤ i) : v.significantFrom i = [] := by
  rw [significantFrom, List.drop_of_length_le h]
  rfl

/-! ## The operators -/

theorem greaterEqual_go_iff {left i : Nat} (hv : v.components.length ≤ i + left) (hw : w.components.length ≤ i + left) :
    Version.greaterEqual.go v w left i = true ↔ w.significantFrom i ≤ v.significantFrom i := by
  induction left generalizing i with
  | zero =>
      rw [Nat.add_zero] at hv hw
      rw [Version.significantFrom_of_le hv, Version.significantFrom_of_le hw]
      exact iff_of_true rfl le_rfl
  | succ left ih =>
      rw [Version.greaterEqual.go, Version.significantFrom_eq, Version.significantFrom_eq]
      simp only [UInt32.lt_iff_toNat_lt]
      split_ifs with hlt hgt
      · exact iff_of_false not_false (not_le.2 (withoutTrailingZeros_lt hlt))
      · exact iff_of_true rfl (withoutTrailingZeros_lt hgt).le
      · rw [ih (by omega) (by omega), show (v.components.getD i 0).toNat = (w.components.getD i 0).toNat by omega, ← not_lt,
          ← not_lt, withoutTrailingZeros_cons_lt]
        rfl

theorem equal_go_iff {left i : Nat} (hv : v.components.length ≤ i + left) (hw : w.components.length ≤ i + left) :
    Version.equal.go v w left i = true ↔ v.significantFrom i = w.significantFrom i := by
  induction left generalizing i with
  | zero =>
      rw [Nat.add_zero] at hv hw
      rw [Version.significantFrom_of_le hv, Version.significantFrom_of_le hw]
      exact iff_of_true rfl rfl
  | succ left ih =>
      rw [Version.equal.go, Version.significantFrom_eq, Version.significantFrom_eq]
      split_ifs with hne
      · refine iff_of_false not_false fun heq => ?_
        rcases lt_trichotomy (v.components.getD i 0).toNat (w.components.getD i 0).toNat with hlt | hsame | hgt
        · exact (withoutTrailingZeros_lt hlt).ne heq
        · exact hne (UInt32.toNat_inj.1 hsame)
        · exact (withoutTrailingZeros_lt hgt).ne heq.symm
      · rw [ih (by omega) (by omega), not_not.1 hne, withoutTrailingZeros_cons_inj]
        rfl

theorem greaterEqual_iff : v.greaterEqual w = true ↔ v.components = [] ∨ w.significant ≤ v.significant := by
  rw [Version.greaterEqual, Bool.or_eq_true, List.isEmpty_iff, greaterEqual_go_iff (by omega) (by omega)]
  rfl

theorem equal_iff : v.equal w = true ↔ v.significant = w.significant := by
  rw [Version.equal, equal_go_iff (by omega) (by omega)]
  rfl

/-! ## The order -/

/-- `>=` on some versions, as it is documented: a total preorder, with the empty version as the latest one, and with the
lexicographic order of the other ones. -/
structure Ordered (versions : Set Version) : Prop where
  refl : ∀ a ∈ versions, a.greaterEqual a = true
  trans : ∀ a ∈ versions, ∀ b ∈ versions, ∀ c ∈ versions, a.greaterEqual b = true → b.greaterEqual c = true →
    a.greaterEqual c = true
  total : ∀ a ∈ versions, ∀ b ∈ versions, a.greaterEqual b = true ∨ b.greaterEqual a = true
  latest : ∀ a ∈ versions, a.components = [] → ∀ b ∈ versions, a.greaterEqual b = true ∧
    (b.components ≠ [] → b.greaterEqual a = false)
  lexicographic : ∀ a ∈ versions, ∀ b ∈ versions, a.components ≠ [] → b.components ≠ [] →
    (a.greaterEqual b = true ↔ b.significant ≤ a.significant)
  antisymm : ∀ a ∈ versions, ∀ b ∈ versions, (a.greaterEqual b = true ∧ b.greaterEqual a = true ↔ a.equal b = true)

/-- The order is the documented one exactly on versions without the empty one, and on the empty one by itself. -/
theorem ordered_iff (versions : Set Version) :
    Ordered versions ↔ ∀ a ∈ versions, a.components = [] → ∀ b ∈ versions, b.components = [] := by
  constructor
  · intro h a ha hempty b hb
    by_contra hne
    -- Zeros are all that the empty version is compared with.
    have hnot := (h.latest a ha hempty b hb).2 hne
    have hge : b.greaterEqual a = true := by
      rw [greaterEqual_iff, Version.significant, hempty]
      exact .inr (not_lt.1 (List.not_lt_nil _))
    exact Bool.false_ne_true (hnot.symm.trans hge)
  · intro h
    have hsame : ∀ a ∈ versions, ∀ b ∈ versions, (a.greaterEqual b = true ↔ b.significant ≤ a.significant) := by
      intro a ha b hb
      rw [greaterEqual_iff, or_iff_right_of_imp]
      intro hempty
      rw [Version.significant, Version.significant, hempty, h a ha hempty b hb]
    refine ⟨fun a ha => ?_, fun a ha b hb c hc hab hbc => ?_, fun a ha b hb => ?_, fun a ha hempty b hb => ⟨?_, fun hne => ?_⟩,
      fun a ha b hb _ _ => hsame a ha b hb, fun a ha b hb => ?_⟩
    · exact (hsame a ha a ha).2 le_rfl
    · rw [hsame a ha b hb] at hab
      rw [hsame b hb c hc] at hbc
      exact (hsame a ha c hc).2 (hbc.trans hab)
    · rw [hsame a ha b hb, hsame b hb a ha]
      exact le_total _ _
    · exact greaterEqual_iff.2 (.inl hempty)
    · exact absurd (h a ha hempty b hb) hne
    · rw [hsame a ha b hb, hsame b hb a ha, equal_iff, and_comm]
      exact le_antisymm_iff.symm

/-- `1` is not before the empty version, and that is not before `2`. -/
theorem not_ordered_empty : ¬ Ordered Set.univ ∧ (⟨[1]⟩ : Version).greaterEqual ⟨[]⟩ = true ∧
    (⟨[]⟩ : Version).greaterEqual ⟨[2]⟩ = true ∧ (⟨[1]⟩ : Version).greaterEqual ⟨[2]⟩ = false := by
  refine ⟨fun h => ?_, by decide, by decide, by decide⟩
  exact absurd (h.latest ⟨[]⟩ trivial rfl ⟨[1]⟩ trivial).2 (by decide)

end

end SwiftKStdlib.Basic
