import SwiftKStdlib.SpaceEngine.Patterns

/-!
# The projections of patterns

* `Pattern.Everywhere` : a condition on a pattern and its sub-patterns;
* `Projected`, `WellTyped.projected` : the shapes of projections; a payload may be `short`;
* `WellTyped.misses` : a projection misses what its pattern does not match, unless it is `Widened`;
* `WellTyped.not_misses` : it reaches what its pattern matches.
-/

namespace SwiftKStdlib.SpaceEngine

open Space

variable {Ty : Type} {tc : TypeContext Ty} {tests : Nat → Value → Prop}

namespace Pattern

/-! ## Sub-patterns -/

def Everywhere (C : Pattern Ty → Prop) (p : Pattern Ty) : Prop := ∀ q ∈ p.subPatterns, C q

variable {C : Pattern Ty → Prop} {p : Pattern Ty} {ps : List (Pattern Ty)} {ty : Ty} {name : String} {downgrade : Bool}

theorem self_mem_subPatterns (p : Pattern Ty) : p ∈ p.subPatterns := by
  cases p <;> exact List.mem_cons_self

theorem Everywhere.self (h : Everywhere C p) : C p := h p (self_mem_subPatterns p)

theorem Everywhere.var (h : Everywhere C (.var p)) : Everywhere C p := fun q hq => h q (List.mem_cons_of_mem _ hq)

theorem Everywhere.paren (h : Everywhere C (.paren p)) : Everywhere C p := fun q hq => h q (List.mem_cons_of_mem _ hq)

theorem Everywhere.optionalSome (h : Everywhere C (.optionalSome ty p)) : Everywhere C p :=
  fun q hq => h q (List.mem_cons_of_mem _ hq)

theorem Everywhere.enumPayload (h : Everywhere C (.enumPayload ty name downgrade p)) : Everywhere C p :=
  fun q hq => h q (List.mem_cons_of_mem _ hq)

theorem mem_allSubPatterns {q : Pattern Ty} (hp : p ∈ ps) (hq : q ∈ p.subPatterns) : q ∈ allSubPatterns ps := by
  induction ps with
  | nil => exact absurd hp List.not_mem_nil
  | cons p' ps ih =>
    unfold allSubPatterns
    rcases List.mem_cons.1 hp with rfl | hp
    · exact List.mem_append_left _ hq
    · exact List.mem_append_right _ (ih hp)

theorem exists_of_mem_allSubPatterns {q : Pattern Ty} (hq : q ∈ allSubPatterns ps) : ∃ p ∈ ps, q ∈ p.subPatterns := by
  induction ps with
  | nil => exact absurd hq List.not_mem_nil
  | cons p ps ih =>
    unfold allSubPatterns at hq
    rcases List.mem_append.1 hq with hq | hq
    · exact ⟨p, List.mem_cons_self, hq⟩
    · obtain ⟨p', hp', hq⟩ := ih hq
      exact ⟨p', List.mem_cons_of_mem _ hp', hq⟩

theorem subPatterns_trans : ∀ {p q q' : Pattern Ty}, q ∈ p.subPatterns → q' ∈ q.subPatterns → q' ∈ p.subPatterns
  | .var p, q, q', hq, hq' => by
    rcases List.mem_cons.1 hq with rfl | hq
    · exact hq'
    · exact List.mem_cons_of_mem _ (subPatterns_trans hq hq')
  | .paren p, q, q', hq, hq' => by
    rcases List.mem_cons.1 hq with rfl | hq
    · exact hq'
    · exact List.mem_cons_of_mem _ (subPatterns_trans hq hq')
  | .optionalSome ty p, q, q', hq, hq' => by
    rcases List.mem_cons.1 hq with rfl | hq
    · exact hq'
    · exact List.mem_cons_of_mem _ (subPatterns_trans hq hq')
  | .enumPayload ty name downgrade p, q, q', hq, hq' => by
    rcases List.mem_cons.1 hq with rfl | hq
    · exact hq'
    · exact List.mem_cons_of_mem _ (subPatterns_trans hq hq')
  | .tuple ty ps, q, q', hq, hq' => by
    rcases List.mem_cons.1 hq with rfl | hq
    · exact hq'
    · obtain ⟨p, hp, hq⟩ := exists_of_mem_allSubPatterns hq
      have := List.sizeOf_lt_of_mem hp
      exact List.mem_cons_of_mem _ (mem_allSubPatterns hp (subPatterns_trans hq hq'))
  | .any _, q, q', hq, hq' => by rwa [List.mem_singleton.1 hq] at hq'
  | .named _ _, q, q', hq, hq' => by rwa [List.mem_singleton.1 hq] at hq'
  | .bool _, q, q', hq, hq' => by rwa [List.mem_singleton.1 hq] at hq'
  | .is _ _ _, q, q', hq, hq' => by rwa [List.mem_singleton.1 hq] at hq'
  | .expr _, q, q', hq, hq' => by rwa [List.mem_singleton.1 hq] at hq'
  | .enumElement _ _ _, q, q', hq, hq' => by rwa [List.mem_singleton.1 hq] at hq'

theorem Everywhere.tuple (h : Everywhere C (.tuple ty ps)) (hp : p ∈ ps) : Everywhere C p :=
  fun q hq => h q (List.mem_cons_of_mem _ (mem_allSubPatterns hp hq))

/-! ## The semantics-providing pattern -/

theorem semantics_eq_self (hvar : ∀ q, p ≠ .var q) (hparen : ∀ q, p ≠ .paren q) :
    p.getSemanticsProvidingPattern = p := by
  cases p with
  | var q => exact absurd rfl (hvar q)
  | paren q => exact absurd rfl (hparen q)
  | _ => rfl

theorem semantics_ne (p : Pattern Ty) :
    (∀ q, p.getSemanticsProvidingPattern ≠ .var q) ∧ ∀ q, p.getSemanticsProvidingPattern ≠ .paren q := by
  induction p using getSemanticsProvidingPattern.induct with
  | case1 p ih => exact ih
  | case2 p ih => exact ih
  | case3 p hvar hparen =>
    rw [semantics_eq_self hvar hparen]
    exact ⟨hvar, hparen⟩

theorem Everywhere.semantics (h : Everywhere C p) : Everywhere C p.getSemanticsProvidingPattern := by
  induction p using getSemanticsProvidingPattern.induct with
  | case1 p ih => exact ih h.var
  | case2 p ih => exact ih h.paren
  | case3 p hvar hparen => rwa [semantics_eq_self hvar hparen]

theorem projectPattern_semantics (p : Pattern Ty) :
    projectPattern tc p.getSemanticsProvidingPattern = projectPattern tc p := by
  induction p using getSemanticsProvidingPattern.induct with
  | case1 p ih => exact ih
  | case2 p ih => exact ih
  | case3 p hvar hparen => rw [semantics_eq_self hvar hparen]

theorem WellTyped.semantics (h : WellTyped tc ty p) : WellTyped tc ty p.getSemanticsProvidingPattern := by
  induction p using getSemanticsProvidingPattern.induct with
  | case1 p ih =>
    cases h with
    | var h => exact ih h
  | case2 p ih =>
    cases h with
    | paren h => exact ih h
  | case3 p hvar hparen => rwa [semantics_eq_self hvar hparen]

theorem matches_semantics {v : Value} : Matches tc tests p.getSemanticsProvidingPattern v ↔ Matches tc tests p v := by
  induction p using getSemanticsProvidingPattern.induct with
  | case1 p ih =>
    refine ih.trans ⟨.var, fun h => ?_⟩
    cases h with
    | var h => exact h
  | case2 p ih =>
    refine ih.trans ⟨.paren, fun h => ?_⟩
    cases h with
    | paren h => exact h
  | case3 p hvar hparen => rw [semantics_eq_self hvar hparen]

/-! ## Patterns of a tuple type -/

theorem view_of_asTuple {elements : List (TupleTypeElt Ty)} (h : tc.asTuple ty = some elements) :
    tc.view ty = .tuple elements := by
  unfold TypeContext.asTuple at h
  split at h
  next elements' hview => rw [hview, Option.some.inj h]
  next => cases h

theorem signature_of_asTuple {elements : List (TupleTypeElt Ty)} (h : tc.asTuple ty = some elements) :
    (⟨"", elements⟩ : Signature Ty) ∈ tc.signatures ty := by
  unfold TypeContext.signatures
  rw [view_of_asTuple h]
  exact List.mem_singleton_self _

/-- A test has the space of its type if it coerces, else the empty one. -/
def isTest : Pattern Ty → Bool
  | .is .. => true
  | .expr _ => true
  | _ => false

variable (tc) in
theorem projectPattern_test (h : p.getSemanticsProvidingPattern.isTest = true) :
    projectPattern tc p = .empty ∨ ∃ ty' name, projectPattern tc p = .type ty' name := by
  rw [← projectPattern_semantics]
  generalize p.getSemanticsProvidingPattern = q at *
  cases q with
  | is ty coerces identity =>
    unfold projectPattern
    split_ifs
    · exact .inr ⟨ty, "", rfl⟩
    · exact .inl rfl
  | expr identity => exact .inl rfl
  | _ => cases h

theorem WellTyped.of_paren (h : WellTyped tc ty (.paren p)) : WellTyped tc ty p := by
  cases h with
  | paren h => exact h

theorem WellTyped.of_asTuple {elements : List (TupleTypeElt Ty)} (h : WellTyped tc ty p)
    (hty : tc.asTuple ty = some elements) :
    (∃ ps, p.getSemanticsProvidingPattern = .tuple ty ps) ∨
      (∃ boundName, p.getSemanticsProvidingPattern = .named ty boundName) ∨
      p.getSemanticsProvidingPattern = .any ty ∨ p.getSemanticsProvidingPattern.isTest = true := by
  have hview := view_of_asTuple hty
  have hsemantics := h.semantics
  obtain ⟨hvar, hparen⟩ := semantics_ne p
  generalize p.getSemanticsProvidingPattern = q at *
  cases hsemantics with
  | any => exact .inr (.inr (.inl rfl))
  | named boundName => exact .inr (.inl ⟨boundName, rfl⟩)
  | is coerces identity => exact .inr (.inr (.inr rfl))
  | expr identity => exact .inr (.inr (.inr rfl))
  | var h => exact absurd rfl (hvar _)
  | paren h => exact absurd rfl (hparen _)
  | tuple hty' hps h => exact .inl ⟨_, rfl⟩
  | bool hbool value =>
    unfold TypeContext.isBool at hbool
    rw [hview] at hbool
    cases hbool
  | enumElement hview' => cases hview.symm.trans hview'
  | enumPayload hview' => cases hview.symm.trans hview'
  | optionalSome hview' => cases hview.symm.trans hview'

theorem payloadTuple_cases (h : WellTyped tc ty p) :
    (∃ elements, p.payloadTuple tc = some elements ∧ tc.asTuple ty = some elements) ∨
      p.payloadTuple tc = none ∧ (tc.asTuple ty = none ∨ p.getSemanticsProvidingPattern.isTest = true) := by
  cases hty : tc.asTuple ty with
  | some elements =>
    unfold payloadTuple
    rcases h.of_asTuple hty with ⟨ps, heq⟩ | ⟨boundName, heq⟩ | heq | htest
    · exact .inl ⟨elements, by rw [heq]; exact hty, rfl⟩
    · exact .inl ⟨elements, by rw [heq]; exact hty, rfl⟩
    · exact .inl ⟨elements, by rw [heq]; exact hty, rfl⟩
    · refine .inr ⟨?_, .inr htest⟩
      generalize p.getSemanticsProvidingPattern = q at *
      cases q with
      | is ty coerces identity => rfl
      | expr identity => rfl
      | _ => cases htest
  | none =>
    refine .inr ⟨?_, .inl rfl⟩
    have hsemantics := h.semantics
    unfold payloadTuple
    generalize p.getSemanticsProvidingPattern = q at *
    cases hsemantics with
    | any => exact hty
    | named boundName => exact hty
    | tuple hty' hps h => exact hty
    | _ => rfl

/-! ## Payloads -/

theorem signature_of_element {elements : List (EnumElementDecl Ty)} {e : EnumElementDecl Ty}
    (hview : tc.view ty = .enum elements) (he : e ∈ elements) (hvalid : e.hasInterfaceType = true) :
    (⟨e.name, tc.payload e⟩ : Signature Ty) ∈ tc.signatures ty := by
  unfold TypeContext.signatures
  rw [hview]
  exact List.mem_map_of_mem (List.mem_filter.2 ⟨he, hvalid⟩)

theorem payload_eq {e : EnumElementDecl Ty} {payload : Ty} (hargument : e.argumentType = some payload) :
    tc.payload e = (tc.asTuple payload).getD [⟨payload, ""⟩] := by
  unfold TypeContext.payload
  rw [hargument]

theorem projectPatterns_eq (ps : List (Pattern Ty)) : projectPatterns tc ps = ps.map (projectPattern tc) := by
  induction ps with
  | nil => rfl
  | cons p ps ih => rw [projectPatterns, ih, List.map_cons]

variable (tc) in
theorem exists_test_of_cast (h : p.isCast = true) :
    ∃ ty coerces identity, .is ty coerces identity ∈ p.subPatterns ∧
      projectPattern tc (.is ty coerces identity) = projectPattern tc p := by
  induction p using isCast.induct with
  | case1 ty coerces identity => exact ⟨ty, coerces, identity, List.mem_cons_self, rfl⟩
  | case2 ty name downgrade p ih =>
    have hcast : p.isCast = true := h
    obtain ⟨ty', coerces, identity, hmem, hproject⟩ := ih hcast
    refine ⟨ty', coerces, identity, List.mem_cons_of_mem _ hmem, hproject.trans ?_⟩
    cases p with
    | tuple ty ps => cases hcast
    | paren p => cases hcast
    | _ => rfl
  | case3 p his hpayload =>
    unfold isCast at h
    split at h
    · exact absurd rfl (his _ _ _)
    · exact absurd rfl (hpayload _ _ _ _)
    · cases h

variable (tc) in
theorem projectPattern_cast (h : p.isCast = true) :
    projectPattern tc p = .empty ∨ ∃ ty', projectPattern tc p = .type ty' "" := by
  obtain ⟨ty, coerces, identity, -, hproject⟩ := exists_test_of_cast tc h
  rw [← hproject]
  unfold projectPattern
  split_ifs
  · exact .inr ⟨ty, rfl⟩
  · exact .inl rfl

/-- The arguments of the space of a payload pattern, or of the pattern under an `optional`. -/
inductive Arguments (tc : TypeContext Ty) (optional : Prop) (payload : Ty) (p : Pattern Ty) : List (Space Ty) → Prop
  | tuple {elements : List (TupleTypeElt Ty)} {ps : List (Pattern Ty)} (hty : tc.asTuple payload = some elements)
      (hp : p.getSemanticsProvidingPattern = .tuple payload ps) (hps : ps.length = elements.length) :
      Arguments tc optional payload p (ps.map (projectPattern tc))
  /-- Those of a pattern in parentheses are the elements of the payload's type. -/
  | elements {p' : Pattern Ty} {elements : List (TupleTypeElt Ty)} (hoptional : ¬ optional)
      (hty : tc.asTuple payload = some elements) (hp : p = .paren p') (htest : p.getSemanticsProvidingPattern.isTest = false) :
      Arguments tc optional payload p (ofElements elements)
  | single (hty : tc.asTuple payload = none) : Arguments tc optional payload p [projectPattern tc p]
  /-- There is one where the payload is a tuple. -/
  | short {elements : List (TupleTypeElt Ty)} (hty : tc.asTuple payload = some elements) (hlength : elements.length ≠ 1)
      (hp : (optional ∧ ∃ name, projectPattern tc p = .type payload name) ∨ p.getSemanticsProvidingPattern.isTest = true) :
      Arguments tc optional payload p [projectPattern tc p]

theorem length_ne_one {elements : List (TupleTypeElt Ty)} (hty : tc.asTuple ty = some elements)
    (hsingle : ∀ a, tc.asTuple ty ≠ some [a]) : elements.length ≠ 1 := by
  intro hlength
  obtain ⟨a, rfl⟩ := List.length_eq_one_iff.1 hlength
  exact hsingle a hty

variable (ty) in
theorem WellTyped.enumPayload_arguments {payload : Ty} (h : WellTyped tc payload p)
    (hform : p.isTuple = true ∨ p.isParen = true ∨ p.isCast = true)
    (hsingle : ∀ p' a, p = .paren p' → tc.asTuple payload = some [a] → p'.getSemanticsProvidingPattern.isTuple = true) :
    (∃ spaces, projectPattern tc (.enumPayload ty name downgrade p) = .constructor ty name false spaces ∧
      Arguments tc False payload p spaces) ∨
    p.isCast = true ∧ projectPattern tc (.enumPayload ty name downgrade p) = projectPattern tc p := by
  rcases hform with hform | hform | hform
  · cases p with
    | tuple ty' ps =>
      cases h with
      | tuple hty hps h => exact .inl ⟨_, by rw [projectPattern, projectPatterns_eq], .tuple hty rfl hps⟩
    | _ => cases hform
  · cases p with
    | paren p =>
      refine .inl ?_
      rcases payloadTuple_cases h.of_paren with ⟨elements, helements, hty⟩ | ⟨hnone, hty⟩
      · refine ⟨ofElements elements, by rw [projectPattern, helements], .elements not_false hty rfl ?_⟩
        unfold payloadTuple at helements
        change p.getSemanticsProvidingPattern.isTest = false
        generalize p.getSemanticsProvidingPattern = q at *
        cases q with
        | is ty coerces identity => cases helements
        | expr identity => cases helements
        | _ => rfl
      · refine ⟨[projectPattern tc (.paren p)], by
        rw [show projectPattern tc (.paren p) = projectPattern tc p from rfl, projectPattern, hnone], ?_⟩
        cases hty' : tc.asTuple payload with
        | none => exact .single hty'
        | some elements =>
          have htest := hty.resolve_left (by rw [hty']; exact Option.some_ne_none _)
          refine .short hty' (length_ne_one hty' fun a ha => ?_) (.inr htest)
          have htuple := hsingle p a rfl ha
          generalize p.getSemanticsProvidingPattern = q at *
          cases q with
          | tuple ty ps => cases htest
          | _ => cases htuple
    | _ => cases hform
  · refine .inr ⟨hform, ?_⟩
    cases p with
    | tuple ty ps => cases hform
    | paren p => cases hform
    | _ => rfl

theorem optionalSome_of_head_ne {s : Space Ty}
    (h : ∀ ty' head downgrade spaces, s = .constructor ty' head downgrade spaces → head ≠ "") :
    Space.optionalSome ty s = .constructor ty "some" false [s] := by
  unfold Space.optionalSome
  split
  next ty' head downgrade spaces => rw [if_neg (h ty' head downgrade spaces rfl)]
  next => rfl

theorem WellTyped.head_ne (h : WellTyped tc ty p) (hty : tc.asTuple ty = none) {ty' : Ty} {head : String}
    {spaces : List (Space Ty)} (hproject : projectPattern tc p = .constructor ty' head downgrade spaces) : head ≠ "" := by
  have hsemantics := h.semantics
  obtain ⟨hvar, hparen⟩ := semantics_ne p
  rw [← projectPattern_semantics] at hproject
  generalize p.getSemanticsProvidingPattern = q at *
  cases hsemantics with
  | any => cases hproject
  | named boundName => cases hproject
  | bool hbool value => cases hproject
  | is coerces identity =>
    unfold projectPattern at hproject
    split_ifs at hproject
  | expr identity => cases hproject
  | var h => exact absurd rfl (hvar _)
  | paren h => exact absurd rfl (hparen _)
  | tuple hty' => cases hty.symm.trans hty'
  | enumElement hview he =>
    obtain ⟨-, rfl, -⟩ := Space.constructor.inj hproject
    exact tc.name_ne _ _ hview _ he
  | enumPayload hview he hvalid hargument hform hsingle h =>
    rcases h.enumPayload_arguments ty hform hsingle with ⟨spaces', heq, -⟩ | ⟨hcast, heq⟩
    · obtain ⟨-, rfl, -⟩ := Space.constructor.inj (heq.symm.trans hproject)
      exact tc.name_ne _ _ hview _ he
    · rw [heq] at hproject
      rcases projectPattern_cast tc hcast with hempty | ⟨ty'', htype⟩
      · cases hempty.symm.trans hproject
      · cases htype.symm.trans hproject
  | optionalSome =>
    have hsome : ∀ s : Space Ty, Space.optionalSome ty s = .constructor ty' head downgrade spaces → head ≠ "" := by
      intro s heq
      unfold Space.optionalSome at heq
      split at heq
      · split_ifs at heq <;> obtain ⟨-, rfl, -⟩ := Space.constructor.inj heq <;> decide
      · obtain ⟨-, rfl, -⟩ := Space.constructor.inj heq
        decide
    exact hsome _ hproject

variable (ty) in
theorem WellTyped.optionalSome_arguments {payload : Ty} (h : WellTyped tc payload p)
    (hsingle : ∀ a, tc.asTuple payload ≠ some [a]) :
    ∃ spaces, projectPattern tc (.optionalSome ty p) = .constructor ty "some" false spaces ∧
      Arguments tc True payload p spaces := by
  unfold projectPattern
  cases hty : tc.asTuple payload with
  | none =>
    exact ⟨_, optionalSome_of_head_ne fun ty' head downgrade spaces heq => h.head_ne hty heq, .single hty⟩
  | some elements =>
    have hshort (hp : (True ∧ ∃ name, projectPattern tc p = .type payload name) ∨
        p.getSemanticsProvidingPattern.isTest = true) (hs : ∀ ty' head downgrade spaces,
          projectPattern tc p = .constructor ty' head downgrade spaces → head ≠ "") :
        ∃ spaces, Space.optionalSome ty (projectPattern tc p) = .constructor ty "some" false spaces ∧
          Arguments tc True payload p spaces :=
      ⟨_, optionalSome_of_head_ne hs, .short hty (length_ne_one hty hsingle) hp⟩
    rcases h.of_asTuple hty with ⟨ps, heq⟩ | ⟨boundName, heq⟩ | heq | htest
    · have hproject : projectPattern tc p = .constructor payload "" false (ps.map (projectPattern tc)) := by
        rw [← projectPattern_semantics, heq, projectPattern, projectPatterns_eq]
      have htyped := h.semantics
      rw [heq] at htyped
      cases htyped with
      | tuple hty' hps _ =>
        obtain rfl := Option.some.inj (hty.symm.trans hty')
        rw [hproject]
        exact ⟨_, rfl, .tuple hty heq hps⟩
    · have hproject : projectPattern tc p = .type payload boundName := by
        rw [← projectPattern_semantics, heq, projectPattern]
      exact hshort (.inl ⟨trivial, boundName, hproject⟩) (by rw [hproject]; exact nofun)
    · have hproject : projectPattern tc p = .type payload "" := by
        rw [← projectPattern_semantics, heq, projectPattern]
      exact hshort (.inl ⟨trivial, "", hproject⟩) (by rw [hproject]; exact nofun)
    · refine hshort (.inr htest) ?_
      rcases projectPattern_test tc htest with heq | ⟨ty₁, name, heq⟩ <;> rw [heq] <;> exact nofun

/-! ## The faults of a projection -/

/-- The projection of a pattern is that of more values than it matches. -/
inductive Widened (tc : TypeContext Ty) (tests : Nat → Value → Prop) : Pattern Ty → Prop
  /-- The sub-pattern of a coercion is forgotten. -/
  | coercion {ty : Ty} {identity : Nat} {v : Value} (hv : v.HasType tc ty) (h : ¬ tests identity v) :
      Widened tc tests (.is ty true identity)
  /-- The sub-patterns of a tuple in parentheses are forgotten. -/
  | tuple {ty ty' : Ty} {name : String} {downgrade : Bool} {p : Pattern Ty} {ps : List (Pattern Ty)} {v : Value}
      (hp : p.getSemanticsProvidingPattern = .tuple ty' ps) (hv : v.HasType tc ty') (h : ¬ Matches tc tests p v) :
      Widened tc tests (.enumPayload ty name downgrade (.paren p))
  /-- The element is forgotten. -/
  | element {ty : Ty} {name : String} {downgrade : Bool} {p : Pattern Ty} (hcast : p.isCast = true)
      (h : projectPattern tc p ≠ .empty) : Widened tc tests (.enumPayload ty name downgrade p)
  /-- A test of the empty tuple has nothing to be compared with. -/
  | emptyPayload {ty : Ty} {name : String} {downgrade : Bool} {p : Pattern Ty} {c : Signature Ty}
      (hc : c ∈ tc.signatures ty) (hname : c.head = name) (hnil : c.arguments = [])
      (h : projectPattern tc p = .empty) : Widened tc tests (.enumPayload ty name downgrade (.paren p))
  | emptySome {ty : Ty} {p : Pattern Ty} {c : Signature Ty} (hc : c ∈ tc.signatures ty) (hname : c.head = "some")
      (hnil : c.arguments = []) (h : projectPattern tc p = .empty) : Widened tc tests (.optionalSome ty p)

/-- The payload of an optional is a tuple, but the projection has one argument for it. -/
inductive HidesTuple (tc : TypeContext Ty) : Pattern Ty → Prop
  | intro {ty ty' : Ty} {name : String} {p : Pattern Ty} {elements : List (TupleTypeElt Ty)}
      (hproject : projectPattern tc p = .type ty' name) (htuple : tc.asTuple ty' = some elements) :
      HidesTuple tc (.optionalSome ty p)

end Pattern

/-! ## Shapes -/

/-- The shape of a projection: a payload that is a tuple may have one argument instead of those of its elements. -/
inductive Projected (tc : TypeContext Ty) (short : Prop) : Ty → Space Ty → Prop
  | empty {ty} : Projected tc short ty .empty
  | type {ty} (name : String) : Projected tc short ty (.type ty name)
  | booleanConstant {ty} (hbool : tc.isBool ty = true) (value : Bool) : Projected tc short ty (.booleanConstant value)
  | constructor {ty c spaces} (ty' : Ty) (downgrade : Bool) (hc : c ∈ tc.signatures ty)
      (hspaces : spaces.length = c.arguments.length)
      (harguments : ∀ (i : Nat) a s, c.arguments[i]? = some a → spaces[i]? = some s → Projected tc short a.type s) :
      Projected tc short ty (.constructor ty' c.head downgrade spaces)
  | short {ty c s} (hshort : short) (ty' : Ty) (downgrade : Bool) (hc : c ∈ tc.signatures ty)
      (hlength : c.arguments.length ≠ 1) (hs : s = .empty ∨ ∃ ty₁ name, s = .type ty₁ name) :
      Projected tc short ty (.constructor ty' c.head downgrade [s])

theorem Projected.arguments {short : Prop} {ty ty' : Ty} {head : String} {c : Signature Ty} {downgrade : Bool}
    {spaces : List (Space Ty)} (h : Projected tc short ty (.constructor ty' head downgrade spaces))
    (hc : c ∈ tc.signatures ty) (hhead : c.head = head) (hspaces : spaces.length = c.arguments.length) :
    ∀ (i : Nat) a s, c.arguments[i]? = some a → spaces[i]? = some s → Projected tc short a.type s := by
  cases h with
  | constructor _ _ hc' _ harguments =>
    obtain rfl := signature_unique hc hc' hhead
    exact harguments
  | short _ _ _ hc' hlength =>
    obtain rfl := signature_unique hc hc' hhead
    exact absurd hspaces.symm hlength

theorem Projected.typed {ty : Ty} {s : Space Ty} (h : Projected tc False ty s) : Typed tc ty s := by
  induction h with
  | empty => exact .empty
  | type name => exact .type name
  | booleanConstant hbool value => exact .booleanConstant hbool value
  | constructor ty' downgrade hc hspaces harguments ih => exact .constructor ty' downgrade hc hspaces ih
  | short hshort => exact hshort.elim

namespace Pattern

variable {short : Prop}

/-- Where the projections have the shapes of their types, if a payload may not be `short`. -/
structure Shaped (tc : TypeContext Ty) (short : Prop) (q : Pattern Ty) : Prop where
  element : ∀ ty name downgrade p, q = .enumPayload ty name downgrade p → p.isCast = true → projectPattern tc p = .empty
  test : ¬ short → q.isTest = false
  tuple : ¬ short → ¬ HidesTuple tc q

theorem Shaped.isTest {q : Pattern Ty} (h : Everywhere (Shaped tc short) q)
    (htest : q.getSemanticsProvidingPattern.isTest = true) : short := by
  by_contra hshort
  rw [h.semantics.self.test hshort] at htest
  exact Bool.noConfusion htest

theorem Arguments.projected {optional : Prop} {payload : Ty} {spaces : List (Space Ty)} {c : Signature Ty}
    (h : Arguments tc optional payload p spaces) (hc : c ∈ tc.signatures ty)
    (hpayload : c.arguments = (tc.asTuple payload).getD [⟨payload, ""⟩])
    (hp : Projected tc short payload (projectPattern tc p))
    (hshort : (optional ∧ ∃ name elements, projectPattern tc p = .type payload name ∧ tc.asTuple payload = some elements) ∨
      p.getSemanticsProvidingPattern.isTest = true → short) :
    Projected tc short ty (.constructor ty c.head false spaces) := by
  cases h with
  | @tuple elements ps hty hsemantics hps =>
    rw [hty] at hpayload
    have hlength : (ps.map (projectPattern tc)).length = elements.length := by rw [List.length_map, hps]
    rw [← projectPattern_semantics, hsemantics, projectPattern, projectPatterns_eq] at hp
    refine .constructor ty false hc (by rw [hpayload, Option.getD_some, hlength]) fun i a s ha hs => ?_
    rw [hpayload] at ha
    exact hp.arguments (signature_of_asTuple hty) rfl hlength i a s ha hs
  | @elements p' elements hoptional hty =>
    rw [hty] at hpayload
    refine .constructor ty false hc (by rw [hpayload, Option.getD_some, length_ofElements]) fun i a s ha hs => ?_
    rw [hpayload, Option.getD_some] at ha
    rw [getElem?_ofElements, ha] at hs
    rw [← Option.some.inj hs]
    exact .type a.name
  | single hty =>
    rw [hty] at hpayload
    refine .constructor ty false hc (by rw [hpayload]; rfl) fun i a s ha hs => ?_
    rw [hpayload] at ha
    cases i with
    | zero =>
      obtain rfl := Option.some.inj ha
      obtain rfl := Option.some.inj hs
      exact hp
    | succ i => cases hs
  | @short elements hty hlength hp' =>
    rw [hty] at hpayload
    refine .short (hshort ?_) ty false hc (by rw [hpayload]; exact hlength) ?_
    · rcases hp' with ⟨hoptional, name, hproject⟩ | htest
      · exact .inl ⟨hoptional, name, elements, hproject, hty⟩
      · exact .inr htest
    · rcases hp' with ⟨-, name, hproject⟩ | htest
      · exact .inr ⟨payload, name, hproject⟩
      · exact projectPattern_test tc htest

theorem WellTyped.projected (h : WellTyped tc ty p) (hshaped : Everywhere (Shaped tc short) p) :
    Projected tc short ty (projectPattern tc p) := by
  induction h with
  | any => exact .type ""
  | named boundName => exact .type boundName
  | bool hbool value => exact .booleanConstant hbool value
  | is coerces identity =>
    unfold projectPattern
    split_ifs
    · exact .type ""
    · exact .empty
  | expr identity => exact .empty
  | var h ih => exact ih hshaped.var
  | paren h ih => exact ih hshaped.paren
  | @tuple ty elements ps hty hps h ih =>
    unfold projectPattern
    rw [projectPatterns_eq]
    refine .constructor (c := ⟨"", elements⟩) ty false (signature_of_asTuple hty) (by rw [List.length_map, hps])
      fun i a s ha hs => ?_
    rw [List.getElem?_map] at hs
    obtain ⟨p, hp, rfl⟩ := Option.map_eq_some_iff.1 hs
    exact ih i a p ha hp (hshaped.tuple (List.mem_of_getElem? hp))
  | @enumElement ty elements e hview he hvalid hargument =>
    have hpayload : tc.payload e = [] := by
      unfold TypeContext.payload
      rw [hargument]
    exact .constructor (c := ⟨e.name, tc.payload e⟩) ty e.downgrade (signature_of_element hview he hvalid)
      (by rw [hpayload]; rfl) fun i a s _ hs => by cases hs
  | @enumPayload ty elements e payload p hview he hvalid hargument hform hsingle h ih =>
    rcases h.enumPayload_arguments ty hform hsingle with ⟨spaces, heq, harguments⟩ | ⟨hcast, heq⟩
    · rw [heq]
      refine harguments.projected (c := ⟨e.name, tc.payload e⟩) (signature_of_element hview he hvalid)
        (payload_eq hargument) (ih hshaped.enumPayload) fun hshort => ?_
      exact Shaped.isTest hshaped.enumPayload (hshort.resolve_left fun h => h.1)
    · rw [heq, hshaped.self.element _ _ _ _ rfl hcast]
      exact .empty
  | @optionalSome ty elements e payload p hview he hvalid hname hargument hsingle h ih =>
    have hc := signature_of_element hview he hvalid
    rw [hname] at hc
    obtain ⟨spaces, heq, harguments⟩ := h.optionalSome_arguments ty hsingle
    rw [heq]
    refine harguments.projected (c := ⟨"some", tc.payload e⟩) hc (payload_eq hargument) (ih hshaped.optionalSome)
      fun hshort => ?_
    rcases hshort with ⟨-, name, elements, hproject, hty⟩ | htest
    · by_contra hnot
      exact hshaped.self.tuple hnot (.intro hproject hty)
    · exact Shaped.isTest hshaped.optionalSome htest

/-! ## Values -/

theorem hasType_signature {v : Value} {c : Signature Ty} (hv : v.HasType tc ty)
    (hc : c ∈ tc.signatures ty) : ∃ c' ∈ tc.signatures ty, ∃ vs, v = .constructor c'.head vs ∧
      vs.length = c'.arguments.length ∧
      ∀ (i : Nat) a v, c'.arguments[i]? = some a → vs[i]? = some v → v.HasType tc a.type := by
  cases hv with
  | bool hbool value => exact absurd hbool (not_isBool_of_signature hc)
  | constructor hc' hvs harguments => exact ⟨_, hc', _, rfl, hvs, harguments⟩
  | other hother =>
    rw [canDecompose_of_signature hc] at hother
    cases hother

theorem exists_isPayload {payload : Ty} {c : Signature Ty} {vs : List Value}
    (hpayload : c.arguments = (tc.asTuple payload).getD [⟨payload, ""⟩]) (hvs : vs.length = c.arguments.length)
    (hvalues : ∀ (i : Nat) a v, c.arguments[i]? = some a → vs[i]? = some v → v.HasType tc a.type) :
    ∃ v, tc.IsPayload payload vs v ∧ v.HasType tc payload := by
  unfold TypeContext.IsPayload
  cases hty : tc.asTuple payload with
  | some elements =>
    rw [hty, Option.getD_some] at hpayload
    rw [hpayload] at hvs hvalues
    exact ⟨.constructor "" vs, rfl, .constructor (c := ⟨"", elements⟩) (signature_of_asTuple hty) hvs hvalues⟩
  | none =>
    rw [hty, Option.getD_none] at hpayload
    rw [hpayload] at hvs hvalues
    obtain ⟨v, rfl⟩ := List.length_eq_one_iff.1 hvs
    exact ⟨v, rfl, hvalues 0 _ v rfl rfl⟩

theorem isUseful_of_mem {spaces : List (Space Ty)} (h : subspacesUseful spaces = true) : ∀ s ∈ spaces, s.isUseful = true := by
  induction spaces with
  | nil => exact fun s hs => absurd hs List.not_mem_nil
  | cons s spaces ih =>
    unfold subspacesUseful at h
    obtain ⟨hfirst, hrest⟩ := Bool.and_eq_true_iff.1 h
    intro s' hs'
    rcases List.mem_cons.1 hs' with rfl | hs'
    · exact hfirst
    · exact ih hrest s' hs'

theorem subspacesUseful_of_forall {spaces : List (Space Ty)} (h : ∀ s ∈ spaces, s.isUseful = true) :
    subspacesUseful spaces = true := by
  induction spaces with
  | nil => rfl
  | cons s spaces ih =>
    unfold subspacesUseful
    rw [h s List.mem_cons_self, ih fun s hs => h s (List.mem_cons_of_mem _ hs)]
    rfl

section Payloads

variable {optional : Prop} {payload : Ty} {spaces : List (Space Ty)} {c : Signature Ty} {vs : List Value} {v : Value}

theorem Arguments.misses (h : Arguments tc optional payload p spaces) (hc : c ∈ tc.signatures ty)
    (hpayload : c.arguments = (tc.asTuple payload).getD [⟨payload, ""⟩]) (hvs : vs.length = c.arguments.length)
    (hv : tc.IsPayload payload vs v) (hmisses : Misses tc payload (projectPattern tc p) v)
    (helements : ∀ elements p', tc.asTuple payload = some elements → ¬ optional → p = .paren p' →
      p.getSemanticsProvidingPattern.isTest = true)
    (hempty : projectPattern tc p = .empty → c.arguments ≠ []) :
    Misses tc ty (.constructor ty c.head false spaces) (.constructor c.head vs) := by
  unfold TypeContext.IsPayload at hv
  cases h with
  | @tuple elements ps hty hsemantics hps =>
    rw [hty, Option.getD_some] at hpayload
    rw [hty] at hv
    dsimp only at hv
    rw [← projectPattern_semantics, hsemantics, projectPattern, projectPatterns_eq, hv] at hmisses
    rcases hmisses.arguments (signature_of_asTuple hty) with hne | ⟨-, i, a, s, v, ha, hs, hv, hmisses⟩
    · exact absurd rfl hne
    · exact .argument ty false hc (by rw [hpayload]; exact ha) hs hv hmisses
  | elements hoptional hty hp htest =>
    rw [helements _ _ hty hoptional hp] at htest
    cases htest
  | single hty =>
    rw [hty, Option.getD_none] at hpayload
    rw [hty] at hv
    dsimp only at hv
    exact .argument (i := 0) (a := ⟨payload, ""⟩) (s := projectPattern tc p) (v := v) ty false hc
      (by rw [hpayload]; rfl) rfl (by rw [hv]; rfl) hmisses
  | short hty hlength hp =>
    -- there is no other value to miss than by an empty space
    have hproject : projectPattern tc p = .empty := by
      rcases hp with ⟨-, name, hproject⟩ | htest
      · rw [hproject] at hmisses
        cases hmisses
      · rcases projectPattern_test tc htest with hproject | ⟨ty₁, name, hproject⟩
        · exact hproject
        · rw [hproject] at hmisses
          cases hmisses
    obtain ⟨a, rest, harguments⟩ := List.exists_cons_of_ne_nil (hempty hproject)
    rw [harguments, List.length_cons] at hvs
    obtain ⟨v₀, vs', rfl⟩ := List.exists_cons_of_length_eq_add_one hvs
    refine .argument (i := 0) (a := a) (s := projectPattern tc p) (v := v₀) ty false hc (by rw [harguments]; rfl) rfl rfl ?_
    rw [hproject]
    exact .empty

theorem Arguments.not_misses (h : Arguments tc optional payload p spaces) (hc : c ∈ tc.signatures ty)
    (hpayload : c.arguments = (tc.asTuple payload).getD [⟨payload, ""⟩]) (hv : tc.IsPayload payload vs v)
    (huseful : subspacesUseful spaces = true)
    (hreaches : (projectPattern tc p).isUseful = true → ¬ Misses tc payload (projectPattern tc p) v) :
    ¬ Misses tc ty (.constructor ty c.head false spaces) (.constructor c.head vs) := by
  intro hmisses'
  obtain ⟨-, i, a, s, v', ha, hs, hv', hmisses⟩ := (hmisses'.arguments hc).resolve_left (not_not_intro rfl)
  unfold TypeContext.IsPayload at hv
  cases h with
  | @tuple elements ps hty hsemantics hps =>
    rw [hty, Option.getD_some] at hpayload
    rw [hty] at hv
    dsimp only at hv
    rw [← projectPattern_semantics, hsemantics, projectPattern, projectPatterns_eq, hv] at hreaches
    rw [hpayload] at ha
    exact hreaches huseful (.argument (c := ⟨"", elements⟩) payload false (signature_of_asTuple hty) ha hs hv' hmisses)
  | elements hoptional hty hp htest =>
    rw [getElem?_ofElements] at hs
    obtain ⟨a', -, rfl⟩ := Option.map_eq_some_iff.1 hs
    cases hmisses
  | single hty =>
    rw [hty, Option.getD_none] at hpayload
    rw [hty] at hv
    dsimp only at hv
    rw [hpayload] at ha
    rw [hv] at hv'
    cases i with
    | zero =>
      obtain rfl := Option.some.inj ha
      obtain rfl := Option.some.inj hs
      obtain rfl := Option.some.inj hv'
      exact hreaches (isUseful_of_mem huseful _ List.mem_cons_self) hmisses
    | succ i => cases hs
  | short hty hlength hp =>
    cases i with
    | zero =>
      obtain rfl := Option.some.inj hs
      rcases hp with ⟨-, name, hproject⟩ | htest'
      · rw [hproject] at hmisses
        cases hmisses
      · rcases projectPattern_test tc htest' with hproject | ⟨ty₁, name, hproject⟩
        · rw [hproject] at huseful
          cases huseful
        · rw [hproject] at hmisses
          cases hmisses
    | succ i => cases hs

theorem Arguments.isUseful (h : Arguments tc optional payload p spaces) (hp : (projectPattern tc p).isUseful = true) :
    subspacesUseful spaces = true := by
  cases h with
  | tuple hty hsemantics hps =>
    rwa [← projectPattern_semantics, hsemantics, projectPattern, projectPatterns_eq] at hp
  | elements hoptional hty hp' htest =>
    refine subspacesUseful_of_forall fun s hs => ?_
    obtain ⟨e, -, rfl⟩ := List.mem_map.1 hs
    rfl
  | single hty => exact subspacesUseful_of_forall fun s hs => by rwa [List.mem_singleton.1 hs]
  | short hty hlength hp' => exact subspacesUseful_of_forall fun s hs => by rwa [List.mem_singleton.1 hs]

end Payloads

theorem WellTyped.misses (h : WellTyped tc ty p) (hwidened : Everywhere (fun q => ¬ Widened tc tests q) p) {v : Value}
    (hv : v.HasType tc ty) (hnot : ¬ Matches tc tests p v) : Misses tc ty (projectPattern tc p) v := by
  induction h generalizing v with
  | any => exact absurd .any hnot
  | named boundName => exact absurd .named hnot
  | @bool ty hbool value =>
    cases hv with
    | bool _ value' =>
      refine .booleanConstant fun heq => hnot ?_
      rw [← heq]
      exact .bool
    | constructor hc => exact absurd hbool (not_isBool_of_signature hc)
    | other hother =>
      rw [canDecompose_of_isBool hbool] at hother
      cases hother
  | is coerces identity =>
    cases coerces with
    | false => exact .empty
    | true => exact absurd (.coercion hv fun htest => hnot (.is htest)) hwidened.self
  | expr identity => exact .empty
  | var h ih => exact ih hwidened.var hv fun hm => hnot (.var hm)
  | paren h ih => exact ih hwidened.paren hv fun hm => hnot (.paren hm)
  | @tuple ty elements ps hty hps h ih =>
    have hc := signature_of_asTuple hty
    obtain ⟨c, hc', vs, rfl, hvs, hvalues⟩ := hasType_signature hv hc
    have hceq : c = ⟨"", elements⟩ := by
      unfold TypeContext.signatures at hc'
      rw [view_of_asTuple hty] at hc'
      exact List.mem_singleton.1 hc'
    subst hceq
    unfold projectPattern
    rw [projectPatterns_eq]
    by_contra hreached
    refine hnot (.tuple (hps.trans hvs.symm) fun i p v hp hv => ?_)
    by_contra hnot'
    obtain ⟨a, ha⟩ := exists_getElem?_of_length hps.symm hp
    refine hreached (.argument ty false hc ha (by rw [List.getElem?_map, hp]; rfl) hv ?_)
    exact ih i a p ha hp (hwidened.tuple (List.mem_of_getElem? hp)) (hvalues i a v ha hv) hnot'
  | @enumElement ty elements e hview he hvalid hargument =>
    obtain ⟨c, hc, vs, rfl, -⟩ := hasType_signature hv (signature_of_element hview he hvalid)
    refine .head ty e.downgrade fun hname => hnot ?_
    rw [← hname]
    exact .enumElement
  | @enumPayload ty elements e payload p hview he hvalid hargument hform hsingle h ih =>
    have hc := signature_of_element hview he hvalid
    obtain ⟨c, hc', vs, rfl, hvs, hvalues⟩ := hasType_signature hv hc
    rcases h.enumPayload_arguments ty hform hsingle with ⟨spaces, heq, harguments⟩ | ⟨hcast, heq⟩
    · rw [heq]
      by_cases hname : e.name = c.head
      · obtain rfl := signature_unique hc hc' hname
        obtain ⟨v, hpayload, hvpayload⟩ := exists_isPayload (payload_eq hargument) hvs hvalues
        have hnot' : ¬ Matches tc tests p v := fun hm => hnot (.enumPayload hview he hargument hpayload hm)
        refine harguments.misses hc' (payload_eq hargument) hvs hpayload (ih hwidened.enumPayload hvpayload hnot') ?_ ?_
        · -- a tuple in parentheses would match all the values of its type
          rintro elements' p' hty - rfl
          rcases h.of_asTuple hty with ⟨ps, hp⟩ | ⟨boundName, hp⟩ | hp | htest
          · exact absurd (.tuple hp hvpayload fun hm => hnot' (.paren hm)) hwidened.self
          · refine absurd (matches_semantics.1 ?_) hnot'
            rw [hp]
            exact .named
          · refine absurd (matches_semantics.1 ?_) hnot'
            rw [hp]
            exact .any
          · exact htest
        · intro hempty hnil
          cases p with
          | paren p => exact hwidened.self (.emptyPayload hc' rfl hnil hempty)
          | tuple ty' ps => cases hempty
          | _ => cases hempty.symm.trans heq
      · exact .head ty false hname
    · rw [heq]
      by_contra hreached
      refine hwidened.self (.element hcast fun hempty => hreached ?_)
      rw [hempty]
      exact .empty
  | @optionalSome ty elements e payload p hview he hvalid hname hargument hsingle h ih =>
    have hc := signature_of_element hview he hvalid
    rw [hname] at hc
    obtain ⟨c, hc', vs, rfl, hvs, hvalues⟩ := hasType_signature hv hc
    obtain ⟨spaces, heq, harguments⟩ := h.optionalSome_arguments ty hsingle
    rw [heq]
    by_cases hhead : "some" = c.head
    · obtain rfl := signature_unique hc hc' hhead
      obtain ⟨v, hpayload, hvpayload⟩ := exists_isPayload (payload_eq hargument) hvs hvalues
      have hnot' : ¬ Matches tc tests p v := fun hm => hnot (.optionalSome hview he hname hargument hpayload hm)
      refine harguments.misses hc' (payload_eq hargument) hvs hpayload (ih hwidened.optionalSome hvpayload hnot')
        (fun _ _ _ hfalse => absurd trivial hfalse) fun hempty hnil => ?_
      exact hwidened.self (.emptySome hc' rfl hnil hempty)
    · exact .head ty false hhead

theorem Matches.of_enumElement {v : Value} (h : Matches tc tests (.enumElement ty name downgrade) v) :
    ∃ vs, v = .constructor name vs := by
  cases h with
  | enumElement => exact ⟨_, rfl⟩

theorem Matches.of_enumPayload {elements : List (EnumElementDecl Ty)} {e : EnumElementDecl Ty} {payload : Ty} {v : Value}
    (hview : tc.view ty = .enum elements) (he : e ∈ elements) (hname : e.name = name)
    (hargument : e.argumentType = some payload) (h : Matches tc tests (.enumPayload ty name downgrade p) v) :
    ∃ vs w, v = .constructor name vs ∧ tc.IsPayload payload vs w ∧ Matches tc tests p w := by
  cases h with
  | @enumPayload _ elements' e' payload' _ _ vs w hview' he' hargument' hw hmatches =>
    obtain rfl := TypeView.enum.inj (hview.symm.trans hview')
    obtain rfl : e = e' := List.inj_on_of_nodup_map (tc.nodup_names ty elements hview) he he' hname
    obtain rfl := Option.some.inj (hargument.symm.trans hargument')
    exact ⟨vs, w, rfl, hw, hmatches⟩

theorem Matches.of_optionalSome {elements : List (EnumElementDecl Ty)} {e : EnumElementDecl Ty} {payload : Ty} {v : Value}
    (hview : tc.view ty = .enum elements) (he : e ∈ elements) (hname : e.name = "some")
    (hargument : e.argumentType = some payload) (h : Matches tc tests (.optionalSome ty p) v) :
    ∃ vs w, v = .constructor "some" vs ∧ tc.IsPayload payload vs w ∧ Matches tc tests p w := by
  cases h with
  | @optionalSome _ elements' e' payload' _ vs w hview' he' hname' hargument' hw hmatches =>
    obtain rfl := TypeView.enum.inj (hview.symm.trans hview')
    obtain rfl : e = e' :=
      List.inj_on_of_nodup_map (tc.nodup_names ty elements hview) he he' (hname.trans hname'.symm)
    obtain rfl := Option.some.inj (hargument.symm.trans hargument')
    exact ⟨vs, w, rfl, hw, hmatches⟩

theorem WellTyped.not_misses (h : WellTyped tc ty p) (huseful : (projectPattern tc p).isUseful = true) {v : Value}
    (hmatches : Matches tc tests p v) : ¬ Misses tc ty (projectPattern tc p) v := by
  induction h generalizing v with
  | any => exact nofun
  | named boundName => exact nofun
  | bool hbool value =>
    intro hmisses
    cases hmatches with
    | bool =>
      cases hmisses with
      | booleanConstant hne => exact hne rfl
  | is coerces identity =>
    cases coerces with
    | false => cases huseful
    | true => exact nofun
  | expr identity => cases huseful
  | var h ih =>
    cases hmatches with
    | var hmatches => exact ih huseful hmatches
  | paren h ih =>
    cases hmatches with
    | paren hmatches => exact ih huseful hmatches
  | @tuple ty elements ps hty hps h ih =>
    unfold projectPattern at huseful ⊢
    rw [projectPatterns_eq] at huseful ⊢
    cases hmatches with
    | @tuple _ _ vs hlength hvalues =>
      intro hmisses
      obtain ⟨-, i, a, s, v, ha, hs, hv, hmisses⟩ :=
        (hmisses.arguments (signature_of_asTuple hty)).resolve_left (not_not_intro rfl)
      have huseful' := isUseful_of_mem huseful s (List.mem_of_getElem? hs)
      rw [List.getElem?_map] at hs
      obtain ⟨p, hp, rfl⟩ := Option.map_eq_some_iff.1 hs
      exact ih i a p ha hp huseful' (hvalues i p v hp hv) hmisses
  | @enumElement ty elements e hview he hvalid hargument =>
    obtain ⟨vs, rfl⟩ := hmatches.of_enumElement
    intro hmisses
    obtain ⟨-, i, a, s, v, -, hs, -⟩ :=
      (hmisses.arguments (signature_of_element hview he hvalid)).resolve_left (not_not_intro rfl)
    cases hs
  | @enumPayload ty elements e payload p hview he hvalid hargument hform hsingle h ih =>
    have hc := signature_of_element hview he hvalid
    rcases h.enumPayload_arguments ty hform hsingle with ⟨spaces, heq, harguments⟩ | ⟨hcast, heq⟩
    · rw [heq] at huseful ⊢
      obtain ⟨vs, v, rfl, hv, hmatches⟩ := hmatches.of_enumPayload hview he rfl hargument
      exact harguments.not_misses hc (payload_eq hargument) hv huseful fun huseful => ih huseful hmatches
    · rw [heq] at huseful ⊢
      rcases projectPattern_cast tc hcast with hempty | ⟨ty', htype⟩
      · rw [hempty] at huseful
        cases huseful
      · rw [htype]
        exact nofun
  | @optionalSome ty elements e payload p hview he hvalid hname hargument hsingle h ih =>
    have hc := signature_of_element hview he hvalid
    rw [hname] at hc
    obtain ⟨spaces, heq, harguments⟩ := h.optionalSome_arguments ty hsingle
    rw [heq] at huseful ⊢
    obtain ⟨vs, v, rfl, hv, hmatches⟩ := hmatches.of_optionalSome hview he hname hargument
    exact harguments.not_misses hc (payload_eq hargument) hv huseful fun huseful => ih huseful hmatches

theorem WellTyped.isUseful (h : WellTyped tc ty p) (htests : Everywhere (fun q => q.isTest = false) p) :
    (projectPattern tc p).isUseful = true := by
  induction h with
  | any => rfl
  | named boundName => rfl
  | bool hbool value => rfl
  | is coerces identity => exact Bool.noConfusion htests.self
  | expr identity => exact Bool.noConfusion htests.self
  | var h ih => exact ih htests.var
  | paren h ih => exact ih htests.paren
  | @tuple ty elements ps hty hps h ih =>
    unfold projectPattern
    rw [projectPatterns_eq]
    refine subspacesUseful_of_forall fun s hs => ?_
    obtain ⟨p, hp, rfl⟩ := List.mem_map.1 hs
    obtain ⟨i, hi⟩ := List.mem_iff_getElem?.1 hp
    obtain ⟨a, ha⟩ := exists_getElem?_of_length hps.symm hi
    exact ih i a p ha hi (htests.tuple hp)
  | enumElement => rfl
  | @enumPayload ty elements e payload p hview he hvalid hargument hform hsingle h ih =>
    rcases h.enumPayload_arguments ty hform hsingle with ⟨spaces, heq, harguments⟩ | ⟨hcast, heq⟩
    · rw [heq]
      exact harguments.isUseful (ih htests.enumPayload)
    · rw [heq]
      exact ih htests.enumPayload
  | @optionalSome ty elements e payload p hview he hvalid hname hargument hsingle h ih =>
    obtain ⟨spaces, heq, harguments⟩ := h.optionalSome_arguments ty hsingle
    rw [heq]
    exact harguments.isUseful (ih htests.optionalSome)

end Pattern

end SwiftKStdlib.SpaceEngine
