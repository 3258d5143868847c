import Mathlib
import SwiftKStdlib.SpaceEngine.Flattening
import SwiftKStdlib.SpaceEngine.Redundancy

/-!
# The values that are not handled

* `Typed.contains_simplify` : simplifying keeps the values;
* `DiagnosesUnmatched` : the uncovered space, and the cases that are emitted for it, have the unmatched values;
* `diagnoses_unmatched` : so it is for patterns without tests, from the projection to the emitted cases.
-/

namespace SwiftKStdlib.SpaceEngine

open Space Pattern SwiftKStdlib.Lib

variable {Ty : Type} {tc : TypeContext Ty} {tests : Nat → Value → Prop} [DecidableEq Ty] {ty : Ty}
  {patterns : List (Pattern Ty)}

omit [DecidableEq Ty] in
theorem Space.Typed.contains_simplify {s : Space Ty} (hs : Typed tc ty s) {v : Value} :
    Contains tc ty (Space.simplify tc s) v ↔ Contains tc ty s v := by
  induction hs generalizing v with
  | empty => exact Iff.rfl
  | booleanConstant hbool value => exact Iff.rfl
  | @type ty name =>
    unfold Space.simplify
    split_ifs with hnone
    · obtain ⟨hty, hnil⟩ := Bool.and_eq_true_iff.1 hnone
      refine iff_of_false (by rintro ⟨⟩) fun hv => ?_
      obtain ⟨s, hs, -⟩ := contains_decompose hty hv.hasType
      rw [List.isEmpty_iff.1 hnil] at hs
      exact absurd hs List.not_mem_nil
    · exact Iff.rfl
  | @disjunct ty spaces hall ih =>
    rw [simplify_disjunct, contains_examineDecomp, contains_disjunct]
    refine ⟨?_, ?_⟩
    · rintro ⟨s, hs, hv⟩
      obtain ⟨s', hs', rfl⟩ := List.mem_map.1 (List.mem_of_mem_filter hs)
      exact ⟨s', hs', (ih s' hs').1 hv⟩
    · rintro ⟨s, hs, hv⟩
      have hv' := (ih s hs).2 hv
      exact ⟨_, List.mem_filter.2 ⟨List.mem_map_of_mem hs, by rw [hv'.not_empty]; rfl⟩, hv'⟩
  | @constructor ty c spaces ty' downgrade hc hspaces harguments ih =>
    by_cases hempty : (Space.simplify tc (.constructor ty' c.head downgrade spaces)).isEmpty = true
    · refine iff_of_false (fun hv => ?_) fun hv => hv.content hempty
      exact absurd hv.not_empty (by rw [hempty]; exact Bool.noConfusion)
    · have hsimplify : Space.simplify tc (.constructor ty' c.head downgrade spaces) =
          .constructor ty' c.head downgrade (spaces.map (Space.simplify tc)) := by
        revert hempty
        unfold Space.simplify
        rw [simplifyAll_eq]
        dsimp only
        split_ifs
        · exact fun h => absurd rfl h
        · exact fun _ => rfl
      have hlength : (spaces.map (Space.simplify tc)).length = c.arguments.length := by rw [List.length_map, hspaces]
      rw [hsimplify]
      refine ⟨fun hv => ?_, fun hv => ?_⟩ <;> obtain ⟨vs, hvs, rfl, hvalues⟩ := hv.of_constructor hc
      · refine .constructor ty' downgrade hc hspaces hvs fun i a s v ha hs hv => ?_
        exact (ih i a s ha hs).1 (hvalues i a _ v ha (by rw [List.getElem?_map, hs]; rfl) hv)
      · refine .constructor ty' downgrade hc hlength hvs fun i a s v ha hs hv => ?_
        rw [List.getElem?_map] at hs
        obtain ⟨s', hs', rfl⟩ := Option.map_eq_some_iff.1 hs
        exact (ih i a s' ha hs').2 (hvalues i a s' v ha hs' hv)

/-- No pattern matches the value. -/
def Unmatched (tc : TypeContext Ty) (tests : Nat → Value → Prop) (ty : Ty) (patterns : List (Pattern Ty)) (v : Value) :
    Prop := v.HasType tc ty ∧ ∀ p ∈ patterns, ¬ Matches tc tests p v

/-- What is uncovered has the unmatched values, and so have the cases that are emitted, unless a `default` is asked for. -/
def DiagnosesUnmatched (tc : TypeContext Ty) (tests : Nat → Value → Prop) (ty : Ty) (patterns : List (Pattern Ty)) : Prop :=
  ∃ r, Settles (fun n => uncovered tc n ty patterns) r ∧
    (∀ v, Contains tc ty r v ↔ Unmatched tc tests ty patterns v) ∧
    ∀ spaces, ¬ r.isEmpty = true → uncoveredSpaces tc r = some spaces →
      ∃ cases, Settles (fun n => diagnoseMissingCases tc n spaces) cases ∧ cases ≠ [] ∧
        ∀ v, (∃ c ∈ cases, Contains tc ty c v) ↔ Unmatched tc tests ty patterns v

/-- The values that a `switch` does not handle are those of the cases that it is told to add. -/
theorem diagnoses_unmatched (hvalidated : Validated tc) (htyped : ∀ p ∈ patterns, WellTyped tc ty p)
    (htests : ∀ p ∈ patterns, ∀ q ∈ p.subPatterns, q.isTest = false)
    (htuples : ∀ p ∈ patterns, ∀ q ∈ p.subPatterns, ¬ HidesTuple tc q)
    (hwidened : ∀ p ∈ patterns, ∀ q ∈ p.subPatterns, ¬ Widened tc tests q) :
    DiagnosesUnmatched tc tests ty patterns := by
  have hprojected : ∀ s ∈ patterns.map (projectPattern tc), Typed tc ty s := by
    intro s hs
    obtain ⟨p, hp, rfl⟩ := List.mem_map.1 hs
    refine Projected.typed ((htyped p hp).projected fun q hq => ⟨fun ty' name downgrade p' heq hcast => ?_,
      fun _ => htests p hp q hq, fun _ => htuples p hp q hq⟩)
    obtain ⟨ty'', coerces, identity, his, -⟩ := exists_test_of_cast tc hcast
    subst heq
    have hmem : .is ty'' coerces identity ∈ p.subPatterns := subPatterns_trans hq (List.mem_cons_of_mem _ his)
    cases htests p hp _ hmem
  obtain ⟨r, hr, hremains⟩ := minus_settles (show Typed tc ty (.type ty "") from .type "") (.disjunct hprojected)
  obtain ⟨n, hn⟩ := hr.result
  have hexact : ∀ v, Contains tc ty (simplify tc r) v ↔ Unmatched tc tests ty patterns v := by
    refine fun v => hremains.typed.contains_simplify.trans ⟨fun hv => ⟨hv.hasType, fun p hp hm => ?_⟩, fun hv => ?_⟩
    · -- a value that the projection misses is not matched
      refine (htyped p hp).not_misses ((htyped p hp).isUseful (htests p hp)) hm ?_
      refine (hprojected _ (List.mem_map_of_mem hp)).misses hv.hasType fun hcontains => ?_
      exact hremains.right v hv (contains_disjunct.2 ⟨_, List.mem_map_of_mem hp, hcontains⟩)
    · refine minus_contains n (.type "" hv.1) (.disjunct fun s hs => ?_) hn
      obtain ⟨p, hp, rfl⟩ := List.mem_map.1 hs
      exact (htyped p hp).misses (hwidened p hp) hv.1 (hv.2 p hp)
  refine ⟨simplify tc r, hr.map (simplify tc), hexact, fun spaces hcontent hspaces => ?_⟩
  obtain ⟨hall, hvalues, s, hs, flat, hflat, hsolid⟩ := uncoveredSpaces_spec hvalidated hremains.typed hcontent hspaces
  obtain ⟨emitted, handled, hemitted, hemits, hmem⟩ := diagnoseMissingCases_settles hall
  refine ⟨emitted, hemitted, hemits.solid ⟨flat, (hmem flat).2 ⟨s, hs, hflat⟩, hsolid⟩, fun v => ?_⟩
  rw [← hexact, hvalues]
  refine ⟨?_, ?_⟩
  · rintro ⟨c, hc, hv⟩
    obtain ⟨s', hs', hflat⟩ := (hmem c).1 (hemits.mem c hc)
    exact ⟨s', hs', (((hall s' hs').1.flatOf (hall s' hs').2).2 v).2 ⟨c, hflat, hv⟩⟩
  · rintro ⟨s', hs', hv⟩
    obtain ⟨flat, hflat, hv⟩ := (((hall s' hs').1.flatOf (hall s' hs').2).2 v).1 hv
    exact hemits.covers flat ((hmem flat).2 ⟨s', hs', hflat⟩) v hv

/-- `case nil` alone, of a `(Bool, Bool)?`. -/
theorem diagnoses_unmatched_nil :
    DiagnosesUnmatched pairContext (fun _ _ => False) .optional [.enumElement .optional "none" false] := by
  have hpatterns : ∀ p ∈ [Pattern.enumElement PairType.optional "none" false], ∀ q ∈ p.subPatterns,
      q = .enumElement .optional "none" false := fun p hp q hq => by
    rw [List.mem_singleton.1 hp] at hq
    exact List.mem_singleton.1 hq
  refine diagnoses_unmatched ?_ (fun p hp => List.mem_singleton.1 hp ▸ wellTyped_none) (fun p hp q hq => ?_)
    (fun p hp q hq => ?_) fun p hp q hq => ?_
  · intro ty _
    cases ty <;> exact ⟨_, List.mem_cons_self, rfl⟩
  · rw [hpatterns p hp q hq]
    rfl
  · rw [hpatterns p hp q hq]
    rintro ⟨⟩
  · rw [hpatterns p hp q hq]
    rintro ⟨⟩

end SwiftKStdlib.SpaceEngine
