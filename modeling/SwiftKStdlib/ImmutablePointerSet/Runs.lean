import SwiftKStdlib.ImmutablePointerSet.Factory
import SwiftKStdlib.Lib.Runs

/-!
# Calls to one factory

* `Call`, `run` : a sequence of calls, each one on the results of the earlier ones;
* `meanings` : the same calls on sets of elements;
* `Tracks` : the invariant of a run; `Tracks.call` : what a call does to it;
* `run_gives` : a run of calls that all fit gives the sets, and any other fails;
* `Faithful`, `run_faithful_iff` : what this says about pointers, `count` and `hasEmptyIntersection`.
-/

namespace SwiftKStdlib.ImmutablePointerSet
open SwiftKStdlib.Lib

variable {α : Type}

/-- A call; a set is given by the call that it is the result of. -/
inductive Call (α : Type) where
  | get (Array : List α)
  | mergeArray (S1 : Nat) (S2 : List α)
  | mergeSet (S1 S2 : Nat)
  | merge (self Other : Nat)

namespace Call

/-- The arrays are sorted and without duplicates, and the sets are those of earlier calls. -/
def WellFormed [LinearOrder α] (n : Nat) : Call α → Prop
  | .get Array => Array.SortedLT
  | .mergeArray S1 S2 => S1 < n ∧ S2.SortedLT
  | .mergeSet S1 S2 => S1 < n ∧ S2 < n
  | .merge self Other => self < n ∧ Other < n

def IsMerge (i j : Nat) (c : Call α) : Prop := c = .mergeSet i j ∨ c = .merge i j

variable [LinearOrder α]

/-- The union of the arguments. -/
def meaning (sets : List (Finset α)) : Call α → Finset α
  | .get Array => Array.toFinset
  | .mergeArray S1 S2 => sets.getD S1 ∅ ∪ S2.toFinset
  | .mergeSet S1 S2 => sets.getD S1 ∅ ∪ sets.getD S2 ∅
  | .merge self Other => sets.getD self ∅ ∪ sets.getD Other ∅

/-- A union is of sets of which one is empty, or is there already, or has less than `2 ^ 29 - 4` elements. -/
def MergeFits (sets : List (Finset α)) (t u : Finset α) : Prop :=
  t = ∅ ∨ u = ∅ ∨ t ∪ u ∈ sets ∨ (t ∪ u).card < 2 ^ 29 - 4

/-- What a call must meet, given the results of the earlier ones. -/
def Fits (sets : List (Finset α)) : Call α → Prop
  | .get _ => True
  | .mergeArray S1 S2 => MergeFits sets (sets.getD S1 ∅) S2.toFinset ∧
      (S2 = [] ∨ ¬ Factory.Overruns (sets.getD S1 ∅) S2)
  | .mergeSet S1 S2 => MergeFits sets (sets.getD S1 ∅) (sets.getD S2 ∅)
  | .merge self Other => MergeFits sets (sets.getD self ∅) (sets.getD Other ∅)

end Call

variable [LinearOrder α]

def Factory.call (F : Factory α) (results : List SetPtr) : Call α → Option (Factory α × SetPtr)
  | .get Array => F.get Array
  | .mergeArray S1 S2 => do F.mergeArray (← results[S1]?) S2
  | .mergeSet S1 S2 => do F.mergeSet (← results[S1]?) (← results[S2]?)
  | .merge self Other => do F.merge (← results[self]?) (← results[Other]?)

def run (self : Nat) (calls : List (Call α)) : Option (Factory α × List SetPtr) :=
  calls.foldlM (fun s c => (s.1.call s.2 c).map fun r => (r.1, s.2 ++ [r.2])) (⟨self, []⟩, [])

def meanings (calls : List (Call α)) : List (Finset α) := calls.foldl (fun sets c => sets ++ [c.meaning sets]) []

def WellFormed (calls : List (Call α)) : Prop := ∀ (k : Nat) (c : Call α), calls[k]? = some c → c.WellFormed k

def AllFit (calls : List (Call α)) : Prop :=
  ∀ (k : Nat) (c : Call α), calls[k]? = some c → c.Fits (meanings (calls.take k))

/-- What the results are. -/
structure Faithful (calls : List (Call α)) (F : Factory α) (results : List SetPtr) : Prop where
  /-- They are ascending arrays of the elements of the union. -/
  holds : List.Forall₂ F.Holds results (meanings calls)
  same_iff : ∀ (i j : Nat) (p q : SetPtr), results[i]? = some p → results[j]? = some q →
    (p = q ↔ (meanings calls)[i]? = (meanings calls)[j]?)
  comm : ∀ (i j k k' : Nat) (c c' : Call α), c.IsMerge i j → c'.IsMerge j i → calls[k]? = some c →
    calls[k']? = some c' → results[k]? = results[k']?
  idem : ∀ (i k : Nat) (c : Call α), c.IsMerge i i → calls[k]? = some c → results[k]? = results[i]?
  assoc : ∀ (i j m k l k' l' : Nat) (c d c' d' : Call α), c.IsMerge i j → d.IsMerge k m → c'.IsMerge j m →
    d'.IsMerge i k' → calls[k]? = some c → calls[l]? = some d → calls[k']? = some c' → calls[l']? = some d' →
    results[l]? = results[l']?
  count : ∀ (i : Nat) (p : SetPtr) (s : PtrSet α) (t : Finset α), results[i]? = some p → F.load p = some s →
    (meanings calls)[i]? = some t → ∀ x, s.count x = if x ∈ t then 1 else 0
  hasEmptyIntersection : ∀ (i j : Nat) (p q : SetPtr) (s s' : PtrSet α) (t t' : Finset α), results[i]? = some p →
    results[j]? = some q → F.load p = some s → F.load q = some s' → (meanings calls)[i]? = some t →
    (meanings calls)[j]? = some t' → (s.hasEmptyIntersection s' = true ↔ Disjoint t t')

structure Tracks (F : Factory α) (results : List SetPtr) (sets : List (Finset α)) : Prop where
  valid : F.Valid
  holds : List.Forall₂ F.Holds results sets
  built : ∀ t, F.Built t → t = ∅ ∨ t ∈ sets

variable {F : Factory α} {results : List SetPtr} {sets : List (Finset α)} {calls : List (Call α)} {c : Call α}

namespace Tracks

theorem exists_holds (h : Tracks F results sets) {i : Nat} (hi : i < results.length) :
    ∃ p, results[i]? = some p ∧ F.Holds p (sets.getD i ∅) := by
  have hi' : i < sets.length := h.holds.length_eq ▸ hi
  refine ⟨results[i], List.getElem?_eq_getElem hi, ?_⟩
  rw [List.getD_eq_getElem?_getD, List.getElem?_eq_getElem hi', Option.getD_some]
  exact h.holds.get hi hi'

theorem fits_iff (h : Tracks F results sets) (t : Finset α) : F.Fits t ↔ t ∈ sets ∨ t.card < 2 ^ 29 - 4 := by
  constructor
  · intro hfits
    rcases hfits with hbuilt | hcard
    · rcases h.built t hbuilt with rfl | hmem
      · exact .inr (by simp)
      · exact .inl hmem
    · exact .inr hcard
  · intro hfits
    rcases hfits with hmem | hcard
    · obtain ⟨i, hi, rfl⟩ := List.getElem_of_mem hmem
      exact .inl ⟨_, h.holds.get (h.holds.length_eq ▸ hi) hi⟩
    · exact .inr hcard

theorem snoc (h : Tracks F results sets) {t : Finset α} {F' : Factory α} {p : SetPtr} (hi : F.Interns t F' p) :
    Tracks F' (results ++ [p]) (sets ++ [t]) := by
  refine ⟨hi.valid, ?_, ?_⟩
  · exact List.rel_append (h.holds.imp hi.keeps) (.cons hi.holds .nil)
  · intro u hu
    rw [List.mem_append, List.mem_singleton]
    rcases hi.built u hu with hu | hu
    · rcases h.built u hu with hu | hu
      · exact .inl hu
      · exact .inr (.inl hu)
    · exact .inr (.inr hu)

theorem mergeSetFits_iff (h : Tracks F results sets) (t u : Finset α) :
    Call.MergeFits sets t u ↔ F.MergeSetFits t u := by
  rw [Call.MergeFits, Factory.MergeSetFits, h.fits_iff]

theorem mergeArrayFits_iff (h : Tracks F results sets) (t : Finset α) (k : List α) :
    Call.MergeFits sets t k.toFinset ∧ (k = [] ∨ ¬ Factory.Overruns t k) ↔ F.MergeArrayFits t k := by
  rw [h.mergeSetFits_iff, Factory.MergeSetFits, Factory.MergeArrayFits, List.toFinset_eq_empty_iff]
  have hempty : t = ∅ → k = [] ∨ ¬ Factory.Overruns t k := by
    rintro rfl
    by_cases hk : k = []
    · exact .inl hk
    · refine .inr fun hover => hk ?_
      simpa using hover.1
  tauto

theorem call (h : Tracks F results sets) (hc : c.WellFormed results.length) :
    F.Gives (c.Fits sets) (c.meaning sets) (F.call results c) := by
  cases c with
  | get Array => exact .inl ⟨trivial, h.valid.get_spec hc⟩
  | mergeArray S1 S2 =>
      obtain ⟨p, hp, hholds⟩ := h.exists_holds hc.1
      simp only [Factory.call, hp, Option.bind_eq_bind, Option.bind_some]
      exact (h.valid.mergeArray_gives hholds hc.2).of_iff (h.mergeArrayFits_iff _ _)
  | mergeSet S1 S2 =>
      obtain ⟨p, hp, hholds⟩ := h.exists_holds hc.1
      obtain ⟨q, hq, hholds'⟩ := h.exists_holds hc.2
      simp only [Factory.call, hp, hq, Option.bind_eq_bind, Option.bind_some]
      exact (h.valid.mergeSet_gives hholds hholds').of_iff (h.mergeSetFits_iff _ _)
  | merge self Other =>
      obtain ⟨p, hp, hholds⟩ := h.exists_holds hc.1
      obtain ⟨q, hq, hholds'⟩ := h.exists_holds hc.2
      simp only [Factory.call, hp, hq, Option.bind_eq_bind, Option.bind_some, h.valid.merge_eq]
      exact (h.valid.mergeSet_gives hholds hholds').of_iff (h.mergeSetFits_iff _ _)

end Tracks

/-! ## Runs -/

theorem run_append_singleton (self : Nat) (calls : List (Call α)) (c : Call α) :
    run self (calls ++ [c]) = (run self calls).bind fun s => (s.1.call s.2 c).map fun r => (r.1, s.2 ++ [r.2]) :=
  foldlM_append_singleton _ _ _ _

theorem meanings_append_singleton (calls : List (Call α)) (c : Call α) :
    meanings (calls ++ [c]) = meanings calls ++ [c.meaning (meanings calls)] := by
  simp [meanings]

theorem length_meanings (calls : List (Call α)) : (meanings calls).length = calls.length := by
  induction calls using List.reverseRecOn with
  | nil => rfl
  | append_singleton calls c ih => simp [meanings_append_singleton, ih]

theorem wellFormed_append_singleton_iff : WellFormed (calls ++ [c]) ↔ WellFormed calls ∧ c.WellFormed calls.length :=
  forall_getElem?_append_singleton_iff (P := fun k (d : Call α) => d.WellFormed k)

theorem allFit_append_singleton_iff : AllFit (calls ++ [c]) ↔ AllFit calls ∧ c.Fits (meanings calls) :=
  forall_take_append_singleton_iff (P := fun before (d : Call α) => d.Fits (meanings before))

theorem run_gives (self : Nat) (calls : List (Call α)) (h : WellFormed calls) :
    (AllFit calls ∧ ∃ F results, run self calls = some (F, results) ∧ Tracks F results (meanings calls)) ∨
    (¬ AllFit calls ∧ run self calls = none) := by
  induction calls using List.reverseRecOn with
  | nil =>
      refine .inl ⟨?_, ⟨self, []⟩, [], rfl, ⟨Factory.Valid.empty self, .nil, ?_⟩⟩
      · intro k c hc
        simp at hc
      · intro t ht
        obtain ⟨p, s, hs, -, rfl⟩ := ht
        cases p with
        | emptyPtrSet =>
            obtain rfl := Option.some.inj hs
            exact .inl rfl
        | node i => simp [Factory.load] at hs
  | append_singleton calls c ih =>
      rw [wellFormed_append_singleton_iff] at h
      rw [run_append_singleton, meanings_append_singleton, allFit_append_singleton_iff]
      rcases ih h.1 with ⟨hfit, F, results, hrun, htracks⟩ | ⟨hnot, hrun⟩
      · have hlen : calls.length = results.length := by rw [htracks.holds.length_eq, length_meanings]
        rw [hrun, Option.bind_some]
        rcases htracks.call (hlen ▸ h.2) with ⟨hc, F', p, hcall, hinterns⟩ | ⟨hc, hcall⟩
        · refine .inl ⟨⟨hfit, hc⟩, F', results ++ [p], ?_, htracks.snoc hinterns⟩
          rw [hcall, Option.map_some]
        · refine .inr ⟨fun hall => hc hall.2, ?_⟩
          rw [hcall, Option.map_none]
      · refine .inr ⟨fun hall => hnot hall.1, ?_⟩
        rw [hrun, Option.bind_none]

/-! ## What the results are -/

theorem Call.WellFormed.mono {n m : Nat} (h : c.WellFormed n) (hnm : n ≤ m) : c.WellFormed m := by
  cases c with
  | get Array => exact h
  | mergeArray S1 S2 => exact ⟨h.1.trans_le hnm, h.2⟩
  | mergeSet S1 S2 => exact ⟨h.1.trans_le hnm, h.2.trans_le hnm⟩
  | merge self Other => exact ⟨h.1.trans_le hnm, h.2.trans_le hnm⟩

theorem Call.WellFormed.meaning_append (h : c.WellFormed sets.length) (t : Finset α) :
    c.meaning (sets ++ [t]) = c.meaning sets := by
  have hgetD : ∀ i < sets.length, (sets ++ [t])[i]?.getD ∅ = sets[i]?.getD ∅ := by
    intro i hi
    rw [List.getElem?_append_left hi]
  cases c with
  | get Array => rfl
  | mergeArray S1 S2 => simp only [Call.meaning, List.getD_eq_getElem?_getD, hgetD S1 h.1]
  | mergeSet S1 S2 => simp only [Call.meaning, List.getD_eq_getElem?_getD, hgetD S1 h.1, hgetD S2 h.2]
  | merge self Other => simp only [Call.meaning, List.getD_eq_getElem?_getD, hgetD self h.1, hgetD Other h.2]

theorem getElem?_meanings (h : WellFormed calls) {k : Nat} (hk : calls[k]? = some c) :
    (meanings calls)[k]? = some (c.meaning (meanings calls)) := by
  induction calls using List.reverseRecOn with
  | nil => simp at hk
  | append_singleton calls d ih =>
      rw [wellFormed_append_singleton_iff] at h
      rw [meanings_append_singleton]
      rcases lt_or_ge k calls.length with hlt | hge
      · rw [List.getElem?_append_left hlt] at hk
        have hwf : c.WellFormed (meanings calls).length := by
          rw [length_meanings]
          exact (h.1 k c hk).mono hlt.le
        rw [List.getElem?_append_left (by rwa [length_meanings]), ih h.1 hk, hwf.meaning_append]
      · rw [List.getElem?_append_right hge, List.getElem?_singleton] at hk
        split_ifs at hk with hzero
        obtain rfl := Option.some.inj hk
        have hwf : d.WellFormed (meanings calls).length := by
          rw [length_meanings]
          exact h.2
        rw [List.getElem?_append_right (by rwa [length_meanings]), length_meanings, hzero, hwf.meaning_append]
        rfl

theorem Call.IsMerge.meaning_eq {i j : Nat} (h : c.IsMerge i j) :
    c.meaning sets = sets.getD i ∅ ∪ sets.getD j ∅ := by
  rcases h with rfl | rfl
  · rfl
  · rfl

theorem Call.IsMerge.lt {i j n : Nat} (h : c.IsMerge i j) (hc : c.WellFormed n) : i < n ∧ j < n := by
  rcases h with rfl | rfl
  · exact hc
  · exact hc

namespace Tracks

variable {i j k l : Nat} {p q : SetPtr} {s s' : PtrSet α} {t t' : Finset α}

theorem holds_of_getElem? (h : Tracks F results sets) (hp : results[i]? = some p) :
    ∃ t, sets[i]? = some t ∧ F.Holds p t := by
  obtain ⟨hi, rfl⟩ := List.getElem?_eq_some_iff.1 hp
  have hi' : i < sets.length := h.holds.length_eq ▸ hi
  exact ⟨sets[i], List.getElem?_eq_getElem hi', h.holds.get hi hi'⟩

theorem getElem?_eq_iff (h : Tracks F results sets) (hi : i < results.length) (hj : j < results.length) :
    results[i]? = results[j]? ↔ sets.getD i ∅ = sets.getD j ∅ := by
  obtain ⟨p, hp, hholds⟩ := h.exists_holds hi
  obtain ⟨q, hq, hholds'⟩ := h.exists_holds hj
  rw [hp, hq, Option.some.injEq, h.valid.eq_iff hholds hholds']

theorem load_spec (h : Tracks F results sets) (hp : results[i]? = some p) (hs : F.load p = some s)
    (ht : sets[i]? = some t) : s.Data.SortedLT ∧ s.Data.toFinset = t := by
  obtain ⟨t', ht', s', hs', hsorted, hdata⟩ := h.holds_of_getElem? hp
  obtain rfl := Option.some.inj (hs.symm.trans hs')
  obtain rfl := Option.some.inj (ht.symm.trans ht')
  exact ⟨hsorted, hdata⟩

theorem faithful (h : Tracks F results (meanings calls)) (hwf : WellFormed calls) : Faithful calls F results := by
  have hlen : results.length = calls.length := by rw [h.holds.length_eq, length_meanings]
  have hlt : ∀ {k c}, calls[k]? = some c → k < results.length := by
    intro k c hc
    obtain ⟨hlt, -⟩ := List.getElem?_eq_some_iff.1 hc
    rwa [hlen]
  have hmerge : ∀ {k i j c}, calls[k]? = some c → c.IsMerge i j →
      (meanings calls).getD k ∅ = (meanings calls).getD i ∅ ∪ (meanings calls).getD j ∅ := by
    intro k i j c hc hm
    rw [List.getD_eq_getElem?_getD, getElem?_meanings hwf hc, Option.getD_some, hm.meaning_eq]
  refine ⟨h.holds, ?_, ?_, ?_, ?_, ?_, ?_⟩
  · intro i j p q hp hq
    obtain ⟨t, ht, hholds⟩ := h.holds_of_getElem? hp
    obtain ⟨u, hu, hholds'⟩ := h.holds_of_getElem? hq
    rw [ht, hu, Option.some.injEq, h.valid.eq_iff hholds hholds']
  · intro i j k k' c c' hm hm' hc hc'
    rw [h.getElem?_eq_iff (hlt hc) (hlt hc'), hmerge hc hm, hmerge hc' hm', Finset.union_comm]
  · intro i k c hm hc
    have hi : i < results.length := (hm.lt (hwf k c hc)).1.trans (hlt hc)
    rw [h.getElem?_eq_iff (hlt hc) hi, hmerge hc hm, Finset.union_self]
  · intro i j m k l k' l' c d c' d' hm hmd hm' hmd' hc hd hc' hd'
    rw [h.getElem?_eq_iff (hlt hd) (hlt hd'), hmerge hd hmd, hmerge hc hm, hmerge hd' hmd', hmerge hc' hm',
      Finset.union_assoc]
  · intro i p s t hp hs ht x
    obtain ⟨hsorted, rfl⟩ := h.load_spec hp hs ht
    rw [s.count_eq hsorted]
    simp only [List.mem_toFinset]
  · intro i j p q s s' t t' hp hq hs hs' ht ht'
    obtain ⟨hsorted, rfl⟩ := h.load_spec hp hs ht
    obtain ⟨hsorted', rfl⟩ := h.load_spec hq hs' ht'
    exact PtrSet.hasEmptyIntersection_iff hsorted hsorted'

end Tracks

/-- The calls give the sets, each by a pointer of its own, if and only if they all fit. -/
theorem run_faithful_iff (self : Nat) (calls : List (Call α)) (h : WellFormed calls) :
    (∃ F results, run self calls = some (F, results) ∧ Faithful calls F results) ↔ AllFit calls := by
  rcases run_gives self calls h with ⟨hfit, F, results, hrun, htracks⟩ | ⟨hnot, hrun⟩
  · exact iff_of_true ⟨F, results, hrun, htracks.faithful h⟩ hfit
  · refine iff_of_false ?_ hnot
    rintro ⟨F, results, hrun', -⟩
    rw [hrun] at hrun'
    cases hrun'

theorem run_faithful_iff_oneThree :
    WellFormed [Call.get [1, 3], .get [2], .mergeSet 0 1, .mergeArray 1 [1, 3]] ∧
      AllFit [Call.get [1, 3], .get [2], .mergeSet 0 1, .mergeArray 1 [1, 3]] ∧
      ∃ F results, run 0 [Call.get [1, 3], .get [2], .mergeSet 0 1, .mergeArray 1 [1, 3]] = some (F, results) ∧
        Faithful [Call.get [1, 3], .get [2], .mergeSet 0 1, .mergeArray 1 [1, 3]] F results := by
  have hwf : WellFormed [Call.get [1, 3], .get [2], .mergeSet 0 1, .mergeArray 1 [1, 3]] := by
    intro k c hc
    match k with
    | 0 =>
        cases hc
        exact (isSortedAndUniqued_iff [1, 3]).1 rfl
    | 1 =>
        cases hc
        exact (isSortedAndUniqued_iff [2]).1 rfl
    | 2 =>
        cases hc
        exact ⟨by decide, by decide⟩
    | 3 =>
        cases hc
        exact ⟨by decide, (isSortedAndUniqued_iff [1, 3]).1 rfl⟩
    | _ + 4 => simp at hc
  have hfit : AllFit [Call.get [1, 3], .get [2], .mergeSet 0 1, .mergeArray 1 [1, 3]] := by
    intro k c hc
    match k with
    | 0 =>
        cases hc
        trivial
    | 1 =>
        cases hc
        trivial
    | 2 =>
        cases hc
        exact .inr (.inr (.inr (by decide)))
    | 3 =>
        cases hc
        exact ⟨.inr (.inr (.inl (by decide))), .inr fun hover => absurd hover.2.2 (by decide)⟩
    | _ + 4 => simp at hc
  exact ⟨hwf, hfit, (run_faithful_iff 0 _ hwf).2 hfit⟩

theorem not_allFit_of_disjoint {l k : List α} (hdisj : Disjoint l.toFinset k.toFinset) (hl : l ≠ []) (hk : k ≠ [])
    (hcard : 2 ^ 29 - 4 ≤ (l.toFinset ∪ k.toFinset).card) : ¬ AllFit [.get l, .get k, .mergeSet 0 1] := by
  intro h
  have hlne : l.toFinset ≠ ∅ := fun he => hl (List.toFinset_eq_empty_iff l |>.1 he)
  have hkne : k.toFinset ≠ ∅ := fun he => hk (List.toFinset_eq_empty_iff k |>.1 he)
  have hfits : Call.MergeFits [l.toFinset, k.toFinset] l.toFinset k.toFinset := h 2 _ rfl
  rcases hfits with he | he | hmem | hlt
  · exact hlne he
  · exact hkne he
  · rw [List.mem_cons, List.mem_singleton] at hmem
    rcases hmem with he | he
    · exact hkne (hdisj.eq_bot_of_ge (Finset.union_eq_left.1 he))
    · exact hlne (hdisj.eq_bot_of_le (Finset.union_eq_right.1 he))
  · exact absurd hlt (not_lt.2 hcard)

theorem sortedLT_map_range (n : Nat) : ((List.range n).map (2 * ·)).SortedLT ∧
    ((List.range n).map (2 * · + 1)).SortedLT := by
  simp only [List.sortedLT_iff_pairwise, List.pairwise_map]
  refine ⟨?_, ?_⟩
  · exact List.pairwise_lt_range.imp fun h => by omega
  · exact List.pairwise_lt_range.imp fun h => by omega

/-- The merge of the `n` even and the `n` odd numbers from zero on. -/
def evensAndOdds (n : Nat) : List (Call Nat) :=
  [.get ((List.range n).map (2 * ·)), .get ((List.range n).map (2 * · + 1)), .mergeSet 0 1]

theorem wellFormed_evensAndOdds (n : Nat) : WellFormed (evensAndOdds n) := by
  obtain ⟨hevens, hodds⟩ := sortedLT_map_range n
  intro k c hc
  match k with
  | 0 =>
      cases hc
      exact hevens
  | 1 =>
      cases hc
      exact hodds
  | 2 =>
      cases hc
      exact ⟨by decide, by decide⟩
  | _ + 3 => simp [evensAndOdds] at hc

theorem run_evensAndOdds (self : Nat) {n : Nat} (hn : 2 ^ 29 - 4 ≤ n + n) : run self (evensAndOdds n) = none := by
  obtain ⟨hevens, hodds⟩ := sortedLT_map_range n
  have hdisj : Disjoint ((List.range n).map (2 * ·)).toFinset ((List.range n).map (2 * · + 1)).toFinset := by
    rw [Finset.disjoint_left]
    intro x hx hx'
    obtain ⟨i, -, hi⟩ := List.mem_map.1 (List.mem_toFinset.1 hx)
    obtain ⟨j, -, hj⟩ := List.mem_map.1 (List.mem_toFinset.1 hx')
    omega
  have hcard : (((List.range n).map (2 * ·)).toFinset ∪ ((List.range n).map (2 * · + 1)).toFinset).card = n + n := by
    rw [Finset.card_union_of_disjoint hdisj, List.toFinset_card_of_nodup hevens.nodup,
      List.toFinset_card_of_nodup hodds.nodup, List.length_map, List.length_map, List.length_range]
  have hne : List.range n ≠ [] := by
    rw [Ne, List.range_eq_nil]
    omega
  rcases run_gives self _ (wellFormed_evensAndOdds n) with ⟨hfit, -⟩ | ⟨-, hrun⟩
  · refine absurd hfit (not_allFit_of_disjoint hdisj ?_ ?_ (hcard ▸ hn))
    · rwa [Ne, List.map_eq_nil_iff]
    · rwa [Ne, List.map_eq_nil_iff]
  · exact hrun

/-- A union of `2 ^ 29` elements. -/
theorem not_faithful_evensAndOdds : WellFormed (evensAndOdds (2 ^ 28)) ∧
    ¬ ∃ F results, run 0 (evensAndOdds (2 ^ 28)) = some (F, results) ∧
      Faithful (evensAndOdds (2 ^ 28)) F results := by
  refine ⟨wellFormed_evensAndOdds _, ?_⟩
  rintro ⟨F, results, hrun, -⟩
  rw [run_evensAndOdds 0 (by decide)] at hrun
  cases hrun

end SwiftKStdlib.ImmutablePointerSet
