import SwiftKStdlib.Lib.Fuel
import SwiftKStdlib.SpaceEngine.Values

/-!
# No value is lost

* `isSubspace_misses` : a space with a value that the other misses is not a subspace;
* `intersect_content` : a shared value keeps an intersection from being simplified away;
* `minus_contains` : a value that the subtrahend misses stays in the difference.

The spaces need not fit the type: a pattern may be projected to a space of another shape.
-/

namespace SwiftKStdlib.SpaceEngine.Space

open SwiftKStdlib.Lib

variable {Ty : Type} {tc : TypeContext Ty}

theorem Contains.not_empty {ty : Ty} {s : Space Ty} {v : Value} (h : Contains tc ty s v) : s.isEmpty = false := by
  cases h <;> rfl

theorem canDecompose_of_isBool {ty : Ty} (hbool : tc.isBool ty = true) : tc.canDecompose ty = true := by
  unfold TypeContext.isBool at hbool
  unfold TypeContext.canDecompose
  cases hview : tc.view ty with
  | other =>
    rw [hview] at hbool
    cases hbool
  | _ => rfl

theorem canDecompose_of_signature {ty : Ty} {c : Signature Ty} (hc : c ∈ tc.signatures ty) :
    tc.canDecompose ty = true := by
  unfold TypeContext.signatures at hc
  unfold TypeContext.canDecompose
  cases hview : tc.view ty with
  | other =>
    rw [hview] at hc
    exact absurd hc List.not_mem_nil
  | _ => rfl

theorem Contains.arguments {ty ty' : Ty} {c : Signature Ty} {head : String} {downgrade : Bool}
    {spaces : List (Space Ty)} {vs : List Value} (hc : c ∈ tc.signatures ty)
    (h : Contains tc ty (.constructor ty' head downgrade spaces) (.constructor c.head vs)) :
    head = c.head ∧ spaces.length = c.arguments.length ∧ vs.length = c.arguments.length ∧
      ∀ (i : Nat) a s v, c.arguments[i]? = some a → spaces[i]? = some s → vs[i]? = some v →
        Contains tc a.type s v := by
  generalize hhead : c.head = head' at h
  cases h with
  | @constructor _ c' _ _ _ _ hc' hspaces hvs harguments =>
    obtain rfl := signature_unique hc hc' hhead
    exact ⟨hhead.symm, hspaces, hvs, harguments⟩

theorem Contains.of_constructor {ty ty' : Ty} {c : Signature Ty} {downgrade : Bool} {spaces : List (Space Ty)}
    {v : Value} (hc : c ∈ tc.signatures ty) (h : Contains tc ty (.constructor ty' c.head downgrade spaces) v) :
    ∃ vs, vs.length = c.arguments.length ∧ v = .constructor c.head vs ∧
      ∀ (i : Nat) a s v, c.arguments[i]? = some a → spaces[i]? = some s → vs[i]? = some v →
        Contains tc a.type s v := by
  generalize hhead : c.head = head at h ⊢
  cases h with
  | @constructor _ c' _ vs _ _ hc' hspaces hvs harguments =>
    obtain rfl := signature_unique hc hc' hhead
    exact ⟨vs, hvs, rfl, harguments⟩

theorem Misses.arguments {ty ty' : Ty} {c : Signature Ty} {head : String} {downgrade : Bool}
    {spaces : List (Space Ty)} {vs : List Value} (hc : c ∈ tc.signatures ty)
    (h : Misses tc ty (.constructor ty' head downgrade spaces) (.constructor c.head vs)) :
    head ≠ c.head ∨ head = c.head ∧ ∃ (i : Nat) (a : TupleTypeElt Ty) (s : Space Ty) (v : Value),
      c.arguments[i]? = some a ∧ spaces[i]? = some s ∧ vs[i]? = some v ∧ Misses tc a.type s v := by
  generalize hhead : c.head = head' at h ⊢
  cases h with
  | head _ _ hne => exact .inl hne
  | @argument _ c' _ _ s v i a _ _ hc' ha hs hv hmisses =>
    obtain rfl := signature_unique hc hc' hhead
    exact .inr ⟨rfl, i, a, s, v, ha, hs, hv, hmisses⟩

theorem Misses.of_disjunct {ty : Ty} {spaces : List (Space Ty)} {v : Value} (h : Misses tc ty (.disjunct spaces) v) :
    ∀ s ∈ spaces, Misses tc ty s v := by
  cases h with
  | disjunct hall => exact hall

/-! ## Indices -/

section Indices

variable {α β : Type} {l : List α} {l' : List β}

theorem getElem?_zip {i : Nat} {a : α} {b : β} (ha : l[i]? = some a) (hb : l'[i]? = some b) :
    (l.zip l')[i]? = some (a, b) :=
  List.getElem?_zip_eq_some.2 ⟨ha, hb⟩

theorem exists_getElem?_of_mem_zip {p : α × β} (hp : p ∈ l.zip l') :
    ∃ i : Nat, l[i]? = some p.1 ∧ l'[i]? = some p.2 := by
  obtain ⟨i, hi⟩ := List.mem_iff_getElem?.1 hp
  exact ⟨i, List.getElem?_zip_eq_some.1 hi⟩

theorem exists_getElem?_of_length (hlength : l.length = l'.length) {i : Nat} {b : β} (hb : l'[i]? = some b) :
    ∃ a, l[i]? = some a := by
  have hi : i < l.length := hlength ▸ (List.getElem?_eq_some_iff.1 hb).1
  exact ⟨l[i], List.getElem?_eq_getElem hi⟩

theorem not_isEmpty_of_getElem? {i : Nat} {a : α} (h : l[i]? = some a) :
    ¬ l.isEmpty = true := by
  intro hnil
  rw [List.isEmpty_iff.1 hnil] at h
  cases h

end Indices

/-! ## Contents -/

theorem not_isEmpty_of_content {s : Space Ty} (h : ¬ (simplify tc s).isEmpty = true) : (!s.isEmpty) = true := by
  cases s with
  | empty => exact absurd rfl h
  | _ => rfl

theorem content_filter {spaces : List (Space Ty)} :
    ¬ (simplify tc (examineDecomp (spaces.filter (!·.isEmpty)))).isEmpty = true ↔
      ∃ s ∈ spaces, ¬ (simplify tc s).isEmpty = true := by
  rw [simplify_examineDecomp_isEmpty]
  constructor
  · intro h
    obtain ⟨s, hs, hcontent⟩ := not_forall₂.1 h
    exact ⟨s, List.mem_of_mem_filter hs, hcontent⟩
  · rintro ⟨s, hs, hcontent⟩ hempty
    exact hcontent (hempty s (List.mem_filter.2 ⟨hs, not_isEmpty_of_content hcontent⟩))

/-- When no pair has an empty intersection, the loop ends with all of them. -/
theorem intersectParams_content {f : Space Ty → Space Ty → Option (Space Ty)} {l : List (Space Ty × Space Ty)}
    {o : Option (List (Space Ty))} (h : intersectParams tc f l = some o)
    (hl : ∀ p ∈ l, ∀ r, f p.1 p.2 = some r → ¬ (simplify tc r).isEmpty = true) :
    ∃ paramSpace, o = some paramSpace ∧ paramSpace.length = l.length ∧
      ∀ r ∈ paramSpace, ¬ (simplify tc r).isEmpty = true := by
  induction l generalizing o with
  | nil =>
    obtain rfl : some [] = o := Option.some.inj h
    exact ⟨[], rfl, rfl, fun r hr => absurd hr List.not_mem_nil⟩
  | cons p rest ih =>
    obtain ⟨r, hr, h⟩ := Option.bind_eq_some_iff.1 h
    have hcontent := hl p List.mem_cons_self r hr
    rw [if_neg hcontent] at h
    obtain ⟨o', ho', heq⟩ := Option.bind_eq_some_iff.1 h
    obtain ⟨paramSpace, rfl, hlength, hall⟩ := ih ho' fun p hp => hl p (List.mem_cons_of_mem _ hp)
    obtain rfl := Option.some.inj heq
    refine ⟨r :: paramSpace, rfl, congrArg Nat.succ hlength, fun r' hr' => ?_⟩
    rcases List.mem_cons.1 hr' with rfl | hr'
    · exact hcontent
    · exact hall r' hr'
theorem minusParams_misses {intersect minus : Space Ty → Space Ty → Option (Space Ty)}
    {isSubspace : Space Ty → Space Ty → Option Bool} {constr : List (Space Ty) → Space Ty}
    {params : List (Space Ty)} {idx : Nat} {l : List (Space Ty × Space Ty)} {constrSpaces : List (Space Ty)}
    {foundBad : Bool}
    (h : minusParams tc intersect minus isSubspace constr params idx l = some (some (constrSpaces, foundBad)))
    {k : Nat} {p : Space Ty × Space Ty} (hp : l[k]? = some p) (hsub : isSubspace p.1 p.2 ≠ some true) :
    foundBad = true ∧ ∃ difference, minus p.1 p.2 = some difference ∧
      constr (params.set (idx + k) difference) ∈ constrSpaces := by
  induction l generalizing idx constrSpaces foundBad k with
  | nil => cases hp
  | cons p₀ rest ih =>
    obtain ⟨r, hr, h⟩ := Option.bind_eq_some_iff.1 h
    by_cases hempty : (simplify tc r).isEmpty = true
    · rw [if_pos hempty] at h
      cases h
    rw [if_neg hempty] at h
    obtain ⟨covered, hcovered, h⟩ := Option.bind_eq_some_iff.1 h
    obtain ⟨difference, hdifference, h⟩ := Option.bind_eq_some_iff.1 h
    obtain ⟨o, ho, h⟩ := Option.bind_eq_some_iff.1 h
    obtain ⟨⟨spaces, bad⟩, rfl, heq⟩ := Option.map_eq_some_iff.1 (Option.some.inj h)
    obtain ⟨rfl, rfl⟩ := Prod.mk.inj heq
    cases k with
    | zero =>
      obtain rfl := Option.some.inj hp
      refine ⟨?_, difference, hdifference, List.mem_cons_self⟩
      cases covered with
      | true => exact absurd hcovered hsub
      | false => rfl
    | succ k =>
      obtain ⟨rfl, difference', hdifference', hmem⟩ := ih ho hp
      refine ⟨Bool.or_true _, difference', hdifference', List.mem_cons_of_mem _ ?_⟩
      rw [show idx + (k + 1) = idx + 1 + k by omega]
      exact hmem

theorem contains_set {ty ty' : Ty} {c : Signature Ty} {downgrade : Bool} {spaces : List (Space Ty)}
    {vs : List Value} (hc : c ∈ tc.signatures ty)
    (h : Contains tc ty (.constructor ty' c.head downgrade spaces) (.constructor c.head vs)) {i : Nat}
    {a : TupleTypeElt Ty} {s : Space Ty} {v : Value} (ha : c.arguments[i]? = some a) (hv : vs[i]? = some v)
    (hs : Contains tc a.type s v) :
    Contains tc ty (.constructor ty' c.head downgrade (spaces.set i s)) (.constructor c.head vs) := by
  obtain ⟨-, hspaces, hvs, harguments⟩ := h.arguments hc
  refine .constructor ty' downgrade hc (by rw [List.length_set, hspaces]) hvs fun j a' s' v' ha' hs' hv' => ?_
  by_cases hij : i = j
  · subst hij
    obtain rfl := Option.some.inj (ha.symm.trans ha')
    obtain rfl := Option.some.inj (hv.symm.trans hv')
    rw [List.getElem?_set_self', Option.map_eq_map, Option.map_eq_some_iff] at hs'
    obtain ⟨-, -, rfl⟩ := hs'
    exact hs
  · rw [List.getElem?_set_ne hij] at hs'
    exact harguments j a' s' v' ha' hs' hv'

variable [DecidableEq Ty]

/-! ## Subspaces -/

theorem isSubspace_misses (n : Nat) {ty : Ty} {s t : Space Ty} {v : Value} (hs : Contains tc ty s v)
    (ht : Misses tc ty t v) : isSubspace tc n s t ≠ some true := by
  induction n generalizing ty s t v with
  | zero => exact nofun
  | succ n ih =>
    -- a type is decomposed, whatever the other space
    have hdecompose {other : Space Ty} (hty : tc.canDecompose ty = true) (hv : v.HasType tc ty)
        (hother : Misses tc ty other v) : isSubspace tc n (.disjunct (decompose tc ty)) other ≠ some true := by
      obtain ⟨s', hs', hcontains⟩ := contains_decompose hty hv
      exact ih (.disjunct hs' hcontains) hother
    -- one of the spaces of the other
    have hany {spaces : List (Space Ty)} (hall : ∀ t ∈ spaces, Misses tc ty t v) :
        (spaces.anyM fun t => isSubspace tc n s t) ≠ some true := by
      intro h
      obtain ⟨t, ht, hsub⟩ := exists_of_anyM h
      exact ih hs (hall t ht) hsub
    cases hs with
    | @disjunct _ s' spaces _ hs' hv =>
      intro h
      have hall : (spaces.allM fun space => isSubspace tc n space t) = some true := by
        cases ht <;> first | exact h | cases h
      exact ih hv ht (forall_of_allM hall s' hs')
    | type name hv =>
      cases ht with
      | empty => exact nofun
      | booleanConstant hne => exact nofun
      | head ty' downgrade hne =>
        rw [isSubspace]
        by_cases hty : tc.canDecompose ty = true
        · rw [if_pos hty]
          exact hdecompose hty hv (.head ty' downgrade hne)
        · rw [if_neg hty]
          exact nofun
      | argument ty' downgrade hc ha hs hv' hmisses =>
        rw [isSubspace]
        by_cases hty : tc.canDecompose ty = true
        · rw [if_pos hty]
          exact hdecompose hty hv (.argument ty' downgrade hc ha hs hv' hmisses)
        · rw [if_neg hty]
          exact nofun
      | disjunct hall =>
        intro h
        rw [isSubspace] at h
        obtain ⟨b, hb, h⟩ := Option.bind_eq_some_iff.1 h
        cases b with
        | true => exact hany hall hb
        | false =>
          rw [if_neg Bool.false_ne_true] at h
          by_cases hty : tc.canDecompose ty = true
          · rw [hty] at h
            exact hdecompose hty hv (.disjunct hall) h
          · rw [Bool.not_eq_true] at hty
            rw [hty] at h
            cases h
    | booleanConstant hbool value =>
      cases ht with
      | empty => exact nofun
      | booleanConstant hne =>
        rw [isSubspace]
        simpa using Ne.symm hne
      | disjunct hall => exact hany hall
    | @constructor _ c spaces vs ty₁ downgrade₁ hc hspaces hvs harguments =>
      cases t with
      | empty => exact nofun
      | type ty' name => cases ht
      | booleanConstant value => exact nofun
      | disjunct others => exact hany ht.of_disjunct
      | constructor ty' head downgrade' others =>
        rw [isSubspace]
        rcases ht.arguments hc with hne | ⟨rfl, i, a, t, v, ha, ht, hv, hmisses⟩
        · rw [if_pos (Ne.symm hne)]
          exact nofun
        · rw [if_neg (not_not_intro rfl), if_neg (not_isEmpty_of_getElem? ht)]
          intro h
          obtain ⟨s, hs⟩ := exists_getElem?_of_length hspaces ha
          exact ih (harguments i a _ v ha hs hv) hmisses
            (forall_of_allM h _ (List.mem_of_getElem? (getElem?_zip hs ht)))

/-! ## Intersections -/

theorem intersect_content (n : Nat) {ty : Ty} {s t r : Space Ty} {v : Value} (hs : Contains tc ty s v)
    (ht : Contains tc ty t v) (h : intersect tc n s t = some r) : ¬ (simplify tc r).isEmpty = true := by
  induction n generalizing ty s t v r with
  | zero => cases h
  | succ n ih =>
    have hdecompose {other : Space Ty} (hty : tc.canDecompose ty = true) (hother : Contains tc ty other v)
        (h : intersect tc n (examineDecomp (decompose tc ty)) other = some r) :
        ¬ (simplify tc r).isEmpty = true :=
      ih (contains_examineDecomp.2 (contains_decompose hty hs.hasType)) hother h
    -- the space of each case, on either side
    have hcases {spaces : List (Space Ty)} {f : Space Ty → Option (Space Ty)} {s' : Space Ty} (hs' : s' ∈ spaces)
        (hcontent : ∀ r', f s' = some r' → ¬ (simplify tc r').isEmpty = true)
        (h : (do return examineDecomp ((← spaces.mapM f).filter (!·.isEmpty))) = some r) :
        ¬ (simplify tc r).isEmpty = true := by
      obtain ⟨intersectedCases, hmap, heq⟩ := Option.bind_eq_some_iff.1 h
      rw [← Option.some.inj heq, content_filter]
      obtain ⟨r', hr', hf⟩ := exists_of_mapM hmap _ hs'
      exact ⟨r', hr', hcontent r' hf⟩
    cases ht with
    | @disjunct _ t' others _ ht' hv =>
      have h : (do return examineDecomp ((← others.mapM (intersect tc n s)).filter (!·.isEmpty))) = some r := by
        cases hs <;> exact h
      exact hcases ht' (fun r' hr' => ih hs hv hr') h
    | @type _ _ name' hv =>
      cases hs with
      | type name hv' =>
        rw [intersect, if_pos rfl] at h
        rw [← Option.some.inj h]
        exact (Contains.type name' hv).content
      | booleanConstant hbool value =>
        rw [intersect, if_pos hbool] at h
        rw [← Option.some.inj h]
        exact Bool.false_ne_true
      | constructor ty₁ downgrade hc hspaces hvs harguments =>
        rw [← Option.some.inj h]
        exact (Contains.constructor ty₁ downgrade hc hspaces hvs harguments).content
      | disjunct hs hv' => exact hcases hs (fun r' hr' => ih hv' (.type name' hv) hr') h
    | booleanConstant hbool value =>
      cases hs with
      | type name hv =>
        have hty := canDecompose_of_isBool hbool
        rw [intersect, if_pos hty] at h
        exact hdecompose hty (.booleanConstant hbool value) h
      | booleanConstant =>
        rw [intersect, if_pos rfl] at h
        rw [← Option.some.inj h]
        exact Bool.false_ne_true
      | disjunct hs hv' => exact hcases hs (fun r' hr' => ih hv' (.booleanConstant hbool value) hr') h
    | @constructor _ c others vs ty' downgrade hc hspaces hvs harguments =>
      have ht := Contains.constructor ty' downgrade hc hspaces hvs harguments
      cases s with
      | empty => cases hs
      | booleanConstant value => cases hs
      | type ty₁ name =>
        cases hs with
        | type name hv =>
          have hty := canDecompose_of_signature hc
          rw [intersect, if_pos hty] at h
          exact hdecompose hty ht h
      | disjunct spaces =>
        cases hs with
        | disjunct hs hv' => exact hcases hs (fun r' hr' => ih hv' ht hr') h
      | constructor ty₁ head downgrade₁ spaces =>
        obtain ⟨rfl, hlength, -, harguments'⟩ := hs.arguments hc
        rw [intersect, if_neg (not_not_intro rfl)] at h
        cases hothers : others with
        | nil =>
          subst hothers
          rw [← Option.some.inj h]
          exact hs.content
        | cons t₀ rest =>
          rw [hothers, List.isEmpty_cons, if_neg Bool.false_ne_true, ← hothers] at h
          obtain ⟨o, ho, h⟩ := Option.bind_eq_some_iff.1 h
          obtain ⟨paramSpace, rfl, hparams, hall⟩ := intersectParams_content ho fun p hp r hr => by
            obtain ⟨i, hs, ht⟩ := exists_getElem?_of_mem_zip hp
            obtain ⟨a, ha⟩ := exists_getElem?_of_length hspaces.symm ht
            obtain ⟨v, hv⟩ := exists_getElem?_of_length hvs ha
            exact ih (harguments' i a _ v ha hs hv) (harguments i a _ v ha ht hv) hr
          rw [← Option.some.inj h, simplify_examineDecomp_isEmpty]
          intro hempty
          cases paramSpace with
          | nil =>
            rw [List.length_zip, hlength, hspaces, min_self] at hparams
            rw [hothers, ← hparams] at hspaces
            cases hspaces
          | cons r₀ _ => exact hall r₀ List.mem_cons_self (hempty r₀ List.mem_cons_self)

/-! ## Differences -/

theorem minus_contains (n : Nat) {ty : Ty} {s t r : Space Ty} {v : Value} (hs : Contains tc ty s v)
    (ht : Misses tc ty t v) (h : minus tc n s t = some r) : Contains tc ty r v := by
  induction n generalizing ty s t v r with
  | zero => cases h
  | succ n ih =>
    have hdecompose {other : Space Ty} (hty : tc.canDecompose ty = true) (hother : Misses tc ty other v)
        (h : minus tc n (examineDecomp (decompose tc ty)) other = some r) : Contains tc ty r v :=
      ih (contains_examineDecomp.2 (contains_decompose hty hs.hasType)) hother h
    have hfold {others : List (Space Ty)} (hall : ∀ t ∈ others, Misses tc ty t v)
        (h : others.foldlM (fun left right => minus tc n left right) s = some r) : Contains tc ty r v :=
      foldlM_induct (P := fun left => Contains tc ty left v) hs
        (fun left hleft right hright left' hr => ih hleft (hall right hright) hr) h
    have hcases {spaces : List (Space Ty)} {other s' : Space Ty} (hs' : s' ∈ spaces) (hv : Contains tc ty s' v)
        (hother : Misses tc ty other v)
        (h : (do return examineDecomp (← spaces.mapM fun first => minus tc n first other)) = some r) :
        Contains tc ty r v := by
      obtain ⟨smallSpaces, hmap, heq⟩ := Option.bind_eq_some_iff.1 h
      obtain ⟨r', hmem, hr'⟩ := exists_of_mapM hmap s' hs'
      rw [← Option.some.inj heq]
      exact contains_examineDecomp.2 ⟨r', hmem, ih hv hother hr'⟩
    cases hs with
    | @type _ _ name hv =>
      cases t with
      | empty =>
        rw [← Option.some.inj h]
        exact .type name hv
      | type ty' name' => cases ht
      | disjunct others => exact hfold ht.of_disjunct h
      | constructor ty' head downgrade others =>
        rw [minus] at h
        by_cases hty : tc.canDecompose ty = true
        · rw [if_pos hty] at h
          exact hdecompose hty ht h
        · rw [if_neg hty] at h
          rw [← Option.some.inj h]
          exact .type name hv
      | booleanConstant value =>
        rw [minus] at h
        by_cases hty : tc.canDecompose ty = true
        · rw [if_pos hty] at h
          exact hdecompose hty ht h
        · rw [if_neg hty] at h
          rw [← Option.some.inj h]
          exact .type name hv
    | booleanConstant hbool value =>
      cases ht with
      | empty =>
        rw [← Option.some.inj h]
        exact .booleanConstant hbool value
      | booleanConstant hne =>
        rw [minus, if_neg (Ne.symm hne)] at h
        rw [← Option.some.inj h]
        exact .booleanConstant hbool value
      | disjunct hall => exact hfold hall h
    | @disjunct _ s' spaces _ hs' hv =>
      cases t with
      | empty =>
        rw [← Option.some.inj h]
        exact .disjunct hs' hv
      | type ty' name' => cases ht
      | disjunct others => exact hfold ht.of_disjunct h
      | constructor ty' head downgrade others => exact hcases hs' hv ht h
      | booleanConstant value => exact hcases hs' hv ht h
    | @constructor _ c spaces vs ty₁ downgrade₁ hc hspaces hvs harguments =>
      have hs := Contains.constructor ty₁ downgrade₁ hc hspaces hvs harguments
      cases t with
      | empty =>
        rw [← Option.some.inj h]
        exact hs
      | type ty' name' => cases ht
      | booleanConstant value => cases ht
      | disjunct others => exact hfold ht.of_disjunct h
      | constructor ty' head downgrade others =>
        rw [minus] at h
        rcases ht.arguments hc with hne | ⟨rfl, i, a, t, v, ha, ht, hv, hmisses⟩
        · rw [if_pos (Ne.symm hne)] at h
          rw [← Option.some.inj h]
          exact hs
        · rw [if_neg (not_not_intro rfl), if_neg (not_isEmpty_of_getElem? ht)] at h
          obtain ⟨s, hs'⟩ := exists_getElem?_of_length hspaces ha
          have hcontains := harguments i a s v ha hs' hv
          obtain ⟨o, ho, h⟩ := Option.bind_eq_some_iff.1 h
          cases o with
          | none =>
            rw [← Option.some.inj h]
            exact hs
          | some result =>
            obtain ⟨constrSpaces, foundBad⟩ := result
            obtain ⟨rfl, difference, hdifference, hmem⟩ := minusParams_misses ho (getElem?_zip hs' ht)
              (isSubspace_misses n hcontains hmisses)
            rw [← Option.some.inj h, if_pos rfl]
            rw [Nat.zero_add] at hmem
            exact contains_examineDecomp.2
              ⟨_, hmem, contains_set hc hs ha hv (ih hcontains hmisses hdifference)⟩

end SwiftKStdlib.SpaceEngine.Space
