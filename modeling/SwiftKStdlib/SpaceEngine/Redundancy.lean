import SwiftKStdlib.SpaceEngine.Projection

/-!
# Exhaustive matches and redundant patterns

* `accepted_matches` : where the uncovered space is empty, every value is matched, unless a pattern is `Widened`;
* `matched_accepted` : where every value is matched, the uncovered space is empty, unless a pattern `HidesTuple`;
* `argumentsLast` : in a comparison, the arguments of the first space do not run out before those of the second;
* `isSubspace_projected` : then the space of a pattern is no subspace of one that misses a value of it;
* `redundant_matched` : a pattern is diagnosed only where earlier ones match its values.
-/

namespace SwiftKStdlib.SpaceEngine

open Space Pattern SwiftKStdlib.Lib

variable {Ty : Type} {tc : TypeContext Ty} {tests : Nat → Value → Prop} [DecidableEq Ty] {ty : Ty}
  {patterns : List (Pattern Ty)}

/-! ## Soundness -/

/-- A `switch` that is accepted without a `default` matches every value. -/
def AcceptedMatches (tc : TypeContext Ty) (tests : Nat → Value → Prop) (ty : Ty) (patterns : List (Pattern Ty)) : Prop :=
  ∀ fuel r, uncovered tc fuel ty patterns = some r → r.isEmpty = true →
    ∀ v : Value, v.HasType tc ty → ∃ p ∈ patterns, Matches tc tests p v

theorem accepted_matches (htyped : ∀ p ∈ patterns, WellTyped tc ty p)
    (hwidened : ∀ p ∈ patterns, ∀ q ∈ p.subPatterns, ¬ Widened tc tests q) : AcceptedMatches tc tests ty patterns := by
  intro fuel r huncovered hempty v hv
  obtain ⟨remaining, hminus, heq⟩ := Option.bind_eq_some_iff.1 huncovered
  obtain rfl := Option.some.inj heq
  by_contra hnot
  have hmisses : Misses tc ty (.disjunct (patterns.map (projectPattern tc))) v := by
    refine .disjunct fun s hs => ?_
    obtain ⟨p, hp, rfl⟩ := List.mem_map.1 hs
    exact (htyped p hp).misses (hwidened p hp) hv fun hm => hnot ⟨p, hp, hm⟩
  exact (minus_contains fuel (.type "" hv) hmisses hminus).content hempty

/-! ## Completeness -/

def Accepted (tc : TypeContext Ty) (ty : Ty) (patterns : List (Pattern Ty)) : Prop :=
  ∃ r, Settles (fun n => uncovered tc n ty patterns) r ∧ r.isEmpty = true

theorem matched_accepted (hinhabited : tc.Inhabited ty) (htyped : ∀ p ∈ patterns, WellTyped tc ty p)
    (htests : ∀ p ∈ patterns, ∀ q ∈ p.subPatterns, q.isTest = false)
    (htuples : ∀ p ∈ patterns, ∀ q ∈ p.subPatterns, ¬ HidesTuple tc q)
    (hmatched : ∀ v : Value, v.HasType tc ty → ∃ p ∈ patterns, Matches tc tests p v) : Accepted tc ty patterns := by
  have hprojected : ∀ s ∈ patterns.map (projectPattern tc), Typed tc ty s := by
    intro s hs
    obtain ⟨p, hp, rfl⟩ := List.mem_map.1 hs
    refine Projected.typed ((htyped p hp).projected fun q hq => ⟨fun ty' name downgrade p' heq hcast => ?_,
      fun _ => htests p hp q hq, fun _ => htuples p hp q hq⟩)
    -- a cast has a test at its end
    obtain ⟨ty'', coerces, identity, his, -⟩ := exists_test_of_cast tc hcast
    subst heq
    have hmem : .is ty'' coerces identity ∈ p.subPatterns := subPatterns_trans hq (List.mem_cons_of_mem _ his)
    cases htests p hp _ hmem
  obtain ⟨⟨r, hr, -, hexact⟩, -⟩ := algebra_exact tc hinhabited (.type "") hprojected
  refine ⟨simplify tc r, hr.map (simplify tc), hexact.2 fun v hv => ?_⟩
  obtain ⟨p, hp, hm⟩ := hmatched v hv.hasType
  refine ⟨projectPattern tc p, List.mem_map_of_mem hp, ?_⟩
  by_contra hnot
  exact (htyped p hp).not_misses ((htyped p hp).isUseful (htests p hp)) hm
    ((hprojected _ (List.mem_map_of_mem hp)).misses hv.hasType hnot)

/-! ## Optional pairs -/

inductive PairType where
  | bool
  | pair
  | optional
  deriving DecidableEq

/-- `(Bool, Bool)?`. -/
def pairContext : TypeContext PairType where
  view
    | .bool => .bool
    | .pair => .tuple [⟨.bool, ""⟩, ⟨.bool, ""⟩]
    | .optional => .enum [⟨"none", false, true, none⟩, ⟨"some", false, true, some .pair⟩]
  name_ne ty elements hview := by
    cases ty with
    | optional =>
      cases hview
      decide
    | _ => cases hview
  nodup_names ty elements hview := by
    cases ty with
    | optional =>
      cases hview
      decide
    | _ => cases hview

theorem wellTyped_pair {p q : Pattern PairType} (hp : WellTyped pairContext .bool p) (hq : WellTyped pairContext .bool q) :
    WellTyped pairContext .pair (.tuple .pair [p, q]) := by
  have hty : pairContext.asTuple .pair = some [⟨.bool, ""⟩, ⟨.bool, ""⟩] := rfl
  refine .tuple hty rfl fun i a r ha hr => ?_
  match i with
  | 0 =>
    cases ha
    cases hr
    exact hp
  | 1 =>
    cases ha
    cases hr
    exact hq

theorem wellTyped_none : WellTyped pairContext .optional (.enumElement .optional "none" false) :=
  .enumElement (e := ⟨"none", false, true, none⟩) rfl List.mem_cons_self rfl rfl

theorem wellTyped_some {p : Pattern PairType} (hp : WellTyped pairContext .pair p) :
    WellTyped pairContext .optional (.optionalSome .optional p) :=
  .optionalSome (e := ⟨"some", false, true, some .pair⟩) rfl (List.mem_cons_of_mem _ List.mem_cons_self) rfl rfl rfl
    (by intro a h; cases h) hp

theorem wellTyped_somePayload {p : Pattern PairType} (hp : WellTyped pairContext .pair p) :
    WellTyped pairContext .optional (.enumPayload .optional "some" false (.paren p)) :=
  .enumPayload (e := ⟨"some", false, true, some .pair⟩) rfl (List.mem_cons_of_mem _ List.mem_cons_self) rfl rfl
    (.inr (.inl rfl)) (by intro p' a _ h; cases h) (.paren hp)

theorem hasType_pair (x y : Bool) : (Value.constructor "some" [.bool x, .bool y]).HasType pairContext .optional := by
  refine .constructor (c := ⟨"some", [⟨.bool, ""⟩, ⟨.bool, ""⟩]⟩) (List.mem_cons_of_mem _ List.mem_cons_self) rfl
    fun i a v ha hv => ?_
  match i with
  | 0 =>
    cases ha
    cases hv
    exact .bool rfl x
  | 1 =>
    cases ha
    cases hv
    exact .bool rfl y

theorem Matches.of_pair {p q : Pattern PairType} {v w : Value}
    (h : Matches pairContext tests (.tuple .pair [p, q]) (.constructor "" [v, w])) :
    Matches pairContext tests p v ∧ Matches pairContext tests q w := by
  cases h with
  | tuple _ h => exact ⟨h 0 p v rfl rfl, h 1 q w rfl rfl⟩

/-- `case (_, _)?` and `case nil`. -/
def pairPatterns : List (Pattern PairType) :=
  [.optionalSome .optional (.tuple .pair [.any .bool, .any .bool]), .enumElement .optional "none" false]

theorem wellTyped_pairPatterns : ∀ p ∈ pairPatterns, WellTyped pairContext .optional p := by
  intro p hp
  rcases List.mem_pair.1 hp with rfl | rfl
  · exact wellTyped_some (wellTyped_pair .any .any)
  · exact wellTyped_none

theorem accepted_matches_pair : AcceptedMatches pairContext (fun _ _ => False) .optional pairPatterns := by
  refine accepted_matches wellTyped_pairPatterns fun p hp q hq hwidened => ?_
  rcases List.mem_pair.1 hp with rfl | rfl
  · have hq' : q = .optionalSome .optional (.tuple .pair [.any .bool, .any .bool]) ∨
        q = .tuple .pair [.any .bool, .any .bool] ∨ q = .any .bool := by
      simpa [subPatterns, allSubPatterns] using hq
    rcases hq' with rfl | rfl | rfl
    · cases hwidened with
      | emptySome hc hname hnil h => cases h
    · cases hwidened
    · cases hwidened
  · rw [List.mem_singleton.1 hq] at hwidened
    cases hwidened

/-- `case .some((true, _))` and `case .none`. -/
def widenedPatterns : List (Pattern PairType) :=
  [.enumPayload .optional "some" false (.paren (.tuple .pair [.bool true, .any .bool])),
    .enumElement .optional "none" false]

/-- They are accepted, but `.some((false, true))` is not matched. -/
theorem not_accepted_matches_widened : ¬ ∀ patterns : List (Pattern PairType),
    (∀ p ∈ patterns, WellTyped pairContext .optional p) →
    (∃ fuel size, getSize pairContext fuel (.type .optional "") = some size ∧ size ≤ maximumSize) →
    AcceptedMatches pairContext (fun _ _ => False) .optional patterns := by
  intro hclaim
  have htyped : ∀ p ∈ widenedPatterns, WellTyped pairContext .optional p := by
    intro p hp
    rcases List.mem_pair.1 hp with rfl | rfl
    · exact wellTyped_somePayload (wellTyped_pair (.bool rfl true) .any)
    · exact wellTyped_none
  obtain ⟨p, hp, hm⟩ := hclaim widenedPatterns htyped ⟨5, 5, by decide, by decide⟩ 6 .empty rfl rfl _
    (hasType_pair false true)
  rcases List.mem_pair.1 hp with rfl | rfl
  · obtain ⟨vs, w, heq, hw, hm⟩ := hm.of_enumPayload (e := ⟨"some", false, true, some .pair⟩) rfl
      (List.mem_cons_of_mem _ List.mem_cons_self) rfl rfl
    obtain ⟨-, rfl⟩ := Value.constructor.inj heq
    have hw' : w = .constructor "" [.bool false, .bool true] := hw
    rw [hw'] at hm
    cases hm with
    | paren hm => cases (Matches.of_pair hm).1
  · obtain ⟨vs, heq⟩ := hm.of_enumElement
    exact absurd (Value.constructor.inj heq).1 (by decide)

theorem pair_inhabited : pairContext.Inhabited .optional := by
  intro ty _ _
  cases ty with
  | bool => exact ⟨.bool true, .bool rfl true⟩
  | optional => exact ⟨_, hasType_pair true true⟩
  | pair =>
    refine ⟨.constructor "" [.bool true, .bool true],
      .constructor (c := ⟨"", [⟨.bool, ""⟩, ⟨.bool, ""⟩]⟩) List.mem_cons_self rfl fun i a v ha hv => ?_⟩
    match i with
    | 0 =>
      cases ha
      cases hv
      exact .bool rfl true
    | 1 =>
      cases ha
      cases hv
      exact .bool rfl true

theorem hasType_optional {v : Value} (hv : v.HasType pairContext .optional) :
    v = .constructor "none" [] ∨ ∃ x y, v = .constructor "some" [x, y] := by
  have hc : (⟨"none", []⟩ : Signature PairType) ∈ pairContext.signatures .optional := List.mem_cons_self
  obtain ⟨c, hc', vs, rfl, hvs, -⟩ := hasType_signature hv hc
  have hsignatures : c = ⟨"none", []⟩ ∨ c = ⟨"some", [⟨.bool, ""⟩, ⟨.bool, ""⟩]⟩ := List.mem_pair.1 hc'
  rcases hsignatures with rfl | rfl
  · rw [List.length_eq_zero_iff.1 hvs]
    exact .inl rfl
  · obtain ⟨x, y, rfl⟩ := List.length_eq_two.1 hvs
    exact .inr ⟨x, y, rfl⟩

theorem matches_some {p : Pattern PairType} {x y : Value}
    (h : Matches pairContext tests p (.constructor "" [x, y])) :
    Matches pairContext tests (.optionalSome .optional p) (.constructor "some" [x, y]) := by
  have hpayload : pairContext.IsPayload .pair [x, y] (.constructor "" [x, y]) := rfl
  exact .optionalSome (e := ⟨"some", false, true, some .pair⟩) rfl (List.mem_cons_of_mem _ List.mem_cons_self) rfl rfl
    hpayload h

theorem matched_accepted_pair : Accepted pairContext .optional pairPatterns := by
  have hforms : ∀ p ∈ pairPatterns, ∀ q ∈ p.subPatterns, q = .enumElement .optional "none" false ∨
      q = .optionalSome .optional (.tuple .pair [.any .bool, .any .bool]) ∨
      q = .tuple .pair [.any .bool, .any .bool] ∨ q = .any .bool := by
    intro p hp q hq
    rcases List.mem_pair.1 hp with rfl | rfl
    · exact .inr (by simpa [subPatterns, allSubPatterns] using hq)
    · exact .inl (List.mem_singleton.1 hq)
  have hmatched : ∀ v : Value, v.HasType pairContext .optional →
      ∃ p ∈ pairPatterns, Matches pairContext (fun _ _ => False) p v := by
    intro v hv
    rcases hasType_optional hv with rfl | ⟨x, y, rfl⟩
    · exact ⟨_, List.mem_cons_of_mem _ List.mem_cons_self, .enumElement⟩
    · refine ⟨_, List.mem_cons_self, matches_some (.tuple rfl fun i p v hp hv => ?_)⟩
      match i with
      | 0 =>
        cases hp
        exact .any
      | 1 =>
        cases hp
        exact .any
  refine matched_accepted pair_inhabited wellTyped_pairPatterns (fun p hp q hq => ?_)
    (fun p hp q hq hhides => ?_) hmatched
  · rcases hforms p hp q hq with rfl | rfl | rfl | rfl <;> rfl
  · rcases hforms p hp q hq with rfl | rfl | rfl | rfl
    · cases hhides
    · cases hhides with
      | intro hproject htuple => cases hproject
    · cases hhides
    · cases hhides

/-- `case let x?` and `case nil`. -/
def hiddenPatterns : List (Pattern PairType) :=
  [.var (.optionalSome .optional (.named .pair "x")), .enumElement .optional "none" false]

/-- They match every value, but `.some` is left uncovered. -/
theorem not_accepted_hidden : ¬ ∀ patterns : List (Pattern PairType), pairContext.Inhabited .optional →
    (∀ p ∈ patterns, WellTyped pairContext .optional p) → (∀ p ∈ patterns, ∀ q ∈ p.subPatterns, q.isTest = false) →
    (∃ fuel size, getSize pairContext fuel (.type .optional "") = some size ∧ size ≤ maximumSize) →
    (∀ v : Value, v.HasType pairContext .optional → ∃ p ∈ patterns, Matches pairContext (fun _ _ => False) p v) →
    Accepted pairContext .optional patterns := by
  intro hclaim
  have htyped : ∀ p ∈ hiddenPatterns, WellTyped pairContext .optional p := by
    intro p hp
    rcases List.mem_pair.1 hp with rfl | rfl
    · exact .var (wellTyped_some (.named "x"))
    · exact wellTyped_none
  have htests : ∀ p ∈ hiddenPatterns, ∀ q ∈ p.subPatterns, q.isTest = false := by decide
  have hmatched : ∀ v : Value, v.HasType pairContext .optional →
      ∃ p ∈ hiddenPatterns, Matches pairContext (fun _ _ => False) p v := by
    intro v hv
    rcases hasType_optional hv with rfl | ⟨x, y, rfl⟩
    · exact ⟨_, List.mem_cons_of_mem _ List.mem_cons_self, .enumElement⟩
    · exact ⟨_, List.mem_cons_self, .var (matches_some .named)⟩
  obtain ⟨r, hr, hempty⟩ := hclaim hiddenPatterns pair_inhabited htyped htests ⟨5, 5, by decide, by decide⟩ hmatched
  have huncovered : Settles (fun n => uncovered pairContext n .optional hiddenPatterns)
      (.constructor .optional "some" false [.type .bool "", .type .bool ""]) := by
    refine ⟨8, fun n hn => ?_⟩
    obtain ⟨m, rfl⟩ : ∃ m, n = m + 8 := ⟨n - 8, by omega⟩
    rfl
  rw [hr.unique huncovered] at hempty
  cases hempty

end SwiftKStdlib.SpaceEngine

namespace SwiftKStdlib.SpaceEngine

open Space Pattern SwiftKStdlib.Lib

variable {Ty : Type} {tc : TypeContext Ty} {tests : Nat → Value → Prop} {ty : Ty}

namespace Space

mutual

def argumentsLast : Space Ty → Space Ty → Bool
  | .constructor _ head _ spaces, .constructor _ head' _ others => head != head' || allArgumentsLast spaces others
  | _, _ => true

def allArgumentsLast : List (Space Ty) → List (Space Ty) → Bool
  | [], others => others.isEmpty
  | _ :: _, [] => true
  | s :: spaces, t :: others => argumentsLast s t && allArgumentsLast spaces others

end

theorem allArgumentsLast_spec {spaces others : List (Space Ty)} (h : allArgumentsLast spaces others = true) :
    others.length ≤ spaces.length ∧
      ∀ (i : Nat) s t, spaces[i]? = some s → others[i]? = some t → argumentsLast s t = true := by
  induction spaces generalizing others with
  | nil =>
    rw [List.isEmpty_iff.1 h]
    exact ⟨Nat.le_refl _, fun i s t hs => by cases hs⟩
  | cons s spaces ih =>
    cases others with
    | nil => exact ⟨Nat.zero_le _, fun i s t _ ht => by cases ht⟩
    | cons t others =>
      unfold allArgumentsLast at h
      obtain ⟨hfirst, hrest⟩ := Bool.and_eq_true_iff.1 h
      obtain ⟨hlength, hall⟩ := ih hrest
      refine ⟨Nat.succ_le_succ hlength, fun i s' t' hs ht => ?_⟩
      cases i with
      | zero =>
        obtain rfl := Option.some.inj hs
        obtain rfl := Option.some.inj ht
        exact hfirst
      | succ i => exact hall i s' t' hs ht

variable [DecidableEq Ty]

theorem isSubspace_empty (n : Nat) {s : Space Ty} (huseful : s.isUseful = true) :
    isSubspace tc n s .empty ≠ some true := by
  cases n with
  | zero => exact nofun
  | succ n =>
    cases s with
    | empty => cases huseful
    | _ => exact nofun

theorem isSubspace_argument (n : Nat) {ty₁ ty' : Ty} {head : String} {d d' : Bool} {spaces others : List (Space Ty)}
    {i : Nat} {s t : Space Ty} (hs : spaces[i]? = some s) (ht : others[i]? = some t)
    (hnot : isSubspace tc n s t ≠ some true) :
    isSubspace tc (n + 1) (.constructor ty₁ head d spaces) (.constructor ty' head d' others) ≠ some true := by
  rw [isSubspace, if_neg (not_not_intro rfl), if_neg (not_isEmpty_of_getElem? ht)]
  exact fun h => hnot (forall_of_allM h _ (List.mem_of_getElem? (getElem?_zip hs ht)))

/-- A constructor space and one that misses a value of it differ in an argument that both have. -/
theorem isSubspace_constructor (n : Nat) {c : Signature Ty} {ty₁ : Ty} {d : Bool} {spaces : List (Space Ty)} {t : Space Ty}
    {v : Value} (hc : c ∈ tc.signatures ty) (hv : v.HasType tc ty)
    (huseful : (Space.constructor ty₁ c.head d spaces).isUseful = true)
    (hreaches : ¬ Misses tc ty (.constructor ty₁ c.head d spaces) v) (ht : Projected tc True ty t)
    (hmisses : Misses tc ty t v) (hlast : argumentsLast (.constructor ty₁ c.head d spaces) t = true)
    (h : ∀ (vs : List Value) (others : List (Space Ty)) (i : Nat) a t w, v = .constructor c.head vs →
      c.arguments[i]? = some a → others[i]? = some t → vs[i]? = some w → w.HasType tc a.type →
      Projected tc True a.type t → Misses tc a.type t w → others.length = c.arguments.length →
      others.length ≤ spaces.length → (∀ s, spaces[i]? = some s → argumentsLast s t = true) →
      ∃ s, spaces[i]? = some s ∧ isSubspace tc n s t ≠ some true) :
    isSubspace tc (n + 1) (.constructor ty₁ c.head d spaces) t ≠ some true := by
  obtain ⟨c', hc', vs, rfl, hvs, hvalues⟩ := hasType_signature hv hc
  have hhead : c.head = c'.head := by
    by_contra hne
    exact hreaches (.head ty₁ d hne)
  obtain rfl := signature_unique hc hc' hhead
  cases ht with
  | empty => exact isSubspace_empty (n + 1) huseful
  | type name => cases hmisses
  | booleanConstant hbool value => simp [isSubspace]
  | @constructor _ c'' others ty' d' hc'' hothers harguments =>
    rcases hmisses.arguments hc with hne | ⟨heq, i, a, t, w, ha, ht, hw, hm⟩
    · rw [isSubspace, if_pos (Ne.symm hne)]
      decide
    · obtain rfl := signature_unique hc'' hc heq
      have hall : allArgumentsLast spaces others = true := by
        unfold argumentsLast at hlast
        simpa using hlast
      obtain ⟨hle, hlast⟩ := allArgumentsLast_spec hall
      obtain ⟨s, hs, hnot⟩ := h vs others i a t w rfl ha ht hw (hvalues i a w ha hw) (harguments i a t ha ht) hm hothers
        hle fun s hs => hlast i s t hs ht
      exact isSubspace_argument n hs ht hnot
  | @short _ c'' t₀ _ ty' d' hc'' hlength ht₀ =>
    rcases hmisses.arguments hc with hne | ⟨heq, i, a, t, w, ha, ht, hw, hm⟩
    · rw [isSubspace, if_pos (Ne.symm hne)]
      decide
    · -- its one argument is compared with the first
      rw [heq] at hlast ⊢
      cases i with
      | succ i => cases ht
      | zero =>
        obtain rfl := Option.some.inj ht
        rcases ht₀ with rfl | ⟨ty₂, name, rfl⟩
        · cases spaces with
          | nil => simp [argumentsLast, allArgumentsLast] at hlast
          | cons s spaces =>
            exact isSubspace_argument n (i := 0) rfl rfl
              (isSubspace_empty n (isUseful_of_mem huseful s List.mem_cons_self))
        · cases hm

omit [DecidableEq Ty] in
theorem isBool_value {value : Bool} {v : Value} (hbool : tc.isBool ty = true) (hv : v.HasType tc ty)
    (hreaches : ¬ Misses tc ty (.booleanConstant value) v) : v = .bool value := by
  cases hv with
  | bool _ value' =>
    by_contra hne
    exact hreaches (.booleanConstant fun heq => hne (congrArg Value.bool heq.symm))
  | constructor hc => exact absurd hbool (not_isBool_of_signature hc)
  | other hother =>
    rw [canDecompose_of_isBool hbool] at hother
    cases hother

theorem isSubspace_projected (n : Nat) {ty : Ty} {s t : Space Ty} {v : Value} (hs : Projected tc True ty s)
    (huseful : s.isUseful = true) (hv : v.HasType tc ty) (hreaches : ¬ Misses tc ty s v) (ht : Projected tc True ty t)
    (hmisses : Misses tc ty t v) (hlast : argumentsLast s t = true) : isSubspace tc n s t ≠ some true := by
  induction n generalizing ty s t v with
  | zero => exact nofun
  | succ n ih =>
    cases hs with
    | empty => cases huseful
    | type name => exact isSubspace_misses (n + 1) (.type name hv) hmisses
    | booleanConstant hbool value =>
      rw [isBool_value hbool hv hreaches] at hmisses
      exact isSubspace_misses (n + 1) (.booleanConstant hbool value) hmisses
    | @constructor _ c spaces ty₁ d hc hspaces harguments =>
      refine isSubspace_constructor n hc hv huseful hreaches ht hmisses hlast
        fun vs others i a t w heq ha ht hw hvalue htyped hm hothers hle hlast => ?_
      obtain ⟨s, hs⟩ := exists_getElem?_of_length hspaces ha
      refine ⟨s, hs, ih (harguments i a s ha hs) (isUseful_of_mem huseful s (List.mem_of_getElem? hs)) hvalue
        (fun hm => hreaches ?_) htyped hm (hlast s hs)⟩
      rw [heq]
      exact .argument ty₁ d hc ha hs hw hm
    | @short _ c s₀ _ ty₁ d hc hlength hs₀ =>
      refine isSubspace_constructor n hc hv huseful hreaches ht hmisses hlast
        fun vs others i a t w heq ha ht hw hvalue htyped hm hothers hle hlast => ?_
      -- the other has as many arguments as the signature, so none
      have hlt := (List.getElem?_eq_some_iff.1 ht).1
      rw [List.length_singleton] at hle
      omega

theorem isSubspace_disjunct (n : Nat) {s : Space Ty} {others : List (Space Ty)} {v : Value} (hs : Projected tc True ty s)
    (huseful : s.isUseful = true) (hv : v.HasType tc ty) (hreaches : ¬ Misses tc ty s v)
    (hothers : ∀ t ∈ others, Projected tc True ty t ∧ argumentsLast s t = true)
    (hmisses : Misses tc ty (.disjunct others) v) : isSubspace tc n s (.disjunct others) ≠ some true := by
  have hspaces : ∀ t ∈ others, Misses tc ty t v := by
    cases hmisses with
    | disjunct h => exact h
  cases n with
  | zero => exact nofun
  | succ n =>
    -- one of the list would have the constructor
    have hany {ty' : Ty} {head : String} {d : Bool} {spaces : List (Space Ty)}
        (heq : s = .constructor ty' head d spaces) : isSubspace tc (n + 1) s (.disjunct others) ≠ some true := by
      intro h
      subst heq
      obtain ⟨t, ht, h⟩ := exists_of_anyM h
      obtain ⟨hprojected, hlast⟩ := hothers t ht
      exact isSubspace_projected n hs huseful hv hreaches hprojected (hspaces t ht) hlast h
    cases hs with
    | empty => cases huseful
    | type name => exact isSubspace_misses (n + 1) (.type name hv) hmisses
    | booleanConstant hbool value =>
      rw [isBool_value hbool hv hreaches] at hmisses
      exact isSubspace_misses (n + 1) (.booleanConstant hbool value) hmisses
    | constructor => exact hany rfl
    | short => exact hany rfl

end Space

/-! ## Patterns -/

open Pattern

def Pattern.KeepsElement (tc : TypeContext Ty) (q : Pattern Ty) : Prop :=
  ∀ ty name downgrade p, q = .enumPayload ty name downgrade p → p.isCast = true → projectPattern tc p = .empty

theorem Pattern.KeepsElement.of_not_widened {q : Pattern Ty} (h : ¬ Widened tc tests q) : q.KeepsElement tc := by
  intro ty name downgrade p heq hcast
  by_contra hne
  exact h (heq ▸ .element hcast hne)

theorem Pattern.WellTyped.projected_short {p : Pattern Ty} (h : WellTyped tc ty p)
    (hkeeps : ∀ q ∈ p.subPatterns, q.KeepsElement tc) : Projected tc True ty (projectPattern tc p) :=
  h.projected fun q hq => ⟨hkeeps q hq, fun hshort => absurd trivial hshort, fun hshort => absurd trivial hshort⟩

variable [DecidableEq Ty]

/-- What a pattern matches is matched by an earlier one if it is diagnosed. -/
def RedundantMatched (tc : TypeContext Ty) (tests : Nat → Value → Prop) (ty : Ty) (previous : List (Pattern Ty))
    (p : Pattern Ty) : Prop :=
  ∀ fuel, isRedundant tc fuel previous p = some true →
    ∀ v : Value, v.HasType tc ty → Matches tc tests p v → ∃ q ∈ previous, Matches tc tests q v

theorem of_isRedundant {fuel : Nat} {previous : List (Pattern Ty)} {p : Pattern Ty}
    (h : isRedundant tc fuel previous p = some true) : (projectPattern tc p).isUseful = true ∧
      isSubspace tc fuel (projectPattern tc p) (.disjunct (previous.map (projectPattern tc))) = some true := by
  simp only [isRedundant] at h
  split at h
  next huseful => exact ⟨huseful, h⟩
  next => cases Option.some.inj h

theorem redundant_matched {previous : List (Pattern Ty)} {p : Pattern Ty} (hprevious : ∀ q ∈ previous, WellTyped tc ty q)
    (hp : WellTyped tc ty p) (hwidened : ∀ q ∈ previous, ∀ q' ∈ q.subPatterns, ¬ Widened tc tests q')
    (hkeeps : ∀ q ∈ p.subPatterns, q.KeepsElement tc)
    (hlast : ∀ q ∈ previous, argumentsLast (projectPattern tc p) (projectPattern tc q) = true) :
    RedundantMatched tc tests ty previous p := by
  intro fuel hredundant v hv hm
  obtain ⟨huseful, hsubspace⟩ := of_isRedundant hredundant
  by_contra hnot
  refine isSubspace_disjunct fuel (hp.projected_short hkeeps) huseful hv (hp.not_misses huseful hm) (fun t ht => ?_)
    (.disjunct fun t ht => ?_) hsubspace
  · obtain ⟨q, hq, rfl⟩ := List.mem_map.1 ht
    exact ⟨(hprevious q hq).projected_short fun q' hq' => .of_not_widened (hwidened q hq q' hq'), hlast q hq⟩
  · obtain ⟨q, hq, rfl⟩ := List.mem_map.1 ht
    exact (hprevious q hq).misses (hwidened q hq) hv fun hm => hnot ⟨q, hq, hm⟩

/-! ## Optional pairs -/

/-- `case (x, y)?`. -/
def pairPattern (x y : Pattern PairType) : Pattern PairType := .optionalSome .optional (.tuple .pair [x, y])

theorem wellTyped_pairPattern {x y : Pattern PairType} (hx : WellTyped pairContext .bool x)
    (hy : WellTyped pairContext .bool y) : WellTyped pairContext .optional (pairPattern x y) :=
  wellTyped_some (wellTyped_pair hx hy)

theorem redundant_matched_pair : RedundantMatched pairContext (fun _ _ => False) .optional
    [pairPattern (.bool true) (.any .bool)] (pairPattern (.bool true) (.bool false)) := by
  refine redundant_matched (fun q hq => ?_) (wellTyped_pairPattern (.bool rfl true) (.bool rfl false))
    (fun q hq q' hq' hwidened => ?_) (fun q hq ty name downgrade p heq => ?_) (fun q hq => ?_)
  · rw [List.mem_singleton.1 hq]
    exact wellTyped_pairPattern (.bool rfl true) .any
  · rw [List.mem_singleton.1 hq] at hq'
    have hforms : q' = pairPattern (.bool true) (.any .bool) ∨ q' = .tuple .pair [.bool true, .any .bool] ∨
        q' = .bool true ∨ q' = .any .bool := by
      simpa [pairPattern, subPatterns, allSubPatterns] using hq'
    rcases hforms with rfl | rfl | rfl | rfl
    · cases hwidened with
      | emptySome hc hname hnil h => cases h
    · cases hwidened
    · cases hwidened
    · cases hwidened
  · have hforms : q = pairPattern (.bool true) (.bool false) ∨ q = .tuple .pair [.bool true, .bool false] ∨
        q = .bool true ∨ q = .bool false := by
      simpa [pairPattern, subPatterns, allSubPatterns] using hq
    rcases hforms with rfl | rfl | rfl | rfl <;> cases heq
  · rw [List.mem_singleton.1 hq]
    rfl

/-- After `case (_, true)?`, `case let x?` is diagnosed, but only it matches `.some((true, false))`. -/
theorem not_redundant_matched_hidden : ¬ ∀ (previous : List (Pattern PairType)) (p : Pattern PairType),
    (∀ q ∈ previous, WellTyped pairContext .optional q) → WellTyped pairContext .optional p →
    RedundantMatched pairContext (fun _ _ => False) .optional previous p := by
  intro hclaim
  have hprevious : ∀ q ∈ [pairPattern (.any .bool) (.bool true)], WellTyped pairContext .optional q := by
    intro q hq
    rw [List.mem_singleton.1 hq]
    exact wellTyped_pairPattern .any (.bool rfl true)
  obtain ⟨q, hq, hm⟩ := hclaim _ (.var (.optionalSome .optional (.named .pair "x"))) hprevious
    (.var (wellTyped_some (.named "x"))) 6 rfl _ (hasType_pair true false) (.var (matches_some .named))
  rw [List.mem_singleton.1 hq] at hm
  obtain ⟨vs, w, heq, hw, hm⟩ := hm.of_optionalSome (e := ⟨"some", false, true, some .pair⟩) rfl
    (List.mem_cons_of_mem _ List.mem_cons_self) rfl rfl
  obtain ⟨-, rfl⟩ := Value.constructor.inj heq
  have hw' : w = .constructor "" [.bool true, .bool false] := hw
  rw [hw'] at hm
  cases (Matches.of_pair hm).2

end SwiftKStdlib.SpaceEngine
