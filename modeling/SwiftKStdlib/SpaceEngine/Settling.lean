import SwiftKStdlib.SpaceEngine.Soundness

/-!
# Subspaces and intersections come to an end

* `Typed` : the spaces of the shape that `decompose` gives, at any depth;
* `Typed.misses` : such a space misses the values that it does not have;
* `Typed.decompose_induct` : induction on a space, where a type stands for its decomposition;
* `Inhabited`, `Typed.value` : when a space that is not simplified away has a value;
* `isSubspace_settles`, `intersect_settles` : on the spaces of a type, with enough fuel, there is a result;
* `Shares` : an intersection that is not simplified away has a value.
-/

namespace SwiftKStdlib.SpaceEngine

open SwiftKStdlib.Lib

variable {Ty : Type} (tc : TypeContext Ty)

def TypeContext.Component (ty ty' : Ty) : Prop :=
  ∃ c ∈ tc.signatures ty, ∃ a ∈ c.arguments, a.type = ty'

/-- A type all of whose component types are inhabited, but for those that decompose to nothing. -/
def TypeContext.Inhabited (ty : Ty) : Prop :=
  ∀ ty', Relation.ReflTransGen tc.Component ty ty' →
    (tc.canDecompose ty' = true → Space.decompose tc ty' ≠ []) → ∃ v : Value, v.HasType tc ty'

theorem TypeContext.Inhabited.component {tc : TypeContext Ty} {ty ty' : Ty} (h : tc.Inhabited ty) (hty' : tc.Component ty ty') :
    tc.Inhabited ty' :=
  fun ty₁ hty₁ => h ty₁ (.head hty' hty₁)

namespace Space

inductive Typed : Ty → Space Ty → Prop
  | empty {ty} : Typed ty .empty
  | type {ty} (name : String) : Typed ty (.type ty name)
  | booleanConstant {ty} (hbool : tc.isBool ty = true) (value : Bool) : Typed ty (.booleanConstant value)
  | constructor {ty c spaces} (ty' : Ty) (downgrade : Bool) (hc : c ∈ tc.signatures ty)
      (hspaces : spaces.length = c.arguments.length)
      (harguments : ∀ (i : Nat) a s, c.arguments[i]? = some a → spaces[i]? = some s → Typed a.type s) :
      Typed ty (.constructor ty' c.head downgrade spaces)
  | disjunct {ty spaces} (hall : ∀ s ∈ spaces, Typed ty s) : Typed ty (.disjunct spaces)

variable {tc} {ty : Ty}

/-! ## Inversion -/

theorem not_isBool_of_signature {c : Signature Ty} (hc : c ∈ tc.signatures ty) : ¬ tc.isBool ty = true := by
  intro hbool
  unfold TypeContext.isBool at hbool
  unfold TypeContext.signatures at hc
  cases hview : tc.view ty with
  | bool =>
    rw [hview] at hc
    exact absurd hc List.not_mem_nil
  | _ =>
    rw [hview] at hbool
    cases hbool

theorem Typed.signature {ty' : Ty} {head : String} {downgrade : Bool} {spaces : List (Space Ty)}
    (h : Typed tc ty (.constructor ty' head downgrade spaces)) :
    ∃ c ∈ tc.signatures ty, c.head = head ∧ spaces.length = c.arguments.length ∧
      ∀ (i : Nat) a s, c.arguments[i]? = some a → spaces[i]? = some s → Typed tc a.type s := by
  cases h with
  | @constructor _ c _ _ _ hc hspaces harguments => exact ⟨c, hc, rfl, hspaces, harguments⟩

theorem Typed.of_disjunct {spaces : List (Space Ty)} (h : Typed tc ty (.disjunct spaces)) :
    ∀ s ∈ spaces, Typed tc ty s := by
  cases h with
  | disjunct hall => exact hall

/-! ## Decomposition -/

theorem typed_ofElements {c : Signature Ty} (hc : c ∈ tc.signatures ty) (ty' : Ty) (downgrade : Bool) :
    Typed tc ty (.constructor ty' c.head downgrade (ofElements c.arguments)) := by
  refine .constructor ty' downgrade hc (length_ofElements _) fun i a s ha hs => ?_
  rw [getElem?_ofElements, ha] at hs
  rw [← Option.some.inj hs]
  exact .type a.name

theorem typed_decompose : ∀ s ∈ decompose tc ty, Typed tc ty s := by
  intro s hs
  unfold decompose at hs
  cases hview : tc.view ty with
  | bool =>
    have hbool : tc.isBool ty = true := by
      unfold TypeContext.isBool
      rw [hview]
    rw [hview] at hs
    rcases List.mem_pair.1 hs with rfl | rfl
    · exact .booleanConstant hbool true
    · exact .booleanConstant hbool false
  | other =>
    rw [hview] at hs
    exact absurd hs List.not_mem_nil
  | tuple elements =>
    rw [hview] at hs
    have hc : (⟨"", elements⟩ : Signature Ty) ∈ tc.signatures ty := by
      unfold TypeContext.signatures
      rw [hview]
      exact List.mem_singleton_self _
    rw [List.mem_singleton.1 hs]
    exact typed_ofElements hc ty false
  | enum elements =>
    rw [hview] at hs
    obtain ⟨e, he, rfl⟩ := List.mem_map.1 hs
    cases hvalid : e.hasInterfaceType with
    | false => exact .empty
    | true =>
      have hc : (⟨e.name, tc.payload e⟩ : Signature Ty) ∈ tc.signatures ty := by
        unfold TypeContext.signatures
        rw [hview]
        exact List.mem_map_of_mem (List.mem_filter.2 ⟨he, hvalid⟩)
      exact typed_ofElements hc ty e.downgrade

theorem flat_decompose {s : Space Ty} (hs : s ∈ decompose tc ty) :
    (∀ ty' name, s ≠ .type ty' name) ∧ ∀ spaces, s ≠ .disjunct spaces := by
  unfold decompose at hs
  cases hview : tc.view ty with
  | bool =>
    rw [hview] at hs
    rcases List.mem_pair.1 hs with rfl | rfl <;> exact ⟨nofun, nofun⟩
  | other =>
    rw [hview] at hs
    exact absurd hs List.not_mem_nil
  | tuple elements =>
    rw [hview] at hs
    rw [List.mem_singleton.1 hs]
    exact ⟨nofun, nofun⟩
  | enum elements =>
    rw [hview] at hs
    obtain ⟨e, -, rfl⟩ := List.mem_map.1 hs
    cases e.hasInterfaceType <;> exact ⟨nofun, nofun⟩

theorem Typed.decompose_induct {motive : ∀ s : Space Ty, Typed tc ty s → Prop} (empty : motive .empty .empty)
    (type : ∀ name, (∀ s (hs : s ∈ decompose tc ty), motive s (typed_decompose s hs)) →
      motive (.type ty name) (.type name))
    (booleanConstant : ∀ value (hbool : tc.isBool ty = true),
      motive (.booleanConstant value) (.booleanConstant hbool value))
    (constructor : ∀ ty' head downgrade spaces (htyped : Typed tc ty (.constructor ty' head downgrade spaces)),
      motive (.constructor ty' head downgrade spaces) htyped)
    (disjunct : ∀ spaces (hall : ∀ s ∈ spaces, Typed tc ty s), (∀ s (hs : s ∈ spaces), motive s (hall s hs)) →
      motive (.disjunct spaces) (.disjunct hall))
    {s : Space Ty} (hs : Typed tc ty s) : motive s hs := by
  induction hs with
  | empty => exact empty
  | booleanConstant hbool value => exact booleanConstant value hbool
  | disjunct hall ih =>
    exact disjunct _ hall fun s hs => ih s hs empty type booleanConstant constructor disjunct
  | constructor ty' downgrade hc hspaces harguments => exact constructor _ _ _ _ _
  | @type ty name =>
    refine type name fun s hs => ?_
    obtain ⟨htype, hdisjunct⟩ := flat_decompose hs
    generalize typed_decompose s hs = htyped
    cases s with
    | empty => exact empty
    | type ty' name => exact absurd rfl (htype ty' name)
    | disjunct spaces => exact absurd rfl (hdisjunct spaces)
    | constructor ty' head downgrade spaces => exact constructor _ _ _ _ htyped
    | booleanConstant value =>
      cases htyped with
      | booleanConstant hbool => exact booleanConstant value hbool

/-! ## Values -/

theorem Typed.misses {t : Space Ty} {v : Value} (ht : Typed tc ty t) (hv : v.HasType tc ty)
    (hnot : ¬ Contains tc ty t v) : Misses tc ty t v := by
  induction ht generalizing v with
  | empty => exact .empty
  | type name => exact absurd (.type name hv) hnot
  | disjunct hall ih => exact .disjunct fun s hs => ih s hs hv fun hs' => hnot (.disjunct hs hs')
  | booleanConstant hbool value =>
    cases hv with
    | bool hbool' value' =>
      refine .booleanConstant fun heq => hnot ?_
      rw [← heq]
      exact .booleanConstant hbool value
    | other hother =>
      rw [canDecompose_of_isBool hbool] at hother
      cases hother
    | constructor hc => exact absurd hbool (not_isBool_of_signature hc)
  | @constructor ty c spaces ty' downgrade hc hspaces harguments ih =>
    cases hv with
    | bool hbool => exact absurd hbool (not_isBool_of_signature hc)
    | other hother =>
      rw [canDecompose_of_signature hc] at hother
      cases hother
    | @constructor _ c' vs hc' hvs hvalues =>
      by_cases hhead : c.head = c'.head
      · obtain rfl := signature_unique hc hc' hhead
        by_contra hreached
        refine hnot (.constructor ty' downgrade hc hspaces hvs fun i a s v ha hs hv => ?_)
        by_contra hnot'
        exact hreached (.argument ty' downgrade hc ha hs hv (ih i a s ha hs (hvalues i a v ha hv) hnot'))
      · exact .head ty' downgrade hhead

theorem exists_list {α : Type} {P : Nat → α → Prop} {n : Nat} (h : ∀ i < n, ∃ a, P i a) :
    ∃ l : List α, l.length = n ∧ ∀ (i : Nat) a, l[i]? = some a → P i a := by
  choose f hf using h
  refine ⟨List.ofFn fun i : Fin n => f i i.2, List.length_ofFn, fun i a ha => ?_⟩
  rw [List.getElem?_ofFn] at ha
  split_ifs at ha with hi
  rw [← Option.some.inj ha]
  exact hf i hi

theorem exists_arguments {c : Signature Ty} {P : Nat → Value → Prop}
    (h : ∀ (i : Nat) a, c.arguments[i]? = some a → ∃ v, P i v) :
    ∃ vs : List Value, vs.length = c.arguments.length ∧ ∀ (i : Nat) v, vs[i]? = some v → P i v :=
  exists_list fun i hi => h i _ (List.getElem?_eq_getElem hi)

theorem Typed.value {s : Space Ty} (hs : Typed tc ty s) (hinhabited : tc.Inhabited ty)
    (hcontent : ¬ (simplify tc s).isEmpty = true) : ∃ v, Contains tc ty s v := by
  induction hs with
  | empty => exact absurd rfl hcontent
  | booleanConstant hbool value => exact ⟨_, .booleanConstant hbool value⟩
  | @type ty name =>
    obtain ⟨v, hv⟩ := hinhabited ty .refl fun hty hnil => hcontent (by
      rw [simplify, hty, hnil]
      rfl)
    exact ⟨v, .type name hv⟩
  | disjunct hall ih =>
    rw [simplify_disjunct_isEmpty] at hcontent
    obtain ⟨s, hs, hcontent⟩ := not_forall₂.1 hcontent
    obtain ⟨v, hv⟩ := ih s hs hinhabited hcontent
    exact ⟨v, .disjunct hs hv⟩
  | @constructor ty c spaces ty' downgrade hc hspaces harguments ih =>
    rw [simplify_constructor_isEmpty] at hcontent
    obtain ⟨vs, hvs, hvalues⟩ := exists_arguments
      (P := fun i v => ∀ a s, c.arguments[i]? = some a → spaces[i]? = some s → Contains tc a.type s v)
      fun i a ha => by
        obtain ⟨s, hs⟩ := exists_getElem?_of_length hspaces ha
        obtain ⟨v, hv⟩ := ih i a s ha hs (hinhabited.component ⟨c, hc, a, List.mem_of_getElem? ha, rfl⟩)
          fun hempty => hcontent ⟨s, List.mem_of_getElem? hs, hempty⟩
        refine ⟨v, fun a' s' ha' hs' => ?_⟩
        rw [← Option.some.inj (ha.symm.trans ha'), ← Option.some.inj (hs.symm.trans hs')]
        exact hv
    exact ⟨_, .constructor ty' downgrade hc hspaces hvs fun i a s v ha hs hv => hvalues i v hv a s ha hs⟩

end Space

end SwiftKStdlib.SpaceEngine

namespace SwiftKStdlib.SpaceEngine.Space

open SwiftKStdlib.Lib

variable {Ty : Type} {tc : TypeContext Ty} {ty : Ty}

/-! ## Arguments -/

def Shares (tc : TypeContext Ty) (ty : Ty) (s t r : Space Ty) : Prop :=
  tc.Inhabited ty → ¬ (simplify tc r).isEmpty = true → ∃ v, Contains tc ty s v ∧ Contains tc ty t v

theorem shares_empty (s t : Space Ty) : Shares tc ty s t .empty :=
  fun _ hcontent => absurd rfl hcontent

theorem intersectParams_settles {f : Nat → Space Ty → Space Ty → Option (Space Ty)} {R : Nat → Space Ty → Prop}
    {l : List (Space Ty × Space Ty)}
    (h : ∀ (k : Nat) p, l[k]? = some p → ∃ r, Settles (fun n => f n p.1 p.2) r ∧ R k r) :
    ∃ o, Settles (fun n => intersectParams tc (f n) l) o ∧
      ∀ paramSpace, o = some paramSpace → ∀ k < l.length, ∃ r, R k r ∧ ¬ (simplify tc r).isEmpty = true := by
  induction l generalizing R with
  | nil => exact ⟨some [], .pure _, fun _ _ k hk => absurd hk (Nat.not_lt_zero k)⟩
  | cons p rest ih =>
    obtain ⟨r, hr, hR⟩ := h 0 p rfl
    obtain ⟨o, ho, hall⟩ := ih fun k p' hp' => h (k + 1) p' hp'
    cases hempty : (simplify tc r).isEmpty with
    | true =>
      refine ⟨none, hr.bind ?_, nofun⟩
      rw [hempty]
      exact .pure _
    | false =>
      refine ⟨o.map (r :: ·), hr.bind ?_, fun paramSpace hsome k hk => ?_⟩
      · rw [hempty]
        exact ho.bind (.pure _)
      · obtain ⟨spaces, hspaces, -⟩ := Option.map_eq_some_iff.1 hsome
        cases k with
        | zero => exact ⟨r, hR, Bool.eq_false_iff.1 hempty⟩
        | succ k => exact hall spaces hspaces k (Nat.lt_of_succ_lt_succ hk)

theorem shares_arguments {c : Signature Ty} {ty₁ ty' : Ty} {downgrade₁ downgrade : Bool}
    {spaces others : List (Space Ty)} (hc : c ∈ tc.signatures ty) (hspaces : spaces.length = c.arguments.length)
    (hothers : others.length = c.arguments.length)
    (h : ∀ (i : Nat) a s t, c.arguments[i]? = some a → spaces[i]? = some s → others[i]? = some t →
      ∃ v, Contains tc a.type s v ∧ Contains tc a.type t v) :
    ∃ v, Contains tc ty (.constructor ty₁ c.head downgrade₁ spaces) v ∧
      Contains tc ty (.constructor ty' c.head downgrade others) v := by
  obtain ⟨vs, hvs, hvalues⟩ := exists_arguments (c := c)
    (P := fun i v => ∀ a s t, c.arguments[i]? = some a → spaces[i]? = some s → others[i]? = some t →
      Contains tc a.type s v ∧ Contains tc a.type t v)
    fun i a ha => by
      obtain ⟨s, hs⟩ := exists_getElem?_of_length hspaces ha
      obtain ⟨t, ht⟩ := exists_getElem?_of_length hothers ha
      obtain ⟨v, hv⟩ := h i a s t ha hs ht
      refine ⟨v, fun a' s' t' ha' hs' ht' => ?_⟩
      rw [← Option.some.inj (ha.symm.trans ha'), ← Option.some.inj (hs.symm.trans hs'),
        ← Option.some.inj (ht.symm.trans ht')]
      exact hv
  refine ⟨.constructor c.head vs, .constructor ty₁ downgrade₁ hc hspaces hvs fun i a s v ha hs hv => ?_,
    .constructor ty' downgrade hc hothers hvs fun i a t v ha ht hv => ?_⟩
  · obtain ⟨t, ht⟩ := exists_getElem?_of_length hothers ha
    exact (hvalues i v hv a s t ha hs ht).1
  · obtain ⟨s, hs⟩ := exists_getElem?_of_length hspaces ha
    exact (hvalues i v hv a s t ha hs ht).2

variable [DecidableEq Ty]

/-! ## Subspaces -/

theorem isSubspace_settles {s t : Space Ty} (hs : Typed tc ty s) (ht : Typed tc ty t) :
    ∃ b, Settles (fun n => isSubspace tc n s t) b := by
  induction ht generalizing s with
  | empty =>
    cases s with
    | empty => exact ⟨true, (Settles.pure true).step fun n => rfl⟩
    | _ => exact ⟨false, (Settles.pure false).step fun n => rfl⟩
  | @type ty name' =>
    induction hs using Typed.decompose_induct with
    | empty => exact ⟨true, (Settles.pure true).step fun n => rfl⟩
    | type name => exact ⟨true, (Settles.pure true).step fun n => by rw [isSubspace, if_pos rfl]⟩
    | booleanConstant value => exact ⟨tc.isBool ty, (Settles.pure _).step fun n => rfl⟩
    | constructor => exact ⟨true, (Settles.pure true).step fun n => rfl⟩
    | disjunct spaces _ ihs =>
      obtain ⟨b, hb⟩ := Settles.allM ihs
      exact ⟨b, hb.step fun n => rfl⟩
  | @booleanConstant ty hbool value' =>
    induction hs using Typed.decompose_induct with
    | empty => exact ⟨true, (Settles.pure true).step fun n => rfl⟩
    | type name => exact ⟨false, (Settles.pure false).step fun n => rfl⟩
    | booleanConstant value => exact ⟨value == value', (Settles.pure _).step fun n => rfl⟩
    | constructor => exact ⟨false, (Settles.pure false).step fun n => rfl⟩
    | disjunct spaces _ ihs =>
      obtain ⟨b, hb⟩ := Settles.allM ihs
      exact ⟨b, hb.step fun n => rfl⟩
  | @disjunct ty others hall ih =>
    have hany {s : Space Ty} (hs : Typed tc ty s) :
        ∃ b, Settles (fun n => others.anyM fun t => isSubspace tc n s t) b :=
      Settles.anyM fun t ht => ih t ht hs
    induction hs using Typed.decompose_induct with
    | empty => exact ⟨true, (Settles.pure true).step fun n => rfl⟩
    | type name ihs =>
      obtain ⟨covered, hcovered⟩ := hany (.type name)
      obtain ⟨b, hb⟩ := Settles.allM ihs
      have hrest : Settles (fun n => isSubspace tc n (.disjunct (decompose tc ty)) (.disjunct others)) b :=
        hb.step fun n => rfl
      have hdecompose : ∃ b, Settles (fun n => if covered then some true else if !tc.canDecompose ty then some false
          else isSubspace tc n (.disjunct (decompose tc ty)) (.disjunct others)) b := by
        cases covered with
        | true => exact ⟨true, .pure true⟩
        | false =>
          cases tc.canDecompose ty with
          | true => exact ⟨b, hrest⟩
          | false => exact ⟨false, .pure false⟩
      obtain ⟨b, hb⟩ := hdecompose
      exact ⟨b, (hcovered.bind hb).step fun n => by rw [isSubspace]⟩
    | booleanConstant value hbool =>
      obtain ⟨b, hb⟩ := hany (.booleanConstant hbool value)
      exact ⟨b, hb.step fun n => rfl⟩
    | constructor ty' head downgrade spaces htyped =>
      obtain ⟨b, hb⟩ := hany htyped
      exact ⟨b, hb.step fun n => rfl⟩
    | disjunct spaces _ ihs =>
      obtain ⟨b, hb⟩ := Settles.allM ihs
      exact ⟨b, hb.step fun n => rfl⟩
  | @constructor ty c others ty' downgrade hc hothers harguments ih =>
    induction hs using Typed.decompose_induct with
    | empty => exact ⟨true, (Settles.pure true).step fun n => rfl⟩
    | type name ihs =>
      obtain ⟨b, hb⟩ := Settles.allM ihs
      have hrest : Settles (fun n => isSubspace tc n (.disjunct (decompose tc ty))
          (.constructor ty' c.head downgrade others)) b := hb.step fun n => rfl
      exact ⟨b, hrest.step fun n => by rw [isSubspace, if_pos (canDecompose_of_signature hc)]⟩
    | booleanConstant value hbool => exact absurd hbool (not_isBool_of_signature hc)
    | constructor ty₁ head downgrade₁ spaces htyped =>
      obtain ⟨c', hc', rfl, hspaces, harguments'⟩ := htyped.signature
      by_cases hhead : c'.head = c.head
      · obtain rfl := signature_unique hc' hc hhead
        cases hnil : others.isEmpty with
        | true =>
          exact ⟨true, (Settles.pure true).step fun n => by
            rw [isSubspace, if_neg (not_not_intro rfl), if_pos hnil]⟩
        | false =>
          obtain ⟨b, hb⟩ := Settles.allM (l := spaces.zip others) (f := fun n p => isSubspace tc n p.1 p.2)
            fun p hp => by
              obtain ⟨i, hs, ht⟩ := exists_getElem?_of_mem_zip hp
              obtain ⟨a, ha⟩ := exists_getElem?_of_length hothers.symm ht
              exact ih i a _ ha ht (harguments' i a _ ha hs)
          exact ⟨b, hb.step fun n => by
            rw [isSubspace, if_neg (not_not_intro rfl), hnil, if_neg Bool.false_ne_true]⟩
      · exact ⟨false, (Settles.pure false).step fun n => by rw [isSubspace, if_pos hhead]⟩
    | disjunct spaces _ ihs =>
      obtain ⟨b, hb⟩ := Settles.allM ihs
      exact ⟨b, hb.step fun n => rfl⟩

/-! ## Intersections -/

theorem intersect_disjunct_settles {spaces : List (Space Ty)} {t : Space Ty}
    (h : ∀ s ∈ spaces, ∃ r, Settles (fun n => intersect tc n s t) r ∧ Shares tc ty s t r) (hempty : t ≠ .empty)
    (hdisjunct : ∀ others, t ≠ .disjunct others) :
    ∃ r, Settles (fun n => intersect tc n (.disjunct spaces) t) r ∧ Shares tc ty (.disjunct spaces) t r := by
  obtain ⟨intersectedCases, hsettles, hcases⟩ := Settles.mapM h
  refine ⟨_, (hsettles.map fun spaces => examineDecomp (spaces.filter (!·.isEmpty))).step fun n => ?_,
    fun hinhabited hcontent => ?_⟩
  · cases t with
    | empty => exact absurd rfl hempty
    | disjunct others => exact absurd rfl (hdisjunct others)
    | _ => rfl
  · obtain ⟨r, hr, hcontent⟩ := content_filter.1 hcontent
    obtain ⟨s, hs, hshares⟩ := hcases r hr
    obtain ⟨v, hv, hv'⟩ := hshares hinhabited hcontent
    exact ⟨v, .disjunct hs hv, hv'⟩

theorem intersect_decompose_settles {t : Space Ty} (name : String)
    (h : ∀ s ∈ decompose tc ty, ∃ r, Settles (fun n => intersect tc n s t) r ∧ Shares tc ty s t r)
    (hempty : t ≠ .empty) (hdisjunct : ∀ others, t ≠ .disjunct others) :
    ∃ r, Settles (fun n => intersect tc n (examineDecomp (decompose tc ty)) t) r ∧
      Shares tc ty (.type ty name) t r := by
  have hshares {s r : Space Ty} (h : Shares tc ty s t r) : Shares tc ty (.type ty name) t r := by
    intro hinhabited hcontent
    obtain ⟨v, hv, hv'⟩ := h hinhabited hcontent
    exact ⟨v, .type name hv.hasType, hv'⟩
  match hspaces : decompose tc ty with
  | [] => exact ⟨.empty, (Settles.pure _).step fun n => rfl, shares_empty _ _⟩
  | [s] =>
    obtain ⟨r, hr, hs⟩ := h s (by rw [hspaces]; exact List.mem_singleton_self s)
    exact ⟨r, hr, hshares hs⟩
  | s₁ :: s₂ :: rest =>
    rw [hspaces] at h
    obtain ⟨r, hr, hs⟩ := intersect_disjunct_settles h hempty hdisjunct
    exact ⟨r, hr, hshares hs⟩

variable (tc) in
theorem intersect_constructor (ty₁ ty' : Ty) (head : String) (spaces : List (Space Ty)) {others : List (Space Ty)}
    (downgrade₁ downgrade : Bool) (hnil : others.isEmpty = false) (n : Nat) :
    intersect tc (n + 1) (.constructor ty₁ head downgrade₁ spaces) (.constructor ty' head downgrade others) = (do
      match ← intersectParams tc (intersect tc n) (spaces.zip others) with
      | none => return .empty
      | some paramSpace => return examineDecomp paramSpace) := by
  rw [intersect, if_neg (not_not_intro rfl), hnil]
  exact if_neg Bool.false_ne_true

theorem intersect_constructor_settles {c : Signature Ty} {spaces others : List (Space Ty)} (ty₁ ty' : Ty)
    (downgrade₁ downgrade : Bool) (hc : c ∈ tc.signatures ty) (hspaces : spaces.length = c.arguments.length)
    (hothers : others.length = c.arguments.length)
    (h : ∀ (i : Nat) a s t, c.arguments[i]? = some a → spaces[i]? = some s → others[i]? = some t →
      ∃ r, Settles (fun n => intersect tc n s t) r ∧ Shares tc a.type s t r) :
    ∃ r, Settles (fun n => intersect tc n (.constructor ty₁ c.head downgrade₁ spaces)
        (.constructor ty' c.head downgrade others)) r ∧
      Shares tc ty (.constructor ty₁ c.head downgrade₁ spaces) (.constructor ty' c.head downgrade others) r := by
  cases hnil : others.isEmpty with
  | true =>
    refine ⟨_, (Settles.pure _).step fun n => by
      rw [intersect, if_neg (not_not_intro rfl), if_pos hnil], fun _ _ => ?_⟩
    refine shares_arguments hc hspaces hothers fun i a s t _ _ ht => ?_
    exact absurd hnil (not_isEmpty_of_getElem? ht)
  | false =>
    have hstep := intersect_constructor tc ty₁ ty' c.head spaces downgrade₁ downgrade hnil
    obtain ⟨o, ho, hall⟩ := intersectParams_settles (f := intersect tc) (R := fun i r => ∀ a s t,
        c.arguments[i]? = some a → spaces[i]? = some s → others[i]? = some t → Shares tc a.type s t r)
      fun i p hp => by
        obtain ⟨hs, ht⟩ := List.getElem?_zip_eq_some.1 hp
        obtain ⟨a, ha⟩ := exists_getElem?_of_length hothers.symm ht
        obtain ⟨r, hr, hshares⟩ := h i a _ _ ha hs ht
        refine ⟨r, hr, fun a' s' t' ha' hs' ht' => ?_⟩
        rw [← Option.some.inj (ha.symm.trans ha'), ← Option.some.inj (hs.symm.trans hs'),
          ← Option.some.inj (ht.symm.trans ht')]
        exact hshares
    cases o with
    | none => exact ⟨.empty, Settles.step (ho.bind (.pure _)) hstep, shares_empty _ _⟩
    | some paramSpace =>
      refine ⟨_, Settles.step (ho.bind (.pure _)) hstep, fun hinhabited _ => ?_⟩
      refine shares_arguments hc hspaces hothers fun i a s t ha hs ht => ?_
      have hi := (List.getElem?_eq_some_iff.1 (getElem?_zip hs ht)).1
      obtain ⟨r, hshares, hcontent⟩ := hall paramSpace rfl i hi
      exact hshares a s t ha hs ht (hinhabited.component ⟨c, hc, a, List.mem_of_getElem? ha, rfl⟩) hcontent

theorem intersect_settles {s t : Space Ty} (hs : Typed tc ty s) (ht : Typed tc ty t) :
    ∃ r, Settles (fun n => intersect tc n s t) r ∧ Shares tc ty s t r := by
  induction ht generalizing s with
  | empty =>
    refine ⟨.empty, (Settles.pure _).step fun n => ?_, shares_empty s _⟩
    cases s <;> rfl
  | @disjunct ty others hall ih =>
    obtain ⟨intersectedCases, hsettles, hcases⟩ := Settles.mapM fun t ht => ih t ht hs
    cases s with
    | empty => exact ⟨.empty, (Settles.pure _).step fun n => rfl, shares_empty _ _⟩
    | _ =>
      refine ⟨_, (hsettles.map fun spaces => examineDecomp (spaces.filter (!·.isEmpty))).step fun n => rfl,
        fun hinhabited hcontent => ?_⟩
      obtain ⟨r, hr, hcontent⟩ := content_filter.1 hcontent
      obtain ⟨t, ht, hshares⟩ := hcases r hr
      obtain ⟨v, hv, hv'⟩ := hshares hinhabited hcontent
      exact ⟨v, hv, .disjunct ht hv'⟩
  | @type ty name' =>
    induction hs using Typed.decompose_induct with
    | empty => exact ⟨.empty, (Settles.pure _).step fun n => rfl, shares_empty _ _⟩
    | type name =>
      refine ⟨.type ty name', (Settles.pure _).step fun n => by rw [intersect, if_pos rfl],
        fun hinhabited hcontent => ?_⟩
      obtain ⟨v, hv⟩ := (Typed.type name').value hinhabited hcontent
      exact ⟨v, .type name hv.hasType, hv⟩
    | booleanConstant value hbool =>
      refine ⟨.booleanConstant value, (Settles.pure _).step fun n => by rw [intersect, if_pos hbool], fun _ _ => ?_⟩
      exact ⟨.bool value, .booleanConstant hbool value, .type name' (.bool hbool value)⟩
    | constructor ty₁ head downgrade₁ spaces htyped =>
      refine ⟨_, (Settles.pure _).step fun n => rfl, fun hinhabited hcontent => ?_⟩
      obtain ⟨v, hv⟩ := htyped.value hinhabited hcontent
      exact ⟨v, hv, .type name' hv.hasType⟩
    | disjunct spaces _ ihs => exact intersect_disjunct_settles ihs (by rintro ⟨⟩) (by rintro _ ⟨⟩)
  | @booleanConstant ty hbool value' =>
    induction hs using Typed.decompose_induct with
    | empty => exact ⟨.empty, (Settles.pure _).step fun n => rfl, shares_empty _ _⟩
    | type name ihs =>
      obtain ⟨r, hr, hshares⟩ :=
        intersect_decompose_settles name ihs (by rintro ⟨⟩) (by rintro _ ⟨⟩)
      exact ⟨r, hr.step fun n => by rw [intersect, if_pos (canDecompose_of_isBool hbool)], hshares⟩
    | booleanConstant value =>
      by_cases hvalue : value = value'
      · refine ⟨.booleanConstant value, (Settles.pure _).step fun n => by rw [intersect, if_pos hvalue], fun _ _ => ?_⟩
        rw [← hvalue]
        exact ⟨.bool value, .booleanConstant hbool value, .booleanConstant hbool value⟩
      · exact ⟨.empty, (Settles.pure _).step fun n => by rw [intersect, if_neg hvalue], shares_empty _ _⟩
    | constructor ty₁ head downgrade₁ spaces htyped =>
      obtain ⟨c, hc, -⟩ := htyped.signature
      exact absurd hbool (not_isBool_of_signature hc)
    | disjunct spaces _ ihs => exact intersect_disjunct_settles ihs (by rintro ⟨⟩) (by rintro _ ⟨⟩)
  | @constructor ty c others ty' downgrade hc hothers harguments ih =>
    induction hs using Typed.decompose_induct with
    | empty => exact ⟨.empty, (Settles.pure _).step fun n => rfl, shares_empty _ _⟩
    | type name ihs =>
      obtain ⟨r, hr, hshares⟩ :=
        intersect_decompose_settles name ihs (by rintro ⟨⟩) (by rintro _ ⟨⟩)
      exact ⟨r, hr.step fun n => by rw [intersect, if_pos (canDecompose_of_signature hc)], hshares⟩
    | booleanConstant value hbool => exact absurd hbool (not_isBool_of_signature hc)
    | constructor ty₁ head downgrade₁ spaces htyped =>
      obtain ⟨c', hc', rfl, hspaces, harguments'⟩ := htyped.signature
      by_cases hhead : c'.head = c.head
      · obtain rfl := signature_unique hc' hc hhead
        exact intersect_constructor_settles ty₁ ty' downgrade₁ downgrade hc hspaces hothers
          fun i a s t ha hs ht => ih i a t ha ht (harguments' i a s ha hs)
      · exact ⟨.empty, (Settles.pure _).step fun n => by rw [intersect, if_pos hhead], shares_empty _ _⟩
    | disjunct spaces _ ihs => exact intersect_disjunct_settles ihs (by rintro ⟨⟩) (by rintro _ ⟨⟩)

end SwiftKStdlib.SpaceEngine.Space
