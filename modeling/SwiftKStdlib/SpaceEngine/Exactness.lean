import SwiftKStdlib.SpaceEngine.Settling

/-!
# The algebra of spaces is exact

* `Remains` : a difference has only values of the first space that are not in the second;
* `minus_settles` : differences come to an end;
* `algebra_exact` : subspaces, intersections and differences, as sets of values.
-/

namespace SwiftKStdlib.SpaceEngine.Space

open SwiftKStdlib.Lib

variable {Ty : Type} {tc : TypeContext Ty} {ty : Ty}

/-! ## What remains -/

/-- A space of the type, whose values are in `s` and not in `t`. -/
structure Remains (tc : TypeContext Ty) (ty : Ty) (s t r : Space Ty) : Prop where
  typed : Typed tc ty r
  left : ∀ v, Contains tc ty r v → Contains tc ty s v
  right : ∀ v, Contains tc ty r v → ¬ Contains tc ty t v

theorem remains_empty (s t : Space Ty) : Remains tc ty s t .empty where
  typed := .empty
  left := nofun
  right := nofun

theorem remains_examineDecomp {s t : Space Ty} {spaces : List (Space Ty)} (h : ∀ r ∈ spaces, Remains tc ty s t r) :
    Remains tc ty s t (examineDecomp spaces) where
  typed := by
    match spaces with
    | [] => exact .empty
    | [r] => exact (h r (List.mem_singleton_self r)).typed
    | r₁ :: r₂ :: rest => exact .disjunct fun r hr => (h r hr).typed
  left := fun v hv => by
    obtain ⟨r, hr, hv⟩ := contains_examineDecomp.1 hv
    exact (h r hr).left v hv
  right := fun v hv => by
    obtain ⟨r, hr, hv⟩ := contains_examineDecomp.1 hv
    exact (h r hr).right v hv

theorem Remains.mono {s s' t r : Space Ty} (h : Remains tc ty s t r)
    (hs : ∀ v, Contains tc ty s v → Contains tc ty s' v) : Remains tc ty s' t r where
  typed := h.typed
  left := fun v hv => hs v (h.left v hv)
  right := h.right

theorem remains_self {s t : Space Ty} (hs : Typed tc ty s)
    (h : ∀ v, Contains tc ty s v → ¬ Contains tc ty t v) : Remains tc ty s t s where
  typed := hs
  left := fun _ hv => hv
  right := h

theorem remains_set {c : Signature Ty} {spaces others : List (Space Ty)} (ty₁ ty' : Ty)
    (downgrade₁ downgrade : Bool) (hc : c ∈ tc.signatures ty)
    (hs : Typed tc ty (.constructor ty₁ c.head downgrade₁ spaces)) {i : Nat} {a : TupleTypeElt Ty}
    {s t r : Space Ty} (ha : c.arguments[i]? = some a) (hs' : spaces[i]? = some s) (ht : others[i]? = some t)
    (hr : Remains tc a.type s t r) :
    Remains tc ty (.constructor ty₁ c.head downgrade₁ spaces) (.constructor ty' c.head downgrade others)
      (.constructor ty₁ c.head downgrade₁ (spaces.set i r)) := by
  obtain ⟨c', hc', hhead, hspaces, htyped⟩ := hs.signature
  obtain rfl := signature_unique hc' hc hhead
  have hset (j : Nat) : (spaces.set i r)[j]? = if i = j then some r else spaces[j]? := by
    rw [List.getElem?_set, if_pos (List.getElem?_eq_some_iff.1 hs').1]
  refine ⟨.constructor ty₁ downgrade₁ hc (by rw [List.length_set, hspaces]) fun j a' s' ha' hj => ?_,
    fun v hv => ?_, fun v hv hother => ?_⟩
  · rw [hset] at hj
    split_ifs at hj with hij
    · subst hij
      rw [← Option.some.inj (ha.symm.trans ha'), ← Option.some.inj hj]
      exact hr.typed
    · exact htyped j a' s' ha' hj
  · obtain ⟨vs, hvs, rfl, harguments⟩ := hv.of_constructor hc
    refine .constructor ty₁ downgrade₁ hc hspaces hvs fun j a' s'' v ha' hj hv => ?_
    by_cases hij : i = j
    · subst hij
      rw [← Option.some.inj (hs'.symm.trans hj)]
      have hremains := harguments i a' r v ha' (by rw [hset, if_pos rfl]) hv
      rw [← Option.some.inj (ha.symm.trans ha')] at hremains ⊢
      exact hr.left v hremains
    · exact harguments j a' s'' v ha' (by rw [hset, if_neg hij, hj]) hv
  · obtain ⟨vs, hvs, rfl, harguments⟩ := hv.of_constructor hc
    obtain ⟨-, -, -, hothers⟩ := hother.arguments hc
    obtain ⟨v, hv⟩ := exists_getElem?_of_length hvs ha
    exact hr.right v (harguments i a r v ha (by rw [hset, if_pos rfl]) hv) (hothers i a t v ha ht hv)

variable (tc) in
theorem minusParams_settles (constr : List (Space Ty) → Space Ty) (params : List (Space Ty)) (idx : Nat)
    {f g : Nat → Space Ty → Space Ty → Option (Space Ty)} {covers : Nat → Space Ty → Space Ty → Option Bool}
    {R : Nat → Space Ty → Prop} {l : List (Space Ty × Space Ty)}
    (hf : ∀ p ∈ l, ∃ r, Settles (fun n => f n p.1 p.2) r)
    (hcovers : ∀ p ∈ l, ∃ b, Settles (fun n => covers n p.1 p.2) b)
    (hg : ∀ (k : Nat) p, l[k]? = some p → ∃ r, Settles (fun n => g n p.1 p.2) r ∧ R (idx + k) r) :
    ∃ o, Settles (fun n => minusParams tc (f n) (g n) (covers n) constr params idx l) o ∧
      (o = none → ∃ p ∈ l, ∃ r, Settles (fun n => f n p.1 p.2) r ∧ (simplify tc r).isEmpty = true) ∧
      ∀ constrSpaces foundBad, o = some (constrSpaces, foundBad) → ∀ s ∈ constrSpaces,
        ∃ k < l.length, ∃ r, R (idx + k) r ∧ s = constr (params.set (idx + k) r) := by
  induction l generalizing idx with
  | nil =>
    refine ⟨some ([], false), .pure _, by rintro ⟨⟩, fun constrSpaces foundBad hsome s hs => ?_⟩
    rw [← (Prod.mk.inj (Option.some.inj hsome)).1] at hs
    exact absurd hs List.not_mem_nil
  | cons p rest ih =>
    obtain ⟨r, hr⟩ := hf p List.mem_cons_self
    obtain ⟨covered, hcovered⟩ := hcovers p List.mem_cons_self
    obtain ⟨difference, hdifference, hR⟩ := hg 0 p rfl
    obtain ⟨o, ho, hnone, hsome⟩ := ih (idx + 1) (fun p hp => hf p (List.mem_cons_of_mem _ hp))
      (fun p hp => hcovers p (List.mem_cons_of_mem _ hp)) fun k p' hp' => by
        rw [show idx + 1 + k = idx + (k + 1) by omega]
        exact hg (k + 1) p' hp'
    cases hempty : (simplify tc r).isEmpty with
    | true =>
      refine ⟨none, hr.bind ?_, fun _ => ⟨p, List.mem_cons_self, r, hr, hempty⟩, by rintro _ _ ⟨⟩⟩
      rw [hempty]
      exact .pure _
    | false =>
      refine ⟨o.map fun result => (constr (params.set idx difference) :: result.1, !covered || result.2),
        hr.bind ?_, fun h => ?_, fun constrSpaces foundBad h s hs => ?_⟩
      · rw [hempty]
        exact hcovered.bind (hdifference.bind (ho.bind (.pure _)))
      · obtain ⟨p', hp', hrest⟩ := hnone (Option.map_eq_none_iff.1 h)
        exact ⟨p', List.mem_cons_of_mem _ hp', hrest⟩
      · obtain ⟨⟨spaces, bad⟩, hspaces, heq⟩ := Option.map_eq_some_iff.1 h
        rw [← (Prod.mk.inj heq).1] at hs
        rcases List.mem_cons.1 hs with rfl | hs
        · exact ⟨0, Nat.succ_pos _, difference, hR, rfl⟩
        · obtain ⟨k, hk, r', hr', heq⟩ := hsome spaces bad hspaces s hs
          rw [show idx + 1 + k = idx + (k + 1) by omega] at hr' heq
          exact ⟨k + 1, Nat.succ_lt_succ hk, r', hr', heq⟩

variable [DecidableEq Ty]

theorem minus_disjunct_settles {spaces : List (Space Ty)} {t : Space Ty}
    (h : ∀ s ∈ spaces, ∃ r, Settles (fun n => minus tc n s t) r ∧ Remains tc ty s t r) (hempty : t ≠ .empty)
    (hdisjunct : ∀ others, t ≠ .disjunct others) :
    ∃ r, Settles (fun n => minus tc n (.disjunct spaces) t) r ∧ Remains tc ty (.disjunct spaces) t r := by
  obtain ⟨smallSpaces, hsettles, hall⟩ := Settles.mapM h
  refine ⟨_, (hsettles.map examineDecomp).step fun n => ?_, remains_examineDecomp fun r hr => ?_⟩
  · cases t with
    | empty => exact absurd rfl hempty
    | disjunct others => exact absurd rfl (hdisjunct others)
    | _ => rfl
  · obtain ⟨s, hs, hremains⟩ := hall r hr
    exact hremains.mono fun v hv => .disjunct hs hv

theorem minus_decompose_settles {t : Space Ty} (name : String)
    (h : ∀ s ∈ decompose tc ty, ∃ r, Settles (fun n => minus tc n s t) r ∧ Remains tc ty s t r) (hempty : t ≠ .empty)
    (hdisjunct : ∀ others, t ≠ .disjunct others) :
    ∃ r, Settles (fun n => minus tc n (examineDecomp (decompose tc ty)) t) r ∧ Remains tc ty (.type ty name) t r := by
  match hspaces : decompose tc ty with
  | [] => exact ⟨.empty, (Settles.pure _).step fun n => rfl, remains_empty _ _⟩
  | [s] =>
    obtain ⟨r, hr, hremains⟩ := h s (by rw [hspaces]; exact List.mem_singleton_self s)
    exact ⟨r, hr, hremains.mono fun v hv => .type name hv.hasType⟩
  | s₁ :: s₂ :: rest =>
    rw [hspaces] at h
    obtain ⟨r, hr, hremains⟩ := minus_disjunct_settles h hempty hdisjunct
    exact ⟨r, hr, hremains.mono fun v hv => .type name hv.hasType⟩

variable (tc) in
theorem minus_constructor (ty₁ ty' : Ty) (head : String) (spaces : List (Space Ty)) {others : List (Space Ty)}
    (downgrade₁ downgrade : Bool) (hnil : others.isEmpty = false) (n : Nat) :
    minus tc (n + 1) (.constructor ty₁ head downgrade₁ spaces) (.constructor ty' head downgrade others) = (do
      match ← minusParams tc (intersect tc n) (minus tc n) (isSubspace tc n)
          (.constructor ty₁ head downgrade₁) spaces 0 (spaces.zip others) with
      | none => return .constructor ty₁ head downgrade₁ spaces
      | some (constrSpaces, foundBad) => return if foundBad then examineDecomp constrSpaces else .empty) := by
  rw [minus, if_neg (not_not_intro rfl), hnil]
  exact if_neg Bool.false_ne_true

theorem minus_constructor_settles {c : Signature Ty} {spaces others : List (Space Ty)} (ty₁ ty' : Ty)
    (downgrade₁ downgrade : Bool) (hc : c ∈ tc.signatures ty)
    (hs : Typed tc ty (.constructor ty₁ c.head downgrade₁ spaces))
    (ht : Typed tc ty (.constructor ty' c.head downgrade others))
    (h : ∀ (i : Nat) a s t, c.arguments[i]? = some a → spaces[i]? = some s → others[i]? = some t →
      ∃ r, Settles (fun n => minus tc n s t) r ∧ Remains tc a.type s t r) :
    ∃ r, Settles (fun n => minus tc n (.constructor ty₁ c.head downgrade₁ spaces)
        (.constructor ty' c.head downgrade others)) r ∧
      Remains tc ty (.constructor ty₁ c.head downgrade₁ spaces) (.constructor ty' c.head downgrade others) r := by
  obtain ⟨c', hc', hhead, hspaces, hargumentsₛ⟩ := hs.signature
  obtain rfl := signature_unique hc' hc hhead
  obtain ⟨c'', hc'', hhead', hothers, hargumentsₜ⟩ := ht.signature
  obtain rfl := signature_unique hc'' hc hhead'
  cases hnil : others.isEmpty with
  | true =>
    exact ⟨.empty, (Settles.pure _).step fun n => by rw [minus, if_neg (not_not_intro rfl), if_pos hnil],
      remains_empty _ _⟩
  | false =>
    have hstep := minus_constructor tc ty₁ ty' c''.head spaces downgrade₁ downgrade hnil
    have hpair {p : Space Ty × Space Ty} (hp : p ∈ spaces.zip others) :
        ∃ a : TupleTypeElt Ty, Typed tc a.type p.1 ∧ Typed tc a.type p.2 := by
      obtain ⟨i, hs, ht⟩ := exists_getElem?_of_mem_zip hp
      obtain ⟨a, ha⟩ := exists_getElem?_of_length hothers.symm ht
      exact ⟨a, hargumentsₛ i a _ ha hs, hargumentsₜ i a _ ha ht⟩
    obtain ⟨o, ho, hnone, hsome⟩ := minusParams_settles tc (.constructor ty₁ c''.head downgrade₁) spaces 0
      (R := fun i r => ∃ a s t, c''.arguments[i]? = some a ∧ spaces[i]? = some s ∧ others[i]? = some t ∧
        Remains tc a.type s t r)
      (fun p hp => by
        obtain ⟨a, hs, ht⟩ := hpair hp
        obtain ⟨r, hr, -⟩ := intersect_settles hs ht
        exact ⟨r, hr⟩)
      (fun p hp => by
        obtain ⟨a, hs, ht⟩ := hpair hp
        exact isSubspace_settles hs ht)
      fun i p hp => by
        obtain ⟨hs, ht⟩ := List.getElem?_zip_eq_some.1 hp
        obtain ⟨a, ha⟩ := exists_getElem?_of_length hothers.symm ht
        obtain ⟨r, hr, hremains⟩ := h i a _ _ ha hs ht
        refine ⟨r, hr, a, p.1, p.2, ?_⟩
        rw [Nat.zero_add]
        exact ⟨ha, hs, ht, hremains⟩
    cases o with
    | none =>
      refine ⟨_, Settles.step (ho.bind (.pure _)) hstep, remains_self hs fun v hv hv' => ?_⟩
      -- the values would agree on the argument where the spaces are disjoint
      obtain ⟨p, hp, r, hr, hempty⟩ := hnone rfl
      obtain ⟨i, hs, ht⟩ := exists_getElem?_of_mem_zip hp
      obtain ⟨a, ha⟩ := exists_getElem?_of_length hothers.symm ht
      obtain ⟨vs, hvs, rfl, harguments⟩ := hv.of_constructor hc
      obtain ⟨-, -, -, harguments'⟩ := hv'.arguments hc
      obtain ⟨v, hv⟩ := exists_getElem?_of_length hvs ha
      obtain ⟨n, hn⟩ := hr.result
      exact intersect_content n (harguments i a _ v ha hs hv) (harguments' i a _ v ha ht hv) hn hempty
    | some result =>
      obtain ⟨constrSpaces, foundBad⟩ := result
      refine ⟨_, Settles.step (ho.bind (.pure _)) hstep, ?_⟩
      cases foundBad with
      | false => exact remains_empty _ _
      | true =>
        refine remains_examineDecomp fun r hr => ?_
        obtain ⟨i, -, difference, ⟨a, s, t, ha, hs', ht', hremains⟩, rfl⟩ := hsome constrSpaces true rfl r hr
        exact remains_set ty₁ ty' downgrade₁ downgrade hc hs ha hs' ht' hremains

theorem minus_fold_settles (before : List (Space Ty)) {s left : Space Ty} {others : List (Space Ty)}
    (h : ∀ s, Typed tc ty s → ∀ t ∈ others, ∃ r, Settles (fun n => minus tc n s t) r ∧ Remains tc ty s t r)
    (hleft : Remains tc ty s (.disjunct before) left) :
    ∃ r, Settles (fun n => others.foldlM (fun left right => minus tc n left right) left) r ∧
      Remains tc ty s (.disjunct (before ++ others)) r := by
  refine Settles.foldlM (P := fun left before => Remains tc ty s (.disjunct before) left) hleft
    fun left before t ht hleft => ?_
  obtain ⟨r, hr, hremains⟩ := h left hleft.typed t ht
  refine ⟨r, hr, hremains.typed, fun v hv => hleft.left v (hremains.left v hv), fun v hv hother => ?_⟩
  cases hother with
  | disjunct ht' hv' =>
    rcases List.mem_append.1 ht' with hbefore | hlast
    · exact hleft.right v (hremains.left v hv) (.disjunct hbefore hv')
    · rw [List.mem_singleton.1 hlast] at hv'
      exact hremains.right v hv hv'

theorem minus_settles {s t : Space Ty} (hs : Typed tc ty s) (ht : Typed tc ty t) :
    ∃ r, Settles (fun n => minus tc n s t) r ∧ Remains tc ty s t r := by
  induction ht generalizing s with
  | empty =>
    cases s with
    | empty => exact ⟨.empty, (Settles.pure _).step fun n => rfl, remains_empty _ _⟩
    | _ => exact ⟨_, (Settles.pure _).step fun n => rfl, remains_self hs fun _ _ => by rintro ⟨⟩⟩
  | @disjunct ty others hall ih =>
    cases s with
    | empty => exact ⟨.empty, (Settles.pure _).step fun n => rfl, remains_empty _ _⟩
    | _ =>
      obtain ⟨r, hr, hremains⟩ := minus_fold_settles [] (fun left hleft t ht => ih t ht hleft)
        (remains_self hs fun v _ hv => (by cases hv with | disjunct ht _ => exact List.not_mem_nil ht))
      exact ⟨r, hr.step fun n => rfl, hremains⟩
  | @type ty name' =>
    have hcovered {s : Space Ty} : Remains tc ty s (.type ty name') .empty := remains_empty _ _
    induction hs using Typed.decompose_induct with
    | empty => exact ⟨.empty, (Settles.pure _).step fun n => rfl, hcovered⟩
    | type name => exact ⟨.empty, (Settles.pure _).step fun n => by rw [minus, if_pos rfl], hcovered⟩
    | booleanConstant value hbool => exact ⟨.empty, (Settles.pure _).step fun n => by rw [minus, if_pos hbool], hcovered⟩
    | constructor => exact ⟨.empty, (Settles.pure _).step fun n => rfl, hcovered⟩
    | disjunct spaces _ ihs => exact minus_disjunct_settles ihs (by rintro ⟨⟩) (by rintro _ ⟨⟩)
  | @booleanConstant ty hbool value' =>
    induction hs using Typed.decompose_induct with
    | empty => exact ⟨.empty, (Settles.pure _).step fun n => rfl, remains_empty _ _⟩
    | type name ihs =>
      obtain ⟨r, hr, hremains⟩ :=
        minus_decompose_settles name ihs (by rintro ⟨⟩) (by rintro _ ⟨⟩)
      exact ⟨r, hr.step fun n => by rw [minus, if_pos (canDecompose_of_isBool hbool)], hremains⟩
    | booleanConstant value =>
      by_cases hvalue : value = value'
      · exact ⟨.empty, (Settles.pure _).step fun n => by rw [minus, if_pos hvalue], remains_empty _ _⟩
      · refine ⟨.booleanConstant value, (Settles.pure _).step fun n => by rw [minus, if_neg hvalue],
          remains_self (.booleanConstant hbool value) fun v hv hv' => ?_⟩
        cases hv with
        | booleanConstant =>
          cases hv' with
          | booleanConstant => exact hvalue rfl
    | constructor ty₁ head downgrade₁ spaces htyped =>
      obtain ⟨c, hc, -⟩ := htyped.signature
      exact absurd hbool (not_isBool_of_signature hc)
    | disjunct spaces _ ihs => exact minus_disjunct_settles ihs (by rintro ⟨⟩) (by rintro _ ⟨⟩)
  | @constructor ty c others ty' downgrade hc hothers harguments ih =>
    induction hs using Typed.decompose_induct with
    | empty => exact ⟨.empty, (Settles.pure _).step fun n => rfl, remains_empty _ _⟩
    | type name ihs =>
      obtain ⟨r, hr, hremains⟩ :=
        minus_decompose_settles name ihs (by rintro ⟨⟩) (by rintro _ ⟨⟩)
      exact ⟨r, hr.step fun n => by rw [minus, if_pos (canDecompose_of_signature hc)], hremains⟩
    | booleanConstant value hbool => exact absurd hbool (not_isBool_of_signature hc)
    | constructor ty₁ head downgrade₁ spaces htyped =>
      obtain ⟨c', hc', rfl, hspaces, harguments'⟩ := htyped.signature
      by_cases hhead : c'.head = c.head
      · obtain rfl := signature_unique hc' hc hhead
        exact minus_constructor_settles ty₁ ty' downgrade₁ downgrade hc htyped
          (.constructor ty' downgrade hc hothers harguments)
          fun i a s t ha hs ht => ih i a t ha ht (harguments' i a s ha hs)
      · refine ⟨_, (Settles.pure _).step fun n => by rw [minus, if_pos hhead], remains_self htyped fun v hv hv' => ?_⟩
        obtain ⟨vs, -, rfl, -⟩ := hv'.of_constructor hc
        exact hhead (hv.arguments hc).1
    | disjunct spaces _ ihs => exact minus_disjunct_settles ihs (by rintro ⟨⟩) (by rintro _ ⟨⟩)

/-! ## Sets of values -/

variable (tc) in
theorem algebra_exact {ty : Ty} (hinhabited : tc.Inhabited ty) {s : Space Ty} (hs : Typed tc ty s)
    {spaces : List (Space Ty)} (hspaces : ∀ t ∈ spaces, Typed tc ty t) :
    (∃ r, Settles (fun n => minus tc n s (.disjunct spaces)) r ∧ Typed tc ty r ∧
      ((simplify tc r).isEmpty = true ↔ ∀ v, Contains tc ty s v → ∃ t ∈ spaces, Contains tc ty t v)) ∧
    ∀ t ∈ spaces,
      (∃ r, Settles (fun n => intersect tc n s t) r ∧
        ((simplify tc r).isEmpty = true ↔ ¬ ∃ v, Contains tc ty s v ∧ Contains tc ty t v)) ∧
      ∃ b, Settles (fun n => isSubspace tc n s t) b ∧ (b = true → ∀ v, Contains tc ty s v → Contains tc ty t v) := by
  have hdisjunct : Typed tc ty (.disjunct spaces) := .disjunct hspaces
  refine ⟨?_, fun t ht => ⟨?_, ?_⟩⟩
  · obtain ⟨r, hr, hremains⟩ := minus_settles hs hdisjunct
    obtain ⟨n, hn⟩ := hr.result
    refine ⟨r, hr, hremains.typed, fun hempty v hv => ?_, fun hcovered => ?_⟩
    · by_contra hnot
      have hmisses : Misses tc ty (.disjunct spaces) v :=
        hdisjunct.misses hv.hasType fun h => hnot (contains_disjunct.1 h)
      exact (minus_contains n hv hmisses hn).content hempty
    · by_contra hcontent
      obtain ⟨v, hv⟩ := hremains.typed.value hinhabited hcontent
      exact hremains.right v hv (contains_disjunct.2 (hcovered v (hremains.left v hv)))
  · obtain ⟨r, hr, hshares⟩ := intersect_settles hs (hspaces t ht)
    obtain ⟨n, hn⟩ := hr.result
    refine ⟨r, hr, fun hempty ⟨v, hv, hv'⟩ => intersect_content n hv hv' hn hempty, fun hnone => ?_⟩
    by_contra hcontent
    exact hnone (hshares hinhabited hcontent)
  · obtain ⟨b, hb⟩ := isSubspace_settles hs (hspaces t ht)
    obtain ⟨n, hn⟩ := hb.result
    refine ⟨b, hb, fun hb v hv => ?_⟩
    by_contra hnot
    rw [hb] at hn
    exact isSubspace_misses n hv ((hspaces t ht).misses hv.hasType hnot) hn

/-! ## A recursive enum -/

inductive ChainType where
  | bool
  | link
  | chain
  deriving DecidableEq

/-- `indirect enum Chain { case end; case link(Bool, Chain) }`. -/
def chainContext : TypeContext ChainType where
  view
    | .bool => .bool
    | .link => .tuple [⟨.bool, ""⟩, ⟨.chain, ""⟩]
    | .chain => .enum [⟨"end", false, true, none⟩, ⟨"link", false, true, some .link⟩]
  name_ne ty elements hview := by
    cases ty with
    | chain =>
      cases hview
      decide
    | _ => cases hview
  nodup_names ty elements hview := by
    cases ty with
    | chain =>
      cases hview
      decide
    | _ => cases hview

theorem chain_inhabited : chainContext.Inhabited .chain := by
  have hend : (Value.constructor "end" []).HasType chainContext .chain :=
    .constructor (c := ⟨"end", []⟩) List.mem_cons_self rfl fun i a v ha => by cases ha
  intro ty _ _
  cases ty with
  | bool => exact ⟨.bool true, .bool rfl true⟩
  | chain => exact ⟨_, hend⟩
  | link =>
    refine ⟨.constructor "" [.bool true, .constructor "end" []],
      .constructor (c := ⟨"", [⟨.bool, ""⟩, ⟨.chain, ""⟩]⟩) List.mem_cons_self rfl fun i a v ha hv => ?_⟩
    match i with
    | 0 =>
      cases ha
      cases hv
      exact .bool rfl true
    | 1 =>
      cases ha
      cases hv
      exact hend

/-- `case .end` and `case .link(true, _)`. -/
def chainSpaces : List (Space ChainType) :=
  [.constructor .chain "end" false [], .constructor .chain "link" false [.booleanConstant true, .type .chain ""]]

theorem algebra_exact_chain :
    (∃ r, Settles (fun n => minus chainContext n (.type .chain "") (.disjunct chainSpaces)) r ∧
      Typed chainContext .chain r ∧ ((simplify chainContext r).isEmpty = true ↔
        ∀ v, Contains chainContext .chain (.type .chain "") v → ∃ t ∈ chainSpaces, Contains chainContext .chain t v)) ∧
    ∀ t ∈ chainSpaces,
      (∃ r, Settles (fun n => intersect chainContext n (.type .chain "") t) r ∧
        ((simplify chainContext r).isEmpty = true ↔
          ¬ ∃ v, Contains chainContext .chain (.type .chain "") v ∧ Contains chainContext .chain t v)) ∧
      ∃ b, Settles (fun n => isSubspace chainContext n (.type .chain "") t) b ∧
        (b = true → ∀ v, Contains chainContext .chain (.type .chain "") v → Contains chainContext .chain t v) := by
  have hspaces : ∀ t ∈ chainSpaces, Typed chainContext .chain t := by
    intro t ht
    rcases List.mem_pair.1 ht with rfl | rfl
    · exact .constructor (c := ⟨"end", []⟩) ChainType.chain false List.mem_cons_self rfl fun i a s ha => by cases ha
    · refine .constructor (c := ⟨"link", [⟨ChainType.bool, ""⟩, ⟨ChainType.chain, ""⟩]⟩) ChainType.chain false
        (List.mem_cons_of_mem _ List.mem_cons_self) rfl fun i a s ha hs => ?_
      match i with
      | 0 =>
        cases ha
        cases hs
        exact .booleanConstant rfl true
      | 1 =>
        cases ha
        cases hs
        exact .type ""
  exact algebra_exact chainContext chain_inhabited (.type "") hspaces

end SwiftKStdlib.SpaceEngine.Space
