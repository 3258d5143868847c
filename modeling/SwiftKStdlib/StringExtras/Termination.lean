import SwiftKStdlib.StringExtras.MatchingSteps
import SwiftKStdlib.StringExtras.Splicing
import SwiftKStdlib.StringExtras.WordWalks

/-!
# The matching loop comes to an end

* `TypeText` : what is needed of a type name, so that no suffix is all of it;
* `returns_skipTypeSuffix` : a suffix is dropped, and something is left;
* `returns_body` : an iteration lowers the measure; `returns_matchWords`;
* `returns_omitNeedlessWords` : the result is there, and a base name is not emptied.
-/

namespace SwiftKStdlib.StringExtras

open Lib

variable {s name t : StringRef} {it : ReverseWordIterator} {role : NameRole} {typeName : OmissionTypeName}
variable {props : Option InheritedNameSet} {omitElement : StringRef → Option StringRef}

theorem returns_getLastWord (hlen : s.length < 2 ^ 31) : Returns (getLastWord s) fun word => word <:+ s := by
  by_cases hne : s = []
  · subst hne
    exact .pure List.suffix_rfl
  · have hbackwards := backwards_take s hlen (Nat.le_refl _)
    have hflat := hbackwards.flatten
    rw [List.take_length] at hbackwards hflat
    rw [getLastWord_eq hbackwards hne hlen]
    cases hlast : ((blocks s).flatMap Block.backward).getLast? with
    | none =>
        rw [List.getLast?_eq_none_iff.1 hlast] at hflat
        exact absurd hflat.symm hne
    | some word =>
        obtain ⟨before, hwords⟩ := List.getLast?_eq_some_iff.1 hlast
        rw [hwords, List.flatten_append, List.flatten_singleton] at hflat
        exact .pure ⟨_, hflat⟩

theorem computeNextPosition_isSome {i : Nat} (h : i < s.length) : ∃ j, computeNextPosition s i = some j := by
  simp only [computeNextPosition, guard, h, if_true]
  split_ifs
  all_goals exact ⟨_, rfl⟩

theorem returns_getFirstWord (s : StringRef) : Returns (getFirstWord s) fun word => word <+: s := by
  by_cases hne : s = []
  · subst hne
    exact .pure List.prefix_rfl
  · obtain ⟨j, hj⟩ := computeNextPosition_isSome (List.length_pos_of_ne_nil hne)
    have hempty : ¬ s.isEmpty = true := by simpa using hne
    have hit : (⟨s, unsigned 0, none, none⟩ : WordIterator).nextPosition = some j := hj
    rw [getFirstWord, if_neg hempty, wordIterator_eq hne]
    simp only [Option.bind_eq_bind, Option.bind_some, WordIterator.deref_eq hit]
    exact .pure (List.take_prefix _ _)

/-! ## Suffixes of type names -/

/-- The text of a type name: it does not begin with a digit, and its positions fit the bit-fields. -/
structure TypeText (s : StringRef) : Prop where
  noDigit : ∀ c ∈ s.head?, isDigit c = false
  length_lt : s.length < 2 ^ 31

/-- What is left of a type name. -/
structure Shortened (s t : StringRef) : Prop where
  ne_nil : t ≠ []
  text : TypeText t
  length_lt : t.length < s.length

theorem TypeText.shortened (h : TypeText s) {n : Nat} (hpos : 0 < n) (hlt : n < s.length) : Shortened s (s.take n) := by
  have hlength : (s.take n).length = n := List.length_take_of_le hlt.le
  have hne : s.take n ≠ [] := List.ne_nil_of_length_pos (by omega)
  refine ⟨hne, ⟨?_, ?_⟩, ?_⟩
  · intro c hc
    rw [List.head?_take, if_neg (by omega)] at hc
    exact h.noDigit c hc
  · have := h.length_lt
    omega
  · omega

theorem TypeText.skipBack_pos (h : TypeText s) {n : Nat} (hn : 0 < n) (hlen : n ≤ s.length) :
    0 < skipBack s isDigit n := by
  have hlength : (s.take n).length = n := List.length_take_of_le hlen
  obtain ⟨c, rest, htake⟩ : ∃ c rest, s.take n = c :: rest := List.exists_cons_of_length_pos (by omega)
  have hc : isDigit c = false := by
    apply h.noDigit
    have hhead := congrArg List.head? htake
    rwa [List.head?_take, if_neg (by omega)] at hhead
  have hprefix := List.takeWhile_prefix isDigit (l := (s.take n).reverse)
  have hle := hprefix.length_le
  rw [List.length_reverse, hlength] at hle
  rw [skipBack]
  by_contra hzero
  -- all of them would be digits
  have heq := hprefix.eq_of_length (by rw [List.length_reverse]; omega)
  have hmem : c ∈ (s.take n).reverse := by simp [htake]
  rw [← heq] at hmem
  rw [List.all_eq_true.1 List.all_takeWhile c hmem] at hc
  cases hc

theorem TypeText.returns_skipTypeSuffix (h : TypeText t) :
    Returns (skipTypeSuffix t) fun r => ∀ t', r = some t' → Shortened t t' := by
  have hnone : Returns (some (none : Option StringRef)) fun r => ∀ t', r = some t' → Shortened t t' :=
    .pure (by simp)
  have hsome : ∀ n, 0 < n → n < t.length →
      Returns (some (some (t.take n))) fun r => ∀ t', r = some t' → Shortened t t' := by
    intro n hpos hlt
    exact .pure fun t' ht' => Option.some.inj ht' ▸ h.shortened hpos hlt
  have hback : ∀ n, 0 < n → n < t.length →
      Returns (some (some (t.dropBack n))) fun r => ∀ t', r = some t' → Shortened t t' :=
    fun n hpos hlt => hsome (t.length - n) (by omega) (by omega)
  rw [skipTypeSuffix]
  refine .ite (fun _ => hnone) fun _ => (returns_getLastWord h.length_lt).bind fun lastWord _ => ?_
  refine .ite (fun hc => hback 4 (by omega) ?_) fun _ => ?_
  · simpa using (Bool.and_eq_true_iff.1 hc).2
  refine .ite (fun hc => hback 3 (by omega) ?_) fun _ => ?_
  · simpa using (Bool.and_eq_true_iff.1 hc).2
  refine .ite (fun hc => hback 4 (by omega) ?_) fun _ => ?_
  · simpa using (Bool.and_eq_true_iff.1 hc).2
  refine .ite (fun hc => ?_) fun _ => .ite (fun hc => hback 2 (by omega) ?_) fun _ => hnone
  · simp only [Bool.and_eq_true, decide_eq_true_eq] at hc
    exact hsome _ (h.skipBack_pos (by omega) (Nat.sub_le _ _)) (by omega)
  · simp only [Bool.and_eq_true, decide_eq_true_eq] at hc
    exact hc.1

/-! ## One iteration -/

theorem Walked.returns_next (hw : Walked s it) (h : it.base.Position ≠ 0) :
    Returns it.next fun it' => Walked s it' ∧ it'.base.Position < it.base.Position := by
  obtain ⟨it', hnext⟩ := hw.exists_next h
  exact ⟨it', hnext, hw.step hnext⟩

theorem Walked.returns_deref (hw : Walked s it) (h : it.base.Position ≠ 0) : Returns it.deref fun _ => True := by
  obtain ⟨word, hword⟩ := hw.exists_deref h
  exact ⟨word, hword, trivial⟩

theorem returns_wordIterator_end (h : s ≠ []) :
    Returns (wordIterator s s.length) fun it => Walked s ⟨it⟩ ∧ it.Position = unsigned s.length := by
  have hit := wordIterator_eq h s.length
  exact ⟨_, hit, walked_rbegin hit, rfl⟩

theorem returns_firstCase {α : Type} {cases : List (Option (Option α))}
    (h : ∀ case ∈ cases, Returns case fun _ => True) : Returns (firstCase cases) fun _ => True := by
  induction cases with
  | nil => exact .pure trivial
  | cons case cases ih =>
      rw [List.forall_mem_cons] at h
      refine h.1.bind fun r _ => ?_
      cases r with
      | some a => exact .pure trivial
      | none => exact ih h.2

/-- The invariant of the loop, with what makes it end. -/
structure LoopInv (name : StringRef) (s : MatchState) : Prop where
  inv : MatchInv name s
  ne_nil : s.typeName ≠ []
  text : TypeText s.typeName

def MatchState.measure (s : MatchState) : Nat := s.namePosition + s.typeName.length

section Cases

variable {s : MatchState} {nameWord typeWord collectionElement : StringRef}

theorem MatchStep.loopInv {s' : MatchState} (h : MatchStep name s s') (hinv : LoopInv name s) :
    LoopInv name s' ∧ s'.measure < s.measure := by
  have hstep := h.inv hinv.inv
  cases h with
  | @matched nameIter typeIter hname hlt _ =>
      have htype : s.matched.typeName = s.typeName := by
        unfold MatchState.matched
        split <;> rfl
      refine ⟨⟨hstep, ?_, ?_⟩, ?_⟩
      · show s.matched.typeName ≠ []
        rw [htype]
        exact hinv.ne_nil
      · show TypeText s.matched.typeName
        rw [htype]
        exact hinv.text
      · show nameIter.base.Position + s.matched.typeName.length < _
        rw [htype, MatchState.measure]
        omega
  | passed _ _ hlt => exact ⟨⟨hstep, hinv.ne_nil, hinv.text⟩, Nat.add_lt_add_right hlt _⟩
  | suffix _ hsuffix _ =>
      obtain ⟨r, hr, hshort⟩ := hinv.text.returns_skipTypeSuffix
      obtain rfl := Option.some.inj (hr.symm.trans hsuffix)
      have hshort := hshort _ rfl
      exact ⟨⟨hstep, hshort.ne_nil, hshort.text⟩, Nat.add_lt_add_left hshort.length_lt _⟩

variable (hinv : LoopInv name s) (hname : s.namePosition ≠ 0) (htype : s.typeWordRevIter.base.Position ≠ 0)

include hinv hname htype

theorem returns_advance : Returns s.advance fun _ => True :=
  (hinv.inv.nameIter.returns_next hname).bind fun _ _ =>
    (hinv.inv.typeIter.returns_next htype).bind fun _ _ => .pure trivial

theorem returns_sameWord : Returns (s.sameWord nameWord typeWord) fun _ => True :=
  .ite (fun _ => (returns_advance hinv hname htype).bind fun _ _ => .pure trivial) fun _ => .pure trivial

theorem returns_indexInt : Returns (s.indexInt nameWord typeWord) fun _ => True :=
  .ite (fun _ => (returns_advance hinv hname htype).bind fun _ _ => .pure trivial) fun _ => .pure trivial

theorem returns_indexSet : Returns (s.indexSet nameWord typeWord) fun _ => True := by
  refine .ite (fun _ => ?_) fun _ => .pure trivial
  refine (hinv.inv.typeIter.returns_next htype).bind fun nextIter hnext => ?_
  refine .ite (fun hpos => ?_) fun _ => .pure trivial
  have hpos : nextIter.base.Position ≠ 0 := by simpa using hpos
  refine (hnext.1.returns_deref hpos).bind fun _ _ => ?_
  refine .ite (fun _ => ?_) fun _ => .pure trivial
  refine (hinv.inv.nameIter.returns_next hname).bind fun _ _ => ?_
  exact (hnext.1.returns_next hpos).bind fun _ _ => .pure trivial

theorem returns_objectValue : Returns (s.objectValue nameWord typeWord) fun _ => True := by
  refine .ite (fun _ => ?_) fun _ => .pure trivial
  refine (hinv.inv.nameIter.returns_next hname).bind fun nextIter hnext => ?_
  refine .ite (fun hpos => ?_) fun _ => .pure trivial
  have hpos : nextIter.base.Position ≠ 0 := by simpa using hpos
  refine (hnext.1.returns_deref hpos).bind fun _ _ => ?_
  refine .ite (fun _ => ?_) fun _ => .pure trivial
  refine (hnext.1.returns_next hpos).bind fun _ _ => ?_
  exact (hinv.inv.typeIter.returns_next htype).bind fun _ _ => .pure trivial

omit htype in
theorem returns_skipWord : Returns (s.skipWord role) fun _ => True :=
  .ite (fun _ => (hinv.inv.nameIter.returns_next hname).bind fun _ _ => .pure trivial) fun _ => .pure trivial

omit hname htype in
theorem returns_typeSuffix : Returns (s.typeSuffix name) fun _ => True := by
  refine .ite (fun _ => ?_) fun _ => .pure trivial
  refine hinv.text.returns_skipTypeSuffix.bind fun suffix hsuffix => ?_
  cases suffix with
  | none => exact .pure trivial
  | some typeName => exact (returns_wordIterator_end (hsuffix _ rfl).ne_nil).bind fun _ _ => .pure trivial

end Cases

section Loop

variable {s : MatchState} {nameWord collectionElement : StringRef} {targetSize fuel : Nat}

theorem returns_skipTo (hw : Walked name it) (hfuel : it.base.Position < fuel) :
    Returns (iterate (MatchState.skipTo.body targetSize) fuel it) fun _ => True := by
  refine Returns.iterate (fun it => it.base.Position) (Walked name) ?_ hw hfuel
  intro it hw
  refine .ite (fun hpos => ?_) fun _ => .pure trivial
  exact (hw.returns_next (Nat.ne_of_gt (Nat.zero_lt_of_lt hpos))).bind fun it' h => .pure h

theorem returns_omitPlural (h : ∀ x, Returns (omitElement x) fun _ => True) (x : StringRef) :
    Returns (MatchState.omitPlural omitElement x) fun _ => True :=
  (h x).bind fun _ _ => .ite (fun _ => h x) fun _ => .pure trivial

theorem returns_plural (hElement : collectionElement ≠ [] → ∀ x, Returns (omitElement x) fun _ => True)
    (hinv : LoopInv name s) : Returns (s.plural omitElement name collectionElement role nameWord) fun _ => True := by
  refine .ite (fun hcond => ?_) fun _ => .pure trivial
  have hne : collectionElement ≠ [] := by
    rintro rfl
    simp at hcond
  refine (returns_omitPlural (hElement hne) _).bind fun shortened _ => ?_
  refine .ite (fun _ => ?_) fun _ => .pure trivial
  exact (returns_skipTo hinv.inv.nameIter (Nat.lt_succ_of_le hinv.inv.nameIter.le)).bind fun _ _ => .pure trivial

theorem returns_body (hElement : collectionElement ≠ [] → ∀ x, Returns (omitElement x) fun _ => True)
    (hlength : ∀ x y, omitElement x = some y → y.length ≤ x.length) (hinv : LoopInv name s) :
    Returns (matchWords.body omitElement name collectionElement role s)
      (Step.All (fun s' => LoopInv name s' ∧ s'.measure < s.measure) (LoopInv name)) := by
  have hreturns : Returns (matchWords.body omitElement name collectionElement role s) fun _ => True := by
    refine .ite (fun _ => .pure trivial) fun hend => ?_
    rw [Bool.or_eq_true, not_or, beq_iff_eq, beq_iff_eq] at hend
    refine (hinv.inv.nameIter.returns_deref hend.1).bind fun nameWord _ => ?_
    refine (hinv.inv.typeIter.returns_deref hend.2).bind fun typeWord _ => ?_
    refine (returns_firstCase ?_).bind fun next _ => ?_
    · simp only [List.forall_mem_cons, List.not_mem_nil, false_imp_iff, implies_true, and_true]
      exact ⟨returns_sameWord hinv hend.1 hend.2, returns_indexSet hinv hend.1 hend.2,
        returns_indexInt hinv hend.1 hend.2, returns_objectValue hinv hend.1 hend.2, returns_plural hElement hinv,
        returns_typeSuffix hinv, returns_skipWord hinv hend.1⟩
    · cases next with
      | some s => exact .pure trivial
      | none => exact .pure trivial
  obtain ⟨r, hr, -⟩ := hreturns
  refine ⟨r, hr, ?_⟩
  cases r with
  | next s' => exact (matchStep_body hlength hinv.inv hr).loopInv hinv
  | done s' => exact body_done hr ▸ hinv

theorem returns_matchWords (hElement : typeName.CollectionElement ≠ [] → ∀ x, Returns (omitElement x) fun _ => True)
    (hlength : ∀ x y, omitElement x = some y → y.length ≤ x.length) (hname : name ≠ []) (htype : typeName.Name ≠ [])
    (htext : TypeText typeName.Name) : Returns (matchWords omitElement name typeName role) (LoopInv name) := by
  refine (returns_wordIterator_end hname).bind fun nameIter hnameIter => ?_
  refine (returns_wordIterator_end htype).bind fun typeIter htypeIter => ?_
  refine Returns.iterate MatchState.measure (LoopInv name) (fun s hs => returns_body hElement hlength hs) ?_ ?_
  · exact ⟨⟨hnameIter.1, htypeIter.1, fun h => absurd h Bool.false_ne_true⟩, htype, htext⟩
  · show nameIter.Position + typeName.Name.length < _
    have := hnameIter.1.le
    change nameIter.Position ≤ name.length at this
    omega

end Loop

/-! ## What becomes of the name -/

section Names

variable {s : MatchState}

theorem returns_textMatchesPropertyName {text : StringRef} (h : text ≠ []) :
    Returns (textMatchesPropertyName text props) fun _ => True := by
  obtain ⟨b, hb⟩ : ∃ b, textMatchesPropertyName text props = some b := exists_textMatchesPropertyName h
  exact ⟨b, hb, trivial⟩

theorem drop_ne_nil {n : Nat} (h : n < name.length) : name.drop n ≠ [] := by
  rw [Ne, List.drop_eq_nil_iff]
  omega

theorem returns_stripRedundant (hlt : s.namePosition < name.length) :
    Returns (stripRedundant name role props s) fun _ => True := by
  refine .ite (fun _ => ?_) fun _ => .pure trivial
  exact (returns_textMatchesPropertyName (drop_ne_nil hlt)).bind fun _ _ =>
    .ite (fun _ => .pure trivial) fun _ => .pure trivial

theorem returns_splice (hlt : s.namePosition < name.length) (hpos : 0 < s.firstPosition) :
    Returns (splice name role props s) fun _ => True := by
  have hne : name.substr s.namePosition s.firstPosition ≠ [] := by
    rw [StringRef.substr, Ne, List.take_eq_nil_iff, not_or]
    exact ⟨Nat.ne_of_gt hpos, drop_ne_nil hlt⟩
  exact (returns_textMatchesPropertyName hne).bind fun _ _ => .ite (fun _ => .pure trivial) fun _ => .pure trivial

theorem returns_stripMatched (hinv : MatchInv name s) (hany : s.anyMatches = true) :
    Returns (stripMatched name role props s) fun _ => True := by
  obtain ⟨hlt, hle⟩ := hinv.first hany
  refine .ite (fun _ => .ite (fun _ => .pure trivial) fun _ => .pure trivial) fun hzero => ?_
  have hpos : s.namePosition ≠ 0 := by simpa using hzero
  obtain ⟨b, hb⟩ := exists_justError hinv.nameIter
  refine Returns.bind (P := fun _ => True) ⟨b, hb, trivial⟩ fun b _ => ?_
  refine .ite (fun _ => .pure trivial) fun _ => ?_
  have hself : Returns (stripSelf name role props s) fun _ => True := by
    refine (hinv.nameIter.returns_deref hpos).bind fun word _ => ?_
    cases getPartOfSpeech word with
    | Verb => exact returns_splice (by omega) (by omega)
    | Unknown => exact .pure trivial
    | Preposition => exact .pure trivial
    | Gerund => exact .pure trivial
  have hword : Returns (stripWord name role props s) fun _ => True := by
    refine (hinv.nameIter.returns_deref hpos).bind fun word _ => ?_
    cases getPartOfSpeech word with
    | Unknown => exact .pure trivial
    | Verb => exact returns_stripRedundant (by omega)
    | Gerund => exact returns_stripRedundant (by omega)
    | Preposition =>
        refine .ite (fun _ => ?_) fun _ => returns_stripRedundant (by omega)
        exact (hinv.nameIter.returns_next hpos).bind fun _ _ => .ite (fun _ => .pure trivial) fun _ => .pure trivial
  cases role with
  | Property => exact .pure trivial
  | BaseNameSelf => exact hself
  | BaseName => exact hword
  | FirstParameter => exact hword
  | SubsequentParameter => exact hword
  | Partial => exact hword

def NameRole.KeepsName (role : NameRole) : Prop := role ≠ .Partial ∧ role ≠ .FirstParameter

theorem Stripped.head?_eq {y : StringRef} (h : Stripped name role s y) (hrole : role.KeepsName) :
    y.head? = name.head? := by
  cases h with
  | unchanged => rfl
  | all hall => exact absurd hall (not_or.2 hrole)
  | cut hpos => rw [StringRef.substr, List.drop_zero, List.head?_take, if_neg hpos]
  | spliced _ hpos =>
      cases name with
      | nil => simp [StringRef.substr]
      | cons c name =>
          obtain ⟨n, hn⟩ := Nat.exists_eq_succ_of_ne_zero hpos
          rw [StringRef.substr, List.drop_zero, hn, List.take_succ_cons]
          rfl

theorem returns_with (hElement : typeName.CollectionElement ≠ [] → ∀ x, Returns (omitElement x) fun _ => True)
    (hlength : ∀ x y, omitElement x = some y → y.length ≤ x.length) (htext : TypeText typeName.Name) :
    Returns (omitNeedlessWords.with omitElement name typeName role props)
      fun y => y.length ≤ name.length ∧ (role.KeepsName → y.head? = name.head?) := by
  refine .ite (fun _ => .pure ⟨Nat.le_refl _, fun _ => rfl⟩) fun hempty => ?_
  rw [Bool.or_eq_true, not_or, OmissionTypeName.empty, List.isEmpty_iff, List.isEmpty_iff] at hempty
  refine (returns_matchWords hElement hlength hempty.1 hempty.2 htext).bind fun s hs => ?_
  refine .ite (fun hany => ?_) fun _ => .pure ?_
  · have hreturns : Returns (stripMatched name role props s) fun _ => True := returns_stripMatched hs.inv hany
    refine (hreturns.of_eq ?_).mono fun y h => h.2
    intro y hy
    have hstripped := stripped_stripMatched hy
    exact ⟨hstripped.length_le (hs.inv.first hany).1.le, hstripped.head?_eq⟩
  · rw [checkName_self]
    exact ⟨Nat.le_refl _, fun _ => rfl⟩

structure TypeTexts (type : OmissionTypeName) : Prop where
  name : TypeText type.Name
  collectionElement : TypeText type.CollectionElement

theorem returns_omitNeedlessWords (h : TypeTexts typeName) :
    Returns (omitNeedlessWords name typeName role props)
      fun y => y.length ≤ name.length ∧ (role.KeepsName → y.head? = name.head?) := by
  refine returns_with (fun _ x => ?_) (fun x y => omitElement_length_le) h.name
  have htext : TypeText (OmissionTypeName.ofString typeName.CollectionElement).Name := h.collectionElement
  exact (returns_with (fun hne => absurd rfl hne) (fun x y hy => absurd hy.symm (Option.some_ne_none y)) htext).mono
    fun _ _ => trivial

end Names

end SwiftKStdlib.StringExtras
