import SwiftKStdlib.StringExtras.OmitNeedlessWords
import SwiftKStdlib.StringExtras.WordScanning

/-!
# The steps of the matching loop

* `computePrevPosition_lt` : a step backwards goes back;
* `Walked` : an iterator that has walked backwards in a string;
* `MatchInv` : the invariant of the matching loop; `firstCase_cases`, `body_inv`, `matchWords_inv`.
-/

namespace SwiftKStdlib.StringExtras

open Lib

variable {s name collectionElement : StringRef} {i j : Nat} {p : BitVec 8 → Bool}

/-! ## A step backwards -/

theorem skipBack_le (s : StringRef) (p : BitVec 8 → Bool) (i : Nat) : skipBack s p i ≤ i := Nat.sub_le _ _

theorem bits31_le (x : Nat) : bits31 x ≤ x := Nat.mod_le _ _

theorem charAt_of_skipBack_eq (h : skipBack s p i = i) (hi : 0 < i) (hle : i ≤ s.length) :
    charAt s (i - 1) p = false := by
  obtain ⟨k, rfl⟩ := Nat.exists_eq_add_one.2 hi
  have hk : k < s.length := hle
  have htake : (s.take (k + 1)).reverse = s[k] :: (s.take k).reverse := by
    rw [List.take_succ_eq_append_getElem hk, List.reverse_append]
    rfl
  rw [skipBack, htake, List.takeWhile_cons] at h
  rw [charAt, Nat.add_sub_cancel, List.getElem?_eq_getElem hk, Option.any_some]
  by_contra hp
  rw [Bool.not_eq_false] at hp
  rw [if_pos hp, List.length_cons] at h
  omega

theorem skipBack_lt_of_charAt (h : charAt s (i - 1) p = true) (hi : 0 < i) (hle : i ≤ s.length) :
    skipBack s p i < i := by
  refine Nat.lt_of_le_of_ne (skipBack_le s p i) ?_
  intro heq
  rw [charAt_of_skipBack_eq heq hi hle] at h
  cases h

theorem charAt_cases (hi : i < s.length) (hother : charAt s i isOther = false)
    (hunder : charAt s i (· == underscore) = false) : charAt s i isUppercase = true := by
  rw [charAt, List.getElem?_eq_getElem hi, Option.any_some] at hother hunder ⊢
  by_contra hupper
  rw [isOther_of_ne (by simpa using hunder) hupper] at hother
  cases hother

theorem computePrevPosition_isSome (hi : 0 < i) : ∃ j, computePrevPosition s i = some j := by
  simp only [computePrevPosition, guard, hi, if_true]
  split_ifs
  all_goals exact ⟨_, rfl⟩

theorem computePrevPosition_lt (h : computePrevPosition s i = some j) (hi : i ≤ s.length) : j < i := by
  have hpos : 0 < i := by
    by_contra hzero
    simp only [computePrevPosition, guard, hzero, if_false] at h
    cases h
  have hle := skipBack_le s isOther i
  simp only [computePrevPosition, guard, hpos, if_true] at h
  cases hplural : decide (0 < skipBack s isOther i) && isPluralSuffix (s.slice (skipBack s isOther i) i) with
  | true =>
      -- the suffix is not empty
      have hlt : skipBack s isOther i < i := by
        refine Nat.lt_of_le_of_ne hle ?_
        intro heq
        rw [heq, StringRef.slice, Nat.sub_self, List.take_zero, Bool.and_eq_true] at hplural
        exact absurd hplural.2 (by decide)
      have hle' := skipBack_le s isOther (skipBack s isOther i)
      have hle'' := skipBack_le s isUppercase (skipBack s isOther (skipBack s isOther i))
      simp only [hplural, if_true] at h
      split_ifs at h <;> exact lt_of_le_of_lt (Option.some.inj h ▸ bits31_le _) (by omega)
  | false =>
      simp only [hplural, Bool.false_eq_true, if_false] at h
      split_ifs at h with hstop _ hunder
      · exact lt_of_le_of_lt (Option.some.inj h ▸ bits31_le _) (by omega)
      · exact lt_of_le_of_lt (Option.some.inj h ▸ bits31_le _) (by omega)
      · exact lt_of_le_of_lt (Option.some.inj h ▸ bits31_le _) (by omega)
      · -- behind uppercase letters
        have heq : skipBack s isOther i = i := by omega
        rw [heq] at h hunder
        have hupper : charAt s (i - 1) isUppercase = true :=
          charAt_cases (by omega) (charAt_of_skipBack_eq heq hpos hi) (by simpa using hunder)
        exact lt_of_le_of_lt (Option.some.inj h ▸ bits31_le _) (skipBack_lt_of_charAt hupper hpos hi)

/-! ## Walking backwards -/

structure Walked (s : StringRef) (it : ReverseWordIterator) : Prop where
  String : it.base.String = s
  le : it.base.Position ≤ s.length
  PrevPosition : it.base.PrevPosition = none
  next : it.base.Position = unsigned s.length ∨ it.base.NextPosition.isSome = true

variable {it it' : ReverseWordIterator} {base : WordIterator}

theorem walked_rbegin (h : wordIterator s s.length = some base) : Walked s ⟨base⟩ := by
  obtain ⟨_, _, h⟩ := Option.bind_eq_some_iff.1 h
  cases h
  exact ⟨rfl, Nat.mod_le _ _, rfl, .inl rfl⟩

theorem Walked.step (hw : Walked s it) (h : it.next = some it') :
    Walked s it' ∧ it'.base.Position < it.base.Position := by
  obtain ⟨base, hbase, h⟩ := Option.bind_eq_some_iff.1 h
  obtain ⟨j, hj, hbase⟩ := Option.bind_eq_some_iff.1 hbase
  cases h
  cases hbase
  rw [WordIterator.prevPosition, hw.PrevPosition, hw.String] at hj
  have hlt := computePrevPosition_lt hj hw.le
  exact ⟨⟨hw.String, hlt.le.trans hw.le, rfl, .inr rfl⟩, hlt⟩

theorem Walked.exists_next (hw : Walked s it) (h : it.base.Position ≠ 0) : ∃ it', it.next = some it' := by
  obtain ⟨j, hj⟩ := computePrevPosition_isSome (s := s) (Nat.pos_of_ne_zero h)
  have hprev : it.base.prevPosition = some j := by rw [WordIterator.prevPosition, hw.PrevPosition, hw.String, hj]
  rw [ReverseWordIterator.next, WordIterator.prev, hprev]
  exact ⟨_, rfl⟩

theorem Walked.exists_deref (hw : Walked s it) (h : it.base.Position ≠ 0) : ∃ word, it.deref = some word := by
  obtain ⟨j, hj⟩ := computePrevPosition_isSome (s := s) (Nat.pos_of_ne_zero h)
  have hprev : it.base.prevPosition = some j := by rw [WordIterator.prevPosition, hw.PrevPosition, hw.String, hj]
  rw [ReverseWordIterator.deref, WordIterator.prev, hprev]
  exact ⟨_, rfl⟩

/-! ## What an iteration does -/

/-- What one iteration of the loop does when it goes on. -/
inductive MatchStep (name : StringRef) (s : MatchState) : MatchState → Prop where
  | matched {nameIter typeIter : ReverseWordIterator} : Walked name nameIter →
      nameIter.base.Position < s.namePosition → Walked s.typeName typeIter →
      MatchStep name s { s.matched with nameWordRevIter := nameIter, typeWordRevIter := typeIter }
  | passed {nameIter : ReverseWordIterator} : s.anyMatches = false → Walked name nameIter →
      nameIter.base.Position < s.namePosition → MatchStep name s { s with nameWordRevIter := nameIter }
  | suffix {typeName : StringRef} {rend : WordIterator} : s.namePosition = unsigned name.length →
      skipTypeSuffix s.typeName = some (some typeName) → wordIterator typeName typeName.length = some rend →
      MatchStep name s { s with typeName := typeName, typeWordRevIter := ⟨rend⟩ }

structure MatchInv (name : StringRef) (s : MatchState) : Prop where
  nameIter : Walked name s.nameWordRevIter
  typeIter : Walked s.typeName s.typeWordRevIter
  first : s.anyMatches = true → s.namePosition < s.firstPosition ∧ s.firstPosition ≤ name.length

namespace MatchState

variable {s s' : MatchState} {nameWord typeWord : StringRef} {role : NameRole}
variable {omitElement : StringRef → Option StringRef}

theorem matchStep_advance (hinv : MatchInv name s) (h : s.advance = some s') : MatchStep name s s' := by
  obtain ⟨nameIter, hname, h⟩ := Option.bind_eq_some_iff.1 h
  obtain ⟨typeIter, htype, h⟩ := Option.bind_eq_some_iff.1 h
  cases h
  exact .matched (hinv.nameIter.step hname).1 (hinv.nameIter.step hname).2 (hinv.typeIter.step htype).1

theorem matchStep_sameWord (hinv : MatchInv name s) (h : s.sameWord nameWord typeWord = some (some s')) :
    MatchStep name s s' := by
  rw [sameWord] at h
  split_ifs at h
  · obtain ⟨_, hadvance, h⟩ := Option.bind_eq_some_iff.1 h
    cases h
    exact matchStep_advance hinv hadvance
  · cases h

theorem matchStep_indexInt (hinv : MatchInv name s) (h : s.indexInt nameWord typeWord = some (some s')) :
    MatchStep name s s' := by
  rw [indexInt] at h
  split_ifs at h
  · obtain ⟨_, hadvance, h⟩ := Option.bind_eq_some_iff.1 h
    cases h
    exact matchStep_advance hinv hadvance
  · cases h

theorem matchStep_indexSet (hinv : MatchInv name s) (h : s.indexSet nameWord typeWord = some (some s')) :
    MatchStep name s s' := by
  rw [indexSet] at h
  split_ifs at h
  · obtain ⟨nextIter, hnext, h⟩ := Option.bind_eq_some_iff.1 h
    split_ifs at h
    · obtain ⟨_, _, h⟩ := Option.bind_eq_some_iff.1 h
      split_ifs at h
      · obtain ⟨nameIter, hname, h⟩ := Option.bind_eq_some_iff.1 h
        obtain ⟨typeIter, htype, h⟩ := Option.bind_eq_some_iff.1 h
        cases h
        exact .matched (hinv.nameIter.step hname).1 (hinv.nameIter.step hname).2 ((hinv.typeIter.step hnext).1.step htype).1
      · cases h
    · cases h
  · cases h

theorem matchStep_objectValue (hinv : MatchInv name s) (h : s.objectValue nameWord typeWord = some (some s')) :
    MatchStep name s s' := by
  rw [objectValue] at h
  split_ifs at h
  · obtain ⟨nextIter, hnext, h⟩ := Option.bind_eq_some_iff.1 h
    split_ifs at h
    · obtain ⟨_, _, h⟩ := Option.bind_eq_some_iff.1 h
      split_ifs at h
      · obtain ⟨nameIter, hname, h⟩ := Option.bind_eq_some_iff.1 h
        obtain ⟨typeIter, htype, h⟩ := Option.bind_eq_some_iff.1 h
        cases h
        obtain ⟨hwalked, hlt⟩ := hinv.nameIter.step hnext
        obtain ⟨hwalked', hlt'⟩ := hwalked.step hname
        exact .matched hwalked' (hlt'.trans hlt) (hinv.typeIter.step htype).1
      · cases h
    · cases h
  · cases h

theorem walked_skipTo {targetSize fuel : Nat} (hw : Walked name it)
    (h : iterate (skipTo.body targetSize) fuel it = some it') : Walked name it' ∧ it'.base.Position ≤ targetSize := by
  refine iterate_induct (P := fun it => Walked name it ∧ it.base.Position ≤ targetSize) (Walked name) ?_ ?_ hw h
  · intro it it' hw hnext
    unfold skipTo.body at hnext
    split_ifs at hnext
    · obtain ⟨_, hstep, hnext⟩ := Option.bind_eq_some_iff.1 hnext
      cases hnext
      exact (hw.step hstep).1
    · cases hnext
  · intro it it' hw hdone
    unfold skipTo.body at hdone
    split_ifs at hdone with hpos
    · obtain ⟨_, _, hdone⟩ := Option.bind_eq_some_iff.1 hdone
      cases hdone
    · cases hdone
      exact ⟨hw, Nat.le_of_not_lt hpos⟩

theorem omitPlural_length_le (hElement : ∀ x y, omitElement x = some y → y.length ≤ x.length) {x y : StringRef}
    (h : omitPlural omitElement x = some y) : y.length ≤ x.length := by
  obtain ⟨first, hfirst, h⟩ := Option.bind_eq_some_iff.1 h
  split_ifs at h
  · exact hElement _ _ h
  · cases h
    exact hElement _ _ hfirst

theorem matchStep_plural (hElement : ∀ x y, omitElement x = some y → y.length ≤ x.length) (hinv : MatchInv name s)
    (hpos : s.namePosition ≠ 0)
    (h : s.plural omitElement name collectionElement role nameWord = some (some s')) : MatchStep name s s' := by
  rw [plural] at h
  split_ifs at h
  · obtain ⟨shortened, hshortened, h⟩ := Option.bind_eq_some_iff.1 h
    have hlen : shortened.length ≤ s.namePosition - 1 := by
      refine (omitPlural_length_le hElement hshortened).trans ?_
      rw [StringRef.substr, List.length_take]
      exact Nat.min_le_left _ _
    split_ifs at h
    · obtain ⟨nameIter, hname, h⟩ := Option.bind_eq_some_iff.1 h
      cases h
      obtain ⟨hwalked, hle⟩ := walked_skipTo hinv.nameIter hname
      have htype : s.matched.typeWordRevIter = s.typeWordRevIter := by
        unfold matched
        split <;> rfl
      have hstep := MatchStep.matched hwalked (show _ < s.namePosition by omega) hinv.typeIter
      rwa [← htype] at hstep
    · cases h
  · cases h

theorem matchStep_typeSuffix (h : s.typeSuffix name = some (some s')) : MatchStep name s s' := by
  rw [typeSuffix] at h
  split_ifs at h with hpos
  · obtain ⟨suffix, hsuffix, h⟩ := Option.bind_eq_some_iff.1 h
    cases suffix with
    | none => cases h
    | some typeName =>
        obtain ⟨rend, hrend, h⟩ := Option.bind_eq_some_iff.1 h
        cases h
        exact .suffix (by simpa using hpos) hsuffix hrend
  · cases h

theorem matchStep_skipWord (hinv : MatchInv name s) (h : s.skipWord role = some (some s')) : MatchStep name s s' := by
  rw [skipWord] at h
  split_ifs at h with hcond
  · obtain ⟨nameIter, hname, h⟩ := Option.bind_eq_some_iff.1 h
    cases h
    exact .passed (by simpa using (Bool.and_eq_true_iff.1 hcond).2) (hinv.nameIter.step hname).1 (hinv.nameIter.step hname).2
  · cases h

end MatchState

/-! ## The loop -/

section Loop

variable {s s' : MatchState} {role : NameRole} {omitElement : StringRef → Option StringRef}
variable {typeName : OmissionTypeName} {allPropertyNames : Option InheritedNameSet}

theorem firstCase_cases {α : Type} {cases : List (Option (Option α))} {a : α} (h : firstCase cases = some (some a)) :
    some (some a) ∈ cases := by
  induction cases with
  | nil => cases h
  | cons case cases ih =>
      obtain ⟨r, hcase, h⟩ := Option.bind_eq_some_iff.1 h
      cases r with
      | some b =>
          cases h
          exact hcase ▸ List.mem_cons_self
      | none => exact List.mem_cons_of_mem _ (ih h)

theorem matchStep_body (hElement : ∀ x y, omitElement x = some y → y.length ≤ x.length) (hinv : MatchInv name s)
    (h : matchWords.body omitElement name collectionElement role s = some (.next s')) : MatchStep name s s' := by
  rw [matchWords.body] at h
  split_ifs at h with hend
  · cases h
  · obtain ⟨nameWord, _, h⟩ := Option.bind_eq_some_iff.1 h
    obtain ⟨typeWord, _, h⟩ := Option.bind_eq_some_iff.1 h
    obtain ⟨r, hcases, h⟩ := Option.bind_eq_some_iff.1 h
    have hpos : s.namePosition ≠ 0 := by
      intro hzero
      simp [hzero] at hend
    cases r with
    | none => cases h
    | some s'' =>
        cases h
        have hmem := firstCase_cases hcases
        simp only [List.mem_cons, List.not_mem_nil, or_false] at hmem
        rcases hmem with h | h | h | h | h | h | h
        · exact MatchState.matchStep_sameWord hinv h.symm
        · exact MatchState.matchStep_indexSet hinv h.symm
        · exact MatchState.matchStep_indexInt hinv h.symm
        · exact MatchState.matchStep_objectValue hinv h.symm
        · exact MatchState.matchStep_plural hElement hinv hpos h.symm
        · exact MatchState.matchStep_typeSuffix h.symm
        · exact MatchState.matchStep_skipWord hinv h.symm

theorem body_done (h : matchWords.body omitElement name collectionElement role s = some (.done s')) : s' = s := by
  rw [matchWords.body] at h
  split_ifs at h
  · cases h
    rfl
  · obtain ⟨nameWord, _, h⟩ := Option.bind_eq_some_iff.1 h
    obtain ⟨typeWord, _, h⟩ := Option.bind_eq_some_iff.1 h
    obtain ⟨r, _, h⟩ := Option.bind_eq_some_iff.1 h
    cases r with
    | none =>
        cases h
        rfl
    | some _ => cases h

theorem MatchStep.inv (h : MatchStep name s s') (hinv : MatchInv name s) : MatchInv name s' := by
  cases h with
  | matched hname hlt htype =>
      unfold MatchState.matched
      split_ifs with hany
      · exact ⟨hname, htype, fun _ => ⟨hlt.trans (hinv.first hany).1, (hinv.first hany).2⟩⟩
      · exact ⟨hname, htype, fun _ => ⟨hlt, hinv.nameIter.le⟩⟩
  | passed hany hname hlt => exact ⟨hname, hinv.typeIter, fun h => absurd (hany.symm.trans h) (by decide)⟩
  | suffix _ _ hrend => exact ⟨hinv.nameIter, walked_rbegin hrend, hinv.first⟩

theorem matchWords_inv (hElement : ∀ x y, omitElement x = some y → y.length ≤ x.length)
    (h : matchWords omitElement name typeName role = some s) : MatchInv name s := by
  obtain ⟨nameIter, hname, h⟩ := Option.bind_eq_some_iff.1 h
  obtain ⟨typeIter, htype, h⟩ := Option.bind_eq_some_iff.1 h
  refine iterate_induct (P := MatchInv name) (MatchInv name) ?_ ?_ ?_ h
  · intro s s' hinv hnext
    exact (matchStep_body hElement hinv hnext).inv hinv
  · intro s s' hinv hdone
    rwa [body_done hdone]
  · exact ⟨walked_rbegin hname, walked_rbegin htype, fun h => absurd h Bool.false_ne_true⟩

/-! ## What becomes of the name -/

theorem length_substr_zero_le (s : StringRef) (n : Nat) : (s.substr 0 n).length ≤ s.length := by
  rw [StringRef.substr, List.drop_zero, List.length_take]
  exact Nat.min_le_right _ _

/-- What a name can become when words of it have matched. -/
inductive Stripped (name : StringRef) (role : NameRole) (s : MatchState) : StringRef → Prop where
  | unchanged : Stripped name role s name
  | all : role = .Partial ∨ role = .FirstParameter → Stripped name role s []
  | cut : s.namePosition ≠ 0 → Stripped name role s (name.substr 0 s.namePosition)
  | spliced : role = .BaseNameSelf → s.namePosition ≠ 0 →
      Stripped name role s (name.substr 0 s.namePosition ++ name.drop s.firstPosition)

theorem checkName_cases (role : NameRole) (origName name : StringRef) :
    checkName role origName name = origName ∨ checkName role origName name = name := by
  unfold checkName
  split
  all_goals first | exact .inr rfl | (split_ifs <;> simp)

theorem checkName_self (role : NameRole) (name : StringRef) : checkName role name name = name :=
  (checkName_cases role name name).elim id id

theorem Stripped.checkName {y : StringRef} (h : Stripped name role s y) :
    Stripped name role s (StringExtras.checkName role name y) := by
  rcases checkName_cases role name y with heq | heq
  · rw [heq]
    exact .unchanged
  · rwa [heq]

theorem stripped_stripRedundant {y : StringRef} (hpos : s.namePosition ≠ 0)
    (h : stripRedundant name role allPropertyNames s = some y) : Stripped name role s y := by
  rw [stripRedundant] at h
  split_ifs at h
  · obtain ⟨b, _, h⟩ := Option.bind_eq_some_iff.1 h
    split_ifs at h
    · cases h
      exact .unchanged
    · cases h
      exact (Stripped.cut hpos).checkName
  · cases h
    exact (Stripped.cut hpos).checkName

theorem stripped_splice {y : StringRef} (hrole : role = .BaseNameSelf) (hpos : s.namePosition ≠ 0)
    (h : splice name role allPropertyNames s = some y) : Stripped name role s y := by
  obtain ⟨b, _, h⟩ := Option.bind_eq_some_iff.1 h
  split_ifs at h
  · cases h
    exact .unchanged
  · cases h
    exact (Stripped.spliced hrole hpos).checkName

theorem stripped_stripWord {y : StringRef} (hpos : s.namePosition ≠ 0)
    (h : stripWord name role allPropertyNames s = some y) : Stripped name role s y := by
  obtain ⟨word, _, h⟩ := Option.bind_eq_some_iff.1 h
  split at h
  · split_ifs at h
    · obtain ⟨next, _, h⟩ := Option.bind_eq_some_iff.1 h
      split_ifs at h
      · cases h
        exact (Stripped.cut hpos).checkName
      · cases h
        exact Stripped.unchanged.checkName
    · exact stripped_stripRedundant hpos h
  · exact stripped_stripRedundant hpos h
  · exact stripped_stripRedundant hpos h
  · cases h
    exact Stripped.unchanged.checkName

theorem stripped_stripSelf {y : StringRef} (hrole : role = .BaseNameSelf) (hpos : s.namePosition ≠ 0)
    (h : stripSelf name role allPropertyNames s = some y) : Stripped name role s y := by
  obtain ⟨word, _, h⟩ := Option.bind_eq_some_iff.1 h
  split at h
  · exact stripped_splice hrole hpos h
  all_goals
    cases h
    exact .unchanged

theorem stripped_stripMatched {y : StringRef} (h : stripMatched name role allPropertyNames s = some y) :
    Stripped name role s y := by
  unfold stripMatched at h
  split_ifs at h with hzero hrole
  · cases h
    exact .all (by simpa using hrole)
  · cases h
    exact .unchanged
  · have hpos : s.namePosition ≠ 0 := by simpa using hzero
    obtain ⟨b, _, h⟩ := Option.bind_eq_some_iff.1 h
    split_ifs at h
    · cases h
      exact .unchanged
    · cases role with
      | Property =>
          cases h
          exact (Stripped.cut hpos).checkName
      | BaseNameSelf => exact stripped_stripSelf rfl hpos h
      | BaseName => exact stripped_stripWord hpos h
      | FirstParameter => exact stripped_stripWord hpos h
      | SubsequentParameter => exact stripped_stripWord hpos h
      | Partial => exact stripped_stripWord hpos h

theorem Stripped.length_le {y : StringRef} (h : Stripped name role s y) (hle : s.namePosition ≤ s.firstPosition) :
    y.length ≤ name.length := by
  cases h with
  | unchanged => exact Nat.le_refl _
  | all _ => exact Nat.zero_le _
  | cut _ => exact length_substr_zero_le _ _
  | spliced _ _ =>
      rw [StringRef.substr, List.length_append, List.drop_zero, List.length_take, List.length_drop]
      omega

theorem length_le_with (hElement : ∀ x y, omitElement x = some y → y.length ≤ x.length) {y : StringRef}
    (h : omitNeedlessWords.with omitElement name typeName role allPropertyNames = some y) : y.length ≤ name.length := by
  rw [omitNeedlessWords.with] at h
  split_ifs at h
  · cases h
    exact Nat.le_refl _
  · obtain ⟨s, hs, h⟩ := Option.bind_eq_some_iff.1 h
    split_ifs at h with hany
    · exact (stripped_stripMatched h).length_le ((matchWords_inv hElement hs).first hany).1.le
    · cases h
      rw [checkName_self]

theorem omitElement_length_le {x y : StringRef}
    (h : StringExtras.omitElement collectionElement allPropertyNames x = some y) : y.length ≤ x.length :=
  length_le_with (fun _ _ h => by cases h) h

theorem matchWords_omitElement_inv
    (h : matchWords (StringExtras.omitElement collectionElement allPropertyNames) name typeName role = some s) :
    MatchInv name s :=
  matchWords_inv (fun _ _ h => omitElement_length_le h) h

end Loop

end SwiftKStdlib.StringExtras
