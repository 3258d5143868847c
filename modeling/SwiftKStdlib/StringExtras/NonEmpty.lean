import SwiftKStdlib.StringExtras.Declarations
import SwiftKStdlib.StringExtras.Termination

/-!
# A declaration keeps a base name

* `Placed` : an iterator that may go on forwards; `returns_matchLeadingTypeName`;
* `returns_baseNameBeforeSplit` : the base name before it is split;
* `returns_splitBaseName` : splitting empties a base name that is just "Animated", and no other;
* `baseName_ne_nil_iff` : the whole function ends, with a base name but for that case.
-/

namespace SwiftKStdlib.StringExtras

open Lib

variable {s name t : StringRef} {typeName : OmissionTypeName} {props : Option InheritedNameSet} {it it' : WordIterator}

/-! ## Going forwards -/

structure Placed (s : StringRef) (it : WordIterator) : Prop where
  String : it.String = s
  le : it.Position ≤ s.length
  next : ∀ n, it.NextPosition = some n → it.Position < n ∧ n ≤ s.length

theorem placed_of_wordIterator {i : Nat} (h : wordIterator s i = some it) (hi : i ≤ s.length) : Placed s it := by
  obtain ⟨_, _, h⟩ := Option.bind_eq_some_iff.1 h
  cases h
  exact ⟨rfl, (Nat.mod_le _ _).trans hi, fun n hn => by cases hn⟩

theorem Placed.returns_nextPosition (h : Placed s it) (hlen : s.length < 2 ^ 31) (hne : it.Position ≠ s.length) :
    Returns it.nextPosition fun n => it.Position < n ∧ n ≤ s.length := by
  rw [WordIterator.nextPosition]
  cases hnext : it.NextPosition with
  | some n => exact .pure (h.next n hnext)
  | none =>
      have hforwards := forwards_drop s hlen h.le
      rw [h.String]
      generalize hi : it.Position = i at hforwards hne
      generalize List.flatMap Block.forward _ = ws at hforwards
      cases hforwards with
      | done => exact absurd rfl hne
      | step hj hlt hij hrest => exact ⟨_, hj, hij, hrest.le⟩

theorem Placed.returns_next (h : Placed s it) (hlen : s.length < 2 ^ 31) (hne : it.Position ≠ s.length) :
    Returns it.next fun it' => Placed s it' ∧ it.Position < it'.Position := by
  refine (h.returns_nextPosition hlen hne).bind fun n hn => .pure ?_
  exact ⟨⟨h.String, hn.2, fun n hn => by cases hn⟩, hn.1⟩

theorem Placed.returns_deref (h : Placed s it) (hlen : s.length < 2 ^ 31) (hne : it.Position ≠ s.length) :
    Returns it.deref fun r => Placed s r.2 ∧ r.2.Position = it.Position := by
  refine (h.returns_nextPosition hlen hne).bind fun n hn => .pure ?_
  refine ⟨⟨h.String, h.le, fun m hm => ?_⟩, rfl⟩
  cases hm
  exact hn

theorem Walked.placed {it it' : ReverseWordIterator} (h : Walked s it) (hlen : s.length < 2 ^ 31)
    (hnext : it.next = some it') : Placed s it'.base := by
  obtain ⟨hwalked, hlt⟩ := h.step hnext
  refine ⟨hwalked.String, hwalked.le, fun n hn => ?_⟩
  have hle := h.le
  obtain ⟨base, hbase, hnext⟩ := Option.bind_eq_some_iff.1 hnext
  obtain ⟨j, _, hbase⟩ := Option.bind_eq_some_iff.1 hbase
  cases hnext
  cases hbase
  obtain rfl := Option.some.inj hn
  rw [bits31_eq (by omega)]
  exact ⟨hlt, hle⟩

/-! ## The beginning of a name -/

theorem returns_find {nameIter : WordIterator} (hname : Placed name nameIter) (hpos : nameIter.Position ≠ name.length)
    (hlen : name.length < 2 ^ 31) (htlen : t.length < 2 ^ 31) {typeIter : ReverseWordIterator} (hw : Walked t typeIter)
    (hp : Placed t typeIter.base) {fuel : Nat} (hfuel : typeIter.base.Position < fuel) :
    Returns (iterate (matchLeadingTypeName.find nameIter) fuel typeIter) fun it => Placed t it.base := by
  refine Returns.iterate (fun it => it.base.Position) (fun it => Walked t it ∧ Placed t it.base) ?_ ⟨hw, hp⟩ hfuel
  rintro it ⟨hw, hp⟩
  refine .ite (fun _ => .pure hp) fun hzero => ?_
  have hzero : it.base.Position ≠ 0 := by simpa using hzero
  refine (hname.returns_deref hlen hpos).bind fun _ _ => (hw.returns_deref hzero).bind fun _ _ => ?_
  refine .ite (fun _ => .pure hp) fun _ => ?_
  obtain ⟨it', hnext, hw', hlt⟩ := hw.returns_next hzero
  rw [hnext]
  exact .pure ⟨⟨hw', hw.placed htlen hnext⟩, hlt⟩

theorem returns_follow (hlen : name.length < 2 ^ 31) (htlen : t.length < 2 ^ 31) {s : LeadingState}
    (hname : Placed name s.nameWordIter) (htype : Placed t s.typeWordIter) {fuel : Nat}
    (hfuel : t.length - s.typeWordIter.Position < fuel) :
    Returns (iterate (matchLeadingTypeName.follow name.length t.length) fuel s) fun _ => True := by
  refine Returns.iterate (fun s => t.length - s.typeWordIter.Position)
    (fun s => Placed name s.nameWordIter ∧ Placed t s.typeWordIter) ?_ ⟨hname, htype⟩ hfuel
  rintro s ⟨hname, htype⟩
  refine .ite (fun _ => .pure trivial) fun hend => ?_
  rw [Bool.or_eq_true, not_or, beq_iff_eq, beq_iff_eq] at hend
  refine (hname.returns_deref hlen hend.2).bind fun _ _ => (htype.returns_deref htlen hend.1).bind fun _ _ => ?_
  refine .ite (fun _ => .pure trivial) fun _ => ?_
  refine (hname.returns_next hlen hend.2).bind fun nameIter hn => ?_
  refine (htype.returns_next htlen hend.1).bind fun typeIter ht => .pure ⟨⟨hn.1, ht.1⟩, ?_⟩
  have hle := ht.1.le
  have hlt := ht.2
  show t.length - typeIter.Position < t.length - s.typeWordIter.Position
  omega

theorem returns_matchLeadingTypeName (hne : name ≠ []) (hlen : name.length < 2 ^ 31) (htne : typeName.Name ≠ [])
    (htlen : typeName.Name.length < 2 ^ 31) :
    Returns (matchLeadingTypeName name typeName) fun y => y <:+ name := by
  have hpos := List.length_pos_of_ne_nil hne
  have hbegin := wordIterator_eq hne 0
  have hend := wordIterator_eq hne name.length
  have htend := wordIterator_eq htne typeName.Name.length
  rw [unsigned_eq (by omega)] at hend htend
  rw [matchLeadingTypeName, hbegin, hend, htend]
  simp only [Option.bind_eq_bind, Option.bind_some]
  have hname := placed_of_wordIterator hbegin (Nat.zero_le _)
  have hnpos : unsigned 0 ≠ name.length := hpos.ne
  refine (returns_find hname hnpos hlen htlen (walked_rbegin htend) (placed_of_wordIterator htend (Nat.le_refl _))
    (Nat.lt_succ_self _)).bind fun typeIter htype => ?_
  refine .ite (fun _ => .pure List.suffix_rfl) fun _ => ?_
  refine (hname.returns_next hlen hnpos).bind fun nameIter hn => ?_
  refine (returns_follow hlen htlen (s := ⟨nameIter, typeIter.base⟩) hn.1 htype ?_).bind fun s _ => ?_
  · show typeName.Name.length - typeIter.base.Position < _
    omega
  · exact .ite (fun _ => .pure List.suffix_rfl) fun _ => .pure (List.drop_suffix _ _)

theorem length_toLowercaseWord (s : StringRef) : (toLowercaseWord s).length = s.length := by
  cases s with
  | nil => rfl
  | cons c rest =>
      simp only [toLowercaseWord]
      split_ifs
      · rfl
      · rfl
      · simp

structure Kept (baseName name : StringRef) : Prop where
  ne_nil : name ≠ []
  length_le : name.length ≤ baseName.length

theorem Kept.trans {a b c : StringRef} (h : Kept a b) (h' : Kept b c) : Kept a c :=
  ⟨h'.ne_nil, h'.length_le.trans h.length_le⟩

theorem Kept.toLowercaseWord {a b : StringRef} (h : Kept a b) : Kept a (toLowercaseWord b) := by
  have hlen := length_toLowercaseWord b
  refine ⟨toLowercaseWord_ne_nil h.ne_nil, ?_⟩
  rw [hlen]
  exact h.length_le

theorem returns_omitNeedlessWordsFromPrefix (hne : name ≠ []) (hlen : name.length < 2 ^ 31) (h : TypeTexts typeName) :
    Returns (omitNeedlessWordsFromPrefix name typeName) (Kept name) := by
  have hself : Kept name name := ⟨hne, Nat.le_refl _⟩
  refine .ite (fun _ => .pure hself) fun hempty => ?_
  have htne : typeName.Name ≠ [] := by simpa [OmissionTypeName.empty] using hempty
  refine (returns_matchLeadingTypeName hne hlen htne h.name.length_lt).bind fun newName hsuffix => ?_
  refine .ite (fun _ => .pure hself) fun _ => ?_
  refine (returns_getFirstWord newName).bind fun firstWord _ => ?_
  refine .ite (fun hcond => ?_) fun _ => .pure hself
  simp only [Bool.and_eq_true, decide_eq_true_eq] at hcond
  have hle := hsuffix.length_le
  have hnew : Kept name newName := ⟨List.ne_nil_of_length_pos (by omega), hle⟩
  have hrest : Kept name (newName.drop firstWord.length) := by
    refine ⟨drop_ne_nil hcond.2, ?_⟩
    rw [List.length_drop]
    omega
  refine .ite (fun _ => ?_) fun _ => .pure hnew.toLowercaseWord
  refine (returns_getFirstWord _).bind fun _ _ => ?_
  exact .ite (fun _ => .pure hrest.toLowercaseWord) fun _ => .pure hnew.toLowercaseWord

theorem returns_kept {role : NameRole} (hrole : role.KeepsName) (hne : name ≠ []) (h : TypeTexts typeName) :
    Returns (omitNeedlessWords name typeName role props) (Kept name) := by
  refine (returns_omitNeedlessWords h).mono fun y hy => ⟨?_, hy.1⟩
  rintro rfl
  exact hne (List.head?_eq_none_iff.1 (hy.2 hrole).symm)

theorem returns_baseNameBeforeSplit {matchesContext isProperty : Bool} (hne : name ≠ []) (hlen : name.length < 2 ^ 31)
    (h : TypeTexts typeName) :
    Returns (baseNameBeforeSplit name typeName matchesContext isProperty props) (Kept name) := by
  have hself : Kept name name := ⟨hne, Nat.le_refl _⟩
  have hprefix : Returns (if matchesContext = true then omitNeedlessWordsFromPrefix name typeName else some name)
      (Kept name) := .ite (fun _ => returns_omitNeedlessWordsFromPrefix hne hlen h) fun _ => .pure hself
  refine hprefix.bind fun newName hnew => ?_
  refine .ite (fun _ => .pure hnew) fun _ => ?_
  exact (returns_kept (by simp [NameRole.KeepsName]) hnew.ne_nil h).mono fun _ hy => hnew.trans hy

/-! ## Splitting -/

theorem returns_findPreposition {it : ReverseWordIterator} (hw : Walked s it) :
    Returns (findPreposition it) fun it' => Walked s it' := by
  refine Returns.iterate (fun it => it.base.Position) (Walked s) ?_ hw (Nat.lt_succ_self _)
  intro it hw
  refine .ite (fun _ => .pure hw) fun hzero => ?_
  have hzero : it.base.Position ≠ 0 := by simpa using hzero
  refine (hw.returns_deref hzero).bind fun _ _ => .ite (fun _ => .pure hw) fun _ => ?_
  exact (hw.returns_next hzero).bind fun it' h => .pure h

theorem returns_findLastPreposition {it : ReverseWordIterator} (hw : Walked s it) :
    Returns (findLastPreposition it) fun it' => Walked s it' := by
  refine (returns_findPreposition hw).bind fun result hresult => ?_
  refine .ite (fun hpos => ?_) fun _ => .pure hresult
  have hpos : result.base.Position ≠ 0 := by simpa using hpos
  refine (hresult.returns_deref hpos).bind fun _ _ => .ite (fun _ => ?_) fun _ => .pure hresult
  refine (hresult.returns_next hpos).bind fun next hnext => ?_
  refine (returns_findPreposition hnext.1).bind fun prev hprev => ?_
  refine .ite (fun hpos => ?_) fun _ => .pure hresult
  have hpos : prev.base.Position ≠ 0 := by simpa using hpos
  exact (hprev.returns_deref hpos).bind fun _ _ => .ite (fun _ => .pure hprev) fun _ => .pure hresult

theorem returns_enoughWords (hne : name ≠ []) (hlen : name.length < 2 ^ 31) :
    Returns (enoughWords name) fun _ => True := by
  have hpos := List.length_pos_of_ne_nil hne
  have hbegin := wordIterator_eq hne 0
  have hend := wordIterator_eq hne name.length
  rw [unsigned_eq (show name.length < 2 ^ 32 by omega)] at hend
  have hplaced := placed_of_wordIterator hbegin (Nat.zero_le _)
  rw [enoughWords, hbegin, hend]
  simp only [Option.bind_eq_bind, Option.bind_some]
  refine (hplaced.returns_deref hlen hpos.ne).bind fun r hr => ?_
  obtain ⟨word, it⟩ := r
  refine .ite (fun _ => ?_) fun _ => .pure trivial
  refine (hr.1.returns_next hlen (hr.2 ▸ hpos.ne)).bind fun it hit => ?_
  refine .ite (fun _ => .pure trivial) fun hne => ?_
  refine (hit.1.returns_next hlen (by simpa using hne)).bind fun it _ => ?_
  exact .ite (fun _ => .pure trivial) fun _ => .pure trivial

section Splitting

variable {it : ReverseWordIterator} {preposition : StringRef} {paramType : OmissionTypeName}

theorem returns_prepositionConflicts (hw : Walked s it) (hpos : it.base.Position ≠ 0) :
    Returns (prepositionConflicts s preposition it) fun _ => True := by
  have hafter : Returns (do
      if it.base.Position != unsigned s.length then
        let prev ← it.prev
        if wordConflictsAfterPreposition (← prev.deref) preposition then return true
      return false) fun _ => True := by
    refine .ite (fun hmoved => ?_) fun _ => .pure trivial
    have hnext := hw.next.resolve_left (by simpa using hmoved)
    obtain ⟨n, hn⟩ := Option.isSome_iff_exists.1 hnext
    have hprev : it.base.nextPosition = some n := by rw [WordIterator.nextPosition, hn]
    rw [ReverseWordIterator.prev, WordIterator.next_eq hprev]
    simp only [Option.bind_eq_bind, Option.bind_some, Option.pure_def]
    rw [ReverseWordIterator.deref_eq (i := bits31 it.base.Position) rfl]
    exact .ite (fun _ => .pure trivial) fun _ => .pure trivial
  refine (hw.returns_next hpos).bind fun next hnext => ?_
  refine .ite (fun hpos' => ?_) fun _ => hafter
  have hpos' : next.base.Position ≠ 0 := by simpa using hpos'
  exact (hnext.1.returns_deref hpos').bind fun _ _ => .ite (fun _ => .pure trivial) fun _ => hafter

theorem returns_extendPreposition (hw : Walked s it) (hpos : it.base.Position ≠ 0) :
    Returns (extendPreposition s preposition it) fun r => Walked s r.1 ∧ r.1.base.Position ≠ 0 := by
  refine (hw.returns_next hpos).bind fun next hnext => ?_
  refine .ite (fun hpos' => ?_) fun _ => .pure ⟨hw, hpos⟩
  have hpos' : next.base.Position ≠ 0 := by simpa using hpos'
  exact (hnext.1.returns_deref hpos').bind fun _ _ =>
    .ite (fun _ => .pure ⟨hnext.1, hpos'⟩) fun _ => .pure ⟨hw, hpos⟩

theorem returns_isVacuousPreposition (afterPreposition : StringRef) :
    Returns (isVacuousPreposition preposition afterPreposition paramType) fun _ => True := by
  refine .ite (fun _ => .pure trivial) fun _ => ?_
  exact (returns_getFirstWord _).bind fun _ _ => .ite (fun _ => .pure trivial) fun _ => .pure trivial

theorem returns_splitPositions (hw : Walked s it) (hpos : it.base.Position ≠ 0) :
    Returns (splitPositions s paramType it preposition) fun _ => True := by
  refine (hw.returns_deref hpos).bind fun _ _ => (returns_isVacuousPreposition _).bind fun _ _ => ?_
  refine Returns.bind (P := fun _ => True) ?_ fun _ _ => ?_
  · exact .ite (fun _ => (hw.returns_next hpos).mono fun _ _ => trivial) fun _ => .pure trivial
  · exact .ite (fun _ => .ite (fun _ => .pure trivial) fun _ => .pure trivial) fun _ => .pure trivial

theorem returns_splitBaseNameAfterLastPreposition (hne : name ≠ []) (hlen : name.length < 2 ^ 31) :
    Returns (splitBaseNameAfterLastPreposition name paramType) fun r => ∀ p, r = some p → Kept name p.1 := by
  have hnone : Returns (some (none : Option (StringRef × StringRef))) fun r => ∀ p, r = some p → Kept name p.1 :=
    .pure (by simp)
  refine (returns_wordIterator_end hne).bind fun rend hrend => ?_
  refine (returns_findLastPreposition hrend.1).bind fun it hw => ?_
  refine .ite (fun _ => hnone) fun hpos => ?_
  have hpos : it.base.Position ≠ 0 := by simpa using hpos
  refine (hw.returns_deref hpos).bind fun preposition _ => ?_
  refine (returns_prepositionConflicts hw hpos).bind fun _ _ => .ite (fun _ => hnone) fun _ => ?_
  refine (returns_extendPreposition hw hpos).bind fun r hr => ?_
  refine (returns_splitPositions hr.1 hr.2).bind fun positions _ => ?_
  obtain ⟨endOfBaseName, startOfArgumentLabel⟩ := positions
  refine .ite (fun _ => hnone) fun hzero => ?_
  have hzero : endOfBaseName ≠ 0 := by simpa using hzero
  have hkept : Kept name (name.substr 0 endOfBaseName) := by
    refine ⟨?_, length_substr_zero_le _ _⟩
    rw [StringRef.substr, List.drop_zero, Ne, List.take_eq_nil_iff, not_or]
    exact ⟨hzero, hne⟩
  refine (returns_enoughWords hkept.ne_nil (lt_of_le_of_lt hkept.length_le hlen)).bind fun _ _ => ?_
  exact .ite (fun _ => hnone) fun _ => .pure fun p hp => Option.some.inj hp ▸ hkept

end Splitting

/-- The name "Animated" of a Boolean parameter without a name. -/
structure SplitsAnimated (baseName argName : StringRef) (paramType : OmissionTypeName) : Prop where
  argName : argName = []
  boolean : paramType.Boolean = true
  baseName : baseName = literal "Animated"

structure Splits (baseName argName : StringRef) (paramType : OmissionTypeName) (p : StringRef × StringRef) : Prop where
  nil_iff : p.1 = [] ↔ SplitsAnimated baseName argName paramType
  label : p.1 = [] → p.2 ≠ []

theorem returns_splitBaseName {argName paramName : StringRef} {paramType : OmissionTypeName} (hne : name ≠ [])
    (hlen : name.length < 2 ^ 31) (htype : TypeTexts paramType) :
    Returns (splitBaseName name argName paramType paramName) fun r =>
      (∀ p, r = some p → Splits name argName paramType p) ∧ (r = none → ¬ SplitsAnimated name argName paramType) := by
  have hnone : ¬ SplitsAnimated name argName paramType →
      Returns (some (none : Option (StringRef × StringRef))) fun r =>
        (∀ p, r = some p → Splits name argName paramType p) ∧ (r = none → ¬ SplitsAnimated name argName paramType) :=
    fun h => .pure ⟨by simp, fun _ => h⟩
  refine .ite (fun harg => hnone fun h => ?_) fun harg => ?_
  · rw [h.argName] at harg
    cases harg
  have harg : argName = [] := by simpa using harg
  obtain ⟨lastWord, hlast, hsuffix⟩ := returns_getLastWord hlen
  refine Returns.bind (P := fun word => word = lastWord) ⟨lastWord, hlast, rfl⟩ fun word hword => ?_
  subst hword
  refine .ite (fun hcond => ?_) fun hcond => ?_
  · simp only [Bool.and_eq_true, beq_iff_eq] at hcond
    obtain ⟨hboolean, rfl⟩ := hcond
    refine .pure ⟨fun p hp => Option.some.inj hp ▸ ⟨?_, fun _ => show literal "animated" ≠ [] by decide⟩, by simp⟩
    show name.substr 0 (name.length - (literal "Animated").length) = [] ↔ _
    rw [StringRef.substr, List.drop_zero, List.take_eq_nil_iff]
    constructor
    · intro h
      have hle : name.length ≤ (literal "Animated").length := by
        have := h.resolve_right hne
        omega
      exact ⟨harg, hboolean, (hsuffix.eq_of_length_le hle).symm⟩
    · intro h
      exact .inl (by rw [h.baseName, Nat.sub_self])
  · have hno : ¬ SplitsAnimated name argName paramType := by
      intro h
      have hanimated : getLastWord (literal "Animated") = some (literal "Animated") := by decide +kernel
      rw [h.baseName, hanimated] at hlast
      rw [h.boolean, ← Option.some.inj hlast] at hcond
      exact hcond (by decide)
    refine (returns_getFirstWord _).bind fun _ _ => .ite (fun _ => hnone hno) fun _ => ?_
    refine (returns_getLastWord htype.name.length_lt).bind fun _ _ => .ite (fun _ => hnone hno) fun _ => ?_
    refine (returns_splitBaseNameAfterLastPreposition hne hlen).mono fun r hr => ⟨fun p hp => ?_, fun _ => hno⟩
    exact ⟨iff_of_false (hr p hp).ne_nil hno, fun hnil => absurd hnil (hr p hp).ne_nil⟩

/-! ## The names of the parameters -/

theorem returns_omitSubsequentNames (argNames : List StringRef) {paramTypes : List OmissionTypeName}
    (h : ∀ type ∈ paramTypes, TypeTexts type) : Returns (omitSubsequentNames argNames paramTypes) fun _ => True := by
  induction argNames generalizing paramTypes with
  | nil => exact .pure trivial
  | cons argName argNames ih =>
      cases paramTypes with
      | nil => exact .pure trivial
      | cons paramType paramTypes =>
          rw [List.forall_mem_cons] at h
          exact (returns_omitNeedlessWords h.1).bind fun _ _ => (ih h.2).bind fun _ _ => .pure trivial

theorem returns_omitParameterNames {argNames : List StringRef} {paramTypes : List OmissionTypeName}
    (h : ∀ type ∈ paramTypes, TypeTexts type) (hlabel : name = [] → argNames.head? ≠ some []) :
    Returns (omitParameterNames name argNames paramTypes props) fun r => r.1 = [] ↔ name = [] := by
  cases argNames with
  | nil => exact Returns.pure (a := (name, ([] : List StringRef))) Iff.rfl
  | cons argName argNames =>
      cases paramTypes with
      | nil => exact Returns.pure (a := (name, argName :: argNames)) Iff.rfl
      | cons paramType paramTypes =>
          rw [List.forall_mem_cons] at h
          refine .ite (fun hrole => ?_) fun _ => ?_
          · have hne : name ≠ [] := by
              intro hnil
              have harg := hlabel hnil
              rw [beq_iff_eq, firstRole] at hrole
              split_ifs at hrole with hempty
              exact harg (congrArg some (by simpa using hempty))
            refine (returns_kept (by simp [NameRole.KeepsName]) hne h.1).bind fun newName hnew => ?_
            exact (returns_omitSubsequentNames _ h.2).bind fun _ _ => .pure (iff_of_false hnew.ne_nil hne)
          · exact (returns_omitNeedlessWords h.1).bind fun _ _ =>
              (returns_omitSubsequentNames _ h.2).bind fun _ _ => .pure Iff.rfl

/-! ## The whole function -/

theorem returns_toLowercaseInitialisms_loop (i : Nat) (s : StringRef) :
    Returns (toLowercaseInitialisms.loop i s) fun y => y = [] ↔ s = [] := by
  induction s generalizing i with
  | nil => exact .pure Iff.rfl
  | cons c rest ih =>
      refine .ite (fun _ => (returns_getFirstWord _).bind fun _ _ => ?_) fun _ => (ih _).bind fun _ _ => ?_
      · exact .ite (fun _ => .pure (by simp)) fun _ => .pure (by simp)
      · exact .pure (by simp)

theorem returns_toLowercaseInitialisms (s : StringRef) :
    Returns (toLowercaseInitialisms s) fun y => y = [] ↔ s = [] :=
  .ite (fun _ => .pure Iff.rfl) fun _ => returns_toLowercaseInitialisms_loop 0 s

theorem returns_mapM {α β : Type} {f : α → Option β} (h : ∀ x, Returns (f x) fun _ => True) (l : List α) :
    Returns (l.mapM f) fun _ => True := by
  induction l with
  | nil => exact .pure trivial
  | cons x l ih =>
      rw [List.mapM_cons]
      exact (h x).bind fun _ _ => ih.bind fun _ _ => .pure trivial

theorem returns_setStep (hne : name ≠ []) (h : TypeTexts typeName) {firstWord : StringRef} (hfirst : firstWord <+: name) :
    Returns (if firstWord == literal "set" then omitNeedlessWords name typeName .Property props else some name) fun y =>
      Kept name y ∧ (y = literal "Animated" ↔ name = literal "Animated") := by
  refine .ite (fun hset => ?_) fun _ => .pure ⟨⟨hne, Nat.le_refl _⟩, Iff.rfl⟩
  have hrole : NameRole.Property.KeepsName := by simp [NameRole.KeepsName]
  have hkept : Returns (omitNeedlessWords name typeName .Property props) (Kept name) := returns_kept hrole hne h
  refine (hkept.and (returns_omitNeedlessWords h)).mono fun y hy => ⟨hy.1, ?_⟩
  have hhead := hy.2.2 hrole
  have hs : name.head? = (literal "set").head? := by
    rw [beq_iff_eq.1 hset] at hfirst
    obtain ⟨rest, rfl⟩ := hfirst
    rfl
  apply iff_of_false
  · rintro rfl
    exact absurd (hhead.trans hs) (by decide)
  · rintro rfl
    exact absurd hs (by decide)

theorem returns_omitWithParameters {argNames : List StringRef} {paramName : StringRef} {paramType : OmissionTypeName}
    {paramTypes : List OmissionTypeName} (hne : name ≠ []) (hlen : name.length < 2 ^ 31) (hcontext : TypeTexts typeName)
    (htype : TypeTexts paramType) (htypes : ∀ type ∈ paramTypes, TypeTexts type) :
    Returns (omitWithParameters name argNames paramName typeName paramType paramTypes props) fun r =>
      r.1 = [] ↔ ∃ argName, argNames.head? = some argName ∧ SplitsAnimated name argName paramType := by
  have hall : ∀ type ∈ paramType :: paramTypes, TypeTexts type := List.forall_mem_cons.2 ⟨htype, htypes⟩
  refine (returns_getFirstWord name).bind fun firstWord hfirst => ?_
  refine (returns_setStep hne hcontext hfirst).bind fun newName hnew => ?_
  have hnew0 : newName ≠ [] := hnew.1.ne_nil
  cases argNames with
  | nil =>
      refine (returns_omitParameterNames hall fun hnil => absurd hnil hnew0).mono fun r hr => ?_
      simp [hr, hnew0]
  | cons argName argNames =>
      have hiff : SplitsAnimated newName argName paramType ↔ SplitsAnimated name argName paramType :=
        ⟨fun h => ⟨h.argName, h.boolean, hnew.2.1 h.baseName⟩, fun h => ⟨h.argName, h.boolean, hnew.2.2 h.baseName⟩⟩
      have hhead : (∃ arg, (argName :: argNames).head? = some arg ∧ SplitsAnimated name arg paramType)
          ↔ SplitsAnimated newName argName paramType := by simp [hiff]
      rw [hhead]
      refine (returns_splitBaseName hnew0 (lt_of_le_of_lt hnew.1.length_le hlen) htype).bind fun r hr => ?_
      cases r with
      | none =>
          refine (returns_omitParameterNames hall fun hnil => absurd hnil hnew0).mono fun r hr' => ?_
          rw [hr']
          exact iff_of_false hnew0 (hr.2 rfl)
      | some p =>
          obtain ⟨splitName, label⟩ := p
          have hsplit := hr.1 _ rfl
          have hlabels : splitName = [] → (label :: argNames).head? ≠ some [] := by
            intro hnil hlabel
            exact hsplit.label hnil (Option.some.inj hlabel)
          refine (returns_omitParameterNames hall hlabels).mono fun r hr' => ?_
          rw [hr']
          exact hsplit.nil_iff

/-- An identifier, whose positions fit the bit-fields. -/
structure Identifier (s : StringRef) : Prop where
  ne_nil : s ≠ []
  noDigit : ∀ c ∈ s.head?, isDigit c = false
  length_lt : s.length < 2 ^ 31

/-- The function ends, with a base name that is not empty, but for a Boolean parameter without a name
of a declaration whose base name is "Animated" before it is split. -/
theorem baseName_ne_nil_iff (baseName : StringRef) (argNames : List StringRef) (firstParamName : StringRef)
    (resultType contextType : OmissionTypeName) (paramTypes : List OmissionTypeName) (returnsSelf isProperty : Bool)
    (props : Option InheritedNameSet) (hname : Identifier baseName) (hresult : TypeTexts resultType)
    (hcontext : TypeTexts contextType) (hparams : ∀ type ∈ paramTypes, TypeTexts type) :
    Returns (swift.omitNeedlessWords baseName argNames firstParamName resultType contextType paramTypes returnsSelf
        isProperty props) (fun r => r.1 ≠ [])
      ↔ ¬ ∃ paramType, paramTypes.head? = some paramType ∧ paramType.Boolean = true ∧ argNames.head? = some [] ∧
        baseNameBeforeSplit baseName contextType (returnsSelf || resultType.equals contextType) isProperty props
          = some (literal "Animated") := by
  have hsplit : Returns (baseNameBeforeSplit baseName contextType (returnsSelf || resultType.equals contextType)
      isProperty props) (Kept baseName) := returns_baseNameBeforeSplit hname.ne_nil hname.length_lt hcontext
  obtain ⟨name, hbefore, hkept⟩ := hsplit
  have hwhole : Returns (swift.omitNeedlessWords baseName argNames firstParamName resultType contextType paramTypes
      returnsSelf isProperty props) fun r => r.1 = [] ↔ ∃ paramType, paramTypes.head? = some paramType ∧
        paramType.Boolean = true ∧ argNames.head? = some [] ∧ name = literal "Animated" := by
    rw [swift.omitNeedlessWords]
    simp only [hbefore, Option.bind_eq_bind, Option.bind_some]
    refine Returns.bind (P := fun r => r.1 = [] ↔ ∃ paramType, paramTypes.head? = some paramType ∧
      paramType.Boolean = true ∧ argNames.head? = some [] ∧ name = literal "Animated") ?_ fun r hr => ?_
    · cases paramTypes with
      | nil =>
          refine Returns.bind (P := Kept name) ?_ fun newName hnew => .pure ?_
          · refine .ite (fun _ => ?_) fun _ => .pure ⟨hkept.ne_nil, Nat.le_refl _⟩
            refine returns_kept (by simp [NameRole.KeepsName]) hkept.ne_nil ?_
            split_ifs
            · exact hcontext
            · exact hresult
          · exact iff_of_false hnew.ne_nil (by simp)
      | cons paramType paramTypes =>
          rw [List.forall_mem_cons] at hparams
          refine (returns_omitWithParameters hkept.ne_nil (lt_of_le_of_lt hkept.length_le hname.length_lt) hcontext
            hparams.1 hparams.2).mono fun r hr => hr.trans ?_
          constructor
          · rintro ⟨argName, harg, hsplit⟩
            exact ⟨paramType, rfl, hsplit.boolean, hsplit.argName ▸ harg, hsplit.baseName⟩
          · rintro ⟨type, htype, hboolean, harg, hanimated⟩
            obtain rfl := Option.some.inj htype
            exact ⟨[], harg, rfl, hboolean, hanimated⟩
    · obtain ⟨newName, args⟩ := r
      refine (returns_toLowercaseInitialisms newName).bind fun y hy => ?_
      exact (returns_mapM (fun x => (returns_toLowercaseInitialisms x).mono fun _ _ => trivial) args).bind
        fun _ _ => .pure (hy.trans hr)
  obtain ⟨r, hr, hiff⟩ := hwhole
  simp only [hbefore, Option.some.injEq]
  rw [← hiff, hr]
  constructor
  · rintro ⟨r', hr', hne⟩
    cases hr'
    exact hne
  · exact fun hne => .pure hne

theorem typeTexts_ofString {s : StringRef} (h : TypeText s) : TypeTexts (.ofString s) :=
  ⟨h, ⟨by simp [OmissionTypeName.ofString], by simp [OmissionTypeName.ofString]⟩⟩

theorem baseName_ne_nil_iff_moveToPoint :
    Identifier (literal "moveToPoint") ∧ TypeTexts (.ofString []) ∧ TypeTexts (.ofString (literal "NSBezierPath")) ∧
      (∀ type ∈ [OmissionTypeName.ofString (literal "NSPoint")], TypeTexts type) ∧
      (Returns (swift.omitNeedlessWords (literal "moveToPoint") [[]] (literal "p") (.ofString [])
          (.ofString (literal "NSBezierPath")) [.ofString (literal "NSPoint")] false false none) (fun r => r.1 ≠ [])
        ↔ ¬ ∃ paramType, [OmissionTypeName.ofString (literal "NSPoint")].head? = some paramType ∧
          paramType.Boolean = true ∧ [([] : StringRef)].head? = some [] ∧
          baseNameBeforeSplit (literal "moveToPoint") (.ofString (literal "NSBezierPath"))
            (false || (OmissionTypeName.ofString []).equals (.ofString (literal "NSBezierPath"))) false none
              = some (literal "Animated")) := by
  have hname : Identifier (literal "moveToPoint") := ⟨by decide, by decide, by decide⟩
  have hresult : TypeTexts (.ofString []) := typeTexts_ofString ⟨by decide, by decide⟩
  have hcontext : TypeTexts (.ofString (literal "NSBezierPath")) := typeTexts_ofString ⟨by decide, by decide⟩
  have hparams : ∀ type ∈ [OmissionTypeName.ofString (literal "NSPoint")], TypeTexts type :=
    List.forall_mem_singleton.2 (typeTexts_ofString ⟨by decide, by decide⟩)
  exact ⟨hname, hresult, hcontext, hparams, baseName_ne_nil_iff _ _ _ _ _ _ _ _ _ hname hresult hcontext hparams⟩

/-- The base name "Animated" of a method with a Boolean parameter becomes empty. -/
theorem baseName_nil_animated :
    Identifier (literal "Animated") ∧ TypeTexts (.ofString []) ∧ TypeTexts ⟨literal "Bool", [], false, true, false⟩ ∧
      ¬ Returns (swift.omitNeedlessWords (literal "Animated") [[]] (literal "flag") (.ofString []) (.ofString [])
          [⟨literal "Bool", [], false, true, false⟩] false false none) (fun r => r.1 ≠ []) := by
  refine ⟨⟨by decide, by decide, by decide⟩, typeTexts_ofString ⟨by decide, by decide⟩,
    ⟨⟨by decide, by decide⟩, ⟨by decide, by decide⟩⟩, ?_⟩
  rintro ⟨r, hr, hne⟩
  have hresult : swift.omitNeedlessWords (literal "Animated") [[]] (literal "flag") (.ofString []) (.ofString [])
      [⟨literal "Bool", [], false, true, false⟩] false false none = some ([], [literal "animated"], true) := by
    decide +kernel
  rw [hresult] at hr
  cases hr
  exact hne rfl

end SwiftKStdlib.StringExtras
