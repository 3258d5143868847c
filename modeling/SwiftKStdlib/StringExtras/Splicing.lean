import SwiftKStdlib.StringExtras.MatchingSteps

/-!
# Splicing names and the names of properties

* `removedText`, `splicedName` : what a splice removes, and what it leaves;
* `ChecksOtherText` : a splice that removes the name of a property, because the text that is looked up
  goes on behind the removed one;
* `keepsProperties_iff` : the names of properties are kept exactly where no splice is such.
-/

namespace SwiftKStdlib.StringExtras

variable {name : StringRef} {typeName : OmissionTypeName} {props : Option InheritedNameSet} {s : MatchState}

def removedText (name : StringRef) (s : MatchState) : StringRef := name.slice s.namePosition s.firstPosition

def splicedName (name : StringRef) (s : MatchState) : StringRef :=
  name.substr 0 s.namePosition ++ name.drop s.firstPosition

/-- Words follow the matched ones, a verb precedes them, the spliced name is acceptable, and what
`splice` looks up is no property: as many characters as precede the rest of the name, from the matched
words on. -/
structure ChecksOtherText (name : StringRef) (props : Option InheritedNameSet) (s : MatchState) : Prop where
  follows : s.firstPosition < name.length
  precedes : s.namePosition ≠ 0
  verb : ∃ word, s.nameWordRevIter.deref = some word ∧ getPartOfSpeech word = .Verb
  notError : justError name s = some false
  member : canBeMemberName (splicedName name s) = true
  notVacuous : isVacuousName (splicedName name s) = false
  noProperty : textMatchesPropertyName (name.substr s.namePosition s.firstPosition) props = some false

theorem toLowercaseWord_ne_nil {text : StringRef} (h : text ≠ []) : toLowercaseWord text ≠ [] := by
  cases text with
  | nil => exact absurd rfl h
  | cons c rest =>
      simp only [toLowercaseWord]
      split_ifs
      · exact List.cons_ne_nil _ _
      · exact List.cons_ne_nil _ _
      · exact List.cons_ne_nil _ _

theorem exists_textMatchesPropertyName {text : StringRef} (h : text ≠ []) :
    ∃ b, textMatchesPropertyName text props = some b := by
  cases props with
  | none => exact ⟨false, rfl⟩
  | some names =>
      have hne := toLowercaseWord_ne_nil h
      simp only [textMatchesPropertyName]
      cases hlast : (toLowercaseWord text).getLast? with
      | none => exact absurd (List.getLast?_eq_none_iff.1 hlast) hne
      | some c =>
          simp only [Option.bind_eq_bind, Option.bind_some]
          split_ifs
          all_goals exact ⟨_, rfl⟩

theorem exists_justError (hw : Walked name s.nameWordRevIter) : ∃ b, justError name s = some b := by
  rw [justError]
  split_ifs with hmoved
  · have hnext : s.nameWordRevIter.base.NextPosition.isSome = true :=
      hw.next.resolve_left (by simpa [MatchState.namePosition] using hmoved)
    obtain ⟨next, hnext⟩ := Option.isSome_iff_exists.1 hnext
    have hpos : s.nameWordRevIter.base.nextPosition = some next := by rw [WordIterator.nextPosition, hnext]
    simp only [ReverseWordIterator.prev, WordIterator.next, hpos, Option.bind_eq_bind, Option.bind_some, Option.pure_def]
    split_ifs
    · exact ⟨_, rfl⟩
    · exact ⟨_, rfl⟩
  · exact ⟨_, rfl⟩

theorem removedText_eq (h : name.length ≤ s.firstPosition) :
    removedText name s = name.substr s.namePosition s.firstPosition := by
  rw [removedText, StringRef.slice, StringRef.substr, List.take_of_length_le, List.take_of_length_le]
  · rw [List.length_drop]
    omega
  · rw [List.length_drop]
    omega

theorem omitNeedlessWords_eq (hs : matchWords (omitElement typeName.CollectionElement props) name typeName .BaseNameSelf
      = some s) (hany : s.anyMatches = true) :
    omitNeedlessWords name typeName .BaseNameSelf props = stripMatched name .BaseNameSelf props s := by
  have hwords := hs
  obtain ⟨_, hname, hs⟩ := Option.bind_eq_some_iff.1 hs
  obtain ⟨_, htype, _⟩ := Option.bind_eq_some_iff.1 hs
  obtain ⟨_, hname, _⟩ := Option.bind_eq_some_iff.1 hname
  obtain ⟨_, htype, _⟩ := Option.bind_eq_some_iff.1 htype
  have hempty : (name.isEmpty || typeName.empty) = false := by
    cases hn : name.isEmpty with
    | true => simp [hn, guard] at hname
    | false =>
        cases ht : typeName.Name.isEmpty with
        | true => simp [ht, guard] at htype
        | false => simp [OmissionTypeName.empty, ht]
  rw [omitNeedlessWords, omitNeedlessWords.with, hempty, hwords]
  simp [hany]

theorem splicedName_ne (hlt : s.namePosition < s.firstPosition) (hle : s.firstPosition ≤ name.length) :
    splicedName name s ≠ name := by
  intro heq
  have hlen := congrArg List.length heq
  rw [splicedName, StringRef.substr, List.length_append, List.drop_zero, List.length_take, List.length_drop] at hlen
  omega

theorem removedText_of_nil (h : name.substr s.namePosition s.firstPosition = []) : removedText name s = [] := by
  rw [removedText, StringRef.slice, List.eq_nil_iff_length_eq_zero, List.length_take]
  rw [StringRef.substr, List.eq_nil_iff_length_eq_zero, List.length_take] at h
  omega

theorem ChecksOtherText.spliced (h : ChecksOtherText name props s) :
    stripMatched name .BaseNameSelf props s = some (splicedName name s) := by
  obtain ⟨word, hword, hverb⟩ := h.verb
  have hpos : (s.namePosition == 0) = false := by simpa using h.precedes
  simp only [stripMatched, hpos, h.notError, Option.bind_eq_bind, Option.bind_some, Bool.false_eq_true, if_false]
  simp only [stripSelf, hword, hverb, Option.bind_eq_bind, Option.bind_some, splice, h.noProperty, Bool.false_eq_true,
    if_false]
  have hcheck : checkName .BaseNameSelf name (splicedName name s) = splicedName name s := by
    simp [checkName, h.member, h.notVacuous]
  exact congrArg some hcheck

theorem stripMatched_of_not_checksOtherText (hw : Walked name s.nameWordRevIter)
    (hprop : textMatchesPropertyName (removedText name s) props = some true) (h : ¬ ChecksOtherText name props s) :
    stripMatched name .BaseNameSelf props s = some name := by
  obtain ⟨b, hb⟩ := exists_justError hw
  by_cases hpos : s.namePosition = 0
  · simp [stripMatched, hpos]
  · have hzero : (s.namePosition == 0) = false := by simpa using hpos
    obtain ⟨word, hword⟩ := hw.exists_deref hpos
    simp only [stripMatched, hzero, hb, Option.bind_eq_bind, Option.bind_some, Bool.false_eq_true, if_false]
    cases b with
    | true => rfl
    | false =>
        simp only [Bool.false_eq_true, if_false, stripSelf, hword, Option.bind_eq_bind, Option.bind_some]
        cases hverb : getPartOfSpeech word with
        | Verb =>
            simp only [splice]
            have hchecked : ∃ b, textMatchesPropertyName (name.substr s.namePosition s.firstPosition) props = some b := by
              by_cases hnil : name.substr s.namePosition s.firstPosition = []
              · rw [hnil, ← removedText_of_nil hnil]
                exact ⟨true, hprop⟩
              · exact exists_textMatchesPropertyName hnil
            obtain ⟨b, hchecked⟩ := hchecked
            rw [hchecked]
            cases b with
            | true => rfl
            | false =>
                simp only [Option.bind_eq_bind, Option.bind_some, Bool.false_eq_true, if_false]
                have hfollows : s.firstPosition < name.length := by
                  by_contra hend
                  rw [removedText_eq (Nat.le_of_not_lt hend), hchecked] at hprop
                  cases hprop
                have hcheck : ¬ (canBeMemberName (splicedName name s) = true ∧ isVacuousName (splicedName name s) = false) :=
                  fun hok => h ⟨hfollows, hpos, ⟨word, hword, hverb⟩, hb, hok.1, hok.2, hchecked⟩
                rw [not_and, Bool.not_eq_false] at hcheck
                show some (checkName .BaseNameSelf name (splicedName name s)) = some name
                rw [checkName]
                split_ifs with hmember hvacuous
                · rfl
                · rfl
                · exact absurd (hcheck (by simpa using hmember)) hvacuous
        | Unknown => rfl
        | Preposition => rfl
        | Gerund => rfl

/-- A name whose removed words name a property is returned unchanged exactly where the check does not
look at another text. -/
theorem keepsProperties_iff (name : StringRef) (typeName : OmissionTypeName) (props : Option InheritedNameSet) :
    (∀ s, matchWords (omitElement typeName.CollectionElement props) name typeName .BaseNameSelf = some s →
        s.anyMatches = true → textMatchesPropertyName (removedText name s) props = some true →
        omitNeedlessWords name typeName .BaseNameSelf props = some name)
      ↔ ∀ s, matchWords (omitElement typeName.CollectionElement props) name typeName .BaseNameSelf = some s →
        s.anyMatches = true → textMatchesPropertyName (removedText name s) props = some true →
        ¬ ChecksOtherText name props s := by
  constructor
  · intro h s hs hany hprop hother
    have hkeep := h s hs hany hprop
    obtain ⟨hlt, hle⟩ := (matchWords_omitElement_inv hs).first hany
    rw [omitNeedlessWords_eq hs hany, hother.spliced, Option.some.injEq] at hkeep
    exact splicedName_ne hlt hle hkeep
  · intro h s hs hany hprop
    rw [omitNeedlessWords_eq hs hany]
    exact stripMatched_of_not_checksOtherText (matchWords_omitElement_inv hs).nameIter hprop (h s hs hany hprop)

/-- The view of "addViewAnimated" is removed, although there is a property "view". -/
theorem not_keepsProperties_addViewAnimated :
    ¬ ∀ s, matchWords (omitElement [] (some (.root [literal "view"]))) (literal "addViewAnimated")
        (.ofString (literal "View")) .BaseNameSelf = some s → s.anyMatches = true →
      textMatchesPropertyName (removedText (literal "addViewAnimated") s) (some (.root [literal "view"])) = some true →
      omitNeedlessWords (literal "addViewAnimated") (.ofString (literal "View")) .BaseNameSelf
        (some (.root [literal "view"])) = some (literal "addViewAnimated") := by
  intro h
  have hkeep := h
    { nameWordRevIter := ⟨literal "addViewAnimated", 3, some 7, none⟩,
      firstMatchingNameWordRevIter := ⟨literal "addViewAnimated", 7, some 15, none⟩, anyMatches := true,
      typeName := literal "View", typeWordRevIter := ⟨literal "View", 0, some 4, none⟩ }
    (by decide +kernel) rfl (by decide +kernel)
  have hresult : omitNeedlessWords (literal "addViewAnimated") (.ofString (literal "View")) .BaseNameSelf
      (some (.root [literal "view"])) = some (literal "addAnimated") := by decide +kernel
  rw [hresult] at hkeep
  exact absurd hkeep (by decide)

end SwiftKStdlib.StringExtras
