import SwiftKStdlib.Lib.Loop
import SwiftKStdlib.Lib.Matching
import SwiftKStdlib.StringExtras.Strings

/-!
# Finding a word

* `findWord` : the search of the source, a loop over `find`;
* `findWord_eq_find` : it stops at the first occurrence, because the character that it looks at is
  the first one of the match and not the one behind it;
* `CompleteAt` : an occurrence that is not followed by a lowercase letter.
-/

namespace SwiftKStdlib.StringExtras

open Lib

/-- What `findWord` asserts of its word. -/
def TitleWord (word : StringRef) : Prop := ∃ c rest, word = c :: rest ∧ isUppercase c = true

/-- One iteration of the scan, with `startingIndex`. -/
def findWord.body (string word : StringRef) (startingIndex : Nat) : Option (Step Nat (Option Nat)) :=
  match find string word startingIndex with
  | none => return .done none
  | some index =>
    let startingIndex := index + word.length
    let suffix := string.drop index
    -- the suffix begins with the match
    if !suffix.isEmpty && suffix.head?.any isLowercase then return .next startingIndex
    else return .done (some index)

/-- The index of `word` in `string`, where `npos` is `none`. -/
def findWord (string word : StringRef) : Option (Option Nat) := do
  guard (!word.isEmpty)
  guard (word.head?.any isUppercase)
  iterate (findWord.body string word) (string.length + 1) 0

/-- The occurrence at `i` is not followed by a lowercase letter. -/
def CompleteAt (string word : StringRef) (i : Nat) : Bool := !(string[i + word.length]?).any isLowercase

variable {string word : StringRef} {i : Nat}

theorem TitleWord.ne_nil (h : TitleWord word) : word ≠ [] := by
  obtain ⟨c, rest, rfl, _⟩ := h
  exact List.cons_ne_nil c rest

theorem TitleWord.head_drop (h : TitleWord word) (hi : OccursAt word string i) :
    (string.drop i).head?.any isLowercase = false := by
  obtain ⟨c, rest, rfl, hc⟩ := h
  obtain ⟨t, ht⟩ := hi
  rw [← ht]
  exact not_isLowercase_of_isUppercase hc

theorem findWord_eq_find (h : TitleWord word) : findWord string word = some (find string word 0) := by
  have hbody : findWord.body string word 0 = some (.done (find string word 0)) := by
    unfold findWord.body
    cases hf : find string word 0 with
    | none => rfl
    | some i =>
        have hi := (find_eq_some_iff h.ne_nil).1 hf
        simp only [h.head_drop hi.occursAt, Bool.and_false]
        rfl
  obtain ⟨c, rest, rfl, hc⟩ := h
  simp only [findWord, List.isEmpty_cons, List.head?_cons, Option.any_some, hc]
  exact iterate_done hbody

/-- `findWord` finds the first complete occurrence exactly where the first occurrence, if there is
one, is complete. -/
theorem findWord_first_complete_iff (string word : StringRef) (h : TitleWord word) :
    (∃ found, Matches word string 0 found ∧ findWord string word = some (found.find? (CompleteAt string word)))
      ↔ ∀ i, IsFirst word string 0 i → CompleteAt string word i = true := by
  rw [findWord_eq_find h]
  constructor
  · rintro ⟨found, _, heq⟩ i hi
    rw [Option.some.injEq, (find_eq_some_iff h.ne_nil).2 hi] at heq
    exact List.find?_some heq.symm
  · intro hcomplete
    obtain ⟨found, hfound⟩ := Matches.exists h.ne_nil string 0
    refine ⟨found, hfound, ?_⟩
    cases hfound with
    | nil hnone => rw [(find_eq_none_iff h.ne_nil).2 hnone, List.find?_nil]
    | cons hi _ => rw [(find_eq_some_iff h.ne_nil).2 hi, List.find?_cons_of_pos (hcomplete _ hi)]

theorem findWord_first_complete_iff_xLink :
    TitleWord (literal "Link") ∧
      ((∃ found, Matches (literal "Link") (literal "XLink") 0 found ∧
          findWord (literal "XLink") (literal "Link")
            = some (found.find? (CompleteAt (literal "XLink") (literal "Link"))))
        ↔ ∀ i, IsFirst (literal "Link") (literal "XLink") 0 i →
            CompleteAt (literal "XLink") (literal "Link") i = true) := by
  have h : TitleWord (literal "Link") := ⟨_, _, rfl, by decide⟩
  exact ⟨h, findWord_first_complete_iff _ _ h⟩

/-- "Link" is found in "Linked", where it is not a complete word. -/
theorem findWord_linked :
    ¬ ∃ found, Matches (literal "Link") (literal "Linked") 0 found ∧
      findWord (literal "Linked") (literal "Link")
        = some (found.find? (CompleteAt (literal "Linked") (literal "Link"))) := by
  rintro ⟨found, _, heq⟩
  have hresult : findWord (literal "Linked") (literal "Link") = some (some 0) := by decide
  rw [hresult, Option.some.injEq] at heq
  have hcomplete := List.find?_some heq.symm
  exact absurd hcomplete (by decide)

end SwiftKStdlib.StringExtras
