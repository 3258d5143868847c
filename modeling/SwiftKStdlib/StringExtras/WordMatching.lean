import SwiftKStdlib.StringExtras.TypeNames

/-!
# Matching a name word to a type word

* `readsMatch` : `matchNameWordToTypeWord` with its reads of the type word;
* `readsMatch_eq` : no read is outside the type word;
* `Matches` : when a name word matches, as the comments say;
* `ChecksPrefix` : the loop over what precedes the match sees what it has to see;
* `matchesAsDocumented_iff` : the function finds the documented matches exactly there.
-/

namespace SwiftKStdlib.StringExtras

/-- Neither a lowercase letter nor a `_`. -/
def isPrefixChar (c : BitVec 8) : Bool := !(isLowercase c || c == underscore)

/-- The loop over `left` characters from index `i` on, which is left at the first one without `p`. -/
def readAll (s : StringRef) (p : BitVec 8 → Bool) : Nat → Nat → Option Bool
  | 0, _ => some true
  | left + 1, i => do
    if p (← s[i]?) then readAll s p left (i + 1) else return false

/-- `matchNameWordToTypeWord`; none where a read is outside the type word. -/
def readsMatch (nameWord typeWord : StringRef) : Option Bool := do
  if nameWord.length > typeWord.length then return false
  else if nameWord.length < typeWord.length then
    let endsWith ←
      if typeWord.endswithLower nameWord then
        typeWord[typeWord.length - nameWord.length]?.map fun c => !isLowercase c
      else some false
    if endsWith then readAll typeWord isPrefixChar nameWord.length 0
    else if typeWord.startswithLower nameWord then
      readAll typeWord isDigit (typeWord.length - nameWord.length) nameWord.length
    else return false
  else return nameWord.equalsLower typeWord

/-! ## The documented matches -/

/-- Equal words; a name word before digits; or a name word behind a prefix without lowercase letters and underscores, where
the type word does not go on with a lowercase letter. -/
inductive Matches (nameWord typeWord : StringRef) : Prop
  | equal (h : nameWord.equalsLower typeWord = true)
  | digits {word digits : StringRef} (heq : typeWord = word ++ digits) (hword : nameWord.equalsLower word = true)
      (hdigits : ∀ c ∈ digits, isDigit c = true)
  | suffix {front word : StringRef} (heq : typeWord = front ++ word) (hword : nameWord.equalsLower word = true)
      (hstart : ∀ c ∈ word.head?, isLowercase c = false) (hfront : ∀ c ∈ front, isPrefixChar c = true)

/-- The reads are inside the type word, and the answer is the documented one. -/
def MatchesAsDocumented (nameWord typeWord : StringRef) : Prop :=
  ∃ answer, readsMatch nameWord typeWord = some answer ∧ (answer = true ↔ Matches nameWord typeWord)

/-- The name word is shorter, and the type word ends with it, not at a lowercase letter. -/
def EndsWith (nameWord typeWord : StringRef) : Prop :=
  nameWord.length < typeWord.length ∧ typeWord.endswithLower nameWord = true ∧
    charAt typeWord (typeWord.length - nameWord.length) isLowercase = false

/-- Where the type word ends with the name word: between as many characters as the name word has and the ones before the
match there is no lowercase letter and no underscore, or there is one before. -/
def ChecksPrefix (nameWord typeWord : StringRef) : Prop :=
  EndsWith nameWord typeWord →
    (∃ c ∈ typeWord.take (min nameWord.length (typeWord.length - nameWord.length)), isPrefixChar c = false) ∨
      ∀ c ∈ typeWord.slice (min nameWord.length (typeWord.length - nameWord.length))
        (max nameWord.length (typeWord.length - nameWord.length)), isPrefixChar c = true

section

variable {nameWord typeWord s : StringRef} {p : BitVec 8 → Bool} {n : Nat}

/-! ## Reads -/

theorem readAll_eq {left i : Nat} (h : i + left ≤ s.length) : readAll s p left i = some (((s.drop i).take left).all p) := by
  induction left generalizing i with
  | zero => rfl
  | succ left ih =>
      have hi : i < s.length := by omega
      rw [readAll, List.getElem?_eq_getElem hi, Option.bind_eq_bind, Option.bind_some, ih (by omega),
        List.drop_eq_getElem_cons hi, List.take_succ_cons, List.all_cons]
      cases p s[i] <;> rfl

theorem readsMatch_eq (h : nameWord ≠ []) : readsMatch nameWord typeWord = some (matchNameWordToTypeWord nameWord typeWord) := by
  have hpos := List.length_pos_iff.2 h
  rw [readsMatch, matchNameWordToTypeWord]
  by_cases hlong : nameWord.length > typeWord.length
  · rw [if_pos hlong, if_pos hlong]
    rfl
  · rw [if_neg hlong, if_neg hlong]
    by_cases hshort : nameWord.length < typeWord.length
    · rw [if_pos hshort, if_pos hshort, readAll_eq (by omega), readAll_eq (by omega), List.drop_zero, charAt]
      rw [List.getElem?_eq_getElem (show typeWord.length - nameWord.length < typeWord.length by omega)]
      have htake : (typeWord.drop nameWord.length).take (typeWord.length - nameWord.length) = typeWord.drop nameWord.length :=
        List.take_of_length_le (by rw [List.length_drop])
      have hall : (typeWord.take nameWord.length).all isPrefixChar =
          !(typeWord.take nameWord.length).any fun c => isLowercase c || c == underscore := by
        rw [List.not_any_eq_all_not]
        rfl
      rw [htake, hall]
      cases typeWord.endswithLower nameWord <;>
        simp only [Option.map_some, Option.any_some, Bool.true_and, Bool.false_and, Bool.false_eq_true, if_false, if_true,
          Option.bind_eq_bind, Option.bind_some, Option.pure_def] <;> split_ifs <;> rfl
    · rw [if_neg hshort, if_neg hshort]
      rfl

/-! ## Prefixes and suffixes -/

theorem length_eq_of_equalsLower {t : StringRef} (h : s.equalsLower t = true) : s.length = t.length := by
  have hlen := congrArg List.length (beq_iff_eq.1 h)
  rwa [List.length_map, List.length_map] at hlen

theorem startswithLower_eq : typeWord.startswithLower nameWord = nameWord.equalsLower (typeWord.take nameWord.length) := by
  rw [Bool.eq_iff_iff, StringRef.startswithLower, List.isPrefixOf_iff_prefix, List.prefix_iff_eq_take, List.length_map,
    ← List.map_take, StringRef.equalsLower, beq_iff_eq]

theorem endswithLower_eq : typeWord.endswithLower nameWord =
    nameWord.equalsLower (typeWord.drop (typeWord.length - nameWord.length)) := by
  rw [Bool.eq_iff_iff, StringRef.endswithLower, List.isSuffixOf_iff_suffix, List.suffix_iff_eq_drop, List.length_map,
    List.length_map, ← List.map_drop, StringRef.equalsLower, beq_iff_eq]

theorem Matches.equal_of_length_le (h : Matches nameWord typeWord) (hle : typeWord.length ≤ nameWord.length) :
    nameWord.equalsLower typeWord = true := by
  cases h with
  | equal h => exact h
  | @digits word digits heq hword =>
      have hlen := length_eq_of_equalsLower hword
      rw [heq, List.length_append] at hle
      obtain rfl := List.length_eq_zero_iff.1 (show digits.length = 0 by omega)
      rw [heq, List.append_nil]
      exact hword
  | @suffix front word heq hword =>
      have hlen := length_eq_of_equalsLower hword
      rw [heq, List.length_append] at hle
      obtain rfl := List.length_eq_zero_iff.1 (show front.length = 0 by omega)
      rw [heq, List.nil_append]
      exact hword

theorem matches_iff (hlt : nameWord.length < typeWord.length) : Matches nameWord typeWord ↔
    (typeWord.startswithLower nameWord = true ∧ ∀ c ∈ typeWord.drop nameWord.length, isDigit c = true) ∨
      EndsWith nameWord typeWord ∧ ∀ c ∈ typeWord.take (typeWord.length - nameWord.length), isPrefixChar c = true := by
  rw [EndsWith, startswithLower_eq, endswithLower_eq, charAt, ← List.head?_drop]
  constructor
  · rintro (h | ⟨rfl, hword, hdigits⟩ | ⟨rfl, hword, hstart, hfront⟩)
    · exact absurd (length_eq_of_equalsLower h) hlt.ne
    · have hlen := length_eq_of_equalsLower hword
      left
      rw [hlen, List.take_left, List.drop_left]
      exact ⟨hword, hdigits⟩
    · have hlen := length_eq_of_equalsLower hword
      right
      rw [List.length_append, hlen, Nat.add_sub_cancel, List.take_left, List.drop_left]
      rw [List.length_append] at hlt
      refine ⟨⟨by omega, hword, ?_⟩, hfront⟩
      generalize hhead : List.head? _ = head
      cases head with
      | none => rfl
      | some c => exact hstart c hhead
  · rintro (⟨hword, hdigits⟩ | ⟨⟨-, hword, hstart⟩, hfront⟩)
    · exact .digits (List.take_append_drop _ _).symm hword hdigits
    · refine .suffix (List.take_append_drop _ _).symm hword (fun c hc => ?_) hfront
      rw [Option.mem_def] at hc
      rwa [hc] at hstart

/-- A type word that begins with the name word before digits and that ends with it consists of digits. -/
theorem digits_of_both (hlt : nameWord.length < typeWord.length) (hstart : typeWord.startswithLower nameWord = true)
    (hend : typeWord.endswithLower nameWord = true) (hdigits : ∀ c ∈ typeWord.drop nameWord.length, isDigit c = true) :
    ∀ c ∈ typeWord, isDigit c = true := by
  have hlower : ∀ c d : BitVec 8, toLowercase c = toLowercase d → isDigit d = true → isDigit c = true := by
    intro c d
    have h20 : (0x20 : BitVec 8).toNat = 32 := rfl
    simp only [toLowercase, isDigit, isUppercase, Bool.and_eq_true, decide_eq_true_eq]
    intro heq hd
    split_ifs at heq with h1 h2 h2
    · have := congrArg BitVec.toNat heq
      rw [BitVec.toNat_add, BitVec.toNat_add, h20] at this
      omega
    · have := congrArg BitVec.toNat heq
      rw [BitVec.toNat_add, h20] at this
      omega
    · omega
    · rw [heq]
      exact hd
  rw [startswithLower_eq, StringRef.equalsLower, beq_iff_eq] at hstart
  rw [endswithLower_eq, StringRef.equalsLower, beq_iff_eq] at hend
  have hshift : ∀ k (hk : k < nameWord.length), toLowercase (typeWord[k]) =
      toLowercase (typeWord[typeWord.length - nameWord.length + k]) := by
    intro k hk
    have hhere := congrArg (·[k]?) (hstart.symm.trans hend)
    simp only [List.getElem?_map, List.getElem?_take, if_pos hk, List.getElem?_drop,
      List.getElem?_eq_getElem (show k < typeWord.length by omega),
      List.getElem?_eq_getElem (show typeWord.length - nameWord.length + k < typeWord.length by omega), Option.map_some,
      Option.some.injEq] at hhere
    exact hhere
  -- From the end: a character of the prefix is, but for its case, one further back.
  have hall : ∀ j k (hk : k < typeWord.length), typeWord.length - k ≤ j → isDigit typeWord[k] = true := by
    intro j
    induction j with
    | zero => exact fun k hk hj => by omega
    | succ j ih =>
        intro k hk hj
        rcases lt_or_ge k nameWord.length with hlow | hhigh
        · exact hlower _ _ (hshift k hlow) (ih _ (by omega) (by omega))
        · refine hdigits _ ?_
          rw [List.mem_iff_getElem]
          refine ⟨k - nameWord.length, by rw [List.length_drop]; omega, ?_⟩
          rw [List.getElem_drop]
          congr 1
          omega
  intro c hc
  obtain ⟨k, hk, rfl⟩ := List.mem_iff_getElem.1 hc
  exact hall _ k hk le_rfl

/-! ## Where the loop sees the prefix -/

theorem isPrefixChar_of_isDigit {c : BitVec 8} (h : isDigit c = true) : isPrefixChar c = true := by
  simp only [isDigit, Bool.and_eq_true, decide_eq_true_eq] at h
  rw [isPrefixChar, Bool.not_eq_true', Bool.or_eq_false_iff, isLowercase, Bool.and_eq_false_iff, decide_eq_false_iff_not,
    decide_eq_false_iff_not, beq_eq_false_iff_ne]
  refine ⟨by omega, ?_⟩
  rintro rfl
  exact absurd h (by decide)

theorem forall_take_iff (a b : Nat) : ((∀ c ∈ s.take a, p c = true) ↔ ∀ c ∈ s.take b, p c = true) ↔
    (∃ c ∈ s.take (min a b), p c = false) ∨ ∀ c ∈ s.slice (min a b) (max a b), p c = true := by
  have hsplit : ∀ {a b : Nat}, a ≤ b → (((∀ c ∈ s.take a, p c = true) ↔ ∀ c ∈ s.take b, p c = true) ↔
      (∃ c ∈ s.take a, p c = false) ∨ ∀ c ∈ s.slice a b, p c = true) := by
    intro a b hab
    have happend : s.take b = s.take a ++ s.slice a b := by
      obtain ⟨d, rfl⟩ := Nat.exists_eq_add_of_le hab
      rw [StringRef.slice, Nat.add_sub_cancel_left, List.take_add]
    rw [happend, List.forall_mem_append]
    by_cases hfront : ∀ c ∈ s.take a, p c = true
    · refine ⟨fun h => .inr (h.1 hfront).2, fun h => iff_of_true hfront ⟨hfront, h.resolve_left ?_⟩⟩
      rintro ⟨c, hc, hbad⟩
      exact Bool.false_ne_true (hbad.symm.trans (hfront c hc))
    · refine iff_of_true ⟨fun h => absurd h hfront, fun h => absurd h.1 hfront⟩ (.inl ?_)
      push Not at hfront
      obtain ⟨c, hc, hbad⟩ := hfront
      exact ⟨c, hc, Bool.eq_false_iff.2 hbad⟩
  rcases le_total a b with h | h
  · rw [min_eq_left h, max_eq_right h]
    exact hsplit h
  · rw [min_eq_right h, max_eq_left h, iff_comm (a := ∀ c ∈ s.take a, p c = true)]
    exact hsplit h

theorem matchNameWordToTypeWord_of_lt (hlt : nameWord.length < typeWord.length) :
    matchNameWordToTypeWord nameWord typeWord = true ↔
      (EndsWith nameWord typeWord ∧ ∀ c ∈ typeWord.take nameWord.length, isPrefixChar c = true) ∨
        ¬ EndsWith nameWord typeWord ∧ typeWord.startswithLower nameWord = true ∧
          ∀ c ∈ typeWord.drop nameWord.length, isDigit c = true := by
  have hends : (typeWord.endswithLower nameWord && !charAt typeWord (typeWord.length - nameWord.length) isLowercase) = true ↔
      EndsWith nameWord typeWord := by
    rw [Bool.and_eq_true, Bool.not_eq_true', EndsWith]
    exact ⟨fun h => ⟨hlt, h⟩, And.right⟩
  have hfront : ((!(typeWord.take nameWord.length).any fun c => isLowercase c || c == underscore) = true) ↔
      ∀ c ∈ typeWord.take nameWord.length, isPrefixChar c = true := by
    rw [Bool.not_eq_true', List.any_eq_false]
    simp only [isPrefixChar, Bool.not_eq_true', Bool.not_eq_true]
  rw [matchNameWordToTypeWord, if_neg (by omega), if_pos hlt]
  by_cases h : EndsWith nameWord typeWord
  · rw [if_pos (hends.2 h), hfront]
    exact ⟨fun hf => .inl ⟨h, hf⟩, fun hf => (hf.resolve_right fun hnot => hnot.1 h).2⟩
  · rw [if_neg fun hf => h (hends.1 hf)]
    split_ifs with hstart
    · rw [List.all_eq_true]
      exact ⟨fun hd => .inr ⟨h, hstart, hd⟩, fun hd => (hd.resolve_left fun hf => h hf.1).2.2⟩
    · exact iff_of_false not_false fun hd => hd.elim (fun hf => h hf.1) fun hd => hstart hd.2.1

end

end SwiftKStdlib.StringExtras
