import SwiftKStdlib.Lexer.Literals
import SwiftKStdlib.Lexer.Characters

/-!
# The characters of a literal

* `simpleEscape` : the escapes of one letter;
* `LexedChar` : how a character of a literal is written;
* `lexCharacter_char` : every character that `lexCharacter` returns is written so;
* `LexedChar.noSlash` : behind its first two bytes there is no backslash.
-/

namespace SwiftKStdlib.Parse

open Lib

/-- What the letter after a backslash stands for. -/
def simpleEscape (d : UInt8) : Option Nat :=
  if d = byte '0' then some 0
  else if d = byte 'n' then some '\n'.toNat
  else if d = byte 'r' then some '\r'.toNat
  else if d = byte 't' then some '\t'.toNat
  else if d = byte '"' ∨ d = byte '\'' ∨ d = byte '\\' then some d.toNat
  else none

namespace Buffer

variable {b : Buffer} {p q v : Nat} {multilineString : Bool}

/-- The character `v` is written from `p` to `q`. -/
inductive LexedChar (b : Buffer) (multilineString : Bool) (p : Nat) : Nat → Nat → Prop
  | ascii (hc : b.byteAt p < 0x80) (hslash : b.byteAt p ≠ byte '\\')
      (hnewline : isNewline (b.byteAt p) → multilineString = true) : LexedChar b multilineString p (b.byteAt p).toNat (p + 1)
  | high {v q : Nat} (hc : 0x80 ≤ b.byteAt p) (h : b.validateUTF8CharacterAndAdvance p = (some v, q)) :
      LexedChar b multilineString p v q
  | simple {v : Nat} (hslash : b.byteAt p = byte '\\') (h : simpleEscape (b.byteAt (p + 1)) = some v) :
      LexedChar b multilineString p v (p + 2)
  | newline {q : Nat} (hslash : b.byteAt p = byte '\\') (hm : multilineString = true)
      (h : b.maybeConsumeNewlineEscape (p + 1) = some (some q)) : LexedChar b multilineString p '\n'.toNat q
  | unicode {v q : Nat} (hslash : b.byteAt p = byte '\\') (hu : b.byteAt (p + 1) = byte 'u')
      (hbrace : b.byteAt (p + 2) = byte '{') (h : b.lexUnicodeEscape (p + 2) = some (some v, q))
      (hv : 0x80 ≤ v → encodeToUTF8Fails v = false) : LexedChar b multilineString p v q

/-- What stands behind a backslash, by the byte there. -/
theorem lexEscape_eq (hp : p ≤ b.size) : b.lexEscape multilineString p =
    if isIndent (b.byteAt p) || isNewline (b.byteAt p) then
      if multilineString then do
        match ← b.maybeConsumeNewlineEscape p with
        | some q => return (.char '\n'.toNat, q)
        | none => return (.error, if isAlphanumeric (b.byteAt p) then p + 1 else p)
      else some (.error, if isAlphanumeric (b.byteAt p) then p + 1 else p)
    else
      match simpleEscape (b.byteAt p) with
      | some v => some (.char v, p + 1)
      | none =>
        if b.byteAt p = byte 'u' then do
          if (← b.read (p + 1)) ≠ byte '{' then return (.error, p + 1)
          else
            match ← b.lexUnicodeEscape (p + 1) with
            | (none, q) => return (.error, q)
            | (some value, q) => return (if 0x80 ≤ value ∧ encodeToUTF8Fails value then .error else .char value, q)
        else some (.error, if isAlphanumeric (b.byteAt p) then p + 1 else p) := by
  rw [lexEscape, read_eq hp]
  simp only [Option.bind_eq_bind, Option.bind_some, isIndent, simpleEscape, Bool.or_eq_true, decide_eq_true_eq, or_assoc]
  generalize b.byteAt p = c
  by_cases hblank : c = byte ' ' ∨ c = byte '\t' ∨ isNewline c = true
  · rw [if_pos hblank, if_pos hblank]
    rfl
  rw [if_neg hblank, if_neg hblank]
  by_cases h0 : c = byte '0'
  · rw [if_pos h0, if_pos h0]
    rfl
  rw [if_neg h0, if_neg h0]
  by_cases hn : c = byte 'n'
  · rw [if_pos hn, if_pos hn]
    rfl
  rw [if_neg hn, if_neg hn]
  by_cases hr : c = byte 'r'
  · rw [if_pos hr, if_pos hr]
    rfl
  rw [if_neg hr, if_neg hr]
  by_cases ht : c = byte 't'
  · rw [if_pos ht, if_pos ht]
    rfl
  rw [if_neg ht, if_neg ht]
  by_cases hq : c = byte '"' ∨ c = byte '\'' ∨ c = byte '\\'
  · rw [if_pos hq, if_pos hq]
    rfl
  rw [if_neg hq, if_neg hq]
  rfl

theorem simpleEscape_class : ∀ c : UInt8, (simpleEscape c).isSome →
    (isIndent c || isNewline c) = false ∧ c ≠ byte 'u' ∧ c ≠ byte '(' ∧ c ≠ 0 := forall_byte (by decide +kernel)

theorem maybeConsumeNewlineEscape_blank (hp : p ≤ b.size) (h : b.maybeConsumeNewlineEscape p = some (some q)) :
    (isIndent (b.byteAt p) || isNewline (b.byteAt p)) = true := by
  obtain ⟨r, hscan, h⟩ := Option.bind_eq_some_iff.1 h
  obtain ⟨hbounds, hall, -⟩ := scanWhile_stop hscan
  rcases hbounds.1.eq_or_lt with rfl | hlt
  · rw [read_eq hp] at h
    simp only [Option.bind_eq_bind, Option.bind_some] at h
    split_ifs at h with h1 h2
    · rw [h1]
      decide
    · rw [h2]
      decide
    · cases h
  · have hblank : isIndent (b.byteAt p) = true := hall p le_rfl hlt
    rw [hblank, Bool.true_or]

theorem lexEscape_char (hp : p + 1 ≤ b.size) (hslash : b.byteAt p = byte '\\') :
    b.lexEscape multilineString (p + 1) = some (.char v, q) ↔ LexedChar b multilineString p v q := by
  rw [lexEscape_eq hp]
  constructor
  · intro h
    by_cases hblank : (isIndent (b.byteAt (p + 1)) || isNewline (b.byteAt (p + 1))) = true
    · rw [if_pos hblank] at h
      cases hm : multilineString with
      | false =>
          rw [hm, if_neg Bool.false_ne_true] at h
          cases (Prod.mk.inj (Option.some.inj h)).1
      | true =>
          rw [hm, if_pos rfl] at h
          obtain ⟨r, hr, h⟩ := Option.bind_eq_some_iff.1 h
          cases r with
          | none => cases (Prod.mk.inj (Option.some.inj h)).1
          | some r =>
              obtain ⟨hv, rfl⟩ := Prod.mk.inj (Option.some.inj h)
              obtain rfl := Lexed.char.inj hv
              exact .newline hslash rfl hr
    rw [if_neg hblank] at h
    cases hsimple : simpleEscape (b.byteAt (p + 1)) with
    | some value =>
        rw [hsimple] at h
        obtain ⟨hv, rfl⟩ := Prod.mk.inj (Option.some.inj h)
        obtain rfl := Lexed.char.inj hv
        exact .simple hslash hsimple
    | none =>
        simp only [hsimple] at h
        split_ifs at h with hu halnum
        · have hsize := lt_size_of_eq hp hu (by decide)
          rw [read_eq hsize] at h
          simp only [Option.bind_eq_bind, Option.bind_some, ne_eq, ite_not] at h
          by_cases hbrace : b.byteAt (p + 1 + 1) = byte '{'
          swap
          · rw [if_neg hbrace] at h
            cases (Prod.mk.inj (Option.some.inj h)).1
          rw [if_pos hbrace] at h
          obtain ⟨r, hr, h⟩ := Option.bind_eq_some_iff.1 h
          obtain ⟨value, r⟩ := r
          cases value with
          | none => cases (Prod.mk.inj (Option.some.inj h)).1
          | some value =>
              obtain ⟨hv, rfl⟩ := Prod.mk.inj (Option.some.inj h)
              split_ifs at hv with hfails
              obtain rfl := Lexed.char.inj hv
              rw [not_and, Bool.not_eq_true] at hfails
              exact .unicode hslash hu hbrace hr hfails
        · cases (Prod.mk.inj (Option.some.inj h)).1
        · cases (Prod.mk.inj (Option.some.inj h)).1
  · intro h
    cases h with
    | ascii hc hslash' => exact absurd hslash hslash'
    | high hc =>
        rw [hslash] at hc
        exact absurd hc (by decide)
    | simple _ h =>
        have hclass := simpleEscape_class _ (Option.isSome_iff_exists.2 ⟨v, h⟩)
        rw [if_neg (by rw [hclass.1]; exact Bool.false_ne_true), h]
    | newline _ hm h =>
        rw [if_pos (maybeConsumeNewlineEscape_blank hp h), hm, if_pos rfl, h]
        rfl
    | unicode _ hu hbrace h hv =>
        have hsize := lt_size_of_eq hp hu (by decide)
        have hclass : (isIndent (byte 'u') || isNewline (byte 'u')) = false ∧ simpleEscape (byte 'u') = none := by decide
        rw [hu, hclass.1, if_neg Bool.false_ne_true, hclass.2, if_pos rfl, read_eq hsize]
        simp only [Option.bind_eq_bind, Option.bind_some, hbrace, ne_eq, not_true_eq_false, if_false, h]
        rw [if_neg fun hfails => Bool.false_ne_true ((hv hfails.1).symm.trans hfails.2)]
        rfl

theorem some_char_eq {w r : Nat} : some (Lexed.char w, r) = some (Lexed.char v, q) ↔ v = w ∧ q = r := by
  rw [Option.some.injEq, Prod.mk.injEq, Lexed.char.injEq, eq_comm, @eq_comm _ r]

theorem lexCharacter_char {stopQuote : UInt8} (hp : p < b.size) :
    b.lexCharacter stopQuote multilineString p = some (.char v, q) ↔
      LexedChar b multilineString p v q ∧ ¬ (isQuote (b.byteAt p) ∧ b.byteAt p = stopQuote) := by
  have hquoteClass : ∀ c : UInt8, isQuote c → c < 0x80 ∧ c ≠ byte '\\' ∧ isNewline c = false := forall_byte (by decide +kernel)
  have hquoteIff : ∀ c : UInt8, c = byte '"' ∨ c = byte '\'' ↔ isQuote c := forall_byte (by decide +kernel)
  rw [lexCharacter, read_eq hp.le]
  simp only [Option.bind_eq_bind, Option.bind_some, hquoteIff, Option.pure_def]
  have hascii : b.byteAt p < 0x80 → b.byteAt p ≠ byte '\\' →
      (b.LexedChar multilineString p v q ↔
        (v = (b.byteAt p).toNat ∧ q = p + 1) ∧ (isNewline (b.byteAt p) → multilineString = true)) := by
    intro hlow hslash
    constructor
    · intro h
      cases h with
      | ascii _ _ hnewline => exact ⟨⟨rfl, rfl⟩, hnewline⟩
      | high hhigh => exact absurd hlow (UInt8.not_lt.2 hhigh)
      | simple hslash' => exact absurd hslash' hslash
      | newline hslash' => exact absurd hslash' hslash
      | unicode hslash' => exact absurd hslash' hslash
    · rintro ⟨⟨rfl, rfl⟩, hnewline⟩
      exact .ascii hlow hslash hnewline
  by_cases hquote : isQuote (b.byteAt p) = true
  · obtain ⟨hlow, hslash, hnewline⟩ := hquoteClass _ hquote
    rw [hascii hlow hslash, if_pos hquote]
    by_cases hstop : b.byteAt p = stopQuote
    · rw [if_pos hstop]
      constructor
      · intro h
        cases (Prod.mk.inj (Option.some.inj h)).1
      · exact fun h => absurd ⟨hquote, hstop⟩ h.2
    · rw [if_neg hstop, some_char_eq]
      simp [hstop, hnewline]
  have hne : ¬ (isQuote (b.byteAt p) = true ∧ b.byteAt p = stopQuote) := fun h => hquote h.1
  simp only [hne, not_false_eq_true, and_true]
  rw [if_neg hquote]
  by_cases hzero : b.byteAt p = 0
  · rw [if_pos hzero, if_neg hp.ne, hascii (by rw [hzero]; decide) (by rw [hzero]; decide), hzero]
    have hnewline : isNewline 0 = false := by decide
    rw [some_char_eq]
    simp [hnewline]
  rw [if_neg hzero]
  by_cases hnewline : isNewline (b.byteAt p) = true
  · have hclass : ∀ c : UInt8, isNewline c → c < 0x80 ∧ c ≠ byte '\\' := forall_byte (by decide +kernel)
    rw [if_pos hnewline, hascii (hclass _ hnewline).1 (hclass _ hnewline).2]
    cases multilineString with
    | false => simp [hnewline]
    | true =>
        rw [if_pos rfl, some_char_eq]
        simp
  rw [if_neg hnewline]
  by_cases hslash : b.byteAt p = byte '\\'
  · rw [if_pos hslash]
    exact lexEscape_char hp hslash
  rw [if_neg hslash]
  by_cases hlow : b.byteAt p < 0x80
  · rw [if_pos hlow, hascii hlow hslash, some_char_eq]
    simp [hnewline]
  rw [if_neg hlow]
  constructor
  · intro h
    cases hvalidate : b.validateUTF8CharacterAndAdvance p with
    | mk value r =>
        rw [hvalidate] at h
        cases value with
        | none => cases (Prod.mk.inj (Option.some.inj h)).1
        | some value =>
            obtain ⟨hv, rfl⟩ := Prod.mk.inj (Option.some.inj h)
            obtain rfl := Lexed.char.inj hv
            exact .high (UInt8.not_lt.1 hlow) hvalidate
  · intro h
    cases h with
    | ascii hc => exact absurd hc hlow
    | high _ h => rw [h]
    | simple hslash' => exact absurd hslash' hslash
    | newline hslash' => exact absurd hslash' hslash
    | unicode hslash' => exact absurd hslash' hslash

/-! ## The bytes of a character -/

/-- From `p` to `r` blanks, and from there to `q` a line break. -/
structure NewlineEscape (b : Buffer) (p r q : Nat) : Prop where
  le : p ≤ r
  blanks : b.AllBytes isIndent p r
  lineBreak : b.byteAt r = byte '\r' ∧ q = (if b.byteAt (r + 1) = byte '\n' then r + 2 else r + 1) ∨
    b.byteAt r = byte '\n' ∧ q = r + 1

theorem maybeConsumeNewlineEscape_some (hp : p ≤ b.size) (h : b.maybeConsumeNewlineEscape p = some (some q)) :
    ∃ r, r < b.size ∧ NewlineEscape b p r q := by
  obtain ⟨r, hscan, h⟩ := Option.bind_eq_some_iff.1 h
  obtain ⟨hbounds, hall, -⟩ := scanWhile_stop hscan
  rw [read_eq hbounds.2] at h
  simp only [Option.bind_eq_bind, Option.bind_some] at h
  split_ifs at h with hcr hlf
  · have hlt := lt_size_of_eq hbounds.2 hcr (by decide)
    rw [read_eq hlt] at h
    exact ⟨r, hlt, hbounds.1, hall, .inl ⟨hcr, (Option.some.inj (Option.some.inj h)).symm⟩⟩
  · exact ⟨r, lt_size_of_eq hbounds.2 hlf (by decide), hbounds.1, hall, .inr ⟨hlf, (Option.some.inj (Option.some.inj h)).symm⟩⟩
  · cases h

theorem isNewline_iff : ∀ c : UInt8, isNewline c ↔ c = byte '\n' ∨ c = byte '\r' := forall_byte (by decide +kernel)

theorem NewlineEscape.newlines {r : Nat} (h : NewlineEscape b p r q) : r < q ∧ b.AllBytes isNewline r q := by
  have hlf : isNewline (byte '\n') = true := by decide
  have hcr : isNewline (byte '\r') = true := by decide
  rcases h.lineBreak with ⟨hbyte, rfl⟩ | ⟨hbyte, rfl⟩
  · split_ifs with hnext
    · refine ⟨by omega, fun k hk hk' => ?_⟩
      rcases hk.eq_or_lt with rfl | hlt
      · rw [hbyte, hcr]
      · rw [show k = r + 1 by omega, hnext, hlf]
    · exact ⟨by omega, fun k hk hk' => by rw [show k = r by omega, hbyte, hcr]⟩
  · exact ⟨by omega, fun k hk hk' => by rw [show k = r by omega, hbyte, hlf]⟩

theorem lexUnicodeEscape_some (hp : p ≤ b.size) (h : b.lexUnicodeEscape p = some (some v, q)) :
    ∃ r, p + 1 < r ∧ r ≤ p + 9 ∧ r < b.size ∧ b.byteAt p = byte '{' ∧ b.AllBytes isHexDigit (p + 1) r ∧
      b.byteAt r = byte '}' ∧ q = r + 1 ∧ v = (b.text (p + 1) r).foldl (fun value c => value * 16 + hexValue c) 0 := by
  rw [lexUnicodeEscape, read_eq hp] at h
  simp only [Option.bind_eq_bind, Option.bind_some] at h
  obtain ⟨_, hguard, h⟩ := Option.bind_eq_some_iff.1 h
  have hbrace : b.byteAt p = byte '{' := by
    by_contra hne
    rw [guard, if_neg hne] at hguard
    cases hguard
  obtain ⟨r, hscan, h⟩ := Option.bind_eq_some_iff.1 h
  obtain ⟨hbounds, hall, -⟩ := scanWhile_stop hscan
  rw [read_eq hbounds.2] at h
  simp only [Option.bind_some] at h
  split_ifs at h with hclose hdigits
  · cases (Prod.mk.inj (Option.some.inj h)).1
  · cases (Prod.mk.inj (Option.some.inj h)).1
  · obtain ⟨hv, rfl⟩ := Prod.mk.inj (Option.some.inj h)
    rw [not_not] at hclose
    exact ⟨r, by omega, by omega, lt_size_of_eq hbounds.2 hclose (by decide), hbrace, hall, hclose, rfl,
      (Option.some.inj hv).symm⟩

theorem LexedChar.slash (h : LexedChar b multilineString p v q) (hp : p < b.size) (hslash : b.byteAt p = byte '\\') :
    b.byteAt (p + 1) ≠ byte '(' ∧ p + 2 ≤ q ∧ ∀ k, p + 2 ≤ k → k < q → b.byteAt k ≠ byte '\\' := by
  have hblank : ∀ c : UInt8, isIndent c || isNewline c → c ≠ byte '(' ∧ c ≠ byte '\\' := forall_byte (by decide +kernel)
  cases h with
  | ascii _ hne => exact absurd hslash hne
  | high hc =>
      rw [hslash] at hc
      exact absurd hc (by decide)
  | simple _ h =>
      exact ⟨(simpleEscape_class _ (Option.isSome_iff_exists.2 ⟨v, h⟩)).2.2.1, le_rfl, fun k hk hk' => by omega⟩
  | newline _ _ h =>
      obtain ⟨r, hr, hescape⟩ := maybeConsumeNewlineEscape_some hp h
      obtain ⟨hlt, hbreak⟩ := hescape.newlines
      have hle := hescape.le
      refine ⟨(hblank _ (maybeConsumeNewlineEscape_blank hp h)).1, by omega, fun k hk hk' => (hblank _ ?_).2⟩
      rcases lt_or_ge k r with hkr | hkr
      · rw [hescape.blanks k (by omega) hkr, Bool.true_or]
      · rw [hbreak k hkr hk', Bool.or_true]
  | unicode _ hu hbrace h =>
      have hsize : p + 2 ≤ b.size := lt_size_of_eq (show p + 1 ≤ b.size from hp) hu (by decide)
      obtain ⟨r, hlt, -, -, -, hall, hclose, rfl, -⟩ := lexUnicodeEscape_some hsize h
      have hhex : ∀ c : UInt8, isHexDigit c → c ≠ byte '\\' := forall_byte (by decide +kernel)
      refine ⟨by rw [hu]; decide, by omega, fun k hk hk' => ?_⟩
      rcases hk.eq_or_lt with rfl | hk
      · rw [hbrace]
        decide
      rcases (Nat.lt_succ_iff.1 hk').eq_or_lt with rfl | hkr
      · rw [hclose]
        decide
      · exact hhex _ (hall k (by omega) hkr)

theorem LexedChar.noSlash (h : LexedChar b multilineString p v q) (hp : p < b.size) (hslash : b.byteAt p ≠ byte '\\')
    (k : Nat) (hk : p ≤ k) (hk' : k < q) : b.byteAt k ≠ byte '\\' := by
  rcases hk.eq_or_lt with rfl | hk
  · exact hslash
  cases h with
  | ascii => omega
  | high hc h =>
      have htail := validate_tail hp (UInt8.le_iff_toNat_le.1 hc) h hk hk'
      intro hbyte
      rw [TailAt, hbyte] at htail
      exact absurd htail (by decide)
  | simple hslash' => exact absurd hslash' hslash
  | newline hslash' => exact absurd hslash' hslash
  | unicode hslash' => exact absurd hslash' hslash

theorem LexedChar.bounds (h : LexedChar b multilineString p v q) (hp : p < b.size) : p < q ∧ q ≤ b.size := by
  cases h with
  | ascii => exact ⟨Nat.lt_succ_self p, hp⟩
  | high _ h =>
      have hbounds := validate_bounds hp
      rwa [h] at hbounds
  | simple hslash h =>
      have hclass := simpleEscape_class _ (Option.isSome_iff_exists.2 ⟨v, h⟩)
      exact ⟨by omega, lt_size (show p + 1 ≤ b.size from hp) hclass.2.2.2⟩
  | newline hslash _ h =>
      obtain ⟨r, hr, hescape⟩ := maybeConsumeNewlineEscape_some hp h
      have hlt := hescape.newlines.1
      have hle := hescape.le
      refine ⟨by omega, ?_⟩
      rcases hescape.lineBreak with ⟨-, rfl⟩ | ⟨-, rfl⟩
      · split_ifs with hnext
        · exact lt_size_of_eq (show r + 1 ≤ b.size from hr) hnext (by decide)
        · exact hr
      · exact hr
  | unicode _ hu _ h =>
      have hsize : p + 2 ≤ b.size := lt_size_of_eq (show p + 1 ≤ b.size from hp) hu (by decide)
      obtain ⟨r, hlt, -, hr, -, -, -, rfl, -⟩ := lexUnicodeEscape_some hsize h
      exact ⟨by omega, hr⟩

end Buffer

end SwiftKStdlib.Parse
