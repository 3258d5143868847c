import SwiftKStdlib.Lexer.Forming

/-!
# The tokens of number literals

* `lexImpl_digit` : the token that begins with a digit is what `lexNumber` scans there;
* `lexesNumbers` : the number literals of the lexer are those of the grammar.
-/

namespace SwiftKStdlib.Parse.Lexer

open Lib

variable {L : Lexer} {s s' : Members} {p : Nat}

/-! ## The token that begins with a digit -/

theorem lt_size_of_digit (hdigit : isDigit (L.buffer.byteAt p)) : p < L.buffer.size := by
  by_contra hp
  rw [Buffer.byteAt_of_size_le (by omega)] at hdigit
  exact absurd hdigit (by decide)

theorem lexImpl_digit (h : L.lexImpl s = some s') (hdigit : isDigit (L.buffer.byteAt s'.nextToken.text.1)) :
    ∃ t, L.lexNumber s.nextToken.kind s'.nextToken.text.1 = some t ∧ Forms s' s'.nextToken.text.1 t :=
  lexImpl_scanned h (dispatch_digit ((firstByte_digit _).2 hdigit) _)

theorem isDigit_of_number (h : L.lexImpl s = some s')
    (hkind : s'.nextToken.kind = .integerLiteral ∨ s'.nextToken.kind = .floatingLiteral) :
    isDigit (L.buffer.byteAt s'.nextToken.text.1) := by
  rcases lexImpl_literal h (by rcases hkind with hkind | hkind <;> rw [hkind] <;> decide) with hdigit | hquote
  · exact (firstByte_digit _).1 hdigit
  · obtain ⟨t, hstring, hforms⟩ := lexImpl_scanned h (dispatch_quote hquote _)
    rw [hforms.kind] at hkind
    rcases lexStringLiteral_kind hstring with hstring | hstring
    · rw [hstring] at hkind
      exact absurd hkind (by decide)
    · rw [hstring] at hkind
      exact absurd hkind (by decide)

theorem lexImpl_of_lexNumber {t : Scanned} (hdigit : isDigit (L.buffer.byteAt s.curPtr))
    (h : L.lexNumber s.nextToken.kind s.curPtr = some t) : ∃ s', L.lexImpl s = some s' ∧ Forms s' s.curPtr t := by
  have hp := lt_size_of_digit hdigit
  obtain ⟨t', hnumber, ht⟩ := returns_lexNumber s.nextToken.kind hp hdigit
  obtain rfl := Option.some.inj (h.symm.trans hnumber)
  have hclass : ∀ c : UInt8, isDigit c → beginsNoTrivia c := forall_byte (by decide +kernel)
  refine lexImpl_of_dispatch (hclass _ hdigit) ?_ ht.plain ht.fits.lt ht.fits.le
  rw [dispatch_digit ((firstByte_digit _).2 hdigit), h]
  rfl

/-! ## The number literals of the lexer -/

/-- The number literals that the lexer forms, against the grammar. -/
structure LexesNumbers (L : Lexer) : Prop where
  /-- A number literal is one of the grammar. -/
  sound : ∀ s s', L.lexImpl s = some s' → s'.nextToken.kind = .integerLiteral ∨ s'.nextToken.kind = .floatingLiteral →
    NumberLiteral s'.nextToken.kind (L.buffer.text s'.nextToken.text.1 s'.nextToken.text.2)
  /-- Where the lexer comes to a number literal of the grammar, this is the token that it forms. -/
  complete : ∀ s s' kind q, L.lexImpl s = some s' → s.nextToken.kind ≠ .period →
    NumberLiteral kind (L.buffer.text s'.nextToken.text.1 q) → q ≤ L.buffer.size → EndsNumber L q →
    s'.nextToken.kind = kind ∧ s'.nextToken.text.2 = q
  /-- The token is formed where the literal begins. -/
  forms : ∀ s kind q, s.nextToken.kind ≠ .period → NumberLiteral kind (L.buffer.text s.curPtr q) → q ≤ L.buffer.size →
    EndsNumber L q → ∃ s', L.lexImpl s = some s' ∧ s'.nextToken.kind = kind ∧ s'.nextToken.text = (s.curPtr, q)

theorem numberLiteral_head {kind : Tok} {text : List UInt8} (h : NumberLiteral kind text) :
    ∃ c rest, text = c :: rest ∧ isDigit c := by
  have hdigits : ∀ {digits rest : List UInt8}, Digits isDigit digits → ∃ c rest', digits ++ rest = c :: rest' ∧ isDigit c := by
    rintro digits rest ⟨c, rest', rfl, hc, -⟩
    exact ⟨c, rest' ++ rest, rfl, hc⟩
  cases h with
  | decimal h =>
      obtain ⟨c, rest, rfl, hc, -⟩ := h
      exact ⟨c, rest, rfl, hc⟩
  | hex => exact ⟨_, _, rfl, by decide⟩
  | octal => exact ⟨_, _, rfl, by decide⟩
  | binary => exact ⟨_, _, rfl, by decide⟩
  | float hwhole => exact hdigits hwhole
  | hexFloat => exact ⟨_, _, rfl, by decide⟩

theorem lt_of_numberLiteral {kind : Tok} {q : Nat} (h : NumberLiteral kind (L.buffer.text p q)) (hq : q ≤ L.buffer.size) :
    p < q ∧ isDigit (L.buffer.byteAt p) := by
  obtain ⟨c, rest, htext, hc⟩ := numberLiteral_head h
  have hlen := congrArg List.length htext
  rw [Buffer.text, List.length_take, List.length_drop, List.length_cons] at hlen
  have hpq : p < q := by omega
  obtain ⟨-, rfl, -⟩ := (Buffer.text_eq_cons hpq.le hq).1 htext
  exact ⟨hpq, hc⟩

/-- The number literals of the lexer are those of the grammar. -/
theorem lexesNumbers (L : Lexer) : LexesNumbers L := by
  refine ⟨fun s s' h hkind => ?_, fun s s' kind q h hprev hliteral hq hend => ?_,
    fun s kind q hprev hliteral hq hend => ?_⟩
  · have hdigit := isDigit_of_number h hkind
    obtain ⟨t, hnumber, hforms⟩ := lexImpl_digit h hdigit
    obtain ⟨t', hnumber', ht⟩ := returns_lexNumber s.nextToken.kind (lt_size_of_digit hdigit) hdigit
    obtain rfl := Option.some.inj (hnumber.symm.trans hnumber')
    rw [hforms.kind, hforms.stop]
    exact ht.spells (by rwa [← hforms.kind])
  · obtain ⟨hlt, hdigit⟩ := lt_of_numberLiteral hliteral hq
    obtain ⟨t, hnumber, hforms⟩ := lexImpl_digit h hdigit
    obtain rfl := Option.some.inj (hnumber.symm.trans (lexNumber_reads hliteral hlt.le hq hend hprev))
    exact ⟨hforms.kind, hforms.stop⟩
  · obtain ⟨hlt, hdigit⟩ := lt_of_numberLiteral hliteral hq
    obtain ⟨s', hlex, hforms⟩ := lexImpl_of_lexNumber hdigit (lexNumber_reads hliteral hlt.le hq hend hprev)
    exact ⟨s', hlex, hforms.kind, hforms.text⟩

end SwiftKStdlib.Parse.Lexer
