import SwiftKStdlib.Lexer.Safety

/-!
# Forming tokens

* `Forms` : the token is the one that is scanned at a position;
* `lexImpl_token` : the token that a call of `lexImpl` forms is scanned where the switch leads to it;
* `lexImpl_of_dispatch` : a token is formed where the cursor stands at its first byte;
* `lexImpl_literal` : what forms the literals begins with a digit or a quote.
-/

namespace SwiftKStdlib.Parse.Lexer

open Lib

variable {L : Lexer} {s s' : Members} {p : Nat}

/-! ## The token -/

/-- The token is the one that is scanned from `p` on. -/
structure Forms (s : Members) (p : Nat) (t : Scanned) : Prop where
  kind : s.nextToken.kind = t.kind
  text : s.nextToken.text = (p, t.curPtr)
  multiline : s.nextToken.multilineString = t.multiline
  escaped : s.nextToken.escapedIdentifier = t.escaped

theorem Forms.start {t : Scanned} (h : Forms s p t) : s.nextToken.text.1 = p := by rw [h.text]

theorem Forms.stop {t : Scanned} (h : Forms s p t) : s.nextToken.text.2 = t.curPtr := by rw [h.text]

theorem formToken_token {t : Scanned} (h : L.formToken s p t = some s') : Forms s' p { t with escaped := false } := by
  obtain ⟨_, -, h⟩ := Option.bind_eq_some_iff.1 h
  obtain ⟨trivia, -, h⟩ := Option.bind_eq_some_iff.1 h
  obtain rfl := Option.some.inj h
  exact ⟨rfl, rfl, rfl, rfl⟩

theorem formScanned_token {t : Scanned} (h : L.formScanned s p t = some s') : Forms s' p t := by
  obtain ⟨kind, q, escaped, multiline⟩ := t
  rw [formScanned] at h
  split_ifs at h with hescaped
  · obtain ⟨_, -, h⟩ := Option.bind_eq_some_iff.1 h
    obtain ⟨_, -, h⟩ := Option.bind_eq_some_iff.1 h
    obtain ⟨_, -, h⟩ := Option.bind_eq_some_iff.1 h
    obtain ⟨_, -, h⟩ := Option.bind_eq_some_iff.1 h
    obtain ⟨_, -, h⟩ := Option.bind_eq_some_iff.1 h
    obtain ⟨_, -, h⟩ := Option.bind_eq_some_iff.1 h
    obtain ⟨s1, hform, h⟩ := Option.bind_eq_some_iff.1 h
    obtain rfl := Option.some.inj h
    have hforms := formToken_token hform
    exact ⟨hforms.kind, hforms.text, hforms.multiline, hescaped.symm⟩
  · have hforms := formToken_token h
    exact ⟨hforms.kind, hforms.text, hforms.multiline, hforms.escaped.trans (Bool.eq_false_iff.2 hescaped).symm⟩

/-! ## The call -/

theorem restart_next (h : L.restart s = some (.next s')) : s'.nextToken.kind = s.nextToken.kind := by
  obtain ⟨s1, htrivia, h⟩ := Option.bind_eq_some_iff.1 h
  obtain ⟨trivia, -, htrivia⟩ := Option.bind_eq_some_iff.1 htrivia
  obtain rfl := Option.some.inj htrivia
  obtain ⟨action, -, h⟩ := Option.bind_eq_some_iff.1 h
  cases action with
  | newline =>
      obtain ⟨_, -, h⟩ := Option.bind_eq_some_iff.1 h
      obtain rfl := Step.next.inj (Option.some.inj h)
      rfl
  | skip q newline =>
      obtain rfl := Step.next.inj (Option.some.inj h)
      rfl
  | comment q newline =>
      rw [act] at h
      dsimp only at h
      split_ifs at h
      · obtain ⟨s2, -, h⟩ := Option.bind_eq_some_iff.1 h
        cases Option.some.inj h
      · obtain rfl := Step.next.inj (Option.some.inj h)
        rfl
  | hashbang q =>
      obtain rfl := Step.next.inj (Option.some.inj h)
      rfl
  | token t =>
      obtain ⟨s2, -, h⟩ := Option.bind_eq_some_iff.1 h
      cases Option.some.inj h

inductive Leads (L : Lexer) (prev : Tok) (p : Nat) (t : Scanned) : Prop where
  | token (h : L.dispatch prev p = some (.token t))
  | comment {q : Nat} {newline : Bool} (h : L.dispatch prev p = some (.comment q newline)) (ht : t = .plain .comment q)

theorem restart_done (h : L.restart s = some (.done s')) :
    ∃ t, Leads L s.nextToken.kind s'.nextToken.text.1 t ∧ Forms s' s'.nextToken.text.1 t := by
  obtain ⟨s1, htrivia, h⟩ := Option.bind_eq_some_iff.1 h
  obtain ⟨trivia, -, htrivia⟩ := Option.bind_eq_some_iff.1 htrivia
  obtain rfl := Option.some.inj htrivia
  obtain ⟨action, hdispatch, h⟩ := Option.bind_eq_some_iff.1 h
  cases action with
  | newline =>
      obtain ⟨_, -, h⟩ := Option.bind_eq_some_iff.1 h
      cases Option.some.inj h
  | skip q newline => cases Option.some.inj h
  | comment q newline =>
      rw [act] at h
      dsimp only at h
      split_ifs at h
      · obtain ⟨s2, hform, h⟩ := Option.bind_eq_some_iff.1 h
        obtain rfl := Step.done.inj (Option.some.inj h)
        have hforms := formToken_token hform
        exact ⟨_, hforms.start ▸ .comment hdispatch rfl, hforms.start.symm ▸ hforms⟩
      · cases Option.some.inj h
  | hashbang q => cases Option.some.inj h
  | token t =>
      obtain ⟨s2, hform, h⟩ := Option.bind_eq_some_iff.1 h
      obtain rfl := Step.done.inj (Option.some.inj h)
      have hforms := formScanned_token hform
      exact ⟨t, hforms.start ▸ .token hdispatch, hforms.start.symm ▸ hforms⟩

theorem lexImpl_token (h : L.lexImpl s = some s') :
    ∃ t, Leads L s.nextToken.kind s'.nextToken.text.1 t ∧ Forms s' s'.nextToken.text.1 t := by
  obtain ⟨_, -, h⟩ := Option.bind_eq_some_iff.1 h
  refine iterate_induct (P := fun s' => ∃ t, Leads L s.nextToken.kind s'.nextToken.text.1 t ∧
    Forms s' s'.nextToken.text.1 t) (fun s1 => s1.nextToken.kind = s.nextToken.kind) ?_ ?_ rfl h
  · intro s1 s2 hkind hstep
    rw [restart_next hstep, hkind]
  · intro s1 s2 hkind hstep
    rw [← hkind]
    exact restart_done hstep

/-! ## A call at the first byte of a token -/

/-- The byte is ASCII and neither a space nor the first of a comment, a hashbang or a conflict marker. -/
def beginsNoTrivia (c : UInt8) : Bool :=
  c < 0x80 && !isNewline c && !isHorizontalSpace c && !(['/', '#', '<', '>'].any fun d => byte d = c)

theorem contentStart_le_ascii (hc : L.buffer.byteAt p < 0x80) : L.contentStart ≤ p := by
  rw [contentStart]
  split_ifs with hmark
  · obtain ⟨rest, hbytes⟩ := List.isPrefixOf_iff_prefix.1 hmark
    by_contra hp
    rw [Buffer.byteAt, ← hbytes] at hc
    obtain rfl | rfl | rfl : p = 0 ∨ p = 1 ∨ p = 2 := by omega
    · exact absurd hc (by simp)
    · exact absurd hc (by simp)
    · exact absurd hc (by simp)
  · exact Nat.zero_le p

theorem lexTrivia_eq {trailing : Bool} {t : TriviaLexed} (hp : t.curPtr ≤ L.buffer.size)
    (hc : beginsNoTrivia (L.buffer.byteAt t.curPtr)) : L.lexTrivia trailing t = some t := by
  rw [lexTrivia]
  split_ifs
  · rfl
  have hother : ∀ c : UInt8, beginsNoTrivia c → c ≠ byte '\n' ∧ c ≠ byte '\r' ∧ isHorizontalSpace c = false ∧
      c ≠ byte '/' ∧ c ≠ byte '#' ∧ c ≠ byte '<' ∧ c ≠ byte '>' := forall_byte (by decide +kernel)
  obtain ⟨h1, h2, h3, h4, h5, h6, h7⟩ := hother _ hc
  refine iterate_done ?_
  simp only [triviaStep, Buffer.read_eq hp, Option.bind_eq_bind, Option.bind_some, h1, h2, h3, h4, h5, h6, h7, or_self,
    Bool.false_eq_true, if_false, Option.pure_def]

theorem lexImpl_of_dispatch {t : Scanned} (hc : beginsNoTrivia (L.buffer.byteAt s.curPtr))
    (hdispatch : L.dispatch s.nextToken.kind s.curPtr = some (.token t)) (hplain : t.escaped = false)
    (hlt : s.curPtr < t.curPtr) (hle : t.curPtr ≤ L.buffer.size) :
    ∃ s', L.lexImpl s = some s' ∧ Forms s' s.curPtr t := by
  have hascii : ∀ c : UInt8, beginsNoTrivia c → c < 0x80 := forall_byte (by decide +kernel)
  have hstart := contentStart_le_ascii (hascii _ hc)
  have hp : s.curPtr ≤ L.buffer.size := hlt.le.trans hle
  have hcur : (L.begin s).curPtr = s.curPtr := by
    rw [begin_curPtr]
    split_ifs with h0 <;> omega
  obtain ⟨s', hform, -⟩ := returns_formToken (s := L.begin s) hlt.le hle hstart
  have htrivia : L.lexLeadingTrivia (L.begin s) = some (L.begin s) := by
    rw [lexLeadingTrivia, lexTrivia_eq (hcur.symm ▸ hp) (hcur.symm ▸ hc)]
    rfl
  have hrestart : L.restart (L.begin s) = some (.done s') := by
    have hkind : (L.begin s).nextToken.kind = s.nextToken.kind := rfl
    simp only [restart, htrivia, Option.bind_eq_bind, Option.bind_some, hcur, hkind, hdispatch, Option.pure_def, act,
      formScanned, hplain, Bool.false_eq_true, if_false, hform]
  have hforms := formToken_token hform
  refine ⟨s', ?_, hforms.kind, hforms.text, hforms.multiline, hforms.escaped.trans hplain.symm⟩
  rw [lexImpl, guard, if_pos hp]
  exact iterate_done hrestart

/-! ## The kinds of literals -/

def isLiteral (kind : Tok) : Bool := kind = .integerLiteral || kind = .floatingLiteral || kind = .stringLiteral

def NoLiteral (x : Option Scanned) : Prop := ∀ t, x = some t → isLiteral t.kind = false

theorem NoLiteral.plain {kind : Tok} (h : isLiteral kind = false) (q : Nat) : NoLiteral (some (.plain kind q)) := by
  rintro t ht
  obtain rfl := Option.some.inj ht
  exact h

theorem NoLiteral.bind {α : Type} {x : Option α} {f : α → Option Scanned} (h : ∀ a, NoLiteral (f a)) :
    NoLiteral (x >>= f) := by
  intro t ht
  obtain ⟨a, -, ht⟩ := Option.bind_eq_some_iff.1 ht
  exact h a t ht

theorem NoLiteral.ite {c : Prop} [Decidable c] {x y : Option Scanned} (hx : NoLiteral x) (hy : NoLiteral y) :
    NoLiteral (if c then x else y) := by
  split_ifs
  · exact hx
  · exact hy

theorem kindOfWord_noLiteral {table : List (String × Tok)} {text : List UInt8} {kind : Tok}
    (htable : ∀ entry ∈ table, isLiteral entry.2 = false) (h : kindOfWord table text = some kind) :
    isLiteral kind = false := by
  obtain ⟨entry, hfind, rfl⟩ := Option.map_eq_some_iff.1 h
  exact htable entry (List.mem_of_find?_eq_some hfind)

theorem noLiteral_lexIdentifier : NoLiteral (L.lexIdentifier p) := by
  refine .bind fun _ => .bind fun q => .plain ?_ q
  rw [kindOfIdentifier]
  cases hkind : kindOfWord (if L.inSILMode then keywords ++ silKeywords else keywords) (L.buffer.text p q) with
  | none => decide
  | some kind =>
      refine kindOfWord_noLiteral ?_ hkind
      cases L.inSILMode <;> decide

theorem noLiteral_lexHash : NoLiteral (L.lexHash p) := by
  refine .bind fun _ => .ite (.plain (by decide) _) (.bind fun q => ?_)
  cases hkind : kindOfWord poundKeywords (L.buffer.text (p + 1) q) with
  | none => exact .plain (by decide) _
  | some kind => exact .plain (kindOfWord_noLiteral (by decide) hkind) q

theorem noLiteral_reservedText (text : List UInt8) : ∀ kind ∈ reservedText text, isLiteral kind = false := by
  intro kind h
  rw [reservedText] at h
  split_ifs at h <;> cases h <;> decide

theorem noLiteral_reservedOperator {c : UInt8} {leftBound rightBound : Bool} {reserved : Option Tok}
    (h : L.reservedOperator c p leftBound rightBound = some reserved) : ∀ kind ∈ reserved, isLiteral kind = false := by
  have hsome : ∀ {x : Option Tok}, (∀ kind ∈ x, isLiteral kind = false) → some x = some reserved →
      ∀ kind ∈ reserved, isLiteral kind = false := fun hx heq => Option.some.inj heq ▸ hx
  rw [reservedOperator] at h
  split_ifs at h
  · exact hsome (by decide) h
  · exact hsome (by decide) h
  · exact hsome (by decide) h
  · exact hsome (by decide) h
  · exact hsome (by decide) h
  · obtain ⟨q, -, h⟩ := Option.bind_eq_some_iff.1 h
    obtain ⟨d, -, h⟩ := Option.bind_eq_some_iff.1 h
    split_ifs at h
    · exact hsome (by decide) h
    · obtain ⟨bound, -, h⟩ := Option.bind_eq_some_iff.1 h
      split_ifs at h
      · exact hsome (by decide) h
      · exact hsome (by decide) h
  · exact hsome (by decide) h
  · exact hsome (by decide) h
  · exact hsome (by decide) h

theorem noLiteral_lexOperatorIdentifier : NoLiteral (L.lexOperatorIdentifier p) := by
  refine .bind fun _ => .bind fun _ => .bind fun q => .bind fun leftBound => .bind fun rightBound => ?_
  intro t ht
  obtain ⟨kind, hkind, ht⟩ := Option.bind_eq_some_iff.1 ht
  obtain rfl := Option.some.inj ht
  obtain ⟨reserved, hreserved, hkind⟩ := Option.bind_eq_some_iff.1 hkind
  obtain rfl := Option.some.inj hkind
  have hkinds : ∀ kind ∈ reserved, isLiteral kind = false := by
    split_ifs at hreserved
    · exact noLiteral_reservedOperator hreserved
    · obtain rfl := Option.some.inj hreserved
      exact noLiteral_reservedText _
  cases reserved with
  | some kind => exact hkinds kind rfl
  | none =>
      show isLiteral (if leftBound = rightBound then _ else _) = false
      split_ifs <;> decide

theorem noLiteral_tryLexEditorPlaceholder : NoLiteral (L.tryLexEditorPlaceholder p) := by
  refine .bind fun r => ?_
  cases r with
  | some q => exact .plain (by decide) q
  | none => exact noLiteral_lexOperatorIdentifier

theorem noLiteral_lexDollarIdent (prev : Tok) : NoLiteral (L.lexDollarIdent prev p) := by
  rw [lexDollarIdent]
  refine .ite (.plain (by decide) _) (.bind fun q => .ite (.plain (by decide) q) (.ite (.plain (by decide) q) (.plain (by decide) q)))

theorem noLiteral_lexEscapedIdentifier : NoLiteral (L.lexEscapedIdentifier p) := by
  refine .bind fun r => ?_
  cases r with
  | some q =>
      rintro t ht
      obtain rfl := Option.some.inj ht
      rfl
  | none =>
      refine .bind fun _ => .ite ?_ (.plain (by decide) _)
      rintro t ht
      obtain rfl := Option.some.inj ht
      rfl

theorem punctuator_noLiteral (c : UInt8) {kind : Tok} (h : firstByte c = .punctuator kind) : isLiteral kind = false := by
  have hall : ∀ c : UInt8, (match firstByte c with
      | .punctuator kind => !isLiteral kind
      | _ => true) = true := forall_byte (by decide +kernel)
  have hc := hall c
  rw [h] at hc
  exact Bool.not_eq_true' _ ▸ hc

def NoLiteralAction (x : Option Action) : Prop := ∀ t, x = some (.token t) → isLiteral t.kind = false

theorem NoLiteral.token {x : Option Scanned} (h : NoLiteral x) : NoLiteralAction (do return .token (← x)) := by
  intro t ht
  obtain ⟨t', ht', heq⟩ := Option.bind_eq_some_iff.1 ht
  obtain rfl := Action.token.inj (Option.some.inj heq)
  exact h t' ht'

theorem NoLiteralAction.bind {α : Type} {x : Option α} {f : α → Option Action} (h : ∀ a, NoLiteralAction (f a)) :
    NoLiteralAction (x >>= f) := by
  intro t ht
  obtain ⟨a, -, ht⟩ := Option.bind_eq_some_iff.1 ht
  exact h a t ht

theorem NoLiteralAction.ite {c : Prop} [Decidable c] {x y : Option Action} (hx : NoLiteralAction x)
    (hy : NoLiteralAction y) : NoLiteralAction (if c then x else y) := by
  split_ifs
  · exact hx
  · exact hy

theorem NoLiteralAction.plain {kind : Tok} (h : isLiteral kind = false) (q : Nat) :
    NoLiteralAction (some (.token (.plain kind q))) := by
  intro t ht
  obtain rfl := Action.token.inj (Option.some.inj ht)
  exact h

theorem NoLiteralAction.of_ne {action : Action} (h : ∀ t, action ≠ .token t) : NoLiteralAction (some action) :=
  fun t ht => absurd (Option.some.inj ht) (h t)

theorem noLiteral_lexOther : NoLiteralAction (L.lexOther p) := by
  rw [lexOther]
  refine .ite noLiteral_lexIdentifier.token (.ite noLiteral_lexOperatorIdentifier.token ?_)
  split
  · exact .bind fun q => .plain (by decide) q
  · split
    · exact .of_ne fun _ => Action.noConfusion
    · exact .ite (.plain (by decide) _) (.ite (.bind fun _ => .plain (by decide) _) (.of_ne fun _ => Action.noConfusion))

theorem noLiteral_lexSlash : NoLiteralAction (L.lexSlash p) :=
  .bind fun _ => .ite (.bind fun _ => .of_ne fun _ => Action.noConfusion)
    (.ite (.bind fun _ => .of_ne fun _ => Action.noConfusion) noLiteral_lexOperatorIdentifier.token)

theorem noLiteral_lexAngle : NoLiteralAction (L.lexAngle p) := by
  refine .bind fun _ => .bind fun _ => .ite (.bind fun r => ?_) noLiteral_lexOperatorIdentifier.token
  cases r with
  | none => exact noLiteral_lexOperatorIdentifier.token
  | some r => exact .of_ne fun _ => Action.noConfusion

theorem noLiteral_dispatch {prev : Tok} (hdigit : firstByte (L.buffer.byteAt p) ≠ .digit)
    (hquote : firstByte (L.buffer.byteAt p) ≠ .quote) : NoLiteralAction (L.dispatch prev p) := by
  by_cases hp : p ≤ L.buffer.size
  swap
  · intro t ht
    rw [dispatch, Buffer.read, if_neg hp] at ht
    cases ht
  simp only [dispatch, Buffer.read_eq hp, Option.bind_eq_bind, Option.bind_some]
  cases h : firstByte (L.buffer.byteAt p) with
  | digit => exact absurd h hdigit
  | quote => exact absurd h hquote
  | newline => exact .of_ne fun _ => Action.noConfusion
  | space => exact .of_ne fun _ => Action.noConfusion
  | utf16Mark => exact .plain (by decide) _
  | nul =>
      exact .ite (.plain (by decide) _) (.ite (.of_ne fun _ => Action.noConfusion) (.plain (by decide) _))
  | punctuator kind => exact .plain (punctuator_noLiteral _ h) _
  | lSquare => exact .bind fun c => .plain (by split_ifs <;> decide) _
  | hash => exact .bind fun c => .ite (.bind fun _ => .of_ne fun _ => Action.noConfusion) noLiteral_lexHash.token
  | slash => exact noLiteral_lexSlash
  | percent =>
      exact .bind fun c => .ite (.bind fun q => .plain (by decide) q) noLiteral_lexOperatorIdentifier.token
  | exclaim =>
      exact .ite (.plain (by decide) _) (.bind fun left => .ite (.plain (by decide) _) noLiteral_lexOperatorIdentifier.token)
  | question => exact .bind fun left => .ite (.plain (by decide) _) noLiteral_lexOperatorIdentifier.token
  | lAngle => exact .bind fun c => .ite noLiteral_tryLexEditorPlaceholder.token noLiteral_lexAngle
  | rAngle => exact noLiteral_lexAngle
  | operator => exact noLiteral_lexOperatorIdentifier.token
  | letter => exact noLiteral_lexIdentifier.token
  | dollar => exact (noLiteral_lexDollarIdent prev).token
  | backtick => exact noLiteral_lexEscapedIdentifier.token
  | other => exact noLiteral_lexOther

theorem lexImpl_literal (h : L.lexImpl s = some s') (hkind : isLiteral s'.nextToken.kind) :
    firstByte (L.buffer.byteAt s'.nextToken.text.1) = .digit ∨ firstByte (L.buffer.byteAt s'.nextToken.text.1) = .quote := by
  obtain ⟨t, hleads, hforms⟩ := lexImpl_token h
  rw [hforms.kind] at hkind
  by_contra hfirst
  rw [not_or] at hfirst
  cases hleads with
  | token h => exact Bool.false_ne_true ((noLiteral_dispatch hfirst.1 hfirst.2 t h).symm.trans hkind)
  | comment _ ht =>
      have hcomment : isLiteral Tok.comment = false := by decide
      rw [ht] at hkind
      exact Bool.false_ne_true (hcomment.symm.trans hkind)

theorem lexImpl_scanned {scan : Option Scanned} (h : L.lexImpl s = some s')
    (hscan : L.dispatch s.nextToken.kind s'.nextToken.text.1 = (do return .token (← scan))) :
    ∃ t, scan = some t ∧ Forms s' s'.nextToken.text.1 t := by
  obtain ⟨t, hleads, hforms⟩ := lexImpl_token h
  cases hleads with
  | token h =>
      rw [hscan] at h
      obtain ⟨t', ht', haction⟩ := Option.bind_eq_some_iff.1 h
      obtain rfl := Action.token.inj (Option.some.inj haction)
      exact ⟨t', ht', hforms⟩
  | comment h _ =>
      rw [hscan] at h
      obtain ⟨t', -, haction⟩ := Option.bind_eq_some_iff.1 h
      cases Option.some.inj haction

theorem dispatch_quote (hquote : firstByte (L.buffer.byteAt p) = .quote) (prev : Tok) :
    L.dispatch prev p = (do return .token (← L.lexStringLiteral p)) := by
  have hp : p < L.buffer.size := by
    by_contra hp
    rw [Buffer.byteAt_of_size_le (by omega)] at hquote
    exact absurd hquote (by decide)
  simp only [dispatch, Buffer.read_eq hp.le, Option.bind_eq_bind, Option.bind_some, hquote]

theorem dispatch_digit (hdigit : firstByte (L.buffer.byteAt p) = .digit) (prev : Tok) :
    L.dispatch prev p = (do return .token (← L.lexNumber prev p)) := by
  have hp : p < L.buffer.size := by
    by_contra hp
    rw [Buffer.byteAt_of_size_le (by omega)] at hdigit
    exact absurd hdigit (by decide)
  simp only [dispatch, Buffer.read_eq hp.le, Option.bind_eq_bind, Option.bind_some, hdigit]

theorem stringLiteralEnd_done {multiline : Bool} {t : Scanned} {tokStart q : Nat}
    (h : L.stringLiteralEnd tokStart multiline q = some (.done t)) : t.kind = .stringLiteral := by
  cases multiline with
  | false =>
      obtain rfl := Step.done.inj (Option.some.inj h)
      rfl
  | true =>
      obtain ⟨closes, -, h⟩ := Option.bind_eq_some_iff.1 h
      cases closes with
      | false => cases h
      | true =>
          cases hdiags : L.diags with
          | false =>
              rw [hdiags] at h
              obtain rfl := Step.done.inj (Option.some.inj h)
              rfl
          | true =>
              rw [hdiags] at h
              obtain ⟨_, -, h⟩ := Option.bind_eq_some_iff.1 h
              obtain rfl := Step.done.inj (Option.some.inj h)
              rfl

theorem stringLiteralQuote_done {multiline erroneous : Bool} {t : Scanned} {tokStart q : Nat}
    (h : L.stringLiteralQuote tokStart multiline erroneous q = some (.done t)) :
    t.kind = .stringLiteral ∨ t.kind = .unknown := by
  rw [stringLiteralQuote] at h
  split_ifs at h
  · cases h
    exact .inr rfl
  · obtain ⟨quote, -, h⟩ := Option.bind_eq_some_iff.1 h
    split_ifs at h
    · obtain ⟨_, -, h⟩ := Option.bind_eq_some_iff.1 h
      exact .inl (stringLiteralEnd_done h)
    · exact .inl (stringLiteralEnd_done h)

theorem lexStringLiteral_kind {t : Scanned} (h : L.lexStringLiteral p = some t) :
    t.kind = .stringLiteral ∨ t.kind = .unknown := by
  obtain ⟨quote, -, h⟩ := Option.bind_eq_some_iff.1 h
  obtain ⟨three, -, h⟩ := Option.bind_eq_some_iff.1 h
  refine iterate_induct (P := fun t => t.kind = .stringLiteral ∨ t.kind = .unknown) (fun _ => True)
    (fun _ _ _ _ => trivial) ?_ trivial h
  intro x t _ hstep
  obtain ⟨interpolated, -, hstep⟩ := Option.bind_eq_some_iff.1 hstep
  split_ifs at hstep
  · obtain ⟨endPtr, -, hstep⟩ := Option.bind_eq_some_iff.1 hstep
    obtain ⟨c, -, hstep⟩ := Option.bind_eq_some_iff.1 hstep
    split_ifs at hstep <;> cases hstep
  · obtain ⟨c, -, hstep⟩ := Option.bind_eq_some_iff.1 hstep
    split_ifs at hstep with hend
    · cases hstep
      exact .inr rfl
    obtain ⟨stopQuote, -, hstep⟩ := Option.bind_eq_some_iff.1 hstep
    obtain ⟨⟨lexed, q⟩, -, hstep⟩ := Option.bind_eq_some_iff.1 hstep
    cases lexed with
    | char v => cases hstep
    | endOfString => exact stringLiteralQuote_done hstep
    | error => cases hstep

end SwiftKStdlib.Parse.Lexer
