import SwiftKStdlib.Lexer.Literals
import SwiftKStdlib.Lexer.Numbers

/-!
# The switch over the first byte

* `CutOperator` : the token is an operator that runs into a `<#` that ends the buffer;
* `Action.Fits` : what the switch leads to goes forward, inside the buffer;
* `returns_dispatch`, `dispatch_cut` : the switch returns unless the operator is cut.
-/

namespace SwiftKStdlib.Parse

open Lib

/-! ## Bytes -/

def FirstByte.isOperator (k : FirstByte) : Bool :=
  k = .slash || k = .percent || k = .exclaim || k = .question || k = .lAngle || k = .rAngle || k = .operator

/-- What the case says of the byte that leads to it. -/
def FirstByte.tells (k : FirstByte) (c : UInt8) : Bool :=
  (k = .nul || c ≠ 0) && (!k.isOperator || c < 0x80 && isOperatorStartCodePoint c.toNat) &&
    match k with
    | .newline => isNewline c
    | .hash => c = byte '#'
    | .slash => c = byte '/'
    | .backtick => c = byte '\x60'
    | .letter => c < 0x80 && isValidIdentifierStartCodePoint c.toNat
    | .punctuator kind => kind ≠ .eof
    | _ => true

theorem firstByte_tells : ∀ c : UInt8, (firstByte c).tells c = true := forall_byte (by decide +kernel)

section

variable {c : UInt8}

theorem tells_of_firstByte {k : FirstByte} (h : firstByte c = k) : k.tells c = true := h ▸ firstByte_tells c

theorem firstByte_ne_zero (h : firstByte c ≠ .nul) : c ≠ 0 := by
  have hzero := (Bool.and_eq_true_iff.1 (Bool.and_eq_true_iff.1 (firstByte_tells c)).1).1
  rw [Bool.or_eq_true, decide_eq_true_iff, decide_eq_true_iff] at hzero
  exact hzero.resolve_left h

theorem firstByte_operator (h : (firstByte c).isOperator) : c < 0x80 ∧ isOperatorStartCodePoint c.toNat := by
  have hoperator := (Bool.and_eq_true_iff.1 (Bool.and_eq_true_iff.1 (firstByte_tells c)).1).2
  rw [h, Bool.not_true, Bool.false_or, Bool.and_eq_true, decide_eq_true_iff] at hoperator
  exact hoperator

theorem firstByte_newline (h : firstByte c = .newline) : isNewline c := by
  have htells := tells_of_firstByte h
  exact (Bool.and_eq_true_iff.1 htells).2

theorem firstByte_hash (h : firstByte c = .hash) : c = byte '#' := by
  have htells := tells_of_firstByte h
  exact of_decide_eq_true (Bool.and_eq_true_iff.1 htells).2

theorem firstByte_slash (h : firstByte c = .slash) : c = byte '/' := by
  have htells := tells_of_firstByte h
  exact of_decide_eq_true (Bool.and_eq_true_iff.1 htells).2

theorem firstByte_backtick (h : firstByte c = .backtick) : c = byte '\x60' := by
  have htells := tells_of_firstByte h
  exact of_decide_eq_true (Bool.and_eq_true_iff.1 htells).2

theorem firstByte_letter (h : firstByte c = .letter) : c < 0x80 ∧ isValidIdentifierStartCodePoint c.toNat := by
  have htells := tells_of_firstByte h
  obtain ⟨hascii, hvalid⟩ := Bool.and_eq_true_iff.1 (Bool.and_eq_true_iff.1 htells).2
  exact ⟨of_decide_eq_true hascii, hvalid⟩

theorem firstByte_digit : ∀ c : UInt8, firstByte c = .digit ↔ isDigit c := forall_byte (by decide +kernel)

theorem firstByte_punctuator (c : UInt8) : firstByte c ≠ .punctuator .eof := by
  intro h
  have htells := tells_of_firstByte h
  exact of_decide_eq_true (Bool.and_eq_true_iff.1 htells).2 rfl

end

/-! ## Operators at the end of the buffer -/

namespace Lexer

variable {L : Lexer} {tokStart : Nat} {prev : Tok}

/-- The switch at `tokStart` comes to `lexOperatorIdentifier`. -/
inductive LexesOperator (L : Lexer) (tokStart : Nat) : Prop
  | operator (h : firstByte (L.buffer.byteAt tokStart) = .operator)
  | slash (h : firstByte (L.buffer.byteAt tokStart) = .slash) (hline : L.buffer.byteAt (tokStart + 1) ≠ byte '/')
      (hblock : L.buffer.byteAt (tokStart + 1) ≠ byte '*')
  | percent (h : firstByte (L.buffer.byteAt tokStart) = .percent)
      (hsil : ¬ (L.inSILBody = true ∧ isIdentifierBody (L.buffer.byteAt (tokStart + 1)) false = true))
  | exclaim (h : firstByte (L.buffer.byteAt tokStart) = .exclaim) (hsil : L.inSILBody = false)
      (hleft : L.isLeftBound tokStart = some false)
  | question (h : firstByte (L.buffer.byteAt tokStart) = .question) (hleft : L.isLeftBound tokStart = some false)
  | placeholder (h : firstByte (L.buffer.byteAt tokStart) = .lAngle)
      (hsharp : L.buffer.byteAt (tokStart + 1) = byte '#')
      (hopen : L.buffer.findPlaceholderEnd (tokStart + 2) = some none)
  | angle (h : firstByte (L.buffer.byteAt tokStart) = .rAngle ∨
        firstByte (L.buffer.byteAt tokStart) = .lAngle ∧ L.buffer.byteAt (tokStart + 1) ≠ byte '#')
      (hmarker : L.buffer.byteAt (tokStart + 1) = L.buffer.byteAt tokStart →
        L.tryLexConflictMarker true tokStart = some none)
  | other (h : firstByte (L.buffer.byteAt tokStart) = .other)
      (hidentifier : L.buffer.advanceIf isValidIdentifierStartCodePoint tokStart = none)

/-- The token is an operator that runs into a `<#` that ends the buffer. -/
def CutOperator (L : Lexer) (tokStart : Nat) : Prop := LexesOperator L tokStart ∧ RunsIntoPlaceholder L tokStart

end Lexer

/-! ## Actions -/

/-- The action goes forward, inside the buffer; only `eof` is empty. -/
def Action.Fits (b : Buffer) (tokStart : Nat) : Action → Prop
  | .newline => tokStart < b.size ∧ isNewline (b.byteAt tokStart)
  | .skip q _ | .comment q _ | .hashbang q => tokStart < q ∧ q ≤ b.size
  | .token t => t.Fits b tokStart ∨ tokStart = b.size ∧ t = .plain .eof tokStart

theorem returns_token {b : Buffer} {tokStart : Nat} {x : Option Scanned}
    (h : Returns x fun t => t.Fits b tokStart) : Returns (do return Action.token (← x)) (Action.Fits b tokStart) :=
  h.bind fun _ ht => .pure (.inl ht)

theorem Action.Fits.plain {b : Buffer} {kind : Tok} {tokStart : Nat} (h : tokStart < b.size)
    (hk : kind ≠ .eof) : (Action.token (.plain kind (tokStart + 1))).Fits b tokStart :=
  .inl (.plain (Nat.lt_succ_self _) h hk)

namespace Lexer

variable {L : Lexer} {tokStart : Nat} {prev : Tok}

theorem beginsOperator (hp : tokStart < L.buffer.size)
    (h : (firstByte (L.buffer.byteAt tokStart)).isOperator) : BeginsOperator L tokStart := by
  obtain ⟨hascii, hop⟩ := firstByte_operator h
  rw [BeginsOperator, Buffer.advanceIf_ascii hp hascii, if_pos hop]
  rfl

theorem returns_operator (hstart : L.contentStart ≤ tokStart) (hop : BeginsOperator L tokStart)
    (hlexes : LexesOperator L tokStart) (hcut : ¬ CutOperator L tokStart) :
    Returns (do return Action.token (← L.lexOperatorIdentifier tokStart)) (Action.Fits L.buffer tokStart) :=
  returns_token (returns_lexOperatorIdentifier hop hstart fun h => hcut ⟨hlexes, h⟩)

theorem returns_lexOther (hp : tokStart < L.buffer.size) (hstart : L.contentStart ≤ tokStart)
    (h : firstByte (L.buffer.byteAt tokStart) = .other) (hcut : ¬ CutOperator L tokStart) :
    Returns (L.lexOther tokStart) (Action.Fits L.buffer tokStart) := by
  refine .ite (fun hid => returns_token (returns_lexIdentifier hid)) fun hid => .ite (fun hop => ?_) fun _ => ?_
  · exact returns_operator hstart hop (.other h (Option.not_isSome_iff_eq_none.1 hid)) hcut
  · split
    · next p hnext =>
      have hbounds := Buffer.advanceIf_bounds hnext
      exact (Buffer.returns_advanceWhile hbounds.2).bind fun q hq => .pure (.inl (.plain (by omega) hq.2 (by decide)))
    · have hbounds := Buffer.validate_bounds hp
      split
      · next p hvalidate =>
        rw [hvalidate] at hbounds
        exact .pure hbounds
      · next codepoint p hvalidate =>
        rw [hvalidate] at hbounds
        obtain ⟨hlt, hle⟩ : tokStart < p ∧ p ≤ L.buffer.size := hbounds
        refine .ite (fun _ => .pure (.inl (.plain hlt hle (by decide)))) fun _ => .ite (fun _ => ?_) fun _ => .pure ⟨hlt, hle⟩
        refine (returns_findEndOfCurlyQuoteStringLiteral hle).bind ?_
        rintro (_ | q) hq
        · exact .pure (.inl (.plain hlt hle (by decide)))
        · have := hq q rfl
          exact .pure (.inl (.plain (by simp only [Option.getD_some]; omega) this.2 (by decide)))

theorem returns_lexSlash (hp : tokStart < L.buffer.size) (hstart : L.contentStart ≤ tokStart)
    (h : firstByte (L.buffer.byteAt tokStart) = .slash) (hcut : ¬ CutOperator L tokStart) :
    Returns (L.lexSlash tokStart) (Action.Fits L.buffer tokStart) := by
  have hp' : tokStart + 1 ≤ L.buffer.size := hp
  refine (Buffer.returns_read hp').bind ?_
  rintro _ rfl
  refine .ite (fun _ => ?_) fun hline => .ite (fun hblock => ?_) fun hblock => ?_
  · exact (Buffer.returns_skipToEndOfLine true hp').bind fun r hr => .pure ⟨by omega, hr.2.1⟩
  · refine (Buffer.returns_skipSlashStarComment hp' (Nat.succ_ne_zero _) (firstByte_slash h) hblock).bind fun r hr => ?_
    exact .pure ⟨by omega, hr.2⟩
  · exact returns_operator hstart (beginsOperator hp (by rw [h]; rfl)) (.slash h hline hblock) hcut

theorem returns_lexAngle (hp : tokStart < L.buffer.size) (hstart : L.contentStart ≤ tokStart)
    (h : firstByte (L.buffer.byteAt tokStart) = .rAngle ∨
      firstByte (L.buffer.byteAt tokStart) = .lAngle ∧ L.buffer.byteAt (tokStart + 1) ≠ byte '#')
    (hcut : ¬ CutOperator L tokStart) : Returns (L.lexAngle tokStart) (Action.Fits L.buffer tokStart) := by
  have hp' : tokStart + 1 ≤ L.buffer.size := hp
  have hop : BeginsOperator L tokStart := by
    apply beginsOperator hp
    rcases h with h | h
    · rw [h]
      rfl
    · rw [h.1]
      rfl
  refine (Buffer.returns_read hp').bind ?_
  rintro _ rfl
  refine (Buffer.returns_read hp.le).bind ?_
  rintro _ rfl
  refine .ite (fun _ => ?_) fun hne => ?_
  · obtain ⟨r, hmarker, hr⟩ := returns_tryLexConflictMarker true hp.le hstart
    rw [hmarker]
    cases r with
    | some m => exact .pure (hr m rfl)
    | none => exact returns_operator hstart hop (.angle h fun _ => hmarker) hcut
  · exact returns_operator hstart hop (.angle h fun heq => absurd heq hne) hcut

theorem returns_dispatch (hp : tokStart ≤ L.buffer.size) (hstart : L.contentStart ≤ tokStart)
    (hcompletion : L.codeCompletionPtr = some tokStart → tokStart < L.buffer.size) (hcut : ¬ CutOperator L tokStart) :
    Returns (L.dispatch prev tokStart) (Action.Fits L.buffer tokStart) := by
  refine (Buffer.returns_read hp).bind ?_
  rintro _ rfl
  have hlt : firstByte (L.buffer.byteAt tokStart) ≠ .nul → tokStart < L.buffer.size :=
    fun h => Buffer.lt_size hp (firstByte_ne_zero h)
  cases h : firstByte (L.buffer.byteAt tokStart) with
  | newline => exact .pure ⟨hlt (by rw [h]; exact FirstByte.noConfusion), firstByte_newline h⟩
  | space => exact .pure ⟨Nat.lt_succ_self _, hlt (by rw [h]; exact FirstByte.noConfusion)⟩
  | utf16Mark => exact .pure (.inl (.plain (hlt (by rw [h]; exact FirstByte.noConfusion)) le_rfl (by decide)))
  | nul =>
      exact .ite (fun hcode => .pure (.plain (hcompletion hcode) (by decide))) fun _ =>
        .ite (fun hne => .pure ⟨Nat.lt_succ_self _, lt_of_le_of_ne hp hne⟩) fun heq => .pure (.inr ⟨not_not.1 heq, rfl⟩)
  | punctuator kind =>
      refine .pure (.plain (hlt (by rw [h]; exact FirstByte.noConfusion)) ?_)
      rintro rfl
      exact firstByte_punctuator _ h
  | lSquare =>
      have hp' := hlt (by rw [h]; exact FirstByte.noConfusion)
      refine (Buffer.returns_read (show tokStart + 1 ≤ L.buffer.size from hp')).bind fun c _ => .pure (.plain hp' ?_)
      split_ifs <;> decide
  | hash =>
      have hp' := hlt (by rw [h]; exact FirstByte.noConfusion)
      refine (Buffer.returns_read (show tokStart + 1 ≤ L.buffer.size from hp')).bind fun c _ => .ite (fun _ => ?_) fun _ =>
        returns_token (returns_lexHash hp')
      refine (Buffer.returns_skipToEndOfLine true hp).bind fun r hr => .pure ⟨hr.2.2 hp' ?_, hr.2.1⟩
      rw [firstByte_hash h]
      decide
  | slash => exact returns_lexSlash (hlt (by rw [h]; exact FirstByte.noConfusion)) hstart h hcut
  | percent =>
      have hp' := hlt (by rw [h]; exact FirstByte.noConfusion)
      refine (Buffer.returns_read (show tokStart + 1 ≤ L.buffer.size from hp')).bind ?_
      rintro _ rfl
      refine .ite (fun _ => ?_) fun hsil =>
        returns_operator hstart (beginsOperator hp' (by rw [h]; rfl)) (.percent h hsil) hcut
      exact (Buffer.returns_scanWhile (show tokStart + 1 ≤ L.buffer.size from hp') (by decide)).bind fun q hq =>
        .pure (.inl (.plain (by omega) hq.2 (by decide)))
  | exclaim =>
      have hp' := hlt (by rw [h]; exact FirstByte.noConfusion)
      refine .ite (fun _ => .pure (.plain hp' (by decide))) fun hsil => ?_
      obtain ⟨leftBound, hleft, -⟩ := returns_isLeftBound hp hstart
      rw [hleft]
      cases leftBound with
      | true => exact .pure (.plain hp' (by decide))
      | false =>
          exact returns_operator hstart (beginsOperator hp' (by rw [h]; rfl)) (.exclaim h (Bool.eq_false_iff.2 hsil) hleft)
            hcut
  | question =>
      have hp' := hlt (by rw [h]; exact FirstByte.noConfusion)
      obtain ⟨leftBound, hleft, -⟩ := returns_isLeftBound hp hstart
      simp only [hleft]
      cases leftBound with
      | true => exact .pure (.plain hp' (by decide))
      | false => exact returns_operator hstart (beginsOperator hp' (by rw [h]; rfl)) (.question h hleft) hcut
  | lAngle =>
      have hp' := hlt (by rw [h]; exact FirstByte.noConfusion)
      refine (Buffer.returns_read (show tokStart + 1 ≤ L.buffer.size from hp')).bind ?_
      rintro _ rfl
      refine .ite (fun hsharp => returns_token ?_) fun hsharp => returns_lexAngle hp' hstart (.inr ⟨h, hsharp⟩) hcut
      have hsize : tokStart + 2 ≤ L.buffer.size := Buffer.lt_size_of_eq (show tokStart + 1 ≤ L.buffer.size from hp') hsharp (by decide)
      obtain ⟨r, hopen, hr⟩ := Buffer.returns_findPlaceholderEnd hsize
      rw [tryLexEditorPlaceholder, hopen]
      cases r with
      | some q =>
          have := hr q rfl
          exact .pure (.plain (by omega) this.2 (by decide))
      | none =>
          exact returns_lexOperatorIdentifier (beginsOperator hp' (by rw [h]; rfl)) hstart fun hruns =>
            hcut ⟨.placeholder h hsharp hopen, hruns⟩
  | rAngle => exact returns_lexAngle (hlt (by rw [h]; exact FirstByte.noConfusion)) hstart (.inl h) hcut
  | operator =>
      have hp' := hlt (by rw [h]; exact FirstByte.noConfusion)
      exact returns_operator hstart (beginsOperator hp' (by rw [h]; rfl)) (.operator h) hcut
  | letter =>
      have hp' := hlt (by rw [h]; exact FirstByte.noConfusion)
      obtain ⟨hascii, hid⟩ := firstByte_letter h
      refine returns_token (returns_lexIdentifier ?_)
      rw [Buffer.advanceIf_ascii hp' hascii, if_pos hid]
      rfl
  | dollar => exact returns_token (returns_lexDollarIdent prev (hlt (by rw [h]; exact FirstByte.noConfusion)))
  | digit =>
      exact returns_token ((returns_lexNumber prev (hlt (by rw [h]; exact FirstByte.noConfusion)) ((firstByte_digit _).1 h)).mono
        fun _ ht => ht.fits)
  | quote => exact returns_token (returns_lexStringLiteral (hlt (by rw [h]; exact FirstByte.noConfusion)))
  | backtick =>
      exact returns_token (returns_lexEscapedIdentifier (hlt (by rw [h]; exact FirstByte.noConfusion))
        (firstByte_backtick h))
  | other => exact returns_lexOther (hlt (by rw [h]; exact FirstByte.noConfusion)) hstart h hcut

theorem RunsIntoPlaceholder.begins (h : RunsIntoPlaceholder L tokStart) : BeginsOperator L tokStart := by
  obtain ⟨p, hrun, -⟩ := h
  rw [BeginsOperator]
  induction hrun with
  | start h =>
      rw [h]
      rfl
  | next _ _ _ _ ih => exact ih

theorem dispatch_cut (h : CutOperator L tokStart) : L.dispatch prev tokStart = none := by
  obtain ⟨hlexes, hruns⟩ := h
  have hop := lexOperatorIdentifier_cut hruns
  have hsize : tokStart + 1 ≤ L.buffer.size := by
    obtain ⟨p, hp⟩ := Option.isSome_iff_exists.1 hruns.begins
    have := Buffer.advanceIf_bounds hp
    omega
  have hread := Buffer.read_eq (show tokStart ≤ L.buffer.size by omega)
  have hread' := Buffer.read_eq hsize
  cases hlexes with
  | operator h =>
      simp only [dispatch, hread, Option.bind_eq_bind, Option.bind_some, h, hop, Option.bind_none]
  | slash h hline hblock =>
      simp only [dispatch, lexSlash, hread, hread', Option.bind_eq_bind, Option.bind_some, h, hop, if_neg hline,
        if_neg hblock, Option.bind_none]
  | percent h hsil =>
      simp only [dispatch, hread, hread', Option.bind_eq_bind, Option.bind_some, h, hop, if_neg hsil, Option.bind_none]
  | exclaim h hsil hleft =>
      simp only [dispatch, hread, Option.bind_eq_bind, Option.bind_some, h, hop, hsil, hleft, Bool.false_eq_true,
        if_false, Option.bind_none]
  | question h hleft =>
      simp only [dispatch, hread, Option.bind_eq_bind, Option.bind_some, h, hop, hleft, Bool.false_eq_true, if_false,
        Option.bind_none]
  | placeholder h hsharp hopen =>
      simp only [dispatch, tryLexEditorPlaceholder, hread, hread', Option.bind_eq_bind, Option.bind_some, h, hop, hsharp,
        if_true, hopen, Option.bind_none]
  | angle h hmarker =>
      have hangle : L.lexAngle tokStart = none := by
        simp only [lexAngle, hread, hread', Option.bind_eq_bind, Option.bind_some, hop, Option.bind_none]
        split_ifs with heq
        · rw [hmarker heq]
          rfl
        · rfl
      rcases h with h | ⟨h, hsharp⟩
      · simp only [dispatch, hread, Option.bind_eq_bind, Option.bind_some, h, hangle]
      · simp only [dispatch, hread, hread', Option.bind_eq_bind, Option.bind_some, h, hangle, if_neg hsharp]
  | other h hidentifier =>
      have hbegins : (L.buffer.advanceIf isOperatorStartCodePoint tokStart).isSome = true := hruns.begins
      simp only [dispatch, lexOther, hread, Option.bind_eq_bind, Option.bind_some, h, hidentifier, Option.isSome_none,
        Bool.false_eq_true, if_false, hbegins, if_true, hop, Option.bind_none]

theorem dispatch_completion (h : L.codeCompletionPtr = some L.buffer.size) :
    L.dispatch prev L.buffer.size = some (.token (.plain .codeComplete (L.buffer.size + 1))) := by
  have hnul : firstByte 0 = .nul := by decide
  simp only [dispatch, Buffer.read_eq le_rfl, Buffer.byteAt_size, Option.bind_eq_bind, Option.bind_some, hnul, if_pos h]
  rfl

end Lexer

end SwiftKStdlib.Parse
