import SwiftKStdlib.Lexer.Dispatch

/-!
# The lexer stays inside the buffer

* `returns_lexTrivia`, `returns_formScanned`, `returns_restart`, `returns_lexImpl` : every part of the lexer returns;
* `Calls`, `TokenStart` : the states that `lexImpl` is called in, and the positions where it looks for a token;
* `Safe` : a lexer that ends, goes forward and stays inside the buffer;
* `lexer_safe_iff` : a lexer is safe when no operator is cut.
-/

namespace SwiftKStdlib.Parse.Lexer

open Lib

variable {L : Lexer} {s s' : Members} {p tokStart : Nat}

/-! ## Trivia -/

/-- The trivia goes forward; leading trivia leaves no newline. -/
theorem returns_triviaStep {trailing : Bool} {t : TriviaLexed} (hp : t.curPtr ≤ L.buffer.size)
    (hstart : L.contentStart ≤ t.curPtr) :
    Returns (L.triviaStep trailing t) (Step.All
      (fun t' => (t.atStartOfLine = true → t'.atStartOfLine = true) ∧ t.curPtr < t'.curPtr ∧ t'.curPtr ≤ L.buffer.size)
      fun t' => t' = t ∧ (trailing = false → ¬ isNewline (L.buffer.byteAt t.curPtr))) := by
  refine (Buffer.returns_read hp).bind ?_
  rintro _ rfl
  have hdone : ∀ {c : UInt8}, L.buffer.byteAt t.curPtr = c → ¬ isNewline c →
      t = t ∧ (trailing = false → ¬ isNewline (L.buffer.byteAt t.curPtr)) := by
    rintro c rfl hc
    exact ⟨rfl, fun _ => hc⟩
  refine .ite (fun hlf => ?_) fun hlf => .ite (fun hcr => ?_) fun hcr => .ite (fun hspace => ?_) fun _ =>
    .ite (fun hslash => ?_) fun _ => .ite (fun hhash => ?_) fun _ => .ite (fun hangle => ?_) fun _ => ?_
  · exact .ite (fun h => .pure ⟨rfl, fun hf => absurd h (by rw [hf]; decide)⟩) fun _ =>
      .pure ⟨fun _ => rfl, Nat.lt_succ_self _, Buffer.lt_size_of_eq hp hlf (by decide)⟩
  · have hp' : t.curPtr + 1 ≤ L.buffer.size := Buffer.lt_size_of_eq hp hcr (by decide)
    refine .ite (fun h => .pure ⟨rfl, fun hf => absurd h (by rw [hf]; decide)⟩) fun _ => (Buffer.returns_read hp').bind ?_
    rintro _ rfl
    exact .ite (fun h => .pure ⟨fun _ => rfl, by simp, Buffer.lt_size_of_eq hp' h (by decide)⟩) fun _ =>
      .pure ⟨fun _ => rfl, Nat.lt_succ_self _, hp'⟩
  · exact .pure ⟨id, Nat.lt_succ_self _, Buffer.lt_size_of_test hp hspace (by decide)⟩
  · have hp' : t.curPtr + 1 ≤ L.buffer.size := Buffer.lt_size_of_eq hp hslash (by decide)
    refine .ite (fun _ => .pure (hdone hslash (by decide))) fun _ => (Buffer.returns_read hp').bind ?_
    rintro _ rfl
    refine .ite (fun h => ?_) fun _ => .ite (fun h => ?_) fun _ => .pure (hdone hslash (by decide))
    · refine (Buffer.returns_read (Buffer.lt_size_of_eq hp' h (by decide))).bind fun _ _ => ?_
      exact (Buffer.returns_skipToEndOfLine false hp').bind fun r hr => .pure ⟨id, Nat.lt_of_succ_le hr.1, hr.2.1⟩
    · refine (Buffer.returns_read (Buffer.lt_size_of_eq hp' h (by decide))).bind fun _ _ => ?_
      refine (Buffer.returns_skipSlashStarComment hp' (Nat.succ_ne_zero _) hslash h).bind fun r hr => .pure ?_
      exact ⟨fun h => Bool.or_eq_true_iff.2 (.inl h), (Nat.lt_succ_self _).trans hr.1, hr.2⟩
  · have hp' : t.curPtr + 1 ≤ L.buffer.size := Buffer.lt_size_of_eq hp hhash (by decide)
    refine (Buffer.returns_read hp').bind fun _ _ => .ite (fun _ => ?_) fun _ => .pure (hdone hhash (by decide))
    refine (Buffer.returns_skipToEndOfLine false hp).bind fun r hr => .pure ⟨id, hr.2.2 hp' ?_, hr.2.1⟩
    rw [hhash]
    decide
  · have hne : ¬ isNewline (L.buffer.byteAt t.curPtr) := by
      rcases hangle with h | h
      · rw [h]
        decide
      · rw [h]
        decide
    refine (returns_tryLexConflictMarker false hp hstart).bind ?_
    rintro (_ | m) hm
    · exact .pure (hdone rfl hne)
    · exact .pure ⟨id, hm m rfl⟩
  · refine .pure (hdone rfl ?_)
    simp [isNewline, hlf, hcr]

theorem returns_lexTrivia {trailing : Bool} {t : TriviaLexed} (hp : t.curPtr ≤ L.buffer.size)
    (hstart : L.contentStart ≤ t.curPtr) : Returns (L.lexTrivia trailing t) fun t' =>
      (t.atStartOfLine = true → t'.atStartOfLine = true) ∧ t.curPtr ≤ t'.curPtr ∧ t'.curPtr ≤ L.buffer.size ∧
        (L.triviaRetention = .withTrivia → trailing = false → ¬ isNewline (L.buffer.byteAt t'.curPtr)) := by
  refine .ite (fun h => .pure ⟨id, le_rfl, hp, fun h' => absurd (h.symm.trans h') (by decide)⟩) fun _ => ?_
  refine Buffer.returns_iterate TriviaLexed.curPtr
    (fun t' => (t.atStartOfLine = true → t'.atStartOfLine = true) ∧ t.curPtr ≤ t'.curPtr) ?_ ⟨id, le_rfl⟩ hp
  rintro t' ⟨hline, hle⟩ hp'
  apply (returns_triviaStep hp' (hstart.trans hle)).mono
  rintro (t'' | t'') h
  · exact ⟨⟨fun h' => h.1 (hline h'), hle.trans h.2.1.le⟩, h.2⟩
  · obtain ⟨rfl, hne⟩ := h
    exact ⟨hline, hle, hp', fun _ => hne⟩

/-! ## One token -/

/-- The lexer may look for a token: its cursor is in the content, and its trailing trivia is empty. -/
structure Started (L : Lexer) (s : Members) : Prop where
  content : L.contentStart ≤ s.curPtr
  le : s.curPtr ≤ L.buffer.size
  trailing : L.triviaRetention = .withTrivia → s.trailingTrivia = []

/-- The token is formed; the cursor went forward from `p`, unless it was at the end. -/
structure Formed (L : Lexer) (p : Nat) (atStartOfLine : Bool) (s : Members) : Prop where
  le : p ≤ s.curPtr
  size : s.curPtr ≤ L.buffer.size
  lt : p < L.buffer.size → p < s.curPtr
  line : atStartOfLine = true → s.nextToken.atStartOfLine = true
  eof : p = L.buffer.size → s.nextToken.kind = .eof

theorem returns_formToken {t : Scanned} (hle : tokStart ≤ t.curPtr) (ht : t.curPtr ≤ L.buffer.size)
    (hstart : L.contentStart ≤ tokStart) :
    Returns (L.formToken s tokStart t) fun s' => t.curPtr ≤ s'.curPtr ∧ s'.curPtr ≤ L.buffer.size ∧
      s'.nextToken.kind = t.kind ∧ (s.nextToken.atStartOfLine = true → s'.nextToken.atStartOfLine = true) := by
  simp only [formToken, guard, if_pos ht, Option.bind_eq_bind, Option.bind_some, Option.pure_def]
  exact (returns_lexTrivia ht (hstart.trans hle)).bind fun t' ht' => .pure ⟨ht'.2.1, ht'.2.2.1, rfl, ht'.1⟩

theorem returns_formScanned {t : Scanned} (hstart : L.contentStart ≤ tokStart)
    (htrailing : L.triviaRetention = .withTrivia → s.trailingTrivia = [])
    (ht : t.Fits L.buffer tokStart ∨ tokStart = L.buffer.size ∧ t = .plain .eof tokStart) :
    Returns (L.formScanned s tokStart t) fun s' => Formed L tokStart s.nextToken.atStartOfLine s' ∧
      (tokStart < L.buffer.size → s'.nextToken.kind ≠ .eof) := by
  rcases ht with ht | ⟨rfl, rfl⟩
  · have hform : ∀ {s : Members}, Returns (L.formToken s tokStart t) fun s' =>
        Formed L tokStart s.nextToken.atStartOfLine s' ∧ (tokStart < L.buffer.size → s'.nextToken.kind ≠ .eof) := by
      intro s
      refine (returns_formToken ht.lt.le ht.le hstart).mono fun s' hs' => ?_
      have hlt := ht.lt
      have hsize := ht.le
      refine ⟨⟨by omega, hs'.2.1, fun _ => by omega, hs'.2.2.2, fun _ => by omega⟩, fun _ => ?_⟩
      rw [hs'.2.2.1]
      exact ht.ne_eof
    refine .ite (fun hescaped => ?_) fun _ => hform
    obtain ⟨hlong, hfirst, hlast⟩ := ht.escaped hescaped
    have hlt := ht.lt
    simp only [formEscapedIdentifierToken, guard, if_pos hlong, Buffer.read_eq (ht.lt.le.trans ht.le), hfirst, if_true,
      Buffer.readBack_eq ht.le (show t.curPtr ≠ 0 by omega), hlast, if_pos htrailing, Option.bind_eq_bind,
      Option.bind_some, Option.pure_def]
    refine Returns.bind (P := fun s' => Formed L tokStart s.nextToken.atStartOfLine s' ∧
      (tokStart < L.buffer.size → s'.nextToken.kind ≠ .eof)) ?_ fun s' hs' => .pure ?_
    · split_ifs
      · exact hform
      · exact hform
    · exact ⟨⟨hs'.1.le, hs'.1.size, hs'.1.lt, hs'.1.line, hs'.1.eof⟩, hs'.2⟩
  · refine .ite (fun h => absurd h Bool.false_ne_true) fun _ => ?_
    refine (returns_formToken le_rfl le_rfl hstart).mono fun s' hs' => ?_
    exact ⟨⟨hs'.1, hs'.2.1, fun h => absurd h (lt_irrefl _), hs'.2.2.2, fun _ => hs'.2.2.1⟩,
      fun h => absurd h (lt_irrefl _)⟩

theorem returns_lexLeadingTrivia (hs : Started L s) : Returns (L.lexLeadingTrivia s) fun s' => Started L s' ∧
    s.curPtr ≤ s'.curPtr ∧ (s.nextToken.atStartOfLine = true → s'.nextToken.atStartOfLine = true) ∧
    (L.triviaRetention = .withTrivia → ¬ isNewline (L.buffer.byteAt s'.curPtr)) :=
  (returns_lexTrivia hs.le hs.content).bind fun _ ht =>
    .pure ⟨⟨hs.content.trans ht.2.1, ht.2.2.1, hs.trailing⟩, ht.2.1, ht.1, fun h => ht.2.2.2 h rfl⟩

theorem contentStart_le : L.contentStart ≤ L.buffer.size := by
  rw [contentStart]
  split_ifs with h
  · exact (List.isPrefixOf_iff_prefix.1 h).length_le
  · exact Nat.zero_le _

theorem begin_curPtr : (L.begin s).curPtr = if s.curPtr = 0 then L.contentStart else s.curPtr := by
  by_cases h : s.curPtr = 0
  · by_cases hc : 0 < L.contentStart
    · simp [begin, h, hc]
    · simp [begin, h, hc]
      omega
  · simp [begin, h]

/-- The cursor of a call of `lexImpl`: the start of the buffer or in the content. -/
def AtStart (L : Lexer) (p : Nat) : Prop := p = 0 ∨ L.contentStart ≤ p

theorem begin_started (hs : AtStart L s.curPtr) (hle : s.curPtr ≤ L.buffer.size) :
    Started L (L.begin s) ∧ s.curPtr ≤ (L.begin s).curPtr := by
  have hcur := begin_curPtr (L := L) (s := s)
  have hcontent := contentStart_le (L := L)
  have htrailing : L.triviaRetention = .withTrivia → (L.begin s).trailingTrivia = [] := by
    intro h
    simp [begin, h]
  rw [AtStart] at hs
  split_ifs at hcur with h0
  · exact ⟨⟨hcur.ge, hcur.trans_le hcontent, htrailing⟩, by omega⟩
  · exact ⟨⟨by omega, by omega, htrailing⟩, by omega⟩

theorem returns_act {action : Action} (hs : Started L s) (hfits : action.Fits L.buffer s.curPtr)
    (hnewline : action = .newline → L.triviaRetention ≠ .withTrivia) :
    Returns (L.act s action) (Step.All
      (fun s' => Started L s' ∧ s.curPtr < s'.curPtr ∧ s'.curPtr ≤ L.buffer.size)
      fun s' => Formed L s.curPtr s.nextToken.atStartOfLine s' ∧
        (s.curPtr < L.buffer.size → s'.nextToken.kind ≠ .eof)) := by
  have hskip : ∀ {q : Nat} {newline : Bool}, s.curPtr < q → q ≤ L.buffer.size → Started L (s.skip q newline) :=
    fun hlt hle => ⟨hs.content.trans hlt.le, hle, hs.trailing⟩
  cases action with
  | newline =>
      simp only [act, guard, if_pos (hnewline rfl), Option.bind_eq_bind, Option.bind_some, Option.pure_def]
      exact .pure ⟨hskip (Nat.lt_succ_self _) hfits.1, Nat.lt_succ_self _, hfits.1⟩
  | skip q newline => exact .pure ⟨hskip hfits.1 hfits.2, hfits⟩
  | comment q newline =>
      obtain ⟨hlt, hle⟩ := hfits
      have hstarted : Started L (s.skip q newline) := hskip hlt hle
      refine .ite (fun _ => ?_) fun _ => .pure ⟨⟨hstarted.content, hstarted.le, hstarted.trailing⟩, hlt, hle⟩
      refine (returns_formToken hlt.le hle hs.content).bind fun s' hs' => .pure ?_
      have hq : q ≤ s'.curPtr := hs'.1
      refine ⟨⟨by omega, hs'.2.1, fun _ => by omega, fun h => hs'.2.2.2 (Bool.or_eq_true_iff.2 (.inl h)),
        fun _ => by omega⟩, fun _ => ?_⟩
      rw [hs'.2.2.1]
      exact Tok.noConfusion
  | hashbang q =>
      obtain ⟨hlt, hle⟩ := hfits
      obtain ⟨hbegin, hq⟩ := begin_started (L := L) (s := { s with curPtr := q }) (.inr (hs.content.trans hlt.le)) hle
      exact .pure ⟨hbegin, hlt.trans_le hq, hbegin.le⟩
  | token t => exact (returns_formScanned hs.content hs.trailing hfits).bind fun s' hs' => .pure hs'

/-- The loop of `lexImpl` looks for a token at the position. -/
def LooksAt (L : Lexer) (s : Members) (p : Nat) : Prop := ∃ s', L.lexLeadingTrivia s = some s' ∧ s'.curPtr = p

theorem returns_restart {s1 : Members} (hs : Started L s) (htrivia : L.lexLeadingTrivia s = some s1)
    (hcompletion : L.codeCompletionPtr = some s1.curPtr → s1.curPtr < L.buffer.size) (hcut : ¬ CutOperator L s1.curPtr) :
    Returns (L.restart s) (Step.All
      (fun s' => Started L s' ∧ s.curPtr < s'.curPtr ∧ s'.curPtr ≤ L.buffer.size)
      fun s' => Formed L s.curPtr s.nextToken.atStartOfLine s' ∧
        (s1.curPtr < L.buffer.size → s'.nextToken.kind ≠ .eof)) := by
  obtain ⟨s1', htrivia', hs1, hle, hline, hnewline⟩ := returns_lexLeadingTrivia hs
  obtain rfl := Option.some.inj (htrivia.symm.trans htrivia')
  have hreturns : Returns (L.dispatch s1.nextToken.kind s1.curPtr) (Action.Fits L.buffer s1.curPtr) :=
    returns_dispatch hs1.le hs1.content hcompletion hcut
  obtain ⟨action, hdispatch, hfits⟩ := hreturns
  simp only [restart, htrivia, Option.bind_eq_bind, Option.bind_some, hdispatch]
  refine (returns_act hs1 hfits ?_).mono ?_
  · rintro rfl hwith
    exact hnewline hwith hfits.2
  · rintro (s' | s') h
    · exact ⟨h.1, hle.trans_lt h.2.1, h.2.2⟩
    · obtain ⟨h, hne⟩ := h
      have hle1 := hs1.le
      refine ⟨⟨hle.trans h.le, h.size, fun hlt => ?_, fun hl => h.line (hline hl), fun heq => h.eof (by omega)⟩, hne⟩
      rcases hs1.le.lt_or_eq with hlt' | heq
      · exact hle.trans_lt (h.lt hlt')
      · have := h.le
        omega

/-! ## The run -/

/-- The states that `lexImpl` is called in, from a new lexer until `eof`. -/
inductive Calls (L : Lexer) : Members → Prop
  | prime : Calls L ⟨0, 0, false, .init, [], []⟩
  | lex {s s' : Members} (h : Calls L s) (hlex : L.lexImpl s = some s') (hne : s'.nextToken.kind ≠ .eof) : Calls L s'

/-- A position where `lexImpl`, called in the state, looks for a token. -/
def TokenStart (L : Lexer) (s : Members) (p : Nat) : Prop :=
  ∃ s', Visits L.restart (L.begin s) s' ∧ LooksAt L s' p

/-- The call returns with the cursor inside the buffer, and ahead unless it was at the end. -/
def Advances (L : Lexer) (s : Members) : Prop :=
  s.curPtr ≤ L.buffer.size ∧
    ∃ s', L.lexImpl s = some s' ∧ s'.curPtr ≤ L.buffer.size ∧ (s.curPtr < L.buffer.size → s.curPtr < s'.curPtr)

/-- The lexer comes to `eof`, and every call on the way advances. A read past the terminator, a failed assertion and a
loop that does not end are calls that return nothing. -/
def Safe (L : Lexer) : Prop := (∃ lexemes, L.tokens = some lexemes) ∧ ∀ s, Calls L s → Advances L s

/-- No token is an operator that runs into a `<#` that ends the buffer, and no code is completed at the terminator. -/
def NoCut (L : Lexer) : Prop :=
  L.codeCompletionPtr ≠ some L.buffer.size ∧ ∀ s p, Calls L s → TokenStart L s p → ¬ CutOperator L p

/-- The call of `lexImpl` formed a token. -/
structure CallFormed (L : Lexer) (s s' : Members) : Prop where
  content : L.contentStart ≤ s'.curPtr
  size : s'.curPtr ≤ L.buffer.size
  lt : s.curPtr < L.buffer.size → s.curPtr < s'.curPtr
  eof : s.curPtr = L.buffer.size → s'.nextToken.kind = .eof
  line : s.curPtr = 0 → s'.nextToken.atStartOfLine = true ∨ s'.curPtr ≠ 0

theorem returns_lexImpl (hs : AtStart L s.curPtr) (hle : s.curPtr ≤ L.buffer.size)
    (hcompletion : L.codeCompletionPtr ≠ some L.buffer.size) (hcut : ∀ p, TokenStart L s p → ¬ CutOperator L p) :
    Returns (L.lexImpl s) (CallFormed L s) := by
  obtain ⟨hbegin, hbeginLe⟩ := begin_started hs hle
  simp only [lexImpl, guard, if_pos hle, Option.bind_eq_bind, Option.bind_some, Option.pure_def]
  refine Buffer.returns_iterate Members.curPtr (fun s1 => Visits L.restart (L.begin s) s1 ∧ Started L s1 ∧
    (s1 = L.begin s ∨ (L.begin s).curPtr < s1.curPtr)) ?_ ⟨.refl, hbegin, .inl rfl⟩ hbegin.le
  rintro s1 ⟨hvisits, hs1, hfirst⟩ -
  have hlt : (L.begin s).curPtr ≤ s1.curPtr := by
    rcases hfirst with rfl | h
    · exact le_rfl
    · exact h.le
  obtain ⟨s2, htrivia, hs2, -⟩ := returns_lexLeadingTrivia hs1
  have hreturns := returns_restart hs1 htrivia (fun h => lt_of_le_of_ne hs2.le fun heq => hcompletion (heq ▸ h))
    (hcut _ ⟨s1, hvisits, s2, htrivia, rfl⟩)
  refine (hreturns.of_eq fun step hstep => hstep).mono ?_
  rintro (s' | s') ⟨h, hstep⟩
  · exact ⟨⟨hvisits.next hstep, h.1, .inr (hlt.trans_lt h.2.1)⟩, h.2⟩
  · obtain ⟨h, -⟩ := h
    have hforward := h.le
    have hle1 := hs1.le
    refine ⟨hs1.content.trans hforward, h.size, fun hltSize => ?_, fun heq => h.eof (by omega), fun h0 => ?_⟩
    · rcases hs1.le.lt_or_eq with hlt1 | heq
      · have := h.lt hlt1
        omega
      · omega
    · rcases hfirst with rfl | hfirst
      · exact .inl (h.line (by simp [begin, h0, Token.setAtStartOfLine]))
      · exact .inr (by omega)

theorem Calls.cursor (hrun : NoCut L) (h : Calls L s) : AtStart L s.curPtr ∧ s.curPtr ≤ L.buffer.size := by
  induction h with
  | prime => exact ⟨.inl rfl, Nat.zero_le _⟩
  | @lex s s' h hlex hne ih =>
      obtain ⟨t, ht, hformed⟩ := returns_lexImpl ih.1 ih.2 hrun.1 fun p hp => hrun.2 s p h hp
      obtain rfl := Option.some.inj (hlex.symm.trans ht)
      exact ⟨.inr hformed.content, hformed.size⟩

theorem Calls.returns (hrun : NoCut L) (h : Calls L s) : Returns (L.lexImpl s) (CallFormed L s) :=
  returns_lexImpl (h.cursor hrun).1 (h.cursor hrun).2 hrun.1 fun p hp => hrun.2 s p h hp

theorem Calls.advances (hrun : NoCut L) (h : Calls L s) : Advances L s := by
  obtain ⟨s', hlex, hformed⟩ := h.returns hrun
  exact ⟨(h.cursor hrun).2, s', hlex, hformed.size, hformed.lt⟩

theorem returns_lexRest (hrun : NoCut L) {fuel : Nat} (h0 : 0 < fuel) (hs : s.nextToken.kind ≠ .eof → Calls L s)
    (hfuel : s.nextToken.kind ≠ .eof → L.buffer.size - s.curPtr + 1 < fuel) :
    Returns (L.lexRest fuel s) fun _ => True := by
  induction fuel generalizing s with
  | zero => exact absurd h0 (lt_irrefl _)
  | succ fuel ih =>
      rw [lexRest, lex]
      by_cases heof : s.nextToken.kind = .eof
      · rw [if_pos heof]
        exact .ite (fun _ => .pure trivial) fun hne => absurd heof hne
      · rw [if_neg heof]
        have hcalls := hs heof
        have hbound := hfuel heof
        obtain ⟨s', hlex, hformed⟩ := hcalls.returns hrun
        rw [hlex]
        refine .ite (fun _ => .pure trivial) fun _ => Returns.bind (P := fun _ => True) ?_ fun _ _ => .pure trivial
        refine ih (by omega) (fun hne => hcalls.lex hlex hne) fun hne => ?_
        have hlt : s.curPtr < L.buffer.size :=
          lt_of_le_of_ne (hcalls.cursor hrun).2 fun heq => hne (hformed.eof heq)
        have := hformed.lt hlt
        have := hformed.size
        omega

theorem returns_tokens (hrun : NoCut L) : Returns L.tokens fun _ => True := by
  obtain ⟨s, hlex, hformed⟩ := (Calls.prime (L := L)).returns hrun
  have hprime : L.primeLexer = some s := by
    simp only [primeLexer, hlex, Option.bind_eq_bind, Option.bind_some, guard, if_pos (hformed.line rfl),
      Option.pure_def]
  rw [tokens, hprime]
  exact returns_lexRest hrun (Nat.succ_pos _) (fun hne => Calls.prime.lex hlex hne) fun _ => by
    simp only [Buffer.fuel]
    omega

theorem restart_cut {s1 : Members} (htrivia : L.lexLeadingTrivia s = some s1) (hcut : CutOperator L s1.curPtr) :
    L.restart s = none := by
  simp only [restart, htrivia, Option.bind_eq_bind, Option.bind_some, dispatch_cut hcut, Option.bind_none]

theorem TokenStart.lexImpl_none (h : TokenStart L s p) (hcut : CutOperator L p) : L.lexImpl s = none := by
  obtain ⟨s1, hvisits, s2, htrivia, rfl⟩ := h
  by_contra hlex
  obtain ⟨s', hlex⟩ := Option.ne_none_iff_exists'.1 hlex
  obtain ⟨-, -, hiterate⟩ := Option.bind_eq_some_iff.1 hlex
  obtain ⟨fuel, hfuel⟩ := hvisits.iterate hiterate
  rw [iterate_none (restart_cut htrivia hcut)] at hfuel
  exact Option.some_ne_none s' hfuel.symm

/-! ## Code completion at the terminator -/

theorem restart_completion (h : L.codeCompletionPtr = some L.buffer.size) (hs : Started L s)
    {step : Step Members Members} (hstep : L.restart s = some step) :
    step.All (fun s' => Started L s' ∧ s.curPtr < s'.curPtr)
      fun s' => s.curPtr < L.buffer.size ∧ L.contentStart ≤ s'.curPtr ∧ s'.nextToken.kind ≠ .eof := by
  obtain ⟨s1, htrivia, hs1, hle, -⟩ := returns_lexLeadingTrivia hs
  have hlt : s1.curPtr < L.buffer.size := by
    refine lt_of_le_of_ne hs1.le fun heq => Option.some_ne_none step ?_
    have hguard : ¬ L.buffer.size + 1 ≤ L.buffer.size := by omega
    rw [← hstep, restart, htrivia]
    simp only [Option.bind_eq_bind, Option.bind_some, heq, dispatch_completion h, act, formScanned, formToken,
      Scanned.plain, Bool.false_eq_true, if_false, guard, if_neg hguard]
    rfl
  have hcut : ¬ CutOperator L s1.curPtr := fun hcut =>
    Option.some_ne_none step (hstep.symm.trans (restart_cut htrivia hcut))
  obtain ⟨step', hstep', hall⟩ := returns_restart hs htrivia (fun _ => hlt) hcut
  obtain rfl := Option.some.inj (hstep.symm.trans hstep')
  cases step with
  | next s' => exact ⟨hall.1, hall.2.1⟩
  | done s' => exact ⟨hle.trans_lt hlt, hs.content.trans hall.1.le, hall.2 hlt⟩

theorem lexImpl_completion {s' : Members} (h : L.codeCompletionPtr = some L.buffer.size) (hs : AtStart L s.curPtr)
    (hlex : L.lexImpl s = some s') :
    s.curPtr < L.buffer.size ∧ AtStart L s'.curPtr ∧ s'.nextToken.kind ≠ .eof := by
  have hle : s.curPtr ≤ L.buffer.size := by
    by_contra hle
    simp only [lexImpl, guard, if_neg hle] at hlex
    exact Option.some_ne_none _ hlex.symm
  obtain ⟨-, -, hiterate⟩ := Option.bind_eq_some_iff.1 hlex
  obtain ⟨hbegin, hbeginLe⟩ := begin_started hs hle
  refine iterate_induct (P := fun s' => s.curPtr < L.buffer.size ∧ AtStart L s'.curPtr ∧ s'.nextToken.kind ≠ .eof)
    (fun s1 => Started L s1 ∧ s.curPtr ≤ s1.curPtr) ?_ ?_ ⟨hbegin, hbeginLe⟩ hiterate
  · rintro s1 s2 ⟨hs1, hle1⟩ hstep
    obtain ⟨hs2, hlt⟩ := restart_completion h hs1 hstep
    exact ⟨hs2, hle1.trans hlt.le⟩
  · rintro s1 s2 ⟨hs1, hle1⟩ hstep
    obtain ⟨hlt, hcontent, hne⟩ := restart_completion h hs1 hstep
    exact ⟨hle1.trans_lt hlt, .inr hcontent, hne⟩

theorem not_safe_completion (h : L.codeCompletionPtr = some L.buffer.size) : ¬ Safe L := by
  rintro ⟨-, hsafe⟩
  -- The calls go on to the terminator, where there is none.
  have hcalls : ∀ n s, Calls L s → AtStart L s.curPtr → L.buffer.size - s.curPtr < n → False := by
    intro n
    induction n with
    | zero => exact fun s _ _ hn => absurd hn (Nat.not_lt_zero _)
    | succ n ih =>
        intro s hs hstart hn
        obtain ⟨hle, s', hlex, hsize, hlt⟩ := hsafe s hs
        obtain ⟨hend, hstart', hne⟩ := lexImpl_completion h hstart hlex
        have := hlt hend
        exact ih s' (hs.lex hlex hne) hstart' (by omega)
  exact hcalls (L.buffer.size + 1) _ .prime (.inl rfl) (by omega)

/-! ## Safety -/

/-- A lexer is safe if and only if no token is an operator that runs into a `<#` that ends the buffer, and no code is
completed at the terminator. -/
theorem lexer_safe_iff (L : Lexer) : Safe L ↔ NoCut L := by
  refine ⟨fun hsafe => ⟨fun h => not_safe_completion h hsafe, fun s p hs hp hcut => ?_⟩, fun hrun => ⟨?_, ?_⟩⟩
  · obtain ⟨-, s', hlex, -⟩ := hsafe.2 s hs
    exact Option.some_ne_none s' (hlex.symm.trans (hp.lexImpl_none hcut))
  · obtain ⟨lexemes, hlexemes, -⟩ := returns_tokens hrun
    exact ⟨lexemes, hlexemes⟩
  · exact fun s hs => hs.advances hrun

/-- The bytes `+<#`: the search for the end of the placeholder begins at the terminator. -/
def cutLexer : Lexer := ⟨⟨[byte '+', byte '<', byte '#']⟩, none, false, false, true, .none, .withoutTrivia⟩

theorem lexer_not_safe : ¬ Safe cutLexer := by
  rintro ⟨⟨lexemes, h⟩, -⟩
  have hnone : cutLexer.tokens = none := by decide +kernel
  exact Option.some_ne_none lexemes (h.symm.trans hnone)

end SwiftKStdlib.Parse.Lexer
