import SwiftKStdlib.Lexer.Scanning

/-!
# The string literals stay inside the buffer

* `Lexed.Fits` : what `lexCharacter` returns;
* `Interpolation.Ok` : the two stacks of an interpolation agree;
* `Unescaped` : the positions that `requote` comes to, where no backslash is left over;
* `IndentRun.Ok` : the assertions about a run of lines of a multi-line literal;
* `returns_lexStringLiteral`, `returns_findEndOfCurlyQuoteStringLiteral`.
-/

namespace SwiftKStdlib.Parse

open Lib

/-- The character is not empty; it ends with an escaped character or with one that is no backslash. -/
def Lexed.Fits (b : Buffer) (stopQuote : UInt8) (p : Nat) : Lexed × Nat → Prop
  | (.endOfString, q) => q = p ∧ b.byteAt p = stopQuote ∧ Buffer.isQuote stopQuote
  | (.error, q) => p < q ∧ q ≤ b.size
  | (.char _, q) => p < q ∧ q ≤ b.size ∧ (b.byteAt (q - 1) ≠ byte '\\' ∨ q = p + 2 ∧ b.byteAt p = byte '\\')

namespace Buffer

variable {b : Buffer} {p q : Nat}

/-! ## Characters -/

theorem continuationBytes_high {n value v : Nat} (h : b.continuationBytes n value p = (some v, q)) (hq : p < q) :
    0x80 ≤ b.byteAt (q - 1) := by
  induction n generalizing value p with
  | zero =>
      obtain rfl := (Prod.mk.inj h).2
      exact absurd hq (lt_irrefl _)
  | succ n ih =>
      rw [continuationBytes] at h
      dsimp only at h
      split at h
      · exact absurd (Prod.mk.inj h).1.symm (Option.some_ne_none v)
      · split at h
        · exact absurd (Prod.mk.inj h).1.symm (Option.some_ne_none v)
        · next hend hc =>
          have hbounds := b.continuationBytes_bounds n (value * 2 ^ 6 + (b.byteAt p).toNat % 2 ^ 6)
            (show p + 1 ≤ b.size by omega)
          rw [h] at hbounds
          rcases hbounds.1.lt_or_eq with hlt | heq
          · exact ih h hlt
          · obtain rfl : p + 1 = q := heq
            exact UInt8.not_lt.1 fun hlow => hc (.inl hlow)

theorem validate_high {v : Nat} (hp : p < b.size) (hc : 0x80 ≤ b.byteAt p)
    (h : b.validateUTF8CharacterAndAdvance p = (some v, q)) : 0x80 ≤ b.byteAt (q - 1) := by
  rw [validateUTF8CharacterAndAdvance, if_neg (by omega)] at h
  dsimp only at h
  rw [if_neg (UInt8.not_lt.2 hc)] at h
  split at h
  · exact absurd (Prod.mk.inj h).1.symm (Option.some_ne_none v)
  · split at h
    · exact absurd (Prod.mk.inj h).1.symm (Option.some_ne_none v)
    · next value r heq =>
      have hbounds := b.continuationBytes_bounds (clo8 (b.byteAt p) - 1)
        ((b.byteAt p).toNat * 2 ^ clo8 (b.byteAt p) % 2 ^ 8 / 2 ^ clo8 (b.byteAt p)) (show p + 1 ≤ b.size by omega)
      rw [heq] at hbounds
      obtain rfl : r = q := by split_ifs at h <;> exact (Prod.mk.inj h).2
      rcases hbounds.1.lt_or_eq with hlt | heq'
      · exact continuationBytes_high heq hlt
      · obtain rfl : p + 1 = r := heq'
        exact hc

theorem returns_lexUnicodeEscape (hp : p ≤ b.size) (hc : b.byteAt p = byte '{') :
    Returns (b.lexUnicodeEscape p) fun r => p < r.2 ∧ r.2 ≤ b.size ∧ (r.1.isSome → b.byteAt (r.2 - 1) = byte '}') := by
  have hp' : p + 1 ≤ b.size := lt_size_of_eq hp hc (by decide)
  simp only [lexUnicodeEscape, read_eq hp, Option.bind_eq_bind, Option.bind_some, hc, guard_true, Option.pure_def]
  refine (returns_scanWhile hp' (by decide)).bind fun q hq => (returns_read hq.2).bind ?_
  rintro _ rfl
  refine .ite (fun _ => .pure ⟨by simp only; omega, hq.2, fun h => absurd h Bool.false_ne_true⟩) fun hbrace => ?_
  rw [not_not] at hbrace
  have hlt := lt_size_of_eq hq.2 hbrace (by decide)
  exact .ite (fun _ => .pure ⟨by simp only; omega, hlt, fun _ => hbrace⟩) fun _ =>
    .pure ⟨by simp only; omega, hlt, fun _ => hbrace⟩

theorem returns_maybeConsumeNewlineEscape (hp : p ≤ b.size) :
    Returns (b.maybeConsumeNewlineEscape p) fun r => ∀ q ∈ r, p < q ∧ q ≤ b.size ∧ isNewline (b.byteAt (q - 1)) := by
  refine (returns_scanWhile hp (by decide)).bind fun q hq => (returns_read hq.2).bind ?_
  rintro _ rfl
  refine .ite (fun hcr => ?_) fun _ => .ite (fun hlf => ?_) fun _ => ?_
  · have hlt : q + 1 ≤ b.size := lt_size_of_eq hq.2 hcr (by decide)
    refine (returns_read hlt).bind ?_
    rintro _ rfl
    refine .pure fun r hr => ?_
    obtain rfl := Option.some.inj hr
    split_ifs with hlf
    · exact ⟨by omega, lt_size_of_eq hlt hlf (by decide), by rw [show q + 2 - 1 = q + 1 by omega, hlf]; decide⟩
    · exact ⟨by omega, hlt, by rw [Nat.add_sub_cancel, hcr]; decide⟩
  · refine .pure fun r hr => ?_
    obtain rfl := Option.some.inj hr
    exact ⟨by omega, lt_size_of_eq hq.2 hlf (by decide), by rw [Nat.add_sub_cancel, hlf]; decide⟩
  · exact .pure fun r hr => absurd hr.symm (Option.some_ne_none r)

theorem returns_lexEscape (stopQuote : UInt8) (multilineString : Bool) (hp : p + 1 ≤ b.size)
    (hc : b.byteAt p = byte '\\') :
    Returns (b.lexEscape multilineString (p + 1)) fun r => Lexed.Fits b stopQuote p r := by
  have hinvalid : Lexed.Fits b stopQuote p (.error, if isAlphanumeric (b.byteAt (p + 1)) then p + 2 else p + 1) := by
    split_ifs with halpha
    · exact ⟨by omega, lt_size_of_test hp halpha (by decide)⟩
    · exact ⟨by omega, hp⟩
  have hsimple : ∀ {c : UInt8} (v : Nat), b.byteAt (p + 1) = c → c ≠ 0 →
      Lexed.Fits b stopQuote p (.char v, p + 2) :=
    fun v heq h0 => ⟨by omega, lt_size_of_eq hp heq h0, .inr ⟨rfl, hc⟩⟩
  refine (returns_read hp).bind ?_
  rintro _ rfl
  refine .ite (fun _ => .ite (fun _ => ?_) fun _ => .pure hinvalid) fun _ =>
    .ite (fun h => .pure (hsimple _ h (by decide))) fun _ => .ite (fun h => .pure (hsimple _ h (by decide))) fun _ =>
    .ite (fun h => .pure (hsimple _ h (by decide))) fun _ => .ite (fun h => .pure (hsimple _ h (by decide))) fun _ =>
    .ite (fun h => ?_) fun _ => .ite (fun h => ?_) fun _ => .pure hinvalid
  · refine (returns_maybeConsumeNewlineEscape hp).bind ?_
    rintro (_ | q) hq
    · exact .pure hinvalid
    · obtain ⟨hpq, hsize, hnewline⟩ := hq q rfl
      refine .pure ⟨by omega, hsize, .inl fun hslash => ?_⟩
      rw [hslash] at hnewline
      exact absurd hnewline (by decide)
  · rcases h with h | h | h
    · exact .pure (hsimple _ h (by decide))
    · exact .pure (hsimple _ h (by decide))
    · exact .pure (hsimple _ h (by decide))
  · have hlt : p + 1 + 1 ≤ b.size := lt_size_of_eq hp h (by decide)
    refine (returns_read hlt).bind ?_
    rintro _ rfl
    refine .ite (fun _ => .pure ⟨by omega, hlt⟩) fun hbrace => ?_
    rw [not_not] at hbrace
    refine (returns_lexUnicodeEscape hlt hbrace).bind ?_
    rintro ⟨_ | v, q⟩ ⟨hpq, hsize, hclose⟩
    · exact .pure ⟨by simp only at hpq; omega, hsize⟩
    · refine .pure ?_
      split_ifs
      · exact ⟨by simp only at hpq; omega, hsize⟩
      · refine ⟨by simp only at hpq; omega, hsize, .inl ?_⟩
        rw [hclose rfl]
        decide

theorem returns_lexCharacter (stopQuote : UInt8) (multilineString : Bool) (hp : p < b.size) :
    Returns (b.lexCharacter stopQuote multilineString p) fun r => Lexed.Fits b stopQuote p r := by
  have hchar : ∀ v, b.byteAt p ≠ byte '\\' → Lexed.Fits b stopQuote p (.char v, p + 1) :=
    fun v hne => ⟨Nat.lt_succ_self p, hp, .inl hne⟩
  refine (returns_read hp.le).bind ?_
  rintro _ rfl
  refine .ite (fun hquote => .pure ?_) fun _ => .ite (fun hzero => .pure ?_) fun _ => .ite (fun hnewline => ?_) fun _ =>
    .ite (fun hslash => returns_lexEscape stopQuote multilineString hp hslash) fun hslash =>
    .ite (fun _ => .pure (hchar _ hslash)) fun hhigh => ?_
  · have hne : b.byteAt p ≠ byte '\\' := by
      rcases hquote with h | h
      · rw [h]
        decide
      · rw [h]
        decide
    split_ifs with hstop
    · exact ⟨rfl, hstop, by rw [← hstop, isQuote]; simpa using hquote⟩
    · exact hchar _ hne
  · rw [if_neg hp.ne]
    exact hchar _ (by rw [hzero]; decide)
  · refine .pure ?_
    split_ifs
    · exact hchar _ fun hslash => absurd (hslash ▸ hnewline) (by decide)
    · exact ⟨Nat.lt_succ_self p, hp⟩
  · have hbounds := validate_bounds hp
    cases hvalidate : b.validateUTF8CharacterAndAdvance p with
    | mk value q =>
        rw [hvalidate] at hbounds
        cases value with
        | none => exact .pure hbounds
        | some v =>
            refine .pure ⟨hbounds.1, hbounds.2, .inl fun hslash => ?_⟩
            have := validate_high hp (UInt8.not_lt.1 hhigh) hvalidate
            rw [hslash] at this
            exact absurd this (by decide)

/-! ## Interpolations -/

/-- Every open literal has its entry in the second stack, which has one more for the outer literal. -/
structure Interpolation.Ok (s : Interpolation) : Prop where
  delimiters : ∀ d ∈ s.openDelimiters, d = byte '(' ∨ isQuote d
  allow : s.allowNewline.length = s.openDelimiters.countP isQuote + 1

theorem Interpolation.Ok.head {s : Interpolation} (h : s.Ok) : ∃ allow, s.allowNewline.head? = some allow := by
  cases hallow : s.allowNewline with
  | nil =>
      have := h.allow
      rw [hallow] at this
      exact absurd this.symm (Nat.succ_ne_zero _)
  | cons allow rest => exact ⟨allow, rfl⟩

theorem Interpolation.Ok.move {s : Interpolation} (h : s.Ok) (p : Nat) : ({ s with curPtr := p } : Interpolation).Ok :=
  ⟨h.delimiters, h.allow⟩

theorem Interpolation.Ok.bracket {s : Interpolation} (h : s.Ok) (p : Nat) :
    ({ s with curPtr := p, openDelimiters := byte '(' :: s.openDelimiters } : Interpolation).Ok := by
  refine ⟨fun d hd => ?_, ?_⟩
  · rcases List.mem_cons.1 hd with rfl | hd
    · exact .inl rfl
    · exact h.delimiters d hd
  · rw [List.countP_cons_of_neg (by decide)]
    exact h.allow

theorem Interpolation.Ok.quote {s : Interpolation} (h : s.Ok) {c : UInt8} (hc : isQuote c) (p : Nat) (allow : Bool) :
    (⟨p, c :: s.openDelimiters, allow :: s.allowNewline⟩ : Interpolation).Ok := by
  refine ⟨fun d hd => ?_, ?_⟩
  · rcases List.mem_cons.1 hd with rfl | hd
    · exact .inr hc
    · exact h.delimiters d hd
  · rw [List.countP_cons_of_pos hc, List.length_cons, h.allow]

theorem Interpolation.Ok.unquote {s : Interpolation} (h : s.Ok) (hin : inStringLiteral s.openDelimiters) (p : Nat) :
    (⟨p, s.openDelimiters.tail, s.allowNewline.tail⟩ : Interpolation).Ok := by
  cases hopen : s.openDelimiters with
  | nil =>
      rw [hopen] at hin
      exact absurd hin Bool.false_ne_true
  | cons d rest =>
      have hd : isQuote d := by
        rw [hopen] at hin
        exact hin
      refine ⟨fun d hd => h.delimiters d (hopen ▸ List.mem_cons_of_mem _ hd), ?_⟩
      have := h.allow
      rw [hopen, List.countP_cons_of_pos hd] at this
      simp only [List.length_tail, this, List.tail_cons]
      omega

theorem Interpolation.Ok.unbracket {s : Interpolation} (h : s.Ok) {rest : List UInt8}
    (hopen : s.openDelimiters = byte '(' :: rest) (p : Nat) :
    ({ s with curPtr := p, openDelimiters := rest } : Interpolation).Ok := by
  refine ⟨fun d hd => h.delimiters d (hopen ▸ List.mem_cons_of_mem _ hd), ?_⟩
  have := h.allow
  rwa [hopen, List.countP_cons_of_neg (by decide)] at this

theorem returns_interpolationQuote {s : Interpolation} (hs : s.Ok) (hp : s.curPtr < b.size)
    (hc : isQuote (b.byteAt s.curPtr)) : Returns (b.interpolationQuote s (b.byteAt s.curPtr)) fun s' =>
      s'.Ok ∧ s.curPtr < s'.curPtr ∧ s'.curPtr ≤ b.size := by
  have hp' : s.curPtr + 1 ≤ b.size := hp
  obtain ⟨allow, hallow⟩ := hs.head
  rw [interpolationQuote, hallow]
  refine .ite (fun hsingle => .ite (fun _ => .pure ?_) fun _ => .pure ?_) fun hmulti => ?_
  · exact ⟨hs.unquote hsingle.2 _, Nat.lt_succ_self _, hp⟩
  · exact ⟨hs.move _, Nat.lt_succ_self _, hp⟩
  rw [looksAt_eq hp' (by decide)]
  simp only [Option.bind_eq_bind, Option.bind_some]
  generalize hquotes : ((decide (b.byteAt (s.curPtr + 1) = byte '"') && decide (b.byteAt (s.curPtr + 1 + 1) = byte '"')) &&
    decide (b.byteAt s.curPtr = byte '"')) = isMultilineQuote
  -- The cursor after the quotes, which stand right before it.
  have hcursor : s.curPtr < (if isMultilineQuote then s.curPtr + 3 else s.curPtr + 1) ∧
      (if isMultilineQuote then s.curPtr + 3 else s.curPtr + 1) ≤ b.size ∧
      isQuote (b.byteAt ((if isMultilineQuote then s.curPtr + 3 else s.curPtr + 1) - 1)) := by
    cases isMultilineQuote with
    | false => exact ⟨Nat.lt_succ_self _, hp, hc⟩
    | true =>
        simp only [Bool.and_eq_true, decide_eq_true_eq] at hquotes
        have h1 : s.curPtr + 2 ≤ b.size := lt_size_of_eq hp' hquotes.1.1 (by decide)
        refine ⟨by simp, lt_size_of_eq h1 hquotes.1.2 (by decide), ?_⟩
        rw [if_pos rfl, show s.curPtr + 3 - 1 = s.curPtr + 1 + 1 by omega, hquotes.1.2]
        decide
  obtain ⟨hlt, hsize, hquote⟩ := hcursor
  refine .ite (fun _ => (returns_readBack hsize (by omega)).bind ?_) fun hin => ?_
  · rintro _ rfl
    exact .pure ⟨hs.quote hquote _ _, hlt, hsize⟩
  · rw [Bool.not_eq_true, Bool.not_eq_false'] at hin
    have hnewline : allow = true := by
      cases allow with
      | true => rfl
      | false => exact absurd ⟨rfl, hin⟩ hmulti
    rw [hnewline]
    simp only [guard_true, Option.pure_def, Option.bind_some]
    exact .ite (fun _ => .pure ⟨hs.unquote hin _, hlt, hsize⟩) fun _ => .pure ⟨hs.move _, hlt, hsize⟩

theorem returns_interpolationStep {s : Interpolation} (hs : s.Ok) (hp : s.curPtr ≤ b.size) :
    Returns (b.interpolationStep s) (Step.All
      (fun s' => s'.Ok ∧ s.curPtr < s'.curPtr ∧ s'.curPtr ≤ b.size) fun q => s.curPtr ≤ q ∧ q ≤ b.size) := by
  obtain ⟨allow, hallow⟩ := hs.head
  have hnext : s.curPtr < b.size → ({ s with curPtr := s.curPtr + 1 } : Interpolation).Ok ∧
      s.curPtr < s.curPtr + 1 ∧ s.curPtr + 1 ≤ b.size := fun hlt => ⟨hs.move _, Nat.lt_succ_self _, hlt⟩
  refine (returns_read hp).bind ?_
  rintro _ rfl
  rw [hallow]
  refine .ite (fun h => ?_) fun _ => .ite (fun h => ?_) fun _ => .ite (fun h => ?_) fun _ => .ite (fun h => ?_) fun h0 =>
    .ite (fun h => ?_) fun _ => .ite (fun h => ?_) fun _ => .pure (hnext (lt_size hp h0))
  · refine .pure ?_
    cases allow with
    | true => exact hnext (lt_size_of_test hp h (by decide))
    | false => exact ⟨le_rfl, hp⟩
  · have hlt := lt_size_of_test hp h (by decide)
    exact (returns_interpolationQuote hs hlt h).bind fun s' hs' => .pure hs'
  · have hlt : s.curPtr + 1 ≤ b.size := lt_size_of_eq hp h (by decide)
    refine .ite (fun _ => (returns_read hlt).bind ?_) fun _ => .pure (hnext hlt)
    rintro _ rfl
    refine .ite (fun hparen => .pure ?_) fun _ => .ite (fun hnewline => .pure ?_) fun _ =>
      .ite (fun _ => .pure ⟨by omega, hlt⟩) fun hd => .pure ⟨hs.move _, by simp, lt_size hlt hd⟩
    · exact ⟨hs.bracket _, by simp, lt_size_of_eq hlt hparen (by decide)⟩
    · cases allow with
      | true => exact ⟨hs.move _, by simp, lt_size_of_test hlt hnewline (by decide)⟩
      | false => exact ⟨by omega, hlt⟩
  · refine .pure ?_
    split_ifs with hend
    · exact ⟨le_rfl, hp⟩
    · exact hnext (by omega)
  · refine .pure ⟨?_, Nat.lt_succ_self _, lt_size_of_eq hp h (by decide)⟩
    split_ifs
    · exact hs.move _
    · exact hs.bracket _
  · have hlt := lt_size_of_eq hp h (by decide)
    split
    · exact .pure ⟨le_rfl, hp⟩
    · next d rest hopen =>
      refine .ite (fun hd => .pure ⟨hs.unbracket (hd ▸ hopen) _, Nat.lt_succ_self _, hlt⟩) fun hd => ?_
      have hquote : isQuote d := (hs.delimiters d (hopen ▸ List.mem_cons_self)).resolve_left hd
      have hin : inStringLiteral s.openDelimiters = true := by
        rw [hopen]
        exact hquote
      rw [hin]
      simp only [guard_true, Option.pure_def, Option.bind_eq_bind, Option.bind_some]
      exact .pure (hnext hlt)

theorem returns_skipToEndOfInterpolatedExpression (multilineString : Bool) (hp : p ≤ b.size) :
    Returns (b.skipToEndOfInterpolatedExpression multilineString p) fun q => p ≤ q ∧ q ≤ b.size := by
  refine returns_iterate Interpolation.curPtr (fun s => s.Ok ∧ p ≤ s.curPtr) ?_ ?_ hp
  · rintro s ⟨hs, hle⟩ hsize
    apply (returns_interpolationStep hs hsize).mono
    rintro (s' | q) h
    · exact ⟨⟨h.1, by omega⟩, h.2⟩
    · exact ⟨by omega, h.2⟩
  · exact ⟨⟨fun d hd => absurd hd List.not_mem_nil, rfl⟩, le_rfl⟩

end Buffer

/-! ## Quotes -/

/-- The positions from `start` on that `requote` comes to. -/
inductive Unescaped (b : Buffer) (start : Nat) : Nat → Prop
  | refl : Unescaped b start start
  | plain {p : Nat} (h : Unescaped b start p) (hc : b.byteAt p ≠ byte '\\') : Unescaped b start (p + 1)
  | escape {p : Nat} (h : Unescaped b start p) (hc : b.byteAt p = byte '\\') : Unescaped b start (p + 2)

namespace Unescaped

variable {b : Buffer} {start p q : Nat}

theorem le (h : Unescaped b start p) : start ≤ p := by
  induction h with
  | refl => exact le_rfl
  | plain _ _ ih => exact Nat.le_succ_of_le ih
  | escape _ _ ih => omega

theorem total (hp : start ≤ p) :
    Unescaped b start p ∨ ∃ q, p = q + 1 ∧ Unescaped b start q ∧ b.byteAt q = byte '\\' := by
  induction p, hp using Nat.le_induction with
  | base => exact .inl .refl
  | succ p hp ih =>
      rcases ih with h | ⟨q, rfl, h, hc⟩
      · by_cases hc : b.byteAt p = byte '\\'
        · exact .inr ⟨p, rfl, h, hc⟩
        · exact .inl (h.plain hc)
      · exact .inl (h.escape hc)

theorem after (hp : start < p) (hc : b.byteAt (p - 1) ≠ byte '\\') : Unescaped b start p := by
  obtain ⟨p, rfl⟩ : ∃ n, p = n + 1 := ⟨p - 1, by omega⟩
  rw [Nat.add_sub_cancel] at hc
  rcases total (b := b) (show start ≤ p by omega) with h | ⟨q, rfl, h, hq⟩
  · exact h.plain hc
  · exact h.escape hq

theorem char {stopQuote : UInt8} {v : Nat} (h : Unescaped b start p) (hfits : Lexed.Fits b stopQuote p (.char v, q)) :
    Unescaped b start q := by
  obtain ⟨hlt, -, hc | ⟨rfl, hc⟩⟩ := hfits
  · exact after (h.le.trans_lt hlt) hc
  · exact h.escape hc

theorem requote (h : Unescaped b start p) (hp : p ≤ b.size) {tail : List UInt8}
    (htail : (Parse.requote tail).isSome) : (Parse.requote (b.text start p ++ tail)).isSome := by
  induction h generalizing tail with
  | refl =>
      rw [Buffer.text_self]
      exact htail
  | @plain p h hc ih =>
      rw [Buffer.text_append h.le (Nat.le_succ p), Buffer.text_one hp, List.append_assoc]
      apply ih (by omega)
      cases tail with
      | nil => simp only [List.singleton_append, Parse.requote, if_neg hc, Option.isSome_some]
      | cons d rest =>
          simp only [List.singleton_append, Parse.requote, if_neg hc, Option.isSome_map]
          exact htail
  | @escape p h hc ih =>
      rw [Buffer.text_append h.le (show p ≤ p + 2 by omega),
        Buffer.text_append (Nat.le_succ p) (Nat.le_succ (p + 1)), Buffer.text_one (show p < b.size by omega),
        Buffer.text_one (show p + 1 < b.size by omega), List.append_assoc]
      apply ih (by omega)
      simp only [List.cons_append, List.nil_append, Parse.requote, if_pos hc, Option.isSome_map]
      exact htail

end Unescaped

/-! ## Multi-line literals -/

theorem take_commonPrefixLength (s t : List UInt8) :
    s.take (commonPrefixLength s t) = t.take (commonPrefixLength s t) := by
  induction s generalizing t with
  | nil => simp [commonPrefixLength]
  | cons c s ih =>
      cases t with
      | nil => simp [commonPrefixLength]
      | cons d t =>
          rw [commonPrefixLength]
          split_ifs with hcd
          · rw [List.take_succ_cons, List.take_succ_cons, ih, hcd]
          · rfl

theorem le_commonPrefixLength {s t : List UInt8} {m : Nat} (h : s.take m = t.take m) (hs : m ≤ s.length)
    (ht : m ≤ t.length) : m ≤ commonPrefixLength s t := by
  induction m generalizing s t with
  | zero => exact Nat.zero_le _
  | succ m ih =>
      cases s with
      | nil => exact absurd hs (by simp)
      | cons c s =>
          cases t with
          | nil => exact absurd ht (by simp)
          | cons d t =>
              rw [List.take_succ_cons, List.take_succ_cons, List.cons.injEq] at h
              rw [commonPrefixLength, if_pos h.1]
              exact Nat.succ_le_succ (ih h.2 (Nat.le_of_succ_le_succ hs) (Nat.le_of_succ_le_succ ht))

theorem take_takeWhile {pred : UInt8 → Bool} {m : Nat} {l : List UInt8} (hm : m ≤ l.length)
    (h : ∀ c ∈ l.take m, pred c) : m ≤ (l.takeWhile pred).length ∧ (l.takeWhile pred).take m = l.take m := by
  induction m generalizing l with
  | zero => exact ⟨Nat.zero_le _, rfl⟩
  | succ m ih =>
      cases l with
      | nil => exact absurd hm (by simp)
      | cons c l =>
          have hc : pred c := h c List.mem_cons_self
          obtain ⟨hlen, htake⟩ := ih (Nat.le_of_succ_le_succ hm) fun d hd => h d (List.mem_cons_of_mem _ hd)
          rw [List.takeWhile_cons_of_pos hc, List.take_succ_cons, List.take_succ_cons, htake]
          exact ⟨Nat.succ_le_succ hlen, rfl⟩

/-- What `diagnoseInvalidMultilineIndents` asserts of the run, if it has a mistake. -/
def IndentRun.Ok (indent bytes : List UInt8) (run : IndentRun) : Prop :=
  ∀ m ∈ run.mistakeOffset, m < indent.length → (∃ line ∈ run.lineStarts.head?, line + m < bytes.length) ∧
    m ≤ run.commonIndentation.length ∧ indent.take m = run.commonIndentation.take m

theorem diagnoseInvalidMultilineIndents_ok {indent bytes : List UInt8} {run : IndentRun} (h : run.Ok indent bytes) :
    diagnoseInvalidMultilineIndents indent bytes run = some () := by
  rw [diagnoseInvalidMultilineIndents]
  cases hm : run.mistakeOffset with
  | none => rfl
  | some m =>
      dsimp only
      by_cases hlt : m < indent.length
      · obtain ⟨⟨line, hline, hsize⟩, hlen, htake⟩ := h m hm hlt
        rw [Option.mem_def] at hline
        simp only [if_neg (not_le.2 hlt), hline, List.getElem?_eq_getElem hsize, List.getElem?_eq_getElem hlt,
          Option.bind_eq_bind, Option.bind_some, guard, if_pos hlen, if_pos htake, Option.pure_def]
      · rw [if_pos (not_lt.1 hlt)]

/-- The bytes of the literal, which end with its indentation. -/
structure Indented (indent bytes : List UInt8) : Prop where
  nonempty : indent ≠ []
  spaces : ∀ c ∈ indent, isIndent c
  suffix : indent <:+ bytes

theorem Indented.line_le {indent bytes : List UInt8} (h : Indented indent bytes) {nextpos : Nat}
    (hline : nextpos ∈ lineStartsOf bytes) : nextpos + indent.length ≤ bytes.length := by
  obtain ⟨pos, hpos, rfl⟩ := List.mem_map.1 hline
  obtain ⟨before, rfl⟩ := h.suffix
  have hnewline := of_decide_eq_true (List.mem_filter.1 hpos).2
  rw [List.length_append]
  by_contra hle
  rw [List.getElem?_append_right (by omega)] at hnewline
  have hspace := h.spaces _ (List.mem_of_getElem? hnewline)
  exact absurd hspace (by decide)

theorem Indented.line {indent bytes : List UInt8} {run : IndentRun} (h : Indented indent bytes)
    (hrun : run.Ok indent bytes) {nextpos : Nat} (hline : nextpos ∈ lineStartsOf bytes) :
    Returns (indentLine indent bytes run nextpos) fun run' => run'.Ok indent bytes := by
  have hle := h.line_le hline
  have hpos := List.length_pos_iff.2 h.nonempty
  have hlen : indent.length ≤ (bytes.drop nextpos).length := by
    rw [List.length_drop]
    omega
  have htake := take_commonPrefixLength indent (bytes.drop nextpos)
  obtain ⟨c, hc⟩ : ∃ c, (bytes.drop nextpos).head? = some c :=
    ⟨_, List.head?_eq_some_head (List.length_pos_iff.1 (hpos.trans_le hlen))⟩
  rw [indentLine, hc]
  refine .ite (fun _ => .pure hrun) fun _ => .ite (fun hne => ?_) fun heq => .pure ?_
  · -- A new run begins, with all the whitespace of this line.
    rw [diagnoseInvalidMultilineIndents_ok hrun]
    refine .pure fun m hm hlt => ?_
    obtain rfl := Option.some.inj hm
    obtain ⟨hwhile, htakeWhile⟩ := take_takeWhile (hlt.le.trans hlen) fun d hd =>
      h.spaces d (List.mem_of_mem_take (htake ▸ hd))
    exact ⟨⟨nextpos, rfl, by omega⟩, hwhile, htake.trans htakeWhile.symm⟩
  · -- The whitespace in common with the lines of the run still begins with the part that is right.
    rw [not_not] at heq
    intro m hm hlt
    obtain rfl := Option.some.inj (heq.symm.trans hm)
    obtain ⟨⟨line, hhead, hsize⟩, hcommon, hindent⟩ := hrun _ heq hlt
    have hprefix := le_commonPrefixLength (hindent.symm.trans htake) hcommon (hlt.le.trans hlen)
    refine ⟨⟨line, ?_, hsize⟩, ?_, ?_⟩
    · rw [Option.mem_def] at hhead ⊢
      rw [List.head?_append, hhead]
      rfl
    · rw [List.length_take]
      exact le_min hprefix hcommon
    · rw [List.take_take, min_eq_left hprefix]
      exact hindent

theorem Indented.lines {indent bytes : List UInt8} {run : IndentRun} (h : Indented indent bytes)
    (hrun : run.Ok indent bytes) {lines : List Nat} (hlines : ∀ nextpos ∈ lines, nextpos ∈ lineStartsOf bytes) :
    Returns (lines.foldlM (indentLine indent bytes) run) fun run' => run'.Ok indent bytes := by
  induction lines generalizing run with
  | nil => exact .pure hrun
  | cons nextpos lines ih =>
      rw [List.foldlM_cons]
      exact (h.line hrun (hlines nextpos List.mem_cons_self)).bind fun run' hrun' =>
        ih hrun' fun q hq => hlines q (List.mem_cons_of_mem _ hq)

namespace Buffer

variable {b : Buffer} {p q start stop : Nat}

theorem returns_trailingIndentStart (start : Nat) (hstop : stop ≤ b.size) :
    Returns (b.trailingIndentStart start stop) fun r =>
      ∀ p ∈ r, start < p ∧ p ≤ stop ∧ b.AllBytes isIndent p stop := by
  refine Returns.iterate (fun p => p) (fun p => p ≤ stop ∧ b.AllBytes isIndent p stop) ?_
    ⟨le_rfl, fun k hk hk' => absurd hk' (not_lt.2 hk)⟩ (by simp only [fuel]; omega)
  rintro p ⟨hp, hindent⟩
  refine .ite (fun _ => .pure fun q hq => absurd hq.symm (Option.some_ne_none q)) fun hlt => ?_
  refine (returns_readBack (hp.trans hstop) (by omega)).bind ?_
  rintro _ rfl
  refine .ite (fun hspace => .pure ⟨⟨by omega, fun k hk hk' => ?_⟩, by omega⟩) fun _ => .pure fun q hq => ?_
  · rcases (show k = p - 1 ∨ p ≤ k by omega) with rfl | hk
    · exact hspace
    · exact hindent k hk hk'
  · split_ifs at hq with hnewline
    · obtain rfl := Option.some.inj hq
      exact ⟨by omega, hp, hindent⟩
    · exact absurd hq.symm (Option.some_ne_none q)

theorem returns_escapedNewlineAtLastLine (h3 : 3 ≤ start) (hp : start < p) (hsize : p ≤ b.size)
    (hquotes : ∀ k, start ≤ k + 3 → k < start → b.byteAt k = byte '"') :
    Returns (b.escapedNewlineAtLastLine start p) fun _ => True := by
  have hback : ∀ (c : Char) {m q : Nat}, m + 1 ≤ q → q ≤ b.size →
      Returns (b.readBack q) fun d => m ≤ (if d = byte c then q - 1 else q) ∧ (if d = byte c then q - 1 else q) ≤ q := by
    intro c m q hm hq
    refine (returns_readBack hq (by omega)).mono fun d _ => ?_
    split_ifs <;> omega
  rw [escapedNewlineAtLastLine]
  refine (hback '\n' (show start + 1 ≤ p from hp) hsize).bind fun c hc => ?_
  generalize (if c = byte '\n' then p - 1 else p) = p1 at hc ⊢
  refine (hback '\r' (show (start - 1) + 1 ≤ p1 by omega) (by omega)).bind fun d hd => ?_
  generalize (if d = byte '\r' then p1 - 1 else p1) = p2 at hd ⊢
  have hspaces : Returns (iterate (fun p => do
      if start + 1 < p ∧ isIndent (← b.readBack p) then return Step.next (p - 1) else return .done p) b.fuel p2)
      fun q => start - 1 ≤ q ∧ q ≤ b.size := by
    refine Returns.iterate (fun q => q) (fun q => start - 1 ≤ q ∧ q ≤ b.size) ?_ ⟨by omega, by omega⟩
      (by simp only [fuel]; omega)
    rintro q ⟨hstart, hq⟩
    refine (returns_readBack hq (by omega)).bind fun _ _ => ?_
    exact .ite (fun h => .pure ⟨⟨by omega, by omega⟩, by omega⟩) fun _ => .pure ⟨hstart, hq⟩
  refine hspaces.bind fun q hq => (returns_readBack hq.2 (by omega)).bind fun _ _ => ?_
  refine .ite (fun _ => ?_) fun _ => .pure trivial
  refine Returns.iterate (fun s => s.1) (fun s => start - 2 ≤ s.1 ∧ s.1 ≤ b.size) ?_ ⟨by simp only; omega, by simp only; omega⟩
    (by simp only [fuel]; omega)
  rintro ⟨q, invalid⟩ ⟨hstart, hq⟩
  refine (returns_readBack hq (by simp only at hstart; omega)).bind ?_
  rintro _ rfl
  refine .ite (fun hslash => .pure ?_) fun _ => .pure trivial
  have hlt : start < q := by
    by_contra hle
    simp only at hstart
    rw [hquotes (q - 1) (by omega) (by omega)] at hslash
    exact absurd hslash (by decide)
  exact ⟨⟨by simp only; omega, by simp only at hq ⊢; omega⟩, by simp only; omega⟩

end Buffer

namespace Lexer

variable {L : Lexer} {p q tokStart : Nat}

def BeginsMultiline (L : Lexer) (tokStart : Nat) : Prop := ∀ k, tokStart ≤ k → k < tokStart + 3 → L.buffer.byteAt k = byte '"'

theorem returns_validateMultilineIndents (hquotes : BeginsMultiline L tokStart) (hp : tokStart + 6 ≤ p)
    (hsize : p ≤ L.buffer.size) : Returns (L.validateMultilineIndents tokStart p) fun _ => True := by
  simp only [validateMultilineIndents, guard, if_pos hp, Option.bind_eq_bind, Option.bind_some, Option.pure_def]
  refine (Buffer.returns_trailingIndentStart _ (by omega)).bind ?_
  rintro (_ | indentStart) hr
  · exact .pure trivial
  obtain ⟨hstart, hstop, hindent⟩ := hr indentStart rfl
  refine (Buffer.returns_escapedNewlineAtLastLine (by omega) hstart (by omega) fun k hk hk' =>
    hquotes k (by omega) hk').bind fun _ _ => .ite (fun _ => .pure trivial) fun hne => ?_
  have hindented : Indented (L.buffer.text indentStart (p - 3)) (L.buffer.text (tokStart + 3) (p - 3)) := by
    refine ⟨hne, fun c hc => ?_, ?_⟩
    · obtain ⟨k, hk, hk', rfl⟩ := Buffer.mem_text hc (by omega)
      exact hindent k hk hk'
    · rw [Buffer.text_append hstart.le hstop]
      exact List.suffix_append _ _
  have hnone : IndentRun.Ok (L.buffer.text indentStart (p - 3)) (L.buffer.text (tokStart + 3) (p - 3)) ⟨none, [], []⟩ :=
    fun m hm => absurd hm.symm (Option.some_ne_none m)
  refine (hindented.lines hnone fun q hq => hq).bind fun run hrun => ?_
  rw [diagnoseInvalidMultilineIndents_ok hrun]
  exact .pure trivial

/-! ## Literals -/

/-- What the loop of `lexStringLiteral` keeps: the cursor is after the quotes, and as long as nothing is erroneous
no backslash is left over before it. -/
structure LiteralOk (L : Lexer) (tokStart : Nat) (multilineString : Bool) (s : Nat × Bool) : Prop where
  lt : tokStart < s.1
  multiline : multilineString = true → tokStart + 3 ≤ s.1
  unescaped : s.2 = false → Unescaped L.buffer (tokStart + 1) s.1

def QuotesAgree (L : Lexer) (tokStart : Nat) (multilineString : Bool) : Prop :=
  multilineString = true → BeginsMultiline L tokStart

theorem returns_closesMultiline (hp : p < L.buffer.size) :
    Returns (L.closesMultiline p) fun r => r = true → p + 3 ≤ L.buffer.size := by
  have hp' : p + 1 ≤ L.buffer.size := hp
  refine (Buffer.returns_looksAt hp' (by decide)).bind fun quotes hlook => .ite (fun h => ?_) fun _ => .pure fun h =>
    absurd h Bool.false_ne_true
  obtain ⟨h1, h2⟩ := hlook h
  have hsize : p + 3 ≤ L.buffer.size := Buffer.lt_size_of_eq (Buffer.lt_size_of_eq hp' h1 (by decide)) h2 (by decide)
  exact (Buffer.returns_read hsize).bind fun _ _ => .pure fun _ => hsize

theorem returns_stringLiteralEnd {multilineString : Bool} (hquotes : QuotesAgree L tokStart multilineString)
    (hs : LiteralOk L tokStart multilineString (p, false)) (hp : p < L.buffer.size)
    (hc : L.buffer.byteAt p ≠ byte '\\') :
    Returns (L.stringLiteralEnd tokStart multilineString p) (Step.All
      (fun s' => LiteralOk L tokStart multilineString s' ∧ p < s'.1 ∧ s'.1 ≤ L.buffer.size)
      fun t => t.Fits L.buffer tokStart) := by
  have hlt : tokStart < p := hs.lt
  refine .ite (fun hm => (returns_closesMultiline hp).bind fun closes hcloses => .ite (fun h => ?_) fun _ => .pure ?_)
    fun _ => .pure (.plain (by omega) hp (by decide))
  · have hsize := hcloses h
    have hfits : Scanned.Fits ⟨.stringLiteral, p + 3, false, true⟩ L.buffer tokStart :=
      ⟨Tok.noConfusion, by simp only; omega, hsize, fun he => absurd he Bool.false_ne_true⟩
    refine .ite (fun _ => ?_) fun _ => .pure hfits
    have hmulti : tokStart + 3 ≤ p := hs.multiline hm
    exact (returns_validateMultilineIndents (hquotes hm) (by omega) hsize).bind fun _ _ => .pure hfits
  · refine ⟨⟨by simp only; omega, fun hm => Nat.le_succ_of_le (hs.multiline hm), fun _ => ?_⟩, Nat.lt_succ_self p, hp⟩
    exact (hs.unescaped rfl).plain hc

theorem returns_stringLiteralQuote {multilineString wasErroneous : Bool} (hquotes : QuotesAgree L tokStart multilineString)
    (hs : LiteralOk L tokStart multilineString (p, wasErroneous)) (hp : p < L.buffer.size)
    (hc : L.buffer.byteAt p ≠ byte '\\') :
    Returns (L.stringLiteralQuote tokStart multilineString wasErroneous p) (Step.All
      (fun s' => LiteralOk L tokStart multilineString s' ∧ p < s'.1 ∧ s'.1 ≤ L.buffer.size)
      fun t => t.Fits L.buffer tokStart) := by
  have hlt : tokStart < p := hs.lt
  refine .ite (fun _ => .pure (.plain (by omega) hp (by decide))) fun herr => ?_
  obtain rfl := Bool.eq_false_iff.2 herr
  refine (Buffer.returns_read (by omega)).bind ?_
  rintro _ rfl
  refine .ite (fun hsingle => ?_) fun _ => returns_stringLiteralEnd hquotes hs hp hc
  have hsome : (requote (L.buffer.text (tokStart + 1) p ++ [])).isSome := (hs.unescaped rfl).requote hp.le rfl
  rw [List.append_nil] at hsome
  obtain ⟨str, hstr⟩ := Option.isSome_iff_exists.1 hsome
  rw [hstr]
  exact returns_stringLiteralEnd hquotes hs hp hc

theorem returns_stringLiteralStep {multilineString : Bool} (hquotes : QuotesAgree L tokStart multilineString)
    {s : Nat × Bool} (hs : LiteralOk L tokStart multilineString s) (hp : s.1 ≤ L.buffer.size) :
    Returns (L.stringLiteralStep tokStart multilineString s) (Step.All
      (fun s' => LiteralOk L tokStart multilineString s' ∧ s.1 < s'.1 ∧ s'.1 ≤ L.buffer.size)
      fun t => t.Fits L.buffer tokStart) := by
  have hlt := hs.lt
  refine (Buffer.returns_looksAt hp (by decide)).bind fun interpolated hlook => .ite (fun h => ?_) fun _ => ?_
  · obtain ⟨hslash, hparen⟩ := hlook h
    have hsize := Buffer.lt_size_of_eq (Buffer.lt_size_of_eq hp hslash (by decide)) hparen (by decide)
    refine (Buffer.returns_skipToEndOfInterpolatedExpression multilineString hsize).bind fun q hq => ?_
    refine (Buffer.returns_read hq.2).bind ?_
    rintro _ rfl
    have hmulti : multilineString = true → tokStart + 3 ≤ q := fun hm => by
      have := hs.multiline hm
      omega
    refine .ite (fun hclose => .pure ?_) fun _ => .pure ?_
    · have hle := Buffer.lt_size_of_eq hq.2 hclose (by decide)
      refine ⟨⟨by simp only; omega, fun hm => Nat.le_succ_of_le (hmulti hm), fun _ => ?_⟩, by simp only; omega, hle⟩
      exact .after (by omega) (by rw [Nat.add_sub_cancel, hclose]; decide)
    · exact ⟨⟨by simp only; omega, hmulti, fun h => absurd h.symm Bool.false_ne_true⟩, by simp only; omega, hq.2⟩
  · refine (Buffer.returns_read hp).bind ?_
    rintro _ rfl
    refine .ite (fun _ => .pure (.plain hlt hp (by decide))) fun hend => ?_
    have hsize : s.1 < L.buffer.size := by
      have := not_or.1 hend
      omega
    refine (Buffer.returns_read (by omega)).bind ?_
    rintro _ rfl
    refine (Buffer.returns_lexCharacter _ multilineString hsize).bind ?_
    rintro ⟨lexed, q⟩ hfits
    have hmulti : s.1 < q → multilineString = true → tokStart + 3 ≤ q := fun hsq hm => by
      have := hs.multiline hm
      omega
    cases lexed with
    | char v =>
        refine .pure ⟨⟨?_, hmulti hfits.1, fun herr => (hs.unescaped herr).char hfits⟩, hfits.1, hfits.2.1⟩
        have := hfits.1
        simp only
        omega
    | error =>
        refine .pure ⟨⟨?_, hmulti hfits.1, fun h => absurd h.symm Bool.false_ne_true⟩, hfits.1, hfits.2⟩
        have := hfits.1
        simp only
        omega
    | endOfString =>
        obtain ⟨rfl, hstop, hquote⟩ := hfits
        refine returns_stringLiteralQuote hquotes hs hsize fun hslash => ?_
        rw [← hstop, hslash] at hquote
        exact absurd hquote (by decide)

theorem returns_lexStringLiteral (hp : tokStart < L.buffer.size) :
    Returns (L.lexStringLiteral tokStart) fun t => t.Fits L.buffer tokStart := by
  have hp' : tokStart + 1 ≤ L.buffer.size := hp
  refine (Buffer.returns_read hp.le).bind ?_
  rintro _ rfl
  refine (Buffer.returns_looksAt hp' (by decide)).bind fun quotes hlook => ?_
  generalize hm : (decide (L.buffer.byteAt tokStart = byte '"') && quotes) = multilineString
  have hquotes : QuotesAgree L tokStart multilineString := by
    rintro rfl k hk hk'
    rw [Bool.and_eq_true, decide_eq_true_iff] at hm
    obtain ⟨h1, h2⟩ := hlook hm.2
    rcases (show k = tokStart ∨ k = tokStart + 1 ∨ k = tokStart + 1 + 1 by omega) with rfl | rfl | rfl
    · exact hm.1
    · exact h1
    · exact h2
  refine Buffer.returns_iterate Prod.fst (LiteralOk L tokStart multilineString)
    (fun s hs hsize => returns_stringLiteralStep hquotes hs hsize) ?_ ?_
  · cases multilineString with
    | false => exact ⟨Nat.lt_succ_self _, fun h => absurd h Bool.false_ne_true, fun _ => .refl⟩
    | true =>
        refine ⟨by simp only [if_true]; omega, fun _ => le_rfl, fun _ => ?_⟩
        refine .after (by simp only [if_true]; omega) ?_
        rw [if_pos rfl, show tokStart + 3 - 1 = tokStart + 2 by omega, hquotes rfl _ (by omega) (by omega)]
        decide
  · cases multilineString with
    | false => exact hp
    | true =>
        have h2 := Buffer.lt_size_of_eq hp' (hquotes rfl (tokStart + 1) (by omega) (by omega)) (by decide)
        exact Buffer.lt_size_of_eq h2 (hquotes rfl (tokStart + 1 + 1) (by omega) (by omega)) (by decide)

theorem returns_findEndOfCurlyQuoteStringLiteral (hp : p ≤ L.buffer.size) :
    Returns (L.findEndOfCurlyQuoteStringLiteral p) fun r => ∀ q ∈ r, p < q ∧ q ≤ L.buffer.size := by
  have hnone : ∀ q ∈ (none : Option Nat), p < q ∧ q ≤ L.buffer.size := fun q hq => absurd hq.symm (Option.some_ne_none q)
  refine Buffer.returns_iterate (fun q => q) (fun q => p ≤ q) ?_ le_rfl hp
  intro q hpq hq
  refine (Buffer.returns_looksAt hq (by decide)).bind fun interpolated _ => .ite (fun _ => .pure hnone) fun _ => ?_
  refine (Buffer.returns_read hq).bind ?_
  rintro _ rfl
  refine .ite (fun _ => .pure hnone) fun hend => ?_
  have hsize : q < L.buffer.size := by
    have := not_or.1 hend
    omega
  refine (Buffer.returns_lexCharacter 0 false hsize).bind ?_
  rintro ⟨lexed, r⟩ hfits
  cases lexed with
  | error => exact .pure hnone
  | char v =>
      obtain ⟨hlt, hle, -⟩ := hfits
      refine .pure ?_
      split_ifs
      · rintro m hm
        obtain rfl := Option.some.inj hm
        exact ⟨by omega, hle⟩
      · exact ⟨by omega, hlt, hle⟩
  | endOfString => exact absurd hfits.2.2 (by decide)

end Lexer

end SwiftKStdlib.Parse
