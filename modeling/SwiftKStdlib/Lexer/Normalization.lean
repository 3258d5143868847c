import SwiftKStdlib.Lexer.Encoding

/-!
# Line breaks in literal text

* `LinesIndented` : every line behind a line break is empty or begins with the indentation;
* `content_isSome` : literal text has a content exactly when its lines are indented;
* `content_length` : the content is not longer than the text, and as long only where nothing but CR is replaced;
* `ReturnsRaw` : the segments that the encoder returns as they are in spite of a CR;
* `returnsRaw_iff` : they are the ones whose content is as long as the text, but not the text.
-/

namespace SwiftKStdlib.Parse

open Lib Unicode

/-! ## Indented lines -/

def IndentedHere (indent rest : List UInt8) : Prop := rest.head?.any isNewline ∨ indent <+: rest

def LinesIndented (indent : List UInt8) : List UInt8 → Prop
  | [] => True
  | c :: rest => (isNewline c → ¬ (c = byte '\r' ∧ rest.head? = some (byte '\n')) → IndentedHere indent rest) ∧
      LinesIndented indent rest

/-- The same for the lines behind the line breaks that end with `c`. -/
def IndentedBehind (c : UInt8) (indent bytes : List UInt8) : Prop :=
  ∀ x rest, bytes = x ++ c :: rest → ¬ (c = byte '\r' ∧ rest.head? = some (byte '\n')) → IndentedHere indent rest

section

variable {indent bytes rest front out : List UInt8} {last first escaped : Bool} {text : List Piece} {piece : Piece}

theorem linesIndented_iff : LinesIndented indent bytes ↔
    IndentedBehind (byte '\n') indent bytes ∧ IndentedBehind (byte '\r') indent bytes := by
  have hall : LinesIndented indent bytes ↔ ∀ x c rest, bytes = x ++ c :: rest → isNewline c →
      ¬ (c = byte '\r' ∧ rest.head? = some (byte '\n')) → IndentedHere indent rest := by
    induction bytes with
    | nil => simp [LinesIndented]
    | cons c bytes ih =>
        rw [LinesIndented, ih]
        constructor
        · rintro ⟨hhere, hrest⟩ x d rest heq
          cases x with
          | nil =>
              obtain ⟨rfl, rfl⟩ := List.cons.inj heq
              exact hhere
          | cons e x => exact hrest x d rest (List.cons.inj heq).2
        · exact fun h => ⟨h [] c bytes rfl, fun x d rest heq => h (c :: x) d rest (congrArg (c :: ·) heq)⟩
  rw [hall]
  constructor
  · exact fun h => ⟨fun x rest heq => h x _ rest heq (by decide), fun x rest heq => h x _ rest heq (by decide)⟩
  · rintro ⟨hlf, hcr⟩ x c rest heq hnewline
    rcases (Buffer.isNewline_iff c).1 hnewline with rfl | rfl
    · exact hlf x rest heq
    · exact hcr x rest heq

theorem linesIndented_append (hfront : ∀ c ∈ front, isNewline c = false) :
    LinesIndented indent (front ++ rest) ↔ LinesIndented indent rest := by
  induction front with
  | nil => exact Iff.rfl
  | cons c front ih =>
      obtain ⟨hc, hfront⟩ := List.forall_mem_cons.1 hfront
      rw [List.cons_append, LinesIndented, ih hfront]
      exact ⟨And.right, fun h => ⟨fun hnewline => absurd (hc.symm.trans hnewline) Bool.false_ne_true, h⟩⟩

theorem linesIndented_lineBreak {c : UInt8} (hc : isNewline c) : LinesIndented indent (c :: rest) ↔
    IndentedHere indent (afterLineBreak c rest) ∧ LinesIndented indent (afterLineBreak c rest) := by
  have hlf : isNewline (byte '\n') = true ∧ byte '\n' ≠ byte '\r' := by decide
  rw [LinesIndented, afterLineBreak]
  split_ifs with hbreak
  · obtain ⟨rest, rfl⟩ := List.head?_eq_some_iff.1 hbreak.2
    rw [List.tail_cons, LinesIndented]
    simp [hbreak.1, hlf]
  · simp [hc, hbreak]

/-! ## Pieces and bytes -/

theorem Spells.strip (h : Spells text (front ++ bytes)) (hfront : ∀ c ∈ front, isNewline c = false ∧ c ≠ byte '\\') :
    ∃ rest, text = front.map .raw ++ rest ∧ Spells rest bytes := by
  induction front generalizing text with
  | nil => exact ⟨text, rfl, h⟩
  | cons c front ih =>
      obtain ⟨⟨hnewline, hslash⟩, hfront⟩ := List.forall_mem_cons.1 hfront
      rw [List.cons_append] at h
      generalize hbytes : front ++ bytes = tail at h
      cases h with
      | cons hnext hrest =>
          cases hnext with
          | raw =>
              obtain ⟨rest', rfl, hrest'⟩ := ih (hbytes ▸ hrest) hfront
              exact ⟨rest', rfl, hrest'⟩
          | lineBreak hc => exact absurd (hnewline.symm.trans hc) Bool.false_ne_true
          | simple => exact absurd rfl hslash
          | unicode => exact absurd rfl hslash
          | escapedBreak => exact absurd rfl hslash

theorem Spells.lineBreak (h : Spells text bytes) (hc : bytes.head?.any isNewline) : ∃ rest, text = .lineBreak false :: rest := by
  have hslash : isNewline (byte '\\') = false := by decide
  cases h with
  | nil => cases hc
  | cons hnext _ =>
      cases hnext with
      | raw hnewline => exact absurd (hnewline.symm.trans hc) Bool.false_ne_true
      | lineBreak => exact ⟨_, rfl⟩
      | simple => exact absurd (hslash.symm.trans hc) Bool.false_ne_true
      | unicode => exact absurd (hslash.symm.trans hc) Bool.false_ne_true
      | escapedBreak => exact absurd (hslash.symm.trans hc) Bool.false_ne_true

/-- The bytes of a piece in a line, and what it stands for. -/
structure Inline (piece : Piece) (front : List UInt8) : Prop where
  inline : ∀ escaped, piece ≠ .lineBreak escaped
  noNewline : ∀ c ∈ front, isNewline c = false
  /-- A decoded escape is shorter than the escape. -/
  bytes : piece.bytes = front ∧ byte '\\' ∉ front ∧ front.length = 1 ∨ piece.bytes.length < front.length

theorem Next.cases (h : Next piece bytes rest) :
    (∃ front, bytes = front ++ rest ∧ Inline piece front) ∨
      ∃ escaped front c tail, piece = .lineBreak escaped ∧ bytes = front ++ c :: tail ∧ rest = afterLineBreak c tail ∧
        (∀ d ∈ front, isNewline d = false) ∧ isNewline c = true ∧ (escaped = false ∧ front = [] ∨ escaped = true ∧ front ≠ []) := by
  have hslash : isNewline (byte '\\') = false ∧ isNewline (byte 'u') = false ∧ isNewline (byte '{') = false ∧
      isNewline (byte '}') = false := by decide
  have hhex : ∀ c : UInt8, isHexDigit c → isNewline c = false := forall_byte (by decide +kernel)
  have hblank : ∀ c : UInt8, isIndent c → isNewline c = false := forall_byte (by decide +kernel)
  cases h with
  | @raw c _ hnewline hne =>
      refine .inl ⟨[c], rfl, fun _ h => Piece.noConfusion h, List.forall_mem_singleton.2 hnewline, .inl ⟨rfl, ?_, rfl⟩⟩
      exact fun hmem => hne (List.mem_singleton.1 hmem).symm
  | lineBreak hnewline =>
      exact .inr ⟨false, [], _, _, rfl, rfl, rfl, fun d hd => absurd hd List.not_mem_nil, hnewline, .inl ⟨rfl, rfl⟩⟩
  | @simple d v _ h =>
      have hclass := (Buffer.simpleEscape_class _ (Option.isSome_iff_exists.2 ⟨v, h⟩)).1
      refine .inl ⟨[byte '\\', d], rfl, fun _ h => Piece.noConfusion h, ?_, .inr (Nat.lt_succ_self 1)⟩
      exact List.forall_mem_cons.2 ⟨hslash.1, List.forall_mem_singleton.2 (Bool.or_eq_false_iff.1 hclass).2⟩
  | @unicode digits _ hdigits h1 h8 hvalue =>
      refine .inl ⟨byte '\\' :: byte 'u' :: byte '{' :: (digits ++ [byte '}']), ?_, fun _ h => Piece.noConfusion h, ?_, .inr ?_⟩
      · rw [List.cons_append, List.cons_append, List.cons_append, List.append_assoc]
        rfl
      · refine List.forall_mem_cons.2 ⟨hslash.1, List.forall_mem_cons.2 ⟨hslash.2.1, List.forall_mem_cons.2
          ⟨hslash.2.2.1, List.forall_mem_append.2 ⟨fun c hc => hhex c (hdigits c hc), ?_⟩⟩⟩⟩
        exact List.forall_mem_singleton.2 hslash.2.2.2
      · have hlen : (utf8 (hexNumber digits)).length ≤ 4 := by
          rw [utf8, List.length_map, UTF8.length_codeUnits]
          split_ifs <;> omega
        simp only [Piece.bytes, List.length_cons, List.length_append, List.length_nil]
        omega
  | @escapedBreak blanks _ c hblanks hnewline =>
      refine .inr ⟨true, byte '\\' :: blanks, c, _, rfl, rfl, rfl, ?_, hnewline, .inr ⟨rfl, List.cons_ne_nil _ _⟩⟩
      exact List.forall_mem_cons.2 ⟨hslash.1, fun d hd => hblank d (hblanks d hd)⟩

/-! ## The text has a content -/

theorem raw_of_blanks (hblanks : ∀ c ∈ indent, isIndent c) : ∀ c ∈ indent, isNewline c = false ∧ c ≠ byte '\\' := by
  have hclass : ∀ c : UInt8, isIndent c → isNewline c = false ∧ c ≠ byte '\\' := forall_byte (by decide +kernel)
  exact fun c hc => hclass c (hblanks c hc)

theorem Spells.behind (h : Spells text bytes) (last : Bool) (hblanks : ∀ c ∈ indent, isIndent c) (hhere : IndentedHere indent bytes) :
    ∃ skipped text' bytes', bytes = skipped ++ bytes' ∧ (skipped = [] ∨ skipped = indent) ∧
      (bytes.head?.any isNewline ∨ skipped = indent) ∧ Spells text' bytes' ∧ ∀ escaped,
      content indent last (.lineBreak escaped :: text) =
        (content indent last text').map (lineBreakContent last escaped (splitLines text').2 ++ ·) := by
  rcases hhere with hempty | ⟨bytes', rfl⟩
  · obtain ⟨rest, rfl⟩ := h.lineBreak hempty
    exact ⟨[], _, bytes, rfl, .inl rfl, .inl hempty, h, fun escaped => content_empty⟩
  · obtain ⟨rest, rfl, hrest⟩ := h.strip (raw_of_blanks hblanks)
    exact ⟨indent, rest, bytes', rfl, .inr rfl, .inr rfl, hrest, fun escaped => content_indented⟩

theorem Spells.indentedHere (h : Spells text bytes) (hcontent : content indent last (.lineBreak escaped :: text) = some out) :
    IndentedHere indent bytes := by
  rcases content_lineBreak hcontent with ⟨rest, rfl⟩ | ⟨rest, rfl⟩
  · left
    cases h with
    | cons hnext _ =>
        cases hnext with
        | lineBreak hnewline => exact hnewline
  · obtain ⟨bytes', rfl, -⟩ := h.unraws
    exact .inr (List.prefix_append _ _)

theorem Spells.content_isSome (h : Spells text bytes) (last : Bool) (hblanks : ∀ c ∈ indent, isIndent c) :
    (∃ out, content indent last text = some out) ↔ LinesIndented indent bytes := by
  induction hn : bytes.length using Nat.strong_induction_on generalizing text bytes with
  | _ n ih =>
    subst hn
    cases h with
    | nil => exact ⟨fun _ => trivial, fun _ => ⟨[], rfl⟩⟩
    | @cons piece text _ rest hnext hrest =>
        have hlt := hnext.length_lt
        rcases hnext.cases with ⟨front, rfl, hinline⟩ | ⟨escaped, front, c, tail, rfl, rfl, rfl, hfront, hc, -⟩
        · rw [linesIndented_append hinline.noNewline, ← ih _ hlt hrest rfl, content_inline hinline.inline]
          simp
        · rw [linesIndented_append hfront, linesIndented_lineBreak hc]
          constructor
          · rintro ⟨out, hout⟩
            have hhere := hrest.indentedHere hout
            obtain ⟨skipped, text', bytes', heq, hskipped, -, htext', hcontent⟩ := hrest.behind last hblanks hhere
            have hlen := congrArg List.length heq
            rw [List.length_append] at hlen
            rw [hcontent] at hout
            obtain ⟨out', hout', -⟩ := Option.map_eq_some_iff.1 hout
            refine ⟨hhere, ?_⟩
            rw [heq, linesIndented_append]
            · exact (ih _ (by omega) htext' rfl).1 ⟨out', hout'⟩
            · rcases hskipped with rfl | rfl
              · exact fun c hc => absurd hc List.not_mem_nil
              · exact fun c hc => (raw_of_blanks hblanks c hc).1
          · rintro ⟨hhere, hlines⟩
            obtain ⟨skipped, text', bytes', heq, hskipped, -, htext', hcontent⟩ := hrest.behind last hblanks hhere
            have hlen := congrArg List.length heq
            rw [List.length_append] at hlen
            rw [heq, linesIndented_append] at hlines
            · obtain ⟨out', hout'⟩ := (ih _ (by omega) htext' rfl).2 hlines
              exact ⟨_, by rw [hcontent, hout']; rfl⟩
            · rcases hskipped with rfl | rfl
              · exact fun c hc => absurd hc List.not_mem_nil
              · exact fun c hc => (raw_of_blanks hblanks c hc).1

/-! ## Its length -/

def normalized (c : UInt8) : UInt8 := if c = byte '\r' then byte '\n' else c

/-- Nothing in the text is longer than what it stands for. -/
structure Plain (indent : List UInt8) (last : Bool) (bytes : List UInt8) : Prop where
  noSlash : byte '\\' ∉ bytes
  noReturnNewline : ¬ [byte '\r', byte '\n'] <:+: bytes
  noIndent : (∃ c ∈ bytes, isNewline c = true) → indent = [] ∧ last = false

theorem returnNewline_cons {c : UInt8} {tail : List UInt8} : [byte '\r', byte '\n'] <:+: c :: tail ↔
    (c = byte '\r' ∧ tail.head? = some (byte '\n')) ∨ [byte '\r', byte '\n'] <:+: tail := by
  have hprefix : [byte '\r', byte '\n'] <+: c :: tail ↔ c = byte '\r' ∧ tail.head? = some (byte '\n') := by
    rw [List.cons_prefix_cons]
    cases tail with
    | nil => simp
    | cons d tail => simp [List.cons_prefix_cons, eq_comm]
  rw [List.infix_cons_iff, hprefix]

theorem Spells.newline_mem (h : Spells text bytes) (hlines : (splitLines text).2 ≠ []) : ∃ c ∈ bytes, isNewline c = true := by
  induction h with
  | nil => exact absurd rfl hlines
  | @cons piece text bytes rest hnext _ ih =>
      rcases hnext.cases with ⟨front, rfl, hinline⟩ | ⟨escaped, front, c, tail, rfl, rfl, rfl, -, hc, -⟩
      · cases piece with
        | lineBreak escaped => exact absurd rfl (hinline.inline escaped)
        | raw =>
            obtain ⟨c, hc, hnewline⟩ := ih hlines
            exact ⟨c, List.mem_append_right _ hc, hnewline⟩
        | decoded =>
            obtain ⟨c, hc, hnewline⟩ := ih hlines
            exact ⟨c, List.mem_append_right _ hc, hnewline⟩
      · exact ⟨c, List.mem_append_right _ List.mem_cons_self, hc⟩

theorem length_lineBreakContent (last escaped : Bool) (lines : List TextLine) :
    (lineBreakContent last escaped lines).length ≤ 1 ∧ ((lineBreakContent last escaped lines).length = 1 →
      lineBreakContent last escaped lines = [byte '\n'] ∧ (last = true → lines ≠ [])) := by
  rw [lineBreakContent]
  split_ifs with hdrop
  · exact ⟨Nat.zero_le 1, fun h => absurd h (by simp)⟩
  · refine ⟨le_rfl, fun _ => ⟨rfl, ?_⟩⟩
    rintro rfl rfl
    simp at hdrop

theorem afterLineBreak_length {c : UInt8} {tail : List UInt8} (h : (afterLineBreak c tail).length = tail.length) :
    afterLineBreak c tail = tail ∧ ¬ (c = byte '\r' ∧ tail.head? = some (byte '\n')) := by
  rw [afterLineBreak] at h ⊢
  split_ifs at h ⊢ with hbreak
  · obtain ⟨rest, rfl⟩ := List.head?_eq_some_iff.1 hbreak.2
    exact absurd h (by simp)
  · exact ⟨rfl, hbreak⟩

theorem normalized_newline : ∀ c : UInt8, isNewline c → normalized c = byte '\n' := forall_byte (by decide +kernel)

/-- The content is not longer than the text, and as long only where nothing but CR is replaced. -/
theorem Spells.content_length (h : Spells text bytes) (hblanks : ∀ c ∈ indent, isIndent c)
    (hcontent : content indent last text = some out) : out.length ≤ bytes.length ∧
      (out.length = bytes.length → Plain indent last bytes ∧ out = bytes.map normalized) := by
  induction hn : bytes.length using Nat.strong_induction_on generalizing text bytes out with
  | _ n ih =>
    subst hn
    cases h with
    | nil =>
        obtain rfl := Option.some.inj hcontent
        exact ⟨le_rfl, fun _ => ⟨⟨List.not_mem_nil, by simp, by simp⟩, rfl⟩⟩
    | @cons piece text _ rest hnext hrest =>
        have hlt := hnext.length_lt
        rcases hnext.cases with ⟨front, rfl, hinline⟩ | ⟨escaped, front, c, tail, rfl, rfl, rfl, hfront, hc, hescaped⟩
        · rw [content_inline hinline.inline] at hcontent
          obtain ⟨out', hout', rfl⟩ := Option.map_eq_some_iff.1 hcontent
          obtain ⟨hle, hsame⟩ := ih _ hlt hrest hout' rfl
          rw [List.length_append, List.length_append]
          rcases hinline.bytes with ⟨hbytes, hslash, hone⟩ | hshort
          · obtain ⟨d, rfl⟩ := List.length_eq_one_iff.1 hone
            have hd : isNewline d = false := hinline.noNewline d (List.mem_singleton_self d)
            have hdcr : d ≠ byte '\r' := by
              rintro rfl
              exact absurd hd (by decide)
            refine ⟨by rw [hbytes]; omega, fun hlen => ?_⟩
            obtain ⟨hplain, rfl⟩ := hsame (by rw [hbytes] at hlen; omega)
            refine ⟨⟨?_, ?_, ?_⟩, ?_⟩
            · exact fun hmem => (List.mem_append.1 hmem).elim hslash hplain.noSlash
            · intro hinfix
              rcases returnNewline_cons.1 hinfix with ⟨hcr, -⟩ | hinfix
              · exact hdcr hcr
              · exact hplain.noReturnNewline hinfix
            · rintro ⟨e, he, hnewline⟩
              rcases List.mem_append.1 he with he | he
              · exact absurd ((hinline.noNewline e he).symm.trans hnewline) Bool.false_ne_true
              · exact hplain.noIndent ⟨e, he, hnewline⟩
            · rw [hbytes, List.singleton_append, List.singleton_append, List.map_cons, normalized, if_neg hdcr]
          · exact ⟨by omega, fun hlen => by omega⟩
        · obtain ⟨skipped, text', bytes', heq, hskipped, hwhich, htext', hbehind⟩ :=
            hrest.behind last hblanks (hrest.indentedHere hcontent)
          rw [hbehind] at hcontent
          obtain ⟨out', hout', rfl⟩ := Option.map_eq_some_iff.1 hcontent
          have hlen := congrArg List.length heq
          rw [List.length_append] at hlen
          obtain ⟨hle, hsame⟩ := ih _ (by omega) htext' hout' rfl
          have hafter := length_afterLineBreak c tail
          obtain ⟨hbreak, hbreaking⟩ := length_lineBreakContent last escaped (splitLines text').2
          simp only [List.length_append, List.length_cons]
          refine ⟨by omega, fun hall => ?_⟩
          -- Nothing is left out before the line break, at it, and behind it.
          obtain ⟨hlf, hlast⟩ := hbreaking (by omega)
          obtain ⟨hplain, rfl⟩ := hsame (by omega)
          obtain ⟨htail, hnot⟩ := afterLineBreak_length (show (afterLineBreak c tail).length = tail.length by omega)
          obtain rfl := List.length_eq_zero_iff.1 (show skipped.length = 0 by omega)
          obtain rfl := List.length_eq_zero_iff.1 (show front.length = 0 by omega)
          rw [htail, List.nil_append] at heq
          subst heq
          have hnewline : indent = [] ∧ last = false := by
            rcases hwhich with hempty | hindent
            · rw [htail] at hempty
              obtain ⟨d, hd, hdnewline⟩ := (Option.any_eq_true _ _).1 hempty
              exact hplain.noIndent ⟨d, List.mem_of_head? hd, hdnewline⟩
            · refine ⟨hindent.symm, Bool.eq_false_iff.2 fun hl => ?_⟩
              have := hplain.noIndent (htext'.newline_mem (hlast hl))
              exact Bool.false_ne_true (this.2.symm.trans hl)
          refine ⟨⟨?_, ?_, fun _ => hnewline⟩, ?_⟩
          · rw [List.nil_append, List.mem_cons, not_or]
            refine ⟨?_, hplain.noSlash⟩
            rintro rfl
            exact absurd hc (by decide)
          · rw [List.nil_append, returnNewline_cons, not_or]
            exact ⟨hnot, hplain.noReturnNewline⟩
          · rw [hlf, List.nil_append, List.map_cons, normalized_newline c hc]
            rfl

theorem Spells.length_eq (h : Spells text bytes) (hslash : byte '\\' ∉ bytes)
    (hnot : ¬ [byte '\r', byte '\n'] <:+: bytes) (hcontent : content [] false text = some out) :
    out.length = bytes.length := by
  induction h generalizing out with
  | nil =>
      obtain rfl := Option.some.inj hcontent
      rfl
  | @cons piece text bytes rest hnext hrest ih =>
      cases hnext with
      | raw =>
          rw [content_inline fun _ h => Piece.noConfusion h] at hcontent
          obtain ⟨out', hout', rfl⟩ := Option.map_eq_some_iff.1 hcontent
          rw [List.mem_cons, not_or] at hslash
          rw [returnNewline_cons, not_or] at hnot
          have hlen := ih hslash.2 hnot.2 hout'
          simp only [Piece.bytes, List.length_append, List.length_cons, List.length_nil]
          omega
      | @lineBreak c tail hc =>
          rw [List.mem_cons, not_or] at hslash
          rw [returnNewline_cons, not_or] at hnot
          have htail : afterLineBreak c tail = tail := if_neg hnot.1
          rw [htail] at hrest ih
          have hindented : content [] false (.lineBreak false :: ([] ++ text)) = _ := content_indented
          rw [List.nil_append] at hindented
          rw [hindented] at hcontent
          obtain ⟨out', hout', rfl⟩ := Option.map_eq_some_iff.1 hcontent
          have hlen := ih hslash.2 hnot.2 hout'
          rw [List.length_append, List.length_cons, hlen]
          exact Nat.add_comm 1 _
      | simple => exact absurd List.mem_cons_self hslash
      | unicode => exact absurd List.mem_cons_self hslash
      | escapedBreak => exact absurd List.mem_cons_self hslash

end

/-! ## Segments that are returned as they are -/

structure ReturnsRaw (indent : List UInt8) (first last : Bool) (bytes : List UInt8) : Prop where
  between : first = false ∧ last = false
  noIndent : indent = []
  noSlash : byte '\\' ∉ bytes
  noReturnNewline : ¬ [byte '\r', byte '\n'] <:+: bytes
  carriageReturn : byte '\r' ∈ bytes

theorem map_normalized {bytes : List UInt8} : bytes.map normalized = bytes ↔ byte '\r' ∉ bytes := by
  induction bytes with
  | nil => simp
  | cons c bytes ih =>
      rw [List.map_cons, List.cons.injEq, ih, List.mem_cons, not_or, normalized]
      split_ifs with hc
      · subst hc
        simp only [ne_eq, not_true_eq_false, false_and, iff_false, not_and]
        exact fun h => absurd h (by decide)
      · simp [eq_comm, hc]

section

variable {indent bytes out : List UInt8} {last first : Bool} {text : List Piece}

theorem Spells.dropFirst (h : Spells text bytes) (hblanks : ∀ c ∈ indent, isIndent c) :
    (∃ out, content indent last (if first then dropFirstLineBreak text else text) = some out) ↔ LinesIndented indent bytes := by
  rw [← h.content_isSome last hblanks]
  cases first with
  | false => exact Iff.rfl
  | true =>
      cases text with
      | nil => exact Iff.rfl
      | cons piece text =>
          cases piece with
          | raw => exact Iff.rfl
          | decoded => exact Iff.rfl
          | lineBreak escaped =>
              have hlines : ∀ escaped, (∃ out, content indent last (.lineBreak escaped :: text) = some out) ↔
                  (∃ line, lineContent indent ⟨true, (splitLines text).1⟩ (splitLines text).2 = some line) ∧
                    ∃ out, linesContent indent last (splitLines text).2 = some out := by
                intro escaped
                have hline : lineContent indent ⟨escaped, (splitLines text).1⟩ (splitLines text).2 =
                    lineContent indent ⟨true, (splitLines text).1⟩ (splitLines text).2 := rfl
                simp only [content, splitLines, linesContent, hline]
                cases lineContent indent ⟨true, (splitLines text).1⟩ (splitLines text).2 <;>
                  cases linesContent indent last (splitLines text).2 <;> simp
              exact (hlines true).trans (hlines escaped).symm

theorem Spells.returnsRaw_iff (h : Spells text bytes) (hblanks : ∀ c ∈ indent, isIndent c)
    (hfirst : first = true → bytes.head?.any isNewline)
    (hcontent : content indent last (if first then dropFirstLineBreak text else text) = some out) :
    (out.length = bytes.length ∧ out ≠ bytes) ↔ ReturnsRaw indent first last bytes := by
  cases hf : first with
  | true =>
      -- The first line break is dropped.
      rw [hf, if_pos rfl] at hcontent
      refine iff_of_false ?_ fun h => by cases h.between.1
      rintro ⟨hlen, -⟩
      cases h with
      | nil => cases hfirst hf
      | @cons piece text _ rest hnext hrest =>
          rcases hnext.cases with ⟨front, rfl, hinline⟩ | ⟨escaped, front, c, tail, rfl, rfl, rfl, -, hc, -⟩
          · obtain ⟨rest', heq⟩ := (Spells.cons hnext hrest).lineBreak (hfirst hf)
            exact hinline.inline false (List.cons.inj heq).1
          · obtain ⟨skipped, text', bytes', heq, -, -, htext', hbehind⟩ :=
              hrest.behind last hblanks (hrest.indentedHere hcontent)
            have hcontent : content indent last (.lineBreak true :: text) = some out := hcontent
            rw [hbehind] at hcontent
            obtain ⟨out', hout', rfl⟩ := Option.map_eq_some_iff.1 hcontent
            have hle := (htext'.content_length hblanks hout').1
            have hskip := congrArg List.length heq
            have hafter := length_afterLineBreak c tail
            have hnone : lineBreakContent last true (splitLines text').2 = [] := rfl
            rw [hnone] at hlen
            simp only [List.length_append, List.length_cons, List.nil_append] at hskip hlen
            omega
  | false =>
      rw [hf, if_neg Bool.false_ne_true] at hcontent
      constructor
      · rintro ⟨hlen, hne⟩
        obtain ⟨hplain, rfl⟩ := (h.content_length hblanks hcontent).2 hlen
        have hcr : byte '\r' ∈ bytes := by
          by_contra hcr
          exact hne (map_normalized.2 hcr)
        obtain ⟨hindent, hlast⟩ := hplain.noIndent ⟨_, hcr, by decide⟩
        exact ⟨⟨rfl, hlast⟩, hindent, hplain.noSlash, hplain.noReturnNewline, hcr⟩
      · intro hraw
        obtain ⟨-, rfl⟩ := hraw.between
        obtain rfl := hraw.noIndent
        have hlen := h.length_eq hraw.noSlash hraw.noReturnNewline hcontent
        obtain ⟨-, rfl⟩ := (h.content_length hblanks hcontent).2 hlen
        exact ⟨hlen, fun heq => map_normalized.1 heq hraw.carriageReturn⟩

end

end SwiftKStdlib.Parse
