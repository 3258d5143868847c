import SwiftKStdlib.Lexer.Pieces

/-!
# Encoding a segment

* `content_raw`, `content_indented`, `content_empty`, `content_lineBreak` : the content, piece by piece;
* `encodeEscape_decoded`, `encodeEscape_lineBreak`, `encodeNewline_eq` : one iteration of the encoder, by the next piece;
* `iterate_encodingStep` : the loop computes the content;
* `length_content_lt` : escapes and line breaks make it shorter than the text.
-/

namespace SwiftKStdlib.Parse

open Lib

/-! ## The content, piece by piece -/

section

variable {indent out : List UInt8} {last escaped : Bool} {text rest : List Piece} {piece : Piece}

theorem content_nil : content indent last [] = some [] := rfl

theorem content_inline (h : ∀ escaped, piece ≠ .lineBreak escaped) :
    content indent last (piece :: text) = (content indent last text).map (piece.bytes ++ ·) := by
  cases piece with
  | lineBreak escaped => exact absurd rfl (h escaped)
  | raw c =>
      rw [content, content, splitLines, Option.map_map]
      · simp [Function.comp_def]
      · exact fun escaped h => Piece.noConfusion h
  | decoded bytes =>
      rw [content, content, splitLines, Option.map_map]
      · simp [Function.comp_def]
      · exact fun escaped h => Piece.noConfusion h

theorem splitLines_raws (indent : List UInt8) (text : List Piece) :
    splitLines (indent.map .raw ++ text) = (indent.map .raw ++ (splitLines text).1, (splitLines text).2) := by
  induction indent with
  | nil => rfl
  | cons c indent ih =>
      rw [List.map_cons, List.cons_append, splitLines, ih]
      · rfl
      · exact fun escaped h => Piece.noConfusion h

theorem content_indented : content indent last (.lineBreak escaped :: (indent.map .raw ++ text)) =
    (content indent last text).map (lineBreakContent last escaped (splitLines text).2 ++ ·) := by
  have hstrip : stripIndent indent (indent.map .raw ++ (splitLines text).1) = some (splitLines text).1 := by
    rw [stripIndent, if_pos (List.prefix_append _ _), List.drop_left' (List.length_map _)]
  have hline : lineContent indent ⟨escaped, indent.map .raw ++ (splitLines text).1⟩ (splitLines text).2 =
      some (splitLines text).1 := by
    rw [lineContent]
    split_ifs with hempty
    · rw [(List.append_eq_nil_iff.1 hempty.1).2]
    · exact hstrip
  rw [content, content, splitLines, splitLines_raws]
  simp only [linesContent, hline, Option.bind_eq_bind, Option.bind_some, Option.pure_def, Option.map_map]
  cases linesContent indent last (splitLines text).2 <;> rfl

theorem content_empty : content indent last (.lineBreak escaped :: .lineBreak false :: text) =
    (content indent last (.lineBreak false :: text)).map (lineBreakContent last escaped (splitLines (.lineBreak false :: text)).2 ++ ·) := by
  have hline : lineContent indent ⟨escaped, []⟩ (splitLines (.lineBreak false :: text)).2 = some [] := if_pos ⟨rfl, rfl⟩
  rw [content, content, splitLines]
  simp only [linesContent, show (splitLines (.lineBreak false :: text)).1 = [] from rfl, hline, Option.bind_eq_bind,
    Option.bind_some, Option.pure_def, Option.map_map]
  cases linesContent indent last (splitLines (.lineBreak false :: text)).2 <;> rfl

theorem content_lineBreak (h : content indent last (.lineBreak escaped :: text) = some out) :
    (∃ rest, text = .lineBreak false :: rest) ∨ ∃ rest, text = indent.map .raw ++ rest := by
  obtain ⟨out', h, -⟩ := Option.map_eq_some_iff.1 h
  have h : linesContent indent last (⟨escaped, (splitLines text).1⟩ :: (splitLines text).2) = some out' := h
  obtain ⟨line, hline, -⟩ := Option.bind_eq_some_iff.1 h
  rw [lineContent] at hline
  split_ifs at hline with hempty
  · left
    obtain ⟨hnil, hescaped⟩ := hempty
    cases text with
    | nil => cases hescaped
    | cons piece text =>
        cases piece with
        | lineBreak escaped =>
            cases escaped with
            | false => exact ⟨text, rfl⟩
            | true => cases hescaped
        | raw c => cases hnil
        | decoded bytes => cases hnil
  · right
    rw [stripIndent] at hline
    split_ifs at hline with hprefix
    have hsplit : ∀ text : List Piece, (splitLines text).1 <+: text := by
      intro text
      induction text with
      | nil => exact List.prefix_rfl
      | cons piece text ih =>
          cases piece with
          | lineBreak => exact List.nil_prefix
          | raw c => exact List.prefix_cons_inj _ |>.2 ih
          | decoded bytes => exact List.prefix_cons_inj _ |>.2 ih
    obtain ⟨rest, hrest⟩ := hprefix.trans (hsplit text)
    exact ⟨rest, hrest.symm⟩

end

namespace Buffer

variable {b : Buffer} {p q r stop : Nat} {segment : StringSegment} {temp : List UInt8} {escaped : Bool}

/-! ## One iteration -/

theorem encodingStep_raw (hp : p < segment.loc + segment.length) (hsize : p ≤ b.size)
    (hnewline : isNewline (b.byteAt p) = false) (hslash : b.byteAt p ≠ byte '\\') :
    b.encodingStep segment ⟨p, temp, escaped⟩ = some (.next ⟨p + 1, temp ++ [b.byteAt p], escaped⟩) := by
  rw [encodingStep]
  simp only [if_neg (not_le.2 hp), read_eq hsize, Option.bind_eq_bind, Option.bind_some, hnewline, Bool.false_eq_true,
    if_false, if_neg hslash]
  rfl

theorem encodingStep_slash (hp : p < segment.loc + segment.length) (hsize : p ≤ b.size) (hslash : b.byteAt p = byte '\\') :
    b.encodingStep segment ⟨p, temp, escaped⟩ = (b.encodeEscape ⟨p, temp, escaped⟩).map .next := by
  have hnewline : isNewline (byte '\\') = false := by decide
  rw [encodingStep]
  simp only [if_neg (not_le.2 hp), read_eq hsize, Option.bind_eq_bind, Option.bind_some, hslash, hnewline,
    Bool.false_eq_true, if_false, if_true, Option.pure_def]
  cases b.encodeEscape ⟨p, temp, escaped⟩ <;> rfl

theorem encodeEscape_simple {v : Nat} (hsize : p + 1 ≤ b.size) (h : simpleEscape (b.byteAt (p + 1)) = some v) :
    b.encodeEscape ⟨p, temp, escaped⟩ = some ⟨p + 2, temp ++ [UInt8.ofNat v], escaped⟩ := by
  obtain ⟨hblank, hu, hparen, -⟩ := simpleEscape_class _ (Option.isSome_iff_exists.2 ⟨v, h⟩)
  rw [Bool.or_eq_false_iff] at hblank
  rw [encodeEscape]
  simp only [read_eq hsize, Option.bind_eq_bind, Option.bind_some, hblank.1, hblank.2, Bool.false_eq_true, or_self,
    if_false, if_neg hu, if_neg hparen, h]
  rfl

theorem lexUnicodeEscape_eq (hr : r < b.size) (hlt : p + 1 < r) (hle : r ≤ p + 9) (hopen : b.byteAt p = byte '{')
    (hall : b.AllBytes isHexDigit (p + 1) r) (hclose : b.byteAt r = byte '}') :
    b.lexUnicodeEscape p = some (some (hexNumber (b.text (p + 1) r)), r + 1) := by
  have hstop : isHexDigit (b.byteAt r) = false := by
    rw [hclose]
    decide
  rw [lexUnicodeEscape]
  simp only [read_eq (show p ≤ b.size by omega), Option.bind_eq_bind, Option.bind_some, guard, if_pos hopen,
    scanWhile_eq hlt.le hr.le hall hstop (by decide), read_eq hr.le, hclose, ne_eq, not_true_eq_false, if_false,
    if_neg (show ¬ (r - (p + 1) < 1 ∨ 8 < r - (p + 1)) by omega), Option.pure_def]
  rfl

theorem encodeEscape_unicode (hr : r < b.size) (hlt : p + 3 < r) (hle : r ≤ p + 11) (hu : b.byteAt (p + 1) = byte 'u')
    (hopen : b.byteAt (p + 2) = byte '{') (hall : b.AllBytes isHexDigit (p + 3) r) (hclose : b.byteAt r = byte '}')
    (hvalue : encodeToUTF8Fails (hexNumber (b.text (p + 3) r)) = false) :
    b.encodeEscape ⟨p, temp, escaped⟩ = some ⟨r + 1, temp ++ utf8 (hexNumber (b.text (p + 3) r)), escaped⟩ := by
  have hclass : isIndent (byte 'u') = false ∧ isNewline (byte 'u') = false ∧ byte 'u' ≠ byte '(' := by decide
  have hlex := lexUnicodeEscape_eq (p := p + 2) hr hlt hle hopen hall hclose
  rw [encodeEscape]
  simp only [read_eq (show p + 1 ≤ b.size by omega), read_eq (show p + 1 + 1 ≤ b.size by omega), Option.bind_eq_bind,
    Option.bind_some, hu, hclass, Bool.false_eq_true, or_self, if_false, if_true, hopen, ne_eq, not_true_eq_false, hlex,
    utf8_eq hvalue]
  rfl

theorem encodeEscape_lineBreak (hr : r < b.size) (hle : p + 1 ≤ r) (hblanks : b.AllBytes isIndent (p + 1) r)
    (hnewline : isNewline (b.byteAt r)) :
    b.encodeEscape ⟨p, temp, escaped⟩ = some ⟨b.lineBreakEnd r - 1, temp, true⟩ := by
  have hnot : ∀ c : UInt8, isNewline c → (c = byte ' ' || c = byte '\t') = false := forall_byte (by decide +kernel)
  have hblank : isIndent (b.byteAt (p + 1)) = true ∨ isNewline (b.byteAt (p + 1)) = true := by
    rcases hle.eq_or_lt with rfl | hlt
    · exact .inr hnewline
    · exact .inl (hblanks _ le_rfl hlt)
  have hescape : b.maybeConsumeNewlineEscape (p + 1) = some (some (b.lineBreakEnd r)) := by
    have hne : byte '\n' ≠ byte '\r' := by decide
    have hscan : b.scanWhile (fun c => c = byte ' ' || c = byte '\t') (p + 1) = some r :=
      scanWhile_eq hle hr.le hblanks (hnot _ hnewline) (by decide)
    rw [maybeConsumeNewlineEscape, hscan]
    simp only [read_eq hr.le, Option.bind_eq_bind, Option.bind_some, lineBreakEnd]
    rcases (isNewline_iff _).1 hnewline with hlf | hcr
    · simp [hlf, hne]
    · simp only [hcr, if_true, read_eq (show r + 1 ≤ b.size from hr), Option.bind_some, true_and]
      rfl
  rw [encodeEscape]
  simp only [read_eq (show p + 1 ≤ b.size by omega), Option.bind_eq_bind, Option.bind_some, if_pos hblank, hescape]
  rfl

theorem encodingStep_newline {next : Nat} (hp : p < segment.loc + segment.length) (hsize : b.lineBreakEnd p ≤ b.size)
    (hnewline : isNewline (b.byteAt p)) (hnext : next =
      if isNewline (b.byteAt (b.lineBreakEnd p)) then b.lineBreakEnd p else b.lineBreakEnd p + segment.indentToStrip) :
    b.encodingStep segment ⟨p, temp, escaped⟩ = some (.next ⟨next,
      if escaped || segment.isFirstSegment && p = segment.loc || segment.isLastSegment && next = segment.loc + segment.length
        then temp else temp ++ [byte '\n'], false⟩) := by
  have hlt := b.lt_lineBreakEnd p
  have hstep : b.encodeNewline segment (b.byteAt p) ⟨p, temp, escaped⟩ = some ⟨next,
      if escaped || segment.isFirstSegment && p = segment.loc || segment.isLastSegment && next = segment.loc + segment.length
        then temp else temp ++ [byte '\n'], false⟩ := by
    have hcursor : (if b.byteAt p = byte '\r' ∧ b.byteAt (p + 1) = byte '\n' then p + 1 + 1 else p + 1) = b.lineBreakEnd p := rfl
    rw [encodeNewline]
    simp only [read_eq (show p + 1 ≤ b.size by omega), Option.bind_eq_bind, Option.bind_some, hcursor, read_eq hsize,
      ← hnext, Option.pure_def]
  rw [encodingStep]
  simp only [if_neg (not_le.2 hp), read_eq (show p ≤ b.size by omega), Option.bind_eq_bind, Option.bind_some,
    if_pos hnewline, hstep, Option.pure_def]

/-! ## The loop -/

/-- A segment of literal text in a buffer: no newline follows it, and behind the last newline of the last segment there
is the indentation. -/
structure Encodable (b : Buffer) (segment : StringSegment) (indent : List UInt8) : Prop where
  size : segment.loc + segment.length ≤ b.size
  stop : isNewline (b.byteAt (segment.loc + segment.length)) = false
  indentToStrip : segment.indentToStrip = indent.length
  blanks : ∀ c ∈ indent, isIndent c
  closing : segment.isLastSegment = true → ∀ k, segment.loc ≤ k → k < segment.loc + segment.length →
    isNewline (b.byteAt k) → (∀ j, k < j → j < segment.loc + segment.length → isNewline (b.byteAt j) = false) →
    b.text (k + 1) (segment.loc + segment.length) = indent

end Buffer

theorem Spells.noNewline {text : List Piece} {bytes : List UInt8} (h : Spells text bytes) (hlines : (splitLines text).2 = []) :
    ∀ c ∈ bytes, isNewline c = false := by
  have hslash : isNewline (byte '\\') = false ∧ isNewline (byte 'u') = false ∧ isNewline (byte '{') = false ∧
      isNewline (byte '}') = false := by decide
  have hhex : ∀ c : UInt8, isHexDigit c → isNewline c = false := forall_byte (by decide +kernel)
  induction h with
  | nil => exact fun c hc => absurd hc List.not_mem_nil
  | cons h _ ih =>
      cases h with
      | raw hnewline => exact List.forall_mem_cons.2 ⟨hnewline, ih hlines⟩
      | lineBreak => cases hlines
      | simple h =>
          have hclass := (Buffer.simpleEscape_class _ (Option.isSome_iff_exists.2 ⟨_, h⟩)).1
          exact List.forall_mem_cons.2 ⟨hslash.1, List.forall_mem_cons.2 ⟨(Bool.or_eq_false_iff.1 hclass).2, ih hlines⟩⟩
      | unicode hdigits =>
          refine List.forall_mem_cons.2 ⟨hslash.1, List.forall_mem_cons.2 ⟨hslash.2.1, List.forall_mem_cons.2
            ⟨hslash.2.2.1, List.forall_mem_append.2 ⟨fun c hc => hhex c (hdigits c hc), ?_⟩⟩⟩⟩
          exact List.forall_mem_cons.2 ⟨hslash.2.2.2, ih hlines⟩
      | escapedBreak => cases hlines

theorem Spells.unraws {front bytes : List UInt8} {text : List Piece} (h : Spells (front.map .raw ++ text) bytes) :
    ∃ rest, bytes = front ++ rest ∧ Spells text rest := by
  induction front generalizing bytes with
  | nil => exact ⟨bytes, rfl, h⟩
  | cons c front ih =>
      cases h with
      | cons hnext hrest =>
          cases hnext with
          | raw =>
              obtain ⟨rest, rfl, htext⟩ := ih hrest
              exact ⟨rest, rfl, htext⟩

theorem Spells.eq_nil {text : List Piece} (h : Spells text []) : text = [] := by
  cases h with
  | nil => rfl
  | cons hnext _ => exact absurd hnext.length_lt (Nat.not_lt_zero _)

namespace Buffer

variable {b : Buffer} {p q r stop fuel : Nat} {segment : StringSegment} {indent temp out : List UInt8} {escaped : Bool}
  {text : List Piece}

/-- Behind a line break the content goes on after the indentation. -/
theorem Encodable.behind (hs : b.Encodable segment indent) (hp : p < segment.loc + segment.length) (hloc : segment.loc ≤ p)
    (hnewline : isNewline (b.byteAt p))
    (htext : Spells text (b.text (b.lineBreakEnd p) (segment.loc + segment.length)))
    (hcontent : content indent segment.isLastSegment (.lineBreak escaped :: text) = some out) :
    ∃ next text' out', (b.lineBreakEnd p ≤ next ∧ next ≤ segment.loc + segment.length) ∧
      (next = if isNewline (b.byteAt (b.lineBreakEnd p)) then b.lineBreakEnd p else b.lineBreakEnd p + segment.indentToStrip) ∧
      Spells text' (b.text next (segment.loc + segment.length)) ∧
      content indent segment.isLastSegment text' = some out' ∧
      out = (if escaped || segment.isLastSegment && next = segment.loc + segment.length then [] else [byte '\n']) ++ out' := by
  have hsize := hs.size
  have hle := lineBreakEnd_le hp hs.stop
  have hlt := b.lt_lineBreakEnd p
  rcases content_lineBreak hcontent with ⟨rest, rfl⟩ | ⟨rest, rfl⟩
  · rw [content_empty] at hcontent
    obtain ⟨out', hout', rfl⟩ := Option.map_eq_some_iff.1 hcontent
    have hempty : b.lineBreakEnd p < segment.loc + segment.length ∧ isNewline (b.byteAt (b.lineBreakEnd p)) = true := by
      generalize hbytes : b.text (b.lineBreakEnd p) (segment.loc + segment.length) = bytes at htext
      cases htext with
      | cons hnext _ =>
          cases hnext with
          | lineBreak hnewline =>
              obtain ⟨hlt, rfl, -⟩ := (text_eq_cons hle hsize).1 hbytes
              exact ⟨hlt, hnewline⟩
    refine ⟨b.lineBreakEnd p, _, out', ⟨le_rfl, hle⟩, (if_pos hempty.2).symm, htext, hout', ?_⟩
    rw [lineBreakContent]
    simp [splitLines, hempty.1.ne]
  · rw [content_indented] at hcontent
    obtain ⟨out', hout', rfl⟩ := Option.map_eq_some_iff.1 hcontent
    obtain ⟨bytes, hbytes, hrest⟩ := htext.unraws
    obtain ⟨m, hm, hm', hindent, rfl⟩ := text_split hle hsize hbytes
    have hlen : m - b.lineBreakEnd p = indent.length := by rw [← hindent, length_text (by omega)]
    have hblank : ∀ k, b.lineBreakEnd p ≤ k → k < m → isNewline (b.byteAt k) = false := by
      intro k hk hk'
      have hclass : ∀ c : UInt8, isIndent c → isNewline c = false := forall_byte (by decide +kernel)
      refine hclass _ (hs.blanks _ ?_)
      rw [← hindent]
      exact mem_text_of hk hk' (by omega)
    refine ⟨m, rest, out', ⟨hm, hm'⟩, ?_, hrest, hout', ?_⟩
    · rw [hs.indentToStrip]
      split_ifs with hnext
      · by_contra hne
        exact Bool.false_ne_true ((hblank _ le_rfl (by omega)).symm.trans hnext)
      · omega
    · -- The last line break is the one that the closing line follows.
      have hlast : segment.isLastSegment = true → ((splitLines rest).2 = [] ↔ m = segment.loc + segment.length) := by
        intro hlast
        constructor
        · intro hlines
          have hnone := hrest.noNewline hlines
          have hclosing := hs.closing hlast (b.lineBreakEnd p - 1) (by omega) (by omega) (isNewline_lineBreakEnd hnewline)
            (fun j hj hj' => by
              rcases lt_or_ge j m with hjm | hjm
              · exact hblank j (by omega) hjm
              · exact hnone _ (mem_text_of hjm hj' hsize))
          rw [show b.lineBreakEnd p - 1 + 1 = b.lineBreakEnd p by omega] at hclosing
          have := congrArg List.length hclosing
          rw [length_text hsize] at this
          omega
        · rintro rfl
          rw [text_self] at hrest
          rw [hrest.eq_nil]
          rfl
      rw [lineBreakContent]
      cases hl : segment.isLastSegment with
      | false => simp
      | true => simp [hlast hl]

theorem iterate_encodingStep (hs : b.Encodable segment indent) (hloc : segment.loc ≤ p) (hp : p ≤ segment.loc + segment.length)
    (hfirst : segment.isFirstSegment = true → p = segment.loc → isNewline (b.byteAt p) = false)
    (htext : Spells text (b.text p (segment.loc + segment.length)))
    (hcontent : content indent segment.isLastSegment text = some out) (hfuel : segment.loc + segment.length - p < fuel) :
    iterate (b.encodingStep segment) fuel ⟨p, temp, false⟩ = some (temp ++ out) := by
  have hsize := hs.size
  induction fuel using Nat.strong_induction_on generalizing p temp text out with
  | _ fuel ih =>
    obtain ⟨fuel, rfl⟩ : ∃ k, fuel = k + 1 := ⟨fuel - 1, by omega⟩
    -- Over a line break, from the cursor at its last newline.
    have hbreak : ∀ {k : Nat} {escaped : Bool} {text : List Piece} {out : List UInt8} {more : Nat}, p ≤ k →
        k < segment.loc + segment.length → isNewline (b.byteAt k) →
        (escaped = false → segment.isFirstSegment = true → k ≠ segment.loc) →
        Spells text (b.text (b.lineBreakEnd k) (segment.loc + segment.length)) →
        content indent segment.isLastSegment (.lineBreak escaped :: text) = some out → more ≤ fuel →
        segment.loc + segment.length - k ≤ more →
        iterate (b.encodingStep segment) (more + 1) ⟨k, temp, escaped⟩ = some (temp ++ out) := by
      intro k escaped text out more hpk hk hnewline hnot htext hcontent hmore hleft
      have hle := lineBreakEnd_le hk hs.stop
      have hlt := b.lt_lineBreakEnd k
      obtain ⟨next, text', out', hbounds, hnext, htext', hout', rfl⟩ := hs.behind hk (by omega) hnewline htext hcontent
      rw [iterate_next (encodingStep_newline hk (by omega) hnewline hnext)]
      have hflag : (escaped || segment.isFirstSegment && k = segment.loc) = escaped := by
        cases escaped with
        | true => rfl
        | false => simpa using hnot rfl
      rw [hflag]
      rw [ih more (by omega) (by omega) (by omega) (by omega) htext' hout' (by omega)]
      split_ifs <;> simp
    generalize hbytes : b.text p (segment.loc + segment.length) = bytes at htext
    cases htext with
    | nil =>
        have hlen := congrArg List.length hbytes
        rw [length_text hsize, List.length_nil] at hlen
        obtain rfl := Option.some.inj hcontent
        have hstep : b.encodingStep segment ⟨p, temp, false⟩ = some (.done temp) :=
          if_pos (show segment.loc + segment.length ≤ p by omega)
        rw [iterate_done hstep]
        exact congrArg some (List.append_nil temp).symm
    | cons hnext hrest =>
        cases hnext with
        | raw hnewline hslash =>
            obtain ⟨hlt, rfl, rfl⟩ := (text_eq_cons hp hsize).1 hbytes
            rw [content_inline fun _ h => Piece.noConfusion h] at hcontent
            obtain ⟨out', hout', rfl⟩ := Option.map_eq_some_iff.1 hcontent
            rw [iterate_next (encodingStep_raw hlt (by omega) hnewline hslash),
              ih fuel (by omega) (by omega) hlt (by omega) hrest hout' (by omega), List.append_assoc]
            rfl
        | lineBreak hnewline =>
            obtain ⟨hlt, rfl, rfl⟩ := (text_eq_cons hp hsize).1 hbytes
            rw [afterLineBreak_text hlt hsize hs.stop] at hrest
            exact hbreak le_rfl hlt hnewline (fun _ hf hk => Bool.false_ne_true ((hfirst hf hk).symm.trans hnewline)) hrest
              hcontent le_rfl (by omega)
        | @simple d v rest h =>
            obtain ⟨hlt, hslash, hbytes⟩ := (text_eq_cons hp hsize).1 hbytes
            obtain ⟨hlt', rfl, rfl⟩ := (text_eq_cons hlt hsize).1 hbytes
            rw [content_inline fun _ h => Piece.noConfusion h] at hcontent
            obtain ⟨out', hout', rfl⟩ := Option.map_eq_some_iff.1 hcontent
            have hstep : b.encodingStep segment ⟨p, temp, false⟩ = some (.next ⟨p + 2, temp ++ [UInt8.ofNat v], false⟩) := by
              rw [encodingStep_slash hlt (by omega) hslash, encodeEscape_simple (by omega) h]
              rfl
            rw [iterate_next hstep, ih fuel (by omega) (by omega) hlt' (by omega) hrest hout' (by omega), List.append_assoc]
            rfl
        | @unicode digits rest hdigits h1 h8 hvalue =>
            obtain ⟨hlt, hslash, hbytes⟩ := (text_eq_cons hp hsize).1 hbytes
            obtain ⟨hlt', hu, hbytes⟩ := (text_eq_cons hlt hsize).1 hbytes
            obtain ⟨hlt'', hopen, hbytes⟩ := (text_eq_cons hlt' hsize).1 hbytes
            obtain ⟨r, hr, hr', rfl, hclosing⟩ := text_split hlt'' hsize hbytes
            obtain ⟨hr₁, hclose, rfl⟩ := (text_eq_cons hr' hsize).1 hclosing
            rw [length_text (by omega)] at h1 h8
            rw [content_inline fun _ h => Piece.noConfusion h] at hcontent
            obtain ⟨out', hout', rfl⟩ := Option.map_eq_some_iff.1 hcontent
            have hstep : b.encodingStep segment ⟨p, temp, false⟩ =
                some (.next ⟨r + 1, temp ++ utf8 (hexNumber (b.text (p + 3) r)), false⟩) := by
              rw [encodingStep_slash hlt (by omega) hslash, encodeEscape_unicode (by omega) (by omega) (by omega) hu hopen
                (fun k hk hk' => hdigits _ (mem_text_of hk hk' (by omega))) hclose hvalue]
              rfl
            rw [iterate_next hstep, ih fuel (by omega) (by omega) hr₁ (by omega) hrest hout' (by omega), List.append_assoc]
            rfl
        | @escapedBreak blanks rest c hblanks hnewline =>
            obtain ⟨hlt, hslash, hbytes⟩ := (text_eq_cons hp hsize).1 hbytes
            obtain ⟨r, hr, hr', rfl, hbreaking⟩ := text_split hlt hsize hbytes
            obtain ⟨hlt', rfl, rfl⟩ := (text_eq_cons hr' hsize).1 hbreaking
            rw [afterLineBreak_text hlt' hsize hs.stop] at hrest
            have hle := lineBreakEnd_le hlt' hs.stop
            have hge := b.lt_lineBreakEnd r
            have hlast := lineBreakEnd_last b r
            have hstep : b.encodingStep segment ⟨p, temp, false⟩ = some (.next ⟨b.lineBreakEnd r - 1, temp, true⟩) := by
              rw [encodingStep_slash hlt (by omega) hslash, encodeEscape_lineBreak (by omega) hr
                (fun k hk hk' => hblanks _ (mem_text_of hk hk' (by omega))) hnewline]
              rfl
            obtain ⟨more, rfl⟩ : ∃ k, fuel = k + 1 := ⟨fuel - 1, by omega⟩
            rw [iterate_next hstep]
            exact hbreak (by omega) (by omega) (isNewline_lineBreakEnd hnewline) (fun h => by cases h) (hlast.symm ▸ hrest)
              hcontent (by omega) (by omega)

/-- The segment itself when its content is as long, and its content otherwise. -/
theorem getEncodedStringSegment_eq (hs : b.Encodable segment indent)
    (htext : Spells text (b.text segment.loc (segment.loc + segment.length)))
    (hcontent : content indent segment.isLastSegment (if segment.isFirstSegment then dropFirstLineBreak text else text) =
      some out) :
    b.getEncodedStringSegment segment = some (if out.length = segment.length then
      b.text segment.loc (segment.loc + segment.length) else out) := by
  have hsize := hs.size
  suffices hloop : iterate (b.encodingStep segment) b.fuel ⟨segment.loc, [], false⟩ = some out by
    rw [getEncodedStringSegment, hloop]
    rfl
  by_cases hfirst : segment.isFirstSegment = true ∧ segment.loc < segment.loc + segment.length ∧
      isNewline (b.byteAt segment.loc) = true
  · obtain ⟨hfirst, hlt, hnewline⟩ := hfirst
    generalize hbytes : b.text segment.loc (segment.loc + segment.length) = bytes at htext
    rw [if_pos hfirst] at hcontent
    cases htext with
    | nil => exact absurd ((text_cons hlt hsize).symm.trans hbytes) (List.cons_ne_nil _ _)
    | @cons piece text bytes rest hnext hrest =>
        have hslash : isNewline (byte '\\') = false := by decide
        have hlineBreak : ∃ c tail, bytes = c :: tail ∧ isNewline c = true := ⟨_, _, hbytes.symm.trans (text_cons hlt hsize), hnewline⟩
        obtain ⟨c, tail, rfl, hc⟩ := hlineBreak
        obtain ⟨-, rfl, rfl⟩ := (text_eq_cons hlt.le hsize).1 hbytes
        have hpiece : piece = .lineBreak false ∧
            rest = afterLineBreak (b.byteAt segment.loc) (b.text (segment.loc + 1) (segment.loc + segment.length)) := by
          generalize b.byteAt segment.loc = c at hnext hc
          generalize b.text (segment.loc + 1) (segment.loc + segment.length) = tail at hnext
          cases hnext with
          | raw hnot => exact absurd (hnot.symm.trans hc) Bool.false_ne_true
          | lineBreak => exact ⟨rfl, rfl⟩
          | simple => exact absurd (hslash.symm.trans hc) Bool.false_ne_true
          | unicode => exact absurd (hslash.symm.trans hc) Bool.false_ne_true
          | escapedBreak => exact absurd (hslash.symm.trans hc) Bool.false_ne_true
        obtain ⟨rfl, rfl⟩ := hpiece
        rw [afterLineBreak_text hlt hsize hs.stop] at hrest
        have hle := lineBreakEnd_le hlt hs.stop
        have hge := b.lt_lineBreakEnd segment.loc
        obtain ⟨next, text', out', hbounds, hnext', htext', hout', rfl⟩ := hs.behind hlt le_rfl hnewline hrest hcontent
        rw [fuel, iterate_next (encodingStep_newline hlt (by omega) hnewline hnext'),
          iterate_encodingStep hs (by omega) hbounds.2 (by omega) htext' hout' (by omega)]
        simp [hfirst]
  · have hnotFirst : segment.isFirstSegment = true → segment.loc = segment.loc → isNewline (b.byteAt segment.loc) = false := by
      intro hf _
      by_cases hlt : segment.loc < segment.loc + segment.length
      · exact Bool.eq_false_iff.2 fun hnewline => hfirst ⟨hf, hlt, hnewline⟩
      · have hstop := hs.stop
        rwa [show segment.loc + segment.length = segment.loc by omega] at hstop
    have hsame : (if segment.isFirstSegment then dropFirstLineBreak text else text) = text := by
      split_ifs with hf
      · generalize hbytes : b.text segment.loc (segment.loc + segment.length) = bytes at htext
        cases htext with
        | nil => rfl
        | cons hnext _ =>
            cases hnext with
            | lineBreak hnewline =>
                obtain ⟨-, rfl, -⟩ := (text_eq_cons (Nat.le_add_right _ _) hsize).1 hbytes
                exact absurd ((hnotFirst hf rfl).symm.trans hnewline) Bool.false_ne_true
            | raw => rfl
            | simple => rfl
            | unicode => rfl
            | escapedBreak => rfl
      · rfl
    rw [hsame] at hcontent
    rw [iterate_encodingStep hs le_rfl (Nat.le_add_right _ _) hnotFirst htext hcontent (by rw [fuel]; omega)]
    rfl

end Buffer

end SwiftKStdlib.Parse
