import SwiftKStdlib.Lexer.Indentation

/-!
# The content of a multi-line literal

* `contentOf` : what the literal text of a token stands for;
* `EncodesContent` : the encoded segments, one after the other, are the content, and nothing else is read;
* `NormalizesReturns` : every CR of the literal text is one that the encoder replaces;
* `SilentSegment` : a segment of literal text in a literal about which nothing is diagnosed;
* `encodesContent_iff` : the segments encode the content exactly where every CR is replaced.
-/

namespace SwiftKStdlib.Parse

open Lib

namespace Buffer

def segmentText (b : Buffer) (segment : StringSegment) : List UInt8 := b.text segment.loc (segment.loc + segment.length)

/-- The content of the literal text; its first and its last segment are those of the literal. -/
def contentOf (b : Buffer) (indent : List UInt8) : Bool → List StringSegment → Option (List UInt8)
  | _, [] => some []
  | isFirstSegment, segment :: rest =>
    match segment.kind with
    | .expr => contentOf b indent isFirstSegment rest
    | .literal => do
      let content ← segmentContent indent isFirstSegment rest.isEmpty (b.segmentText segment)
      return content ++ (← contentOf b indent false rest)

/-- The encoded segments of literal text, one after the other. -/
def encodedContent (b : Buffer) : List StringSegment → Option (List UInt8)
  | [] => some []
  | segment :: rest =>
    match segment.kind with
    | .expr => b.encodedContent rest
    | .literal => do
      let bytes ← b.getEncodedStringSegment segment
      return bytes ++ (← b.encodedContent rest)

/-- The encoded segments of the token are its content, without a byte from outside. -/
structure EncodesSegments (b : Buffer) (start stop : Nat) (segments : List StringSegment) : Prop where
  encodes : ∃ content, b.contentOf (closingIndent (b.text start stop)) true segments = some content ∧
    b.encodedContent segments = some content
  /-- A segment of literal text is encoded in the same way when there is nothing but the segment. -/
  isolated : ∀ segment ∈ segments, segment.kind = .literal →
    (start ≤ segment.loc ∧ segment.loc + segment.length ≤ stop) ∧
      (Buffer.mk (b.segmentText segment)).getEncodedStringSegment { segment with loc := 0 } =
        b.getEncodedStringSegment segment

def EncodesContent (b : Buffer) (str : Token) : Prop :=
  ∃ start stop segments, getStringLiteralContent str = some (start, stop) ∧
    b.getStringLiteralSegments str = some segments ∧ b.EncodesSegments start stop segments

/-- Every line behind a CR is empty or begins with the indentation, and the bytes are not returned as they are. -/
structure NormalizesReturnsOf (indent : List UInt8) (isFirstSegment isLastSegment : Bool) (bytes : List UInt8) : Prop where
  lines : IndentedBehind (byte '\r') indent bytes
  notRaw : ¬ ReturnsRaw indent isFirstSegment isLastSegment bytes

def NormalizesReturns (b : Buffer) (str : Token) : Prop :=
  ∀ start stop segments, getStringLiteralContent str = some (start, stop) →
    b.Segmented (byte '"') true (closingIndent (b.text start stop)).length stop true start segments →
    ∀ segment ∈ segments, segment.kind = .literal →
      NormalizesReturnsOf (closingIndent (b.text start stop)) segment.isFirstSegment segment.isLastSegment
        (b.segmentText segment)

/-! ## Segments of a silent literal -/

structure SilentSegment (b : Buffer) (start stop : Nat) (indent : List UInt8) (segment : StringSegment) : Prop where
  range : start ≤ segment.loc ∧ segment.loc + segment.length ≤ stop
  encodable : b.Encodable segment indent
  spells : ∃ text, Spells text (b.segmentText segment)
  lines : IndentedBehind (byte '\n') indent (b.segmentText segment)
  begins : segment.isFirstSegment = true → (b.segmentText segment).head?.any isNewline

/-- The content of a literal about which nothing is diagnosed. -/
structure SilentContent (b : Buffer) (start stop : Nat) (indent : List UInt8) : Prop where
  size : stop ≤ b.size
  closing : ∃ i, b.ClosingLine start stop i ∧ b.text i stop = indent
  begins : isNewline (b.byteAt start)
  ends : b.byteAt stop = byte '"'
  lines : ∀ k, start ≤ k → k < stop → b.byteAt k = byte '\n' → IndentedHere indent (b.text (k + 1) stop)

section

variable {b : Buffer} {start stop p m : Nat} {indent : List UInt8} {quote : UInt8} {first last : Bool}
  {segment : StringSegment}

theorem SilentContent.blanks (h : b.SilentContent start stop indent) : ∀ c ∈ indent, isIndent c := by
  obtain ⟨i, hclosing, rfl⟩ := h.closing
  exact hclosing.text_blanks h.size

theorem SilentContent.closingIndent_eq (h : b.SilentContent start stop indent) :
    closingIndent (b.text start stop) = indent := by
  obtain ⟨i, hclosing, rfl⟩ := h.closing
  exact hclosing.closingIndent_eq h.size

theorem SilentContent.behind_last (h : b.SilentContent start stop indent) {k : Nat} (hk : k < stop)
    (hnewline : isNewline (b.byteAt k)) (hlast : ∀ j, k < j → j < stop → isNewline (b.byteAt j) = false) :
    b.text (k + 1) stop = indent := by
  obtain ⟨i, hclosing, rfl⟩ := h.closing
  have hlt := hclosing.lt
  have hle := hclosing.le
  have hclass : ∀ c : UInt8, isIndent c → isNewline c = false := forall_byte (by decide +kernel)
  have hki : k < i := by
    by_contra hge
    exact Bool.false_ne_true ((hclass _ (hclosing.blanks k (by omega) hk)).symm.trans hnewline)
  have hik : i - 1 ≤ k := by
    by_contra hgt
    exact Bool.false_ne_true ((hlast (i - 1) (by omega) (by omega)).symm.trans hclosing.newline)
  rw [show k + 1 = i by omega]

theorem SilentContent.linesOf (h : b.SilentContent start stop indent) (hp : start ≤ p) (hm : m ≤ stop)
    (hend : isNewline (b.byteAt m) = false) (hblank : m < stop → isIndent (b.byteAt m) = false) :
    IndentedBehind (byte '\n') indent (b.text p m) := by
  intro x rest heq _
  have hsize := h.size
  rcases le_or_gt p m with hpm | hpm
  · obtain ⟨k, hk, hk', -, hrest⟩ := text_split hpm (hm.trans h.size) heq
    obtain ⟨hkm, hbyte, rfl⟩ := (text_eq_cons hk' (hm.trans h.size)).1 hrest
    rcases h.lines k (by omega) (by omega) hbyte with hempty | hindent
    · have hnext : k + 1 < m := by
        by_contra hge
        obtain rfl : m = k + 1 := by omega
        rcases hm.eq_or_lt with rfl | hlt
        · rw [text_self] at hempty
          cases hempty
        · rw [text_cons hlt hsize] at hempty
          exact Bool.false_ne_true (hend.symm.trans hempty)
      rw [text_cons (show k + 1 < stop by omega) hsize] at hempty
      rw [text_cons hnext (by omega)]
      exact .inl hempty
    · right
      obtain ⟨rest, hrest⟩ := hindent
      obtain ⟨r, hr, hr', htext, -⟩ := text_split (show k + 1 ≤ stop by omega) hsize hrest.symm
      have hrm : r ≤ m := by
        by_contra hgt
        have hmem := h.blanks _ (htext ▸ mem_text_of (show k + 1 ≤ m by omega) (show m < r by omega) (by omega))
        exact Bool.false_ne_true ((hblank (by omega)).symm.trans hmem)
      rw [text_append hr hrm, htext]
      exact List.prefix_append _ _
  · rw [text, Nat.sub_eq_zero_of_le hpm.le, List.take_zero] at heq
    exact absurd heq.symm (by simp)

theorem SilentContent.silentSegment (h : b.SilentContent start stop indent) (hp : start ≤ p) (htext : b.LiteralText quote true p m)
    (hend : (last = true ∧ m = stop) ∨ (last = false ∧ m ≤ stop ∧ b.byteAt m = byte '\\'))
    (hfirst : first = true → p = start) :
    b.SilentSegment start stop indent (.getLiteral p (m - p) first last indent.length) := by
  have hsize := h.size
  have hpm := htext.le
  have hlen : p + (m - p) = m := by omega
  have hm : m ≤ stop := by
    rcases hend with ⟨-, rfl⟩ | ⟨-, hm, -⟩
    · exact le_rfl
    · exact hm
  have hquiet : isNewline (b.byteAt m) = false ∧ isIndent (b.byteAt m) = false := by
    rcases hend with ⟨-, rfl⟩ | ⟨-, -, hslash⟩
    · rw [h.ends]
      decide
    · rw [hslash]
      decide
  refine ⟨?_, ⟨?_, ?_, rfl, h.blanks, ?_⟩, ?_, ?_, ?_⟩
  · simp only [StringSegment.getLiteral, hlen]
    exact ⟨hp, hm⟩
  · simp only [StringSegment.getLiteral, hlen]
    omega
  · simp only [StringSegment.getLiteral, hlen]
    exact hquiet.1
  · intro hlast k hk hk' hnewline hnone
    simp only [StringSegment.getLiteral, hlen] at hlast hk hk' hnone ⊢
    rcases hend with ⟨-, rfl⟩ | ⟨hnot, -⟩
    · exact h.behind_last hk' hnewline hnone
    · exact absurd (hnot.symm.trans hlast) Bool.false_ne_true
  · simp only [segmentText, StringSegment.getLiteral, hlen]
    exact htext.spells (by omega) hquiet.1
  · simp only [segmentText, StringSegment.getLiteral, hlen]
    exact h.linesOf hp hm hquiet.1 fun _ => hquiet.2
  · simp only [segmentText, StringSegment.getLiteral, hlen]
    intro hf
    obtain rfl := hfirst hf
    have hlt : p < m := by
      refine lt_of_le_of_ne hpm ?_
      rintro rfl
      exact Bool.false_ne_true (hquiet.1.symm.trans h.begins)
    rw [text_cons hlt (by omega)]
    exact h.begins

theorem SilentContent.segments (h : b.SilentContent start stop indent) {segments : List StringSegment} (hp : start ≤ p)
    (hfirst : first = true → p = start) (hsegments : b.Segmented quote true indent.length stop first p segments) :
    ∀ segment ∈ segments, segment.kind = .literal → b.SilentSegment start stop indent segment := by
  induction hsegments with
  | last text =>
      intro segment hmem _
      obtain rfl := List.mem_singleton.1 hmem
      exact h.silentSegment hp text (.inl ⟨rfl, rfl⟩) hfirst
  | interpolation text hslash hparen _ hle rest ih =>
      have htext := text.le
      have hrest := rest.le
      intro segment hmem hkind
      rcases List.mem_cons.1 hmem with rfl | hmem
      · exact h.silentSegment hp text (.inr ⟨rfl, by omega, hslash⟩) hfirst
      · rcases List.mem_cons.1 hmem with rfl | hmem
        · cases hkind
        · exact ih (by omega) (fun hf => absurd hf Bool.false_ne_true) segment hmem hkind

/-! ## One segment -/

theorem text_isolated {q : Nat} (hq : q ≤ segment.length) :
    (Buffer.mk (b.segmentText segment)).text p q = b.text (segment.loc + p) (segment.loc + q) := by
  simp only [text, segmentText, List.drop_take, List.drop_drop, List.take_take]
  congr 1
  omega

theorem Encodable.isolated (h : b.Encodable segment indent) :
    (Buffer.mk (b.segmentText segment)).Encodable { segment with loc := 0 } indent := by
  have hsize := h.size
  have hlen : (Buffer.mk (b.segmentText segment)).size = segment.length := by
    rw [Buffer.size, segmentText, length_text hsize, Nat.add_sub_cancel_left]
  have hbyte : ∀ k, k < segment.length → (Buffer.mk (b.segmentText segment)).byteAt k = b.byteAt (segment.loc + k) := by
    intro k hk
    have htext := b.text_isolated (p := k) (show k + 1 ≤ segment.length from hk)
    rw [text_one (hk.trans_eq hlen.symm), ← Nat.add_assoc, text_one (show segment.loc + k < b.size by omega)] at htext
    exact List.singleton_inj.1 htext
  refine ⟨?_, ?_, h.indentToStrip, h.blanks, ?_⟩
  · simp only [Nat.zero_add, hlen, le_refl]
  · simp only [Nat.zero_add]
    rw [byteAt_of_size_le hlen.le]
    decide
  · intro hlast k _ hk' hnewline hnone
    simp only [Nat.zero_add] at hk' hnone ⊢
    rw [hbyte k hk'] at hnewline
    rw [text_isolated le_rfl]
    refine h.closing hlast (segment.loc + k) (Nat.le_add_right _ _) (by omega) hnewline fun j hj hj' => ?_
    have hnot := hnone (j - segment.loc) (by omega) (by omega)
    rwa [hbyte _ (by omega), Nat.add_sub_cancel' (by omega)] at hnot

namespace SilentSegment

variable {out : List UInt8}

theorem content_iff (h : b.SilentSegment start stop indent segment) :
    (∃ out, segmentContent indent segment.isFirstSegment segment.isLastSegment (b.segmentText segment) = some out) ↔
      IndentedBehind (byte '\r') indent (b.segmentText segment) := by
  obtain ⟨text, htext⟩ := h.spells
  simp only [segmentContent, htext.pieces_eq, Option.bind_eq_bind, Option.bind_some]
  rw [htext.dropFirst h.encodable.blanks, linesIndented_iff]
  exact ⟨And.right, fun hlines => ⟨h.lines, hlines⟩⟩

theorem encoded (h : b.SilentSegment start stop indent segment)
    (hout : segmentContent indent segment.isFirstSegment segment.isLastSegment (b.segmentText segment) = some out) :
    ∃ bytes, b.getEncodedStringSegment segment = some bytes ∧
      (Buffer.mk (b.segmentText segment)).getEncodedStringSegment { segment with loc := 0 } = some bytes ∧
      bytes.length = out.length ∧
      (bytes = out ↔ ¬ ReturnsRaw indent segment.isFirstSegment segment.isLastSegment (b.segmentText segment)) := by
  obtain ⟨text, htext⟩ := h.spells
  have hlen : (b.segmentText segment).length = segment.length := by
    rw [segmentText, length_text h.encodable.size, Nat.add_sub_cancel_left]
  have hself : (Buffer.mk (b.segmentText segment)).text 0 (0 + segment.length) = b.segmentText segment := by
    rw [text_isolated (by omega), Nat.zero_add]
    rfl
  simp only [segmentContent, htext.pieces_eq, Option.bind_eq_bind, Option.bind_some] at hout
  refine ⟨_, getEncodedStringSegment_eq h.encodable htext hout, ?_, ?_, ?_⟩
  · rw [getEncodedStringSegment_eq h.encodable.isolated (hself.symm ▸ htext) hout, hself]
    rfl
  · split_ifs with hsame
    · exact hlen.trans hsame.symm
    · rfl
  · rw [← htext.returnsRaw_iff h.encodable.blanks h.begins hout, hlen]
    split_ifs with hsame
    · exact ⟨fun heq hraw => hraw.2 heq.symm, fun hnot => not_not.1 fun hne => hnot ⟨hsame, fun heq => hne heq.symm⟩⟩
    · exact ⟨fun _ hraw => hsame hraw.1, fun _ => rfl⟩

end SilentSegment

/-! ## All segments -/

variable {segments : List StringSegment} {count : Nat} {content : List UInt8}

def AllLiterals (segments : List StringSegment) (P : StringSegment → Prop) : Prop :=
  ∀ segment ∈ segments, segment.kind = .literal → P segment

theorem allLiterals_single {P : StringSegment → Prop} {length : Nat} :
    AllLiterals [.getLiteral p length first last count] P ↔ P (.getLiteral p length first last count) :=
  ⟨fun h => h _ (List.mem_singleton_self _) rfl, fun h _ hmem _ => List.mem_singleton.1 hmem ▸ h⟩

theorem allLiterals_cons {P : StringSegment → Prop} {length loc exprLength : Nat} :
    AllLiterals (.getLiteral p length first last count :: .getExpr loc exprLength :: segments) P ↔
      P (.getLiteral p length first last count) ∧ AllLiterals segments P := by
  constructor
  · exact fun h => ⟨h _ List.mem_cons_self rfl, fun segment hmem => h segment (List.mem_cons_of_mem _ (List.mem_cons_of_mem _ hmem))⟩
  · rintro ⟨hfirst, hrest⟩ segment hmem hkind
    rcases List.mem_cons.1 hmem with rfl | hmem
    · exact hfirst
    · rcases List.mem_cons.1 hmem with rfl | hmem
      · cases hkind
      · exact hrest segment hmem hkind

theorem contentOf_single {length : Nat} : b.contentOf indent first [.getLiteral p length first true count] =
    segmentContent indent first true (b.segmentText (.getLiteral p length first true count)) := by
  rw [contentOf]
  dsimp only [StringSegment.getLiteral, List.isEmpty_nil]
  cases segmentContent indent first true (b.segmentText _) with
  | none => rfl
  | some out => exact congrArg some (List.append_nil out)

theorem contentOf_cons {length loc exprLength : Nat} :
    b.contentOf indent first (.getLiteral p length first false count :: .getExpr loc exprLength :: segments) = (do
      let content ← segmentContent indent first false (b.segmentText (.getLiteral p length first false count))
      return content ++ (← b.contentOf indent false segments)) := rfl

theorem encodedContent_single {length : Nat} : b.encodedContent [.getLiteral p length first last count] =
    b.getEncodedStringSegment (.getLiteral p length first last count) := by
  rw [encodedContent]
  dsimp only [StringSegment.getLiteral]
  cases b.getEncodedStringSegment _ with
  | none => rfl
  | some out => exact congrArg some (List.append_nil out)

theorem encodedContent_cons {length loc exprLength : Nat} :
    b.encodedContent (.getLiteral p length first last count :: .getExpr loc exprLength :: segments) = (do
      let bytes ← b.getEncodedStringSegment (.getLiteral p length first last count)
      return bytes ++ (← b.encodedContent segments)) := rfl

theorem contentOf_iff (hsegments : b.Segmented quote true count stop first p segments)
    (h : AllLiterals segments (b.SilentSegment start stop indent)) :
    (∃ content, b.contentOf indent first segments = some content) ↔
      AllLiterals segments fun segment => IndentedBehind (byte '\r') indent (b.segmentText segment) := by
  induction hsegments with
  | last text =>
      rw [allLiterals_single] at h ⊢
      rw [contentOf_single]
      exact h.content_iff
  | interpolation text hslash hparen hbalances hle rest ih =>
      rw [allLiterals_cons] at h ⊢
      rw [contentOf_cons, ← ih h.2, ← h.1.content_iff]
      constructor
      · rintro ⟨content, hcontent⟩
        obtain ⟨out, hout, hcontent⟩ := Option.bind_eq_some_iff.1 hcontent
        obtain ⟨behind, hbehind, -⟩ := Option.bind_eq_some_iff.1 hcontent
        exact ⟨⟨out, hout⟩, behind, hbehind⟩
      · rintro ⟨⟨out, hout⟩, behind, hbehind⟩
        refine ⟨out ++ behind, ?_⟩
        simp only [Option.bind_eq_bind, Option.pure_def]
        exact Option.bind_eq_some_iff.2 ⟨out, hout, Option.bind_eq_some_iff.2 ⟨behind, hbehind, rfl⟩⟩

theorem encodedContent_iff (hsegments : b.Segmented quote true count stop first p segments)
    (h : AllLiterals segments (b.SilentSegment start stop indent)) (hcontent : b.contentOf indent first segments = some content) :
    ∃ encoded, b.encodedContent segments = some encoded ∧ encoded.length = content.length ∧
      (encoded = content ↔ AllLiterals segments fun segment =>
        ¬ ReturnsRaw indent segment.isFirstSegment segment.isLastSegment (b.segmentText segment)) := by
  induction hsegments generalizing content with
  | last text =>
      rw [allLiterals_single] at h ⊢
      rw [contentOf_single] at hcontent
      rw [encodedContent_single]
      obtain ⟨bytes, hbytes, -, hlen, hiff⟩ := h.encoded hcontent
      exact ⟨bytes, hbytes, hlen, hiff⟩
  | interpolation text hslash hparen hbalances hle rest ih =>
      rw [allLiterals_cons] at h ⊢
      rw [contentOf_cons] at hcontent
      obtain ⟨out, hout, hcontent⟩ := Option.bind_eq_some_iff.1 hcontent
      obtain ⟨behind, hbehind, hcontent⟩ := Option.bind_eq_some_iff.1 hcontent
      obtain rfl := Option.some.inj hcontent
      obtain ⟨bytes, hbytes, -, hlen, hiff⟩ := h.1.encoded hout
      obtain ⟨encoded, hencoded, hlen', hiff'⟩ := ih h.2 hbehind
      rw [encodedContent_cons, hbytes, hencoded]
      refine ⟨bytes ++ encoded, rfl, by rw [List.length_append, List.length_append, hlen, hlen'], ?_⟩
      rw [← hiff, ← hiff']
      exact ⟨fun heq => List.append_inj heq hlen, fun h => by rw [h.1, h.2]⟩

end

end Buffer

/-! ## Tokens -/

namespace Lexer

variable {L : Lexer} {tokStart stop : Nat}

/-- The content of a literal about which nothing is diagnosed. -/
theorem silentContent (hliteral : LiteralAt L.buffer tokStart stop true)
    (h : L.lexStringLiteralDiagnosed tokStart = some (⟨.stringLiteral, stop + 3, false, true⟩, [])) :
    ∃ i, L.buffer.trailingIndentStart (tokStart + 3) stop = some (some i) ∧
      L.buffer.SilentContent (tokStart + 3) stop (L.buffer.text i stop) := by
  have hsize : stop + 3 ≤ L.buffer.size := hliteral.size
  have hle : tokStart + 3 ≤ stop := hliteral.le
  have hstop : stop ≤ L.buffer.size := by omega
  have hends : L.buffer.byteAt stop = byte '"' := by
    have hthree := hliteral.closes.1
    simp only [Buffer.threeQuotes, Bool.and_eq_true, decide_eq_true_eq] at hthree
    exact hthree.1.1
  obtain ⟨hbegins, hvalidation⟩ := silent_validation (hliteral.opens rfl) (by omega) h
  have hlt : tokStart + 3 < stop := by
    refine lt_of_le_of_ne hle fun heq => ?_
    rw [heq, hends] at hbegins
    exact absurd hbegins (by decide)
  rw [validationDiagnostics, Nat.add_sub_cancel] at hvalidation
  obtain ⟨trailing, htrailing, hvalidation⟩ := Option.bind_eq_some_iff.1 hvalidation
  obtain ⟨r, hr, hvalidation⟩ := Option.bind_eq_some_iff.1 hvalidation
  cases r with
  | none =>
      -- Only blanks would be between the quotes, but there is a newline.
      obtain rfl := Option.some.inj hvalidation
      simp only [Buffer.trailingIndentDiagnostics, hr, Option.bind_eq_bind, Option.bind_some] at htrailing
      split_ifs at htrailing with hall
      · have hblank := List.all_eq_true.1 hall _ (Buffer.mem_text_of le_rfl hlt hstop)
        have hclass : ∀ c : UInt8, isNewline c → isIndent c = false := forall_byte (by decide +kernel)
        exact absurd ((hclass _ hbegins).symm.trans hblank) Bool.false_ne_true
      · cases htrailing
  | some i =>
      have hclosing := Buffer.closingLine_of_trailingIndentStart hstop hr
      refine ⟨i, hr, hstop, ⟨i, hclosing, rfl⟩, hbegins, hends, fun k hk hk' hbyte => ?_⟩
      by_cases hindent : L.buffer.text i stop = []
      · rw [hindent]
        exact .inr List.nil_prefix
      · dsimp only at hvalidation
        rw [if_neg hindent] at hvalidation
        obtain ⟨lines, hlines, hvalidation⟩ := Option.bind_eq_some_iff.1 hvalidation
        obtain ⟨-, rfl⟩ := List.append_eq_nil_iff.1 (Option.some.inj hvalidation)
        have hat : (L.buffer.text (tokStart + 3) stop)[k - (tokStart + 3)]? = some (byte '\n') := by
          rw [Buffer.text_append hk hk'.le, Buffer.text_cons hk' hstop, hbyte,
            List.getElem?_append_right (by rw [Buffer.length_text (by omega)]), Buffer.length_text (by omega), Nat.sub_self,
            List.getElem?_cons_zero]
        have hline := (linesDiagnostics_nil hlines).2 _ (mem_lineStartsOf hat)
        have hdrop : (L.buffer.text (tokStart + 3) stop).drop (k - (tokStart + 3) + 1) = L.buffer.text (k + 1) stop := by
          rw [Buffer.text_append (show tokStart + 3 ≤ k + 1 by omega) (show k + 1 ≤ stop from hk'),
            List.drop_append_of_le_length (by rw [Buffer.length_text (by omega)]; omega),
            List.drop_of_length_le (by rw [Buffer.length_text (by omega)]; omega), List.nil_append]
        rw [hdrop] at hline
        exact hline

/-- The segments of a multi-line literal about which nothing is diagnosed encode its content exactly where every CR of its
literal text is replaced. -/
theorem encodesContent_iff (L : Lexer) (s s' : Members) (hlex : L.lexImpl s = some s')
    (hkind : s'.nextToken.kind = .stringLiteral) (hmulti : s'.nextToken.multilineString = true)
    (hsilent : (L.lexStringLiteralDiagnosed s'.nextToken.text.1).map Prod.snd = some []) :
    L.buffer.EncodesContent s'.nextToken ↔ L.buffer.NormalizesReturns s'.nextToken := by
  obtain ⟨stop, hliteral, hstring, hrange⟩ := lexImpl_string hlex hkind
  obtain ⟨indent, segments, hcontent, hsegments, hstrip, hpartition⟩ := getStringLiteralSegments_eq hkind hrange hliteral
  have hcount : quoteCount true = 3 := rfl
  rw [hmulti] at hliteral hstring hcontent hpartition
  rw [hcount] at hstring hcontent hpartition
  obtain ⟨⟨t, diagnostics⟩, hdiagnosed, hnil⟩ := Option.map_eq_some_iff.1 hsilent
  obtain rfl : diagnostics = [] := hnil
  obtain rfl := Option.some.inj ((lexStringLiteral_of_diagnosed L hdiagnosed).symm.trans hstring)
  obtain ⟨i, htrailing, hcontent'⟩ := silentContent hliteral hdiagnosed
  have hquote : L.buffer.byteAt s'.nextToken.text.1 = byte '"' := by
    have hthree := hliteral.opens rfl
    simp only [Buffer.threeQuotes, Bool.and_eq_true, decide_eq_true_eq] at hthree
    exact hthree.1.1
  have hindent : indent = (L.buffer.text i stop).length := by
    rw [Buffer.indentToStrip, if_pos hmulti, Buffer.getMultilineTrailingIndent, hcontent] at hstrip
    simp only [Option.bind_eq_bind, Option.bind_some] at hstrip
    rw [htrailing] at hstrip
    exact (Option.some.inj hstrip).symm
  subst hindent
  rw [hquote] at hpartition
  have hclosing := hcontent'.closingIndent_eq
  have hsize : stop + 3 ≤ L.buffer.size := hliteral.size
  -- The partition is the one of the token.
  have hunique : ∀ segments', L.buffer.Segmented (byte '"') true (L.buffer.text i stop).length stop true
      (s'.nextToken.text.1 + 3) segments' → segments' = segments := by
    intro segments' h
    have hsame := Buffer.segmentsOf_eq (Nat.lt_succ_self stop) (show stop + 1 ≤ L.buffer.size by omega) h
    exact Option.some.inj (hsame.symm.trans (Buffer.segmentsOf_eq (Nat.lt_succ_self stop) (by omega) hpartition))
  have hall := hcontent'.segments le_rfl (fun _ => rfl) hpartition
  have hnormalizes : L.buffer.NormalizesReturns s'.nextToken ↔ Buffer.AllLiterals segments fun segment =>
      Buffer.NormalizesReturnsOf (L.buffer.text i stop) segment.isFirstSegment segment.isLastSegment (L.buffer.segmentText segment) := by
    constructor
    · intro h segment hmem hliteral
      have h := h _ _ segments hcontent (by rw [hclosing]; exact hpartition) segment hmem hliteral
      rwa [hclosing] at h
    · intro h start' stop' segments' hcontent'' hpartition'
      obtain ⟨rfl, rfl⟩ := Prod.mk.inj (Option.some.inj (hcontent''.symm.trans hcontent))
      rw [hclosing] at hpartition' ⊢
      exact hunique segments' hpartition' ▸ h
  rw [hnormalizes]
  constructor
  · rintro ⟨start', stop', segments', hcontent'', hsegments', ⟨content, hof, hencoded⟩, -⟩
    obtain ⟨rfl, rfl⟩ := Prod.mk.inj (Option.some.inj (hcontent''.symm.trans hcontent))
    obtain rfl := Option.some.inj (hsegments'.symm.trans hsegments)
    rw [hclosing] at hof
    have hlines := (Buffer.contentOf_iff hpartition hall).1 ⟨content, hof⟩
    obtain ⟨encoded, hencoded', -, hiff⟩ := Buffer.encodedContent_iff hpartition hall hof
    have hraw := hiff.1 (Option.some.inj (hencoded'.symm.trans hencoded))
    exact fun segment hmem hliteral => ⟨hlines segment hmem hliteral, hraw segment hmem hliteral⟩
  · intro h
    have hlines := fun segment hmem hliteral => (h segment hmem hliteral).lines
    have hraw := fun segment hmem hliteral => (h segment hmem hliteral).notRaw
    obtain ⟨content, hof⟩ := (Buffer.contentOf_iff hpartition hall).2 hlines
    obtain ⟨encoded, hencoded, -, hiff⟩ := Buffer.encodedContent_iff hpartition hall hof
    obtain rfl := hiff.2 hraw
    refine ⟨_, _, segments, hcontent, hsegments, ⟨encoded, ?_, hencoded⟩, fun segment hmem hliteral => ⟨?_, ?_⟩⟩
    · rw [hclosing]
      exact hof
    · exact (hall segment hmem hliteral).range
    · obtain ⟨out, hout⟩ := (hall segment hmem hliteral).content_iff.2 (hlines segment hmem hliteral)
      obtain ⟨bytes, hbytes, hisolated, -⟩ := (hall segment hmem hliteral).encoded hout
      rw [hbytes, hisolated]

def ofText (text : String) : Lexer := ⟨⟨text.toList.map byte⟩, none, false, false, true, .none, .withoutTrivia⟩

def atBeginning : Members := ⟨0, 0, false, .init, [], []⟩

/-- Two lines with an interpolation between them, and CR LF for the line breaks. -/
theorem encodesContent_iff_crlf : ∃ s', (ofText "\"\"\"\r\n  a\\(x)\r\n  b\r\n  \"\"\"").lexImpl atBeginning = some s' ∧
    ((ofText "\"\"\"\r\n  a\\(x)\r\n  b\r\n  \"\"\"").buffer.EncodesContent s'.nextToken ↔
      (ofText "\"\"\"\r\n  a\\(x)\r\n  b\r\n  \"\"\"").buffer.NormalizesReturns s'.nextToken) :=
  ⟨⟨24, 0, false, ⟨.stringLiteral, true, 0, false, true, (0, 24)⟩, [], []⟩, rfl,
    encodesContent_iff _ atBeginning _ rfl rfl rfl rfl⟩

/-- The text between two interpolations is returned with its CR. -/
theorem not_encodesContent_return : ∃ s', (ofText "\"\"\"\n\\(x)a\rb\\(y)\n\"\"\"").lexImpl atBeginning = some s' ∧
    s'.nextToken.kind = .stringLiteral ∧ s'.nextToken.multilineString = true ∧
    ((ofText "\"\"\"\n\\(x)a\rb\\(y)\n\"\"\"").lexStringLiteralDiagnosed s'.nextToken.text.1).map Prod.snd = some [] ∧
    ¬ (ofText "\"\"\"\n\\(x)a\rb\\(y)\n\"\"\"").buffer.EncodesContent s'.nextToken := by
  refine ⟨⟨19, 0, false, ⟨.stringLiteral, true, 0, false, true, (0, 19)⟩, [], []⟩, rfl, rfl, rfl, rfl, ?_⟩
  rintro ⟨start, stop, segments, hcontent, hsegments, ⟨content, hof, hencoded⟩, -⟩
  obtain ⟨rfl, rfl⟩ := Prod.mk.inj (Option.some.inj (hcontent.symm.trans (show _ = some (3, 16) from rfl)))
  obtain rfl := Option.some.inj (hsegments.symm.trans (show _ = some [.getLiteral 3 1 true false 0, .getExpr 5 3,
    .getLiteral 8 3 false false 0, .getExpr 12 3, .getLiteral 15 1 false true 0] from rfl))
  have hlf := Option.some.inj (hof.symm.trans (show _ = some [byte 'a', byte '\n', byte 'b'] from rfl))
  have hcr := Option.some.inj (hencoded.symm.trans (show _ = some [byte 'a', byte '\r', byte 'b'] from rfl))
  exact absurd (hlf.symm.trans hcr) (by decide)

end Lexer

end SwiftKStdlib.Parse
