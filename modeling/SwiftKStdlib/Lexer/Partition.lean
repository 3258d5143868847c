import SwiftKStdlib.Lexer.Forming
import SwiftKStdlib.Lexer.Interpolations
import SwiftKStdlib.Lexer.Segments

/-!
# The segments partition the literal

* `skipTo_eq` : the scan up to the end of the token finds the end that the scan up to the end of the buffer found;
* `LiteralText`, `Segmented` : literal text, and its partition into segments;
* `lexStringLiteral_literal` : what the lexer accepts is partitioned so;
* `segmentsOf_eq` : the segments are those of the partition;
* `scansInterpolations` : interpolations in the lexer and in the segments.
-/

namespace SwiftKStdlib.Parse

open Lib StateTransition

namespace Buffer

variable {b : Buffer} {p q m start stop endPtr indent : Nat} {quote : UInt8} {multi first : Bool}

/-! ## The second scan -/

theorem interpolationStepTo_size (s : Interpolation) : b.interpolationStepTo b.size s = b.interpolationStep s := by
  have hclass : (isNewline 0 = true ↔ False) ∧ (isQuote 0 = true ↔ False) ∧ ((0 : UInt8) = byte '\\' ↔ False) := by decide
  rw [interpolationStepTo]
  cases hread : b.read s.curPtr with
  | none => simp [interpolationStep, hread]
  | some c =>
      simp only [Option.bind_eq_bind, Option.bind_some]
      by_cases hc : c = 0
      · subst hc
        simp [interpolationStep, hread, hclass]
      · rw [if_neg hc]

theorem le_of_interpolationStep {s s' : Interpolation} (hs : s.Ok) (hp : s.curPtr ≤ b.size)
    (h : b.interpolationStep s = some (.next s')) : s'.Ok ∧ s.curPtr ≤ s'.curPtr ∧ s'.curPtr ≤ b.size := by
  obtain ⟨step, hstep, hbounds⟩ := returns_interpolationStep hs hp
  obtain rfl := Option.some.inj (h.symm.trans hstep)
  have hlt := hbounds.2.1
  exact ⟨hbounds.1, by omega, hbounds.2.2⟩

theorem le_of_iterate {fuel : Nat} {s : Interpolation} (hs : s.Ok) (hp : s.curPtr ≤ b.size)
    (h : iterate b.interpolationStep fuel s = some q) : s.curPtr ≤ q := by
  obtain ⟨s', hvisits, hdone⟩ := exists_visits_done h
  obtain ⟨hok, hle, hsize, -⟩ := visits_nesting hs hp hvisits
  obtain ⟨step, hstep, hbounds⟩ := returns_interpolationStep hok hsize
  obtain rfl := Option.some.inj (hdone.symm.trans hstep)
  have hq : s'.curPtr ≤ q := hbounds.1
  omega

theorem iterate_interpolationStepTo {fuel : Nat} {s : Interpolation} (hs : s.Ok) (hq : q < endPtr)
    (hend : endPtr ≤ b.size) (hp : s.curPtr ≤ b.size) (h : iterate b.interpolationStep fuel s = some q) :
    iterate (b.interpolationStepTo endPtr) fuel s = some q := by
  induction fuel generalizing s with
  | zero => cases h
  | succ fuel ih =>
      have hsq := le_of_iterate hs hp h
      have hsame : b.interpolationStepTo endPtr s = b.interpolationStep s := by
        rw [← interpolationStepTo_size, interpolationStepTo, interpolationStepTo, if_neg (show s.curPtr ≠ endPtr by omega),
          if_neg (show s.curPtr ≠ b.size by omega)]
      obtain ⟨step, hstep, hrest⟩ := Option.bind_eq_some_iff.1 h
      cases step with
      | next s' =>
          rw [iterate_next (hsame.trans hstep)]
          obtain ⟨hok, -, hsize⟩ := le_of_interpolationStep hs hp hstep
          exact ih hok hsize hrest
      | done a =>
          rw [iterate_done (hsame.trans hstep)]
          exact hrest

theorem Balances.skipTo (h : b.Balances multi p q) (hp : p ≤ b.size) (hq : q < endPtr) (hend : endPtr ≤ b.size) :
    b.skipToEndOfInterpolatedExpressionTo endPtr multi p = some q :=
  iterate_interpolationStepTo (Interpolation.start_ok multi p) hq hend hp ((skip_iff hp).1 h).1

/-! ## Literal text -/

/-- The quotes at `p` end the literal. -/
def ClosesLiteral (b : Buffer) (quote : UInt8) (multi : Bool) (p : Nat) : Prop :=
  if multi then b.threeQuotes p ∧ b.byteAt (p + 3) ≠ byte '"' else b.byteAt p = quote

/-- From `p` to `q` there are characters, none of them quotes that end the literal. -/
inductive LiteralText (b : Buffer) (quote : UInt8) (multi : Bool) : Nat → Nat → Prop
  | nil {p : Nat} : LiteralText b quote multi p p
  | char {p m q v : Nat} (hp : p < b.size) (h : b.LexedChar multi p v m) (hopen : ¬ b.ClosesLiteral quote multi p)
      (rest : LiteralText b quote multi m q) : LiteralText b quote multi p q

theorem LiteralText.le (h : b.LiteralText quote multi p q) : p ≤ q := by
  induction h with
  | nil => exact le_rfl
  | char hp h _ _ ih =>
      have hbounds := h.bounds hp
      omega

/-- The content of a literal from `p` to `stop`, and its segments. -/
inductive Segmented (b : Buffer) (quote : UInt8) (multi : Bool) (indent stop : Nat) :
    Bool → Nat → List StringSegment → Prop
  | last {first : Bool} {p : Nat} (text : b.LiteralText quote multi p stop) :
      Segmented b quote multi indent stop first p [.getLiteral p (stop - p) first true indent]
  | interpolation {first : Bool} {p m e : Nat} {segments : List StringSegment} (text : b.LiteralText quote multi p m)
      (hslash : b.byteAt m = byte '\\') (hparen : b.byteAt (m + 1) = byte '(')
      (hbalances : b.Balances multi (m + 2) e) (hle : m + 2 ≤ e)
      (rest : Segmented b quote multi indent stop false (e + 1) segments) :
      Segmented b quote multi indent stop first p
        (.getLiteral p (m - p) first false indent :: .getExpr (m + 1) (e - m) :: segments)

namespace Segmented

variable {segments : List StringSegment}

theorem le (h : b.Segmented quote multi indent stop first p segments) : p ≤ stop := by
  induction h with
  | last text => exact text.le
  | interpolation text _ _ _ hle _ ih =>
      have htext := text.le
      omega

theorem char {v : Nat} (hp : p < b.size) (hchar : b.LexedChar multi p v m) (hopen : ¬ b.ClosesLiteral quote multi p)
    (h : b.Segmented quote multi indent stop first m segments) :
    ∃ segments, b.Segmented quote multi indent stop first p segments := by
  cases h with
  | last text => exact ⟨_, .last (.char hp hchar hopen text)⟩
  | interpolation text hslash hparen hbalances hle rest =>
      exact ⟨_, .interpolation (.char hp hchar hopen text) hslash hparen hbalances hle rest⟩

/-- The bytes of a segment, with the backslash before an expression. -/
def bytesOf (b : Buffer) (segment : StringSegment) : List UInt8 :=
  match segment.kind with
  | .literal => b.text segment.loc (segment.loc + segment.length)
  | .expr => byte '\\' :: b.text segment.loc (segment.loc + segment.length)

theorem flatten (h : b.Segmented quote multi indent stop first p segments) (hstop : stop ≤ b.size) :
    (segments.map (bytesOf b)).flatten = b.text p stop := by
  induction h with
  | @last first p text =>
      have hle := text.le
      simp only [List.map_cons, List.map_nil, List.flatten_cons, List.flatten_nil, List.append_nil, bytesOf,
        StringSegment.getLiteral]
      rw [show p + (stop - p) = stop by omega]
  | @interpolation first p m e segments text hslash hparen hbalances hle rest ih =>
      have htext := text.le
      have hrest := rest.le
      simp only [List.map_cons, List.flatten_cons, ih, bytesOf, StringSegment.getLiteral, StringSegment.getExpr]
      rw [show p + (m - p) = m by omega, show m + 1 + (e - m) = e + 1 by omega, text_append htext (show m ≤ stop by omega),
        text_append (show m ≤ e + 1 by omega) hrest, text_cons (show m < e + 1 by omega) (by omega), hslash]

theorem ends (h : b.Segmented quote multi indent stop first p segments) (hstop : stop < endPtr) (hend : endPtr ≤ b.size)
    {segment : StringSegment} (hmem : segment ∈ segments) (hkind : segment.kind = .expr) :
    b.byteAt segment.loc = byte '(' ∧ b.byteAt (segment.loc + segment.length - 1) = byte ')' ∧
      b.skipToEndOfInterpolatedExpression multi (segment.loc + 1) = some (segment.loc + segment.length - 1) ∧
      b.skipToEndOfInterpolatedExpressionTo endPtr multi (segment.loc + 1) = some (segment.loc + segment.length - 1) := by
  induction h with
  | last text =>
      obtain rfl := List.mem_singleton.1 hmem
      cases hkind
  | @interpolation first p m e segments text hslash hparen hbalances hle rest ih =>
      have hrest := rest.le
      rcases List.mem_cons.1 hmem with rfl | hmem
      · cases hkind
      rcases List.mem_cons.1 hmem with rfl | hmem
      · simp only [StringSegment.getExpr]
        rw [show m + 1 + (e - m) - 1 = e by omega]
        exact ⟨hparen, hbalances.paren, ((skip_iff (by omega)).1 hbalances).1, hbalances.skipTo (by omega) (by omega) hend⟩
      · exact ih hmem

end Segmented

/-! ## The loop over the content -/

theorem segmentStep_plain {s : Segmenting} (hstop : stop ≤ b.size) (hs : s.bytesPtr < stop)
    (hc : b.byteAt s.bytesPtr ≠ byte '\\') :
    b.segmentStep multi indent stop endPtr s = some (.next { s with bytesPtr := s.bytesPtr + 1 }) := by
  simp only [segmentStep, if_neg hs.ne, read_eq (show s.bytesPtr ≤ b.size by omega), Option.bind_eq_bind, Option.bind_some,
    if_pos hc, Option.pure_def]

theorem iterate_segmentStep_plain {s : Segmenting} (hstop : stop ≤ b.size) (hsq : s.bytesPtr ≤ q) (hq : q ≤ stop)
    (hc : ∀ k, s.bytesPtr ≤ k → k < q → b.byteAt k ≠ byte '\\') (fuel : Nat) :
    iterate (b.segmentStep multi indent stop endPtr) (q - s.bytesPtr + fuel) s =
      iterate (b.segmentStep multi indent stop endPtr) fuel { s with bytesPtr := q } := by
  obtain ⟨n, hn⟩ := Nat.exists_eq_add_of_le hsq
  induction n generalizing s with
  | zero =>
      subst hn
      rw [Nat.add_zero, Nat.sub_self, Nat.zero_add]
  | succ n ih =>
      have hstep : b.segmentStep multi indent stop endPtr s = some (.next { s with bytesPtr := s.bytesPtr + 1 }) :=
        segmentStep_plain hstop (by omega) (hc s.bytesPtr le_rfl (by omega))
      rw [show q - s.bytesPtr + fuel = q - (s.bytesPtr + 1) + fuel + 1 by omega, iterate_next hstep]
      exact ih (s := { s with bytesPtr := s.bytesPtr + 1 }) (by simp only; omega)
        (fun k hk hk' => hc k (by simp only at hk; omega) hk') (by simp only; omega)

theorem iterate_segmentStep_char (indent endPtr : Nat) {s : Segmenting} {v : Nat} (hstop : stop ≤ b.size) (hs : s.bytesPtr < stop)
    (h : b.LexedChar multi s.bytesPtr v q) (hq : q ≤ stop) : ∃ n, n ≤ q - s.bytesPtr ∧ ∀ fuel,
      iterate (b.segmentStep multi indent stop endPtr) (n + fuel) s =
        iterate (b.segmentStep multi indent stop endPtr) fuel { s with bytesPtr := q } := by
  have hbounds := h.bounds (show s.bytesPtr < b.size by omega)
  by_cases hslash : b.byteAt s.bytesPtr = byte '\\'
  · obtain ⟨hparen, hle, hplain⟩ := h.slash (by omega) hslash
    have hstep : b.segmentStep multi indent stop endPtr s = some (.next { s with bytesPtr := s.bytesPtr + 2 }) := by
      simp only [segmentStep, if_neg hs.ne, read_eq (show s.bytesPtr ≤ b.size by omega),
        read_eq (show s.bytesPtr + 1 ≤ b.size by omega), Option.bind_eq_bind, Option.bind_some, ne_eq, hslash,
        not_true_eq_false, if_false, if_pos hparen, Option.pure_def]
    refine ⟨q - (s.bytesPtr + 2) + 1, by omega, fun fuel => ?_⟩
    rw [show q - (s.bytesPtr + 2) + 1 + fuel = q - (s.bytesPtr + 2) + fuel + 1 by omega, iterate_next hstep]
    exact iterate_segmentStep_plain (s := { s with bytesPtr := s.bytesPtr + 2 }) hstop hle hq hplain fuel
  · exact ⟨q - s.bytesPtr, le_rfl, iterate_segmentStep_plain hstop hbounds.1.le hq (h.noSlash (by omega) hslash)⟩

theorem iterate_segmentStep_text (indent endPtr : Nat) {s : Segmenting} (hstop : stop ≤ b.size) (h : b.LiteralText quote multi s.bytesPtr q)
    (hq : q ≤ stop) : ∃ n, n ≤ q - s.bytesPtr ∧ ∀ fuel,
      iterate (b.segmentStep multi indent stop endPtr) (n + fuel) s =
        iterate (b.segmentStep multi indent stop endPtr) fuel { s with bytesPtr := q } := by
  generalize hp : s.bytesPtr = p at h
  induction h generalizing s with
  | nil =>
      subst hp
      exact ⟨0, Nat.zero_le _, fun fuel => by rw [Nat.zero_add]⟩
  | @char p m q v hsize h _ rest ih =>
      subst hp
      have hbounds := h.bounds hsize
      have hrest := rest.le
      obtain ⟨n1, hn1, hiter1⟩ := iterate_segmentStep_char indent endPtr hstop (by omega) h
        (by omega)
      obtain ⟨n2, hn2, hiter2⟩ := ih (s := { s with bytesPtr := m }) hq rfl
      refine ⟨n1 + n2, by omega, fun fuel => ?_⟩
      rw [Nat.add_assoc, hiter1, hiter2]

theorem iterate_segmentStep {segments acc : List StringSegment} {fuel : Nat} (hstop : stop < endPtr) (hend : endPtr ≤ b.size)
    (h : b.Segmented quote multi indent stop first p segments) (hfuel : stop - p < fuel) :
    iterate (b.segmentStep multi indent stop endPtr) fuel ⟨p, p, first, acc⟩ = some (acc ++ segments) := by
  induction h generalizing acc fuel with
  | @last first p text =>
      obtain ⟨n, hn, hiter⟩ := iterate_segmentStep_text indent endPtr (s := ⟨p, p, first, acc⟩)
        (show stop ≤ b.size by omega) text le_rfl
      obtain ⟨fuel, rfl⟩ : ∃ k, fuel = n + (k + 1) := ⟨fuel - n - 1, by simp only at hn; omega⟩
      rw [hiter]
      refine iterate_done ?_
      rw [segmentStep, if_pos rfl]
      rfl
  | @interpolation first p m e segments text hslash hparen hbalances hle rest ih =>
      have htext := text.le
      have hrest := rest.le
      obtain ⟨n, hn, hiter⟩ := iterate_segmentStep_text indent endPtr (s := ⟨p, p, first, acc⟩)
        (show stop ≤ b.size by omega) text (by omega)
      have hn : n ≤ m - p := hn
      obtain ⟨fuel, rfl⟩ : ∃ k, fuel = n + (k + 1) := ⟨fuel - n - 1, by omega⟩
      rw [hiter]
      have hstep : b.segmentStep multi indent stop endPtr ⟨m, p, first, acc⟩ = some (.next ⟨e + 1, e + 1, false,
          acc ++ [.getLiteral p (m - p) first false indent, .getExpr (m + 1) (e - m)]⟩) := by
        simp only [segmentStep, if_neg (show m ≠ stop by omega), read_eq (show m ≤ b.size by omega),
          read_eq (show m + 1 ≤ b.size by omega), read_eq (show e ≤ b.size by omega), Option.bind_eq_bind,
          Option.bind_some, ne_eq, hslash, hparen, not_true_eq_false, if_false,
          hbalances.skipTo (show m + 2 ≤ b.size by omega) (show e < endPtr by omega) hend, hbalances.paren, guard, if_true,
          Option.pure_def, show m + 2 - p - 2 = m - p by omega, show m + 2 - 1 = m + 1 by omega,
          show e + 1 - (m + 2) + 1 = e - m by omega]
      rw [iterate_next hstep, ih (by omega), List.append_assoc]
      rfl

theorem segmentsOf_eq {segments : List StringSegment} (hstop : stop < endPtr) (hend : endPtr ≤ b.size)
    (h : b.Segmented quote multi indent stop true start segments) :
    b.segmentsOf multi indent start stop endPtr = some segments :=
  iterate_segmentStep hstop hend h (by simp only [fuel]; omega)

end Buffer

/-! ## The literals of the lexer -/

def quoteCount (multi : Bool) : Nat := if multi then 3 else 1

theorem quoteCount_pos (multi : Bool) : 0 < quoteCount multi := by
  cases multi <;> decide

/-- The literal that begins at `tokStart` ends with the quotes at `stop`. -/
structure LiteralAt (b : Buffer) (tokStart stop : Nat) (multi : Bool) : Prop where
  quote : Buffer.isQuote (b.byteAt tokStart)
  opens : multi = true → b.threeQuotes tokStart
  segmented : ∀ indent, ∃ segments,
    b.Segmented (b.byteAt tokStart) multi indent stop true (tokStart + quoteCount multi) segments
  closes : b.ClosesLiteral (b.byteAt tokStart) multi stop
  size : stop + quoteCount multi ≤ b.size

theorem LiteralAt.le {b : Buffer} {tokStart stop : Nat} {multi : Bool} (h : LiteralAt b tokStart stop multi) :
    tokStart + quoteCount multi ≤ stop := by
  obtain ⟨segments, hsegments⟩ := h.segmented 0
  exact hsegments.le

namespace Lexer

variable {L : Lexer} {tokStart p q : Nat} {multi erroneous : Bool} {t : Scanned}

theorem stringLiteralEnd_cases {step : Step (Nat × Bool) Scanned} (hp : p < L.buffer.size)
    (hquote : L.buffer.byteAt p = L.buffer.byteAt tokStart) (hopens : multi = true → L.buffer.byteAt tokStart = byte '"')
    (h : L.stringLiteralEnd tokStart multi p = some step) :
    (¬ L.buffer.ClosesLiteral (L.buffer.byteAt tokStart) multi p ∧ step = .next (p + 1, false)) ∨
      L.buffer.ClosesLiteral (L.buffer.byteAt tokStart) multi p ∧ p + quoteCount multi ≤ L.buffer.size ∧
        step = .done ⟨.stringLiteral, p + quoteCount multi, false, multi⟩ := by
  cases multi with
  | false =>
      rw [stringLiteralEnd, if_neg Bool.false_ne_true] at h
      exact .inr ⟨hquote, hp, (Option.some.inj h).symm⟩
  | true =>
      have hbyte := hquote.trans (hopens rfl)
      rw [stringLiteralEnd, if_pos rfl] at h
      obtain ⟨closes, hcloses, h⟩ := Option.bind_eq_some_iff.1 h
      have hiff : L.buffer.ClosesLiteral (L.buffer.byteAt tokStart) true p ↔ closes = true := by
        rw [closesMultiline, Buffer.looksAt_threeQuotes hp] at hcloses
        simp only [Option.bind_eq_bind, Option.bind_some, Buffer.ClosesLiteral, if_true, Buffer.threeQuotes, hbyte,
          decide_true, Bool.true_and] at hcloses ⊢
        by_cases htwo : (decide (L.buffer.byteAt (p + 1) = byte '"') && decide (L.buffer.byteAt (p + 2) = byte '"')) = true
        · have hthree : L.buffer.threeQuotes p = true := by
            rw [Buffer.threeQuotes, hbyte, Bool.and_assoc, htwo]
            rfl
          rw [if_pos htwo, Buffer.read_eq (Buffer.threeQuotes_size hp.le hthree).1] at hcloses
          obtain rfl := Option.some.inj hcloses
          simp only [htwo, true_and, decide_eq_true_eq]
        · rw [if_neg htwo] at hcloses
          obtain rfl := Option.some.inj hcloses
          simp only [htwo, false_and, Bool.false_eq_true]
      cases closes with
      | false => exact .inl ⟨fun hc => Bool.false_ne_true (hiff.1 hc), (Option.some.inj h).symm⟩
      | true =>
          have hc := hiff.2 rfl
          refine .inr ⟨hc, (Buffer.threeQuotes_size hp.le hc.1).1, ?_⟩
          cases hdiags : L.diags with
          | false =>
              rw [hdiags] at h
              exact (Option.some.inj h).symm
          | true =>
              rw [hdiags] at h
              obtain ⟨_, -, h⟩ := Option.bind_eq_some_iff.1 h
              exact (Option.some.inj h).symm

/-- The part of the literal that is still to be scanned. -/
structure Remaining (L : Lexer) (tokStart : Nat) (multi : Bool) (p stop : Nat) : Prop where
  segmented : ∀ indent first, ∃ segments,
    L.buffer.Segmented (L.buffer.byteAt tokStart) multi indent stop first p segments
  closes : L.buffer.ClosesLiteral (L.buffer.byteAt tokStart) multi stop
  size : stop + quoteCount multi ≤ L.buffer.size

theorem Remaining.char {m v stop : Nat} (h : Remaining L tokStart multi m stop) (hp : p < L.buffer.size)
    (hchar : L.buffer.LexedChar multi p v m) (hopen : ¬ L.buffer.ClosesLiteral (L.buffer.byteAt tokStart) multi p) :
    Remaining L tokStart multi p stop := by
  refine ⟨fun indent first => ?_, h.closes, h.size⟩
  obtain ⟨segments, hsegments⟩ := h.segmented indent first
  exact hsegments.char hp hchar hopen

theorem lexedChar_quote {b : Buffer} (hquote : Buffer.isQuote (b.byteAt p)) :
    b.LexedChar multi p (b.byteAt p).toNat (p + 1) := by
  have hclass : ∀ c : UInt8, Buffer.isQuote c → c < 0x80 ∧ c ≠ byte '\\' ∧ isNewline c = false :=
    forall_byte (by decide +kernel)
  obtain ⟨hlow, hslash, hnewline⟩ := hclass _ hquote
  exact .ascii hlow hslash fun h => absurd (hnewline.symm.trans h) Bool.false_ne_true

/-- The loop returns a literal only where nothing was erroneous. -/
theorem iterate_stringLiteralStep {fuel : Nat} (hquote : Buffer.isQuote (L.buffer.byteAt tokStart))
    (hopens : multi = true → L.buffer.byteAt tokStart = byte '"') (hp : p ≤ L.buffer.size)
    (h : iterate (L.stringLiteralStep tokStart multi) fuel (p, erroneous) = some t) (hkind : t.kind = .stringLiteral) :
    erroneous = false ∧ ∃ stop, Remaining L tokStart multi p stop ∧
      t = ⟨.stringLiteral, stop + quoteCount multi, false, multi⟩ := by
  have hstart : tokStart < L.buffer.size := by
    by_contra hsize
    rw [Buffer.byteAt_of_size_le (by omega)] at hquote
    exact absurd hquote (by decide)
  induction fuel generalizing p erroneous with
  | zero => cases h
  | succ fuel ih =>
      obtain ⟨step, hstep, hrest⟩ := Option.bind_eq_some_iff.1 h
      rw [stringLiteralStep, Buffer.looksAt_eq hp (by decide)] at hstep
      simp only [Option.bind_eq_bind, Option.bind_some, Buffer.read_eq hp, Buffer.read_eq hstart.le] at hstep
      by_cases hinterpolation : (decide (L.buffer.byteAt p = byte '\\') && decide (L.buffer.byteAt (p + 1) = byte '(')) = true
      · rw [if_pos hinterpolation] at hstep
        rw [Bool.and_eq_true, decide_eq_true_iff, decide_eq_true_iff] at hinterpolation
        obtain ⟨hslash, hparen⟩ := hinterpolation
        have hsize : p + 2 ≤ L.buffer.size :=
          Buffer.lt_size_of_eq (Buffer.lt_size_of_eq hp hslash (by decide)) hparen (by decide)
        obtain ⟨e, hskip, hbounds, -⟩ := Buffer.skip_cases multi hsize
        rw [hskip, Option.bind_some, Buffer.read_eq hbounds.2, Option.bind_some] at hstep
        by_cases hclose : L.buffer.byteAt e = byte ')'
        · rw [if_pos hclose] at hstep
          obtain rfl := Option.some.inj hstep
          obtain ⟨herr, stop, hremaining, ht⟩ := ih (Buffer.lt_size_of_eq hbounds.2 hclose (by decide)) hrest
          refine ⟨herr, stop, ⟨fun indent first => ?_, hremaining.closes, hremaining.size⟩, ht⟩
          obtain ⟨segments, hsegments⟩ := hremaining.segmented indent false
          exact ⟨_, .interpolation .nil hslash hparen ((Buffer.skip_iff hsize).2 ⟨hskip, hclose⟩) hbounds.1 hsegments⟩
        · rw [if_neg hclose] at hstep
          obtain rfl := Option.some.inj hstep
          cases (ih hbounds.2 hrest).1
      rw [if_neg hinterpolation] at hstep
      by_cases hend : isNewline (L.buffer.byteAt p) = true ∧ (!multi) = true ∨ p = L.buffer.size
      · rw [if_pos hend] at hstep
        obtain rfl := Option.some.inj hstep
        obtain rfl := Option.some.inj hrest
        cases hkind
      rw [if_neg hend] at hstep
      have hlt : p < L.buffer.size := lt_of_le_of_ne hp (not_or.1 hend).2
      obtain ⟨⟨lexed, q⟩, hlexed, hfits⟩ := L.buffer.returns_lexCharacter (L.buffer.byteAt tokStart) multi hlt
      rw [hlexed, Option.bind_some] at hstep
      cases lexed with
      | char v =>
          obtain rfl := Option.some.inj hstep
          obtain ⟨hchar, hnot⟩ := (Buffer.lexCharacter_char hlt).1 hlexed
          obtain ⟨herr, stop, hremaining, ht⟩ := ih (hchar.bounds hlt).2 hrest
          refine ⟨herr, stop, hremaining.char hlt hchar fun hc => hnot ?_, ht⟩
          have hbyte : L.buffer.byteAt p = L.buffer.byteAt tokStart := by
            cases multi with
            | false => exact hc
            | true =>
                have hthree := hc.1
                simp only [Buffer.threeQuotes, Bool.and_eq_true, decide_eq_true_eq] at hthree
                rw [hthree.1.1, hopens rfl]
          exact ⟨hbyte ▸ hquote, hbyte⟩
      | error =>
          obtain rfl := Option.some.inj hstep
          cases (ih hfits.2 hrest).1
      | endOfString =>
          obtain ⟨hq, hbyte, -⟩ := hfits
          obtain rfl : p = q := hq.symm
          cases erroneous with
          | true =>
              obtain rfl := Option.some.inj hstep
              obtain rfl := Option.some.inj hrest
              cases hkind
          | false =>
              have hstep' : L.stringLiteralEnd tokStart multi p = some step := by
                have hstep : L.stringLiteralQuote tokStart multi false p = some step := hstep
                rw [stringLiteralQuote, if_neg Bool.false_ne_true, Buffer.read_eq hstart.le] at hstep
                simp only [Option.bind_eq_bind, Option.bind_some] at hstep
                by_cases hsingle : L.buffer.byteAt tokStart = byte '\''
                · rw [if_pos hsingle] at hstep
                  obtain ⟨_, -, hstep⟩ := Option.bind_eq_some_iff.1 hstep
                  exact hstep
                · rw [if_neg hsingle] at hstep
                  exact hstep
              rcases stringLiteralEnd_cases hlt hbyte hopens hstep' with ⟨hopen, rfl⟩ | ⟨hc, hsize, rfl⟩
              · obtain ⟨-, stop, hremaining, ht⟩ := ih hlt hrest
                exact ⟨rfl, stop, hremaining.char hlt (lexedChar_quote (hbyte.symm ▸ hquote)) hopen, ht⟩
              · obtain rfl := Option.some.inj hrest
                exact ⟨rfl, p, ⟨fun indent first => ⟨_, .last .nil⟩, hc, hsize⟩, rfl⟩

theorem firstByte_quote : ∀ c : UInt8, firstByte c = .quote ↔ Buffer.isQuote c := forall_byte (by decide +kernel)

theorem lexStringLiteral_literal (hquote : Buffer.isQuote (L.buffer.byteAt tokStart)) (h : L.lexStringLiteral tokStart = some t)
    (hkind : t.kind = .stringLiteral) : ∃ stop, LiteralAt L.buffer tokStart stop t.multiline ∧
      t = ⟨.stringLiteral, stop + quoteCount t.multiline, false, t.multiline⟩ := by
  have hstart : tokStart < L.buffer.size := by
    by_contra hsize
    rw [Buffer.byteAt_of_size_le (by omega)] at hquote
    exact absurd hquote (by decide)
  rw [lexStringLiteral, Buffer.read_eq hstart.le] at h
  simp only [Option.bind_eq_bind, Option.bind_some, Buffer.looksAt_threeQuotes hstart] at h
  have hmulti : (decide (L.buffer.byteAt tokStart = byte '"') && (decide (L.buffer.byteAt (tokStart + 1) = byte '"') &&
      decide (L.buffer.byteAt (tokStart + 2) = byte '"'))) = L.buffer.threeQuotes tokStart := by
    rw [Buffer.threeQuotes, Bool.and_assoc]
  rw [hmulti] at h
  have hopens : L.buffer.threeQuotes tokStart = true → L.buffer.byteAt tokStart = byte '"' := by
    intro hthree
    simp only [Buffer.threeQuotes, Bool.and_eq_true, decide_eq_true_eq] at hthree
    exact hthree.1.1
  have hcount : (if L.buffer.threeQuotes tokStart = true then tokStart + 3 else tokStart + 1) =
      tokStart + quoteCount (L.buffer.threeQuotes tokStart) := by
    rw [quoteCount]
    split_ifs <;> rfl
  rw [hcount] at h
  have hsize : tokStart + quoteCount (L.buffer.threeQuotes tokStart) ≤ L.buffer.size := by
    rw [quoteCount]
    split_ifs with hthree
    · exact (Buffer.threeQuotes_size hstart.le hthree).1
    · exact hstart
  obtain ⟨-, stop, hremaining, rfl⟩ := iterate_stringLiteralStep hquote hopens hsize h hkind
  exact ⟨stop, ⟨hquote, fun hm => hm, fun indent => hremaining.segmented indent true, hremaining.closes, hremaining.size⟩, rfl⟩

theorem lexNumber_kind {prev : Tok} (h : L.lexNumber prev p = some t) (hdigit : firstByte (L.buffer.byteAt p) = .digit) :
    t.kind = .integerLiteral ∨ t.kind = .floatingLiteral ∨ t.kind = .unknown := by
  have hdigit' := (firstByte_digit _).1 hdigit
  have hp : p < L.buffer.size := by
    by_contra hsize
    rw [Buffer.byteAt_of_size_le (by omega)] at hdigit'
    exact absurd hdigit' (by decide)
  obtain ⟨t', hnumber, ht⟩ := returns_lexNumber prev hp hdigit'
  obtain rfl := Option.some.inj (h.symm.trans hnumber)
  exact ht.kind

theorem lexImpl_string {s s' : Members} (h : L.lexImpl s = some s') (hkind : s'.nextToken.kind = .stringLiteral) :
    ∃ stop, LiteralAt L.buffer s'.nextToken.text.1 stop s'.nextToken.multilineString ∧
      L.lexStringLiteral s'.nextToken.text.1 =
        some ⟨.stringLiteral, stop + quoteCount s'.nextToken.multilineString, false, s'.nextToken.multilineString⟩ ∧
      s'.nextToken.textRange = (s'.nextToken.text.1, stop + quoteCount s'.nextToken.multilineString) := by
  have hliteral : isLiteral Tok.stringLiteral = true := by decide
  rcases lexImpl_literal h (by rw [hkind, hliteral]) with hdigit | hquote
  · obtain ⟨t, hnumber, hforms⟩ := lexImpl_scanned h (dispatch_digit hdigit _)
    rcases lexNumber_kind hnumber hdigit with hnumber | hnumber | hnumber
    · cases hkind.symm.trans (hforms.kind.trans hnumber)
    · cases hkind.symm.trans (hforms.kind.trans hnumber)
    · cases hkind.symm.trans (hforms.kind.trans hnumber)
  · obtain ⟨t, hstring, hforms⟩ := lexImpl_scanned h (dispatch_quote hquote _)
    obtain ⟨stop, hliteral, ht⟩ := lexStringLiteral_literal ((firstByte_quote _).1 hquote) hstring (hforms.kind.symm.trans hkind)
    have hrange : s'.nextToken.textRange = s'.nextToken.text := by
      rw [Token.textRange, hforms.escaped, ht]
      exact if_neg Bool.false_ne_true
    refine ⟨stop, hforms.multiline ▸ hliteral, ?_, ?_⟩
    · rw [hforms.multiline, ← ht]
      exact hstring
    · rw [hrange, hforms.text, hforms.multiline, ht]

theorem getStringLiteralSegments_eq {str : Token} {stop : Nat} (hkind : str.kind = .stringLiteral)
    (hrange : str.textRange = (str.text.1, stop + quoteCount str.multilineString))
    (h : LiteralAt L.buffer str.text.1 stop str.multilineString) :
    ∃ indent segments, getStringLiteralContent str = some (str.text.1 + quoteCount str.multilineString, stop) ∧
      L.buffer.getStringLiteralSegments str = some segments ∧ L.buffer.indentToStrip str = some indent ∧
      L.buffer.Segmented (L.buffer.byteAt str.text.1) str.multilineString indent stop true
        (str.text.1 + quoteCount str.multilineString) segments := by
  have hle := h.le
  have hsize := h.size
  have hpos := quoteCount_pos str.multilineString
  have hcontent : getStringLiteralContent str = some (str.text.1 + quoteCount str.multilineString, stop) := by
    have hquotes : (if str.multilineString = true then 3 else 1) = quoteCount str.multilineString := rfl
    rw [getStringLiteralContent, hrange]
    simp only [hquotes, guard]
    rw [if_pos (show str.text.1 + quoteCount str.multilineString + quoteCount str.multilineString ≤
      stop + quoteCount str.multilineString by omega), Nat.add_sub_cancel]
    rfl
  have hindent : ∃ indent, L.buffer.indentToStrip str = some indent := by
    rw [Buffer.indentToStrip]
    split_ifs
    · obtain ⟨r, hr, -⟩ := Buffer.returns_trailingIndentStart (str.text.1 + quoteCount str.multilineString)
        (show stop ≤ L.buffer.size by omega)
      rw [Buffer.getMultilineTrailingIndent, hcontent]
      simp only [Option.bind_eq_bind, Option.bind_some, hr]
      cases r with
      | none => exact ⟨_, rfl⟩
      | some r => exact ⟨_, rfl⟩
    · exact ⟨0, rfl⟩
  obtain ⟨indent, hindent⟩ := hindent
  obtain ⟨segments, hsegments⟩ := h.segmented indent
  refine ⟨indent, segments, hcontent, ?_, hindent, hsegments⟩
  simp only [Buffer.getStringLiteralSegments, guard, if_pos hkind, hcontent, hindent, hrange, Option.bind_eq_bind,
    Option.bind_some, Option.pure_def]
  exact Buffer.segmentsOf_eq (by omega) hsize hsegments

/-- Interpolations, in the lexer and in the segments of its string literal tokens. -/
structure ScansInterpolations (L : Lexer) : Prop where
  /-- The scan returns, at the bracket that balances the first one or at what is no bracket. -/
  returns : ∀ multi p, p ≤ L.buffer.size → ∃ q, L.buffer.skipToEndOfInterpolatedExpression multi p = some q ∧
    (p ≤ q ∧ q ≤ L.buffer.size) ∧ (L.buffer.Balances multi p q ∨ L.buffer.byteAt q ≠ byte ')')
  /-- It comes to a bracket exactly where one balances the first one. -/
  balances : ∀ multi p q, p ≤ L.buffer.size → (L.buffer.Balances multi p q ↔
    L.buffer.skipToEndOfInterpolatedExpression multi p = some q ∧ L.buffer.byteAt q = byte ')')
  /-- In every iteration the second stack has one entry more than there are open quotes in the first one. -/
  entries : ∀ multi p s, p ≤ L.buffer.size → Visits L.buffer.interpolationStep (.start multi p) s →
    s.allowNewline.length = s.openDelimiters.countP Buffer.isQuote + 1
  /-- The segments of a string literal token are a partition of its content, with the expressions that the lexer found. -/
  segments : ∀ s s', L.lexImpl s = some s' → s'.nextToken.kind = .stringLiteral →
    ∃ start stop indent segments, getStringLiteralContent s'.nextToken = some (start, stop) ∧
      L.buffer.getStringLiteralSegments s'.nextToken = some segments ∧
      L.buffer.Segmented (L.buffer.byteAt s'.nextToken.text.1) s'.nextToken.multilineString indent stop true start segments ∧
      (segments.map (Buffer.Segmented.bytesOf L.buffer)).flatten = L.buffer.text start stop ∧
      ∀ segment ∈ segments, segment.kind = .expr →
        L.buffer.byteAt (segment.loc + segment.length - 1) = byte ')' ∧
        L.buffer.skipToEndOfInterpolatedExpression s'.nextToken.multilineString (segment.loc + 1) =
          some (segment.loc + segment.length - 1) ∧
        L.buffer.skipToEndOfInterpolatedExpressionTo s'.nextToken.textRange.2 s'.nextToken.multilineString
          (segment.loc + 1) = some (segment.loc + segment.length - 1)

theorem scansInterpolations (L : Lexer) : ScansInterpolations L := by
  refine ⟨fun multi p hp => ?_, fun multi p q hp => Buffer.skip_iff hp, fun multi p s hp hvisits => ?_,
    fun s s' h hkind => ?_⟩
  · obtain ⟨q, hskip, hbounds, hcases⟩ := Buffer.skip_cases multi hp
    exact ⟨q, hskip, hbounds, hcases.imp_right fun hend => hend.1.ne_paren⟩
  · exact (Buffer.visits_nesting (Buffer.Interpolation.start_ok multi p) hp hvisits).1.allow
  · obtain ⟨stop, hliteral, -, hrange⟩ := lexImpl_string h hkind
    obtain ⟨indent, segments, hcontent, hsegments, -, hpartition⟩ := getStringLiteralSegments_eq hkind hrange hliteral
    have hsize := hliteral.size
    have hpos := quoteCount_pos s'.nextToken.multilineString
    refine ⟨_, stop, indent, segments, hcontent, hsegments, hpartition, hpartition.flatten (by omega), fun segment hmem hexpr => ?_⟩
    rw [hrange]
    exact (hpartition.ends (by omega) hsize hmem hexpr).2

end Lexer

end SwiftKStdlib.Parse
