import SwiftKStdlib.Lexer.Diagnostics
import SwiftKStdlib.Lexer.Normalization

/-!
# The indentation of a multi-line literal

* `closingIndent` : the blanks that a content ends with;
* `ClosingLine` : the last line of a content, which consists of blanks;
* `linesDiagnostics_nil` : without diagnostics, every line behind an LF is empty or begins with the indentation;
* `silent_validation` : a literal about which nothing is diagnosed begins with a newline, and its validation is silent.
-/

namespace SwiftKStdlib.Parse

open Lib

def closingIndent (bytes : List UInt8) : List UInt8 := bytes.rtakeWhile isIndent

/-! ## Lines -/

section

variable {indent bytes : List UInt8} {run : IndentRun}

theorem indented_of_commonPrefixLength (h : indent.length ≤ commonPrefixLength indent bytes) : indent <+: bytes := by
  have htake := take_commonPrefixLength indent bytes
  rw [List.take_of_length_le h] at htake
  rw [htake]
  exact List.take_prefix _ _

theorem runDiagnostics_nil (h : runDiagnostics indent run = []) : ∀ m ∈ run.mistakeOffset, indent.length ≤ m := by
  intro m hm
  rw [Option.mem_def] at hm
  by_contra hlt
  rw [runDiagnostics, hm] at h
  dsimp only at h
  rw [if_neg hlt] at h
  cases h

theorem linesDiagnostics_nil {lines : List Nat} (h : linesDiagnostics indent bytes run lines = some []) :
    (∀ m ∈ run.mistakeOffset, indent.length ≤ m) ∧ ∀ line ∈ lines, IndentedHere indent (bytes.drop line) := by
  induction lines generalizing run with
  | nil => exact ⟨runDiagnostics_nil (Option.some.inj h), fun line hline => absurd hline List.not_mem_nil⟩
  | cons nextpos lines ih =>
      obtain ⟨next, hnext, h⟩ := Option.bind_eq_some_iff.1 h
      obtain ⟨rest, hrest, h⟩ := Option.bind_eq_some_iff.1 h
      obtain ⟨hline, rfl⟩ := List.append_eq_nil_iff.1 (Option.some.inj h)
      obtain ⟨hoffset, hlines⟩ := ih hrest
      suffices hhere : (∀ m ∈ run.mistakeOffset, indent.length ≤ m) ∧ IndentedHere indent (bytes.drop nextpos) from
        ⟨hhere.1, List.forall_mem_cons.2 ⟨hhere.2, hlines⟩⟩
      obtain ⟨c, hc, hnext⟩ := Option.bind_eq_some_iff.1 hnext
      simp only [lineDiagnostics, hc, Option.any_some] at hline
      rw [IndentedHere, hc, Option.any_some]
      by_cases hnewline : isNewline c = true
      · rw [if_pos hnewline] at hnext
        obtain rfl := Option.some.inj hnext
        exact ⟨hoffset, .inl hnewline⟩
      · rw [if_neg hnewline] at hnext
        rw [if_neg hnewline] at hline
        by_cases hrun : run.mistakeOffset = some (commonPrefixLength indent (bytes.drop nextpos))
        · rw [if_neg (not_not.2 hrun)] at hnext
          obtain rfl := Option.some.inj hnext
          exact ⟨hoffset, .inr (indented_of_commonPrefixLength (hoffset _ hrun))⟩
        · rw [if_pos hrun] at hnext hline
          obtain ⟨_, -, hnext⟩ := Option.bind_eq_some_iff.1 hnext
          obtain rfl := Option.some.inj hnext
          exact ⟨runDiagnostics_nil hline, .inr (indented_of_commonPrefixLength (hoffset _ rfl))⟩

theorem mem_lineStartsOf {pos : Nat} (h : bytes[pos]? = some (byte '\n')) : pos + 1 ∈ lineStartsOf bytes := by
  obtain ⟨hlt, -⟩ := List.getElem?_eq_some_iff.1 h
  exact List.mem_map.2 ⟨pos, List.mem_filter.2 ⟨List.mem_range.2 hlt, decide_eq_true h⟩, rfl⟩

end

/-! ## The closing line -/

namespace Buffer

variable {b : Buffer} {p start stop i : Nat}

/-- From `i` to `stop` there is the last line, and it consists of blanks. -/
structure ClosingLine (b : Buffer) (start stop i : Nat) : Prop where
  lt : start < i
  le : i ≤ stop
  blanks : b.AllBytes isIndent i stop
  newline : isNewline (b.byteAt (i - 1))

theorem closingLine_of_trailingIndentStart (hstop : stop ≤ b.size) (h : b.trailingIndentStart start stop = some (some i)) :
    b.ClosingLine start stop i := by
  refine iterate_induct (P := fun r => ∀ i, r = some i → b.ClosingLine start stop i)
    (fun p => p ≤ stop ∧ b.AllBytes isIndent p stop) ?_ ?_ ⟨le_rfl, fun k hk hk' => absurd hk' (not_lt.2 hk)⟩ h i rfl
  · rintro p p' ⟨hp, hindent⟩ hstep
    by_cases hle : p ≤ start
    · rw [if_pos hle] at hstep
      cases hstep
    · rw [if_neg hle] at hstep
      obtain ⟨c, hread, hstep⟩ := Option.bind_eq_some_iff.1 hstep
      obtain ⟨_, hread', rfl⟩ := returns_readBack (b := b) (hp.trans hstop) (by omega)
      obtain rfl := Option.some.inj (hread.symm.trans hread')
      by_cases hblank : isIndent (b.byteAt (p - 1)) = true
      · rw [if_pos hblank] at hstep
        cases hstep
        refine ⟨by omega, fun k hk hk' => ?_⟩
        rcases (show k = p - 1 ∨ p ≤ k by omega) with rfl | hk
        · exact hblank
        · exact hindent k hk hk'
      · rw [if_neg hblank] at hstep
        cases hstep
  · rintro p r ⟨hp, hindent⟩ hstep i rfl
    by_cases hle : p ≤ start
    · rw [if_pos hle] at hstep
      cases hstep
    · rw [if_neg hle] at hstep
      obtain ⟨c, hread, hstep⟩ := Option.bind_eq_some_iff.1 hstep
      obtain ⟨_, hread', rfl⟩ := returns_readBack (b := b) (hp.trans hstop) (by omega)
      obtain rfl := Option.some.inj (hread.symm.trans hread')
      by_cases hblank : isIndent (b.byteAt (p - 1)) = true
      · rw [if_pos hblank] at hstep
        cases hstep
      · rw [if_neg hblank] at hstep
        have hstep := Step.done.inj (Option.some.inj hstep)
        by_cases hnewline : isNewline (b.byteAt (p - 1)) = true
        · rw [if_pos hnewline] at hstep
          obtain rfl := Option.some.inj hstep
          exact ⟨by omega, hp, hindent, hnewline⟩
        · rw [if_neg hnewline] at hstep
          cases hstep

namespace ClosingLine

theorem text_blanks (h : b.ClosingLine start stop i) (hstop : stop ≤ b.size) : ∀ c ∈ b.text i stop, isIndent c := by
  intro c hc
  obtain ⟨k, hk, hk', rfl⟩ := mem_text hc hstop
  exact h.blanks k hk hk'

theorem closingIndent_eq (h : b.ClosingLine start stop i) (hstop : stop ≤ b.size) :
    closingIndent (b.text start stop) = b.text i stop := by
  have hlt := h.lt
  have hle := h.le
  have hclass : ∀ c : UInt8, isNewline c → isIndent c = false := forall_byte (by decide +kernel)
  have hblanks : ∀ c ∈ (b.text i stop).reverse, isIndent c = true := fun c hc =>
    h.text_blanks hstop c (List.mem_reverse.1 hc)
  rw [text_append (show start ≤ i - 1 by omega) (show i - 1 ≤ stop by omega), text_cons (show i - 1 < stop by omega) hstop,
    Nat.sub_add_cancel (show 1 ≤ i by omega), closingIndent, List.rtakeWhile, List.reverse_append, List.reverse_cons,
    List.append_assoc, List.singleton_append, List.takeWhile_append_of_pos hblanks,
    List.takeWhile_cons_of_neg (by rw [hclass _ h.newline]; exact Bool.false_ne_true), List.append_nil, List.reverse_reverse]

end ClosingLine

end Buffer

/-! ## Silent literals -/

namespace Lexer

variable {L : Lexer} {tokStart stop : Nat}

/-- What the iteration at the quotes that end the literal diagnoses. -/
theorem silent_end {s : Nat × Bool}
    (hstep : L.stringLiteralStep tokStart true s = some (.done ⟨.stringLiteral, stop + 3, false, true⟩))
    (hsilent : L.stepDiagnostics tokStart true s = some []) : L.validationDiagnostics tokStart (stop + 3) = some [] := by
  obtain ⟨p, erroneous⟩ := s
  obtain ⟨looks, hlooks, hstep⟩ := Option.bind_eq_some_iff.1 hstep
  simp only [stepDiagnostics, hlooks, Option.bind_eq_bind, Option.bind_some] at hsilent
  cases looks with
  | true =>
      rw [if_pos rfl] at hstep
      obtain ⟨e, -, hstep⟩ := Option.bind_eq_some_iff.1 hstep
      obtain ⟨c, -, hstep⟩ := Option.bind_eq_some_iff.1 hstep
      split_ifs at hstep <;> cases hstep
  | false =>
      rw [if_neg Bool.false_ne_true] at hstep hsilent
      obtain ⟨c, hread, hstep⟩ := Option.bind_eq_some_iff.1 hstep
      simp only [hread, Option.bind_some] at hsilent
      by_cases hend : isNewline c = true ∧ (!true) = true ∨ p = L.buffer.size
      · rw [if_pos hend] at hstep
        cases hstep
      · rw [if_neg hend] at hstep hsilent
        obtain ⟨quote, hquote, hstep⟩ := Option.bind_eq_some_iff.1 hstep
        obtain ⟨⟨lexed, q⟩, hlexed, hstep⟩ := Option.bind_eq_some_iff.1 hstep
        obtain ⟨diagnostics, -, hsilent⟩ := Option.bind_eq_some_iff.1 hsilent
        simp only [hquote, hlexed, Option.bind_some] at hsilent
        cases lexed with
        | char v => cases hstep
        | error => cases hstep
        | endOfString =>
            obtain ⟨diagnostics', hdiagnostics, hsilent⟩ := Option.bind_eq_some_iff.1 hsilent
            obtain ⟨-, rfl⟩ := List.append_eq_nil_iff.1 (Option.some.inj hsilent)
            have hstep : L.stringLiteralQuote tokStart true erroneous q =
                some (.done ⟨.stringLiteral, stop + 3, false, true⟩) := hstep
            rw [stringLiteralQuote] at hstep
            cases erroneous with
            | true => cases hstep
            | false =>
                simp only [quoteDiagnostics, Bool.false_eq_true, if_false, hquote, Option.bind_eq_bind, Option.bind_some,
                  if_true] at hstep hdiagnostics
                obtain ⟨closes, hcloses, hdiagnostics⟩ := Option.bind_eq_some_iff.1 hdiagnostics
                have hstep : L.stringLiteralEnd tokStart true q = some (.done ⟨.stringLiteral, stop + 3, false, true⟩) := by
                  split_ifs at hstep with hsingle
                  · obtain ⟨_, -, hstep⟩ := Option.bind_eq_some_iff.1 hstep
                    exact hstep
                  · exact hstep
                simp only [stringLiteralEnd, if_true, hcloses, Option.bind_eq_bind, Option.bind_some] at hstep
                cases closes with
                | false => cases hstep
                | true =>
                    rw [if_pos rfl] at hstep hdiagnostics
                    obtain ⟨validation, hvalidation, hdiagnostics⟩ := Option.bind_eq_some_iff.1 hdiagnostics
                    obtain ⟨-, rfl⟩ := List.append_eq_nil_iff.1 (Option.some.inj hdiagnostics)
                    have hq : q = stop := by
                      split_ifs at hstep with hdiags
                      · obtain ⟨_, -, hstep⟩ := Option.bind_eq_some_iff.1 hstep
                        simpa using hstep
                      · simpa using hstep
                    rw [← hq]
                    exact hvalidation

theorem silent_validation (hopens : L.buffer.threeQuotes tokStart = true) (hstart : tokStart < L.buffer.size)
    (h : L.lexStringLiteralDiagnosed tokStart = some (⟨.stringLiteral, stop + 3, false, true⟩, [])) :
    isNewline (L.buffer.byteAt (tokStart + 3)) = true ∧ L.validationDiagnostics tokStart (stop + 3) = some [] := by
  have hsize := (Buffer.threeQuotes_size hstart.le hopens).1
  have hmulti : (decide (L.buffer.byteAt tokStart = byte '"') && (decide (L.buffer.byteAt (tokStart + 1) = byte '"') &&
      decide (L.buffer.byteAt (tokStart + 2) = byte '"'))) = true := by
    rw [← Bool.and_assoc]
    exact hopens
  rw [lexStringLiteralDiagnosed, Buffer.read_eq hstart.le] at h
  simp only [Option.bind_eq_bind, Option.bind_some, Buffer.looksAt_threeQuotes hstart] at h
  simp only [hmulti, if_true, Buffer.read_eq hsize, Option.bind_some, true_and] at h
  obtain ⟨⟨t, diagnostics⟩, hloop, h⟩ := Option.bind_eq_some_iff.1 h
  obtain ⟨rfl, hdiagnostics⟩ := Prod.mk.inj (Option.some.inj h)
  obtain ⟨hopening, rfl⟩ := List.append_eq_nil_iff.1 hdiagnostics
  obtain ⟨s, -, hstep, hsilent⟩ := exists_visits_silent hloop
  refine ⟨?_, silent_end hstep hsilent⟩
  by_contra hnewline
  rw [Bool.not_eq_true] at hnewline
  rw [hnewline] at hopening
  cases hopening

end Lexer

end SwiftKStdlib.Parse
