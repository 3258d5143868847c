import SwiftKStdlib.Lexer.Reading

/-!
# Starts of lines

* `findStartOfLine` : back to the start of the line;
* `getLocForStartOfLine`, `getIndentationForLine`, `getLocForStartOfToken` : what starts there;
* `StartOfLine` : the position behind the last line break, or the start of the buffer;
* `BreaksFirst` : the last line break is what the buffer begins with;
* `startsOnLine_iff` : everywhere else the start of the line is found.
-/

namespace SwiftKStdlib.Parse.Buffer

open Lib

variable (b : Buffer)

def findStartOfLine (current : Nat) : Option Nat :=
  iterate (fun current => do
    if current = 0 then return .done current
    else if isNewline (← b.read current) then return .done (current + 1)
    else return .next (current - 1)) b.fuel current

def getLocForStartOfLine (offset : Nat) : Option Nat := b.findStartOfLine offset

/-- Where the indentation of the line starts and ends; the class of the characters is the one of the library. -/
def getIndentationForLine (isHorizontalWhitespace : UInt8 → Bool) (offset : Nat) : Option (Nat × Nat) := do
  let startOfLine ← b.findStartOfLine offset
  return (startOfLine, ← b.scanWhile (fun c => c ≠ 0 && isHorizontalWhitespace c) startOfLine)

/-- The start of the token at the offset; `getLocForStartOfTokenInBuf` lexes the buffer again from its second argument to its
third one. -/
def getLocForStartOfToken (getLocForStartOfTokenInBuf : Nat → Nat → Nat → Nat) (offset : Nat) : Option Nat := do
  if b.size < offset then none
  else
    let c ← b.read offset
    if isNewline c ∨ c = byte ' ' ∨ c = byte '\t' then return offset
    else
      let lexStart ← b.findStartOfLine offset
      return getLocForStartOfTokenInBuf offset lexStart b.size

/-! ## The start of the line -/

structure StartOfLine (offset p : Nat) : Prop where
  le : p ≤ offset
  behind : p = 0 ∨ isNewline (b.byteAt (p - 1)) = true
  line : ∀ k, p ≤ k → k < offset → isNewline (b.byteAt k) = false

structure BreaksFirst (offset : Nat) : Prop where
  pos : 0 < offset
  first : isNewline (b.byteAt 0) = true
  line : ∀ k, 0 < k → k < offset → isNewline (b.byteAt k) = false

/-- What starts on the line of the offset starts at the start of the line. -/
def StartsOnLine (isHorizontalWhitespace : UInt8 → Bool) (offset : Nat) : Prop :=
  ∃ p, b.StartOfLine offset p ∧ b.findStartOfLine offset = some p ∧ b.getLocForStartOfLine offset = some p ∧
    (∃ q, b.getIndentationForLine isHorizontalWhitespace offset = some (p, q) ∧
      b.AllBytes (fun c => c ≠ 0 && isHorizontalWhitespace c) p q ∧
      (b.byteAt q = 0 ∨ isHorizontalWhitespace (b.byteAt q) = false)) ∧
    ∀ getLocForStartOfTokenInBuf, b.getLocForStartOfToken getLocForStartOfTokenInBuf offset =
      some (if b.byteAt offset = byte ' ' ∨ b.byteAt offset = byte '\t' then offset
        else getLocForStartOfTokenInBuf offset p b.size)

variable {b} {offset p q : Nat}

theorem returns_findStartOfLine (h : offset ≤ b.size) (hoffset : isNewline (b.byteAt offset) = false) :
    Returns (b.findStartOfLine offset) fun p => (∀ k, p ≤ k → 0 < k → k < offset → isNewline (b.byteAt k) = false) ∧
      (p = 0 ∨ 1 < p ∧ p ≤ offset ∧ isNewline (b.byteAt (p - 1)) = true) := by
  refine Returns.iterate (fun current => current)
    (fun current => current ≤ offset ∧ ∀ k, current < k → k ≤ offset → isNewline (b.byteAt k) = false) ?_
    ⟨le_rfl, fun k hk hk' => absurd hk' (not_le.2 hk)⟩ (by rw [fuel]; omega)
  rintro current ⟨hcurrent, hline⟩
  refine .ite (fun hzero => .pure ⟨fun k _ hk hk' => hline k (by omega) hk'.le, .inl hzero⟩) fun hpos => ?_
  refine (returns_read (hcurrent.trans h)).bind ?_
  rintro _ rfl
  refine .ite (fun hnewline => .pure ?_) fun hnewline => .pure ⟨⟨by omega, fun k hk hk' => ?_⟩, by omega⟩
  · have hne : current ≠ offset := by
      rintro rfl
      exact Bool.false_ne_true (hoffset.symm.trans hnewline)
    exact ⟨fun k hk _ hk' => hline k (by omega) hk'.le, .inr ⟨by omega, by omega, hnewline⟩⟩
  · rcases (show k = current ∨ current < k by omega) with rfl | hk
    · exact Bool.eq_false_iff.2 hnewline
    · exact hline k hk hk'

theorem findStartOfLine_cases (h : offset ≤ b.size) (hoffset : isNewline (b.byteAt offset) = false) :
    (∃ p, b.findStartOfLine offset = some p ∧ b.StartOfLine offset p ∧ ¬ b.BreaksFirst offset) ∨
      b.findStartOfLine offset = some 0 ∧ b.BreaksFirst offset := by
  obtain ⟨p, hfind, hline, hcases⟩ := returns_findStartOfLine h hoffset
  rcases hcases with rfl | ⟨hp, hle, hnewline⟩
  · by_cases hfirst : b.BreaksFirst offset
    · exact .inr ⟨hfind, hfirst⟩
    · refine .inl ⟨0, hfind, ⟨Nat.zero_le _, .inl rfl, fun k _ hk => ?_⟩, hfirst⟩
      rcases Nat.eq_zero_or_pos k with rfl | hpos
      · exact Bool.eq_false_iff.2 fun hnewline => hfirst ⟨hk, hnewline, fun k hk hk' => hline k (Nat.zero_le k) hk hk'⟩
      · exact hline k (Nat.zero_le k) hpos hk
  · refine .inl ⟨p, hfind, ⟨hle, .inr hnewline, fun k hk hk' => hline k hk (by omega) hk'⟩, fun hfirst => ?_⟩
    exact Bool.false_ne_true ((hfirst.line (p - 1) (by omega) (by omega)).symm.trans hnewline)

/-- What starts on the line of an offset starts at the right position exactly when the last line break before the offset is
not what the buffer begins with. -/
theorem startsOnLine_iff (b : Buffer) (isHorizontalWhitespace : UInt8 → Bool) (offset : Nat) (h : offset ≤ b.size)
    (hoffset : isNewline (b.byteAt offset) = false) :
    b.StartsOnLine isHorizontalWhitespace offset ↔ ¬ b.BreaksFirst offset := by
  rcases findStartOfLine_cases h hoffset with ⟨p, hfind, hstart, hfirst⟩ | ⟨hfind, hfirst⟩
  · refine iff_of_true ⟨p, hstart, hfind, hfind, ?_, fun getLocForStartOfTokenInBuf => ?_⟩ hfirst
    · obtain ⟨q, hscan, -⟩ : Returns (b.scanWhile (fun c => c ≠ 0 && isHorizontalWhitespace c) p) _ :=
        returns_scanWhile (hstart.le.trans h) rfl
      obtain ⟨-, hall, hstop⟩ := scanWhile_stop hscan
      refine ⟨q, ?_, hall, ?_⟩
      · rw [getIndentationForLine, hfind]
        simp only [Option.bind_eq_bind, Option.bind_some, hscan, Option.pure_def]
      · rw [Bool.and_eq_false_iff, decide_eq_false_iff_not, not_not] at hstop
        exact hstop
    · simp only [getLocForStartOfToken, if_neg (not_lt.2 h), read_eq h, Option.bind_eq_bind, Option.bind_some, hoffset,
        Bool.false_eq_true, false_or, hfind, Option.pure_def]
      split_ifs <;> rfl
  · refine iff_of_false ?_ (not_not.2 hfirst)
    rintro ⟨p, hstart, hfind', -⟩
    obtain rfl := Option.some.inj (hfind.symm.trans hfind')
    exact Bool.false_ne_true ((hstart.line 0 le_rfl hfirst.pos).symm.trans hfirst.first)

/-- The second line of `a`, LF, `b`. -/
theorem startsOnLine_second : (⟨[byte 'a', byte '\n', byte 'b']⟩ : Buffer).StartsOnLine (fun c => c = byte ' ') 2 ↔
    ¬ (⟨[byte 'a', byte '\n', byte 'b']⟩ : Buffer).BreaksFirst 2 :=
  startsOnLine_iff _ _ 2 (by decide) (by decide)

/-- The second line of LF, `b`. -/
theorem not_startsOnLine_first : ¬ (⟨[byte '\n', byte 'b']⟩ : Buffer).StartsOnLine (fun c => c = byte ' ') 1 := by
  rintro ⟨p, hstart, hfind, -⟩
  obtain rfl := Option.some.inj (hfind.symm.trans (show _ = some 0 by decide))
  exact absurd (hstart.line 0 le_rfl Nat.one_pos) (by decide)

end SwiftKStdlib.Parse.Buffer
