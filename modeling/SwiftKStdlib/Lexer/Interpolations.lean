import SwiftKStdlib.Lexer.Literals
import SwiftKStdlib.Lib.Nesting

/-!
# Interpolations

* `Nest`, `Buffer.nest` : what may stand in an interpolation, by the literal or the brackets around it;
* `contexts` : the two stacks of `skipToEndOfInterpolatedExpression` as one stack of these;
* `interpolationStep_expression`, `interpolationStep_literal` : one iteration of the scan;
* `skip_iff` : it comes to the bracket that balances the first one, or to what ends the line or the text.
-/

namespace SwiftKStdlib.Parse

open Lib StateTransition

/-- An expression with the newlines of the literal that it stands in, or a literal in an expression. -/
inductive Nest where
  | expression (allowNewline : Bool)
  | literal (quote : UInt8) (multiline : Bool)
  deriving DecidableEq

namespace Buffer

variable (b : Buffer)

def threeQuotes (p : Nat) : Bool := b.byteAt p = byte '"' && b.byteAt (p + 1) = byte '"' && b.byteAt (p + 2) = byte '"'

def endsLine (allowNewline : Bool) (p : Nat) : Bool :=
  isNewline (b.byteAt p) && !allowNewline || b.byteAt p = 0 && p = b.size

/-- What stands at `p` in an interpolation. -/
def nest : Nest → Nat → Move Nest Nat
  | .expression allowNewline, p =>
    if b.byteAt p = byte ')' then .closes (p + 1)
    else if b.byteAt p = byte '(' then .opens (.expression allowNewline) (p + 1)
    else if b.threeQuotes p then .opens (.literal (byte '"') true) (p + 3)
    else if isQuote (b.byteAt p) then .opens (.literal (b.byteAt p) false) (p + 1)
    else if b.endsLine allowNewline p then .stop
    else .move (p + 1)
  | .literal quote multiline, p =>
    if b.byteAt p = byte '\\' then
      if b.byteAt (p + 1) = byte '(' then .opens (.expression multiline) (p + 2)
      -- A backslash escapes no newline of a single line literal and no null byte.
      else if isNewline (b.byteAt (p + 1)) && !multiline || b.byteAt (p + 1) = 0 then .stop
      else .move (p + 2)
    else if multiline && b.threeQuotes p then .closes (p + 3)
    else if !multiline && b.byteAt p = quote then .closes (p + 1)
    else if b.endsLine multiline p then .stop
    else .move (p + 1)

def contexts : List UInt8 → List Bool → List Nest
  | _, [] => []
  | [], allow :: _ => [.expression allow]
  | d :: delimiters, allow :: rest =>
    if isQuote d then .literal d allow :: contexts delimiters rest
    else .expression allow :: contexts delimiters (allow :: rest)

variable {b} {p q : Nat} {delimiters : List UInt8} {allow : Bool} {rest : List Bool}

theorem newline_class : ∀ c : UInt8, isNewline c → c ≠ byte ')' ∧ c ≠ byte '(' ∧ isQuote c = false ∧ c ≠ byte '\\' ∧ c ≠ 0 :=
  forall_byte (by decide +kernel)

theorem quote_class : ∀ c : UInt8, isQuote c →
    c ≠ byte ')' ∧ c ≠ byte '(' ∧ isNewline c = false ∧ c ≠ byte '\\' ∧ c ≠ 0 := forall_byte (by decide +kernel)

theorem threeQuotes_of_not_quote (h : isQuote (b.byteAt p) = false) : b.threeQuotes p = false := by
  rw [threeQuotes, Bool.and_assoc, Bool.and_eq_false_iff]
  left
  simp [isQuote] at h
  simp [h.1]

theorem looksAt_threeQuotes (hp : p + 1 ≤ b.size) :
    b.looksAt (p + 1) '"' '"' = some (b.byteAt (p + 1) = byte '"' && b.byteAt (p + 2) = byte '"') :=
  looksAt_eq hp (by decide)

theorem threeQuotes_eq (p : Nat) : ((decide (b.byteAt (p + 1) = byte '"') && decide (b.byteAt (p + 2) = byte '"')) &&
    decide (b.byteAt p = byte '"')) = b.threeQuotes p := by
  rw [threeQuotes, Bool.and_comm, Bool.and_assoc]

theorem threeQuotes_size (hp : p ≤ b.size) (h : b.threeQuotes p) : p + 3 ≤ b.size ∧ b.byteAt (p + 2) = byte '"' := by
  simp only [threeQuotes, Bool.and_eq_true, decide_eq_true_eq] at h
  have h1 : p + 1 ≤ b.size := lt_size_of_eq hp h.1.1 (by decide)
  have h2 : p + 2 ≤ b.size := lt_size_of_eq h1 h.1.2 (by decide)
  exact ⟨lt_size_of_eq h2 h.2 (by decide), h.2⟩

theorem interpolationQuote_expression (hp : p + 1 ≤ b.size) (hin : inStringLiteral delimiters = false) :
    b.interpolationQuote ⟨p, delimiters, allow :: rest⟩ (b.byteAt p) = some (
      if b.threeQuotes p then ⟨p + 3, byte '"' :: delimiters, true :: allow :: rest⟩
      else ⟨p + 1, b.byteAt p :: delimiters, false :: allow :: rest⟩) := by
  simp only [interpolationQuote, List.head?_cons, Option.bind_eq_bind, Option.bind_some, hin, Bool.false_eq_true, and_false,
    if_false, looksAt_threeQuotes hp, threeQuotes_eq, Bool.not_false, if_true]
  by_cases hthree : b.threeQuotes p = true
  · obtain ⟨hsize, hlast⟩ := threeQuotes_size (by omega) hthree
    rw [if_pos hthree, if_pos hthree, readBack_eq hsize (by omega), show p + 3 - 1 = p + 2 by omega, hlast]
    simp [hthree]
  · rw [if_neg hthree, if_neg hthree, readBack_eq hp (by omega), Nat.add_sub_cancel]
    simp [hthree]

theorem interpolationStep_expression (hp : p ≤ b.size) (hin : inStringLiteral delimiters = false)
    (hd : ∀ d ∈ delimiters, d = byte '(' ∨ isQuote d) :
    b.interpolationStep ⟨p, delimiters, allow :: rest⟩ = some (
      match b.nest (.expression allow) p with
      | .move m => .next ⟨m, delimiters, allow :: rest⟩
      | .opens (.expression _) m => .next ⟨m, byte '(' :: delimiters, allow :: rest⟩
      | .opens (.literal quote multiline) m => .next ⟨m, quote :: delimiters, multiline :: allow :: rest⟩
      | .closes m => if delimiters = [] then .done p else .next ⟨m, delimiters.tail, allow :: rest⟩
      | .stop => .done p) := by
  simp only [interpolationStep, read_eq hp, Option.bind_eq_bind, Option.bind_some, hin, Bool.false_eq_true, if_false,
    List.head?_cons, Option.pure_def, nest]
  by_cases hnewline : isNewline (b.byteAt p) = true
  · obtain ⟨h1, h2, h3, h4, h5⟩ := newline_class _ hnewline
    cases allow <;> simp [hnewline, h1, h2, h3, h5, threeQuotes_of_not_quote h3, endsLine]
  by_cases hquote : isQuote (b.byteAt p) = true
  · obtain ⟨h1, h2, h3, h4, h5⟩ := quote_class _ hquote
    rw [interpolationQuote_expression (lt_size hp h5) hin]
    by_cases hthree : b.threeQuotes p = true
    · simp [hnewline, hquote, h1, h2, hthree]
    · simp [hnewline, hquote, h1, h2, hthree]
  have hthree := threeQuotes_of_not_quote (Bool.eq_false_iff.2 hquote)
  by_cases hslash : b.byteAt p = byte '\\'
  · have hclass : byte '\\' ≠ byte ')' ∧ byte '\\' ≠ byte '(' ∧ byte '\\' ≠ 0 ∧ isQuote (byte '\\') = false ∧
      isNewline (byte '\\') = false := by decide
    simp [hslash, hclass, hthree, endsLine]
  by_cases hzero : b.byteAt p = 0
  · have hclass : (0 : UInt8) ≠ byte ')' ∧ (0 : UInt8) ≠ byte '(' ∧ (0 : UInt8) ≠ byte '\\' ∧ isQuote 0 = false ∧
      isNewline 0 = false := by decide
    by_cases hend : p = b.size
    · subst hend
      simp [hzero, hclass, hthree, endsLine]
    · simp [hzero, hclass, hthree, endsLine, hend]
  by_cases hopen : b.byteAt p = byte '('
  · have hclass : byte '(' ≠ byte ')' ∧ byte '(' ≠ byte '\\' ∧ byte '(' ≠ 0 ∧ isQuote (byte '(') = false ∧
      isNewline (byte '(') = false := by decide
    simp [hopen, hclass]
  by_cases hclose : b.byteAt p = byte ')'
  · have hclass : byte ')' ≠ byte '(' ∧ byte ')' ≠ byte '\\' ∧ byte ')' ≠ 0 ∧ isQuote (byte ')') = false ∧
      isNewline (byte ')') = false := by decide
    cases delimiters with
    | nil => simp [hclose, hclass]
    | cons d ds =>
        have hdelim : d = byte '(' := (hd d List.mem_cons_self).resolve_right (Bool.eq_false_iff.1 hin)
        simp [hclose, hclass, hdelim]
  · simp [hnewline, hquote, hslash, hzero, hopen, hclose, hthree, endsLine]

theorem interpolationQuote_literal {d : UInt8} (hp : p + 1 ≤ b.size) (hd : isQuote d) :
    b.interpolationQuote ⟨p, d :: delimiters, allow :: rest⟩ (b.byteAt p) = some (
      if allow && b.threeQuotes p then ⟨p + 3, delimiters, rest⟩
      else if !allow && b.byteAt p = d then ⟨p + 1, delimiters, rest⟩
      else ⟨p + 1, d :: delimiters, allow :: rest⟩) := by
  have hin : inStringLiteral (d :: delimiters) = true := hd
  simp only [interpolationQuote, List.head?_cons, Option.bind_eq_bind, Option.bind_some, hin, and_true,
    looksAt_threeQuotes hp, threeQuotes_eq, Bool.not_true, Bool.false_eq_true, if_false, List.tail_cons]
  cases allow with
  | false => by_cases hc : d = b.byteAt p <;> simp [hc, eq_comm]
  | true => by_cases hthree : b.threeQuotes p = true <;> simp [hthree]

theorem interpolationStep_literal {d : UInt8} (hp : p ≤ b.size) (hd : isQuote d) :
    b.interpolationStep ⟨p, d :: delimiters, allow :: rest⟩ = some (
      match b.nest (.literal d allow) p with
      | .move m => .next ⟨m, d :: delimiters, allow :: rest⟩
      | .opens _ m => .next ⟨m, byte '(' :: d :: delimiters, allow :: rest⟩
      | .closes m => .next ⟨m, delimiters, rest⟩
      | .stop => .done (if b.byteAt p = byte '\\' then p + 1 else p)) := by
  have hin : inStringLiteral (d :: delimiters) = true := hd
  simp only [interpolationStep, read_eq hp, Option.bind_eq_bind, Option.bind_some, hin, if_true, List.head?_cons,
    Option.pure_def, nest]
  by_cases hslash : b.byteAt p = byte '\\'
  · have hclass : isQuote (byte '\\') = false ∧ isNewline (byte '\\') = false := by decide
    have hsize : p + 1 ≤ b.size := lt_size_of_eq hp hslash (by decide)
    simp only [hslash, hclass, Bool.false_eq_true, if_false, if_true, read_eq hsize, Option.bind_some]
    by_cases hparen : b.byteAt (p + 1) = byte '('
    · simp [hparen]
    by_cases hnewline : isNewline (b.byteAt (p + 1)) = true
    · cases allow <;> simp [hparen, hnewline, (newline_class _ hnewline).2.2.2.2]
    by_cases hzero : b.byteAt (p + 1) = 0
    · have hclass : (0 : UInt8) ≠ byte '(' ∧ isNewline 0 = false := by decide
      simp [hzero, hclass]
    · simp [hparen, hnewline, hzero]
  by_cases hnewline : isNewline (b.byteAt p) = true
  · obtain ⟨h1, h2, h3, h4, h5⟩ := newline_class _ hnewline
    have hne : b.byteAt p ≠ d := fun h => Bool.false_ne_true ((h ▸ h3.symm).trans hd)
    cases allow <;> simp [hnewline, h4, h5, hne, threeQuotes_of_not_quote h3, endsLine]
  by_cases hquote : isQuote (b.byteAt p) = true
  · obtain ⟨h1, h2, h3, h4, h5⟩ := quote_class _ hquote
    rw [interpolationQuote_literal (lt_size hp h5) hd]
    cases allow with
    | false =>
        by_cases hc : b.byteAt p = d
        · subst hc
          simp [hnewline, hquote, h4]
        · simp [hnewline, hquote, h4, h5, hc, endsLine]
    | true => by_cases hthree : b.threeQuotes p = true <;> simp [hnewline, hquote, h4, h5, hthree, endsLine]
  have hne : b.byteAt p ≠ d := fun h => hquote (h ▸ hd)
  have hthree := threeQuotes_of_not_quote (Bool.eq_false_iff.2 hquote)
  by_cases hzero : b.byteAt p = 0
  · have hclass : (0 : UInt8) ≠ byte '\\' ∧ isQuote 0 = false ∧ isNewline 0 = false := by decide
    rw [hzero] at hne
    by_cases hend : p = b.size
    · subst hend
      simp [hzero, hclass, hthree, hne, endsLine]
    · simp [hzero, hclass, hthree, hne, endsLine, hend]
  have hdelim := (quote_class d hd).2.1
  by_cases hopen : b.byteAt p = byte '('
  · have hclass : byte '(' ≠ byte '\\' ∧ byte '(' ≠ 0 ∧ isQuote (byte '(') = false ∧ isNewline (byte '(') = false := by decide
    rw [hopen] at hne
    simp [hopen, hclass, hthree, hne, endsLine]
  by_cases hclose : b.byteAt p = byte ')'
  · have hclass : byte ')' ≠ byte '(' ∧ byte ')' ≠ byte '\\' ∧ byte ')' ≠ 0 ∧ isQuote (byte ')') = false ∧
      isNewline (byte ')') = false := by decide
    rw [hclose] at hne
    simp [hclose, hclass, hthree, hne, hdelim, endsLine]
  · simp [hslash, hnewline, hquote, hzero, hopen, hclose, hthree, hne, endsLine]

/-! ## The run of the scan -/

def nesting (s : Interpolation) : List Nest × Nat := (contexts s.openDelimiters s.allowNewline, s.curPtr)

theorem contexts_expression (hin : inStringLiteral delimiters = false) :
    contexts delimiters (allow :: rest) =
      .expression allow :: if delimiters = [] then [] else contexts delimiters.tail (allow :: rest) := by
  cases delimiters with
  | nil => rfl
  | cons d delimiters =>
      have hd : isQuote d = false := hin
      simp [contexts, hd]

theorem contexts_literal {d : UInt8} (hd : isQuote d) :
    contexts (d :: delimiters) (allow :: rest) = .literal d allow :: contexts delimiters rest := by
  rw [contexts, if_pos hd]

theorem contexts_paren : contexts (byte '(' :: delimiters) (allow :: rest) =
    .expression allow :: contexts delimiters (allow :: rest) := by
  rw [contexts, if_neg (by decide)]

theorem contexts_ne_nil : contexts delimiters (allow :: rest) ≠ [] := by
  cases delimiters with
  | nil => exact List.cons_ne_nil _ _
  | cons d delimiters =>
      rw [contexts]
      split_ifs
      · exact List.cons_ne_nil _ _
      · exact List.cons_ne_nil _ _

def EndsLine (b : Buffer) (q : Nat) : Prop := isNewline (b.byteAt q) ∨ b.byteAt q = 0

theorem EndsLine.ne_paren (h : b.EndsLine q) : b.byteAt q ≠ byte ')' := by
  rcases h with h | h
  · exact (newline_class _ h).1
  · rw [h]
    decide

theorem endsLine_spec (h : b.endsLine allow p) : b.EndsLine p := by
  simp only [endsLine, Bool.or_eq_true, Bool.and_eq_true, decide_eq_true_eq] at h
  exact h.imp And.left And.left

theorem nest_expression (b : Buffer) (allow : Bool) (p : Nat) :
    (∀ c m, b.nest (.expression allow) p = .opens c m →
      c = .expression allow ∨ ∃ quote multiline, c = .literal quote multiline ∧ isQuote quote) ∧
    (∀ m, b.nest (.expression allow) p = .closes m → b.byteAt p = byte ')') ∧
    (b.nest (.expression allow) p = .stop → b.EndsLine p) := by
  refine ⟨fun c m h => ?_, fun m h => ?_, fun h => ?_⟩
  · rw [nest] at h
    split_ifs at h with h1 h2 h3 h4
    · exact .inl (Move.opens.inj h).1.symm
    · exact .inr ⟨_, _, (Move.opens.inj h).1.symm, by decide⟩
    · exact .inr ⟨_, _, (Move.opens.inj h).1.symm, h4⟩
  · rw [nest] at h
    split_ifs at h with h1
    exact h1
  · rw [nest] at h
    split_ifs at h with h1 h2 h3 h4 h5
    exact endsLine_spec h5

theorem nest_literal (b : Buffer) (d : UInt8) (allow : Bool) (p : Nat) :
    (∀ c m, b.nest (.literal d allow) p = .opens c m → c = .expression allow) ∧
    (b.nest (.literal d allow) p = .stop → b.EndsLine (if b.byteAt p = byte '\\' then p + 1 else p)) := by
  refine ⟨fun c m h => ?_, fun h => ?_⟩
  · rw [nest] at h
    split_ifs at h
    exact (Move.opens.inj h).1.symm
  · rw [nest] at h
    split_ifs at h with hslash hparen hstop hthree hquote hend
    · rw [if_pos hslash]
      simp only [Bool.or_eq_true, Bool.and_eq_true, decide_eq_true_eq] at hstop
      exact hstop.imp And.left id
    · rw [if_neg hslash]
      exact endsLine_spec hend

variable {s s' : Interpolation}

theorem interpolationStep_nesting (hs : s.Ok) (hp : s.curPtr ≤ b.size) :
    (∀ s', b.interpolationStep s = some (.next s') → stackStep b.nest (nesting s) = some (nesting s')) ∧
    ∀ q, b.interpolationStep s = some (.done q) →
      (∃ allow, nesting s = ([.expression allow], q) ∧ b.byteAt q = byte ')') ∨
        b.EndsLine q ∧ Stops b.nest (nesting s) := by
  obtain ⟨p, delimiters, allowNewline⟩ := s
  obtain ⟨allow, hallow⟩ := hs.head
  obtain ⟨rest, rfl⟩ : ∃ rest, allowNewline = allow :: rest := List.head?_eq_some_iff.1 hallow
  by_cases hin : inStringLiteral delimiters = true
  · cases delimiters with
    | nil => exact absurd hin Bool.false_ne_true
    | cons d delimiters =>
        have hd : isQuote d = true := hin
        have hrest : rest ≠ [] := by
          have hlen := hs.allow
          rw [List.countP_cons_of_pos hd] at hlen
          rintro rfl
          simp at hlen
        obtain ⟨allow', rest, rfl⟩ := List.exists_cons_of_ne_nil hrest
        obtain ⟨hopens, hstop⟩ := nest_literal b d allow p
        rw [interpolationStep_literal hp hd]
        simp only [nesting, contexts_literal hd, stackStep]
        cases hmove : b.nest (.literal d allow) p with
        | move m => simp +contextual [contexts_literal hd]
        | opens c m =>
            obtain rfl := hopens c m hmove
            simp +contextual [contexts_paren, contexts_literal hd]
        | closes m => simp +contextual [contexts_ne_nil]
        | stop => simpa [Stops, hmove] using hstop hmove
  · rw [Bool.not_eq_true] at hin
    obtain ⟨hopens, hcloses, hstop⟩ := nest_expression b allow p
    rw [interpolationStep_expression hp hin hs.delimiters]
    simp only [nesting, contexts_expression hin, stackStep]
    cases hmove : b.nest (.expression allow) p with
    | move m => simp +contextual [contexts_expression hin]
    | opens c m =>
        rcases hopens c m hmove with rfl | ⟨quote, multiline, rfl, hquote⟩
        · simp +contextual [contexts_paren, contexts_expression hin]
        · simp +contextual [contexts_literal hquote, contexts_expression hin]
    | closes m =>
        have hparen := hcloses m hmove
        by_cases hlast : delimiters = []
        · simp +contextual [hlast, hparen]
        · simp +contextual [hlast, contexts_ne_nil]
    | stop => simp +contextual [Stops, hmove, hstop hmove]

theorem visits_nesting (hs : s.Ok) (hp : s.curPtr ≤ b.size) (h : Visits b.interpolationStep s s') :
    s'.Ok ∧ s.curPtr ≤ s'.curPtr ∧ s'.curPtr ≤ b.size ∧ Reaches (stackStep b.nest) (nesting s) (nesting s') := by
  induction h with
  | refl => exact ⟨hs, le_rfl, hp, .refl⟩
  | next _ hstep ih =>
      obtain ⟨hok, hle, hsize, hreaches⟩ := ih
      obtain ⟨step, hstep', hbounds⟩ := returns_interpolationStep hok hsize
      obtain rfl := Option.some.inj (hstep.symm.trans hstep')
      have hlt := hbounds.2.1
      exact ⟨hbounds.1, by omega, hbounds.2.2, hreaches.tail ((interpolationStep_nesting hok hsize).1 _ hstep)⟩

def Interpolation.start (multilineString : Bool) (p : Nat) : Interpolation := ⟨p, [], [multilineString]⟩

theorem Interpolation.start_ok (multilineString : Bool) (p : Nat) : (start multilineString p).Ok :=
  ⟨fun _ hd => absurd hd List.not_mem_nil, rfl⟩

/-- The bracket at `q` balances the one before `p`. -/
structure Balances (b : Buffer) (multilineString : Bool) (p q : Nat) : Prop where
  nested : Nested b.nest (.expression multilineString) p q
  paren : b.byteAt q = byte ')'

theorem Balances.closes {multilineString : Bool} (h : b.Balances multilineString p q) :
    b.nest (.expression multilineString) q = .closes (q + 1) := by
  rw [nest, if_pos h.paren]

theorem skip_cases (multilineString : Bool) (hp : p ≤ b.size) :
    ∃ q, b.skipToEndOfInterpolatedExpression multilineString p = some q ∧ (p ≤ q ∧ q ≤ b.size) ∧
      (b.Balances multilineString p q ∨ b.EndsLine q ∧
        ∃ s, Reaches (stackStep b.nest) ([.expression multilineString], p) s ∧ Stops b.nest s) := by
  obtain ⟨q, hskip, hbounds⟩ := b.returns_skipToEndOfInterpolatedExpression multilineString hp
  refine ⟨q, hskip, hbounds, ?_⟩
  obtain ⟨s, hvisits, hdone⟩ := exists_visits_done hskip
  obtain ⟨hok, -, hsize, hreaches⟩ := visits_nesting (Interpolation.start_ok multilineString p) hp hvisits
  rcases (interpolationStep_nesting hok hsize).2 q hdone with ⟨allow, hnesting, hparen⟩ | ⟨hline, hstops⟩
  · rw [hnesting] at hreaches
    obtain ⟨hcontext, hnested⟩ := unwinds_of_reaches hreaches
    exact .inl ⟨hnested, hparen⟩
  · exact .inr ⟨hline, _, hreaches, hstops⟩

theorem skip_iff {multilineString : Bool} (hp : p ≤ b.size) : b.Balances multilineString p q ↔
    b.skipToEndOfInterpolatedExpression multilineString p = some q ∧ b.byteAt q = byte ')' := by
  obtain ⟨q', hskip, -, hcases⟩ := skip_cases multilineString hp
  constructor
  · intro h
    rcases hcases with h' | ⟨-, s, hreaches, hstops⟩
    · obtain rfl := h.nested.unique h.closes h'.nested h'.closes
      exact ⟨hskip, h.paren⟩
    · exact absurd hstops (h.nested.not_stops h.closes hreaches)
  · rintro ⟨hskip', hparen⟩
    obtain rfl := Option.some.inj (hskip.symm.trans hskip')
    rcases hcases with h' | ⟨hline, -⟩
    · exact h'
    · exact absurd hparen hline.ne_paren

end Buffer

end SwiftKStdlib.Parse
