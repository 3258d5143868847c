import SwiftKStdlib.Lexer.Scanning

/-!
# Number literals

* `NumberLiteral` : the productions in the comment above `lexNumber`;
* `DigitsAt`, `FractionAt`, `ExponentAt` : their parts, by positions of the buffer;
* `Scanned.IsNumber` : what is scanned as a number literal is one;
* `returns_lexNumber` : this holds of everything that `lexNumber` returns;
* `lexNumber_reads` : every number literal is scanned to its end.
-/

namespace SwiftKStdlib.Parse

open Lib

/-! ## The grammar -/

/-- `[d][d_]*`, for digits `d`. -/
def Digits (isDigit : UInt8 → Bool) (s : List UInt8) : Prop :=
  ∃ c rest, s = c :: rest ∧ isDigit c ∧ ∀ d ∈ rest, isDigit d ∨ d = byte '_'

/-- `(\.[d][d_]*)?` -/
def Fraction (isDigit : UInt8 → Bool) (s : List UInt8) : Prop :=
  s = [] ∨ ∃ digits, s = byte '.' :: digits ∧ Digits isDigit digits

/-- `[+-]?` -/
def Sign (s : List UInt8) : Prop := s = [] ∨ s = [byte '+'] ∨ s = [byte '-']

/-- One of the letters, a sign perhaps, and `[0-9][0-9_]*`. -/
def Exponent (letters : List Char) (s : List UInt8) : Prop :=
  ∃ letter ∈ letters, ∃ sign digits, s = byte letter :: (sign ++ digits) ∧ Sign sign ∧ Digits isDigit digits

/-- The texts of `integer_literal` and of `floating_literal`. -/
inductive NumberLiteral : Tok → List UInt8 → Prop where
  | decimal {digits : List UInt8} (h : Digits isDigit digits) : NumberLiteral .integerLiteral digits
  | hex {digits : List UInt8} (h : Digits isHexDigit digits) :
      NumberLiteral .integerLiteral (byte '0' :: byte 'x' :: digits)
  | octal {digits : List UInt8} (h : Digits Lexer.isOctalDigit digits) :
      NumberLiteral .integerLiteral (byte '0' :: byte 'o' :: digits)
  | binary {digits : List UInt8} (h : Digits Lexer.isBinaryDigit digits) :
      NumberLiteral .integerLiteral (byte '0' :: byte 'b' :: digits)
  | float {whole fraction exponent : List UInt8} (hwhole : Digits isDigit whole) (hfraction : Fraction isDigit fraction)
      (hexponent : exponent = [] ∨ Exponent ['e', 'E'] exponent) (hne : fraction ≠ [] ∨ exponent ≠ []) :
      NumberLiteral .floatingLiteral (whole ++ (fraction ++ exponent))
  | hexFloat {whole fraction exponent : List UInt8} (hwhole : Digits isHexDigit whole)
      (hfraction : Fraction isHexDigit fraction) (hexponent : Exponent ['p', 'P'] exponent) :
      NumberLiteral .floatingLiteral (byte '0' :: byte 'x' :: (whole ++ (fraction ++ exponent)))

theorem NumberLiteral.kinds {kind : Tok} {s : List UInt8} (h : NumberLiteral kind s) :
    kind = .integerLiteral ∨ kind = .floatingLiteral := by
  cases h <;> simp

/-! ## Their parts in the buffer -/

namespace Buffer

variable {b : Buffer} {p q : Nat} {isDigit : UInt8 → Bool}

def DigitsAt (b : Buffer) (isDigit : UInt8 → Bool) (p q : Nat) : Prop :=
  p < q ∧ isDigit (b.byteAt p) ∧ b.AllBytes (fun c => isDigit c || c = byte '_') p q

def signEnd (b : Buffer) (p : Nat) : Nat := if Lexer.isExponentSign (b.byteAt p) then p + 1 else p

def FractionAt (b : Buffer) (isDigit : UInt8 → Bool) (p q : Nat) : Prop :=
  p = q ∨ b.byteAt p = byte '.' ∧ b.DigitsAt isDigit (p + 1) q

def ExponentAt (b : Buffer) (letters : List Char) (p q : Nat) : Prop :=
  (∃ letter ∈ letters, b.byteAt p = byte letter) ∧ b.DigitsAt Parse.isDigit (b.signEnd (p + 1)) q

theorem text_eq_nil (hpq : p ≤ q) (hq : q ≤ b.size) : b.text p q = [] ↔ p = q := by
  rw [← List.length_eq_zero_iff, length_text hq]
  omega

theorem text_eq_cons {c : UInt8} {rest : List UInt8} (hpq : p ≤ q) (hq : q ≤ b.size) :
    b.text p q = c :: rest ↔ p < q ∧ b.byteAt p = c ∧ b.text (p + 1) q = rest := by
  rcases hpq.lt_or_eq with hlt | rfl
  · rw [text_cons hlt hq, List.cons.injEq]
    exact ⟨fun h => ⟨hlt, h⟩, fun h => h.2⟩
  · rw [text_self]
    exact ⟨fun h => absurd h.symm (List.cons_ne_nil c rest), fun h => absurd h.1 (lt_irrefl p)⟩

theorem mem_text_of {k : Nat} (hpk : p ≤ k) (hkq : k < q) (hq : q ≤ b.size) : b.byteAt k ∈ b.text p q := by
  rw [text_append hpk hkq.le, text_cons hkq hq]
  exact List.mem_append_right _ List.mem_cons_self

theorem digits_text (hpq : p ≤ q) (hq : q ≤ b.size) : Digits isDigit (b.text p q) ↔ b.DigitsAt isDigit p q := by
  constructor
  · rintro ⟨c, rest, htext, hc, hrest⟩
    obtain ⟨hlt, rfl, rfl⟩ := (text_eq_cons hpq hq).1 htext
    refine ⟨hlt, hc, fun k hk hk' => ?_⟩
    rcases hk.eq_or_lt with rfl | hk
    · simp [hc]
    · simpa using hrest _ (mem_text_of hk hk' hq)
  · rintro ⟨hlt, hc, hall⟩
    refine ⟨_, _, text_cons hlt hq, hc, fun d hd => ?_⟩
    obtain ⟨k, hk, hk', rfl⟩ := mem_text hd hq
    simpa using hall k (by omega) hk'

theorem fraction_text (hpq : p ≤ q) (hq : q ≤ b.size) : Fraction isDigit (b.text p q) ↔ b.FractionAt isDigit p q := by
  refine or_congr (text_eq_nil hpq hq) ⟨?_, fun ⟨hdot, hdigits⟩ => ?_⟩
  · rintro ⟨digits, htext, hdigits⟩
    obtain ⟨hlt, hdot, rfl⟩ := (text_eq_cons hpq hq).1 htext
    exact ⟨hdot, (digits_text hlt hq).1 hdigits⟩
  · have hlt := hdigits.1
    exact ⟨_, (text_eq_cons hpq hq).2 ⟨by omega, hdot, rfl⟩, (digits_text (by omega) hq).2 hdigits⟩

theorem isExponentSign_of_isDigit : ∀ c : UInt8, Parse.isDigit c → Lexer.isExponentSign c = false :=
  forall_byte (by decide +kernel)

theorem exponent_text {letters : List Char} (hpq : p ≤ q) (hq : q ≤ b.size) :
    Exponent letters (b.text p q) ↔ b.ExponentAt letters p q := by
  constructor
  · rintro ⟨letter, hmem, sign, digits, htext, hsign, hdigits⟩
    obtain ⟨hlt, hletter, htext⟩ := (text_eq_cons hpq hq).1 htext
    refine ⟨⟨letter, hmem, hletter⟩, ?_⟩
    have hskip : ∀ c, Lexer.isExponentSign c → b.text (p + 1) q = c :: digits →
        b.DigitsAt Parse.isDigit (b.signEnd (p + 1)) q := by
      intro c hc htext
      obtain ⟨hlt', rfl, rfl⟩ := (text_eq_cons hlt hq).1 htext
      rw [signEnd, if_pos hc]
      exact (digits_text hlt' hq).1 hdigits
    rcases hsign with rfl | rfl | rfl
    · rw [List.nil_append] at htext
      obtain rfl := htext
      have hdigits := (digits_text hlt hq).1 hdigits
      rwa [signEnd, if_neg (Bool.eq_false_iff.1 (isExponentSign_of_isDigit _ hdigits.2.1))]
    · exact hskip (byte '+') (by decide) htext
    · exact hskip (byte '-') (by decide) htext
  · rintro ⟨⟨letter, hmem, hletter⟩, hdigits⟩
    have hlt := hdigits.1
    rw [signEnd] at hlt hdigits
    split_ifs at hlt hdigits with hsign
    · refine ⟨letter, hmem, [b.byteAt (p + 1)], b.text (p + 2) q, ?_, ?_, (digits_text (by omega) hq).2 hdigits⟩
      · exact (text_eq_cons hpq hq).2 ⟨by omega, hletter, text_cons (by omega) hq⟩
      · simpa [Sign, Lexer.isExponentSign] using hsign
    · exact ⟨letter, hmem, [], _, (text_eq_cons hpq hq).2 ⟨by omega, hletter, rfl⟩, .inl rfl,
        (digits_text (by omega) hq).2 hdigits⟩

theorem ExponentAt.lt {letters : List Char} (h : b.ExponentAt letters p q) : p < q := by
  have hlt := h.2.1
  rw [signEnd] at hlt
  split_ifs at hlt <;> omega

theorem ExponentAt.le {letters : List Char} (h : b.ExponentAt letters p q) : p ≤ q := h.lt.le

theorem text_prefix {c d : UInt8} (hc : b.byteAt p = c) (hd : b.byteAt (p + 1) = d) (hpq : p + 2 ≤ q) (hq : q ≤ b.size) :
    b.text p q = c :: d :: b.text (p + 2) q := by
  rw [text_cons (by omega) hq, text_cons (by omega) hq, hc, hd]

theorem DigitsAt.cons (h : b.AllBytes (fun c => isDigit c || c = byte '_') (p + 1) q) (hlt : p < q)
    (hc : isDigit (b.byteAt p)) : b.DigitsAt isDigit p q := by
  refine ⟨hlt, hc, fun k hk hk' => ?_⟩
  rcases hk.eq_or_lt with rfl | hk
  · simp [hc]
  · exact h k hk hk'

end Buffer

/-! ## What is scanned is a number literal -/

structure Scanned.IsNumber (t : Scanned) (b : Buffer) (tokStart : Nat) : Prop where
  fits : t.Fits b tokStart
  plain : t.escaped = false
  kind : t.kind = .integerLiteral ∨ t.kind = .floatingLiteral ∨ t.kind = .unknown
  spells : t.kind = .integerLiteral ∨ t.kind = .floatingLiteral → NumberLiteral t.kind (b.text tokStart t.curPtr)

section

variable {b : Buffer} {tokStart p q : Nat} {kind : Tok}

theorem Scanned.IsNumber.literal (h : NumberLiteral kind (b.text tokStart p)) (hlt : tokStart < p) (hp : p ≤ b.size) :
    (Scanned.plain kind p).IsNumber b tokStart :=
  ⟨.plain hlt hp (by rcases h.kinds with rfl | rfl <;> decide), rfl, h.kinds.imp_right .inl, fun _ => h⟩

theorem Scanned.IsNumber.unknown (hlt : tokStart < p) (hp : p ≤ b.size) :
    (Scanned.plain .unknown p).IsNumber b tokStart :=
  ⟨.plain hlt hp (by decide), rfl, .inr (.inr rfl), fun h => by rcases h with h | h <;> cases h⟩

end

namespace Lexer

variable {L : Lexer} {tokStart p : Nat} {prev : Tok}

theorem returns_digits {isDigit : UInt8 → Bool} (hp : p ≤ L.buffer.size) (h0 : isDigit 0 = false) :
    Returns (L.digits isDigit p) fun q => (p ≤ q ∧ q ≤ L.buffer.size) ∧
      L.buffer.AllBytes (fun c => isDigit c || c = byte '_') p q ∧
      (isDigit (L.buffer.byteAt q) || L.buffer.byteAt q = byte '_') = false := by
  refine (Buffer.returns_scanWhile hp ?_).of_eq fun q hq => (Buffer.scanWhile_stop hq).2
  rw [h0]
  decide

theorem returns_digitsAt {isDigit : UInt8 → Bool} (hp : p ≤ L.buffer.size) (hc : isDigit (L.buffer.byteAt p))
    (h0 : isDigit 0 = false) :
    Returns (L.digits isDigit p) fun q => q ≤ L.buffer.size ∧ L.buffer.DigitsAt isDigit p q := by
  refine (returns_digits hp h0).mono fun q hq => ⟨hq.1.2, ?_, hc, hq.2.1⟩
  refine lt_of_le_of_ne hq.1.1 fun heq => ?_
  rw [← heq, hc] at hq
  exact absurd hq.2.2 (by simp)

theorem returns_expectedDigit (hlt : tokStart < p) (hp : p ≤ L.buffer.size) :
    Returns (L.expectedDigit p) fun t => t.IsNumber L.buffer tokStart :=
  (Buffer.returns_advanceWhile hp).map fun _ hq => .unknown (by omega) hq.2

theorem returns_literalEnd {kind : Tok} (h : NumberLiteral kind (L.buffer.text tokStart p)) (hlt : tokStart < p)
    (hp : p ≤ L.buffer.size) : Returns (L.literalEnd kind p) fun t => t.IsNumber L.buffer tokStart := by
  rw [literalEnd]
  cases hnext : L.buffer.advanceIf isValidIdentifierContinuationCodePoint p with
  | none => exact .pure (.literal h hlt hp)
  | some q =>
      have := Buffer.advanceIf_bounds hnext
      exact returns_expectedDigit (by omega) this.2

theorem returns_expectedExponent (hlt : tokStart < p) (hp : p ≤ L.buffer.size) :
    Returns (L.expectedExponent p) fun t => t.IsNumber L.buffer tokStart := by
  rw [expectedExponent]
  cases hnext : L.buffer.advanceIf isValidIdentifierContinuationCodePoint p with
  | none => exact returns_expectedDigit hlt hp
  | some q =>
      have := Buffer.advanceIf_bounds hnext
      exact returns_expectedDigit (by simp only [Option.getD_some]; omega) this.2

theorem signEnd_eq (p : Nat) :
    (if isExponentSign (L.buffer.byteAt (p + 1)) then p + 2 else p + 1) = L.buffer.signEnd (p + 1) := rfl

theorem signEnd_bounds (hp : p + 1 ≤ L.buffer.size) :
    p < L.buffer.signEnd (p + 1) ∧ L.buffer.signEnd (p + 1) ≤ L.buffer.size := by
  rw [Buffer.signEnd]
  split_ifs with hsign
  · exact ⟨by omega, Buffer.lt_size_of_test hp hsign (by decide)⟩
  · exact ⟨by omega, hp⟩

theorem returns_lexHexExponent {ptrOnDot : Option Nat} (hlt : tokStart < p) (hp : p ≤ L.buffer.size)
    (hc : L.buffer.byteAt p = byte 'p' ∨ L.buffer.byteAt p = byte 'P')
    (hexponent : ∀ q, q ≤ L.buffer.size → L.buffer.ExponentAt ['p', 'P'] p q →
      NumberLiteral .floatingLiteral (L.buffer.text tokStart q))
    (hdot : ∀ dot ∈ ptrOnDot, (tokStart < dot ∧ dot < L.buffer.size) ∧
      NumberLiteral .integerLiteral (L.buffer.text tokStart dot)) :
    Returns (L.lexHexExponent ptrOnDot p) fun t => t.IsNumber L.buffer tokStart := by
  have hp' : p + 1 ≤ L.buffer.size := by
    rcases hc with hc | hc
    · exact Buffer.lt_size_of_eq hp hc (by decide)
    · exact Buffer.lt_size_of_eq hp hc (by decide)
  obtain ⟨hsign, hsize⟩ := signEnd_bounds hp'
  simp only [lexHexExponent, Buffer.read_eq hp, Buffer.read_eq hp', Option.bind_eq_bind, Option.bind_some, guard,
    if_pos hc, Option.pure_def, signEnd_eq]
  refine (Buffer.returns_read hsize).bind ?_
  rintro _ rfl
  refine .ite (fun hdigit => ?_) fun _ => ?_
  · refine (returns_digitsAt hsize hdigit (by decide)).bind fun q hq => ?_
    have hlt' := hq.2.1
    exact returns_literalEnd (hexponent q hq.1 ⟨by simpa using hc, hq.2⟩) (by omega) hq.1
  · cases ptrOnDot with
    | none => exact returns_expectedExponent (by omega) hsize
    | some dot =>
        obtain ⟨⟨hdot, hdotSize⟩, hinteger⟩ := hdot dot rfl
        refine (Buffer.returns_read (show dot + 1 ≤ L.buffer.size from hdotSize)).bind fun _ _ => ?_
        exact .ite (fun _ => .pure (.literal hinteger hdot hdotSize.le)) fun _ => returns_expectedExponent (by omega) hsize

theorem returns_lexHexNumber (hp : tokStart + 1 ≤ L.buffer.size) (hzero : L.buffer.byteAt tokStart = byte '0')
    (hx : L.buffer.byteAt (tokStart + 1) = byte 'x') :
    Returns (L.lexHexNumber tokStart) fun t => t.IsNumber L.buffer tokStart := by
  have hp' : tokStart + 2 ≤ L.buffer.size := Buffer.lt_size_of_eq hp hx (by decide)
  have hbefore : ∀ q, tokStart + 2 ≤ q → q ≤ L.buffer.size →
      L.buffer.text tokStart q = byte '0' :: byte 'x' :: L.buffer.text (tokStart + 2) q :=
    fun q hq hle => Buffer.text_prefix hzero hx hq hle
  simp only [lexHexNumber, Buffer.read_eq hp, Buffer.read_eq (show tokStart ≤ L.buffer.size by omega), hzero, hx,
    Option.bind_eq_bind, Option.bind_some, and_self, guard_true, Option.pure_def]
  refine (Buffer.returns_read hp').bind ?_
  rintro _ rfl
  refine .ite (fun _ => returns_expectedDigit (by omega) hp') fun hhex => ?_
  refine (returns_digitsAt hp' (by simpa using hhex) (by decide)).bind fun p ⟨hp, hwhole⟩ => ?_
  have hlt := hwhole.1
  have hdigits := (Buffer.digits_text hlt.le hp).2 hwhole
  have hinteger : NumberLiteral .integerLiteral (L.buffer.text tokStart p) := by
    rw [hbefore p hlt.le hp]
    exact .hex hdigits
  have hfloat : ∀ m q, p ≤ m → m ≤ q → q ≤ L.buffer.size → L.buffer.FractionAt isHexDigit p m →
      L.buffer.ExponentAt ['p', 'P'] m q → NumberLiteral .floatingLiteral (L.buffer.text tokStart q) := by
    intro m q hpm hmq hq hfraction hexponent
    rw [hbefore q (by omega) hq, Buffer.text_append hlt.le (hpm.trans hmq), Buffer.text_append hpm hmq]
    exact .hexFloat hdigits ((Buffer.fraction_text hpm (hmq.trans hq)).2 hfraction) ((Buffer.exponent_text hmq hq).2 hexponent)
  refine (Buffer.returns_read hp).bind ?_
  rintro _ rfl
  refine .ite (fun hdot => ?_) fun _ => .ite (fun hexp => ?_) fun _ => returns_literalEnd hinteger (by omega) hp
  · have hdotSize : p + 1 ≤ L.buffer.size := Buffer.lt_size_of_eq hp hdot (by decide)
    refine (Buffer.returns_read hdotSize).bind ?_
    rintro _ rfl
    refine .ite (fun _ => .pure (.literal hinteger (by omega) hp)) fun hhex => ?_
    refine (returns_digitsAt hdotSize (by simpa using hhex) (by decide)).bind fun m ⟨hm, hfraction⟩ => ?_
    have hlt' := hfraction.1
    refine (Buffer.returns_read hm).bind ?_
    rintro _ rfl
    refine .ite (fun hexp => ?_) fun _ => (Buffer.returns_read hdotSize).bind fun _ _ =>
      .ite (fun _ => .pure (.literal hinteger (by omega) hp)) fun _ => .pure (.unknown (by omega) hm)
    refine returns_lexHexExponent (by omega) hm hexp (fun q hq hexponent => ?_) fun dot hdot => ?_
    · exact hfloat m q (by omega) hexponent.le hq (.inr ⟨hdot, hfraction⟩) hexponent
    · obtain rfl := Option.some.inj hdot
      exact ⟨⟨by omega, hdotSize⟩, hinteger⟩
  · refine returns_lexHexExponent (by omega) hp hexp (fun q hq hexponent => ?_) fun dot hdot =>
      absurd hdot.symm (Option.some_ne_none dot)
    exact hfloat p q le_rfl hexponent.le hq (.inl rfl) hexponent

theorem returns_lexRadixNumber {isRadixDigit : UInt8 → Bool} (hp : tokStart + 2 ≤ L.buffer.size)
    (h0 : isRadixDigit 0 = false)
    (hinteger : ∀ q, q ≤ L.buffer.size → L.buffer.DigitsAt isRadixDigit (tokStart + 2) q →
      NumberLiteral .integerLiteral (L.buffer.text tokStart q)) :
    Returns (L.lexRadixNumber isRadixDigit tokStart) fun t => t.IsNumber L.buffer tokStart := by
  refine (Buffer.returns_read hp).bind ?_
  rintro _ rfl
  refine .ite (fun _ => returns_expectedDigit (by omega) hp) fun hdigit => ?_
  refine (returns_digitsAt hp (by simpa using hdigit) h0).bind fun q ⟨hq, hdigits⟩ => ?_
  have hlt := hdigits.1
  exact returns_literalEnd (hinteger q hq hdigits) (by omega) hq

theorem returns_lexExponent (hlt : tokStart < p) (hp : p ≤ L.buffer.size)
    (hnone : ¬ (L.buffer.byteAt p = byte 'e' ∨ L.buffer.byteAt p = byte 'E') →
      NumberLiteral .floatingLiteral (L.buffer.text tokStart p))
    (hexponent : ∀ q, q ≤ L.buffer.size → L.buffer.ExponentAt ['e', 'E'] p q →
      NumberLiteral .floatingLiteral (L.buffer.text tokStart q)) :
    Returns (L.lexExponent p) fun t => t.IsNumber L.buffer tokStart := by
  refine (Buffer.returns_read hp).bind ?_
  rintro _ rfl
  refine .ite (fun hexp => ?_) fun hexp => .pure (.literal (hnone hexp) hlt hp)
  have hp' : p + 1 ≤ L.buffer.size := by
    rcases hexp with hexp | hexp
    · exact Buffer.lt_size_of_eq hp hexp (by decide)
    · exact Buffer.lt_size_of_eq hp hexp (by decide)
  obtain ⟨hsign, hsize⟩ := signEnd_bounds hp'
  refine (Buffer.returns_read hp').bind ?_
  rintro _ rfl
  simp only [signEnd_eq]
  refine (Buffer.returns_read hsize).bind ?_
  rintro _ rfl
  refine .ite (fun hdigit => ?_) fun _ => returns_expectedExponent (by omega) hsize
  refine (returns_digitsAt hsize hdigit (by decide)).bind fun q hq => ?_
  have hlt' := hq.2.1
  exact returns_literalEnd (hexponent q hq.1 ⟨by simpa using hexp, hq.2⟩) (by omega) hq.1

theorem returns_lexNumber (prev : Tok) (hp : tokStart < L.buffer.size) (hdigit : isDigit (L.buffer.byteAt tokStart)) :
    Returns (L.lexNumber prev tokStart) fun t => t.IsNumber L.buffer tokStart := by
  have hp' : tokStart + 1 ≤ L.buffer.size := hp
  refine (Buffer.returns_read hp.le).bind ?_
  rintro _ rfl
  refine (Buffer.returns_read hp').bind ?_
  rintro _ rfl
  refine .ite (fun hx => returns_lexHexNumber hp' hx.1 hx.2) fun _ => .ite (fun ho => ?_) fun _ =>
    .ite (fun hb => ?_) fun _ => ?_
  · refine returns_lexRadixNumber (Buffer.lt_size_of_eq hp' ho.2 (by decide)) (by decide) fun q hq hdigits => ?_
    have hlt := hdigits.1
    rw [Buffer.text_prefix ho.1 ho.2 hlt.le hq]
    exact .octal ((Buffer.digits_text hlt.le hq).2 hdigits)
  · refine returns_lexRadixNumber (Buffer.lt_size_of_eq hp' hb.2 (by decide)) (by decide) fun q hq hdigits => ?_
    have hlt := hdigits.1
    rw [Buffer.text_prefix hb.1 hb.2 hlt.le hq]
    exact .binary ((Buffer.digits_text hlt.le hq).2 hdigits)
  · refine (returns_digits hp' (by decide)).bind fun p ⟨⟨hle, hp⟩, hall, _⟩ => (Buffer.returns_read hp).bind ?_
    rintro _ rfl
    have hlt : tokStart < p := by omega
    have hwhole := (Buffer.digits_text hlt.le hp).2 (.cons hall hlt hdigit)
    have hfloat : ∀ m q, p ≤ m → m ≤ q → q ≤ L.buffer.size → L.buffer.FractionAt isDigit p m →
        (m = q ∨ L.buffer.ExponentAt ['e', 'E'] m q) → p < q →
        NumberLiteral .floatingLiteral (L.buffer.text tokStart q) := by
      intro m q hpm hmq hq hfraction hexponent hne
      rw [Buffer.text_append hlt.le (hpm.trans hmq), Buffer.text_append hpm hmq]
      refine .float hwhole ((Buffer.fraction_text hpm (hmq.trans hq)).2 hfraction) ?_ ?_
      · exact hexponent.imp (Buffer.text_eq_nil hmq hq).2 (Buffer.exponent_text hmq hq).2
      · rw [Ne, Ne, Buffer.text_eq_nil hpm (hmq.trans hq), Buffer.text_eq_nil hmq hq]
        omega
    refine .ite (fun hdot => ?_) fun _ => .ite (fun hexp => ?_) fun _ => returns_literalEnd (.decimal hwhole) hlt hp
    · have hdotSize : p + 1 ≤ L.buffer.size := Buffer.lt_size_of_eq hp hdot (by decide)
      refine (Buffer.returns_read hdotSize).bind ?_
      rintro _ rfl
      refine .ite (fun _ => .pure (.literal (.decimal hwhole) hlt hp)) fun hnext => ?_
      have hnext : isDigit (L.buffer.byteAt (p + 1)) := by
        by_contra h
        exact hnext (.inl (by simpa using h))
      refine (returns_digitsAt hdotSize hnext (by decide)).bind fun m ⟨hm, hfraction⟩ => ?_
      have hlt' := hfraction.1
      refine returns_lexExponent (by omega) hm (fun _ => ?_) fun q hq hexponent => ?_
      · exact hfloat m m (by omega) le_rfl hm (.inr ⟨hdot, hfraction⟩) (.inl rfl) (by omega)
      · exact hfloat m q (by omega) hexponent.le hq (.inr ⟨hdot, hfraction⟩) (.inr hexponent)
          (by have := hexponent.le; omega)
    · refine returns_lexExponent hlt hp (fun hne => absurd hexp hne) fun q hq hexponent => ?_
      exact hfloat p q le_rfl hexponent.le hq (.inl rfl) (.inr hexponent) hexponent.lt

/-! ## Number literals are scanned to their end -/

/-- The character at `q` can neither continue an identifier nor is a period. -/
def EndsNumber (L : Lexer) (q : Nat) : Prop :=
  L.buffer.advanceIf isValidIdentifierContinuationCodePoint q = none ∧ L.buffer.byteAt q ≠ byte '.'

theorem isIdentifierBody_continues : ∀ c : UInt8, isIdentifierBody c true →
    c ≠ 0 ∧ c < 0x80 ∧ isValidIdentifierContinuationCodePoint c.toNat := forall_byte (by decide +kernel)

theorem isIdentifierBody_of_isDigit (c : UInt8) (h : isDigit c = true) : isIdentifierBody c true = true := by
  rw [isIdentifierBody, h, Bool.or_true]

theorem isIdentifierBody_of_isHexDigit : ∀ c : UInt8, isHexDigit c → isIdentifierBody c true :=
  forall_byte (by decide +kernel)

theorem isDigit_of_isOctalDigit (c : UInt8) (h : isOctalDigit c = true) : isDigit c = true := by
  simp only [isOctalDigit, isDigit, Bool.and_eq_true, decide_eq_true_eq] at *
  exact ⟨h.1, UInt8.le_trans h.2 (show byte '7' ≤ byte '9' by decide)⟩

theorem isDigit_of_isBinaryDigit (c : UInt8) (h : isBinaryDigit c = true) : isDigit c = true := by
  simp only [isBinaryDigit, Bool.or_eq_true, decide_eq_true_eq] at h
  rcases h with rfl | rfl <;> decide

theorem EndsNumber.not_body {q : Nat} (h : EndsNumber L q) (hq : q ≤ L.buffer.size) :
    isIdentifierBody (L.buffer.byteAt q) true = false := by
  refine Bool.eq_false_iff.2 fun hbody => ?_
  obtain ⟨hzero, hascii, hvalid⟩ := isIdentifierBody_continues _ hbody
  have hnone := h.1
  rw [Buffer.advanceIf_ascii (Buffer.lt_size hq hzero) hascii, if_pos hvalid] at hnone
  exact Option.some_ne_none _ hnone

theorem EndsNumber.byteAt_ne {q : Nat} (h : EndsNumber L q) (hq : q ≤ L.buffer.size) {c : UInt8}
    (hc : isIdentifierBody c true) : L.buffer.byteAt q ≠ c := by
  rintro rfl
  rw [h.not_body hq] at hc
  exact Bool.false_ne_true hc

theorem EndsNumber.not_digit {q : Nat} (h : EndsNumber L q) (hq : q ≤ L.buffer.size) {isDigit : UInt8 → Bool}
    (hclass : ∀ c, isDigit c → isIdentifierBody c true) : isDigit (L.buffer.byteAt q) = false :=
  Bool.eq_false_iff.2 fun hc => h.byteAt_ne hq (hclass _ hc) rfl

theorem EndsNumber.literalEnd {q : Nat} (h : EndsNumber L q) (kind : Tok) :
    L.literalEnd kind q = some (.plain kind q) := by
  rw [Lexer.literalEnd, h.1]

theorem digits_eq {q : Nat} {isDigit : UInt8 → Bool}
    (hall : L.buffer.AllBytes (fun c => isDigit c || c = byte '_') p q) (hpq : p ≤ q) (hq : q ≤ L.buffer.size)
    (h0 : isDigit 0 = false) (hdigit : isDigit (L.buffer.byteAt q) = false) (hunderscore : L.buffer.byteAt q ≠ byte '_') :
    L.digits isDigit p = some q := by
  obtain ⟨q', hdigits, ⟨hpq', -⟩, hall', hstop⟩ := returns_digits (hpq.trans hq) h0
  rw [hdigits]
  rcases lt_trichotomy q' q with hlt | rfl | hlt
  · exact absurd (hall q' hpq' hlt) (Bool.eq_false_iff.1 hstop)
  · rfl
  · have hq' := hall' q hpq hlt
    simp [hdigit, hunderscore] at hq'

theorem digits_end {q : Nat} {isDigit : UInt8 → Bool} (h : L.buffer.DigitsAt isDigit p q) (hq : q ≤ L.buffer.size)
    (hclass : ∀ c, isDigit c → isIdentifierBody c true) (hend : EndsNumber L q) : L.digits isDigit p = some q := by
  refine digits_eq h.2.2 h.1.le hq ?_ (hend.not_digit hq hclass) (hend.byteAt_ne hq (by decide))
  exact Bool.eq_false_iff.2 fun h0 => (isIdentifierBody_continues 0 (hclass 0 h0)).1 rfl

theorem lexExponent_reads {q : Nat} (h : L.buffer.ExponentAt ['e', 'E'] p q) (hq : q ≤ L.buffer.size)
    (hend : EndsNumber L q) : L.lexExponent p = some (.plain .floatingLiteral q) := by
  have hlt := h.lt
  have hexp : L.buffer.byteAt p = byte 'e' ∨ L.buffer.byteAt p = byte 'E' := by simpa using h.1
  have hsize := (signEnd_bounds (show p + 1 ≤ L.buffer.size by omega)).2
  have hdigits := digits_end h.2 hq isIdentifierBody_of_isDigit hend
  simp only [lexExponent, Buffer.read_eq (show p ≤ L.buffer.size by omega), Buffer.read_eq (show p + 1 ≤ L.buffer.size by omega),
    Option.bind_eq_bind, Option.bind_some, if_pos hexp, signEnd_eq, Buffer.read_eq hsize, h.2.2.1, if_true, hdigits,
    hend.literalEnd]

theorem lexHexExponent_reads {q : Nat} (ptrOnDot : Option Nat) (h : L.buffer.ExponentAt ['p', 'P'] p q)
    (hq : q ≤ L.buffer.size) (hend : EndsNumber L q) :
    L.lexHexExponent ptrOnDot p = some (.plain .floatingLiteral q) := by
  have hlt := h.lt
  have hexp : L.buffer.byteAt p = byte 'p' ∨ L.buffer.byteAt p = byte 'P' := by simpa using h.1
  have hsize := (signEnd_bounds (show p + 1 ≤ L.buffer.size by omega)).2
  have hdigits := digits_end h.2 hq isIdentifierBody_of_isDigit hend
  simp only [lexHexExponent, Buffer.read_eq (show p ≤ L.buffer.size by omega),
    Buffer.read_eq (show p + 1 ≤ L.buffer.size by omega), Option.bind_eq_bind, Option.bind_some, guard, if_pos hexp,
    Option.pure_def, signEnd_eq, Buffer.read_eq hsize, h.2.2.1, if_true, hdigits, hend.literalEnd]

theorem lexRadixNumber_reads {q : Nat} {isRadixDigit : UInt8 → Bool} (h : L.buffer.DigitsAt isRadixDigit (p + 2) q)
    (hq : q ≤ L.buffer.size) (hclass : ∀ c, isRadixDigit c → isIdentifierBody c true) (hend : EndsNumber L q) :
    L.lexRadixNumber isRadixDigit p = some (.plain .integerLiteral q) := by
  have hlt := h.1
  simp only [lexRadixNumber, Buffer.read_eq (show p + 2 ≤ L.buffer.size by omega), Option.bind_eq_bind, Option.bind_some,
    h.2.1, Bool.not_true, Bool.false_eq_true, if_false, digits_end h hq hclass hend, hend.literalEnd]

theorem lexHexNumber_digits {m : Nat} (hzero : L.buffer.byteAt p = byte '0') (hx : L.buffer.byteAt (p + 1) = byte 'x')
    (h : L.buffer.DigitsAt isHexDigit (p + 2) m) (hm : m ≤ L.buffer.size)
    (hstop : isHexDigit (L.buffer.byteAt m) = false) (hunderscore : L.buffer.byteAt m ≠ byte '_') :
    L.lexHexNumber p =
      if L.buffer.byteAt m = byte '.' then do
        if !isHexDigit (← L.buffer.read (m + 1)) then return .plain .integerLiteral m
        else
          let q ← L.digits isHexDigit (m + 1)
          let d ← L.buffer.read q
          if d = byte 'p' ∨ d = byte 'P' then L.lexHexExponent (some m) q
          else if !isDigit (← L.buffer.read (m + 1)) then return .plain .integerLiteral m
          else return .plain .unknown q
      else if L.buffer.byteAt m = byte 'p' ∨ L.buffer.byteAt m = byte 'P' then L.lexHexExponent none m
      else L.literalEnd .integerLiteral m := by
  have hlt := h.1
  have hdigits : L.digits isHexDigit (p + 2) = some m := digits_eq h.2.2 hlt.le hm (by decide) hstop hunderscore
  simp only [lexHexNumber, Buffer.read_eq (show p ≤ L.buffer.size by omega),
    Buffer.read_eq (show p + 1 ≤ L.buffer.size by omega), Buffer.read_eq (show p + 2 ≤ L.buffer.size by omega),
    Option.bind_eq_bind, Option.bind_some, hzero, hx, and_self, guard_true, Option.pure_def, h.2.1, Bool.not_true,
    Bool.false_eq_true, if_false, hdigits, Buffer.read_eq hm]

theorem lexHexNumber_reads_integer {q : Nat} (hzero : L.buffer.byteAt p = byte '0')
    (hx : L.buffer.byteAt (p + 1) = byte 'x') (h : L.buffer.DigitsAt isHexDigit (p + 2) q) (hq : q ≤ L.buffer.size)
    (hend : EndsNumber L q) : L.lexHexNumber p = some (.plain .integerLiteral q) := by
  rw [lexHexNumber_digits hzero hx h hq (hend.not_digit hq isIdentifierBody_of_isHexDigit)
    (hend.byteAt_ne hq (by decide)), if_neg hend.2, if_neg, hend.literalEnd]
  rintro (hp | hp)
  · exact hend.byteAt_ne hq (by decide) hp
  · exact hend.byteAt_ne hq (by decide) hp

theorem stops_of_letter {letters : List Char} {q m : Nat} (isDigit : UInt8 → Bool) (h : L.buffer.ExponentAt letters m q)
    (hletters : ∀ letter ∈ letters, isDigit (byte letter) = false ∧ byte letter ≠ byte '_') :
    isDigit (L.buffer.byteAt m) = false ∧ L.buffer.byteAt m ≠ byte '_' := by
  obtain ⟨⟨letter, hmem, hletter⟩, -⟩ := h
  rw [hletter]
  exact hletters letter hmem

theorem lexHexNumber_reads_float {m n q : Nat} (hzero : L.buffer.byteAt p = byte '0')
    (hx : L.buffer.byteAt (p + 1) = byte 'x') (hwhole : L.buffer.DigitsAt isHexDigit (p + 2) m)
    (hfraction : L.buffer.FractionAt isHexDigit m n) (hexponent : L.buffer.ExponentAt ['p', 'P'] n q)
    (hmn : m ≤ n) (hq : q ≤ L.buffer.size) (hend : EndsNumber L q) :
    L.lexHexNumber p = some (.plain .floatingLiteral q) := by
  have hnq := hexponent.lt
  have hletter : L.buffer.byteAt n = byte 'p' ∨ L.buffer.byteAt n = byte 'P' := by simpa using hexponent.1
  obtain ⟨hstop, hunderscore⟩ := stops_of_letter isHexDigit hexponent (List.forall_iff_forall_mem.1 (by decide))
  rcases hfraction with rfl | ⟨hdot, hdigits⟩
  · have hne : L.buffer.byteAt m ≠ byte '.' := by
      rcases hletter with h | h <;> rw [h] <;> decide
    rw [lexHexNumber_digits hzero hx hwhole (by omega) hstop hunderscore, if_neg hne, if_pos hletter,
      lexHexExponent_reads none hexponent hq hend]
  · have hlt := hdigits.1
    have hread := digits_eq hdigits.2.2 hlt.le (by omega) (by decide) hstop hunderscore
    rw [lexHexNumber_digits hzero hx hwhole (by omega) (by rw [hdot]; decide) (by rw [hdot]; decide), if_pos hdot]
    simp only [Buffer.read_eq (show m + 1 ≤ L.buffer.size by omega), Option.bind_eq_bind, Option.bind_some, hdigits.2.1,
      Bool.not_true, Bool.false_eq_true, if_false, hread, Buffer.read_eq (show n ≤ L.buffer.size by omega), if_pos hletter,
      lexHexExponent_reads (some m) hexponent hq hend]

theorem lexNumber_digits {m : Nat} (h : L.buffer.DigitsAt isDigit p m) (hm : m ≤ L.buffer.size)
    (hstop : isDigit (L.buffer.byteAt m) = false) (hunderscore : L.buffer.byteAt m ≠ byte '_')
    (hradix : ∀ c ∈ ['x', 'o', 'b'], L.buffer.byteAt m ≠ byte c) :
    L.lexNumber prev p =
      if L.buffer.byteAt m = byte '.' then do
        if !isDigit (← L.buffer.read (m + 1)) ∨ prev = .period then return .plain .integerLiteral m
        else L.lexExponent (← L.digits isDigit (m + 1))
      else if L.buffer.byteAt m = byte 'e' ∨ L.buffer.byteAt m = byte 'E' then L.lexExponent m
      else L.literalEnd .integerLiteral m := by
  have hlt := h.1
  have hdigits : L.digits isDigit (p + 1) = some m :=
    digits_eq (fun k hk => h.2.2 k (by omega)) hlt hm (by decide) hstop hunderscore
  have hsecond : ∀ c ∈ ['x', 'o', 'b'], L.buffer.byteAt (p + 1) ≠ byte c := by
    rcases (Nat.succ_le_iff.2 hlt).eq_or_lt with heq | hlt
    · rwa [← heq] at hradix
    · intro c hc heq
      have hall := h.2.2 (p + 1) (by omega) hlt
      have hletters : ∀ c ∈ ['x', 'o', 'b'], (isDigit (byte c) || byte c = byte '_') = false :=
        List.forall_iff_forall_mem.1 (by decide)
      rw [heq] at hall
      exact absurd hall (Bool.eq_false_iff.1 (hletters c hc))
  have hx := hsecond 'x' (by decide)
  have ho := hsecond 'o' (by decide)
  have hb := hsecond 'b' (by decide)
  simp only [lexNumber, Buffer.read_eq (show p ≤ L.buffer.size by omega), Buffer.read_eq (show p + 1 ≤ L.buffer.size by omega),
    Option.bind_eq_bind, Option.bind_some, hx, ho, hb, and_false, if_false, hdigits, Buffer.read_eq hm]

theorem lexNumber_reads_integer {q : Nat} (h : L.buffer.DigitsAt isDigit p q) (hq : q ≤ L.buffer.size)
    (hend : EndsNumber L q) : L.lexNumber prev p = some (.plain .integerLiteral q) := by
  rw [lexNumber_digits h hq (hend.not_digit hq isIdentifierBody_of_isDigit) (hend.byteAt_ne hq (by decide)),
    if_neg hend.2, if_neg, hend.literalEnd]
  · rintro (he | he)
    · exact hend.byteAt_ne hq (by decide) he
    · exact hend.byteAt_ne hq (by decide) he
  · intro c hc
    refine hend.byteAt_ne hq ?_
    revert c
    exact List.forall_iff_forall_mem.1 (by decide)

theorem lexNumber_reads_float {m n q : Nat} (hwhole : L.buffer.DigitsAt isDigit p m)
    (hfraction : L.buffer.FractionAt isDigit m n) (hexponent : n = q ∨ L.buffer.ExponentAt ['e', 'E'] n q)
    (hne : m < q) (hq : q ≤ L.buffer.size) (hend : EndsNumber L q) (hprev : prev ≠ .period) :
    L.lexNumber prev p = some (.plain .floatingLiteral q) := by
  have hnq : n ≤ q := by
    rcases hexponent with rfl | h
    · exact le_rfl
    · exact h.le
  have hletter : L.buffer.ExponentAt ['e', 'E'] n q → L.buffer.byteAt n = byte 'e' ∨ L.buffer.byteAt n = byte 'E' :=
    fun h => by simpa using h.1
  rcases hfraction with rfl | ⟨hdot, hdigits⟩
  · have hexponent := hexponent.resolve_left hne.ne
    obtain ⟨hstop, hunderscore⟩ := stops_of_letter isDigit hexponent (List.forall_iff_forall_mem.1 (by decide))
    have hletter := hletter hexponent
    have hne : L.buffer.byteAt m ≠ byte '.' := by
      rcases hletter with h | h <;> rw [h] <;> decide
    rw [lexNumber_digits hwhole (by omega) hstop hunderscore, if_neg hne, if_pos hletter,
      lexExponent_reads hexponent hq hend]
    rcases hletter with h | h <;> rw [h] <;> exact List.forall_iff_forall_mem.1 (by decide)
  · have hlt := hdigits.1
    have hexp : L.lexExponent n = some (.plain .floatingLiteral q) ∧ isDigit (L.buffer.byteAt n) = false ∧
        L.buffer.byteAt n ≠ byte '_' := by
      rcases hexponent with rfl | h
      · refine ⟨?_, hend.not_digit hq isIdentifierBody_of_isDigit, hend.byteAt_ne hq (by decide)⟩
        simp only [lexExponent, Buffer.read_eq hq, Option.bind_eq_bind, Option.bind_some,
          hend.byteAt_ne hq (show isIdentifierBody (byte 'e') true by decide),
          hend.byteAt_ne hq (show isIdentifierBody (byte 'E') true by decide), or_self, if_false, Option.pure_def]
      · exact ⟨lexExponent_reads h hq hend, stops_of_letter isDigit h (List.forall_iff_forall_mem.1 (by decide))⟩
    have hread := digits_eq hdigits.2.2 hlt.le (by omega) (by decide) hexp.2.1 hexp.2.2
    rw [lexNumber_digits hwhole (by omega) (by rw [hdot]; decide) (by rw [hdot]; decide)
      (by rw [hdot]; exact List.forall_iff_forall_mem.1 (by decide)), if_pos hdot]
    simp only [Buffer.read_eq (show m + 1 ≤ L.buffer.size by omega), Option.bind_eq_bind, Option.bind_some, hdigits.2.1,
      Bool.not_true, Bool.false_eq_true, hprev, or_self, if_false, hread, hexp.1]

theorem lexNumber_radix {c : Char} (hzero : L.buffer.byteAt p = byte '0') (hc : L.buffer.byteAt (p + 1) = byte c)
    (hp : p + 1 ≤ L.buffer.size) (hradix : c ∈ ['x', 'o', 'b']) : L.lexNumber prev p =
      if c = 'x' then L.lexHexNumber p
      else if c = 'o' then L.lexRadixNumber isOctalDigit p
      else L.lexRadixNumber isBinaryDigit p := by
  have hbytes : ∀ c ∈ ['x', 'o', 'b'], (byte c = byte 'x' ↔ c = 'x') ∧ (byte c = byte 'o' ↔ c = 'o') ∧
    (byte c = byte 'b' ↔ c ≠ 'x' ∧ c ≠ 'o') := List.forall_iff_forall_mem.1 (by decide)
  obtain ⟨hx, ho, hb⟩ := hbytes c hradix
  simp only [lexNumber, Buffer.read_eq (show p ≤ L.buffer.size by omega), Buffer.read_eq hp, Option.bind_eq_bind,
    Option.bind_some, hzero, hc, true_and, hx, ho, hb]
  split_ifs with h1 h2 h3
  · rfl
  · rfl
  · rfl
  · exact absurd ⟨h1, h2⟩ h3

theorem lexNumber_reads {kind : Tok} {q : Nat} (h : NumberLiteral kind (L.buffer.text p q)) (hpq : p ≤ q)
    (hq : q ≤ L.buffer.size) (hend : EndsNumber L q) (hprev : prev ≠ .period) :
    L.lexNumber prev p = some (.plain kind q) := by
  generalize htext : L.buffer.text p q = text at h
  cases h with
  | decimal h => exact lexNumber_reads_integer ((Buffer.digits_text hpq hq).1 (htext ▸ h)) hq hend
  | hex h =>
      obtain ⟨hlt, hzero, htext⟩ := (Buffer.text_eq_cons hpq hq).1 htext
      obtain ⟨hlt, hx, htext⟩ := (Buffer.text_eq_cons hlt hq).1 htext
      rw [lexNumber_radix hzero hx (by omega) (by decide), if_pos rfl]
      exact lexHexNumber_reads_integer hzero hx ((Buffer.digits_text hlt hq).1 (htext ▸ h)) hq hend
  | octal h =>
      obtain ⟨hlt, hzero, htext⟩ := (Buffer.text_eq_cons hpq hq).1 htext
      obtain ⟨hlt, ho, htext⟩ := (Buffer.text_eq_cons hlt hq).1 htext
      rw [lexNumber_radix hzero ho (by omega) (by decide), if_neg (by decide), if_pos rfl]
      exact lexRadixNumber_reads ((Buffer.digits_text hlt hq).1 (htext ▸ h)) hq
        (fun c hc => isIdentifierBody_of_isDigit c (isDigit_of_isOctalDigit c hc)) hend
  | binary h =>
      obtain ⟨hlt, hzero, htext⟩ := (Buffer.text_eq_cons hpq hq).1 htext
      obtain ⟨hlt, hb, htext⟩ := (Buffer.text_eq_cons hlt hq).1 htext
      rw [lexNumber_radix hzero hb (by omega) (by decide), if_neg (by decide), if_neg (by decide)]
      exact lexRadixNumber_reads ((Buffer.digits_text hlt hq).1 (htext ▸ h)) hq
        (fun c hc => isIdentifierBody_of_isDigit c (isDigit_of_isBinaryDigit c hc)) hend
  | float hwhole hfraction hexponent hne =>
      obtain ⟨m, hpm, hmq, rfl, hrest⟩ := Buffer.text_split hpq hq htext
      obtain ⟨n, hmn, hnq, rfl, rfl⟩ := Buffer.text_split hmq hq hrest
      have hexponent := hexponent.imp (Buffer.text_eq_nil hnq hq).1 (Buffer.exponent_text hnq hq).1
      rw [Ne, Ne, Buffer.text_eq_nil hmn (by omega), Buffer.text_eq_nil hnq hq] at hne
      exact lexNumber_reads_float ((Buffer.digits_text hpm (by omega)).1 hwhole)
        ((Buffer.fraction_text hmn (by omega)).1 hfraction) hexponent (by omega) hq hend hprev
  | hexFloat hwhole hfraction hexponent =>
      obtain ⟨hlt, hzero, htext⟩ := (Buffer.text_eq_cons hpq hq).1 htext
      obtain ⟨hlt, hx, htext⟩ := (Buffer.text_eq_cons hlt hq).1 htext
      obtain ⟨m, hpm, hmq, rfl, hrest⟩ := Buffer.text_split hlt hq htext
      obtain ⟨n, hmn, hnq, rfl, rfl⟩ := Buffer.text_split hmq hq hrest
      rw [lexNumber_radix hzero hx (by omega) (by decide), if_pos rfl]
      exact lexHexNumber_reads_float hzero hx ((Buffer.digits_text hpm (by omega)).1 hwhole)
        ((Buffer.fraction_text hmn (by omega)).1 hfraction) ((Buffer.exponent_text hnq hq).1 hexponent) hmn hq hend

end Lexer

end SwiftKStdlib.Parse
