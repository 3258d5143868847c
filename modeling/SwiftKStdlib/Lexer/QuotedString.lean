import SwiftKStdlib.Lexer.Diagnostics
import SwiftKStdlib.Lexer.Encoding

/-!
# Quoted strings

* `printAsQuotedString` : the printer of string literals;
* `quotedByte_form` : what is printed for a byte of ASCII;
* `CleanText` : literal text about which nothing is diagnosed;
* `quotedString_lexes` : the printed literal is lexed as one token, which stands for the text.
-/

namespace SwiftKStdlib.Parse

open Lib Unicode

/-! ## The printer -/

def hexdigit (n : Nat) : UInt8 := if n < 10 then UInt8.ofNat ('0'.toNat + n) else UInt8.ofNat ('A'.toNat + n - 10)

def quotedByte (c : UInt8) : List UInt8 :=
  if c = byte '\\' then [byte '\\', byte '\\']
  else if c = byte '\t' then [byte '\\', byte 't']
  else if c = byte '\n' then [byte '\\', byte 'n']
  else if c = byte '\r' then [byte '\\', byte 'r']
  else if c = byte '"' then [byte '\\', byte '"']
  else if c = byte '\'' then [byte '\'']
  else if c = 0 then [byte '\\', byte '0']
  else if c < 0x20 ∨ c = 0x7F then
    [byte '\\', byte 'u', byte '{', hexdigit (c.toNat >>> 4), hexdigit (c.toNat &&& 0xF), byte '}']
  else [c]

def printAsQuotedString (text : List UInt8) : List UInt8 := byte '"' :: (text.flatMap quotedByte ++ [byte '"'])

def quotedPiece (c : UInt8) : Piece := if quotedByte c = [c] then .raw c else .decoded [c]

/-- The printed byte: itself, an escape of one letter, or an escape of two hexadecimal digits. -/
def QuotedForm (c : UInt8) (printed : List UInt8) : Prop :=
  match printed with
  | [d] => d = c ∧ c ≠ byte '\\' ∧ c ≠ byte '"' ∧ isNewline c = false ∧ c ≠ 0 ∧ (c < 0x80 → isPrintable c)
  | [slash, d] => slash = byte '\\' ∧ simpleEscape d = some c.toNat ∧ c < 0x80 ∧ utf8 c.toNat = [c]
  | [slash, u, opening, high, low, closing] => slash = byte '\\' ∧ u = byte 'u' ∧ opening = byte '{' ∧ isHexDigit high ∧
      isHexDigit low ∧ closing = byte '}' ∧ hexNumber [high, low] = c.toNat ∧ c < 0x80 ∧ utf8 c.toNat = [c]
  | _ => False

instance (c : UInt8) (printed : List UInt8) : Decidable (QuotedForm c printed) := by
  unfold QuotedForm
  split <;> infer_instance

theorem quotedByte_form : ∀ c : UInt8, QuotedForm c (quotedByte c) := forall_byte (by decide +kernel)

theorem quotedByte_high : ∀ c : UInt8, 0x80 ≤ c → quotedByte c = [c] := forall_byte (by decide +kernel)

/-! ## Its pieces -/

theorem quotedByte_next (c : UInt8) (rest : List UInt8) : Next (quotedPiece c) (quotedByte c ++ rest) rest := by
  have hform := quotedByte_form c
  have hlong : ∀ {d e : UInt8} {l : List UInt8}, quotedByte c = d :: e :: l → quotedPiece c = .decoded [c] := by
    intro d e l h
    rw [quotedPiece, if_neg (by rw [h]; simp)]
  generalize hprinted : quotedByte c = printed at hform ⊢
  match printed, hform with
  | [d], h =>
      obtain ⟨rfl, hslash, -, hnewline, -⟩ := h
      rw [quotedPiece, if_pos hprinted]
      exact .raw hnewline hslash
  | [slash, d], h =>
      obtain ⟨rfl, hsimple, -, -⟩ := h
      have hnext := @Next.simple _ _ rest hsimple
      rw [hlong hprinted]
      rwa [UInt8.ofNat_toNat] at hnext
  | [slash, u, opening, high, low, closing], h =>
      obtain ⟨rfl, rfl, rfl, hhigh, hlow, rfl, hvalue, hascii, hutf8⟩ := h
      have hascii' : c.toNat < 0x80 := UInt8.lt_iff_toNat_lt.1 hascii
      have hnext := @Next.unicode [high, low] rest (by simp [hhigh, hlow]) (by simp) (by simp) (by
        rw [hvalue, encodeToUTF8Fails, if_pos (by omega)])
      rw [hvalue, hutf8] at hnext
      rw [hlong hprinted]
      exact hnext

theorem quotedText_spells (text : List UInt8) : Spells (text.map quotedPiece) (text.flatMap quotedByte) := by
  induction text with
  | nil => exact .nil
  | cons c text ih =>
      rw [List.map_cons, List.flatMap_cons]
      exact .cons (quotedByte_next c _) ih

theorem quotedPiece_bytes (c : UInt8) : (quotedPiece c).bytes = [c] ∧ ∀ escaped, quotedPiece c ≠ .lineBreak escaped := by
  rw [quotedPiece]
  split_ifs
  · exact ⟨rfl, fun _ h => Piece.noConfusion h⟩
  · exact ⟨rfl, fun _ h => Piece.noConfusion h⟩

theorem quotedText_content (text : List UInt8) (last : Bool) : content [] last (text.map quotedPiece) = some text := by
  induction text with
  | nil => rfl
  | cons c text ih =>
      obtain ⟨hbytes, hinline⟩ := quotedPiece_bytes c
      rw [List.map_cons, content_inline hinline, ih, hbytes]
      rfl

theorem quotedText_length (text : List UInt8) : text.length ≤ (text.flatMap quotedByte).length ∧
    (text.length = (text.flatMap quotedByte).length → text.flatMap quotedByte = text) := by
  induction text with
  | nil => exact ⟨le_rfl, fun _ => rfl⟩
  | cons c text ih =>
      have hone : ∀ c : UInt8, 1 ≤ (quotedByte c).length ∧ ((quotedByte c).length = 1 → quotedByte c = [c]) :=
        forall_byte (by decide +kernel)
      obtain ⟨hpos, hself⟩ := hone c
      rw [List.flatMap_cons, List.length_append, List.length_cons]
      refine ⟨by omega, fun hlen => ?_⟩
      rw [hself (by omega), ih.2 (by omega)]
      rfl

/-! ## Lexing clean text -/

namespace Buffer

/-- Characters of a literal in one line, about which nothing is diagnosed. -/
inductive CleanText (b : Buffer) (quote : UInt8) : Nat → Nat → Prop
  | nil {p : Nat} : CleanText b quote p p
  | char {p m q v : Nat} (hp : p < b.size) (h : b.LexedChar false p v m) (hopen : b.byteAt p ≠ quote)
      (hquiet : b.characterDiagnostics false p = some []) (rest : CleanText b quote m q) : CleanText b quote p q

variable {b : Buffer} {p q m v : Nat} {quote : UInt8} {multi : Bool}

theorem CleanText.literalText (h : b.CleanText quote p q) : b.LiteralText quote false p q := by
  induction h with
  | nil => exact .nil
  | char hp h hopen _ _ ih => exact .char hp h hopen ih

theorem LexedChar.newline_multi (h : b.LexedChar multi p v q) (hnewline : isNewline (b.byteAt p)) : multi = true := by
  have hclass : ∀ c : UInt8, isNewline c → c < 0x80 ∧ c ≠ byte '\\' := forall_byte (by decide +kernel)
  obtain ⟨hlow, hne⟩ := hclass _ hnewline
  cases h with
  | ascii _ _ hallow => exact hallow hnewline
  | high hc => exact absurd hlow (UInt8.not_lt.2 hc)
  | simple hslash => exact absurd hslash hne
  | newline hslash => exact absurd hslash hne
  | unicode hslash => exact absurd hslash hne

theorem LexedChar.looksAt (h : b.LexedChar multi p v q) (hp : p < b.size) : b.looksAt p '\\' '(' = some false := by
  rw [looksAt_eq hp.le (by decide), Option.some.injEq, Bool.and_eq_false_iff, decide_eq_false_iff_not,
    decide_eq_false_iff_not]
  by_cases hslash : b.byteAt p = byte '\\'
  · exact .inr (h.slash hp hslash).1
  · exact .inl hslash

end Buffer

namespace Lexer

variable {L : Lexer} {tokStart p q stop v fuel : Nat} {multi erroneous : Bool}

theorem stringLiteralStep_char (erroneous : Bool) (hstart : tokStart < L.buffer.size) (hp : p < L.buffer.size)
    (h : L.buffer.LexedChar multi p v q) (hquote : L.buffer.byteAt p ≠ L.buffer.byteAt tokStart) :
    L.stringLiteralStep tokStart multi (p, erroneous) = some (.next (q, erroneous)) ∧
      L.stepDiagnostics tokStart multi (p, erroneous) = L.buffer.characterDiagnostics multi p := by
  have hend : ¬ (isNewline (L.buffer.byteAt p) = true ∧ (!multi) = true ∨ p = L.buffer.size) := by
    rintro (⟨hnewline, hmulti⟩ | rfl)
    · rw [h.newline_multi hnewline] at hmulti
      exact Bool.false_ne_true hmulti
    · exact lt_irrefl _ hp
  have hlexed := (Buffer.lexCharacter_char hp).2 ⟨h, fun hc => hquote hc.2⟩
  constructor
  · simp only [stringLiteralStep, h.looksAt hp, Option.bind_eq_bind, Option.bind_some, Bool.false_eq_true, if_false,
      Buffer.read_eq hp.le, if_neg hend, Buffer.read_eq hstart.le, hlexed, Option.pure_def]
  · simp only [stepDiagnostics, h.looksAt hp, Option.bind_eq_bind, Option.bind_some, Bool.false_eq_true, if_false,
      Buffer.read_eq hp.le, if_neg hend, Buffer.read_eq hstart.le, hlexed, Option.pure_def]
    cases L.buffer.characterDiagnostics multi p <;> rfl

theorem stringLiteralStep_end (hstart : tokStart < L.buffer.size) (hp : p < L.buffer.size)
    (hopen : L.buffer.byteAt tokStart = byte '"') (hquote : L.buffer.byteAt p = byte '"') :
    L.stringLiteralStep tokStart false (p, false) = some (.done (.plain .stringLiteral (p + 1))) ∧
      L.stepDiagnostics tokStart false (p, false) = some [] := by
  have hclass : byte '"' ≠ byte '\\' ∧ isNewline (byte '"') = false ∧ byte '"' ≠ byte '\'' ∧
      Buffer.isQuote (byte '"') = true := by decide
  have hlook : L.buffer.looksAt p '\\' '(' = some false := by
    rw [Buffer.looksAt_eq hp.le (by decide), hquote, decide_eq_false hclass.1, Bool.false_and]
  have hend : ¬ (isNewline (byte '"') = true ∧ (!false) = true ∨ p = L.buffer.size) := by
    rw [hclass.2.1]
    simp [hp.ne]
  have hlexed : L.buffer.lexCharacter (byte '"') false p = some (.endOfString, p) := by
    simp only [Buffer.lexCharacter, Buffer.read_eq hp.le, Option.bind_eq_bind, Option.bind_some, hquote, true_or, if_true,
      Option.pure_def]
  constructor
  · simp only [stringLiteralStep, hlook, Option.bind_eq_bind, Option.bind_some, Bool.false_eq_true, if_false,
      Buffer.read_eq hp.le, hquote, if_neg hend, Buffer.read_eq hstart.le, hopen, hlexed, stringLiteralQuote,
      if_neg hclass.2.2.1, stringLiteralEnd, Option.pure_def]
  · simp only [stepDiagnostics, hlook, Option.bind_eq_bind, Option.bind_some, Bool.false_eq_true, if_false,
      Buffer.read_eq hp.le, hquote, if_neg hend, Buffer.read_eq hstart.le, hopen, hlexed, Buffer.characterDiagnostics,
      hclass.2.2.2, if_true, quoteDiagnostics, if_neg hclass.2.2.1, Option.pure_def, List.append_nil]

theorem iterateReporting_clean (hstart : tokStart < L.buffer.size) (hopen : L.buffer.byteAt tokStart = byte '"')
    (h : L.buffer.CleanText (byte '"') p stop) (hstop : stop < L.buffer.size) (hquote : L.buffer.byteAt stop = byte '"')
    (hfuel : stop - p < fuel) :
    iterateReporting (L.stringLiteralStep tokStart false) (L.stepDiagnostics tokStart false) fuel (p, false) =
      some (.plain .stringLiteral (stop + 1), []) := by
  obtain ⟨fuel, rfl⟩ : ∃ k, fuel = k + 1 := ⟨fuel - 1, by omega⟩
  induction h generalizing fuel with
  | nil =>
      obtain ⟨hstep, hreport⟩ := stringLiteralStep_end hstart hstop hopen hquote
      exact iterateReporting_done hreport hstep
  | @char p m q v hp h hne hquiet rest ih =>
      have hlt := (h.bounds hp).1
      have hle := rest.literalText.le
      obtain ⟨hstep, hreport⟩ := stringLiteralStep_char false hstart hp h (hopen ▸ hne)
      obtain ⟨fuel, rfl⟩ : ∃ k, fuel = k + 1 := ⟨fuel - 1, by omega⟩
      rw [iterateReporting_next (hreport.trans hquiet) hstep, ih hstop hquote fuel (by omega)]
      rfl

theorem lexStringLiteralDiagnosed_clean (hstart : tokStart < L.buffer.size) (hopen : L.buffer.byteAt tokStart = byte '"')
    (h : L.buffer.CleanText (byte '"') (tokStart + 1) stop) (hstop : stop < L.buffer.size)
    (hquote : L.buffer.byteAt stop = byte '"') (hnext : L.buffer.byteAt (stop + 1) ≠ byte '"') :
    L.lexStringLiteralDiagnosed tokStart = some (.plain .stringLiteral (stop + 1), []) := by
  have hlook : L.buffer.looksAt (tokStart + 1) '"' '"' = some false := by
    rw [Buffer.looksAt_threeQuotes hstart, Option.some.injEq, Bool.and_eq_false_iff, decide_eq_false_iff_not,
      decide_eq_false_iff_not]
    cases h with
    | nil => exact .inr hnext
    | char _ _ hne => exact .inl hne
  simp only [lexStringLiteralDiagnosed, Buffer.read_eq hstart.le, hlook, Option.bind_eq_bind, Option.bind_some,
    Bool.and_false, Bool.false_eq_true, if_false, Buffer.read_eq (show tokStart + 1 ≤ L.buffer.size from hstart), false_and,
    iterateReporting_clean hstart hopen h hstop hquote (show stop - (tokStart + 1) < L.buffer.fuel by
      rw [Buffer.fuel]; omega), Option.pure_def, List.append_nil]

end Lexer

/-! ## What is printed is clean -/

theorem utf8_ascii {v : Nat} (h : v < 0x80) : utf8 v = [UInt8.ofNat v] := by
  rw [utf8, UTF8.codeUnits, if_pos h]
  rfl

theorem utf8_high {v : Nat} (h : 0x80 ≤ v) (hv : v ≤ 0x10FFFF) : ∀ c ∈ utf8 v, 0x80 ≤ c := by
  have hbyte : ∀ n, 0x80 ≤ n → n < 0x100 → 0x80 ≤ UInt8.ofBitVec (BitVec.ofNat 8 n) := by
    intro n hn hn'
    rw [UInt8.le_iff_toNat_le]
    simp only [UInt8.toNat_ofBitVec, BitVec.toNat_ofNat]
    rw [Nat.mod_eq_of_lt hn']
    exact hn
  rw [utf8, UTF8.codeUnits, if_neg (by omega)]
  split_ifs
  · simp only [List.map_cons, List.map_nil, List.forall_mem_cons]
    exact ⟨hbyte _ (by omega) (by omega), hbyte _ (by omega) (by omega), fun c hc => absurd hc List.not_mem_nil⟩
  · simp only [List.map_cons, List.map_nil, List.forall_mem_cons]
    exact ⟨hbyte _ (by omega) (by omega), hbyte _ (by omega) (by omega), hbyte _ (by omega) (by omega),
      fun c hc => absurd hc List.not_mem_nil⟩
  · simp only [List.map_cons, List.map_nil, List.forall_mem_cons]
    exact ⟨hbyte _ (by omega) (by omega), hbyte _ (by omega) (by omega), hbyte _ (by omega) (by omega),
      hbyte _ (by omega) (by omega), fun c hc => absurd hc List.not_mem_nil⟩

theorem flatMap_quotedByte_high {text : List UInt8} (h : ∀ c ∈ text, 0x80 ≤ c) : text.flatMap quotedByte = text := by
  induction text with
  | nil => rfl
  | cons c text ih =>
      obtain ⟨hc, htext⟩ := List.forall_mem_cons.1 h
      rw [List.flatMap_cons, quotedByte_high c hc, ih htext]
      rfl

namespace Buffer

variable {b : Buffer} {p q m stop : Nat}

theorem lexedChar_quotedByte {c : UInt8} (hc : c < 0x80) (hp : p < m) (hm : m ≤ b.size) (htext : b.text p m = quotedByte c) :
    b.byteAt p ≠ byte '"' ∧ b.LexedChar false p c.toNat m ∧ b.characterDiagnostics false p = some [] := by
  have hslash : byte '\\' ≠ byte '"' ∧ isQuote (byte '\\') = false ∧ byte '\\' ≠ 0 ∧ isNewline (byte '\\') = false := by decide
  have hescape : ∀ {d : UInt8}, b.byteAt p = byte '\\' → b.byteAt (p + 1) = d →
      b.characterDiagnostics false p = b.escapeDiagnostics false (p + 1) := by
    intro d h _
    simp only [characterDiagnostics, read_eq (hp.le.trans hm), Option.bind_eq_bind, Option.bind_some, h, hslash,
      Bool.false_eq_true, if_false, if_true]
  have hform := quotedByte_form c
  generalize quotedByte c = printed at hform htext
  match printed, hform with
  | [d], h =>
      obtain ⟨rfl, hne, hquote, hnewline, hzero, hprintable⟩ := h
      obtain ⟨-, rfl, hrest⟩ := (text_eq_cons hp.le hm).1 htext
      have hlen := congrArg List.length hrest
      rw [length_text hm, List.length_nil] at hlen
      obtain rfl : m = p + 1 := by omega
      refine ⟨hquote, .ascii hc hne fun h => absurd (hnewline.symm.trans h) Bool.false_ne_true, ?_⟩
      simp only [characterDiagnostics, read_eq (show p ≤ b.size by omega), Option.bind_eq_bind, Option.bind_some,
        if_neg hzero, hnewline, Bool.false_eq_true, if_false, if_neg hne, if_pos hc, hprintable hc,
        Bool.not_true, false_and, Option.pure_def, ite_self]
  | [slash, d], h =>
      obtain ⟨rfl, hsimple, -, -⟩ := h
      obtain ⟨hlt, h0, htext⟩ := (text_eq_cons hp.le hm).1 htext
      obtain ⟨hlt', rfl, hrest⟩ := (text_eq_cons hlt hm).1 htext
      have hlen := congrArg List.length hrest
      rw [length_text hm, List.length_nil] at hlen
      obtain rfl : m = p + 2 := by omega
      refine ⟨h0 ▸ hslash.1, .simple h0 hsimple, ?_⟩
      have hclass := (simpleEscape_class _ (Option.isSome_iff_exists.2 ⟨_, hsimple⟩)).1
      rw [Bool.or_eq_false_iff] at hclass
      rw [hescape h0 rfl]
      simp only [escapeDiagnostics, read_eq (show p + 1 ≤ b.size by omega), Option.bind_eq_bind, Option.bind_some,
        hclass, Bool.false_eq_true, or_self, if_false, hsimple, Option.isSome_some, if_true, Option.pure_def]
  | [slash, u, opening, high, low, closing], h =>
      obtain ⟨rfl, rfl, rfl, hhigh, hlow, rfl, hvalue, -, -⟩ := h
      obtain ⟨hlt, h0, htext⟩ := (text_eq_cons hp.le hm).1 htext
      obtain ⟨hlt1, h1, htext⟩ := (text_eq_cons hlt hm).1 htext
      obtain ⟨hlt2, h2, htext⟩ := (text_eq_cons hlt1 hm).1 htext
      obtain ⟨hlt3, rfl, htext3⟩ := (text_eq_cons hlt2 hm).1 htext
      obtain ⟨hlt4, rfl, htext4⟩ := (text_eq_cons hlt3 hm).1 htext3
      obtain ⟨hlt5, h5, hrest⟩ := (text_eq_cons hlt4 hm).1 htext4
      have hlen := congrArg List.length hrest
      rw [length_text hm, List.length_nil] at hlen
      obtain rfl : m = p + 6 := by omega
      have hdigits : b.text (p + 3) (p + 5) = [b.byteAt (p + 3), b.byteAt (p + 4)] := by
        rw [text_cons (by omega) (by omega), text_one (show p + 3 + 1 < b.size by omega)]
      have hlex : b.lexUnicodeEscape (p + 2) = some (some c.toNat, p + 6) := by
        have hlex := lexUnicodeEscape_eq (b := b) (p := p + 2) (r := p + 5) (by omega) (by omega) (by omega) h2
          (fun k hk hk' => by
            rcases (show k = p + 3 ∨ k = p + 4 by omega) with rfl | rfl
            · exact hhigh
            · exact hlow) h5
        rw [hlex, hdigits, ← hvalue]
      refine ⟨h0 ▸ hslash.1, .unicode h0 h1 h2 hlex fun hle => ?_, ?_⟩
      · have := UInt8.lt_iff_toNat_lt.1 hc
        exact absurd hle (not_le.2 this)
      · have hclass : isIndent (byte 'u') = false ∧ isNewline (byte 'u') = false ∧
            (simpleEscape (byte 'u')).isSome = false := by decide
        have hsmall : c.toNat < 0x80 := UInt8.lt_iff_toNat_lt.1 hc
        rw [hescape h0 rfl]
        simp only [escapeDiagnostics, read_eq (show p + 1 ≤ b.size by omega), read_eq (show p + 1 + 1 ≤ b.size by omega),
          Option.bind_eq_bind, Option.bind_some, h1, h2, hclass, Bool.false_eq_true, or_self, if_false, if_true, ne_eq,
          not_true_eq_false, unicodeEscapeDiagnostics, hlex, if_neg (show ¬ c.toNat = 0xFFFFFFFE by omega),
          if_neg (show ¬ (0x80 ≤ c.toNat ∧ encodeToUTF8Fails c.toNat = true) by omega), Option.pure_def]

theorem lexedChar_high {x : Scalar} (hx : 0x80 ≤ x.value.toNat) (hm : m ≤ b.size) (htext : b.text p m = utf8 x.value.toNat) :
    b.byteAt p ≠ byte '"' ∧ b.LexedChar false p x.value.toNat m ∧ b.characterDiagnostics false p = some [] := by
  have hclass : ∀ c : UInt8, 0x80 ≤ c → c ≠ byte '"' ∧ isQuote c = false ∧ c ≠ 0 ∧ isNewline c = false ∧ c ≠ byte '\\' ∧
      ¬ c < 0x80 := forall_byte (by decide +kernel)
  have hat : b.CharacterAt p m x := by
    refine ⟨hm, ?_⟩
    rw [htext, utf8, List.map_map]
    exact List.map_id _
  have hlt := hat.lt
  have hhigh : 0x80 ≤ b.byteAt p := by
    refine utf8_high hx (by rcases x.valid with h | h <;> omega) _ ?_
    rw [← htext, text_cons hlt hm]
    exact List.mem_cons_self
  obtain ⟨h1, h2, h3, h4, h5, h6⟩ := hclass _ hhigh
  refine ⟨h1, .high hhigh hat.validate, ?_⟩
  simp only [characterDiagnostics, read_eq (show p ≤ b.size by omega), Option.bind_eq_bind, Option.bind_some, h2,
    Bool.false_eq_true, if_false, if_neg h3, h4, if_neg h5, if_neg h6, hat.validate, Option.pure_def]

theorem cleanText_quoted (scalars : List Scalar) (hp : p ≤ stop) (hstop : stop ≤ b.size)
    (htext : b.text p stop = (scalars.flatMap fun x => utf8 x.value.toNat).flatMap quotedByte) :
    b.CleanText (byte '"') p stop := by
  induction scalars generalizing p with
  | nil =>
      have hlen := congrArg List.length htext
      rw [length_text hstop, List.flatMap_nil, List.flatMap_nil, List.length_nil] at hlen
      obtain rfl : p = stop := by omega
      exact .nil
  | cons x scalars ih =>
      rw [List.flatMap_cons, List.flatMap_append] at htext
      obtain ⟨m, hpm, hm, hhead, hrest⟩ := text_split hp hstop htext
      have hchar : p < m ∧ b.byteAt p ≠ byte '"' ∧ b.LexedChar false p x.value.toNat m ∧
          b.characterDiagnostics false p = some [] := by
        rcases lt_or_ge x.value.toNat 0x80 with hx | hx
        · have hascii : UInt8.ofNat x.value.toNat < 0x80 := by
            rw [UInt8.lt_iff_toNat_lt, UInt8.toNat_ofNat', Nat.mod_eq_of_lt (by omega)]
            exact hx
          rw [utf8_ascii hx, List.flatMap_singleton] at hhead
          have hlt : p < m := by
            have hone : ∀ c : UInt8, 1 ≤ (quotedByte c).length := forall_byte (by decide +kernel)
            have hlen := congrArg List.length hhead
            have := hone (UInt8.ofNat x.value.toNat)
            rw [length_text (by omega)] at hlen
            omega
          have hlexed := lexedChar_quotedByte hascii hlt (by omega) hhead
          rw [UInt8.toNat_ofNat', Nat.mod_eq_of_lt (by omega)] at hlexed
          exact ⟨hlt, hlexed⟩
        · rw [flatMap_quotedByte_high (utf8_high hx (by rcases x.valid with h | h <;> omega))] at hhead
          have hlexed := lexedChar_high hx (by omega) hhead
          refine ⟨?_, hlexed⟩
          rcases hpm.eq_or_lt with rfl | hlt
          · have hnil := congrArg List.length hhead
            rw [length_text (by omega), Nat.sub_self, utf8, List.length_map, UTF8.length_codeUnits] at hnil
            split_ifs at hnil <;> omega
          · exact hlt
      obtain ⟨hlt, hquote, hchar, hquiet⟩ := hchar
      exact .char (by omega) hchar hquote hquiet (ih hm hrest)

end Buffer

/-! ## The round trip -/

theorem flatMap_utf8_of_wellFormed {text : List UInt8} (h : Encoding.utf8.WellFormed (text.map UInt8.toBitVec)) :
    ∃ scalars : List Scalar, text = scalars.flatMap fun x => utf8 x.value.toNat := by
  obtain ⟨scalars, hscalars⟩ := h
  refine ⟨scalars, ?_⟩
  have hbytes := congrArg (List.map UInt8.ofBitVec) hscalars
  rw [List.map_map, List.map_flatMap] at hbytes
  exact (List.map_id text).symm.trans hbytes.symm

namespace Lexer

variable {L : Lexer} {s s' : Members} {stop : Nat} {text : List UInt8}

theorem printed_text (h : printAsQuotedString text <+: L.buffer.bytes.drop s.curPtr) : ∃ stop,
    stop + 1 = s.curPtr + (printAsQuotedString text).length ∧ stop < L.buffer.size ∧ s.curPtr + 1 ≤ stop ∧
      L.buffer.byteAt s.curPtr = byte '"' ∧ L.buffer.byteAt stop = byte '"' ∧
      L.buffer.text (s.curPtr + 1) stop = text.flatMap quotedByte := by
  have hlen : (printAsQuotedString text).length = (text.flatMap quotedByte).length + 2 := by
    rw [printAsQuotedString, List.length_cons, List.length_append, List.length_singleton]
  have hle := h.length_le
  rw [List.length_drop] at hle
  have hsize : s.curPtr + (printAsQuotedString text).length ≤ L.buffer.size := by
    rw [Buffer.size]
    omega
  have hprinted : L.buffer.text s.curPtr (s.curPtr + (printAsQuotedString text).length) = printAsQuotedString text := by
    rw [Buffer.text, Nat.add_sub_cancel_left, ← List.prefix_iff_eq_take.1 h]
  rw [printAsQuotedString] at hprinted
  obtain ⟨-, hopen, hbody⟩ := (Buffer.text_eq_cons (Nat.le_add_right _ _) hsize).1 hprinted
  obtain ⟨stop, hstart, hstop, hbody, hclose⟩ := Buffer.text_split (by rw [hlen]; omega) hsize hbody
  obtain ⟨hlt, hquote, hrest⟩ := (Buffer.text_eq_cons hstop hsize).1 hclose
  have hnil := congrArg List.length hrest
  rw [Buffer.length_text hsize, List.length_nil] at hnil
  have hend : s.curPtr + (printAsQuotedString text).length = s.curPtr + (byte '"' :: (text.flatMap quotedByte ++ [byte '"'])).length :=
    rfl
  exact ⟨stop, by omega, by omega, hstart, hopen, hquote, hbody⟩

/-- The literal that is printed for a text is one token without diagnostics, with one segment, which stands for the text. -/
structure LexesQuoted (L : Lexer) (s : Members) (text : List UInt8) (s' : Members) : Prop where
  lexImpl : L.lexImpl s = some s'
  kind : s'.nextToken.kind = .stringLiteral
  range : s'.nextToken.text = (s.curPtr, s.curPtr + (printAsQuotedString text).length)
  clean : L.lexStringLiteralDiagnosed s.curPtr =
    some (.plain .stringLiteral (s.curPtr + (printAsQuotedString text).length), [])
  segment : ∃ segment, L.buffer.getStringLiteralSegments s'.nextToken = some [segment] ∧ segment.kind = .literal ∧
    L.buffer.getEncodedStringSegment segment = some text

theorem segments_clean (hforms : Forms s' s.curPtr (.plain .stringLiteral (stop + 1))) (hle : s.curPtr + 1 ≤ stop)
    (hsize : stop < L.buffer.size) (h : L.buffer.CleanText (byte '"') (s.curPtr + 1) stop) :
    L.buffer.getStringLiteralSegments s'.nextToken =
      some [.getLiteral (s.curPtr + 1) (stop - (s.curPtr + 1)) true true 0] := by
  have hkind : s'.nextToken.kind = .stringLiteral := hforms.kind
  have hmulti : s'.nextToken.multilineString = false := hforms.multiline
  have hrange : s'.nextToken.textRange = (s.curPtr, stop + 1) := by
    rw [Token.textRange, hforms.escaped, hforms.text]
    rfl
  have hcontent : getStringLiteralContent s'.nextToken = some (s.curPtr + 1, stop) := by
    rw [getStringLiteralContent, hrange, hmulti]
    simp only [Bool.false_eq_true, if_false, guard, if_pos (show s.curPtr + 1 + 1 ≤ stop + 1 by omega), Nat.add_sub_cancel]
    rfl
  simp only [Buffer.getStringLiteralSegments, guard, if_pos hkind, hcontent, Buffer.indentToStrip, hmulti,
    Bool.false_eq_true, if_false, hrange, Option.bind_eq_bind, Option.bind_some, Option.pure_def]
  exact Buffer.segmentsOf_eq (Nat.lt_succ_self stop) hsize (.last h.literalText)

theorem encoded_clean (hle : s.curPtr + 1 ≤ stop) (hsize : stop < L.buffer.size) (hquote : L.buffer.byteAt stop = byte '"')
    (hbody : L.buffer.text (s.curPtr + 1) stop = text.flatMap quotedByte) :
    L.buffer.getEncodedStringSegment (.getLiteral (s.curPtr + 1) (stop - (s.curPtr + 1)) true true 0) = some text := by
  have hspells := quotedText_spells text
  have hnone : ∀ (text : List UInt8), (splitLines (text.map quotedPiece)).2 = [] := by
    intro text
    induction text with
    | nil => rfl
    | cons c text ih =>
        obtain ⟨-, hinline⟩ := quotedPiece_bytes c
        rw [List.map_cons]
        cases hpiece : quotedPiece c with
        | lineBreak escaped => exact absurd hpiece (hinline escaped)
        | raw => exact ih
        | decoded => exact ih
  have hlines := hspells.noNewline (hnone text)
  have hend : s.curPtr + 1 + (stop - (s.curPtr + 1)) = stop := by omega
  have hencodable : L.buffer.Encodable (.getLiteral (s.curPtr + 1) (stop - (s.curPtr + 1)) true true 0) [] := by
    refine ⟨?_, ?_, rfl, fun c hc => absurd hc List.not_mem_nil, fun _ k hk hk' hnewline _ => ?_⟩
    · simp only [StringSegment.getLiteral, hend]
      exact hsize.le
    · simp only [StringSegment.getLiteral, hend, hquote]
      decide
    · simp only [StringSegment.getLiteral, hend] at hk hk'
      have hnot := hlines _ (hbody ▸ Buffer.mem_text_of hk hk' hsize.le)
      exact absurd (hnot.symm.trans hnewline) Bool.false_ne_true
  have hfirst : dropFirstLineBreak (text.map quotedPiece) = text.map quotedPiece := by
    cases text with
    | nil => rfl
    | cons c text =>
        obtain ⟨-, hinline⟩ := quotedPiece_bytes c
        rw [List.map_cons]
        cases hpiece : quotedPiece c with
        | lineBreak escaped => exact absurd hpiece (hinline escaped)
        | raw => rfl
        | decoded => rfl
  have hencoded := Buffer.getEncodedStringSegment_eq hencodable (by
    simp only [StringSegment.getLiteral, hend, hbody]
    exact hspells) ((congrArg (content [] true) hfirst).trans (quotedText_content text true))
  rw [hencoded]
  simp only [StringSegment.getLiteral, hend, hbody]
  split_ifs with hlen
  · have hlong := congrArg List.length hbody
    rw [Buffer.length_text hsize.le] at hlong
    rw [(quotedText_length text).2 (hlen.trans hlong)]
  · rfl

theorem quotedString_lexes (L : Lexer) (s : Members) (text : List UInt8)
    (hwf : Encoding.utf8.WellFormed (text.map UInt8.toBitVec))
    (hprinted : printAsQuotedString text <+: L.buffer.bytes.drop s.curPtr)
    (hnext : L.buffer.byteAt (s.curPtr + (printAsQuotedString text).length) ≠ byte '"') : ∃ s', LexesQuoted L s text s' := by
  obtain ⟨stop, hstop, hsize, hle, hopen, hquote, hbody⟩ := printed_text hprinted
  obtain ⟨scalars, hscalars⟩ := flatMap_utf8_of_wellFormed hwf
  have hclean := Buffer.cleanText_quoted scalars hle hsize.le (hscalars ▸ hbody)
  rw [← hstop] at hnext
  have hlexed := lexStringLiteralDiagnosed_clean (by omega) hopen hclean hsize hquote hnext
  have hbegins : beginsNoTrivia (byte '"') = true ∧ firstByte (byte '"') = .quote := by decide
  obtain ⟨s', hlex, hforms⟩ := lexImpl_of_dispatch (L := L) (s := s) (t := .plain .stringLiteral (stop + 1))
    (by rw [hopen, hbegins.1]) (by
      rw [dispatch_quote (by rw [hopen, hbegins.2]), lexStringLiteral_of_diagnosed L hlexed]
      rfl) rfl (by simp only [Scanned.plain]; omega) hsize
  refine ⟨s', hlex, hforms.kind, hforms.text.trans ?_, ?_, _, segments_clean hforms hle hsize hclean, rfl,
    encoded_clean hle hsize hquote hbody⟩
  · rw [← hstop]
    rfl
  · rw [← hstop]
    exact hlexed

/-- A newline, before a closing bracket. -/
theorem quotedString_lexes_newline : ∃ s',
    LexesQuoted ⟨⟨printAsQuotedString [byte '\n'] ++ [byte ')']⟩, none, false, false, true, .none, .withoutTrivia⟩
      ⟨0, 0, false, .init, [], []⟩ [byte '\n'] s' :=
  quotedString_lexes _ _ _ ⟨[⟨10, .inl (by decide)⟩], rfl⟩ (by decide) (by decide)

end Lexer

end SwiftKStdlib.Parse
