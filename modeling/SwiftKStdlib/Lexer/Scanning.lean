import SwiftKStdlib.Lexer.Reading

/-!
# The scanners stay inside the buffer

* `Scanned.Fits` : the token is not empty and ends inside the buffer;
* `OperatorRun` : the characters of an operator, `RunsIntoPlaceholder` : they come to a `<#` that ends the buffer;
* `returns_lexIdentifier`, `returns_lexHash`, `returns_lexOperatorIdentifier`, ... : one fact for each scanner.
-/

namespace SwiftKStdlib.Parse

open Lib

structure Scanned.Fits (t : Scanned) (b : Buffer) (tokStart : Nat) : Prop where
  ne_eof : t.kind ≠ .eof
  lt : tokStart < t.curPtr
  le : t.curPtr ≤ b.size
  escaped : t.escaped = true →
    tokStart + 3 ≤ t.curPtr ∧ b.byteAt tokStart = byte '\x60' ∧ b.byteAt (t.curPtr - 1) = byte '\x60'

theorem Scanned.Fits.plain {b : Buffer} {kind : Tok} {tokStart p : Nat} (h : tokStart < p) (hp : p ≤ b.size)
    (hk : kind ≠ .eof) : (Scanned.plain kind p).Fits b tokStart :=
  ⟨hk, h, hp, fun he => absurd he Bool.false_ne_true⟩

/-! ## Words -/

theorem kindOfWord_ne {table : List (String × Tok)} {text : List UInt8} {kind k : Tok}
    (htable : ∀ entry ∈ table, entry.2 ≠ k) (h : kindOfWord table text = some kind) : kind ≠ k := by
  obtain ⟨entry, hfind, rfl⟩ := Option.map_eq_some_iff.1 h
  exact htable entry (List.mem_of_find?_eq_some hfind)

theorem kindOfIdentifier_ne_eof (text : List UInt8) (inSILMode : Bool) : kindOfIdentifier text inSILMode ≠ .eof := by
  rw [kindOfIdentifier]
  cases hkind : kindOfWord (if inSILMode then keywords ++ silKeywords else keywords) text with
  | none => decide
  | some kind =>
      refine kindOfWord_ne ?_ hkind
      cases inSILMode <;> decide

namespace Buffer

variable {b : Buffer} {p q : Nat}

/-! ## Characters below 128 -/

theorem advanceIf_ascii {predicate : Nat → Bool} (hp : p < b.size) (hc : b.byteAt p < 0x80) :
    b.advanceIf predicate p = if predicate (b.byteAt p).toNat then some (p + 1) else none := by
  rw [advanceIf, validateUTF8CharacterAndAdvance, if_neg (by omega)]
  simp only [if_pos hc]

/-! ## Conflict markers and placeholders -/

theorem findText_le {text bytes : List UInt8} {n : Nat} (h : findText text bytes = some n) :
    n + text.length ≤ bytes.length := by
  induction bytes generalizing n with
  | nil =>
      rw [findText] at h
      split_ifs at h with hnil
      simp [hnil, ← Option.some.inj h]
  | cons c rest ih =>
      rw [findText] at h
      split_ifs at h with hprefix
      · have := (List.isPrefixOf_iff_prefix.1 hprefix).length_le
        rw [← Option.some.inj h]
        omega
      · obtain ⟨n, hn, rfl⟩ := Option.map_eq_some_iff.1 h
        have := ih hn
        rw [List.length_cons]
        omega

theorem returns_findConflictEnd {terminator : List UInt8} (hlen : terminator ≠ []) (hp : p ≤ b.size) :
    Returns (b.findConflictEnd terminator p) fun r => ∀ q ∈ r, p < q ∧ q ≤ b.size := by
  have hpos := List.length_pos_iff.2 hlen
  refine Returns.iterate (fun start => b.size + 1 - start) (fun start => p < start) ?_ (by omega)
    (by simp only [fuel]; omega)
  intro start hstart
  split
  · exact .pure fun q hq => absurd hq.symm (Option.some_ne_none q)
  · next endPos hfind =>
    have hle := findText_le hfind
    rw [List.length_drop] at hle
    have hsize : start < b.size := by
      simp only [size]
      omega
    refine .pure ?_
    split_ifs
    · rintro q hq
      obtain rfl := Option.some.inj hq
      exact ⟨by omega, by simp only [size]; omega⟩
    · exact ⟨by omega, by omega⟩

theorem returns_rangeContainsPlaceholderEnd (hp : p < b.size) :
    Returns (b.rangeContainsPlaceholderEnd p) fun _ => True := by
  refine returns_iterate (fun q => q) (fun q => q < b.size) ?_ hp hp.le
  intro q hlt hq
  refine .ite (fun _ => .pure trivial) fun hend => (returns_read hq).bind ?_
  rintro _ rfl
  refine .ite (fun _ => .pure trivial) fun _ => (returns_looksAt hq (by decide)).bind ?_
  rintro found -
  refine .ite (fun _ => .pure trivial) fun _ => .pure ⟨by omega, by omega, by omega⟩

theorem rangeContainsPlaceholderEnd_size : b.rangeContainsPlaceholderEnd b.size = none := by
  have hread : b.read (b.size + 1) = none := if_neg (by omega)
  refine Eq.trans (iterate_next (?_ : _ = some (Step.next (b.size + 1)))) (iterate_none ?_)
  · rw [if_neg (by omega), read_eq le_rfl, byteAt_size, looksAt_eq le_rfl (by decide), byteAt_size]
    rfl
  · rw [if_neg (by omega), hread]
    rfl

theorem returns_findPlaceholderEnd (hp : p ≤ b.size) :
    Returns (b.findPlaceholderEnd p) fun r => ∀ q ∈ r, p < q ∧ q ≤ b.size := by
  refine returns_iterate (fun q => q) (fun q => p ≤ q) ?_ le_rfl hp
  intro q hpq hq
  refine .ite (fun hlt => ?_) fun _ => .pure fun r hr => absurd hr.symm (Option.some_ne_none r)
  have hnone : ∀ r ∈ (none : Option Nat), p < r ∧ r ≤ b.size := fun r hr => absurd hr.symm (Option.some_ne_none r)
  refine (returns_read hq).bind ?_
  rintro _ rfl
  refine .ite (fun _ => .pure hnone) fun _ => (returns_looksAt hq (by decide)).bind ?_
  rintro found -
  refine .ite (fun _ => .pure hnone) fun _ => (returns_looksAt hq (by decide)).bind ?_
  rintro found -
  refine .ite (fun _ => .pure ?_) fun _ => .pure ⟨by omega, by omega, by omega⟩
  rintro r hr
  obtain rfl := Option.some.inj hr
  exact ⟨by omega, by omega⟩

end Buffer

namespace Lexer

variable {L : Lexer} {p q tokStart : Nat}

theorem returns_tryLexConflictMarker (eatNewline : Bool) (hp : p ≤ L.buffer.size) (hstart : L.contentStart ≤ p) :
    Returns (L.tryLexConflictMarker eatNewline p) fun r => ∀ m ∈ r, p < m.1 ∧ m.1 ≤ L.buffer.size := by
  have hnone : ∀ m ∈ (none : Option (Nat × Bool)), p < m.1 ∧ m.1 ≤ L.buffer.size :=
    fun m hm => absurd hm.symm (Option.some_ne_none m)
  have hline : Returns (if p = L.contentStart then some true else (L.buffer.readBack p).map isNewline) fun _ => True :=
    .ite (fun _ => .pure trivial) fun h =>
      (Buffer.returns_readBack hp (by omega)).map fun _ _ => trivial
  rw [tryLexConflictMarker, Buffer.rest_eq hp]
  refine hline.bind fun atLineStart _ => .ite (fun _ => .pure hnone) fun _ => .ite (fun _ => .pure hnone) fun _ => ?_
  refine (Buffer.returns_read hp).bind ?_
  rintro _ rfl
  refine (Buffer.returns_findConflictEnd ?_ hp).bind ?_
  · split_ifs <;> decide
  rintro (_ | q) hq
  · exact .pure hnone
  · obtain ⟨hpq, hsize⟩ := hq q rfl
    refine .ite (fun _ => .pure ?_) fun _ => (Buffer.returns_skipToEndOfLine eatNewline hsize).bind fun r hr => .pure ?_
    · rintro m hm
      obtain rfl := Option.some.inj hm
      exact ⟨hpq, hsize⟩
    · rintro m hm
      obtain rfl := Option.some.inj hm
      exact ⟨by omega, hr.2.1⟩

/-! ## Identifiers -/

theorem returns_lexIdentifier (h : (L.buffer.advanceIf isValidIdentifierStartCodePoint tokStart).isSome) :
    Returns (L.lexIdentifier tokStart) fun t => t.Fits L.buffer tokStart := by
  obtain ⟨p, hp⟩ := Option.isSome_iff_exists.1 h
  have hbounds := Buffer.advanceIf_bounds hp
  rw [lexIdentifier, hp]
  refine (Buffer.returns_advanceWhile hbounds.2).bind fun q hq => .pure ?_
  exact .plain (by omega) hq.2 (kindOfIdentifier_ne_eof _ _)

theorem returns_escapedIdentifierEnd : Returns (L.escapedIdentifierEnd p) fun r =>
    ∀ q ∈ r, p + 2 ≤ q ∧ q ≤ L.buffer.size ∧ L.buffer.byteAt (q - 1) = byte '\x60' := by
  rw [escapedIdentifierEnd]
  split
  · exact .pure fun q hq => absurd hq.symm (Option.some_ne_none q)
  · next p hp =>
    have hbounds := Buffer.advanceIf_bounds hp
    refine (Buffer.returns_advanceWhile hbounds.2).bind fun q hq => (Buffer.returns_read hq.2).bind ?_
    rintro _ rfl
    refine .pure fun r hr => ?_
    by_cases heq : L.buffer.byteAt q = byte '\x60'
    · rw [if_pos heq] at hr
      obtain rfl := Option.some.inj hr
      exact ⟨by omega, Buffer.lt_size_of_eq hq.2 heq (by decide), heq⟩
    · rw [if_neg heq] at hr
      exact absurd hr.symm (Option.some_ne_none r)

theorem returns_lexEscapedIdentifier (hp : tokStart < L.buffer.size) (hc : L.buffer.byteAt tokStart = byte '\x60') :
    Returns (L.lexEscapedIdentifier tokStart) fun t => t.Fits L.buffer tokStart := by
  have hle : tokStart + 1 ≤ L.buffer.size := hp
  refine returns_escapedIdentifierEnd.bind ?_
  rintro (_ | q) hq
  · refine (Buffer.returns_looksAt hle (by decide)).bind fun found hfound => ?_
    refine .ite (fun h => .pure ?_) fun _ => .pure (.plain (Nat.lt_succ_self tokStart) hp (by decide))
    obtain ⟨hdollar, hquote⟩ := hfound h
    have hlt := Buffer.lt_size_of_eq hle hdollar (by decide)
    exact ⟨Tok.noConfusion, by simp, Buffer.lt_size_of_eq (show tokStart + 1 + 1 ≤ L.buffer.size from hlt) hquote (by decide),
      fun _ => ⟨le_rfl, hc, hquote⟩⟩
  · obtain ⟨hle, hsize, hquote⟩ := hq q rfl
    exact .pure ⟨Tok.noConfusion, by simp only; omega, hsize, fun _ => ⟨by simp only; omega, hc, hquote⟩⟩

theorem returns_lexDollarIdent (prev : Tok) (hp : tokStart < L.buffer.size) :
    Returns (L.lexDollarIdent prev tokStart) fun t => t.Fits L.buffer tokStart := by
  rw [lexDollarIdent]
  refine .ite (fun _ => .pure (.plain (Nat.lt_succ_self tokStart) hp (by decide))) fun _ => ?_
  refine (Buffer.returns_scanWhile (show tokStart + 1 ≤ L.buffer.size from hp) (by decide)).bind fun q hq => ?_
  have hlt : tokStart < q := by omega
  exact .ite (fun _ => .pure (.plain hlt hq.2 (by decide))) fun _ => .ite (fun _ => .pure (.plain hlt hq.2 (by decide))) fun _ =>
    .pure (.plain hlt hq.2 (by decide))

theorem returns_hashWordEnd (hp : p ≤ L.buffer.size) :
    Returns (L.hashWordEnd p) fun q => p ≤ q ∧ q ≤ L.buffer.size := by
  refine (Buffer.returns_read hp).bind ?_
  rintro _ rfl
  refine .ite (fun hhead => ?_) fun _ => .pure ⟨le_rfl, hp⟩
  have hlt := @Buffer.lt_size_of_test L.buffer p (isIdentifierHead · false) hp hhead (by decide)
  exact (Buffer.returns_scanWhile hlt (by decide)).mono fun q hq => ⟨by omega, hq.2⟩

theorem returns_lexHash (hp : tokStart < L.buffer.size) :
    Returns (L.lexHash tokStart) fun t => t.Fits L.buffer tokStart := by
  have hle : tokStart + 1 ≤ L.buffer.size := hp
  refine (Buffer.returns_read hle).bind ?_
  rintro _ rfl
  refine .ite (fun heq => .pure ?_) fun _ => (returns_hashWordEnd hle).bind fun q hq => ?_
  · exact .plain (by omega) (Buffer.lt_size_of_eq hle heq (by decide)) (by decide)
  · split
    · exact .pure (.plain (Nat.lt_succ_self tokStart) hp (by decide))
    · next kind hkind => exact .pure (.plain (by omega) hq.2 (kindOfWord_ne (by decide) hkind))

/-! ## Operators -/

theorem returns_isLeftBound (hp : tokStart ≤ L.buffer.size) (hstart : L.contentStart ≤ tokStart) :
    Returns (L.isLeftBound tokStart) fun _ => True := by
  refine .ite (fun _ => .pure trivial) fun hne => (Buffer.returns_readBack hp (by omega)).bind fun c _ => ?_
  refine .ite (fun _ => .pure trivial) fun _ => .ite (fun h => ?_) fun _ => .pure trivial
  exact (Buffer.returns_readBack (by omega) (by omega)).bind fun _ _ => .pure trivial

theorem returns_isRightBound (leftBound : Bool) (hp : p ≤ L.buffer.size) :
    Returns (L.isRightBound p leftBound) fun _ => True := by
  refine (Buffer.returns_read hp).bind ?_
  rintro _ rfl
  refine .ite (fun _ => .pure trivial) fun _ => .ite (fun _ => .pure trivial) fun _ =>
    .ite (fun _ => .pure trivial) fun _ => .ite (fun hslash => ?_) fun _ => .pure trivial
  exact (Buffer.returns_read (Buffer.lt_size_of_eq hp hslash (by decide))).bind fun _ _ => .pure trivial

/-- The characters of the operator from `tokStart` come to the position. -/
inductive OperatorRun (L : Lexer) (tokStart : Nat) : Nat → Prop
  | start {p : Nat} (h : L.buffer.advanceIf isOperatorStartCodePoint tokStart = some p) : OperatorRun L tokStart p
  | next {p q : Nat} (hrun : OperatorRun L tokStart p)
      (hsil : L.inSILBody = true → L.buffer.byteAt p ≠ byte '!' ∧ L.buffer.byteAt p ≠ byte '?')
      (hdot : L.buffer.byteAt p = byte '.' → L.buffer.byteAt tokStart = byte '.')
      (h : L.buffer.advanceIf isOperatorContinuationCodePoint p = some q) : OperatorRun L tokStart q

/-- The characters of the operator come to a `<#` that ends the buffer. -/
def RunsIntoPlaceholder (L : Lexer) (tokStart : Nat) : Prop :=
  ∃ p, OperatorRun L tokStart p ∧ p + 2 = L.buffer.size ∧ L.buffer.byteAt p = byte '<' ∧
    L.buffer.byteAt (p + 1) = byte '#'

theorem OperatorRun.bounds (h : OperatorRun L tokStart p) : tokStart < p ∧ p ≤ L.buffer.size := by
  induction h with
  | start h => exact Buffer.advanceIf_bounds h
  | next _ _ _ h ih =>
      have := Buffer.advanceIf_bounds h
      exact ⟨by omega, this.2⟩

def CutPlaceholder (b : Buffer) (p : Nat) : Prop :=
  p + 2 = b.size ∧ b.byteAt p = byte '<' ∧ b.byteAt (p + 1) = byte '#'

theorem isPrefixOf_placeholder (hp : p ≤ L.buffer.size) :
    [byte '<', byte '#'].isPrefixOf (L.buffer.bytes.drop p) = true ↔
      L.buffer.byteAt p = byte '<' ∧ L.buffer.byteAt (p + 1) = byte '#' := by
  rw [Buffer.isPrefixOf_cons hp (by decide), Bool.and_eq_true, decide_eq_true_iff]
  refine and_congr_right fun hlt => ?_
  rw [Buffer.isPrefixOf_cons (Buffer.lt_size_of_eq hp hlt (by decide)) (by decide)]
  simp

theorem returns_placeholderAt (hp : p ≤ L.buffer.size) (hcut : ¬ CutPlaceholder L.buffer p) :
    Returns (L.placeholderAt p) fun r => r = true → L.buffer.byteAt p = byte '<' ∧ L.buffer.byteAt (p + 1) = byte '#' := by
  rw [placeholderAt, Buffer.rest_eq hp]
  refine .ite (fun h => ?_) fun _ => .pure fun h => absurd h Bool.false_ne_true
  obtain ⟨hlt, hsharp⟩ := (isPrefixOf_placeholder hp).1 h
  have := Buffer.lt_size_of_eq (Buffer.lt_size_of_eq hp hlt (by decide)) hsharp (by decide)
  have hne : p + 2 ≠ L.buffer.size := fun heq => hcut ⟨heq, hlt, hsharp⟩
  exact (Buffer.returns_rangeContainsPlaceholderEnd (by omega)).mono fun _ _ _ => ⟨hlt, hsharp⟩

theorem placeholderAt_cut (h : CutPlaceholder L.buffer p) : L.placeholderAt p = none := by
  have hp : p ≤ L.buffer.size := by have := h.1; omega
  rw [placeholderAt, Buffer.rest_eq hp]
  simp only [Option.bind_eq_bind, Option.bind_some, if_pos ((isPrefixOf_placeholder hp).2 h.2), h.1]
  exact Buffer.rangeContainsPlaceholderEnd_size

theorem returns_operatorStep (hrun : OperatorRun L tokStart p) (hcut : ¬ CutPlaceholder L.buffer p) :
    Returns (L.operatorStep tokStart p) (Step.All
      (fun q => OperatorRun L tokStart q ∧ p < q ∧ q ≤ L.buffer.size) fun q => tokStart < q ∧ q ≤ L.buffer.size) := by
  have hbounds := hrun.bounds
  have hp := hbounds.2
  refine (Buffer.returns_read hp).bind ?_
  rintro _ rfl
  refine .ite (fun _ => .pure hbounds) fun hsil => (Buffer.returns_read (by omega)).bind ?_
  rintro _ rfl
  refine .ite (fun _ => .pure hbounds) fun hdot => (returns_placeholderAt hp hcut).bind fun placeholder _ => ?_
  refine .ite (fun _ => .pure hbounds) fun _ => ?_
  cases hnext : L.buffer.advanceIf isOperatorContinuationCodePoint p with
  | none => exact .pure hbounds
  | some q =>
      have := Buffer.advanceIf_bounds hnext
      refine .pure ⟨hrun.next ?_ ?_ hnext, this⟩
      · intro hbody
        exact not_or.1 fun h => hsil ⟨by omega, hbody, h⟩
      · exact fun h => not_not.1 fun hne => hdot ⟨h, hne⟩

theorem operatorStep_next (hrun : OperatorRun L tokStart p)
    (hsil : L.inSILBody = true → L.buffer.byteAt p ≠ byte '!' ∧ L.buffer.byteAt p ≠ byte '?')
    (hdot : L.buffer.byteAt p = byte '.' → L.buffer.byteAt tokStart = byte '.')
    (hnext : L.buffer.advanceIf isOperatorContinuationCodePoint p = some q) (hq : L.buffer.byteAt q ≠ byte '#') :
    L.operatorStep tokStart p = some (.next q) := by
  obtain ⟨hlt, hp⟩ := hrun.bounds
  -- A placeholder would begin with one character below 128, and the next one is not the sharp sign.
  have hplain : ¬ (L.buffer.byteAt p = byte '<' ∧ L.buffer.byteAt (p + 1) = byte '#') := by
    rintro ⟨hangle, hsharp⟩
    have hascii : L.buffer.byteAt p < 0x80 := by rw [hangle]; decide
    rw [Buffer.advanceIf_ascii (Buffer.lt_size_of_eq hp hangle (by decide)) hascii, hangle, if_pos (by decide)] at hnext
    exact hq (Option.some.inj hnext ▸ hsharp)
  have hplaceholder : L.placeholderAt p = some false := by
    rw [placeholderAt, Buffer.rest_eq hp]
    simp only [Option.bind_eq_bind, Option.bind_some, if_neg fun h => hplain ((isPrefixOf_placeholder hp).1 h)]
    rfl
  have hsil' : ¬ (p ≠ L.buffer.size ∧ L.inSILBody = true ∧
      (L.buffer.byteAt p = byte '!' ∨ L.buffer.byteAt p = byte '?')) :=
    fun h => h.2.2.elim (hsil h.2.1).1 (hsil h.2.1).2
  have hdot' : ¬ (L.buffer.byteAt p = byte '.' ∧ L.buffer.byteAt tokStart ≠ byte '.') := fun h => h.2 (hdot h.1)
  simp only [operatorStep, Buffer.read_eq hp, Buffer.read_eq (show tokStart ≤ L.buffer.size by omega),
    Option.bind_eq_bind, Option.bind_some, if_neg hsil', if_neg hdot', hplaceholder, hnext]
  rfl

theorem OperatorRun.visited {r fuel : Nat} {start : Nat}
    (hstart : L.buffer.advanceIf isOperatorStartCodePoint tokStart = some start)
    (hr : iterate (L.operatorStep tokStart) fuel start = some r) (hrun : OperatorRun L tokStart p)
    (hp : L.buffer.byteAt p ≠ byte '#') : ∃ fuel', iterate (L.operatorStep tokStart) fuel' p = some r := by
  induction hrun with
  | start h =>
      cases hstart.symm.trans h
      exact ⟨fuel, hr⟩
  | @next p q hrun hsil hdot h ih =>
      have hne : L.buffer.byteAt p ≠ byte '#' := by
        intro hsharp
        have hlt := Buffer.lt_size_of_eq hrun.bounds.2 hsharp (by decide)
        rw [Buffer.advanceIf_ascii hlt (by rw [hsharp]; decide), hsharp, if_neg (by decide)] at h
        exact Option.some_ne_none _ h.symm
      obtain ⟨fuel', hfuel'⟩ := ih hne
      exact iterate_of_next (operatorStep_next hrun hsil hdot h hp) hfuel'

theorem returns_operatorEnd {start : Nat} (hstart : L.buffer.advanceIf isOperatorStartCodePoint tokStart = some start)
    (hcut : ¬ RunsIntoPlaceholder L tokStart) :
    Returns (iterate (L.operatorStep tokStart) L.buffer.fuel start) fun p => tokStart < p ∧ p ≤ L.buffer.size := by
  refine Buffer.returns_iterate (fun q => q) (OperatorRun L tokStart) ?_ (.start hstart)
    (Buffer.advanceIf_bounds hstart).2
  intro p hrun hp
  exact returns_operatorStep hrun fun h => hcut ⟨p, hrun, h⟩

theorem operatorEnd_cut {start : Nat} (hstart : L.buffer.advanceIf isOperatorStartCodePoint tokStart = some start)
    (hcut : RunsIntoPlaceholder L tokStart) :
    iterate (L.operatorStep tokStart) L.buffer.fuel start = none := by
  obtain ⟨p, hrun, h⟩ := hcut
  by_contra hr
  obtain ⟨r, hr⟩ := Option.ne_none_iff_exists'.1 hr
  obtain ⟨fuel', hfuel'⟩ := hrun.visited hstart hr (by rw [h.2.1]; decide)
  have hp : p ≤ L.buffer.size := hrun.bounds.2
  have hnone : L.operatorStep tokStart p = none := by
    have htok : tokStart ≤ L.buffer.size := by
      have := hrun.bounds
      omega
    have hsil : ¬ (p ≠ L.buffer.size ∧ L.inSILBody = true ∧ (byte '<' = byte '!' ∨ byte '<' = byte '?')) :=
      fun h => h.2.2.elim (by decide) (by decide)
    have hdot : ¬ (byte '<' = byte '.' ∧ L.buffer.byteAt tokStart ≠ byte '.') := fun h => absurd h.1 (by decide)
    simp only [operatorStep, Buffer.read_eq hp, Buffer.read_eq htok, Option.bind_eq_bind, Option.bind_some, h.2.1,
      placeholderAt_cut h, if_neg hsil, if_neg hdot, Option.bind_none]
  rw [iterate_none hnone] at hfuel'
  exact Option.some_ne_none r hfuel'.symm

theorem returns_commentInOperator (hlt : tokStart < p) (hp : p ≤ L.buffer.size) :
    Returns (L.commentInOperator tokStart p) fun q => tokStart < q ∧ q ≤ p := by
  refine .ite (fun hlong => ?_) fun _ => .pure ⟨hlt, le_rfl⟩
  refine Buffer.returns_iterate (fun q => q) (fun q => tokStart < q ∧ q < p) ?_ ⟨Nat.lt_succ_self tokStart, by omega⟩
    (by omega)
  rintro q ⟨htok, hq⟩ hle
  refine .ite (fun _ => .pure ⟨hlt, le_rfl⟩) fun hne => ?_
  refine (Buffer.returns_looksAt hle (by decide)).bind fun line _ => (Buffer.returns_looksAt hle (by decide)).bind fun block _ => ?_
  exact .ite (fun _ => .pure ⟨htok, hq.le⟩) fun _ => .pure ⟨⟨by omega, by omega⟩, by omega, by omega⟩

theorem returns_reservedOperator (c : UInt8) (leftBound rightBound : Bool) (hp : p ≤ L.buffer.size) :
    Returns (L.reservedOperator c p leftBound rightBound) fun r => r ≠ some .eof := by
  refine .ite (fun _ => .pure (by decide)) fun _ => .ite (fun _ => .pure ?_) fun _ => .ite (fun _ => ?_) fun _ =>
    .ite (fun _ => .pure ?_) fun _ => .pure (by decide)
  · split_ifs <;> decide
  · refine .ite (fun _ => .pure (by decide)) fun _ => .ite (fun _ => .pure (by decide)) fun _ => ?_
    refine (Buffer.returns_scanWhile hp (by decide)).bind fun q hq => (Buffer.returns_read hq.2).bind fun d _ => ?_
    refine .ite (fun _ => .pure (by decide)) fun _ => (returns_isRightBound leftBound hq.2).bind fun _ _ => ?_
    exact .ite (fun _ => .pure (by decide)) fun _ => .pure (by decide)
  · split_ifs <;> decide

theorem returns_operatorKind (leftBound rightBound : Bool) (hp : p ≤ L.buffer.size) :
    Returns (L.operatorKind tokStart p leftBound rightBound) fun kind => kind ≠ .eof := by
  have htext : reservedText (L.buffer.text tokStart p) ≠ some .eof := by
    rw [reservedText]
    split_ifs <;> decide
  have hreserved : Returns
      (if p = tokStart + 1 then L.reservedOperator (L.buffer.byteAt tokStart) p leftBound rightBound
        else some (reservedText (L.buffer.text tokStart p))) fun r => r ≠ some .eof :=
    .ite (fun _ => returns_reservedOperator _ leftBound rightBound hp) fun _ => .pure htext
  refine hreserved.bind ?_
  rintro (_ | kind) hkind
  · refine .pure ?_
    rw [Option.getD_none]
    split_ifs <;> decide
  · exact .pure fun h => hkind (congrArg some h)

def BeginsOperator (L : Lexer) (tokStart : Nat) : Prop :=
  (L.buffer.advanceIf isOperatorStartCodePoint tokStart).isSome

theorem returns_lexOperatorIdentifier (hop : BeginsOperator L tokStart) (hstart : L.contentStart ≤ tokStart)
    (hcut : ¬ RunsIntoPlaceholder L tokStart) :
    Returns (L.lexOperatorIdentifier tokStart) fun t => t.Fits L.buffer tokStart := by
  obtain ⟨start, hop⟩ := Option.isSome_iff_exists.1 hop
  have htok : tokStart ≤ L.buffer.size := by
    have := Buffer.advanceIf_bounds hop
    omega
  rw [lexOperatorIdentifier, hop]
  refine (returns_operatorEnd hop hcut).bind fun p hp => (returns_commentInOperator hp.1 hp.2).bind fun q hq => ?_
  have hsize : q ≤ L.buffer.size := hq.2.trans hp.2
  refine (returns_isLeftBound htok hstart).bind fun leftBound _ => ?_
  refine (returns_isRightBound leftBound hsize).bind fun rightBound _ => ?_
  exact (returns_operatorKind leftBound rightBound hsize).bind fun kind hkind => .pure (.plain hq.1 hsize hkind)

theorem lexOperatorIdentifier_cut (hcut : RunsIntoPlaceholder L tokStart) : L.lexOperatorIdentifier tokStart = none := by
  rw [lexOperatorIdentifier]
  cases hop : L.buffer.advanceIf isOperatorStartCodePoint tokStart with
  | none => rfl
  | some start =>
      simp only [Option.bind_eq_bind, Option.bind_some, operatorEnd_cut hop hcut, Option.bind_none]

end Lexer

end SwiftKStdlib.Parse
