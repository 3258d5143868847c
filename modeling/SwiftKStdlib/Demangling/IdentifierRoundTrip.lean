import Mathlib.Tactic
import SwiftKStdlib.Demangling.PunycodeUTF8
import SwiftKStdlib.Demangling.Reading

/-!
# Identifiers are read back

* `Mangleable` : the identifiers that are mangled;
* `Reads` : in any text, what the mangler wrote is read back, and leaves the mangler's table;
* `mangleIdentifier_reads` : one identifier;
* `demangleIdentifiers_mangleIdentifiers` : a sequence of identifiers, mangled into one buffer.
-/

namespace SwiftKStdlib.Demangling

open Lib (Prog)
open Lib.Prog (bind_run bind_congr get_run)
open Mangle Mangler Demangler
open Unicode.UTF8 (WellFormed)

/-- A well-formed text that does not begin with a digit, short enough for Punycode. -/
structure Mangleable (ident : StringRef) : Prop where
  ne_nil : ident ≠ []
  wellFormed : ∃ words : List StringRef, ident = words.flatten ∧ (∀ w ∈ words, WellFormed w) ∧
    (words.length + 1) * 0x110000 < 2 ^ 31
  first : isDigit (ident.headD 0) = false

/-- `mangled` is read back as `ident`; the demangler's table, before and after. -/
def Reads (mangled ident : StringRef) (T T' : List StringRef) : Prop :=
  ∀ text pos y, text.drop pos = mangled ++ y →
    demangleIdentifier ⟨text, pos, T⟩ = (.ok ident, ⟨text, pos + mangled.length, T'⟩)

theorem Mangleable.length_lt {ident : StringRef} (h : Mangleable ident) : ident.length < 2 ^ 31 := by
  obtain ⟨words, rfl, hwords, hlen⟩ := h.wellFormed
  have hbytes : words.flatten.length ≤ 4 * words.length := by
    clear hlen h
    induction words with
    | nil => simp
    | cons w words ih =>
        have hw := (Unicode.UTF8.wellFormed_length (hwords w List.mem_cons_self)).2
        have hrest := ih fun v hv => hwords v (List.mem_cons_of_mem w hv)
        rw [List.flatten_cons, List.length_append, List.length_cons]
        omega
  omega

variable {ident : StringRef} {T : List StringRef}

/-! ## Identifiers with words -/

theorem Split.length_le {p : Nat} {T' : List StringRef} {new : List SubstitutionWord}
    {substs : List WordReplacement} {lit : StringRef} {cs : List Chunk}
    (h : Split ident p T new substs lit cs T') (hT : T.length ≤ maxNumWords) :
    T'.length ≤ maxNumWords := by
  induction h with
  | gap => exact hT
  | subst _ _ _ _ _ _ ih => exact ih hT
  | new _ _ _ _ hadd _ ih =>
      refine ih ?_
      rw [List.length_append]
      exact hadd.2
  | skip _ _ _ _ _ _ ih => exact ih hT

def encode (lit : StringRef) (cs : List Chunk) : StringRef :=
  (if cs.isEmpty then [] else [0x30]) ++ (encodeLit lit ++ encodeChunks cs)

theorem mangleIdentifier_split {m : Mangler} (hpc : needsPunycodeEncoding ident = false)
    (hm : Located m.buffer m.words T) :
    ∃ m' new substs lit cs T', mangleIdentifier m ident = some m' ∧
      Split ident 0 T new substs lit cs T' ∧ m'.buffer = m.buffer ++ encode lit cs ∧
      Located m'.buffer m'.words T' := by
  obtain ⟨new, substs, lit, cs, T', hsplit, hscan⟩ := scanFrom_split hm (p := 0) ⟨m.words, []⟩ [] []
    (Nat.zero_le ident.length) .nil (List.append_nil _).symm
  rw [List.append_nil] at hsplit
  rw [← scanWords_eq, List.nil_append] at hscan
  obtain ⟨words, pos, n, hwrite, hloc⟩ := writeReplacements_split hsplit (Nat.zero_le _) m.words
    (m.buffer ++ if cs.isEmpty then [] else [0x30]) (hm.append _)
  have hempty : substs.isEmpty = cs.isEmpty := by
    have hlen := hsplit.length_substs
    rw [Bool.eq_iff_iff, List.isEmpty_iff_length_eq_zero, List.isEmpty_iff_length_eq_zero, hlen]
  have hbuffer : (if substs.isEmpty then m.buffer else m.buffer ++ [0x30]) =
      m.buffer ++ if cs.isEmpty then [] else [0x30] := by
    rw [hempty]
    cases cs <;> simp
  rw [List.append_assoc] at hloc hwrite
  refine ⟨⟨words, m.buffer ++ encode lit cs⟩, new, substs, lit, cs, T', ?_, hsplit, rfl, hloc⟩
  rw [mangleIdentifier, hpc]
  simp only [Bool.false_eq_true, if_false, hscan, hbuffer, hwrite]
  rfl

theorem encodeRest_headD_ne {lit y : StringRef} {c : Chunk} {cs : List Chunk} (hidx : c.idx < 26) :
    (encodeRest lit (c :: cs) ++ y).headD 0 ≠ 0x30 := by
  rw [encodeRest, if_neg fun hl => List.cons_ne_nil _ _ hl.2]
  by_cases hlit : lit = []
  · subst hlit
    rw [encodeLit, if_pos rfl, encodeChunks_cons]
    intro h0
    have hletter := (substLetter_spec cs.isEmpty hidx).1
    change substLetter cs.isEmpty c.idx = 0x30 at h0
    rw [h0] at hletter
    exact absurd hletter (by decide)
  · obtain ⟨d, r, hcons, -, hd⟩ := decimal_cons (List.length_pos_of_ne_nil hlit)
    rw [encodeLit, if_neg hlit, hcons]
    exact hd

theorem demangleIdentifier_body {isPunycoded hasWordSubsts : Bool} {text : StringRef} {pos : Nat}
    {d : Demangler} (hident : ident ≠ [])
    (h : identifierLoop isPunycoded (text.length + 1) hasWordSubsts [] ⟨text, pos, T⟩ = (.ok ident, d)) :
    (do
      let d ← Prog.get
      let identifier ← identifierLoop isPunycoded (d.text.length + 1) hasWordSubsts []
      if identifier.isEmpty then Prog.throw .nullptr else pure identifier :
        Prog Demangler Failure StringRef) ⟨text, pos, T⟩ = (.ok ident, d) := by
  have hempty : ident.isEmpty = false := by
    cases ident with
    | nil => exact absurd rfl hident
    | cons => rfl
  rw [bind_run (get_run _), bind_run h, hempty]
  rfl

theorem Split.reads {T' : List StringRef} {new : List SubstitutionWord} {substs : List WordReplacement}
    {lit : StringRef} {cs : List Chunk} (h : Split ident 0 T new substs lit cs T')
    (hident : Mangleable ident) (hT : T.length ≤ maxNumWords) : Reads (encode lit cs) ident T T' := by
  intro text pos y htext
  have hplain : plain lit cs = ident := h.drop_eq.symm
  have hdigit : isDigit (lit.headD 0) = false := by
    cases lit with
    | nil => rfl
    | cons c t =>
        have hfirst := hident.first
        rw [← hplain] at hfirst
        exact hfirst
  have hrun : ∀ (b : Bool) (q : Nat), b = (!cs.isEmpty) → text.drop q = encodeRest lit cs ++ y →
      identifierLoop false (text.length + 1) b [] ⟨text, q, T⟩ =
        (.ok ident, ⟨text, q + (encodeRest lit cs).length, T'⟩) := by
    rintro b q rfl hq
    have hlen := congrArg List.length hq
    rw [List.length_drop] at hlen
    rw [identifierLoop_run, identifierLoop_split h hdigit hident.length_lt hT hq
      (by change _ < text.length + 1; omega) (by omega), List.nil_append, hplain]
  cases cs with
  | nil =>
      have hlit : lit ≠ [] := by
        rintro rfl
        exact hident.ne_nil hplain.symm
      obtain ⟨c, r, hcons, hc, hc0⟩ := decimal_cons (List.length_pos_of_ne_nil hlit)
      have henc : encode lit [] = encodeRest lit [] := by
        rw [encodeRest, if_neg fun hl => hlit hl.1]
        rfl
      have hhead : (encode lit [] ++ y).headD 0 = c := by
        rw [encode, encodeLit, if_neg hlit, hcons]
        rfl
      rw [henc] at htext hhead ⊢
      have hc0' : (c == 0x30) = false := beq_eq_false_iff_ne.2 hc0
      rw [demangleIdentifier, bind_run (peekChar_run htext), hhead]
      simp only [hc, hc0', Bool.not_true, Bool.false_eq_true, if_false]
      exact demangleIdentifier_body hident.ne_nil (hrun false pos rfl htext)
  | cons c cs =>
      have henc : encode lit (c :: cs) = 0x30 :: encodeRest lit (c :: cs) := by
        rw [encodeRest, if_neg fun hl => List.cons_ne_nil _ _ hl.2]
        rfl
      have hidx : c.idx < 26 := by
        obtain ⟨ws, new', -, hnext⟩ := h.next
        cases hnext with
        | chunk hidx =>
            exact (List.getElem?_eq_some_iff.1 hidx).1.trans_le (length_foldl_addToTable hT)
      rw [henc, List.cons_append] at htext
      have hrest : text.drop (pos + 1) = encodeRest lit (c :: cs) ++ y := drop_add (x := [_]) htext
      have hnext := nextIf_run (T := T) hrest 0x30
      rw [if_neg (encodeRest_headD_ne hidx)] at hnext
      rw [demangleIdentifier, bind_run (peekChar_run htext)]
      simp only [List.headD_cons, show isDigit 0x30 = true from rfl, Bool.not_true, Bool.false_eq_true,
        if_false, beq_self_eq_true, if_true]
      rw [bind_run (nextChar_run htext), bind_run hnext, if_neg Bool.false_ne_true]
      have hbody := demangleIdentifier_body hident.ne_nil (hrun true (pos + 1) rfl hrest)
      have hpos : pos + (encode lit (c :: cs)).length = pos + 1 + (encodeRest lit (c :: cs)).length := by
        rw [henc, List.length_cons]
        omega
      rw [hpos]
      exact hbody

/-! ## Identifiers in Punycode -/

def separator (pcIdent : StringRef) : StringRef :=
  if isDigit (pcIdent.headD 0) || pcIdent.headD 0 == 0x5F then [0x5F] else []

def encodePunycoded (pcIdent : StringRef) : StringRef :=
  0x30 :: 0x30 :: (decimal pcIdent.length ++ (separator pcIdent ++ pcIdent))

theorem nextIf_separator {text y pcIdent : StringRef} {pos : Nat} (hne : pcIdent ≠ [])
    (h : text.drop pos = separator pcIdent ++ (pcIdent ++ y)) :
    isDigit ((separator pcIdent ++ (pcIdent ++ y)).headD 0) = false ∧
      ∃ b, nextIf 0x5F ⟨text, pos, T⟩ = (.ok b, ⟨text, pos + (separator pcIdent).length, T⟩) := by
  obtain ⟨c, t, rfl⟩ := List.exists_cons_of_ne_nil hne
  have hnext := nextIf_run (T := T) h 0x5F
  cases hc : isDigit c || c == 0x5F with
  | true =>
      have hsep : separator (c :: t) = [0x5F] := if_pos hc
      rw [hsep] at hnext ⊢
      exact ⟨rfl, true, hnext⟩
  | false =>
      have hsep : separator (c :: t) = [] := if_neg (by rw [List.headD_cons, hc]; decide)
      rw [Bool.or_eq_false_iff, beq_eq_false_iff_ne] at hc
      rw [hsep] at hnext ⊢
      exact ⟨hc.1, false, hnext.trans (if_neg hc.2)⟩

theorem appendSlice_punycoded {text y pcIdent : StringRef} {pos : Nat} (acc : StringRef)
    (h : text.drop pos = pcIdent ++ y) (hne : pcIdent ≠ [])
    (hdec : Punycode.decodePunycodeUTF8 pcIdent = some (true, ident)) :
    appendSlice true pcIdent.length acc ⟨text, pos, T⟩ =
      (.ok (acc ++ ident), ⟨text, pos + pcIdent.length, T⟩) := by
  have hlen := length_of_drop_eq h (by simp [hne])
  rw [List.length_append] at hlen
  have hsub : substr text pos pcIdent.length = pcIdent := by rw [substr, h, List.take_left]
  rw [appendSlice]
  simp only [hsub, if_true, hdec]
  rw [if_neg (by omega)]

theorem encodePunycoded_reads {pcIdent : StringRef} (hident : ident ≠ []) (hne : pcIdent ≠ [])
    (hint : pcIdent.length < 2 ^ 31)
    (hdec : Punycode.decodePunycodeUTF8 pcIdent = some (true, ident)) :
    Reads (encodePunycoded pcIdent) ident T T := by
  intro text pos y htext
  have hpos := List.length_pos_of_ne_nil hne
  obtain ⟨d, r, hcons, -, hd⟩ := decimal_cons hpos
  have hhead : ∀ z, (decimal pcIdent.length ++ z).headD 0 ≠ 0x30 := fun z => by
    rw [hcons]
    exact hd
  -- behind each part of the text
  have htext₀ : text.drop pos = 0x30 :: 0x30 ::
      (decimal pcIdent.length ++ (separator pcIdent ++ (pcIdent ++ y))) := by
    simpa only [encodePunycoded, List.cons_append, List.append_assoc] using htext
  have htext₁ : text.drop (pos + 1) = 0x30 ::
      (decimal pcIdent.length ++ (separator pcIdent ++ (pcIdent ++ y))) :=
    drop_add (x := [0x30]) htext₀
  have htext₂ : text.drop (pos + 1 + 1) =
      decimal pcIdent.length ++ (separator pcIdent ++ (pcIdent ++ y)) :=
    drop_add (x := [0x30]) htext₁
  have htext₃ := drop_add htext₂
  obtain ⟨hdigit, b, hsep⟩ := nextIf_separator (T := T) hne htext₃
  have hzeros := nextIf_run (T := T) htext₁ 0x30
  rw [if_pos (List.headD_cons ..)] at hzeros
  have hnoZero := nextIf_run (T := T) htext₂ 0x30
  rw [if_neg (hhead _)] at hnoZero
  have hslice := appendSlice_punycoded (T := T) [] (drop_add htext₃) hne hdec
  have hloop : identifierLoop true (text.length + 1) false [] ⟨text, pos + 1 + 1, T⟩ =
      (.ok ident, ⟨text, pos + (encodePunycoded pcIdent).length, T⟩) := by
    have hlen : pos + (encodePunycoded pcIdent).length = pos + 1 + 1 +
        (decimal pcIdent.length).length + (separator pcIdent).length + pcIdent.length := by
      simp only [encodePunycoded, List.length_cons, List.length_append]
      omega
    rw [identifierLoop_run, bind_run (wordSubsts_stop htext₂ rfl), literalPart, bind_run hnoZero,
      if_neg Bool.false_ne_true, bind_run (demangleNatural_decimal hpos hint htext₂ hdigit)]
    simp only [hpos.ne', if_false, if_true]
    rw [bind_run hsep, bind_run hslice, hlen]
    rfl
  rw [demangleIdentifier, bind_run (peekChar_run htext₀)]
  simp only [List.headD_cons, show isDigit 0x30 = true from rfl, Bool.not_true, Bool.false_eq_true,
    if_false, beq_self_eq_true, if_true]
  rw [bind_run (nextChar_run htext₀), bind_run hzeros, if_pos rfl]
  exact demangleIdentifier_body hident hloop

theorem mangleIdentifier_punycoded {m : Mangler} {pcIdent : StringRef}
    (hpc : needsPunycodeEncoding ident = true)
    (hencode : Punycode.encodePunycodeUTF8 ident true = some (true, pcIdent)) :
    mangleIdentifier m ident = some ⟨m.words, m.buffer ++ encodePunycoded pcIdent⟩ := by
  rw [mangleIdentifier, hpc]
  simp only [if_true, hencode, Option.bind_eq_bind, Option.bind_some, encodePunycoded, separator]
  cases isDigit (pcIdent.headD 0) || pcIdent.headD 0 == 0x5F <;> simp

/-! ## Sequences of identifiers -/

theorem mangleIdentifier_reads {m : Mangler} (hm : Located m.buffer m.words T)
    (hT : T.length ≤ maxNumWords) (hident : Mangleable ident) :
    ∃ m' mangled T', mangleIdentifier m ident = some m' ∧ m'.buffer = m.buffer ++ mangled ∧
      Located m'.buffer m'.words T' ∧ T'.length ≤ maxNumWords ∧ Reads mangled ident T T' := by
  cases hpc : needsPunycodeEncoding ident with
  | false =>
      obtain ⟨m', new, substs, lit, cs, T', hmangle, hsplit, hbuffer, hloc⟩ :=
        mangleIdentifier_split hpc hm
      exact ⟨m', _, T', hmangle, hbuffer, hloc, hsplit.length_le hT, hsplit.reads hident hT⟩
  | true =>
      obtain ⟨words, hwords, hwf, hlen⟩ := hident.wellFormed
      obtain ⟨out, hencode, hdecode⟩ := Punycode.decodePunycodeUTF8_encodePunycodeUTF8 hwf hlen
      have hint := Punycode.length_encodePunycodeUTF8 hwf hlen hencode
      rw [← hwords] at hencode hdecode
      have hne : out ≠ [] := by
        rintro rfl
        have hnil : Punycode.decodePunycodeUTF8 [] = some (true, []) := by decide
        rw [hnil] at hdecode
        exact hident.ne_nil (Prod.mk.inj (Option.some.inj hdecode)).2.symm
      exact ⟨_, _, T, mangleIdentifier_punycoded hpc hencode, rfl, hm.append _, hT,
        encodePunycoded_reads hident.ne_nil hne hint hdecode⟩

def Mangler.mangleIdentifiers (m : Mangler) (idents : List StringRef) : Option Mangler :=
  idents.foldlM mangleIdentifier m

def Mangler.wordStrings (m : Mangler) : List StringRef :=
  m.words.map fun w => substr m.buffer w.start w.length

/-- The next `k` identifiers. -/
def Demangler.demangleIdentifiers : Nat → Prog Demangler Failure (List StringRef)
  | 0 => pure []
  | k + 1 => do
    let ident ← demangleIdentifier
    let rest ← demangleIdentifiers k
    pure (ident :: rest)

theorem Located.wordStrings_eq {m : Mangler} (h : Located m.buffer m.words T) : m.wordStrings = T := by
  rw [Mangler.wordStrings]
  generalize m.words = ws at h
  induction h with
  | nil => rfl
  | cons hat _ ih => rw [List.map_cons, hat.substr_eq, ih]

theorem mangleIdentifiers_reads {idents : List StringRef} (h : ∀ ident ∈ idents, Mangleable ident)
    {m : Mangler} (hm : Located m.buffer m.words T) (hT : T.length ≤ maxNumWords) :
    ∃ m' tail, m.mangleIdentifiers idents = some m' ∧ m'.buffer = m.buffer ++ tail ∧
      ∀ k, k ≤ idents.length → ∃ mk mid Tk, m.mangleIdentifiers (idents.take k) = some mk ∧
        mid <+: tail ∧ mk.buffer = m.buffer ++ mid ∧ Located mk.buffer mk.words Tk ∧
        Tk.length ≤ maxNumWords ∧
        ∀ text pos y, text.drop pos = tail ++ y → demangleIdentifiers k ⟨text, pos, T⟩ =
          (.ok (idents.take k), ⟨text, pos + mid.length, Tk⟩) := by
  induction idents generalizing m T with
  | nil =>
      refine ⟨m, [], rfl, (List.append_nil _).symm, fun k hk => ⟨m, [], T, ?_, List.nil_prefix,
        (List.append_nil _).symm, hm, hT, fun text pos y _ => ?_⟩⟩
      · rw [List.take_nil]
        rfl
      · rw [Nat.le_zero.1 hk]
        rfl
  | cons ident idents ih =>
      obtain ⟨m₁, mangled, T₁, hmangle, hbuffer, hm₁, hT₁, hreads⟩ :=
        mangleIdentifier_reads hm hT (h ident List.mem_cons_self)
      obtain ⟨m', tail, hrest, hbuffer', hall⟩ :=
        ih (fun i hi => h i (List.mem_cons_of_mem ident hi)) hm₁ hT₁
      have hcons : ∀ l, m.mangleIdentifiers (ident :: l) = m₁.mangleIdentifiers l := fun l => by
        rw [mangleIdentifiers, List.foldlM_cons, hmangle]
        rfl
      refine ⟨m', mangled ++ tail, (hcons _).trans hrest, ?_, fun k hk => ?_⟩
      · rw [hbuffer', hbuffer, List.append_assoc]
      cases k with
      | zero =>
          refine ⟨m, [], T, rfl, List.nil_prefix, (List.append_nil _).symm, hm, hT, fun _ _ _ _ => rfl⟩
      | succ k =>
          obtain ⟨mk, mid, Tk, hmk, hmid, hmkbuffer, hmkloc, hTk, hread⟩ :=
            hall k (Nat.le_of_succ_le_succ hk)
          refine ⟨mk, mangled ++ mid, Tk, (hcons _).trans hmk, (List.prefix_append_right_inj _).2 hmid,
            ?_, hmkloc, hTk, fun text pos y htext => ?_⟩
          · rw [hmkbuffer, hbuffer, List.append_assoc]
          · rw [List.append_assoc] at htext
            rw [demangleIdentifiers, bind_run (hreads _ _ _ htext),
              bind_run (hread _ _ _ (drop_add htext)), List.length_append, ← add_assoc]
            rfl

/-- Identifiers that are mangled one after another into one buffer are read back one after another
from its start, each from its own text; at any time the demangler's table is the mangler's. -/
theorem demangleIdentifiers_mangleIdentifiers (idents : List StringRef)
    (h : ∀ ident ∈ idents, Mangleable ident) :
    ∃ m, Mangler.mangleIdentifiers ⟨[], []⟩ idents = some m ∧ ∀ k, k ≤ idents.length →
      ∃ mk, Mangler.mangleIdentifiers ⟨[], []⟩ (idents.take k) = some mk ∧ mk.buffer <+: m.buffer ∧
        mk.words.length ≤ maxNumWords ∧ demangleIdentifiers k ⟨m.buffer, 0, []⟩ =
          (.ok (idents.take k), ⟨m.buffer, mk.buffer.length, mk.wordStrings⟩) := by
  obtain ⟨m, tail, hm, htail, hall⟩ := mangleIdentifiers_reads h (m := ⟨[], []⟩) .nil (Nat.zero_le _)
  refine ⟨m, hm, fun k hk => ?_⟩
  obtain ⟨mk, mid, Tk, hmk, hmid, hbuffer, hloc, hTk, hread⟩ := hall k hk
  rw [List.nil_append] at htail hbuffer
  refine ⟨mk, hmk, ?_, hloc.length_eq.trans_le hTk, ?_⟩
  · rw [hbuffer, htail]
    exact hmid
  · have hrun := hread m.buffer 0 [] (by rw [List.drop_zero, htail, List.append_nil])
    rw [hrun, hbuffer, zero_add, hloc.wordStrings_eq]

/-- `fooBar`, `fooBar` and `héBar`. -/
def fooBars : List StringRef :=
  [[0x66, 0x6F, 0x6F, 0x42, 0x61, 0x72], [0x66, 0x6F, 0x6F, 0x42, 0x61, 0x72],
    [0x68, 0xC3, 0xA9, 0x42, 0x61, 0x72]]

theorem demangleIdentifiers_mangleIdentifiers_fooBars :
    ∃ m, Mangler.mangleIdentifiers ⟨[], []⟩ fooBars = some m ∧ ∀ k, k ≤ fooBars.length →
      ∃ mk, Mangler.mangleIdentifiers ⟨[], []⟩ (fooBars.take k) = some mk ∧ mk.buffer <+: m.buffer ∧
        mk.words.length ≤ maxNumWords ∧ demangleIdentifiers k ⟨m.buffer, 0, []⟩ =
          (.ok (fooBars.take k), ⟨m.buffer, mk.buffer.length, mk.wordStrings⟩) := by
  have hfoo : Mangleable [0x66, 0x6F, 0x6F, 0x42, 0x61, 0x72] :=
    ⟨by decide, ⟨[[0x66], [0x6F], [0x6F], [0x42], [0x61], [0x72]], rfl, by decide, by decide⟩, rfl⟩
  have he : Mangleable [0x68, 0xC3, 0xA9, 0x42, 0x61, 0x72] :=
    ⟨by decide, ⟨[[0x68], [0xC3, 0xA9], [0x42], [0x61], [0x72]], rfl, by decide, by decide⟩, rfl⟩
  exact demangleIdentifiers_mangleIdentifiers fooBars
    (List.forall_mem_cons.2 ⟨hfoo, List.forall_mem_cons.2 ⟨hfoo, List.forall_mem_singleton.2 he⟩⟩)

end SwiftKStdlib.Demangling
