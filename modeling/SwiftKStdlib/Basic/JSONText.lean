import Mathlib.Tactic
import SwiftKStdlib.Lib.Json
import SwiftKStdlib.Unicode.UTF8
import SwiftKStdlib.Demangling.Reading
import SwiftKStdlib.Basic.JSONSerialization

/-!
# The text of a value

* `json` : the JSON value that is meant, with the keys that are not omitted;
* `Writable` : the values that can be written, in well-formed UTF-8;
* `readsString_quoted`, `yields_intText` : strings and numbers are read back;
* `Separated` : no bit set with two matching cases, and no array with more elements than are counted;
* `text_yields` : these values are read back from their text, and no other ones;
* `writesJson_iff` : the values for which the text is the JSON that is meant.
-/

namespace SwiftKStdlib.Basic.Json

open Demangling (StringRef decimal char)
open Lib (Json JsonText)
open Lib.Json

/-! ## Strings -/

def IsUTF8 (s : StringRef) : Prop :=
  ∃ cs : List (List (BitVec 8)), (∀ c ∈ cs, Unicode.UTF8.WellFormed c) ∧ s = cs.flatten

def Plain (c : BitVec 8) : Prop := c ≠ 0x22 ∧ c ≠ 0x5C ∧ 0x1F < c.toNat

instance (c : BitVec 8) : Decidable (Plain c) := inferInstanceAs (Decidable (_ ∧ _))

section

variable {s t : StringRef} {c : BitVec 8}

theorem isUTF8_nil : IsUTF8 [] := ⟨[], fun _ hc => absurd hc List.not_mem_nil, rfl⟩

theorem IsUTF8.append (hs : IsUTF8 s) (ht : IsUTF8 t) : IsUTF8 (s ++ t) := by
  obtain ⟨cs, hcs, rfl⟩ := hs
  obtain ⟨ds, hds, rfl⟩ := ht
  refine ⟨cs ++ ds, fun c hc => ?_, List.flatten_append.symm⟩
  rcases List.mem_append.1 hc with hc | hc
  · exact hcs c hc
  · exact hds c hc

theorem isUTF8_cons (hc : c.toNat ≤ 0x7F) (hs : IsUTF8 s) : IsUTF8 (c :: s) :=
  IsUTF8.append (s := [c]) ⟨[[c]], fun d hd => by
    rw [List.mem_singleton.1 hd]
    exact Unicode.UTF8.wellFormed_one.2 hc, rfl⟩ hs

theorem isUTF8_ascii (h : ∀ c ∈ s, c.toNat ≤ 0x7F) : IsUTF8 s := by
  induction s with
  | nil => exact isUTF8_nil
  | cons c s ih => exact isUTF8_cons (h c List.mem_cons_self) (ih fun d hd => h d (List.mem_cons_of_mem c hd))

theorem escape_of_plain (h : Plain c) (hc : c ≠ 0x2F) : Output.escape c = [c] := by
  obtain ⟨hquote, hback, hcontrol⟩ := h
  have hne : ∀ d : BitVec 8, d.toNat ≤ 0x1F → c ≠ d := by
    rintro d hd rfl
    omega
  rw [Output.escape, if_neg hquote, if_neg hback, if_neg hc, if_neg (hne _ (by decide)), if_neg (hne _ (by decide)),
    if_neg (hne _ (by decide)), if_neg (hne _ (by decide)), if_neg (hne _ (by decide)), if_neg (by omega)]

theorem hex4_control (h : c.toNat ≤ 0x1F) (rest : StringRef) :
    hex4 ([0x30, 0x30, Output.hexdigit (c.toNat / 16 % 16), Output.hexdigit (c.toNat % 16)] ++ rest) =
      some (c.toNat, rest) := by
  have hdigits : ∀ x < 0x20, hexValue (Output.hexdigit (x / 16 % 16)) = some (x / 16) ∧
      hexValue (Output.hexdigit (x % 16)) = some (x % 16) := by decide
  obtain ⟨hhigh, hlow⟩ := hdigits c.toNat (by omega)
  have hzero : hexValue 0x30 = some 0 := by decide
  change ((hexValue 0x30).bind fun a => (hexValue 0x30).bind fun b =>
    (hexValue (Output.hexdigit (c.toNat / 16 % 16))).bind fun d =>
      (hexValue (Output.hexdigit (c.toNat % 16))).bind fun e =>
        some (0x1000 * a + 0x100 * b + 0x10 * d + e, rest)) = _
  rw [hzero, hhigh, hlow]
  simp only [Option.bind_some, Option.some.injEq, Prod.mk.injEq, and_true]
  omega

theorem character_escape (c : BitVec 8) (rest : StringRef) : character (Output.escape c ++ rest) = some ([c], rest) := by
  by_cases hshort : c ∈ [(0x22 : BitVec 8), 0x5C, 0x2F, 0x08, 0x0C, 0x0A, 0x0D, 0x09]
  · simp only [List.mem_cons, List.not_mem_nil, or_false] at hshort
    rcases hshort with rfl | rfl | rfl | rfl | rfl | rfl | rfl | rfl <;> rfl
  · simp only [List.mem_cons, List.not_mem_nil, or_false, not_or] at hshort
    obtain ⟨h1, h2, h3, h4, h5, h6, h7, h8⟩ := hshort
    by_cases hcontrol : c.toNat ≤ 0x1F
    · have hescape : Output.escape c = [0x5C, 0x75, 0x30, 0x30, Output.hexdigit (c.toNat / 16 % 16),
          Output.hexdigit (c.toNat % 16)] := by
        rw [Output.escape, if_neg h1, if_neg h2, if_neg h3, if_neg h4, if_neg h5, if_neg h6, if_neg h7, if_neg h8,
          if_pos hcontrol]
      rw [hescape]
      change unicodeEscape ([0x30, 0x30, Output.hexdigit (c.toNat / 16 % 16), Output.hexdigit (c.toNat % 16)] ++ rest) = _
      rw [unicodeEscape, hex4_control hcontrol]
      change (if c.toNat < 0xD800 ∨ 0xE000 ≤ c.toNat then some (encodeScalar c.toNat, rest) else _) = _
      rw [if_pos (.inl (by omega)), encodeScalar, if_pos (by omega), BitVec.ofNat_toNat, BitVec.setWidth_eq]
    · rw [escape_of_plain ⟨h1, h2, by omega⟩ h3]
      change (if c = 0x5C then _ else if c.toNat < 0x20 then none else some ([c], rest)) = _
      rw [if_neg h2, if_neg (by omega)]

theorem headD_escape (c : BitVec 8) : (Output.escape c).headD 0x22 ≠ 0x22 := by
  rw [Output.escape]
  split_ifs with h
  all_goals first
    | exact h
    | exact (by decide : (0x5C : BitVec 8) ≠ 0x22)

theorem readsString_quoted (s : StringRef) : ReadsString (s.flatMap Output.escape ++ [0x22]) s := by
  induction s with
  | nil => exact readsString_nil
  | cons c s ih =>
      rw [List.flatMap_cons, List.append_assoc]
      exact ih.cons (character_escape c) (headD_escape c)

theorem readsString_plain (h : ∀ c ∈ s, Plain c) : ReadsString (s ++ [0x22]) s := by
  induction s with
  | nil => exact readsString_nil
  | cons c s ih =>
      obtain ⟨hquote, hback, hcontrol⟩ := h c List.mem_cons_self
      refine (ih fun d hd => h d (List.mem_cons_of_mem c hd)).cons (e := [c]) (a := [c]) (fun rest => ?_)
        hquote
      change (if c = 0x5C then _ else if c.toNat < 0x20 then none else some ([c], rest)) = _
      rw [if_neg hback, if_neg (by omega)]

theorem yields_quoted (s : StringRef) : Yields value (Output.quoted s) (.string s) True :=
  yields_string (readsString_quoted s)

theorem wellFormed_ascii_or {d : List (BitVec 8)} (h : Unicode.UTF8.WellFormed d) :
    (∃ c, d = [c] ∧ c.toNat ≤ 0x7F) ∨ ∀ c ∈ d, 0x80 ≤ c.toNat := by
  have hlen := Unicode.UTF8.wellFormed_length h
  match d with
  | [] => exact absurd hlen.1 (by decide)
  | [a] => exact .inl ⟨a, rfl, Unicode.UTF8.wellFormed_one.1 h⟩
  | [a, b] =>
      obtain ⟨ha, hb⟩ := Unicode.UTF8.wellFormed_two.1 h
      simp only [Unicode.UTF8.Tail] at hb
      refine .inr fun c hc => ?_
      simp only [List.mem_cons, List.not_mem_nil, or_false] at hc
      rcases hc with rfl | rfl <;> omega
  | [a, b, e] =>
      obtain ⟨hab, he⟩ := Unicode.UTF8.wellFormed_three.1 h
      obtain ⟨ha, hb⟩ := Unicode.UTF8.tail_of_lead3 hab
      simp only [Unicode.UTF8.Tail] at hb he
      refine .inr fun c hc => ?_
      simp only [List.mem_cons, List.not_mem_nil, or_false] at hc
      rcases hc with rfl | rfl | rfl <;> omega
  | [a, b, e, f] =>
      obtain ⟨hab, he, hf⟩ := Unicode.UTF8.wellFormed_four.1 h
      obtain ⟨ha, hb⟩ := Unicode.UTF8.tail_of_lead4 hab
      simp only [Unicode.UTF8.Tail] at hb he hf
      refine .inr fun c hc => ?_
      simp only [List.mem_cons, List.not_mem_nil, or_false] at hc
      rcases hc with rfl | rfl | rfl | rfl <;> omega
  | a :: b :: e :: f :: g :: l =>
      simp only [List.length_cons] at hlen
      omega

theorem escape_ascii (h : c.toNat ≤ 0x7F) : ∀ e ∈ Output.escape c, e.toNat ≤ 0x7F := by
  have hhex : ∀ x < 16, (Output.hexdigit x).toNat ≤ 0x7F := by decide
  rw [Output.escape]
  split_ifs
  on_goal 10 =>
    intro e he
    rwa [List.mem_singleton.1 he]
  on_goal 9 =>
    intro e he
    simp only [List.mem_cons, List.not_mem_nil, or_false] at he
    rcases he with rfl | rfl | rfl | rfl | rfl | rfl
    iterate 4 exact (by decide)
    · exact hhex _ (Nat.mod_lt _ (by decide))
    · exact hhex _ (Nat.mod_lt _ (by decide))
  all_goals decide

theorem isUTF8_escape {d : List (BitVec 8)} (h : Unicode.UTF8.WellFormed d) : IsUTF8 (d.flatMap Output.escape) := by
  rcases wellFormed_ascii_or h with ⟨c, rfl, hc⟩ | hbytes
  · rw [List.flatMap_singleton]
    exact isUTF8_ascii (escape_ascii hc)
  · have hsame : d.flatMap Output.escape = d := by
      have hescape : ∀ c ∈ d, Output.escape c = [c] := fun c hc => by
        have hbyte := hbytes c hc
        refine escape_of_plain ⟨?_, ?_, by omega⟩ ?_
        all_goals
          rintro rfl
          exact absurd hbyte (by decide)
      rw [List.flatMap_congr hescape, List.flatMap_singleton']
    rw [hsame]
    exact ⟨[d], fun c hc => by rwa [List.mem_singleton.1 hc], by rw [List.flatten_singleton]⟩

theorem isUTF8_quoted (h : IsUTF8 s) : IsUTF8 (Output.quoted s) := by
  obtain ⟨cs, hcs, rfl⟩ := h
  have hbody : IsUTF8 (cs.flatten.flatMap Output.escape) := by
    induction cs with
    | nil => exact isUTF8_nil
    | cons d cs ih =>
        rw [List.flatten_cons, List.flatMap_append]
        exact (isUTF8_escape (hcs d List.mem_cons_self)).append (ih fun c hc => hcs c (List.mem_cons_of_mem d hc))
  rw [Output.quoted, List.append_assoc]
  exact isUTF8_cons (by decide) (hbody.append (isUTF8_ascii (by decide)))

end

/-! ## Numbers -/

theorem ofDigits_decimal (n : Nat) : ofDigits (decimal n) = n := Demangling.foldl_decimal n

theorem isDigit_decimal {n : Nat} {c : BitVec 8} (hc : c ∈ decimal n) : Lib.Json.isDigit c = true :=
  Demangling.isDigit_decimal hc

theorem decimal_head {n : Nat} (h : (decimal n).head? = some 0x30) : decimal n = [0x30] := by
  rcases Nat.eq_zero_or_pos n with rfl | hn
  · rfl
  · obtain ⟨c, r, hcons, -, hc⟩ := Demangling.decimal_cons hn
    rw [hcons] at h
    exact absurd (Option.some.inj h) hc

theorem yields_intText (n : Int) : Yields value (intText n) (.number n 0) True := by
  rw [intText]
  split_ifs with hneg
  · have hread := yields_negative (fun c hc => isDigit_decimal hc) (Demangling.decimal_ne_nil n.natAbs) decimal_head
    rw [ofDigits_decimal] at hread
    have habs : -(n.natAbs : Int) = n := by omega
    rwa [habs] at hread
  · have hread := yields_digits (fun c hc => isDigit_decimal hc) (Demangling.decimal_ne_nil n.natAbs) decimal_head
    rw [ofDigits_decimal] at hread
    have habs : (n.natAbs : Int) = n := by omega
    rwa [habs] at hread

/-! ## What is meant -/

section

variable (equal : Value → Value → Bool)

mutual

/-- The JSON value that is meant; in an object that is an element of an array, an empty array in front of
all other keys is not omitted. -/
def json : Bool → Value → Json
  | _, .bool b => .bool b
  | _, .int n => .number n 0
  | _, .string s => .string s
  | _, .enumScalar cases val => .string (((cases.find? fun c => val == c.constVal).map EnumCase.str).getD [])
  | _, .bitSet cases val => .array ((cases.filter (BitSetCase.isMatch val)).map fun c => .string c.str)
  | _, .array elements => .array (elementsJson elements)
  | inArray, .object fields => .object (fieldsJson inArray true fields)

def elementsJson : List Value → List Json
  | [] => []
  | val :: elements => json true val :: elementsJson elements

def fieldsJson (inArray : Bool) : Bool → List Field → List (StringRef × Json)
  | _, [] => []
  | first, field :: fields =>
    match fieldJson (!(first && inArray)) field with
    | some member => member :: fieldsJson inArray false fields
    | none => fieldsJson inArray first fields

/-- A key with its value, unless it is omitted. -/
def fieldJson (elide : Bool) : Field → Option (StringRef × Json)
  | .required key val => some (key, json false val)
  | .optional key val => if elide && val.isEmptyArray then none else some (key, json false val)
  | .present key val => some (key, json false val)
  | .absent _ _ => none
  | .defaulted key val default => if equal val default then none else some (key, json false val)

end

def WritableKey (key : StringRef) : Prop := IsUTF8 key ∧ ∀ c ∈ key, Plain c

mutual

/-- Enumerations have one of their cases, the texts are well-formed, and no key has to be escaped. -/
def Writable : Value → Prop
  | .bool _ => True
  | .int _ => True
  | .string s => IsUTF8 s
  | .enumScalar cases val => (∃ c ∈ cases, c.constVal = val) ∧ ∀ c ∈ cases, IsUTF8 c.str
  | .bitSet cases _ => ∀ c ∈ cases, IsUTF8 c.str
  | .array elements => ElementsWritable elements
  | .object fields => FieldsWritable fields

def ElementsWritable : List Value → Prop
  | [] => True
  | val :: elements => Writable val ∧ ElementsWritable elements

def FieldsWritable : List Field → Prop
  | [] => True
  | field :: fields => FieldWritable field ∧ FieldsWritable fields

def FieldWritable : Field → Prop
  | .required key val => WritableKey key ∧ Writable val
  | .optional key val => WritableKey key ∧ Writable val
  | .present key val => WritableKey key ∧ Writable val
  | .absent key _ => WritableKey key
  | .defaulted key val _ => WritableKey key ∧ Writable val

end

mutual

/-- What is written has no bit set with two cases that match, and no array of `2 ^ 32` elements. -/
def Separated : Value → Prop
  | .bool _ => True
  | .int _ => True
  | .string _ => True
  | .enumScalar _ _ => True
  | .bitSet cases val => (cases.filter (BitSetCase.isMatch val)).length ≤ 1
  | .array elements => elements.length < 2 ^ 32 ∧ ElementsSeparated elements
  | .object fields => FieldsSeparated fields

def ElementsSeparated : List Value → Prop
  | [] => True
  | val :: elements => Separated val ∧ ElementsSeparated elements

def FieldsSeparated : List Field → Prop
  | [] => True
  | field :: fields => FieldSeparated field ∧ FieldsSeparated fields

def FieldSeparated : Field → Prop
  | .required _ val => Separated val
  | .optional _ val => Separated val
  | .present _ val => Separated val
  | .absent _ _ => True
  | .defaulted _ val default => equal val default = true ∨ Separated val

end

mutual

theorem Writable.enumerated : ∀ {v : Value}, Writable v → Enumerated v
  | .bool _, _ => trivial
  | .int _, _ => trivial
  | .string _, _ => trivial
  | .enumScalar _ _, h => h.1
  | .bitSet _ _, _ => trivial
  | .array _, h => ElementsWritable.enumerated h
  | .object _, h => FieldsWritable.enumerated h

theorem ElementsWritable.enumerated : ∀ {elements : List Value}, ElementsWritable elements → ElementsEnumerated elements
  | [], _ => trivial
  | _ :: _, h => ⟨Writable.enumerated h.1, ElementsWritable.enumerated h.2⟩

theorem FieldsWritable.enumerated : ∀ {fields : List Field}, FieldsWritable fields → FieldsEnumerated fields
  | [], _ => trivial
  | _ :: _, h => ⟨FieldWritable.enumerated h.1, FieldsWritable.enumerated h.2⟩

theorem FieldWritable.enumerated : ∀ {field : Field}, FieldWritable field → FieldEnumerated field
  | .required _ _, h => Writable.enumerated h.2
  | .optional _ _, h => Writable.enumerated h.2
  | .present _ _, h => Writable.enumerated h.2
  | .absent _ _, _ => trivial
  | .defaulted _ _ _, h => Writable.enumerated h.2

end

end

/-! ## Whitespace and first characters -/

section

variable {p : Bool} {w t : StringRef}

theorem isWhitespace_newline : ∀ c ∈ newline p, isWhitespace c = true := by
  cases p <;> decide

theorem isWhitespace_blank : ∀ c ∈ blank p, isWhitespace c = true := by
  cases p <;> decide

theorem isWhitespace_margin (depth : Nat) : ∀ c ∈ margin p depth, isWhitespace c = true := by
  intro c hc
  rw [margin] at hc
  split_ifs at hc
  · rw [List.eq_of_mem_replicate hc]
    rfl
  · exact absurd hc List.not_mem_nil

theorem isWhitespace_append {w' : StringRef} (hw : ∀ c ∈ w, isWhitespace c = true)
    (hw' : ∀ c ∈ w', isWhitespace c = true) : ∀ c ∈ w ++ w', isWhitespace c = true := fun c hc =>
  (List.mem_append.1 hc).elim (hw c) (hw' c)

/-- A text that begins with a character other than whitespace and a closing bracket. -/
def Opens (t : StringRef) : Prop := ∃ c r, t = c :: r ∧ isWhitespace c = false ∧ c ≠ 0x5D

theorem Opens.ne_nil (h : Opens t) : t ≠ [] := by
  obtain ⟨c, r, rfl, -⟩ := h
  exact List.cons_ne_nil c r

theorem Opens.head? (h : Opens t) (hw : ∀ c ∈ w, isWhitespace c = true) (rest : StringRef) :
    (skipWhitespace (w ++ t ++ rest)).head? ≠ some 0x5D := by
  obtain ⟨c, r, rfl, hspace, hc⟩ := h
  rw [List.append_assoc, skipWhitespace_append hw, List.cons_append, skipWhitespace_cons hspace]
  exact fun h => hc (Option.some.inj h)

theorem opens_quoted (s : StringRef) : Opens (Output.quoted s) := ⟨0x22, _, rfl, by decide, by decide⟩

theorem opens_intText (n : Int) : Opens (intText n) := by
  rw [intText]
  split_ifs
  · exact ⟨0x2D, _, rfl, by decide, by decide⟩
  · obtain ⟨c, r, hcons⟩ := List.exists_cons_of_ne_nil (Demangling.decimal_ne_nil n.natAbs)
    have hc : Lib.Json.isDigit c = true := isDigit_decimal (n := n.natAbs) (by rw [hcons]; exact List.mem_cons_self)
    refine ⟨c, r, hcons, ?_, ?_⟩
    · by_contra hspace
      simp only [isWhitespace, Bool.not_eq_false, Bool.or_eq_true, decide_eq_true_eq] at hspace
      rcases hspace with ((rfl | rfl) | rfl) | rfl <;> exact absurd hc (by decide)
    · rintro rfl
      exact absurd hc (by decide)

theorem enumText_eq {cases : List EnumCase} {val : Nat} (h : ∃ c ∈ cases, c.constVal = val) :
    enumText cases val =
      Output.quoted (((cases.find? fun c => val == c.constVal).map EnumCase.str).getD []) := by
  obtain ⟨c, hc, hval⟩ := h
  have hsome : (cases.find? fun c => val == c.constVal).isSome := by
    rw [List.find?_isSome]
    exact ⟨c, hc, by rw [hval]; exact beq_self_eq_true val⟩
  obtain ⟨d, hd⟩ := Option.isSome_iff_exists.1 hsome
  rw [enumText, hd]
  rfl

theorem text_opens (equal : Value → Value → Bool) {v : Value} (h : Writable v) (inArray : Bool) (depth : Nat) :
    Opens (text p equal inArray depth v) := by
  cases v with
  | bool b => cases b <;> exact ⟨_, _, rfl, by decide, by decide⟩
  | int n => exact opens_intText n
  | string s => exact opens_quoted s
  | enumScalar cases val =>
      rw [text, enumText_eq h.1]
      exact opens_quoted _
  | bitSet cases val => exact ⟨0x5B, _, rfl, by decide, by decide⟩
  | array elements => exact ⟨0x5B, _, rfl, by decide, by decide⟩
  | object fields => exact ⟨0x7B, _, rfl, by decide, by decide⟩

end

/-! ## Reading the text -/

section

variable (p : Bool) (equal : Value → Value → Bool)

theorem ends_close {w : StringRef} (hw : ∀ c ∈ w, isWhitespace c = true) {c : BitVec 8}
    (hc : c = 0x5D ∨ c = 0x7D) (rest : StringRef) : Ends (w ++ [c] ++ rest) := by
  rw [List.append_assoc]
  refine ends_whitespace hw (ends_cons ?_)
  rcases hc with rfl | rfl <;> decide

theorem array_yields {w t m : StringRef} {j : Json} {js : List Json} {g g' : Prop}
    (hw : ∀ c ∈ w, isWhitespace c = true) (ht : Opens t) (hv : Yields value t j g) (hm : Yields moreElements m js g')
    (hne : m ≠ []) (hends : ∀ rest, Ends (m ++ rest)) :
    Yields value (0x5B :: (w ++ t ++ m)) (.array (j :: js)) (g ∧ g') := by
  have hwt : w ++ t ≠ [] := List.append_ne_nil_of_right_ne_nil w ht.ne_nil
  refine yields_array (yields_elements (hv.whitespace hw) hm hwt hne hends) fun rest => ?_
  rw [List.append_assoc]
  exact ht.head? hw _

theorem ends_moreElements (elements : List Value) (depth count : Nat) {w : StringRef}
    (hw : ∀ c ∈ w, isWhitespace c = true) (rest : StringRef) :
    Ends (elementsText p equal depth false count elements ++ (w ++ [0x5D]) ++ rest) := by
  cases count with
  | zero =>
      rw [elementsText, List.nil_append]
      exact ends_close hw (.inl rfl) rest
  | succ count =>
      cases elements with
      | nil => exact ends_close hw (.inl rfl) rest
      | cons val elements => exact ends_cons (by decide)

theorem ends_moreMembers (fields : List Field) (inArray : Bool) (depth : Nat) {w : StringRef}
    (hw : ∀ c ∈ w, isWhitespace c = true) (rest : StringRef) :
    Ends (fieldsText p equal inArray depth false fields ++ (w ++ [0x7D]) ++ rest) := by
  induction fields with
  | nil => exact ends_close hw (.inr rfl) rest
  | cons field fields ih =>
      rw [fieldsText]
      split
      · exact ends_cons (by decide)
      · exact ih

theorem member_yields {w key t m : StringRef} {j : Json} {ms : List (JsonText × Json)} {g g' : Prop}
    (hw : ∀ c ∈ w, isWhitespace c = true) (hkey : ∀ c ∈ key, Plain c) (hv : Yields value t j g)
    (hm : Yields moreMembers m ms g') (hne : m ≠ []) (hends : ∀ rest, Ends (m ++ rest)) :
    Yields members (w ++ ([0x22] ++ key ++ [0x22, 0x3A] ++ blank p ++ t) ++ m) ((key, j) :: ms) (g ∧ g') := by
  have htext : w ++ ([0x22] ++ key ++ [0x22, 0x3A] ++ blank p ++ t) ++ m =
      w ++ (0x22 :: (key ++ [0x22] ++ (0x3A :: (blank p ++ t ++ m)))) := by
    simp only [List.append_assoc, List.cons_append, List.nil_append]
  rw [htext]
  exact yields_members (readsString_plain hkey) (hv.whitespace isWhitespace_blank) hm hne hends hw

theorem separated_of_isEmptyArray {v : Value} (h : v.isEmptyArray = true) : Separated equal v := by
  cases v with
  | array elements =>
      cases elements with
      | nil => exact ⟨by decide, trivial⟩
      | cons v elements => exact absurd h Bool.false_ne_true
  | bool | int | string | enumScalar | bitSet | object => exact absurd h Bool.false_ne_true

theorem bitSetText_yields (cases : List BitSetCase) (val : Nat) :
    Yields value (bitSetText p cases val)
      (.array ((cases.filter (BitSetCase.isMatch val)).map fun c => .string c.str))
      ((cases.filter (BitSetCase.isMatch val)).length ≤ 1) := by
  have hblank : ∀ c ∈ blank p, isWhitespace c = true := isWhitespace_blank
  rw [bitSetText]
  rcases cases.filter (BitSetCase.isMatch val) with _ | ⟨c, _ | ⟨d, cs⟩⟩
  · have hread := yields_array_nil (isWhitespace_append hblank hblank)
    rw [List.append_assoc] at hread
    simp only [List.flatMap_nil, List.append_assoc, List.nil_append]
    exact hread.congr (iff_of_true trivial (Nat.zero_le 1))
  · have hread := array_yields hblank (opens_quoted c.str) (yields_quoted c.str) (yields_moreElements_nil hblank)
      (List.append_ne_nil_of_right_ne_nil _ (List.cons_ne_nil _ _)) (ends_close hblank (.inl rfl))
    simp only [List.flatMap_cons, List.flatMap_nil, List.append_assoc, List.nil_append] at hread ⊢
    exact hread.congr (iff_of_true ⟨trivial, trivial⟩ le_rfl)
  · have hmore : Yields moreElements
        (Output.quoted d.str ++ (cs.flatMap (fun c => Output.quoted c.str) ++ (blank p ++ [0x5D])))
        ((d :: cs).map fun c => .string c.str) False := yields_moreElements_quote
    have hread := array_yields hblank (opens_quoted c.str) (yields_quoted c.str) hmore (List.cons_ne_nil _ _)
      fun rest => ends_cons (by decide)
    simp only [List.flatMap_cons, List.append_assoc] at hread ⊢
    exact hread.congr (iff_of_false And.right (by simp))

mutual

theorem text_yields : ∀ (v : Value), Writable v → ∀ (inArray : Bool) (depth : Nat),
    Yields value (text p equal inArray depth v) (json equal inArray v) (Separated equal v)
  | .bool b, _, _, _ => by
      cases b
      · exact yields_false
      · exact yields_true
  | .int n, _, _, _ => yields_intText n
  | .string s, _, _, _ => yields_quoted s
  | .enumScalar cases val, h, _, _ => by
      rw [text, json, enumText_eq h.1]
      exact yields_quoted _
  | .bitSet cases val, _, _, _ => bitSetText_yields p cases val
  | .array [], _, _, depth => by
      have hread := yields_array_nil (isWhitespace_append (isWhitespace_newline (p := p))
        (isWhitespace_append (isWhitespace_newline (p := p)) (isWhitespace_margin (p := p) depth)))
      rw [text, json]
      simp only [elementsText, List.length_nil, Nat.zero_mod, List.append_assoc, List.nil_append] at hread ⊢
      exact hread.congr (iff_of_true trivial ⟨by decide, trivial⟩)
  | .array (val :: elements), h, _, depth => by
      have hmargin := isWhitespace_append (isWhitespace_newline (p := p)) (isWhitespace_margin (p := p) depth)
      rw [text, json, Separated]
      cases hcount : (val :: elements).length % 2 ^ 32 with
      | zero =>
          have hread := yields_array_nil (isWhitespace_append (isWhitespace_newline (p := p)) hmargin)
          simp only [elementsText, List.append_assoc, List.nil_append] at hread ⊢
          refine (hread.other fun heq => by cases heq).congr (iff_of_false id fun hsep => ?_)
          rw [Nat.mod_eq_of_lt hsep.1, List.length_cons] at hcount
          omega
      | succ count =>
          have hread := array_yields
            (isWhitespace_append (isWhitespace_newline (p := p)) (isWhitespace_margin (p := p) (depth + 1)))
            (text_opens equal h.1 true (depth + 1)) (text_yields val h.1 true (depth + 1))
            (moreElements_yields elements h.2 (depth + 1) count _ hmargin)
            (List.append_ne_nil_of_right_ne_nil _ (List.append_ne_nil_of_right_ne_nil _ (List.cons_ne_nil _ _)))
            (ends_moreElements p equal elements (depth + 1) count hmargin)
          simp only [elementsText, separator, if_true, List.append_assoc, List.nil_append] at hread ⊢
          refine hread.congr ?_
          rw [List.length_cons] at hcount ⊢
          rw [ElementsSeparated]
          have hlen : elements.length ≤ count ↔ elements.length + 1 < 2 ^ 32 := by omega
          rw [hlen]
          tauto
  | .object fields, h, inArray, depth => by
      have hmargin := isWhitespace_append (isWhitespace_newline (p := p)) (isWhitespace_margin (p := p) depth)
      have hopen := isWhitespace_append (isWhitespace_newline (p := p)) (isWhitespace_margin (p := p) (depth + 1))
      rw [text, json, Separated]
      rcases members_yields fields h inArray (depth + 1) _ hmargin with ⟨htext, hjson, hsep⟩ | ⟨⟨r, htext⟩, hmembers⟩
      · have hread := yields_object_nil (isWhitespace_append (isWhitespace_newline (p := p)) hmargin)
        rw [htext, hjson]
        simp only [List.append_assoc, List.nil_append] at hread ⊢
        exact hread.congr (iff_of_true trivial hsep)
      · have hread := yields_object hmembers fun rest => by
          rw [htext, ← List.append_assoc (newline p), List.append_assoc, List.append_assoc, skipWhitespace_append hopen,
            List.cons_append, skipWhitespace_cons (by decide)]
          exact fun h => absurd (Option.some.inj h) (by decide)
        simp only [List.append_assoc] at hread ⊢
        exact hread

theorem moreElements_yields : ∀ (elements : List Value), ElementsWritable elements →
    ∀ (depth count : Nat) (w : StringRef), (∀ c ∈ w, isWhitespace c = true) →
    Yields moreElements (elementsText p equal depth false count elements ++ (w ++ [0x5D])) (elementsJson equal elements)
      (elements.length ≤ count ∧ ElementsSeparated equal elements)
  | [], _, depth, count, w, hw => by
      have hnil : elementsText p equal depth false count [] = [] := by cases count <;> rfl
      rw [hnil, List.nil_append]
      exact (yields_moreElements_nil hw).congr (iff_of_true trivial ⟨Nat.zero_le _, trivial⟩)
  | val :: elements, _, depth, 0, w, hw => by
      rw [elementsText, List.nil_append]
      refine ((yields_moreElements_nil hw).other fun h => by cases h).congr (iff_of_false id fun h => ?_)
      exact absurd h.1 (by simp)
  | val :: elements, h, depth, count + 1, w, hw => by
      have hmargin := isWhitespace_append (isWhitespace_newline (p := p)) (isWhitespace_margin (p := p) depth)
      have hread := yields_moreElements_cons (yields_elements ((text_yields val h.1 true depth).whitespace hmargin)
        (moreElements_yields elements h.2 depth count w hw)
        (List.append_ne_nil_of_right_ne_nil _ (text_opens equal h.1 true depth).ne_nil)
        (List.append_ne_nil_of_right_ne_nil _ (List.append_ne_nil_of_right_ne_nil _ (List.cons_ne_nil _ _)))
        (ends_moreElements p equal elements depth count hw))
      simp only [elementsText, separator, Bool.false_eq_true, if_false, List.append_assoc, List.cons_append,
        List.nil_append] at hread ⊢
      refine hread.congr ?_
      rw [ElementsSeparated, List.length_cons, Nat.add_le_add_iff_right]
      tauto

theorem moreMembers_yields : ∀ (fields : List Field), FieldsWritable fields →
    ∀ (inArray : Bool) (depth : Nat) (w : StringRef), (∀ c ∈ w, isWhitespace c = true) →
    Yields moreMembers (fieldsText p equal inArray depth false fields ++ (w ++ [0x7D]))
      (fieldsJson equal inArray false fields) (FieldsSeparated equal fields)
  | [], _, inArray, depth, w, hw => by
      rw [fieldsText, List.nil_append]
      exact yields_moreMembers_nil hw
  | field :: fields, h, inArray, depth, w, hw => by
      have hrest := moreMembers_yields fields h.2 inArray depth w hw
      rw [fieldsText, fieldsJson, FieldsSeparated]
      rcases fieldText_yields field h.1 depth (!(false && inArray)) with
        ⟨htext, hjson, hsep⟩ | ⟨key, t, j, htext, hjson, hkey, hv⟩
      · rw [htext, hjson]
        exact hrest.congr (and_iff_right hsep).symm
      · rw [htext, hjson]
        have hread := yields_moreMembers_cons (member_yields p
          (isWhitespace_append (isWhitespace_newline (p := p)) (isWhitespace_margin (p := p) depth))
          hkey hv hrest
          (List.append_ne_nil_of_right_ne_nil _ (List.append_ne_nil_of_right_ne_nil _ (List.cons_ne_nil _ _)))
          (ends_moreMembers p equal fields inArray depth hw))
        simp only [separator, Bool.false_eq_true, if_false, List.append_assoc, List.cons_append,
          List.nil_append] at hread ⊢
        exact hread

theorem members_yields : ∀ (fields : List Field), FieldsWritable fields →
    ∀ (inArray : Bool) (depth : Nat) (w : StringRef), (∀ c ∈ w, isWhitespace c = true) →
    (fieldsText p equal inArray depth true fields = [] ∧ fieldsJson equal inArray true fields = [] ∧
      FieldsSeparated equal fields) ∨
      (∃ r, fieldsText p equal inArray depth true fields = margin p depth ++ (0x22 :: r)) ∧
        Yields members (newline p ++ fieldsText p equal inArray depth true fields ++ (w ++ [0x7D]))
          (fieldsJson equal inArray true fields) (FieldsSeparated equal fields)
  | [], _, inArray, depth, w, hw => .inl ⟨rfl, rfl, trivial⟩
  | field :: fields, h, inArray, depth, w, hw => by
      rw [fieldsText, fieldsJson, FieldsSeparated]
      rcases fieldText_yields field h.1 depth (!(true && inArray)) with
        ⟨htext, hjson, hsep⟩ | ⟨key, t, j, htext, hjson, hkey, hv⟩
      · rw [htext, hjson, and_iff_right hsep]
        exact members_yields fields h.2 inArray depth w hw
      · rw [htext, hjson]
        have hread := member_yields p
          (isWhitespace_append (isWhitespace_newline (p := p)) (isWhitespace_margin (p := p) depth)) hkey hv
          (moreMembers_yields fields h.2 inArray depth w hw)
          (List.append_ne_nil_of_right_ne_nil _ (List.append_ne_nil_of_right_ne_nil _ (List.cons_ne_nil _ _)))
          (ends_moreMembers p equal fields inArray depth hw)
        simp only [separator, if_true, List.append_assoc, List.cons_append, List.nil_append] at hread ⊢
        exact .inr ⟨⟨_, rfl⟩, hread⟩

theorem fieldText_yields : ∀ (field : Field), FieldWritable field → ∀ (depth : Nat) (elide : Bool),
    (fieldText p equal depth elide field = none ∧ fieldJson equal elide field = none ∧ FieldSeparated equal field) ∨
      ∃ key t j, fieldText p equal depth elide field = some ([0x22] ++ key ++ [0x22, 0x3A] ++ blank p ++ t) ∧
        fieldJson equal elide field = some (key, j) ∧ (∀ c ∈ key, Plain c) ∧
        Yields value t j (FieldSeparated equal field)
  | .required key val, h, depth, elide =>
      .inr ⟨key, _, _, rfl, rfl, h.1.2, text_yields val h.2 false depth⟩
  | .optional key val, h, depth, elide => by
      rw [fieldText, fieldJson]
      split_ifs with hempty
      · exact .inl ⟨rfl, rfl, separated_of_isEmptyArray equal ((Bool.and_eq_true _ _).mp hempty).2⟩
      · exact .inr ⟨key, _, _, rfl, rfl, h.1.2, text_yields val h.2 false depth⟩
  | .present key val, h, depth, elide =>
      .inr ⟨key, _, _, rfl, rfl, h.1.2, text_yields val h.2 false depth⟩
  | .absent key init, h, depth, elide => .inl ⟨rfl, rfl, trivial⟩
  | .defaulted key val default, h, depth, elide => by
      rw [fieldText, fieldJson]
      split_ifs with hsame
      · exact .inl ⟨rfl, rfl, .inl hsame⟩
      · exact .inr ⟨key, _, _, rfl, rfl, h.1.2,
          (text_yields val h.2 false depth).congr (or_iff_right hsame).symm⟩

end

/-! ## The text is UTF-8 -/

theorem isUTF8_newline : IsUTF8 (newline p) := isUTF8_ascii (by cases p <;> decide)

theorem isUTF8_blank : IsUTF8 (blank p) := isUTF8_ascii (by cases p <;> decide)

theorem isUTF8_margin (depth : Nat) : IsUTF8 (margin p depth) := by
  refine isUTF8_ascii fun c hc => ?_
  rw [margin] at hc
  split_ifs at hc
  · rw [List.eq_of_mem_replicate hc]
    decide
  · exact absurd hc List.not_mem_nil

theorem isUTF8_separator (first : Bool) (depth : Nat) : IsUTF8 (separator p first depth) := by
  rw [separator]
  refine IsUTF8.append ?_ (isUTF8_margin p depth)
  split_ifs
  · exact isUTF8_nil
  · exact isUTF8_cons (by decide) (isUTF8_newline p)

theorem isUTF8_intText (n : Int) : IsUTF8 (intText n) := by
  refine isUTF8_ascii fun c hc => ?_
  have hdigit : ∀ c ∈ decimal n.natAbs, c.toNat ≤ 0x7F := fun c hc => by
    have hc := isDigit_decimal hc
    simp only [Lib.Json.isDigit, Bool.and_eq_true, decide_eq_true_eq] at hc
    omega
  rw [intText] at hc
  split_ifs at hc
  · rcases List.mem_cons.1 hc with rfl | hc
    · decide
    · exact hdigit c hc
  · exact hdigit c hc

theorem isUTF8_bitSetText {cases : List BitSetCase} (h : ∀ c ∈ cases, IsUTF8 c.str) (val : Nat) :
    IsUTF8 (bitSetText p cases val) := by
  have hnames : ∀ cs : List BitSetCase, (∀ c ∈ cs, IsUTF8 c.str) →
      IsUTF8 (cs.flatMap fun c => Output.quoted c.str) := by
    intro cs
    induction cs with
    | nil => exact fun _ => isUTF8_nil
    | cons c cs ih =>
        intro hcs
        rw [List.flatMap_cons]
        exact (isUTF8_quoted (hcs c List.mem_cons_self)).append (ih fun d hd => hcs d (List.mem_cons_of_mem c hd))
  rw [bitSetText]
  refine ((IsUTF8.append (IsUTF8.append ?_ (hnames _ fun c hc => h c (List.mem_filter.1 hc).1)) ?_)).append ?_
  · exact isUTF8_cons (by decide) (isUTF8_blank p)
  · exact isUTF8_blank p
  · exact isUTF8_ascii (by decide)

theorem isUTF8_member {key t : StringRef} (hkey : WritableKey key) (ht : IsUTF8 t) :
    IsUTF8 ([0x22] ++ key ++ [0x22, 0x3A] ++ blank p ++ t) := by
  refine ((IsUTF8.append ?_ (isUTF8_ascii (by decide))).append (isUTF8_blank p)).append ht
  exact isUTF8_cons (by decide) hkey.1

mutual

theorem text_isUTF8 : ∀ (v : Value), Writable v → ∀ (inArray : Bool) (depth : Nat),
    IsUTF8 (text p equal inArray depth v)
  | .bool b, _, _, _ => isUTF8_ascii (s := boolText b) (by cases b <;> decide)
  | .int n, _, _, _ => isUTF8_intText n
  | .string s, h, _, _ => isUTF8_quoted h
  | .enumScalar cases val, h, _, _ => by
      rw [text, enumText_eq h.1]
      refine isUTF8_quoted ?_
      cases hfind : cases.find? fun c => val == c.constVal with
      | none => exact isUTF8_nil
      | some c => exact h.2 c (List.mem_of_find?_eq_some hfind)
  | .bitSet cases val, h, _, _ => isUTF8_bitSetText p h val
  | .array elements, h, _, depth => by
      rw [text]
      refine IsUTF8.append (((IsUTF8.append ?_ (elementsText_isUTF8 elements h _ _ _)).append (isUTF8_newline p)).append
        (isUTF8_margin p depth)) (isUTF8_ascii (by decide))
      exact isUTF8_cons (by decide) (isUTF8_newline p)
  | .object fields, h, inArray, depth => by
      rw [text]
      refine IsUTF8.append (((IsUTF8.append ?_ (fieldsText_isUTF8 fields h _ _ _)).append (isUTF8_newline p)).append
        (isUTF8_margin p depth)) (isUTF8_ascii (by decide))
      exact isUTF8_cons (by decide) (isUTF8_newline p)

theorem elementsText_isUTF8 : ∀ (elements : List Value), ElementsWritable elements →
    ∀ (depth : Nat) (first : Bool) (count : Nat), IsUTF8 (elementsText p equal depth first count elements)
  | [], _, _, _, count => by cases count <;> exact isUTF8_nil
  | val :: elements, _, _, _, 0 => isUTF8_nil
  | val :: elements, h, depth, first, count + 1 => by
      rw [elementsText]
      exact ((isUTF8_separator p first depth).append (text_isUTF8 val h.1 true depth)).append
        (elementsText_isUTF8 elements h.2 depth false count)

theorem fieldsText_isUTF8 : ∀ (fields : List Field), FieldsWritable fields →
    ∀ (inArray : Bool) (depth : Nat) (first : Bool), IsUTF8 (fieldsText p equal inArray depth first fields)
  | [], _, _, _, _ => isUTF8_nil
  | field :: fields, h, inArray, depth, first => by
      have hfield := fieldText_isUTF8 field h.1 depth (!(first && inArray))
      rw [fieldsText]
      cases htext : fieldText p equal depth (!(first && inArray)) field with
      | none => exact fieldsText_isUTF8 fields h.2 inArray depth first
      | some t =>
          exact ((isUTF8_separator p first depth).append (hfield t htext)).append
            (fieldsText_isUTF8 fields h.2 inArray depth false)

theorem fieldText_isUTF8 : ∀ (field : Field), FieldWritable field → ∀ (depth : Nat) (elide : Bool),
    ∀ t, fieldText p equal depth elide field = some t → IsUTF8 t
  | .required key val, h, depth, elide, t, ht => by
      rw [← Option.some.inj ht]
      exact isUTF8_member p h.1 (text_isUTF8 val h.2 false depth)
  | .optional key val, h, depth, elide, t, ht => by
      rw [fieldText] at ht
      split_ifs at ht
      rw [← Option.some.inj ht]
      exact isUTF8_member p h.1 (text_isUTF8 val h.2 false depth)
  | .present key val, h, depth, elide, t, ht => by
      rw [← Option.some.inj ht]
      exact isUTF8_member p h.1 (text_isUTF8 val h.2 false depth)
  | .absent key init, h, depth, elide, t, ht => by cases ht
  | .defaulted key val default, h, depth, elide, t, ht => by
      rw [fieldText] at ht
      split_ifs at ht
      rw [← Option.some.inj ht]
      exact isUTF8_member p h.1 (text_isUTF8 val h.2 false depth)

end

/-! ## The text is the JSON that is meant -/

/-- An output to an empty stream writes well-formed JSON in UTF-8, with the value that is meant. -/
def WritesJson (v : Value) : Prop :=
  ∃ v' out, jsonize equal v (.new p) = some (v', out) ∧ IsUTF8 out.stream ∧
    parse out.stream = some (json equal false v)

/-- The text is the JSON that is meant, if and only if in what is written no bit set has two cases that
match, and no array has `2 ^ 32` elements. -/
theorem writesJson_iff {v : Value} (h : Writable v) : WritesJson p equal v ↔ Separated equal v := by
  obtain ⟨out, hrun, hcont⟩ := jsonize_returns equal v h.enumerated (.new p)
  have hstream : out.stream = text p equal false 0 v := hcont.stream
  rw [← (text_yields p equal v h false 0).parses_iff, ← hstream]
  constructor
  · rintro ⟨v', out', hrun', -, hparse⟩
    rw [hrun] at hrun'
    obtain rfl : out = out' := (Prod.mk.inj (Option.some.inj hrun')).2
    exact hparse
  · intro hparse
    refine ⟨_, out, hrun, ?_, hparse⟩
    rw [hstream]
    exact text_isUTF8 p equal v h false 0

/-- Two flags are written with nothing in between. -/
theorem not_writesJson_flags :
    ¬ WritesJson false (fun _ _ => false) (.bitSet [⟨[0x61], 1, none⟩, ⟨[0x62], 2, none⟩] 3) := by
  rintro ⟨v', out, hrun, -, hparse⟩
  have hwritten : jsonize (fun _ _ => false) (.bitSet [⟨[0x61], 1, none⟩, ⟨[0x62], 2, none⟩] 3) (.new false) =
      some (.bitSet [⟨[0x61], 1, none⟩, ⟨[0x62], 2, none⟩] 3,
        ⟨[0x5B, 0x22, 0x61, 0x22, 0x22, 0x62, 0x22, 0x5D], [], false, false, false⟩) := rfl
  rw [hwritten] at hrun
  obtain rfl := (Prod.mk.inj (Option.some.inj hrun)).2
  have hnone : parse [0x5B, 0x22, 0x61, 0x22, 0x22, 0x62, 0x22, 0x5D] = none := rfl
  rw [hnone] at hparse
  cases hparse

/-- An object with a flag, an array and an optional that is omitted. -/
theorem writesJson_object :
    WritesJson true (fun _ _ => false) (.object [.required [0x61] (.bitSet [⟨[0x62], 1, none⟩] 1),
      .absent [0x63] (.int 0), .optional [0x64] (.array [.int (-7), .bool true])]) := by
  have hascii : ∀ c : BitVec 8, c.toNat ≤ 0x7F → IsUTF8 [c] := fun c hc => isUTF8_cons hc isUTF8_nil
  refine (writesJson_iff true _ ?_).2 ?_
  · refine ⟨⟨⟨hascii _ (by decide), by decide⟩, ?_⟩, ⟨hascii _ (by decide), by decide⟩,
      ⟨⟨hascii _ (by decide), by decide⟩, trivial, trivial, trivial⟩, trivial⟩
    intro c hc
    rw [List.mem_singleton.1 hc]
    exact hascii _ (by decide)
  · exact ⟨Nat.le_refl 1, trivial, ⟨by decide, trivial, trivial, trivial⟩, trivial⟩

end

end SwiftKStdlib.Basic.Json
