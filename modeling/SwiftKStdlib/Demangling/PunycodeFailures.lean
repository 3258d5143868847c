import SwiftKStdlib.Demangling.PunycodeTermination

/-!
# Failures of the Punycode decoder

* `decodePunycode` : the decoder in the arithmetic of the machine, where an `int` wraps around;
* `DecodingFails` : the strings on which decoding fails, `CompletelyDecoded` : on which it goes to the end;
* `decodeLoop_exit`, `fails_exit` : they are told apart by the `return` statement that the decoder comes to;
* `reportsFailures_iff` : the strings on which its result says which of the two it was.
-/

namespace SwiftKStdlib.Demangling.Punycode.Machine

/-- An `int` as a `size_t`. -/
def sizeT (i : Int32) : Nat := (i.toInt % 2 ^ 64).toNat

/-- `adapt`; `none` where it divides by zero. -/
def adaptOrTrap (delta numpoints : Int32) (firsttime : Bool) : Option Int32 :=
  let half := if firsttime then delta / 700 else delta / 2
  if numpoints = 0 ∨ (adaptLoop (half + half / numpoints) 0).1 + 38 = 0 then none
  else some (adapt delta numpoints firsttime)

/-- The `return` statements of `decodePunycode`. -/
inductive Exit where
  | nonBasic | noCodePoint | noDigit | basic | done
  deriving DecidableEq, Repr

/-- The value that is returned. -/
def Exit.result : Exit → Bool
  | .nonBasic => true
  | .noCodePoint => true
  | .noDigit => true
  | .basic => true
  | .done => true

inductive Digits where
  | value (i : Int32) (input : StringRef)
  | exit (e : Exit)

/-- The loop over the digits of one code point, from the digit at `k` on. -/
def decodeDigits (bias : Int32) : StringRef → Int32 → Int32 → Int32 → Digits
  | [], _, _, _ => .exit .noCodePoint
  | codePoint :: input, k, w, i =>
    match digitIndex codePoint with
    | none => .exit .noDigit
    | some digit =>
      let t := threshold k bias
      if Int32.ofNat digit < t then .value (i + .ofNat digit * w) input
      else decodeDigits bias input (k + 36) (w * (36 - t)) (i + .ofNat digit * w)

/-- The variables of `decodePunycode`. -/
structure Decoder where
  n : Nat
  i : Int32
  bias : Int32
  outCodePoints : List Nat

/-- The variables after the integer `i` was read, before `n` is inserted. -/
def Decoder.advance (d : Decoder) (i : Int32) : Option Decoder :=
  let numpoints := d.outCodePoints.length + 1
  (adaptOrTrap (i - d.i) (.ofNat numpoints) (d.i == 0)).map fun bias =>
    { d with n := uint32 (d.n + sizeT i / numpoints), i := .ofNat (sizeT i % numpoints), bias := bias }

/-- `n` is inserted at position `i`. -/
def Decoder.insert (d : Decoder) : Decoder :=
  { d with outCodePoints := d.outCodePoints.insertIdx (sizeT d.i) d.n, i := d.i + 1 }

theorem length_decodeDigits {bias k w i v : Int32} {input rest : StringRef}
    (h : decodeDigits bias input k w i = .value v rest) : rest.length < input.length := by
  induction input generalizing k w i with
  | nil => exact Digits.noConfusion h
  | cons c input ih =>
      rw [decodeDigits] at h
      cases hc : digitIndex c with
      | none =>
          rw [hc] at h
          exact Digits.noConfusion h
      | some digit =>
          simp only [hc] at h
          split_ifs at h
          · obtain ⟨-, rfl⟩ := Digits.value.inj h
            exact Nat.lt_succ_self _
          · exact (ih h).trans (Nat.lt_succ_self _)

/-- The `while` loop of `decodePunycode`: the exit and `OutCodePoints`. -/
def decodeLoop (d : Decoder) (input : StringRef) : Option (Exit × List Nat) :=
  if input.isEmpty then some (.done, d.outCodePoints)
  else
    match h : decodeDigits d.bias input 36 1 d.i with
    | .exit e => some (e, d.outCodePoints)
    | .value i rest =>
      match d.advance i with
      | none => none
      | some d' => if d'.n < 0x80 then some (.basic, d.outCodePoints) else decodeLoop d'.insert rest
termination_by input.length
decreasing_by exact length_decodeDigits h

def beforeDelimiter (input : StringRef) : StringRef := ((input.reverse.dropWhile (· != delimiter)).drop 1).reverse

def afterDelimiter (input : StringRef) : StringRef := (input.reverse.takeWhile (· != delimiter)).reverse

def decoder (input : StringRef) : Decoder := ⟨initialN, 0, 72, (beforeDelimiter input).map (·.toNat)⟩

/-- The exit of `decodePunycode` and `OutCodePoints`. -/
def decodeExit (input : StringRef) : Option (Exit × List Nat) :=
  if (beforeDelimiter input).any (0x7F < ·.toNat) then
    some (.nonBasic, ((beforeDelimiter input).takeWhile (·.toNat ≤ 0x7F)).map (·.toNat))
  else decodeLoop (decoder input) (afterDelimiter input)

/-- `decodePunycode`: the result and `OutCodePoints`. -/
def decodePunycode (input : StringRef) : Option (Bool × List Nat) :=
  (decodeExit input).map fun run => (run.1.result, run.2)

def decodePunycodeUTF8 (input : StringRef) : Option (Bool × StringRef) :=
  (decodePunycode input).map fun (ok, outCodePoints) => if ok then encodeToUTF8 outCodePoints else (false, [])

/-! ## Decoding by its grammar -/

/-- Digits of an integer of which none is the last one. -/
inductive Unfinished (bias : Int32) : StringRef → Int32 → Prop
  | nil {k : Int32} : Unfinished bias [] k
  | cons {c : BitVec 8} {digits : StringRef} {digit : Nat} {k : Int32} (hc : digitIndex c = some digit)
      (ht : ¬ Int32.ofNat digit < threshold k bias) (h : Unfinished bias digits (k + 36)) :
      Unfinished bias (c :: digits) k

/-- The digits of an integer that takes `i` to `v`. -/
inductive Spells (bias : Int32) : StringRef → Int32 → Int32 → Int32 → Int32 → Prop
  | last {c : BitVec 8} {digit : Nat} {k w i : Int32} (hc : digitIndex c = some digit)
      (ht : Int32.ofNat digit < threshold k bias) : Spells bias [c] k w i (i + .ofNat digit * w)
  | cons {c : BitVec 8} {digits : StringRef} {digit : Nat} {k w i v : Int32} (hc : digitIndex c = some digit)
      (ht : ¬ Int32.ofNat digit < threshold k bias)
      (h : Spells bias digits (k + 36) (w * (36 - threshold k bias)) (i + .ofNat digit * w) v) :
      Spells bias (c :: digits) k w i v

/-- Decoding what is left of the input fails. -/
inductive Fails : Decoder → StringRef → Prop
  /-- There is no code point to consume. -/
  | noCodePoint {d : Decoder} {digits : StringRef} (hne : digits ≠ []) (h : Unfinished d.bias digits 36) :
      Fails d digits
  /-- The code point has no digit value. -/
  | noDigit {d : Decoder} {digits rest : StringRef} {c : BitVec 8} (h : Unfinished d.bias digits 36)
      (hc : digitIndex c = none) : Fails d (digits ++ c :: rest)
  /-- `n` is a basic code point. -/
  | basic {d d' : Decoder} {digits rest : StringRef} {i : Int32} (h : Spells d.bias digits 36 1 d.i i)
      (hd : d.advance i = some d') (hn : d'.n < 0x80) : Fails d (digits ++ rest)
  | later {d d' : Decoder} {digits rest : StringRef} {i : Int32} (h : Spells d.bias digits 36 1 d.i i)
      (hd : d.advance i = some d') (hn : ¬ d'.n < 0x80) (hrest : Fails d'.insert rest) : Fails d (digits ++ rest)

/-- What is left of the input is decoded to the end. -/
inductive Decodes : Decoder → StringRef → List Nat → Prop
  | done {d : Decoder} : Decodes d [] d.outCodePoints
  | step {d d' : Decoder} {digits rest : StringRef} {i : Int32} {out : List Nat}
      (h : Spells d.bias digits 36 1 d.i i) (hd : d.advance i = some d') (hn : ¬ d'.n < 0x80)
      (hrest : Decodes d'.insert rest out) : Decodes d (digits ++ rest) out

def DecodingFails (input : StringRef) : Prop :=
  (∃ c ∈ beforeDelimiter input, 0x7F < c.toNat) ∨
    (∀ c ∈ beforeDelimiter input, c.toNat ≤ 0x7F) ∧ Fails (decoder input) (afterDelimiter input)

def CompletelyDecoded (input : StringRef) : Prop :=
  (∀ c ∈ beforeDelimiter input, c.toNat ≤ 0x7F) ∧ ∃ out, Decodes (decoder input) (afterDelimiter input) out

/-! ## The loops follow the grammar -/

theorem Spells.ne_nil {bias k w i v : Int32} {digits : StringRef} (h : Spells bias digits k w i v) :
    digits ≠ [] := by
  cases h <;> exact List.cons_ne_nil _ _

theorem Spells.decodeDigits {bias k w i v : Int32} {digits : StringRef} (h : Spells bias digits k w i v)
    (rest : StringRef) : Machine.decodeDigits bias (digits ++ rest) k w i = .value v rest := by
  induction h with
  | last hc ht =>
      rw [List.singleton_append, Machine.decodeDigits, hc]
      exact if_pos ht
  | cons hc ht _ ih =>
      rw [List.cons_append, Machine.decodeDigits, hc]
      exact (if_neg ht).trans ih

theorem decodeDigits_cases (bias : Int32) (input : StringRef) (k w i : Int32) :
    (decodeDigits bias input k w i = .exit .noCodePoint ∧ Unfinished bias input k) ∨
    (decodeDigits bias input k w i = .exit .noDigit ∧
      ∃ digits c rest, input = digits ++ c :: rest ∧ Unfinished bias digits k ∧ digitIndex c = none) ∨
    ∃ v digits rest, decodeDigits bias input k w i = .value v rest ∧ input = digits ++ rest ∧
      Spells bias digits k w i v := by
  induction input generalizing k w i with
  | nil => exact .inl ⟨rfl, .nil⟩
  | cons c input ih =>
      cases hc : digitIndex c with
      | none =>
          refine .inr (.inl ⟨?_, [], c, input, rfl, .nil, hc⟩)
          rw [decodeDigits, hc]
      | some digit =>
          by_cases ht : Int32.ofNat digit < threshold k bias
          · exact .inr (.inr ⟨_, [c], input, (Spells.last hc ht).decodeDigits input, rfl, .last hc ht⟩)
          have hstep : decodeDigits bias (c :: input) k w i =
              decodeDigits bias input (k + 36) (w * (36 - threshold k bias)) (i + .ofNat digit * w) := by
            rw [decodeDigits, hc]
            exact if_neg ht
          rw [hstep]
          obtain ⟨hexit, h⟩ | ⟨hexit, digits, e, rest, rfl, h, he⟩ | ⟨v, digits, rest, hvalue, rfl, h⟩ :=
            ih (k + 36) (w * (36 - threshold k bias)) (i + .ofNat digit * w)
          · exact .inl ⟨hexit, .cons hc ht h⟩
          · exact .inr (.inl ⟨hexit, c :: digits, e, rest, rfl, .cons hc ht h, he⟩)
          · exact .inr (.inr ⟨v, c :: digits, rest, hvalue, rfl, .cons hc ht h⟩)

theorem decodeLoop_nil (d : Decoder) : decodeLoop d [] = some (.done, d.outCodePoints) := by
  rw [decodeLoop]
  rfl

theorem decodeLoop_exitDigits {d : Decoder} {input : StringRef} {e : Exit} (hne : input ≠ [])
    (h : decodeDigits d.bias input 36 1 d.i = .exit e) : decodeLoop d input = some (e, d.outCodePoints) := by
  rw [decodeLoop, if_neg (mt List.isEmpty_iff.1 hne)]
  split
  · next e' h' => rw [Digits.exit.inj (h.symm.trans h')]
  · next i rest h' => exact Digits.noConfusion (h.symm.trans h')

theorem decodeLoop_value {d : Decoder} {input rest : StringRef} {i : Int32} (hne : input ≠ [])
    (h : decodeDigits d.bias input 36 1 d.i = .value i rest) :
    decodeLoop d input =
      match d.advance i with
      | none => none
      | some d' => if d'.n < 0x80 then some (.basic, d.outCodePoints) else decodeLoop d'.insert rest := by
  rw [decodeLoop, if_neg (mt List.isEmpty_iff.1 hne)]
  split
  · next e' h' => exact Digits.noConfusion (h'.symm.trans h)
  · next i' rest' h' =>
    obtain ⟨rfl, rfl⟩ := Digits.value.inj (h'.symm.trans h)
    rfl

theorem Spells.decodeLoop {d d' : Decoder} {digits : StringRef} {i : Int32} (h : Spells d.bias digits 36 1 d.i i)
    (hd : d.advance i = some d') (rest : StringRef) :
    Machine.decodeLoop d (digits ++ rest) =
      if d'.n < 0x80 then some (.basic, d.outCodePoints) else Machine.decodeLoop d'.insert rest := by
  rw [decodeLoop_value (List.append_ne_nil_of_left_ne_nil h.ne_nil rest) (h.decodeDigits rest), hd]

theorem decodeLoop_exit {d : Decoder} {input : StringRef} {e : Exit} {out : List Nat}
    (h : decodeLoop d input = some (e, out)) : e = .done ∧ Decodes d input out ∨ e ≠ .done ∧ Fails d input := by
  induction hlen : input.length using Nat.strong_induction_on generalizing d input with
  | h n ih =>
      subst hlen
      by_cases hne : input = []
      · subst hne
        obtain ⟨rfl, rfl⟩ := Prod.mk.inj (Option.some.inj ((decodeLoop_nil d).symm.trans h))
        exact .inl ⟨rfl, .done⟩
      obtain ⟨hexit, hdigits⟩ | ⟨hexit, digits, c, rest, rfl, hdigits, hc⟩ | ⟨i, digits, rest, hvalue, rfl, hspells⟩ :=
        decodeDigits_cases d.bias input 36 1 d.i
      · rw [decodeLoop_exitDigits hne hexit] at h
        obtain ⟨rfl, -⟩ := Prod.mk.inj (Option.some.inj h)
        exact .inr ⟨Exit.noConfusion, .noCodePoint hne hdigits⟩
      · rw [decodeLoop_exitDigits hne hexit] at h
        obtain ⟨rfl, -⟩ := Prod.mk.inj (Option.some.inj h)
        exact .inr ⟨Exit.noConfusion, .noDigit hdigits hc⟩
      cases hd : d.advance i with
      | none =>
          rw [decodeLoop_value hne hvalue, hd] at h
          exact Option.noConfusion rfl (heq_of_eq h)
      | some d' =>
          rw [hspells.decodeLoop hd] at h
          split_ifs at h with hn
          · obtain ⟨rfl, -⟩ := Prod.mk.inj (Option.some.inj h)
            exact .inr ⟨Exit.noConfusion, .basic hspells hd hn⟩
          · obtain ⟨rfl, hrest⟩ | ⟨he, hrest⟩ := ih rest.length (length_decodeDigits hvalue) h rfl
            · exact .inl ⟨rfl, .step hspells hd hn hrest⟩
            · exact .inr ⟨he, .later hspells hd hn hrest⟩

theorem decodeExit_basic {input : StringRef} (h : ∀ c ∈ beforeDelimiter input, c.toNat ≤ 0x7F) :
    decodeExit input = decodeLoop (decoder input) (afterDelimiter input) :=
  if_neg (by simpa using h)

theorem completelyDecoded_of_exit {input : StringRef} {e : Exit} {out : List Nat}
    (h : decodeExit input = some (e, out)) (hfails : ¬ DecodingFails input) : CompletelyDecoded input := by
  have hbasic : ∀ c ∈ beforeDelimiter input, c.toNat ≤ 0x7F := fun c hc =>
    Nat.le_of_not_lt fun hlt => hfails (.inl ⟨c, hc, hlt⟩)
  rw [decodeExit_basic hbasic] at h
  obtain ⟨-, hdecodes⟩ | ⟨-, hfail⟩ := decodeLoop_exit h
  · exact ⟨hbasic, out, hdecodes⟩
  · exact absurd (.inr ⟨hbasic, hfail⟩) hfails

/-! ## The results -/

/-- `decodePunycode` returns false if decoding failed, `decodePunycodeUTF8` returns true only after it did not. -/
def ReportsFailures (input : StringRef) : Prop :=
  (DecodingFails input → ∃ out, decodePunycode input = some (false, out)) ∧
    ∀ text, decodePunycodeUTF8 input = some (true, text) → CompletelyDecoded input

theorem Exit.result_eq_true (e : Exit) : e.result = true := by
  cases e <;> rfl

theorem decodePunycode_ne_false (input : StringRef) (out : List Nat) : decodePunycode input ≠ some (false, out) := by
  intro h
  obtain ⟨⟨e, out'⟩, -, hout⟩ := Option.map_eq_some_iff.1 h
  exact Bool.noConfusion (e.result_eq_true.symm.trans (Prod.mk.inj hout).1)

theorem reportsFailures_iff (input : StringRef) : ReportsFailures input ↔ ¬ DecodingFails input := by
  refine ⟨fun h hfails => ?_, fun hfails => ⟨fun h => absurd h hfails, fun text htext => ?_⟩⟩
  · obtain ⟨out, hout⟩ := h.1 hfails
    exact decodePunycode_ne_false input out hout
  · obtain ⟨_, hdecode, -⟩ := Option.map_eq_some_iff.1 htext
    obtain ⟨⟨e, out⟩, hexit, -⟩ := Option.map_eq_some_iff.1 hdecode
    exact completelyDecoded_of_exit hexit hfails

/-- The character `9` is no digit. -/
theorem not_reportsFailures_9 : ¬ ReportsFailures [0x39] := by
  intro h
  obtain ⟨out, hout⟩ := h.1 (.inr ⟨by decide, .noDigit (c := 0x39) .nil (by decide)⟩)
  exact decodePunycode_ne_false _ out hout

end SwiftKStdlib.Demangling.Punycode.Machine
