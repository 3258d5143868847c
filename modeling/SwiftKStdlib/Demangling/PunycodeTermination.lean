import SwiftKStdlib.Demangling.PunycodeRoundTrip

/-!
# Termination of the Punycode encoder

* `Machine` : `encodePunycode` in the arithmetic of the machine, where an `int` wraps around;
* `h_round` : what one iteration of the outer loop encodes;
* `terminates_iff` : the inputs on which every iteration encodes something.

The inner loops and that of `adapt` end whatever the values of their variables.
-/

namespace SwiftKStdlib.Demangling.Punycode

namespace Machine

def digitValue (digit : Int32) : BitVec 8 :=
  BitVec.ofInt 8 (if digit < 26 then 0x61 + digit else 0x41 - 26 + digit).toInt

def threshold (k bias : Int32) : Int32 :=
  if k ≤ bias then 1 else if bias + 26 ≤ k then 26 else k - bias

theorem threshold_bounds (k bias : Int32) : 1 ≤ threshold k bias ∧ threshold k bias ≤ 26 := by
  unfold threshold
  split_ifs with hlow hhigh
  · decide
  · decide
  · grind

theorem toInt_div_lt {delta : Int32} (h : 455 < delta) : (delta / 35).toInt.toNat < delta.toInt.toNat := by
  have hdelta : 455 < delta.toInt := Int32.lt_iff_toInt_lt.1 h
  have hmax := delta.toInt_lt
  rw [Int32.toInt_div, show (35 : Int32).toInt = 35 from rfl, Int.tdiv_eq_ediv_of_nonneg (by omega),
    Int.bmod_eq_of_le (by omega) (by omega)]
  omega

theorem toInt_digit_lt {q t : Int32} (h : ¬ q < t) (ht : 1 ≤ t ∧ t ≤ 26) :
    ((q - t) / (36 - t)).toInt.toNat < q.toInt.toNat := by
  have hq : t.toInt ≤ q.toInt := Int.not_lt.1 (mt Int32.lt_iff_toInt_lt.2 h)
  have hlow : 1 ≤ t.toInt := Int32.le_iff_toInt_le.1 ht.1
  have hhigh : t.toInt ≤ 26 := Int32.le_iff_toInt_le.1 ht.2
  have hmax := q.toInt_lt
  have hsub : (q - t).toInt = q.toInt - t.toInt := by
    rw [Int32.toInt_sub, Int.bmod_eq_of_le (by omega) (by omega)]
  have hbase : (36 - t).toInt = 36 - t.toInt := by
    rw [Int32.toInt_sub, show (36 : Int32).toInt = 36 from rfl, Int.bmod_eq_of_le (by omega) (by omega)]
  rw [Int32.toInt_div, hsub, hbase, Int.tdiv_eq_ediv_of_nonneg (by omega)]
  have hle : (q.toInt - t.toInt) / (36 - t.toInt) ≤ q.toInt - t.toInt := Int.ediv_le_self _ (by omega)
  have hpos : 0 ≤ (q.toInt - t.toInt) / (36 - t.toInt) := Int.ediv_nonneg (by omega) (by omega)
  rw [Int.bmod_eq_of_le (by omega) (by omega)]
  omega

/-- The `while` loop of `adapt`: the bound is `((base - tmin) * tmax) / 2`. -/
def adaptLoop (delta k : Int32) : Int32 × Int32 :=
  if 455 < delta then adaptLoop (delta / 35) (k + 36) else (delta, k)
termination_by delta.toInt.toNat
decreasing_by exact toInt_div_lt ‹_›

def adapt (delta numpoints : Int32) (firsttime : Bool) : Int32 :=
  let delta := if firsttime then delta / 700 else delta / 2
  let delta := delta + delta / numpoints
  let (delta, k) := adaptLoop delta 0
  k + 36 * delta / (delta + 38)

/-- The digits of `q`, from the digit at `k` on. -/
def encodeDigits (bias k q : Int32) : StringRef :=
  let t := threshold k bias
  if q < t then [digitValue q]
  else digitValue (t + (q - t) % (36 - t)) :: encodeDigits bias (k + 36) ((q - t) / (36 - t))
termination_by q.toInt.toNat
decreasing_by exact toInt_digit_lt ‹_› (threshold_bounds k bias)

/-- The variables of `encodePunycode`. -/
structure Encoder where
  outPunycode : StringRef
  n : Nat
  delta : Int32
  bias : Int32
  h : Nat

/-- The body of the inner loop. -/
def encodeOne (b : Nat) (e : Encoder) (c : Nat) : Encoder :=
  let delta := if c < e.n then e.delta + 1 else e.delta
  if c = e.n then
    { e with
      outPunycode := e.outPunycode ++ encodeDigits e.bias 36 delta
      bias := adapt delta (.ofNat (e.h + 1)) (e.h == b)
      delta := 0
      h := e.h + 1 }
  else { e with delta := delta }

/-- The body of the outer loop. -/
def round (input : List Nat) (b : Nat) (e : Encoder) : Encoder :=
  let m := minimum e.n input
  let delta := Int32.ofInt (e.delta.toInt + uint32 (m + 2 ^ 32 - e.n) * (e.h + 1))
  let e := input.foldl (encodeOne b) { e with n := m, delta := delta }
  { e with delta := e.delta + 1, n := uint32 (e.n + 1) }

def encodeLoop (input : List Nat) (b : Nat) : Nat → Encoder → Option Encoder
  | 0, _ => none
  | fuel + 1, e => if e.h < input.length then encodeLoop input b fuel (round input b e) else some e

def initial (input : List Nat) : Encoder :=
  let b := (basicPart input).length
  ⟨if 0 < b then basicPart input ++ [delimiter] else basicPart input, initialN, 0, 72, b⟩

/-- `encodePunycode`: the result and `OutPunycode`. -/
def encodePunycode (fuel : Nat) (input : List Nat) : Option (Bool × StringRef) :=
  if input.all isValidUnicodeScalar then
    (encodeLoop input (basicPart input).length fuel (initial input)).map fun e => (true, e.outPunycode)
  else some (false, [])

def encodePunycodeUTF8 (fuel : Nat) (input : StringRef) (mapNonSymbolChars : Bool) : Option (Bool × StringRef) :=
  match convertUTF8toUTF32 mapNonSymbolChars input with
  | none => some (false, [])
  | some inputCodePoints => encodePunycode fuel inputCodePoints

/-- The states at the beginning of the iterations, and at the end. -/
inductive Reached (input : List Nat) : Encoder → Prop
  | initial (hvalid : input.all isValidUnicodeScalar = true) : Reached input (initial input)
  | round {e} (he : Reached input e) (hh : e.h < input.length) :
      Reached input (round input (basicPart input).length e)

def Progresses (input : List Nat) : Prop :=
  ∀ e, Reached input e → e.h < input.length → e.h < (round input (basicPart input).length e).h

/-! ## One iteration -/

theorem encodeOne_n (b : Nat) (e : Encoder) (c : Nat) : (encodeOne b e c).n = e.n := by
  unfold encodeOne
  split_ifs <;> rfl

theorem encodeOne_h (b : Nat) (e : Encoder) (c : Nat) :
    (encodeOne b e c).h = e.h + if c = e.n then 1 else 0 := by
  unfold encodeOne
  split_ifs <;> rfl

theorem foldl_encodeOne (b : Nat) (input : List Nat) (e : Encoder) :
    (input.foldl (encodeOne b) e).n = e.n ∧ (input.foldl (encodeOne b) e).h = e.h + input.count e.n := by
  induction input generalizing e with
  | nil => exact ⟨rfl, rfl⟩
  | cons c rest ih =>
    obtain ⟨hn, hh⟩ := ih (encodeOne b e c)
    rw [List.foldl_cons, hn, hh, encodeOne_n, encodeOne_h, List.count_cons]
    refine ⟨rfl, ?_⟩
    simp only [beq_iff_eq]
    omega

theorem n_round (input : List Nat) (b : Nat) (e : Encoder) :
    (round input b e).n = uint32 (minimum e.n input + 1) := by
  show uint32 ((input.foldl (encodeOne b) _).n + 1) = _
  rw [(foldl_encodeOne b input _).1]

theorem h_round (input : List Nat) (b : Nat) (e : Encoder) :
    (round input b e).h = e.h + input.count (minimum e.n input) :=
  (foldl_encodeOne b input _).2

theorem minimum_le (n : Nat) (input : List Nat) : minimum n input ≤ 0x10FFFF :=
  (foldl_minimum (rfl : minimum n input = _)).1

theorem n_round_eq (input : List Nat) (b : Nat) (e : Encoder) : (round input b e).n = minimum e.n input + 1 := by
  have hle := minimum_le e.n input
  rw [n_round, uint32, Nat.mod_eq_of_lt (by omega)]

theorem countP_succ {n m : Nat} {input : List Nat} (hnm : n ≤ m) (hleast : ∀ c ∈ input, n ≤ c → m ≤ c) :
    input.countP (· < m + 1) = input.countP (· < n) + input.count m := by
  induction input with
  | nil => rfl
  | cons c rest ih =>
    have hc := hleast c List.mem_cons_self
    rw [List.countP_cons, List.countP_cons, List.count_cons, ih fun c hc => hleast c (List.mem_cons_of_mem _ hc)]
    simp only [decide_eq_true_eq, beq_iff_eq]
    split_ifs <;> omega

/-- Every code point below `n` is encoded, once. -/
structure Counts (input : List Nat) (e : Encoder) : Prop where
  n_le : e.n ≤ 0x110000
  h_eq : e.h = input.countP (· < e.n)

theorem counts_initial (input : List Nat) : Counts input (initial input) where
  n_le := show initialN ≤ 0x110000 by decide
  h_eq := by
    show (basicPart input).length = input.countP (· < 0x80)
    rw [basicPart, List.length_map, List.countP_eq_length_filter]

theorem Counts.round {input : List Nat} {e : Encoder} (he : Counts input e) (b : Nat)
    (hn : e.n ≤ 0x10FFFF ∨ 0x10FFFF ∉ input) : Counts input (round input b e) := by
  have hle := minimum_le e.n input
  obtain ⟨-, hmem, hleast⟩ := foldl_minimum (rfl : minimum e.n input = _)
  refine ⟨by rw [n_round_eq]; omega, ?_⟩
  rw [h_round, n_round_eq, he.h_eq]
  by_cases hnm : e.n ≤ minimum e.n input
  · exact (countP_succ hnm hleast).symm
  · -- `n` is behind the last code point, which does not occur
    have hn_le := he.n_le
    have hlast : minimum e.n input = 0x10FFFF := by omega
    have hnot : 0x10FFFF ∉ input := by
      rcases hn with hn | hn
      · omega
      · exact hn
    rw [hlast, List.count_eq_zero_of_not_mem hnot, show e.n = 0x10FFFF + 1 by omega]
    rfl

theorem Counts.exists_le {input : List Nat} {e : Encoder} (he : Counts input e) (hh : e.h < input.length) :
    ∃ c ∈ input, e.n ≤ c := by
  by_contra hnone
  push Not at hnone
  have hall : input.countP (· < e.n) = input.length :=
    List.countP_eq_length.2 fun c hc => decide_eq_true (hnone c hc)
  rw [he.h_eq] at hh
  omega

/-! ## Termination -/

theorem Progresses.ends {input : List Nat} (h : Progresses input) {e : Encoder} (he : Reached input e) {fuel : Nat}
    (hfuel : input.length - e.h < fuel) : ∃ e', encodeLoop input (basicPart input).length fuel e = some e' := by
  induction fuel generalizing e with
  | zero => exact absurd hfuel (Nat.not_lt_zero _)
  | succ fuel ih =>
    rw [encodeLoop]
    by_cases hh : e.h < input.length
    · rw [if_pos hh]
      have hnext := h e he hh
      exact ih (.round he hh) (by omega)
    · rw [if_neg hh]
      exact ⟨e, rfl⟩

theorem terminates_of_progresses {input : List Nat} (h : Progresses input) :
    ∃ fuel result, encodePunycode fuel input = some result := by
  unfold encodePunycode
  by_cases hvalid : input.all isValidUnicodeScalar = true
  · obtain ⟨e, he⟩ := h.ends (.initial hvalid) (Nat.lt_succ_self _)
    refine ⟨(input.length - (initial input).h).succ, (true, e.outPunycode), ?_⟩
    rw [if_pos hvalid, he]
    rfl
  · exact ⟨0, (false, []), if_neg hvalid⟩

/-- Some code point lies behind `0x10FFFF`, which does not occur, and none is rejected. -/
structure Stuck (input : List Nat) : Prop where
  valid : input.all isValidUnicodeScalar = true
  large : ∃ c ∈ input, 0x10FFFF < c
  last : 0x10FFFF ∉ input

theorem Stuck.counts {input : List Nat} (h : Stuck input) {e : Encoder} (he : Reached input e) : Counts input e := by
  induction he with
  | initial => exact counts_initial input
  | round he hh ih => exact ih.round _ (.inr h.last)

theorem Stuck.h_lt {input : List Nat} (h : Stuck input) {e : Encoder} (he : Reached input e) :
    e.h < input.length := by
  obtain ⟨hn, hh⟩ := h.counts he
  obtain ⟨c, hc, hlarge⟩ := h.large
  rw [hh]
  refine lt_of_le_of_ne List.countP_le_length fun hall => ?_
  have hlt := List.countP_eq_length.1 hall c hc
  rw [decide_eq_true_eq] at hlt
  omega

theorem Stuck.never_ends {input : List Nat} (h : Stuck input) (fuel : Nat) : encodePunycode fuel input = none := by
  have hloop (fuel : Nat) (e : Encoder) (he : Reached input e) :
      encodeLoop input (basicPart input).length fuel e = none := by
    induction fuel generalizing e with
    | zero => rfl
    | succ fuel ih =>
      rw [encodeLoop, if_pos (h.h_lt he)]
      exact ih _ (.round he (h.h_lt he))
  rw [encodePunycode, if_pos h.valid, hloop fuel _ (.initial h.valid)]
  rfl

theorem count_pos_of_mem {input : List Nat} {m : Nat} (h : m ∈ input) (k : Nat) : k < k + input.count m :=
  Nat.lt_add_of_pos_right (List.count_pos_iff.2 h)

theorem progresses_of {input : List Nat}
    (h : (∃ c ∈ input, isValidUnicodeScalar c = false) ∨ (∀ c ∈ input, c ≤ 0x10FFFF) ∨ 0x10FFFF ∈ input) :
    Progresses input := by
  intro e he hh
  rw [h_round]
  apply count_pos_of_mem
  rcases h with ⟨c, hc, hinvalid⟩ | hmax | hlast
  · have hvalid : input.all isValidUnicodeScalar = true := by
      induction he with
      | initial hvalid => exact hvalid
      | round he hh' ih => exact ih hh'
    rw [List.all_eq_true.1 hvalid c hc] at hinvalid
    cases hinvalid
  · have hcounts : Counts input e := by
      clear hh
      induction he with
      | initial => exact counts_initial input
      | @round e he hh ih =>
        obtain ⟨c, hc, hn⟩ := ih.exists_le hh
        exact ih.round _ (.inl (hn.trans (hmax c hc)))
    exact (minimum_spec hmax (hcounts.exists_le hh)).2.1
  · obtain ⟨-, hmem, -⟩ := foldl_minimum (rfl : minimum e.n input = _)
    rcases hmem with hmem | hmem
    · show minimum e.n input ∈ input
      rw [show minimum e.n input = 0x10FFFF from hmem]
      exact hlast
    · exact hmem.1

def Unencodable (c : Nat) : Prop := isValidUnicodeScalar c = false ∨ 0x10FFFF < c

theorem stuck_or (input : List Nat) :
    Stuck input ∨ (∃ c ∈ input, isValidUnicodeScalar c = false) ∨ (∀ c ∈ input, c ≤ 0x10FFFF) ∨ 0x10FFFF ∈ input := by
  by_cases hvalid : ∃ c ∈ input, isValidUnicodeScalar c = false
  · exact .inr (.inl hvalid)
  by_cases hmax : ∀ c ∈ input, c ≤ 0x10FFFF
  · exact .inr (.inr (.inl hmax))
  by_cases hlast : 0x10FFFF ∈ input
  · exact .inr (.inr (.inr hlast))
  push Not at hvalid hmax
  refine .inl ⟨List.all_eq_true.2 fun c hc => ?_, hmax, hlast⟩
  exact eq_true_of_ne_false (hvalid c hc)

theorem encodePunycode_invalid {input : List Nat} (h : ∃ c ∈ input, isValidUnicodeScalar c = false) (fuel : Nat) :
    encodePunycode fuel input = some (false, []) := by
  obtain ⟨c, hc, hinvalid⟩ := h
  refine if_neg fun hall => ?_
  rw [List.all_eq_true.1 hall c hc] at hinvalid
  cases hinvalid

theorem encodePunycode_valid {input : List Nat} {fuel : Nat} {result : Bool × StringRef}
    (hvalid : input.all isValidUnicodeScalar = true) (h : encodePunycode fuel input = some result) :
    result.1 = true := by
  rw [encodePunycode, if_pos hvalid] at h
  obtain ⟨e, -, rfl⟩ := Option.map_eq_some_iff.1 h
  rfl

theorem encodePunycode_sound_iff (input : List Nat) :
    (∃ fuel result, encodePunycode fuel input = some result ∧ ((∃ c ∈ input, Unencodable c) → result.1 = false)) ↔
      (∃ c ∈ input, isValidUnicodeScalar c = false) ∨ ∀ c ∈ input, c ≤ 0x10FFFF := by
  constructor
  · rintro ⟨fuel, result, hresult, hsound⟩
    by_contra hnot
    rw [not_or] at hnot
    obtain ⟨hvalid, hlarge⟩ := hnot
    push Not at hvalid hlarge
    obtain ⟨c, hc, hlarge⟩ := hlarge
    have htrue := encodePunycode_valid
      (List.all_eq_true.2 fun c hc => eq_true_of_ne_false (hvalid c hc)) hresult
    rw [hsound ⟨c, hc, .inr hlarge⟩] at htrue
    cases htrue
  · intro h
    obtain ⟨fuel, result, hresult⟩ := terminates_of_progresses (progresses_of (h.imp_right .inl))
    refine ⟨fuel, result, hresult, fun ⟨c, hc, hbad⟩ => ?_⟩
    have hinvalid : ∃ c ∈ input, isValidUnicodeScalar c = false := by
      rcases h with h | hmax
      · exact h
      · rcases hbad with hbad | hbad
        · exact ⟨c, hc, hbad⟩
        · exact absurd (hmax c hc) (Nat.not_le.2 hbad)
    rw [encodePunycode_invalid hinvalid] at hresult
    rw [← Option.some.inj hresult]

theorem terminates_iff (input : List Nat) (bytes : StringRef) (mapNonSymbolChars : Bool) :
    ((Progresses input ∧ ∃ fuel result, encodePunycode fuel input = some result) ↔
      (∃ c ∈ input, isValidUnicodeScalar c = false) ∨ (∀ c ∈ input, c ≤ 0x10FFFF) ∨ 0x10FFFF ∈ input) ∧
    ((∃ fuel result, encodePunycodeUTF8 fuel bytes mapNonSymbolChars = some result ∧
        ((∃ codePoints, convertUTF8toUTF32 mapNonSymbolChars bytes = some codePoints ∧
          ∃ c ∈ codePoints, Unencodable c) → result.1 = false)) ↔
      ∀ codePoints, convertUTF8toUTF32 mapNonSymbolChars bytes = some codePoints →
        (∃ c ∈ codePoints, isValidUnicodeScalar c = false) ∨ ∀ c ∈ codePoints, c ≤ 0x10FFFF) := by
  constructor
  · constructor
    · rintro ⟨-, fuel, result, hresult⟩
      rcases stuck_or input with hstuck | h
      · rw [hstuck.never_ends] at hresult
        cases hresult
      · exact h
    · intro h
      have hprogress := progresses_of h
      exact ⟨hprogress, terminates_of_progresses hprogress⟩
  · unfold encodePunycodeUTF8
    cases hconvert : convertUTF8toUTF32 mapNonSymbolChars bytes with
    | none => exact iff_of_true ⟨0, (false, []), rfl, fun _ => rfl⟩ nofun
    | some codePoints =>
      simp only [Option.some.injEq, exists_eq_left', forall_eq']
      exact encodePunycode_sound_iff codePoints

/-- `U+110000` alone: no iteration encodes it, and the loop does not end. -/
theorem not_terminates_110000 :
    ¬ (Progresses [0x110000] ∧ ∃ fuel result, encodePunycode fuel [0x110000] = some result) ∧
    ¬ ∃ fuel result, encodePunycodeUTF8 fuel [0xF4, 0x90, 0x80, 0x80] true = some result := by
  have hstuck : Stuck [0x110000] := ⟨by decide, by decide, by decide⟩
  have hconvert : convertUTF8toUTF32 true [0xF4, 0x90, 0x80, 0x80] = some [0x110000] := by decide
  constructor
  · rintro ⟨-, fuel, result, hresult⟩
    rw [hstuck.never_ends] at hresult
    cases hresult
  · rintro ⟨fuel, result, hresult⟩
    rw [encodePunycodeUTF8, hconvert] at hresult
    have hnone : none = some result := (hstuck.never_ends fuel).symm.trans hresult
    cases hnone

end Machine

end SwiftKStdlib.Demangling.Punycode
