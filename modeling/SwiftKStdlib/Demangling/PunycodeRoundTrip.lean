import Mathlib.Tactic
import SwiftKStdlib.Demangling.Punycode

/-!
# Decoding what was encoded

* `decodeDigits_encodeDigits` : the digits of a number are read back, and no `int` overflows;
* `Yields` : what the decoder makes of the rest of its input;
* `Simulates` : the state of the encoder and that of the decoder when the decoder has read what the
  encoder has written;
* `encodeOne_simulates`, `encodeScan_simulates`, `encodeLoop_simulates` : it is kept;
* `decodePunycode_encodePunycode` : the round trip.
-/

namespace SwiftKStdlib.Demangling.Punycode

theorem int_eq_some {x : Nat} (h : x < 2 ^ 31) : int x = some x := if_pos h

/-! ## Digits -/

theorem digitIndex_digitValue {digit : Nat} (h : digit < 36) :
    digitIndex (digitValue digit) = some digit := by
  have hall : ∀ d ∈ List.range 36, digitIndex (digitValue d) = some d := by decide
  exact hall digit (List.mem_range.2 h)

theorem isLetter_digitValue {digit : Nat} (h : digit < 36) :
    Mangle.isLetter (digitValue digit) = true := by
  have hall : ∀ d ∈ List.range 36, Mangle.isLetter (digitValue d) = true := by decide
  exact hall digit (List.mem_range.2 h)

theorem threshold_bounds (k bias : Nat) : 1 ≤ threshold k bias ∧ threshold k bias ≤ 26 := by
  unfold threshold tmin tmax
  split_ifs <;> omega

theorem threshold_eq_tmax {k bias : Nat} (h : bias + 26 ≤ k) : threshold k bias = 26 := by
  unfold threshold tmin tmax
  split_ifs <;> omega

theorem adaptLoop_eq {fuel delta k j : Nat} (hd : delta < 456 * 35 ^ j) (hfuel : delta < fuel)
    (hk : k + 36 * j < 2 ^ 31) :
    ∃ delta' k', adaptLoop fuel delta k = some (delta', k') ∧ delta' ≤ 455 ∧ k' ≤ k + 36 * j := by
  induction fuel generalizing delta k j with
  | zero => omega
  | succ fuel ih =>
      rw [adaptLoop]
      split_ifs with h
      · have hd455 : 455 < delta := h
        obtain ⟨j, rfl⟩ : ∃ i, j = i + 1 := by
          refine Nat.exists_eq_succ_of_ne_zero fun hj => ?_
          rw [hj] at hd
          omega
        have hdiv : delta / 35 < 456 * 35 ^ j := by
          rw [Nat.div_lt_iff_lt_mul (by decide), Nat.mul_assoc, ← pow_succ]
          exact hd
        obtain ⟨delta', k', h1, h2, h3⟩ :=
          ih (k := k + 36) (j := j) hdiv (by omega) (by omega)
        refine ⟨delta', k', ?_, h2, by omega⟩
        rw [show int (k + base) = some (k + 36) from int_eq_some (by unfold base; omega)]
        exact h1
      · exact ⟨delta, k, rfl, Nat.le_of_not_lt h, by omega⟩

theorem adapt_eq {delta : Nat} (numpoints : Nat) (firsttime : Bool) (hd : delta < 2 ^ 31) :
    ∃ bias, adapt delta numpoints firsttime = some bias ∧ bias ≤ 215 := by
  obtain ⟨d, hdef, hlt⟩ : ∃ d, (if firsttime then delta / damp else delta / 2) = d ∧ d < 2 ^ 30 := by
    refine ⟨_, rfl, ?_⟩
    unfold damp
    split_ifs <;> omega
  have hdiv : d / numpoints ≤ d := Nat.div_le_self d numpoints
  obtain ⟨delta', k', h1, h2, h3⟩ :=
    adaptLoop_eq (k := 0) (j := 5) (by omega : d + d / numpoints < 456 * 35 ^ 5)
      (Nat.lt_succ_self _) (by omega)
  have hquot : 36 * delta' / (delta' + 38) ≤ 35 := by
    have : 36 * delta' / (delta' + 38) < 36 := (Nat.div_lt_iff_lt_mul (by omega)).2 (by omega)
    omega
  refine ⟨k' + 36 * delta' / (delta' + 38), ?_, by omega⟩
  simp only [adapt, hdef, int_eq_some (show d + d / numpoints < 2 ^ 31 by omega), Option.bind_eq_bind,
    Option.bind_some, h1, base, tmin, skew, int_eq_some (show (36 - 1 + 1) * delta' < 2 ^ 31 by omega)]
  exact int_eq_some (show k' + 36 * delta' / (delta' + 38) < 2 ^ 31 by omega)

theorem decodeDigits_encodeDigits {bias : Nat} (hbias : bias ≤ 215) {fuel j q w i : Nat}
    (hfuel : q < fuel) (hw : w ≤ 35 ^ j) (hw0 : 0 < w) (hi : i + q * w < 2 ^ 31) :
    ∃ digits, encodeDigits bias fuel (36 * (j + 1)) q = some digits ∧ digits ≠ [] ∧
      (∀ c ∈ digits, Mangle.isLetter c = true) ∧
      ∀ rest, decodeDigits bias (digits ++ rest) (36 * (j + 1)) w i = some (.value (i + q * w) rest) := by
  induction fuel generalizing j q w i with
  | zero => omega
  | succ fuel ih =>
      obtain ⟨ht1, ht26⟩ := threshold_bounds (36 * (j + 1)) bias
      generalize ht : threshold (36 * (j + 1)) bias = t at ht1 ht26
      rw [encodeDigits, ht]
      by_cases hq : q < t
      · refine ⟨[digitValue q], if_pos hq, by simp, ?_, fun rest => ?_⟩
        · simpa using isLetter_digitValue (by omega)
        · simp only [List.singleton_append, decodeDigits, digitIndex_digitValue (show q < 36 by omega), ht,
            int_eq_some (show q * w < 2 ^ 31 by omega), int_eq_some hi, Option.bind_eq_bind,
            Option.bind_some, if_pos hq]
      · -- the digit `t + r`, and the quotient `p`, of `q - t` by `36 - t`
        obtain ⟨r, hr⟩ : ∃ r, (q - t) % (36 - t) = r := ⟨_, rfl⟩
        obtain ⟨p, hp⟩ : ∃ p, (q - t) / (36 - t) = p := ⟨_, rfl⟩
        have hrlt : r < 36 - t := hr ▸ Nat.mod_lt _ (by omega)
        have hqeq : q = t + r + p * (36 - t) := by
          have := Nat.mod_add_div' (q - t) (36 - t)
          rw [hr, hp] at this
          omega
        have hprod : q * w = (t + r) * w + p * (w * (36 - t)) := by
          rw [hqeq]
          ring
        have hpq : p < q := by
          have : p * 1 ≤ p * (36 - t) := Nat.mul_le_mul_left p (by omega)
          omega
        have hw' : w * (36 - t) ≤ 35 ^ (j + 1) := by
          rw [pow_succ]
          exact Nat.mul_le_mul hw (by omega)
        have hwlt : w * (36 - t) < 2 ^ 31 := by
          rcases Nat.lt_or_ge 5 j with hj | hj
          · -- behind the bias a digit weighs more than its successor
            have : t = 26 := ht ▸ threshold_eq_tmax (by omega)
            subst this
            have : 26 * w ≤ q * w := Nat.mul_le_mul_right w (by omega)
            omega
          · have : 35 ^ (j + 1) ≤ 35 ^ 6 := Nat.pow_le_pow_right (by decide) (by omega)
            omega
        obtain ⟨digits, h1, h2, h3, h4⟩ := ih (j := j + 1) (q := p) (w := w * (36 - t))
          (i := i + (t + r) * w) (by omega) hw' (Nat.mul_pos hw0 (by omega)) (by omega)
        refine ⟨digitValue (t + r) :: digits, ?_, by simp, ?_, fun rest => ?_⟩
        · rw [if_neg hq]
          simp only [base, hr, hp]
          rw [show 36 * (j + 1) + 36 = 36 * (j + 1 + 1) by ring, h1]
          rfl
        · intro c hc
          rcases List.mem_cons.1 hc with rfl | hc
          · exact isLetter_digitValue (by omega)
          · exact h3 c hc
        · simp only [List.cons_append, decodeDigits, digitIndex_digitValue (show t + r < 36 by omega), ht,
            int_eq_some (show (t + r) * w < 2 ^ 31 by omega),
            int_eq_some (show i + (t + r) * w < 2 ^ 31 by omega), Option.bind_eq_bind, Option.bind_some,
            if_neg (show ¬ t + r < t by omega), base, int_eq_some hwlt]
          rw [show 36 * (j + 1) + 36 = 36 * (j + 1 + 1) by ring, h4, hprod, Nat.add_assoc]

theorem length_encodeDigits {bias fuel k q j : Nat} {digits : StringRef} (hq : q < 10 ^ j)
    (h : encodeDigits bias fuel k q = some digits) : digits.length ≤ j + 1 := by
  induction fuel generalizing k q j digits with
  | zero => cases h
  | succ fuel ih =>
      obtain ⟨ht1, ht26⟩ := threshold_bounds k bias
      rw [encodeDigits] at h
      generalize threshold k bias = t at ht1 ht26 h
      by_cases hlt : q < t
      · rw [if_pos hlt] at h
        obtain rfl := Option.some.inj h
        exact Nat.le_add_left 1 j
      · rw [if_neg hlt, Option.bind_eq_bind, Option.bind_eq_some_iff] at h
        obtain ⟨rest, hrest, h⟩ := h
        obtain rfl := Option.some.inj h
        have hdiv : (q - t) / (base - t) ≤ q / 10 :=
          (Nat.div_le_div_left (by unfold base; omega) (by decide)).trans
            (Nat.div_le_div_right (Nat.sub_le q t))
        cases j with
        | zero => omega
        | succ j =>
            have hlen := ih (j := j) (hdiv.trans_lt (by omega)) hrest
            rw [List.length_cons]
            omega

/-! ## The decoder on the rest of its input -/

/-- The variables of `decodePunycode` but the bias. -/
structure Decoder where
  n : Nat
  i : Nat
  outCodePoints : List Nat

/-- The decoder ends with `result` on the rest `input` of its input. -/
def Yields (d : Decoder) (bias : Nat) (input : StringRef) (result : List Nat) : Prop :=
  ∀ fuel, input.length < fuel → decodeLoop fuel d.n d.i bias d.outCodePoints input = some result

theorem yields_nil (d : Decoder) (bias : Nat) : Yields d bias [] d.outCodePoints := by
  intro fuel hfuel
  obtain ⟨fuel, rfl⟩ := Nat.exists_eq_succ_of_ne_zero (Nat.ne_of_gt hfuel)
  rfl

theorem Yields.step {d : Decoder} {bias bias' m p i : Nat} {digits rest : StringRef} {result : List Nat}
    (hlen : d.outCodePoints.length + 1 < 2 ^ 31) (hdigits : digits ≠ [])
    (hdecode : decodeDigits bias (digits ++ rest) base 1 d.i = some (.value i rest))
    (hadapt : adapt (i - d.i) (d.outCodePoints.length + 1) (d.i == 0) = some bias')
    (hm : d.n + i / (d.outCodePoints.length + 1) = m) (hm32 : m < 2 ^ 32) (hm80 : 0x80 ≤ m)
    (hp : i % (d.outCodePoints.length + 1) = p)
    (h : Yields ⟨m, p + 1, d.outCodePoints.insertIdx p m⟩ bias' rest result) :
    Yields d bias (digits ++ rest) result := by
  intro fuel hfuel
  obtain ⟨fuel, rfl⟩ := Nat.exists_eq_succ_of_ne_zero (Nat.ne_of_gt (Nat.zero_lt_of_lt hfuel))
  have hplt : p < d.outCodePoints.length + 1 := hp ▸ Nat.mod_lt _ (by omega)
  have hrest : rest.length < fuel := by
    have := List.length_pos_of_ne_nil hdigits
    rw [List.length_append] at hfuel
    omega
  have hne : (digits ++ rest).isEmpty = false := by
    cases digits with
    | nil => exact absurd rfl hdigits
    | cons c digits => rfl
  have hu : uint32 (d.n + i / (d.outCodePoints.length + 1)) = m := by
    rw [hm, uint32, Nat.mod_eq_of_lt hm32]
  simp only [decodeLoop, hne, Bool.false_eq_true, if_false, hdecode, Option.bind_eq_bind,
    Option.bind_some, int_eq_some hlen, hadapt, hu, if_neg (Nat.not_lt.2 hm80), hp,
    int_eq_some (show p + 1 < 2 ^ 31 by omega)]
  exact h fuel hrest

/-! ## The simulation -/

/-- The encoder has scanned `pre`, and not `suf`, for the code point `m`; the decoder, which has read
what the encoder has written, holds the code points below `m` and the `m`s of `pre`. -/
structure Simulates (b m : Nat) (pre suf : List Nat) (e : Encoder) (d : Decoder) : Prop where
  out : d.outCodePoints = pre.filter (· ≤ m) ++ suf.filter (· < m)
  h : e.h = d.outCodePoints.length
  state : d.n * (e.h + 1) + d.i + e.delta = m * (e.h + 1) + (pre.filter (· ≤ m)).length
  n : d.n ≤ m ∧ 0x80 ≤ m
  first : b ≤ e.h ∧ (d.i = 0 ↔ e.h = b)
  bias : e.bias ≤ 215
  size : e.outPunycode.length ≤ 11 * e.h + 1

namespace Simulates

variable {b m c : Nat} {pre suf : List Nat} {e : Encoder} {d : Decoder}

theorem length_le (h : Simulates b m pre suf e d) : e.h ≤ (pre ++ suf).length := by
  rw [h.h, h.out, List.length_append, List.length_append]
  exact Nat.add_le_add (List.length_filter_le _ _) (List.length_filter_le _ _)

theorem delta_eq (h : Simulates b m pre suf e d) :
    d.i + e.delta = (m - d.n) * (e.h + 1) + (pre.filter (· ≤ m)).length := by
  have hstate := h.state
  have hn : d.n * (e.h + 1) ≤ m * (e.h + 1) := Nat.mul_le_mul_right _ h.n.1
  rw [Nat.sub_mul]
  omega

theorem index_le (h : Simulates b m pre suf e d) : (pre.filter (· ≤ m)).length ≤ e.h := by
  rw [h.h, h.out, List.length_append]
  omega

theorem delta_lt (h : Simulates b m pre suf e d) (hm : m ≤ 0x10FFFF)
    (hlen : ((pre ++ suf).length + 1) * 0x110000 < 2 ^ 31) : d.i + e.delta + 1 < 2 ^ 31 := by
  have hle := h.length_le
  have hindex := h.index_le
  have hmul : (m - d.n) * (e.h + 1) ≤ 0x10FFFF * (e.h + 1) := Nat.mul_le_mul_right _ (by omega)
  rw [h.delta_eq]
  omega

end Simulates

theorem insertIdx_append (l k : List Nat) (x : Nat) :
    (l ++ k).insertIdx l.length x = l ++ x :: k := by
  induction l with
  | nil => rfl
  | cons y l ih => rw [List.cons_append, List.length_cons, List.insertIdx_succ_cons, ih, List.cons_append]

theorem encodeOne_simulates {b m c : Nat} {pre suf : List Nat} {e : Encoder} {d : Decoder}
    (h : Simulates b m pre (c :: suf) e d) (hm : m ≤ 0x10FFFF)
    (hlen : ((pre ++ c :: suf).length + 1) * 0x110000 < 2 ^ 31) :
    ∃ e' d' digits, encodeOne b m e c = some e' ∧ e'.outPunycode = e.outPunycode ++ digits ∧
      (∀ x ∈ digits, Mangle.isLetter x = true) ∧ Simulates b m (pre ++ [c]) suf e' d' ∧
      ∀ rest result, Yields d' e'.bias rest result → Yields d e.bias (digits ++ rest) result := by
  have hdelta := h.delta_lt hm hlen
  have hstate := h.state
  rcases Nat.lt_trichotomy c m with hc | rfl | hc
  · -- a code point the decoder holds already
    refine ⟨{ e with delta := e.delta + 1 }, d, [], ?_, by simp, by simp, ?_, fun _ _ h => h⟩
    · simp only [encodeOne, if_pos hc, int_eq_some (show e.delta + 1 < 2 ^ 31 by omega),
        Option.bind_eq_bind, Option.bind_some, if_neg (Nat.ne_of_lt hc)]
    · refine ⟨?_, h.h, ?_, h.n, h.first, h.bias, h.size⟩
      · rw [h.out]
        simp [List.filter_append, hc, hc.le]
      · simp [List.filter_append, hc.le]
        omega
  · -- the code point is written, and inserted
    have hindex := h.index_le
    have hle := h.length_le
    have hdeltaeq := h.delta_eq
    obtain ⟨digits, h1, hne, hletters, h2⟩ := decodeDigits_encodeDigits h.bias
      (j := 0) (q := e.delta) (w := 1) (i := d.i) (Nat.lt_succ_self _) (by simp) (by decide) (by omega)
    have hbase : 36 * (0 + 1) = base := rfl
    rw [hbase] at h1 h2
    obtain ⟨bias', hadapt, hbias'⟩ :=
      adapt_eq (e.h + 1) (e.h == b) (by omega : e.delta < 2 ^ 31)
    have hint : e.h + 1 < 2 ^ 31 := by omega
    have hi : d.i + e.delta * 1 - d.i = e.delta := by omega
    have hfirst : (d.i == 0) = (e.h == b) := by
      rw [Bool.eq_iff_iff, beq_iff_eq, beq_iff_eq]
      exact h.first.2
    have hdiv : d.n + (d.i + e.delta * 1) / (e.h + 1) = c := by
      rw [Nat.mul_one, hdeltaeq, Nat.mul_comm, Nat.mul_add_div (by omega),
        Nat.div_eq_of_lt (by omega), Nat.add_zero]
      have := h.n.1
      omega
    have hmod : (d.i + e.delta * 1) % (e.h + 1) = (pre.filter (· ≤ c)).length := by
      rw [Nat.mul_one, hdeltaeq, Nat.mul_comm, Nat.mul_add_mod, Nat.mod_eq_of_lt (by omega)]
    have hinsert : d.outCodePoints.insertIdx (pre.filter (· ≤ c)).length c =
        (pre ++ [c]).filter (· ≤ c) ++ suf.filter (· < c) := by
      rw [h.out, insertIdx_append]
      simp [List.filter_append]
    refine ⟨⟨e.outPunycode ++ digits, 0, bias', e.h + 1⟩,
      ⟨c, (pre.filter (· ≤ c)).length + 1, d.outCodePoints.insertIdx (pre.filter (· ≤ c)).length c⟩,
      digits, ?_, rfl, hletters, ?_, fun rest result hy => ?_⟩
    · simp only [encodeOne, Nat.lt_irrefl, if_false, Option.bind_eq_bind, Option.bind_some, if_true, h1,
        int_eq_some hint, hadapt]
    · refine ⟨hinsert, ?_, ?_, ⟨le_rfl, h.n.2⟩, ⟨Nat.le_succ_of_le h.first.1, ?_⟩, hbias', ?_⟩
      · show e.h + 1 = _
        rw [List.length_insertIdx_of_le_length (by rw [← h.h]; exact hindex), ← h.h]
      · simp [List.filter_append]
      · have := h.first.1
        simp
        omega
      · have hsize := h.size
        have hten : e.delta < 10 ^ 10 := by omega
        have hdigits := length_encodeDigits hten h1
        change (e.outPunycode ++ digits).length ≤ 11 * (e.h + 1) + 1
        rw [List.length_append]
        omega
    · refine hy.step (by rw [← h.h]; exact hint) hne (h2 rest) ?_ (by rw [← h.h]; exact hdiv) (by omega)
        h.n.2 (by rw [← h.h]; exact hmod)
      rw [hi, ← h.h, hfirst]
      exact hadapt
  · -- a code point of a later round
    refine ⟨e, d, [], ?_, by simp, by simp, ?_, fun _ _ h => h⟩
    · simp [encodeOne, if_neg hc.not_gt, if_neg (Nat.ne_of_gt hc)]
    · refine ⟨?_, h.h, ?_, h.n, h.first, h.bias, h.size⟩
      · rw [h.out]
        simp [List.filter_append, hc.not_gt, hc.not_ge]
      · simpa [List.filter_append, hc.not_ge] using hstate

theorem encodeScan_simulates {b m : Nat} {pre suf : List Nat} {e : Encoder} {d : Decoder}
    (h : Simulates b m pre suf e d) (hm : m ≤ 0x10FFFF)
    (hlen : ((pre ++ suf).length + 1) * 0x110000 < 2 ^ 31) :
    ∃ e' d' digits, suf.foldlM (encodeOne b m) e = some e' ∧ e'.outPunycode = e.outPunycode ++ digits ∧
      (∀ x ∈ digits, Mangle.isLetter x = true) ∧ Simulates b m (pre ++ suf) [] e' d' ∧
      ∀ rest result, Yields d' e'.bias rest result → Yields d e.bias (digits ++ rest) result := by
  induction suf generalizing pre e d with
  | nil => exact ⟨e, d, [], rfl, by simp, by simp, by simpa using h, fun _ _ h => h⟩
  | cons c suf ih =>
      obtain ⟨e₁, d₁, digits₁, h1, hout1, hletters1, hs1, hy1⟩ := encodeOne_simulates h hm hlen
      have happend : pre ++ c :: suf = pre ++ [c] ++ suf := by simp
      rw [happend] at hlen ⊢
      obtain ⟨e₂, d₂, digits₂, h2, hout2, hletters2, hs2, hy2⟩ := ih hs1 hlen
      refine ⟨e₂, d₂, digits₁ ++ digits₂, ?_, ?_, ?_, hs2, fun rest result hy => ?_⟩
      · rw [List.foldlM_cons, h1]
        exact h2
      · rw [hout2, hout1, List.append_assoc]
      · intro x hx
        exact (List.mem_append.1 hx).elim (hletters1 x) (hletters2 x)
      · rw [List.append_assoc]
        exact hy1 _ _ (hy2 _ _ hy)

theorem Simulates.next {b m : Nat} {input : List Nat} {e : Encoder} {d : Decoder}
    (h : Simulates b m input [] e d) :
    Simulates b (m + 1) [] input { e with delta := e.delta + 1 } d := by
  have hout : d.outCodePoints = input.filter (· ≤ m) := by simpa using h.out
  refine ⟨?_, h.h, ?_, ⟨Nat.le_succ_of_le h.n.1, Nat.le_succ_of_le h.n.2⟩, h.first, h.bias,
    h.size⟩
  · simp [hout]
  · have hstate := h.state
    rw [← hout, ← h.h] at hstate
    simp
    linarith

theorem Simulates.skip {b n m : Nat} {input : List Nat} {e : Encoder} {d : Decoder}
    (h : Simulates b n [] input e d) (hnm : n ≤ m) (hskip : ∀ c ∈ input, n ≤ c → m ≤ c) :
    Simulates b m [] input { e with delta := e.delta + (m - n) * (e.h + 1) } d := by
  refine ⟨?_, h.h, ?_, ⟨h.n.1.trans hnm, h.n.2.trans hnm⟩, h.first, h.bias, h.size⟩
  · have hout := h.out
    simp only [List.filter_nil, List.nil_append] at hout ⊢
    rw [hout]
    refine List.filter_congr fun c hc => ?_
    have := hskip c hc
    simp
    omega
  · have hstate := h.state
    have hmul : (m - n) * (e.h + 1) = m * (e.h + 1) - n * (e.h + 1) := Nat.sub_mul _ _ _
    have hle : n * (e.h + 1) ≤ m * (e.h + 1) := Nat.mul_le_mul_right _ hnm
    simp at hstate ⊢
    omega

theorem foldl_minimum {n m : Nat} {input : List Nat} {r : Nat}
    (hr : input.foldl (fun m codePoint => if n ≤ codePoint ∧ codePoint < m then codePoint else m) m = r) :
    r ≤ m ∧ (r = m ∨ r ∈ input ∧ n ≤ r) ∧ ∀ c ∈ input, n ≤ c → r ≤ c := by
  induction input generalizing m with
  | nil => exact ⟨by rw [← hr]; rfl, .inl hr.symm, by simp⟩
  | cons x input ih =>
      rw [List.foldl_cons] at hr
      obtain ⟨h1, h2, h3⟩ := ih hr
      split_ifs at h1 h2 with hx
      · refine ⟨by omega, .inr ?_, fun c hc hn => ?_⟩
        · exact h2.elim (fun h => ⟨by simp [h], by omega⟩) fun h => ⟨List.mem_cons_of_mem x h.1, h.2⟩
        · rcases List.mem_cons.1 hc with rfl | hc
          · exact h1
          · exact h3 c hc hn
      · refine ⟨h1, h2.imp_right fun h => ⟨List.mem_cons_of_mem x h.1, h.2⟩, fun c hc hn => ?_⟩
        rcases List.mem_cons.1 hc with rfl | hc
        · omega
        · exact h3 c hc hn

theorem minimum_spec {n : Nat} {input : List Nat} (hmax : ∀ c ∈ input, c ≤ 0x10FFFF)
    (hex : ∃ c ∈ input, n ≤ c) :
    n ≤ minimum n input ∧ minimum n input ∈ input ∧ ∀ c ∈ input, n ≤ c → minimum n input ≤ c := by
  obtain ⟨-, h2, h3⟩ := foldl_minimum (rfl : minimum n input = _)
  obtain ⟨c, hc, hnc⟩ := hex
  have hmin : minimum n input ∈ input ∧ n ≤ minimum n input := by
    rcases h2 with h | h
    · -- every code point left is the maximum
      have := h3 c hc hnc
      have := hmax c hc
      obtain rfl : c = minimum n input := by omega
      exact ⟨hc, hnc⟩
    · exact h
  exact ⟨hmin.2, hmin.1, h3⟩

theorem encodeLoop_simulates {b n : Nat} {input : List Nat} {e : Encoder} {d : Decoder} {fuel : Nat}
    (h : Simulates b n [] input e d) (hmax : ∀ c ∈ input, c ≤ 0x10FFFF)
    (hlen : (input.length + 1) * 0x110000 < 2 ^ 31) (hfuel : input.length < e.h + fuel) :
    ∃ e' digits, encodeLoop input b fuel n e = some e' ∧ e'.outPunycode = e.outPunycode ++ digits ∧
      (∀ x ∈ digits, Mangle.isLetter x = true) ∧ Yields d e.bias digits input ∧
      e'.outPunycode.length ≤ 11 * input.length + 1 := by
  induction fuel generalizing n e d with
  | zero =>
      have := h.length_le
      rw [List.nil_append] at this
      omega
  | succ fuel ih =>
      have hout : d.outCodePoints = input.filter (· < n) := by simpa using h.out
      have hcount := h.h
      rw [hout] at hcount
      rw [encodeLoop]
      split_ifs with hlt
      · have hex : ∃ c ∈ input, n ≤ c := by
          rw [hcount, List.length_filter_lt_length_iff_exists] at hlt
          simpa using hlt
        obtain ⟨hnm, hmem, hleast⟩ := minimum_spec hmax hex
        generalize minimum n input = m at hnm hmem hleast
        have hm := hmax m hmem
        have hskip := h.skip hnm hleast
        have hdelta := hskip.delta_lt hm (by simpa using hlen)
        obtain ⟨e₁, d₁, digits₁, h1, hout1, hletters1, hs1, hy1⟩ :=
          encodeScan_simulates hskip hm (by simpa using hlen)
        rw [List.nil_append] at hs1
        have hdelta1 := hs1.delta_lt hm (by simpa using hlen)
        have hprogress : e.h < e₁.h := by
          have hle : input.filter (· < n) = (input.filter (· ≤ m)).filter (· < n) := by
            rw [List.filter_filter]
            refine List.filter_congr fun c hc => ?_
            simp
            omega
          rw [hs1.h, hs1.out, hcount, List.filter_nil, List.append_nil, hle,
            List.length_filter_lt_length_iff_exists]
          exact ⟨m, by simp [hmem], by simpa using hnm⟩
        obtain ⟨e₂, digits₂, h2, hout2, hletters2, hy2, hsize⟩ := ih hs1.next (by simp; omega)
        refine ⟨e₂, digits₁ ++ digits₂, ?_, by rw [hout2, hout1, List.append_assoc], ?_, hy1 _ _ hy2,
          hsize⟩
        · have hu : uint32 (m + 2 ^ 32 - n) = m - n := by
            rw [uint32]
            omega
          have hu1 : uint32 (m + 1) = m + 1 := Nat.mod_eq_of_lt (by omega)
          simp only [hu, hu1, int_eq_some (show e.delta + (m - n) * (e.h + 1) < 2 ^ 31 by
            simp only at hdelta; omega), int_eq_some (show e₁.delta + 1 < 2 ^ 31 by omega), h1, h2,
            Option.bind_eq_bind, Option.bind_some]
        · intro x hx
          exact (List.mem_append.1 hx).elim (hletters1 x) (hletters2 x)
      · have hall : input.filter (· < n) = input := by
          have := List.length_filter_le (· < n) input
          exact List.filter_eq_self.2 (List.length_filter_eq_length_iff.1 (by omega))
        refine ⟨e, [], rfl, by simp, by simp, ?_, ?_⟩
        · have := yields_nil d e.bias
          rwa [hout, hall] at this
        · have hle := h.length_le
          rw [List.nil_append] at hle
          exact h.size.trans (by omega)

/-! ## The round trip -/

theorem toNat_char {c : Nat} (h : c < 0x80) : (char c).toNat = c := by
  rw [char, BitVec.toNat_ofNat, Nat.mod_eq_of_lt (by omega)]

theorem basicPart_toNat (input : List Nat) :
    (basicPart input).map (·.toNat) = input.filter (· < 0x80) := by
  rw [basicPart, List.map_map]
  refine (List.map_congr_left fun c hc => ?_).trans (List.map_id _)
  exact toNat_char (by simpa using (List.mem_filter.1 hc).2)

theorem encodePunycode_eq {input : List Nat} (hvalid : ∀ c ∈ input, isValidUnicodeScalar c = true)
    (hmax : ∀ c ∈ input, c ≤ 0x10FFFF) (hlen : (input.length + 1) * 0x110000 < 2 ^ 31) :
    ∃ digits, encodePunycode input = some (true,
        (if 0 < (basicPart input).length then basicPart input ++ [delimiter] else basicPart input) ++ digits) ∧
      (∀ x ∈ digits, Mangle.isLetter x = true) ∧
      Yields ⟨initialN, 0, (basicPart input).map (·.toNat)⟩ initialBias digits input ∧
      ((if 0 < (basicPart input).length then basicPart input ++ [delimiter] else basicPart input) ++
        digits).length ≤ 11 * input.length + 1 := by
  have hb : (basicPart input).length = (input.filter (· < 0x80)).length := by
    rw [basicPart, List.length_map]
  generalize hout :
    (if 0 < (basicPart input).length then basicPart input ++ [delimiter] else basicPart input) = out
  have hstart : Simulates (basicPart input).length initialN [] input
      ⟨out, 0, initialBias, (basicPart input).length⟩
      ⟨initialN, 0, (basicPart input).map (·.toNat)⟩ := by
    rw [basicPart_toNat]
    refine ⟨rfl, hb, by simp, ⟨le_rfl, by decide⟩, ⟨le_rfl, by simp⟩,
      (by decide : initialBias ≤ 215), ?_⟩
    change out.length ≤ 11 * (basicPart input).length + 1
    rw [← hout]
    split_ifs
    · rw [List.length_append, List.length_singleton]
      omega
    · omega
  have hfuel : input.length < (basicPart input).length + (input.length + 1) := by omega
  obtain ⟨e', digits, h1, h2, h3, h4, h5⟩ := encodeLoop_simulates hstart hmax hlen hfuel
  refine ⟨digits, ?_, h3, h4, by rw [← h2]; exact h5⟩
  rw [encodePunycode, if_pos (List.all_eq_true.2 hvalid)]
  simp only [hout, h1, h2, Option.bind_eq_bind, Option.bind_some]

theorem length_encodePunycode {input : List Nat} {out : StringRef}
    (hvalid : ∀ c ∈ input, isValidUnicodeScalar c = true) (hmax : ∀ c ∈ input, c ≤ 0x10FFFF)
    (hlen : (input.length + 1) * 0x110000 < 2 ^ 31) (h : encodePunycode input = some (true, out)) :
    out.length ≤ 11 * input.length + 1 := by
  obtain ⟨digits, hencode, -, -, hsize⟩ := encodePunycode_eq hvalid hmax hlen
  rw [hencode] at h
  obtain rfl := (Prod.mk.inj (Option.some.inj h)).2
  exact hsize

theorem takeWhile_delimiter {digits : StringRef} (h : ∀ x ∈ digits, Mangle.isLetter x = true)
    (rest : StringRef) :
    (digits.reverse ++ rest).takeWhile (· != delimiter) =
        digits.reverse ++ rest.takeWhile (· != delimiter) ∧
      (digits.reverse ++ rest).dropWhile (· != delimiter) = rest.dropWhile (· != delimiter) := by
  have hne : ∀ x ∈ digits.reverse, (x != delimiter) = true := by
    intro x hx
    have hletter := h x (List.mem_reverse.1 hx)
    rw [bne_iff_ne]
    rintro rfl
    exact absurd hletter (by decide)
  exact ⟨List.takeWhile_append_of_pos hne, List.dropWhile_append_of_pos hne⟩

theorem decodePunycode_encodePunycode (input : List Nat)
    (hvalid : ∀ c ∈ input, isValidUnicodeScalar c = true) (hmax : ∀ c ∈ input, c ≤ 0x10FFFF)
    (hlen : (input.length + 1) * 0x110000 < 2 ^ 31) :
    ∃ out, encodePunycode input = some (true, out) ∧ decodePunycode out = some (true, input) := by
  obtain ⟨digits, hencode, hletters, hyields, -⟩ := encodePunycode_eq hvalid hmax hlen
  refine ⟨_, hencode, ?_⟩
  have hbasic : (basicPart input).any (fun c => decide (0x7F < c.toNat)) = false := by
    rw [List.any_eq_false]
    intro c hc
    obtain ⟨s, hs, rfl⟩ := List.mem_map.1 hc
    have : s < 0x80 := by simpa using (List.mem_filter.1 hs).2
    rw [toNat_char this]
    simpa using Nat.le_of_lt_succ this
  have hsplit : ∀ out : StringRef,
      out.reverse.takeWhile (· != delimiter) = digits.reverse →
      ((out.reverse.dropWhile (· != delimiter)).drop 1).reverse = basicPart input →
      decodePunycode out = some (true, input) := by
    intro out htake hdrop
    simp only [decodePunycode, htake, hdrop, hbasic, Bool.false_eq_true, if_false, List.reverse_reverse,
      hyields _ (Nat.lt_succ_self _), Option.bind_eq_bind, Option.bind_some]
  split_ifs with hb
  · refine hsplit _ ?_ ?_
    · rw [List.reverse_append, (takeWhile_delimiter hletters _).1]
      simp
    · rw [List.reverse_append, (takeWhile_delimiter hletters _).2]
      simp
  · have hnil : basicPart input = [] := by
      rw [← List.length_eq_zero_iff]
      omega
    rw [hnil] at hsplit ⊢
    have h := takeWhile_delimiter hletters []
    rw [List.append_nil] at h
    exact hsplit _ (by simpa using h.1) (by simp [h.2])

end SwiftKStdlib.Demangling.Punycode
