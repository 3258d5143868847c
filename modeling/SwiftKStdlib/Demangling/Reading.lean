import Mathlib.Tactic
import SwiftKStdlib.Demangling.Splitting

/-!
# How the demangler reads a split

* `demangleNatural_decimal` : a number is read back;
* `literalPart` : the body of the identifier's loop behind its substitutions;
* `identifierLoop_split` : a split is read back, with its table.
-/

namespace SwiftKStdlib.Demangling

open Lib (Prog)
open Lib.Prog (bind_run bind_congr get_run)
open Mangle Demangler

section

variable {text y : StringRef} {pos : Nat} {T : List StringRef}

/-! ## Characters -/

theorem peekChar_run (h : text.drop pos = y) :
    peekChar ⟨text, pos, T⟩ = (.ok (y.headD 0), ⟨text, pos, T⟩) := by
  have hget : text.getD pos 0 = y.getD 0 0 := getD_add h 0
  rw [peekChar, hget]
  cases y <;> rfl

theorem nextChar_run {c : BitVec 8} (h : text.drop pos = c :: y) :
    nextChar ⟨text, pos, T⟩ = (.ok c, ⟨text, pos + 1, T⟩) := by
  have hget : text.getD pos 0 = c := getD_add h 0
  have hlen := length_of_drop_eq h (by simp)
  rw [List.length_cons] at hlen
  rw [nextChar]
  simp only [hget]
  rw [if_neg (by omega)]

theorem nextIf_run (h : text.drop pos = y) (c : BitVec 8) :
    nextIf c ⟨text, pos, T⟩ =
      if y.headD 0 = c then (.ok true, ⟨text, pos + 1, T⟩) else (.ok false, ⟨text, pos, T⟩) := by
  have hget : text.getD pos 0 = y.headD 0 := (getD_add h 0).trans (by cases y <;> rfl)
  rw [nextIf]
  simp only [hget, ne_eq, ite_not]

/-! ## Numbers -/

theorem checkInt_run {x : Nat} (h : x < 2 ^ 31) (d : Demangler) : checkInt x d = (.ok x, d) := by
  rw [checkInt, int, if_pos h]
  rfl

theorem toNat_char {x : Nat} (h : x < 256) : (char x).toNat = x := by
  rw [char, BitVec.toNat_ofNat, Nat.mod_eq_of_lt h]

theorem isDigit_char {d : Nat} (h : d < 10) : isDigit (char (0x30 + d)) = true := by
  rw [isDigit, toNat_char (by omega)]
  simp
  omega

theorem naturalLoop_run {ds : List Nat} {fuel num : Nat} (hds : ∀ d ∈ ds, d < 10)
    (h : text.drop pos = (ds.map fun d => char (0x30 + d)) ++ y) (hy : isDigit (y.headD 0) = false)
    (hfuel : ds.length < fuel) (hint : ds.foldl (fun n d => 10 * n + d) num < 2 ^ 31) :
    naturalLoop fuel num ⟨text, pos, T⟩ =
      (.ok (some (ds.foldl (fun n d => 10 * n + d) num)), ⟨text, pos + ds.length, T⟩) := by
  induction ds generalizing fuel num pos with
  | nil =>
      obtain ⟨fuel, rfl⟩ := Nat.exists_eq_add_one.2 (Nat.zero_lt_of_lt hfuel)
      rw [naturalLoop, bind_run (peekChar_run h)]
      simp only [List.map_nil, List.nil_append, hy, Bool.false_eq_true, if_false]
      rfl
  | cons d ds ih =>
      obtain ⟨fuel, rfl⟩ := Nat.exists_eq_add_one.2 (Nat.zero_lt_of_lt hfuel)
      have hd := hds d List.mem_cons_self
      have hnat : (char (0x30 + d)).toNat = 0x30 + d := toNat_char (by omega)
      have hdigit := isDigit_char hd
      have hgrow : ∀ n, n ≤ ds.foldl (fun n d => 10 * n + d) n := fun n => by
        clear ih h hds hfuel hint
        induction ds generalizing n with
        | nil => exact le_rfl
        | cons d ds ih => exact le_trans (by omega) (ih (10 * n + d))
      have hint' := checkInt_run (x := 10 * num + d) ((hgrow _).trans_lt hint) ⟨text, pos, T⟩
      have hnext : text.drop (pos + 1) = (ds.map fun d => char (0x30 + d)) ++ y :=
        drop_add (x := [_]) h
      rw [naturalLoop, bind_run (peekChar_run h)]
      simp only [List.map_cons, List.cons_append, List.headD_cons, hdigit, if_true, hnat,
        Nat.add_sub_cancel_left]
      rw [bind_run hint', if_neg (by omega), bind_run (nextChar_run h), ih (fun e he => hds e (List.mem_cons_of_mem d he))
        hnext (by simpa using hfuel) hint, List.foldl_cons, List.length_cons, add_assoc, add_comm 1]

theorem decimal_cons {n : Nat} (hn : 0 < n) :
    ∃ c r, decimal n = c :: r ∧ isDigit c = true ∧ c ≠ 0x30 := by
  have hne : Nat.digits 10 n ≠ [] := Nat.digits_ne_nil_iff_ne_zero.2 hn.ne'
  have hlast := Nat.getLast_digit_ne_zero 10 hn.ne'
  have hlt := Nat.digits_lt_base (by norm_num) (List.getLast_mem hne)
  have hrev : (Nat.digits 10 n).reverse =
      (Nat.digits 10 n).getLast hne :: (Nat.digits 10 n).dropLast.reverse := by
    conv_lhs => rw [← List.dropLast_append_getLast hne, List.reverse_append]
    rfl
  refine ⟨char (0x30 + (Nat.digits 10 n).getLast hne),
    (Nat.digits 10 n).dropLast.reverse.map fun d => char (0x30 + d), ?_, isDigit_char hlt, ?_⟩
  · rw [decimal, if_neg hn.ne', hrev]
    rfl
  · intro hc
    have hnat := congrArg BitVec.toNat hc
    rw [toNat_char (by omega)] at hnat
    exact hlast (Nat.add_eq_left.1 hnat)

theorem foldl_digits (n : Nat) : (Nat.digits 10 n).reverse.foldl (fun n d => 10 * n + d) 0 = n := by
  have hdigits := Nat.ofDigits_digits 10 n
  rw [Nat.ofDigits_eq_foldr] at hdigits
  simpa only [List.foldl_reverse, Nat.cast_id, add_comm] using hdigits

theorem foldl_decimal (n : Nat) : (decimal n).foldl (fun n c => 10 * n + (c.toNat - 0x30)) 0 = n := by
  have hfold : ∀ (ds : List Nat) (acc : Nat), (∀ d ∈ ds, d < 10) →
      (ds.map fun d => char (0x30 + d)).foldl (fun n c => 10 * n + (c.toNat - 0x30)) acc =
        ds.foldl (fun n d => 10 * n + d) acc := by
    intro ds
    induction ds with
    | nil => exact fun _ _ => rfl
    | cons d ds ih =>
        intro acc hds
        have hd := hds d List.mem_cons_self
        rw [List.map_cons, List.foldl_cons, List.foldl_cons, toNat_char (by omega), Nat.add_sub_cancel_left]
        exact ih _ fun e he => hds e (List.mem_cons_of_mem d he)
  rw [decimal]
  split_ifs with hzero
  · rw [hzero]
    rfl
  · rw [hfold _ _ fun d hd => Nat.digits_lt_base (by norm_num) (List.mem_reverse.1 hd)]
    exact foldl_digits n

theorem isDigit_decimal {n : Nat} {c : BitVec 8} (hc : c ∈ decimal n) : isDigit c = true := by
  rw [decimal] at hc
  split_ifs at hc with hzero
  · rw [List.mem_singleton.1 hc]
    rfl
  · obtain ⟨d, hd, rfl⟩ := List.mem_map.1 hc
    exact isDigit_char (Nat.digits_lt_base (by norm_num) (List.mem_reverse.1 hd))

theorem demangleNatural_decimal {n : Nat} (hn : 0 < n) (hint : n < 2 ^ 31)
    (h : text.drop pos = decimal n ++ y) (hy : isDigit (y.headD 0) = false) :
    demangleNatural ⟨text, pos, T⟩ = (.ok (some n), ⟨text, pos + (decimal n).length, T⟩) := by
  obtain ⟨c, r, hcons, hc, -⟩ := decimal_cons hn
  have hdec : decimal n = (Nat.digits 10 n).reverse.map fun d => char (0x30 + d) := if_neg hn.ne'
  have hvalue := foldl_digits n
  have hlen : (Nat.digits 10 n).reverse.length = (decimal n).length := by
    rw [hdec, List.length_map]
  have hfuel := length_of_drop_eq h (by simp [hcons])
  rw [List.length_append] at hfuel
  rw [demangleNatural, bind_run (peekChar_run h), bind_run (get_run _)]
  have hhead : (decimal n ++ y).headD 0 = c := by rw [hcons]; rfl
  rw [hhead, if_pos hc, naturalLoop_run
    (fun d hd => Nat.digits_lt_base (by norm_num) (List.mem_reverse.1 hd)) (hdec ▸ h) hy
    (by change _ < text.length + 1; omega) (by rw [hvalue]; exact hint), hvalue, hlen]

/-! ## Literals -/

def literalPart (isPunycoded : Bool) (fuel : Nat) : Bool × StringRef → Prog Demangler Failure StringRef :=
  fun (hasWordSubsts, identifier) => do
    if ← nextIf 0x30 then pure identifier
    else do
      match ← demangleNatural with
      | none => Prog.throw .nullptr
      | some numChars =>
        if numChars = 0 then Prog.throw .nullptr
        else do
          if isPunycoded then do
            let _ ← nextIf 0x5F
          let identifier ← appendSlice isPunycoded numChars identifier
          if hasWordSubsts then identifierLoop isPunycoded fuel hasWordSubsts identifier
          else pure identifier

theorem identifierLoop_run {isPunycoded hasWordSubsts : Bool} {fuel : Nat} {acc : StringRef}
    (d : Demangler) :
    identifierLoop isPunycoded (fuel + 1) hasWordSubsts acc d =
      (wordSubsts (d.text.length + 1) hasWordSubsts acc >>= literalPart isPunycoded fuel) d := rfl

theorem literalPart_lit {lit acc : StringRef} {ws : List StringRef} {fuel : Nat} {hasWordSubsts : Bool}
    (hlit : lit ≠ []) (hint : lit.length < 2 ^ 31) (hdigit : isDigit (lit.headD 0) = false)
    (hws : Words lit ws) (h : text.drop pos = encodeLit lit ++ y) :
    literalPart false fuel (hasWordSubsts, acc) ⟨text, pos, T⟩ =
      (if hasWordSubsts then identifierLoop false fuel hasWordSubsts (acc ++ lit)
        else pure (acc ++ lit))
        ⟨text, pos + (encodeLit lit).length, ws.foldl addToTable T⟩ := by
  have henc : encodeLit lit = decimal lit.length ++ lit := if_neg hlit
  have hpos := List.length_pos_of_ne_nil hlit
  rw [henc, List.append_assoc] at h
  obtain ⟨c, r, hcons, -, hc⟩ := decimal_cons hpos
  have hhead : (decimal lit.length ++ (lit ++ y)).headD 0 ≠ 0x30 := by
    rw [hcons]
    exact hc
  have hy : isDigit ((lit ++ y).headD 0) = false := by
    obtain ⟨c, t, rfl⟩ := List.exists_cons_of_ne_nil hlit
    exact hdigit
  have hslice := drop_add h
  have hlen := length_of_drop_eq hslice (by simp [hlit])
  rw [List.length_append] at hlen
  have happend : appendSlice false lit.length acc
      ⟨text, pos + (decimal lit.length).length, T⟩ =
      (.ok (acc ++ lit), ⟨text, pos + (encodeLit lit).length, ws.foldl addToTable T⟩) := by
    have hsub : substr text (pos + (decimal lit.length).length) lit.length = lit := by
      rw [substr, hslice, List.take_left]
    rw [appendSlice]
    simp only [hsub, scanWords_addWord hws, henc, List.length_append, ← add_assoc]
    rw [if_neg (by omega)]
    rfl
  have hnext := nextIf_run (T := T) h 0x30
  rw [if_neg hhead] at hnext
  rw [literalPart, bind_run hnext]
  simp only [Bool.false_eq_true, if_false]
  rw [bind_run (demangleNatural_decimal hpos hint h hy)]
  simp only [hpos.ne', if_false]
  rw [bind_run happend]

/-! ## Substitutions -/

theorem not_isLetter_of_isDigit {c : BitVec 8} (h : isDigit c = true) : isLetter c = false := by
  simp only [isDigit, isLetter, isLowerLetter, isUpperLetter, Bool.and_eq_true, Bool.or_eq_false_iff,
    Bool.and_eq_false_iff, decide_eq_true_eq, decide_eq_false_iff_not] at h ⊢
  omega

theorem wordSubsts_stop {fuel : Nat} {hasWordSubsts : Bool} {acc : StringRef}
    (h : text.drop pos = y) (hy : (hasWordSubsts && isLetter (y.headD 0)) = false) :
    wordSubsts (fuel + 1) hasWordSubsts acc ⟨text, pos, T⟩ =
      (.ok (hasWordSubsts, acc), ⟨text, pos, T⟩) := by
  rw [wordSubsts, bind_run (peekChar_run h), hy]
  rfl

def substLetter (last : Bool) (idx : Nat) : BitVec 8 :=
  if last then char (idx + 0x41) else char (idx + 0x61)

theorem substLetter_spec (last : Bool) {idx : Nat} (h : idx < 26) :
    isLetter (substLetter last idx) = true ∧ isLowerLetter (substLetter last idx) = !last ∧
      (substLetter last idx).toNat = idx + if last then 0x41 else 0x61 := by
  have hnat : (substLetter last idx).toNat = idx + if last then 0x41 else 0x61 := by
    cases last <;> exact toNat_char (by omega)
  have hlower : isLowerLetter (substLetter last idx) = !last := by
    rw [isLowerLetter, hnat]
    cases last <;> simp <;> omega
  refine ⟨?_, hlower, hnat⟩
  rw [isLetter, hlower, isUpperLetter, hnat]
  cases last
  · rfl
  · simp
    omega

theorem wordSubsts_subst {fuel idx : Nat} {last : Bool} {w acc : StringRef} (hidx : T[idx]? = some w)
    (hT : T.length ≤ maxNumWords) (h : text.drop pos = substLetter last idx :: y) :
    wordSubsts (fuel + 1) true acc ⟨text, pos, T⟩ =
      wordSubsts fuel (!last) (acc ++ w) ⟨text, pos + 1, T⟩ := by
  have hlt := (List.getElem?_eq_some_iff.1 hidx).1
  obtain ⟨hletter, hlower, hnat⟩ := substLetter_spec last (hlt.trans_le hT)
  have hword : T.getD idx [] = w := by rw [List.getD_eq_getElem?_getD, hidx, Option.getD_some]
  have hvalue : (if (!last) = true then (substLetter last idx).toNat - 0x61
      else (substLetter last idx).toNat - 0x41) = idx := by
    rw [hnat]
    cases last <;> simp
  rw [wordSubsts, bind_run (peekChar_run h)]
  simp only [List.headD_cons, hletter, Bool.and_self, if_true]
  rw [bind_run (nextChar_run h)]
  simp only [hlower, hvalue]
  rw [bind_run (get_run _), if_neg (by change ¬ T.length ≤ idx; omega), hword]

/-! ## Splits -/

def encodeRest (lit : StringRef) (cs : List Chunk) : StringRef :=
  if lit = [] ∧ cs = [] then [0x30] else encodeLit lit ++ encodeChunks cs

theorem encodeChunks_cons (c : Chunk) (cs : List Chunk) :
    encodeChunks (c :: cs) = substLetter cs.isEmpty c.idx :: encodeRest c.lit cs := by
  rw [encodeChunks, encodeSubst, encodeRest, substLetter]
  cases cs with
  | nil => by_cases hlit : c.lit = [] <;> simp [hlit, encodeLit, encodeChunks]
  | cons c' cs => simp

theorem length_foldl_addToTable {ws : List StringRef} (hT : T.length ≤ maxNumWords) :
    (ws.foldl addToTable T).length ≤ maxNumWords := by
  induction ws generalizing T with
  | nil => exact hT
  | cons w ws ih =>
      refine ih ?_
      unfold addToTable
      split_ifs with hadd
      · rw [List.length_append]
        exact hadd.2
      · exact hT

theorem Words.eq_nil {ws : List StringRef} (h : Words [] ws) : ws = [] := by
  generalize hs : ([] : StringRef) = s at h
  cases h with
  | gap => rfl
  | word _ hw =>
      have := congrArg List.length hs
      have := hw.length_pos
      simp at *
      omega

theorem identifierLoop_split {ident : StringRef} {p : Nat} {T' : List StringRef}
    {new : List SubstitutionWord} {substs : List WordReplacement} {lit : StringRef} {cs : List Chunk}
    (hsplit : Split ident p T new substs lit cs T') (hdigit : isDigit (lit.headD 0) = false)
    (hint : ident.length < 2 ^ 31) (hT : T.length ≤ maxNumWords) {fuel₁ fuel₂ : Nat}
    (h : text.drop pos = encodeRest lit cs ++ y) (hfuel₁ : (encodeRest lit cs ++ y).length < fuel₁)
    (hfuel₂ : (encodeRest lit cs ++ y).length ≤ fuel₂) (acc : StringRef) :
    (wordSubsts fuel₁ (!cs.isEmpty) acc >>= literalPart false fuel₂) ⟨text, pos, T⟩ =
      (.ok (acc ++ plain lit cs), ⟨text, pos + (encodeRest lit cs).length, T'⟩) := by
  induction cs generalizing p T new substs lit pos fuel₁ fuel₂ acc with
  | nil =>
      have hlen := congrArg List.length hsplit.drop_eq
      rw [List.length_drop, plain, List.length_append] at hlen
      obtain ⟨f₁, rfl⟩ := Nat.exists_eq_add_one.2 (Nat.zero_lt_of_lt hfuel₁)
      obtain ⟨ws, new', hws, hnext⟩ := hsplit.next
      cases hnext
      rw [bind_run (wordSubsts_stop h rfl)]
      by_cases hlit : lit = []
      · subst hlit
        obtain rfl := hws.eq_nil
        rw [literalPart, bind_run (nextIf_run h 0x30)]
        simp [encodeRest, plain]
        rfl
      · have hrest : encodeRest lit [] = encodeLit lit := by
          rw [encodeRest, if_neg fun hl => hlit hl.1, encodeChunks, List.append_nil]
        rw [hrest] at h ⊢
        rw [List.isEmpty_nil, Bool.not_true, literalPart_lit hlit (by omega) hdigit hws h]
        simp [plain]
        rfl
  | cons c cs ih =>
      have hlen := congrArg List.length hsplit.drop_eq
      rw [List.length_drop, plain, List.length_append] at hlen
      have hrest : encodeRest lit (c :: cs) = encodeLit lit ++ encodeChunks (c :: cs) :=
        if_neg fun hl => List.cons_ne_nil _ _ hl.2
      rw [hrest, List.append_assoc] at h hfuel₁ hfuel₂
      rw [hrest, List.length_append, List.isEmpty_cons, Bool.not_false]
      obtain ⟨ws, new', hws, hnext⟩ := hsplit.next
      cases hnext with
      | @chunk idx w new' substs' lit' _ _ hidx hdigit' hsplit' =>
      have hT₁ : (ws.foldl addToTable T).length ≤ maxNumWords := length_foldl_addToTable hT
      -- the chunk's substitution, and the rest by induction
      have hsubst : ∀ {q f₁ f₂ : Nat} (acc : StringRef),
          text.drop q = encodeChunks (⟨idx, w, lit'⟩ :: cs) ++ y →
          (encodeChunks (⟨idx, w, lit'⟩ :: cs) ++ y).length < f₁ →
          (encodeChunks (⟨idx, w, lit'⟩ :: cs) ++ y).length ≤ f₂ →
          (wordSubsts f₁ true acc >>= literalPart false f₂) ⟨text, q, ws.foldl addToTable T⟩ =
            (.ok (acc ++ (w ++ plain lit' cs)),
              ⟨text, q + (encodeChunks (⟨idx, w, lit'⟩ :: cs)).length, T'⟩) := by
        intro q f₁ f₂ acc hq hf₁ hf₂
        obtain ⟨f₁, rfl⟩ := Nat.exists_eq_add_one.2 (Nat.zero_lt_of_lt hf₁)
        rw [encodeChunks_cons, List.cons_append] at hq hf₁ hf₂
        rw [List.length_cons] at hf₁ hf₂
        have hq' : text.drop (q + 1) = encodeRest lit' cs ++ y := drop_add (x := [_]) hq
        rw [bind_congr (wordSubsts_subst hidx hT₁ hq),
          ih hsplit' hdigit' hT₁ hq' (Nat.lt_of_succ_lt_succ hf₁) (Nat.le_of_succ_le hf₂),
          encodeChunks_cons, List.append_assoc, List.length_cons, add_assoc, add_comm 1]
      have hplain : plain lit (⟨idx, w, lit'⟩ :: cs) = lit ++ (w ++ plain lit' cs) := by
        simp [plain]
      by_cases hlit : lit = []
      · subst hlit
        obtain rfl := hws.eq_nil
        have henc : encodeLit [] = [] := rfl
        have hrun := hsubst acc h hfuel₁ hfuel₂
        rw [List.foldl_nil] at hrun
        rw [hrun, hplain, henc, List.length_nil, List.nil_append, zero_add]
      · have hpos := List.length_pos_of_ne_nil hlit
        obtain ⟨d, r, hcons, hd, -⟩ := decimal_cons hpos
        have hletter : isLetter ((encodeLit lit ++
            (encodeChunks (⟨idx, w, lit'⟩ :: cs) ++ y)).headD 0) = false := by
          rw [encodeLit, if_neg hlit, hcons]
          exact not_isLetter_of_isDigit hd
        have henc : 0 < (encodeLit lit).length := by
          rw [encodeLit, if_neg hlit, hcons]
          simp
        have hnext := drop_add h
        have htext := congrArg List.length hnext
        rw [List.length_drop] at htext
        rw [List.length_append] at hfuel₁ hfuel₂
        obtain ⟨f₁, rfl⟩ := Nat.exists_eq_add_one.2 (Nat.zero_lt_of_lt hfuel₁)
        obtain ⟨f₂, rfl⟩ := Nat.exists_eq_add_one.2 (by omega : 0 < fuel₂)
        rw [bind_run (wordSubsts_stop h (by rw [hletter]; rfl)),
          literalPart_lit hlit (by omega) hdigit hws h, if_pos rfl, identifierLoop_run,
          hsubst (acc ++ lit) hnext (by change _ < text.length + 1; omega) (by omega), hplain,
          List.append_assoc, add_assoc]

end

end SwiftKStdlib.Demangling
