import Mathlib.Tactic
import SwiftKStdlib.Demangling.MangleIdentifier

/-!
# The words of an identifier

* `IsWord`, `EndsWord` : what `scanWords` reports;
* `Words s ws` : the words of `s`, in order;
* `exists_word` : a string has a first word, or none;
* `scanFrom_word`, `scanFrom_end` : the scan goes from word to word;
* `scanWords_addWord` : the table that the words of a slice leave.
-/

namespace SwiftKStdlib.Demangling

open Mangle

/-- No character of `g` begins a word. -/
def Gap (g : StringRef) : Prop := ∀ c ∈ g, isWordStart c = false

/-- A word begins at its first character and does not end before its last one. -/
structure IsWord (w : StringRef) : Prop where
  start : ∃ c t, w = c :: t ∧ isWordStart c = true
  inside : w.IsChain fun prev ch => isWordEnd ch prev = false

/-- The word `w` ends where `r` follows. -/
def EndsWord (w r : StringRef) : Prop := ∀ x, w.getLast? = some x → isWordEnd (r.headD 0) x = true

/-- `ws` are the words of `s`. -/
inductive Words : StringRef → List StringRef → Prop where
  | gap {g} : Gap g → Words g []
  | word {g w r ws} : Gap g → IsWord w → EndsWord w r → Words r ws → Words (g ++ w ++ r) (w :: ws)

theorem IsWord.length_pos {w : StringRef} (h : IsWord w) : 0 < w.length := by
  obtain ⟨c, t, rfl, -⟩ := h.start
  simp

theorem exists_isChain (c : BitVec 8) (s : StringRef) :
    ∃ t r, s = t ++ r ∧ (c :: t).IsChain (fun prev ch => isWordEnd ch prev = false) ∧
      EndsWord (c :: t) r := by
  induction s generalizing c with
  | nil => exact ⟨[], [], rfl, .singleton c, fun x _ => by simp [isWordEnd]⟩
  | cons d s ih =>
      cases hd : isWordEnd d c with
      | true =>
          refine ⟨[], d :: s, rfl, .singleton c, fun x hx => ?_⟩
          obtain rfl : c = x := by simpa using hx
          exact hd
      | false =>
          obtain ⟨t, r, rfl, hchain, hend⟩ := ih d
          refine ⟨d :: t, r, rfl, .cons_cons hd hchain, fun x hx => hend x ?_⟩
          simpa using hx

theorem exists_word (s : StringRef) :
    Gap s ∨ ∃ g w r, s = g ++ w ++ r ∧ Gap g ∧ IsWord w ∧ EndsWord w r := by
  induction s with
  | nil => exact .inl (by simp [Gap])
  | cons c s ih =>
      cases hc : isWordStart c with
      | true =>
          obtain ⟨t, r, rfl, hchain, hend⟩ := exists_isChain c s
          exact .inr ⟨[], c :: t, r, rfl, by simp [Gap], ⟨⟨c, t, rfl, hc⟩, hchain⟩, hend⟩
      | false =>
          rcases ih with hgap | ⟨g, w, r, rfl, hgap, hw, hend⟩
          · exact .inl (List.forall_mem_cons.2 ⟨hc, hgap⟩)
          · exact .inr ⟨c :: g, w, r, rfl, List.forall_mem_cons.2 ⟨hc, hgap⟩, hw, hend⟩

theorem isWordEnd_zero (x : BitVec 8) : isWordEnd 0 x = true := by simp [isWordEnd]

theorem EndsWord.not_isDigit {w r : StringRef} (hw : IsWord w) (h : EndsWord w r) :
    isDigit (r.headD 0) = false := by
  obtain ⟨c, t, rfl, -⟩ := hw.start
  have hend := h _ (List.getLast?_eq_some_getLast (by simp))
  have hall : ∀ ch : BitVec 8, isDigit ch = true → ch ≠ 0x5F ∧ ch ≠ 0 ∧ isUpperLetter ch = false := by
    decide
  generalize r.headD 0 = ch at hend ⊢
  cases hd : isDigit ch with
  | false => rfl
  | true =>
      obtain ⟨h1, h2, h3⟩ := hall _ hd
      simp only [isWordEnd, beq_iff_eq, Bool.or_eq_true, h1, h2, or_self, h3, Bool.and_false,
        if_false, Bool.false_eq_true] at hend

/-! ## The scan -/

section Scan

variable {σ : Type} {s : StringRef} {report : σ → Nat → Nat → σ} {st : σ} {p : Nat}

/-- The scan from position `p` on. -/
def scanFrom (s : StringRef) (report : σ → Nat → Nat → σ) (p : Nat) (x : Option Nat × σ) :
    Option Nat × σ :=
  (List.range' p (s.length + 1 - p)).foldl (scanStep s report) x

theorem scanWords_eq : scanWords s report st = (scanFrom s report 0 (none, st)).2 := by
  rw [scanWords, scanFrom, List.range_eq_range', Nat.sub_zero]

theorem scanFrom_step (hp : p ≤ s.length) (x : Option Nat × σ) :
    scanFrom s report p x = scanFrom s report (p + 1) (scanStep s report x p) := by
  rw [scanFrom, scanFrom, Nat.succ_sub hp, List.range'_succ, List.foldl_cons, Nat.succ_sub_succ]

theorem getD_add {y : StringRef} (hs : s.drop p = y) (i : Nat) : s.getD (p + i) 0 = y.getD i 0 := by
  rw [← hs, List.getD_eq_getElem?_getD, List.getD_eq_getElem?_getD, List.getElem?_drop]

theorem drop_add {x y : StringRef} (hs : s.drop p = x ++ y) : s.drop (p + x.length) = y := by
  rw [← List.drop_drop, hs, List.drop_left]

theorem length_of_drop_eq {y : StringRef} (hs : s.drop p = y) (hy : y ≠ []) :
    p + y.length = s.length := by
  have hlen := congrArg List.length hs
  have hpos := List.length_pos_of_ne_nil hy
  rw [List.length_drop] at hlen
  omega

theorem scanStep_none {c : BitVec 8} (hc : s.getD p 0 = c) :
    scanStep s report (none, st) p = if isWordStart c then (some p, st) else (none, st) := by
  simp only [scanStep, hc, Option.isNone_none, Bool.true_and]

theorem scanStep_some {ch prev : BitVec 8} {start : Nat} (hch : s.getD p 0 = ch)
    (hprev : s.getD (p - 1) 0 = prev) :
    scanStep s report (some start, st) p =
      if isWordEnd ch prev then scanStep s report (none, report st start p) p
      else (some start, st) := by
  simp only [scanStep, hch, hprev]
  cases isWordEnd ch prev <;> simp

theorem scanFrom_gap {g r : StringRef} (hs : s.drop p = g ++ r) (hg : Gap g) :
    scanFrom s report p (none, st) = scanFrom s report (p + g.length) (none, st) := by
  induction g generalizing p with
  | nil => rfl
  | cons c g ih =>
      have hlen := length_of_drop_eq hs (by simp)
      have hc : s.getD p 0 = c := getD_add hs 0
      have hnext : s.drop (p + 1) = g ++ r := drop_add (x := [c]) hs
      have hstep : scanStep s report (none, st) p = (none, st) := by
        rw [scanStep_none hc, hg c List.mem_cons_self]
        rfl
      rw [scanFrom_step (by omega), hstep, ih hnext fun d hd => hg d (List.mem_cons_of_mem c hd),
        List.length_cons]
      congr 1
      omega

theorem scanFrom_inside {c : BitVec 8} {t r : StringRef} {start : Nat} (hs : s.drop p = c :: t ++ r)
    (ht : (c :: t).IsChain fun prev ch => isWordEnd ch prev = false) :
    scanFrom s report (p + 1) (some start, st) =
      scanFrom s report (p + 1 + t.length) (some start, st) := by
  induction t generalizing p c with
  | nil => rfl
  | cons d t ih =>
      have hlen := length_of_drop_eq hs (by simp)
      have hc : s.getD (p + 1 - 1) 0 = c := getD_add hs 0
      have hd : s.getD (p + 1) 0 = d := getD_add hs 1
      have hnext : s.drop (p + 1) = d :: t ++ r := drop_add (x := [c]) hs
      have hchain := List.isChain_cons_cons.1 ht
      have hstep : scanStep s report (some start, st) (p + 1) = (some start, st) := by
        rw [scanStep_some hd hc, hchain.1]
        rfl
      rw [List.length_append, List.length_cons] at hlen
      rw [scanFrom_step (by omega), hstep, ih hnext hchain.2, List.length_cons]
      congr 1
      omega

theorem scanFrom_word {g w r : StringRef} (hs : s.drop p = g ++ w ++ r) (hg : Gap g) (hw : IsWord w)
    (hr : EndsWord w r) :
    scanFrom s report p (none, st) = scanFrom s report (p + g.length + w.length)
      (none, report st (p + g.length) (p + g.length + w.length)) := by
  rw [List.append_assoc] at hs
  rw [scanFrom_gap hs hg]
  have hs' := drop_add hs
  generalize p + g.length = q at hs' ⊢
  have hlen := length_of_drop_eq hs' (by simp [List.length_pos_iff.1 hw.length_pos])
  rw [List.length_append] at hlen
  have hpos := hw.length_pos
  have hlast : s.getD (q + w.length) 0 = r.headD 0 := by
    rw [← add_zero (q + w.length), getD_add (drop_add hs') 0]
    cases r <;> rfl
  have hprev : w.getLast? = some (s.getD (q + w.length - 1) 0) := by
    rw [show q + w.length - 1 = q + (w.length - 1) by omega, getD_add hs',
      List.getD_eq_getElem?_getD, List.getElem?_append_left (by omega), List.getLast?_eq_getElem?,
      List.getElem?_eq_getElem (by omega)]
    rfl
  have hend := hr _ hprev
  obtain ⟨c, t, rfl, hc⟩ := hw.start
  have hstart : scanStep s report (none, st) q = (some q, st) := by
    have hget : s.getD q 0 = c := getD_add hs' 0
    rw [scanStep_none hget, if_pos hc]
  rw [scanFrom_step (by omega), hstart, scanFrom_inside hs' hw.inside,
    show q + 1 + t.length = q + (c :: t).length by simp only [List.length_cons]; omega,
    scanFrom_step (by omega), scanStep_some hlast rfl, if_pos hend, ← scanFrom_step (by omega)]

theorem scanFrom_end (hg : Gap (s.drop p)) : (scanFrom s report p (none, st)).2 = st := by
  have hs : s.drop p = s.drop p ++ [] := (List.append_nil _).symm
  rw [scanFrom_gap hs hg, List.length_drop]
  by_cases hp : p ≤ s.length
  · have hz : s.getD s.length 0 = 0 := by
      rw [List.getD_eq_getElem?_getD, List.getElem?_eq_none le_rfl]
      rfl
    rw [Nat.add_sub_cancel' hp, scanFrom_step le_rfl, scanStep_none hz, scanFrom, Nat.sub_self]
    rfl
  · rw [scanFrom, show s.length + 1 - (p + (s.length - p)) = 0 by omega]
    rfl

end Scan

/-! ## The table of words -/

def addToTable (T : List StringRef) (w : StringRef) : List StringRef :=
  if 2 ≤ w.length ∧ T.length < maxNumWords then T ++ [w] else T

theorem scanWords_addWord {slice : StringRef} {ws T : List StringRef} (h : Words slice ws) :
    scanWords slice (Demangler.addWord slice) T = ws.foldl addToTable T := by
  suffices ∀ r ws, Words r ws → ∀ p T, slice.drop p = r →
      (scanFrom slice (Demangler.addWord slice) p (none, T)).2 = ws.foldl addToTable T by
    rw [scanWords_eq]
    exact this _ _ h 0 T rfl
  intro r ws hws
  induction hws with
  | gap hg =>
      intro p T hp
      exact scanFrom_end (hp ▸ hg)
  | @word g w r ws hg hw hend hrest ih =>
      intro p T hp
      have hr := drop_add hp
      rw [List.length_append, ← add_assoc] at hr
      rw [scanFrom_word hp hg hw hend, ih _ _ hr, List.foldl_cons]
      congr 1
      have hsub : substr slice (p + g.length) w.length = w := by
        rw [List.append_assoc] at hp
        rw [substr, drop_add hp, List.take_left]
      rw [Demangler.addWord, addToTable, Nat.add_sub_cancel_left, hsub]

end SwiftKStdlib.Demangling
