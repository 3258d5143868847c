import Mathlib.Tactic
import SwiftKStdlib.Demangling.Reading

/-!
# Numbers that wrap around

* `Wrapping.demangleNatural`, `Wrapping.demangleIndex` : the demangler's numbers, with an `int` that
  wraps around;
* `demangleNatural_wraps` : where no `int` overflows, they are the ones of the identifiers;
* `Lowered` : a digit makes the accumulator smaller, which is how the source looks for an overflow;
* `naturalLoop_spec` : what the loop returns, digit by digit;
* `readsNumbers_iff` : the digit strings that are read as the number they denote, or not at all.
-/

namespace SwiftKStdlib.Demangling

open Lib (Prog)
open Lib.Prog (bind_run bind_congr get_run)
open Mangle Demangler

/-- The value of type `int` that an arithmetic operation leaves. -/
def wrapInt (x : Int) : Int := Int.bmod x (2 ^ 32)

/-- `c - '0'`. -/
def digitValue (c : BitVec 8) : Nat := c.toNat - 0x30

namespace Wrapping

/-- The `while` loop of `demangleNatural`. -/
def naturalLoop : Nat → Int → Prog Demangler Failure Int
  | 0, _ => Prog.throw .fuel
  | fuel + 1, num => do
    let c ← peekChar
    if isDigit c then do
      let newNum := wrapInt (10 * num + digitValue c)
      if newNum < num then pure (-1000)
      else do
        let _ ← nextChar
        naturalLoop fuel newNum
    else pure num

def demangleNatural : Prog Demangler Failure Int := do
  let c ← peekChar
  let d ← Prog.get
  if isDigit c then naturalLoop (d.text.length + 1) 0 else pure (-1000)

def demangleIndex : Prog Demangler Failure Int := do
  if ← nextIf 0x5F then pure 0
  else do
    let num ← demangleNatural
    if 0 ≤ num then do
      if ← nextIf 0x5F then pure (wrapInt (num + 1)) else pure (-1000)
    else pure (-1000)

end Wrapping

/-! ## The arithmetic -/

section

variable {x n : Int}

theorem wrapInt_of_fits (h0 : -2 ^ 31 ≤ x) (h : x < 2 ^ 31) : wrapInt x = x :=
  Int.bmod_eq_of_le (by norm_num; omega) (by norm_num; omega)

theorem wrapInt_lt (x : Int) : wrapInt x < 2 ^ 31 := by
  have h : Int.bmod x (2 ^ 32) < ((2 ^ 32 : Nat) + 1) / 2 := Int.bmod_lt (by norm_num)
  norm_num at h
  exact h

theorem wrapInt_step (d : Nat) : wrapInt (10 * wrapInt n + d) = wrapInt (10 * n + d) := by
  rw [wrapInt, wrapInt, wrapInt, Int.add_bmod, Int.mul_bmod_bmod, ← Int.add_bmod]

end

/-! ## Digits -/

def denotes (ds : StringRef) : Nat := ds.foldl (fun n c => 10 * n + digitValue c) 0

def digitsAt (text : StringRef) (pos : Nat) : StringRef := (text.drop pos).takeWhile isDigit

theorem denotes_concat (p : StringRef) (c : BitVec 8) :
    denotes (p ++ [c]) = 10 * denotes p + digitValue c := by
  rw [denotes, List.foldl_append]
  rfl

theorem denotes_le_append (p q : StringRef) : denotes p ≤ denotes (p ++ q) := by
  induction q generalizing p with
  | nil => rw [List.append_nil]
  | cons c q ih =>
      have hstep := ih (p ++ [c])
      rw [List.append_assoc, List.singleton_append, denotes_concat] at hstep
      omega

/-- A digit behind `p` makes the accumulator smaller. -/
def Lowered (p ds : StringRef) : Prop :=
  ∃ q c, q ++ [c] <+: ds ∧ wrapInt (denotes (p ++ q ++ [c])) < wrapInt (denotes (p ++ q))

section

variable {p ds : StringRef} {c : BitVec 8}

theorem not_lowered_nil : ¬ Lowered p [] := by
  rintro ⟨q, c, hprefix, -⟩
  exact List.concat_ne_nil _ _ (List.prefix_nil.1 hprefix)

theorem lowered_cons :
    Lowered p (c :: ds) ↔ wrapInt (denotes (p ++ [c])) < wrapInt (denotes p) ∨ Lowered (p ++ [c]) ds := by
  constructor
  · rintro ⟨q, e, hprefix, hlt⟩
    cases q with
    | nil =>
        rw [List.nil_append, List.cons_prefix_cons] at hprefix
        rw [List.append_nil, hprefix.1] at hlt
        exact .inl hlt
    | cons b q =>
        obtain ⟨rfl, hrest⟩ := List.cons_prefix_cons.1 hprefix
        have happend : p ++ b :: q = p ++ [b] ++ q := List.append_cons p b q
        exact .inr ⟨q, e, hrest, by simpa only [happend] using hlt⟩
  · rintro (hlt | ⟨q, e, hprefix, hlt⟩)
    · refine ⟨[], c, List.cons_prefix_cons.2 ⟨rfl, List.nil_prefix⟩, ?_⟩
      simpa only [List.append_nil] using hlt
    · refine ⟨c :: q, e, List.cons_prefix_cons.2 ⟨rfl, hprefix⟩, ?_⟩
      have happend : p ++ c :: q = p ++ [c] ++ q := List.append_cons p c q
      simpa only [happend] using hlt

theorem wrapInt_le_of_not_lowered (h : ¬ Lowered p ds) : wrapInt (denotes p) ≤ wrapInt (denotes (p ++ ds)) := by
  induction ds generalizing p with
  | nil => rw [List.append_nil]
  | cons c ds ih =>
      rw [lowered_cons, not_or, not_lt] at h
      have hrest := ih h.2
      rw [List.append_assoc, List.singleton_append] at hrest
      exact h.1.trans hrest

theorem not_lowered_of_fits (h : denotes (p ++ ds) < 2 ^ 31) : ¬ Lowered p ds := by
  rintro ⟨q, c, ⟨r, rfl⟩, hlt⟩
  have hconcat := denotes_concat (p ++ q) c
  have hle := denotes_le_append (p ++ q ++ [c]) r
  have happend : p ++ (q ++ [c] ++ r) = p ++ q ++ [c] ++ r := by simp only [List.append_assoc]
  rw [happend] at h
  rw [wrapInt_of_fits (by omega) (by omega), wrapInt_of_fits (by omega) (by omega)] at hlt
  omega

end

/-! ## The loop -/

section

variable {text y : StringRef} {pos : Nat} {T : List StringRef}

theorem naturalLoop_spec {ds p : StringRef} {fuel : Nat} (hds : ∀ c ∈ ds, isDigit c = true)
    (h : text.drop pos = ds ++ y) (hy : isDigit (y.headD 0) = false) (hfuel : ds.length < fuel) :
    (¬ Lowered p ds → Wrapping.naturalLoop fuel (wrapInt (denotes p)) ⟨text, pos, T⟩ =
        (.ok (wrapInt (denotes (p ++ ds))), ⟨text, pos + ds.length, T⟩)) ∧
      (Lowered p ds → ∃ pos', Wrapping.naturalLoop fuel (wrapInt (denotes p)) ⟨text, pos, T⟩ =
        (.ok (-1000), ⟨text, pos', T⟩)) := by
  induction ds generalizing fuel p pos with
  | nil =>
      obtain ⟨fuel, rfl⟩ := Nat.exists_eq_add_one.2 (Nat.zero_lt_of_lt hfuel)
      refine ⟨fun _ => ?_, fun hlow => absurd hlow not_lowered_nil⟩
      rw [Wrapping.naturalLoop, bind_run (peekChar_run h), List.nil_append, hy, List.append_nil]
      rfl
  | cons c ds ih =>
      obtain ⟨fuel, rfl⟩ := Nat.exists_eq_add_one.2 (Nat.zero_lt_of_lt hfuel)
      have hc := hds c List.mem_cons_self
      have hnext : text.drop (pos + 1) = ds ++ y := drop_add (x := [_]) h
      have hnum : wrapInt (10 * wrapInt (denotes p) + digitValue c) = wrapInt (denotes (p ++ [c])) := by
        rw [wrapInt_step, denotes_concat]
        push_cast
        rfl
      have hrun : Wrapping.naturalLoop (fuel + 1) (wrapInt (denotes p)) ⟨text, pos, T⟩ =
          if wrapInt (denotes (p ++ [c])) < wrapInt (denotes p) then (.ok (-1000), ⟨text, pos, T⟩)
          else Wrapping.naturalLoop fuel (wrapInt (denotes (p ++ [c]))) ⟨text, pos + 1, T⟩ := by
        rw [Wrapping.naturalLoop, bind_run (peekChar_run h), List.cons_append, List.headD_cons, if_pos hc, hnum]
        split_ifs with hlt
        · rfl
        · exact bind_run (nextChar_run h)
      obtain ⟨hall, hstop⟩ := ih (p := p ++ [c]) (fun e he => hds e (List.mem_cons_of_mem c he)) hnext
        (Nat.lt_of_succ_lt_succ hfuel)
      rw [hrun, lowered_cons]
      refine ⟨fun hlow => ?_, fun hlow => ?_⟩
      · rw [not_or] at hlow
        rw [if_neg hlow.1, hall hlow.2, List.append_assoc, List.singleton_append, List.length_cons, add_assoc,
          add_comm 1]
      · split_ifs with hlt
        · exact ⟨pos, rfl⟩
        · exact hstop (hlow.resolve_left hlt)

end

/-! ## Numbers -/

section

variable {text : StringRef} {pos : Nat}

theorem drop_eq_digitsAt (text : StringRef) (pos : Nat) :
    text.drop pos = digitsAt text pos ++ (text.drop pos).dropWhile isDigit :=
  List.takeWhile_append_dropWhile.symm

theorem isDigit_headD_dropWhile (s : StringRef) : isDigit ((s.dropWhile isDigit).headD 0) = false := by
  cases hs : s.dropWhile isDigit with
  | nil => rfl
  | cons c t =>
      have hhead := List.head_dropWhile_not isDigit (l := s) (by rw [hs]; exact List.cons_ne_nil c t)
      simpa only [hs, List.head_cons, List.headD_cons] using hhead

theorem isDigit_headD_iff (s : StringRef) : isDigit (s.headD 0) = true ↔ s.takeWhile isDigit ≠ [] := by
  cases s with
  | nil => exact ⟨fun h => absurd h (by decide), fun h => absurd rfl h⟩
  | cons c t =>
      rw [List.headD_cons, List.takeWhile_cons]
      split_ifs with hc
      · exact iff_of_true hc (List.cons_ne_nil _ _)
      · exact iff_of_false hc fun h => h rfl

theorem demangleNatural_no_digits (h : digitsAt text pos = []) (T : List StringRef) :
    Wrapping.demangleNatural ⟨text, pos, T⟩ = (.ok (-1000), ⟨text, pos, T⟩) := by
  have hdigit : ¬ isDigit ((text.drop pos).headD 0) = true := fun hd => (isDigit_headD_iff _).1 hd h
  rw [Wrapping.demangleNatural, bind_run (peekChar_run rfl), bind_run (get_run _), if_neg hdigit]
  rfl

theorem demangleNatural_spec (h : digitsAt text pos ≠ []) (T : List StringRef) :
    (¬ Lowered [] (digitsAt text pos) → Wrapping.demangleNatural ⟨text, pos, T⟩ =
        (.ok (wrapInt (denotes (digitsAt text pos))), ⟨text, pos + (digitsAt text pos).length, T⟩)) ∧
      (Lowered [] (digitsAt text pos) → ∃ pos', Wrapping.demangleNatural ⟨text, pos, T⟩ =
        (.ok (-1000), ⟨text, pos', T⟩)) := by
  have hdrop := drop_eq_digitsAt text pos
  have hlen := length_of_drop_eq hdrop (by simp [h])
  rw [List.length_append] at hlen
  have hrun : Wrapping.demangleNatural ⟨text, pos, T⟩ =
      Wrapping.naturalLoop (text.length + 1) (wrapInt (denotes [])) ⟨text, pos, T⟩ := by
    rw [Wrapping.demangleNatural, bind_run (peekChar_run rfl), bind_run (get_run _),
      if_pos ((isDigit_headD_iff _).2 h)]
    rfl
  rw [hrun]
  exact naturalLoop_spec (p := []) (List.all_eq_true.1 List.all_takeWhile) hdrop (isDigit_headD_dropWhile _)
    (by omega)

/-! ## What a number is read as -/

/-- A number is read as the one that its digits denote, with all of them, or is refused because there is
none or it does not fit. -/
def ReadsNatural (text : StringRef) (pos : Nat) : Prop :=
  ∀ words, ∃ r d', Wrapping.demangleNatural ⟨text, pos, words⟩ = (.ok r, d') ∧
    (r < 0 ∧ (digitsAt text pos = [] ∨ 2 ^ 31 ≤ denotes (digitsAt text pos)) ∨
      digitsAt text pos ≠ [] ∧ r = denotes (digitsAt text pos) ∧
        d' = ⟨text, pos + (digitsAt text pos).length, words⟩)

/-- An index is read as 0, for an underscore alone, or as the successor of the number in front of one, or
is refused. -/
def ReadsIndex (text : StringRef) (pos : Nat) : Prop :=
  ∀ words, ∃ r d', Wrapping.demangleIndex ⟨text, pos, words⟩ = (.ok r, d') ∧
    (r < 0 ∨
      (text.drop pos).headD 0 = 0x5F ∧ r = 0 ∧ d' = ⟨text, pos + 1, words⟩ ∨
      digitsAt text pos ≠ [] ∧ (text.drop (pos + (digitsAt text pos).length)).headD 0 = 0x5F ∧
        r = denotes (digitsAt text pos) + 1 ∧ d' = ⟨text, pos + (digitsAt text pos).length + 1, words⟩)

theorem readsNatural_iff :
    ReadsNatural text pos ↔
      denotes (digitsAt text pos) < 2 ^ 31 ∨ Lowered [] (digitsAt text pos) := by
  have hlt := wrapInt_lt (denotes (digitsAt text pos))
  by_cases hdigits : digitsAt text pos = []
  · refine iff_of_true (fun words => ⟨_, _, demangleNatural_no_digits hdigits words, .inl ⟨by decide, .inl hdigits⟩⟩) ?_
    rw [hdigits]
    exact .inl (by decide)
  · constructor
    · intro hreads
      by_contra! hcon
      obtain ⟨r, d', hrun, hr⟩ := hreads []
      rw [(demangleNatural_spec hdigits []).1 hcon.2] at hrun
      have hnonneg := wrapInt_le_of_not_lowered hcon.2
      have hvalue : wrapInt (denotes (digitsAt text pos)) = r := Except.ok.inj (Prod.mk.inj hrun).1
      have hzero : wrapInt (denotes []) = 0 := rfl
      rw [hzero, List.nil_append] at hnonneg
      rcases hr with ⟨hneg, -⟩ | ⟨-, heq, -⟩
      · omega
      · omega
    · intro hcond words
      by_cases hlow : Lowered [] (digitsAt text pos)
      · obtain ⟨pos', hrun⟩ := (demangleNatural_spec hdigits words).2 hlow
        refine ⟨_, _, hrun, .inl ⟨by decide, .inr (not_lt.1 fun hfits => ?_)⟩⟩
        exact not_lowered_of_fits (by rwa [List.nil_append]) hlow
      · have hfits := hcond.resolve_right hlow
        refine ⟨_, _, (demangleNatural_spec hdigits words).1 hlow, .inr ⟨hdigits, ?_, rfl⟩⟩
        exact wrapInt_of_fits (by omega) (by exact_mod_cast hfits)

theorem ReadsNatural.readsIndex (h : ReadsNatural text pos) : ReadsIndex text pos := by
  intro words
  have hnext := nextIf_run (T := words) (rfl : text.drop pos = _) 0x5F
  split_ifs at hnext with hunder
  · refine ⟨0, ⟨text, pos + 1, words⟩, ?_, .inr (.inl ⟨hunder, rfl, rfl⟩)⟩
    rw [Wrapping.demangleIndex, bind_run hnext]
    rfl
  · obtain ⟨r, d', hrun, hr⟩ := h words
    rw [Wrapping.demangleIndex, bind_run hnext]
    rcases hr with ⟨hneg, -⟩ | ⟨hdigits, rfl, rfl⟩
    · refine ⟨-1000, d', ?_, .inl (by decide)⟩
      rw [if_neg Bool.false_ne_true, bind_run hrun, if_neg (not_le.2 hneg)]
      rfl
    · have hend := nextIf_run (T := words) (rfl : text.drop (pos + (digitsAt text pos).length) = _) 0x5F
      have hfits : denotes (digitsAt text pos) < 2 ^ 31 := by
        refine (readsNatural_iff.1 h).resolve_right fun hlow => ?_
        obtain ⟨pos', hstop⟩ := (demangleNatural_spec hdigits words).2 hlow
        have hneg : (denotes (digitsAt text pos) : Int) = -1000 :=
          Except.ok.inj (Prod.mk.inj (hrun.symm.trans hstop)).1
        omega
      split_ifs at hend with hclose
      · refine ⟨wrapInt (denotes (digitsAt text pos) + 1),
          ⟨text, pos + (digitsAt text pos).length + 1, words⟩, ?_, ?_⟩
        · rw [if_neg Bool.false_ne_true, bind_run hrun, if_pos (by omega), bind_run hend]
          rfl
        · -- the greatest `int` has no successor
          by_cases hmax : denotes (digitsAt text pos) + 1 < 2 ^ 31
          · exact .inr (.inr ⟨hdigits, hclose, wrapInt_of_fits (by omega) (by exact_mod_cast hmax), rfl⟩)
          · have hvalue : denotes (digitsAt text pos) = 2147483647 := by omega
            rw [hvalue]
            exact .inl (by decide)
      · refine ⟨-1000, ⟨text, pos + (digitsAt text pos).length, words⟩, ?_, .inl (by decide)⟩
        rw [if_neg Bool.false_ne_true, bind_run hrun, if_pos (by omega), bind_run hend]
        rfl

def ReadsNumbers (text : StringRef) (pos : Nat) : Prop := ReadsNatural text pos ∧ ReadsIndex text pos

/-- A number or an index is never read as another one, if and only if the number fits into an `int` or a
digit makes the accumulator smaller. -/
theorem readsNumbers_iff (text : StringRef) (pos : Nat) :
    ReadsNumbers text pos ↔ denotes (digitsAt text pos) < 2 ^ 31 ∨ Lowered [] (digitsAt text pos) := by
  rw [← readsNatural_iff]
  exact ⟨And.left, fun h => ⟨h, h.readsIndex⟩⟩

/-- Five thousand million is read as another number. -/
theorem not_readsNumbers_overlong :
    ¬ ReadsNumbers [0x35, 0x30, 0x30, 0x30, 0x30, 0x30, 0x30, 0x30, 0x30, 0x30] 0 := by
  rintro ⟨h, -⟩
  obtain ⟨r, d', hrun, hr⟩ := h []
  have hvalue : Wrapping.demangleNatural
      ⟨[0x35, 0x30, 0x30, 0x30, 0x30, 0x30, 0x30, 0x30, 0x30, 0x30], 0, []⟩ =
      (.ok 705032704, ⟨[0x35, 0x30, 0x30, 0x30, 0x30, 0x30, 0x30, 0x30, 0x30, 0x30], 10, []⟩) := by
    decide +kernel
  rw [hvalue] at hrun
  obtain rfl : (705032704 : Int) = r := Except.ok.inj (Prod.mk.inj hrun).1
  rcases hr with ⟨hneg, -⟩ | ⟨-, heq, -⟩
  · exact absurd hneg (by decide)
  · exact absurd heq (by decide)

end

end SwiftKStdlib.Demangling
