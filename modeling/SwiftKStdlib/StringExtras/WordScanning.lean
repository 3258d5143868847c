import Mathlib.Tactic
import SwiftKStdlib.StringExtras.WordIterator

/-!
# What the two scanners find

The string is `a ++ (u ++ (w ++ r))`: uppercase letters `u`, and `w` of other characters that are no
underscores.

* `skip_eq`, `skipBack_eq` : how far the loops go;
* `next_underscore`, `next_word`, `next_acronym` : the next position after `a`;
* `prev_underscore`, `prev_upper`, `prev_plural`, `prev_underscore_plural`, `prev_other` : the position
  before `r`.
-/

namespace SwiftKStdlib.StringExtras

variable {p : BitVec 8 → Bool} {s a u w r : StringRef} {c : BitVec 8} {i : Nat}

theorem unsigned_eq {x : Nat} (h : x < 2 ^ 32) : unsigned x = x := Nat.mod_eq_of_lt h

theorem bits31_eq {x : Nat} (h : x < 2 ^ 31) : bits31 x = x := Nat.mod_eq_of_lt h

theorem isOther_of_isLowercase (h : isLowercase c = true) : isOther c = true := by
  simp only [isLowercase, Bool.and_eq_true, decide_eq_true_eq] at h
  have hne : c ≠ underscore := by
    rintro rfl
    exact absurd h (by decide)
  have hupper : isUppercase c = false := by
    simp only [isUppercase, Bool.and_eq_false_iff, decide_eq_false_iff_not]
    omega
  simp [isOther, hupper, hne]

theorem isOther_of_ne (h : c ≠ underscore) (h' : isUppercase c ≠ true) : isOther c = true := by simp [isOther, h, h']

theorem not_isOther_of_isUppercase (h : isUppercase c = true) : isOther c = false := by simp [isOther, h]

theorem not_isUppercase_of_isOther (h : isOther c = true) : isUppercase c = false := by
  simp only [isOther, Bool.and_eq_true, Bool.not_eq_true'] at h
  exact h.1

theorem ne_underscore_of_isOther (h : isOther c = true) : c ≠ underscore := by
  simp only [isOther, Bool.and_eq_true, bne_iff_ne, ne_eq] at h
  exact h.2

theorem ne_underscore_of_isUppercase (h : isUppercase c = true) : c ≠ underscore := by
  rintro rfl
  exact absurd h (by decide)

/-! ## Reading a string at a place -/

theorem any_eq_false {o : Option (BitVec 8)} (h : ∀ c ∈ o, p c = false) : o.any p = false := by
  cases o with
  | none => rfl
  | some c => exact h c rfl

theorem takeWhile_append_eq (hu : ∀ c ∈ u, p c = true) (hr : ∀ c ∈ r.head?, p c = false) :
    (u ++ r).takeWhile p = u := by
  rw [List.takeWhile_append_of_pos hu]
  cases r with
  | nil => simp
  | cons c r => simp [hr c rfl]

theorem skip_eq (hs : s = a ++ (u ++ r)) (hi : i = a.length) (hu : ∀ c ∈ u, p c = true)
    (hr : ∀ c ∈ r.head?, p c = false) : skip s p i s.length = i + u.length := by
  rw [skip, List.take_length, hs, hi, List.drop_left, takeWhile_append_eq hu hr]

theorem skipBack_eq (hs : s = a ++ (u ++ r)) (hi : i = a.length + u.length) (hu : ∀ c ∈ u, p c = true)
    (ha : ∀ c ∈ a.getLast?, p c = false) : skipBack s p i = a.length := by
  have htake : s.take i = a ++ u := by rw [hs, hi, ← List.append_assoc, ← List.length_append, List.take_left]
  rw [skipBack, htake, List.reverse_append, takeWhile_append_eq (by simpa using hu)
    (by simpa [List.head?_reverse] using ha), List.length_reverse, hi, Nat.add_sub_cancel]

theorem charAt_eq (hs : s = a ++ r) (hi : i = a.length) : charAt s i p = r.head?.any p := by
  rw [charAt, hs, hi, List.getElem?_append_right (Nat.le_refl _), Nat.sub_self, List.head?_eq_getElem?]

theorem charAt_pred_eq (hs : s = a ++ r) (hi : i = a.length) (ha : a ≠ []) :
    charAt s (i - 1) p = a.getLast?.any p := by
  rw [charAt, hs, hi, List.getElem?_append_left (Nat.sub_lt (List.length_pos_of_ne_nil ha) Nat.one_pos),
    List.getLast?_eq_getElem?]

theorem slice_eq (hs : s = a ++ (u ++ r)) {j : Nat} (hi : i = a.length) (hj : j = a.length + u.length) :
    StringRef.slice s i j = u := by
  rw [StringRef.slice, hs, hi, hj, List.drop_left, Nat.add_sub_cancel_left, List.take_left]

/-! ## Forwards -/

theorem next_underscore (hs : s = a ++ underscore :: r) (hlen : s.length < 2 ^ 31) :
    computeNextPosition s a.length = some (a.length + 1) := by
  have hlt : a.length + 1 ≤ s.length := by simp [hs]
  rw [computeNextPosition, charAt_eq hs rfl, bits31_eq (by omega)]
  simp [show a.length < s.length from hlt]

theorem head_not_upper (hw : ∀ c ∈ w, isOther c = true) (hr : w = [] → ∀ c ∈ r.head?, isUppercase c = false) :
    ∀ c ∈ (w ++ r).head?, isUppercase c = false := by
  cases w with
  | nil => exact hr rfl
  | cons d w =>
      intro c hc
      obtain rfl : d = c := by simpa using hc
      exact not_isUppercase_of_isOther (hw d List.mem_cons_self)

theorem next_word (hs : s = a ++ (u ++ (w ++ r))) (hlen : s.length < 2 ^ 31) (hu : ∀ c ∈ u, isUppercase c = true)
    (hu1 : u.length ≤ 1) (hw : ∀ c ∈ w, isOther c = true) (hr : ∀ c ∈ r.head?, isOther c = false)
    (hur : w = [] → ∀ c ∈ r.head?, isUppercase c = false) (hne : u ++ w ≠ []) :
    computeNextPosition s a.length = some (a.length + u.length + w.length) := by
  have hslen : s.length = a.length + u.length + w.length + r.length := by
    simp [hs, Nat.add_assoc]
  have hpos : 0 < u.length + w.length := by simpa using List.length_pos_of_ne_nil hne
  have hfirst : charAt s a.length (· == underscore) = false := by
    rw [charAt_eq hs rfl]
    cases u with
    | cons c u => simpa using ne_underscore_of_isUppercase (hu c List.mem_cons_self)
    | nil =>
        cases w with
        | nil => exact absurd rfl hne
        | cons c w => simpa using ne_underscore_of_isOther (hw c List.mem_cons_self)
  have hskip : skip s isUppercase a.length s.length = a.length + u.length :=
    skip_eq hs rfl hu (head_not_upper hw hur)
  have hrest : skip s isOther (a.length + u.length) s.length = a.length + u.length + w.length :=
    skip_eq (a := a ++ u) (by simp [hs]) (by simp) hw hr
  have hend : bits31 (a.length + u.length + w.length) = a.length + u.length + w.length := bits31_eq (by omega)
  have hn : unsigned s.length = s.length := unsigned_eq (by omega)
  have hlt : a.length < s.length := by omega
  have hword : ¬ a.length + u.length - a.length > 1 := by omega
  simp only [computeNextPosition, hn, hfirst, hskip, hrest, hend, hlt, hword, guard, if_true, if_false]
  rfl

/-- The part of an acronym and of what follows it that is its word. -/
def acronymLength (v : StringRef) (x : BitVec 8) (l : StringRef) : Nat :=
  if isPluralSuffix l && x :: l != literal "Is" then v.length + 1 + l.length
  else if l = [] then v.length + 1
  else v.length

theorem next_acronym {v l : StringRef} {x : BitVec 8} (hs : s = a ++ ((v ++ [x]) ++ (l ++ r)))
    (hlen : s.length < 2 ^ 31) (hv : v ≠ []) (hu : ∀ c ∈ v ++ [x], isUppercase c = true)
    (hl : ∀ c ∈ l, isLowercase c = true) (hr : ∀ c ∈ r.head?, isLowercase c = false)
    (hur : l = [] → ∀ c ∈ r.head?, isUppercase c = false) :
    computeNextPosition s a.length = some (a.length + acronymLength v x l) := by
  have hslen : s.length = a.length + (v.length + 1) + l.length + r.length := by
    simp [hs]
    omega
  have hpos : 0 < v.length := List.length_pos_of_ne_nil hv
  have hfirst : charAt s a.length (· == underscore) = false := by
    rw [charAt_eq hs rfl]
    cases v with
    | nil => exact absurd rfl hv
    | cons c v => simpa using ne_underscore_of_isUppercase (hu c List.mem_cons_self)
  have hskip : skip s isUppercase a.length s.length = a.length + (v.length + 1) := by
    rw [skip_eq hs rfl hu (head_not_upper (fun c hc => isOther_of_isLowercase (hl c hc)) hur)]
    simp
  have hnext : skip s isLowercase (a.length + (v.length + 1)) s.length = a.length + (v.length + 1) + l.length :=
    skip_eq (a := a ++ (v ++ [x])) (by simp [hs]) (by simp) hl hr
  have hslice : StringRef.slice s (a.length + (v.length + 1)) (a.length + (v.length + 1) + l.length) = l :=
    slice_eq (a := a ++ (v ++ [x])) (r := r) (by simp [hs]) (by simp) (by simp)
  have hslice' : StringRef.slice s (a.length + (v.length + 1) - 1) (a.length + (v.length + 1) + l.length) = x :: l :=
    slice_eq (a := a ++ v) (u := x :: l) (r := r) (by simp [hs]) (by simp) (by simp; omega)
  have hlower : charAt s (a.length + (v.length + 1)) isLowercase = decide (l ≠ []) := by
    rw [charAt_eq (a := a ++ (v ++ [x])) (r := l ++ r) (by simp [hs]) (by simp)]
    cases l with
    | nil => simpa using any_eq_false hr
    | cons c l => simpa using hl c List.mem_cons_self
  have hn : unsigned s.length = s.length := unsigned_eq (by omega)
  have hlt : a.length < s.length := by omega
  have hword : a.length + (v.length + 1) - a.length > 1 := by omega
  simp only [computeNextPosition, hn, hfirst, hskip, hnext, hslice, hslice', hlower, hlt, hword, guard, if_true,
    acronymLength]
  by_cases hplural : (isPluralSuffix l && x :: l != literal "Is") = true
  · simp only [hplural, Bool.or_true, if_true, bits31_eq (show a.length + (v.length + 1) + l.length < 2 ^ 31 by omega)]
    exact congrArg some (by omega)
  · rw [Bool.not_eq_true] at hplural
    cases l with
    | nil => simp [hplural, bits31_eq (show a.length + (v.length + 1) < 2 ^ 31 by omega)]
    | cons c l =>
        have hend : a.length + (v.length + 1) ≠ s.length := by simp [hslen]; omega
        have hprev : bits31 (a.length + v.length) = a.length + v.length := bits31_eq (by omega)
        simp [hplural, beq_eq_false_iff_ne.2 hend, hprev]

/-! ## Backwards -/

theorem getLast?_append_ne_nil {x y : StringRef} (hy : y ≠ []) : (x ++ y).getLast? = y.getLast? := by
  rw [List.getLast?_append]
  cases hlast : y.getLast? with
  | none => exact absurd (List.getLast?_eq_none_iff.1 hlast) hy
  | some c => rfl

theorem getLast?_upper (hu : ∀ c ∈ u, isUppercase c = true) : ∀ c ∈ (a ++ u).getLast?, u ≠ [] → isUppercase c = true := by
  intro c hc hne
  rw [getLast?_append_ne_nil hne] at hc
  exact hu c (List.mem_of_getLast? hc)

theorem prev_of_stop (i : Nat) (hlast : skipBack s isOther i = i) (hi : 0 < i) :
    computePrevPosition s i
      = some (if charAt s (i - 1) (· == underscore) then bits31 (i - 1) else bits31 (skipBack s isUppercase i)) := by
  have hplural : isPluralSuffix (StringRef.slice s i i) = false := by
    rw [StringRef.slice, Nat.sub_self, List.take_zero]
    decide
  simp only [computePrevPosition, hlast, hplural, Bool.and_false, Bool.false_eq_true, if_false, guard, hi, if_true,
    Nat.lt_irrefl]
  split
  · rfl
  · rfl

theorem prev_underscore (hs : s = a ++ underscore :: r) (hlen : s.length < 2 ^ 31) :
    computePrevPosition s (a.length + 1) = some a.length := by
  have hslen : s.length = a.length + (r.length + 1) := by simp [hs]
  have hstop : skipBack s isOther (a.length + 1) = a.length + 1 := by
    rw [skipBack_eq (a := a ++ [underscore]) (u := []) (r := r) (by simp [hs]) (by simp) (by simp) (by simp [isOther])]
    simp
  have hchar : charAt s (a.length + 1 - 1) (· == underscore) = true := by
    rw [charAt_eq (a := a) hs (by simp)]
    simp
  rw [prev_of_stop _ hstop (Nat.succ_pos _), hchar]
  simp [bits31_eq (show a.length < 2 ^ 31 by omega)]

theorem prev_upper (hs : s = a ++ (u ++ r)) (hlen : s.length < 2 ^ 31) (hu : ∀ c ∈ u, isUppercase c = true)
    (hne : u ≠ []) (ha : ∀ c ∈ a.getLast?, isUppercase c = false) :
    computePrevPosition s (a.length + u.length) = some a.length := by
  have hslen : s.length = a.length + (u.length + r.length) := by simp [hs]
  have hlast := getLast?_upper (a := a) hu
  have hpos := List.length_pos_of_ne_nil hne
  have hstop : skipBack s isOther (a.length + u.length) = a.length + u.length := by
    rw [skipBack_eq (a := a ++ u) (u := []) (r := r) (by simp [hs]) (by simp) (by simp)
      (fun c hc => not_isOther_of_isUppercase (hlast c hc hne))]
    simp
  have hchar : charAt s (a.length + u.length - 1) (· == underscore) = false := by
    rw [charAt_pred_eq (a := a ++ u) (r := r) (by simp [hs]) (by simp) (by simp [hne])]
    exact any_eq_false fun c hc => by simpa using ne_underscore_of_isUppercase (hlast c hc hne)
  rw [prev_of_stop _ hstop (by omega), hchar, skipBack_eq hs rfl hu ha]
  simp [bits31_eq (show a.length < 2 ^ 31 by omega)]

theorem prev_plural (hs : s = a ++ (w ++ r)) (hw : ∀ c ∈ w, isOther c = true) (hplural : isPluralSuffix w = true)
    (ha : ∀ c ∈ a.getLast?, isOther c = false) (hne : a ≠ []) :
    computePrevPosition s (a.length + w.length) = computePrevPosition s a.length := by
  have hpos := List.length_pos_of_ne_nil hne
  have hi : skipBack s isOther (a.length + w.length) = a.length := skipBack_eq hs rfl hw ha
  have hstop : skipBack s isOther a.length = a.length := by
    rw [skipBack_eq (a := a) (u := []) (r := w ++ r) (by simp [hs]) (by simp) (by simp) ha]
  have hslice : StringRef.slice s a.length (a.length + w.length) = w := slice_eq hs rfl rfl
  rw [prev_of_stop _ hstop hpos]
  simp only [computePrevPosition, hi, hslice, hplural, hstop, hpos, decide_true, Bool.and_true, if_true, guard,
    show 0 < a.length + w.length by omega, Nat.lt_irrefl, if_false]
  split
  · rfl
  · rfl

theorem prev_other (hs : s = a ++ (w ++ r)) (hlen : s.length < 2 ^ 31) (hw : ∀ c ∈ w, isOther c = true)
    (hne : w ≠ []) (hplural : isPluralSuffix w = true → a = []) (ha : ∀ c ∈ a.getLast?, isOther c = false) :
    computePrevPosition s (a.length + w.length)
      = some (if w.head?.any isLowercase && a.getLast?.any isUppercase then a.length - 1 else a.length) := by
  have hslen : s.length = a.length + (w.length + r.length) := by simp [hs]
  have hpos := List.length_pos_of_ne_nil hne
  have hi : skipBack s isOther (a.length + w.length) = a.length := skipBack_eq hs rfl hw ha
  have hslice : StringRef.slice s a.length (a.length + w.length) = w := slice_eq hs rfl rfl
  have hno : (decide (0 < a.length) && isPluralSuffix w) = false := by
    cases hp : isPluralSuffix w with
    | false => simp
    | true => simp [hplural hp]
  have hlower : charAt s a.length isLowercase = w.head?.any isLowercase := by
    rw [charAt_eq hs rfl]
    cases w with
    | nil => exact absurd rfl hne
    | cons c w => rfl
  have hbefore : (a.length != 0 && !charAt s (a.length - 1) (· == underscore)) = a.getLast?.any isUppercase := by
    cases hlast : a.getLast? with
    | none => simp [List.getLast?_eq_none_iff.1 hlast]
    | some c =>
        have hane : a ≠ [] := by
          rintro rfl
          cases hlast
        have hother := ha c hlast
        rw [charAt_pred_eq hs rfl hane, hlast]
        simp only [isOther, Bool.and_eq_false_iff, Bool.not_eq_false', bne_eq_false_iff_eq] at hother
        rcases hother with hupper | rfl
        · simpa [hupper, hane] using ne_underscore_of_isUppercase hupper
        · simp [isUppercase, underscore]
  simp only [computePrevPosition, hi, hslice, hno, hlower, Bool.false_eq_true, if_false, guard,
    show 0 < a.length + w.length by omega, show a.length < a.length + w.length by omega, if_true,
    bits31_eq (show a.length - 1 < 2 ^ 31 by omega), bits31_eq (show a.length < 2 ^ 31 by omega)]
  rw [Bool.and_right_comm, hbefore, Bool.and_comm]
  split
  · rfl
  · rfl

end SwiftKStdlib.StringExtras
