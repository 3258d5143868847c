import Mathlib.Tactic

/-!
# Positions in a concatenation

* `offset` : where a list begins in the concatenation;
* `locate` : the list, and the number in it, of the element at a position;
* `locate_offset`, `locate_length`, `exists_offset` : the positions are these and the end.
-/

namespace SwiftKStdlib.Lib.Concatenation

variable {α : Type}

/-- The number of elements in front of the list `k`. -/
def offset (xss : List (List α)) (k : Nat) : Nat := (xss.take k).flatten.length

def locate : List (List α) → Nat → Nat × Option Nat
  | [], _ => (0, none)
  | xs :: xss, p => if p < xs.length then (0, some p) else (locate xss (p - xs.length)).map (· + 1) id

variable {xss : List (List α)} {xs : List α} {k l i p : Nat}

theorem offset_zero : offset xss 0 = 0 := rfl

theorem offset_length : offset xss xss.length = xss.flatten.length := by rw [offset, List.take_length]

theorem offset_succ (h : xss[k]? = some xs) : offset xss (k + 1) = offset xss k + xs.length := by
  rw [offset, List.take_add_one, h, List.flatten_append, List.length_append]
  simp [offset]

theorem offset_mono (h : k ≤ l) : offset xss k ≤ offset xss l := by
  rw [offset, offset, List.length_flatten, List.length_flatten]
  exact (List.Sublist.map _ (List.take_sublist_take_left h)).sum_le_sum fun _ _ => Nat.zero_le _

theorem locate_offset (h : xss[k]? = some xs) (hi : i < xs.length) : locate xss (offset xss k + i) = (k, some i) := by
  induction xss generalizing k with
  | nil => cases h
  | cons ys xss ih =>
      cases k with
      | zero =>
          obtain rfl := Option.some.inj h
          rw [locate, offset_zero, Nat.zero_add, if_pos hi]
      | succ k =>
          have hoff : offset (ys :: xss) (k + 1) = ys.length + offset xss k := by
            rw [offset, List.take_succ_cons, List.flatten_cons, List.length_append, offset]
          rw [locate, hoff, if_neg (by omega), Nat.add_assoc, Nat.add_sub_cancel_left, ih h]
          rfl

theorem locate_length (xss : List (List α)) : locate xss xss.flatten.length = (xss.length, none) := by
  induction xss with
  | nil => rfl
  | cons ys xss ih =>
      rw [locate, List.flatten_cons, List.length_append, if_neg (by omega), Nat.add_sub_cancel_left, ih]
      rfl

theorem exists_offset (h : p < xss.flatten.length) :
    ∃ k xs i, xss[k]? = some xs ∧ i < xs.length ∧ p = offset xss k + i := by
  induction xss generalizing p with
  | nil => cases h
  | cons ys xss ih =>
      rw [List.flatten_cons, List.length_append] at h
      by_cases hp : p < ys.length
      · exact ⟨0, ys, p, rfl, hp, by rw [offset_zero, Nat.zero_add]⟩
      · obtain ⟨k, xs, i, hk, hi, heq⟩ := ih (p := p - ys.length) (by omega)
        refine ⟨k + 1, xs, i, hk, hi, ?_⟩
        rw [offset, List.take_succ_cons, List.flatten_cons, List.length_append, ← offset]
        omega

theorem getElem?_offset (h : xss[k]? = some xs) (hi : i < xs.length) : xss.flatten[offset xss k + i]? = xs[i]? := by
  induction xss generalizing k with
  | nil => cases h
  | cons ys xss ih =>
      cases k with
      | zero =>
          obtain rfl := Option.some.inj h
          rw [offset_zero, Nat.zero_add, List.flatten_cons, List.getElem?_append_left hi]
      | succ k =>
          rw [offset, List.take_succ_cons, List.flatten_cons, List.flatten_cons, List.length_append, ← offset,
            List.getElem?_append_right (by omega), ← ih h]
          congr 1
          omega

end SwiftKStdlib.Lib.Concatenation
