import SwiftKStdlib.Lib.BitWords

/-!
# Counting the bits that are set

* `rank l p` : how many bits are set before `p`; `getElem?_ones` : `ones` selects by rank;
* `onesFrom l u` : the indices of the set bits from `u` on;
-/

namespace SwiftKStdlib.Lib.BitWords

section Rank

variable {l m : List Bool}

/-- The number of bits that are set before `p`. -/
def rank (l : List Bool) (p : Nat) : Nat := (l.take p).count true

/-- The indices of the set bits from `u` on. -/
def onesFrom (l : List Bool) (u : Nat) : List Nat :=
  (List.range' u (l.length - u)).filter (bit l)

theorem onesFrom_zero (l : List Bool) : onesFrom l 0 = ones l := by
  unfold onesFrom ones
  rw [Nat.sub_zero, List.range_eq_range']

theorem onesFrom_of_le {u : Nat} (h : l.length ≤ u) : onesFrom l u = [] := by
  unfold onesFrom
  rw [Nat.sub_eq_zero_of_le h]
  rfl

theorem onesFrom_step {u : Nat} (h : u < l.length) :
    onesFrom l u = if bit l u then u :: onesFrom l (u + 1) else onesFrom l (u + 1) := by
  obtain ⟨n, hn⟩ := Nat.exists_eq_add_of_lt h
  have hcount : l.length - u = n + 1 := by omega
  have hcount' : l.length - (u + 1) = n := by omega
  unfold onesFrom
  rw [hcount, hcount', List.range'_succ, List.filter_cons]

theorem lt_length_of_bit {u : Nat} (h : bit l u = true) : u < l.length := by
  by_contra hle
  rw [bit_of_le (Nat.le_of_not_lt hle)] at h
  exact Bool.noConfusion h

theorem onesFrom_of_bit {u : Nat} (h : bit l u = true) :
    onesFrom l u = u :: onesFrom l (u + 1) := by
  rw [onesFrom_step (lt_length_of_bit h), if_pos h]

theorem mem_onesFrom {u i : Nat} : i ∈ onesFrom l u ↔ u ≤ i ∧ bit l i = true := by
  unfold onesFrom
  rw [List.mem_filter, List.mem_range'_1]
  refine ⟨fun h => ⟨h.1.1, h.2⟩, fun h => ⟨⟨h.1, ?_⟩, h.2⟩⟩
  have hlt := lt_length_of_bit h.2
  omega

theorem length_onesFrom_mono {u v : Nat} (h : u ≤ v) : (onesFrom l v).length ≤ (onesFrom l u).length := by
  induction v, h using Nat.le_induction with
  | base => exact le_refl _
  | succ v _ ih =>
    refine le_trans ?_ ih
    rcases Nat.lt_or_ge v l.length with hlt | hge
    · rw [onesFrom_step hlt]
      split_ifs
      · exact Nat.le_succ _
      · exact le_refl _
    · rw [onesFrom_of_le (by omega : l.length ≤ v + 1)]
      exact Nat.zero_le _

theorem bit_cons_zero (b : Bool) (l : List Bool) : bit (b :: l) 0 = b := rfl

theorem bit_cons_succ (b : Bool) (l : List Bool) (i : Nat) : bit (b :: l) (i + 1) = bit l i := rfl

theorem ones_cons (b : Bool) (l : List Bool) :
    ones (b :: l) = if b then 0 :: (ones l).map (· + 1) else (ones l).map (· + 1) := by
  unfold ones
  rw [List.length_cons, List.range_succ_eq_map, List.filter_cons, List.filter_map, bit_cons_zero]
  rfl

theorem rank_zero (l : List Bool) : rank l 0 = 0 := by
  simp [rank]

theorem rank_cons_succ (b : Bool) (l : List Bool) (p : Nat) :
    rank (b :: l) (p + 1) = (if b then 1 else 0) + rank l p := by
  unfold rank
  rw [List.take_succ_cons, List.count_cons, Nat.add_comm]
  congr 1
  cases b with
  | false => rfl
  | true => rfl

theorem rank_succ (l : List Bool) (p : Nat) : rank l (p + 1) = rank l p + if bit l p then 1 else 0 := by
  induction l generalizing p with
  | nil => simp [rank, bit]
  | cons b l ih =>
    rw [rank_cons_succ]
    cases p with
    | zero => rw [rank_zero, rank_zero, bit_cons_zero, Nat.add_comm]
    | succ p => rw [rank_cons_succ, ih, bit_cons_succ, Nat.add_assoc]

theorem rank_le (l : List Bool) (p : Nat) : rank l p ≤ p := by
  unfold rank
  refine le_trans List.count_le_length ?_
  rw [List.length_take]
  exact Nat.min_le_left _ _

theorem rank_mono {p q : Nat} (h : p ≤ q) : rank l p ≤ rank l q := by
  induction q, h using Nat.le_induction with
  | base => exact le_refl _
  | succ q _ ih =>
    rw [rank_succ]
    omega

theorem rank_add {u n : Nat} (h : ∀ i, i < n → bit l (u + i) = true) : rank l (u + n) = rank l u + n := by
  induction n with
  | zero => rfl
  | succ n ih =>
    rw [← Nat.add_assoc, rank_succ, ih fun i hi => h i (by omega), h n (Nat.lt_succ_self n), if_pos rfl]
    rfl

theorem run_succ {u n : Nat} (h : ∀ i, i < n → bit l (u + i) = true) (hbit : bit l (u + n) = true) :
    ∀ i, i < n + 1 → bit l (u + i) = true := by
  intro i hi
  rcases Nat.lt_succ_iff_lt_or_eq.1 hi with hi | rfl
  · exact h i hi
  · exact hbit

theorem not_bit_of_rank {n p : Nat} (h : rank l n = 0) (hp : p < n) : ¬ bit l p = true := by
  intro hbit
  have hmono := rank_mono (l := l) (show p + 1 ≤ n from hp)
  rw [rank_succ, if_pos hbit] at hmono
  omega

theorem rank_congr {p : Nat} (h : ∀ i, i < p → bit l i = bit m i) : rank l p = rank m p := by
  induction p with
  | zero => rw [rank_zero, rank_zero]
  | succ p ih =>
    rw [rank_succ, rank_succ, ih fun i hi => h i (by omega), h p (Nat.lt_succ_self p)]

theorem rank_length (l : List Bool) : rank l l.length = l.count true := by
  rw [rank, List.take_length]

theorem rank_drop (l : List Bool) (u p : Nat) : rank l (u + p) = rank l u + rank (l.drop u) p := by
  induction p with
  | zero => rw [rank_zero]; rfl
  | succ p ih => rw [← Nat.add_assoc, rank_succ, rank_succ, ih, bit_drop, Nat.add_assoc]

theorem onesFrom_eq_cons {u i : Nat} {is : List Nat} (h : onesFrom l u = i :: is) :
    u ≤ i ∧ bit l i = true ∧ rank l i = rank l u ∧ is = onesFrom l (i + 1) := by
  obtain ⟨d, hd⟩ : ∃ d, d = l.length - u := ⟨_, rfl⟩
  induction d generalizing u with
  | zero =>
    rw [onesFrom_of_le (by omega)] at h
    exact absurd h (by simp)
  | succ d ih =>
    rw [onesFrom_step (by omega)] at h
    split_ifs at h with hbit
    · obtain ⟨rfl, rfl⟩ := List.cons.inj h
      exact ⟨le_refl _, hbit, rfl, rfl⟩
    · obtain ⟨hle, hi, hrank, his⟩ := ih h (by omega)
      rw [rank_succ, if_neg hbit] at hrank
      exact ⟨by omega, hi, hrank, his⟩

theorem getElem?_ones {k p : Nat} : (ones l)[k]? = some p ↔ bit l p = true ∧ rank l p = k := by
  induction l generalizing k p with
  | nil => simp [ones, bit]
  | cons b l ih =>
    rw [ones_cons]
    cases p with
    | zero =>
      rw [bit_cons_zero, rank_zero]
      cases b with
      | false => simp
      | true =>
        cases k with
        | zero => simp
        | succ k => simp
    | succ p =>
      rw [bit_cons_succ, rank_cons_succ]
      cases b with
      | false => simp [ih]
      | true =>
        cases k with
        | zero =>
          simp
        | succ k =>
          simp only [if_true, List.getElem?_cons_succ, List.getElem?_map, Option.map_eq_some_iff,
            Nat.add_right_cancel_iff, exists_eq_right, ih, Nat.add_comm 1]

end Rank

end SwiftKStdlib.Lib.BitWords
