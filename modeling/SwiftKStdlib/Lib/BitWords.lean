import Mathlib.Tactic
import Mathlib.Data.BitVec
import Mathlib.Data.List.GetD

/-!
# Lists of bits, cut into words

* `bit l i` : the bit `i` of a list, `false` behind its end;
* `word n l k` : the `k`-th word of `n` bits; `getLsbD_word`, `eq_word`;
* `numWords` : how many words a list takes;
* `Holds` : the words of a list at the front of a list of words;
* `ones`, `onesOf` : the indices of the bits that are set, in a list and in a word.
-/

namespace SwiftKStdlib.Lib.BitWords

def bit (l : List Bool) (i : Nat) : Bool := l.getD i false

theorem bit_of_le {l : List Bool} {i : Nat} (h : l.length ≤ i) : bit l i = false :=
  List.getD_eq_default _ _ h

theorem ext_bit {l m : List Bool} (hlen : l.length = m.length) (h : ∀ i, bit l i = bit m i) : l = m := by
  refine List.ext_getElem hlen fun i hi hi' => ?_
  have hbit := h i
  rwa [bit, bit, List.getD_eq_getElem _ _ hi, List.getD_eq_getElem _ _ hi'] at hbit

theorem bit_append (l m : List Bool) (i : Nat) :
    bit (l ++ m) i = if i < l.length then bit l i else bit m (i - l.length) := by
  unfold bit
  split_ifs with h
  · exact List.getD_append _ _ _ _ h
  · exact List.getD_append_right _ _ _ _ (Nat.le_of_not_lt h)

theorem bit_drop (l : List Bool) (w i : Nat) : bit (l.drop w) i = bit l (w + i) := by
  unfold bit
  rw [List.getD_eq_getElem?_getD, List.getD_eq_getElem?_getD, List.getElem?_drop]

theorem bit_take (l : List Bool) (w i : Nat) : bit (l.take w) i = (decide (i < w) && bit l i) := by
  unfold bit
  rw [List.getD_eq_getElem?_getD, List.getD_eq_getElem?_getD, List.getElem?_take]
  by_cases h : i < w
  · simp [h]
  · simp [h]

theorem bit_replicate (w : Nat) (b : Bool) (i : Nat) :
    bit (List.replicate w b) i = (decide (i < w) && b) := by
  unfold bit
  rw [List.getD_eq_getElem?_getD, List.getElem?_replicate]
  by_cases h : i < w
  · simp [h]
  · simp [h]

theorem bit_set (l : List Bool) (i j : Nat) (b : Bool) (hi : i < l.length) :
    bit (l.set i b) j = if i = j then b else bit l j := by
  unfold bit
  rw [List.getD_eq_getElem?_getD, List.getD_eq_getElem?_getD, List.getElem?_set]
  split_ifs with hij
  · rfl
  · rfl

section Words

variable {n : Nat} (l m : List Bool)

/-- The `k`-th word of a list of bits. -/
def word (n : Nat) (l : List Bool) (k : Nat) : BitVec n :=
  (BitVec.ofBoolListLE (l.drop (n * k))).setWidth n

def numWords (n len : Nat) : Nat := (len + n - 1) / n

@[simp] theorem getLsbD_word (k j : Nat) :
    (word n l k).getLsbD j = (decide (j < n) && bit l (n * k + j)) := by
  rw [word, BitVec.getLsbD_setWidth, BitVec.getLsbD_ofBoolListLE, ← bit_drop]
  rfl

variable {l m}

theorem eq_word {x : BitVec n} {k : Nat} (h : ∀ j, j < n → x.getLsbD j = bit l (n * k + j)) :
    x = word n l k := by
  apply BitVec.eq_of_getLsbD_eq
  intro j hj
  rw [getLsbD_word, h j hj, decide_eq_true hj, Bool.true_and]

theorem word_eq_zero {k : Nat} (h : l.length ≤ n * k) : word n l k = 0 := by
  refine (eq_word fun j _ => ?_).symm
  rw [bit_of_le (by omega)]
  exact BitVec.getLsbD_zero

/-- The words of `l`, at the front of `ws`. -/
def Holds (n : Nat) (ws : List (BitVec n)) (l : List Bool) : Prop :=
  ∀ k, k < numWords n l.length → ws[k]? = some (word n l k)

theorem Holds.numWords_le {ws : List (BitVec n)} (h : Holds n ws l) :
    numWords n l.length ≤ ws.length := by
  by_contra hlt
  have hget := h ws.length (by omega)
  rw [List.getElem?_eq_none (le_refl _)] at hget
  exact absurd hget (by simp)

/-! ## Words of longer lists -/

theorem word_drop (l : List Bool) (k : Nat) : word n (l.drop n) k = word n l (k + 1) := by
  refine eq_word fun j hj => ?_
  rw [getLsbD_word, decide_eq_true hj, Bool.true_and, bit_drop]
  congr 1
  rw [Nat.mul_add, Nat.mul_one]
  omega

theorem word_append_left (l m : List Bool) {k : Nat} (h : n * k + n ≤ l.length) :
    word n (l ++ m) k = word n l k := by
  refine eq_word fun j hj => ?_
  rw [getLsbD_word, decide_eq_true hj, Bool.true_and, bit_append, if_pos (by omega)]

theorem word_append_right (l m : List Bool) {k w : Nat} (h : l.length + w = n * k) (i : Nat) :
    word n (l ++ m) (k + i) = word n (m.drop w) i := by
  refine eq_word fun j hj => ?_
  have hindex : n * (k + i) + j = l.length + (w + (n * i + j)) := by
    rw [Nat.mul_add, ← h]
    omega
  rw [getLsbD_word, decide_eq_true hj, Bool.true_and, bit_append, if_neg (by omega), bit_drop, hindex,
    Nat.add_sub_cancel_left]

theorem word_append_meet (l m : List Bool) {k offset w : Nat} (h : n * k + offset = l.length)
    (hoffset : offset < n) (hw : min m.length (n - offset) ≤ w) :
    word n (l ++ m) k = word n l k ||| word n (m.take w) 0 <<< offset := by
  refine (eq_word fun j hj => ?_).symm
  rw [BitVec.getLsbD_or, BitVec.getLsbD_shiftLeft, getLsbD_word, getLsbD_word, decide_eq_true hj,
    Bool.true_and, Bool.true_and, bit_append, Nat.mul_zero, Nat.zero_add, bit_take]
  split_ifs with hlt
  · have hoff : j < offset := by omega
    simp [hoff]
  · have hoff : ¬ j < offset := by omega
    have hsub : n * k + j - l.length = j - offset := by omega
    rw [bit_of_le (by omega), Bool.false_or, hsub]
    by_cases hjw : j - offset < w
    · simp [hoff, hjw]
      omega
    · rw [bit_of_le (l := m) (i := j - offset) (by omega)]
      simp

end Words

/-! ## The bits that are set -/

section Ones

def ones (l : List Bool) : List Nat := (List.range l.length).filter (bit l)

theorem mem_ones {l : List Bool} {i : Nat} : i ∈ ones l ↔ bit l i = true := by
  unfold ones
  rw [List.mem_filter, List.mem_range]
  refine ⟨fun h => h.2, fun h => ⟨?_, h⟩⟩
  by_contra hle
  rw [bit_of_le (Nat.le_of_not_lt hle)] at h
  exact Bool.noConfusion h

theorem map_bit_range (l : List Bool) : (List.range l.length).map (bit l) = l := by
  refine List.ext_getElem (by rw [List.length_map, List.length_range]) fun i hi hi' => ?_
  rw [List.getElem_map, List.getElem_range]
  exact List.getD_eq_getElem _ _ hi'

theorem length_ones (l : List Bool) : (ones l).length = l.count true := by
  unfold ones
  conv_rhs => rw [← map_bit_range l]
  rw [← List.countP_eq_length_filter, List.count, List.countP_map]
  refine List.countP_congr fun i _ => ?_
  simp

theorem filter_range_mul (p : Nat → Bool) (n K : Nat) :
    (List.range (n * K)).filter p = (List.range K).flatMap fun k =>
      ((List.range n).filter fun j => p (n * k + j)).map (n * k + ·) := by
  induction K with
  | zero => rfl
  | succ K ih =>
    rw [Nat.mul_succ, List.range_add, List.filter_append, ih, List.range_succ, List.flatMap_append,
      List.flatMap_singleton, List.filter_map]
    rfl

theorem filter_range_of_le {p : Nat → Bool} {a b : Nat} (hle : a ≤ b)
    (hp : ∀ i, a ≤ i → p i = false) : (List.range b).filter p = (List.range a).filter p := by
  obtain ⟨d, rfl⟩ := Nat.exists_eq_add_of_le hle
  have hnone : ((List.range d).map (a + ·)).filter p = [] := by
    refine List.filter_eq_nil_iff.2 fun i hi => ?_
    obtain ⟨j, -, rfl⟩ := List.mem_map.1 hi
    rw [hp _ (Nat.le_add_right a j)]
    exact Bool.false_ne_true
  rw [List.range_add, List.filter_append, hnone, List.append_nil]

variable {n : Nat}

def onesOf (x : BitVec n) : List Nat := (List.range n).filter x.getLsbD

theorem mem_onesOf {x : BitVec n} {j : Nat} : j ∈ onesOf x ↔ j < n ∧ x.getLsbD j = true := by
  unfold onesOf
  rw [List.mem_filter, List.mem_range]

theorem onesOf_zero : onesOf (0 : BitVec n) = [] := by
  refine List.filter_eq_nil_iff.2 fun j _ => ?_
  rw [show (0 : BitVec n).getLsbD j = false from BitVec.getLsbD_zero]
  exact Bool.false_ne_true

theorem ones_eq_flatMap (hn : 0 < n) (l : List Bool) :
    ones l = (List.range (numWords n l.length)).flatMap fun k =>
      (onesOf (word n l k)).map (n * k + ·) := by
  have hle : l.length ≤ n * numWords n l.length := by
    unfold numWords
    have hmod := Nat.div_add_mod (l.length + n - 1) n
    have hlt := Nat.mod_lt (l.length + n - 1) hn
    omega
  rw [ones, ← filter_range_of_le hle fun i hi => bit_of_le hi, filter_range_mul]
  refine List.flatMap_congr fun k _ => ?_
  congr 1
  refine List.filter_congr fun j hj => ?_
  rw [getLsbD_word, decide_eq_true (List.mem_range.1 hj), Bool.true_and]

theorem cpopNatRec_eq_length (x : BitVec n) (w : Nat) :
    x.cpopNatRec w 0 = ((List.range w).filter x.getLsbD).length := by
  induction w with
  | zero => rfl
  | succ w ih =>
    rw [BitVec.cpopNatRec_succ, BitVec.cpopNatRec_eq, ih, List.range_succ, List.filter_append,
      List.length_append]
    congr 1
    cases hbit : x.getLsbD w with
    | false => simp [hbit]
    | true => simp [hbit]

theorem length_onesOf (x : BitVec n) : (onesOf x).length = x.cpop.toNat := by
  rw [BitVec.toNat_cpop, cpopNatRec_eq_length]
  rfl

theorem onesOf_eq_cons {x : BitVec n} (hx : x ≠ 0) :
    onesOf x = x.ctz.toNat :: onesOf (x ^^^ 1#n <<< x.ctz.toNat) := by
  have hset := BitVec.getLsbD_true_ctz_of_ne_zero hx
  have hlt : x.ctz.toNat < n := BitVec.lt_of_getLsbD hset
  have hlow : ∀ j, j < x.ctz.toNat → x.getLsbD j = false := fun j hj =>
    BitVec.getLsbD_false_of_lt_ctz hj
  generalize x.ctz.toNat = t at *
  have hmask : ∀ j, j < n → (1#n <<< t).getLsbD j = decide (j = t) := by
    intro j hj
    rw [BitVec.getLsbD_shiftLeft, BitVec.getLsbD_one]
    by_cases h : j = t
    · simp [h]
      omega
    · by_cases hjt : j < t
      · simp [h, hjt]
      · have hne : ¬ j - t = 0 := by omega
        simp [h, hne]
  obtain ⟨d, rfl⟩ := Nat.exists_eq_add_of_le (show t + 1 ≤ n from hlt)
  have hrange : List.range (t + 1 + d) = List.range t ++ t :: (List.range d).map (t + 1 + ·) := by
    rw [List.range_add, List.range_succ, List.append_assoc]
    rfl
  have hnone : ∀ y : BitVec (t + 1 + d), (∀ j, j < t → y.getLsbD j = false) →
      (List.range t).filter y.getLsbD = [] := by
    intro y hy
    refine List.filter_eq_nil_iff.2 fun j hj => ?_
    rw [hy j (List.mem_range.1 hj)]
    exact Bool.false_ne_true
  unfold onesOf
  rw [hrange, List.filter_append, List.filter_append, hnone x hlow, hnone _ fun j hj => ?_,
    List.nil_append, List.nil_append, List.filter_cons_of_pos hset, List.filter_cons_of_neg ?_]
  · congr 1
    refine List.filter_congr fun j hj => ?_
    obtain ⟨i, hi, rfl⟩ := List.mem_map.1 hj
    have hi' := List.mem_range.1 hi
    rw [BitVec.getLsbD_xor, hmask _ (by omega), decide_eq_false (by omega), Bool.xor_false]
  · rw [BitVec.getLsbD_xor, hmask t hlt, hset, decide_eq_true rfl]
    exact Bool.false_ne_true
  · rw [BitVec.getLsbD_xor, hmask j (by omega), hlow j hj, decide_eq_false (by omega)]
    rfl

end Ones

end SwiftKStdlib.Lib.BitWords
