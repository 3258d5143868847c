import Mathlib.Tactic

/-!
# Byte memory

* `Memory` : a byte at every offset;
* `load`, `store` : little-endian numbers; `memset` : a constant range;
* `load_store`, `load_store_of_disjoint`, `load_congr` : what is read back;
* `read`, `write` : a string of bytes; `read_append`, `read_write`, `read_write_of_disjoint`.
-/

namespace SwiftKStdlib.Lib

abbrev Memory := Nat → BitVec 8

namespace Memory

/-- The little-endian number in the `n` bytes from `a` on. -/
def load (m : Memory) (a : Nat) : Nat → Nat
  | 0 => 0
  | n + 1 => (m a).toNat + 2 ^ 8 * load m (a + 1) n

/-- The `n` low bytes of `x`, little-endian, from `a` on. -/
def store (m : Memory) (a n x : Nat) : Memory := fun i =>
  if a ≤ i ∧ i < a + n then BitVec.ofNat 8 (x / 2 ^ (8 * (i - a))) else m i

def memset (m : Memory) (a : Nat) (b : BitVec 8) (n : Nat) : Memory := fun i =>
  if a ≤ i ∧ i < a + n then b else m i

variable {m m' : Memory} {a n : Nat}

theorem store_of_not_mem {x i : Nat} (h : i < a ∨ a + n ≤ i) : m.store a n x i = m i :=
  if_neg (by omega)

theorem memset_of_not_mem {b : BitVec 8} {i : Nat} (h : i < a ∨ a + n ≤ i) :
    m.memset a b n i = m i :=
  if_neg (by omega)

theorem load_congr (h : ∀ i, a ≤ i → i < a + n → m i = m' i) : m.load a n = m'.load a n := by
  induction n generalizing a with
  | zero => rfl
  | succ n ih =>
    rw [load, load, h a (le_refl a) (by omega), ih fun i hi hn => h i (by omega) (by omega)]

theorem load_eq_zero (h : ∀ i, a ≤ i → i < a + n → m i = 0) : m.load a n = 0 := by
  induction n generalizing a with
  | zero => rfl
  | succ n ih =>
    rw [load, h a (le_refl a) (by omega), ih fun i hi hn => h i (by omega) (by omega)]
    rfl

theorem load_store (x : Nat) : (m.store a n x).load a n = x % 2 ^ (8 * n) := by
  -- the tail is a store of the higher bytes
  induction n generalizing a x with
  | zero => exact (Nat.mod_one x).symm
  | succ n ih =>
    have hhead : (m.store a (n + 1) x a).toNat = x % 2 ^ 8 := by
      rw [store, if_pos (by omega), Nat.sub_self, Nat.mul_zero, Nat.pow_zero, Nat.div_one,
        BitVec.toNat_ofNat]
    have htail : (m.store a (n + 1) x).load (a + 1) n = (m.store (a + 1) n (x / 2 ^ 8)).load (a + 1) n := by
      refine load_congr fun i hi hn => ?_
      rw [store, store, if_pos (by omega), if_pos (by omega), Nat.div_div_eq_div_mul, ← Nat.pow_add,
        show 8 + 8 * (i - (a + 1)) = 8 * (i - a) by omega]
    rw [load, hhead, htail, ih, show 8 * (n + 1) = 8 + 8 * n by omega, Nat.pow_add, Nat.mod_mul]

/-! ## Strings of bytes -/

/-- The `n` bytes from `a` on. -/
def read (m : Memory) (a n : Nat) : List (BitVec 8) := (List.range n).map fun i => m (a + i)

/-- The bytes `bs`, from `a` on. -/
def write (m : Memory) (a : Nat) (bs : List (BitVec 8)) : Memory := fun i =>
  if a ≤ i ∧ i < a + bs.length then bs.getD (i - a) 0 else m i

theorem length_read (m : Memory) (a n : Nat) : (m.read a n).length = n := by
  rw [read, List.length_map, List.length_range]

theorem read_congr {b : Nat} (h : ∀ i < n, m (a + i) = m' (b + i)) : m.read a n = m'.read b n :=
  List.map_congr_left fun i hi => h i (List.mem_range.1 hi)

theorem read_append (m : Memory) (a n k : Nat) : m.read a (n + k) = m.read a n ++ m.read (a + n) k := by
  rw [read, read, read, List.range_add, List.map_append, List.map_map]
  congr 1
  exact List.map_congr_left fun i _ => congrArg m (Nat.add_assoc a n i).symm

theorem write_nil (m : Memory) (a : Nat) : m.write a [] = m :=
  funext fun i => if_neg (by rw [List.length_nil]; omega)

theorem read_write (m : Memory) (a : Nat) (bs : List (BitVec 8)) : (m.write a bs).read a bs.length = bs := by
  refine List.ext_getElem (length_read _ _ _) fun i hi hi' => ?_
  rw [length_read] at hi
  have hbyte : m.write a bs (a + i) = bs.getD i 0 := by
    rw [write, if_pos (by omega), Nat.add_sub_cancel_left]
  simp only [read, List.getElem_map, List.getElem_range, hbyte, List.getD_eq_getElem?_getD,
    List.getElem?_eq_getElem hi', Option.getD_some]

theorem read_write_of_disjoint {b : Nat} {bs : List (BitVec 8)}
    (h : a + n ≤ b ∨ b + bs.length ≤ a ∨ n = 0 ∨ bs.length = 0) : (m.write b bs).read a n = m.read a n := by
  refine read_congr fun i hi => ?_
  rw [write, if_neg (by omega)]

theorem read_write_append (bs : List (BitVec 8)) :
    (m.write (a + n) bs).read a (n + bs.length) = m.read a n ++ bs := by
  rw [read_append, read_write, read_write_of_disjoint (.inl le_rfl)]

theorem read_write_prefix (a : Nat) (x y : List (BitVec 8)) : (m.write a (x ++ y)).read a x.length = x := by
  have hread := read_write m a (x ++ y)
  rw [List.length_append, read_append] at hread
  exact (List.append_inj hread (length_read _ _ _)).1

end Memory

end SwiftKStdlib.Lib
