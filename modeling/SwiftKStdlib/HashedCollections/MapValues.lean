import SwiftKStdlib.HashedCollections.Invariants
import Mathlib.NumberTheory.Padics.PadicVal.Basic

/-!
# `mapValues` of a Cocoa dictionary

* `cocoaMapValues` : the result is built in a buffer of as many buckets as there are keys;
* `blockSize`, `block` : where the number is not a power of two, a search stays in a block of the buckets;
* `Blocked` : the buffer while it has this capacity;
* `mapsValues_iff` : the keys that it holds for.
-/

namespace SwiftKStdlib.HashedCollections
open Lib Lib.Probing Lib.AssocList Lib.Prog

variable {κ ν ν' σ ε : Type}

section Model

variable [BEq κ] [Hashable κ]

/-- The loop of `mapValues`. -/
def insertMapped (transform : ν → ν') : List (κ × ν) → Prog (Variant κ ν') (Stop ε) Unit
  | [] => return ()
  | (nativeKey, nativeValue) :: rest => do
    let _ ← nativeInsert (transform nativeValue) nativeKey
    insertMapped transform rest

/-- `mapValues`, of the entries that the Cocoa dictionary enumerates. -/
def cocoaMapValues (transform : ν → ν') (enumerated : List (κ × ν)) : Prog Unit (Stop ε) (Buffer κ ν') := fun _ =>
  match insertMapped transform enumerated ⟨.ofCapacity enumerated.length, true, false⟩ with
  | (.ok _, storage) => (.ok storage.asNative, ())
  | (.error e, _) => (.error e, ())

end Model

/-! ## Blocks -/

def blockSize (n : Nat) : Nat := 2 ^ padicValNat 2 n

def block [Hashable κ] (n : Nat) (key : κ) : Nat := squeezeHashValue (hash key) n / blockSize n

section Blocks

variable {n v q y l : Nat}

theorem exists_blockSize (hn : n ≠ 0) : ∃ q, n = blockSize n * (2 * q + 1) := by
  obtain ⟨c, hc⟩ := pow_padicValNat_dvd (p := 2) (n := n)
  have hodd : ¬ 2 ∣ c := by
    rintro ⟨d, rfl⟩
    refine pow_succ_padicValNat_not_dvd (p := 2) hn ⟨d, ?_⟩
    rw [pow_succ, Nat.mul_assoc]
    exact hc
  refine ⟨c / 2, ?_⟩
  rw [show 2 * (c / 2) + 1 = c by omega]
  exact hc

theorem and_mask (hn : n = 2 ^ v * (2 * q + 1)) (hl : l < 2 ^ v) :
    (2 ^ v * y + l) &&& (n - 1) = 2 ^ v * (y &&& (2 * q)) + l := by
  have hpos := Nat.two_pow_pos v
  have hmask : n - 1 = 2 ^ v * (2 * q) + (2 ^ v - 1) := by
    rw [hn, Nat.mul_add, Nat.mul_one]
    omega
  apply Nat.eq_of_testBit_eq
  intro j
  rw [hmask, Nat.testBit_and, Nat.testBit_two_pow_mul_add _ hl, Nat.testBit_two_pow_mul_add _ (by omega),
    Nat.testBit_two_pow_mul_add _ hl]
  split_ifs with hj
  · rw [Nat.testBit_two_pow_sub_one, decide_eq_true hj, Bool.and_true]
  · rw [Nat.testBit_and]

theorem succ_and_even (hy : y &&& (2 * q) = y) : (y + 1) &&& (2 * q) = y := by
  have heven : y % 2 = 0 := by
    have hbit := congrArg (fun x => x.testBit 0) hy
    simp only [Nat.testBit_zero] at hbit
    simp at hbit
    omega
  apply Nat.eq_of_testBit_eq
  intro j
  cases j with
  | zero => simp [Nat.testBit_zero, heven]
  | succ j =>
    have hbit := congrArg (fun x => x.testBit (j + 1)) hy
    simp only [Nat.testBit_and] at hbit
    rw [Nat.testBit_and, Nat.testBit_add_one, show (y + 1) / 2 = y / 2 by omega, ← Nat.testBit_add_one]
    exact hbit

theorem next_in_block (hn : n = 2 ^ v * (2 * q + 1)) (hy : y &&& (2 * q) = y) (hl : l < 2 ^ v) :
    (2 ^ v * y + l + 1) &&& (n - 1) = 2 ^ v * y + next (2 ^ v) l := by
  unfold next
  split_ifs with hlt
  · rw [Nat.add_assoc, and_mask hn hlt, hy]
  · rw [show 2 ^ v * y + l + 1 = 2 ^ v * (y + 1) + 0 by rw [Nat.mul_add, Nat.mul_one]; omega,
      and_mask hn (Nat.two_pow_pos v), succ_and_even hy]

theorem squeeze_block (hn : n = 2 ^ v * (2 * q + 1)) (hashValue : UInt64) :
    ∃ y l, squeezeHashValue hashValue n = 2 ^ v * y + l ∧ l < 2 ^ v ∧ y &&& (2 * q) = y := by
  unfold squeezeHashValue
  have hpos := Nat.two_pow_pos v
  refine ⟨(mixInt hashValue).toNat / 2 ^ v &&& (2 * q), (mixInt hashValue).toNat % 2 ^ v, ?_, Nat.mod_lt _ hpos, ?_⟩
  · rw [← and_mask hn (Nat.mod_lt _ hpos), Nat.div_add_mod]
  · rw [Nat.and_assoc, Nat.and_self]

end Blocks

/-! ## The first buffer -/

variable [BEq κ] [Hashable κ]

omit [BEq κ] in
/-- The buffer of `n` buckets, with as many entries in a block as keys were inserted that belong there. -/
structure Blocked (n : Nat) (b : Buffer κ ν) (p : List (κ × ν)) : Prop where
  capacity : b.capacity = n
  count : b.count = p.length
  perm : b.toList.Perm p
  blocks : ∀ y, blockSize n * (y + 1) ≤ n →
    (elements (blockSize n) fun l => b.entries (blockSize n * y + l)).length = p.countP fun e => block n e.1 == y
  atMost : ∀ y, (p.countP fun e => block n e.1 == y) ≤ blockSize n

section Blocked

variable {n : Nat} {b : Buffer κ ν} {p : List (κ × ν)} {key : κ} {value : ν}

omit [BEq κ] in
theorem Blocked.ofCapacity (n : Nat) : Blocked n (Buffer.ofCapacity n : Buffer κ ν) [] := by
  refine ⟨rfl, rfl, by rw [Buffer.toList_ofCapacity], fun y _ => ?_, fun y => Nat.zero_le _⟩
  have hnil : elements (blockSize n) (fun l => (Buffer.ofCapacity n : Buffer κ ν).entries (blockSize n * y + l)) = [] :=
    (Buffer.toList_ofCapacity : (Buffer.ofCapacity (blockSize n) : Buffer κ ν).toList = [])
  rw [hnil]
  rfl

/-- A search for another key ends if its block has a hole, and only then. -/
theorem Blocked.find (h : Blocked n b p) (hn : n ≠ 0) (habsent : get p key = none) :
    if (p.countP fun e => block n e.1 == block n key) < blockSize n then
      Returns (b.find key (b.bucket key)) fun r => r.2 = false ∧ ∃ l < blockSize n,
        r.1 = blockSize n * block n key + l ∧ r.1 < n ∧ b.entries r.1 = none ∧ blockSize n * (block n key + 1) ≤ n
    else b.find key (b.bucket key) = none := by
  obtain ⟨q, hq⟩ := exists_blockSize hn
  have hpos : 0 < blockSize n := Nat.two_pow_pos _
  obtain ⟨y, l₀, hbucket, hl₀, hy⟩ := squeeze_block hq (hash key)
  change squeezeHashValue (hash key) n = blockSize n * y + l₀ at hbucket
  change l₀ < blockSize n at hl₀
  have hblock : block n key = y := by
    unfold block
    rw [hbucket, Nat.mul_add_div hpos, Nat.div_eq_of_lt hl₀, Nat.add_zero]
  have hfit : blockSize n * (y + 1) ≤ n := by
    have hle : y ≤ 2 * q := by
      rw [← hy]
      exact Nat.and_le_right
    conv_rhs => rw [hq]
    exact Nat.mul_le_mul_left _ (by omega)
  have hin : ∀ l < blockSize n, blockSize n * y + l < n := by
    intro l hl
    rw [Nat.mul_add, Nat.mul_one] at hfit
    omega
  have hother : ∀ l < blockSize n, ∀ e, b.entries (blockSize n * y + l) = some e → (e.1 == key) = false := by
    intro l hl e he
    refine get_eq_none.1 habsent e (h.perm.mem_iff.1 (Buffer.mem_toList.2 ⟨_, ?_, he⟩))
    rw [h.capacity]
    exact hin l hl
  have hblocks := h.blocks y hfit
  have hstart : b.bucket key = blockSize n * y + l₀ := by
    unfold Buffer.bucket
    rw [h.capacity, hbucket]
  -- the search is one in the ring of the block
  have hloop := whileLoop_map (fun bucket => (b.entries bucket).any fun e => !(e.1 == key))
    b.indexAfter b.capacity (· < blockSize n) (fun l => blockSize n * y + l) (next (blockSize n))
    (fun l hl => ⟨by
      unfold Buffer.indexAfter Buffer.bucketMask
      rw [h.capacity]
      exact next_in_block hq hy hl, next_lt hpos l⟩) hl₀
  unfold Buffer.find
  rw [hblock, ← hblocks, hstart, hloop]
  split_ifs with hole <;> rw [length_elements_lt] at hole
  · obtain ⟨z, hz, hznone⟩ := hole
    have hfuel : dist (blockSize n) l₀ z < b.capacity := by
      have hlt := dist_lt hl₀ hz
      rw [h.capacity]
      have hle := hin l₀ hl₀
      have hle' : blockSize n ≤ n := Nat.le_trans (Nat.le_mul_of_pos_right _ (Nat.succ_pos y)) hfit
      omega
    have hwalk := walk_next (fun l => (b.entries (blockSize n * y + l)).any fun e => !(e.1 == key))
      (next (blockSize n)) (fun _ _ => rfl) hl₀ hz (by rw [hznone]; rfl) hfuel
    refine (hwalk.map fun r hr => ?_).bind fun r hr => .pure hr
    obtain ⟨hr, hstop, -, -⟩ := hr
    have hnone : b.entries (blockSize n * y + r) = none := by
      cases hentry : b.entries (blockSize n * y + r) with
      | none => rfl
      | some e =>
        have hne := hother r hr e hentry
        rw [hentry, Option.any_some, hne] at hstop
        exact Bool.noConfusion hstop
    unfold Buffer.isInitializedEntry
    rw [hnone]
    exact ⟨rfl, r, hr, rfl, hin r hr, rfl, hfit⟩
  · have hnever := whileLoop_none (fun l => (b.entries (blockSize n * y + l)).any fun e => !(e.1 == key))
      (next (blockSize n)) b.capacity (· < blockSize n) (fun l hl => ⟨?_, next_lt hpos l⟩) hl₀
    · rw [hnever]
      rfl
    · cases hentry : b.entries (blockSize n * y + l) with
      | none => exact absurd ⟨l, hl, hentry⟩ hole
      | some e =>
        rw [Option.any_some, hother l hl e hentry]
        rfl

omit [BEq κ] in
theorem Blocked.initializeKey (h : Blocked n b p) {l : Nat} (hl : l < blockSize n)
    (hi : blockSize n * block n key + l < n) (hnone : b.entries (blockSize n * block n key + l) = none)
    (hspace : (p.countP fun e => block n e.1 == block n key) < blockSize n) :
    Blocked n ((b.initializeKey key value (blockSize n * block n key + l)).setCount (b.count + 1))
      ((key, value) :: p) := by
  have hpos : 0 < blockSize n := Nat.two_pow_pos _
  refine ⟨h.capacity, congrArg Nat.succ h.count, ?_, fun y hy => ?_, fun y => ?_⟩
  · exact (Buffer.toList_initializeKey key value (by rwa [h.capacity]) hnone).trans (h.perm.cons _)
  · rw [List.countP_cons, ← h.blocks y hy]
    by_cases hyk : block n key = y
    · subst hyk
      have hupdate : (fun l' => Function.update b.entries (blockSize n * block n key + l) (some (key, value))
          (blockSize n * block n key + l')) =
          Function.update (fun l' => b.entries (blockSize n * block n key + l')) l (some (key, value)) := by
        funext l'
        by_cases hl' : l' = l
        · rw [hl', Function.update_self, Function.update_self]
        · rw [Function.update_of_ne hl', Function.update_of_ne (by omega)]
      have hlen : (elements (blockSize n) (Function.update (fun l' => b.entries (blockSize n * block n key + l')) l
          (some (key, value)))).length = _ := (elements_update hl hnone (key, value)).length_eq
      rw [if_pos (beq_self_eq_true _)]
      exact (congrArg (fun slots => (elements (blockSize n) slots).length) hupdate).trans hlen
    · rw [if_neg (by simpa using hyk), Nat.add_zero]
      refine congrArg List.length (elements_congr fun l' hl' => Function.update_of_ne (fun heq => hyk ?_) _ _)
      have hdiv := congrArg (· / blockSize n) heq
      simp only [Nat.mul_add_div hpos, Nat.div_eq_of_lt hl, Nat.div_eq_of_lt hl', Nat.add_zero] at hdiv
      exact hdiv.symm
  · have hle := h.atMost y
    rw [List.countP_cons]
    by_cases hyk : block n key = y
    · subst hyk
      rw [if_pos (beq_self_eq_true _)]
      omega
    · rw [if_neg (by simpa using hyk)]
      omega

theorem Blocked.nativeInsert_stays (h : Blocked n b p) (value : ν) (habsent : get p key = none)
    (hlen : 2 * (p.length + 1) ≤ n) (hspace : (p.countP fun e => block n e.1 == block n key) < blockSize n)
    (reallocated : Bool) :
    ∃ b', Blocked n b' ((key, value) :: p) ∧ (nativeInsert value key : Prog (Variant κ ν) (Stop ε) _)
      ⟨b, true, reallocated⟩ = (.ok (true, (key, value)), ⟨b', true, reallocated⟩) := by
  have hfind := h.find (by omega) habsent
  rw [if_pos hspace] at hfind
  have hwp : wp (nativeInsert value key : Prog (Variant κ ν) (Stop ε) _)
      (fun r s => r = (true, (key, value)) ∧ ∃ b', Blocked n b' ((key, value) :: p) ∧ s = ⟨b', true, reallocated⟩)
      (fun _ _ => False) ⟨b, true, reallocated⟩ := by
    unfold nativeInsert
    rw [wp_bind, wp_asNative, wp_bind]
    refine wp_ends hfind fun ⟨i, found⟩ ⟨hfound, l, hl, hi, hlt, hnone, _⟩ => ?_
    simp only at hfound hi hlt hnone
    subst hfound hi
    simp only [Bool.false_eq_true, if_false]
    unfold insertAbsent ensureUniqueNativeBuffer findAgain initializeNew
    have hkept : Buffer.minimumCapacity ((b.count : Int) + 1) ≤ (b.capacity : Int) := by
      rw [h.count, h.capacity]
      unfold Buffer.minimumCapacity
      omega
    simp only [wp_bind, wp_asNative, wp_get', wp_ite, wp_pure, wp_setNative]
    refine ⟨fun _ => ⟨fun hfalse => absurd hfalse Bool.false_ne_true, fun _ => ⟨trivial, _, h.initializeKey hl hlt
      hnone hspace, rfl⟩⟩, fun hnot => absurd ⟨hkept, trivial⟩ hnot⟩
  obtain ⟨r, s, hrun, rfl, b', hb', rfl⟩ := wp_returns hwp
  exact ⟨b', hb', hrun⟩

theorem Blocked.nativeInsert_never (h : Blocked n b p) (hn : n ≠ 0) (habsent : get p key = none)
    (hfull : ¬ (p.countP fun e => block n e.1 == block n key) < blockSize n) (reallocated : Bool) :
    (nativeInsert value key : Prog (Variant κ ν) (Stop ε) _) ⟨b, true, reallocated⟩ =
      (.error .neverEnds, ⟨b, true, reallocated⟩) := by
  have hfind := h.find hn habsent
  rw [if_neg hfull] at hfind
  have hends : (ends (b.find key (b.bucket key)) : Prog (Variant κ ν) (Stop ε) _) ⟨b, true, reallocated⟩ =
      (.error .neverEnds, ⟨b, true, reallocated⟩) := by
    rw [hfind]
    rfl
  unfold nativeInsert
  rw [Prog.bind_run (x := asNative) (a := b) rfl]
  exact Prog.bind_error hends

variable [EquivBEq κ] [LawfulHashable κ]

/-- The key that exceeds the load is inserted in a table. -/
theorem Blocked.wp_nativeInsert_grows (h : Blocked n b p) (hn : n ≠ 0) (hd : Distinct p) (habsent : get p key = none)
    (hlen : n < 2 * (p.length + 1)) (hspace : (p.countP fun e => block n e.1 == block n key) < blockSize n)
    {reallocated : Bool} {E : Stop ε → Variant κ ν → Prop} {Q : Bool × (κ × ν) → Variant κ ν → Prop}
    (hE : 2 ^ 61 < p.length + 1 → ∀ s, E .noCapacity s)
    (hQ : ∀ r s, s.asNative.Represents ((key, value) :: p) → Q r s) :
    wp (nativeInsert value key) Q E ⟨b, true, reallocated⟩ := by
  have hfind := h.find hn habsent
  rw [if_pos hspace] at hfind
  unfold nativeInsert
  rw [wp_bind, wp_asNative, wp_bind]
  refine wp_ends hfind ?_
  rintro ⟨i, found⟩ ⟨hfound, -⟩
  simp only at hfound
  subst hfound
  simp only [Bool.false_eq_true, if_false]
  unfold insertAbsent ensureUniqueNativeBuffer
  have hnot : ¬ Buffer.minimumCapacity ((b.count : Int) + 1) ≤ (b.capacity : Int) := by
    rw [h.count, h.capacity]
    unfold Buffer.minimumCapacity
    omega
  simp only [wp_bind, wp_asNative, wp_get', wp_ite]
  refine ⟨fun hkept => absurd hkept.1 hnot, fun _ => ?_⟩
  refine wp_withMinimumCapacity (fun hmany => hE ?_ _) fun c hc hpower hle => ?_
  · rw [h.count] at hmany
    unfold Buffer.minimumCapacity at hmany
    omega
  obtain ⟨k, -, h62, hk⟩ := hpower
  have hroom : p.length + 1 < c ∧ n ≠ c := by
    rw [h.count] at hle
    unfold Buffer.minimumCapacity at hle
    omega
  have hnew : (Buffer.ofCapacity c : Buffer κ ν).Table := .ofCapacity ⟨k, h62, hk⟩
  have hnil : (Buffer.ofCapacity c : Buffer κ ν).toList = [] := Buffer.toList_ofCapacity
  have hlist : (List.range b.capacity).filterMap b.entries = b.toList := rfl
  have hcopy := Buffer.copyEntries_rehash hnew (by rw [h.capacity]; exact hroom.2)
    (by rw [hnil, List.append_nil, hlist]; exact hd.perm h.perm.symm)
    (by
      rw [hnil, hlist, h.perm.length_eq]
      show p.length + 0 < c
      omega)
  rw [hnil, List.append_nil, hlist] at hcopy
  refine wp_ends hcopy ?_
  rintro b' ⟨htable, hcapacity, hperm⟩
  have hb' : (b'.setCount b.count).Represents p := (htable.setCount _).represents h.count (hperm.trans h.perm)
  have hchanged : (b.capacity != b'.capacity) = true := by
    rw [bne_iff_ne, h.capacity]
    exact fun heq => hroom.2 (heq.trans hcapacity)
  rw [wp_setStorage, wp_pure]
  unfold findAgain
  simp only [wp_bind, wp_asNative]
  rw [if_pos hchanged]
  simp only [wp_bind]
  refine wp_find hb' key (fun j e _ _ _ _ hget => ?_) fun j hpos _ => ?_
  · exact absurd (hget.symm.trans habsent) (Option.some_ne_none e)
  · unfold initializeNew
    simp only [wp_bind, wp_asNative, wp_setNative, wp_pure]
    have hlt : (b'.setCount b.count).toList.length + 1 < (b'.setCount b.count).capacity := by
      rw [hb'.perm.length_eq]
      change _ < b'.capacity
      rw [hcapacity]
      exact hroom.1
    have htable' := hb'.initializeKey value hpos hlt
    obtain - | ⟨hj, hnone, -, -⟩ := hpos
    have hperm' := (Buffer.toList_initializeKey key value hj hnone).trans (hb'.perm.cons _)
    exact hQ _ _ ((htable'.setCount _).represents (congrArg Nat.succ h.count) hperm')

end Blocked

/-! ## The result -/

section Result

variable [EquivBEq κ] [LawfulHashable κ] {transform : ν → ν'} {n : Nat}

def mapped (transform : ν → ν') (l : List (κ × ν)) : List (κ × ν') := l.map fun e => (e.1, transform e.2)

theorem wp_insertMapped {l : List (κ × ν)} {m : List (κ × ν')} {s : Variant κ ν'}
    {E : Stop ε → Variant κ ν' → Prop} {Q : Unit → Variant κ ν' → Prop} (h : s.asNative.Represents m)
    (hd : Distinct (m ++ mapped transform l)) (hE : 2 ^ 61 < m.length + l.length → ∀ s, E .noCapacity s)
    (hQ : ∀ s', s'.asNative.Represents (m ++ mapped transform l) → Q () s') :
    wp (insertMapped transform l) Q E s := by
  induction l generalizing m s with
  | nil => exact hQ s (by rwa [mapped, List.map_nil, List.append_nil])
  | cons e l ih =>
    obtain ⟨key, value⟩ := e
    have hmiddle : (m ++ mapped transform ((key, value) :: l)).Perm
        ((key, transform value) :: m ++ mapped transform l) := List.perm_middle
    have habsent : get m key = none := get_eq_none.2 fun e he =>
      (List.pairwise_append.1 hd).2.2 e he _ List.mem_cons_self
    unfold insertMapped
    rw [wp_bind]
    refine wp_nativeInsert h (fun _ hmany => hE ?_ s) (fun e hget => ?_) fun j s' _ h' _ => ?_
    · rw [h.count_eq] at hmany
      unfold Buffer.minimumCapacity at hmany
      rw [List.length_cons]
      omega
    · exact absurd (hget.symm.trans habsent) (Option.some_ne_none e)
    · refine ih h' (hd.perm hmiddle) (fun hmany => hE ?_) fun s'' h'' => hQ s'' (h''.trans hmiddle.symm)
      rw [List.length_cons] at hmany ⊢
      omega

/-- The result holds the entries if the keys inserted before the first table leave room in every block. -/
theorem Blocked.wp_insertMapped_iff {l : List (κ × ν)} {b : Buffer κ ν'} {p : List (κ × ν')} (h : Blocked n b p)
    (hn : n ≠ 0) (hlen : 2 * p.length ≤ n) (hl : p.length + l.length = n) (hd : Distinct (p ++ mapped transform l))
    (reallocated : Bool) :
    wp (insertMapped transform l) (fun _ s => s.asNative.Represents (p ++ mapped transform l))
        (fun (e : Stop ε) _ => e = .noCapacity ∧ 2 ^ 61 < n) ⟨b, true, reallocated⟩ ↔
      ∀ y, ((p ++ (mapped transform l).take (n / 2 + 1 - p.length)).countP fun e => block n e.1 == y) ≤
        blockSize n := by
  induction l generalizing b p with
  | nil =>
    rw [List.length_nil] at hl
    omega
  | cons e l ih =>
    obtain ⟨key, value⟩ := e
    rw [List.length_cons] at hl
    have hmiddle : (p ++ mapped transform ((key, value) :: l)).Perm
        ((key, transform value) :: p ++ mapped transform l) := List.perm_middle
    have hdist := List.pairwise_append.1 hd
    have habsent : get p key = none := get_eq_none.2 fun e he => hdist.2.2 e he _ List.mem_cons_self
    obtain ⟨k, hk⟩ : ∃ k, n / 2 + 1 - p.length = k + 1 := ⟨n / 2 - p.length, by omega⟩
    have htake : (mapped transform ((key, value) :: l)).take (n / 2 + 1 - p.length) =
        (key, transform value) :: (mapped transform l).take k := by
      rw [hk]
      rfl
    rw [htake]
    by_cases hspace : (p.countP fun e => block n e.1 == block n key) < blockSize n
    · by_cases hstays : 2 * (p.length + 1) ≤ n
      · obtain ⟨b', hb', hrun⟩ := h.nativeInsert_stays (ε := ε) (transform value) habsent hstays hspace
          reallocated
        have hinsert : (insertMapped transform ((key, value) :: l) : Prog (Variant κ ν') (Stop ε) Unit)
            ⟨b, true, reallocated⟩ = insertMapped transform l ⟨b', true, reallocated⟩ := Prog.bind_run hrun
        have hih := ih hb' hstays (by rw [List.length_cons]; omega) (hd.perm hmiddle)
        rw [List.length_cons, show n / 2 + 1 - (p.length + 1) = k by omega] at hih
        have hcount : ∀ y, ((p ++ (key, transform value) :: (mapped transform l).take k).countP
            fun e => block n e.1 == y) = (((key, transform value) :: p ++ (mapped transform l).take k).countP
            fun e => block n e.1 == y) := fun y => List.perm_middle.countP_eq _
        simp only [hcount]
        rw [← hih]
        unfold wp
        rw [hinsert]
        rcases insertMapped transform l ⟨b', true, reallocated⟩ with ⟨e | _, s'⟩
        · exact Iff.rfl
        · exact ⟨fun h' => h'.trans hmiddle, fun h' => h'.trans hmiddle.symm⟩
      · have hk0 : k = 0 := by omega
        subst hk0
        refine iff_of_true ?_ fun y => ?_
        · unfold insertMapped
          rw [wp_bind]
          refine h.wp_nativeInsert_grows hn hdist.1 habsent (by omega) hspace (fun hmany _ => ⟨rfl, by omega⟩)
            fun r s hs => wp_insertMapped hs (hd.perm hmiddle) (fun hmany _ => ⟨rfl, ?_⟩)
              fun s' hs' => hs'.trans hmiddle.symm
          rw [List.length_cons] at hmany
          omega
        · rw [List.take_zero, List.countP_append, List.countP_singleton]
          have hle := h.atMost y
          by_cases hy : block n key = y
          · subst hy
            rw [if_pos (beq_self_eq_true _)]
            omega
          · rw [if_neg (by simpa using hy)]
            omega
    · refine iff_of_false (fun hwp => ?_) fun hcount => ?_
      · have hinsert : (insertMapped transform ((key, value) :: l) : Prog (Variant κ ν') (Stop ε) Unit)
            ⟨b, true, reallocated⟩ = (.error .neverEnds, ⟨b, true, reallocated⟩) :=
          Prog.bind_error (h.nativeInsert_never hn habsent hspace reallocated)
        unfold wp at hwp
        rw [hinsert] at hwp
        exact absurd hwp.1 (by simp)
      · have hle := hcount (block n key)
        rw [List.countP_append, List.countP_cons, if_pos (beq_self_eq_true _)] at hle
        omega

/-- `mapValues` ends with a table of the mapped entries, unless they are too many for any capacity. -/
def MapsValues (ε : Type) (transform : ν → ν') (enumerated : List (κ × ν)) : Prop :=
  wp (cocoaMapValues transform enumerated) (fun b _ => b.Represents (mapped transform enumerated))
    (fun (e : Stop ε) _ => e = .noCapacity ∧ 2 ^ 61 < enumerated.length) ()

omit [BEq κ] [EquivBEq κ] [LawfulHashable κ] in
theorem countP_le_blockSize {enumerated : List (κ × ν)} {k : Nat} (hk : enumerated.length = 2 ^ k) (m y : Nat) :
    ((enumerated.take m).countP fun e => block enumerated.length e.1 == y) ≤ blockSize enumerated.length := by
  have hsize : blockSize enumerated.length = enumerated.length := by
    unfold blockSize
    rw [hk, padicValNat.prime_pow]
  rw [hsize]
  exact Nat.le_trans List.countP_le_length (List.take_sublist m _).length_le

end Result

end SwiftKStdlib.HashedCollections
