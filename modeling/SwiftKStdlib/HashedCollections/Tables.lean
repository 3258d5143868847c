import SwiftKStdlib.HashedCollections.NativeBuffer
import SwiftKStdlib.Lib.AssocList
import Mathlib.Data.Nat.Bitwise

/-!
# The tables of native buffers

* `Buffer.toList` : the entries, in the order of their buckets;
* `Buffer.Table` : a power of two of buckets with a hole, distinct keys, no hole before an entry;
* `Buffer.Position`, `Table.find` : what a search finds;
* `Table.initializeKey`, `Table.setKey`, `Table.nativeDelete` : the changes;
* `Table.copyEntries` : both ways of copying;
* `Table.iterated` : iteration goes over the entries.
-/

namespace SwiftKStdlib.HashedCollections
open Lib Lib.Probing Lib.AssocList

namespace Buffer

variable {κ ν : Type}

/-! ## The ring -/

section Ring

variable {b : Buffer κ ν} {k i : Nat}

theorem indexAfter_eq (hk : b.capacity = 2 ^ k) (hi : i < b.capacity) : b.indexAfter i = next b.capacity i := by
  unfold indexAfter bucketMask next
  rw [hk, Nat.and_two_pow_sub_one_eq_mod]
  rw [hk] at hi
  split_ifs with hlt
  · exact Nat.mod_eq_of_lt hlt
  · rw [show i + 1 = 2 ^ k by omega, Nat.mod_self]

theorem prev_eq (hk : b.capacity = 2 ^ k) (hle : k ≤ 62) (hi : i < b.capacity) :
    b.prev i = Probing.prev b.capacity i := by
  have hpow : 2 ^ k ∣ 2 ^ 64 := Nat.pow_dvd_pow 2 (by omega)
  unfold Buffer.prev bucketMask Probing.prev
  rw [hk, Nat.and_two_pow_sub_one_eq_mod, Nat.mod_mod_of_dvd _ hpow]
  rw [hk] at hi
  obtain ⟨q, hq⟩ := hpow
  have hq0 : 0 < q := by
    rcases Nat.eq_zero_or_pos q with h | h
    · rw [h] at hq
      omega
    · exact h
  obtain ⟨q', rfl⟩ : ∃ q', q = q' + 1 := ⟨q - 1, by omega⟩
  have hexp : i + (2 ^ 64 - 1) = (i + (2 ^ k - 1)) + 2 ^ k * q' := by
    rw [hq, Nat.mul_succ]
    omega
  rw [hexp, Nat.add_mul_mod_self_left]
  split_ifs with hzero
  · rw [hzero, Nat.zero_add, Nat.mod_eq_of_lt (by omega)]
  · rw [show i + (2 ^ k - 1) = (i - 1) + 2 ^ k by omega, Nat.add_mod_right, Nat.mod_eq_of_lt (by omega)]

theorem squeezeHashValue_lt (hashValue : UInt64) {n : Nat} (hn : 0 < n) : squeezeHashValue hashValue n < n :=
  Nat.lt_of_le_of_lt Nat.and_le_right (by omega)

variable [Hashable κ]

theorem bucket_lt (hk : b.capacity = 2 ^ k) (key : κ) : b.bucket key < b.capacity :=
  squeezeHashValue_lt _ (by rw [hk]; exact Nat.two_pow_pos k)

theorem bucket_congr [BEq κ] [LawfulHashable κ] {key key' : κ} (h : (key == key') = true) :
    b.bucket key = b.bucket key' := by
  unfold bucket
  rw [hash_eq h]

end Ring

/-! ## Tables -/

def toList (b : Buffer κ ν) : List (κ × ν) := elements b.capacity b.entries

variable [BEq κ] [Hashable κ]

/-- What probing relies on. -/
structure Table (b : Buffer κ ν) : Prop where
  capacity : ∃ k ≤ 62, b.capacity = 2 ^ k
  hole : ∃ i < b.capacity, b.entries i = none
  distinct : Distinct b.toList
  probed : Probed b.capacity (fun e => b.bucket e.1) b.entries

/-- What a search finds: an entry of the key, or the first hole where there is none. -/
inductive Position (b : Buffer κ ν) (key : κ) : Nat × Bool → Prop
  | found {i : Nat} {e : κ × ν} (lt : i < b.capacity) (entry : b.entries i = some e) (beq : (e.1 == key) = true) :
      Position b key (i, true)
  | absent {i : Nat} (lt : i < b.capacity) (hole : b.entries i = none)
      (first : ∀ c < b.capacity, dist b.capacity (b.bucket key) c < dist b.capacity (b.bucket key) i →
        b.entries c ≠ none)
      (absent : ∀ e ∈ b.toList, (e.1 == key) = false) : Position b key (i, false)

section Table

variable {b : Buffer κ ν} {key : κ} {value : ν} {i : Nat} {e : κ × ν}

omit [BEq κ] [Hashable κ] in
theorem mem_toList : e ∈ b.toList ↔ ∃ i < b.capacity, b.entries i = some e := mem_elements

omit [BEq κ] [Hashable κ] in
theorem length_toList_lt : b.toList.length < b.capacity ↔ ∃ i < b.capacity, b.entries i = none := length_elements_lt

theorem Table.length_lt (h : b.Table) : b.toList.length < b.capacity := length_toList_lt.2 h.hole

theorem Table.bucket_lt (h : b.Table) (key : κ) : b.bucket key < b.capacity := by
  obtain ⟨k, -, hk⟩ := h.capacity
  exact Buffer.bucket_lt hk key

theorem Table.indexAfter (h : b.Table) (hi : i < b.capacity) : b.indexAfter i = next b.capacity i := by
  obtain ⟨k, -, hk⟩ := h.capacity
  exact indexAfter_eq hk hi

variable [EquivBEq κ] [LawfulHashable κ]

omit [EquivBEq κ] in
theorem Table.find (h : b.Table) (key : κ) : Returns (b.find key (b.bucket key)) (b.Position key) := by
  obtain ⟨z, hz, hznone⟩ := h.hole
  have hb := h.bucket_lt key
  have hwalk := walk_next (fun bucket => (b.entries bucket).any fun e => !(e.1 == key)) b.indexAfter
    (fun i hi => h.indexAfter hi) hb hz (by rw [hznone]; rfl) (dist_lt hb hz)
  refine hwalk.bind fun r ⟨hr, hstop, _, hbefore⟩ => .pure ?_
  unfold isInitializedEntry
  cases hentry : b.entries r with
  | some e =>
    rw [hentry, Option.any_some, Bool.not_eq_false'] at hstop
    exact .found hr hentry hstop
  | none =>
    have hfull : ∀ c < b.capacity, dist b.capacity (b.bucket key) c < dist b.capacity (b.bucket key) r →
        ∃ e, b.entries c = some e ∧ (e.1 == key) = false := by
      intro c hc hlt
      obtain ⟨e, he, hne⟩ := (Option.any_eq_true _ _).1 (hbefore c hc hlt)
      exact ⟨e, he, by simpa using hne⟩
    refine .absent hr hentry (fun c hc hlt => ?_) fun e he => ?_
    · obtain ⟨e, he, -⟩ := hfull c hc hlt
      rw [he]
      exact Option.some_ne_none e
    · obtain ⟨j, hj, hje⟩ := mem_toList.1 he
      apply Bool.eq_false_iff.2
      intro hbeq
      -- its bucket is neither before the hole nor behind it
      by_cases hlt : dist b.capacity (b.bucket key) j < dist b.capacity (b.bucket key) r
      · obtain ⟨e', he', hne⟩ := hfull j hj hlt
        rw [hje, Option.some.injEq] at he'
        subst he'
        exact Bool.false_ne_true (hne.symm.trans hbeq)
      · have hjr : dist b.capacity (b.bucket key) r ≠ dist b.capacity (b.bucket key) j := by
          intro heq
          rw [dist_inj hb hr hj heq, hje] at hentry
          exact Option.some_ne_none e hentry
        rw [← bucket_congr hbeq] at hlt hjr
        have hway : dist b.capacity (b.bucket e.1) r < dist b.capacity (b.bucket e.1) j := by omega
        exact h.probed j hj e hje r hr hway hentry

omit [BEq κ] [Hashable κ] [EquivBEq κ] [LawfulHashable κ] in
theorem toList_initializeKey (key : κ) (value : ν) (hi : i < b.capacity) (hnone : b.entries i = none) :
    (b.initializeKey key value i).toList.Perm ((key, value) :: b.toList) := elements_update hi hnone (key, value)

omit [LawfulHashable κ] in
theorem Table.initializeKey (h : b.Table) (value : ν) (hpos : b.Position key (i, false))
    (hroom : b.toList.length + 1 < b.capacity) : (b.initializeKey key value i).Table := by
  obtain - | ⟨hi, hnone, hfirst, habsent⟩ := hpos
  have hperm := toList_initializeKey key value hi hnone
  refine ⟨h.capacity, ?_, ?_, h.probed.insert hfirst⟩
  · apply length_toList_lt.1
    rw [hperm.length_eq]
    exact hroom
  · refine Distinct.perm (List.pairwise_cons.2 ⟨fun e he => ?_, h.distinct⟩) hperm.symm
    rw [BEq.comm]
    exact habsent e he

omit [Hashable κ] [LawfulHashable κ] in
theorem toList_setKey (value : ν) (hd : Distinct b.toList) (hi : i < b.capacity) (he : b.entries i = some e)
    (hk : (e.1 == key) = true) : (b.setKey key value i).toList.Perm (put b.toList key value) := by
  have herase := elements_erase hi he
  have hupdate := elements_update hi (Function.update_self i none b.entries) (key, value)
  rw [Function.update_idem] at hupdate
  have hrest := perm_erase key herase
  rw [Distinct.erase_cons (Distinct.perm hd herase) hk] at hrest
  exact hupdate.trans (hrest.symm.cons _)

theorem Table.setKey (h : b.Table) (hi : i < b.capacity) (he : b.entries i = some e) (hk : (e.1 == key) = true) :
    (b.setKey key value i).Table := by
  refine ⟨h.capacity, ?_, ?_, ?_⟩
  · obtain ⟨z, hz, hznone⟩ := h.hole
    refine ⟨z, hz, ?_⟩
    have hzi : z ≠ i := by
      rintro rfl
      exact Option.some_ne_none e (he.symm.trans hznone)
    exact (Function.update_of_ne hzi _ _).trans hznone
  · exact h.distinct.put.perm (toList_setKey value h.distinct hi he hk).symm
  · exact h.probed.replace he (bucket_congr (BEq.symm hk))

/-! ### Deletion -/

omit [BEq κ] [EquivBEq κ] [LawfulHashable κ] in
theorem belongs_iff {start hole : Nat} (hstart : start < b.capacity) (hhole : hole < b.capacity) :
    b.belongs start hole i = true ↔ ∃ e, b.entries i = some e ∧
      (b.bucket e.1 < b.capacity → dist b.capacity start (b.bucket e.1) ≤ dist b.capacity start hole) := by
  unfold belongs
  rw [Option.any_eq_true]
  refine exists_congr fun e => and_congr_right fun _ => ?_
  have hlt : b.bucket e.1 < b.capacity := squeezeHashValue_lt _ (by omega)
  rw [← between_iff hstart hhole hlt]
  split_ifs <;> simp [hlt]

omit [LawfulHashable κ] [EquivBEq κ] [BEq κ] in
/-- The entries of the chain that belong before the hole are moved into it, from the last one on. -/
theorem relocate_spec {start last : Nat} {fuel hole : Nat} (hcap : ∃ k ≤ 62, b.capacity = 2 ^ k)
    (hchain : Chain b.capacity b.entries start hole last)
    (hexcept : ProbedExcept b.capacity (fun e => b.bucket e.1) b.entries hole)
    (hfuel : dist b.capacity start last - dist b.capacity start hole < fuel) :
    Returns (b.relocate start last fuel hole) fun b' => b'.capacity = b.capacity ∧ b'.count = b.count ∧
      b'.toList.Perm b.toList ∧ Probed b'.capacity (fun e => b'.bucket e.1) b'.entries := by
  induction fuel generalizing b hole with
  | zero => exact absurd hfuel (Nat.not_lt_zero _)
  | succ fuel ih =>
    obtain ⟨k, hk62, hk⟩ := hcap
    have hhome : ∀ i < b.capacity, ∀ e, b.entries i = some e → b.bucket e.1 < b.capacity :=
      fun _ _ e _ => Buffer.bucket_lt hk e.1
    have hstart := hchain.start_lt
    have hhole := hchain.hole_lt
    have hlast := hchain.last_lt
    unfold relocate
    refine .ite (fun heq => .pure ⟨rfl, rfl, .refl _, ?_⟩) fun hne => ?_
    · subst heq
      exact hchain.probed hexcept hhome fun c hc hlt hle => absurd hlt (Nat.not_lt_of_le hle)
    · have hwalk := walk_prev (fun bucket => bucket != hole && !b.belongs start hole bucket) b.prev
        (fun i hi => prev_eq hk hk62 hi) hlast hhole (by simp) (dist_lt hhole hlast)
      refine hwalk.bind fun r ⟨hr, hstop, hle, hpassed⟩ => ?_
      by_cases hrh : r = hole
      · rw [if_pos hrh]
        subst hrh
        refine .pure ⟨rfl, rfl, .refl _, hchain.probed hexcept hhome fun c hc hlt hcl e he hbelongs => ?_⟩
        have hcall := hpassed c hc (by
          rw [dist_rotate hstart hc hlast, dist_rotate hstart hr hlast]
          have hlast_lt := dist_lt hstart hlast
          generalize dist b.capacity start c = x at *
          generalize dist b.capacity start r = y at *
          generalize dist b.capacity start last = z at *
          unfold Probing.dist
          split_ifs <;> omega)
        have hb := (belongs_iff hstart hhole).2 ⟨e, he, fun _ => hbelongs⟩
        rw [hb] at hcall
        simp at hcall
      · rw [if_neg hrh]
        have hbelongs : b.belongs start hole r = true := by simpa [hrh] using hstop
        obtain ⟨e, he, hplace⟩ := (belongs_iff hstart hhole).1 hbelongs
        have hhe := hhome r hr e he
        have hrh' : dist b.capacity start r ≠ dist b.capacity start hole :=
          fun heq => hrh (dist_inj hstart hr hhole heq)
        have hbetween : dist b.capacity start hole < dist b.capacity start r ∧
            dist b.capacity start r ≤ dist b.capacity start last := by
          have hhole_le := hchain.hole_le
          have hlast_lt := dist_lt hstart hlast
          have hr_lt := dist_lt hstart hr
          rw [dist_rotate hstart hr hlast, dist_rotate hstart hhole hlast] at hle
          generalize dist b.capacity start r = x at *
          generalize dist b.capacity start hole = y at *
          generalize dist b.capacity start last = z at *
          unfold Probing.dist at hle
          split_ifs at hle <;> omega
        obtain ⟨hchain', hexcept', hperm⟩ := hchain.move hexcept hr he hhe hbetween.1 hbetween.2 (hplace hhe)
        have hmoved : b.moveInitializeEntry r hole =
            { b with entries := Function.update (Function.update b.entries hole (some e)) r none } := by
          unfold moveInitializeEntry
          rw [he]
        rw [hmoved]
        refine (ih (b := ⟨b.capacity, Function.update (Function.update b.entries hole (some e)) r none, b.count⟩)
          ⟨k, hk62, hk⟩ hchain' hexcept' ?_).mono fun b' h => ?_
        · show dist b.capacity start last - dist b.capacity start r < fuel
          omega
        · exact ⟨h.1, h.2.1, h.2.2.1.trans hperm, h.2.2.2⟩

omit [LawfulHashable κ] [EquivBEq κ] [BEq κ] in
theorem nativeDelete_returns (hcapacity : ∃ k ≤ 62, b.capacity = 2 ^ k) (hhole : ∃ i < b.capacity, b.entries i = none)
    (hprobed : Probed b.capacity (fun e => b.bucket e.1) b.entries) (hi : i < b.capacity) (he : b.entries i = some e) :
    Returns (b.nativeDelete (b.bucket e.1) i) fun b' => b'.capacity = b.capacity ∧ b'.count = b.count - 1 ∧
      b.toList.Perm (e :: b'.toList) ∧ Probed b'.capacity (fun e => b'.bucket e.1) b'.entries := by
  obtain ⟨k, hk62, hcap⟩ := hcapacity
  obtain ⟨z, hz, hznone⟩ := hhole
  have hhome : b.bucket e.1 < b.capacity := Buffer.bucket_lt hcap e.1
  have hpos : 0 < b.capacity := by omega
  unfold Buffer.nativeDelete
  -- back from the home, up to a hole
  have hzi : z ≠ i := by
    rintro rfl
    exact Option.some_ne_none e (he.symm.trans hznone)
  have hznone' : Function.update b.entries i none z = none := by rw [Function.update_of_ne hzi, hznone]
  have hback := walk_prev (fun start => (Function.update b.entries i none (b.prev start)).isSome) b.prev
    (fun j hj => prev_eq hcap hk62 hj) hhome (next_lt hpos z)
    (by rw [prev_eq hcap hk62 (next_lt hpos z), prev_next hz, hznone']; rfl) (dist_lt (next_lt hpos z) hhome)
  have hon := walk_next (fun last => (Function.update b.entries i none (b.indexAfter last)).isSome)
    b.indexAfter (fun j hj => indexAfter_eq hcap hj) hi (prev_lt hz)
    (by rw [indexAfter_eq hcap (prev_lt hz), next_prev hz, hznone']; rfl) (dist_lt hi (prev_lt hz))
  refine hback.bind fun start ⟨hstart, hbefore, _, hpassed⟩ => ?_
  refine hon.bind fun last ⟨hlast, hbehind, _, hpassed'⟩ => ?_
  rw [prev_eq hcap hk62 hstart, Option.isSome_eq_false_iff, Option.isNone_iff_eq_none] at hbefore
  rw [indexAfter_eq hcap hlast, Option.isSome_eq_false_iff, Option.isNone_iff_eq_none] at hbehind
  have hchain := hprobed.chain hi he hhome hz hznone hstart hlast hbefore
    (fun c hc hlt => by
      have hsome := hpassed c hc hlt
      rw [prev_eq hcap hk62 hc] at hsome
      exact Option.isSome_iff_ne_none.1 hsome) hbehind
    (fun c hc hlt => by
      have hsome := hpassed' c hc hlt
      rw [indexAfter_eq hcap hc] at hsome
      exact Option.isSome_iff_ne_none.1 hsome)
  have hstart_lt := dist_lt hstart hlast
  refine (relocate_spec (b := (b.destroyEntry i).setCount (b.count - 1)) ⟨k, hk62, hcap⟩ hchain
    (hprobed.erase i) (Nat.lt_of_le_of_lt (Nat.sub_le _ _) hstart_lt)).mono
    fun b' ⟨hcap', hcount', hperm', hprobed'⟩ => ⟨hcap', hcount', ?_, hprobed'⟩
  exact (elements_erase hi he).trans (hperm'.symm.cons e)

/-- A native buffer with a hole and with the invariant of probing. -/
structure Chained (b : Buffer κ ν) : Prop where
  capacity : ∃ k ≤ 62, b.capacity = 2 ^ k
  hole : ∃ i < b.capacity, b.entries i = none
  probed : Probed b.capacity (fun e => b.bucket e.1) b.entries

/-- What is left when the entry is deleted. -/
structure Deletes (b : Buffer κ ν) (e : κ × ν) (b' : Buffer κ ν) : Prop extends Chained b' where
  sameCapacity : b'.capacity = b.capacity
  count : b'.count = b.count - 1
  entries : b.toList.Perm (e :: b'.toList)

omit [LawfulHashable κ] [EquivBEq κ] [BEq κ] in
/-- `nativeDelete` ends, and leaves a buffer with the invariant and the other entries. -/
theorem nativeDelete_deletes (b : Buffer κ ν) (i : Nat) (e : κ × ν) (h : b.Chained) (hi : i < b.capacity)
    (he : b.entries i = some e) : Returns (b.nativeDelete (b.bucket e.1) i) (b.Deletes e) := by
  refine (nativeDelete_returns h.capacity h.hole h.probed hi he).mono fun b' ⟨hcap, hcount, hperm, hprobed⟩ => ?_
  refine ⟨⟨hcap ▸ h.capacity, length_toList_lt.1 ?_, hprobed⟩, hcap, hcount, hperm⟩
  have hlen := hperm.length_eq
  have hlt := length_toList_lt.2 h.hole
  rw [List.length_cons] at hlen
  omega

def threeEntries : Buffer Nat Unit := ⟨4, fun i => [none, some (0, ()), some (3, ()), some (1, ())].getD i none, 3⟩

theorem nativeDelete_deletes_three :
    Returns (threeEntries.nativeDelete (threeEntries.bucket 0) 1) (threeEntries.Deletes (0, ())) := by
  refine nativeDelete_deletes threeEntries 1 (0, ()) ⟨⟨2, by decide, rfl⟩, ⟨0, by decide, rfl⟩, ?_⟩ (by decide) rfl
  intro i hi e he
  have hi : i < 4 := hi
  interval_cases i <;> cases he <;> decide +kernel

theorem Table.nativeDelete (h : b.Table) (hi : i < b.capacity) (he : b.entries i = some e)
    (hk : (e.1 == key) = true) :
    Returns (b.nativeDelete (b.bucket key) i) fun b' => b'.Table ∧ b'.capacity = b.capacity ∧
      b'.count = b.count - 1 ∧ b'.toList.Perm (erase b.toList key) := by
  rw [← bucket_congr hk]
  refine (nativeDelete_returns h.capacity h.hole h.probed hi he).mono fun b' ⟨hcap', hcount', hperm', hprobed'⟩ => ?_
  have hlist : b'.toList.Perm (erase b.toList key) := by
    have hrest := perm_erase key hperm'
    rw [Distinct.erase_cons (Distinct.perm h.distinct hperm') hk] at hrest
    exact hrest.symm
  refine ⟨⟨hcap' ▸ h.capacity, ?_, h.distinct.erase.perm hlist.symm, hprobed'⟩, hcap', hcount', hlist⟩
  apply length_toList_lt.1
  rw [hlist.length_eq, hcap']
  exact Nat.lt_of_le_of_lt (List.length_filter_le _ _) h.length_lt

end Table

/-! ## Copying -/

section Copying

variable {b old new : Buffer κ ν} {key : κ} {value : ν} {c : Nat}

omit [BEq κ] [Hashable κ] in
theorem doubled_spec {m : Int} (hm : m ≤ 2 ^ 62) :
    Returns (doubled m) fun c => ∃ k, 1 ≤ k ∧ k ≤ 62 ∧ c = 2 ^ k ∧ m ≤ c ∧ (c = 2 ∨ (c : Int) < m * 2) := by
  have hloop := whileLoop_returns (fun capacity => decide ((capacity : Int) < m)) (fun capacity => capacity <<< 1) 64 2
    (fun c => ∃ k, 1 ≤ k ∧ k ≤ 62 ∧ c = 2 ^ k ∧ (c = 2 ∨ (c : Int) < m * 2)) (fun c => 63 - Nat.log2 c) ?_
    ⟨1, Nat.le_refl 1, by omega, rfl, .inl rfl⟩ (by decide)
  · refine hloop.mono fun c ⟨⟨k, h1, h62, hk, hsmall⟩, hstop⟩ => ⟨k, h1, h62, hk, ?_, hsmall⟩
    exact Int.not_lt.1 (of_decide_eq_false hstop)
  · rintro c ⟨k, h1, h62, rfl, hsmall⟩ hcond
    have hlt := of_decide_eq_true hcond
    have hk : k < 62 := by
      by_contra hk
      have heq : k = 62 := by omega
      rw [heq] at hlt
      norm_num at hlt
      omega
    have hdouble : (2 : Nat) ^ k <<< 1 = 2 ^ (k + 1) := by
      rw [Nat.shiftLeft_eq, pow_one, pow_succ]
    rw [hdouble, Nat.log2_two_pow, Nat.log2_two_pow]
    refine ⟨⟨k + 1, by omega, by omega, rfl, .inr ?_⟩, by omega⟩
    rw [pow_succ]
    push_cast at hlt ⊢
    omega

theorem Table.doubled_capacity (h : b.Table) (htwo : 2 ≤ b.capacity) :
    doubled (b.capacity : Int) = some b.capacity := by
  obtain ⟨k, h62, hk⟩ := h.capacity
  have hle : (b.capacity : Int) ≤ 2 ^ 62 := by
    rw [hk]
    exact_mod_cast Nat.pow_le_pow_right (by omega) h62
  obtain ⟨c, hc, k', -, -, hk', hlarge, hsmall⟩ := doubled_spec hle
  rw [hc, Option.some.injEq]
  rcases hsmall with rfl | hsmall
  · omega
  · rw [hk, hk'] at hlarge hsmall
    have hlow := (Nat.pow_le_pow_iff_right (by omega : 1 < 2)).1 (by exact_mod_cast hlarge : 2 ^ k ≤ 2 ^ k')
    have hhigh : 2 ^ k' < 2 ^ (k + 1) := by
      rw [pow_succ]
      exact_mod_cast hsmall
    have hhigh' := (Nat.pow_lt_pow_iff_right (by omega : 1 < 2)).1 hhigh
    rw [hk, hk', show k' = k by omega]

omit [BEq κ] [Hashable κ] in
theorem toList_ofCapacity : (ofCapacity c : Buffer κ ν).toList = [] := by
  apply List.eq_nil_iff_forall_not_mem.2
  intro e he
  obtain ⟨i, -, h⟩ := mem_toList.1 he
  exact Option.some_ne_none e h.symm

theorem Table.ofCapacity (h : ∃ k ≤ 62, c = 2 ^ k) : (ofCapacity c : Buffer κ ν).Table := by
  obtain ⟨k, hk, rfl⟩ := h
  refine ⟨⟨k, hk, rfl⟩, ⟨0, Nat.two_pow_pos k, rfl⟩, ?_, fun i _ e he => absurd he.symm (Option.some_ne_none e)⟩
  rw [toList_ofCapacity]
  exact .nil

theorem Table.congr (h : old.Table) (hc : new.capacity = old.capacity)
    (hentries : ∀ i < old.capacity, new.entries i = old.entries i) : new.Table ∧ new.toList = old.toList := by
  have hlist : new.toList = old.toList := by
    unfold toList
    rw [hc]
    exact elements_congr hentries
  obtain ⟨z, hz, hznone⟩ := h.hole
  refine ⟨⟨?_, ⟨z, by rwa [hc], by rw [hentries z hz, hznone]⟩, by rw [hlist]; exact h.distinct, ?_⟩, hlist⟩
  · rw [hc]
    exact h.capacity
  · intro i hi e he j hj hlt
    unfold bucket at hlt
    rw [hc] at hi hj hlt
    rw [hentries i hi] at he
    rw [hentries j hj]
    exact h.probed i hi e he j hj hlt

section

variable [EquivBEq κ] [LawfulHashable κ]

theorem Table.unsafeAddNew (h : b.Table) (habsent : ∀ e ∈ b.toList, (e.1 == key) = false)
    (hroom : b.toList.length + 1 < b.capacity) :
    Returns (b.unsafeAddNew key value) fun b' => b'.Table ∧ b'.capacity = b.capacity ∧
      b'.toList.Perm ((key, value) :: b.toList) := by
  unfold Buffer.unsafeAddNew
  refine (h.find key).bind fun r hpos => .pure ?_
  cases hpos with
  | found lt entry beq =>
    have hfalse := habsent _ (mem_toList.2 ⟨_, lt, entry⟩)
    exact absurd (hfalse.symm.trans beq) Bool.false_ne_true
  | absent lt hole first habsent' =>
    exact ⟨h.initializeKey value (.absent lt hole first habsent') hroom, rfl, toList_initializeKey key value lt hole⟩

theorem copyEntries_rehash {is : List Nat} (h : new.Table) (hc : old.capacity ≠ new.capacity)
    (hd : Distinct (is.filterMap old.entries ++ new.toList))
    (hroom : (is.filterMap old.entries).length + new.toList.length < new.capacity) :
    Returns (old.copyEntries is new) fun b' => b'.Table ∧ b'.capacity = new.capacity ∧
      b'.toList.Perm (is.filterMap old.entries ++ new.toList) := by
  induction is generalizing new with
  | nil => exact .pure ⟨h, rfl, .refl _⟩
  | cons i is ih =>
    unfold copyEntries
    cases hentry : old.entries i with
    | none =>
      rw [List.filterMap_cons_none hentry] at hd hroom ⊢
      exact ih h hc hd hroom
    | some e =>
      obtain ⟨key, value⟩ := e
      rw [List.filterMap_cons_some hentry] at hd hroom ⊢
      simp only [List.cons_append, List.length_cons] at hd hroom ⊢
      obtain ⟨hfirst, hrest⟩ := List.pairwise_cons.1 hd
      have habsent : ∀ e ∈ new.toList, (e.1 == key) = false := by
        intro e he
        rw [BEq.comm]
        exact hfirst e (List.mem_append_right _ he)
      simp only [if_neg hc]
      refine (h.unsafeAddNew habsent (by omega)).bind fun new' ⟨h', hcap, hperm⟩ => ?_
      have hmiddle : (is.filterMap old.entries ++ new'.toList).Perm
          ((key, value) :: (is.filterMap old.entries ++ new.toList)) :=
        (hperm.append_left _).trans List.perm_middle
      refine (ih h' (by rwa [hcap]) (Distinct.perm hd hmiddle.symm) ?_).mono fun b' ⟨hb', hcap', hperm'⟩ => ?_
      · rw [hperm.length_eq, hcap, List.length_cons]
        omega
      · exact ⟨hb', hcap'.trans hcap, hperm'.trans hmiddle⟩

end

omit [BEq κ] [Hashable κ] in
theorem copyEntries_same [BEq κ] [Hashable κ] {is : List Nat} (hc : old.capacity = new.capacity) :
    Returns (old.copyEntries is new) fun b' => b'.capacity = new.capacity ∧
      ∀ j, b'.entries j = if j ∈ is ∧ old.entries j ≠ none then old.entries j else new.entries j := by
  induction is generalizing new with
  | nil => exact .pure ⟨rfl, fun j => by simp⟩
  | cons i is ih =>
    unfold copyEntries
    cases hentry : old.entries i with
    | none =>
      refine (ih hc).mono fun b' ⟨hcap, hentries⟩ => ⟨hcap, fun j => ?_⟩
      rw [hentries j]
      by_cases hj : j = i
      · subst hj
        simp [hentry]
      · simp [hj]
    | some e =>
      obtain ⟨key, value⟩ := e
      simp only [if_pos hc, Option.bind_eq_bind, Option.bind_some]
      refine (ih (show old.capacity = (new.initializeKey key value i).capacity from hc)).mono fun b' ⟨hcap, hentries⟩ => ⟨hcap, fun j => ?_⟩
      rw [hentries j]
      by_cases hj : j = i
      · subst hj
        by_cases hmem : j ∈ is <;> simp [hentry, hmem, initializeKey]
      · simp [hj, initializeKey]

variable [EquivBEq κ] [LawfulHashable κ]

theorem Table.copyEntries (h : old.Table) (hc : ∃ k ≤ 62, c = 2 ^ k) (hroom : old.toList.length < c) :
    Returns (old.copyEntries (List.range old.capacity) (Buffer.ofCapacity c)) fun b' => b'.Table ∧ b'.capacity = c ∧
      b'.toList.Perm old.toList ∧ (old.capacity = c → ∀ j < c, b'.entries j = old.entries j) := by
  by_cases hsame : old.capacity = c
  · refine (copyEntries_same (show old.capacity = (Buffer.ofCapacity c : Buffer κ ν).capacity from hsame)).mono fun b' ⟨hcap, hentries⟩ => ?_
    have hentries' : ∀ j < old.capacity, b'.entries j = old.entries j := by
      intro j hj
      rw [hentries j]
      cases hentry : old.entries j with
      | none => simp [Buffer.ofCapacity]
      | some e => simp [hj]
    obtain ⟨htable, hlist⟩ := h.congr (hcap.trans hsame.symm) hentries'
    refine ⟨htable, hcap, by rw [hlist], fun _ j hj => hentries' j (by omega)⟩
  · have hnew := Table.ofCapacity (κ := κ) (ν := ν) hc
    have hlist : (List.range old.capacity).filterMap old.entries ++ (Buffer.ofCapacity c : Buffer κ ν).toList =
        old.toList := by
      rw [toList_ofCapacity, List.append_nil]
      rfl
    have hlen := congrArg List.length hlist
    rw [List.length_append] at hlen
    refine (copyEntries_rehash hnew hsame (by rw [hlist]; exact h.distinct) ?_).mono fun b' ⟨hb', hcap, hperm⟩ => ?_
    · rw [hlen]
      exact hroom
    · rw [hlist] at hperm
      exact ⟨hb', hcap, hperm, fun heq => absurd heq hsame⟩

end Copying

/-! ## Iteration -/

section Iteration

omit [BEq κ] [Hashable κ]

variable {b : Buffer κ ν}

theorem skipHoles_spec (n idx : Nat) (hn : idx + n = b.capacity) :
    (b.skipHoles n idx = b.capacity ∨ (b.entries (b.skipHoles n idx)).isSome = true) ∧
      idx ≤ b.skipHoles n idx ∧ b.skipHoles n idx ≤ b.capacity ∧
      (List.range' idx n).filterMap b.entries =
        (List.range' (b.skipHoles n idx) (b.capacity - b.skipHoles n idx)).filterMap b.entries := by
  induction n generalizing idx with
  | zero =>
    unfold skipHoles
    rw [Nat.add_zero] at hn
    refine ⟨.inl hn, Nat.le_refl _, Nat.le_of_eq hn, ?_⟩
    rw [hn, Nat.sub_self]
  | succ n ih =>
    unfold skipHoles
    split_ifs with hinit
    · refine ⟨.inr hinit, Nat.le_refl _, by omega, ?_⟩
      rw [show b.capacity - idx = n + 1 by omega]
    · obtain ⟨hstop, hle, hle', hrest⟩ := ih (idx + 1) (by omega)
      refine ⟨hstop, by omega, hle', ?_⟩
      have hnone : b.entries idx = none := by simpa [isInitializedEntry] using hinit
      rw [List.range'_succ, List.filterMap_cons_none hnone, hrest]

theorem entriesFrom_eq (n : Nat) {i : Nat} (hi : i ≤ b.capacity) (hn : b.capacity - i < n)
    (hstop : i = b.capacity ∨ (b.entries i).isSome = true) :
    b.entriesFrom n i = (List.range' i (b.capacity - i)).filterMap b.entries := by
  induction n generalizing i with
  | zero => exact absurd hn (Nat.not_lt_zero _)
  | succ n ih =>
    unfold entriesFrom
    split_ifs with hend
    · rw [hend, Nat.sub_self]
      rfl
    · obtain ⟨e, he⟩ := Option.isSome_iff_exists.1 (hstop.resolve_left hend)
      obtain ⟨hstop', hle, hle', hrest⟩ := skipHoles_spec (b := b) (b.capacity - (i + 1)) (i + 1) (by omega)
      rw [formIndexAfter, ih hle' (by omega) hstop', ← hrest, he,
        show b.capacity - i = (b.capacity - (i + 1)) + 1 by omega, List.range'_succ, List.filterMap_cons_some he]
      rfl

theorem iterated_eq : b.iterated = b.toList := by
  obtain ⟨hstop, -, hle, hrest⟩ := skipHoles_spec (b := b) b.capacity 0 (Nat.zero_add _)
  unfold iterated startIndex
  rw [entriesFrom_eq _ hle (by omega) hstop, ← hrest, ← List.range_eq_range']
  rfl

end Iteration

end Buffer

end SwiftKStdlib.HashedCollections
