import Mathlib.Tactic
import SwiftKStdlib.Demangling.Allocation

/-!
# The invariant of the node factory

* `Contents` : what the arrays hold, as lists of elements;
* `State.Inv` : the arrays are apart, each vector has its own, of its capacity, and holds its elements;
* `Inv.replace`, `Inv.allocate`, `Inv.adopt`, `Inv.grow` : what can be done to one vector;
* `Inv.reallocate` : a capacity grows, and the elements stay.
-/

namespace SwiftKStdlib.Demangling.NodeFactory

open Lib (Memory)
open Lib.Memory

/-! ## Contents -/

abbrev Contents := List (List Elem)

/-! ## Lists -/

section

variable {α : Type} {l : List α} {i j : Nat} {x y : α}

theorem getElem?_set_cases (h : (l.set i x)[j]? = some y) : j = i ∧ y = x ∨ j ≠ i ∧ l[j]? = some y := by
  rw [List.getElem?_set] at h
  split_ifs at h with hij hi
  · exact .inl ⟨hij.symm, (Option.some.inj h).symm⟩
  · exact .inr ⟨fun hji => hij hji.symm, h⟩

theorem modify_eq_set (f : α → α) (h : l[i]? = some x) : l.modify i f = l.set i (f x) := by
  refine List.ext_getElem? fun j => ?_
  obtain ⟨hi, hx⟩ := List.getElem?_eq_some_iff.1 h
  rw [List.getElem?_modify, List.getElem?_set]
  by_cases hij : i = j
  · subst hij
    simp [hx, hi]
  · simp [hij]

theorem getElem?_concat_cases (h : (l ++ [x])[j]? = some y) : l[j]? = some y ∨ j = l.length ∧ y = x := by
  rw [List.getElem?_append] at h
  split_ifs at h with hj
  · exact .inl h
  · rw [List.getElem?_singleton] at h
    split_ifs at h with hzero
    exact .inr ⟨by omega, (Option.some.inj h).symm⟩

theorem length_flatten_of {size : Nat} {elems : List Elem} (h : ∀ e ∈ elems, e.length = size) :
    elems.flatten.length = elems.length * size := by
  induction elems with
  | nil => rw [List.flatten_nil, List.length_nil, List.length_nil, Nat.zero_mul]
  | cons e elems ih =>
      rw [List.flatten_cons, List.length_append, h e List.mem_cons_self, ih fun e he => h e (List.mem_cons_of_mem _ he),
        List.length_cons, Nat.succ_mul, Nat.add_comm]

end

/-- The memory holds these elements for the vector. -/
structure Holds (m : Memory) (v : Vec) (elems : List Elem) : Prop where
  numElems : v.numElems = elems.length
  size : ∀ e ∈ elems, e.length = v.layout.size
  bytes : m.read v.elems (v.numElems * v.layout.size) = elems.flatten

/-- The vector has an array of its capacity, or none. -/
def Owns (blocks : List Block) (v : Vec) : Prop :=
  match v.block with
  | none => v.elems = 0 ∧ v.capacity = 0
  | some k => blocks[k]? = some ⟨v.elems, v.capacity * v.layout.size, v.layout.alignLog⟩

structure State.Inv (s : State) (a : Contents) : Prop where
  factory : s.factory.Valid
  placed : ∀ b ∈ s.blocks, Placed s.factory b
  aligned : ∀ b ∈ s.blocks, 2 ^ b.alignLog ∣ b.start
  apart : ∀ (i j : Nat) (b b' : Block), s.blocks[i]? = some b → s.blocks[j]? = some b' → i ≠ j → Apart b b'
  owns : ∀ v ∈ s.vectors, Owns s.blocks v
  alone : ∀ (i j : Nat) (v w : Vec) (k : Nat), s.vectors[i]? = some v → s.vectors[j]? = some w → v.block = some k →
    w.block = some k → i = j
  numElems_le : ∀ v ∈ s.vectors, v.numElems ≤ v.capacity
  length : a.length = s.vectors.length
  holds : ∀ (i : Nat) (v : Vec) (elems : List Elem), s.vectors[i]? = some v → a[i]? = some elems → Holds s.memory v elems

namespace State.Inv

variable {s : State} {a : Contents} {i : Nat} {v : Vec} {elems : List Elem}

theorem new : State.new.Inv [] := by
  refine ⟨Factory.valid_new, ?_, ?_, ?_, ?_, ?_, ?_, rfl, ?_⟩
  · exact fun b hb => absurd hb List.not_mem_nil
  · exact fun b hb => absurd hb List.not_mem_nil
  · exact fun i j b b' hb => absurd hb.symm (Option.some_ne_none b)
  · exact fun v hv => absurd hv List.not_mem_nil
  · exact fun i j v w k hv => absurd hv.symm (Option.some_ne_none v)
  · exact fun v hv => absurd hv List.not_mem_nil
  · exact fun i v elems hv => absurd hv.symm (Option.some_ne_none v)

theorem exists_elems (h : s.Inv a) (hv : s.vectors[i]? = some v) : ∃ elems, a[i]? = some elems := by
  obtain ⟨hi, -⟩ := List.getElem?_eq_some_iff.1 hv
  exact ⟨_, List.getElem?_eq_getElem (h.length ▸ hi)⟩

theorem capacity_lt (h : s.Inv a) (hv : v ∈ s.vectors) : v.capacity * v.layout.size < 2 ^ 63 := by
  have howns := h.owns v hv
  rw [Owns] at howns
  split at howns
  · rw [howns.2, Nat.zero_mul]
    exact Nat.two_pow_pos 63
  · next k _ =>
    have hmem := List.mem_of_getElem? howns
    rcases (h.placed _ hmem).inside with ⟨-, hzero⟩ | ⟨slab, hslab, hin⟩
    · have hempty : v.capacity * v.layout.size = 0 := hzero
      omega
    · have hbound := h.factory.bounds slab hslab
      simp only [Block.Inside, Block.stop, slabHeader] at hin
      omega

theorem replace (h : s.Inv a) (hv : s.vectors[i]? = some v) {v' : Vec} {m : Memory} {elems' : List Elem}
    (howns : Owns s.blocks v')
    (halone : ∀ j w k, j ≠ i → s.vectors[j]? = some w → w.block = some k → v'.block ≠ some k)
    (hle : v'.numElems ≤ v'.capacity)
    (hframe : ∀ j w, j ≠ i → s.vectors[j]? = some w →
      m.read w.elems (w.numElems * w.layout.size) = s.memory.read w.elems (w.numElems * w.layout.size))
    (hholds : Holds m v' elems') :
    ({ s with memory := m, vectors := s.vectors.set i v' } : State).Inv (a.set i elems') := by
  obtain ⟨hi, -⟩ := List.getElem?_eq_some_iff.1 hv
  refine ⟨h.factory, h.placed, h.aligned, h.apart, ?_, ?_, ?_, ?_, ?_⟩
  · intro w hw
    rcases List.mem_or_eq_of_mem_set hw with hw | rfl
    · exact h.owns w hw
    · exact howns
  · intro j l w x k hw hx hwk hxk
    rcases getElem?_set_cases hw with ⟨rfl, rfl⟩ | ⟨hj, hw'⟩
    · rcases getElem?_set_cases hx with ⟨rfl, -⟩ | ⟨hl, hx'⟩
      · rfl
      · exact absurd hwk (halone l x k hl hx' hxk)
    · rcases getElem?_set_cases hx with ⟨rfl, rfl⟩ | ⟨hl, hx'⟩
      · exact absurd hxk (halone j w k hj hw' hwk)
      · exact h.alone j l w x k hw' hx' hwk hxk
  · intro w hw
    rcases List.mem_or_eq_of_mem_set hw with hw | rfl
    · exact h.numElems_le w hw
    · exact hle
  · rw [List.length_set, List.length_set, h.length]
  · intro j w l hw hl
    rcases getElem?_set_cases hw with ⟨rfl, rfl⟩ | ⟨hj, hw'⟩
    · rcases getElem?_set_cases hl with ⟨-, rfl⟩ | ⟨hne, -⟩
      · exact hholds
      · exact absurd rfl hne
    · rcases getElem?_set_cases hl with ⟨rfl, -⟩ | ⟨-, hl'⟩
      · exact absurd rfl hj
      · obtain ⟨hnum, hsize, hbytes⟩ := h.holds j w l hw' hl'
        exact ⟨hnum, hsize, (hframe j w hj hw').trans hbytes⟩

theorem frame_block (h : s.Inv a) {w : Vec} (hw : w ∈ s.vectors) {k : Nat} {b : Block} (hk : s.blocks[k]? = some b)
    (hne : w.block ≠ some k) {q : Nat} {bs : List (BitVec 8)} (hq : b.start ≤ q) (hstop : q + bs.length ≤ b.stop) :
    (s.memory.write q bs).read w.elems (w.numElems * w.layout.size) =
      s.memory.read w.elems (w.numElems * w.layout.size) := by
  have howns := h.owns w hw
  have hle := Nat.mul_le_mul_right w.layout.size (h.numElems_le w hw)
  rw [Owns] at howns
  refine read_write_of_disjoint ?_
  split at howns
  · rw [howns.2] at hle
    omega
  · next l hl =>
    have hapart := h.apart l k _ b howns hk fun hlk => hne (by rw [hl, hlk])
    rw [apart_iff] at hapart
    simp only [Block.stop] at hapart hstop
    omega

theorem frame (h : s.Inv a) (hv : s.vectors[i]? = some v) {off : Nat} {bs : List (BitVec 8)}
    (hfit : off + bs.length ≤ v.capacity * v.layout.size) {j : Nat} {w : Vec} (hj : j ≠ i) (hw : s.vectors[j]? = some w) :
    (s.memory.write (v.elems + off) bs).read w.elems (w.numElems * w.layout.size) =
      s.memory.read w.elems (w.numElems * w.layout.size) := by
  have howns := h.owns v (List.mem_of_getElem? hv)
  rw [Owns] at howns
  split at howns
  · rw [howns.2] at hfit
    exact read_write_of_disjoint (by omega)
  · next k hk =>
    refine h.frame_block (List.mem_of_getElem? hw) howns (fun hwk => hj (h.alone j i w v k hw hv hwk hk)) ?_ ?_
    · exact Nat.le_add_right _ _
    · simp only [Block.stop]
      omega

theorem alone_of (h : s.Inv a) (hv : s.vectors[i]? = some v) {v' : Vec} (hblock : v'.block = v.block) :
    ∀ j w k, j ≠ i → s.vectors[j]? = some w → w.block = some k → v'.block ≠ some k := fun j w k hj hw hk hk' =>
  hj (h.alone j i w v k hw hv hk (hblock ▸ hk'))

theorem lt_of_block (h : s.Inv a) {w : Vec} (hw : w ∈ s.vectors) {k : Nat} (hk : w.block = some k) : k < s.blocks.length := by
  have howns := h.owns w hw
  rw [Owns, hk] at howns
  exact (List.getElem?_eq_some_iff.1 howns).1

/-! ### Allocation -/

theorem allocate (h : s.Inv a) {T : Layout} {n p : Nat} {malloc : Nat → Option Nat} {s' : State}
    (hfits : Factory.Fits T n) (hmalloc : Lawful s.factory malloc) (hrun : s.allocate T n malloc = some (p, s')) :
    s'.Inv a ∧ s'.memory = s.memory ∧ s'.vectors = s.vectors ∧
      s'.blocks = s.blocks ++ [⟨p, n * T.size, T.alignLog⟩] := by
  obtain ⟨⟨q, factory⟩, halloc, hres⟩ := Option.bind_eq_some_iff.1 hrun
  obtain ⟨rfl, rfl⟩ := Prod.mk.inj (Option.some.inj hres)
  have hsize : sizeT (n * T.size) = n * T.size := Nat.mod_eq_of_lt (by rw [Factory.Fits] at hfits; omega)
  obtain ⟨hvalid, hdvd, hplaced, hothers⟩ := Factory.allocate_spec h.factory hfits hmalloc halloc
  rw [hsize]
  refine ⟨⟨hvalid, ?_, ?_, ?_, ?_, h.alone, h.numElems_le, h.length, h.holds⟩, rfl, rfl, rfl⟩
  · intro b hb
    rcases List.mem_append.1 hb with hb | hb
    · exact (hothers b (h.placed b hb)).1
    · rw [List.mem_singleton.1 hb]
      exact hplaced
  · intro b hb
    rcases List.mem_append.1 hb with hb | hb
    · exact h.aligned b hb
    · rw [List.mem_singleton.1 hb]
      exact hdvd
  · intro j l b b' hb hb' hne
    rcases getElem?_concat_cases hb with hb | ⟨rfl, rfl⟩
    · rcases getElem?_concat_cases hb' with hb' | ⟨rfl, rfl⟩
      · exact h.apart j l b b' hb hb' hne
      · exact (hothers b (h.placed b (List.mem_of_getElem? hb))).2
    · rcases getElem?_concat_cases hb' with hb' | ⟨rfl, rfl⟩
      · exact (hothers b' (h.placed b' (List.mem_of_getElem? hb'))).2.symm
      · exact absurd rfl hne
  · intro w hw
    have howns := h.owns w hw
    rw [Owns] at howns ⊢
    cases hk : w.block with
    | none =>
        rw [hk] at howns
        exact howns
    | some k =>
        rw [hk] at howns
        exact (List.getElem?_append_left (h.lt_of_block hw hk)).trans howns

theorem adopt (h : s.Inv a) (hv : s.vectors[i]? = some v) {b : Block} {blocks : List Block} {v' : Vec}
    {elems' : List Elem} {bs : List (BitVec 8)} (hblocks : s.blocks = blocks ++ [b])
    (hfree : ∀ w ∈ s.vectors, ∀ k, w.block = some k → k < blocks.length) (hblock : v'.block = some blocks.length)
    (hb : b = ⟨v'.elems, v'.capacity * v'.layout.size, v'.layout.alignLog⟩) (hle : v'.numElems ≤ v'.capacity)
    (hnum : v'.numElems = elems'.length) (hsize : ∀ e ∈ elems', e.length = v'.layout.size)
    (hbs : elems'.flatten <+: bs) (hfit : bs.length ≤ v'.capacity * v'.layout.size) :
    ({ s with memory := s.memory.write v'.elems bs, vectors := s.vectors.set i v' } : State).Inv (a.set i elems') := by
  have hlast : s.blocks[blocks.length]? = some b := by
    rw [hblocks, List.getElem?_append_right le_rfl, Nat.sub_self]
    rfl
  refine h.replace hv ?_ ?_ hle ?_ ⟨hnum, hsize, ?_⟩
  · rw [Owns, hblock]
    exact hlast.trans (congrArg some hb)
  · intro j w k _ hw hk hk'
    have hlt := hfree w (List.mem_of_getElem? hw) k hk
    rw [hblock] at hk'
    exact absurd (Option.some.inj hk') (by omega)
  · intro j w _ hw
    have hmem := List.mem_of_getElem? hw
    refine h.frame_block hmem hlast (fun hk => absurd (hfree w hmem _ hk) (lt_irrefl _)) ?_ ?_
    · rw [hb]
    · rw [hb, Block.stop]
      exact Nat.add_le_add_left hfit _
  · obtain ⟨y, rfl⟩ := hbs
    have hlen := length_flatten_of hsize
    rw [hnum, ← hlen]
    exact read_write_prefix _ _ _

end State.Inv

/-! ## Growth -/

def GrowFits (s : State) (v : Vec) (minGrowth : Nat) : Prop :=
  minGrowth * v.layout.size < 2 ^ 64 ∧
    (¬ s.canGrow v minGrowth → Factory.Fits v.layout (v.capacity + State.growth v.capacity minGrowth))

namespace State.Inv

variable {s s' : State} {a : Contents} {i minGrowth : Nat} {v : Vec} {malloc : Nat → Option Nat}

theorem le_mul_size (T : Layout) (n : Nat) : n ≤ n * T.size := Nat.le_mul_of_pos_right n T.size_pos

theorem grow (h : s.Inv a) (hv : s.vectors[i]? = some v) {k : Nat} (hk : v.block = some k)
    (hstop : v.elems + v.capacity * v.layout.size = s.factory.curPtr)
    (hend : s.factory.curPtr + minGrowth * v.layout.size ≤ s.factory.endPtr) :
    ({ s with
      factory := { s.factory with curPtr := s.factory.curPtr + minGrowth * v.layout.size }
      vectors := s.vectors.set i { v with capacity := v.capacity + minGrowth, block := some k }
      blocks := s.blocks.set k ⟨v.elems, v.capacity * v.layout.size + minGrowth * v.layout.size, v.layout.alignLog⟩ } :
      State).Inv a := by
  have hmem := List.mem_of_getElem? hv
  have hblock : s.blocks[k]? = some ⟨v.elems, v.capacity * v.layout.size, v.layout.alignLog⟩ := by
    have howns := h.owns v hmem
    rw [Owns, hk] at howns
    exact howns
  obtain ⟨hlt, -⟩ := List.getElem?_eq_some_iff.1 hblock
  have hbmem := List.mem_of_getElem? hblock
  obtain ⟨hvalid, hplaced, hothers⟩ := Factory.grow_spec h.factory (h.placed _ hbmem) hstop hend
  refine ⟨hvalid, ?_, ?_, ?_, ?_, ?_, ?_, ?_, ?_⟩
  · intro b hb
    rcases List.mem_or_eq_of_mem_set hb with hb | rfl
    · exact (hothers b (h.placed b hb)).1
    · exact hplaced
  · intro b hb
    rcases List.mem_or_eq_of_mem_set hb with hb | rfl
    · exact h.aligned b hb
    · exact h.aligned ⟨v.elems, v.capacity * v.layout.size, v.layout.alignLog⟩ hbmem
  · intro j l b b' hb hb' hne
    rcases getElem?_set_cases hb with ⟨rfl, rfl⟩ | ⟨hj, hold⟩
    · rcases getElem?_set_cases hb' with ⟨rfl, -⟩ | ⟨hl, hold'⟩
      · exact absurd rfl hne
      · exact ((hothers b' (h.placed b' (List.mem_of_getElem? hold'))).2 (h.apart l j b' _ hold' hblock hl)).symm
    · rcases getElem?_set_cases hb' with ⟨rfl, rfl⟩ | ⟨-, hold'⟩
      · exact (hothers b (h.placed b (List.mem_of_getElem? hold))).2 (h.apart j l b _ hold hblock hj)
      · exact h.apart j l b b' hold hold' hne
  · intro w hw
    obtain ⟨j, hj⟩ := List.getElem?_of_mem hw
    rcases getElem?_set_cases hj with ⟨-, rfl⟩ | ⟨hji, hw⟩
    · rw [Owns]
      dsimp only
      rw [List.getElem?_set_self hlt, Nat.add_mul]
    · have howns := h.owns w (List.mem_of_getElem? hw)
      rw [Owns] at howns ⊢
      cases hl : w.block with
      | none =>
          rw [hl] at howns
          exact howns
      | some l =>
          rw [hl] at howns
          have hlk : k ≠ l := fun hkl => hji (h.alone j i w v k hw hv (hkl ▸ hl) hk)
          exact (List.getElem?_set_ne hlk).trans howns
  · intro j l w x m hw hx hwm hxm
    rcases getElem?_set_cases hw with ⟨rfl, rfl⟩ | ⟨-, hold⟩
    · rcases getElem?_set_cases hx with ⟨rfl, -⟩ | ⟨-, hold'⟩
      · rfl
      · exact h.alone j l v x m hv hold' (hk.trans hwm) hxm
    · rcases getElem?_set_cases hx with ⟨rfl, rfl⟩ | ⟨-, hold'⟩
      · exact h.alone j l w v m hold hv hwm (hk.trans hxm)
      · exact h.alone j l w x m hold hold' hwm hxm
  · intro w hw
    rcases List.mem_or_eq_of_mem_set hw with hw | rfl
    · exact h.numElems_le w hw
    · exact (h.numElems_le v hmem).trans (Nat.le_add_right _ _)
  · rw [List.length_set, h.length]
  · intro j w elems hw helems
    rcases getElem?_set_cases hw with ⟨rfl, rfl⟩ | ⟨-, hold⟩
    · obtain ⟨hnum, hsize, hbytes⟩ := h.holds j v elems hv helems
      exact ⟨hnum, hsize, hbytes⟩
    · exact h.holds j w elems hold helems

theorem eq_zero_of_end (h : s.Inv a) (hzero : s.factory.curPtr = 0) : s.factory.endPtr = 0 := by
  have hcurrent := h.factory.current
  split at hcurrent
  · exact hcurrent.2
  · rw [slabHeader] at hcurrent
    omega

theorem endPtr_le (h : s.Inv a) : s.factory.endPtr ≤ 2 ^ 63 := by
  have hcurrent := h.factory.current
  split at hcurrent
  · omega
  · next slab previous hs =>
    rw [hcurrent.2.2.1]
    exact (h.factory.bounds slab (by rw [hs]; exact List.mem_cons_self)).2

theorem reallocate (h : s.Inv a) (hv : s.vectors[i]? = some v) (hfits : GrowFits s v minGrowth)
    (hmalloc : Lawful s.factory malloc) (hrun : s.reallocate i minGrowth malloc = some s') :
    s'.Inv a ∧ ∃ v', s'.vectors[i]? = some v' ∧ v'.layout = v.layout ∧ v'.numElems = v.numElems ∧
      v.capacity + minGrowth ≤ v'.capacity := by
  have hmem := List.mem_of_getElem? hv
  obtain ⟨hi, -⟩ := List.getElem?_eq_some_iff.1 hv
  obtain ⟨elems, helems⟩ := h.exists_elems hv
  obtain ⟨hnum, hsize, hbytes⟩ := h.holds i v elems hv helems
  have hcap := h.capacity_lt hmem
  have hcapT : sizeT (v.capacity * v.layout.size) = v.capacity * v.layout.size := Nat.mod_eq_of_lt (by omega)
  have hset : a.set i elems = a := by
    obtain ⟨hlen, hget⟩ := List.getElem?_eq_some_iff.1 helems
    rw [← hget, List.set_getElem_self]
  have hle := h.numElems_le v hmem
  have hcaple := le_mul_size v.layout v.capacity
  rw [State.reallocate, hv] at hrun
  change (if s.canGrow v minGrowth then _ else _) = some s' at hrun
  split_ifs at hrun with hgrow
  · -- in place
    obtain ⟨hstop, hend⟩ := hgrow
    have hadd : sizeT (minGrowth * v.layout.size) = minGrowth * v.layout.size := Nat.mod_eq_of_lt hfits.1
    have hminle := le_mul_size v.layout minGrowth
    have hcur := h.factory.curPtr_le
    have hlow : s.factory.endPtr ≤ 2 ^ 63 := h.endPtr_le
    have hsum : sizeT (v.capacity + minGrowth) = v.capacity + minGrowth := Nat.mod_eq_of_lt (by omega)
    rw [hcapT] at hstop
    rw [hadd] at hend
    obtain rfl := Option.some.inj hrun
    simp only [hadd, hsum]
    cases hk : v.block with
    | none =>
        have howns := h.owns v hmem
        rw [Owns, hk] at howns
        obtain ⟨hnull, hzero⟩ := howns
        rw [hnull, hzero, Nat.zero_mul] at hstop
        rw [h.eq_zero_of_end hstop.symm] at hend
        obtain rfl : minGrowth = 0 := by omega
        have hself : s.vectors.set i { v with capacity := v.capacity, block := none } = s.vectors := by
          rw [← hk, ← (List.getElem?_eq_some_iff.1 hv).2, List.set_getElem_self]
        refine ⟨?_, _, List.getElem?_set_self hi, rfl, rfl, le_rfl⟩
        rw [Nat.zero_mul]
        change ({ s with vectors := s.vectors.set i { v with capacity := v.capacity, block := none } } : State).Inv a
        rw [hself]
        exact h
    | some k =>
        have howns := h.owns v hmem
        rw [Owns, hk] at howns
        refine ⟨?_, _, List.getElem?_set_self hi, rfl, rfl, le_rfl⟩
        dsimp only
        rw [modify_eq_set _ howns]
        exact h.grow hv hk hstop hend
  · -- a copy
    have hgfits := hfits.2 hgrow
    have hbound := le_mul_size v.layout (v.capacity + growth v.capacity minGrowth)
    have hsum : sizeT (v.capacity + growth v.capacity minGrowth) = v.capacity + growth v.capacity minGrowth :=
      Nat.mod_eq_of_lt (by rw [Factory.Fits] at hgfits; omega)
    have hmin : minGrowth ≤ growth v.capacity minGrowth := by
      rw [growth]
      split_ifs <;> omega
    rw [hsum] at hrun
    obtain ⟨⟨p, s₁⟩, halloc, hres⟩ := Option.bind_eq_some_iff.1 hrun
    obtain rfl := Option.some.inj hres
    obtain ⟨hinv, hmemory, hvectors, hblocks⟩ := h.allocate hgfits hmalloc halloc
    rw [← hvectors] at hv
    have hadopt := @adopt s₁ a i v hinv hv _ _
      { v with elems := p, capacity := v.capacity + growth v.capacity minGrowth, block := some s.blocks.length } elems
      (s.memory.read v.elems (v.capacity * v.layout.size)) hblocks
      (fun w hw k hk => h.lt_of_block (hvectors ▸ hw) hk) rfl rfl (hle.trans (Nat.le_add_right _ _)) hnum hsize ?_ ?_
    · rw [hset] at hadopt
      refine ⟨?_, _, List.getElem?_set_self (hvectors ▸ hi), rfl, rfl, Nat.add_le_add_left hmin _⟩
      rw [hmemory] at hadopt
      rw [hcapT]
      exact hadopt
    · have hsplit : v.capacity * v.layout.size =
          v.numElems * v.layout.size + (v.capacity - v.numElems) * v.layout.size := by
        rw [← Nat.add_mul, Nat.add_sub_cancel' hle]
      rw [hsplit, read_append, hbytes]
      exact List.prefix_append _ _
    · rw [length_read]
      exact Nat.mul_le_mul_right _ (Nat.le_add_right _ _)

end State.Inv

end SwiftKStdlib.Demangling.NodeFactory
