import Mathlib.Tactic
import SwiftKStdlib.Demangling.NodeFactoryInvariant

/-!
# Runs of the node factory

* `abstractStep` : what the operations mean for the elements;
* `Inv.concat`, `Inv.append`, `Inv.reserve` : the parts that the operations share;
* `WellPlaced`, `Run` : what is to hold in all states of a run;
* `Sized`, `SafeRun` : the runs that remove no child and whose byte counts fit;
* `safeRun_wellPlaced` : it holds in these, and in no state after a child is removed.
-/

namespace SwiftKStdlib.Demangling.NodeFactory

open Lib (Memory)
open Lib.Memory

def abstractStep (a : Contents) : Op → Contents
  | .create _ => a ++ [[]]
  | .copy _ elems => a ++ [elems]
  | .init i _ => a.set i []
  | .reallocate _ _ => a
  | .pushBack i newElem => a.modify i (· ++ [newElem])
  | .addChild i child => a.modify i (· ++ [child])
  | .popBackVal i => a.modify i List.dropLast
  | .appendText i rhs => a.modify i (· ++ rhs.map fun c => [c])
  | .appendNumber i number => a.modify i (· ++ (State.printed number).map fun c => [c])
  | .removeChildAt i pos => a.modify i fun l => l.eraseIdx pos
  | .reverseChildren i startingAt => a.modify i fun l => l.take startingAt ++ (l.drop startingAt).reverse
  | .clear => []

namespace Holds

variable {m m' : Memory} {v : Vec} {l elems : List Elem} {k : Nat}

theorem length_flatten (h : Holds m v l) : l.flatten.length = v.numElems * v.layout.size := by
  rw [length_flatten_of h.size, h.numElems]

theorem take (h : Holds m v l) (hk : k ≤ l.length) : Holds m { v with numElems := k } (l.take k) := by
  have hsize : ∀ e ∈ l.take k, e.length = v.layout.size := fun e he => h.size e (List.mem_of_mem_take he)
  refine ⟨(List.length_take_of_le hk).symm, hsize, ?_⟩
  have hsplit : v.numElems * v.layout.size = k * v.layout.size + (v.numElems - k) * v.layout.size := by
    rw [← Nat.add_mul, Nat.add_sub_cancel' (h.numElems ▸ hk)]
  have hbytes := h.bytes
  rw [hsplit, read_append, ← List.take_append_drop k l, List.flatten_append] at hbytes
  refine (List.append_inj hbytes ?_).1
  rw [length_read, length_flatten_of hsize, List.length_take_of_le hk]

theorem get (h : Holds m v l) (hk : k < l.length) : m.read (v.elems + k * v.layout.size) (1 * v.layout.size) = l[k] := by
  have hbefore := h.take (le_of_lt hk)
  have hbytes : m.read v.elems ((k + 1) * v.layout.size) = (l.take (k + 1)).flatten := (h.take hk).bytes
  rw [Nat.add_mul, read_append, List.take_succ_eq_append_getElem hk, List.flatten_append] at hbytes
  have hlen : (m.read v.elems (k * v.layout.size)).length = (l.take k).flatten.length := by
    rw [length_read, hbefore.length_flatten]
  rw [(List.append_inj hbytes hlen).2, List.flatten_singleton]

theorem append (h : Holds m v l) {bs : List (BitVec 8)} (hsize : ∀ e ∈ elems, e.length = v.layout.size)
    (hbs : elems.flatten <+: bs) :
    Holds (m.write (v.elems + v.numElems * v.layout.size) bs) { v with numElems := v.numElems + elems.length }
      (l ++ elems) := by
  refine ⟨?_, ?_, ?_⟩
  · rw [List.length_append, h.numElems]
  · exact fun e he => (List.mem_append.1 he).elim (h.size e) (hsize e)
  · obtain ⟨y, rfl⟩ := hbs
    have hnew : elems.length * v.layout.size = elems.flatten.length := (length_flatten_of hsize).symm
    dsimp only
    rw [Nat.add_mul, read_append, List.flatten_append, hnew, read_write_prefix, read_write_of_disjoint (.inl le_rfl),
      h.bytes]

theorem reverse (h : Holds m v l) (hk : k ≤ l.length) :
    Holds (m.write (v.elems + k * v.layout.size) (l.drop k).reverse.flatten) v (l.take k ++ (l.drop k).reverse) := by
  have hsize : ∀ e ∈ (l.drop k).reverse, e.length = v.layout.size := fun e he =>
    h.size e (List.mem_of_mem_drop (List.mem_reverse.1 he))
  have happend := (h.take hk).append hsize (List.prefix_refl _)
  have hnum : k + (l.drop k).reverse.length = v.numElems := by
    rw [List.length_reverse, List.length_drop, h.numElems, Nat.add_sub_cancel' hk]
  dsimp only at happend
  rw [hnum] at happend
  exact happend

end Holds

namespace State.Inv

variable {s s' : State} {a : Contents} {i room : Nat} {v : Vec} {l elems : List Elem} {malloc : Nat → Option Nat}

/-! ## What the operations share -/

theorem concat (h : s.Inv a) {v' : Vec} {m : Memory} (howns : Owns s.blocks v')
    (halone : ∀ w ∈ s.vectors, ∀ k, w.block = some k → v'.block ≠ some k) (hle : v'.numElems ≤ v'.capacity)
    (hframe : ∀ w ∈ s.vectors,
      m.read w.elems (w.numElems * w.layout.size) = s.memory.read w.elems (w.numElems * w.layout.size))
    (hholds : Holds m v' elems) :
    ({ s with memory := m, vectors := s.vectors ++ [v'] } : State).Inv (a ++ [elems]) := by
  refine ⟨h.factory, h.placed, h.aligned, h.apart, ?_, ?_, ?_, ?_, ?_⟩
  · intro w hw
    rcases List.mem_append.1 hw with hw | hw
    · exact h.owns w hw
    · rw [List.mem_singleton.1 hw]
      exact howns
  · intro j k w x b hw hx hwb hxb
    rcases getElem?_concat_cases hw with hold | ⟨rfl, rfl⟩
    · rcases getElem?_concat_cases hx with hold' | ⟨rfl, rfl⟩
      · exact h.alone j k w x b hold hold' hwb hxb
      · exact absurd hxb (halone w (List.mem_of_getElem? hold) b hwb)
    · rcases getElem?_concat_cases hx with hold' | ⟨rfl, rfl⟩
      · exact absurd hwb (halone x (List.mem_of_getElem? hold') b hxb)
      · rfl
  · intro w hw
    rcases List.mem_append.1 hw with hw | hw
    · exact h.numElems_le w hw
    · rw [List.mem_singleton.1 hw]
      exact hle
  · rw [List.length_append, List.length_append, h.length]
    rfl
  · intro j w l hw hl
    rcases getElem?_concat_cases hw with hold | ⟨rfl, rfl⟩
    · rcases getElem?_concat_cases hl with hold' | ⟨rfl, -⟩
      · obtain ⟨hnum, hsize, hbytes⟩ := h.holds j w l hold hold'
        exact ⟨hnum, hsize, (hframe w (List.mem_of_getElem? hold)).trans hbytes⟩
      · exact absurd (List.getElem?_eq_some_iff.1 hold).1 (by rw [h.length]; exact lt_irrefl _)
    · rcases getElem?_concat_cases hl with hold' | ⟨-, rfl⟩
      · exact absurd (List.getElem?_eq_some_iff.1 hold').1 (by rw [h.length]; exact lt_irrefl _)
      · exact hholds

theorem append (h : s.Inv a) (hv : s.vectors[i]? = some v) {bs : List (BitVec 8)}
    (hsize : ∀ e ∈ elems, e.length = v.layout.size) (hbs : elems.flatten <+: bs)
    (hle : v.numElems + elems.length ≤ v.capacity)
    (hfit : v.numElems * v.layout.size + bs.length ≤ v.capacity * v.layout.size) :
    ({ s with
      memory := s.memory.write (v.elems + v.numElems * v.layout.size) bs
      vectors := s.vectors.set i { v with numElems := v.numElems + elems.length } } : State).Inv
        (a.modify i (· ++ elems)) := by
  obtain ⟨l, hl⟩ := h.exists_elems hv
  rw [modify_eq_set _ hl]
  have hholds := (h.holds i v l hv hl).append hsize hbs
  exact h.replace hv (h.owns v (List.mem_of_getElem? hv)) (h.alone_of hv rfl) hle
    (fun j w hj hw => h.frame hv hfit hj hw) hholds

theorem store (h : s.Inv a) (hrun : s.store i elems = some s') : s'.Inv (a.modify i (· ++ elems)) := by
  obtain ⟨v, hv, hres⟩ := Option.bind_eq_some_iff.1 hrun
  split_ifs at hres with hfit
  obtain rfl := Option.some.inj hres
  refine h.append hv hfit.2 (List.prefix_refl _) hfit.1 ?_
  rw [length_flatten_of hfit.2, ← Nat.add_mul]
  exact Nat.mul_le_mul_right _ hfit.1

theorem reserve (h : s.Inv a) (hv : s.vectors[i]? = some v) (hroom : room < 2 ^ 63)
    (hfits : v.capacity < v.numElems + room → GrowFits s v room) (hmalloc : Lawful s.factory malloc)
    (hrun : s.reserve i room malloc = some s') :
    s'.Inv a ∧ ∃ v', s'.vectors[i]? = some v' ∧ v'.layout = v.layout ∧ v'.numElems = v.numElems ∧
      v.numElems + room ≤ v'.capacity := by
  have hmem := List.mem_of_getElem? hv
  have hle := h.numElems_le v hmem
  have hcap := (le_mul_size v.layout v.capacity).trans_lt (h.capacity_lt hmem)
  have hsum : sizeT (v.numElems + room) = v.numElems + room := Nat.mod_eq_of_lt (by omega)
  rw [State.reserve, hv] at hrun
  change (if v.capacity < sizeT (v.numElems + room) then _ else _) = some s' at hrun
  rw [hsum] at hrun
  split_ifs at hrun with hgrow
  · obtain ⟨hinv, v', hv', hlayout, hnum, hcapacity⟩ := h.reallocate hv (hfits hgrow) hmalloc hrun
    exact ⟨hinv, v', hv', hlayout, hnum, by omega⟩
  · obtain rfl := Option.some.inj hrun
    exact ⟨h, v, hv, rfl, rfl, not_lt.1 hgrow⟩

/-! ## The operations -/

theorem create (h : s.Inv a) (T : Layout) : (s.create T).Inv (a ++ [[]]) := by
  refine h.concat ⟨rfl, rfl⟩ (fun w _ k _ => (Option.some_ne_none k).symm) le_rfl (fun w _ => rfl) ⟨rfl, ?_, ?_⟩
  · exact fun e he => absurd he List.not_mem_nil
  · exact congrArg (s.memory.read 0) (Nat.zero_mul _)

theorem copy {T : Layout} (h : s.Inv a) (hfits : Factory.Fits T elems.length) (hmalloc : Lawful s.factory malloc)
    (hrun : s.copy T elems malloc = some s') : s'.Inv (a ++ [elems]) := by
  obtain ⟨⟨p, s₁⟩, halloc, hres⟩ := Option.bind_eq_some_iff.1 hrun
  dsimp only at hres
  split_ifs at hres with hsize
  obtain rfl := Option.some.inj hres
  obtain ⟨hinv, hmemory, hvectors, hblocks⟩ := h.allocate hfits hmalloc halloc
  have hlast : s₁.blocks[s.blocks.length]? = some ⟨p, elems.length * T.size, T.alignLog⟩ := by
    rw [hblocks, List.getElem?_append_right le_rfl, Nat.sub_self]
    rfl
  have hfree : ∀ w ∈ s₁.vectors, w.block ≠ some s.blocks.length := fun w hw hk =>
    absurd (h.lt_of_block (hvectors ▸ hw) hk) (lt_irrefl _)
  have hlen := length_flatten_of hsize
  rw [← hmemory, ← hvectors]
  refine hinv.concat hlast (fun w hw k hk hk' => ?_) le_rfl (fun w hw => ?_) ⟨rfl, hsize, ?_⟩
  · exact hfree w hw (hk.trans hk'.symm)
  · refine hinv.frame_block hw hlast (hfree w hw) le_rfl ?_
    rw [hlen]
    exact le_rfl
  · dsimp only
    rw [← hlen]
    exact read_write _ _ _

theorem init {n : Nat} (h : s.Inv a) (hfits : ∀ v, s.vectors[i]? = some v → Factory.Fits v.layout n)
    (hmalloc : Lawful s.factory malloc) (hrun : s.init i n malloc = some s') : s'.Inv (a.set i []) := by
  obtain ⟨v, hv, hres⟩ := Option.bind_eq_some_iff.1 hrun
  obtain ⟨⟨p, s₁⟩, halloc, hlast⟩ := Option.bind_eq_some_iff.1 hres
  obtain rfl := Option.some.inj hlast
  obtain ⟨hinv, hmemory, hvectors, hblocks⟩ := h.allocate (hfits v hv) hmalloc halloc
  rw [← hvectors] at hv
  have hadopt := @adopt s₁ a i v hinv hv _ _ { v with elems := p, numElems := 0, capacity := n, block := some s.blocks.length }
    [] [] hblocks (fun w hw k hk => h.lt_of_block (hvectors ▸ hw) hk) rfl rfl (Nat.zero_le _) rfl
    (fun e he => absurd he List.not_mem_nil) (List.prefix_refl _) (Nat.zero_le _)
  rw [write_nil] at hadopt
  exact hadopt

theorem pushBack {newElem : Elem} (h : s.Inv a)
    (hfits : ∀ v, s.vectors[i]? = some v → v.capacity ≤ v.numElems → GrowFits s v 1)
    (hmalloc : Lawful s.factory malloc) (hrun : s.pushBack i newElem malloc = some s') :
    s'.Inv (a.modify i (· ++ [newElem])) := by
  obtain ⟨v, hv, hres⟩ := Option.bind_eq_some_iff.1 hrun
  split_ifs at hres with hgrow
  · obtain ⟨s₁, hreallocate, hstore⟩ := Option.bind_eq_some_iff.1 hres
    exact (h.reallocate hv (hfits v hv hgrow) hmalloc hreallocate).1.store hstore
  · exact h.store hres

theorem popBackVal (h : s.Inv a) (hrun : s.popBackVal i = some s') : s'.Inv (a.modify i List.dropLast) := by
  obtain ⟨v, hv, hres⟩ := Option.bind_eq_some_iff.1 hrun
  obtain rfl := Option.some.inj hres
  obtain ⟨l, hl⟩ := h.exists_elems hv
  have hholds := h.holds i v l hv hl
  rw [modify_eq_set _ hl, List.dropLast_eq_take, ← hholds.numElems]
  refine h.replace hv (h.owns v (List.mem_of_getElem? hv)) (h.alone_of hv rfl) ?_ (fun j w _ _ => rfl) ?_
  · exact (Nat.sub_le _ _).trans (h.numElems_le v (List.mem_of_getElem? hv))
  · exact hholds.take (hholds.numElems ▸ Nat.sub_le _ _)

theorem appendText {rhs : StringRef} (h : s.Inv a) (hroom : rhs.length < 2 ^ 63)
    (hfits : ∀ v, s.vectors[i]? = some v → v.capacity < v.numElems + rhs.length → GrowFits s v rhs.length)
    (hmalloc : Lawful s.factory malloc) (hrun : s.appendText i rhs malloc = some s') :
    s'.Inv (a.modify i (· ++ rhs.map fun c => [c])) := by
  obtain ⟨s₁, hreserve, hstore⟩ := Option.bind_eq_some_iff.1 hrun
  obtain ⟨v, hv, -⟩ := Option.bind_eq_some_iff.1 hreserve
  exact (h.reserve hv hroom (hfits v hv) hmalloc hreserve).1.store hstore

theorem printed_ne_nil (number : Int) : printed number ≠ [] := by
  rw [printed]
  split_ifs
  · exact List.cons_ne_nil _ _
  · exact decimal_ne_nil _

theorem appendNumber {number : Int} (h : s.Inv a)
    (hfits : ∀ v, s.vectors[i]? = some v → v.capacity < v.numElems + 8 → GrowFits s v 8)
    (hmalloc : Lawful s.factory malloc) (hrun : s.appendNumber i number malloc = some s') :
    s'.Inv (a.modify i (· ++ (printed number).map fun c => [c])) := by
  obtain ⟨s₁, hreserve, hres⟩ := Option.bind_eq_some_iff.1 hrun
  obtain ⟨v, hv, -⟩ := Option.bind_eq_some_iff.1 hreserve
  obtain ⟨hinv, v', hv', -, hnum, hcapacity⟩ := h.reserve hv (by decide) (hfits v hv) hmalloc hreserve
  rw [hv'] at hres
  change (if _ then _ else _) = some s' at hres
  split_ifs at hres with hshort
  obtain ⟨s₂, hstore, hlast⟩ := Option.bind_eq_some_iff.1 hres
  obtain rfl := Option.some.inj hlast
  rw [State.store, hv'] at hstore
  change (if _ then _ else _) = some s₂ at hstore
  split_ifs at hstore with hfit
  obtain rfl := Option.some.inj hstore
  have hsize : v'.layout.size = 1 := by
    obtain ⟨c, hc⟩ := List.exists_mem_of_ne_nil _ (printed_ne_nil number)
    exact (hfit.2 [c] (List.mem_map_of_mem hc)).symm
  refine hinv.append hv' hfit.2 ?_ hfit.1 ?_
  · rw [← List.flatMap_def, List.flatMap_singleton']
    exact List.prefix_append _ _
  · rw [hsize, List.length_append, List.length_singleton]
    omega

theorem reverseChildren {startingAt : Nat} (h : s.Inv a) (hrun : s.reverseChildren i startingAt = some s') :
    s'.Inv (a.modify i fun l => l.take startingAt ++ (l.drop startingAt).reverse) := by
  obtain ⟨v, hv, hres⟩ := Option.bind_eq_some_iff.1 hrun
  dsimp only at hres
  split_ifs at hres with hstart
  obtain rfl := Option.some.inj hres
  obtain ⟨l, hl⟩ := h.exists_elems hv
  have hmem := List.mem_of_getElem? hv
  have hholds := h.holds i v l hv hl
  have helems : (List.range' startingAt (v.numElems - startingAt)).map (fun k => s.elemBytes v k 1) =
      l.drop startingAt := by
    refine List.ext_getElem ?_ fun k hk hk' => ?_
    · rw [List.length_map, List.length_range', List.length_drop, hholds.numElems]
    · rw [List.length_drop] at hk'
      rw [List.getElem_map, List.getElem_range', List.getElem_drop, elemBytes, Nat.one_mul]
      exact hholds.get (by omega)
  have hreverse := hholds.reverse (hholds.numElems ▸ hstart)
  have hself : s.vectors.set i v = s.vectors := by
    rw [← (List.getElem?_eq_some_iff.1 hv).2, List.set_getElem_self]
  rw [modify_eq_set _ hl, helems]
  have hinv := h.replace hv (h.owns v hmem) (h.alone_of hv rfl) (h.numElems_le v hmem)
    (fun j w hj hw => h.frame hv ?_ hj hw) hreverse
  · rw [hself] at hinv
    exact hinv
  · rw [length_flatten_of (fun e he => hholds.size e (List.mem_of_mem_drop (List.mem_reverse.1 he))), ← Nat.add_mul,
      List.length_reverse, List.length_drop, ← hholds.numElems, Nat.add_sub_cancel' hstart]
    exact Nat.mul_le_mul_right _ (h.numElems_le v hmem)

theorem clear (h : s.Inv a) (hrun : s.clear = some s') : s'.Inv [] := by
  obtain ⟨factory, hfactory, hres⟩ := Option.bind_eq_some_iff.1 hrun
  obtain rfl := Option.some.inj hres
  obtain ⟨f', hclear, hvalid⟩ := h.factory.clear
  obtain rfl : f' = factory := Option.some.inj (hclear.symm.trans hfactory)
  refine ⟨hvalid, ?_, ?_, ?_, ?_, ?_, ?_, rfl, ?_⟩
  · exact fun b hb => absurd hb List.not_mem_nil
  · exact fun b hb => absurd hb List.not_mem_nil
  · exact fun i j b b' hb => absurd hb.symm (Option.some_ne_none b)
  · exact fun v hv => absurd hv List.not_mem_nil
  · exact fun i j v w k hv => absurd hv.symm (Option.some_ne_none v)
  · exact fun v hv => absurd hv List.not_mem_nil
  · exact fun i v elems hv => absurd hv.symm (Option.some_ne_none v)

end State.Inv

/-! ## Runs -/

/-- The array that was handed out for the vector has the bytes of its capacity. -/
def Reserved (blocks : List Block) (v : Vec) : Prop :=
  match v.block with
  | none => v.capacity = 0
  | some k => ∃ b, blocks[k]? = some b ∧ b.start = v.elems ∧ v.capacity * v.layout.size ≤ b.extent

/-- What is to hold of the arrays and the vectors; an array that was empty before the first slab was allocated
is at the null pointer. -/
structure WellPlaced (s : State) (a : Contents) : Prop where
  inside : ∀ b ∈ s.blocks, b.start = 0 ∧ b.extent = 0 ∨ ∃ slab ∈ s.factory.slabs, b.Inside slab
  aligned : ∀ b ∈ s.blocks, 2 ^ b.alignLog ∣ b.start
  apart : ∀ (i j : Nat) (b b' : Block), s.blocks[i]? = some b → s.blocks[j]? = some b' → i ≠ j → Apart b b'
  reserved : ∀ v ∈ s.vectors, v.numElems ≤ v.capacity ∧ Reserved s.blocks v
  length : a.length = s.vectors.length
  holds : ∀ (i : Nat) (v : Vec) (elems : List Elem), s.vectors[i]? = some v → a[i]? = some elems → Holds s.memory v elems

/-- The runs of a factory and its clients, with what the vectors are to hold. -/
inductive Run : State → Contents → Prop
  | new : Run .new []
  | step {s s' : State} {a : Contents} {op : Op} {malloc : Nat → Option Nat} (h : Run s a)
      (hmalloc : Lawful s.factory malloc) (hstep : step s op malloc = some s') : Run s' (abstractStep a op)

/-- No child is removed, and the byte counts of the arrays fit type `size_t`. -/
def Sized (s : State) : Op → Prop
  | .copy T elems => Factory.Fits T elems.length
  | .init i initialCapacity => ∀ v, s.vectors[i]? = some v → Factory.Fits v.layout initialCapacity
  | .reallocate i minGrowth => ∀ v, s.vectors[i]? = some v → GrowFits s v minGrowth
  | .pushBack i _ | .addChild i _ => ∀ v, s.vectors[i]? = some v → v.capacity ≤ v.numElems → GrowFits s v 1
  | .appendText i rhs => rhs.length < 2 ^ 63 ∧
      ∀ v, s.vectors[i]? = some v → v.capacity < v.numElems + rhs.length → GrowFits s v rhs.length
  | .appendNumber i _ => ∀ v, s.vectors[i]? = some v → v.capacity < v.numElems + 8 → GrowFits s v 8
  | .removeChildAt _ _ => False
  | .create _ | .popBackVal _ | .reverseChildren _ _ | .clear => True

/-- The runs all steps of which are `Sized`. -/
inductive SafeRun : State → Contents → Prop
  | new : SafeRun .new []
  | step {s s' : State} {a : Contents} {op : Op} {malloc : Nat → Option Nat} (h : SafeRun s a) (hsized : Sized s op)
      (hmalloc : Lawful s.factory malloc) (hstep : step s op malloc = some s') : SafeRun s' (abstractStep a op)

theorem State.Inv.wellPlaced {s : State} {a : Contents} (h : s.Inv a) : WellPlaced s a := by
  refine ⟨fun b hb => (h.placed b hb).inside, h.aligned, h.apart, fun v hv => ⟨h.numElems_le v hv, ?_⟩, h.length, h.holds⟩
  have howns := h.owns v hv
  rw [Owns] at howns
  rw [Reserved]
  cases hk : v.block with
  | none =>
      rw [hk] at howns
      exact howns.2
  | some k =>
      rw [hk] at howns
      exact ⟨_, howns, rfl, le_rfl⟩

theorem State.Inv.step {s s' : State} {a : Contents} {op : Op} {malloc : Nat → Option Nat} (h : s.Inv a)
    (hsized : Sized s op) (hmalloc : Lawful s.factory malloc) (hstep : step s op malloc = some s') :
    s'.Inv (abstractStep a op) := by
  cases op with
  | create T =>
      obtain rfl := Option.some.inj hstep
      exact h.create T
  | copy T elems => exact h.copy hsized hmalloc hstep
  | init i initialCapacity => exact h.init hsized hmalloc hstep
  | reallocate i minGrowth =>
      obtain ⟨v, hv, -⟩ := Option.bind_eq_some_iff.1 hstep
      exact (h.reallocate hv (hsized v hv) hmalloc hstep).1
  | pushBack i newElem => exact h.pushBack hsized hmalloc hstep
  | addChild i child => exact h.pushBack hsized hmalloc hstep
  | popBackVal i => exact h.popBackVal hstep
  | appendText i rhs => exact h.appendText hsized.1 hsized.2 hmalloc hstep
  | appendNumber i number => exact h.appendNumber hsized hmalloc hstep
  | removeChildAt i pos => exact hsized.elim
  | reverseChildren i startingAt => exact h.reverseChildren hstep
  | clear => exact h.clear hstep

theorem SafeRun.inv {s : State} {a : Contents} (h : SafeRun s a) : s.Inv a := by
  induction h with
  | new => exact State.Inv.new
  | step h hsized hmalloc hstep ih => exact ih.step hsized hmalloc hstep

theorem State.Inv.not_wellPlaced {s s' : State} {a a' : Contents} {i pos : Nat} {malloc : Nat → Option Nat} (h : s.Inv a)
    (hrun : s.removeChildAt i pos malloc = some s') : ¬ WellPlaced s' a' := by
  intro hplaced
  obtain ⟨v, hv, hres⟩ := Option.bind_eq_some_iff.1 hrun
  split_ifs at hres with hpos
  obtain ⟨⟨p, s₁⟩, halloc, hlast⟩ := Option.bind_eq_some_iff.1 hres
  obtain rfl := Option.some.inj hlast
  obtain ⟨⟨q, factory⟩, -, hnew⟩ := Option.bind_eq_some_iff.1 halloc
  obtain ⟨rfl, rfl⟩ := Prod.mk.inj (Option.some.inj hnew)
  obtain ⟨hi, -⟩ := List.getElem?_eq_some_iff.1 hv
  have hself := List.mem_of_getElem? (List.getElem?_set_self (a := { v with
    elems := q, numElems := v.numElems - 1, block := some s.blocks.length }) hi)
  obtain ⟨-, b, hb, -, hextent⟩ := hplaced.reserved _ hself
  have hblock : (s.blocks ++ [⟨q, sizeT ((v.numElems - 1) * v.layout.size), v.layout.alignLog⟩])[s.blocks.length]? =
      some b := hb
  rw [List.getElem?_append_right le_rfl, Nat.sub_self] at hblock
  obtain rfl := Option.some.inj hblock
  have hmod : sizeT ((v.numElems - 1) * v.layout.size) ≤ (v.numElems - 1) * v.layout.size := Nat.mod_le _ _
  have hlt : (v.numElems - 1) * v.layout.size < v.capacity * v.layout.size := by
    refine Nat.mul_lt_mul_of_pos_right ?_ v.layout.size_pos
    have hle := h.numElems_le v (List.mem_of_getElem? hv)
    omega
  exact absurd hextent (not_le.2 (hmod.trans_lt hlt))

def pointerElem (c : BitVec 8) : Elem := [c, 0, 0, 0, 0, 0, 0, 0]

def firstSlab (n : Nat) : Option Nat := if n = 9608 then some 4096 else none

theorem lawful_firstSlab : Lawful (State.new.create .pointer).factory firstSlab := by
  intro n p h
  rw [firstSlab] at h
  split_ifs at h with hn
  obtain rfl := Option.some.inj h
  exact ⟨by decide, by omega, fun s hs => absurd hs List.not_mem_nil⟩

theorem lawful_none (f : Factory) : Lawful f fun _ => none := fun _ p h => absurd h.symm (Option.some_ne_none p)

def oneChild : State :=
  ⟨⟨4136, 13704, [⟨4096, 9608⟩], 9600⟩, write (write (fun _ => 0) 4104 []) 4104 (pointerElem 1),
    [⟨.pointer, 4104, 1, 4, some 0⟩], [⟨4104, 32, 3⟩]⟩

theorem addChild_oneChild : step (State.new.create .pointer) (.addChild 0 (pointerElem 1)) firstSlab = some oneChild :=
  rfl

theorem safeRun_oneChild : SafeRun oneChild [[pointerElem 1]] := by
  have hcreate : SafeRun (State.new.create .pointer) [[]] :=
    @SafeRun.step _ _ _ (.create .pointer) _ .new trivial (lawful_none _) rfl
  refine @SafeRun.step _ _ _ (.addChild 0 (pointerElem 1)) _ hcreate (fun v hv _ => ?_) lawful_firstSlab
    addChild_oneChild
  obtain rfl := Option.some.inj hv
  exact ⟨by decide, fun _ => by unfold Factory.Fits; decide⟩

theorem SafeRun.run {s : State} {a : Contents} (h : SafeRun s a) : Run s a := by
  induction h with
  | new => exact .new
  | step h hsized hmalloc hstep ih => exact ih.step hmalloc hstep

end SwiftKStdlib.Demangling.NodeFactory
