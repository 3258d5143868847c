import Mathlib.Tactic
import SwiftKStdlib.Demangling.NodeFactory

/-!
# What the node factory hands out

* `Apart`, `Placed` : arrays without a common byte, and an array in the used part of a slab;
* `Fresh`, `Lawful` : what `malloc` returns is apart from all slabs;
* `Factory.Valid` : the invariant of the allocator;
* `allocate_spec`, `grow_spec` : a new array, or the grown one, is apart from all others.
-/

namespace SwiftKStdlib.Demangling.NodeFactory

/-! ## Alignment -/

theorem and_not_low {x k : Nat} (hx : x < 2 ^ 64) (hk : k < 64) :
    x &&& (2 ^ 64 - 1 - (2 ^ k - 1)) = x / 2 ^ k * 2 ^ k := by
  have hmask : 2 ^ 64 - 1 - (2 ^ k - 1) = 2 ^ 64 - ((2 ^ k - 1) + 1) := by omega
  have hle : 2 ^ k - 1 < 2 ^ 64 := (Nat.sub_le _ _).trans_lt (Nat.pow_lt_pow_right (by decide) hk)
  refine Nat.eq_of_testBit_eq fun i => ?_
  rw [hmask, Nat.testBit_and, Nat.testBit_two_pow_sub_succ hle, Nat.testBit_two_pow_sub_one,
    ← Nat.shiftRight_eq_div_pow, ← Nat.shiftLeft_eq, Nat.testBit_shiftLeft, Nat.testBit_shiftRight]
  by_cases hi : i < 64
  · by_cases hik : i < k
    · simp [hik, Nat.not_le.2 hik]
    · simp [hi, hik, Nat.not_lt.1 hik]
  · rw [Nat.testBit_lt_two_pow (hx.trans_le (Nat.pow_le_pow_right (by decide) (not_lt.1 hi)))]
    have hki : k ≤ i := by omega
    simp [hki, Nat.testBit_lt_two_pow (hx.trans_le (Nat.pow_le_pow_right (by decide) (not_lt.1 hi)))]

theorem align_spec {ptr : Nat} {T : Layout} (h : ptr ≤ 2 ^ 63) :
    2 ^ T.alignLog ∣ Factory.align ptr T.alignof ∧ ptr ≤ Factory.align ptr T.alignof ∧
      Factory.align ptr T.alignof < ptr + T.alignof := by
  have hpos : 0 < 2 ^ T.alignLog := Nat.two_pow_pos _
  have hlt : 2 ^ T.alignLog ≤ 2 ^ 62 := Nat.pow_le_pow_right (by decide) (Nat.le_of_lt_succ T.alignLog_lt)
  have halign : Factory.align ptr T.alignof = (ptr + 2 ^ T.alignLog - 1) / 2 ^ T.alignLog * 2 ^ T.alignLog :=
    and_not_low (by rw [Layout.alignof]; omega) (T.alignLog_lt.trans (by decide))
  have hdiv := Nat.div_add_mod (ptr + 2 ^ T.alignLog - 1) (2 ^ T.alignLog)
  have hmod := Nat.mod_lt (ptr + 2 ^ T.alignLog - 1) hpos
  rw [Nat.mul_comm] at hdiv
  rw [halign, Layout.alignof]
  refine ⟨Dvd.intro_left _ rfl, ?_, ?_⟩ <;> omega

/-! ## Blocks and slabs -/

def Block.stop (b : Block) : Nat := b.start + b.extent

def Slab.stop (s : Slab) : Nat := s.start + s.size

def Apart (b b' : Block) : Prop := ∀ a, b.start ≤ a → a < b.stop → b'.start ≤ a → b'.stop ≤ a

theorem apart_iff {b b' : Block} :
    Apart b b' ↔ b.extent = 0 ∨ b'.extent = 0 ∨ b.stop ≤ b'.start ∨ b'.stop ≤ b.start := by
  simp only [Apart, Block.stop]
  constructor
  · intro h
    by_contra hcon
    have := h (max b.start b'.start) (le_max_left _ _) (by omega) (le_max_right _ _)
    omega
  · intro h a h1 h2 h3
    omega

theorem Apart.symm {b b' : Block} (h : Apart b b') : Apart b' b := by
  rw [apart_iff] at h ⊢
  tauto

def Slab.Apart (s t : Slab) : Prop := s.stop ≤ t.start ∨ t.stop ≤ s.start

def Block.Inside (b : Block) (s : Slab) : Prop := s.start + slabHeader ≤ b.start ∧ b.stop ≤ s.stop

/-- The array is empty, and there was no slab, or it lies inside one slab, in the current one in front of
`CurPtr`. -/
def Placed (f : Factory) (b : Block) : Prop :=
  b.start = 0 ∧ b.extent = 0 ∨
    match f.slabs with
    | [] => False
    | slab :: previous =>
      b.Inside slab ∧ b.stop ≤ f.curPtr ∨ ∃ s ∈ previous, b.Inside s

theorem Placed.inside {f : Factory} {b : Block} (h : Placed f b) : b.start = 0 ∧ b.extent = 0 ∨ ∃ s ∈ f.slabs, b.Inside s := by
  rcases h with hnull | h
  · exact .inl hnull
  · cases hs : f.slabs with
    | nil =>
        rw [hs] at h
        exact h.elim
    | cons slab previous =>
        rw [hs] at h
        rcases h with ⟨h, -⟩ | ⟨s, hmem, h⟩
        · exact .inr ⟨slab, List.mem_cons_self, h⟩
        · exact .inr ⟨s, List.mem_cons_of_mem slab hmem, h⟩

theorem apart_of_null {b b' : Block} (h : b.extent = 0) : Apart b b' := apart_iff.2 (.inl h)

theorem apart_of_inside {b b' : Block} {s t : Slab} (hb : b.Inside s) (hb' : b'.Inside t) (h : Slab.Apart s t) :
    Apart b b' := by
  simp only [Block.Inside, Slab.Apart, slabHeader, apart_iff, Block.stop, Slab.stop] at *
  omega

/-! ## malloc -/

/-- A block of `n` bytes at `p` is in the lower half of the address space, and apart from all slabs. -/
def Fresh (f : Factory) (n p : Nat) : Prop := 0 < p ∧ p + n ≤ 2 ^ 63 ∧ ∀ s ∈ f.slabs, Slab.Apart ⟨p, n⟩ s

/-- What `malloc` returns is fresh; it may return a null pointer. -/
def Lawful (f : Factory) (malloc : Nat → Option Nat) : Prop := ∀ n p, malloc n = some p → Fresh f n p

namespace Factory

/-- The invariant of the allocator. -/
structure Valid (f : Factory) : Prop where
  apart : f.slabs.Pairwise Slab.Apart
  bounds : ∀ s ∈ f.slabs, 0 < s.start ∧ s.stop ≤ 2 ^ 63
  slabSize : slabHeader + f.slabSize ≤ 2 ^ 63
  current : match f.slabs with
    | [] => f.curPtr = 0 ∧ f.endPtr = 0
    | slab :: _ => slab.start + slabHeader ≤ f.curPtr ∧ f.curPtr ≤ f.endPtr ∧ f.endPtr = slab.stop ∧
      slab.size = slabHeader + f.slabSize

theorem valid_new : new.Valid :=
  ⟨.nil, fun s hs => absurd hs List.not_mem_nil, by decide, ⟨rfl, rfl⟩⟩

variable {f f' : Factory} {T : Layout} {n p : Nat} {malloc : Nat → Option Nat}

theorem Valid.curPtr_le (h : f.Valid) : f.curPtr ≤ 2 ^ 63 := by
  have hcurrent := h.current
  cases hs : f.slabs with
  | nil =>
      rw [hs] at hcurrent
      have := hcurrent.1
      omega
  | cons slab previous =>
      rw [hs] at hcurrent
      have hbound := (h.bounds slab (by rw [hs]; exact List.mem_cons_self)).2
      obtain ⟨-, hle, hend, -⟩ := hcurrent
      omega

theorem Valid.apart_free (hf : f.Valid) {b b' : Block} (hb : Placed f b) (hstart : f.curPtr ≤ b'.start)
    (hstop : b'.stop ≤ f.endPtr) : Apart b b' := by
  rcases hb with ⟨-, hnull⟩ | hb
  · exact apart_of_null hnull
  · have hcurrent := hf.current
    have hapart := hf.apart
    cases hs : f.slabs with
    | nil =>
        rw [hs] at hb
        exact hb.elim
    | cons slab previous =>
        rw [hs] at hb hcurrent hapart
        rcases hb with ⟨-, hused⟩ | ⟨s, hmem, hin⟩
        · exact apart_iff.2 (.inr (.inr (.inl (hused.trans hstart))))
        · refine (apart_of_inside (s := slab) ⟨?_, ?_⟩ hin
            (List.rel_of_pairwise_cons hapart hmem)).symm
          · exact hcurrent.1.trans hstart
          · exact hstop.trans hcurrent.2.2.1.le

theorem Valid.advance (hf : f.Valid) {next : Nat} (hle : f.curPtr ≤ next) (hend : next ≤ f.endPtr) :
    ({ f with curPtr := next } : Factory).Valid ∧ ∀ b, Placed f b → Placed { f with curPtr := next } b := by
  have hcurrent := hf.current
  refine ⟨⟨hf.apart, hf.bounds, hf.slabSize, ?_⟩, fun b hb => hb.imp_right fun h => ?_⟩
  · cases hs : f.slabs with
    | nil =>
        rw [hs] at hcurrent
        rw [hcurrent.2] at hend
        exact ⟨Nat.le_zero.1 hend, hcurrent.2⟩
    | cons slab previous =>
        rw [hs] at hcurrent
        exact ⟨hcurrent.1.trans hle, hend, hcurrent.2.2⟩
  · cases hs : f.slabs with
    | nil =>
        rw [hs] at h
        exact h.elim
    | cons slab previous =>
        rw [hs] at h
        exact h.imp_left fun h => ⟨h.1, h.2.trans hle⟩

def Fits (T : Layout) (n : Nat) : Prop := slabHeader + n * T.size + T.alignof < 2 ^ 64

theorem allocate_spec (hf : f.Valid) (hfits : Fits T n) (hmalloc : Lawful f malloc)
    (h : f.allocate T n malloc = some (p, f')) :
    f'.Valid ∧ 2 ^ T.alignLog ∣ p ∧ Placed f' ⟨p, n * T.size, T.alignLog⟩ ∧
      ∀ b, Placed f b → Placed f' b ∧ Apart b ⟨p, n * T.size, T.alignLog⟩ := by
  have hobject : sizeT (n * T.size) = n * T.size := Nat.mod_eq_of_lt (by rw [Fits] at hfits; omega)
  obtain ⟨hdvd, hle, hlt⟩ := align_spec (T := T) hf.curPtr_le
  simp only [allocate, hobject] at h
  split_ifs at h with hspace
  · -- a new slab
    rw [Fits, slabHeader] at hfits
    have hbound := hf.slabSize
    rw [slabHeader] at hbound
    have hslab : sizeT (f.slabSize * 2) = f.slabSize * 2 := Nat.mod_eq_of_lt (by omega)
    have hneed : sizeT (n * T.size + T.alignof) = n * T.size + T.alignof := Nat.mod_eq_of_lt (by omega)
    have halloc : sizeT (slabHeader + max (f.slabSize * 2) (n * T.size + T.alignof)) =
        slabHeader + max (f.slabSize * 2) (n * T.size + T.alignof) :=
      Nat.mod_eq_of_lt (by rw [slabHeader]; omega)
    rw [hslab, hneed, halloc] at h
    split at h
    · cases h
    · next newSlab hnew =>
      split_ifs at h with hassert
      obtain ⟨rfl, rfl⟩ := Prod.mk.inj (Option.some.inj h)
      obtain ⟨hpos, hhigh, hapart⟩ := hmalloc _ _ hnew
      have hlow : newSlab + slabHeader ≤ 2 ^ 63 := le_trans (by omega) hhigh
      obtain ⟨hdvd', hle', -⟩ := align_spec (T := T) hlow
      have hinside : Block.Inside ⟨align (newSlab + slabHeader) T.alignof, n * T.size, T.alignLog⟩
          ⟨newSlab, slabHeader + max (f.slabSize * 2) (n * T.size + T.alignof)⟩ := ⟨hle', hassert⟩
      refine ⟨⟨?_, ?_, ?_, ?_⟩, hdvd', .inr (.inl ⟨hinside, le_rfl⟩), fun b hb => ⟨?_, ?_⟩⟩
      · exact List.pairwise_cons.2 ⟨hapart, hf.apart⟩
      · exact List.forall_mem_cons.2 ⟨⟨hpos, hhigh⟩, hf.bounds⟩
      · exact le_trans (Nat.le_add_left _ _) hhigh
      · exact ⟨le_trans hle' (Nat.le_add_right _ _), hassert, rfl, rfl⟩
      · exact hb.inside.imp_right .inr
      · rcases hb.inside with ⟨-, hnull⟩ | ⟨s, hs, hin⟩
        · exact apart_of_null hnull
        · exact (apart_of_inside hinside hin (hapart s hs)).symm
  · -- the current slab
    obtain ⟨rfl, rfl⟩ := Prod.mk.inj (Option.some.inj h)
    have hcurrent := hf.current
    obtain ⟨hvalid, hextends⟩ := hf.advance (hle.trans (Nat.le_add_right _ _)) (not_lt.1 hspace)
    refine ⟨hvalid, hdvd, ?_, fun b hb => ⟨hextends b hb, hf.apart_free hb hle (not_lt.1 hspace)⟩⟩
    cases hs : f.slabs with
    | nil =>
        rw [hs] at hcurrent
        rw [hcurrent.2] at hspace
        exact .inl ⟨by dsimp only; omega, by dsimp only; omega⟩
    | cons slab previous =>
        rw [hs] at hcurrent
        exact .inr (.inl ⟨⟨hcurrent.1.trans hle, (not_lt.1 hspace).trans hcurrent.2.2.1.le⟩, le_rfl⟩)

theorem grow_spec (hf : f.Valid) {b : Block} {add : Nat} (hb : Placed f b) (hstop : b.stop = f.curPtr)
    (hend : f.curPtr + add ≤ f.endPtr) :
    ({ f with curPtr := f.curPtr + add } : Factory).Valid ∧
      Placed { f with curPtr := f.curPtr + add } { b with extent := b.extent + add } ∧
      ∀ b', Placed f b' → Placed { f with curPtr := f.curPtr + add } b' ∧
        (Apart b' b → Apart b' { b with extent := b.extent + add }) := by
  obtain ⟨hvalid, hextends⟩ := hf.advance (Nat.le_add_right _ _) hend
  refine ⟨hvalid, ?_, fun b' hb' => ⟨hextends b' hb', fun hapart => ?_⟩⟩
  · have hcurrent := hf.current
    have hapart := hf.apart
    rw [Block.stop] at hstop
    cases hs : f.slabs with
    | nil =>
        rw [hs] at hcurrent
        refine .inl ⟨?_, ?_⟩
        · change b.start = 0
          omega
        · change b.extent + add = 0
          omega
    | cons slab previous =>
        rw [hs] at hcurrent hapart
        rcases hb with ⟨hstart, hextent⟩ | hb
        · -- there is no array at the null pointer in a slab
          rw [slabHeader] at hcurrent
          omega
        · rw [hs] at hb
          rcases hb with ⟨hin, -⟩ | ⟨s, hmem, hin⟩
          · have hused : b.start + (b.extent + add) = f.curPtr + add := by omega
            refine .inr ?_
            change (_ ∧ _) ∨ _
            refine .inl ⟨⟨hin.1, ?_⟩, hused.le⟩
            exact (hused.le.trans hend).trans hcurrent.2.2.1.le
          · -- the end of a previous slab is not in the current one
            have hdisjoint := List.rel_of_pairwise_cons hapart hmem
            simp only [Block.Inside, Block.stop, Slab.Apart, Slab.stop, slabHeader] at hin hdisjoint hcurrent
            omega
  · have hfree : Apart b' ⟨f.curPtr, add, 0⟩ := hf.apart_free hb' le_rfl hend
    simp only [apart_iff, Block.stop] at hapart hfree hstop ⊢
    omega

theorem Valid.clear (hf : f.Valid) : ∃ f', f.clear = some f' ∧ f'.Valid := by
  have hcurrent := hf.current
  rw [Factory.clear]
  cases hs : f.slabs with
  | nil => exact ⟨f, rfl, hf⟩
  | cons slab previous =>
      rw [hs] at hcurrent
      obtain ⟨hle, hle', hstop, hsize⟩ := hcurrent
      have hassert : f.endPtr = slab.start + slabHeader + f.slabSize := by
        rw [hstop, Slab.stop, hsize, Nat.add_assoc]
      refine ⟨_, if_pos hassert, ?_, ?_, hf.slabSize, ?_⟩
      · exact List.pairwise_singleton _ _
      · intro s hmem
        rw [List.mem_singleton.1 hmem]
        exact hf.bounds slab (by rw [hs]; exact List.mem_cons_self)
      · exact ⟨le_rfl, hle.trans hle', hstop, hsize⟩

end Factory

end SwiftKStdlib.Demangling.NodeFactory
