import SwiftKStdlib.EncodedSequence.Storage

/-!
# Claiming and writing chunks

* `Room`, `Holds` : the chunks that a sequence has, with and without claimed ones that are not yet written;
* `Updates` : what an operation on one sequence may do to the heap;
* `claimStorage_spec`, `claimStorage_eq_none` : claiming works up to 65532 chunks, and fails behind that;
* `push_back_spec`, `push_back_eq_none`, `copyConstruct_spec`, `copyAssign_spec`, `destroy_spec`.
-/

namespace SwiftKStdlib.EncodedSequence

/-! ## What a sequence holds -/

/-- A sequence with the chunks `cs`, behind which `n` more are claimed. -/
def Room (h : Heap) (cs : List Chunk) (n : Nat) : Data → Prop
  | .word w => getInlineSize w = some (cs.length + n) ∧ cs.length + n ≤ inlineCapacity ∧
      (inlineStorage w).take cs.length = cs.map some
  | .pointer p => ∃ s, h.cells p = some s ∧ s.Size = cs.length + n ∧ s.Size ≤ s.Capacity ∧ s.Capacity ≤ 65532 ∧
      s.cells.length = s.Capacity ∧ s.cells.take cs.length = cs.map some

def Holds (h : Heap) (cs : List Chunk) (d : Data) : Prop := Room h cs 0 d

/-- An operation on the sequence with the word `d` frees or writes its storage or new one, and leaves it with `d'`. -/
structure Updates (h : Heap) (d : Data) (h' : Heap) (d' : Data) : Prop where
  next_le : h.next ≤ h'.next
  fresh : ∀ p, h'.next ≤ p → h'.cells p = none
  other : ∀ p, p < h.next → d ≠ .pointer p → h'.cells p = h.cells p
  pointer : ∀ p, d' = .pointer p → p < h'.next ∧ (d = .pointer p ∨ h.next ≤ p)

variable {h h' h'' : Heap} {d d' d'' other : Data} {cs es : List Chunk} {n p : Nat} {s : OutOfLineStorage}

theorem Updates.trans (hd : Updates h d h' d') (hd' : Updates h' d' h'' d'') : Updates h d h'' d'' := by
  refine ⟨hd.next_le.trans hd'.next_le, hd'.fresh, ?_, ?_⟩
  · intro p hp hne
    rw [hd'.other p (hp.trans_le hd.next_le), hd.other p hp hne]
    rintro rfl
    rcases (hd.pointer p rfl).2 with heq | hle
    · exact hne heq
    · exact absurd hp (not_lt.2 hle)
  · intro p hp
    obtain ⟨hlt, heq | hle⟩ := hd'.pointer p hp
    · obtain ⟨-, heq' | hle⟩ := hd.pointer p heq
      · exact ⟨hlt, .inl heq'⟩
      · exact ⟨hlt, .inr hle⟩
    · exact ⟨hlt, .inr (hd.next_le.trans hle)⟩

theorem Updates.word (hfresh : ∀ p, h.next ≤ p → h.cells p = none) (w : BitVec 64) : Updates h d h (.word w) where
  next_le := Nat.le_refl _
  fresh := hfresh
  other := fun _ _ _ => rfl
  pointer := by
    intro p hp
    cases hp

theorem Updates.store (hfresh : ∀ p, h.next ≤ p → h.cells p = none) (hp : p < h.next) (s : OutOfLineStorage) :
    Updates h (.pointer p) (h.store p s) (.pointer p) where
  next_le := Nat.le_refl _
  fresh := by
    intro q hq
    rw [h.store_cells_of_ne s (hp.trans_le hq).ne']
    exact hfresh q hq
  other := by
    intro q _ hne
    apply h.store_cells_of_ne
    rintro rfl
    exact hne rfl
  pointer := by
    intro q hq
    cases hq
    exact ⟨hp, .inl rfl⟩

theorem Updates.new (hfresh : ∀ p, h.next ≤ p → h.cells p = none) (s : OutOfLineStorage) :
    Updates h d (h.new s) (.pointer h.next) where
  next_le := Nat.le_succ _
  fresh := by
    intro q hq
    have hne : q ≠ h.next := by
      rintro rfl
      exact absurd hq (Nat.not_succ_le_self _)
    rw [h.new_cells_of_ne s hne]
    exact hfresh q ((Nat.le_succ _).trans hq)
  other := by
    intro q hq _
    exact h.new_cells_of_ne s hq.ne
  pointer := by
    intro q hq
    cases hq
    exact ⟨Nat.lt_succ_self _, .inr (Nat.le_refl _)⟩

theorem Room.lt_next (hfresh : ∀ p, h.next ≤ p → h.cells p = none) (hd : Room h cs n (.pointer p)) : p < h.next := by
  obtain ⟨s, hs, -⟩ := hd
  by_contra hle
  rw [hfresh p (not_lt.1 hle)] at hs
  cases hs

theorem Holds.chunks_eq (hd : Holds h cs d) : chunks h d = some (cs.map some) := by
  cases d with
  | word w =>
      obtain ⟨hsize, -, htake⟩ := hd
      rw [chunks, hsize, Option.map_some, Nat.add_zero, htake]
  | pointer p =>
      obtain ⟨s, hs, hsize, -, -, -, htake⟩ := hd
      rw [chunks, hs, Option.map_some, OutOfLineStorage.chunks, hsize, Nat.add_zero, htake]

theorem Room.congr (hd : Room h cs n d) (hcells : ∀ p, d = .pointer p → h'.cells p = h.cells p) : Room h' cs n d := by
  cases d with
  | word w => exact hd
  | pointer p =>
      obtain ⟨s, hs, hrest⟩ := hd
      exact ⟨s, (hcells p rfl).trans hs, hrest⟩

theorem setSize_eq_some (hn : n ≤ s.Capacity) (hcap : s.Capacity ≤ 65532) :
    s.setSize n = some { s with Size := n } := by
  rw [OutOfLineStorage.setSize, if_pos hn, Nat.mod_eq_of_lt (by omega)]

theorem setSize_eq_none (hn : s.Capacity < n) : s.setSize n = none := if_neg (not_le.2 hn)

/-! ## Operations -/

def Heap.Fresh (h : Heap) : Prop := ∀ p, h.next ≤ p → h.cells p = none

theorem destroy_spec (hfresh : h.Fresh) (hd : Room h cs n d) (w : BitVec 64) :
    ∃ h', destroy h d = some h' ∧ Updates h d h' (.word w) := by
  cases d with
  | word v =>
      refine ⟨h, ?_, .word hfresh w⟩
      rw [destroy, hasOutOfLineStorage_word hd.1]
      rfl
  | pointer p =>
      have hlt := hd.lt_next hfresh
      obtain ⟨s, hs, -⟩ := hd
      obtain ⟨h', hdelete, hnext, hnone, hother⟩ := Heap.delete_spec hs
      refine ⟨h', ?_, hnext.ge, ?_, ?_, ?_⟩
      · simp [destroy, Data.hasOutOfLineStorage, destroyOutOfLineStorage, getOutOfLineStorage, hs, hdelete]
      · intro q hq
        rw [hnext] at hq
        rw [hother q (hlt.trans_le hq).ne']
        exact hfresh q hq
      · intro q _ hne
        apply hother
        rintro rfl
        exact hne rfl
      · intro q hq
        cases hq

theorem alloc_setSize (hn : n ≤ 65532) :
    ∃ s, (OutOfLineStorage.alloc (newAllocSize (n + sizeofOutOfLineStorage) 0)).setSize n = some s ∧ s.Size = n ∧
      n ≤ s.Capacity ∧ s.Capacity ≤ 65532 ∧ s.cells.length = s.Capacity := by
  have hle := newAllocSize_le hn
  have hge := le_newAllocSize (n + sizeofOutOfLineStorage) 0
  have hcap := capacity_le n
  have hmod : (newAllocSize (n + sizeofOutOfLineStorage) 0 - sizeofOutOfLineStorage) % 2 ^ 16 =
      newAllocSize (n + sizeofOutOfLineStorage) 0 - sizeofOutOfLineStorage := by
    apply Nat.mod_eq_of_lt
    rw [sizeofOutOfLineStorage] at *
    omega
  have hroom : n ≤ newAllocSize (n + sizeofOutOfLineStorage) 0 - sizeofOutOfLineStorage := by omega
  rw [hmod] at hcap
  have hset : n ≤ (OutOfLineStorage.alloc (newAllocSize (n + sizeofOutOfLineStorage) 0)).Capacity := by
    rw [OutOfLineStorage.alloc, OutOfLineStorage.mk', hmod]
    exact hroom
  refine ⟨_, setSize_eq_some hset ?_, rfl, hset, ?_, ?_⟩
  · rw [OutOfLineStorage.alloc, OutOfLineStorage.mk', hmod]
    exact hcap
  · rw [OutOfLineStorage.alloc, OutOfLineStorage.mk', hmod]
    exact hcap
  · simp only [OutOfLineStorage.alloc, OutOfLineStorage.mk', List.length_replicate, hmod]

theorem alloc_setSize_eq_none (hn : 65532 < n) :
    (OutOfLineStorage.alloc (newAllocSize (n + sizeofOutOfLineStorage) 0)).setSize n = none := by
  apply setSize_eq_none
  exact (capacity_le n).trans_lt hn

theorem realloc_spec (hfresh : h.Fresh) (hd : Holds h cs d) (hn : cs.length + n ≤ 65532) :
    ∃ s cells h', (OutOfLineStorage.alloc (newAllocSize (cs.length + n + sizeofOutOfLineStorage) 0)).setSize
        (cs.length + n) = some s ∧ memcpy s.cells (cs.map some) = some cells ∧
      destroy (h.new { s with cells := cells }) d = some h' ∧ Room h' cs n (.pointer h.next) ∧
      Updates h d h' (.pointer h.next) := by
  obtain ⟨s, hs, hsize, hle, hcap, hlen⟩ := alloc_setSize hn
  have hcopy : (cs.map some).length ≤ s.cells.length := by
    rw [List.length_map, hlen]
    omega
  obtain ⟨cells, hcells⟩ : ∃ cells, memcpy s.cells (cs.map some) = some cells := ⟨_, memcpy_eq_some hcopy⟩
  obtain ⟨hcellslen, htake⟩ := take_memcpy hcells
  rw [List.length_map] at htake
  have hold : ∀ p, d = .pointer p → p < h.next := by
    rintro p rfl
    exact hd.lt_next hfresh
  have hnew : Updates h d (h.new { s with cells := cells }) (.pointer h.next) := .new hfresh _
  have hd' : Holds (h.new { s with cells := cells }) cs d := hd.congr fun p hp => h.new_cells_of_ne _ (hold p hp).ne
  obtain ⟨h', hdestroy, hupdates⟩ := destroy_spec hnew.fresh hd' 0
  have hne : d ≠ .pointer h.next := fun heq => absurd (hold _ heq) (lt_irrefl _)
  have hnext : h.next < h'.next := (Nat.lt_succ_self _).trans_le hupdates.next_le
  refine ⟨s, cells, h', hs, hcells, hdestroy, ?_, ?_⟩
  · refine ⟨{ s with cells := cells }, ?_, hsize, hsize.trans_le hle, hcap, hcellslen.trans hlen, htake⟩
    rw [hupdates.other h.next (Nat.lt_succ_self _) hne, h.new_cells_self]
  · refine ⟨hnext.le, hupdates.fresh, ?_, ?_⟩
    · intro p hp hdp
      rw [hupdates.other p (hp.trans (Nat.lt_succ_self _)) hdp, hnew.other p hp hdp]
    · rintro p hp
      cases hp
      exact ⟨hnext, .inr (Nat.le_refl _)⟩

theorem claimStorage_spec (hfresh : h.Fresh) (hd : Holds h cs d) (hn : cs.length + n ≤ 65532) :
    ∃ h' d', claimStorage h d n = some (h', d', cs.length) ∧ Room h' cs n d' ∧ Updates h d h' d' := by
  obtain ⟨s', cells, h', hset, hcopy, hdestroy, hroom, hupdates⟩ := realloc_spec hfresh hd hn
  unfold claimStorage
  rw [hd.chunks_eq]
  cases d with
  | word w =>
      obtain ⟨hsize, -, htake⟩ := hd
      simp only [chunkStorage, Option.bind_eq_bind, Option.bind_some, List.length_map, length_inlineStorage]
      by_cases hle : cs.length + n ≤ inlineCapacity
      · obtain ⟨w', hw', hsize', hstorage⟩ := setInlineSize_spec hsize hle
        rw [if_pos hle, hw', Option.bind_some]
        refine ⟨h, .word w', rfl, ⟨hsize', hle, ?_⟩, .word hfresh w'⟩
        rw [hstorage, htake]
      · rw [if_neg hle, hset, Option.bind_some, htake, hcopy, Option.bind_some, hdestroy, Option.bind_some]
        exact ⟨h', _, rfl, hroom, hupdates⟩
  | pointer p =>
      have hlt := hd.lt_next hfresh
      obtain ⟨s, hs, hsize, hsizele, hcap, hlen, htake⟩ := hd
      have hstorage : s.chunkStorage = s.cells := by rw [OutOfLineStorage.chunkStorage, ← hlen, List.take_length]
      simp only [chunkStorage, hs, Option.map_some, Option.bind_eq_bind, Option.bind_some, List.length_map, hstorage,
        hlen]
      by_cases hle : cs.length + n ≤ s.Capacity
      · rw [if_pos hle, setSize_eq_some hle hcap, Option.bind_some]
        refine ⟨_, _, rfl, ⟨_, h.store_cells_self _, rfl, hle, hcap, hlen, htake⟩, .store hfresh hlt _⟩
      · rw [if_neg hle, hset, Option.bind_some, htake, hcopy, Option.bind_some, hdestroy, Option.bind_some]
        exact ⟨h', _, rfl, hroom, hupdates⟩

theorem Holds.length_chunkStorage_le (hd : Holds h cs d) :
    ∃ cells, chunkStorage h d = some cells ∧ cells.length ≤ 65532 := by
  cases d with
  | word w => exact ⟨_, rfl, by rw [length_inlineStorage]; decide⟩
  | pointer p =>
      obtain ⟨s, hs, -, -, hcap, hlen, -⟩ := hd
      refine ⟨s.chunkStorage, by rw [chunkStorage, hs, Option.map_some], ?_⟩
      rw [OutOfLineStorage.chunkStorage, List.length_take]
      omega

theorem claimStorage_eq_none (hd : Holds h cs d) (hn : 65532 < cs.length + n) : claimStorage h d n = none := by
  obtain ⟨cells, hcells, hle⟩ := hd.length_chunkStorage_le
  unfold claimStorage
  rw [hd.chunks_eq, hcells]
  simp only [Option.bind_eq_bind, Option.bind_some, List.length_map]
  rw [if_neg (by omega), alloc_setSize_eq_none hn, Option.bind_none]

theorem write_spec (hfresh : h.Fresh) (hd : Room h cs es.length d) :
    ∃ h' d', write h d cs.length es = some (h', d') ∧ Holds h' (cs ++ es) d' ∧ Updates h d h' d' := by
  cases d with
  | word w =>
      obtain ⟨hsize, hle, htake⟩ := hd
      refine ⟨h, .word (writeInline w cs.length es), if_pos hle, ⟨?_, ?_, ?_⟩, .word hfresh _⟩
      · rw [getInlineSize_writeInline, hsize, List.length_append, Nat.add_zero]
      · rwa [List.length_append, Nat.add_zero]
      · rw [inlineStorage_writeInline w hle, List.length_append, List.map_append, ← htake]
        apply take_writeAt
        rwa [length_inlineStorage]
  | pointer p =>
      have hlt := hd.lt_next hfresh
      obtain ⟨s, hs, hsize, hsizele, hcap, hlen, htake⟩ := hd
      have hle : cs.length + es.length ≤ s.cells.length := by omega
      refine ⟨h.store p { s with cells := writeAt s.cells cs.length es }, .pointer p, ?_, ?_, .store hfresh hlt _⟩
      · simp only [write, hs, Option.bind_eq_bind, Option.bind_some, if_pos hle]
      · refine ⟨_, h.store_cells_self _, ?_, hsizele, hcap, ?_, ?_⟩
        · rw [hsize, List.length_append, Nat.add_zero]
        · rw [length_writeAt, hlen]
        · rw [List.length_append, take_writeAt _ _ _ hle, htake, List.map_append]

theorem write_eq_none (hd : Room h cs n d) (hes : 65532 < cs.length + es.length) : write h d cs.length es = none := by
  cases d with
  | word w =>
      rw [write, if_neg]
      rw [inlineCapacity]
      omega
  | pointer p =>
      obtain ⟨s, hs, -, -, hcap, hlen, -⟩ := hd
      simp only [write, hs, Option.bind_eq_bind, Option.bind_some]
      rw [if_neg (by omega)]

/-! ## Elements and copies -/

section PushBack

variable {E : Type} {T : Element E} {elt : E}

theorem push_back_spec (hfresh : h.Fresh) (hd : Holds h cs d) (hn : cs.length + (T.encode elt).length ≤ 65532) :
    ∃ h' d', push_back T h d elt = some (h', d') ∧ Holds h' (cs ++ T.encode elt) d' ∧ Updates h d h' d' := by
  have hsize : T.getEncodedSize elt = (T.encode elt).length := by
    rw [Element.getEncodedSize_eq, Nat.mod_eq_of_lt (by omega)]
  obtain ⟨h₁, d₁, hclaim, hroom, hupdates⟩ := claimStorage_spec hfresh hd hn
  obtain ⟨h₂, d₂, hwrite, hholds, hupdates'⟩ := write_spec hupdates.fresh hroom
  refine ⟨h₂, d₂, ?_, hholds, hupdates.trans hupdates'⟩
  simp only [push_back, hsize, hclaim, Option.bind_eq_bind, Option.bind_some, hwrite]

theorem push_back_eq_none (hfresh : h.Fresh) (hd : Holds h cs d) (hn : 65532 < cs.length + (T.encode elt).length) :
    push_back T h d elt = none := by
  unfold push_back
  by_cases hsize : cs.length + T.getEncodedSize elt ≤ 65532
  · obtain ⟨h₁, d₁, hclaim, hroom, -⟩ := claimStorage_spec hfresh hd hsize
    simp only [hclaim, Option.bind_eq_bind, Option.bind_some, write_eq_none hroom hn]
  · simp only [claimStorage_eq_none hd (not_le.1 hsize), Option.bind_eq_bind, Option.bind_none]

end PushBack

theorem clone_spec (hs : h.cells p = some s) (hd : Holds h cs (.pointer p)) :
    ∃ s', s.clone s.Capacity = some s' ∧ s'.Size = cs.length ∧ s'.Size ≤ s'.Capacity ∧ s'.Capacity ≤ 65532 ∧
      s'.cells.length = s'.Capacity ∧ s'.cells.take cs.length = cs.map some := by
  obtain ⟨s₀, hs₀, hsize, hle, hcap, hlen, htake⟩ := hd
  obtain rfl := Option.some.inj (hs.symm.trans hs₀)
  rw [Nat.add_zero] at hsize
  have hmod : s.Capacity % 2 ^ 16 = s.Capacity := Nat.mod_eq_of_lt (by omega)
  have hchunks : s.chunks = cs.map some := by rw [OutOfLineStorage.chunks, hsize, htake]
  have hset : (OutOfLineStorage.mk' s.Capacity s.Capacity).setSize s.Size =
      some ⟨s.Size, s.Capacity, List.replicate s.Capacity none⟩ := by
    rw [OutOfLineStorage.mk', hmod]
    exact setSize_eq_some hle hcap
  obtain ⟨cells, hcells⟩ : ∃ cells, memcpy (List.replicate s.Capacity none) (cs.map some) = some cells :=
    ⟨_, memcpy_eq_some (by rw [List.length_map, List.length_replicate]; omega)⟩
  obtain ⟨hcellslen, hcellstake⟩ := take_memcpy hcells
  rw [List.length_map] at hcellstake
  rw [List.length_replicate] at hcellslen
  refine ⟨⟨s.Size, s.Capacity, cells⟩, ?_, hsize, hle, hcap, hcellslen, hcellstake⟩
  simp only [OutOfLineStorage.clone, if_neg (not_lt.2 hle), hset, hchunks, hcells, Option.bind_eq_bind,
    Option.bind_some]

theorem copyConstruct_spec (hfresh : h.Fresh) (hd : Holds h cs other) (d : Data) :
    ∃ h' d', copyConstruct h other = some (h', d') ∧ Holds h' cs d' ∧ Updates h d h' d' := by
  cases other with
  | word w =>
      refine ⟨h, .word w, ?_, hd, .word hfresh w⟩
      rw [copyConstruct, hasOutOfLineStorage_word hd.1]
      rfl
  | pointer p =>
      obtain ⟨s, hs, -⟩ := id hd
      obtain ⟨s', hclone, hsize, hle, hcap, hlen, htake⟩ := clone_spec hs hd
      refine ⟨h.new s', .pointer h.next, ?_, ⟨s', h.new_cells_self s', hsize, hle, hcap, hlen, htake⟩,
        .new hfresh s'⟩
      simp [copyConstruct, Data.hasOutOfLineStorage, cloneOutOfLineStorage, getOutOfLineStorage, hs, hclone]

theorem copyAssign_spec (hfresh : h.Fresh) (hd : Holds h cs d) (hother : Holds h es other) :
    ∃ h' d', copyAssign h d other = some (h', d') ∧ Holds h' es d' ∧ Updates h d h' d' := by
  cases d with
  | word w =>
      obtain ⟨h', d', hcopy, hholds, hupdates⟩ := copyConstruct_spec hfresh hother (.word w)
      refine ⟨h', d', ?_, hholds, hupdates⟩
      rw [copyAssign, hasOutOfLineStorage_word hd.1]
      exact hcopy
  | pointer p =>
      have hlt := hd.lt_next hfresh
      obtain ⟨s, hs, hsize, hle, hcap, hlen, -⟩ := id hd
      simp only [copyAssign, Data.hasOutOfLineStorage, if_true, hother.chunks_eq, getOutOfLineStorage, hs,
        Option.map_some, Option.bind_eq_bind, Option.bind_some, List.length_map]
      by_cases hfits : es.length ≤ s.Capacity
      · rw [if_pos hfits]
        obtain ⟨cells, hcells⟩ : ∃ cells, memcpy s.cells (es.map some) = some cells :=
          ⟨_, memcpy_eq_some (by rw [List.length_map]; omega)⟩
        obtain ⟨hcellslen, htake⟩ := take_memcpy hcells
        rw [List.length_map] at htake
        have hset : OutOfLineStorage.setSize { s with cells := cells } es.length =
            some { s with cells := cells, Size := es.length } := setSize_eq_some hfits hcap
        rw [hcells, Option.bind_some, hset, Option.bind_some]
        exact ⟨_, _, rfl, ⟨_, h.store_cells_self _, rfl, hfits, hcap, hcellslen.trans hlen, htake⟩,
          .store hfresh hlt _⟩
      · rw [if_neg hfits]
        -- the storage that is freed is not the one that is copied
        have hne : other ≠ .pointer p := by
          rintro rfl
          obtain ⟨s', hs', hsize', hle', -⟩ := hother
          obtain rfl := Option.some.inj (hs.symm.trans hs')
          omega
        obtain ⟨h₁, hdestroy, hupdates⟩ := destroy_spec hfresh hd 0
        have hother' : Holds h₁ es other := by
          apply hother.congr
          rintro q rfl
          exact hupdates.other q (hother.lt_next hfresh) fun heq => hne heq.symm
        obtain ⟨h₂, d₂, hcopy, hholds, hupdates'⟩ := copyConstruct_spec hupdates.fresh hother' (.word 0)
        refine ⟨h₂, d₂, ?_, hholds, hupdates.trans hupdates'⟩
        rw [destroy, Data.hasOutOfLineStorage, if_pos rfl] at hdestroy
        rw [hdestroy, Option.bind_some, hcopy]

end SwiftKStdlib.EncodedSequence
