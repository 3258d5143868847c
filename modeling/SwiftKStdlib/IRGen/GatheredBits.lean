import SwiftKStdlib.IRGen.GatherSpareBits

/-!
# The bits that are gathered from a payload

* `moveOf` : how a bit of the payload is moved; `Movable`, `Moved`; `gatherChunks_spec`;
* `Gathers` : a value has the bits of the payload that the mask selects, side by side;
* `Fits` : every bit is moved to where it belongs, in the width of its chunk;
* `emitGatherSpareBits_gathers_iff` : the shapes of payload for which the generated code gathers.
-/

namespace SwiftKStdlib.IRGen

open Lib.BitWords

namespace EnumPayload

/-! ## Where the bits of a payload go -/

/-- Where a bit of the payload is taken from: a chunk of the size `size`, at the bit `bit`. The chunks
with a value have `taken` bits of the mask before it. -/
structure Move where
  size : Nat
  bit : Nat
  taken : Nat

abbrev Shape := List (Nat × Bool)

def shapeOf (pvs : List LazyValue) : Shape := pvs.map fun pv => (pv.size, pv.isType)

theorem shapeOf_type (size : Nat) (pvs : List LazyValue) :
    shapeOf (.type size :: pvs) = (size, true) :: shapeOf pvs := rfl

theorem shapeOf_value {size : Nat} (v : BitVec size) (pvs : List LazyValue) :
    shapeOf (.value v :: pvs) = (size, false) :: shapeOf pvs := rfl

def shape (payload : EnumPayload) : Shape := shapeOf payload.payloadValues

def moveOf (mask : List Bool) : Shape → Nat → Option Move
  | [], _ => none
  | (size, vacant) :: shape, p =>
    if p < size then if vacant then none else some ⟨size, p, rank mask p⟩
    else (moveOf (mask.drop size) shape (p - size)).map fun move =>
      { move with taken := (if vacant then 0 else rank mask size) + move.taken }

section Chunks

variable {w : Nat} {spareBits : List Bool} {payloadOffset size : Nat}

theorem length_spareBitsPart : (spareBitsPart spareBits payloadOffset size).length = size := by
  rw [spareBitsPart, List.length_map, List.length_range]

theorem bit_spareBitsPart {i : Nat} (hi : i < size) :
    bit (spareBitsPart spareBits payloadOffset size) i = bit (spareBits.drop payloadOffset) i := by
  rw [bit_drop, spareBitsPart, bit, List.getD_eq_getElem _ _ (by simpa using hi), List.getElem_map,
    List.getElem_range]

theorem rank_spareBitsPart {p : Nat} (hp : p ≤ size) :
    rank (spareBitsPart spareBits payloadOffset size) p = rank (spareBits.drop payloadOffset) p :=
  rank_congr fun _ hi => bit_spareBitsPart (lt_of_lt_of_le hi hp)

theorem count_spareBitsPart :
    (spareBitsPart spareBits payloadOffset size).count true = rank (spareBits.drop payloadOffset) size := by
  rw [← rank_length, length_spareBitsPart, rank_spareBitsPart (le_refl size)]

/-- Every bit of the mask can be shifted into place in the width of its chunk. -/
def Movable (mask : List Bool) (shape : Shape) (first w : Nat) : Prop :=
  ∀ p move, bit mask p = true → moveOf mask shape p = some move → first + move.taken < w →
    first + move.taken < move.bit + move.size

/-- A bit of the chunks that is moved to `j`. -/
def Moved (mask : List Bool) (pvs : List LazyValue) (first w j : Nat) : Prop :=
  j < w ∧ ∃ p move, bit mask p = true ∧ moveOf mask (shapeOf pvs) p = some move ∧
    first + move.taken = j ∧ j < move.size ∧ (chunksToNat pvs).testBit p = true

theorem moveOf_vacant (mask : List Bool) (size : Nat) (shape : Shape) (p : Nat) :
    moveOf mask ((size, true) :: shape) (size + p) = moveOf (mask.drop size) shape p := by
  rw [moveOf, if_neg (by omega), Nat.add_sub_cancel_left]
  simp

theorem moveOf_vacant_lt (mask : List Bool) {size p : Nat} (shape : Shape) (hp : p < size) :
    moveOf mask ((size, true) :: shape) p = none := by
  rw [moveOf, if_pos hp]
  rfl

theorem moveOf_value (mask : List Bool) (size : Nat) (shape : Shape) (p : Nat) :
    moveOf mask ((size, false) :: shape) (size + p) =
      (moveOf (mask.drop size) shape p).map fun move =>
        { move with taken := rank mask size + move.taken } := by
  rw [moveOf, if_neg (by omega), Nat.add_sub_cancel_left]
  rfl

theorem moveOf_value_lt (mask : List Bool) {size p : Nat} (shape : Shape) (hp : p < size) :
    moveOf mask ((size, false) :: shape) p = some ⟨size, p, rank mask p⟩ := by
  rw [moveOf, if_pos hp]
  rfl

theorem testBit_chunks_add (pv : LazyValue) (pvs : List LazyValue) (p : Nat) :
    (chunksToNat (pv :: pvs)).testBit (pv.size + p) = (chunksToNat pvs).testBit p := by
  rw [testBit_chunksToNat_cons, if_neg (by omega), Nat.add_sub_cancel_left]

theorem testBit_chunks_lt (pv : LazyValue) (pvs : List LazyValue) {p : Nat} (hp : p < pv.size) :
    (chunksToNat (pv :: pvs)).testBit p = pv.testBit p := by
  rw [testBit_chunksToNat_cons, if_pos hp]

variable {mask : List Bool} {first j : Nat}

theorem movable_vacant {shape : Shape} :
    Movable mask ((size, true) :: shape) first w ↔ Movable (mask.drop size) shape first w := by
  refine ⟨fun h p move hbit hmove => ?_, fun h p move hbit hmove => ?_⟩
  · rw [bit_drop] at hbit
    exact h (size + p) move hbit ((moveOf_vacant mask size shape p).trans hmove)
  · rcases Nat.lt_or_ge p size with hlt | hge
    · rw [moveOf_vacant_lt mask shape hlt] at hmove
      exact absurd hmove (by simp)
    · obtain ⟨q, rfl⟩ := Nat.exists_eq_add_of_le hge
      rw [moveOf_vacant] at hmove
      rw [← bit_drop] at hbit
      exact h q move hbit hmove

theorem moved_vacant {pvs : List LazyValue} :
    Moved mask (.type size :: pvs) first w j ↔ Moved (mask.drop size) pvs first w j := by
  refine ⟨fun h => ?_, fun h => ?_⟩
  · obtain ⟨hw, p, move, hbit, hmove, hplace, hsize, hset⟩ := h
    rcases Nat.lt_or_ge p size with hlt | hge
    · exact absurd (hmove.symm.trans (moveOf_vacant_lt mask (shapeOf pvs) hlt)) (by simp)
    · obtain ⟨q, rfl⟩ := Nat.exists_eq_add_of_le hge
      rw [← bit_drop] at hbit
      exact ⟨hw, q, move, hbit, (moveOf_vacant mask size _ q).symm.trans hmove, hplace, hsize,
        (testBit_chunks_add (.type size) pvs q).symm.trans hset⟩
  · obtain ⟨hw, p, move, hbit, hmove, hplace, hsize, hset⟩ := h
    rw [bit_drop] at hbit
    exact ⟨hw, size + p, move, hbit, (moveOf_vacant mask size _ p).trans hmove, hplace, hsize,
      (testBit_chunks_add (.type size) pvs p).trans hset⟩

theorem movable_value {shape : Shape} :
    Movable mask ((size, false) :: shape) first w ↔
      (∀ p, p < size → bit mask p = true → first + rank mask p < w → first + rank mask p < p + size) ∧
        Movable (mask.drop size) shape (first + rank mask size) w := by
  refine ⟨fun h => ⟨fun p hp hbit => ?_, fun p move hbit hmove => ?_⟩, fun h p move hbit hmove => ?_⟩
  · exact h p _ hbit (moveOf_value_lt mask shape hp)
  · rw [bit_drop] at hbit
    have hmove' := h (size + p) _ hbit ((moveOf_value mask size shape p).trans (by rw [hmove]; rfl))
    rwa [← Nat.add_assoc] at hmove'
  · rcases Nat.lt_or_ge p size with hlt | hge
    · rw [moveOf_value_lt mask shape hlt] at hmove
      obtain rfl := Option.some.inj hmove
      exact h.1 p hlt hbit
    · obtain ⟨q, rfl⟩ := Nat.exists_eq_add_of_le hge
      rw [moveOf_value, Option.map_eq_some_iff] at hmove
      obtain ⟨move', hmove', rfl⟩ := hmove
      rw [← bit_drop] at hbit
      rw [← Nat.add_assoc]
      exact h.2 q move' hbit hmove'

theorem moved_value {v : BitVec size} {pvs : List LazyValue} :
    Moved mask (.value v :: pvs) first w j ↔
      (j < w ∧ j < size ∧ ∃ p, p < size ∧ bit mask p = true ∧ first + rank mask p = j ∧
        v.getLsbD p = true) ∨ Moved (mask.drop size) pvs (first + rank mask size) w j := by
  refine ⟨fun h => ?_, fun h => ?_⟩
  · obtain ⟨hw, p, move, hbit, hmove, hplace, hsize, hset⟩ := h
    rcases Nat.lt_or_ge p size with hlt | hge
    · obtain rfl := Option.some.inj ((moveOf_value_lt mask (shapeOf pvs) hlt).symm.trans hmove)
      exact .inl ⟨hw, hsize, p, hlt, hbit, hplace, (testBit_chunks_lt (.value v) pvs hlt).symm.trans hset⟩
    · obtain ⟨q, rfl⟩ := Nat.exists_eq_add_of_le hge
      obtain ⟨move', hmove', rfl⟩ :=
        Option.map_eq_some_iff.1 ((moveOf_value mask size (shapeOf pvs) q).symm.trans hmove)
      rw [← bit_drop] at hbit
      exact .inr ⟨hw, q, move', hbit, hmove', by rw [← hplace, Nat.add_assoc], hsize,
        (testBit_chunks_add (.value v) pvs q).symm.trans hset⟩
  · rcases h with ⟨hw, hsize, p, hp, hbit, hplace, hset⟩ | h
    · exact ⟨hw, p, _, hbit, moveOf_value_lt mask (shapeOf pvs) hp, hplace, hsize,
        (testBit_chunks_lt (.value v) pvs hp).trans hset⟩
    · obtain ⟨hw, p, move, hbit, hmove, hplace, hsize, hset⟩ := h
      rw [bit_drop] at hbit
      refine ⟨hw, size + p, { move with taken := rank mask size + move.taken }, hbit, ?_,
        by rw [← hplace, Nat.add_assoc], hsize, (testBit_chunks_add (.value v) pvs p).trans hset⟩
      exact (moveOf_value mask size (shapeOf pvs) p).trans (by rw [hmove]; rfl)

theorem ones_part_ne_nil (h : ¬ rank (spareBits.drop payloadOffset) size = 0) :
    ones (spareBitsPart spareBits payloadOffset size) ≠ [] := by
  intro hnil
  have hlen := length_ones (spareBitsPart spareBits payloadOffset size)
  rw [hnil, count_spareBitsPart] at hlen
  exact h hlen.symm

theorem lt_of_bit_part {p : Nat} (h : bit (spareBitsPart spareBits payloadOffset size) p = true) :
    p < size := by
  have hlt := lt_length_of_bit h
  rwa [length_spareBitsPart] at hlt

theorem shiftable_part : Shiftable (spareBitsPart spareBits payloadOffset size) size first w 0 ↔
    ∀ p, p < size → bit (spareBits.drop payloadOffset) p = true →
      first + rank (spareBits.drop payloadOffset) p < w →
        first + rank (spareBits.drop payloadOffset) p < p + size := by
  refine ⟨fun h p hp hbit => ?_, fun h p _ hbit => ?_⟩
  · rw [← bit_spareBitsPart hp] at hbit
    rw [← rank_spareBitsPart (le_of_lt hp)]
    exact h p (Nat.zero_le p) hbit
  · have hp := lt_of_bit_part hbit
    rw [bit_spareBitsPart hp] at hbit
    rw [rank_spareBitsPart (le_of_lt hp)]
    exact h p hp hbit

theorem placed_part {v : BitVec size} :
    Placed (spareBitsPart spareBits payloadOffset size) v first w 0 j ↔ j < w ∧ j < size ∧ ∃ p, p < size ∧
      bit (spareBits.drop payloadOffset) p = true ∧ first + rank (spareBits.drop payloadOffset) p = j ∧
        v.getLsbD p = true := by
  refine ⟨fun h => ?_, fun h => ?_⟩
  · obtain ⟨hw, hsize, p, -, hbit, hplace, hset⟩ := h
    have hp := lt_of_bit_part hbit
    rw [bit_spareBitsPart hp] at hbit
    rw [rank_spareBitsPart (le_of_lt hp)] at hplace
    exact ⟨hw, hsize, p, hp, hbit, hplace, hset⟩
  · obtain ⟨hw, hsize, p, hp, hbit, hplace, hset⟩ := h
    rw [← bit_spareBitsPart hp] at hbit
    rw [← rank_spareBitsPart (le_of_lt hp)] at hplace
    exact ⟨hw, hsize, p, Nat.zero_le p, hbit, hplace, hset⟩

variable (spareBits) in
theorem gatherChunks_spec (pvs : List LazyValue) : ∀ payloadOffset first (acc : Option (BitVec w)),
    Movable (spareBits.drop payloadOffset) (shapeOf pvs) first w → ∃ acc',
      gatherChunks spareBits w pvs payloadOffset first acc = some acc' ∧
      ∀ j, (acc'.getD 0).getLsbD j = true ↔
        (acc.getD 0).getLsbD j = true ∨ Moved (spareBits.drop payloadOffset) pvs first w j := by
  induction pvs with
  | nil =>
    intro payloadOffset first acc _
    refine ⟨acc, rfl, fun j => ⟨.inl, fun h => h.resolve_right ?_⟩⟩
    rintro ⟨-, p, move, -, hmove, -⟩
    exact absurd hmove (by simp [shapeOf, moveOf])
  | cons pv pvs ih =>
    intro payloadOffset first acc hmovable
    cases pv with
    | type size =>
      rw [shapeOf_type, movable_vacant, List.drop_drop] at hmovable
      obtain ⟨acc', hchunks, hacc⟩ := ih _ _ acc hmovable
      refine ⟨acc', hchunks, fun j => ?_⟩
      rw [hacc, moved_vacant, List.drop_drop]
    | @value size v =>
      rw [shapeOf_value, movable_value, List.drop_drop] at hmovable
      obtain ⟨hhere, hrest⟩ := hmovable
      unfold gatherChunks
      dsimp only
      rw [count_spareBitsPart]
      split_ifs with hnone hfull
      · rw [hnone] at hrest
        obtain ⟨acc', hchunks, hacc⟩ := ih _ _ acc hrest
        refine ⟨acc', hchunks, fun j => ?_⟩
        rw [hacc, moved_value, List.drop_drop, hnone]
        refine or_congr_right ⟨.inr, fun h => h.resolve_left ?_⟩
        rintro ⟨-, -, p, hp, hbit, -⟩
        exact not_bit_of_rank hnone hp hbit
      · refine ⟨acc, rfl, fun j => ⟨.inl, fun h => h.resolve_right ?_⟩⟩
        rintro ⟨hw, p, move, -, -, hplace, -⟩
        omega
      · obtain ⟨bits, hbits, hplaced⟩ := emitGatherSpareBits_spec v length_spareBitsPart (ones_part_ne_nil hnone)
          (Nat.lt_of_not_le hfull) (shiftable_part.2 hhere)
        rw [hbits]
        obtain ⟨acc', hchunks, hacc⟩ := ih _ _ (some (accumulate acc bits)) hrest
        refine ⟨acc', hchunks, fun j => ?_⟩
        rw [hacc, Option.getD_some, getLsbD_accumulate, Bool.or_eq_true, hplaced, placed_part, moved_value,
          List.drop_drop, or_assoc]

variable (spareBits) in
theorem gatherChunks_eq_none (pvs : List LazyValue) : ∀ payloadOffset first (acc : Option (BitVec w)),
    ¬ Movable (spareBits.drop payloadOffset) (shapeOf pvs) first w →
      gatherChunks spareBits w pvs payloadOffset first acc = none := by
  induction pvs with
  | nil =>
    intro payloadOffset first acc hmovable
    refine absurd (fun p move _ hmove => ?_) hmovable
    exact absurd hmove (by simp [shapeOf, moveOf])
  | cons pv pvs ih =>
    intro payloadOffset first acc hmovable
    cases pv with
    | type size =>
      rw [shapeOf_type, movable_vacant, List.drop_drop] at hmovable
      exact ih _ _ acc hmovable
    | @value size v =>
      rw [shapeOf_value, movable_value, List.drop_drop] at hmovable
      unfold gatherChunks
      dsimp only
      rw [count_spareBitsPart]
      split_ifs with hnone hfull
      · refine ih _ _ acc fun hrest => hmovable ⟨fun p hp hbit _ => ?_, ?_⟩
        · exact absurd hbit (not_bit_of_rank hnone hp)
        · rw [hnone]
          exact hrest
      · exact absurd ⟨fun p _ _ hlt => by omega, fun p move _ _ hlt => by omega⟩ hmovable
      · by_cases hhere : Shiftable (spareBitsPart spareBits payloadOffset size) size first w 0
        · obtain ⟨bits, hbits, -⟩ := emitGatherSpareBits_spec v length_spareBitsPart (ones_part_ne_nil hnone)
            (Nat.lt_of_not_le hfull) hhere
          rw [hbits]
          exact ih _ _ _ fun hrest => hmovable ⟨shiftable_part.1 hhere, hrest⟩
        · rw [emitGatherSpareBits_eq_none v length_spareBitsPart hhere]
          rfl

end Chunks

/-! ## The bits that are gathered -/

/-- The value has the bits of the payload at the set bits of the mask, side by side from
`firstBitOffset` on. -/
structure Gathers (payload : EnumPayload) (spareBits : List Bool) (firstBitOffset : Nat) {w : Nat}
    (v : BitVec w) : Prop where
  gathered : ∀ i p, (ones spareBits)[i]? = some p → firstBitOffset + i < w →
    v.getLsbD (firstBitOffset + i) = payload.toNat.testBit p
  elsewhere : ∀ j, (∀ i p, (ones spareBits)[i]? = some p → j ≠ firstBitOffset + i) → v.getLsbD j = false

variable {w : Nat} {spareBits : List Bool} {first : Nat}

theorem gathers_iff {payload : EnumPayload} {v : BitVec w} : Gathers payload spareBits first v ↔
    ∀ j, v.getLsbD j = true ↔ j < w ∧ ∃ p, bit spareBits p = true ∧ first + rank spareBits p = j ∧
      payload.toNat.testBit p = true := by
  refine ⟨fun h j => ⟨fun hj => ?_, fun hj => ?_⟩, fun h => ⟨fun i p hp hlt => ?_, fun j hj => ?_⟩⟩
  · have hw : j < w := BitVec.lt_of_getLsbD hj
    by_contra hnone
    have hfalse := h.elsewhere j fun i p hp heq => by
      obtain ⟨hbit, hrank⟩ := getElem?_ones.1 hp
      rw [heq, h.gathered i p hp (heq ▸ hw)] at hj
      exact hnone ⟨hw, p, hbit, by omega, hj⟩
    rw [hfalse] at hj
    exact Bool.noConfusion hj
  · obtain ⟨hw, p, hbit, rfl, hset⟩ := hj
    rw [h.gathered _ p (getElem?_ones.2 ⟨hbit, rfl⟩) hw]
    exact hset
  · obtain ⟨hbit, rfl⟩ := getElem?_ones.1 hp
    rw [Bool.eq_iff_iff, h]
    refine ⟨fun hv => ?_, fun hset => ⟨hlt, p, hbit, rfl, hset⟩⟩
    obtain ⟨-, q, hq, hrank, hset⟩ := hv
    have hsame : some q = some p := by
      rw [← getElem?_ones.2 ⟨hq, rfl⟩, ← getElem?_ones.2 ⟨hbit, rfl⟩, Nat.add_left_cancel hrank]
    rwa [Option.some.inj hsame] at hset
  · rw [Bool.eq_false_iff]
    intro hv
    obtain ⟨-, p, hbit, hrank, -⟩ := (h j).1 hv
    exact hj _ p (getElem?_ones.2 ⟨hbit, rfl⟩) hrank.symm

/-- The bit belongs at the place `place`. When it is in the result, no mask bits are in vacant chunks before
it and its place is in the width of its chunk. When it is not, it is moved behind the result, or shifted
out of its chunk by less than the chunk's width. -/
def Move.Fits (move : Move) (first place w : Nat) : Prop :=
  if place < w then first + move.taken = place ∧ place < move.size
  else w ≤ first + move.taken ∨
    (move.size ≤ first + move.taken ∧ first + move.taken < move.bit + move.size)

instance (move : Move) (first place w : Nat) : Decidable (move.Fits first place w) := by
  unfold Move.Fits
  infer_instance

def Fits (shape : Shape) (spareBits : List Bool) (first w : Nat) : Prop :=
  ∀ p move, bit spareBits p = true → moveOf spareBits shape p = some move →
    move.Fits first (first + rank spareBits p) w

theorem Fits.movable {shape : Shape} (h : Fits shape spareBits first w) :
    Movable spareBits shape first w := by
  intro p move hbit hmove hlt
  have hfits := h p move hbit hmove
  unfold Move.Fits at hfits
  split_ifs at hfits with hplace
  · omega
  · omega

theorem exists_moveOf (mask : List Bool) {pvs : List LazyValue} {p : Nat}
    (h : (chunksToNat pvs).testBit p = true) : ∃ move, moveOf mask (shapeOf pvs) p = some move := by
  induction pvs generalizing mask p with
  | nil => exact absurd h (by simp [chunksToNat])
  | cons pv pvs ih =>
    rcases Nat.lt_or_ge p pv.size with hlt | hge
    · rw [testBit_chunks_lt pv pvs hlt] at h
      cases pv with
      | type size => exact absurd h (by simp)
      | value v => exact ⟨_, moveOf_value_lt mask (shapeOf pvs) hlt⟩
    · obtain ⟨q, rfl⟩ := Nat.exists_eq_add_of_le hge
      rw [testBit_chunks_add] at h
      obtain ⟨move, hmove⟩ := ih (mask.drop pv.size) h
      cases pv with
      | type size => exact ⟨move, (moveOf_vacant mask size (shapeOf pvs) q).trans hmove⟩
      | @value size v =>
        exact ⟨_, (moveOf_value mask size (shapeOf pvs) q).trans (congrArg (Option.map _) hmove)⟩

/-- The chunks of a shape, with the bits of a number where they have a value. -/
def chunksOf : Shape → Nat → List LazyValue
  | [], _ => []
  | (size, true) :: shape, x => .type size :: chunksOf shape (x >>> size)
  | (size, false) :: shape, x => .value (BitVec.ofNat size x) :: chunksOf shape (x >>> size)

theorem shapeOf_chunksOf (shape : Shape) (x : Nat) : shapeOf (chunksOf shape x) = shape := by
  induction shape generalizing x with
  | nil => rfl
  | cons chunk shape ih =>
    obtain ⟨size, vacant⟩ := chunk
    cases vacant with
    | true => rw [chunksOf, shapeOf_type, ih]
    | false => rw [chunksOf, shapeOf_value, ih]

theorem testBit_chunksOf {mask : List Bool} {shape : Shape} (x : Nat) {p : Nat} {move : Move}
    (h : moveOf mask shape p = some move) : (chunksToNat (chunksOf shape x)).testBit p = x.testBit p := by
  induction shape generalizing mask p move x with
  | nil => exact absurd h (by simp [moveOf])
  | cons chunk shape ih =>
    obtain ⟨size, vacant⟩ := chunk
    rcases Nat.lt_or_ge p size with hlt | hge
    · cases vacant with
      | true => exact absurd h (by rw [moveOf_vacant_lt mask shape hlt]; simp)
      | false =>
        rw [chunksOf, testBit_chunks_lt (.value (BitVec.ofNat size x)) _ hlt, LazyValue.testBit_value,
          BitVec.getLsbD_ofNat, decide_eq_true hlt, Bool.true_and]
    · obtain ⟨q, rfl⟩ := Nat.exists_eq_add_of_le hge
      cases vacant with
      | true =>
        rw [moveOf_vacant] at h
        refine (testBit_chunks_add (.type size) _ q).trans ?_
        rw [ih (x >>> size) h, Nat.testBit_shiftRight]
      | false =>
        rw [moveOf_value, Option.map_eq_some_iff] at h
        obtain ⟨move', hmove', -⟩ := h
        refine (testBit_chunks_add (.value (BitVec.ofNat size x)) _ q).trans ?_
        rw [ih (x >>> size) hmove', Nat.testBit_shiftRight]

theorem testBit_of_chunksOf {shape : Shape} {x p : Nat}
    (h : (chunksToNat (chunksOf shape x)).testBit p = true) : x.testBit p = true := by
  obtain ⟨move, hmove⟩ := exists_moveOf [] h
  rw [shapeOf_chunksOf] at hmove
  rwa [testBit_chunksOf x hmove] at h

theorem emitGatherSpareBits_spec {payload : EnumPayload} (h : Movable spareBits payload.shape first w) :
    ∃ v, payload.emitGatherSpareBits spareBits first w = some v ∧
      ∀ j, v.getLsbD j = true ↔ Moved spareBits payload.payloadValues first w j := by
  obtain ⟨acc, hchunks, hacc⟩ := gatherChunks_spec spareBits payload.payloadValues 0 first
    (none : Option (BitVec w)) h
  refine ⟨acc.getD 0, ?_, fun j => ?_⟩
  · rw [emitGatherSpareBits, hchunks]
    rfl
  · have hbit := hacc j
    simpa using hbit

theorem emitGatherSpareBits_eq_none {payload : EnumPayload}
    (h : ¬ Movable spareBits payload.shape first w) :
    payload.emitGatherSpareBits spareBits first w = none := by
  rw [emitGatherSpareBits, gatherChunks_eq_none spareBits payload.payloadValues 0 first none h]
  rfl

theorem Fits.gathers {payload : EnumPayload} (h : Fits payload.shape spareBits first w) {v : BitVec w}
    (hv : ∀ j, v.getLsbD j = true ↔ Moved spareBits payload.payloadValues first w j) :
    Gathers payload spareBits first v := by
  refine gathers_iff.2 fun j => ?_
  rw [hv]
  refine ⟨fun hmoved => ?_, fun hgathered => ?_⟩
  · obtain ⟨hw, p, move, hbit, hmove, hplace, hsize, hset⟩ := hmoved
    refine ⟨hw, p, hbit, ?_, hset⟩
    have hfits := h p move hbit hmove
    unfold Move.Fits at hfits
    split_ifs at hfits with hlt
    · omega
    · omega
  · obtain ⟨hw, p, hbit, hplace, hset⟩ := hgathered
    obtain ⟨move, hmove⟩ := exists_moveOf spareBits hset
    have hfits := h p move hbit hmove
    rw [Move.Fits, if_pos (by omega)] at hfits
    exact ⟨hw, p, move, hbit, hmove, by omega, by omega, hset⟩

theorem fits_of_gathers {shape : Shape} {p : Nat} {move : Move} (hbit : bit spareBits p = true)
    (hmove : moveOf spareBits shape p = some move) {v : BitVec w}
    (hgathers : Gathers ⟨chunksOf shape (2 ^ p)⟩ spareBits first v)
    (hv : ∀ j, v.getLsbD j = true ↔ Moved spareBits (chunksOf shape (2 ^ p)) first w j)
    (hshift : first + move.taken < w → first + move.taken < move.bit + move.size) :
    move.Fits first (first + rank spareBits p) w := by
  have hset : (chunksToNat (chunksOf shape (2 ^ p))).testBit p = true := by
    rw [testBit_chunksOf _ hmove, Nat.testBit_two_pow_self]
  have honly : ∀ q, (chunksToNat (chunksOf shape (2 ^ p))).testBit q = true → p = q := fun q hq => by
    have hpow := testBit_of_chunksOf hq
    rwa [Nat.testBit_two_pow, decide_eq_true_eq] at hpow
  have hiff := gathers_iff.1 hgathers
  unfold Move.Fits
  split_ifs with hlt
  · obtain ⟨-, q, move', hq, hmove', hplace, hsize, hset'⟩ :=
      (hv _).1 ((hiff _).2 ⟨hlt, p, hbit, rfl, hset⟩)
    obtain rfl := honly q hset'
    rw [shapeOf_chunksOf, hmove] at hmove'
    obtain rfl := Option.some.inj hmove'
    exact ⟨hplace, hsize⟩
  · by_contra hbad
    have hw : first + move.taken < w := by omega
    have hsize : first + move.taken < move.size := by
      have := hshift hw
      omega
    have hmoved : Moved spareBits (chunksOf shape (2 ^ p)) first w (first + move.taken) := by
      refine ⟨hw, p, move, hbit, ?_, rfl, hsize, hset⟩
      rw [shapeOf_chunksOf]
      exact hmove
    obtain ⟨-, q, -, hrank, hset'⟩ := (hiff _).1 ((hv _).2 hmoved)
    obtain rfl := honly q hset'
    omega

/-- The shapes for which the generated code gathers the bits of the mask, whatever the payload. -/
theorem emitGatherSpareBits_gathers_iff (shape : Shape) (spareBits : List Bool)
    (firstBitOffset bitWidth : Nat) :
    (∀ payload : EnumPayload, payload.shape = shape → ∃ v,
      payload.emitGatherSpareBits spareBits firstBitOffset bitWidth = some v ∧
        Gathers payload spareBits firstBitOffset v) ↔
      Fits shape spareBits firstBitOffset bitWidth := by
  refine ⟨fun h p move hbit hmove => ?_, fun h payload hshape => ?_⟩
  · have hshape : (EnumPayload.mk (chunksOf shape (2 ^ p))).shape = shape := shapeOf_chunksOf shape _
    obtain ⟨v, hemit, hgathers⟩ := h _ hshape
    by_cases hmovable : Movable spareBits shape firstBitOffset bitWidth
    · obtain ⟨v', hemit', hv⟩ := emitGatherSpareBits_spec (hshape.symm ▸ hmovable)
      obtain rfl := Option.some.inj (hemit.symm.trans hemit')
      exact fits_of_gathers hbit hmove hgathers hv (hmovable p move hbit hmove)
    · rw [emitGatherSpareBits_eq_none (hshape.symm ▸ hmovable)] at hemit
      exact absurd hemit (by simp)
  · subst hshape
    obtain ⟨v, hemit, hv⟩ := emitGatherSpareBits_spec h.movable
    exact ⟨v, hemit, h.gathers hv⟩

/-- A bit that is shifted out of its chunk: the mask has eight bits in a chunk of 32 bits, and the highest
bit of a chunk of 8 bits, which belongs at the place 8. -/
theorem not_gathers_narrow :
    let spareBits := List.replicate 8 true ++ List.replicate 31 false ++ [true]
    ¬ ∃ v, (EnumPayload.mk [.value 0#32, .value 0x80#8]).emitGatherSpareBits spareBits 0 32 = some v ∧
      Gathers ⟨[.value 0#32, .value 0x80#8]⟩ spareBits 0 v := by
  intro spareBits h
  obtain ⟨v, hemit, hgathers⟩ := h
  have hzero : (EnumPayload.mk [.value 0#32, .value 0x80#8]).emitGatherSpareBits spareBits 0 32 = some 0#32 := by
    decide
  obtain rfl := Option.some.inj (hemit.symm.trans hzero)
  have hbit := hgathers.gathered 8 39 (by decide) (by decide)
  exact absurd hbit (by decide)

end EnumPayload

end SwiftKStdlib.IRGen
