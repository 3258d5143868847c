import SwiftKStdlib.IRGen.PayloadValues

/-!
# Values come back from enum payloads

* `Clashes` : a value that lies on a chunk of its width to which it cannot be cast;
* `insertValue_spec`, `extractValue_spec` : what the functions do to the bits of the payload;
* `insertAll` : values in places that do not overlap, in any order;
* `payloads_roundTrip_iff` : what is inserted, or packed, comes back unless it clashes.
-/

namespace SwiftKStdlib.IRGen

namespace TypedPayload

/-! ## The loop -/

def chunksBit (cs : List TypedChunk) (i : Nat) : Bool := (EnumPayload.chunksToNat (cs.map TypedChunk.erase)).testBit i

def chunksSize (cs : List TypedChunk) : Nat := (cs.map fun c => c.payloadType.bits).sum

/-- A chunk of the size of the type begins at the offset, and the type cannot be cast to that of the chunk. -/
def Clashes (type : Ty) (types : List Ty) (offset : Nat) : Prop :=
  ∃ before chunk after, types = before ++ chunk :: after ∧ (before.map Ty.bits).sum = offset ∧
    chunk.bits = type.bits ∧ ¬ Castable type chunk

section Loop

variable {c : TypedChunk} {cs : List TypedChunk} {type : Ty} {types : List Ty} {value : TypedValue} {p o : Nat}

@[simp] theorem chunksSize_cons : chunksSize (c :: cs) = c.payloadType.bits + chunksSize cs := by simp [chunksSize]

theorem chunksBit_cons (i : Nat) : chunksBit (c :: cs) i =
    if i < c.payloadType.bits then c.testBit i else chunksBit cs (i - c.payloadType.bits) := by
  unfold chunksBit
  rw [List.map_cons, EnumPayload.testBit_chunksToNat_cons, TypedChunk.size_erase]
  rfl

theorem clashes_zero {chunk : Ty} (hbits : chunk.bits = type.bits) (hcast : ¬ Castable type chunk) :
    Clashes type (chunk :: types) 0 := ⟨[], chunk, types, rfl, rfl, hbits, hcast⟩

theorem Clashes.cons {chunk : Ty} {offset : Nat} (h : Clashes type types offset) :
    Clashes type (chunk :: types) (chunk.bits + offset) := by
  obtain ⟨before, chunk', after, rfl, rfl, hbits, hcast⟩ := h
  exact ⟨chunk :: before, chunk', after, rfl, rfl, hbits, hcast⟩

theorem not_clashes {offset : Nat} (h : ∀ chunk ∈ types, chunk.bits = type.bits → Castable type chunk) :
    ¬ Clashes type types offset := by
  rintro ⟨before, chunk, after, rfl, -, hbits, hcast⟩
  exact hcast (h chunk (by simp) hbits)

theorem castable_of_not_clashes (hclash : o = 0 → ¬ Clashes type ((c :: cs).map TypedChunk.payloadType) p) (hp : p = 0)
    (ho : o = 0) (hsize : c.payloadType.bits = type.bits) : Castable type c.payloadType := by
  subst hp
  by_contra hcast
  exact hclash ho (clashes_zero hsize hcast)

theorem not_clashes_tail (hclash : ¬ Clashes type ((c :: cs).map TypedChunk.payloadType) p) (hp : c.payloadType.bits ≤ p) :
    ¬ Clashes type (cs.map TypedChunk.payloadType) (p - c.payloadType.bits) := by
  intro h
  apply hclash
  rw [← Nat.add_sub_cancel' hp]
  exact h.cons

/-- The value is merged from its bit `o` on at the offset `p`. -/
theorem insertChunks_spec (ho : o < value.ty.bits) (hpo : p = 0 ∨ o = 0)
    (hfits : p + (value.ty.bits - o) ≤ chunksSize cs)
    (hzero : ∀ i, p ≤ i → i - p + o < value.ty.bits → chunksBit cs i = false)
    (hclash : o = 0 → ¬ Clashes value.ty (cs.map TypedChunk.payloadType) p) :
    ∃ cs', withChunks value.ty.bits (fun _ c p o => (insertChunk value c p o).map ((), ·)) p o () cs = some ((), cs') ∧
      cs'.map TypedChunk.payloadType = cs.map TypedChunk.payloadType ∧
      ∀ i, chunksBit cs' i = (chunksBit cs i || (decide (p ≤ i) && value.bits.getLsbD (i - p + o))) := by
  induction cs generalizing p o with
  | nil =>
    rw [show chunksSize [] = 0 from rfl] at hfits
    omega
  | cons c cs ih =>
    have hpos := c.payloadType.bits_pos
    rw [chunksSize_cons] at hfits
    have hhead (i : Nat) (hi : p ≤ i) (hlt : i - p + o < value.ty.bits) : c.testBit i = false := by
      by_cases him : i < c.payloadType.bits
      · rw [← hzero i hi hlt, chunksBit_cons, if_pos him]
      · exact TypedChunk.testBit_of_le (Nat.le_of_not_lt him)
    have htail (i : Nat) (hi : p ≤ i + c.payloadType.bits) (hlt : i + c.payloadType.bits - p + o < value.ty.bits) :
        chunksBit cs i = false := by
      rw [← hzero _ hi hlt, chunksBit_cons, if_neg (by omega), Nat.add_sub_cancel]
    rw [withChunks]
    dsimp only
    by_cases hp : p < c.payloadType.bits
    · obtain ⟨v, hv, hty, hbits⟩ := insertChunk_spec hp ho hhead (castable_of_not_clashes hclash)
      rw [if_pos hp, hv]
      by_cases hdone : value.ty.bits ≤ o + min (c.payloadType.bits - p) (value.ty.bits - o)
      · refine ⟨.value v :: cs, if_pos hdone, by simp [hty], fun i => ?_⟩
        rw [chunksBit_cons, chunksBit_cons, TypedChunk.payloadType_value, hty, TypedChunk.testBit_value]
        split_ifs with hi
        · exact hbits i hi
        · rw [BitVec.getLsbD_of_ge value.bits _ (by omega), Bool.and_false, Bool.or_false]
      · obtain ⟨cs', hcs', htypes, hbits'⟩ := ih (p := p - c.payloadType.bits)
          (o := o + min (c.payloadType.bits - p) (value.ty.bits - o)) (by omega) (by omega) (by omega)
          (fun i hi hlt => htail i (by omega) (by omega)) (fun h => absurd h (by omega))
        refine ⟨.value v :: cs', ?_, by simp [hty, htypes], fun i => ?_⟩
        · simp only [Option.map_some, Option.bind_eq_bind, Option.bind_some, if_neg hdone, hcs']
        · rw [chunksBit_cons, chunksBit_cons, TypedChunk.payloadType_value, hty, TypedChunk.testBit_value]
          split_ifs with hi
          · exact hbits i hi
          · rw [hbits', decide_eq_true (show p - c.payloadType.bits ≤ i - c.payloadType.bits by omega),
              decide_eq_true (show p ≤ i by omega),
              show i - c.payloadType.bits - (p - c.payloadType.bits) + (o + min (c.payloadType.bits - p) (value.ty.bits - o)) =
                i - p + o by omega]
    · obtain rfl : o = 0 := by omega
      obtain ⟨cs', hcs', htypes, hbits⟩ := ih (p := p - c.payloadType.bits) ho (.inr rfl) (by omega)
        (fun i hi hlt => htail i (by omega) (by omega)) fun _ => not_clashes_tail (hclash rfl) (Nat.le_of_not_lt hp)
      refine ⟨c :: cs', ?_, by simp [htypes], fun i => ?_⟩
      · rw [if_neg hp, hcs']
        rfl
      · rw [chunksBit_cons, chunksBit_cons]
        split_ifs with hi
        · simp [show ¬ p ≤ i by omega]
        · rw [hbits, show i - c.payloadType.bits - (p - c.payloadType.bits) = i - p by omega]
          congr 2
          exact decide_eq_decide.2 (by omega)

theorem insertChunks_eq_none {p : Nat} (h : Clashes value.ty (cs.map TypedChunk.payloadType) p) :
    withChunks value.ty.bits (fun _ c p o => (insertChunk value c p o).map ((), ·)) p 0 () cs = none := by
  induction cs generalizing p with
  | nil => rfl
  | cons c cs ih =>
    have hpos := c.payloadType.bits_pos
    obtain ⟨before, chunk, after, htypes, rfl, hbits, hcast⟩ := h
    rw [withChunks]
    dsimp only
    cases before with
    | nil =>
      obtain ⟨rfl, -⟩ := List.cons.inj htypes
      rw [List.map_nil, List.sum_nil, if_pos hpos, insertChunk_eq_none hbits hcast]
      rfl
    | cons first before =>
      obtain ⟨rfl, hrest⟩ := List.cons.inj htypes
      rw [List.map_cons, List.sum_cons, if_neg (by omega), Nat.add_sub_cancel_left,
        ih ⟨before, chunk, after, hrest, rfl, hbits, hcast⟩]
      rfl

/-- The result has the bits of the chunks from `p` on, from its bit `o` on. -/
theorem extractChunks_spec {result : Option TypedValue} (ho : o < type.bits) (hpo : p = 0 ∨ o = 0)
    (hfits : p + (type.bits - o) ≤ chunksSize cs) (hresult : ∀ r, result = some r → r.ty = type.toInteger)
    (hfirst : o = 0 → result = none) (hclash : o = 0 → ¬ Clashes type (cs.map TypedChunk.payloadType) p) :
    ∃ r cs', withChunks type.bits (extractChunk type) p o result cs = some (some r, cs') ∧ Castable r.ty type ∧
      (∀ j < type.bits, r.bits.getLsbD j = (resultBit result j || (decide (o ≤ j) && chunksBit cs (j - o + p)))) ∧
      cs'.map TypedChunk.payloadType = cs.map TypedChunk.payloadType ∧ ∀ i, chunksBit cs' i = chunksBit cs i := by
  induction cs generalizing p o result with
  | nil =>
    rw [show chunksSize [] = 0 from rfl] at hfits
    omega
  | cons c cs ih =>
    have hpos := c.payloadType.bits_pos
    rw [chunksSize_cons] at hfits
    rw [withChunks]
    dsimp only
    by_cases hp : p < c.payloadType.bits
    · obtain ⟨r, hr, hcast, hty, hbits⟩ := extractChunk_spec hp ho hresult fun hp0 ho0 hsize =>
        ⟨hfirst ho0, (castable_of_not_clashes hclash hp0 ho0 hsize).symm⟩
      rw [if_pos hp, hr]
      by_cases hdone : type.bits ≤ o + min (c.payloadType.bits - p) (type.bits - o)
      · refine ⟨r, .value c.forcePayloadValue :: cs, if_pos hdone, hcast, fun j hj => ?_, by simp, fun i => ?_⟩
        · rw [hbits j hj, chunksBit_cons]
          by_cases hoj : o ≤ j
          · rw [if_pos (by omega)]
          · simp [hoj]
        · simp [chunksBit_cons]
      · obtain ⟨r', cs', hcs', hcast', hbits', htypes, hsame⟩ := ih (p := p - c.payloadType.bits)
          (o := o + min (c.payloadType.bits - p) (type.bits - o)) (by omega) (by omega) (by omega)
          (fun r' (h : some r = some r') => by
            cases h
            exact hty.resolve_right (by omega)) (fun h => absurd h (by omega)) (fun h => absurd h (by omega))
        refine ⟨r', .value c.forcePayloadValue :: cs', ?_, hcast', fun j hj => ?_, by simp [htypes], fun i => ?_⟩
        · simp only [Option.bind_eq_bind, Option.bind_some, if_neg hdone, hcs']
        · rw [hbits' j hj, show resultBit (some r) j = r.bits.getLsbD j from rfl, hbits j hj, chunksBit_cons, Bool.or_assoc]
          congr 1
          by_cases hoj : o ≤ j
          · by_cases hin : j - o + p < c.payloadType.bits
            · simp [hoj, hin, show ¬ (o + min (c.payloadType.bits - p) (type.bits - o) ≤ j) by omega]
            · rw [if_neg hin, TypedChunk.testBit_of_le (Nat.le_of_not_lt hin),
                decide_eq_true (show o + min (c.payloadType.bits - p) (type.bits - o) ≤ j by omega), decide_eq_true hoj,
                show j - (o + min (c.payloadType.bits - p) (type.bits - o)) + (p - c.payloadType.bits) =
                  j - o + p - c.payloadType.bits by omega]
              simp
          · simp [hoj, show ¬ (o + min (c.payloadType.bits - p) (type.bits - o) ≤ j) by omega]
        · simp [chunksBit_cons, hsame]
    · obtain rfl : o = 0 := by omega
      obtain ⟨r, cs', hcs', hcast, hbits, htypes, hsame⟩ := ih (p := p - c.payloadType.bits) ho (.inr rfl) (by omega)
        hresult hfirst fun _ => not_clashes_tail (hclash rfl) (Nat.le_of_not_lt hp)
      refine ⟨r, c :: cs', ?_, hcast, fun j hj => ?_, by simp [htypes], fun i => ?_⟩
      · rw [if_neg hp, hcs']
        rfl
      · rw [hbits j hj, chunksBit_cons, if_neg (by omega),
          show j - 0 + p - c.payloadType.bits = j - 0 + (p - c.payloadType.bits) by omega]
      · simp [chunksBit_cons, hsame]

end Loop

/-! ## Insertion and extraction -/

def testBit (payload : TypedPayload) (i : Nat) : Bool := payload.erase.toNat.testBit i

def bitSize (payload : TypedPayload) : Nat := (payload.types.map Ty.bits).sum

theorem bitSize_eq (payload : TypedPayload) : payload.bitSize = chunksSize payload.payloadValues := by
  unfold bitSize types chunksSize
  rw [List.map_map]
  rfl

theorem insertValue_spec {payload : TypedPayload} {value : TypedValue} {offset : Nat}
    (hinside : offset + value.ty.bits ≤ payload.bitSize)
    (hzero : ∀ i, offset ≤ i → i < offset + value.ty.bits → payload.testBit i = false)
    (hclash : ¬ Clashes value.ty payload.types offset) : ∃ payload', payload.insertValue value offset (-1) = some payload' ∧
      payload'.types = payload.types ∧
      ∀ i, payload'.testBit i = (payload.testBit i || (decide (offset ≤ i) && value.bits.getLsbD (i - offset))) := by
  rw [bitSize_eq] at hinside
  obtain ⟨cs', hcs', htypes, hbits⟩ := insertChunks_spec (p := offset) value.ty.bits_pos
    (.inr rfl) hinside (fun i hi hlt => hzero i hi (by omega)) fun _ => hclash
  refine ⟨⟨cs'⟩, ?_, htypes, hbits⟩
  unfold insertValue withValueInPayload
  dsimp only
  rw [if_pos (by omega), if_pos (by omega), hcs']
  rfl

theorem insertValue_eq_none {payload : TypedPayload} {value : TypedValue} {offset : Nat}
    (hclash : Clashes value.ty payload.types offset) : payload.insertValue value offset (-1) = none := by
  unfold insertValue withValueInPayload
  dsimp only
  rw [if_pos (by omega), if_pos (by omega), insertChunks_eq_none hclash]
  rfl

def Same (payload payload' : TypedPayload) : Prop :=
  payload'.types = payload.types ∧ payload'.erase.toNat = payload.erase.toNat

theorem extractValue_spec {payload : TypedPayload} (value : TypedValue) (offset : Nat)
    (hinside : offset + value.ty.bits ≤ payload.bitSize)
    (hbits : ∀ j < value.ty.bits, payload.testBit (offset + j) = value.bits.getLsbD j)
    (hclash : ¬ Clashes value.ty payload.types offset) :
    ∃ payload', payload.extractValue value.ty offset = some (value, payload') ∧ payload.Same payload' := by
  rw [bitSize_eq] at hinside
  obtain ⟨r, cs', hcs', hcast, hr, htypes, hsame⟩ := extractChunks_spec (p := offset) value.ty.bits_pos
    (.inr rfl) hinside (fun r (h : none = some r) => by cases h) (fun _ => rfl) fun _ => hclash
  refine ⟨⟨cs'⟩, ?_, htypes, Nat.eq_of_testBit_eq hsame⟩
  unfold extractValue withValueInPayload
  dsimp only
  rw [if_pos (by omega), if_pos (by have := value.ty.bits_pos; omega), hcs']
  simp only [Option.bind_eq_bind, Option.bind_some]
  rw [createBitOrPointerCast_eq hcast, Option.bind_some]
  have hvalue : r.bits.setWidth value.ty.bits = value.bits := by
    apply BitVec.eq_of_getLsbD_eq
    intro j hj
    rw [BitVec.getLsbD_setWidth, decide_eq_true hj, Bool.true_and, hr j hj, ← hbits j hj, Nat.add_comm offset]
    simp only [resultBit, Option.map_none, Option.getD_none, Nat.zero_le, decide_true, Bool.false_or, Bool.true_and,
      Nat.sub_zero]
    rfl
  rw [hvalue]

/-! ## Many values -/

structure Insertion where
  value : TypedValue
  offset : Nat

namespace Insertion

def Disjoint (x y : Insertion) : Prop := x.offset + x.value.ty.bits ≤ y.offset ∨ y.offset + y.value.ty.bits ≤ x.offset

instance (x y : Insertion) : Decidable (Disjoint x y) := inferInstanceAs (Decidable (_ ∨ _))

instance : Std.Symm Disjoint := ⟨fun _ _ => Or.symm⟩

def testBit (x : Insertion) (i : Nat) : Bool := decide (x.offset ≤ i) && x.value.bits.getLsbD (i - x.offset)

theorem testBit_eq_false {x : Insertion} {i : Nat} (h : i < x.offset ∨ x.offset + x.value.ty.bits ≤ i) :
    x.testBit i = false := by
  rcases h with h | h
  · simp [testBit, h]
  · rw [testBit, BitVec.getLsbD_of_ge _ _ (by omega), Bool.and_false]

end Insertion

def insertAll (payload : TypedPayload) (insertions : List Insertion) : Option TypedPayload :=
  insertions.foldlM (fun payload x => payload.insertValue x.value x.offset (-1)) payload

def union (insertions : List Insertion) : Nat :=
  (insertions.map fun x => x.value.bits.toNat <<< x.offset).foldr (· ||| ·) 0

theorem testBit_union (insertions : List Insertion) (i : Nat) :
    (union insertions).testBit i = insertions.any fun x => x.testBit i := by
  induction insertions with
  | nil => simp [union]
  | cons x rest ih =>
    unfold union at ih ⊢
    rw [List.map_cons, List.foldr_cons, Nat.testBit_or, ih, List.any_cons, Nat.testBit_shiftLeft]
    rfl

section Insertions

variable {payload : TypedPayload} {insertions : List Insertion}

theorem insertAll_spec (hinside : ∀ x ∈ insertions, x.offset + x.value.ty.bits ≤ payload.bitSize)
    (hdisjoint : insertions.Pairwise Insertion.Disjoint)
    (hzero : ∀ x ∈ insertions, ∀ i, x.offset ≤ i → i < x.offset + x.value.ty.bits → payload.testBit i = false)
    (hclash : ∀ x ∈ insertions, ¬ Clashes x.value.ty payload.types x.offset) :
    ∃ payload', payload.insertAll insertions = some payload' ∧ payload'.types = payload.types ∧
      ∀ i, payload'.testBit i = (payload.testBit i || insertions.any fun x => x.testBit i) := by
  induction insertions generalizing payload with
  | nil => exact ⟨payload, rfl, rfl, fun i => by simp⟩
  | cons x rest ih =>
    obtain ⟨hx, hrest⟩ := List.pairwise_cons.1 hdisjoint
    obtain ⟨payload₁, hinsert, htypes, hbits⟩ := insertValue_spec (hinside x List.mem_cons_self)
      (hzero x List.mem_cons_self) (hclash x List.mem_cons_self)
    obtain ⟨payload₂, hall, htypes', hbits'⟩ := @ih payload₁
      (fun y hy => by
        rw [bitSize, htypes]
        exact hinside y (List.mem_cons_of_mem _ hy)) hrest
      (fun y hy i hi hlt => by
        rw [hbits, hzero y (List.mem_cons_of_mem _ hy) i hi hlt, Bool.false_or]
        apply Insertion.testBit_eq_false
        have := hx y hy
        unfold Insertion.Disjoint at this
        omega)
      (fun y hy => by
        rw [htypes]
        exact hclash y (List.mem_cons_of_mem _ hy))
    refine ⟨payload₂, ?_, htypes'.trans htypes, fun i => ?_⟩
    · rw [insertAll, List.foldlM_cons, hinsert]
      exact hall
    · rw [hbits', hbits, List.any_cons, Bool.or_assoc]
      rfl

theorem insertAll_eq_none (hinside : ∀ x ∈ insertions, x.offset + x.value.ty.bits ≤ payload.bitSize)
    (hdisjoint : insertions.Pairwise Insertion.Disjoint)
    (hzero : ∀ x ∈ insertions, ∀ i, x.offset ≤ i → i < x.offset + x.value.ty.bits → payload.testBit i = false)
    (hclash : ∃ x ∈ insertions, Clashes x.value.ty payload.types x.offset) : payload.insertAll insertions = none := by
  induction insertions generalizing payload with
  | nil =>
    obtain ⟨x, hx, -⟩ := hclash
    exact absurd hx List.not_mem_nil
  | cons x rest ih =>
    obtain ⟨hx, hrest⟩ := List.pairwise_cons.1 hdisjoint
    rw [insertAll, List.foldlM_cons]
    by_cases hfirst : Clashes x.value.ty payload.types x.offset
    · rw [insertValue_eq_none hfirst]
      rfl
    · obtain ⟨payload₁, hinsert, htypes, hbits⟩ := insertValue_spec (hinside x List.mem_cons_self)
        (hzero x List.mem_cons_self) hfirst
      rw [hinsert]
      refine @ih payload₁ (fun y hy => ?_) hrest (fun y hy i hi hlt => ?_) ?_
      · rw [bitSize, htypes]
        exact hinside y (List.mem_cons_of_mem _ hy)
      · rw [hbits, hzero y (List.mem_cons_of_mem _ hy) i hi hlt, Bool.false_or]
        apply Insertion.testBit_eq_false
        have := hx y hy
        unfold Insertion.Disjoint at this
        omega
      · obtain ⟨y, hy, hy'⟩ := hclash
        rw [htypes]
        rcases List.mem_cons.1 hy with rfl | hy
        · exact absurd hy' hfirst
        · exact ⟨y, hy, hy'⟩

theorem any_testBit (hdisjoint : insertions.Pairwise Insertion.Disjoint) {x : Insertion} (hx : x ∈ insertions) {j : Nat}
    (hj : j < x.value.ty.bits) : (insertions.any fun y => y.testBit (x.offset + j)) = x.value.bits.getLsbD j := by
  have hself : x.testBit (x.offset + j) = x.value.bits.getLsbD j := by simp [Insertion.testBit]
  rw [Bool.eq_iff_iff, List.any_eq_true, ← hself]
  refine ⟨fun ⟨y, hy, hbit⟩ => ?_, fun h => ⟨x, hx, h⟩⟩
  by_cases hxy : y = x
  · exact hxy ▸ hbit
  · have hapart := hdisjoint.forall hy hx hxy
    rw [Insertion.testBit_eq_false] at hbit
    · cases hbit
    · unfold Insertion.Disjoint at hapart
      omega

end Insertions

/-! ## Round trips -/

/-- The values are inserted, the payload is their union, and each is extracted again. -/
def RoundTrips (IGM : IRGenModule) (schema : TypedSchema) (insertions : List Insertion) : Prop :=
  ∃ payload, (zero IGM schema).insertAll insertions = some payload ∧ payload.erase.toNat = union insertions ∧
    ∀ x ∈ insertions, ∃ payload', payload.extractValue x.value.ty x.offset = some (x.value, payload') ∧ payload.Same payload'

def PackRoundTrips (IGM : IRGenModule) (schema : TypedSchema) (payload outerPayload : TypedPayload) (bitOffset : Nat) : Prop :=
  ∃ outer inner outer', payload.packIntoEnumPayload outerPayload bitOffset = some (outer, inner) ∧ payload.Same inner ∧
    unpackFromEnumPayload IGM outer bitOffset schema = some (inner, outer')

@[simp] theorem types_zero (IGM : IRGenModule) (schema : TypedSchema) :
    (zero IGM schema).types = schema.forEachType IGM := by
  unfold zero types
  rw [List.map_map]
  exact List.map_id _

theorem toNat_zero (IGM : IRGenModule) (schema : TypedSchema) : (zero IGM schema).erase.toNat = 0 := by
  unfold zero erase EnumPayload.toNat
  dsimp only
  induction schema.forEachType IGM with
  | nil => rfl
  | cons ty types ih => rw [List.map_cons, List.map_cons, TypedChunk.erase, EnumPayload.chunksToNat_type, ih, Nat.mul_zero]

theorem testBit_zero (IGM : IRGenModule) (schema : TypedSchema) (i : Nat) : (zero IGM schema).testBit i = false := by
  rw [testBit, toNat_zero, Nat.zero_testBit]

section RoundTrips

variable {IGM : IRGenModule} {schema : TypedSchema} {insertions : List Insertion}

theorem roundTrips_iff (hinside : ∀ x ∈ insertions, x.offset + x.value.ty.bits ≤ (zero IGM schema).bitSize)
    (hdisjoint : insertions.Pairwise Insertion.Disjoint) : RoundTrips IGM schema insertions ↔
      ∀ x ∈ insertions, ¬ Clashes x.value.ty (schema.forEachType IGM) x.offset := by
  have hzero : ∀ x ∈ insertions, ∀ i, x.offset ≤ i → i < x.offset + x.value.ty.bits →
      (zero IGM schema).testBit i = false := fun x _ i _ _ => testBit_zero IGM schema i
  rw [← types_zero]
  refine ⟨fun ⟨payload, hall, _⟩ x hx hclash => ?_, fun hclash => ?_⟩
  · rw [insertAll_eq_none hinside hdisjoint hzero ⟨x, hx, hclash⟩] at hall
    cases hall
  · obtain ⟨payload, hall, htypes, hbits⟩ := insertAll_spec hinside hdisjoint hzero hclash
    simp only [testBit_zero, Bool.false_or] at hbits
    refine ⟨payload, hall, ?_, fun x hx => ?_⟩
    · apply Nat.eq_of_testBit_eq
      intro i
      rw [testBit_union]
      exact hbits i
    · apply extractValue_spec
      · rw [bitSize, htypes]
        exact hinside x hx
      · intro j hj
        rw [hbits, any_testBit hdisjoint hx hj]
      · rw [htypes]
        exact hclash x hx

/-- The values that `packIntoEnumPayload` inserts. -/
def pieces : List TypedChunk → Nat → List Insertion
  | [], _ => []
  | c :: cs, offset => ⟨c.forcePayloadValue, offset⟩ :: pieces cs (offset + c.forcePayloadValue.ty.bits)

variable {cs : List TypedChunk} {payload outerPayload : TypedPayload} {offset : Nat}

theorem packChunks_eq : packChunks cs outerPayload offset = outerPayload.insertAll (pieces cs offset) := by
  induction cs generalizing outerPayload offset with
  | nil => rfl
  | cons c cs ih =>
    rw [packChunks, pieces, insertAll, List.foldlM_cons]
    congr 1
    funext payload
    exact ih

theorem mem_pieces {x : Insertion} (hx : x ∈ pieces cs offset) :
    offset ≤ x.offset ∧ x.offset + x.value.ty.bits ≤ offset + chunksSize cs := by
  induction cs generalizing offset with
  | nil => exact absurd hx List.not_mem_nil
  | cons c cs ih =>
    rw [chunksSize_cons]
    rcases List.mem_cons.1 hx with rfl | hx
    · dsimp only
      rw [TypedChunk.ty_forcePayloadValue]
      omega
    · have := ih hx
      rw [TypedChunk.ty_forcePayloadValue] at this
      omega

theorem pairwise_pieces (cs : List TypedChunk) (offset : Nat) : (pieces cs offset).Pairwise Insertion.Disjoint := by
  induction cs generalizing offset with
  | nil => exact List.Pairwise.nil
  | cons c cs ih => exact List.pairwise_cons.2 ⟨fun x hx => .inl (mem_pieces hx).1, ih _⟩

theorem unpackChunks_spec (hinside : offset + chunksSize cs ≤ outerPayload.bitSize)
    (hbits : ∀ x ∈ pieces cs offset, ∀ j < x.value.ty.bits,
      outerPayload.testBit (x.offset + j) = x.value.bits.getLsbD j)
    (hclash : ∀ x ∈ pieces cs offset, ¬ Clashes x.value.ty outerPayload.types x.offset) :
    ∃ outer, unpackChunks (cs.map TypedChunk.payloadType) outerPayload offset =
      some (cs.map fun c => .value c.forcePayloadValue, outer) := by
  induction cs generalizing outerPayload offset with
  | nil => exact ⟨outerPayload, rfl⟩
  | cons c cs ih =>
    rw [chunksSize_cons] at hinside
    obtain ⟨outer, hextract, htypes, htoNat⟩ := extractValue_spec c.forcePayloadValue offset
      (by rw [TypedChunk.ty_forcePayloadValue]; omega) (hbits _ List.mem_cons_self) (hclash _ List.mem_cons_self)
    rw [TypedChunk.ty_forcePayloadValue] at hextract
    obtain ⟨outer', hunpack⟩ := @ih outer (offset + c.payloadType.bits)
      (by rw [bitSize, htypes]; exact (Nat.add_assoc _ _ _).trans_le hinside)
      (fun x hx j hj => by
        rw [testBit, htoNat]
        refine hbits x (List.mem_cons_of_mem _ ?_) j hj
        rwa [TypedChunk.ty_forcePayloadValue])
      (fun x hx => by
        rw [htypes]
        refine hclash x (List.mem_cons_of_mem _ ?_)
        rwa [TypedChunk.ty_forcePayloadValue])
    refine ⟨outer', ?_⟩
    rw [List.map_cons, unpackChunks, hextract]
    simp only [Option.bind_eq_bind, Option.bind_some, hunpack, List.map_cons]

theorem same_forced (cs : List TypedChunk) : Same ⟨cs⟩ ⟨cs.map fun c => .value c.forcePayloadValue⟩ := by
  refine ⟨?_, Nat.eq_of_testBit_eq fun i => ?_⟩
  · unfold types
    rw [List.map_map]
    exact List.map_congr_left fun c _ => TypedChunk.ty_forcePayloadValue c
  · change chunksBit (cs.map fun c => .value c.forcePayloadValue) i = chunksBit cs i
    induction cs generalizing i with
    | nil => rfl
    | cons c cs ih =>
      rw [List.map_cons, chunksBit_cons, chunksBit_cons, ih]
      simp

theorem packRoundTrips_iff (htypes : payload.types = schema.forEachType IGM)
    (hinside : offset + payload.bitSize ≤ outerPayload.bitSize)
    (hzero : ∀ i, offset ≤ i → i < offset + payload.bitSize → outerPayload.testBit i = false) :
    PackRoundTrips IGM schema payload outerPayload offset ↔
      ∀ x ∈ pieces payload.payloadValues offset, ¬ Clashes x.value.ty outerPayload.types x.offset := by
  obtain ⟨cs⟩ := payload
  rw [bitSize_eq] at hinside hzero
  have hfits : ∀ x ∈ pieces cs offset, x.offset + x.value.ty.bits ≤ outerPayload.bitSize := fun x hx =>
    (mem_pieces hx).2.trans hinside
  have hvacant : ∀ x ∈ pieces cs offset, ∀ i, x.offset ≤ i → i < x.offset + x.value.ty.bits →
      outerPayload.testBit i = false := by
    intro x hx i hi hlt
    have := mem_pieces hx
    exact hzero i (by omega) (by dsimp only; omega)
  refine ⟨fun ⟨outer, inner, outer', hpack, _⟩ x hx hclash => ?_, fun hclash => ?_⟩
  · rw [packIntoEnumPayload, packChunks_eq, insertAll_eq_none hfits (pairwise_pieces cs offset) hvacant ⟨x, hx, hclash⟩] at hpack
    cases hpack
  · obtain ⟨outer, hall, houter, hbits⟩ := insertAll_spec hfits (pairwise_pieces cs offset) hvacant hclash
    obtain ⟨outer', hunpack⟩ := unpackChunks_spec
      (show offset + chunksSize cs ≤ outer.bitSize by rw [bitSize, houter]; exact hinside)
      (fun x hx j hj => by
        rw [hbits, hvacant x hx _ (Nat.le_add_right _ _) (by omega), Bool.false_or, any_testBit (pairwise_pieces cs offset) hx hj])
      (fun x hx => by rw [houter]; exact hclash x hx)
    refine ⟨outer, _, outer', ?_, same_forced cs, ?_⟩
    · rw [packIntoEnumPayload, packChunks_eq, hall]
      rfl
    · rw [unpackFromEnumPayload, ← htypes]
      change (unpackChunks (cs.map TypedChunk.payloadType) outer offset).bind _ = _
      rw [hunpack]
      rfl

end RoundTrips

/-- What is inserted, or packed, comes back exactly if no value clashes with a chunk. -/
theorem payloads_roundTrip_iff (IGM : IRGenModule) (schema : TypedSchema) {insertions : List Insertion}
    (hinside : ∀ x ∈ insertions, x.offset + x.value.ty.bits ≤ (zero IGM schema).bitSize)
    (hdisjoint : insertions.Pairwise Insertion.Disjoint) :
    (RoundTrips IGM schema insertions ↔ ∀ x ∈ insertions, ¬ Clashes x.value.ty (schema.forEachType IGM) x.offset) ∧
      ∀ (inner : TypedSchema) (payload outerPayload : TypedPayload) (offset : Nat),
        payload.types = inner.forEachType IGM → offset + payload.bitSize ≤ outerPayload.bitSize →
        (∀ i, offset ≤ i → i < offset + payload.bitSize → outerPayload.testBit i = false) →
          (PackRoundTrips IGM inner payload outerPayload offset ↔
            ∀ x ∈ pieces payload.payloadValues offset, ¬ Clashes x.value.ty outerPayload.types x.offset) :=
  ⟨roundTrips_iff hinside hdisjoint, fun _ _ _ _ => packRoundTrips_iff⟩

/-- A word in the middle of a pointer and the integer after it. -/
theorem roundTrips_middle : RoundTrips ⟨64, by decide⟩
    (.explosionSchema [⟨.pointer 0, 64, by decide⟩, ⟨.integer, 36, by decide⟩])
    [⟨⟨⟨.integer, 32, by decide⟩, 0xDEADBEEF⟩, 50⟩, ⟨⟨⟨.floatingPoint, 16, by decide⟩, 0x3C00⟩, 3⟩] := by
  refine (payloads_roundTrip_iff _ _ (by decide) (by decide)).1.2 fun x hx => not_clashes ?_
  revert x
  decide

/-- A pointer on a chunk that has a floating-point type of its size. -/
theorem not_roundTrips_pointer : ¬ ∀ (IGM : IRGenModule) (schema : TypedSchema) (insertions : List Insertion),
    (∀ x ∈ insertions, x.offset + x.value.ty.bits ≤ (zero IGM schema).bitSize) →
      insertions.Pairwise Insertion.Disjoint → RoundTrips IGM schema insertions := by
  intro h
  have hinside : ∀ x ∈ ([⟨⟨⟨.pointer 0, 64, by decide⟩, 0x1000⟩, 0⟩] : List Insertion), x.offset + x.value.ty.bits ≤
      (zero ⟨64, by decide⟩ (.explosionSchema [⟨.floatingPoint, 64, by decide⟩])).bitSize := by decide
  have hroundTrips := h _ _ _ hinside (List.pairwise_singleton _ _)
  refine (roundTrips_iff hinside (List.pairwise_singleton _ _)).1 hroundTrips _ List.mem_cons_self ?_
  exact clashes_zero rfl (by decide)

end TypedPayload

end SwiftKStdlib.IRGen
