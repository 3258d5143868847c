import SwiftKStdlib.IRGen.EnumPayload
import SwiftKStdlib.Lib.Grouping

/-!
# Switching over bit patterns of a payload

* `Flow` : the control flow that is emitted; `Flow.run` : the block that it reaches;
* `emitSubSwitch`, `emitCompare`, `emitSwitch` : the emission, `none` where an assertion fails;
* `Switchable` : what the recursion keeps; `Arrives` : the flow reaches the right block;
* `emitSwitch_arrives` : it does, for every payload.
-/

namespace SwiftKStdlib.IRGen

open Lib

/-! ## Control flow -/

inductive Flow (Block : Type) where
  | br (dest : Block)
  | condBr (cond : Bool) (ifTrue : Flow Block) (ifFalse : Block)
  | switch (v : Value) (dflt : Block) (cases : List (Value × Flow Block))

structure SwitchDefaultDest (Block : Type) where
  block : Block
  isUnreachable : Bool

variable {Block : Type}

namespace Flow

mutual

/-- The block that control reaches. -/
def run : Flow Block → Block
  | br dest => dest
  | condBr cond ifTrue ifFalse => if cond then ifTrue.run else ifFalse
  | switch v dflt cases => runCases v dflt cases

def runCases (v : Value) (dflt : Block) : List (Value × Flow Block) → Block
  | [] => dflt
  | (value, dest) :: rest => if v = value then dest.run else runCases v dflt rest

end

theorem runCases_of_mem {v : Value} {dflt : Block} {cases : List (Value × Flow Block)} {dest : Flow Block}
    (hmem : (v, dest) ∈ cases)
    (hone : ∀ dest', (v, dest') ∈ cases → dest' = dest) : runCases v dflt cases = dest.run := by
  induction cases with
  | nil => exact absurd hmem List.not_mem_nil
  | cons e rest ih =>
    obtain ⟨value, dest'⟩ := e
    rw [runCases]
    split_ifs with heq
    · subst heq
      rw [hone dest' List.mem_cons_self]
    · refine ih ?_ fun dest'' h => hone dest'' (List.mem_cons_of_mem _ h)
      exact (List.mem_cons.1 hmem).resolve_left fun h => heq (Prod.mk.inj h).1

theorem runCases_of_not_mem {v : Value} {dflt : Block} {cases : List (Value × Flow Block)}
    (hnone : ∀ dest, (v, dest) ∉ cases) :
    runCases v dflt cases = dflt := by
  induction cases with
  | nil => rfl
  | cons e rest ih =>
    obtain ⟨value, dest'⟩ := e
    rw [runCases]
    split_ifs with heq
    · subst heq
      exact absurd List.mem_cons_self (hnone dest')
    · exact ih fun dest h => hnone dest (List.mem_cons_of_mem _ h)

end Flow

namespace EnumPayload

/-! ## Emission -/

/-- The order of the map of cases. -/
instance ult {size : Nat} : LinearOrder (BitVec size) where
  le_refl x := Nat.le_refl x.toNat
  le_trans x y z := Nat.le_trans (n := x.toNat) (m := y.toNat) (k := z.toNat)
  le_antisymm _ _ h h' := BitVec.eq_of_toNat_eq (Nat.le_antisymm h h')
  le_total x y := Nat.le_total x.toNat y.toNat
  lt_iff_le_not_ge x y := Nat.lt_iff_le_and_not_ge (m := x.toNat) (n := y.toNat)
  toDecidableLE := inferInstance
  toDecidableLT := inferInstance
  toDecidableEq := inferInstance

def maskedValue (pv : LazyValue) (maskPiece : BitVec pv.size) : BitVec pv.size :=
  if maskPiece = BitVec.allOnes pv.size then pv.forcePayloadValue
  else pv.forcePayloadValue &&& maskPiece

abbrev Case (n : Nat) (Block : Type) := BitVec n × Block

def Case.lshr {n : Nat} (c : Case n Block) (size : Nat) : Case n Block := (c.1 >>> size, c.2)

def subCases {n : Nat} (size : Nat) (cases : List (Case n Block)) : List (BitVec size × List (Case n Block)) :=
  cases.foldl (fun m c => Grouping.pushBack (c.1.setWidth size) (c.lshr size) m) []

/-- The block for the cases that share a value for a chunk. -/
def blockForCases {n : Nat} (needsAdditionalCases : Bool)
    (emitSubSwitch : List (Case n Block) → Option (Flow Block)) (cases : List (Case n Block)) :
    Option (Flow Block) :=
  if needsAdditionalCases then emitSubSwitch cases
  else match cases with
    | [c] => some (.br c.2)
    -- more than one case for final destination?!
    | _ => none

/-- The branch on the value of a chunk, and the blocks it goes to. -/
def emitBranch {n size : Nat} (v : BitVec size) (dflt : SwitchDefaultDest Block)
    (block : List (Case n Block) → Option (Flow Block)) :
    List (BitVec size × List (Case n Block)) → Option (Flow Block)
  -- If there's only one case, do a cond_br, or a br if the default case is unreachable.
  | [(valuePiece, cases)] => do
    let block ← block cases
    some (if dflt.isUnreachable then block else .condBr (v == valuePiece) block dflt.block)
  | subCases => do
    let swi ← subCases.mapM fun subCase => do
      let block ← block subCase.2
      some (⟨size, subCase.1⟩, block)
    some (.switch ⟨size, v⟩ dflt.block swi)

def emitSubSwitch {n : Nat} (dflt : SwitchDefaultDest Block) :
    List LazyValue → BitVec n → List (Case n Block) → Option (Flow Block)
  -- didn't exit out when exhausting all values?!
  | [], _, _ => none
  | pv :: values, mask, cases =>
    if cases.isEmpty then none
    else
      let maskPiece := mask.setWidth pv.size
      let mask := mask >>> pv.size
      -- If the piece is zero, this doesn't affect the switch.
      if maskPiece = 0 then emitSubSwitch dflt values mask (cases.map fun c => c.lshr pv.size)
      else
        let needsAdditionalCases := !values.isEmpty && decide (mask ≠ 0)
        emitBranch (maskedValue pv maskPiece) dflt
          (blockForCases needsAdditionalCases (emitSubSwitch dflt values mask)) (subCases pv.size cases)

/-- The conditions for the chunks. -/
def compareChunks {n : Nat} : List LazyValue → BitVec n → BitVec n → Option Bool → Option Bool
  | [], _, _, condition => condition
  | pv :: pvs, mask, value, condition =>
    let maskPiece := mask.setWidth pv.size
    let valuePiece := value.setWidth pv.size
    let mask := mask >>> pv.size
    let value := value >>> pv.size
    if maskPiece = 0 then compareChunks pvs mask value condition
    else
      let cmp := maskedValue pv maskPiece == valuePiece
      compareChunks pvs mask value (some (match condition with
        | none => cmp
        | some condition => condition && cmp))

/-- An equality comparison of the payload under the mask with the value. -/
def emitCompare (payload : EnumPayload) {n : Nat} (mask value : BitVec n) : Option Bool :=
  if payload.payloadValues.isEmpty ∨ mask = 0 then some true
  -- value has masked out bits set?!
  else if ~~~mask &&& value ≠ 0 then none
  -- no significant condition?!
  else compareChunks payload.payloadValues mask value none

def emitSwitch (payload : EnumPayload) {n : Nat} (mask : BitVec n) (cases : List (Case n Block))
    (dflt : SwitchDefaultDest Block) : Option (Flow Block) :=
  match cases with
  | [c] =>
    -- If the default case is unreachable, don't bother branching at all.
    if dflt.isUnreachable then some (.br c.2)
    else do
      let cmp ← payload.emitCompare mask c.1
      some (.condBr cmp (.br c.2) dflt.block)
  | cases => emitSubSwitch dflt payload.payloadValues mask cases

/-! ## Patterns, chunk by chunk -/

section Patterns

variable {n : Nat}

def Matches (pvs : List LazyValue) (mask pattern : BitVec n) : Prop :=
  chunksToNat pvs &&& mask.toNat = pattern.toNat

instance (pvs : List LazyValue) (mask pattern : BitVec n) : Decidable (Matches pvs mask pattern) :=
  inferInstanceAs (Decidable (_ = _))

def Within (mask pattern : BitVec n) : Prop := pattern &&& mask = pattern

theorem Within.bit {mask pattern : BitVec n} (h : Within mask pattern) {i : Nat}
    (hi : pattern.getLsbD i = true) : mask.getLsbD i = true := by
  rw [← h, BitVec.getLsbD_and, Bool.and_eq_true] at hi
  exact hi.2

theorem within_of_bits {mask pattern : BitVec n}
    (h : ∀ i, pattern.getLsbD i = true → mask.getLsbD i = true) : Within mask pattern := by
  apply BitVec.eq_of_getLsbD_eq
  intro i _
  rw [BitVec.getLsbD_and]
  cases hbit : pattern.getLsbD i with
  | false => rfl
  | true => rw [h i hbit]; rfl

theorem Within.lshr {mask pattern : BitVec n} (h : Within mask pattern) (size : Nat) :
    Within (mask >>> size) (pattern >>> size) := by
  refine within_of_bits fun i hi => ?_
  rw [BitVec.getLsbD_ushiftRight] at hi ⊢
  exact h.bit hi

theorem Within.setWidth {mask pattern : BitVec n} (h : Within mask pattern) (size : Nat) :
    Within (mask.setWidth size) (pattern.setWidth size) := by
  refine within_of_bits fun i hi => ?_
  rw [BitVec.getLsbD_setWidth, Bool.and_eq_true] at hi ⊢
  exact ⟨hi.1, h.bit hi.2⟩

theorem eq_of_pieces (size : Nat) {pattern pattern' : BitVec n}
    (hlow : pattern.setWidth size = pattern'.setWidth size) (hhigh : pattern >>> size = pattern' >>> size) :
    pattern = pattern' := by
  apply BitVec.eq_of_getLsbD_eq
  intro i _
  by_cases hi : i < size
  · rw [← testBit_piece pattern hi, hlow, testBit_piece pattern' hi]
  · rw [← testBit_shiftPiece pattern hi, hhigh, testBit_shiftPiece pattern' hi]

theorem maskedValue_eq (pv : LazyValue) (maskPiece : BitVec pv.size) :
    maskedValue pv maskPiece = pv.forcePayloadValue &&& maskPiece := by
  unfold maskedValue
  split_ifs with hones
  · rw [hones, BitVec.and_allOnes]
  · rfl

theorem matches_cons (pv : LazyValue) (pvs : List LazyValue) (mask pattern : BitVec n) :
    Matches (pv :: pvs) mask pattern ↔
      maskedValue pv (mask.setWidth pv.size) = pattern.setWidth pv.size ∧
        Matches pvs (mask >>> pv.size) (pattern >>> pv.size) := by
  rw [maskedValue_eq]
  refine ⟨fun h => ⟨?_, ?_⟩, fun h => ?_⟩
  · apply BitVec.eq_of_getLsbD_eq
    intro i hi
    have hbit := congrArg (Nat.testBit · i) h
    rw [Nat.testBit_and, testBit_chunksToNat_cons, if_pos hi] at hbit
    rw [BitVec.getLsbD_and, testBit_piece mask hi, testBit_piece pattern hi]
    exact hbit
  · apply Nat.eq_of_testBit_eq
    intro i
    have hbit := congrArg (Nat.testBit · (pv.size + i)) h
    rw [Nat.testBit_and, testBit_chunksToNat_cons, if_neg (by omega), Nat.add_sub_cancel_left] at hbit
    rw [Nat.testBit_and, BitVec.toNat_ushiftRight, BitVec.toNat_ushiftRight, Nat.testBit_shiftRight,
      Nat.testBit_shiftRight]
    exact hbit
  · obtain ⟨hlow, hhigh⟩ := h
    apply Nat.eq_of_testBit_eq
    intro i
    rw [Nat.testBit_and, testBit_chunksToNat_cons]
    split_ifs with hi
    · have hbit := congrArg (BitVec.getLsbD · i) hlow
      rw [BitVec.getLsbD_and, testBit_piece mask hi, testBit_piece pattern hi] at hbit
      exact hbit
    · have hbit := congrArg (Nat.testBit · (i - pv.size)) hhigh
      rw [Nat.testBit_and, BitVec.toNat_ushiftRight, BitVec.toNat_ushiftRight, Nat.testBit_shiftRight,
        Nat.testBit_shiftRight, Nat.add_sub_cancel' (Nat.le_of_not_lt hi)] at hbit
      exact hbit

theorem matches_cons_of_zero (pv : LazyValue) (pvs : List LazyValue) {mask pattern : BitVec n}
    (hmask : mask.setWidth pv.size = 0) (hwithin : Within mask pattern) :
    Matches (pv :: pvs) mask pattern ↔ Matches pvs (mask >>> pv.size) (pattern >>> pv.size) := by
  have hzero : ∀ x : BitVec pv.size, x &&& 0 = 0 := fun x => BitVec.and_zero
  have hpiece : pattern.setWidth pv.size = 0 := by
    rw [← hwithin.setWidth pv.size, hmask, hzero]
  rw [matches_cons, maskedValue_eq, hmask, hpiece, hzero]
  exact and_iff_right rfl

end Patterns

/-! ## The recursion -/

section Recursion

variable {n : Nat}

/-- What the recursion needs, and keeps: cases with different patterns, in the bits of a mask that has bits
in the chunks that are left. -/
structure Switchable (pvs : List LazyValue) (mask : BitVec n) (cases : List (Case n Block)) : Prop where
  mask_ne : mask ≠ 0
  mask_lt : mask.toNat < 2 ^ (pvs.map LazyValue.size).sum
  nonempty : cases ≠ []
  distinct : (cases.map Prod.fst).Nodup
  within : ∀ c ∈ cases, Within mask c.1

/-- The flow reaches the block of the case that matches, or else the default block. -/
structure Arrives (flow : Flow Block) (pvs : List LazyValue) (mask : BitVec n) (cases : List (Case n Block))
    (dflt : SwitchDefaultDest Block) : Prop where
  matched : ∀ c ∈ cases, Matches pvs mask c.1 → flow.run = c.2
  unmatched : dflt.isUnreachable = false → (∀ c ∈ cases, ¬ Matches pvs mask c.1) → flow.run = dflt.block

theorem groups_subCases (size : Nat) (cases : List (Case n Block)) :
    Grouping.Groups (fun c : Case n Block => c.1.setWidth size) (fun c => c.lshr size)
      (subCases size cases) cases :=
  Grouping.groups_foldl cases

theorem mem_group {size : Nat} {k : BitVec size} {cases group : List (Case n Block)}
    (h : (k, group) ∈ subCases size cases) {c' : Case n Block} :
    c' ∈ group ↔ ∃ c ∈ cases, c.1.setWidth size = k ∧ c.lshr size = c' := by
  rw [(((groups_subCases size cases).mem _ _).1 h).1]
  simp only [List.mem_map, List.mem_filter, decide_eq_true_eq, and_assoc]

theorem exists_group (size : Nat) {cases : List (Case n Block)} {c : Case n Block} (hc : c ∈ cases) :
    ∃ group, (c.1.setWidth size, group) ∈ subCases size cases ∧ c.lshr size ∈ group := by
  have hmem := (groups_subCases size cases).exists_mem hc
  exact ⟨_, hmem, (mem_group hmem).2 ⟨c, hc, rfl, rfl⟩⟩

theorem nodup_lshr {size : Nat} {k : BitVec size} {cases : List (Case n Block)}
    (hdistinct : (cases.map Prod.fst).Nodup) (hk : ∀ c ∈ cases, c.1.setWidth size = k) :
    ((cases.map fun c => c.lshr size).map Prod.fst).Nodup := by
  rw [List.Nodup, List.pairwise_map] at hdistinct
  rw [List.Nodup, List.pairwise_map, List.pairwise_map]
  refine hdistinct.imp_of_mem fun {c c'} hc hc' hne heq => hne ?_
  exact eq_of_pieces size ((hk c hc).trans (hk c' hc').symm) heq

theorem nodup_group {size : Nat} {k : BitVec size} {cases group : List (Case n Block)}
    (hdistinct : (cases.map Prod.fst).Nodup) (h : (k, group) ∈ subCases size cases) :
    (group.map Prod.fst).Nodup := by
  rw [(((groups_subCases size cases).mem _ _).1 h).1]
  refine nodup_lshr (k := k) (hdistinct.sublist (List.filter_sublist.map _)) fun c hc => ?_
  exact of_decide_eq_true (List.mem_filter.1 hc).2

theorem Switchable.mask_shift_lt {pv : LazyValue} {pvs : List LazyValue} {mask : BitVec n}
    {cases : List (Case n Block)} (h : Switchable (pv :: pvs) mask cases) :
    (mask >>> pv.size).toNat < 2 ^ (pvs.map LazyValue.size).sum := by
  have hlt := h.mask_lt
  rw [List.map_cons, List.sum_cons, pow_add] at hlt
  rw [BitVec.toNat_ushiftRight, Nat.shiftRight_eq_div_pow]
  exact Nat.div_lt_of_lt_mul hlt

theorem Switchable.skip {pv : LazyValue} {pvs : List LazyValue} {mask : BitVec n}
    {cases : List (Case n Block)} (h : Switchable (pv :: pvs) mask cases) (hmask : mask.setWidth pv.size = 0) :
    Switchable pvs (mask >>> pv.size) (cases.map fun c => c.lshr pv.size) where
  mask_ne := by
    intro hzero
    refine h.mask_ne (eq_of_pieces pv.size ?_ ?_)
    · rw [hmask]
      simp
    · rw [hzero]
      simp
  mask_lt := h.mask_shift_lt
  nonempty := by simpa using h.nonempty
  distinct := by
    refine nodup_lshr (k := 0) h.distinct fun c hc => ?_
    rw [← (h.within c hc).setWidth pv.size, hmask]
    exact BitVec.and_zero
  within := by
    intro c hc
    obtain ⟨c₀, hc₀, rfl⟩ := List.mem_map.1 hc
    exact (h.within c₀ hc₀).lshr pv.size

theorem exists_mapM {α β : Type} {f : α → Option β} {l : List α} (h : ∀ a ∈ l, ∃ b, f a = some b) :
    ∃ bs, l.mapM f = some bs ∧ ∀ b, b ∈ bs ↔ ∃ a ∈ l, f a = some b := by
  induction l with
  | nil => exact ⟨[], rfl, by simp⟩
  | cons a l ih =>
    obtain ⟨b, hb⟩ := h a List.mem_cons_self
    obtain ⟨bs, hbs, hmem⟩ := ih fun a' ha' => h a' (List.mem_cons_of_mem _ ha')
    refine ⟨b :: bs, by rw [List.mapM_cons, hb, hbs]; rfl, fun b' => ?_⟩
    rw [List.mem_cons, hmem]
    simp [hb, eq_comm]

/-- The branch on a chunk, with a block for each group that arrives. -/
theorem emitBranch_arrives {pv : LazyValue} {pvs : List LazyValue} {mask : BitVec n}
    {cases : List (Case n Block)} (dflt : SwitchDefaultDest Block)
    {block : List (Case n Block) → Option (Flow Block)}
    (hblock : ∀ k group, (k, group) ∈ subCases pv.size cases →
      ∃ flow, block group = some flow ∧ Arrives flow pvs (mask >>> pv.size) group dflt) :
    ∃ flow, emitBranch (maskedValue pv (mask.setWidth pv.size)) dflt block (subCases pv.size cases) =
      some flow ∧ Arrives flow (pv :: pvs) mask cases dflt := by
  -- A case that matches is in the group of the value of the chunk.
  have hmatched : ∀ c ∈ cases, Matches (pv :: pvs) mask c.1 → ∃ group,
      (maskedValue pv (mask.setWidth pv.size), group) ∈ subCases pv.size cases ∧ c.lshr pv.size ∈ group ∧
        Matches pvs (mask >>> pv.size) (c.lshr pv.size).1 := by
    intro c hc hm
    obtain ⟨hv, hrest⟩ := (matches_cons _ _ _ _).1 hm
    obtain ⟨group, hgroup, hmem⟩ := exists_group pv.size hc
    exact ⟨group, hv ▸ hgroup, hmem, hrest⟩
  -- No case of the value's group matches when no case does.
  have hunmatched : (∀ c ∈ cases, ¬ Matches (pv :: pvs) mask c.1) → ∀ group,
      (maskedValue pv (mask.setWidth pv.size), group) ∈ subCases pv.size cases →
        ∀ c ∈ group, ¬ Matches pvs (mask >>> pv.size) c.1 := by
    intro hnone group hgroup c hc hm
    obtain ⟨c₀, hc₀, hv, rfl⟩ := (mem_group hgroup).1 hc
    exact hnone c₀ hc₀ ((matches_cons _ _ _ _).2 ⟨hv.symm, hm⟩)
  generalize maskedValue pv (mask.setWidth pv.size) = v at hmatched hunmatched ⊢
  have hunique : ∀ k group group', (k, group) ∈ subCases pv.size cases →
      (k, group') ∈ subCases pv.size cases → group' = group := by
    intro k group group' h h'
    rw [(((groups_subCases pv.size cases).mem _ _).1 h).1, (((groups_subCases pv.size cases).mem _ _).1 h').1]
  generalize subCases pv.size cases = groups at hmatched hunmatched hblock hunique ⊢
  unfold emitBranch
  split
  · next valuePiece group =>
    obtain ⟨flow, hflow, harrives⟩ := hblock valuePiece group List.mem_cons_self
    refine ⟨_, by rw [hflow]; rfl, ?_, ?_⟩
    · intro c hc hm
      obtain ⟨group', hgroup', hmem, hrest⟩ := hmatched c hc hm
      obtain ⟨rfl, rfl⟩ := Prod.mk.inj (List.mem_singleton.1 hgroup')
      have hrun : flow.run = c.2 := harrives.matched (c.lshr pv.size) hmem hrest
      split_ifs
      · exact hrun
      · rw [Flow.run, beq_self_eq_true, if_pos rfl, hrun]
    · intro hreachable hnone
      rw [hreachable, if_neg Bool.false_ne_true, Flow.run]
      split_ifs with heq
      · rw [beq_iff_eq] at heq
        subst heq
        exact harrives.unmatched hreachable (hunmatched hnone group List.mem_cons_self)
      · rfl
  · have hcase : ∀ g ∈ groups, ∃ case, (do
        let block ← block g.2
        some ((⟨pv.size, g.1⟩ : Value), block)) = some case := by
      intro g hg
      obtain ⟨flow, hflow, -⟩ := hblock g.1 g.2 hg
      exact ⟨_, by rw [hflow]; rfl⟩
    obtain ⟨swi, hswi, hmem⟩ := exists_mapM hcase
    have hdest : ∀ dest, (⟨pv.size, v⟩, dest) ∈ swi ↔
        ∃ group, (v, group) ∈ groups ∧ block group = some dest := by
      intro dest
      rw [hmem]
      refine ⟨fun h => ?_, fun h => ?_⟩
      · obtain ⟨⟨k, group⟩, hgroup, heq⟩ := h
        obtain ⟨flow, hflow, -⟩ := hblock k group hgroup
        simp only [hflow, Option.bind_eq_bind, Option.bind_some, Option.some.injEq, Prod.mk.injEq,
          Sigma.mk.injEq, heq_eq_eq, true_and] at heq
        obtain ⟨rfl, rfl⟩ := heq
        exact ⟨group, hgroup, hflow⟩
      · obtain ⟨group, hgroup, hflow⟩ := h
        exact ⟨(v, group), hgroup, by rw [hflow]; rfl⟩
    have htaken : ∀ group flow, (v, group) ∈ groups → block group = some flow →
        Flow.runCases ⟨pv.size, v⟩ dflt.block swi = flow.run := by
      intro group flow hgroup hflow
      apply Flow.runCases_of_mem ((hdest flow).2 ⟨group, hgroup, hflow⟩)
      intro dest' h
      obtain ⟨group', hgroup', hflow'⟩ := (hdest dest').1 h
      rw [hunique v group group' hgroup hgroup', hflow] at hflow'
      exact (Option.some.inj hflow').symm
    refine ⟨_, by rw [hswi]; rfl, ?_, ?_⟩
    · intro c hc hm
      obtain ⟨group, hgroup, hin, hrest⟩ := hmatched c hc hm
      obtain ⟨flow, hflow, harrives⟩ := hblock v group hgroup
      rw [Flow.run, htaken group flow hgroup hflow]
      exact harrives.matched (c.lshr pv.size) hin hrest
    · intro hreachable hnone
      rw [Flow.run]
      by_cases hsome : ∃ group, (v, group) ∈ groups
      · obtain ⟨group, hgroup⟩ := hsome
        obtain ⟨flow, hflow, harrives⟩ := hblock v group hgroup
        rw [htaken group flow hgroup hflow]
        exact harrives.unmatched hreachable (hunmatched hnone group hgroup)
      · refine Flow.runCases_of_not_mem fun dest h => ?_
        obtain ⟨group, hgroup, -⟩ := (hdest dest).1 h
        exact hsome ⟨group, hgroup⟩

/-- A flow for the cases of a group: the recursion, or the one case that is left. -/
theorem blockForCases_arrives {pv : LazyValue} {pvs : List LazyValue} {mask : BitVec n}
    {cases : List (Case n Block)} (h : Switchable (pv :: pvs) mask cases) (dflt : SwitchDefaultDest Block)
    {emit : List (Case n Block) → Option (Flow Block)}
    (hemit : ∀ cases, Switchable pvs (mask >>> pv.size) cases →
      ∃ flow, emit cases = some flow ∧ Arrives flow pvs (mask >>> pv.size) cases dflt)
    (k : BitVec pv.size) (group : List (Case n Block)) (hgroup : (k, group) ∈ subCases pv.size cases) :
    ∃ flow, blockForCases (!pvs.isEmpty && decide (mask >>> pv.size ≠ 0)) emit group = some flow ∧
      Arrives flow pvs (mask >>> pv.size) group dflt := by
  have hnodup := nodup_group h.distinct hgroup
  have hne := (((groups_subCases pv.size cases).mem _ _).1 hgroup).2
  have hwithin : ∀ c ∈ group, Within (mask >>> pv.size) c.1 := by
    intro c hc
    obtain ⟨c₀, hc₀, -, rfl⟩ := (mem_group hgroup).1 hc
    exact (h.within c₀ hc₀).lshr pv.size
  by_cases hmask : mask >>> pv.size = 0
  · -- No mask bits are left, and all patterns are zero: there is one case, and it matches.
    have hzero : ∀ c ∈ group, c.1 = 0 := by
      intro c hc
      rw [← hwithin c hc, hmask]
      exact BitVec.and_zero
    obtain ⟨c, rfl⟩ : ∃ c, group = [c] := by
      cases group with
      | nil => exact absurd rfl hne
      | cons c rest =>
        cases rest with
        | nil => exact ⟨c, rfl⟩
        | cons c' rest =>
          have hdiff := (List.nodup_cons.1 hnodup).1
          rw [hzero c (by simp), ← hzero c' (by simp)] at hdiff
          exact absurd (List.mem_map_of_mem (f := Prod.fst) (List.mem_cons_self (a := c') (l := rest))) hdiff
    have hm : Matches pvs (mask >>> pv.size) c.1 := by
      rw [hmask, hzero c List.mem_cons_self]
      exact Nat.and_zero _
    refine ⟨.br c.2, ?_, fun c' hc' _ => ?_, fun _ hnone => absurd hm (hnone c List.mem_cons_self)⟩
    · rw [blockForCases, decide_eq_false (not_not.2 hmask), Bool.and_false]
      rfl
    · rw [List.mem_singleton.1 hc']
      rfl
  · have hpvs : pvs.isEmpty = false := by
      cases pvs with
      | nil =>
        have hlt : (mask >>> pv.size).toNat < 1 := h.mask_shift_lt
        exact absurd (BitVec.eq_of_toNat_eq (Nat.lt_one_iff.1 hlt)) hmask
      | cons _ _ => rfl
    unfold blockForCases
    rw [hpvs, decide_eq_true hmask, if_pos (show (!false && true) = true from rfl)]
    exact hemit group ⟨hmask, h.mask_shift_lt, hne, hnodup, hwithin⟩

theorem emitSubSwitch_arrives (dflt : SwitchDefaultDest Block) : ∀ (pvs : List LazyValue) (mask : BitVec n)
    (cases : List (Case n Block)), Switchable pvs mask cases →
      ∃ flow, emitSubSwitch dflt pvs mask cases = some flow ∧ Arrives flow pvs mask cases dflt := by
  intro pvs
  induction pvs with
  | nil =>
    intro mask cases h
    have hlt : mask.toNat < 1 := h.mask_lt
    exact absurd (BitVec.eq_of_toNat_eq (Nat.lt_one_iff.1 hlt)) h.mask_ne
  | cons pv pvs ih =>
    intro mask cases h
    have hempty : ¬ cases.isEmpty = true := fun hnil => h.nonempty (List.isEmpty_iff.1 hnil)
    rw [emitSubSwitch, if_neg hempty]
    dsimp only
    split_ifs with hmask
    · obtain ⟨flow, hflow, harrives⟩ := ih _ _ (h.skip hmask)
      refine ⟨flow, hflow, fun c hc hm => ?_, fun hreachable hnone => ?_⟩
      · exact harrives.matched (c.lshr pv.size) (List.mem_map_of_mem hc)
          ((matches_cons_of_zero pv pvs hmask (h.within c hc)).1 hm)
      · refine harrives.unmatched hreachable fun c' hc' hm => ?_
        obtain ⟨c, hc, rfl⟩ := List.mem_map.1 hc'
        exact hnone c hc ((matches_cons_of_zero pv pvs hmask (h.within c hc)).2 hm)
    · exact emitBranch_arrives dflt (blockForCases_arrives h dflt fun cases => ih _ cases)

end Recursion

/-! ## One case, and the switch -/

section Switch

variable {n : Nat}

theorem Within.eq_zero {mask value : BitVec n} (h : Within mask value) (hmask : mask = 0) : value = 0 := by
  rw [← h, hmask]
  exact BitVec.and_zero

theorem matches_zero (pvs : List LazyValue) {mask value : BitVec n} (h : Within mask value)
    (hmask : mask = 0) : Matches pvs mask value := by
  rw [h.eq_zero hmask, hmask]
  exact Nat.and_zero _

theorem compareChunks_spec (pvs : List LazyValue) : ∀ (mask value : BitVec n), Within mask value →
    mask.toNat < 2 ^ (pvs.map LazyValue.size).sum →
      (∀ condition, compareChunks pvs mask value (some condition) =
        some (condition && decide (Matches pvs mask value))) ∧
      (mask ≠ 0 → compareChunks pvs mask value none = some (decide (Matches pvs mask value))) := by
  induction pvs with
  | nil =>
    intro mask value hwithin hlt
    have hmask : mask = 0 := BitVec.eq_of_toNat_eq (Nat.lt_one_iff.1 hlt)
    refine ⟨fun condition => ?_, fun hne => absurd hmask hne⟩
    rw [decide_eq_true (matches_zero [] hwithin hmask), Bool.and_true]
    rfl
  | cons pv pvs ih =>
    intro mask value hwithin hlt
    have hlt' : (mask >>> pv.size).toNat < 2 ^ (pvs.map LazyValue.size).sum := by
      rw [List.map_cons, List.sum_cons, pow_add] at hlt
      rw [BitVec.toNat_ushiftRight, Nat.shiftRight_eq_div_pow]
      exact Nat.div_lt_of_lt_mul hlt
    obtain ⟨hsome, hnone⟩ := ih _ _ (hwithin.lshr pv.size) hlt'
    by_cases hpiece : mask.setWidth pv.size = 0
    · have hiff := matches_cons_of_zero pv pvs hpiece hwithin
      refine ⟨fun condition => ?_, fun hmask => ?_⟩
      · rw [compareChunks, if_pos hpiece, hsome, decide_eq_decide.2 hiff]
      · rw [compareChunks, if_pos hpiece, hnone fun hzero => ?_, decide_eq_decide.2 hiff]
        exact hmask (eq_of_pieces _ (by rw [hpiece]; simp) (by rw [hzero]; simp))
    · have hiff : decide (Matches (pv :: pvs) mask value) =
          (maskedValue pv (mask.setWidth pv.size) == value.setWidth pv.size &&
            decide (Matches pvs (mask >>> pv.size) (value >>> pv.size))) := by
        rw [decide_eq_decide.2 (matches_cons pv pvs mask value), Bool.decide_and]
        rfl
      refine ⟨fun condition => ?_, fun _ => ?_⟩
      · rw [compareChunks, if_neg hpiece, hiff, ← Bool.and_assoc]
        exact hsome _
      · rw [compareChunks, if_neg hpiece, hiff]
        exact hsome _

theorem emitCompare_spec (payload : EnumPayload) {mask value : BitVec payload.bitSize}
    (h : Within mask value) :
    payload.emitCompare mask value = some (decide (Matches payload.payloadValues mask value)) := by
  have hin : ~~~mask &&& value = 0 := by
    apply BitVec.eq_of_getLsbD_eq
    intro i hi
    rw [BitVec.getLsbD_and, BitVec.getLsbD_not, decide_eq_true hi, Bool.true_and]
    cases hbit : value.getLsbD i with
    | false => simp
    | true => rw [h.bit hbit]; simp
  rw [emitCompare]
  split_ifs with htrivial hmasked
  · have hmask : mask = 0 := by
      rcases htrivial with hempty | hmask
      · have hsize : payload.bitSize = 0 := by
          rw [bitSize, sizes, List.isEmpty_iff.1 hempty]
          rfl
        have hlt : mask.toNat < 1 := lt_of_lt_of_eq mask.isLt (by rw [hsize, pow_zero])
        exact BitVec.eq_of_toNat_eq (Nat.lt_one_iff.1 hlt)
      · exact hmask
    rw [decide_eq_true (matches_zero _ h hmask)]
  · exact absurd hin hmasked
  · exact (compareChunks_spec payload.payloadValues mask value h mask.isLt).2 fun hmask =>
      htrivial (.inr hmask)

/-- The control flow that is emitted reaches the block of the case whose pattern the payload has under the
mask, or else the default block. -/
theorem emitSwitch_arrives (payload : EnumPayload) (mask : BitVec payload.bitSize)
    (cases : List (Case payload.bitSize Block)) (dflt : SwitchDefaultDest Block) (hmask : mask ≠ 0)
    (hcases : cases ≠ []) (hdistinct : (cases.map Prod.fst).Nodup)
    (hwithin : ∀ c ∈ cases, c.1 &&& mask = c.1) : ∃ flow, payload.emitSwitch mask cases dflt = some flow ∧
      (∀ c ∈ cases, payload.toNat &&& mask.toNat = c.1.toNat → flow.run = c.2) ∧
      (dflt.isUnreachable = false → (∀ c ∈ cases, payload.toNat &&& mask.toNat ≠ c.1.toNat) →
        flow.run = dflt.block) := by
  unfold emitSwitch
  split
  · next c =>
    cases hreachable : dflt.isUnreachable with
    | true =>
      refine ⟨.br c.2, rfl, fun c' hc' _ => ?_, fun h => absurd h (by simp)⟩
      rw [List.mem_singleton.1 hc']
      rfl
    | false =>
      rw [emitCompare_spec payload (hwithin c List.mem_cons_self)]
      refine ⟨_, rfl, fun c' hc' hm => ?_, fun _ hnone => ?_⟩
      · obtain rfl := List.mem_singleton.1 hc'
        have hmatches : Matches payload.payloadValues mask c'.1 := hm
        rw [Flow.run, if_pos (decide_eq_true hmatches)]
        rfl
      · rw [Flow.run, if_neg]
        exact fun h => hnone c List.mem_cons_self (of_decide_eq_true h)
  · obtain ⟨flow, hflow, harrives⟩ := emitSubSwitch_arrives dflt payload.payloadValues mask cases
      ⟨hmask, mask.isLt, hcases, hdistinct, hwithin⟩
    exact ⟨flow, hflow, harrives.matched, harrives.unmatched⟩

/-- Three cases over two chunks, of 8 and 4 bits; the payload has the pattern of the second. -/
theorem emitSwitch_arrives_second : ∃ flow : Flow Nat,
    (EnumPayload.mk [.value 0x12#8, .value 0x3#4]).emitSwitch 0xF0F#12
      [(0x000#12, 1), (0x302#12, 2), (0x402#12, 3)] ⟨0, false⟩ = some flow ∧ flow.run = 2 := by
  have hmask : 0xF0F#12 ≠ 0 := by decide
  have hdistinct : ([(0x000#12, 1), (0x302#12, 2), (0x402#12, 3)].map Prod.fst).Nodup := by decide
  have hwithin : ∀ c ∈ [(0x000#12, 1), (0x302#12, 2), (0x402#12, 3)], c.1 &&& 0xF0F#12 = c.1 := by decide
  obtain ⟨flow, hflow, hcase, -⟩ := emitSwitch_arrives ⟨[.value 0x12#8, .value 0x3#4]⟩ 0xF0F#12
    [(0x000#12, 1), (0x302#12, 2), (0x402#12, 3)] ⟨0, false⟩ hmask (List.cons_ne_nil _ _) hdistinct hwithin
  exact ⟨flow, hflow, hcase (0x302#12, 2) (by simp) (by decide)⟩

end Switch

end EnumPayload

end SwiftKStdlib.IRGen
