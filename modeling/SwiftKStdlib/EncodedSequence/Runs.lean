import SwiftKStdlib.EncodedSequence.Claiming
import SwiftKStdlib.Lib.Runs

/-!
# Sequences in use

* `State`, `Op`, `step`, `run` : variables that are encoded sequences, and what is done to them;
* `Op.meaning`, `meanings` : the same with lists of elements;
* `Represents` : the invariant; `Represents.step` : an operation that fits keeps it;
* `Shows` : iterating each variable yields its list; `run_shows_iff` : in every run, as long as the operations fit.
-/

namespace SwiftKStdlib.EncodedSequence
open SwiftKStdlib.Lib

variable {E : Type}

structure State where
  vars : Nat → Option Data
  heap : Heap

def State.initial : State := ⟨fun _ => none, ⟨fun _ => none, 0⟩⟩

inductive Op (E : Type) where
  | construct (self : Nat)
  | copyConstruct (self other : Nat)
  | moveConstruct (self other : Nat)
  | copyAssign (self other : Nat)
  | moveAssign (self other : Nat)
  | push_back (self : Nat) (elt : E)
  | destroy (self : Nat)

/-- What an operation does; `none` also where it constructs a variable that is there, or uses one that is not. -/
def step (T : Element E) (st : State) : Op E → Option State
  | .construct self =>
      if (st.vars self).isSome then none
      else some { st with vars := Function.update st.vars self (some InitialDataValue) }
  | .copyConstruct self other =>
      if (st.vars self).isSome then none
      else do
        let o ← st.vars other
        let (h, d) ← copyConstruct st.heap o
        some ⟨Function.update st.vars self (some d), h⟩
  | .moveConstruct self other =>
      if (st.vars self).isSome then none
      else do
        let o ← st.vars other
        some { st with vars := Function.update (Function.update st.vars self (some o)) other (some InitialDataValue) }
  | .copyAssign self other => do
      let s ← st.vars self
      let o ← st.vars other
      let (h, d) ← copyAssign st.heap s o
      some ⟨Function.update st.vars self (some d), h⟩
  | .moveAssign self other => do
      let s ← st.vars self
      let o ← st.vars other
      let h ← EncodedSequence.destroy st.heap s
      some ⟨Function.update (Function.update st.vars self (some o)) other (some InitialDataValue), h⟩
  | .push_back self elt => do
      let s ← st.vars self
      let (h, d) ← EncodedSequence.push_back T st.heap s elt
      some ⟨Function.update st.vars self (some d), h⟩
  | .destroy self => do
      let s ← st.vars self
      let h ← EncodedSequence.destroy st.heap s
      some ⟨Function.update st.vars self none, h⟩

def run (T : Element E) (ops : List (Op E)) : Option State := ops.foldlM (step T) .initial

abbrev Lists (E : Type) := Nat → Option (List E)

/-- The operations on lists. A variable that is moved from is empty. -/
def Op.meaning (m : Lists E) : Op E → Option (Lists E)
  | .construct self => if (m self).isSome then none else some (Function.update m self (some []))
  | .copyConstruct self other =>
      if (m self).isSome then none else (m other).map fun l => Function.update m self (some l)
  | .moveConstruct self other =>
      if (m self).isSome then none
      else (m other).map fun l => Function.update (Function.update m self (some l)) other (some [])
  | .copyAssign self other => (m self).bind fun _ => (m other).map fun l => Function.update m self (some l)
  | .moveAssign self other =>
      (m self).bind fun _ => (m other).map fun l =>
        Function.update (Function.update m self (some l)) other (some [])
  | .push_back self elt => (m self).map fun l => Function.update m self (some (l ++ [elt]))
  | .destroy self => (m self).map fun _ => Function.update m self none

def meanings (ops : List (Op E)) : Option (Lists E) := ops.foldlM Op.meaning fun _ => none

/-- An element that is added has an index, and the sequence does not get longer than 65532 chunks. -/
def Op.Fits (T : Element E) (m : Lists E) : Op E → Prop
  | .push_back self elt => ∀ l, m self = some l →
      T.indices elt ≠ [] ∧ ((l ++ [elt]).flatMap T.encode).length ≤ 65532
  | _ => True

def AllFit (T : Element E) (ops : List (Op E)) : Prop :=
  ∀ (k : Nat) (op : Op E), ops[k]? = some op → ∀ m, meanings (ops.take k) = some m → op.Fits T m

/-- Iterating the variable `x` yields `l`. -/
def Yields (T : Element E) (st : State) (x : Nat) (l : List E) : Prop :=
  ∃ d cells fuel, st.vars x = some d ∧ chunks st.heap d = some cells ∧ elements T.decoder fuel cells = some l

/-- The variables of a state are those of `m`, and iterating each one yields its list. -/
def Shows (T : Element E) (st : State) (m : Lists E) : Prop :=
  ∀ x, (st.vars x = none ↔ m x = none) ∧ ∀ l, m x = some l → Yields T st x l

/-- A word that holds the list `l`, of which every element has an index. -/
def HoldsList (T : Element E) (h : Heap) (d : Data) (l : List E) : Prop :=
  (∀ elt ∈ l, T.indices elt ≠ []) ∧ Holds h (l.flatMap T.encode) d

structure Represents (T : Element E) (st : State) (m : Lists E) : Prop where
  fresh : st.heap.Fresh
  vars : ∀ x, Option.Rel (HoldsList T st.heap) (st.vars x) (m x)
  unique : ∀ x y p, st.vars x = some (.pointer p) → st.vars y = some (.pointer p) → x = y

variable {T : Element E} {st : State} {m : Lists E} {x y : Nat} {d d' : Data} {l : List E} {h' : Heap}

theorem HoldsList.congr {h : Heap} (hd : HoldsList T h d l) (hcells : ∀ p, d = .pointer p → h'.cells p = h.cells p) :
    HoldsList T h' d l := ⟨hd.1, hd.2.congr hcells⟩

theorem holdsList_initialDataValue (T : Element E) (h : Heap) : HoldsList T h InitialDataValue [] := by
  refine ⟨by simp, ?_, Nat.zero_le _, rfl⟩
  rfl

namespace Represents

theorem initial : Represents T .initial fun _ => none where
  fresh := fun _ _ => rfl
  vars := fun _ => .none
  unique := by
    intro x y p hx
    cases hx

theorem exists_holds (h : Represents T st m) (hx : st.vars x = some d) :
    ∃ l, m x = some l ∧ HoldsList T st.heap d l := by
  have hrel := h.vars x
  rw [hx] at hrel
  cases hm : m x with
  | none =>
      rw [hm] at hrel
      cases hrel
  | some l =>
      rw [hm] at hrel
      cases hrel with
      | some hd => exact ⟨l, rfl, hd⟩

theorem exists_data (h : Represents T st m) (hx : m x = some l) :
    ∃ d, st.vars x = some d ∧ HoldsList T st.heap d l := by
  have hrel := h.vars x
  rw [hx] at hrel
  cases hd : st.vars x with
  | none =>
      rw [hd] at hrel
      cases hrel
  | some d =>
      rw [hd] at hrel
      cases hrel with
      | some hl => exact ⟨d, rfl, hl⟩

theorem eq_none_iff (h : Represents T st m) (x : Nat) : st.vars x = none ↔ m x = none := by
  constructor
  · intro hx
    cases hm : m x with
    | none => rfl
    | some l =>
        obtain ⟨d, hd, -⟩ := h.exists_data hm
        rw [hx] at hd
        cases hd
  · intro hx
    cases hd : st.vars x with
    | none => rfl
    | some d =>
        obtain ⟨l, hl, -⟩ := h.exists_holds hd
        rw [hx] at hl
        cases hl

theorem lt_next (h : Represents T st m) {p : Nat} (hx : st.vars x = some (.pointer p)) : p < st.heap.next := by
  obtain ⟨l, -, hd⟩ := h.exists_holds hx
  exact hd.2.lt_next h.fresh

theorem update (h : Represents T st m) (hx : ∀ p, d = .pointer p → st.vars x = some d)
    (hupdates : Updates st.heap d h' d') (hd : HoldsList T h' d' l) :
    Represents T ⟨Function.update st.vars x (some d'), h'⟩ (Function.update m x (some l)) := by
  have hother : ∀ y, y ≠ x → ∀ p, st.vars y = some (.pointer p) → d ≠ .pointer p := by
    rintro y hy p hp rfl
    exact hy (h.unique y x p hp (hx p rfl))
  have hsep : ∀ y, y ≠ x → ∀ p, st.vars y = some (.pointer p) → d' ≠ .pointer p := by
    intro y hy p hp hd'
    rcases (hupdates.pointer p hd').2 with heq | hle
    · exact hother y hy p hp heq
    · exact absurd (h.lt_next hp) (not_lt.2 hle)
  refine ⟨hupdates.fresh, ?_, ?_⟩
  · intro y
    by_cases hy : y = x
    · subst hy
      simp only [Function.update_self]
      exact .some hd
    · simp only [Function.update_of_ne hy]
      have hrel := h.vars y
      cases hv : st.vars y with
      | none =>
          rw [(h.eq_none_iff y).1 hv]
          exact .none
      | some e =>
          obtain ⟨k, hk, hholds⟩ := h.exists_holds hv
          rw [hk]
          refine .some (hholds.congr ?_)
          rintro p rfl
          exact hupdates.other p (h.lt_next hv) (hother y hy p hv)
  · intro y z p hy hz
    by_cases hyx : y = x
    · by_cases hzx : z = x
      · rw [hyx, hzx]
      · subst hyx
        simp only [Function.update_self, Function.update_of_ne hzx, Option.some.injEq] at hy hz
        exact absurd hy (hsep z hzx p hz)
    · by_cases hzx : z = x
      · subst hzx
        simp only [Function.update_self, Function.update_of_ne hyx, Option.some.injEq] at hy hz
        exact absurd hz (hsep y hyx p hy)
      · simp only [Function.update_of_ne hyx, Function.update_of_ne hzx] at hy hz
        exact h.unique y z p hy hz

theorem remove (h : Represents T st m) {w : BitVec 64} (hx : st.vars x = some d)
    (hupdates : Updates st.heap d h' (.word w)) :
    Represents T ⟨Function.update st.vars x none, h'⟩ (Function.update m x none) := by
  refine ⟨hupdates.fresh, ?_, ?_⟩
  · intro y
    by_cases hy : y = x
    · subst hy
      simp only [Function.update_self]
      exact .none
    · simp only [Function.update_of_ne hy]
      cases hv : st.vars y with
      | none =>
          rw [(h.eq_none_iff y).1 hv]
          exact .none
      | some e =>
          obtain ⟨k, hk, hholds⟩ := h.exists_holds hv
          rw [hk]
          refine .some (hholds.congr ?_)
          rintro p rfl
          apply hupdates.other p (h.lt_next hv)
          rintro rfl
          exact hy (h.unique y x p hv hx)
  · intro y z p hy hz
    have hne : ∀ {z}, Function.update st.vars x none z = some (.pointer p) → z ≠ x := by
      rintro z hz rfl
      rw [Function.update_self] at hz
      cases hz
    have hyx := hne hy
    have hzx := hne hz
    simp only [Function.update_of_ne hyx, Function.update_of_ne hzx] at hy hz
    exact h.unique y z p hy hz

theorem move (h : Represents T st m) (hx : st.vars x = none) (hy : st.vars y = some d) (hm : m y = some l) :
    Represents T { st with vars := Function.update (Function.update st.vars x (some d)) y (some InitialDataValue) }
      (Function.update (Function.update m x (some l)) y (some [])) := by
  have hxy : x ≠ y := by
    rintro rfl
    rw [hx] at hy
    cases hy
  obtain ⟨k, hk, hholds⟩ := h.exists_holds hy
  obtain rfl := Option.some.inj (hm.symm.trans hk)
  refine ⟨h.fresh, ?_, ?_⟩
  · intro z
    by_cases hzy : z = y
    · subst hzy
      simp only [Function.update_self]
      exact .some (holdsList_initialDataValue T st.heap)
    · by_cases hzx : z = x
      · subst hzx
        simp only [Function.update_of_ne hzy, Function.update_self]
        exact .some hholds
      · simp only [Function.update_of_ne hzy, Function.update_of_ne hzx]
        exact h.vars z
  · -- who has the storage now is who had it, with `x` for `y`
    have howner : ∀ z p, Function.update (Function.update st.vars x (some d)) y (some InitialDataValue) z =
        some (.pointer p) → (z = x ∧ st.vars y = some (.pointer p)) ∨
          (z ≠ x ∧ z ≠ y ∧ st.vars z = some (.pointer p)) := by
      intro z p hz
      by_cases hzy : z = y
      · subst hzy
        rw [Function.update_self] at hz
        cases hz
      · by_cases hzx : z = x
        · subst hzx
          rw [Function.update_of_ne hzy, Function.update_self] at hz
          exact .inl ⟨rfl, hy.trans hz⟩
        · rw [Function.update_of_ne hzy, Function.update_of_ne hzx] at hz
          exact .inr ⟨hzx, hzy, hz⟩
    intro z z' p hz hz'
    rcases howner z p hz with ⟨rfl, hold⟩ | ⟨hzx, hzy, hold⟩
    · rcases howner z' p hz' with ⟨rfl, -⟩ | ⟨-, hzy', hold'⟩
      · rfl
      · exact absurd (h.unique z' y p hold' hold) hzy'
    · rcases howner z' p hz' with ⟨rfl, hold'⟩ | ⟨-, -, hold'⟩
      · exact absurd (h.unique z y p hold hold') hzy
      · exact h.unique z z' p hold hold'

theorem shows (h : Represents T st m) : Shows T st m := by
  intro x
  refine ⟨h.eq_none_iff x, ?_⟩
  intro l hl
  obtain ⟨d, hd, hholds⟩ := h.exists_data hl
  exact ⟨d, _, l.length + 1, hd, hholds.2.chunks_eq, Element.elements_flatMap hholds.1 (Nat.lt_succ_self _)⟩

theorem step (h : Represents T st m) {op : Op E} {m' : Lists E} (hm : op.meaning m = some m') (hfit : op.Fits T m) :
    ∃ st', step T st op = some st' ∧ Represents T st' m' := by
  cases op with
  | construct self =>
      simp only [Op.meaning] at hm
      split_ifs at hm with hsome
      obtain rfl := Option.some.inj hm
      rw [Option.not_isSome_iff_eq_none] at hsome
      have hnone := (h.eq_none_iff self).2 hsome
      have hword : ∀ p, Data.word 0 = .pointer p → st.vars self = some (.word 0) := by
        intro p hp
        cases hp
      refine ⟨_, ?_, h.update hword (.word h.fresh IsInline) (holdsList_initialDataValue T st.heap)⟩
      simp only [EncodedSequence.step, hnone, Option.isSome_none]
      rfl
  | copyConstruct self other =>
      simp only [Op.meaning] at hm
      split_ifs at hm with hsome
      obtain ⟨l, hl, rfl⟩ := Option.map_eq_some_iff.1 hm
      rw [Option.not_isSome_iff_eq_none] at hsome
      have hnone := (h.eq_none_iff self).2 hsome
      obtain ⟨o, ho, hholds⟩ := h.exists_data hl
      obtain ⟨h', d', hcopy, hd', hupdates⟩ := copyConstruct_spec h.fresh hholds.2 (.word 0)
      have hword : ∀ p, Data.word 0 = .pointer p → st.vars self = some (.word 0) := by
        intro p hp
        cases hp
      refine ⟨_, ?_, h.update hword hupdates ⟨hholds.1, hd'⟩⟩
      simp [EncodedSequence.step, hnone, ho, hcopy]
  | moveConstruct self other =>
      simp only [Op.meaning] at hm
      split_ifs at hm with hsome
      obtain ⟨l, hl, rfl⟩ := Option.map_eq_some_iff.1 hm
      rw [Option.not_isSome_iff_eq_none] at hsome
      have hnone := (h.eq_none_iff self).2 hsome
      obtain ⟨o, ho, -⟩ := h.exists_data hl
      refine ⟨_, ?_, h.move hnone ho hl⟩
      simp [EncodedSequence.step, hnone, ho]
  | copyAssign self other =>
      obtain ⟨k, hk, hm⟩ := Option.bind_eq_some_iff.1 hm
      obtain ⟨l, hl, rfl⟩ := Option.map_eq_some_iff.1 hm
      obtain ⟨s, hs, hself⟩ := h.exists_data hk
      obtain ⟨o, ho, hholds⟩ := h.exists_data hl
      obtain ⟨h', d', hassign, hd', hupdates⟩ := copyAssign_spec h.fresh hself.2 hholds.2
      refine ⟨_, ?_, h.update (fun _ _ => hs) hupdates ⟨hholds.1, hd'⟩⟩
      simp [EncodedSequence.step, hs, ho, hassign]
  | moveAssign self other =>
      obtain ⟨k, hk, hm⟩ := Option.bind_eq_some_iff.1 hm
      obtain ⟨l, hl, rfl⟩ := Option.map_eq_some_iff.1 hm
      obtain ⟨s, hs, hself⟩ := h.exists_data hk
      obtain ⟨o, ho, -⟩ := h.exists_data hl
      obtain ⟨h', hdestroy, hupdates⟩ := destroy_spec h.fresh hself.2 0
      have hremoved := h.remove hs hupdates
      refine ⟨⟨Function.update (Function.update st.vars self (some o)) other (some InitialDataValue), h'⟩, ?_, ?_⟩
      · simp [EncodedSequence.step, hs, ho, hdestroy]
      · by_cases heq : other = self
        · -- a variable that is moved to itself is empty
          subst heq
          have hword : ∀ p, Data.word 0 = .pointer p →
              Function.update st.vars other none other = some (Data.word 0) := by
            intro p hp
            cases hp
          have hempty := hremoved.update hword (.word hremoved.fresh IsInline) (holdsList_initialDataValue T h')
          simp only [Function.update_idem] at hempty ⊢
          exact hempty
        · have hmoved := hremoved.move (Function.update_self self none st.vars)
            ((Function.update_of_ne heq none st.vars).trans ho) ((Function.update_of_ne heq none m).trans hl)
          simp only [Function.update_idem] at hmoved
          exact hmoved
  | push_back self elt =>
      obtain ⟨l, hl, rfl⟩ := Option.map_eq_some_iff.1 hm
      obtain ⟨hne, hlen⟩ := hfit l hl
      obtain ⟨s, hs, hself⟩ := h.exists_data hl
      rw [List.flatMap_append, List.flatMap_singleton, List.length_append] at hlen
      obtain ⟨h', d', hpush, hd', hupdates⟩ := push_back_spec h.fresh hself.2 hlen
      refine ⟨_, ?_, h.update (fun _ _ => hs) hupdates ⟨?_, ?_⟩⟩
      · simp only [EncodedSequence.step, hs, Option.bind_eq_bind, Option.bind_some, hpush]
      · rw [List.forall_mem_append, List.forall_mem_singleton]
        exact ⟨hself.1, hne⟩
      · rwa [List.flatMap_append, List.flatMap_singleton]
  | destroy self =>
      obtain ⟨l, hl, rfl⟩ := Option.map_eq_some_iff.1 hm
      obtain ⟨s, hs, hself⟩ := h.exists_data hl
      obtain ⟨h', hdestroy, hupdates⟩ := destroy_spec h.fresh hself.2 0
      refine ⟨_, ?_, h.remove hs hupdates⟩
      simp [EncodedSequence.step, hs, hdestroy]

theorem not_shows (h : Represents T st m) {op : Op E} {m' : Lists E} (hm : op.meaning m = some m')
    (hfit : ¬ op.Fits T m) {st' : State} (hstep : EncodedSequence.step T st op = some st') : ¬ Shows T st' m' := by
  cases op with
  | push_back self elt =>
      obtain ⟨l, hl, rfl⟩ := Option.map_eq_some_iff.1 hm
      obtain ⟨s, hs, hself⟩ := h.exists_data hl
      by_cases hlen : (l.flatMap T.encode).length + (T.encode elt).length ≤ 65532
      · have hnil : T.indices elt = [] := by
          by_contra hne
          apply hfit
          intro k hk
          obtain rfl := Option.some.inj (hl.symm.trans hk)
          rw [List.flatMap_append, List.flatMap_singleton, List.length_append]
          exact ⟨hne, hlen⟩
        obtain ⟨h', d', hpush, hd', -⟩ := push_back_spec h.fresh hself.2 hlen
        simp only [EncodedSequence.step, hs, Option.bind_eq_bind, Option.bind_some, hpush, Option.some.injEq] at hstep
        subst hstep
        rw [Element.encode_eq_nil_iff.2 hnil, List.append_nil] at hd'
        intro hshows
        obtain ⟨e, cells, fuel, he, hcells, hyields⟩ := (hshows self).2 (l ++ [elt]) (Function.update_self self _ m)
        simp only [Function.update_self, Option.some.injEq] at he
        subst he
        obtain rfl := Option.some.inj (hd'.chunks_eq.symm.trans hcells)
        have hold := Element.elements_flatMap hself.1 (Nat.lt_succ_self _)
        have heq : l = l ++ [elt] := iterate_unique hold hyields
        simp at heq
      · have hnone := push_back_eq_none h.fresh hself.2 (not_le.1 hlen)
        simp [EncodedSequence.step, hs, hnone] at hstep
  | _ => exact absurd trivial hfit

end Represents

/-! ## Runs -/

variable {ops : List (Op E)} {op : Op E}

theorem run_append_singleton : run T (ops ++ [op]) = (run T ops).bind fun st => step T st op :=
  foldlM_append_singleton _ _ _ _

theorem meanings_append_singleton : meanings (ops ++ [op]) = (meanings ops).bind fun m => op.meaning m :=
  foldlM_append_singleton _ _ _ _

theorem allFit_append_singleton_iff : AllFit T (ops ++ [op]) ↔
    AllFit T ops ∧ ∀ m, meanings ops = some m → op.Fits T m :=
  forall_take_append_singleton_iff (P := fun before (o : Op E) => ∀ m, meanings before = some m → o.Fits T m)

def AllShow (T : Element E) (ops : List (Op E)) : Prop :=
  ∀ k ≤ ops.length, ∃ st m, run T (ops.take k) = some st ∧ meanings (ops.take k) = some m ∧ Shows T st m

theorem allShow_append_singleton_iff : AllShow T (ops ++ [op]) ↔ AllShow T ops ∧
    ∃ st m, run T (ops ++ [op]) = some st ∧ meanings (ops ++ [op]) = some m ∧ Shows T st m := by
  have htake : (ops ++ [op]).take (ops ++ [op]).length = ops ++ [op] := List.take_length
  constructor
  · intro h
    refine ⟨?_, ?_⟩
    · intro k hk
      have hshow := h k (by rw [List.length_append]; omega)
      rwa [List.take_append_of_le_length hk] at hshow
    · have hshow := h _ (Nat.le_refl _)
      rwa [htake] at hshow
  · intro h k hk
    rcases Nat.lt_or_ge ops.length k with hlt | hle
    · obtain rfl : k = (ops ++ [op]).length := by
        rw [List.length_append, List.length_singleton] at hk ⊢
        omega
      rw [htake]
      exact h.2
    · rw [List.take_append_of_le_length hle]
      exact h.1 k hle

theorem run_cases (T : Element E) (ops : List (Op E)) (hm : (meanings ops).isSome) :
    (AllFit T ops ∧ AllShow T ops ∧ ∃ st m, run T ops = some st ∧ meanings ops = some m ∧ Represents T st m) ∨
    (¬ AllFit T ops ∧ ¬ AllShow T ops) := by
  induction ops using List.reverseRecOn with
  | nil =>
      refine .inl ⟨?_, ?_, .initial, fun _ => none, rfl, rfl, .initial⟩
      · intro k op hk
        simp at hk
      · intro k _
        rw [List.take_nil]
        exact ⟨.initial, fun _ => none, rfl, rfl, Represents.initial.shows⟩
  | append_singleton ops op ih =>
      rw [allFit_append_singleton_iff, allShow_append_singleton_iff, run_append_singleton]
      rw [meanings_append_singleton] at hm ⊢
      cases hbefore : meanings ops with
      | none =>
          rw [hbefore] at hm
          cases hm
      | some m =>
          rw [hbefore, Option.bind_some] at hm
          obtain ⟨m', hm'⟩ := Option.isSome_iff_exists.1 hm
          rw [Option.bind_some, hm']
          rcases ih (by rw [hbefore]; rfl) with ⟨hfit, hshow, st, m₀, hrun, hm₀, hrep⟩ | ⟨hfit, hshow⟩
          · obtain rfl := Option.some.inj (hbefore.symm.trans hm₀)
            rw [hrun, Option.bind_some]
            by_cases hop : op.Fits T m
            · obtain ⟨st', hstep, hrep'⟩ := hrep.step hm' hop
              have hlast : ∀ m₀, some m = some m₀ → op.Fits T m₀ := by
                rintro m₀ heq
                rwa [← Option.some.inj heq]
              exact .inl ⟨⟨hfit, hlast⟩, ⟨hshow, st', m', hstep, rfl, hrep'.shows⟩, st', m', hstep, rfl, hrep'⟩
            · refine .inr ⟨fun h => hop (h.2 m rfl), ?_⟩
              rintro ⟨-, st', m₀, hstep, heq, hshows⟩
              rw [← Option.some.inj heq] at hshows
              exact hrep.not_shows hm' hop hstep hshows
          · exact .inr ⟨fun h => hfit h.1, fun h => hshow h.1⟩

/-- In every state of a run iterating each variable yields its list, if and only if the operations all fit; and
`decodeIndex` undoes `encodeIndex`, both going as far as `getEncodedIndexSize` says. -/
theorem run_shows_iff (T : Element E) (ops : List (Op E)) (hm : (meanings ops).isSome) :
    (AllShow T ops ↔ AllFit T ops) ∧
    ∀ value rest, decodeIndex ((encodeIndex value).map some ++ rest) = some (value, rest) ∧
      (encodeIndex value).length = getEncodedIndexSize value := by
  refine ⟨?_, fun value rest => ⟨decodeIndex_encodeIndex value rest, length_encodeIndex value⟩⟩
  rcases run_cases T ops hm with ⟨hfit, hshow, -⟩ | ⟨hfit, hshow⟩
  · exact iff_of_true hshow hfit
  · exact iff_of_false hshow hfit

/-- Elements of one index, as the components of a metadata path are. -/
def Component : Element (BitVec 32) where
  indices := fun primary => [primary]
  decoder := .index .done
  apply_indices := fun _ => rfl

theorem length_encode_component_le {primary : BitVec 32} (h : primary.toNat < 2 ^ 7) :
    (Component.encode primary).length = 1 := by
  have hzero : primary >>> IndexBitsPerChunk = 0 := by
    apply BitVec.eq_of_toNat_eq
    simp only [IndexBitsPerChunk, BitVec.toNat_ushiftRight, Nat.shiftRight_eq_div_pow]
    exact Nat.div_eq_of_lt h
  have hcomponent : Component.encode primary = encodeIndex primary := List.flatMap_singleton _ _
  rw [hcomponent, encodeIndex, if_pos hzero, List.length_singleton]

theorem length_flatMap_component {l : List (BitVec 32)} (h : ∀ primary ∈ l, primary.toNat < 2 ^ 7) :
    (l.flatMap Component.encode).length = l.length := by
  induction l with
  | nil => rfl
  | cons primary l ih =>
      rw [List.forall_mem_cons] at h
      rw [List.flatMap_cons, List.length_append, length_encode_component_le h.1, ih h.2, List.length_cons, Nat.add_comm]

theorem run_shows_iff_copied :
    AllShow Component [.construct 0, .push_back 0 5, .copyConstruct 1 0, .push_back 1 7, .moveAssign 0 1] := by
  refine (run_shows_iff Component _ rfl).1.2 ?_
  have hfits : ∀ l : List (BitVec 32), (∀ primary ∈ l, primary.toNat < 2 ^ 7) → l.length ≤ 65532 →
      (l.flatMap Component.encode).length ≤ 65532 := by
    intro l hl hlen
    rwa [length_flatMap_component hl]
  intro k op hop m hm
  match k with
  | 0 =>
      cases hop
      trivial
  | 1 =>
      cases hop
      cases hm
      rintro l ⟨⟩
      exact ⟨List.cons_ne_nil _ _, hfits [5] (by simp) (by simp)⟩
  | 2 =>
      cases hop
      trivial
  | 3 =>
      cases hop
      cases hm
      rintro l ⟨⟩
      exact ⟨List.cons_ne_nil _ _, hfits [5, 7] (by simp) (by simp)⟩
  | 4 =>
      cases hop
      trivial
  | _ + 5 => simp at hop

/-- A sequence to which `elt` is added `n` times. -/
def pushes (elt : E) (n : Nat) : List (Op E) := .construct 0 :: List.replicate n (.push_back 0 elt)

theorem meanings_pushes (elt : E) (n : Nat) :
    meanings (pushes elt n) = some (Function.update (fun _ => none : Lists E) 0 (some (List.replicate n elt))) := by
  induction n with
  | zero => rfl
  | succ n ih =>
      have hsnoc : pushes elt (n + 1) = pushes elt n ++ [.push_back 0 elt] := by
        rw [pushes, List.replicate_succ', ← List.cons_append, pushes]
      rw [hsnoc, meanings_append_singleton, ih, Option.bind_some, Op.meaning, Function.update_self, Option.map_some,
        Function.update_idem, ← List.replicate_succ']

/-- 65533 elements of one chunk. -/
theorem not_allShow_pushes : (meanings (pushes (0 : BitVec 32) 65533)).isSome ∧
    ¬ AllShow Component (pushes (0 : BitVec 32) 65533) := by
  have hsome : (meanings (pushes (0 : BitVec 32) 65533)).isSome := by
    rw [meanings_pushes]
    rfl
  refine ⟨hsome, ?_⟩
  rcases run_cases Component (pushes 0 65533) hsome with ⟨hfit, -⟩ | ⟨-, hshow⟩
  · exfalso
    have hsnoc : pushes (0 : BitVec 32) 65533 = pushes 0 65532 ++ [.push_back 0 0] := by
      rw [pushes, List.replicate_succ', ← List.cons_append, pushes]
    rw [hsnoc, allFit_append_singleton_iff] at hfit
    have hlen := (hfit.2 _ (meanings_pushes 0 65532) _ (Function.update_self 0 _ _)).2
    rw [length_flatMap_component, List.length_append, List.length_replicate, List.length_singleton] at hlen
    · omega
    · intro primary hprimary
      rw [List.mem_append, List.mem_singleton] at hprimary
      rcases hprimary with h | rfl
      · rw [List.eq_of_mem_replicate h]
        decide
      · decide
  · exact hshow

end SwiftKStdlib.EncodedSequence
