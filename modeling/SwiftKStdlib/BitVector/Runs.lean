import SwiftKStdlib.BitVector.Observers

/-!
# Runs over several vectors

* `Op`, `Op.run` : the operations, on vectors that are named by numbers;
* `Op.runLists` : the same operations on lists;
* `Op.Allowed` : what the operations assert; `Op.Fits` : the length stays below `2 ^ 63`;
* `faithful_iff` : when the vectors report what the lists say.
-/

namespace SwiftKStdlib.BitVector

open Lib.BitWords

namespace ClusteredBitVector

inductive Op where
  | append (dst src : Nat)
  | appendMoved (dst src : Nat)
  | add (dst numBits : Nat) (value : ChunkType)
  | appendClearBits (dst numBits : Nat)
  | appendSetBits (dst numBits : Nat)
  | setBit (dst i : Nat)
  | clearBit (dst i : Nat)
  | flipBit (dst i : Nat)
  | flipAll (dst : Nat)
  | clear (dst : Nat)
  | unite (dst src : Nat)
  | intersect (dst src : Nat)
  | copy (dst src : Nat)
  | assign (dst src : Nat)
  | moveAssign (dst src : Nat)
  deriving DecidableEq, Repr

namespace Op

/-- One operation; new storage has the contents `fresh`. -/
def run (fresh : Nat → ChunkType) (env : Nat → ClusteredBitVector) : Op → Nat → ClusteredBitVector
  | append dst src => Function.update env dst ((env dst).append fresh (env src))
  | appendMoved dst src =>
    let (v, other) := (env dst).appendMoved fresh (env src)
    Function.update (Function.update env src other) dst v
  | add dst numBits value => Function.update env dst ((env dst).add fresh numBits value)
  | appendClearBits dst numBits => Function.update env dst ((env dst).appendClearBits fresh numBits)
  | appendSetBits dst numBits => Function.update env dst ((env dst).appendSetBits fresh numBits)
  | setBit dst i => Function.update env dst ((env dst).setBit fresh i)
  | clearBit dst i => Function.update env dst ((env dst).clearBit i)
  | flipBit dst i => Function.update env dst ((env dst).flipBit fresh i)
  | flipAll dst => Function.update env dst ((env dst).flipAll fresh)
  | clear dst => Function.update env dst (env dst).clear
  | unite dst src => Function.update env dst ((env dst).unite fresh (env src))
  | intersect dst src => Function.update env dst ((env dst).intersect (env src))
  | copy dst src => Function.update env dst (ClusteredBitVector.copy fresh (env src))
  | assign dst src => Function.update env dst ((env dst).assign fresh (env src))
  | moveAssign dst src =>
    let (v, other) := ClusteredBitVector.moveAssign (env src)
    Function.update (Function.update env src other) dst v

/-- The operation on lists. A vector that was moved from is as the source leaves it. -/
def runLists (env : Nat → List Bool) : Op → Nat → List Bool
  | append dst src => Function.update env dst (env dst ++ env src)
  | appendMoved dst src =>
    if env dst = [] then Function.update (Function.update env src []) dst (env src)
    else Function.update env dst (env dst ++ env src)
  | add dst numBits value => Function.update env dst (env dst ++ lowBits numBits value)
  | appendClearBits dst numBits => Function.update env dst (env dst ++ List.replicate numBits false)
  | appendSetBits dst numBits => Function.update env dst (env dst ++ List.replicate numBits true)
  | setBit dst i => Function.update env dst ((env dst).set i true)
  | clearBit dst i => Function.update env dst ((env dst).set i false)
  | flipBit dst i => Function.update env dst ((env dst).set i (!bit (env dst) i))
  | flipAll dst => Function.update env dst ((env dst).map not)
  | clear dst => Function.update env dst []
  | unite dst src => Function.update env dst (List.zipWith or (env dst) (env src))
  | intersect dst src => Function.update env dst (List.zipWith and (env dst) (env src))
  | copy dst src => Function.update env dst (env src)
  | assign dst src => Function.update env dst (env src)
  | moveAssign dst src => Function.update (Function.update env src []) dst (env src)

/-- What the operation asserts. -/
def Allowed (env : Nat → List Bool) : Op → Prop
  | append dst src => src ≠ dst
  | appendMoved dst src => src ≠ dst
  | add _ numBits value => numBits ≤ 64 ∧ value.toNat < 2 ^ numBits
  | setBit dst i => i < (env dst).length
  | clearBit dst i => i < (env dst).length
  | flipBit dst i => i < (env dst).length
  | unite dst src => (env dst).length = (env src).length
  | intersect dst src => (env dst).length = (env src).length
  | moveAssign dst src => src ≠ dst
  | _ => True

instance (env : Nat → List Bool) : ∀ op : Op, Decidable (op.Allowed env)
  | append dst src | appendMoved dst src | moveAssign dst src => inferInstanceAs (Decidable (src ≠ dst))
  | add _ numBits value => inferInstanceAs (Decidable (numBits ≤ 64 ∧ value.toNat < 2 ^ numBits))
  | setBit dst i | clearBit dst i | flipBit dst i => inferInstanceAs (Decidable (i < (env dst).length))
  | unite dst src | intersect dst src =>
    inferInstanceAs (Decidable ((env dst).length = (env src).length))
  | appendClearBits _ _ | appendSetBits _ _ | flipAll _ | clear _ | copy _ _ | assign _ _ =>
    inferInstanceAs (Decidable True)

/-- The length stays in its 63 bits. -/
def Fits (env : Nat → List Bool) : Op → Prop
  | append dst src => (env dst).length + (env src).length < 2 ^ 63
  | appendMoved dst src => (env dst).length + (env src).length < 2 ^ 63
  | add dst numBits _ => (env dst).length + numBits < 2 ^ 63
  | appendClearBits dst numBits => (env dst).length + numBits < 2 ^ 63
  | appendSetBits dst numBits => (env dst).length + numBits < 2 ^ 63
  | _ => True

instance (env : Nat → List Bool) : ∀ op : Op, Decidable (op.Fits env)
  | append dst src | appendMoved dst src =>
    inferInstanceAs (Decidable ((env dst).length + (env src).length < 2 ^ 63))
  | add dst numBits _ | appendClearBits dst numBits | appendSetBits dst numBits =>
    inferInstanceAs (Decidable ((env dst).length + numBits < 2 ^ 63))
  | setBit _ _ | clearBit _ _ | flipBit _ _ | flipAll _ | clear _ | unite _ _ | intersect _ _
  | copy _ _ | assign _ _ | moveAssign _ _ => inferInstanceAs (Decidable True)

end Op

/-! ## Steps -/

def RepresentsAll (env : Nat → ClusteredBitVector) (lists : Nat → List Bool) : Prop :=
  ∀ x, Represents (env x) (lists x)

section Steps

variable {env : Nat → ClusteredBitVector} {lists : Nat → List Bool} (h : RepresentsAll env lists)
include h

theorem RepresentsAll.update {v : ClusteredBitVector} {l : List Bool} (dst : Nat) (hv : Represents v l) :
    RepresentsAll (Function.update env dst v) (Function.update lists dst l) := by
  intro x
  by_cases hx : x = dst
  · rw [hx, Function.update_self, Function.update_self]
    exact hv
  · rw [Function.update_of_ne hx, Function.update_of_ne hx]
    exact h x

theorem RepresentsAll.step (fresh : Nat → ChunkType) {op : Op} (hop : op.Allowed lists)
    (hfits : op.Fits lists) : RepresentsAll (op.run fresh env) (op.runLists lists) := by
  cases op with
  | append dst src => exact h.update dst ((h dst).append fresh (h src) hfits)
  | appendMoved dst src =>
    have hrun : (Op.appendMoved dst src).run fresh env =
        Function.update (Function.update env src ((env dst).appendMoved fresh (env src)).2) dst
          ((env dst).appendMoved fresh (env src)).1 := rfl
    rw [hrun]
    unfold appendMoved Op.runLists
    by_cases hnil : lists dst = []
    · have hzero : (env dst).lengthInBits = 0 := by rw [(h dst).length, hnil]; rfl
      rw [if_pos hzero]
      simp only [if_pos hnil]
      exact (h.update src represents_empty).update dst (h src)
    · have hzero : (env dst).lengthInBits ≠ 0 := by
        rw [(h dst).length]
        exact fun hzero => hnil (List.eq_nil_of_length_eq_zero hzero)
      rw [if_neg hzero]
      simp only [if_neg hnil, Function.update_eq_self]
      exact h.update dst ((h dst).append fresh (h src) hfits)
  | add dst numBits value => exact h.update dst ((h dst).add fresh hop.1 hop.2 hfits)
  | appendClearBits dst numBits => exact h.update dst ((h dst).appendClearBits fresh hfits)
  | appendSetBits dst numBits => exact h.update dst ((h dst).appendSetBits fresh hfits)
  | setBit dst i => exact h.update dst ((h dst).setBit fresh hop)
  | clearBit dst i => exact h.update dst ((h dst).clearBit hop)
  | flipBit dst i => exact h.update dst ((h dst).flipBit fresh hop)
  | flipAll dst => exact h.update dst ((h dst).flipAll fresh)
  | clear dst => exact h.update dst (represents_clear _)
  | unite dst src => exact h.update dst ((h dst).unite (h src) hop fresh)
  | intersect dst src => exact h.update dst ((h dst).intersect (h src) hop)
  | copy dst src => exact h.update dst ((h src).copy fresh)
  | assign dst src => exact h.update dst ((h src).assign _ fresh)
  | moveAssign dst src => exact (h.update src represents_empty).update dst (h src)

end Steps

/-! ## Runs -/

/-- A run: each operation, with the contents of the storage that it allocates. -/
abbrev Run := List (Op × (Nat → ChunkType))

namespace Run

def vectors (run : Run) (env : Nat → ClusteredBitVector) : Nat → ClusteredBitVector :=
  run.foldl (fun env step => step.1.run step.2 env) env

def lists (run : Run) (env : Nat → List Bool) : Nat → List Bool :=
  run.foldl (fun env step => step.1.runLists env) env

/-- `P` holds of each operation, on the lists before it. -/
def Each (P : (Nat → List Bool) → Op → Prop) : Run → (Nat → List Bool) → Prop
  | [], _ => True
  | step :: run, env => P env step.1 ∧ Each P run (step.1.runLists env)

instance decidableEach {P : (Nat → List Bool) → Op → Prop} [∀ env op, Decidable (P env op)] :
    ∀ (run : Run) (env : Nat → List Bool), Decidable (run.Each P env)
  | [], _ => inferInstanceAs (Decidable True)
  | step :: run, env =>
    have := @decidableEach P _ run (step.1.runLists env)
    inferInstanceAs (Decidable (P env step.1 ∧ Each P run (step.1.runLists env)))

theorem representsAll {env : Nat → ClusteredBitVector} {ls : Nat → List Bool}
    (h : RepresentsAll env ls) (run : Run) (hallowed : run.Each (fun ls op => op.Allowed ls) ls)
    (hfits : run.Each (fun ls op => op.Fits ls) ls) :
    RepresentsAll (run.vectors env) (run.lists ls) := by
  induction run generalizing env ls with
  | nil => exact h
  | cons step run ih => exact ih (h.step step.2 hallowed.1 hfits.1) hallowed.2 hfits.2

end Run

/-- The vector reports what the list says. -/
structure Tells (v : ClusteredBitVector) (l : List Bool) : Prop where
  size : v.size = l.length
  getBit : ∀ i b, l[i]? = some b → v.getBit i = b
  count : v.count = l.count true
  any : v.any = l.any id
  none : v.none = !l.any id
  tailClear : TailClear v

theorem Represents.tells {v : ClusteredBitVector} {l : List Bool} (h : Represents v l) : Tells v l where
  size := h.size
  getBit i b hib := by
    obtain ⟨hi, hb⟩ := List.getElem?_eq_some_iff.1 hib
    rw [h.getBit hi, ← hb]
    exact List.getD_eq_getElem _ _ hi
  count := h.count
  any := h.any
  none := congrArg not h.any
  tailClear := h.tailClear

def Enumerates (v : ClusteredBitVector) (l : List Bool) : Prop :=
  ∀ behind, SetBitEnumerator.Reports (v.enumerateSetBits behind) (ones l)

def Faithful (env : Nat → ClusteredBitVector) (lists : Nat → List Bool) : Prop :=
  ∀ x, Tells (env x) (lists x) ∧ Enumerates (env x) (lists x) ∧
    ∀ y, (env x).equals (env y) = true ↔ lists x = lists y

theorem RepresentsAll.faithful_iff {env : Nat → ClusteredBitVector} {lists : Nat → List Bool}
    (h : RepresentsAll env lists) : Faithful env lists ↔ ∀ x, EnumeratorFits (lists x) := by
  refine ⟨fun hfaithful x => ?_, fun hfits x => ⟨(h x).tells, ?_, fun y => (h x).equals (h y)⟩⟩
  · exact ((h x).reports_iff 0).1 ((hfaithful x).2.1 0)
  · exact fun behind => ((h x).reports_iff behind).2 (hfits x)

/-- After a run from empty vectors, in which the lengths fit, the vectors report what the lists say
exactly when the set bits have indices that fit the enumerator. -/
theorem faithful_iff_enumeratorFits (run : Run)
    (hallowed : run.Each (fun ls op => op.Allowed ls) fun _ => [])
    (hfits : run.Each (fun ls op => op.Fits ls) fun _ => []) :
    RepresentsAll (run.vectors fun _ => empty) (run.lists fun _ => []) ∧
    (Faithful (run.vectors fun _ => empty) (run.lists fun _ => []) ↔
      ∀ x, EnumeratorFits (run.lists (fun _ => []) x)) := by
  have hall := Run.representsAll (fun _ => represents_empty) run hallowed hfits
  exact ⟨hall, hall.faithful_iff⟩

/-- A value, bits across a chunk boundary, and a union with a copy that was flipped. -/
def mixedRun : Run :=
  [(.add 0 3 5, fun _ => 7), (.appendSetBits 0 70, fun _ => 7), (.copy 1 0, fun _ => 7),
    (.flipAll 1, fun _ => 7), (.unite 0 1, fun _ => 7), (.append 0 1, fun _ => 7)]

theorem faithful_iff_enumeratorFits_mixedRun :
    RepresentsAll (mixedRun.vectors fun _ => empty) (mixedRun.lists fun _ => []) ∧
    (Faithful (mixedRun.vectors fun _ => empty) (mixedRun.lists fun _ => []) ↔
      ∀ x, EnumeratorFits (mixedRun.lists (fun _ => []) x)) :=
  faithful_iff_enumeratorFits mixedRun (by decide) (by decide)

/-- One set bit, behind `n` clear ones. -/
def farBit (n : Nat) : Run :=
  [(.appendClearBits 0 n, fun _ => 0), (.appendSetBits 0 1, fun _ => 0)]

theorem not_faithful_farBit {n : Nat} (hn : 2 ^ 32 ≤ n) (hlt : n + 1 < 2 ^ 63) :
    ¬ Faithful ((farBit n).vectors fun _ => empty) ((farBit n).lists fun _ => []) := by
  have hclear : (Op.appendClearBits 0 n).runLists (fun _ => []) 0 = List.replicate n false := by
    simp [Op.runLists]
  have hlists : (farBit n).lists (fun _ => []) 0 = List.replicate n false ++ [true] := by
    simp [farBit, Run.lists, Op.runLists]
  have hfits : (farBit n).Each (fun ls op => op.Fits ls) fun _ => [] := by
    refine ⟨?_, ?_, trivial⟩
    · change 0 + n < 2 ^ 63
      omega
    · change ((Op.appendClearBits 0 n).runLists (fun _ => []) 0).length + 1 < 2 ^ 63
      rw [hclear, List.length_replicate]
      exact hlt
  have hall := Run.representsAll (fun _ => represents_empty) (farBit n) ⟨trivial, trivial, trivial⟩ hfits
  intro hfaithful
  have hfar := (hall.faithful_iff.1 hfaithful 0) n (by
    rw [hlists, bit_append, List.length_replicate, if_neg (lt_irrefl n), Nat.sub_self]
    rfl)
  omega

/-- Behind `2 ^ 32` clear bits, the enumerator reports the wrong index. -/
theorem exists_not_faithful : ¬ ∀ run : Run, run.Each (fun ls op => op.Allowed ls) (fun _ => []) →
    Faithful (run.vectors fun _ => empty) (run.lists fun _ => []) := by
  intro hclaim
  exact not_faithful_farBit (n := 2 ^ 32) (le_refl _) (by decide)
    (hclaim (farBit (2 ^ 32)) ⟨trivial, trivial, trivial⟩)

end ClusteredBitVector

end SwiftKStdlib.BitVector
