import SwiftKStdlib.ImmutablePointerSet.PtrSet
import Mathlib.Data.List.FinRange

/-!
# The factory of pointer sets

* `Factory` : its address and the nodes of its folding set, each one named by its place in the order of insertion;
* `Factory.get`, `Factory.mergeArray`, `Factory.mergeSet`, `Factory.merge` : `none` where an assertion fails, or an
  array is read or an allocation written behind its last element;
* `Factory.Valid` : the invariant of the nodes; `Valid.eq_iff` : in it a pointer stands for a set of elements;
* `Interns` : what an operation that gives a set may do, with one lemma for each operation and the exact condition
  under which it gives one.
-/

namespace SwiftKStdlib.ImmutablePointerSet
open SwiftKStdlib.Lib

variable {α : Type}

/-- A pointer to a set: to the static empty one, or to a node. -/
inductive SetPtr where
  | emptyPtrSet
  | node (i : Nat)
  deriving DecidableEq

/-- An `ImmutablePointerSetFactory`. -/
structure Factory (α : Type) where
  self : Nat
  Set : List (PtrSet α)

def EmptyPtrSet : PtrSet α := ⟨none, []⟩

def sizeofPtrSet : Nat := 32

def sizeofPtrTy : Nat := 8

namespace Factory

def load (F : Factory α) : SetPtr → Option (PtrSet α)
  | .emptyPtrSet => some EmptyPtrSet
  | .node i => F.Set[i]?

/-- The node is built in the memory of `memSize` bytes, with the `elts` copied behind it and `numElts` of them in its
array, and goes into the folding set. -/
def insertNode (F : Factory α) (memSize numElts : Nat) (elts : List α) : Option (Factory α × SetPtr) :=
  if sizeofPtrSet + sizeofPtrTy * elts.length ≤ memSize then
    some ({ F with Set := F.Set ++ [⟨some F.self, elts.take numElts⟩] }, .node F.Set.length)
  else none

variable [LinearOrder α]

def findNodeOrInsertPos (F : Factory α) (ID : List α) : Option SetPtr :=
  (F.Set.findIdx? fun s => decide (s.Profile = ID)).map .node

/-- `MemSize` is a `size_t` here, and an array in memory has less than `2 ^ 61` pointers. -/
def get (F : Factory α) (Array : List α) : Option (Factory α × SetPtr) :=
  if Array.isEmpty then some (F, .emptyPtrSet)
  else if !isSortedAndUniqued Array then none
  else
    let ID := Array.foldl (fun ID Ptr => ID ++ [Ptr]) []
    match F.findNodeOrInsertPos ID with
    | some PSet => some (F, PSet)
    | none =>
        let NumElts := Array.length
        let MemSize := sizeofPtrSet + sizeofPtrTy * NumElts
        F.insertNode MemSize NumElts Array

/-- The part that the two functions `merge` have in common; `NumElts` and `MemSize` are `unsigned`. -/
def mergeData (F : Factory α) (S1 S2 : List α) : Option (Factory α × SetPtr) :=
  let (ID, NumElts) := setUnionForEach (fun (s : List α × Nat) Ptr => (s.1 ++ [Ptr], (s.2 + 1) % 2 ^ 32)) S1 S2 ([], 0)
  match F.findNodeOrInsertPos ID with
  | some PSet => some (F, PSet)
  | none =>
      let MemSize := (sizeofPtrSet + sizeofPtrTy * NumElts) % 2 ^ 32
      F.insertNode MemSize NumElts (setUnion S1 S2)

/-- `merge(PtrSet *, ArrayRef<PtrTy>)`. -/
def mergeArray (F : Factory α) (S1 : SetPtr) (S2 : List α) : Option (Factory α × SetPtr) := do
  let s1 ← F.load S1
  if s1.empty then F.get S2
  else if S2.isEmpty then some (F, S1)
  else if !isSortedAndUniqued S2 then none
  else if s1.size = S2.length then
    match equal s1.Data S2 with
    | none => none
    | some true => some (F, S1)
    | some false => F.mergeData s1.Data S2
  else F.mergeData s1.Data S2

/-- `merge(PtrSet *, PtrSet *)`. -/
def mergeSet (F : Factory α) (S1 S2 : SetPtr) : Option (Factory α × SetPtr) := do
  let s1 ← F.load S1
  let s2 ← F.load S2
  if s1.empty then some (F, S2)
  else if s2.empty then some (F, S1)
  else if S1 = S2 then some (F, S1)
  else F.mergeData s1.Data s2.Data

/-- `ImmutablePointerSet::merge`. -/
def merge (F : Factory α) (self Other : SetPtr) : Option (Factory α × SetPtr) := do
  let s ← F.load self
  let o ← F.load Other
  if s.empty then some (F, Other)
  else if o.empty then some (F, self)
  else if o.ParentFactory ≠ s.ParentFactory then none
  else F.mergeSet self Other

/-- Every node holds an ascending array that is not empty, and no two hold the same. -/
structure Valid (F : Factory α) : Prop where
  sorted : ∀ s ∈ F.Set, s.Data.SortedLT
  data_ne_nil : ∀ s ∈ F.Set, s.Data ≠ []
  parentFactory : ∀ s ∈ F.Set, s.ParentFactory = some F.self
  nodup : (F.Set.map PtrSet.Data).Nodup

/-- The pointer `p` is one to the set of the elements `t`. -/
def Holds (F : Factory α) (p : SetPtr) (t : Finset α) : Prop :=
  ∃ s, F.load p = some s ∧ s.Data.SortedLT ∧ s.Data.toFinset = t

def Built (F : Factory α) (t : Finset α) : Prop := ∃ p, F.Holds p t

/-- What an operation on `F` does that gives the set of the elements `t`. -/
structure Interns (F : Factory α) (t : Finset α) (F' : Factory α) (p : SetPtr) : Prop where
  valid : F'.Valid
  keeps : ∀ q u, F.Holds q u → F'.Holds q u
  holds : F'.Holds p t
  built : ∀ u, F'.Built u → F.Built u ∨ u = t

end Factory

/-! ## Pointers and elements -/

namespace Factory

variable [LinearOrder α] {F F' : Factory α} {p q : SetPtr} {t u : Finset α} {l k : List α}

theorem holds_emptyPtrSet (F : Factory α) : F.Holds .emptyPtrSet ∅ :=
  ⟨EmptyPtrSet, rfl, by simp [EmptyPtrSet, List.sortedLT_iff_pairwise], rfl⟩

theorem built_empty (F : Factory α) : F.Built ∅ := ⟨_, F.holds_emptyPtrSet⟩

theorem mem_of_load {s : PtrSet α} {i : Nat} (h : F.load (.node i) = some s) : s ∈ F.Set := List.mem_of_getElem? h

theorem Holds.unique (ht : F.Holds p t) (hu : F.Holds p u) : t = u := by
  obtain ⟨s, hs, -, rfl⟩ := ht
  obtain ⟨s', hs', -, rfl⟩ := hu
  rw [Option.some.inj (hs.symm.trans hs')]

theorem Holds.empty_iff {s : PtrSet α} (h : F.Holds p t) (hs : F.load p = some s) : s.empty = true ↔ t = ∅ := by
  obtain ⟨s', hs', -, rfl⟩ := h
  obtain rfl := Option.some.inj (hs.symm.trans hs')
  rw [PtrSet.empty_iff, List.toFinset_eq_empty_iff]

theorem Valid.empty (self : Nat) : Valid (⟨self, []⟩ : Factory α) := ⟨by simp, by simp, by simp, by simp⟩

theorem Valid.holds_node (h : F.Valid) {s : PtrSet α} {i : Nat} (hi : F.Set[i]? = some s) :
    F.Holds (.node i) s.Data.toFinset :=
  ⟨s, hi, h.sorted s (List.mem_of_getElem? hi), rfl⟩

theorem Valid.eq_iff (h : F.Valid) (ht : F.Holds p t) (hu : F.Holds q u) : p = q ↔ t = u := by
  constructor
  · rintro rfl
    exact ht.unique hu
  · rintro rfl
    obtain ⟨s, hs, hsorted, rfl⟩ := ht
    obtain ⟨s', hs', hsorted', heq⟩ := hu
    have hdata : s'.Data = s.Data := SortedLT.toFinset_inj hsorted' hsorted heq
    cases p with
    | emptyPtrSet =>
        cases q with
        | emptyPtrSet => rfl
        | node j =>
            obtain rfl := Option.some.inj hs
            exact absurd hdata (h.data_ne_nil s' (mem_of_load hs'))
    | node i =>
        cases q with
        | emptyPtrSet =>
            obtain rfl := Option.some.inj hs'
            exact absurd hdata.symm (h.data_ne_nil s (mem_of_load hs))
        | node j =>
            have hi : (F.Set.map PtrSet.Data)[i]? = some s.Data := by
              rw [List.getElem?_map, show F.Set[i]? = _ from hs]
              rfl
            have hj : (F.Set.map PtrSet.Data)[j]? = some s.Data := by
              rw [List.getElem?_map, show F.Set[j]? = _ from hs', ← hdata]
              rfl
            obtain ⟨hlt, -⟩ := List.getElem?_eq_some_iff.1 hi
            rw [(List.getElem?_inj hlt h.nodup).1 (hi.trans hj.symm)]

theorem Valid.findNodeOrInsertPos_eq (h : F.Valid) (hp : F.findNodeOrInsertPos l = some p) :
    F.Holds p l.toFinset := by
  unfold findNodeOrInsertPos at hp
  obtain ⟨i, hi, rfl⟩ := Option.map_eq_some_iff.1 hp
  obtain ⟨hlt, hprofile, -⟩ := List.findIdx?_eq_some_iff_getElem.1 hi
  have hdata : F.Set[i].Data = l := of_decide_eq_true hprofile
  rw [← hdata]
  exact h.holds_node (List.getElem?_eq_getElem hlt)

theorem Valid.findNodeOrInsertPos_eq_none_iff (h : F.Valid) (hl : l.SortedLT) (hne : l ≠ []) :
    F.findNodeOrInsertPos l = none ↔ ¬ F.Built l.toFinset := by
  unfold findNodeOrInsertPos
  rw [Option.map_eq_none_iff, List.findIdx?_eq_none_iff]
  simp only [decide_eq_false_iff_not]
  constructor
  · intro hnone hbuilt
    obtain ⟨q, s, hs, hsorted, heq⟩ := hbuilt
    have hdata : s.Data = l := SortedLT.toFinset_inj hsorted hl heq
    cases q with
    | emptyPtrSet =>
        obtain rfl := Option.some.inj hs
        exact hne hdata.symm
    | node i => exact hnone s (mem_of_load hs) hdata
  · intro hbuilt s hs hdata
    obtain ⟨i, hi⟩ := List.getElem?_of_mem hs
    have hholds := h.holds_node hi
    rw [show s.Data = l from hdata] at hholds
    exact hbuilt ⟨_, hholds⟩

/-! ## What the operations give -/

theorem Valid.interns_self (h : F.Valid) (hp : F.Holds p t) : F.Interns t F p where
  valid := h
  keeps := fun _ _ hq => hq
  holds := hp
  built := fun _ hu => .inl hu

theorem Valid.interns_insertNode (h : F.Valid) (hl : l.SortedLT) (hne : l ≠ []) (hnew : ¬ F.Built l.toFinset) :
    F.Interns l.toFinset { F with Set := F.Set ++ [⟨some F.self, l⟩] } (.node F.Set.length) := by
  have hkeeps : ∀ q u, F.Holds q u → Holds { F with Set := F.Set ++ [⟨some F.self, l⟩] } q u := by
    intro q u hq
    obtain ⟨s, hs, hsorted, hu⟩ := hq
    refine ⟨s, ?_, hsorted, hu⟩
    cases q with
    | emptyPtrSet => exact hs
    | node i =>
        obtain ⟨hlt, -⟩ := List.getElem?_eq_some_iff.1 hs
        exact (List.getElem?_append_left hlt).trans hs
  have hholds : Holds { F with Set := F.Set ++ [⟨some F.self, l⟩] } (.node F.Set.length) l.toFinset :=
    ⟨⟨some F.self, l⟩, by simp [load], hl, rfl⟩
  refine ⟨⟨?_, ?_, ?_, ?_⟩, hkeeps, hholds, ?_⟩
  · simp only [List.forall_mem_append, List.forall_mem_singleton]
    exact ⟨h.sorted, hl⟩
  · simp only [List.forall_mem_append, List.forall_mem_singleton]
    exact ⟨h.data_ne_nil, hne⟩
  · simp only [List.forall_mem_append, List.forall_mem_singleton]
    exact ⟨h.parentFactory, trivial⟩
  · simp only [List.map_append, List.map_cons, List.map_nil]
    rw [List.nodup_append]
    refine ⟨h.nodup, List.nodup_singleton l, ?_⟩
    intro d hd d' hd' heq
    obtain ⟨s, hs, rfl⟩ := List.mem_map.1 hd
    obtain rfl := List.mem_singleton.1 hd'
    obtain ⟨i, hi⟩ := List.getElem?_of_mem hs
    apply hnew
    rw [← heq]
    exact ⟨_, h.holds_node hi⟩
  · intro u hu
    obtain ⟨q, hq⟩ := hu
    obtain ⟨s, hs, hsorted, rfl⟩ := hq
    cases q with
    | emptyPtrSet => exact .inl ⟨.emptyPtrSet, s, hs, hsorted, rfl⟩
    | node i =>
        rcases List.mem_append.1 (mem_of_load hs) with hmem | hmem
        · obtain ⟨j, hj⟩ := List.getElem?_of_mem hmem
          exact .inl ⟨_, h.holds_node hj⟩
        · rw [List.mem_singleton.1 hmem]
          exact .inr rfl

omit [LinearOrder α] in
theorem insertNode_of_le {memSize numElts : Nat} (hmem : sizeofPtrSet + sizeofPtrTy * l.length ≤ memSize)
    (hnum : numElts = l.length) :
    F.insertNode memSize numElts l =
      some ({ F with Set := F.Set ++ [⟨some F.self, l⟩] }, .node F.Set.length) := by
  rw [insertNode, if_pos hmem, hnum, List.take_length]

omit [LinearOrder α] in
theorem foldl_profile (l acc : List α) : l.foldl (fun ID Ptr => ID ++ [Ptr]) acc = acc ++ l := by
  induction l generalizing acc with
  | nil => simp
  | cons a l ih => rw [List.foldl_cons, ih, List.append_assoc, List.singleton_append]

theorem Valid.get_spec (h : F.Valid) (hl : l.SortedLT) :
    ∃ F' p, F.get l = some (F', p) ∧ F.Interns l.toFinset F' p := by
  unfold get
  by_cases hnil : l = []
  · subst hnil
    exact ⟨F, .emptyPtrSet, rfl, h.interns_self F.holds_emptyPtrSet⟩
  · rw [if_neg (by simpa using hnil), if_neg (by simpa using hl)]
    simp only [foldl_profile, List.nil_append]
    cases hfind : F.findNodeOrInsertPos l with
    | some p => exact ⟨F, p, rfl, h.interns_self (h.findNodeOrInsertPos_eq hfind)⟩
    | none =>
        have hnew := (h.findNodeOrInsertPos_eq_none_iff hl hnil).1 hfind
        exact ⟨_, _, insertNode_of_le le_rfl rfl, h.interns_insertNode hl hnil hnew⟩

theorem setUnionForEach_profile (l k : List α) :
    setUnionForEach (fun (s : List α × Nat) Ptr => (s.1 ++ [Ptr], (s.2 + 1) % 2 ^ 32)) l k ([], 0) =
      (setUnion l k, (setUnion l k).length % 2 ^ 32) := by
  have hfold : ∀ (m acc : List α) (n : Nat),
      m.foldl (fun (s : List α × Nat) Ptr => (s.1 ++ [Ptr], (s.2 + 1) % 2 ^ 32)) (acc, n % 2 ^ 32) =
        (acc ++ m, (n + m.length) % 2 ^ 32) := by
    intro m
    induction m with
    | nil => simp
    | cons a m ih =>
        intro acc n
        rw [List.foldl_cons, Nat.mod_add_mod, ih, List.append_assoc, List.singleton_append, List.length_cons,
          Nat.add_assoc, Nat.add_comm 1]
  rw [setUnionForEach_eq]
  simpa using hfold (setUnion l k) [] 0

/-- The unions that fit: the ones that are there, and the ones of which node and elements take less than `2 ^ 32`
bytes. -/
def Fits (F : Factory α) (t : Finset α) : Prop := F.Built t ∨ t.card < 2 ^ 29 - 4

/-- What an operation gives that works when `fits`, and else fails. -/
def Gives (F : Factory α) (fits : Prop) (t : Finset α) (r : Option (Factory α × SetPtr)) : Prop :=
  (fits ∧ ∃ F' p, r = some (F', p) ∧ F.Interns t F' p) ∨ (¬ fits ∧ r = none)

theorem Gives.of_iff {fits fits' : Prop} {r : Option (Factory α × SetPtr)} (h : F.Gives fits t r)
    (hfits : fits' ↔ fits) : F.Gives fits' t r := by
  unfold Gives
  rwa [hfits]

theorem Valid.mergeData_gives (h : F.Valid) (hl : l.SortedLT) (hk : k.SortedLT) (hne : l ≠ []) :
    F.Gives (F.Fits (l.toFinset ∪ k.toFinset)) (l.toFinset ∪ k.toFinset) (F.mergeData l k) := by
  have hunion := isUnion_setUnion hl hk
  have hcard := hunion.length_eq
  have hnil : setUnion l k ≠ [] := by
    intro hnil
    obtain ⟨a, ha⟩ := List.exists_mem_of_ne_nil l hne
    have hmem := (hunion.mem_iff a).2 (.inl ha)
    rw [hnil] at hmem
    cases hmem
  rw [← hunion.toFinset_eq] at hcard ⊢
  unfold mergeData
  rw [setUnionForEach_profile]
  simp only
  cases hfind : F.findNodeOrInsertPos (setUnion l k) with
  | some p =>
      have hholds := h.findNodeOrInsertPos_eq hfind
      exact .inl ⟨.inl ⟨p, hholds⟩, F, p, rfl, h.interns_self hholds⟩
  | none =>
      have hnew := (h.findNodeOrInsertPos_eq_none_iff hunion.sorted hnil).1 hfind
      by_cases hsize : (setUnion l k).toFinset.card < 2 ^ 29 - 4
      · refine .inl ⟨.inr hsize, _, _, insertNode_of_le ?_ ?_, h.interns_insertNode hunion.sorted hnil hnew⟩
        · simp only [sizeofPtrSet, sizeofPtrTy]
          omega
        · omega
      · refine .inr ⟨?_, ?_⟩
        · intro hfits
          rcases hfits with hbuilt | hlt
          · exact hnew hbuilt
          · exact hsize hlt
        · -- the bytes that are asked for are less than `2 ^ 32`, the ones that are written are not
          rw [insertNode, if_neg]
          simp only [sizeofPtrSet, sizeofPtrTy]
          omega

/-- The quick check reads behind the array: it is a prefix of the set, and the set is longer by a multiple of
`2 ^ 32`. -/
def Overruns (t : Finset α) (k : List α) : Prop := k <+: t.sort ∧ t.card ≠ k.length ∧ t.card % 2 ^ 32 = k.length

def MergeArrayFits (F : Factory α) (t : Finset α) (k : List α) : Prop :=
  t = ∅ ∨ k = [] ∨ (¬ Overruns t k ∧ F.Fits (t ∪ k.toFinset))

def MergeSetFits (F : Factory α) (t u : Finset α) : Prop := t = ∅ ∨ u = ∅ ∨ F.Fits (t ∪ u)

theorem Valid.mergeArray_gives (h : F.Valid) (hp : F.Holds p t) (hk : k.SortedLT) :
    F.Gives (F.MergeArrayFits t k) (t ∪ k.toFinset) (F.mergeArray p k) := by
  obtain ⟨s, hs, hsorted, rfl⟩ := hp
  have hholds : F.Holds p s.Data.toFinset := ⟨s, hs, hsorted, rfl⟩
  have hsort : s.Data.toFinset.sort = s.Data := (List.toFinset_sort (· ≤ ·) hsorted.nodup).2 hsorted.sortedLE.pairwise
  have hcard : s.Data.toFinset.card = s.Data.length := List.toFinset_card_of_nodup hsorted.nodup
  have hover : Overruns s.Data.toFinset k ↔ s.size = k.length ∧ equal s.Data k = none := by
    rw [Overruns, hsort, hcard, equal_eq_none_iff, PtrSet.size]
    tauto
  unfold mergeArray
  rw [hs, Option.bind_eq_bind, Option.bind_some]
  by_cases hempty : s.Data.toFinset = ∅
  · rw [if_pos ((hholds.empty_iff hs).2 hempty), hempty, Finset.empty_union]
    exact .inl ⟨.inl rfl, h.get_spec hk⟩
  have hne : s.Data ≠ [] := fun hnil => hempty (List.toFinset_eq_empty_iff _ |>.2 hnil)
  rw [if_neg (by rwa [hholds.empty_iff hs])]
  by_cases hnil : k = []
  · subst hnil
    rw [List.isEmpty_nil, if_pos rfl, List.toFinset_nil, Finset.union_empty]
    exact .inl ⟨.inr (.inl rfl), F, p, rfl, h.interns_self hholds⟩
  rw [if_neg (by simpa using hnil), if_neg (by simpa using hk)]
  have hfits : F.MergeArrayFits s.Data.toFinset k ↔
      ¬ Overruns s.Data.toFinset k ∧ F.Fits (s.Data.toFinset ∪ k.toFinset) := by
    rw [MergeArrayFits, or_iff_right hempty, or_iff_right hnil]
  have hdata := h.mergeData_gives hsorted hk hne
  by_cases hsize : s.size = k.length
  · rw [if_pos hsize]
    cases heq : equal s.Data k with
    | none =>
        refine .inr ⟨?_, rfl⟩
        intro hf
        exact (hfits.1 hf).1 (hover.2 ⟨hsize, heq⟩)
    | some b =>
        have hnot : ¬ Overruns s.Data.toFinset k := by simp [hover, heq]
        cases b with
        | false => exact hdata.of_iff (hfits.trans (and_iff_right hnot))
        | true =>
            -- the set is a prefix of the array, which is not longer
            have hprefix := equal_eq_true heq
            have hle : k.length ≤ s.Data.length := by
              rw [← hsize]
              exact Nat.mod_le _ _
            have hunion : s.Data.toFinset ∪ k.toFinset = s.Data.toFinset := by
              rw [← hprefix.eq_of_length_le hle, Finset.union_self]
            rw [hunion] at hfits ⊢
            exact .inl ⟨hfits.2 ⟨hnot, .inl ⟨p, hholds⟩⟩, F, p, rfl, h.interns_self hholds⟩
  · rw [if_neg hsize]
    have hnot : ¬ Overruns s.Data.toFinset k := by simp [hover, hsize]
    exact hdata.of_iff (hfits.trans (and_iff_right hnot))

theorem Valid.mergeSet_gives (h : F.Valid) (hp : F.Holds p t) (hq : F.Holds q u) :
    F.Gives (F.MergeSetFits t u) (t ∪ u) (F.mergeSet p q) := by
  obtain ⟨s, hs, hsorted, rfl⟩ := hp
  obtain ⟨o, ho, hosorted, rfl⟩ := hq
  have hp : F.Holds p s.Data.toFinset := ⟨s, hs, hsorted, rfl⟩
  have hq : F.Holds q o.Data.toFinset := ⟨o, ho, hosorted, rfl⟩
  unfold mergeSet
  rw [hs, ho, Option.bind_eq_bind, Option.bind_some, Option.bind_some]
  by_cases hempty : s.Data.toFinset = ∅
  · rw [if_pos ((hp.empty_iff hs).2 hempty), hempty, Finset.empty_union]
    exact .inl ⟨.inl rfl, F, q, rfl, h.interns_self hq⟩
  have hne : s.Data ≠ [] := fun hnil => hempty (List.toFinset_eq_empty_iff _ |>.2 hnil)
  rw [if_neg (by rwa [hp.empty_iff hs])]
  by_cases hoempty : o.Data.toFinset = ∅
  · rw [if_pos ((hq.empty_iff ho).2 hoempty), hoempty, Finset.union_empty]
    exact .inl ⟨.inr (.inl rfl), F, p, rfl, h.interns_self hp⟩
  rw [if_neg (by rwa [hq.empty_iff ho])]
  have hfits : F.MergeSetFits s.Data.toFinset o.Data.toFinset ↔ F.Fits (s.Data.toFinset ∪ o.Data.toFinset) := by
    rw [MergeSetFits, or_iff_right hempty, or_iff_right hoempty]
  by_cases heq : p = q
  · subst heq
    have hunion : s.Data.toFinset ∪ o.Data.toFinset = s.Data.toFinset := by rw [hq.unique hp, Finset.union_self]
    rw [if_pos rfl]
    rw [hunion] at hfits ⊢
    exact .inl ⟨hfits.2 (.inl ⟨p, hp⟩), F, p, rfl, h.interns_self hp⟩
  · rw [if_neg heq]
    exact (h.mergeData_gives hsorted hosorted hne).of_iff hfits

theorem Valid.parentFactory_of_load (h : F.Valid) {s : PtrSet α} (hs : F.load p = some s) (hne : ¬ s.empty = true) :
    s.ParentFactory = some F.self := by
  cases p with
  | emptyPtrSet =>
      obtain rfl := Option.some.inj hs
      exact absurd rfl hne
  | node i => exact h.parentFactory s (mem_of_load hs)

theorem Valid.merge_eq (h : F.Valid) (p q : SetPtr) : F.merge p q = F.mergeSet p q := by
  unfold merge
  cases hs : F.load p with
  | none => simp [mergeSet, hs]
  | some s =>
      cases ho : F.load q with
      | none => simp [mergeSet, hs, ho]
      | some o =>
          simp only [Option.bind_eq_bind, Option.bind_some]
          by_cases hempty : s.empty = true
          · simp [mergeSet, hs, ho, hempty]
          · by_cases hoempty : o.empty = true
            · simp [mergeSet, hs, ho, hempty, hoempty]
            · rw [if_neg hempty, if_neg hoempty, if_neg]
              rw [h.parentFactory_of_load hs hempty, h.parentFactory_of_load ho hoempty, ne_eq, not_not]

end Factory

end SwiftKStdlib.ImmutablePointerSet
