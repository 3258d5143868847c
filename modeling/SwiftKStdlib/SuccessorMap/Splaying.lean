import SwiftKStdlib.SuccessorMap.SuccessorMap

/-!
# What `splay` does

* `Separated nodes` : the ranges are nonempty, in order, and neighbours leave a gap between them;
* `Splayed key nodes found root` : the tree `root` holds `nodes` in their order, and is arranged
  around `key` as `splay` says;
* `splay_splayed`, `splay_mapped` : the two ways `splay` can end.

The loop goes down the tree two levels at a time; what it has passed is in the lower tree if its range
ends before the key, and in the upper tree if its range begins after it.
-/

namespace SwiftKStdlib.SuccessorMap

open BinaryTree

variable {K V : Type} [LinearOrder K]

/-- The ranges are nonempty, in order, and neighbours leave a gap between them. -/
structure Separated (nodes : List (Node K V)) : Prop where
  nonempty : ∀ n ∈ nodes, n.beginKey < n.endKey
  apart : nodes.Pairwise fun a b => a.endKey < b.beginKey

/-- The node's range has `key` in it. -/
def Node.Holds (n : Node K V) (key : K) : Prop := n.beginKey ≤ key ∧ key < n.endKey

instance (n : Node K V) (key : K) : Decidable (n.Holds key) := inferInstanceAs (Decidable (_ ∧ _))

/-- Some range has `key` in it. -/
def Mapped (nodes : List (Node K V)) (key : K) : Prop := ∃ n ∈ nodes, n.Holds key

/-- The nodes, arranged around `key`: with an upper bound found, the root is the first node above
`key`, and the root of its left subtree has no right child. -/
structure Splayed (key : K) (nodes : List (Node K V)) (found : Bool) (root : Tree K V) : Prop where
  inorder : root.inorder = nodes
  upper : found = true → ∃ n l r, root = node n l r ∧ key < n.beginKey ∧ l.right = nil ∧
    ∀ m ∈ l.inorder, m.endKey ≤ key
  lower : found = false → root.right = nil ∧ ∀ m ∈ root.inorder, m.endKey ≤ key

/-! ## Nodes in order -/

section Order

variable {L U : List (Node K V)} {n : Node K V} {key : K}

theorem Separated.append (h : Separated (L ++ U)) : Separated L ∧ Separated U := by
  have happart := List.pairwise_append.1 h.apart
  refine ⟨⟨fun n hn => ?_, happart.1⟩, ⟨fun n hn => ?_, happart.2.1⟩⟩
  · exact h.nonempty n (List.mem_append_left U hn)
  · exact h.nonempty n (List.mem_append_right L hn)

theorem Separated.lt (h : Separated (L ++ U)) {a b : Node K V} (ha : a ∈ L) (hb : b ∈ U) :
    a.endKey < b.beginKey :=
  (List.pairwise_append.1 h.apart).2.2 a ha b hb

theorem Separated.above (h : Separated (L ++ n :: U)) (hn : key < n.beginKey) :
    ∀ m ∈ U, key < m.beginKey := fun m hm => by
  have hlt : n.endKey < m.beginKey := (List.pairwise_cons.1 h.append.2.apart).1 m hm
  have hne := h.nonempty n (by simp)
  exact hn.trans (hne.trans hlt)

theorem Separated.below (h : Separated (L ++ n :: U)) (hn : n.endKey ≤ key) :
    ∀ m ∈ L, m.endKey ≤ key := fun m hm => by
  have hlt : m.endKey < n.beginKey := h.lt hm (by simp)
  have hne := h.nonempty n (by simp)
  exact (hlt.trans hne).le.trans hn

theorem Separated.cons (h : Separated (L ++ n :: U)) : Separated U :=
  ⟨fun m hm => h.nonempty m (by simp [hm]), (List.pairwise_cons.1 h.append.2.apart).2⟩

end Order

/-! ## The steps -/

section Steps

variable {key : K} {n : Node K V} {l r lowerTree upperTree : Tree K V} {found : Bool}

theorem ok_bind {α β : Type} (a : α) (f : α → Except Assertion β) : (Except.ok a >>= f) = f a := rfl

theorem check_bind {α : Type} {condition : Bool} (h : condition = true)
    (f : PUnit → Except Assertion α) : (check condition >>= f) = f ⟨⟩ := by
  rw [check, if_pos h]
  rfl

theorem isNil_of_eq {t : Tree K V} (h : t = nil) : t.isNil = true := isNil_iff.2 h

theorem rotateAsLowerRoot_open (h : lowerTree.right = nil) :
    rotateAsLowerRoot lowerTree n l = .ok (node n (lowerTree.withRight l) nil) := by
  rw [rotateAsLowerRoot, check_bind (isNil_of_eq h)]
  rfl

theorem inorder_rotated (h : lowerTree.right = nil) :
    (node n (lowerTree.withRight l) nil).inorder = lowerTree.inorder ++ l.inorder ++ [n] := by
  rw [inorder_node, inorder_withRight h, inorder_nil]

theorem rotated_below (hopen : lowerTree.right = nil) (hn : n.endKey ≤ key)
    (hlower : ∀ m ∈ lowerTree.inorder, m.endKey ≤ key) (hl : ∀ m ∈ l.inorder, m.endKey ≤ key) :
    ∀ m ∈ (node n (lowerTree.withRight l) nil).inorder, m.endKey ≤ key := fun m hm => by
  rw [inorder_rotated hopen] at hm
  simp only [List.mem_append, List.mem_singleton] at hm
  rcases hm with (hm | hm) | rfl
  · exact hlower m hm
  · exact hl m hm
  · exact hn

theorem finishWithUpperBound_splayed (lowerTree r upperTree : Tree K V) (hopen : lowerTree.right = nil)
    (hn : key < n.beginKey)
    (hlower : ∀ m ∈ lowerTree.inorder, m.endKey ≤ key) :
    ∃ root, finishWithUpperBound n nil r lowerTree upperTree = .ok (true, root) ∧
      Splayed key (lowerTree.inorder ++ n :: r.inorder ++ upperTree.inorder) true root := by
  refine ⟨node n lowerTree (upperTree.withLeftmost r), ?_, ?_, fun _ => ?_, by simp⟩
  · rw [finishWithUpperBound, check_bind isNil_nil, reassemble, check_bind (isNil_of_eq hopen)]
    dsimp only
    rw [check_bind, withRight_open hopen]
    · rfl
    · rw [left_node, withRight_open hopen, isNil_of_eq hopen, Bool.or_true]
  · simp
  · exact ⟨n, lowerTree, _, rfl, hn, hopen, hlower⟩

theorem finishWithoutUpperBound_splayed (hopen : lowerTree.right = nil) (hn : n.endKey ≤ key)
    (hlower : ∀ m ∈ lowerTree.inorder, m.endKey ≤ key) (hl : ∀ m ∈ l.inorder, m.endKey ≤ key)
    (hupper : ∀ m ∈ upperTree.inorder, key < m.beginKey) :
    ∃ found root, finishWithoutUpperBound n l nil lowerTree upperTree = .ok (found, root) ∧
      Splayed key (lowerTree.inorder ++ (l.inorder ++ [n]) ++ upperTree.inorder) found root := by
  cases hpop : upperTree.popLeftmost with
  | none =>
      have hnil : upperTree = nil := popLeftmost_eq_none hpop
      subst hnil
      refine ⟨false, node n (lowerTree.withRight l) nil, ?_, ?_, by simp, fun _ => ⟨rfl, ?_⟩⟩
      · rw [finishWithoutUpperBound, check_bind isNil_nil, hpop]
        dsimp only
        rw [reassemble, check_bind (isNil_of_eq hopen)]
        dsimp only
        rw [check_bind (by simp)]
        rfl
      · rw [inorder_rotated hopen]
        simp
      · exact rotated_below hopen hn hlower hl
  | some popped =>
      obtain ⟨newRoot, rest⟩ := popped
      have hinorder := inorder_popLeftmost hpop
      have hroot : key < newRoot.beginKey := hupper newRoot (by simp [hinorder])
      have hlower' := rotated_below hopen hn hlower hl
      obtain ⟨root, hrun, hsplayed⟩ := finishWithUpperBound_splayed
        (node n (lowerTree.withRight l) nil) nil rest (right_node _ _ _) hroot hlower'
      refine ⟨true, root, ?_, ?_⟩
      · rw [finishWithoutUpperBound, check_bind isNil_nil, hpop]
        dsimp only
        rw [rotateAsLowerRoot_open hopen]
        exact hrun
      · rw [inorder_rotated hopen] at hsplayed
        rw [hinorder]
        simpa using hsplayed

end Steps

/-! ## The loop -/

section Mapped

variable {A B nodes : List (Node K V)} {n : Node K V} {key : K}

@[simp] theorem not_mapped_nil : ¬ Mapped ([] : List (Node K V)) key := fun ⟨_, hm, _⟩ => by
  cases hm

theorem mapped_append : Mapped (A ++ B) key ↔ Mapped A key ∨ Mapped B key := by
  simp only [Mapped, List.mem_append, or_and_right, exists_or]

theorem mapped_left (h : Separated (A ++ n :: B)) (hn : key < n.beginKey) :
    Mapped (A ++ n :: B) key ↔ Mapped A key := by
  rw [mapped_append]
  refine ⟨fun hm => hm.resolve_right ?_, Or.inl⟩
  intro ⟨m, hm, hholds⟩
  rcases List.mem_cons.1 hm with rfl | hm
  · exact absurd hholds.1 hn.not_ge
  · exact absurd hholds.1 (h.above hn m hm).not_ge

theorem mapped_right (h : Separated (A ++ n :: B)) (hn : n.endKey ≤ key) :
    Mapped (A ++ n :: B) key ↔ Mapped B key := by
  rw [mapped_append]
  refine ⟨fun hm => ?_, fun ⟨m, hm, hholds⟩ => .inr ⟨m, List.mem_cons_of_mem n hm, hholds⟩⟩
  rcases hm with ⟨m, hm, hholds⟩ | ⟨m, hm, hholds⟩
  · exact absurd hholds.2 (h.below hn m hm).not_gt
  · rcases List.mem_cons.1 hm with rfl | hm
    · exact absurd hholds.2 hn.not_gt
    · exact ⟨m, hm, hholds⟩

theorem mapped_of_holds (hn : n ∈ nodes) (hbegin : n.beginKey ≤ key) (hend : key < n.endKey) :
    Mapped nodes key := ⟨n, hn, hbegin, hend⟩

end Mapped

/-- How `splay` ends when the nodes still to be searched are `searched`: at the assertion about a
mapped key, or with all the `nodes` arranged around the key. -/
inductive SplayEnds (key : K) (searched nodes : List (Node K V)) :
    Except Assertion (Bool × Tree K V) → Prop
  | mapped (h : Mapped searched key) : SplayEnds key searched nodes (.error .keyAlreadyMapped)
  | splayed {found : Bool} {root : Tree K V} (h : ¬ Mapped searched key)
      (hs : Splayed key nodes found root) : SplayEnds key searched nodes (.ok (found, root))

section Loop

variable {key : K} {searched searched' nodes nodes' : List (Node K V)} {n : Node K V}
  {l r lowerTree upperTree : Tree K V} {result : Except Assertion (Bool × Tree K V)}

theorem SplayEnds.descend (h : SplayEnds key searched' nodes' result)
    (hmapped : Mapped searched key ↔ Mapped searched' key) (hnodes : nodes' = nodes) :
    SplayEnds key searched nodes result := by
  subst hnodes
  cases h with
  | mapped h => exact .mapped (hmapped.2 h)
  | splayed h hs => exact .splayed (fun hm => h (hmapped.1 hm)) hs

theorem finishWithUpperBound_ends (hopen : lowerTree.right = nil) (hn : key < n.beginKey)
    (hlower : ∀ m ∈ lowerTree.inorder, m.endKey ≤ key) (hmapped : ¬ Mapped searched key)
    (hnodes : nodes = lowerTree.inorder ++ n :: r.inorder ++ upperTree.inorder) :
    SplayEnds key searched nodes (finishWithUpperBound n nil r lowerTree upperTree) := by
  obtain ⟨root, hrun, hs⟩ := finishWithUpperBound_splayed lowerTree r upperTree hopen hn hlower
  rw [hrun]
  exact .splayed hmapped (hnodes ▸ hs)

theorem finishWithoutUpperBound_ends (hopen : lowerTree.right = nil) (hn : n.endKey ≤ key)
    (hlower : ∀ m ∈ lowerTree.inorder, m.endKey ≤ key) (hl : ∀ m ∈ l.inorder, m.endKey ≤ key)
    (hupper : ∀ m ∈ upperTree.inorder, key < m.beginKey) (hmapped : ¬ Mapped searched key)
    (hnodes : nodes = lowerTree.inorder ++ (l.inorder ++ [n]) ++ upperTree.inorder) :
    SplayEnds key searched nodes (finishWithoutUpperBound n l nil lowerTree upperTree) := by
  obtain ⟨found, root, hrun, hs⟩ := finishWithoutUpperBound_splayed hopen hn hlower hl hupper
  rw [hrun]
  exact .splayed hmapped (hnodes ▸ hs)

theorem checkUnmapped_bind {α : Type} (h : n.endKey ≤ key) (f : PUnit → Except Assertion α) :
    (checkUnmapped key n >>= f) = f ⟨⟩ := by
  rw [checkUnmapped, if_neg h.not_gt]
  rfl

theorem checkUnmapped_ends (hn : n ∈ searched) (hbegin : ¬ key < n.beginKey) (hend : key < n.endKey)
    (f : PUnit → Except Assertion (Bool × Tree K V)) :
    SplayEnds key searched nodes (checkUnmapped key n >>= f) := by
  rw [checkUnmapped, if_pos hend]
  exact .mapped (mapped_of_holds hn (le_of_not_gt hbegin) hend)

theorem rotateAsLowerRoot_bind {α : Type} (h : lowerTree.right = nil)
    (f : Tree K V → Except Assertion α) :
    (rotateAsLowerRoot lowerTree n l >>= f) = f (node n (lowerTree.withRight l) nil) := by
  rw [rotateAsLowerRoot_open h]
  rfl

theorem placed_above (hn : key < n.beginKey) (hupper : ∀ m ∈ upperTree.inorder, key < m.beginKey)
    (hr : ∀ m ∈ r.inorder, key < m.beginKey) :
    ∀ m ∈ (placeInUpperLeftmost upperTree n r).inorder, key < m.beginKey := fun m hm => by
  simp only [placeInUpperLeftmost, inorder_withLeftmost, inorder_node, inorder_nil, List.nil_append,
    List.cons_append, List.mem_cons, List.mem_append] at hm
  rcases hm with rfl | hm | hm
  · exact hn
  · exact hr m hm
  · exact hupper m hm

/-- What the loop of `splay` does with fewer nodes to search. -/
def EndsBelow (key : K) (size : Nat) : Prop :=
  ∀ cur : Tree K V, cur.numNodes < size → ∀ lowerTree upperTree : Tree K V, cur ≠ nil → Separated cur.inorder →
    lowerTree.right = nil → (∀ m ∈ lowerTree.inorder, m.endKey ≤ key) →
    (∀ m ∈ upperTree.inorder, key < m.beginKey) →
    SplayEnds key cur.inorder (lowerTree.inorder ++ cur.inorder ++ upperTree.inorder)
      (splayLoop key cur lowerTree upperTree)

section Loop

variable {c : Node K V} {curLeft curRight : Tree K V}

theorem splayLoop_left (ih : EndsBelow (V := V) key (node c curLeft curRight).numNodes)
    (hsep : Separated (curLeft.inorder ++ c :: curRight.inorder)) (hopen : lowerTree.right = nil)
    (hlower : ∀ m ∈ lowerTree.inorder, m.endKey ≤ key) (hupper : ∀ m ∈ upperTree.inorder, key < m.beginKey)
    (hc : key < c.beginKey) :
    SplayEnds key (node c curLeft curRight).inorder
      (lowerTree.inorder ++ (node c curLeft curRight).inorder ++ upperTree.inorder)
      (splayLoop key (node c curLeft curRight) lowerTree upperTree) := by
  rw [splayLoop.eq_def]
  dsimp only
  rw [check_bind (isNil_of_eq hopen)]
  rw [if_pos hc]
  have hright : ∀ m ∈ curRight.inorder, key < m.beginKey := hsep.above hc
  have hmapped : Mapped (node c curLeft curRight).inorder key ↔ Mapped curLeft.inorder key :=
    mapped_left hsep hc
  rcases curLeft with _ | ⟨left, leftLeft, leftRight⟩
  · refine finishWithUpperBound_ends hopen hc hlower ?_ (by simp)
    rw [hmapped]
    exact not_mapped_nil
  have hsepLeft : Separated (leftLeft.inorder ++ left :: leftRight.inorder) := hsep.append.1
  dsimp only
  by_cases hl : key < left.beginKey
  · rw [if_pos hl]
    have hmapped' := hmapped.trans (mapped_left hsepLeft hl)
    have habove := hsepLeft.above hl
    by_cases hnil : leftLeft = nil
    · subst hnil
      rw [if_pos isNil_nil]
      refine finishWithUpperBound_ends hopen hl hlower ?_ (by simp [placeInUpperLeftmost])
      rw [hmapped']
      exact not_mapped_nil
    · rw [if_neg (by rwa [isNil_iff])]
      have hplaced : ∀ m ∈ (node c leftRight curRight).inorder, key < m.beginKey := by
        intro m hm
        rw [inorder_node, List.mem_append, List.mem_cons] at hm
        rcases hm with hm | rfl | hm
        · exact habove m hm
        · exact hc
        · exact hright m hm
      have hrec := ih leftLeft (by simp; omega) lowerTree
        (placeInUpperLeftmost upperTree left (node c leftRight curRight)) hnil hsepLeft.append.1
        hopen hlower (placed_above hl hupper hplaced)
      exact hrec.descend hmapped' (by simp [placeInUpperLeftmost])
  · rw [if_neg hl]
    by_cases hend : key < left.endKey
    · exact checkUnmapped_ends (by simp) hl hend _
    rw [checkUnmapped_bind (le_of_not_gt hend), rotateAsLowerRoot_bind hopen]
    have hmapped' := hmapped.trans (mapped_right hsepLeft (le_of_not_gt hend))
    have hbelow := hsepLeft.below (le_of_not_gt hend)
    have hlower' := rotated_below hopen (le_of_not_gt hend) hlower hbelow
    by_cases hnil : leftRight = nil
    · subst hnil
      rw [if_pos isNil_nil]
      refine finishWithUpperBound_ends (right_node _ _ _) hc hlower' ?_ (by simp [inorder_withRight hopen])
      rw [hmapped']
      exact not_mapped_nil
    · rw [if_neg (by rwa [isNil_iff])]
      have hrec := ih leftRight (by simp; omega) _
        (placeInUpperLeftmost upperTree c curRight) hnil hsepLeft.cons (right_node _ _ _) hlower'
        (placed_above hc hupper hright)
      exact hrec.descend hmapped' (by simp [placeInUpperLeftmost, inorder_withRight hopen])

theorem splayLoop_right (ih : EndsBelow (V := V) key (node c curLeft curRight).numNodes)
    (hsep : Separated (curLeft.inorder ++ c :: curRight.inorder)) (hopen : lowerTree.right = nil)
    (hlower : ∀ m ∈ lowerTree.inorder, m.endKey ≤ key) (hupper : ∀ m ∈ upperTree.inorder, key < m.beginKey)
    (hc : ¬ key < c.beginKey) :
    SplayEnds key (node c curLeft curRight).inorder
      (lowerTree.inorder ++ (node c curLeft curRight).inorder ++ upperTree.inorder)
      (splayLoop key (node c curLeft curRight) lowerTree upperTree) := by
  rw [splayLoop.eq_def]
  dsimp only
  rw [check_bind (isNil_of_eq hopen)]
  rw [if_neg hc]
  by_cases hend : key < c.endKey
  · exact checkUnmapped_ends (by simp) hc hend _
  rw [checkUnmapped_bind (le_of_not_gt hend)]
  have hmapped : Mapped (node c curLeft curRight).inorder key ↔ Mapped curRight.inorder key :=
    mapped_right hsep (le_of_not_gt hend)
  have hleft := hsep.below (le_of_not_gt hend)
  have hlower' := rotated_below hopen (le_of_not_gt hend) hlower hleft
  rcases curRight with _ | ⟨right, rightLeft, rightRight⟩
  · refine finishWithoutUpperBound_ends hopen (le_of_not_gt hend) hlower hleft hupper ?_ (by simp)
    rw [hmapped]
    exact not_mapped_nil
  have hsepRight : Separated (rightLeft.inorder ++ right :: rightRight.inorder) := hsep.cons
  dsimp only
  by_cases hr : key < right.beginKey
  · rw [if_pos hr, rotateAsLowerRoot_bind hopen]
    have hmapped' := hmapped.trans (mapped_left hsepRight hr)
    by_cases hnil : rightLeft = nil
    · subst hnil
      rw [if_pos isNil_nil]
      refine finishWithUpperBound_ends (right_node _ _ _) hr hlower' ?_ (by simp [inorder_withRight hopen])
      rw [hmapped']
      exact not_mapped_nil
    · rw [if_neg (by rwa [isNil_iff])]
      have hrec := ih rightLeft (by simp; omega) _
        (placeInUpperLeftmost upperTree right rightRight) hnil hsepRight.append.1 (right_node _ _ _)
        hlower' (placed_above hr hupper (hsepRight.above hr))
      exact hrec.descend hmapped' (by simp [placeInUpperLeftmost, inorder_withRight hopen])
  · rw [if_neg hr]
    by_cases hend' : key < right.endKey
    · exact checkUnmapped_ends (by simp) hr hend' _
    rw [checkUnmapped_bind (le_of_not_gt hend')]
    have hmapped' := hmapped.trans (mapped_right hsepRight (le_of_not_gt hend'))
    have hbelow := hsepRight.below (le_of_not_gt hend')
    by_cases hnil : rightRight = nil
    · subst hnil
      rw [if_pos isNil_nil, rotateAsLowerRoot_bind hopen]
      refine finishWithoutUpperBound_ends (right_node _ _ _) (le_of_not_gt hend') hlower' hbelow hupper
        ?_ (by simp [inorder_withRight hopen])
      rw [hmapped']
      exact not_mapped_nil
    · rw [if_neg (by rwa [isNil_iff]), rotateAsLowerRoot_bind hopen]
      have hpassed : ∀ m ∈ (node c curLeft rightLeft).inorder, m.endKey ≤ key := by
        intro m hm
        rw [inorder_node, List.mem_append, List.mem_cons] at hm
        rcases hm with hm | rfl | hm
        · exact hleft m hm
        · exact le_of_not_gt hend
        · exact hbelow m hm
      have hrec := ih rightRight (by simp; omega) _ upperTree hnil
        hsepRight.cons (right_node _ _ _)
        (rotated_below (n := right) hopen (le_of_not_gt hend') hlower hpassed) hupper
      exact hrec.descend hmapped' (by simp [inorder_withRight hopen])

end Loop

theorem splayLoop_ends (key : K) (cur lowerTree upperTree : Tree K V) (hcur : cur ≠ nil)
    (hsep : Separated cur.inorder) (hopen : lowerTree.right = nil)
    (hlower : ∀ m ∈ lowerTree.inorder, m.endKey ≤ key)
    (hupper : ∀ m ∈ upperTree.inorder, key < m.beginKey) :
    SplayEnds key cur.inorder (lowerTree.inorder ++ cur.inorder ++ upperTree.inorder)
      (splayLoop key cur lowerTree upperTree) := by
  induction hsize : cur.numNodes using Nat.strong_induction_on generalizing cur lowerTree upperTree with
  | _ size ih =>
      have hbelow : EndsBelow (V := V) key cur.numNodes :=
        fun cur' hlt lowerTree upperTree hcur hsep hopen hlower hupper => ih cur'.numNodes (hsize ▸ hlt) cur' lowerTree upperTree hcur hsep hopen hlower hupper rfl
      rcases cur with _ | ⟨c, curLeft, curRight⟩
      · exact absurd rfl hcur
      · rw [inorder_node] at hsep
        by_cases hc : key < c.beginKey
        · exact splayLoop_left hbelow hsep hopen hlower hupper hc
        · exact splayLoop_right hbelow hsep hopen hlower hupper hc

theorem splay_ends (key : K) (t : Tree K V) (hsep : Separated t.inorder) :
    SplayEnds key t.inorder t.inorder (splay key t) := by
  rw [splay]
  by_cases hnil : t = nil
  · subst hnil
    rw [if_pos isNil_nil]
    exact .splayed not_mapped_nil ⟨rfl, by simp, fun _ => ⟨rfl, by simp⟩⟩
  · rw [if_neg (by rwa [isNil_iff])]
    have h := splayLoop_ends key t nil nil hnil hsep rfl (by simp) (by simp)
    simpa using h

end Loop

end SwiftKStdlib.SuccessorMap
