import SwiftKStdlib.SuccessorMap.Splaying

/-!
# What the nodes know of the keys inserted

`Inserts key value nodes nodes'` says what an insertion makes of the nodes, by the branch of the source
that is taken: `append` to the lower bound, `merge` the two bounds, `prepend` to the upper bound, or
`create` a node between them. `insert_inserts` says that an insertion of an unmapped key does one
of these.

A history is the list of what has been inserted. `Represents history nodes` connects the two: every key
of a range has been inserted, and each node `u` answers for the gap below it, `Fills history nodes u p`:
the keys of the gap that have been inserted run from some `p` up to the node without a hole, and the
node's value is the one inserted for `p`. The keys of that run are in no range (a key that is
prepended to a node leaves its range as it was), but a key that has not been inserted is below all
of them.
-/

namespace SwiftKStdlib.SuccessorMap

open BinaryTree

variable {K V : Type} [LinearOrder K] [SuccessorMapTraits K]

/-- What `insert` makes of the nodes. -/
inductive Inserts (key : K) (value : V) : List (Node K V) → List (Node K V) → Prop
  | append (L U : List (Node K V)) (l : Node K V) (hl : l.endKey = key)
      (hU : ∀ u ∈ U, getSuccessor key < u.beginKey) :
      Inserts key value (L ++ l :: U) (L ++ { l with endKey := getSuccessor key } :: U)
  | merge (L U : List (Node K V)) (l u : Node K V) (hl : l.endKey = key)
      (hu : getSuccessor key = u.beginKey) :
      Inserts key value (L ++ l :: u :: U) (L ++ { l with endKey := u.endKey } :: U)
  | prepend (L U : List (Node K V)) (u : Node K V) (hu : getSuccessor key = u.beginKey)
      (hL : ∀ l ∈ L, l.endKey < key) :
      Inserts key value (L ++ u :: U) (L ++ { u with value := value } :: U)
  | create (L U : List (Node K V)) (hL : ∀ l ∈ L, l.endKey < key)
      (hU : ∀ u ∈ U, getSuccessor key < u.beginKey) :
      Inserts key value (L ++ U) (L ++ ⟨key, getSuccessor key, value⟩ :: U)

section

variable {key : K} {value : V} {n l u : Node K V} {L U : List (Node K V)}
  {lowerLeft upperLeft upperRight : Tree K V}

theorem Separated.all_above (h : Separated (L ++ u :: U)) {bound : K} (hu : bound < u.beginKey) :
    ∀ m ∈ u :: U, bound < m.beginKey := fun m hm => by
  rcases List.mem_cons.1 hm with rfl | hm
  · exact hu
  · exact h.above hu m hm

theorem Separated.all_below (h : Separated (L ++ l :: U)) (hl : l.endKey < key) :
    ∀ m ∈ L ++ [l], m.endKey < key := fun m hm => by
  rcases List.mem_append.1 hm with hm | hm
  · exact (h.lt hm (List.mem_cons_self)).trans ((h.nonempty l (by simp)).trans hl)
  · rw [List.mem_singleton.1 hm]
    exact hl

theorem succ_lt_of_ne (hkey : key < u.beginKey) (hne : getSuccessor key ≠ u.beginKey) :
    getSuccessor key < u.beginKey :=
  lt_of_le_of_ne (getSuccessor_le hkey) hne

theorem appendTo_inserts (hsep : Separated (lowerLeft.inorder ++ l :: (u :: upperRight.inorder)))
    (hl : l.endKey = key) (hu : key < u.beginKey) :
    Inserts key value (lowerLeft.inorder ++ l :: (u :: upperRight.inorder))
      (appendTo l lowerLeft nil (node u upperLeft upperRight)).inorder := by
  rw [appendTo, hl]
  dsimp only
  by_cases hne : getSuccessor key = u.beginKey
  · rw [if_pos hne]
    exact .merge _ _ l u hl hne
  · rw [if_neg hne, inorder_node, inorder_node, inorder_nil, List.append_assoc]
    have hsep' : Separated ((lowerLeft.inorder ++ [l]) ++ u :: upperRight.inorder) := by
      simpa using hsep
    exact .append _ _ l hl (hsep'.all_above (succ_lt_of_ne hu hne))

theorem prependOrCreate_inserts (hsep : Separated (L ++ u :: upperRight.inorder))
    {lowerBound : Tree K V} (hlower : lowerBound.inorder = L) (hL : ∀ m ∈ L, m.endKey < key)
    (hu : key < u.beginKey) :
    Inserts key value (L ++ u :: upperRight.inorder)
      (prependOrCreate key value lowerBound (node u upperLeft upperRight)).inorder := by
  rw [prependOrCreate]
  by_cases hne : getSuccessor key = u.beginKey
  · rw [if_pos hne, hne, inorder_node, hlower]
    exact .prepend L _ u hne hL
  · rw [if_neg hne, inorder_node, inorder_node, inorder_nil, List.nil_append, hlower]
    exact .create L _ hL (hsep.all_above (succ_lt_of_ne hu hne))

theorem insertBetween_inserts_upper {lowerBound : Tree K V} (hopen : lowerBound.right = nil)
    (hsep : Separated (lowerBound.inorder ++ u :: upperRight.inorder))
    (hlower : ∀ m ∈ lowerBound.inorder, m.endKey ≤ key) (hu : key < u.beginKey) :
    Inserts key value (lowerBound.inorder ++ u :: upperRight.inorder)
      (insertBetween key value lowerBound (node u upperLeft upperRight)).inorder := by
  rcases lowerBound with _ | ⟨l, lowerLeft, lowerRight⟩
  · rw [insertBetween]
    exact prependOrCreate_inserts hsep rfl (by simp) hu
  rw [right_node] at hopen
  subst hopen
  have happ : (node l lowerLeft nil).inorder ++ u :: upperRight.inorder =
      lowerLeft.inorder ++ l :: (u :: upperRight.inorder) := by simp
  rw [insertBetween]
  by_cases hl : l.endKey = key
  · rw [if_pos hl, happ]
    rw [happ] at hsep
    exact appendTo_inserts hsep hl hu
  · rw [if_neg hl]
    refine prependOrCreate_inserts hsep rfl ?_ hu
    rw [happ] at hsep
    have hlt : l.endKey < key := lt_of_le_of_ne (hlower l (by simp)) hl
    exact hsep.all_below hlt

theorem insertBetween_inserts_nil {lowerBound : Tree K V} (hopen : lowerBound.right = nil)
    (hsep : Separated lowerBound.inorder) (hlower : ∀ m ∈ lowerBound.inorder, m.endKey ≤ key) :
    Inserts key value lowerBound.inorder (insertBetween key value lowerBound nil).inorder := by
  rcases lowerBound with _ | ⟨l, lowerLeft, lowerRight⟩
  · exact .create [] [] (by simp) (by simp)
  rw [right_node] at hopen
  subst hopen
  rw [inorder_node, inorder_nil] at hsep ⊢
  rw [insertBetween]
  by_cases hl : l.endKey = key
  · rw [if_pos hl, appendTo, hl]
    exact .append _ [] l hl (by simp)
  · have hlt : l.endKey < key := lt_of_le_of_ne (hlower l (by simp)) hl
    have hcreate : Inserts key value ((lowerLeft.inorder ++ [l]) ++ [])
        ((lowerLeft.inorder ++ [l]) ++ [⟨key, getSuccessor key, value⟩]) :=
      .create _ [] (hsep.all_below hlt) (by simp)
    rw [if_neg hl, prependOrCreate]
    simpa using hcreate

omit [LinearOrder K] [SuccessorMapTraits K] in
theorem holdsOfRoot_of_forall {p : Node K V → Bool} {t : Tree K V} (h : ∀ m ∈ t.inorder, p m = true) :
    holdsOfRoot p t = true := by
  cases t with
  | nil => rfl
  | node n l r => exact h n (by simp)

theorem insert_inserts (value : V) {t : Tree K V} (hsep : Separated t.inorder) (hkey : ¬ Mapped t.inorder key) :
    ∃ t', insert key value t = .ok t' ∧ Inserts key value t.inorder t'.inorder := by
  have hends := splay_ends key t hsep
  rw [insert]
  generalize splay key t = result at hends
  cases hends with
  | mapped h => exact absurd h hkey
  | @splayed found root _ hs =>
      rcases found with _ | _
      · obtain ⟨hopen, hlower⟩ := hs.lower rfl
        refine ⟨insertBetween key value root nil, ?_, ?_⟩
        · rw [ok_bind]
          simp only [Bool.false_eq_true, if_false]
          rw [check_bind, check_bind (isNil_of_eq hopen), check_bind, check_bind]
          · rfl
          · exact holdsOfRoot_of_forall fun m hm => by simpa using hlower m hm
          · rfl
          · rfl
        · rw [← hs.inorder]
          rw [← hs.inorder] at hsep
          exact insertBetween_inserts_nil hopen hsep hlower
      · obtain ⟨u, lowerBound, upperRight, rfl, hu, hopen, hlower⟩ := hs.upper rfl
        refine ⟨insertBetween key value lowerBound (node u lowerBound upperRight), ?_, ?_⟩
        · rw [ok_bind]
          simp only [if_true, left_node]
          rw [check_bind, check_bind (isNil_of_eq hopen), check_bind, check_bind]
          · rfl
          · exact holdsOfRoot_of_forall fun m hm => by simpa using hlower m hm
          · exact decide_eq_true hu
          · rfl
        · rw [← hs.inorder, inorder_node]
          rw [← hs.inorder, inorder_node] at hsep
          exact insertBetween_inserts_upper hopen hsep hlower hu

end

end SwiftKStdlib.SuccessorMap

namespace SwiftKStdlib.SuccessorMap

variable {K V : Type} [LinearOrder K]

def keys (history : List (K × V)) : List K := history.map Prod.fst

/-- The inserted keys of the gap below `u` run from `p` up to `u`, whose value is the one for `p`. -/
structure Fills (history : List (K × V)) (nodes : List (Node K V)) (u : Node K V) (p : K) : Prop where
  value : (p, u.value) ∈ history
  le : p ≤ u.beginKey
  after : ∀ m ∈ nodes, m.endKey < u.beginKey → m.endKey ≤ p
  run : ∀ y, p ≤ y → y < u.beginKey → y ∈ keys history
  first : ∀ y ∈ keys history, y < p → ∃ m ∈ nodes, m.endKey < u.beginKey ∧ y < m.endKey

/-- The nodes stand for the keys and values inserted. -/
structure Represents [SuccessorMapTraits K] (history : List (K × V)) (nodes : List (Node K V)) : Prop where
  separated : Separated nodes
  inserted : ∀ y, Mapped nodes y → y ∈ keys history
  below : ∀ y ∈ keys history, ∃ n ∈ nodes, y < n.endKey
  last : ∀ n ∈ nodes, ∃ y, n.Holds y ∧ getSuccessor y = n.endKey
  fills : ∀ u ∈ nodes, ∃ p, Fills history nodes u p

section

variable {history : List (K × V)} {nodes nodes' L U : List (Node K V)} {n l u : Node K V} {key y : K}
  {value : V}

@[simp] theorem keys_append (h h' : List (K × V)) : keys (h ++ h') = keys h ++ keys h' :=
  List.map_append

@[simp] theorem keys_singleton (k : K) (v : V) : keys [(k, v)] = [k] := rfl

theorem Fills.lt {p : K} (h : Fills history nodes u p) (hkey : key ∉ keys history)
    (hu : key < u.beginKey) : key < p := by
  by_contra hle
  exact hkey (h.run key (le_of_not_gt hle) hu)

theorem Separated.insert (hL : Separated L) (hU : Separated U) (hn : n.beginKey < n.endKey)
    (hbelow : ∀ m ∈ L, m.endKey < n.beginKey) (habove : ∀ m ∈ U, n.endKey < m.beginKey) :
    Separated (L ++ n :: U) := by
  refine ⟨fun m hm => ?_, ?_⟩
  · rw [List.mem_append, List.mem_cons] at hm
    rcases hm with hm | rfl | hm
    · exact hL.nonempty m hm
    · exact hn
    · exact hU.nonempty m hm
  · rw [List.pairwise_append, List.pairwise_cons]
    refine ⟨hL.apart, ⟨habove, hU.apart⟩, fun a ha b hb => ?_⟩
    rcases List.mem_cons.1 hb with rfl | hb
    · exact hbelow a ha
    · exact (hbelow a ha).trans (hn.trans (habove b hb))

theorem Separated.after (h : Separated (L ++ n :: U)) : ∀ m ∈ U, n.endKey < m.beginKey :=
  (List.pairwise_cons.1 h.append.2.apart).1

theorem Separated.before (h : Separated (L ++ n :: U)) : ∀ m ∈ L, m.endKey < n.beginKey :=
  fun _ hm => h.lt hm (List.mem_cons_self)

theorem Separated.mem_before (h : Separated (L ++ u :: U)) {m : Node K V} (hm : m ∈ L ++ u :: U)
    (hlt : m.endKey < u.beginKey) : m ∈ L := by
  rw [List.mem_append, List.mem_cons] at hm
  rcases hm with hm | rfl | hm
  · exact hm
  · exact absurd (h.nonempty m (by simp)) hlt.not_gt
  · have habove := h.after m hm
    have hu := h.nonempty u (by simp)
    have hm' := h.nonempty m (by simp [hm])
    exact absurd (hu.trans (habove.trans hm')) hlt.not_gt

variable [SuccessorMapTraits K]

theorem Inserts.separated (h : Inserts key value nodes nodes') (hsep : Separated nodes)
    (hmax : ¬ IsMax key) : Separated nodes' := by
  have hsucc : key < getSuccessor key := lt_getSuccessor hmax
  cases h with
  | append L U l hl hU =>
      refine .insert hsep.append.1 hsep.cons ?_ hsep.before hU
      exact (hl ▸ hsep.nonempty l (by simp)).trans hsucc
  | merge L U l u hl hu =>
      have hsep' : Separated ((L ++ [l]) ++ u :: U) := by simpa using hsep
      refine .insert hsep.append.1 hsep'.cons ?_ hsep.before hsep'.after
      have hlu : l.endKey < u.beginKey := hsep.after u (by simp)
      exact (hsep.nonempty l (by simp)).trans (hlu.trans (hsep.nonempty u (by simp)))
  | prepend L U u hu hL =>
      exact .insert hsep.append.1 hsep.cons (hsep.nonempty u (by simp)) hsep.before hsep.after
  | create L U hL hU => exact .insert hsep.append.1 hsep.append.2 hsucc hL hU

/-- The insertion of `key` takes the branch that prepends to the upper bound. -/
def Prepends (key : K) (nodes : List (Node K V)) : Prop :=
  (∃ u ∈ nodes, getSuccessor key = u.beginKey) ∧ ∀ l ∈ nodes, l.endKey ≠ key

omit [SuccessorMapTraits K] in
theorem mapped_middle :
    Mapped (L ++ n :: U) y ↔ Mapped L y ∨ n.Holds y ∨ Mapped U y := by
  simp only [Mapped, List.mem_append, List.mem_cons, or_and_right, exists_or, exists_eq_left]

theorem not_prepends_of_mem (hl : l ∈ nodes) (h : l.endKey = key) : ¬ Prepends key nodes :=
  fun hp => hp.2 l hl h

theorem Inserts.mapped (h : Inserts key value nodes nodes') (hsep : Separated nodes)
    (hmax : ¬ IsMax key) : Mapped nodes' y ↔ Mapped nodes y ∨ (y = key ∧ ¬ Prepends key nodes) := by
  have hlt : key < getSuccessor key := lt_getSuccessor hmax
  have hsucc : y < getSuccessor key ↔ y ≤ key := lt_getSuccessor_iff hmax
  have hsucc' : getSuccessor key ≤ y ↔ key < y := getSuccessor_le_iff hmax
  cases h with
  | append L U l hl hU =>
      have hp : ¬ Prepends key (L ++ l :: U) := not_prepends_of_mem (by simp) hl
      have hne : l.beginKey < l.endKey := hsep.nonempty l (by simp)
      have hholds : ({ l with endKey := getSuccessor key } : Node K V).Holds y ↔ l.Holds y ∨ y = key := by
        simp only [Node.Holds]
        grind
      simp only [mapped_middle, hholds, hp, not_false_eq_true, and_true]
      grind only
  | merge L U l u hl hu =>
      have hp : ¬ Prepends key (L ++ l :: u :: U) := not_prepends_of_mem (by simp) hl
      have hne : l.beginKey < l.endKey := hsep.nonempty l (by simp)
      have hne' : u.beginKey < u.endKey := hsep.nonempty u (by simp)
      have hholds : ({ l with endKey := u.endKey } : Node K V).Holds y ↔
          l.Holds y ∨ y = key ∨ u.Holds y := by
        simp only [Node.Holds]
        grind
      have hcons : Mapped (u :: U) y ↔ u.Holds y ∨ Mapped U y := by
        simp only [Mapped, List.mem_cons, or_and_right, exists_or, exists_eq_left]
      simp only [mapped_middle, hcons, hholds, hp, not_false_eq_true, and_true]
      grind only
  | prepend L U u hu hL =>
      have hp : Prepends key (L ++ u :: U) := by
        refine ⟨⟨u, by simp, hu⟩, fun m hm heq => ?_⟩
        have hne := hsep.nonempty m hm
        have hmL : m ∈ L := hsep.mem_before hm (by rw [heq, ← hu]; exact hlt)
        exact (hL m hmL).ne heq
      have hholds : ({ u with value := value } : Node K V).Holds y ↔ u.Holds y := Iff.rfl
      simp only [mapped_middle, hholds, hp, not_true_eq_false, and_false, or_false]
  | create L U hL hU =>
      have hp : ¬ Prepends key (L ++ U) := by
        rintro ⟨⟨u, hu, heq⟩, -⟩
        rcases List.mem_append.1 hu with hu' | hu'
        · have := hsep.nonempty u hu
          have := hL u hu'
          grind
        · exact (hU u hu').ne heq
      have hholds : (⟨key, getSuccessor key, value⟩ : Node K V).Holds y ↔ y = key := by
        simp only [Node.Holds]
        grind
      rw [mapped_middle, mapped_append, hholds]
      simp only [hp, not_false_eq_true, and_true]
      grind only

/-! ## An insertion keeps the connection -/

section

variable {p : K}

omit [SuccessorMapTraits K] in
theorem mem_keys_insert : y ∈ keys (history ++ [(key, value)]) ↔ y ∈ keys history ∨ y = key := by
  rw [keys_append, keys_singleton, List.mem_append, List.mem_singleton]

omit [SuccessorMapTraits K] in
theorem Fills.insert_above (h : Fills history nodes u p) (hu : u.beginKey < key)
    (hmem : ∀ m, m.endKey < u.beginKey → (m ∈ nodes' ↔ m ∈ nodes)) :
    Fills (history ++ [(key, value)]) nodes' u p := by
  refine ⟨List.mem_append_left _ h.value, h.le, fun m hm hlt => h.after m ((hmem m hlt).1 hm) hlt,
    fun y hle hlt => mem_keys_insert.2 (.inl (h.run y hle hlt)), fun y hy hlt => ?_⟩
  rcases mem_keys_insert.1 hy with hy | rfl
  · obtain ⟨m, hm, hm', hlt'⟩ := h.first y hy hlt
    exact ⟨m, (hmem m hm').2 hm, hm', hlt'⟩
  · exact absurd (hlt.trans_le h.le) hu.not_gt

omit [SuccessorMapTraits K] in
theorem Fills.insert_below (h : Fills history nodes u p)
    (hafter : ∀ m ∈ nodes', m.endKey < u.beginKey → m.endKey ≤ p)
    (hreach : ∃ m ∈ nodes', m.endKey < u.beginKey ∧ key < m.endKey)
    (hmem : ∀ m ∈ nodes, m.endKey < u.beginKey →
      ∃ m' ∈ nodes', m'.endKey < u.beginKey ∧ m.endKey ≤ m'.endKey) :
    Fills (history ++ [(key, value)]) nodes' u p := by
  refine ⟨List.mem_append_left _ h.value, h.le, hafter,
    fun y hle hlt => mem_keys_insert.2 (.inl (h.run y hle hlt)), fun y hy hlt => ?_⟩
  rcases mem_keys_insert.1 hy with hy | rfl
  · obtain ⟨m, hm, hm', hlt'⟩ := h.first y hy hlt
    obtain ⟨m', hmem', hlt'', hle⟩ := hmem m hm hm'
    exact ⟨m', hmem', hlt'', hlt'.trans_le hle⟩
  · exact hreach

theorem Fills.insert_key (hvalue : u.value = value) (hu : key ≤ u.beginKey)
    (hafter : ∀ m ∈ nodes', m.endKey < u.beginKey → m.endKey ≤ key)
    (hrun : ∀ y, key ≤ y → y < u.beginKey → y = key)
    (hfirst : ∀ y ∈ keys history, y < key → ∃ m ∈ nodes', m.endKey < u.beginKey ∧ y < m.endKey) :
    Fills (history ++ [(key, value)]) nodes' u key := by
  refine ⟨by simp [hvalue], hu, hafter, fun y hle hlt => mem_keys_insert.2 (.inr (hrun y hle hlt)),
    fun y hy hlt => ?_⟩
  rcases mem_keys_insert.1 hy with hy | rfl
  · exact hfirst y hy hlt
  · exact absurd hlt (lt_irrefl y)

/-! An insertion puts one node `n` in the place of the nodes `X` around the key. -/

variable {X : List (Node K V)}

theorem Represents.fills_before (hr : Represents history (L ++ X ++ U))
    (hL : ∀ m ∈ L, m.beginKey < key) (hX : ∀ x ∈ X, key ≤ x.endKey) (hn : key < n.endKey)
    (hu : u ∈ L) : ∃ p, Fills (history ++ [(key, value)]) (L ++ n :: U) u p := by
  obtain ⟨p, hp⟩ := hr.fills u (by simp [hu])
  refine ⟨p, hp.insert_above (hL u hu) fun m hm => ?_⟩
  have hlt : m.endKey < key := hm.trans (hL u hu)
  have hnot : m ∉ X := fun h => (hX m h).not_gt hlt
  have hne : m ≠ n := fun h => hn.not_gt (h ▸ hlt)
  simp [hnot, hne]

theorem Represents.fills_after (hr : Represents history (L ++ X ++ U)) (hkey : key ∉ keys history)
    (hn : key < n.endKey) (hU : ∀ m ∈ U, n.endKey < m.beginKey) (hX : ∀ x ∈ X, x.endKey ≤ n.endKey)
    (hend : n.endKey = getSuccessor key ∨ ∃ x ∈ X, x.endKey = n.endKey) (hu : u ∈ U) :
    ∃ p, Fills (history ++ [(key, value)]) (L ++ n :: U) u p := by
  obtain ⟨p, hp⟩ := hr.fills u (by simp [hu])
  have hlt : key < p := hp.lt hkey (hn.trans (hU u hu))
  have hle : n.endKey ≤ p := by
    rcases hend with heq | ⟨x, hx, heq⟩
    · rw [heq]
      exact getSuccessor_le hlt
    · rw [← heq]
      exact hp.after x (by simp [hx]) (heq ▸ hU u hu)
  refine ⟨p, hp.insert_below (fun m hm hlt => ?_) ⟨n, by simp, hU u hu, hn⟩ fun m hm hlt => ?_⟩
  · rw [List.mem_append, List.mem_cons] at hm
    rcases hm with hm | rfl | hm
    · exact hp.after m (by simp [hm]) hlt
    · exact hle
    · exact hp.after m (by simp [hm]) hlt
  · rw [List.append_assoc, List.mem_append, List.mem_append] at hm
    rcases hm with hm | hm | hm
    · exact ⟨m, by simp [hm], hlt, le_rfl⟩
    · exact ⟨n, by simp, hU u hu, hX m hm⟩
    · exact ⟨m, by simp [hm], hlt, le_rfl⟩

theorem Represents.fills_extended (hr : Represents history (L ++ l :: X ++ U)) {endKey : K}
    (hl : l.beginKey < key) (hX : ∀ x ∈ l :: X, key ≤ x.endKey) (hend : key < endKey) :
    ∃ p, Fills (history ++ [(key, value)]) (L ++ { l with endKey := endKey } :: U)
      { l with endKey := endKey } p := by
  obtain ⟨p, hp⟩ := hr.fills l (by simp)
  have hp' : Fills history (L ++ l :: X ++ U) { l with endKey := endKey } p :=
    ⟨hp.value, hp.le, hp.after, hp.run, hp.first⟩
  refine ⟨p, hp'.insert_above hl fun m hm => ?_⟩
  have hlt : m.endKey < key := hm.trans hl
  have hnot : m ∉ l :: X := fun h => (hX m h).not_gt hlt
  have hne : m ≠ { l with endKey := endKey } := fun h => by
    subst h
    exact hend.not_gt hlt
  rw [List.append_assoc]
  simp only [List.mem_append, List.mem_cons, hne, false_or, not_or] at hnot ⊢
  simp [hnot]

theorem Represents.first_before (hr : Represents history (L ++ U)) (hkey : key ∉ keys history)
    (hU : ∀ m ∈ U, key < m.beginKey) (hy : y ∈ keys history) (hlt : y < key) :
    ∃ m ∈ L, y < m.endKey := by
  rcases U with _ | ⟨u, U⟩
  · obtain ⟨m, hm, hlt'⟩ := hr.below y hy
    exact ⟨m, by simpa using hm, hlt'⟩
  · obtain ⟨p, hp⟩ := hr.fills u (by simp)
    have hp' : key < p := hp.lt hkey (hU u (by simp))
    obtain ⟨m, hm, hmu, hlt'⟩ := hp.first y hy (hlt.trans hp')
    exact ⟨m, hr.separated.mem_before hm hmu, hlt'⟩

theorem Inserts.fills (h : Inserts key value nodes nodes') (hr : Represents history nodes)
    (hkey : key ∉ keys history) (hmax : ¬ IsMax key) :
    ∀ u ∈ nodes', ∃ p, Fills (history ++ [(key, value)]) nodes' u p := by
  have hsucc : key < getSuccessor key := lt_getSuccessor hmax
  have hsep := hr.separated
  intro u' hu'
  cases h with
  | append L U l hl hU =>
      have hr' : Represents history (L ++ [l] ++ U) := by simpa using hr
      have hne := hsep.nonempty l (by simp)
      have hL : ∀ m ∈ L, m.beginKey < key := fun m hm => by
        have hml := hsep.before m hm
        have hm' := hsep.nonempty m (by simp [hm])
        exact hm'.trans (hml.trans (hl ▸ hne))
      rw [List.mem_append, List.mem_cons] at hu'
      rcases hu' with hu' | rfl | hu'
      · exact hr'.fills_before hL (by simp [hl]) hsucc hu'
      · exact hr'.fills_extended (hl ▸ hne) (by simp [hl]) hsucc
      · exact hr'.fills_after hkey hsucc hU (by simp [hl, hsucc.le]) (.inl rfl) hu'
  | merge L U l u hl hu =>
      have hr' : Represents history (L ++ [l, u] ++ U) := by simpa using hr
      have hne := hsep.nonempty l (by simp)
      have hlu : l.endKey < u.beginKey := hsep.after u (by simp)
      have hne' := hsep.nonempty u (by simp)
      have hend : key < u.endKey := hl ▸ hlu.trans hne'
      have hL : ∀ m ∈ L, m.beginKey < key := fun m hm => by
        have hml := hsep.before m hm
        have hm' := hsep.nonempty m (by simp [hm])
        exact hm'.trans (hml.trans (hl ▸ hne))
      have hsep' : Separated ((L ++ [l]) ++ u :: U) := by simpa using hsep
      rw [List.mem_append, List.mem_cons] at hu'
      rcases hu' with hu' | rfl | hu'
      · exact hr'.fills_before hL (by simp [hl, hend.le]) hend hu'
      · exact hr'.fills_extended (hl ▸ hne) (by simp [hl, hend.le]) hend
      · refine hr'.fills_after hkey hend hsep'.after ?_ (.inr ⟨u, by simp, rfl⟩) hu'
        simp [(hlu.trans hne').le]
  | prepend L U u hu hL =>
      have hr' : Represents history (L ++ [u] ++ U) := by simpa using hr
      have hne := hsep.nonempty u (by simp)
      have hbegin : key < u.beginKey := hu ▸ hsucc
      have hend : key < u.endKey := hbegin.trans hne
      have hL' : ∀ m ∈ L, m.beginKey < key := fun m hm =>
        (hsep.nonempty m (by simp [hm])).trans (hL m hm)
      rw [List.mem_append, List.mem_cons] at hu'
      rcases hu' with hu' | rfl | hu'
      · exact hr'.fills_before hL' (by simp [hend.le]) hend hu'
      · have hsep' : Separated (L ++ { u with value := value } :: U) :=
          .insert hsep.append.1 hsep.cons hne hsep.before hsep.after
        refine ⟨key, .insert_key rfl hbegin.le (fun m hm hlt => ?_) (fun y hle hlt => ?_)
          fun y hy hlt => ?_⟩
        · exact (hL m (hsep'.mem_before hm hlt)).le
        · rw [← hu, lt_getSuccessor_iff hmax] at hlt
          exact le_antisymm hlt hle
        · obtain ⟨m, hm, hlt'⟩ := hr.first_before hkey (hsep.all_above hbegin) hy hlt
          exact ⟨m, by simp [hm], hsep.before m hm, hlt'⟩
      · exact hr'.fills_after hkey hend hsep.after (by simp) (.inr ⟨u, by simp, rfl⟩) hu'
  | create L U hL hU =>
      have hr' : Represents history (L ++ [] ++ U) := by simpa using hr
      have hL' : ∀ m ∈ L, m.beginKey < key := fun m hm =>
        (hsep.nonempty m (by simp [hm])).trans (hL m hm)
      rw [List.mem_append, List.mem_cons] at hu'
      rcases hu' with hu' | rfl | hu'
      · exact hr'.fills_before hL' (by simp) hsucc hu'
      · refine ⟨key, .insert_key rfl le_rfl (fun m hm hlt => hlt.le) (fun y hle hlt => ?_)
          fun y hy hlt => ?_⟩
        · exact absurd hlt hle.not_gt
        · obtain ⟨m, hm, hlt'⟩ := hr.first_before hkey (fun m hm => hsucc.trans (hU m hm)) hy hlt
          exact ⟨m, by simp [hm], hL m hm, hlt'⟩
      · exact hr'.fills_after hkey hsucc hU (by simp) (.inl rfl) hu'

omit [LinearOrder K] [SuccessorMapTraits K] in
theorem ends_kept [Preorder K] (hX : ∀ x ∈ X, x.endKey ≤ n.endKey) :
    ∀ m ∈ L ++ X ++ U, ∃ n' ∈ L ++ n :: U, m.endKey ≤ n'.endKey := fun m hm => by
  rw [List.append_assoc, List.mem_append, List.mem_append] at hm
  rcases hm with hm | hm | hm
  · exact ⟨m, by simp [hm], le_rfl⟩
  · exact ⟨n, by simp, hX m hm⟩
  · exact ⟨m, by simp [hm], le_rfl⟩

theorem Inserts.below (h : Inserts key value nodes nodes') (hsep : Separated nodes)
    (hmax : ¬ IsMax key) :
    (∀ m ∈ nodes, ∃ n ∈ nodes', m.endKey ≤ n.endKey) ∧ ∃ n ∈ nodes', key < n.endKey := by
  have hsucc : key < getSuccessor key := lt_getSuccessor hmax
  cases h with
  | append L U l hl hU =>
      have hkept := ends_kept (L := L) (X := [l]) (U := U)
        (n := { l with endKey := getSuccessor key }) (by simp [hl, hsucc.le])
      exact ⟨by simpa using hkept, _, List.mem_append_right L List.mem_cons_self, hsucc⟩
  | merge L U l u hl hu =>
      have hlu : l.endKey < u.beginKey := hsep.after u (by simp)
      have hend : l.endKey < u.endKey := hlu.trans (hsep.nonempty u (by simp))
      have hkept := ends_kept (L := L) (X := [l, u]) (U := U)
        (n := { l with endKey := u.endKey }) (by simp [hend.le])
      exact ⟨by simpa using hkept, _, List.mem_append_right L List.mem_cons_self, hl ▸ hend⟩
  | prepend L U u hu hL =>
      have hend : key < u.endKey := (hu ▸ hsucc).trans (hsep.nonempty u (by simp))
      have hkept := ends_kept (L := L) (X := [u]) (U := U) (n := { u with value := value }) (by simp)
      exact ⟨by simpa using hkept, _, List.mem_append_right L List.mem_cons_self, hend⟩
  | create L U hL hU =>
      have hkept := ends_kept (L := L) (X := []) (U := U) (n := ⟨key, getSuccessor key, value⟩) (by simp)
      exact ⟨by simpa using hkept, _, List.mem_append_right L List.mem_cons_self, hsucc⟩

theorem Inserts.last (h : Inserts key value nodes nodes') (hsep : Separated nodes)
    (hmax : ¬ IsMax key) (hlast : ∀ n ∈ nodes, ∃ y, n.Holds y ∧ getSuccessor y = n.endKey) :
    ∀ n ∈ nodes', ∃ y, n.Holds y ∧ getSuccessor y = n.endKey := by
  have hsucc : key < getSuccessor key := lt_getSuccessor hmax
  intro n hn
  cases h with
  | append L U l hl hU =>
      rw [List.mem_append, List.mem_cons] at hn
      rcases hn with hn | rfl | hn
      · exact hlast n (by simp [hn])
      · have hne := hsep.nonempty l (by simp)
        exact ⟨key, ⟨(hl ▸ hne).le, hsucc⟩, rfl⟩
      · exact hlast n (by simp [hn])
  | merge L U l u hl hu =>
      rw [List.mem_append, List.mem_cons] at hn
      rcases hn with hn | rfl | hn
      · exact hlast n (by simp [hn])
      · obtain ⟨y, hy, heq⟩ := hlast u (by simp)
        have hlu : l.endKey < u.beginKey := hsep.after u (by simp)
        have hne := hsep.nonempty l (by simp)
        exact ⟨y, ⟨(hne.trans hlu).le.trans hy.1, hy.2⟩, heq⟩
      · exact hlast n (by simp [hn])
  | prepend L U u hu hL =>
      rw [List.mem_append, List.mem_cons] at hn
      rcases hn with hn | rfl | hn
      · exact hlast n (by simp [hn])
      · exact hlast u (by simp)
      · exact hlast n (by simp [hn])
  | create L U hL hU =>
      rw [List.mem_append, List.mem_cons] at hn
      rcases hn with hn | rfl | hn
      · exact hlast n (by simp [hn])
      · exact ⟨key, ⟨le_rfl, hsucc⟩, rfl⟩
      · exact hlast n (by simp [hn])

theorem Inserts.represents (h : Inserts key value nodes nodes') (hr : Represents history nodes)
    (hkey : key ∉ keys history) (hmax : ¬ IsMax key) :
    Represents (history ++ [(key, value)]) nodes' := by
  have hsucc : key < getSuccessor key := lt_getSuccessor hmax
  refine ⟨h.separated hr.separated hmax, fun y hy => ?_, ?_, ?_, h.fills hr hkey hmax⟩
  · rcases (h.mapped hr.separated hmax).1 hy with hy | ⟨rfl, _⟩
    · exact mem_keys_insert.2 (.inl (hr.inserted y hy))
    · exact mem_keys_insert.2 (.inr rfl)
  · intro y hy
    obtain ⟨hends, hpast⟩ := h.below hr.separated hmax
    rcases mem_keys_insert.1 hy with hy | rfl
    · obtain ⟨m, hm, hlt⟩ := hr.below y hy
      obtain ⟨n, hn, hle⟩ := hends m hm
      exact ⟨n, hn, hlt.trans_le hle⟩
    · exact hpast
  · exact h.last hr.separated hmax hr.last

end

end

end SwiftKStdlib.SuccessorMap
