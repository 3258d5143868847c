import SwiftKStdlib.SuccessorMap.Histories

/-!
# Runs of a `SuccessorMap`

* `run ops` : the map after the operations `ops`, from the empty one;
* `run_represents` : it is there, and represents what was inserted, if no operation is given a key that
  has been inserted before;
* `findLeastUpperBound_finds` : what a lookup finds after any such run;
* `coversExactly_iff` : the runs of insertions after which the ranges hold just the keys inserted.
-/

namespace SwiftKStdlib.SuccessorMap

open BinaryTree

variable {K V : Type}

inductive Operation (K V : Type) where
  | insert (key : K) (value : V)
  | findLeastUpperBound (key : K)

/-- What the operations insert. -/
def history : List (Operation K V) → List (K × V)
  | [] => []
  | .insert key value :: ops => (key, value) :: history ops
  | .findLeastUpperBound _ :: ops => history ops

variable [LinearOrder K] [SuccessorMapTraits K]

/-- The map after an operation. -/
def Operation.apply (root : Tree K V) : Operation K V → Except Assertion (Tree K V)
  | .insert key value => SuccessorMap.insert key value root
  | .findLeastUpperBound key => do
    let (_, root) ← SuccessorMap.findLeastUpperBound key root
    pure root

def run (ops : List (Operation K V)) : Except Assertion (Tree K V) :=
  ops.foldlM Operation.apply nil

/-- The key of the operation has not been inserted; and it is not the largest one there is, if it is
to be inserted. -/
def Operation.Allowed (inserted : List (K × V)) : Operation K V → Prop
  | .insert key _ => key ∉ keys inserted ∧ ¬ IsMax key
  | .findLeastUpperBound key => key ∉ keys inserted

def AllAllowed (ops : List (Operation K V)) : Prop :=
  ∀ before op, before ++ [op] <+: ops → op.Allowed (history before)

section

variable {h : List (K × V)} {t : Tree K V} {key : K} {value : V} {ops : List (Operation K V)}
  {op : Operation K V}

omit [SuccessorMapTraits K] in
@[simp] theorem history_append (ops ops' : List (Operation K V)) :
    history (ops ++ ops') = history ops ++ history ops' := by
  induction ops with
  | nil => rfl
  | cons op ops ih =>
      cases op with
      | insert key value => simp [history, ih]
      | findLeastUpperBound key => simp [history, ih]

theorem run_concat : run (ops ++ [op]) = run ops >>= fun t => op.apply t := by
  rw [run, List.foldlM_append]
  simp [run]

omit [SuccessorMapTraits K] in
theorem AllAllowed.init (h : AllAllowed (ops ++ [op])) : AllAllowed ops :=
  fun before op' hpre => h before op' (hpre.trans (List.prefix_append ops [op]))

omit [SuccessorMapTraits K] in
theorem allAllowed_nil : AllAllowed ([] : List (Operation K V)) := fun before op hpre => by
  simp at hpre

omit [SuccessorMapTraits K] in
theorem AllAllowed.concat (h : AllAllowed ops) (hop : op.Allowed (history ops)) :
    AllAllowed (ops ++ [op]) := fun before op' hpre => by
  rcases List.prefix_concat_iff.1 hpre with heq | hpre
  · obtain ⟨rfl, hop'⟩ := List.append_inj' heq rfl
    cases hop'
    exact hop
  · exact h before op' hpre

theorem Represents.not_mapped (hr : Represents h t.inorder) (hkey : key ∉ keys h) :
    ¬ Mapped t.inorder key := fun hm => hkey (hr.inserted key hm)

theorem splay_returns (hsep : Separated t.inorder) (hkey : ¬ Mapped t.inorder key) :
    ∃ found root, splay key t = .ok (found, root) ∧ Splayed key t.inorder found root := by
  have hends := splay_ends key t hsep
  generalize splay key t = result at hends
  cases hends with
  | mapped h => exact absurd h hkey
  | splayed _ hs => exact ⟨_, _, rfl, hs⟩

theorem findLeastUpperBound_returns {found : Bool} {root : Tree K V}
    (hrun : splay key t = .ok (found, root)) (hs : Splayed key t.inorder found root) :
    ∃ answer, findLeastUpperBound key t = .ok (answer, root) ∧
      (found = true → ∃ n l r, root = node n l r ∧ answer = some n.value) ∧
      (found = false → answer = none) := by
  rw [findLeastUpperBound, hrun, ok_bind]
  rcases found with _ | _
  · exact ⟨none, rfl, by simp, by simp⟩
  · obtain ⟨n, l, r, rfl, -⟩ := hs.upper rfl
    exact ⟨some n.value, rfl, fun _ => ⟨n, l, r, rfl, rfl⟩, by simp⟩

theorem apply_represents (hr : Represents h t.inorder) (hop : op.Allowed h) :
    ∃ t', op.apply t = .ok t' ∧ Represents (h ++ history [op]) t'.inorder := by
  cases op with
  | insert key value =>
      obtain ⟨t', hrun, hins⟩ := insert_inserts value hr.separated (hr.not_mapped hop.1)
      exact ⟨t', hrun, hins.represents hr hop.1 hop.2⟩
  | findLeastUpperBound key =>
      obtain ⟨found, root, hrun, hs⟩ := splay_returns hr.separated (hr.not_mapped hop)
      obtain ⟨answer, hfind, -⟩ := findLeastUpperBound_returns hrun hs
      refine ⟨root, ?_, ?_⟩
      · rw [Operation.apply, hfind]
        rfl
      · rw [hs.inorder]
        simpa [history] using hr

theorem represents_nil : Represents ([] : List (K × V)) (nil : Tree K V).inorder where
  separated := ⟨by simp, by simp⟩
  inserted := fun y hy => absurd hy not_mapped_nil
  below := by simp [keys]
  last := by simp
  fills := by simp

theorem run_represents (hops : AllAllowed ops) :
    ∃ t, run ops = .ok t ∧ Represents (history ops) t.inorder := by
  induction ops using List.reverseRecOn with
  | nil => exact ⟨nil, rfl, represents_nil⟩
  | append_singleton ops op ih =>
      obtain ⟨t, hrun, hr⟩ := ih hops.init
      have hop : op.Allowed (history ops) := hops ops op (List.prefix_refl _)
      obtain ⟨t', happly, hr'⟩ := apply_represents hr hop
      refine ⟨t', ?_, ?_⟩
      · rw [run_concat, hrun]
        exact happly
      · rwa [history_append]

end

/-! ## Lookups -/

/-- `answer` is the value inserted for the smallest key above `key`, if there is one. -/
def IsLeastUpperValue (h : List (K × V)) (key : K) : Option V → Prop
  | some v => ∃ p, (p, v) ∈ h ∧ key < p ∧ ∀ q ∈ keys h, key < q → p ≤ q
  | none => ∀ q ∈ keys h, ¬ key < q

/-- The subtree is rooted at the last of the nodes that end at or below `key`, with no right child; it
is empty if there is none. Everything inserted below `key` is below the end of that node. -/
def IsGreatestLowerBound (h : List (K × V)) (nodes : List (Node K V)) (key : K) : Tree K V → Prop
  | nil => (∀ m ∈ nodes, ¬ m.endKey ≤ key) ∧ ∀ q ∈ keys h, ¬ q < key
  | node g _ right => right = nil ∧ g ∈ nodes ∧ g.endKey ≤ key ∧
      (∀ m ∈ nodes, m.endKey ≤ key → m.endKey ≤ g.endKey) ∧ ∀ q ∈ keys h, q < key → q < g.endKey

/-- The node is the first of the nodes that begin above `key`. -/
def IsLeastUpperBound (nodes : List (Node K V)) (key : K) (n : Node K V) : Prop :=
  n ∈ nodes ∧ key < n.beginKey ∧ ∀ m ∈ nodes, key < m.beginKey → n.beginKey ≤ m.beginKey

/-- What `splay` promises of the tree it makes of `t`: it has each node of `t` once and in order; an
upper bound is found if a key above has been inserted; and then the root is the least one, and its left
child the greatest lower bound. -/
structure Arranged (h : List (K × V)) (key : K) (t : Tree K V) (found : Bool) (root : Tree K V) :
    Prop where
  nodes : root.inorder = t.inorder
  ordered : root.inorder.Pairwise fun a b => a.endKey < b.beginKey
  found_iff : found = true ↔ ∃ q ∈ keys h, key < q
  bounds : found = true → ∃ n left right, root = node n left right ∧
    IsLeastUpperBound t.inorder key n ∧ IsGreatestLowerBound h t.inorder key left

section

variable {h : List (K × V)} {t root : Tree K V} {key : K} {found : Bool} {n : Node K V}
  {l r : Tree K V}

omit [SuccessorMapTraits K] in
theorem le_last {L U : List (Node K V)} (hsep : Separated (L ++ n :: U)) :
    ∀ m ∈ L ++ [n], m.endKey ≤ n.endKey := fun m hm => by
  rcases List.mem_append.1 hm with hm | hm
  · exact ((hsep.before m hm).trans (hsep.nonempty n (by simp))).le
  · rw [List.mem_singleton.1 hm]

theorem Represents.greatestLowerBound (hr : Represents h (l.inorder ++ n :: r.inorder))
    (hkey : key ∉ keys h) (hn : key < n.beginKey) (hopen : l.right = nil)
    (hl : ∀ m ∈ l.inorder, m.endKey ≤ key) :
    IsGreatestLowerBound h (l.inorder ++ n :: r.inorder) key l := by
  have hsep := hr.separated
  have hmem : ∀ m ∈ l.inorder ++ n :: r.inorder, m.endKey ≤ key → m ∈ l.inorder := fun m hm hle =>
    hsep.mem_before hm (hle.trans_lt hn)
  have hfirst : ∀ q ∈ keys h, q < key → ∃ m ∈ l.inorder, q < m.endKey := fun q hq hlt =>
    hr.first_before hkey (hsep.all_above hn) hq hlt
  rcases l with _ | ⟨g, gl, gr⟩
  · refine ⟨fun m hm hle => ?_, fun q hq hlt => ?_⟩
    · exact absurd (hmem m hm hle) (by simp)
    · obtain ⟨m, hm, -⟩ := hfirst q hq hlt
      exact absurd hm (by simp)
  · rw [right_node] at hopen
    subst hopen
    have hsepl : Separated (gl.inorder ++ g :: []) := hsep.append.1
    have hlast := le_last hsepl
    refine ⟨rfl, by simp, hl g (by simp), fun m hm hle => ?_, fun q hq hlt => ?_⟩
    · exact hlast m (hmem m hm hle)
    · obtain ⟨m, hm, hlt'⟩ := hfirst q hq hlt
      exact hlt'.trans_le (hlast m hm)

theorem Represents.arranged (hr : Represents h t.inorder) (hkey : key ∉ keys h)
    (hs : Splayed key t.inorder found root) : Arranged h key t found root := by
  refine ⟨hs.inorder, hs.inorder ▸ hr.separated.apart, ⟨fun hfound => ?_, fun ⟨q, hq, hlt⟩ => ?_⟩,
    fun hfound => ?_⟩
  · obtain ⟨n, l, r, rfl, hn, -⟩ := hs.upper hfound
    have hmem : n ∈ t.inorder := by simp [← hs.inorder]
    have hne := hr.separated.nonempty n hmem
    exact ⟨n.beginKey, hr.inserted _ ⟨n, hmem, le_rfl, hne⟩, hn⟩
  · by_contra hfound
    obtain ⟨-, hlower⟩ := hs.lower (Bool.not_eq_true _ ▸ hfound)
    obtain ⟨m, hm, hlt'⟩ := hr.below q hq
    exact absurd (hlt.trans hlt') (hlower m (hs.inorder ▸ hm)).not_gt
  · obtain ⟨n, l, r, rfl, hn, hopen, hl⟩ := hs.upper hfound
    have hinorder : t.inorder = l.inorder ++ n :: r.inorder := by rw [← hs.inorder, inorder_node]
    refine ⟨n, l, r, rfl, ⟨by simp [hinorder], hn, fun m hm hlt => ?_⟩, ?_⟩
    · rw [hinorder] at hm
      by_contra hle
      have hm' : m ∈ l.inorder := by
        rw [List.mem_append, List.mem_cons] at hm
        rcases hm with hm | rfl | hm
        · exact hm
        · exact absurd le_rfl hle
        · have hsep := hinorder ▸ hr.separated
          have := (hsep.nonempty n (by simp)).trans (hsep.after m hm)
          exact absurd this.le hle
      have hne := hr.separated.nonempty m (by simp [hinorder, hm'])
      exact absurd (hlt.trans hne) (hl m hm').not_gt
    · rw [hinorder]
      exact (hinorder ▸ hr).greatestLowerBound hkey hn hopen hl

theorem Represents.leastUpperValue (hr : Represents h t.inorder) (hkey : key ∉ keys h)
    (ha : Arranged h key t found root) {answer : Option V}
    (hsome : found = true → ∃ n l r, root = node n l r ∧ answer = some n.value)
    (hnone : found = false → answer = none) : IsLeastUpperValue h key answer := by
  by_cases hfound : found = true
  · obtain ⟨n, l, r, rfl, rfl⟩ := hsome hfound
    obtain ⟨n', l', r', heq, ⟨hmem, hn, hleast⟩, -⟩ := ha.bounds hfound
    cases heq
    obtain ⟨p, hp⟩ := hr.fills n hmem
    refine ⟨p, hp.value, hp.lt hkey hn, fun q hq hlt => ?_⟩
    by_contra hle
    obtain ⟨m, hm, hmn, hqm⟩ := hp.first q hq (lt_of_not_ge hle)
    -- `m` ends above `key` and before the least upper bound begins, so it holds `key`
    have hbegin : m.beginKey ≤ key := by
      by_contra hgt
      have hne := hr.separated.nonempty m hm
      exact absurd (hleast m hm (lt_of_not_ge hgt)) (hne.trans hmn).not_ge
    exact hkey (hr.inserted key ⟨m, hm, hbegin, hlt.trans hqm⟩)
  · rw [hnone (Bool.not_eq_true _ ▸ hfound)]
    exact fun q hq hlt => hfound (ha.found_iff.2 ⟨q, hq, hlt⟩)

end

/-- After any run of allowed operations, a lookup of a key that has not been inserted splays the tree
around the key and returns the value inserted for the smallest key above it. -/
theorem findLeastUpperBound_finds (ops : List (Operation K V)) (hops : AllAllowed ops) (key : K)
    (hkey : key ∉ keys (history ops)) :
    ∃ t found root answer, run ops = .ok t ∧
      splay key t = .ok (found, root) ∧ Arranged (history ops) key t found root ∧
      findLeastUpperBound key t = .ok (answer, root) ∧ IsLeastUpperValue (history ops) key answer := by
  obtain ⟨t, hrun, hr⟩ := run_represents hops
  obtain ⟨found, root, hsplay, hs⟩ := splay_returns hr.separated (hr.not_mapped hkey)
  obtain ⟨answer, hfind, hsome, hnone⟩ := findLeastUpperBound_returns hsplay hs
  have ha : Arranged (history ops) key t found root := hr.arranged hkey hs
  exact ⟨t, found, root, answer, hrun, hsplay, ha, hfind, hr.leastUpperValue hkey ha hsome hnone⟩

/-- Keys 6 and 5 with a lookup between; the run of the one node begins at 5. -/
theorem findLeastUpperBound_finds_prepended :
    (0 : Nat) ∉ keys (history [.insert 6 17, .findLeastUpperBound 7, .insert (5 : Nat) 25]) ∧
      ∃ (t : Tree Nat Nat) (found : Bool) (root : Tree Nat Nat) (answer : Option Nat),
        run [.insert 6 17, .findLeastUpperBound 7, .insert 5 25] = .ok t ∧
        splay 0 t = .ok (found, root) ∧
        Arranged (history [.insert 6 17, .findLeastUpperBound 7, .insert 5 25]) 0 t found root ∧
        findLeastUpperBound 0 t = .ok (answer, root) ∧
        IsLeastUpperValue (history [.insert 6 17, .findLeastUpperBound 7, .insert 5 25]) 0 answer := by
  refine ⟨by decide, findLeastUpperBound_finds _ ?_ 0 (by decide)⟩
  have h₁ : AllAllowed ([] ++ [.insert (6 : Nat) 17] : List (Operation Nat Nat)) :=
    allAllowed_nil.concat ⟨by decide, not_isMax 6⟩
  have h₂ : AllAllowed ([.insert (6 : Nat) 17] ++ [.findLeastUpperBound 7]) :=
    h₁.concat (by unfold Operation.Allowed; decide)
  exact h₂.concat ⟨by decide, not_isMax 5⟩

/-! ## The keys in the ranges -/

def insertions (pairs : List (K × V)) : List (Operation K V) :=
  pairs.map fun pair => .insert pair.1 pair.2

/-- After the insertions, the ranges are disjoint, not adjacent, and hold just the keys inserted; and
the assertion about a mapped key fires for just these keys. -/
def CoversExactly (pairs : List (K × V)) : Prop :=
  ∃ t, run (insertions pairs) = .ok t ∧ Separated t.inorder ∧
    (∀ key, Mapped t.inorder key ↔ key ∈ keys pairs) ∧
    ∀ key, splay key t = .error .keyAlreadyMapped ↔ key ∈ keys pairs

/-- Whenever a key is inserted right below one that has been inserted, the key right below it has been
inserted too. -/
def PredecessorsFirst (pairs : List (K × V)) : Prop :=
  ∀ before key value, before ++ [(key, value)] <+: pairs → getSuccessor key ∈ keys before →
    ∃ y ∈ keys before, getSuccessor y = key

section

variable {pairs : List (K × V)} {t : Tree K V} {key : K} {value : V}

omit [SuccessorMapTraits K] in
theorem splay_mapped_iff (hsep : Separated t.inorder) :
    splay key t = .error .keyAlreadyMapped ↔ Mapped t.inorder key := by
  have hends := splay_ends key t hsep
  generalize splay key t = result at hends
  cases hends with
  | mapped h => simp [h]
  | splayed h hs => simp [h]

omit [SuccessorMapTraits K] in
@[simp] theorem history_insertions : history (insertions pairs) = pairs := by
  induction pairs with
  | nil => rfl
  | cons pair pairs ih => simpa [insertions, history] using ih

theorem Represents.prepends_iff {h : List (K × V)} {nodes : List (Node K V)}
    (hr : Represents h nodes) (hexact : ∀ y, Mapped nodes y ↔ y ∈ keys h) (hkey : key ∉ keys h)
    (hmax : ¬ IsMax key) :
    Prepends key nodes ↔ getSuccessor key ∈ keys h ∧ ¬ ∃ y ∈ keys h, getSuccessor y = key := by
  have hnot : ¬ Mapped nodes key := fun h => hkey ((hexact key).1 h)
  refine and_congr ⟨fun ⟨u, hu, heq⟩ => ?_, fun hsucc => ?_⟩ ⟨fun hl ⟨y, hy, heq⟩ => ?_, fun hy l hl heq => ?_⟩
  · exact (hexact _).1 ⟨u, hu, heq.ge, heq ▸ hr.separated.nonempty u hu⟩
  · obtain ⟨u, hu, hbegin, hend⟩ := (hexact _).2 hsucc
    have hlt : key < u.beginKey := by
      by_contra hle
      exact hnot ⟨u, hu, le_of_not_gt hle, (lt_getSuccessor hmax).trans hend⟩
    exact ⟨u, hu, le_antisymm (getSuccessor_le hlt) hbegin⟩
  · obtain ⟨l, hl', hbegin, hend⟩ := (hexact y).2 hy
    have hy_max : ¬ IsMax y := not_isMax_of_lt hend
    have hle : l.endKey ≤ key := by
      by_contra hlt
      exact hnot ⟨l, hl', hbegin.trans (heq ▸ (lt_getSuccessor hy_max).le), lt_of_not_ge hlt⟩
    exact hl l hl' (le_antisymm hle (heq ▸ getSuccessor_le hend))
  · obtain ⟨y, hholds, hsucc⟩ := hr.last l hl
    exact hy ⟨y, (hexact y).1 ⟨l, hl, hholds⟩, hsucc.trans heq⟩

theorem predecessorsFirst_concat :
    PredecessorsFirst (pairs ++ [(key, value)]) ↔ PredecessorsFirst pairs ∧
      (getSuccessor key ∈ keys pairs → ∃ y ∈ keys pairs, getSuccessor y = key) := by
  refine ⟨fun h => ⟨fun before key' value' hpre => ?_, ?_⟩, fun ⟨h, hlast⟩ before key' value' hpre => ?_⟩
  · exact h before key' value' (hpre.trans (List.prefix_append pairs _))
  · exact h pairs key value (List.prefix_refl _)
  · rcases List.prefix_concat_iff.1 hpre with heq | hpre
    · obtain ⟨rfl, heq'⟩ := List.append_inj' heq rfl
      cases heq'
      exact hlast
    · exact h before key' value' hpre

theorem run_insertions_concat (pairs : List (K × V)) (key : K) (value : V) :
    run (insertions (pairs ++ [(key, value)])) = run (insertions pairs) >>= insert key value := by
  rw [insertions, List.map_append, List.map_singleton]
  exact run_concat

theorem allAllowed_insertions (hkeys : (keys pairs).Nodup) (hmax : ∀ key ∈ keys pairs, ¬ IsMax key) :
    AllAllowed (insertions pairs) := by
  induction pairs using List.reverseRecOn with
  | nil => exact allAllowed_nil
  | append_singleton pairs pair ih =>
      rw [keys_append] at hkeys hmax
      have hrest := ih (List.nodup_append.1 hkeys).1 fun key hkey => hmax key (by simp [hkey])
      have hnew : pair.1 ∉ keys pairs := fun hmem =>
        (List.nodup_append.1 hkeys).2.2 _ hmem pair.1 (by simp [keys]) rfl
      have hop : (Operation.insert pair.1 pair.2).Allowed (history (insertions pairs)) := by
        rw [history_insertions]
        exact ⟨hnew, hmax pair.1 (by simp [keys])⟩
      rw [insertions, List.map_append]
      exact hrest.concat hop

theorem mapped_iff (hkeys : (keys pairs).Nodup) (hmax : ∀ key ∈ keys pairs, ¬ IsMax key)
    (hrun : run (insertions pairs) = .ok t) :
    (∀ key, Mapped t.inorder key ↔ key ∈ keys pairs) ↔ PredecessorsFirst pairs := by
  induction pairs using List.reverseRecOn generalizing t with
  | nil =>
      cases hrun
      refine iff_of_true (fun key => by simp [keys]) fun before key value hpre => ?_
      simp at hpre
  | append_singleton pairs pair ih =>
      obtain ⟨key, value⟩ := pair
      have hall := allAllowed_insertions hkeys hmax
      rw [keys_append] at hkeys hmax
      have hkeys' := (List.nodup_append.1 hkeys).1
      have hmax' : ∀ key ∈ keys pairs, ¬ IsMax key := fun key hkey => hmax key (by simp [hkey])
      have hnew : key ∉ keys pairs := fun hmem =>
        (List.nodup_append.1 hkeys).2.2 _ hmem key (by simp) rfl
      have hmaxKey : ¬ IsMax key := hmax key (by simp)
      obtain ⟨t₀, hrun₀, hr₀⟩ := run_represents (allAllowed_insertions hkeys' hmax')
      rw [history_insertions] at hr₀
      obtain ⟨t₁, hinsert, hins⟩ := insert_inserts value hr₀.separated (hr₀.not_mapped hnew)
      have heq : t₁ = t := by
        rw [run_insertions_concat, hrun₀, ok_bind, hinsert] at hrun
        exact Except.ok.inj hrun
      subst heq
      have hmapped := fun y => hins.mapped (y := y) hr₀.separated hmaxKey
      rw [predecessorsFirst_concat, ← ih hkeys' hmax' hrun₀]
      refine ⟨fun hexact => ?_, fun ⟨hexact, hstep⟩ y => ?_⟩
      · have hexact₀ : ∀ y, Mapped t₀.inorder y ↔ y ∈ keys pairs := fun y => by
          refine ⟨hr₀.inserted y, fun hy => ?_⟩
          have hy' := (hexact y).2 (mem_keys_insert.2 (.inl hy))
          rcases (hmapped y).1 hy' with hy' | ⟨rfl, -⟩
          · exact hy'
          · exact absurd hy hnew
        refine ⟨hexact₀, fun hsucc => ?_⟩
        have hkey := (hmapped key).1 ((hexact key).2 (mem_keys_insert.2 (.inr rfl)))
        have hnot := (hkey.resolve_left (hr₀.not_mapped hnew)).2
        rw [hr₀.prepends_iff hexact₀ hnew hmaxKey] at hnot
        by_contra hno
        exact hnot ⟨hsucc, hno⟩
      · rw [hmapped y, mem_keys_insert, hexact y]
        refine or_congr_right (and_iff_left_of_imp fun _ => ?_)
        rw [hr₀.prepends_iff hexact hnew hmaxKey]
        exact fun ⟨hsucc, hno⟩ => hno (hstep hsucc)

end

/-- The ranges of a map hold just the keys that were inserted, if and only if no key was the largest
one there is, and none was inserted right below one in the map without the key right below it being
in the map as well. -/
theorem coversExactly_iff (pairs : List (K × V)) (hkeys : (keys pairs).Nodup) :
    CoversExactly pairs ↔ (∀ key ∈ keys pairs, ¬ IsMax key) ∧ PredecessorsFirst pairs := by
  refine ⟨fun ⟨t, hrun, _, hexact, _⟩ => ?_, fun ⟨hmax, hfirst⟩ => ?_⟩
  · have hmax : ∀ key ∈ keys pairs, ¬ IsMax key := fun key hkey => by
      obtain ⟨n, -, -, hend⟩ := (hexact key).2 hkey
      exact not_isMax_of_lt hend
    exact ⟨hmax, (mapped_iff hkeys hmax hrun).1 hexact⟩
  · obtain ⟨t, hrun, hr⟩ := run_represents (allAllowed_insertions hkeys hmax)
    have hexact := (mapped_iff hkeys hmax hrun).2 hfirst
    exact ⟨t, hrun, hr.separated, hexact, fun key => (splay_mapped_iff hr.separated).trans (hexact key)⟩

/-- Keys inserted upwards. -/
theorem coversExactly_iff_upwards : (keys [((4 : Nat), 40), (5, 50)]).Nodup ∧
    (CoversExactly [((4 : Nat), 40), (5, 50)] ↔
      (∀ key ∈ keys [((4 : Nat), 40), (5, 50)], ¬ IsMax key) ∧
        PredecessorsFirst [((4 : Nat), 40), (5, 50)]) :=
  ⟨by decide, coversExactly_iff _ (by decide)⟩

/-- Inserting 5 and then 4 leaves the range of the one node at `5 ..< 6`. -/
theorem not_coversExactly_prepended : ¬ CoversExactly [((5 : Nat), 50), (4, 40)] := by
  intro ⟨t, hrun, _, hexact, _⟩
  have heq : (node ⟨5, 6, 40⟩ nil nil : Tree Nat Nat) = t := Except.ok.inj hrun
  subst heq
  have hmapped := (hexact 4).2 (by decide)
  simp [Mapped, Node.Holds] at hmapped

end SwiftKStdlib.SuccessorMap
