import SwiftKStdlib.Driver.Reachability
import SwiftKStdlib.Driver.Reloading

/-!
# What is left of earlier loads

* `Op.LastLoad` : the last file of a node; `Op.Provides`, `Op.Depends` : what all its files say;
* `records_run` : the graph records all files, whatever is marked in between;
* `markTransitive_visited` : what one call visits is reached from its node;
* `AsDocumented` : provided names are replaced, dependencies are added; `asDocumented_iff` : when it is so.
-/

namespace SwiftKStdlib.Driver

open Relation

namespace DependencyGraph

variable {Node : Type} [DecidableEq Node]

/-! ## All files of a run -/

def Op.Provides (ops : List (Op Node)) (x : Node) (n : String) (k : DependencyKind) : Prop :=
  ∃ root, .load x root ∈ ops ∧ ∃ c, .provides n k c ∈ (DependencyFile.parseDependencyFile root).1

def Op.LastLoad (ops : List (Op Node)) (x : Node) (root : Option Yaml) : Prop :=
  ∃ before after, ops = before ++ .load x root :: after ∧ ∀ root', .load x root' ∉ after

omit [DecidableEq Node] in
theorem Op.LastLoad.mem {ops : List (Op Node)} {x : Node} {root : Option Yaml} (h : LastLoad ops x root) :
    .load x root ∈ ops := by
  obtain ⟨before, after, rfl, -⟩ := h
  exact List.mem_append_right _ List.mem_cons_self

omit [DecidableEq Node] in
theorem Op.LastLoad.eq (ops : List (Op Node)) {x : Node} {root root' : Option Yaml}
    (h : LastLoad (ops ++ [.load x root]) x root') : root' = root := by
  obtain ⟨before, after, hsplit, hafter⟩ := h
  rcases List.eq_nil_or_concat after with rfl | ⟨after, op, rfl⟩
  · have hlast := (List.append_inj' hsplit rfl).2
    exact ((Op.load.inj (List.cons.inj hlast).1).2).symm
  · rw [List.concat_eq_append, ← List.cons_append, ← List.append_assoc] at hsplit
    have hlast := (List.append_inj' hsplit rfl).2
    refine absurd ?_ (hafter root)
    rw [(List.cons.inj hlast).1, List.concat_eq_append]
    exact List.mem_append_right _ (List.mem_singleton_self _)

section Records

variable {s : Build Node} {provided : Node → String → DependencyKind → Prop}
  {depended : Node → String → DependencyKind → Bool → Prop}

omit [DecidableEq Node] in
theorem guarded_of_all (g : DependencyGraph Node) :
    Guarded g depended [] fun _ => True := fun _ _ _ _ _ => .inr (.inr trivial)

theorem Records.mark (h : Records s.graph provided depended) (op : Op Node)
    (hop : ∀ node root, op ≠ .load node root) : Records (s.step op).graph provided depended := by
  cases op with
  | load node root => exact absurd rfl (hop node root)
  | addIndependentNode node =>
    refine h.of_same (fun x => ?_) fun _ => rfl
    change providesOf { s.graph with provides := _ } x = _
    rw [providesOf_insert]
    split_ifs with hx
    · rw [hx]
    · rfl
  | markIntransitive node => exact h.of_same (fun _ => rfl) fun _ => rfl
  | markTransitive node =>
    have hguarded : Guarded s.graph depended [] fun y => True ∨ y = node :=
      fun _ _ _ _ _ => .inr (.inr (.inl trivial))
    exact (markTransitive_guarded h hguarded []).1
  | markExternal external => exact (markExternal_guarded h (guarded_of_all _) [] external).1

theorem records_run (ops : List (Op Node)) :
    Records (Build.empty.run ops).graph (Op.Provides ops) (Op.Depends ops) := by
  induction ops using List.reverseRecOn with
  | nil =>
    have hempty : Records (Build.empty.run ([] : List (Op Node))).graph (fun _ _ _ => False)
        fun _ _ _ _ => False := records_empty
    unfold Op.Provides Op.Depends
    simpa using hempty
  | append_singleton ops op ih =>
    have hrun : Build.empty.run (ops ++ [op]) = (Build.empty.run ops).step op := by
      unfold Build.run
      rw [List.foldl_append, List.foldl_cons, List.foldl_nil]
    rw [hrun]
    by_cases hload : ∃ node root, op = .load node root
    · obtain ⟨node, root, rfl⟩ := hload
      have hnew := ih.loadFromBuffer node root
      unfold Op.Provides Op.Depends at hnew ⊢
      simp only [List.mem_append, List.mem_singleton, Op.load.injEq, or_and_right, exists_or, and_assoc,
        exists_eq_left, exists_and_left]
      exact hnew
    · have hmark := ih.mark op fun node root heq => hload ⟨node, root, heq⟩
      unfold Op.Provides Op.Depends at hmark ⊢
      have hnone : ∀ x root, .load x root ∈ ops ++ [op] ↔ .load x root ∈ ops := by
        intro x root
        rw [List.mem_append, List.mem_singleton, or_iff_left]
        exact fun heq => hload ⟨x, root, heq.symm⟩
      simpa only [hnone] using hmark

end Records

/-! ## What one call visits -/

/-- The rounds of one call that started at `node`, in the edges of `b`. -/
structure Reaches (b : DependencyGraph Node) (node : Node) (m : Marking Node) : Prop where
  edges : SameEdges b m.graph
  worklist : ∀ e ∈ m.worklist, ∃ z, ReflTransGen b.Cascades node z ∧ b.Feeds z e.node ∧
    (e.isCascading = true → b.Cascades z e.node)
  visited : ∀ y ∈ m.visited, ∃ z, ReflTransGen b.Cascades node z ∧ b.Feeds z y

section Reaches

variable {b : DependencyGraph Node} {node : Node}

omit [DecidableEq Node] in
theorem SameEdges.expands {g g' : DependencyGraph Node} {next : Node} {ps : List ProvidesEntry}
    {w w' : List (WorklistEntry Node)} (h : SameEdges b g) (hexpands : Expands g next ps w g' w')
    (marked : Finset Node) : SameEdges b { g' with marked } :=
  ⟨hexpands.provides.trans h.provides, fun n => (hexpands.entries n).trans (h.entries n)⟩

theorem SameEdges.origin {g g' : DependencyGraph Node} {next : Node} {w w' : List (WorklistEntry Node)}
    (h : SameEdges b g) (hexpands : Expands g next (g.providesOf next) w g' w') {e : WorklistEntry Node}
    (he : e ∈ w') : e ∈ w ∨ b.Feeds next e.node ∧ (e.isCascading = true → b.Cascades next e.node) := by
  rcases hexpands.origin e he with he | ⟨p, hp, d, hd, hkinds, rfl⟩
  · exact .inl he
  · rw [h.providesOf] at hp
    rw [h.entries] at hd
    exact .inr ⟨⟨p, hp, d, hd, hkinds, rfl⟩, fun hflag => ⟨p, hp, d, hd, hkinds, rfl, hflag⟩⟩

theorem Reaches.round {m m' : Marking Node} {next : WorklistEntry Node} {rest : List (WorklistEntry Node)}
    (hworklist : m.worklist = next :: rest) (h : Reaches b node m) (hround : Marking.Round m next rest m') :
    Reaches b node m' := by
  obtain ⟨z, hz, hfeeds, hcascades⟩ := h.worklist next (hworklist ▸ List.mem_cons_self)
  have hrest : ∀ e ∈ rest, e ∈ m.worklist := fun e he => hworklist ▸ List.mem_cons_of_mem _ he
  have hvisited : ∀ y ∈ m'.visited, y ∈ m.visited ∨ y = next.node := by
    intro y hy
    rcases hround.visited with ⟨-, hsame, -⟩ | ⟨-, hsame, -⟩
    · exact .inl (hsame ▸ hy)
    · rw [hsame] at hy
      unfold Marking.record at hy
      split_ifs at hy
      · exact .inl hy
      · exact (List.mem_append.1 hy).imp_right List.mem_singleton.1
  have hreached : ∀ y ∈ m'.visited, ∃ z, ReflTransGen b.Cascades node z ∧ b.Feeds z y := by
    intro y hy
    rcases hvisited y hy with hy | rfl
    · exact h.visited y hy
    · exact ⟨z, hz, hfeeds⟩
  rcases hround.graph with ⟨-, hgraph, hw⟩ | ⟨hflag, g', hexpands, hgraph⟩
  · exact ⟨hgraph ▸ h.edges, fun e he => h.worklist e (hrest e (hw ▸ he)), hreached⟩
  · refine ⟨hgraph ▸ h.edges.expands hexpands _, fun e he => ?_, hreached⟩
    rcases h.edges.origin hexpands he with he | hnew
    · exact h.worklist e (hrest e he)
    · exact ⟨next.node, hz.tail (hcascades hflag), hnew⟩

theorem markTransitive_visited (g : DependencyGraph Node) (node : Node) {y : Node}
    (hy : y ∈ (g.markTransitive [] node).2) : ∃ z, ReflTransGen g.Cascades node z ∧ g.Feeds z y := by
  have hexpands := addDependents_expands (g.markIntransitive node).1 node []
  have hedges : SameEdges g (g.markIntransitive node).1 := ⟨rfl, fun _ => rfl⟩
  have hstart : Reaches g node (Marking.start g [] node) := by
    refine ⟨hedges.expands hexpands _, fun e he => ?_, fun y hy => absurd hy List.not_mem_nil⟩
    rcases hedges.origin hexpands he with he | hnew
    · exact absurd he List.not_mem_nil
    · exact ⟨node, .refl, hnew⟩
  have hrun := Marking.run_induct (fun m next rest m' hcons hm hround => hm.round hcons hround) _ hstart
  exact hrun.1.visited y hy

end Reaches

/-! ## Replaced names -/

def Op.LastProvides (ops : List (Op Node)) (x : Node) (n : String) (k : DependencyKind) : Prop :=
  ∃ root, LastLoad ops x root ∧ ∃ c, .provides n k c ∈ (DependencyFile.parseDependencyFile root).1

/-- `y` depends on something that the last file of `x` provides. -/
def Op.Edge (ops : List (Op Node)) (x y : Node) : Prop :=
  ∃ n k c, LastProvides ops x n k ∧ Depends ops y n k c

def Op.CascadingEdge (ops : List (Op Node)) (x y : Node) : Prop :=
  ∃ n k c k', LastProvides ops x n k ∧ Depends ops y n k c ∧ Depends ops y n k' true

structure AsDocumented (ops : List (Op Node)) : Prop where
  /-- The outgoing edges are those of the last file. -/
  outgoing : ∀ x n k, (∃ p ∈ (Build.empty.run ops).graph.providesOf x, p.name = n ∧ k ∈ p.kindMask) ↔
    Op.LastProvides ops x n k
  /-- The incoming edges are those of all files. -/
  incoming : ∀ y n k, (∃ d ∈ (Build.empty.run ops).graph.entries n, d.node = y ∧ k ∈ d.kindMask) ↔
    ∃ c, Op.Depends ops y n k c
  cascading : ∀ y n, (∃ d ∈ (Build.empty.run ops).graph.entries n, d.node = y ∧ d.isCascading = true) ↔
    ∃ k, Op.Depends ops y n k true
  /-- What is marked from a node is reached through names that are still provided. -/
  reached : ∀ node, ∀ y ∈ ((Build.empty.run ops).graph.markTransitive [] node).2,
    ∃ z, ReflTransGen (Op.CascadingEdge ops) node z ∧ Op.Edge ops z y

omit [DecidableEq Node] in
theorem Op.LastProvides.provides {ops : List (Op Node)} {x : Node} {n : String} {k : DependencyKind}
    (h : LastProvides ops x n k) : Provides ops x n k := by
  obtain ⟨root, hlast, hcall⟩ := h
  exact ⟨root, hlast.mem, hcall⟩

section Edges

variable {g : DependencyGraph Node} {provided : Node → String → DependencyKind → Prop}
  {depended : Node → String → DependencyKind → Bool → Prop} {x y : Node}

theorem Records.feeds (h : Records g provided depended) (hfeeds : g.Feeds x y) :
    ∃ n k c, provided x n k ∧ depended y n k c := by
  obtain ⟨p, hp, d, hd, hkinds, rfl⟩ := hfeeds
  obtain ⟨k, hk⟩ := Finset.nonempty_iff_ne_empty.2 hkinds
  obtain ⟨hkp, hkd⟩ := Finset.mem_inter.1 hk
  obtain ⟨c, hc⟩ := (h.kinds_iff d.node p.name k).1 ⟨d, hd, rfl, hkd⟩
  exact ⟨p.name, k, c, (h.provides_iff x p.name k).1 ⟨p, hp, rfl, hkp⟩, hc⟩

theorem Records.cascades (h : Records g provided depended) (hcascades : g.Cascades x y) :
    ∃ n k c k', provided x n k ∧ depended y n k c ∧ depended y n k' true := by
  obtain ⟨p, hp, d, hd, hkinds, rfl, hflag⟩ := hcascades
  obtain ⟨k, hk⟩ := Finset.nonempty_iff_ne_empty.2 hkinds
  obtain ⟨hkp, hkd⟩ := Finset.mem_inter.1 hk
  obtain ⟨c, hc⟩ := (h.kinds_iff d.node p.name k).1 ⟨d, hd, rfl, hkd⟩
  obtain ⟨k', hk'⟩ := (h.cascading_iff d.node p.name).1 ⟨d, hd, rfl, hflag⟩
  exact ⟨p.name, k, c, k', (h.provides_iff x p.name k).1 ⟨p, hp, rfl, hkp⟩, hc, hk'⟩

end Edges

/-- The graph is as documented exactly when each node still provides, in its last file, all that it ever
provided: a load clears nothing. -/
theorem asDocumented_iff (ops : List (Op Node)) :
    AsDocumented ops ↔ ∀ x n k, Op.Provides ops x n k → Op.LastProvides ops x n k := by
  have hrecords := records_run ops
  constructor
  · intro h x n k hprovides
    exact (h.outgoing x n k).1 ((hrecords.provides_iff x n k).2 hprovides)
  · intro hlast
    have hsame : Op.Provides ops = Op.LastProvides ops := by
      funext x n k
      exact propext ⟨hlast x n k, Op.LastProvides.provides⟩
    rw [hsame] at hrecords
    refine ⟨hrecords.provides_iff, hrecords.kinds_iff, hrecords.cascading_iff, fun node y hy => ?_⟩
    obtain ⟨z, hz, hfeeds⟩ := markTransitive_visited _ node hy
    exact ⟨z, hz.lift id fun _ _ hcascades => hrecords.cascades hcascades, hrecords.feeds hfeeds⟩

/-- Node 0 provides `a` and then `b` only; node 1 depends on `a`. -/
def renamed : List (Op Nat) :=
  [.load 0 (some (.mapping [(.scalar "" "provides-top-level", .sequence "" [.scalar "" "a"])])),
    .load 1 (some (.mapping [(.scalar "" "depends-top-level", .sequence "" [.scalar "" "a"])])),
    .load 0 (some (.mapping [(.scalar "" "provides-top-level", .sequence "" [.scalar "" "b"])]))]

/-- Node 0 still provides `a`. -/
theorem not_asDocumented_renamed : ¬ ∀ ops : List (Op Nat), AsDocumented ops := by
  intro hclaim
  have hprovides : Op.Provides renamed 0 "a" .topLevelName := ⟨_, List.mem_cons_self, true, by decide⟩
  have hlast := (hclaim renamed).outgoing 0 "a" .topLevelName
  obtain ⟨root, hload, c, hcall⟩ := hlast.1 (((records_run renamed).provides_iff _ _ _).2 hprovides)
  have hroot := Op.LastLoad.eq (renamed.take 2) hload
  revert hcall
  rw [hroot]
  revert c
  decide

end DependencyGraph

end SwiftKStdlib.Driver
