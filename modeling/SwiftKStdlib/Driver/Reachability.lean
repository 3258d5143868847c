import SwiftKStdlib.Driver.Loading

/-!
# What marking reaches

* `Feeds`, `Cascades` : the edges of a graph; `CascadeReach`, `Touched` : the nodes to mark and to visit;
* `Sweep` : the invariant of the loop, and between the calls with an empty worklist;
* `markTransitive_exact` : marked and visited nodes, in terms of the files that were loaded.
-/

namespace SwiftKStdlib.Driver

open Relation

namespace DependencyGraph

variable {Node : Type} [DecidableEq Node]

/-- `y` depends on something that `x` provides. -/
def Feeds (g : DependencyGraph Node) (x y : Node) : Prop :=
  ∃ p ∈ g.providesOf x, ∃ d ∈ g.entries p.name, p.kindMask ∩ d.kindMask ≠ ∅ ∧ d.node = y

/-- `y` depends on it in a cascading way. -/
def Cascades (g : DependencyGraph Node) (x y : Node) : Prop :=
  ∃ p ∈ g.providesOf x, ∃ d ∈ g.entries p.name,
    p.kindMask ∩ d.kindMask ≠ ∅ ∧ d.node = y ∧ d.isCascading = true

def CascadeReach (g : DependencyGraph Node) (starts : List Node) (y : Node) : Prop :=
  ∃ x ∈ starts, ReflTransGen g.Cascades x y

/-- Reached along a path whose edges except possibly the last one are cascading. -/
def Touched (g : DependencyGraph Node) (starts : List Node) (y : Node) : Prop :=
  ∃ x, g.CascadeReach starts x ∧ (x = y ∨ g.Feeds x y)

section Reach

variable {b : DependencyGraph Node} {starts : List Node} {x y : Node}

theorem CascadeReach.touched (h : b.CascadeReach starts y) : b.Touched starts y := ⟨y, h, .inl rfl⟩

theorem CascadeReach.of_mem (h : x ∈ starts) : b.CascadeReach starts x := ⟨x, h, .refl⟩

theorem CascadeReach.tail (h : b.CascadeReach starts x) (hxy : b.Cascades x y) : b.CascadeReach starts y := by
  obtain ⟨s, hs, hreach⟩ := h
  exact ⟨s, hs, hreach.tail hxy⟩

theorem CascadeReach.append (h : b.CascadeReach starts y) (more : List Node) :
    b.CascadeReach (starts ++ more) y := by
  obtain ⟨s, hs, hreach⟩ := h
  exact ⟨s, List.mem_append_left _ hs, hreach⟩

theorem Touched.append (h : b.Touched starts y) (more : List Node) : b.Touched (starts ++ more) y := by
  obtain ⟨x, hx, hxy⟩ := h
  exact ⟨x, hx.append more, hxy⟩

end Reach

/-- The edges of the graph `b` with the marks of another one. -/
structure SameEdges (b g : DependencyGraph Node) : Prop where
  provides : g.provides = b.provides
  entries : ∀ n, g.entries n = b.entries n

theorem SameEdges.providesOf {b g : DependencyGraph Node} (h : SameEdges b g) (x : Node) :
    g.providesOf x = b.providesOf x := by
  unfold DependencyGraph.providesOf
  rw [h.provides]

/-- A dependent of a dirty kind is marked, on the worklist, or recorded when it is not cascading. -/
def Handled (b g : DependencyGraph Node) (worklist : List (WorklistEntry Node)) (recorded : Node → Prop) :
    Prop :=
  ∀ n, ∀ k ∈ g.dirty n, ∀ d ∈ b.entries n, k ∈ d.kindMask →
    d.node ∈ g.marked ∨ ⟨d.node, d.isCascading⟩ ∈ worklist ∨ (d.isCascading = false ∧ recorded d.node)

def Expanded (b g : DependencyGraph Node) (x : Node) : Prop :=
  ∀ p ∈ b.providesOf x, b.entries p.name ≠ [] → p.kindMask ⊆ g.dirty p.name

/-- The marks of the loop, for the edges of `b`; `recorded` holds of the nodes visited so far. -/
structure Sweep (b : DependencyGraph Node) (starts : List Node) (recorded : Node → Prop)
    (g : DependencyGraph Node) (worklist : List (WorklistEntry Node)) : Prop where
  edges : SameEdges b g
  starts_marked : ∀ x ∈ starts, x ∈ g.marked
  marked_reach : ∀ y ∈ g.marked, b.CascadeReach starts y
  marked_recorded : ∀ y ∈ g.marked, y ∈ starts ∨ recorded y
  recorded_touched : ∀ y, recorded y → b.Touched starts y
  worklist_reach : ∀ e ∈ worklist, ∃ x, b.CascadeReach starts x ∧ b.Feeds x e.node ∧
    (e.isCascading = true → b.Cascades x e.node)
  expanded : ∀ x ∈ g.marked, Expanded b g x
  handled : Handled b g worklist recorded

section Rounds

variable {b g : DependencyGraph Node} {starts : List Node} {recorded : Node → Prop}
  {worklist rest : List (WorklistEntry Node)}

theorem Sweep.pop {next : WorklistEntry Node} (h : Sweep b starts recorded g (next :: rest))
    (hcascading : next.isCascading = false) {recorded' : Node → Prop}
    (hmono : ∀ y, recorded y → recorded' y) (hnew : ∀ y, recorded' y → recorded y ∨ y = next.node)
    (hnext : next.node ∈ g.marked ∨ recorded' next.node) : Sweep b starts recorded' g rest where
  edges := h.edges
  starts_marked := h.starts_marked
  marked_reach := h.marked_reach
  marked_recorded y hy := (h.marked_recorded y hy).imp_right (hmono y)
  recorded_touched y hy := by
    rcases hnew y hy with hy | rfl
    · exact h.recorded_touched y hy
    · obtain ⟨x, hx, hfeeds, -⟩ := h.worklist_reach next List.mem_cons_self
      exact ⟨x, hx, .inr hfeeds⟩
  worklist_reach e he := h.worklist_reach e (List.mem_cons_of_mem _ he)
  expanded := h.expanded
  handled n k hk d hd hkd := by
    rcases h.handled n k hk d hd hkd with hmarked | hpushed | ⟨hplain, hrecorded⟩
    · exact .inl hmarked
    · rcases List.mem_cons.1 hpushed with heq | hpushed
      · have hnode : d.node = next.node := congrArg WorklistEntry.node heq
        have hplain : d.isCascading = false := (congrArg WorklistEntry.isCascading heq).trans hcascading
        rcases hnext with hmarked | hrecorded
        · exact .inl (hnode ▸ hmarked)
        · exact .inr (.inr ⟨hplain, hnode ▸ hrecorded⟩)
      · exact .inr (.inl hpushed)
    · exact .inr (.inr ⟨hplain, hmono _ hrecorded⟩)

/-- A node is expanded and marked: the starting node, or a cascading entry. -/
theorem Sweep.expand {g' : DependencyGraph Node} {worklist' : List (WorklistEntry Node)} {next : Node}
    {starts' : List Node} {recorded' : Node → Prop}
    (hedges : SameEdges b g) (hstarts : ∀ x ∈ starts', x ∈ g.marked ∨ x = next)
    (hmarked : ∀ y ∈ g.marked, y = next ∨
      (b.CascadeReach starts' y ∧ Expanded b g y ∧ (y ∈ starts' ∨ recorded' y)))
    (hrecorded : ∀ y, recorded' y → b.Touched starts' y)
    (hnext : b.CascadeReach starts' next ∧ (next ∈ starts' ∨ recorded' next))
    (hworklist : ∀ e ∈ worklist, ∃ x, b.CascadeReach starts' x ∧ b.Feeds x e.node ∧
      (e.isCascading = true → b.Cascades x e.node))
    (hhandled : ∀ n, ∀ k ∈ g.dirty n, ∀ d ∈ b.entries n, k ∈ d.kindMask → d.node = next ∨ d.node ∈ g.marked ∨
      ⟨d.node, d.isCascading⟩ ∈ worklist ∨ (d.isCascading = false ∧ recorded' d.node))
    (hexpands : Expands g next (g.providesOf next) worklist g' worklist') :
    Sweep b starts' recorded' { g' with marked := insert next g'.marked } worklist' where
  edges := ⟨hexpands.provides.trans hedges.provides, fun n => (hexpands.entries n).trans (hedges.entries n)⟩
  starts_marked x hx := by
    rcases hstarts x hx with hx | rfl
    · exact Finset.mem_insert_of_mem (hexpands.marked.symm ▸ hx)
    · exact Finset.mem_insert_self _ _
  marked_reach y hy := by
    rcases Finset.mem_insert.1 hy with rfl | hy
    · exact hnext.1
    · rcases hmarked y (hexpands.marked ▸ hy) with rfl | hold
      · exact hnext.1
      · exact hold.1
  marked_recorded y hy := by
    rcases Finset.mem_insert.1 hy with rfl | hy
    · exact hnext.2
    · rcases hmarked y (hexpands.marked ▸ hy) with rfl | hold
      · exact hnext.2
      · exact hold.2.2
  recorded_touched := hrecorded
  worklist_reach e he := by
    rcases hexpands.origin e he with he | ⟨p, hp, d, hd, hkinds, rfl⟩
    · exact hworklist e he
    · rw [hedges.providesOf] at hp
      rw [hedges.entries] at hd
      exact ⟨next, hnext.1, ⟨p, hp, d, hd, hkinds, rfl⟩, fun hc => ⟨p, hp, d, hd, hkinds, rfl, hc⟩⟩
  expanded x hx := by
    have hself : Expanded b { g' with marked := insert next g'.marked } next := by
      intro p hp hne
      rw [← hedges.providesOf] at hp
      rw [← hedges.entries] at hne
      exact hexpands.covered p hp hne
    rcases Finset.mem_insert.1 hx with rfl | hx
    · exact hself
    · rcases hmarked x (hexpands.marked ▸ hx) with rfl | hold
      · exact hself
      · exact fun p hp hne => (hold.2.1 p hp hne).trans (hexpands.dirty_mono _)
  handled n k hk d hd hkd := by
    rcases hexpands.pushed n k hk with hk | hall
    · rcases hhandled n k hk d hd hkd with rfl | hmem | hpushed | hplain
      · exact .inl (Finset.mem_insert_self _ _)
      · exact .inl (Finset.mem_insert_of_mem (hexpands.marked.symm ▸ hmem))
      · exact .inr (.inl (hexpands.worklist_mono _ hpushed))
      · exact .inr (.inr hplain)
    · rcases hall d ((hedges.entries n).symm ▸ hd) hkd with rfl | hmem | hpushed
      · exact .inl (Finset.mem_insert_self _ _)
      · exact .inl (Finset.mem_insert_of_mem (hexpands.marked.symm ▸ hmem))
      · exact .inr (.inl hpushed)

/-- The rounds of one call. The nodes of `before` were marked before it, those of `seen` visited. -/
structure Call (b : DependencyGraph Node) (starts : List Node) (seen : Node → Prop) (before : Finset Node)
    (m : Marking Node) : Prop where
  sweep : Sweep b starts (fun y => seen y ∨ y ∈ m.visited) m.graph m.worklist
  visitedSet : ∀ y, y ∈ m.visitedSet ↔ y ∈ m.visited
  nodup : m.visited.Nodup
  fresh : ∀ y ∈ m.visited, y ∉ before
  before_marked : before ⊆ m.graph.marked

theorem Marking.record_visited {m : Marking Node} (hset : ∀ y, y ∈ m.visitedSet ↔ y ∈ m.visited)
    (hnodup : m.visited.Nodup) (next : Node) :
    (∀ y, y ∈ (m.record next).visited ↔ y ∈ m.visited ∨ y = next) ∧
      (∀ y, y ∈ (m.record next).visitedSet ↔ y ∈ (m.record next).visited) ∧
      (m.record next).visited.Nodup := by
  unfold record
  split_ifs with hmem
  · refine ⟨fun y => ⟨fun hy => .inl hy, ?_⟩, hset, hnodup⟩
    rintro (hy | rfl)
    · exact hy
    · exact (hset _).1 hmem
  · refine ⟨fun y => ?_, fun y => ?_, ?_⟩
    · rw [List.mem_append, List.mem_singleton]
    · rw [Finset.mem_insert, List.mem_append, List.mem_singleton, hset, or_comm]
    · refine List.Nodup.append hnodup (List.nodup_singleton _) ?_
      rw [List.disjoint_singleton]
      exact fun hin => hmem ((hset _).2 hin)

theorem Call.round {seen : Node → Prop} {before : Finset Node} {m m' : Marking Node}
    {next : WorklistEntry Node} (hworklist : m.worklist = next :: rest) (h : Call b starts seen before m)
    (hround : Marking.Round m next rest m') : Call b starts seen before m' := by
  -- first the list of visited nodes
  have hrecord := Marking.record_visited h.visitedSet h.nodup next.node
  have hvisited : (∀ y, y ∈ m.visited → y ∈ m'.visited) ∧
      (∀ y, y ∈ m'.visited → y ∈ m.visited ∨ (y = next.node ∧ next.node ∉ m.graph.marked)) ∧
      (next.node ∈ m.graph.marked ∨ next.node ∈ m'.visited) ∧
      (∀ y, y ∈ m'.visitedSet ↔ y ∈ m'.visited) ∧ m'.visited.Nodup := by
    rcases hround.visited with ⟨hmarked, hsame, hsame'⟩ | ⟨hmarked, hsame, hsame'⟩
    · rw [hsame, hsame']
      exact ⟨fun _ hy => hy, fun _ hy => .inl hy, .inl hmarked, h.visitedSet, h.nodup⟩
    · rw [hsame, hsame']
      refine ⟨fun y hy => (hrecord.1 y).2 (.inl hy), fun y hy => ?_, .inr ((hrecord.1 _).2 (.inr rfl)),
        hrecord.2⟩
      exact ((hrecord.1 y).1 hy).imp_right fun heq => ⟨heq, hmarked⟩
  obtain ⟨hmono, hnew, hnext, hset, hnodup⟩ := hvisited
  have hfresh : ∀ y ∈ m'.visited, y ∉ before := by
    intro y hy
    rcases hnew y hy with hy | ⟨rfl, hunmarked⟩
    · exact h.fresh y hy
    · exact fun hmem => hunmarked (h.before_marked hmem)
  have hsweep := h.sweep
  rw [hworklist] at hsweep
  obtain ⟨x, hx, hfeeds, hedge⟩ := hsweep.worklist_reach next List.mem_cons_self
  have hseen : ∀ y, (seen y ∨ y ∈ m.visited) → seen y ∨ y ∈ m'.visited := fun y hy => hy.imp_right (hmono y)
  -- then the graph
  rcases hround.graph with ⟨hcascading, hgraph, hrest⟩ | ⟨hcascading, g', hexpands, hgraph⟩
  · refine ⟨?_, hset, hnodup, hfresh, hgraph ▸ h.before_marked⟩
    rw [hgraph, hrest]
    exact hsweep.pop hcascading hseen
      (fun y hy => hy.elim (fun hy => .inl (.inl hy)) fun hy => (hnew y hy).imp .inr And.left)
      (hnext.imp_right .inr)
  · have hreach := hx.tail (hedge hcascading)
    refine ⟨?_, hset, hnodup, hfresh, ?_⟩
    · rw [hgraph]
      refine Sweep.expand hsweep.edges (fun x hx => .inl (hsweep.starts_marked x hx)) (fun y hy => .inr ?_) ?_
        ⟨hreach, ?_⟩ (fun e he => hsweep.worklist_reach e (List.mem_cons_of_mem _ he)) ?_ hexpands
      · exact ⟨hsweep.marked_reach y hy, hsweep.expanded y hy,
          (hsweep.marked_recorded y hy).imp_right (hseen y)⟩
      · rintro y (hy | hy)
        · exact hsweep.recorded_touched y (.inl hy)
        · rcases hnew y hy with hy | ⟨rfl, -⟩
          · exact hsweep.recorded_touched y (.inr hy)
          · exact hreach.touched
      · rcases hnext with hmarked | hin
        · exact (hsweep.marked_recorded _ hmarked).imp_right (hseen _)
        · exact .inr (.inr hin)
      · intro n k hk d hd hkd
        rcases hsweep.handled n k hk d hd hkd with hmem | hpushed | ⟨hplain, hrecorded⟩
        · exact .inr (.inl hmem)
        · rcases List.mem_cons.1 hpushed with heq | hpushed
          · exact .inl (congrArg WorklistEntry.node heq)
          · exact .inr (.inr (.inl hpushed))
        · exact .inr (.inr (.inr ⟨hplain, hseen _ hrecorded⟩))
    · rw [hgraph]
      intro y hy
      exact Finset.mem_insert_of_mem (hexpands.marked.symm ▸ h.before_marked hy)

theorem Sweep.markTransitive {seen : Node → Prop} (h : Sweep b starts seen g []) (node : Node) :
    Sweep b (starts ++ [node]) (fun y => seen y ∨ y ∈ (g.markTransitive [] node).2)
        (g.markTransitive [] node).1 [] ∧
      (g.markTransitive [] node).2.Nodup ∧ ∀ y ∈ (g.markTransitive [] node).2, y ∉ g.marked := by
  have hexpands := addDependents_expands (g.markIntransitive node).1 node []
  have hnode : node ∈ starts ++ [node] := List.mem_append_right _ (List.mem_singleton_self _)
  have hedges : SameEdges b (g.markIntransitive node).1 := ⟨h.edges.provides, h.edges.entries⟩
  have hmarked : ∀ y, y ∈ (g.markIntransitive node).1.marked ↔ y = node ∨ y ∈ g.marked := fun y =>
    Finset.mem_insert
  have hsame : { ((g.markIntransitive node).1.addDependentsToWorklist node []).1 with
      marked := insert node ((g.markIntransitive node).1.addDependentsToWorklist node []).1.marked } =
      ((g.markIntransitive node).1.addDependentsToWorklist node []).1 := by
    rw [Finset.insert_eq_of_mem (hexpands.marked ▸ (hmarked node).2 (.inl rfl))]
  have hstart : Call b (starts ++ [node]) seen g.marked (Marking.start g [] node) := by
    refine ⟨?_, fun y => ?_, List.nodup_nil, fun y hy => absurd hy List.not_mem_nil, fun y hy => ?_⟩
    · change Sweep b (starts ++ [node]) (fun y => seen y ∨ y ∈ ([] : List Node))
        ((g.markIntransitive node).1.addDependentsToWorklist node []).1 _
      rw [← hsame]
      refine Sweep.expand hedges (fun x hx => ?_) (fun y hy => ?_) (fun y hy => ?_) ⟨CascadeReach.of_mem hnode, .inl hnode⟩
        (fun e he => absurd he List.not_mem_nil) (fun n k hk d hd hkd => ?_) hexpands
      · rcases List.mem_append.1 hx with hx | hx
        · exact .inl ((hmarked x).2 (.inr (h.starts_marked x hx)))
        · exact .inr (List.mem_singleton.1 hx)
      · refine ((hmarked y).1 hy).imp_right fun hy => ⟨(h.marked_reach y hy).append _, h.expanded y hy, ?_⟩
        exact (h.marked_recorded y hy).imp (List.mem_append_left _) .inl
      · rcases hy with hy | hy
        · exact (h.recorded_touched y hy).append _
        · exact absurd hy List.not_mem_nil
      · rcases h.handled n k hk d hd hkd with hmem | hpushed | ⟨hplain, hseen⟩
        · exact .inr (.inl ((hmarked _).2 (.inr hmem)))
        · exact absurd hpushed List.not_mem_nil
        · exact .inr (.inr (.inr ⟨hplain, .inl hseen⟩))
    · exact iff_of_false (Finset.notMem_empty y) List.not_mem_nil
    · have hmem := (hmarked y).2 (.inr hy)
      rw [← hexpands.marked] at hmem
      exact hmem
  obtain ⟨hcall, hnil⟩ := Marking.run_induct (fun m next rest m' hcons hm hround => hm.round hcons hround)
    _ hstart
  have hsweep := hcall.sweep
  rw [hnil] at hsweep
  exact ⟨hsweep, hcall.nodup, hcall.fresh⟩

theorem Sweep.closed (h : Sweep b starts recorded g []) {x y : Node} (hx : x ∈ g.marked) :
    (b.Cascades x y → y ∈ g.marked) ∧ (b.Feeds x y → y ∈ g.marked ∨ recorded y) := by
  have hhandled : ∀ p ∈ b.providesOf x, ∀ d ∈ b.entries p.name, p.kindMask ∩ d.kindMask ≠ ∅ →
      d.node ∈ g.marked ∨ (d.isCascading = false ∧ recorded d.node) := by
    intro p hp d hd hkinds
    obtain ⟨k, hk⟩ := Finset.nonempty_iff_ne_empty.2 hkinds
    obtain ⟨hkp, hkd⟩ := Finset.mem_inter.1 hk
    have hdirty := h.expanded x hx p hp (List.ne_nil_of_mem hd) hkp
    rcases h.handled p.name k hdirty d hd hkd with hmarked | hpushed | hplain
    · exact .inl hmarked
    · exact absurd hpushed List.not_mem_nil
    · exact .inr hplain
  constructor
  · rintro ⟨p, hp, d, hd, hkinds, rfl, hcascading⟩
    rcases hhandled p hp d hd hkinds with hmarked | ⟨hplain, -⟩
    · exact hmarked
    · exact absurd (hplain.symm.trans hcascading) Bool.false_ne_true
  · rintro ⟨p, hp, d, hd, hkinds, rfl⟩
    exact (hhandled p hp d hd hkinds).imp_right And.right

theorem Sweep.marked_iff (h : Sweep b starts recorded g []) (y : Node) :
    y ∈ g.marked ↔ b.CascadeReach starts y := by
  refine ⟨h.marked_reach y, ?_⟩
  rintro ⟨x, hx, hreach⟩
  induction hreach with
  | refl => exact h.starts_marked x hx
  | tail _ hedge ih => exact (h.closed ih).1 hedge

theorem Sweep.touched_iff (h : Sweep b starts recorded g []) (y : Node) :
    (y ∈ starts ∨ recorded y) ↔ b.Touched starts y := by
  constructor
  · rintro (hy | hy)
    · exact (CascadeReach.of_mem hy).touched
    · exact h.recorded_touched y hy
  · rintro ⟨x, hx, hxy⟩
    have hmarked := (h.marked_iff x).2 hx
    rcases hxy with rfl | hfeeds
    · exact h.marked_recorded x hmarked
    · rcases (h.closed hmarked).2 hfeeds with hy | hy
      · exact h.marked_recorded y hy
      · exact .inr hy

end Rounds

/-! ## In terms of the files -/

section Files

abbrev Loads (Node : Type) := List (Node × Option Yaml)

def loadAll (loads : Loads Node) : DependencyGraph Node :=
  loads.foldl (fun g load => (g.loadFromBuffer load.1 load.2).1) empty

def Loads.Provides (loads : Loads Node) (x : Node) (n : String) (k : DependencyKind) : Prop :=
  ∃ load ∈ loads, x = load.1 ∧ ∃ c, .provides n k c ∈ (DependencyFile.parseDependencyFile load.2).1

def Loads.Depends (loads : Loads Node) (y : Node) (n : String) (k : DependencyKind) (c : Bool) : Prop :=
  ∃ load ∈ loads, y = load.1 ∧ .depends n k c ∈ (DependencyFile.parseDependencyFile load.2).1

/-- `y` depends on `x` through some name. -/
def Loads.Edge (loads : Loads Node) (x y : Node) : Prop :=
  ∃ n k c, loads.Provides x n k ∧ loads.Depends y n k c

/-- `y` depends on `x` through a name that it depends on in a cascading way. -/
def Loads.CascadingEdge (loads : Loads Node) (x y : Node) : Prop :=
  ∃ n k c k', loads.Provides x n k ∧ loads.Depends y n k c ∧ loads.Depends y n k' true

theorem records_loadAll (loads : Loads Node) : Records (loadAll loads) loads.Provides loads.Depends ∧
    (loadAll loads).marked = ∅ ∧ ∀ n, (loadAll loads).dirty n = ∅ := by
  induction loads using List.reverseRecOn with
  | nil =>
    refine ⟨?_, rfl, fun _ => rfl⟩
    have hempty : Records (loadAll ([] : Loads Node)) (fun _ _ _ => False) fun _ _ _ _ => False :=
      records_empty
    unfold Loads.Provides Loads.Depends
    simpa using hempty
  | append_singleton loads load ih =>
    obtain ⟨hrecords, hmarked, hdirty⟩ := ih
    have hload : loadAll (loads ++ [load]) = ((loadAll loads).loadFromBuffer load.1 load.2).1 := by
      unfold loadAll
      rw [List.foldl_append, List.foldl_cons, List.foldl_nil]
    obtain ⟨hmarked', hdirty'⟩ := loadFromBuffer_keeps (loadAll loads) load.1 load.2
    rw [hload]
    refine ⟨?_, hmarked'.trans hmarked, fun n => (hdirty' n).trans (hdirty n)⟩
    have hnew := hrecords.loadFromBuffer load.1 load.2
    unfold Loads.Provides Loads.Depends at hnew ⊢
    simpa only [List.mem_append, List.mem_singleton, or_and_right, exists_or, exists_eq_left] using hnew

theorem feeds_loadAll (loads : Loads Node) (x y : Node) :
    (loadAll loads).Feeds x y ↔ loads.Edge x y := by
  have h := (records_loadAll loads).1
  constructor
  · rintro ⟨p, hp, d, hd, hkinds, rfl⟩
    obtain ⟨k, hk⟩ := Finset.nonempty_iff_ne_empty.2 hkinds
    obtain ⟨hkp, hkd⟩ := Finset.mem_inter.1 hk
    obtain ⟨c, hc⟩ := (h.kinds_iff d.node p.name k).1 ⟨d, hd, rfl, hkd⟩
    exact ⟨p.name, k, c, (h.provides_iff x p.name k).1 ⟨p, hp, rfl, hkp⟩, hc⟩
  · rintro ⟨n, k, c, hprovides, hdepends⟩
    obtain ⟨p, hp, rfl, hkp⟩ := (h.provides_iff x n k).2 hprovides
    obtain ⟨d, hd, hnode, hkd⟩ := (h.kinds_iff y p.name k).2 ⟨c, hdepends⟩
    exact ⟨p, hp, d, hd, Finset.ne_empty_of_mem (Finset.mem_inter.2 ⟨hkp, hkd⟩), hnode⟩

theorem cascades_loadAll (loads : Loads Node) (x y : Node) :
    (loadAll loads).Cascades x y ↔ loads.CascadingEdge x y := by
  have h := (records_loadAll loads).1
  constructor
  · rintro ⟨p, hp, d, hd, hkinds, rfl, hflag⟩
    obtain ⟨k, hk⟩ := Finset.nonempty_iff_ne_empty.2 hkinds
    obtain ⟨hkp, hkd⟩ := Finset.mem_inter.1 hk
    obtain ⟨c, hc⟩ := (h.kinds_iff d.node p.name k).1 ⟨d, hd, rfl, hkd⟩
    obtain ⟨k', hk'⟩ := (h.cascading_iff d.node p.name).1 ⟨d, hd, rfl, hflag⟩
    exact ⟨p.name, k, c, k', (h.provides_iff x p.name k).1 ⟨p, hp, rfl, hkp⟩, hc, hk'⟩
  · rintro ⟨n, k, c, k', hprovides, hdepends, hcascading⟩
    obtain ⟨p, hp, rfl, hkp⟩ := (h.provides_iff x n k).2 hprovides
    obtain ⟨d, hd, hnode, hkd, hflag⟩ := h.entry hdepends hcascading
    exact ⟨p, hp, d, hd, Finset.ne_empty_of_mem (Finset.mem_inter.2 ⟨hkp, hkd⟩), hnode, hflag⟩

/-- The graph after some calls of `markTransitive`, with the list that each call visited. -/
structure Session (Node : Type) where
  graph : DependencyGraph Node
  visited : List (List Node)

def Session.mark (s : Session Node) (node : Node) : Session Node :=
  let (graph, visited) := s.graph.markTransitive [] node
  ⟨graph, s.visited ++ [visited]⟩

def markAll (loads : Loads Node) (starts : List Node) : Session Node :=
  starts.foldl Session.mark ⟨loadAll loads, []⟩

theorem sweep_markAll (loads : Loads Node) (starts : List Node) :
    Sweep (loadAll loads) starts (fun y => ∃ v ∈ (markAll loads starts).visited, y ∈ v)
      (markAll loads starts).graph [] := by
  induction starts using List.reverseRecOn with
  | nil =>
    obtain ⟨-, hmarked, hdirty⟩ := records_loadAll loads
    have hnone : ∀ y, y ∉ (loadAll loads).marked := fun y hy => by
      rw [hmarked] at hy
      exact Finset.notMem_empty y hy
    refine ⟨⟨rfl, fun _ => rfl⟩, fun x hx => absurd hx List.not_mem_nil, fun y hy => absurd hy (hnone y),
      fun y hy => absurd hy (hnone y), fun y ⟨v, hv, _⟩ => absurd hv List.not_mem_nil,
      fun e he => absurd he List.not_mem_nil, fun x hx => absurd hx (hnone x), fun n k hk => ?_⟩
    change k ∈ (loadAll loads).dirty n at hk
    rw [hdirty] at hk
    exact absurd hk (Finset.notMem_empty k)
  | append_singleton starts node ih =>
    have hmark : markAll loads (starts ++ [node]) = (markAll loads starts).mark node := by
      unfold markAll
      rw [List.foldl_append, List.foldl_cons, List.foldl_nil]
    have hnext := (ih.markTransitive node).1
    rw [hmark]
    have hseen : (fun y => ∃ v ∈ ((markAll loads starts).mark node).visited, y ∈ v) = fun y =>
        (∃ v ∈ (markAll loads starts).visited, y ∈ v) ∨
          y ∈ ((markAll loads starts).graph.markTransitive [] node).2 := by
      funext y
      unfold Session.mark
      simp only [List.mem_append, List.mem_singleton, or_and_right, exists_or, exists_eq_left]
    rw [hseen]
    exact hnext

/-- After any loads and calls of `markTransitive`, one more call: what is marked, what was visited in all
calls, the list of this call, and the rounds that it takes. -/
theorem markTransitive_exact (loads : Loads Node) (starts : List Node) (node : Node) :
    let s := markAll loads starts
    let r := s.graph.markTransitive [] node
    (∀ y, y ∈ r.1.marked ↔ ∃ x ∈ starts ++ [node], ReflTransGen loads.CascadingEdge x y) ∧
    (∀ y, (y ∈ starts ++ [node] ∨ (∃ v ∈ s.visited, y ∈ v) ∨ y ∈ r.2) ↔
      ∃ x ∈ starts ++ [node], ∃ z, ReflTransGen loads.CascadingEdge x z ∧ (z = y ∨ loads.Edge z y)) ∧
    r.2.Nodup ∧ (∀ y ∈ r.2, y ∉ s.graph.marked) ∧
    ∃ n, (Marking.step^[n] (Marking.start s.graph [] node)).worklist = [] ∧
      r = ((Marking.step^[n] (Marking.start s.graph [] node)).graph,
        (Marking.step^[n] (Marking.start s.graph [] node)).visited) := by
  intro s r
  have hcascades : (loadAll loads).Cascades = loads.CascadingEdge := by
    funext x y
    exact propext (cascades_loadAll loads x y)
  have hfeeds : (loadAll loads).Feeds = loads.Edge := by
    funext x y
    exact propext (feeds_loadAll loads x y)
  obtain ⟨hsweep, hnodup, hfresh⟩ := (sweep_markAll loads starts).markTransitive node
  refine ⟨fun y => ?_, fun y => ?_, hnodup, hfresh, ?_⟩
  · rw [hsweep.marked_iff y, CascadeReach, hcascades]
  · rw [hsweep.touched_iff y]
    unfold Touched CascadeReach
    rw [hcascades, hfeeds]
    constructor
    · rintro ⟨z, ⟨x, hx, hreach⟩, hlast⟩
      exact ⟨x, hx, z, hreach, hlast⟩
    · rintro ⟨x, hx, z, hreach, hlast⟩
      exact ⟨z, ⟨x, hx, hreach⟩, hlast⟩
  · obtain ⟨n, hrun, hnil⟩ := Marking.run_eq_iterate (Marking.start s.graph [] node)
    refine ⟨n, hnil, ?_⟩
    rw [← hrun]
    rfl

end Files

end DependencyGraph

end SwiftKStdlib.Driver
