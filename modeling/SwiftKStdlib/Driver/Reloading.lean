import SwiftKStdlib.Driver.Loading

/-!
# Reloading while marking

* `Op`, `Build` : the operations of the driver, and the loads that wait for `markTransitive`;
* `Guarded` : a cascading dependent of something dirty is marked, on the worklist, or waits;
* `dirty_dependents_marked` : no dependent is missed in any run.
-/

namespace SwiftKStdlib.Driver

namespace DependencyGraph

variable {Node : Type} [DecidableEq Node]

/-- Every node with a cascading dependency on a dirty kind is marked, is on the worklist, or `waits`. -/
def Guarded (g : DependencyGraph Node) (depended : Node → String → DependencyKind → Bool → Prop)
    (worklist : List (WorklistEntry Node)) (waits : Node → Prop) : Prop :=
  ∀ n, ∀ k ∈ g.dirty n, ∀ y, depended y n k true → y ∈ g.marked ∨ ⟨y, true⟩ ∈ worklist ∨ waits y

section Marking

variable {g : DependencyGraph Node} {provided : Node → String → DependencyKind → Prop}
  {depended : Node → String → DependencyKind → Bool → Prop} {waits : Node → Prop}

theorem Guarded.expand {g' : DependencyGraph Node} {worklist worklist' : List (WorklistEntry Node)}
    {next : Node} {ps : List ProvidesEntry} (hrecords : Records g provided depended)
    (h : ∀ n, ∀ k ∈ g.dirty n, ∀ y, depended y n k true →
      y = next ∨ y ∈ g.marked ∨ ⟨y, true⟩ ∈ worklist ∨ waits y)
    (hexpands : Expands g next ps worklist g' worklist') :
    Guarded { g' with marked := insert next g'.marked } depended worklist' waits := by
  intro n k hk y hy
  have hmarked : ∀ z, z = next ∨ z ∈ g.marked → z ∈ insert next g'.marked := by
    rintro z (rfl | hz)
    · exact Finset.mem_insert_self _ _
    · exact Finset.mem_insert_of_mem (hexpands.marked.symm ▸ hz)
  rcases hexpands.pushed n k hk with hk | hall
  · rcases h n k hk y hy with hself | hmem | hpushed | hwaits
    · exact .inl (hmarked y (.inl hself))
    · exact .inl (hmarked y (.inr hmem))
    · exact .inr (.inl (hexpands.worklist_mono _ hpushed))
    · exact .inr (.inr hwaits)
  · obtain ⟨d, hd, rfl, hkd, hflag⟩ := hrecords.entry hy hy
    rcases hall d hd hkd with hself | hmem | hpushed
    · exact .inl (hmarked _ (.inl hself))
    · exact .inl (hmarked _ (.inr hmem))
    · exact .inr (.inl (hflag ▸ hpushed))

theorem Records.expand {g' : DependencyGraph Node} {worklist worklist' : List (WorklistEntry Node)}
    {next : Node} {ps : List ProvidesEntry} (h : Records g provided depended)
    (hexpands : Expands g next ps worklist g' worklist') (marked : Finset Node) :
    Records { g' with marked } provided depended := by
  refine h.of_same (fun x => ?_) fun n => hexpands.entries n
  unfold providesOf
  rw [hexpands.provides]

/-- The invariant of the loop. -/
structure Guards (provided : Node → String → DependencyKind → Prop)
    (depended : Node → String → DependencyKind → Bool → Prop) (waits : Node → Prop) (m : Marking Node) :
    Prop where
  records : Records m.graph provided depended
  guarded : Guarded m.graph depended m.worklist waits

theorem Guards.round {m m' : Marking Node} {next : WorklistEntry Node}
    {rest : List (WorklistEntry Node)} (hworklist : m.worklist = next :: rest)
    (h : Guards provided depended waits m) (hround : Marking.Round m next rest m') :
    Guards provided depended waits m' := by
  obtain ⟨hrecords, hguarded⟩ := h
  rw [hworklist] at hguarded
  rcases hround.graph with ⟨hplain, hgraph, hrest⟩ | ⟨-, g', hexpands, hgraph⟩
  · refine ⟨hgraph ▸ hrecords, ?_⟩
    rw [hgraph, hrest]
    intro n k hk y hy
    rcases hguarded n k hk y hy with hmem | hpushed | hwaits
    · exact .inl hmem
    · rcases List.mem_cons.1 hpushed with heq | hpushed
      · -- the entry that is taken is not cascading
        exact absurd (hplain.symm.trans (congrArg WorklistEntry.isCascading heq).symm) Bool.false_ne_true
      · exact .inr (.inl hpushed)
    · exact .inr (.inr hwaits)
  · refine ⟨hgraph ▸ hrecords.expand hexpands _, ?_⟩
    rw [hgraph]
    refine Guarded.expand hrecords (fun n k hk y hy => ?_) hexpands
    rcases hguarded n k hk y hy with hmem | hpushed | hwaits
    · exact .inr (.inl hmem)
    · rcases List.mem_cons.1 hpushed with heq | hpushed
      · exact .inl (congrArg WorklistEntry.node heq)
      · exact .inr (.inr (.inl hpushed))
    · exact .inr (.inr (.inr hwaits))

theorem markTransitive_guarded (hrecords : Records g provided depended) {node : Node}
    (h : Guarded g depended [] fun y => waits y ∨ y = node) (visited : List Node) :
    Records (g.markTransitive visited node).1 provided depended ∧
      Guarded (g.markTransitive visited node).1 depended [] waits := by
  have hexpands := addDependents_expands (g.markIntransitive node).1 node []
  have hrecords' : Records (g.markIntransitive node).1 provided depended :=
    hrecords.of_same (fun _ => rfl) fun _ => rfl
  have hmarked : ∀ y, y ∈ (g.markIntransitive node).1.marked ↔ y = node ∨ y ∈ g.marked := fun y =>
    Finset.mem_insert
  have hsame : { ((g.markIntransitive node).1.addDependentsToWorklist node []).1 with
      marked := insert node ((g.markIntransitive node).1.addDependentsToWorklist node []).1.marked } =
      ((g.markIntransitive node).1.addDependentsToWorklist node []).1 := by
    rw [Finset.insert_eq_of_mem (hexpands.marked ▸ (hmarked node).2 (.inl rfl))]
  have hstart : Guards provided depended waits (Marking.start g visited node) := by
    refine ⟨?_, ?_⟩
    · have hexpand := hrecords'.expand hexpands
        (insert node ((g.markIntransitive node).1.addDependentsToWorklist node []).1.marked)
      rw [hsame] at hexpand
      exact hexpand
    · have hguarded : ∀ n, ∀ k ∈ g.dirty n, ∀ y, depended y n k true → y = node ∨
          y ∈ (g.markIntransitive node).1.marked ∨ ⟨y, true⟩ ∈ ([] : List (WorklistEntry Node)) ∨ waits y := by
        intro n k hk y hy
        rcases h n k hk y hy with hmem | hpushed | hwaits | rfl
        · exact .inr (.inl ((hmarked y).2 (.inr hmem)))
        · exact .inr (.inr (.inl hpushed))
        · exact .inr (.inr (.inr hwaits))
        · exact .inl rfl
      have hexpand := Guarded.expand hrecords' hguarded hexpands
      rw [hsame] at hexpand
      exact hexpand
  obtain ⟨hguards, hnil⟩ := Marking.run_induct
    (fun m next rest m' hcons hm hround => hm.round hcons hround) _ hstart
  have hguarded := hguards.guarded
  rw [hnil] at hguarded
  exact ⟨hguards.records, hguarded⟩

theorem markDependent_guarded {s : DependencyGraph Node × List Node} (hrecords : Records s.1 provided depended)
    {d : DependencyEntry Node} (h : Guarded s.1 depended [] fun y =>
      waits y ∨ (y = d.node ∧ DependencyKind.externalFile ∈ d.kindMask)) :
    Records (markDependent s d).1 provided depended ∧ Guarded (markDependent s d).1 depended [] waits := by
  obtain ⟨g, visited⟩ := s
  unfold markDependent
  dsimp only
  by_cases hkind : DependencyKind.externalFile ∈ d.kindMask
  · rw [if_neg (not_not.2 hkind)]
    split_ifs with hmarked
    · refine ⟨hrecords, fun n k hk y hy => ?_⟩
      rcases h n k hk y hy with hmem | hpushed | hwaits | ⟨rfl, -⟩
      · exact .inl hmem
      · exact .inr (.inl hpushed)
      · exact .inr (.inr hwaits)
      · exact .inl (of_decide_eq_true hmarked)
    · refine markTransitive_guarded hrecords (fun n k hk y hy => ?_) (visited ++ [d.node])
      exact (h n k hk y hy).imp_right fun hrest => hrest.imp_right fun hwaits => hwaits.imp_right And.left
  · rw [if_pos hkind]
    refine ⟨hrecords, fun n k hk y hy => (h n k hk y hy).imp_right fun hrest => hrest.imp_right ?_⟩
    exact fun hwaits => hwaits.resolve_right fun hself => hkind hself.2

theorem foldl_markDependent_guarded (dependents : List (DependencyEntry Node))
    (s : DependencyGraph Node × List Node) (hrecords : Records s.1 provided depended)
    (h : Guarded s.1 depended [] fun y => waits y ∨
      ∃ d ∈ dependents, d.node = y ∧ DependencyKind.externalFile ∈ d.kindMask) :
    Records (dependents.foldl markDependent s).1 provided depended ∧
      Guarded (dependents.foldl markDependent s).1 depended [] waits := by
  induction dependents generalizing s with
  | nil =>
    refine ⟨hrecords, fun n k hk y hy => ?_⟩
    rcases h n k hk y hy with hmem | hpushed | hwaits | ⟨d, hd, -⟩
    · exact .inl hmem
    · exact .inr (.inl hpushed)
    · exact .inr (.inr hwaits)
    · exact absurd hd List.not_mem_nil
  | cons d rest ih =>
    rw [List.foldl_cons]
    have hfirst : Guarded s.1 depended [] fun y => (waits y ∨
        ∃ d' ∈ rest, d'.node = y ∧ DependencyKind.externalFile ∈ d'.kindMask) ∨
        (y = d.node ∧ DependencyKind.externalFile ∈ d.kindMask) := by
      intro n k hk y hy
      refine (h n k hk y hy).imp_right fun hrest => hrest.imp_right ?_
      rintro (hwaits | ⟨d', hd', hnode, hkind⟩)
      · exact .inl (.inl hwaits)
      · rcases List.mem_cons.1 hd' with rfl | hd'
        · exact .inr ⟨hnode.symm, hkind⟩
        · exact .inl (.inr ⟨d', hd', hnode, hkind⟩)
    have hstep := markDependent_guarded hrecords hfirst
    exact ih _ hstep.1 hstep.2

theorem markExternal_guarded (hrecords : Records g provided depended) (h : Guarded g depended [] waits)
    (visited : List Node) (external : String) :
    Records (g.markExternal visited external).1 provided depended ∧
      Guarded (g.markExternal visited external).1 depended [] waits := by
  unfold markExternal
  split
  · exact ⟨hrecords, h⟩
  next dependents dirty hlookup =>
    have hof : g.dependentsOf external = ⟨dependents, dirty⟩ := by
      unfold dependentsOf
      rw [hlookup]
      rfl
    have hentries : g.entries external = dependents := congrArg Dependents.entries hof
    have hdirty : g.dirty external = dirty := congrArg Dependents.dirty hof
    have hof' := dependentsOf_insert g external ⟨dependents, insert .externalFile dirty⟩
    refine foldl_markDependent_guarded dependents _ (hrecords.of_same (fun _ => rfl) fun n => ?_)
      fun n k hk y hy => ?_
    · unfold entries
      dsimp only
      rw [hof']
      split_ifs with hn
      · rw [hn, hof]
      · rfl
    · unfold DependencyGraph.dirty at hk
      dsimp only at hk
      rw [hof'] at hk
      have hold : ∀ k ∈ g.dirty n, depended y n k true → y ∈ g.marked ∨
          ⟨y, true⟩ ∈ ([] : List (WorklistEntry Node)) ∨ waits y ∨
          ∃ d ∈ dependents, d.node = y ∧ DependencyKind.externalFile ∈ d.kindMask := fun k hk hy =>
        (h n k hk y hy).imp_right fun hrest => hrest.imp_right .inl
      split_ifs at hk with hn
      · rcases Finset.mem_insert.1 hk with rfl | hk
        · obtain ⟨d, hd, hnode, hkd, -⟩ := hrecords.entry hy hy
          rw [hn, hentries] at hd
          exact .inr (.inr (.inr ⟨d, hd, hnode, hkd⟩))
        · rw [← hdirty, ← hn] at hk
          exact hold k hk hy
      · exact hold k hk hy

end Marking

/-! ## Runs -/

/-- What the driver does with the graph. -/
inductive Op (Node : Type) where
  | load (node : Node) (root : Option Yaml)
  | addIndependentNode (node : Node)
  | markIntransitive (node : Node)
  | markTransitive (node : Node)
  | markExternal (externalDependency : String)

/-- The graph, and the nodes whose load has affected what is downstream, until they are marked. -/
structure Build (Node : Type) where
  graph : DependencyGraph Node
  pending : List Node

namespace Build

def empty {Node : Type} : Build Node := ⟨DependencyGraph.empty, []⟩

def step (s : Build Node) : Op Node → Build Node
  | .load node root =>
    let (graph, result) := s.graph.loadFromBuffer node root
    ⟨graph, if result = .affectsDownstream then node :: s.pending else s.pending⟩
  | .addIndependentNode node => { s with graph := s.graph.addIndependentNode node }
  | .markIntransitive node => { s with graph := (s.graph.markIntransitive node).1 }
  | .markTransitive node => ⟨(s.graph.markTransitive [] node).1, s.pending.filter (· ≠ node)⟩
  | .markExternal externalDependency => { s with graph := (s.graph.markExternal [] externalDependency).1 }

def run (s : Build Node) (ops : List (Op Node)) : Build Node := ops.foldl step s

def Succeeds (s : Build Node) : Op Node → Prop
  | .load node root => (s.graph.loadFromBuffer node root).2 ≠ .hadError
  | _ => True

def EachSucceeds (s : Build Node) : List (Op Node) → Prop
  | [] => True
  | op :: ops => s.Succeeds op ∧ (s.step op).EachSucceeds ops

end Build

def Op.Depends (ops : List (Op Node)) (y : Node) (n : String) (k : DependencyKind) (c : Bool) : Prop :=
  ∃ root, .load y root ∈ ops ∧ .depends n k c ∈ (DependencyFile.parseDependencyFile root).1

/-- The graph records what was loaded, and only pending nodes are missed. -/
structure Build.Covered (s : Build Node) (provided : Node → String → DependencyKind → Prop)
    (depended : Node → String → DependencyKind → Bool → Prop) : Prop where
  records : Records s.graph provided depended
  guarded : Guarded s.graph depended [] fun y => y ∈ s.pending

section Runs

variable {s : Build Node} {provided : Node → String → DependencyKind → Prop}
  {depended : Node → String → DependencyKind → Bool → Prop}

theorem Build.Covered.load (h : s.Covered provided depended) (node : Node) (root : Option Yaml)
    (hok : s.Succeeds (.load node root)) : (s.step (.load node root)).Covered
      (fun x n k => provided x n k ∨
        (x = node ∧ ∃ c, .provides n k c ∈ (DependencyFile.parseDependencyFile root).1))
      (fun y n k c => depended y n k c ∨
        (y = node ∧ .depends n k c ∈ (DependencyFile.parseDependencyFile root).1)) := by
  obtain ⟨hmarked, hdirty⟩ := loadFromBuffer_keeps s.graph node root
  refine ⟨h.records.loadFromBuffer node root, fun n k hk y hy => ?_⟩
  change k ∈ (s.graph.loadFromBuffer node root).1.dirty n at hk
  rw [hdirty] at hk
  have hload : (s.step (.load node root)).pending =
      if (s.graph.loadFromBuffer node root).2 = .affectsDownstream then node :: s.pending else s.pending :=
    rfl
  have hpending : y ∈ s.pending → y ∈ (s.step (.load node root)).pending := by
    intro hy
    rw [hload]
    split_ifs
    · exact List.mem_cons_of_mem _ hy
    · exact hy
  rcases hy with hy | ⟨rfl, hcall⟩
  · rcases h.guarded n k hk y hy with hmem | hpushed | hwaits
    · refine .inl ?_
      change y ∈ (s.graph.loadFromBuffer node root).1.marked
      rwa [hmarked]
    · exact absurd hpushed List.not_mem_nil
    · exact .inr (.inr (hpending hwaits))
  · have hresult := loadFromBuffer_affectsDownstream s.graph y hcall hk hok
    refine .inr (.inr ?_)
    rw [hload, if_pos hresult]
    exact List.mem_cons_self

theorem Build.Covered.mark (h : s.Covered provided depended) {op : Op Node}
    (hop : ∀ node root, op ≠ .load node root) : (s.step op).Covered provided depended := by
  cases op with
  | load node root => exact absurd rfl (hop node root)
  | addIndependentNode node =>
    refine ⟨h.records.of_same (fun x => ?_) fun _ => rfl, h.guarded⟩
    change providesOf { s.graph with provides := _ } x = _
    rw [providesOf_insert]
    split_ifs with hx
    · rw [hx]
    · rfl
  | markIntransitive node =>
    refine ⟨h.records.of_same (fun _ => rfl) fun _ => rfl, fun n k hk y hy => ?_⟩
    exact (h.guarded n k hk y hy).imp_left fun hmem => Finset.mem_insert_of_mem hmem
  | markTransitive node =>
    have hfirst : Guarded s.graph depended [] fun y => y ∈ s.pending.filter (· ≠ node) ∨ y = node := by
      intro n k hk y hy
      refine (h.guarded n k hk y hy).imp_right fun hrest => hrest.imp_right fun hwaits => ?_
      by_cases hy : y = node
      · exact .inr hy
      · exact .inl (List.mem_filter.2 ⟨hwaits, decide_eq_true hy⟩)
    have hmark := markTransitive_guarded h.records hfirst []
    exact ⟨hmark.1, hmark.2⟩
  | markExternal externalDependency =>
    have hmark := markExternal_guarded h.records h.guarded [] externalDependency
    exact ⟨hmark.1, hmark.2⟩

theorem Build.Covered.run (h : s.Covered provided depended) (ops : List (Op Node))
    (hok : s.EachSucceeds ops) : ∃ provided', (s.run ops).Covered provided'
      fun y n k c => depended y n k c ∨ Op.Depends ops y n k c := by
  induction ops generalizing s provided depended with
  | nil =>
    refine ⟨provided, ?_⟩
    unfold Op.Depends
    simpa [Build.run] using h
  | cons op ops ih =>
    have hcons : ∀ y n k c, Op.Depends (op :: ops) y n k c ↔
        (∃ root, op = .load y root ∧ .depends n k c ∈ (DependencyFile.parseDependencyFile root).1) ∨
          Op.Depends ops y n k c := by
      intro y n k c
      unfold Op.Depends
      simp only [List.mem_cons, or_and_right, exists_or, eq_comm]
    by_cases hload : ∃ node root, op = .load node root
    · obtain ⟨node, root, rfl⟩ := hload
      obtain ⟨provided', hrun⟩ := ih (h.load node root hok.1) hok.2
      refine ⟨provided', ?_⟩
      have hsame : ∀ y n k c, ((depended y n k c ∨
          (y = node ∧ .depends n k c ∈ (DependencyFile.parseDependencyFile root).1)) ∨
            Op.Depends ops y n k c) ↔ (depended y n k c ∨ Op.Depends (.load node root :: ops) y n k c) := by
        intro y n k c
        rw [hcons, or_assoc]
        refine or_congr_right (or_congr_left ⟨?_, ?_⟩)
        · rintro ⟨rfl, hcall⟩
          exact ⟨root, rfl, hcall⟩
        · rintro ⟨root', heq, hcall⟩
          obtain ⟨rfl, rfl⟩ := Op.load.inj heq
          exact ⟨rfl, hcall⟩
      simp only [hsame] at hrun
      exact hrun
    · obtain ⟨provided', hrun⟩ := ih (h.mark fun node root heq => hload ⟨node, root, heq⟩) hok.2
      refine ⟨provided', ?_⟩
      have hsame : ∀ y n k c, (depended y n k c ∨ Op.Depends ops y n k c) ↔
          (depended y n k c ∨ Op.Depends (op :: ops) y n k c) := by
        intro y n k c
        rw [hcons]
        refine or_congr_right ⟨.inr, fun hor => hor.resolve_left ?_⟩
        rintro ⟨root, heq, -⟩
        exact hload ⟨y, root, heq⟩
      simp only [hsame] at hrun
      exact hrun

/-- When no answer is pending, every node with a cascading dependency on something dirty is marked. -/
theorem dirty_dependents_marked (ops : List (Op Node)) (hok : Build.empty.EachSucceeds ops)
    (hpending : (Build.empty.run ops).pending = []) {n : String} {k : DependencyKind}
    (hk : k ∈ (Build.empty.run ops).graph.dirty n) {y : Node} (hy : Op.Depends ops y n k true) :
    (Build.empty.run ops).graph.isMarked y = true := by
  have hempty : (Build.empty : Build Node).Covered (fun _ _ _ => False) fun _ _ _ _ => False :=
    ⟨records_empty, fun _ _ _ _ hy => hy.elim⟩
  obtain ⟨_, hcovered⟩ := hempty.run ops hok
  rcases hcovered.guarded n k hk y (.inr hy) with hmem | hpushed | hwaits
  · exact decide_eq_true hmem
  · exact absurd hpushed List.not_mem_nil
  · rw [hpending] at hwaits
    exact absurd hwaits List.not_mem_nil

/-- Node 0 provides a nominal type on which node 1 depends. -/
def markProvider : List (Op Nat) :=
  [.load 0 (some (.mapping [(.scalar "" "provides-nominal", .sequence "" [.scalar "" "a"])])),
    .load 1 (some (.mapping [(.scalar "" "depends-nominal", .sequence "" [.scalar "" "a"])])),
    .markTransitive 0]

theorem dirty_dependents_marked_markProvider : (Build.empty.run markProvider).graph.isMarked 1 = true := by
  have hok : Build.empty.EachSucceeds markProvider := by
    refine ⟨?_, ?_, trivial, trivial⟩
    · change (loadFromBuffer _ _ _).2 ≠ .hadError
      decide
    · change (loadFromBuffer _ _ _).2 ≠ .hadError
      decide
  refine dirty_dependents_marked markProvider hok (by decide) (n := "a") (k := .nominalType) ?_
    ⟨_, List.mem_cons_of_mem _ List.mem_cons_self, by decide⟩
  refine Marking.run_dirty_mono (Marking.start (Build.empty.run (markProvider.take 2)).graph [] 0) "a" ?_
  decide

end Runs

end DependencyGraph

end SwiftKStdlib.Driver
