import SwiftKStdlib.Driver.DependencyGraph

/-!
# What marking does

* `Expands` : what `addDependentsToWorklist` does to the graph and to the worklist;
* `Marking.Round` : what a round of the loop can do; `run_induct` : invariants of the whole loop;
* `Within` : only dependents that the graph knows are recorded.
-/

namespace SwiftKStdlib.Driver

namespace DependencyGraph

variable {Node : Type} [DecidableEq Node]

def entries (g : DependencyGraph Node) (name : String) : List (DependencyEntry Node) :=
  (g.dependentsOf name).entries

def dirty (g : DependencyGraph Node) (name : String) : DependencyMask := (g.dependentsOf name).dirty

/-- The dependents of `next` through the names `provided` are on the worklist, and the names are dirty. -/
structure Expands (g : DependencyGraph Node) (next : Node) (provided : List ProvidesEntry)
    (worklist : List (WorklistEntry Node)) (g' : DependencyGraph Node)
    (worklist' : List (WorklistEntry Node)) : Prop where
  provides : g'.provides = g.provides
  marked : g'.marked = g.marked
  entries : ∀ n, g'.entries n = g.entries n
  dirty_mono : ∀ n, g.dirty n ⊆ g'.dirty n
  worklist_mono : ∀ e ∈ worklist, e ∈ worklist'
  pushed : ∀ n, ∀ k ∈ g'.dirty n, k ∈ g.dirty n ∨ ∀ d ∈ g.entries n, k ∈ d.kindMask →
    d.node = next ∨ d.node ∈ g.marked ∨ ⟨d.node, d.isCascading⟩ ∈ worklist'
  covered : ∀ p ∈ provided, g.entries p.name ≠ [] → p.kindMask ⊆ g'.dirty p.name
  origin : ∀ e ∈ worklist', e ∈ worklist ∨ ∃ p ∈ provided, ∃ d ∈ g.entries p.name,
    p.kindMask ∩ d.kindMask ≠ ∅ ∧ e = ⟨d.node, d.isCascading⟩

omit [DecidableEq Node] in
theorem Expands.refl (g : DependencyGraph Node) (next : Node) (worklist : List (WorklistEntry Node)) :
    Expands g next [] worklist g worklist where
  provides := rfl
  marked := rfl
  entries _ := rfl
  dirty_mono _ := Finset.Subset.refl _
  worklist_mono _ he := he
  pushed _ _ hk := .inl hk
  covered _ hp := absurd hp List.not_mem_nil
  origin _ he := .inl he

omit [DecidableEq Node] in
theorem Expands.trans {g g' g'' : DependencyGraph Node} {next : Node} {ps qs : List ProvidesEntry}
    {w w' w'' : List (WorklistEntry Node)} (h : Expands g next ps w g' w')
    (h' : Expands g' next qs w' g'' w'') : Expands g next (ps ++ qs) w g'' w'' where
  provides := h'.provides.trans h.provides
  marked := h'.marked.trans h.marked
  entries n := (h'.entries n).trans (h.entries n)
  dirty_mono n := (h.dirty_mono n).trans (h'.dirty_mono n)
  worklist_mono e he := h'.worklist_mono e (h.worklist_mono e he)
  pushed n k hk := by
    rcases h'.pushed n k hk with hk' | hall
    · rcases h.pushed n k hk' with hk'' | hall
      · exact .inl hk''
      · refine .inr fun d hd hkd => ?_
        exact (hall d hd hkd).imp_right fun h => h.imp_right fun h => h'.worklist_mono _ h
    · refine .inr fun d hd hkd => ?_
      have hd' := hall d ((h.entries n).symm ▸ hd) hkd
      rwa [h.marked] at hd'
  covered p hp hne := by
    rcases List.mem_append.1 hp with hp | hp
    · exact (h.covered p hp hne).trans (h'.dirty_mono _)
    · exact h'.covered p hp ((h.entries _).symm ▸ hne)
  origin e he := by
    rcases h'.origin e he with he' | ⟨q, hq, d, hd, hkinds, rfl⟩
    · rcases h.origin e he' with he'' | ⟨p, hp, hrest⟩
      · exact .inl he''
      · exact .inr ⟨p, List.mem_append_left _ hp, hrest⟩
    · exact .inr ⟨q, List.mem_append_right _ hq, d, (h.entries _) ▸ hd, hkinds, rfl⟩

/-! ## Pushing the dependents of one name -/

section Push

variable (g : DependencyGraph Node) (next : Node) (provided : ProvidesEntry)

theorem mem_pushDependents (dependents : List (DependencyEntry Node)) (worklist : List (WorklistEntry Node))
    (e : WorklistEntry Node) : e ∈ pushDependents g next provided dependents worklist ↔
      e ∈ worklist ∨ ∃ d ∈ dependents, d.node ≠ next ∧ provided.kindMask ∩ d.kindMask ≠ ∅ ∧
        d.node ∉ g.marked ∧ e = ⟨d.node, d.isCascading⟩ := by
  induction dependents generalizing worklist with
  | nil => simp [pushDependents]
  | cons d rest ih =>
    rw [pushDependents]
    split_ifs with hskip
    · rw [ih]
      simp only [Bool.or_eq_true, decide_eq_true_eq, isMarked] at hskip
      refine or_congr_right ⟨fun ⟨d', hd', h⟩ => ⟨d', List.mem_cons_of_mem _ hd', h⟩, ?_⟩
      rintro ⟨d', hd', hne, hkinds, hmarked, rfl⟩
      rcases List.mem_cons.1 hd' with rfl | hd'
      · rcases hskip with (h | h) | h
        · exact absurd h hne
        · exact absurd h hkinds
        · exact absurd h hmarked
      · exact ⟨d', hd', hne, hkinds, hmarked, rfl⟩
    · rw [ih]
      simp only [Bool.or_eq_true, decide_eq_true_eq, isMarked, not_or] at hskip
      obtain ⟨⟨hne, hkinds⟩, hmarked⟩ := hskip
      refine ⟨?_, ?_⟩
      · rintro (he | ⟨d', hd', h⟩)
        · rcases List.mem_cons.1 he with rfl | he
          · exact .inr ⟨d, List.mem_cons_self, hne, hkinds, hmarked, rfl⟩
          · exact .inl he
        · exact .inr ⟨d', List.mem_cons_of_mem _ hd', h⟩
      · rintro (he | ⟨d', hd', h⟩)
        · exact .inl (List.mem_cons_of_mem _ he)
        · rcases List.mem_cons.1 hd' with rfl | hd'
          · exact .inl (by rw [h.2.2.2]; exact List.mem_cons_self)
          · exact .inr ⟨d', hd', h⟩

omit [DecidableEq Node] in
theorem dependentsOf_insert (name : String) (dependents : Dependents Node) (n : String) :
    dependentsOf { g with dependencies := g.dependencies.insert name dependents } n =
      if n = name then dependents else g.dependentsOf n := by
  unfold dependentsOf
  split_ifs with h
  · rw [h, AList.lookup_insert]
    rfl
  · rw [AList.lookup_insert_ne h]

theorem addProvided_expands (worklist : List (WorklistEntry Node)) :
    Expands g next [provided] worklist (addProvided next provided (g, worklist)).1
      (addProvided next provided (g, worklist)).2 := by
  unfold addProvided
  dsimp only
  split
  next hlookup =>
    have hnil : g.entries provided.name = [] := by
      unfold entries dependentsOf
      rw [hlookup]
      rfl
    refine { Expands.refl g next worklist with covered := fun p hp hne => ?_, origin := fun e he => .inl he }
    rw [List.mem_singleton.1 hp] at hne
    exact absurd hnil hne
  next dependents dirty hlookup =>
    have hof : g.dependentsOf provided.name = ⟨dependents, dirty⟩ := by
      unfold dependentsOf
      rw [hlookup]
      rfl
    have hentries : g.entries provided.name = dependents := congrArg Dependents.entries hof
    have hdirty : g.dirty provided.name = dirty := congrArg Dependents.dirty hof
    split_ifs with hmask
    · refine { Expands.refl g next worklist with covered := fun p hp _ => ?_, origin := fun e he => .inl he }
      rw [List.mem_singleton.1 hp, hdirty]
      exact hmask
    · have hof' := dependentsOf_insert g provided.name ⟨dependents, dirty ∪ provided.kindMask⟩
      refine ⟨rfl, rfl, fun n => ?_, fun n => ?_, fun e he => ?_, fun n k hk => ?_, fun p hp _ => ?_,
        fun e he => ?_⟩
      · unfold entries
        rw [hof']
        split_ifs with hn
        · rw [hn, hof]
        · rfl
      · unfold DependencyGraph.dirty
        rw [hof']
        split_ifs with hn
        · rw [hn, hof]
          exact Finset.subset_union_left
        · exact Finset.Subset.refl _
      · exact (mem_pushDependents g next provided dependents worklist e).2 (.inl he)
      · unfold DependencyGraph.dirty at hk
        rw [hof'] at hk
        split_ifs at hk with hn
        · subst hn
          rcases Finset.mem_union.1 hk with hk | hk
          · exact .inl (hdirty.symm ▸ hk)
          · refine .inr fun d hd hkd => ?_
            rw [hentries] at hd
            by_cases hself : d.node = next
            · exact .inl hself
            · by_cases hmarked : d.node ∈ g.marked
              · exact .inr (.inl hmarked)
              · refine .inr (.inr ((mem_pushDependents g next provided dependents worklist _).2
                  (.inr ⟨d, hd, hself, ?_, hmarked, rfl⟩)))
                exact Finset.ne_empty_of_mem (Finset.mem_inter.2 ⟨hk, hkd⟩)
        · exact .inl hk
      · rw [List.mem_singleton.1 hp]
        unfold DependencyGraph.dirty
        rw [hof', if_pos rfl]
        exact Finset.subset_union_right
      · rcases (mem_pushDependents g next provided dependents worklist e).1 he with
          he | ⟨d, hd, -, hkinds, -, rfl⟩
        · exact .inl he
        · exact .inr ⟨provided, List.mem_singleton_self _, d, hentries.symm ▸ hd, hkinds, rfl⟩

end Push

theorem addDependents_expands (g : DependencyGraph Node) (next : Node)
    (worklist : List (WorklistEntry Node)) :
    Expands g next (g.providesOf next) worklist (g.addDependentsToWorklist next worklist).1
      (g.addDependentsToWorklist next worklist).2 := by
  unfold addDependentsToWorklist
  generalize g.providesOf next = provided
  induction provided generalizing g worklist with
  | nil => exact Expands.refl g next worklist
  | cons p rest ih =>
    rw [List.foldl_cons]
    exact (addProvided_expands g next p worklist).trans (ih _ _)

/-! ## Rounds of the loop -/

namespace Marking

/-- A round for `next`: it is recorded when it is not marked, and expanded and marked when the dependency
is cascading. -/
structure Round (m : Marking Node) (next : WorklistEntry Node) (rest : List (WorklistEntry Node))
    (m' : Marking Node) : Prop where
  visited : (next.node ∈ m.graph.marked ∧ m'.visited = m.visited ∧ m'.visitedSet = m.visitedSet) ∨
    (next.node ∉ m.graph.marked ∧ m'.visited = (m.record next.node).visited ∧
      m'.visitedSet = (m.record next.node).visitedSet)
  graph : (next.isCascading = false ∧ m'.graph = m.graph ∧ m'.worklist = rest) ∨
    (next.isCascading = true ∧ ∃ g', Expands m.graph next.node (m.graph.providesOf next.node) rest g' m'.worklist ∧
      m'.graph = { g' with marked := insert next.node g'.marked })

theorem record_visited_eq (m : Marking Node) (graph : DependencyGraph Node)
    (worklist : List (WorklistEntry Node)) (next : Node) :
    (record { m with graph, worklist } next).visited = (m.record next).visited ∧
      (record { m with graph, worklist } next).visitedSet = (m.record next).visitedSet := by
  unfold record
  dsimp only
  split_ifs
  · exact ⟨rfl, rfl⟩
  · exact ⟨rfl, rfl⟩

theorem round_step {m : Marking Node} {next : WorklistEntry Node} {rest : List (WorklistEntry Node)}
    (h : m.worklist = next :: rest) : Round m next rest m.step := by
  have hexpands := addDependents_expands m.graph next.node rest
  unfold step
  rw [h]
  dsimp only
  unfold markIntransitive isMarked
  generalize m.graph.addDependentsToWorklist next.node rest = r at hexpands
  obtain ⟨g', w'⟩ := r
  have hmarked : g'.marked = m.graph.marked := hexpands.marked
  cases hcascading : next.isCascading with
  | false =>
    by_cases hmem : next.node ∈ m.graph.marked
    · simp only [Bool.not_false, if_true, hmem, decide_true]
      exact ⟨.inl ⟨hmem, rfl, rfl⟩, .inl ⟨hcascading, rfl, rfl⟩⟩
    · simp only [Bool.not_false, if_true, hmem, decide_false, Bool.false_eq_true, if_false]
      refine ⟨.inr ⟨hmem, record_visited_eq m _ _ _⟩, .inl ⟨hcascading, ?_, ?_⟩⟩
      · rw [record_graph]
      · rw [record_worklist]
  | true =>
    by_cases hmem : next.node ∈ m.graph.marked
    · simp only [hmarked, hmem, Bool.not_true, Bool.false_eq_true, if_false, decide_true]
      exact ⟨.inl ⟨hmem, rfl, rfl⟩, .inr ⟨hcascading, g', hexpands, by rw [hmarked]⟩⟩
    · simp only [hmarked, hmem, Bool.not_true, Bool.false_eq_true, if_false, decide_false, Bool.not_false,
        if_true]
      refine ⟨.inr ⟨hmem, record_visited_eq m _ _ _⟩, .inr ⟨hcascading, g', ?_, ?_⟩⟩
      · rw [record_worklist]
        exact hexpands
      · rw [record_graph, hmarked]

theorem run_induct {P : Marking Node → Prop}
    (hround : ∀ m next rest m', m.worklist = next :: rest → P m → Round m next rest m' → P m')
    (m : Marking Node) (h : P m) : P m.run ∧ m.run.worklist = [] := by
  induction m using Marking.run.induct with
  | case1 m hnil =>
    rw [run, if_pos hnil]
    exact ⟨h, hnil⟩
  | case2 m hne ih =>
    rw [run, if_neg hne]
    obtain ⟨next, rest, hcons⟩ := List.exists_cons_of_ne_nil hne
    exact ih (hround m next rest m.step hcons h (round_step hcons))

theorem run_eq_iterate (m : Marking Node) : ∃ n, m.run = step^[n] m ∧ (step^[n] m).worklist = [] := by
  induction m using Marking.run.induct with
  | case1 m hnil =>
    refine ⟨0, ?_, hnil⟩
    rw [run, if_pos hnil]
    rfl
  | case2 m hne ih =>
    obtain ⟨n, hrun, hworklist⟩ := ih
    refine ⟨n + 1, ?_, hworklist⟩
    rw [run, if_neg hne, hrun]
    rfl

theorem run_dirty_mono (m : Marking Node) (n : String) : m.graph.dirty n ⊆ m.run.graph.dirty n := by
  refine (run_induct (P := fun m' => m.graph.dirty n ⊆ m'.graph.dirty n) ?_ m (Finset.Subset.refl _)).1
  intro m' next rest m'' _ hsub hround
  rcases hround.graph with ⟨-, hgraph, -⟩ | ⟨-, g', hexpands, hgraph⟩
  · rw [hgraph]
    exact hsub
  · rw [hgraph]
    exact hsub.trans (hexpands.dirty_mono n)

end Marking

/-! ## The nodes that are recorded -/

section Within

variable {known : Node → Prop} {g g' : DependencyGraph Node} {visited : List Node}

/-- All the dependents of the graph and all the nodes `visited` are `known`. -/
structure Within (known : Node → Prop) (g : DependencyGraph Node) (visited : List Node) : Prop where
  entries : ∀ n, ∀ d ∈ g.entries n, known d.node
  visited : ∀ y ∈ visited, known y

omit [DecidableEq Node] in
theorem Within.of_same (h : Within known g visited) (hentries : ∀ n, g'.entries n = g.entries n) :
    Within known g' visited := by
  refine ⟨fun n d hd => ?_, h.visited⟩
  rw [hentries] at hd
  exact h.entries n d hd

omit [DecidableEq Node] in
theorem Within.expand {next : Node} {ps : List ProvidesEntry} {worklist worklist' : List (WorklistEntry Node)}
    (h : Within known g visited) (hworklist : ∀ e ∈ worklist, known e.node)
    (hexpands : Expands g next ps worklist g' worklist') : ∀ e ∈ worklist', known e.node := by
  intro e he
  rcases hexpands.origin e he with he | ⟨p, -, d, hd, -, rfl⟩
  · exact hworklist e he
  · exact h.entries p.name d hd

theorem Within.record {m : Marking Node} (h : Within known m.graph m.visited) {next : Node}
    (hnext : known next) : ∀ y ∈ (m.record next).visited, known y := by
  intro y hy
  unfold Marking.record at hy
  split_ifs at hy
  · exact h.visited y hy
  · rcases List.mem_append.1 hy with hy | hy
    · exact h.visited y hy
    · rw [List.mem_singleton.1 hy]
      exact hnext

theorem Within.markTransitive (h : Within known g visited) (node : Node) :
    Within known (g.markTransitive visited node).1 (g.markTransitive visited node).2 := by
  have hexpands := addDependents_expands (g.markIntransitive node).1 node []
  have hmark : Within known (g.markIntransitive node).1 visited := h.of_same fun _ => rfl
  have hstart : Within known (Marking.start g visited node).graph visited ∧
      ∀ e ∈ (Marking.start g visited node).worklist, known e.node :=
    ⟨hmark.of_same hexpands.entries, hmark.expand (fun e he => absurd he List.not_mem_nil) hexpands⟩
  refine (Marking.run_induct (P := fun m => Within known m.graph m.visited ∧
    ∀ e ∈ m.worklist, known e.node) ?_ _ hstart).1.1
  intro m next rest m' hcons ⟨hm, hworklist⟩ hround
  rw [hcons] at hworklist
  have hvisited : ∀ y ∈ m'.visited, known y := by
    rcases hround.visited with ⟨-, hsame, -⟩ | ⟨-, hrecord, -⟩
    · rw [hsame]
      exact hm.visited
    · rw [hrecord]
      exact hm.record (hworklist next List.mem_cons_self)
  rcases hround.graph with ⟨-, hgraph, hrest⟩ | ⟨-, g', hexpands, hgraph⟩
  · rw [hgraph, hrest]
    exact ⟨⟨hm.entries, hvisited⟩, fun e he => hworklist e (List.mem_cons_of_mem _ he)⟩
  · rw [hgraph]
    refine ⟨⟨(hm.of_same hexpands.entries).entries, hvisited⟩, ?_⟩
    exact hm.expand (fun e he => hworklist e (List.mem_cons_of_mem _ he)) hexpands

theorem Within.markDependent {s : DependencyGraph Node × List Node} (h : Within known s.1 s.2)
    {d : DependencyEntry Node} (hd : known d.node) :
    Within known (markDependent s d).1 (markDependent s d).2 := by
  unfold DependencyGraph.markDependent
  dsimp only
  by_cases hkind : DependencyKind.externalFile ∈ d.kindMask
  · rw [if_neg (not_not.2 hkind)]
    split_ifs
    · exact h
    · apply Within.markTransitive
      refine ⟨h.entries, fun y hy => ?_⟩
      rcases List.mem_append.1 hy with hy | hy
      · exact h.visited y hy
      · rw [List.mem_singleton.1 hy]
        exact hd
  · rw [if_pos hkind]
    exact h

theorem Within.foldl_markDependent {dependents : List (DependencyEntry Node)}
    (hdependents : ∀ d ∈ dependents, known d.node) (s : DependencyGraph Node × List Node)
    (h : Within known s.1 s.2) : Within known (dependents.foldl DependencyGraph.markDependent s).1
      (dependents.foldl DependencyGraph.markDependent s).2 := by
  induction dependents generalizing s with
  | nil => exact h
  | cons d rest ih =>
    rw [List.foldl_cons]
    apply ih fun d' hd' => hdependents d' (List.mem_cons_of_mem _ hd')
    exact h.markDependent (hdependents d List.mem_cons_self)

theorem Within.markExternal (h : Within known g visited) (external : String) :
    Within known (g.markExternal visited external).1 (g.markExternal visited external).2 := by
  unfold DependencyGraph.markExternal
  split
  · exact h
  next dependents dirty hlookup =>
    have hof : g.dependentsOf external = ⟨dependents, dirty⟩ := by
      unfold dependentsOf
      rw [hlookup]
      rfl
    apply Within.foldl_markDependent
    · intro d hd
      apply h.entries external d
      unfold DependencyGraph.entries
      rw [hof]
      exact hd
    · apply h.of_same
      intro n
      unfold DependencyGraph.entries
      dsimp only
      rw [dependentsOf_insert]
      split_ifs with hn
      · rw [hn, hof]
      · rfl

end Within

end DependencyGraph

end SwiftKStdlib.Driver
