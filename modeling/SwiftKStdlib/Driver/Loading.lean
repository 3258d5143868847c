import SwiftKStdlib.Driver.Marking

/-!
# What loading records

* `Records` : the names that are provided and depended on, as the entries of the graph tell;
* `Records.load` : a load adds the entries of its file;
* `load_keeps`, `load_affectsDownstream` : it marks nothing, and finds dependencies that are dirty.
-/

namespace SwiftKStdlib.Driver

namespace DependencyGraph

variable {Node : Type} [DecidableEq Node]

/-! ## Adding to the lists of entries -/

section Entries

variable (entries : List (DependencyEntry Node)) (node : Node) (kind : DependencyKind) (isCascading : Bool)

theorem exists_mem_addDependencyEntry (y : Node) (k : DependencyKind) :
    (∃ d ∈ addDependencyEntry entries node kind isCascading, d.node = y ∧ k ∈ d.kindMask) ↔
      (∃ d ∈ entries, d.node = y ∧ k ∈ d.kindMask) ∨ (y = node ∧ k = kind) := by
  induction entries with
  | nil =>
    simp only [addDependencyEntry, List.mem_singleton, exists_eq_left, Finset.mem_singleton,
      List.not_mem_nil, false_and, exists_false, false_or]
    rw [eq_comm]
  | cons entry rest ih =>
    rw [addDependencyEntry]
    split_ifs with hnode
    · simp only [List.mem_cons, exists_eq_or_imp, Finset.mem_insert]
      rw [hnode]
      constructor
      · rintro (⟨rfl, rfl | hk⟩ | h)
        · exact .inr ⟨rfl, rfl⟩
        · exact .inl (.inl ⟨rfl, hk⟩)
        · exact .inl (.inr h)
      · rintro ((⟨rfl, hk⟩ | h) | ⟨rfl, rfl⟩)
        · exact .inl ⟨rfl, .inr hk⟩
        · exact .inr h
        · exact .inl ⟨rfl, .inl rfl⟩
    · simp only [List.mem_cons, exists_eq_or_imp, ih, or_assoc]

theorem map_node_addDependencyEntry :
    (addDependencyEntry entries node kind isCascading).map DependencyEntry.node =
      if node ∈ entries.map DependencyEntry.node then entries.map DependencyEntry.node
      else entries.map DependencyEntry.node ++ [node] := by
  induction entries with
  | nil => rfl
  | cons entry rest ih =>
    rw [addDependencyEntry]
    split_ifs with hnode hmem hmem
    · rw [List.map_cons, List.map_cons, hnode]
    · exact absurd (by rw [List.map_cons, hnode]; exact List.mem_cons_self) hmem
    · rw [List.map_cons, List.mem_cons] at hmem
      rw [List.map_cons, ih, if_pos (hmem.resolve_left fun h => hnode h.symm), List.map_cons]
    · rw [List.map_cons, List.mem_cons, not_or] at hmem
      rw [List.map_cons, ih, if_neg hmem.2, List.map_cons, List.cons_append]

theorem nodup_addDependencyEntry (h : (entries.map DependencyEntry.node).Nodup) :
    ((addDependencyEntry entries node kind isCascading).map DependencyEntry.node).Nodup := by
  rw [map_node_addDependencyEntry]
  split_ifs with hmem
  · exact h
  · exact h.append (List.nodup_singleton _) (List.disjoint_singleton.2 hmem)

theorem exists_isCascading_addDependencyEntry (y : Node) :
    (∃ d ∈ addDependencyEntry entries node kind isCascading, d.node = y ∧ d.isCascading = true) ↔
      (∃ d ∈ entries, d.node = y ∧ d.isCascading = true) ∨ (y = node ∧ isCascading = true) := by
  induction entries with
  | nil =>
    simp only [addDependencyEntry, List.mem_singleton, exists_eq_left, List.not_mem_nil, false_and,
      exists_false, false_or]
    rw [eq_comm]
  | cons entry rest ih =>
    rw [addDependencyEntry]
    split_ifs with hnode
    · simp only [List.mem_cons, exists_eq_or_imp, Bool.or_eq_true]
      rw [hnode]
      constructor
      · rintro (⟨rfl, hflag | hflag⟩ | h)
        · exact .inl (.inl ⟨rfl, hflag⟩)
        · exact .inr ⟨rfl, hflag⟩
        · exact .inl (.inr h)
      · rintro ((⟨rfl, hflag⟩ | h) | ⟨rfl, hflag⟩)
        · exact .inl ⟨rfl, .inl hflag⟩
        · exact .inr h
        · exact .inl ⟨rfl, .inr hflag⟩
    · simp only [List.mem_cons, exists_eq_or_imp, ih, or_assoc]

end Entries

theorem exists_mem_addProvidesEntry (entries : List ProvidesEntry) (name : String) (kind : DependencyKind)
    (n : String) (k : DependencyKind) :
    (∃ p ∈ addProvidesEntry entries name kind, p.name = n ∧ k ∈ p.kindMask) ↔
      (∃ p ∈ entries, p.name = n ∧ k ∈ p.kindMask) ∨ (n = name ∧ k = kind) := by
  induction entries with
  | nil =>
    simp only [addProvidesEntry, List.mem_singleton, exists_eq_left, Finset.mem_singleton,
      List.not_mem_nil, false_and, exists_false, false_or]
    rw [eq_comm]
  | cons entry rest ih =>
    rw [addProvidesEntry]
    split_ifs with hname
    · simp only [List.mem_cons, exists_eq_or_imp, Finset.mem_insert]
      rw [hname]
      constructor
      · rintro (⟨rfl, rfl | hk⟩ | h)
        · exact .inr ⟨rfl, rfl⟩
        · exact .inl (.inl ⟨rfl, hk⟩)
        · exact .inl (.inr h)
      · rintro ((⟨rfl, hk⟩ | h) | ⟨rfl, rfl⟩)
        · exact .inl ⟨rfl, .inr hk⟩
        · exact .inr h
        · exact .inl ⟨rfl, .inl rfl⟩
    · simp only [List.mem_cons, exists_eq_or_imp, ih, or_assoc]

/-! ## Records -/

/-- The graph holds what `provided` and `depended` say: what is provided, and what is depended on, in a
cascading way or not. -/
structure Records (g : DependencyGraph Node) (provided : Node → String → DependencyKind → Prop)
    (depended : Node → String → DependencyKind → Bool → Prop) : Prop where
  provides_iff : ∀ x n k, (∃ p ∈ g.providesOf x, p.name = n ∧ k ∈ p.kindMask) ↔ provided x n k
  kinds_iff : ∀ y n k, (∃ d ∈ g.entries n, d.node = y ∧ k ∈ d.kindMask) ↔ ∃ c, depended y n k c
  cascading_iff : ∀ y n, (∃ d ∈ g.entries n, d.node = y ∧ d.isCascading = true) ↔ ∃ k, depended y n k true
  nodup : ∀ n, ((g.entries n).map DependencyEntry.node).Nodup

theorem Records.entry {g : DependencyGraph Node} {provided : Node → String → DependencyKind → Prop}
    {depended : Node → String → DependencyKind → Bool → Prop}
    (h : Records g provided depended) {y : Node} {n : String} {k k' : DependencyKind} {c : Bool}
    (hk : depended y n k c) (hk' : depended y n k' true) :
    ∃ d ∈ g.entries n, d.node = y ∧ k ∈ d.kindMask ∧ d.isCascading = true := by
  obtain ⟨d, hd, hnode, hkd⟩ := (h.kinds_iff y n k).2 ⟨c, hk⟩
  obtain ⟨e, he, hnode', hflag⟩ := (h.cascading_iff y n).2 ⟨k', hk'⟩
  have hsame : d = e := List.inj_on_of_nodup_map (h.nodup n) hd he (hnode.trans hnode'.symm)
  exact ⟨d, hd, hnode, hkd, hsame ▸ hflag⟩

theorem providesOf_insert (g : DependencyGraph Node) (node : Node) (ps : List ProvidesEntry) (x : Node) :
    providesOf { g with provides := g.provides.insert node ps } x =
      if x = node then ps else g.providesOf x := by
  unfold providesOf
  split_ifs with h
  · rw [h, AList.lookup_insert]
    rfl
  · rw [AList.lookup_insert_ne h]

theorem records_empty : Records (empty : DependencyGraph Node) (fun _ _ _ => False) (fun _ _ _ _ => False) where
  provides_iff _ _ _ := iff_of_false (fun ⟨_, hp, _⟩ => absurd hp List.not_mem_nil) id
  kinds_iff _ _ _ := iff_of_false (fun ⟨_, hd, _⟩ => absurd hd List.not_mem_nil) fun ⟨_, h⟩ => h
  cascading_iff _ _ := iff_of_false (fun ⟨_, hd, _⟩ => absurd hd List.not_mem_nil) fun ⟨_, h⟩ => h
  nodup _ := List.nodup_nil

section Load

variable {g : DependencyGraph Node} {provided : Node → String → DependencyKind → Prop}
  {depended : Node → String → DependencyKind → Bool → Prop}

theorem Records.of_same {g' : DependencyGraph Node} (h : Records g provided depended)
    (hprovides : ∀ x, g'.providesOf x = g.providesOf x) (hentries : ∀ n, g'.entries n = g.entries n) :
    Records g' provided depended where
  provides_iff x n k := by rw [hprovides]; exact h.provides_iff x n k
  kinds_iff y n k := by rw [hentries]; exact h.kinds_iff y n k
  cascading_iff y n := by rw [hentries]; exact h.cascading_iff y n
  nodup n := by rw [hentries]; exact h.nodup n

/-- One call of a callback adds what its entry says. -/
theorem Records.applyEntry (h : Records g provided depended) (node : Node) (entry : FileEntry) :
    Records (g.applyEntry node entry).1
      (fun x n k => provided x n k ∨ (x = node ∧ ∃ c, entry = .provides n k c))
      (fun y n k c => depended y n k c ∨ (y = node ∧ entry = .depends n k c)) := by
  cases entry with
  | interfaceHash hash =>
    have hsame : Records (g.applyEntry node (.interfaceHash hash)).1 provided depended := by
      unfold DependencyGraph.applyEntry interfaceHashCallback
      dsimp only
      split
      · exact h.of_same (fun _ => rfl) fun _ => rfl
      · split_ifs
        · exact h.of_same (fun _ => rfl) fun _ => rfl
        · exact h
    simpa using hsame
  | provides name kind c =>
    have hof := providesOf_insert g node (addProvidesEntry (g.providesOf node) name kind)
    refine ⟨fun x n k => ?_, fun y n k => ?_, fun y n => ?_, h.nodup⟩
    · change (∃ p ∈ providesOf { g with provides := _ } x, _) ↔ _
      rw [hof]
      split_ifs with hx
      · rw [hx, exists_mem_addProvidesEntry, h.provides_iff]
        simp [eq_comm]
      · rw [h.provides_iff]
        simp [hx]
    · change (∃ d ∈ g.entries n, _) ↔ _
      rw [h.kinds_iff]
      simp
    · change (∃ d ∈ g.entries n, _) ↔ _
      rw [h.cascading_iff]
      simp
  | depends name kind c =>
    have hentries : ∀ n, (g.dependsCallback node name kind c).1.entries n =
        if n = name then addDependencyEntry (g.entries name) node kind c else g.entries n := by
      intro n
      unfold dependsCallback entries
      dsimp only
      generalize (if kind = .externalFile then insert name g.externalDependencies
        else g.externalDependencies) = external
      have hof := dependentsOf_insert { g with externalDependencies := external } name
        ⟨addDependencyEntry (g.dependentsOf name).entries node kind c, (g.dependentsOf name).dirty⟩ n
      refine (congrArg Dependents.entries hof).trans ?_
      split_ifs
      · rfl
      · rfl
    refine ⟨fun x n k => ?_, fun y n k => ?_, fun y n => ?_, fun n => ?_⟩
    · change (∃ p ∈ g.providesOf x, _) ↔ _
      rw [h.provides_iff]
      simp
    · change (∃ d ∈ (g.dependsCallback node name kind c).1.entries n, _) ↔ _
      rw [hentries]
      split_ifs with hn
      · rw [hn, exists_mem_addDependencyEntry, h.kinds_iff]
        simp only [FileEntry.depends.injEq, true_and, exists_or]
        refine or_congr_right ⟨fun ⟨hy, hk⟩ => ⟨c, hy, hk.symm, rfl⟩, fun ⟨_, hy, hk, _⟩ => ⟨hy, hk.symm⟩⟩
      · rw [h.kinds_iff]
        simp [Ne.symm hn]
    · change (∃ d ∈ (g.dependsCallback node name kind c).1.entries n, _) ↔ _
      rw [hentries]
      split_ifs with hn
      · rw [hn, exists_isCascading_addDependencyEntry, h.cascading_iff]
        simp only [FileEntry.depends.injEq, true_and, exists_or]
        refine or_congr_right ⟨fun ⟨hy, hc⟩ => ⟨kind, hy, rfl, hc⟩, fun ⟨_, hy, _, hc⟩ => ⟨hy, hc⟩⟩
      · rw [h.cascading_iff]
        simp [Ne.symm hn]
    · change ((g.dependsCallback node name kind c).1.entries n |>.map _).Nodup
      rw [hentries]
      split_ifs
      · exact nodup_addDependencyEntry _ _ _ _ (h.nodup name)
      · exact h.nodup n

theorem Records.applyEntries (h : Records g provided depended) (node : Node) (result : LoadResult)
    (calls : List FileEntry) : Records (DependencyGraph.applyEntries node g result calls).1
      (fun x n k => provided x n k ∨ (x = node ∧ ∃ c, .provides n k c ∈ calls))
      (fun y n k c => depended y n k c ∨ (y = node ∧ .depends n k c ∈ calls)) := by
  induction calls generalizing g provided depended result with
  | nil => simpa [DependencyGraph.applyEntries] using h
  | cons entry rest ih =>
    have hrest := ih (h.applyEntry node entry) (if (g.applyEntry node entry).2 = .affectsDownstream then
      .affectsDownstream else result)
    have hprovided : ∀ x n k, ((provided x n k ∨ (x = node ∧ ∃ c, entry = .provides n k c)) ∨
        (x = node ∧ ∃ c, .provides n k c ∈ rest)) ↔
        (provided x n k ∨ (x = node ∧ ∃ c, .provides n k c ∈ entry :: rest)) := by
      intro x n k
      simp only [List.mem_cons, exists_or, eq_comm, and_or_left, or_assoc]
    have hdepended : ∀ y n k c, ((depended y n k c ∨ (y = node ∧ entry = .depends n k c)) ∨
        (y = node ∧ .depends n k c ∈ rest)) ↔
        (depended y n k c ∨ (y = node ∧ .depends n k c ∈ entry :: rest)) := by
      intro y n k c
      simp only [List.mem_cons, eq_comm, and_or_left, or_assoc]
    simp only [hprovided, hdepended] at hrest
    exact hrest

theorem Records.loadFromBuffer (h : Records g provided depended) (node : Node) (root : Option Yaml) :
    Records (g.loadFromBuffer node root).1
      (fun x n k => provided x n k ∨
        (x = node ∧ ∃ c, .provides n k c ∈ (DependencyFile.parseDependencyFile root).1))
      (fun y n k c => depended y n k c ∨
        (y = node ∧ .depends n k c ∈ (DependencyFile.parseDependencyFile root).1)) := by
  have hsame : Records { g with provides := g.provides.insert node (g.providesOf node) } provided depended := by
    refine h.of_same (fun x => ?_) fun _ => rfl
    rw [providesOf_insert]
    split_ifs with hx
    · rw [hx]
    · rfl
  exact hsame.applyEntries node .upToDate _

end Load

/-! ## Marks and results -/

section Marks

variable (g : DependencyGraph Node) (node : Node)

theorem applyEntry_keeps (entry : FileEntry) : (g.applyEntry node entry).1.marked = g.marked ∧
    ∀ n, (g.applyEntry node entry).1.dirty n = g.dirty n := by
  cases entry with
  | interfaceHash hash =>
    unfold applyEntry interfaceHashCallback
    dsimp only
    split
    · exact ⟨rfl, fun _ => rfl⟩
    · split_ifs
      · exact ⟨rfl, fun _ => rfl⟩
      · exact ⟨rfl, fun _ => rfl⟩
  | provides name kind c => exact ⟨rfl, fun _ => rfl⟩
  | depends name kind c =>
    refine ⟨rfl, fun n => ?_⟩
    unfold applyEntry dependsCallback dirty
    dsimp only
    generalize (if kind = .externalFile then insert name g.externalDependencies
      else g.externalDependencies) = external
    have hof := dependentsOf_insert { g with externalDependencies := external } name
      ⟨addDependencyEntry (g.dependentsOf name).entries node kind c, (g.dependentsOf name).dirty⟩ n
    refine (congrArg Dependents.dirty hof).trans ?_
    split_ifs with hn
    · rw [hn]
    · rfl

theorem applyEntries_keeps (result : LoadResult) (calls : List FileEntry) :
    (applyEntries node g result calls).1.marked = g.marked ∧
      ∀ n, (applyEntries node g result calls).1.dirty n = g.dirty n := by
  induction calls generalizing g result with
  | nil => exact ⟨rfl, fun _ => rfl⟩
  | cons entry rest ih =>
    obtain ⟨hmarked, hdirty⟩ := applyEntry_keeps g node entry
    obtain ⟨hmarked', hdirty'⟩ := ih (g.applyEntry node entry).1
      (if (g.applyEntry node entry).2 = .affectsDownstream then .affectsDownstream else result)
    exact ⟨hmarked'.trans hmarked, fun n => (hdirty' n).trans (hdirty n)⟩

theorem loadFromBuffer_keeps (root : Option Yaml) :
    (g.loadFromBuffer node root).1.marked = g.marked ∧
      ∀ n, (g.loadFromBuffer node root).1.dirty n = g.dirty n :=
  applyEntries_keeps { g with provides := g.provides.insert node (g.providesOf node) } node .upToDate _

theorem applyEntries_affectsDownstream (result : LoadResult) (calls : List FileEntry)
    (h : result = .affectsDownstream ∨ ∃ n k, .depends n k true ∈ calls ∧ k ∈ g.dirty n) :
    (applyEntries node g result calls).2 = .affectsDownstream := by
  induction calls generalizing g result with
  | nil =>
    rcases h with h | ⟨n, k, hcall, -⟩
    · exact h
    · exact absurd hcall List.not_mem_nil
  | cons entry rest ih =>
    refine ih (g.applyEntry node entry).1 _ ?_
    rcases h with rfl | ⟨n, k, hcall, hk⟩
    · exact .inl (ite_self _)
    · rcases List.mem_cons.1 hcall with rfl | hcall
      · refine .inl (if_pos ?_)
        have hdirty : k ∈ (g.dependentsOf n).dirty := hk
        change (g.dependsCallback node n k true).2 = _
        unfold dependsCallback
        simp [hdirty]
      · exact .inr ⟨n, k, hcall, (applyEntry_keeps g node entry).2 n ▸ hk⟩

theorem loadFromBuffer_affectsDownstream {root : Option Yaml} {n : String} {k : DependencyKind}
    (hcall : .depends n k true ∈ (DependencyFile.parseDependencyFile root).1) (hk : k ∈ g.dirty n)
    (hok : (g.loadFromBuffer node root).2 ≠ .hadError) :
    (g.loadFromBuffer node root).2 = .affectsDownstream := by
  have hresult := applyEntries_affectsDownstream
    { g with provides := g.provides.insert node (g.providesOf node) } node .upToDate _
    (.inr ⟨n, k, hcall, hk⟩)
  unfold loadFromBuffer at hok ⊢
  dsimp only at hok ⊢
  split_ifs at hok ⊢ with hparsed
  · exact hresult
  · exact absurd rfl hok

end Marks

section Within

variable {known : Node → Prop} {g : DependencyGraph Node} {visited : List Node}

theorem Within.applyEntry (h : Within known g visited) {node : Node} (hnode : known node) (entry : FileEntry) :
    Within known (g.applyEntry node entry).1 visited := by
  cases entry with
  | interfaceHash hash =>
    unfold DependencyGraph.applyEntry interfaceHashCallback
    dsimp only
    split
    · exact h.of_same fun _ => rfl
    · split_ifs
      · exact h.of_same fun _ => rfl
      · exact h
  | provides name kind c => exact h.of_same fun _ => rfl
  | depends name kind c =>
    refine ⟨fun n d hd => ?_, h.visited⟩
    unfold DependencyGraph.applyEntry dependsCallback at hd
    dsimp only at hd
    generalize (if kind = .externalFile then insert name g.externalDependencies
      else g.externalDependencies) = external at hd
    have hof := dependentsOf_insert { g with externalDependencies := external } name
      ⟨addDependencyEntry (g.dependentsOf name).entries node kind c, (g.dependentsOf name).dirty⟩ n
    have hd' := hd
    unfold DependencyGraph.entries at hd'
    rw [hof] at hd'
    split_ifs at hd' with hn
    · -- the entry of the node is added to those of the name
      have hmem := List.mem_map_of_mem (f := DependencyEntry.node) hd'
      rw [map_node_addDependencyEntry] at hmem
      have hold : ∀ y ∈ (g.dependentsOf name).entries.map DependencyEntry.node, known y := by
        intro y hy
        obtain ⟨d', hd', rfl⟩ := List.mem_map.1 hy
        exact h.entries name d' hd'
      split_ifs at hmem
      · exact hold _ hmem
      · rcases List.mem_append.1 hmem with hmem | hmem
        · exact hold _ hmem
        · rw [List.mem_singleton.1 hmem]
          exact hnode
    · exact h.entries n d hd'

theorem Within.loadFromBuffer (h : Within known g visited) {node : Node} (hnode : known node)
    (root : Option Yaml) : Within known (g.loadFromBuffer node root).1 visited := by
  have hstart : Within known { g with provides := g.provides.insert node (g.providesOf node) } visited :=
    h.of_same fun _ => rfl
  have hentries : ∀ (calls : List FileEntry) (g : DependencyGraph Node) (result : LoadResult),
      Within known g visited → Within known (DependencyGraph.applyEntries node g result calls).1 visited := by
    intro calls
    induction calls with
    | nil => exact fun _ _ h => h
    | cons entry rest ih => exact fun g result h => ih _ _ (h.applyEntry hnode entry)
  exact hentries _ _ _ hstart

end Within

end DependencyGraph

end SwiftKStdlib.Driver
