import Mathlib.Data.List.AList
import Mathlib.Data.Finset.Card
import Mathlib.Tactic

/-!
# The dependency graph of the driver

* `Yaml` : what the YAML parser hands over; `parseDependencyFile` : the callbacks that it leads to;
* `DependencyGraph` : provided names, dependents with dirty kinds, marked nodes;
* `loadFromBuffer`, `markTransitive`, `markExternal`, `markIntransitive`, `addIndependentNode`.
-/

namespace SwiftKStdlib.Driver

inductive DependencyKind where
  | topLevelName
  | dynamicLookupName
  | nominalType
  | nominalTypeMember
  | externalFile
  deriving DecidableEq, Repr

instance : Fintype DependencyKind where
  elems := {.topLevelName, .dynamicLookupName, .nominalType, .nominalTypeMember, .externalFile}
  complete kind := by cases kind <;> decide

/-- An `OptionSet` of kinds. -/
abbrev DependencyMask := Finset DependencyKind

inductive LoadResult where
  | hadError
  | upToDate
  | affectsDownstream
  deriving DecidableEq, Repr

/-! ## Dependency files -/

inductive Yaml where
  | null
  | scalar (rawTag value : String)
  | sequence (rawTag : String) (entries : List Yaml)
  | mapping (entries : List (Yaml × Yaml))
  | other

/-- A call of one of the callbacks. -/
inductive FileEntry where
  | interfaceHash (hash : String)
  | depends (name : String) (kind : DependencyKind) (isCascading : Bool)
  | provides (name : String) (kind : DependencyKind) (isCascading : Bool)
  deriving DecidableEq, Repr

namespace DependencyFile

/-- The `StringSwitch` on the key; `true` for a dependency. -/
def kindOfKey (key : String) : Option (DependencyKind × Bool) :=
  match key with
  | "depends-top-level" => some (.topLevelName, true)
  | "depends-nominal" => some (.nominalType, true)
  | "depends-member" => some (.nominalTypeMember, true)
  | "depends-dynamic-lookup" => some (.dynamicLookupName, true)
  | "depends-external" => some (.externalFile, true)
  | "provides-top-level" => some (.topLevelName, false)
  | "provides-nominal" => some (.nominalType, false)
  | "provides-member" => some (.nominalTypeMember, false)
  | "provides-dynamic-lookup" => some (.dynamicLookupName, false)
  | _ => none

def callback (isDepends : Bool) (name : String) (kind : DependencyKind) (isCascading : Bool) : FileEntry :=
  if isDepends then .depends name kind isCascading else .provides name kind isCascading

/-- One entry of a list. Members come as a base name and a member name. -/
def parseEntry (kind : DependencyKind) (isDepends : Bool) (rawEntry : Yaml) : Option FileEntry :=
  if kind = .nominalTypeMember then
    match rawEntry with
    | .sequence rawTag (.scalar _ base :: .scalar _ member :: _) =>
      some (callback isDepends (base ++ "\x00" ++ member) kind (rawTag != "!private"))
    | _ => none
  else
    match rawEntry with
    | .scalar rawTag value => some (callback isDepends value kind (rawTag != "!private"))
    | _ => none

/-- The calls up to the first entry that is in error, and whether there is none. -/
def parseEntries (kind : DependencyKind) (isDepends : Bool) : List Yaml → List FileEntry × Bool
  | [] => ([], true)
  | rawEntry :: rest =>
    match parseEntry kind isDepends rawEntry with
    | none => ([], false)
    | some entry => ((entry :: (parseEntries kind isDepends rest).1), (parseEntries kind isDepends rest).2)

/-- One key of the top-level map with its value. -/
def parseKey (key value : Yaml) : List FileEntry × Bool :=
  match key, value with
  | _, .null => ([], true)
  | .scalar _ keyString, value =>
    if keyString = "interface-hash" then
      match value with
      | .scalar _ valueString => ([.interfaceHash valueString], true)
      | _ => ([], false)
    else
      match kindOfKey keyString, value with
      | some (kind, isDepends), .sequence _ entries => parseEntries kind isDepends entries
      | _, _ => ([], false)
  | _, _ => ([], false)

def parseMap : List (Yaml × Yaml) → List FileEntry × Bool
  | [] => ([], true)
  | (key, value) :: rest =>
    let (calls, ok) := parseKey key value
    if ok then (calls ++ (parseMap rest).1, (parseMap rest).2) else (calls, false)

/-- The callbacks that are called, in order, and whether the file is read to its end. No callback of
`loadFromBuffer` is in error. -/
def parseDependencyFile (root : Option Yaml) : List FileEntry × Bool :=
  match root with
  | some (.mapping entries) => parseMap entries
  | some .null => ([], true)
  | _ => ([], false)

end DependencyFile

/-! ## The graph -/

structure DependencyEntry (Node : Type) where
  node : Node
  kindMask : DependencyMask
  /-- The flag `IsCascading`. -/
  isCascading : Bool
  deriving DecidableEq

structure ProvidesEntry where
  name : String
  kindMask : DependencyMask
  deriving DecidableEq

structure Dependents (Node : Type) where
  entries : List (DependencyEntry Node)
  dirty : DependencyMask

structure DependencyGraph (Node : Type) where
  provides : AList fun _ : Node => List ProvidesEntry
  dependencies : AList fun _ : String => Dependents Node
  marked : Finset Node
  externalDependencies : Finset String
  interfaceHashes : AList fun _ : Node => String

namespace DependencyGraph

def empty {Node : Type} : DependencyGraph Node := ⟨∅, ∅, ∅, ∅, ∅⟩

variable {Node : Type} [DecidableEq Node]

/-! ## Loading -/

def addDependencyEntry (entries : List (DependencyEntry Node)) (node : Node) (kind : DependencyKind)
    (isCascading : Bool) : List (DependencyEntry Node) :=
  match entries with
  | [] => [⟨node, {kind}, isCascading⟩]
  | entry :: rest =>
    if entry.node = node then
      ⟨node, insert kind entry.kindMask, entry.isCascading || isCascading⟩ :: rest
    else entry :: addDependencyEntry rest node kind isCascading

def addProvidesEntry (entries : List ProvidesEntry) (name : String) (kind : DependencyKind) :
    List ProvidesEntry :=
  match entries with
  | [] => [⟨name, {kind}⟩]
  | entry :: rest =>
    if entry.name = name then ⟨name, insert kind entry.kindMask⟩ :: rest
    else entry :: addProvidesEntry rest name kind

/-- `Dependencies[name]`, where nothing is recorded under a new name. -/
def dependentsOf (g : DependencyGraph Node) (name : String) : Dependents Node :=
  (g.dependencies.lookup name).getD ⟨[], ∅⟩

def providesOf (g : DependencyGraph Node) (node : Node) : List ProvidesEntry :=
  (g.provides.lookup node).getD []

def dependsCallback (g : DependencyGraph Node) (node : Node) (name : String) (kind : DependencyKind)
    (isCascading : Bool) : DependencyGraph Node × LoadResult :=
  let externalDependencies :=
    if kind = .externalFile then insert name g.externalDependencies else g.externalDependencies
  let ⟨entries, dirty⟩ := g.dependentsOf name
  let dependents := ⟨addDependencyEntry entries node kind isCascading, dirty⟩
  ({ g with externalDependencies, dependencies := g.dependencies.insert name dependents },
    if isCascading && kind ∈ dirty then .affectsDownstream else .upToDate)

def providesCallback (g : DependencyGraph Node) (node : Node) (name : String) (kind : DependencyKind) :
    DependencyGraph Node × LoadResult :=
  let provides := addProvidesEntry (g.providesOf node) name kind
  ({ g with provides := g.provides.insert node provides }, .upToDate)

def interfaceHashCallback (g : DependencyGraph Node) (node : Node) (hash : String) :
    DependencyGraph Node × LoadResult :=
  match g.interfaceHashes.lookup node with
  | none => ({ g with interfaceHashes := g.interfaceHashes.insert node hash }, .upToDate)
  | some old =>
    if hash ≠ old then
      ({ g with interfaceHashes := g.interfaceHashes.insert node hash }, .affectsDownstream)
    else (g, .upToDate)

def applyEntry (g : DependencyGraph Node) (node : Node) : FileEntry → DependencyGraph Node × LoadResult
  | .interfaceHash hash => g.interfaceHashCallback node hash
  | .depends name kind isCascading => g.dependsCallback node name kind isCascading
  | .provides name kind _ => g.providesCallback node name kind

/-- The callbacks in order, with `UPDATE_RESULT`. -/
def applyEntries (node : Node) :
    DependencyGraph Node → LoadResult → List FileEntry → DependencyGraph Node × LoadResult
  | g, result, [] => (g, result)
  | g, result, entry :: rest =>
    let (g, update) := g.applyEntry node entry
    applyEntries node g (if update = .affectsDownstream then .affectsDownstream else result) rest

def loadFromBuffer (g : DependencyGraph Node) (node : Node) (root : Option Yaml) :
    DependencyGraph Node × LoadResult :=
  let (calls, ok) := DependencyFile.parseDependencyFile root
  -- `Provides[node]` adds the node
  let g := { g with provides := g.provides.insert node (g.providesOf node) }
  let (g, result) := applyEntries node g .upToDate calls
  (g, if ok then result else .hadError)

/-! ## Marking -/

def addIndependentNode (g : DependencyGraph Node) (node : Node) : DependencyGraph Node :=
  { g with provides := g.provides.insert node (g.providesOf node) }

def isMarked (g : DependencyGraph Node) (node : Node) : Bool := node ∈ g.marked

def markIntransitive (g : DependencyGraph Node) (node : Node) : DependencyGraph Node × Bool :=
  ({ g with marked := insert node g.marked }, !g.isMarked node)

structure WorklistEntry (Node : Type) where
  node : Node
  isCascading : Bool
  deriving DecidableEq

/-- What is pushed for one dependent; the top of the worklist is its head. -/
def pushDependents (g : DependencyGraph Node) (next : Node) (provided : ProvidesEntry) :
    List (DependencyEntry Node) → List (WorklistEntry Node) → List (WorklistEntry Node)
  | [], worklist => worklist
  | dependent :: rest, worklist =>
    if dependent.node = next || provided.kindMask ∩ dependent.kindMask = ∅ || g.isMarked dependent.node then
      pushDependents g next provided rest worklist
    else pushDependents g next provided rest (⟨dependent.node, dependent.isCascading⟩ :: worklist)

/-- `addDependentsToWorklist`, for one provided name. -/
def addProvided (next : Node) (provided : ProvidesEntry) (s : DependencyGraph Node × List (WorklistEntry Node)) :
    DependencyGraph Node × List (WorklistEntry Node) :=
  let (g, worklist) := s
  match g.dependencies.lookup provided.name with
  | none => (g, worklist)
  | some ⟨entries, dirty⟩ =>
    if provided.kindMask ⊆ dirty then (g, worklist)
    else
      ({ g with dependencies := g.dependencies.insert provided.name ⟨entries, dirty ∪ provided.kindMask⟩ },
        pushDependents g next provided entries worklist)

def addDependentsToWorklist (g : DependencyGraph Node) (next : Node) (worklist : List (WorklistEntry Node)) :
    DependencyGraph Node × List (WorklistEntry Node) :=
  (g.providesOf next).foldl (fun s provided => addProvided next provided s) (g, worklist)

/-- The state of the loop in `markTransitive`. -/
structure Marking (Node : Type) where
  graph : DependencyGraph Node
  worklist : List (WorklistEntry Node)
  visitedSet : Finset Node
  visited : List Node

namespace Marking

def record (m : Marking Node) (next : Node) : Marking Node :=
  if next ∈ m.visitedSet then m
  else { m with visitedSet := insert next m.visitedSet, visited := m.visited ++ [next] }

/-- One round of the loop. -/
def step (m : Marking Node) : Marking Node :=
  match m.worklist with
  | [] => m
  | next :: worklist =>
    if !next.isCascading then
      if m.graph.isMarked next.node then { m with worklist } else record { m with worklist } next.node
    else
      let (graph, worklist) := m.graph.addDependentsToWorklist next.node worklist
      let (graph', newlyMarked) := graph.markIntransitive next.node
      if newlyMarked then record { m with graph := graph', worklist } next.node
      else { m with graph := graph', worklist }

end Marking

/-! ### Each round cleans a kind or shortens the worklist -/

section Measure

def undirty (g : DependencyGraph Node) : Nat :=
  (g.dependencies.entries.map fun entry => (entry.2.dirtyᶜ).card).sum

omit [DecidableEq Node] in
theorem undirty_insert_lt {g : DependencyGraph Node} {name : String} {entries : List (DependencyEntry Node)}
    {dirty mask : DependencyMask} (hlookup : g.dependencies.lookup name = some ⟨entries, dirty⟩)
    (hmask : ¬ mask ⊆ dirty) :
    undirty { g with dependencies := g.dependencies.insert name ⟨entries, dirty ∪ mask⟩ } < undirty g := by
  have hmem : name ∈ g.dependencies.keys := by
    rw [← AList.mem_keys, ← AList.lookup_isSome, hlookup]
    rfl
  obtain ⟨dependents, before, behind, -, hentries, herase⟩ := List.exists_of_kerase hmem
  have hsame : dependents = ⟨entries, dirty⟩ := by
    have hin : (⟨name, dependents⟩ : Sigma fun _ : String => Dependents Node) ∈ g.dependencies.entries := by
      rw [hentries]
      exact List.mem_append_right _ List.mem_cons_self
    have hlookup' := AList.mem_lookup_iff.2 hin
    rw [hlookup] at hlookup'
    exact (Option.some.inj hlookup').symm
  have hlt : ((dirty ∪ mask)ᶜ).card < (dirtyᶜ).card := by
    refine Finset.card_lt_card (Finset.compl_ssubset_compl.2 ?_)
    exact ⟨Finset.subset_union_left, fun hsub => hmask (Finset.subset_union_right.trans hsub)⟩
  unfold undirty
  rw [AList.entries_insert, herase, hentries, hsame]
  simp only [List.map_cons, List.map_append, List.sum_cons, List.sum_append]
  omega

theorem addProvided_decreases (next : Node) (provided : ProvidesEntry)
    (s : DependencyGraph Node × List (WorklistEntry Node)) :
    undirty (addProvided next provided s).1 < undirty s.1 ∨ addProvided next provided s = s := by
  obtain ⟨g, worklist⟩ := s
  unfold addProvided
  dsimp only
  split
  · exact .inr rfl
  next entries dirty hlookup =>
    split_ifs with hmask
    · exact .inr rfl
    · exact .inl (undirty_insert_lt hlookup hmask)

theorem addDependents_decreases (g : DependencyGraph Node) (next : Node)
    (worklist : List (WorklistEntry Node)) :
    undirty (g.addDependentsToWorklist next worklist).1 < undirty g ∨
      g.addDependentsToWorklist next worklist = (g, worklist) := by
  unfold addDependentsToWorklist
  generalize g.providesOf next = provides
  induction provides generalizing g worklist with
  | nil => exact .inr rfl
  | cons provided rest ih =>
    rw [List.foldl_cons]
    rcases addProvided_decreases next provided (g, worklist) with hlt | heq
    · rcases ih (addProvided next provided (g, worklist)).1 (addProvided next provided (g, worklist)).2 with
        hlt' | heq'
      · exact .inl (hlt'.trans hlt)
      · rw [Prod.mk.eta] at heq'
        rw [heq']
        exact .inl hlt
    · rw [heq]
      exact ih g worklist

def Marking.measure (m : Marking Node) : Nat ×ₗ Nat := toLex (undirty m.graph, m.worklist.length)

@[simp] theorem Marking.record_graph (m : Marking Node) (next : Node) : (m.record next).graph = m.graph := by
  unfold record
  split_ifs
  · rfl
  · rfl

@[simp] theorem Marking.record_worklist (m : Marking Node) (next : Node) :
    (m.record next).worklist = m.worklist := by
  unfold record
  split_ifs
  · rfl
  · rfl

theorem Marking.measure_step {m : Marking Node} (hne : m.worklist ≠ []) : m.step.measure < m.measure := by
  obtain ⟨g, worklist, visitedSet, visited⟩ := m
  cases worklist with
  | nil => exact absurd rfl hne
  | cons next worklist =>
    unfold step measure
    rw [Prod.Lex.toLex_lt_toLex]
    dsimp only
    split_ifs
    · exact .inr ⟨rfl, Nat.lt_succ_self _⟩
    · rw [record_graph, record_worklist]
      exact .inr ⟨rfl, Nat.lt_succ_self _⟩
    all_goals
      simp only [record_graph, record_worklist]
      rcases addDependents_decreases g next.node worklist with hlt | heq
      · exact .inl hlt
      · rw [heq]
        exact .inr ⟨rfl, Nat.lt_succ_self _⟩

end Measure

/-- The loop of `markTransitive`. -/
def Marking.run (m : Marking Node) : Marking Node :=
  if m.worklist = [] then m else m.step.run
  termination_by m.measure
  decreasing_by exact Marking.measure_step ‹_›

/-- Before the loop: the starting node is marked through, even if it is marked already. -/
def Marking.start (g : DependencyGraph Node) (visited : List Node) (node : Node) : Marking Node :=
  let (graph, worklist) := (g.markIntransitive node).1.addDependentsToWorklist node []
  ⟨graph, worklist, ∅, visited⟩

/-- The new graph, and `visited` with the nodes that are recorded. -/
def markTransitive (g : DependencyGraph Node) (visited : List Node) (node : Node) :
    DependencyGraph Node × List Node :=
  let m := (Marking.start g visited node).run
  (m.graph, m.visited)

/-- The loop of `markExternal`, for one dependent. -/
def markDependent (s : DependencyGraph Node × List Node) (dependent : DependencyEntry Node) :
    DependencyGraph Node × List Node :=
  let (g, visited) := s
  if .externalFile ∉ dependent.kindMask then (g, visited)
  else if g.isMarked dependent.node then (g, visited)
  else g.markTransitive (visited ++ [dependent.node]) dependent.node

/-- The source asserts that the name is a dependency. -/
def markExternal (g : DependencyGraph Node) (visited : List Node) (externalDependency : String) :
    DependencyGraph Node × List Node :=
  match g.dependencies.lookup externalDependency with
  | none => (g, visited)
  | some ⟨entries, dirty⟩ =>
    let dependents := ⟨entries, insert .externalFile dirty⟩
    entries.foldl markDependent
      ({ g with dependencies := g.dependencies.insert externalDependency dependents }, visited)

end DependencyGraph

end SwiftKStdlib.Driver
