import SwiftKStdlib.Driver.Compilation
import SwiftKStdlib.Driver.Loading

/-!
# What is added to the task queue

* `reloadAndRemarkDeps_cases`, `loadInitial_cases`, `handleInitial_cases` : what the callbacks can do;
* `Adds` : new tasks, of commands that were not scheduled and whose inputs are finished;
* `Config.Once` : every task is added once, and is in the queue or has ended;
* `Reachable.once` : this holds throughout a run, however its tasks end.
-/

namespace SwiftKStdlib.Driver

open PerformJobsState

variable {Job : Type} {comp : Compilation Job}

/-! ## What the callbacks can do -/

section Cases

variable [DecidableEq Job] (s : PerformJobsState Job)

theorem findUnfinishedJob_none {jobs : List Job} (h : s.findUnfinishedJob jobs = none) :
    ∀ i ∈ jobs, i ∈ s.finishedCommands := by
  intro i hi
  have hfound := List.find?_eq_none.1 h i hi
  simpa using hfound

theorem findUnfinishedJob_some {jobs : List Job} {blocking : Job}
    (h : s.findUnfinishedJob jobs = some blocking) : blocking ∈ jobs ∧ blocking ∉ s.finishedCommands := by
  have hfound := List.find?_some h
  exact ⟨List.mem_of_find?_eq_some h, by simpa using hfound⟩

theorem DependencyGraph.Within.loadFromPath {known : Job → Prop} {g : DependencyGraph Job} {visited : List Job}
    (h : g.Within known visited) {node : Job} (hnode : known node) (file : DependenciesFile) :
    (g.loadFromPath node file).1.Within known visited := by
  cases file with
  | none => exact h
  | some root => exact h.loadFromBuffer hnode root

variable (comp) in
theorem reloadAndRemarkDeps_cases (order : Iteration Job) (finishedCmd : Job) (returnCode : Int)
    (file : DependenciesFile) : ∃ depGraph, (depGraph = s.depGraph ∨
      depGraph = (s.depGraph.loadFromPath finishedCmd file).1) ∧
        (s.reloadAndRemarkDeps comp order finishedCmd returnCode file = ({ s with depGraph }, []) ∨
          s.reloadAndRemarkDeps comp order finishedCmd returnCode file =
            (dependencyLoadFailed comp { s with depGraph } order, []) ∨
          s.reloadAndRemarkDeps comp order finishedCmd returnCode file =
            markTransitive { s with depGraph } finishedCmd) := by
  unfold reloadAndRemarkDeps
  by_cases hfile : comp.hasDependenciesFile finishedCmd = true
  · rw [hfile, Bool.not_true, if_neg Bool.false_ne_true]
    by_cases hnormal : returnCode = 0 ∨ returnCode = 1
    · rw [if_pos hnormal]
      refine ⟨(s.depGraph.loadFromPath finishedCmd file).1, .inr rfl, ?_⟩
      dsimp only
      cases (s.depGraph.loadFromPath finishedCmd file).2 with
      | hadError =>
        by_cases hsuccess : returnCode = 0
        · exact .inr (.inl (if_pos hsuccess))
        · exact .inl (if_neg hsuccess)
      | upToDate =>
        cases s.depGraph.isMarked finishedCmd with
        | false => exact .inl rfl
        | true => exact .inr (.inr rfl)
      | affectsDownstream => exact .inr (.inr rfl)
    · rw [if_neg hnormal]
      refine ⟨s.depGraph, .inl rfl, ?_⟩
      cases comp.condition finishedCmd with
      | newlyAdded => exact .inr (.inr rfl)
      | runWithoutCascading => exact .inr (.inr rfl)
      | always => exact .inl rfl
      | checkDependencies => exact .inl rfl
  · rw [Bool.eq_false_iff.2 hfile, Bool.not_false, if_pos rfl]
    exact ⟨s.depGraph, .inl rfl, .inl rfl⟩

theorem loadInitial_cases {s' : PerformJobsState Job} {order : Iteration Job} {file : DependenciesFile}
    {cmd : Job} {condition : Condition} (h : s.loadInitial comp order file cmd = some (s', condition)) :
    ∃ depGraph : DependencyGraph Job,
      (∀ known visited, s.depGraph.Within known visited → known cmd → depGraph.Within known visited) ∧
        (s' = { s with depGraph } ∨ s' = dependencyLoadFailed comp { s with depGraph } order) := by
  unfold loadInitial at h
  by_cases hfile : comp.hasDependenciesFile cmd = true
  · rw [hfile, Bool.not_true, if_neg Bool.false_ne_true] at h
    by_cases hnew : comp.condition cmd = .newlyAdded
    · rw [if_pos hnew] at h
      have hs' := congrArg Prod.fst (Option.some.inj h)
      exact ⟨s.depGraph.addIndependentNode cmd, fun _ _ hwithin _ => hwithin.of_same fun _ => rfl, .inl hs'.symm⟩
    · rw [if_neg hnew] at h
      refine ⟨(s.depGraph.loadFromPath cmd file).1, fun _ _ hwithin hcmd => hwithin.loadFromPath hcmd file, ?_⟩
      dsimp only at h
      cases hresult : (s.depGraph.loadFromPath cmd file).2 with
      | hadError =>
        rw [hresult] at h
        exact .inr (congrArg Prod.fst (Option.some.inj h)).symm
      | upToDate =>
        rw [hresult] at h
        exact .inl (congrArg Prod.fst (Option.some.inj h)).symm
      | affectsDownstream =>
        rw [hresult] at h
        cases h
  · rw [Bool.eq_false_iff.2 hfile, Bool.not_false, if_pos rfl] at h
    have hs' := congrArg Prod.fst (Option.some.inj h)
    exact ⟨s.depGraph, fun _ _ hwithin _ => hwithin, .inl hs'.symm⟩

theorem handleInitial_cases {s' : PerformJobsState Job} {cmd : Job} {condition : Condition}
    (h : s.handleInitial comp cmd condition = some s') :
    s' = { s with deferredCommands := insert cmd s.deferredCommands } ∨
      ∃ depGraph initialOutOfDateCommands,
        (∀ known visited, s.depGraph.Within known visited → depGraph.Within known visited) ∧
          s' = scheduleCommandIfNecessaryAndPossible comp { s with depGraph, initialOutOfDateCommands } cmd := by
  cases condition with
  | always =>
    refine .inr ?_
    unfold handleInitial at h
    dsimp only at h
    by_cases hinitial : (s.incrementalBuildEnabled && comp.hasDependenciesFile cmd) = true
    · rw [if_pos hinitial] at h
      exact ⟨(s.depGraph.markIntransitive cmd).1, s.initialOutOfDateCommands ++ [cmd],
        fun _ _ hwithin => hwithin.of_same fun _ => rfl, (Option.some.inj h).symm⟩
    · rw [if_neg hinitial] at h
      exact ⟨s.depGraph, s.initialOutOfDateCommands, fun _ _ hwithin => hwithin, (Option.some.inj h).symm⟩
  | runWithoutCascading =>
    exact .inr ⟨s.depGraph, s.initialOutOfDateCommands, fun _ _ hwithin => hwithin, (Option.some.inj h).symm⟩
  | checkDependencies => exact .inl (Option.some.inj h).symm
  | newlyAdded => cases h

theorem scheduleInitial_cases {s' : PerformJobsState Job} {order : Iteration Job}
    {files : Job → DependenciesFile} {cmd : Job} (h : s.scheduleInitial comp order files cmd = some s') :
    s' = s.scheduleCommandIfNecessaryAndPossible comp cmd ∨ ∃ s₁ condition,
      s.loadInitial comp order (files cmd) cmd = some (s₁, condition) ∧
        s₁.handleInitial comp cmd condition = some s' := by
  unfold scheduleInitial at h
  split_ifs at h
  · exact .inl (Option.some.inj h).symm
  · split at h
    · cases h
    next s₁ condition hload => exact .inr ⟨s₁, condition, hload, h⟩

variable (comp) in
theorem scheduleAdditionalJobs_cases (order : Iteration String) (isUpToDate : String → Bool) :
    s.scheduleAdditionalJobs comp order isUpToDate = s ∨ ∃ depGraph additional,
      (∀ known, s.depGraph.Within known [] → depGraph.Within known additional) ∧
        s.scheduleAdditionalJobs comp order isUpToDate = scheduleAdditional comp { s with
          depGraph, reported := s.reported ++ additional.filter (· ∈ s.deferredCommands) } additional := by
  unfold scheduleAdditionalJobs
  cases s.incrementalBuildEnabled with
  | false => exact .inl rfl
  | true =>
    refine .inr ⟨_, _, fun known hwithin => ?_, rfl⟩
    generalize (order.toList s.depGraph.externalDependencies).filter (!isUpToDate ·) = externals
    have hmarked : ∀ (initial : List Job) (r : DependencyGraph Job × List Job), r.1.Within known r.2 →
        (initial.foldl (fun s cmd => s.1.markTransitive s.2 cmd) r).1.Within known
          (initial.foldl (fun s cmd => s.1.markTransitive s.2 cmd) r).2 := by
      intro initial
      induction initial with
      | nil => exact fun _ hr => hr
      | cons cmd rest ih => exact fun r hr => ih _ (hr.markTransitive cmd)
    have hexternal : ∀ (externals : List String) (r : DependencyGraph Job × List Job), r.1.Within known r.2 →
        (externals.foldl (fun s external => s.1.markExternal s.2 external) r).1.Within known
          (externals.foldl (fun s external => s.1.markExternal s.2 external) r).2 := by
      intro externals
      induction externals with
      | nil => exact fun _ hr => hr
      | cons external rest ih => exact fun r hr => ih _ (hr.markExternal external)
    exact hexternal externals _ (hmarked s.initialOutOfDateCommands (s.depGraph, []) hwithin)

end Cases

/-! ## Tasks that are added -/

/-- The tasks `new` are added between the states. -/
structure AddsTasks (comp : Compilation Job) (s s' : PerformJobsState Job) (new : List (Job × Finset Job)) :
    Prop where
  added : s'.added = s.added ++ new
  tasks : s'.tasks = s.tasks ++ new.map Prod.fst
  nodup : (new.map Prod.fst).Nodup
  fresh : ∀ a ∈ new, a.1 ∉ s.scheduledCommands
  scheduled : ∀ a ∈ new, a.1 ∈ s'.scheduledCommands
  ready : ∀ a ∈ new, ∀ i ∈ comp.inputs a.1, i ∈ a.2
  mono : s.scheduledCommands ⊆ s'.scheduledCommands
  failed : s.result ≠ 0 → s'.result ≠ 0

def Adds (comp : Compilation Job) (s s' : PerformJobsState Job) : Prop := ∃ new, AddsTasks comp s s' new

theorem Adds.of_same {s s' : PerformJobsState Job} (hadded : s'.added = s.added) (htasks : s'.tasks = s.tasks)
    (hresult : s'.result = s.result) (hmono : s.scheduledCommands ⊆ s'.scheduledCommands) : Adds comp s s' := by
  refine ⟨[], ?_, ?_, List.nodup_nil, ?_, ?_, ?_, hmono, fun hfailed => hresult ▸ hfailed⟩
  · rw [hadded, List.append_nil]
  · rw [htasks, List.map_nil, List.append_nil]
  all_goals
    intro a ha
    exact absurd ha List.not_mem_nil

theorem Adds.refl (s : PerformJobsState Job) : Adds comp s s := .of_same rfl rfl rfl (Finset.Subset.refl _)

theorem Adds.trans {s s' s'' : PerformJobsState Job} (h : Adds comp s s') (h' : Adds comp s' s'') :
    Adds comp s s'' := by
  obtain ⟨new, h⟩ := h
  obtain ⟨new', h'⟩ := h'
  refine ⟨new ++ new', ?_, ?_, ?_, ?_, ?_, ?_, h.mono.trans h'.mono, fun hfailed => h'.failed (h.failed hfailed)⟩
  · rw [h'.added, h.added, List.append_assoc]
  · rw [h'.tasks, h.tasks, List.map_append, List.append_assoc]
  · rw [List.map_append]
    refine h.nodup.append h'.nodup fun j hj hj' => ?_
    obtain ⟨a, ha, rfl⟩ := List.mem_map.1 hj
    obtain ⟨a', ha', heq⟩ := List.mem_map.1 hj'
    exact h'.fresh a' ha' (heq ▸ h.scheduled a ha)
  · intro a ha
    rcases List.mem_append.1 ha with ha | ha
    · exact h.fresh a ha
    · exact fun hmem => h'.fresh a ha (h.mono hmem)
  · intro a ha
    rcases List.mem_append.1 ha with ha | ha
    · exact h'.mono (h.scheduled a ha)
    · exact h'.scheduled a ha
  · intro a ha
    rcases List.mem_append.1 ha with ha | ha
    · exact h.ready a ha
    · exact h'.ready a ha

theorem Adds.foldl {f : PerformJobsState Job → Job → PerformJobsState Job} (hf : ∀ s cmd, Adds comp s (f s cmd))
    (cmds : List Job) (s : PerformJobsState Job) : Adds comp s (cmds.foldl f s) := by
  induction cmds generalizing s with
  | nil => exact .refl s
  | cons cmd rest ih => exact (hf s cmd).trans (ih _)

section Callbacks

variable [DecidableEq Job] (s : PerformJobsState Job)

theorem adds_schedule (cmd : Job) : Adds comp s (s.scheduleCommandIfNecessaryAndPossible comp cmd) := by
  unfold scheduleCommandIfNecessaryAndPossible
  split_ifs with hscheduled
  · exact .refl s
  · split
    · exact .of_same rfl rfl rfl (Finset.Subset.refl _)
    next hnone =>
      refine ⟨[(cmd, s.finishedCommands)], rfl, rfl, List.nodup_singleton _, ?_, ?_, ?_,
        Finset.subset_insert _ _, fun hfailed => hfailed⟩
      · intro a ha
        rw [List.mem_singleton.1 ha]
        exact hscheduled
      · intro a ha
        rw [List.mem_singleton.1 ha]
        exact Finset.mem_insert_self _ _
      · intro a ha
        rw [List.mem_singleton.1 ha]
        exact findUnfinishedJob_none s hnone

theorem adds_scheduleCommands (cmds : List Job) : Adds comp s (s.scheduleCommands comp cmds) :=
  Adds.foldl adds_schedule cmds s

theorem adds_markFinished (cmd : Job) (skipped : Bool) : Adds comp s (s.markFinished comp cmd skipped) := by
  unfold markFinished
  dsimp only
  split
  · exact .of_same rfl rfl rfl (Finset.Subset.refl _)
  · apply Adds.trans _ (adds_scheduleCommands _ _)
    exact .of_same rfl rfl rfl (Finset.Subset.refl _)

theorem adds_dependencyLoadFailed (order : Iteration Job) :
    Adds comp s (s.dependencyLoadFailed comp order) := by
  have hstart : Adds comp s { s with incrementalBuildEnabled := false } :=
    .of_same rfl rfl rfl (Finset.Subset.refl _)
  have hschedule := hstart.trans (adds_scheduleCommands _ (order.toList s.deferredCommands))
  exact hschedule.trans (.of_same rfl rfl rfl (Finset.Subset.refl _))

theorem adds_markTransitive (cmd : Job) : Adds comp s (s.markTransitive cmd).1 :=
  .of_same rfl rfl rfl (Finset.Subset.refl _)

theorem adds_reloadAndRemarkDeps (order : Iteration Job) (finishedCmd : Job) (returnCode : Int)
    (file : DependenciesFile) :
    Adds comp s (s.reloadAndRemarkDeps comp order finishedCmd returnCode file).1 := by
  obtain ⟨depGraph, -, hcases⟩ := reloadAndRemarkDeps_cases comp s order finishedCmd returnCode file
  have hload : Adds comp s { s with depGraph } := .of_same rfl rfl rfl (Finset.Subset.refl _)
  rcases hcases with hsame | hfailed | hmarked
  · rw [hsame]
    exact hload
  · rw [hfailed]
    exact hload.trans (adds_dependencyLoadFailed _ order)
  · rw [hmarked]
    exact hload.trans (adds_markTransitive _ finishedCmd)

theorem adds_scheduleDependents (dependents : List Job) : Adds comp s (s.scheduleDependents comp dependents) := by
  refine Adds.foldl (fun s cmd => ?_) dependents s
  have hstart : Adds comp s { s with deferredCommands := s.deferredCommands.erase cmd } :=
    .of_same rfl rfl rfl (Finset.Subset.refl _)
  exact hstart.trans (adds_schedule _ cmd)

variable (comp) in
omit [DecidableEq Job] in
theorem adds_failed (returnCode : Int) (hcode : returnCode ≠ 0) :
    Adds comp s { s with result := if s.result = 0 then returnCode else s.result } ∧
      (if s.result = 0 then returnCode else s.result) ≠ 0 := by
  have hresult : (if s.result = 0 then returnCode else s.result) ≠ 0 := by
    split_ifs with hsuccess
    · exact hcode
    · exact hsuccess
  have hrefl : Adds comp s s := .refl s
  obtain ⟨new, hsame⟩ := hrefl
  exact ⟨⟨new, { hsame with failed := fun _ => hresult }⟩, hresult⟩

theorem adds_taskFinished (order : Iteration Job) (finishedCmd : Job) (returnCode : Int)
    (file : DependenciesFile) : Adds comp s (s.taskFinished comp order finishedCmd returnCode file).1 := by
  have hreload : Adds comp s (if s.incrementalBuildEnabled = true then
      s.reloadAndRemarkDeps comp order finishedCmd returnCode file else (s, [])).1 := by
    split_ifs
    · exact adds_reloadAndRemarkDeps s order finishedCmd returnCode file
    · exact .refl s
  unfold taskFinished
  dsimp only
  by_cases hfailed : returnCode ≠ 0
  · rw [if_pos hfailed]
    exact hreload.trans (adds_failed comp _ returnCode hfailed).1
  · rw [if_neg hfailed]
    exact (hreload.trans (adds_markFinished _ finishedCmd false)).trans (adds_scheduleDependents _ _)

theorem adds_taskEnds (order : Iteration Job) (cmd : Job) (outcome : Outcome) :
    Adds comp s (s.taskEnds comp order cmd outcome).1 := by
  cases outcome with
  | finished returnCode file => exact adds_taskFinished s order cmd returnCode file
  | signalled =>
    have hrefl : Adds comp s s := .refl s
    obtain ⟨new, hsame⟩ := hrefl
    exact ⟨new, { hsame with failed := fun _ => (by decide : (-2 : Int) ≠ 0) }⟩

variable (comp) in
theorem taskEnds_result (order : Iteration Job) (cmd : Job) {outcome : Outcome} (h : ¬ outcome.Succeeds) :
    (s.taskEnds comp order cmd outcome).1.result ≠ 0 := by
  cases outcome with
  | finished returnCode file =>
    have hcode : returnCode ≠ 0 := h
    unfold taskEnds taskFinished
    dsimp only
    rw [if_pos hcode]
    exact (adds_failed comp _ returnCode hcode).2
  | signalled => exact (by decide : (-2 : Int) ≠ 0)

theorem adds_skipDeferred (order : Iteration Job) : Adds comp s (s.skipDeferred comp order) := by
  have hskip : ∀ (s : PerformJobsState Job) (cmd : Job), Adds comp s (markFinished comp
      { s with scheduledCommands := insert cmd s.scheduledCommands } cmd true) := by
    intro s cmd
    apply Adds.trans _ (adds_markFinished _ cmd true)
    exact .of_same rfl rfl rfl (Finset.subset_insert _ _)
  have hrun := Adds.foldl hskip (order.toList s.deferredCommands) s
  exact hrun.trans (.of_same rfl rfl rfl (Finset.Subset.refl _))

theorem adds_scheduleInitial {s' : PerformJobsState Job} {order : Iteration Job} {files : Job → DependenciesFile}
    {cmd : Job} (h : s.scheduleInitial comp order files cmd = some s') : Adds comp s s' := by
  rcases scheduleInitial_cases s h with rfl | ⟨s₁, condition, hload, hhandle⟩
  · exact adds_schedule s cmd
  · obtain ⟨depGraph, -, hs₁⟩ := loadInitial_cases s hload
    have hgraph : Adds comp s { s with depGraph } := .of_same rfl rfl rfl (Finset.Subset.refl _)
    have hfirst : Adds comp s s₁ := by
      rcases hs₁ with rfl | rfl
      · exact hgraph
      · exact hgraph.trans (adds_dependencyLoadFailed _ order)
    apply hfirst.trans
    rcases handleInitial_cases s₁ hhandle with rfl | ⟨_, _, -, rfl⟩
    · exact .of_same rfl rfl rfl (Finset.Subset.refl _)
    · apply Adds.trans _ (adds_schedule _ cmd)
      exact .of_same rfl rfl rfl (Finset.Subset.refl _)

theorem adds_scheduleInitialJobs {s' : PerformJobsState Job} {order : Iteration Job}
    {files : Job → DependenciesFile} (h : scheduleInitialJobs comp order files = some s') :
    Adds comp (init comp) s' := by
  unfold scheduleInitialJobs at h
  generalize init comp = s at h ⊢
  generalize comp.jobs = cmds at h
  induction cmds generalizing s with
  | nil =>
    rw [← Option.some.inj h]
    exact .refl s
  | cons cmd rest ih =>
    rw [List.foldlM_cons] at h
    obtain ⟨s₁, hfirst, hrest⟩ := Option.bind_eq_some_iff.1 h
    exact (adds_scheduleInitial s hfirst).trans (ih s₁ hrest)

theorem adds_scheduleAdditionalJobs (order : Iteration String) (isUpToDate : String → Bool) :
    Adds comp s (s.scheduleAdditionalJobs comp order isUpToDate) := by
  rcases scheduleAdditionalJobs_cases comp s order isUpToDate with hsame | ⟨_, additional, -, hs'⟩
  · rw [hsame]
    exact .refl s
  · rw [hs']
    apply Adds.trans _ (Adds.foldl _ additional _)
    · exact .of_same rfl rfl rfl (Finset.Subset.refl _)
    · intro s cmd
      by_cases hdeferred : cmd ∈ s.deferredCommands
      · rw [if_neg (not_not.2 hdeferred)]
        exact (adds_schedule s cmd).trans (.of_same rfl rfl rfl (Finset.Subset.refl _))
      · rw [if_pos hdeferred]
        exact .refl s

end Callbacks

/-! ## Every task is added once -/

structure Config.Once (comp : Compilation Job) (cfg : Config Job) : Prop where
  nodup : (cfg.state.added.map Prod.fst).Nodup
  scheduled : ∀ a ∈ cfg.state.added, a.1 ∈ cfg.state.scheduledCommands
  ready : ∀ a ∈ cfg.state.added, ∀ i ∈ comp.inputs a.1, i ∈ a.2
  queue : (cfg.state.added.map Prod.fst).Perm (cfg.state.tasks ++ cfg.ended.map Prod.fst)
  succeeds : cfg.state.result = 0 → ∀ e ∈ cfg.ended, e.2.Succeeds

theorem Config.Once.adds {cfg : Config Job} (h : cfg.Once comp) {s' : PerformJobsState Job}
    (hadds : Adds comp cfg.state s') (phase : Phase) : Config.Once comp ⟨s', phase, cfg.ended⟩ := by
  obtain ⟨new, hadds⟩ := hadds
  refine ⟨?_, ?_, ?_, ?_, fun hresult => h.succeeds (not_not.1 fun hfailed => hadds.failed hfailed hresult)⟩
  · show (s'.added.map Prod.fst).Nodup
    rw [hadds.added, List.map_append]
    refine h.nodup.append hadds.nodup fun j hj hj' => ?_
    obtain ⟨a, ha, rfl⟩ := List.mem_map.1 hj
    obtain ⟨a', ha', heq⟩ := List.mem_map.1 hj'
    exact hadds.fresh a' ha' (heq ▸ h.scheduled a ha)
  · intro a ha
    rw [hadds.added] at ha
    rcases List.mem_append.1 ha with ha | ha
    · exact hadds.mono (h.scheduled a ha)
    · exact hadds.scheduled a ha
  · intro a ha
    rw [hadds.added] at ha
    rcases List.mem_append.1 ha with ha | ha
    · exact h.ready a ha
    · exact hadds.ready a ha
  · show (s'.added.map Prod.fst).Perm (s'.tasks ++ cfg.ended.map Prod.fst)
    rw [hadds.added, hadds.tasks, List.map_append, List.append_assoc]
    refine (h.queue.append_right _).trans ?_
    rw [List.append_assoc]
    exact List.perm_append_comm.append_left _

variable [DecidableEq Job]

theorem Compilation.Step.once {cfg cfg' : Config Job} (hstep : comp.Step cfg cfg') (h : cfg.Once comp) :
    cfg'.Once comp := by
  cases hstep with
  | @task s ended stopped order cmd hcmd outcome s' response hends =>
    have hadds : Adds comp s (s.taskEnds comp order cmd outcome).1 := adds_taskEnds s order cmd outcome
    rw [hends] at hadds
    obtain ⟨hnodup, hscheduled, hready, hqueue, hsucceeds⟩ := h.adds hadds (.executing stopped)
    refine ⟨hnodup, hscheduled, hready, hqueue.trans ?_, fun hresult e he => ?_⟩
    · -- the command was in the queue before its callback
      have hmem : cmd ∈ s'.tasks := by
        obtain ⟨new, hnew⟩ := hadds
        rw [hnew.tasks]
        exact List.mem_append_left _ hcmd
      show (s'.tasks ++ ended.map Prod.fst).Perm (s'.tasks.erase cmd ++ (ended ++ [(cmd, outcome)]).map Prod.fst)
      rw [List.map_append, ← List.append_assoc]
      exact ((List.perm_cons_erase hmem).append_right _).trans (List.perm_append_singleton _ _).symm
    · rcases List.mem_append.1 he with he | he
      · exact hsucceeds hresult e he
      · rw [List.mem_singleton.1 he]
        by_contra houtcome
        have hresult' := taskEnds_result comp s order cmd houtcome
        rw [hends] at hresult'
        exact hresult' hresult
  | @skip s ended stopped order hdrained s' hskip =>
    have hadds : Adds comp s (s.skipDeferred comp order) := adds_skipDeferred s order
    rw [hskip] at hadds
    exact h.adds hadds _

theorem Compilation.Reachable.once {cfg : Config Job} (h : comp.Reachable cfg) : cfg.Once comp := by
  obtain ⟨s, ⟨commands, files, externals, isUpToDate, s₀, hinit, rfl⟩, hrun⟩ := h
  have hempty : Config.Once comp ⟨init comp, .executing false, []⟩ :=
    ⟨List.nodup_nil, fun _ ha => absurd ha List.not_mem_nil, fun _ ha => absurd ha List.not_mem_nil, .nil,
      fun _ _ he => absurd he List.not_mem_nil⟩
  have hadds := (adds_scheduleInitialJobs hinit).trans (adds_scheduleAdditionalJobs s₀ externals isUpToDate)
  have hstart := hempty.adds hadds (.executing false)
  induction hrun with
  | refl => exact hstart
  | tail _ hstep ih => exact hstep.once ih

end SwiftKStdlib.Driver
