import Mathlib
import SwiftKStdlib.Driver.Completion

/-!
# What is recorded for the next build

* `settled` : what only `markFinished` changes;
* `Config.Accounts` : a job is finished if its task succeeded or it was skipped, and not otherwise;
* `Reachable.records` : the jobs that are recorded as unfinished when a run is over, failed or not.
-/

namespace SwiftKStdlib.Driver

open PerformJobsState

variable {Job : Type} [DecidableEq Job] {comp : Compilation Job}

section Callbacks

variable (s : PerformJobsState Job)

def settled : Finset Job × List Job := (s.finishedCommands, s.skipped)

theorem settled_schedule (cmd : Job) : settled (s.scheduleCommandIfNecessaryAndPossible comp cmd) = settled s := by
  unfold scheduleCommandIfNecessaryAndPossible
  split_ifs
  · rfl
  · split <;> rfl

omit [DecidableEq Job] in
theorem settled_foldl {f : PerformJobsState Job → Job → PerformJobsState Job} (hf : ∀ s cmd, settled (f s cmd) = settled s)
    (cmds : List Job) : settled (cmds.foldl f s) = settled s := by
  induction cmds generalizing s with
  | nil => rfl
  | cons cmd rest ih => exact (ih _).trans (hf s cmd)

theorem settled_scheduleCommands (cmds : List Job) : settled (s.scheduleCommands comp cmds) = settled s :=
  settled_foldl s settled_schedule cmds

theorem settled_dependencyLoadFailed (order : Iteration Job) : settled (s.dependencyLoadFailed comp order) = settled s :=
  settled_scheduleCommands { s with incrementalBuildEnabled := false } _

theorem settled_markFinished (cmd : Job) (skipped : Bool) : settled (s.markFinished comp cmd skipped) =
    (insert cmd s.finishedCommands, if skipped then s.skipped ++ [cmd] else s.skipped) := by
  rw [markFinished_eq]
  exact settled_scheduleCommands _ _

theorem settled_reloadAndRemarkDeps (order : Iteration Job) (cmd : Job) (returnCode : Int) (file : DependenciesFile) :
    settled (s.reloadAndRemarkDeps comp order cmd returnCode file).1 = settled s := by
  obtain ⟨depGraph, -, hsame | hfailed | hmarked⟩ := reloadAndRemarkDeps_cases comp s order cmd returnCode file
  · rw [hsame]
    rfl
  · rw [hfailed]
    exact settled_dependencyLoadFailed { s with depGraph } order
  · rw [hmarked]
    rfl

theorem settled_scheduleDependents (dependents : List Job) :
    settled (s.scheduleDependents comp dependents) = settled s :=
  settled_foldl s (fun s cmd => settled_schedule { s with deferredCommands := s.deferredCommands.erase cmd } cmd) dependents

theorem settled_taskEnds (order : Iteration Job) (cmd : Job) (outcome : Outcome) :
    (settled (s.taskEnds comp order cmd outcome).1).2 = s.skipped ∧
      ∀ j, j ∈ (settled (s.taskEnds comp order cmd outcome).1).1 ↔
        j ∈ s.finishedCommands ∨ j = cmd ∧ outcome.Succeeds := by
  cases outcome with
  | signalled => exact ⟨rfl, fun j => (or_iff_left fun h => h.2).symm⟩
  | finished returnCode file =>
    have hreload : settled (if s.incrementalBuildEnabled = true then
        s.reloadAndRemarkDeps comp order cmd returnCode file else (s, [])).1 = settled s := by
      split_ifs
      · exact settled_reloadAndRemarkDeps s order cmd returnCode file
      · rfl
    obtain ⟨hfinished, hskipped⟩ := Prod.mk.inj hreload
    unfold taskEnds taskFinished
    dsimp only
    by_cases hfailed : returnCode ≠ 0
    · rw [if_pos hfailed]
      refine ⟨hskipped, fun j => ?_⟩
      rw [or_iff_left fun h : j = cmd ∧ Outcome.Succeeds (.finished returnCode file) => hfailed h.2]
      exact iff_of_eq (congrArg (j ∈ ·) hfinished)
    · rw [if_neg hfailed, settled_scheduleDependents, settled_markFinished]
      refine ⟨hskipped, fun j => ?_⟩
      rw [Finset.mem_insert, hfinished, or_comm]
      exact or_congr_right (and_iff_left (not_not.1 hfailed)).symm

theorem settled_skipDeferred (order : Iteration Job) : (s.skipDeferred comp order).skipped =
    s.skipped ++ order.toList s.deferredCommands ∧ ∀ j, j ∈ (s.skipDeferred comp order).finishedCommands ↔
      j ∈ s.finishedCommands ∨ j ∈ order.toList s.deferredCommands := by
  unfold skipDeferred
  generalize order.toList s.deferredCommands = cmds
  dsimp only
  induction cmds generalizing s with
  | nil => exact ⟨(List.append_nil _).symm, fun j => (or_iff_left List.not_mem_nil).symm⟩
  | cons cmd rest ih =>
    obtain ⟨hskipped, hfinished⟩ := ih (markFinished comp
      { s with scheduledCommands := insert cmd s.scheduledCommands } cmd true)
    obtain ⟨hfinished', hskipped'⟩ := Prod.mk.inj (@settled_markFinished _ _ comp
      { s with scheduledCommands := insert cmd s.scheduledCommands } cmd true)
    refine ⟨?_, fun j => ?_⟩
    · rw [List.foldl_cons, hskipped, hskipped', if_pos rfl, List.append_assoc, List.singleton_append]
    · rw [List.foldl_cons, hfinished, hfinished', Finset.mem_insert, List.mem_cons]
      tauto

theorem settled_scheduleInitialJobs {s' : PerformJobsState Job} {order : Iteration Job} {files : Job → DependenciesFile}
    (h : scheduleInitialJobs comp order files = some s') : settled s' = (∅, []) := by
  have hinitial : ∀ {s s' : PerformJobsState Job} {cmd : Job}, s.scheduleInitial comp order files cmd = some s' →
      settled s' = settled s := by
    intro s s' cmd h
    rcases scheduleInitial_cases s h with rfl | ⟨s₁, condition, hload, hhandle⟩
    · exact settled_schedule s cmd
    have hfirst : settled s₁ = settled s := by
      obtain ⟨depGraph, -, rfl | rfl⟩ := loadInitial_cases s hload
      · rfl
      · exact settled_dependencyLoadFailed { s with depGraph } order
    rw [← hfirst]
    rcases handleInitial_cases s₁ hhandle with rfl | ⟨depGraph, initial, -, rfl⟩
    · rfl
    · exact settled_schedule { s₁ with depGraph, initialOutOfDateCommands := initial } cmd
  rw [show ((∅, []) : Finset Job × List Job) = settled (init comp) from rfl]
  unfold scheduleInitialJobs at h
  generalize init comp = s at h ⊢
  generalize comp.jobs = cmds at h
  induction cmds generalizing s with
  | nil => rw [← Option.some.inj h]
  | cons cmd rest ih =>
    rw [List.foldlM_cons] at h
    obtain ⟨s₁, hfirst, hrest⟩ := Option.bind_eq_some_iff.1 h
    exact (ih s₁ hrest).trans (hinitial hfirst)

theorem settled_scheduleAdditionalJobs (order : Iteration String) (isUpToDate : String → Bool) :
    settled (s.scheduleAdditionalJobs comp order isUpToDate) = settled s := by
  obtain hsame | ⟨_, additional, -, hs'⟩ := scheduleAdditionalJobs_cases comp s order isUpToDate
  · rw [hsame]
  · rw [hs']
    refine (settled_foldl _ (fun s cmd => ?_) additional).trans rfl
    by_cases hdeferred : cmd ∈ s.deferredCommands
    · rw [if_neg (not_not.2 hdeferred)]
      exact settled_schedule s cmd
    · rw [if_pos hdeferred]

end Callbacks

def Config.Accounts (cfg : Config Job) : Prop :=
  ∀ j, j ∈ cfg.state.finishedCommands ↔ (∃ e ∈ cfg.ended, e.1 = j ∧ e.2.Succeeds) ∨ j ∈ cfg.state.skipped

theorem Compilation.Step.accounts {cfg cfg' : Config Job} (hstep : comp.Step cfg cfg') (h : cfg.Accounts) :
    cfg'.Accounts := by
  intro j
  cases hstep with
  | @task s ended stopped order cmd hcmd outcome s' response hends =>
    obtain ⟨hskipped, hfinished⟩ := @settled_taskEnds _ _ comp s order cmd outcome
    rw [hends] at hskipped hfinished
    show j ∈ s'.finishedCommands ↔ (∃ e ∈ ended ++ [(cmd, outcome)], e.1 = j ∧ e.2.Succeeds) ∨ j ∈ s'.skipped
    rw [show s'.skipped = s.skipped from hskipped]
    refine (hfinished j).trans ((or_congr_left (h j)).trans ?_)
    simp only [List.mem_append, List.mem_singleton, or_and_right, exists_or, exists_eq_left, eq_comm (a := cmd)]
    exact or_right_comm
  | @skip s ended stopped order hdrained s' hskip =>
    obtain ⟨hskipped, hfinished⟩ := @settled_skipDeferred _ _ comp s order
    rw [hskip] at hskipped hfinished
    show j ∈ s'.finishedCommands ↔ (∃ e ∈ ended, e.1 = j ∧ e.2.Succeeds) ∨ j ∈ s'.skipped
    rw [hfinished, hskipped, h j, List.mem_append, or_assoc]

theorem Compilation.Reachable.accounts {cfg : Config Job} (h : comp.Reachable cfg) : cfg.Accounts := by
  obtain ⟨s, ⟨commands, files, externals, isUpToDate, s₀, hinit, rfl⟩, hrun⟩ := h
  induction hrun with
  | refl =>
    obtain ⟨hfinished, hskipped⟩ := Prod.mk.inj
      ((settled_scheduleAdditionalJobs s₀ externals isUpToDate).trans (settled_scheduleInitialJobs hinit))
    intro j
    rw [hfinished, hskipped]
    exact iff_of_false (Finset.notMem_empty j) (by simp)
  | tail _ hstep ih => exact hstep.accounts ih

/-- When a run is over, it is recorded which of the scheduled jobs are to be run again, if any task failed: those
whose task did not succeed, and which were not skipped. -/
theorem Compilation.Reachable.records {cfg : Config Job} (h : comp.Reachable cfg) (hphase : cfg.phase = .ended) :
    ∃ unfinished, cfg.state.checkUnfinishedJobs comp = some unfinished ∧ (unfinished.map Prod.fst).Nodup ∧
      ∀ j cascading, (j, cascading) ∈ unfinished ↔ (∃ e ∈ cfg.ended, ¬ e.2.Succeeds) ∧ j ∈ comp.jobs ∧
        comp.hasDependenciesFile j = true ∧ j ∈ cfg.state.scheduledCommands ∧
        (∀ e ∈ cfg.ended, e.1 = j → ¬ e.2.Succeeds) ∧ j ∉ cfg.state.skipped ∧
        cascading = (!cfg.state.incrementalBuildEnabled || cfg.state.depGraph.isMarked j) := by
  obtain ⟨unfinished, hunfinished⟩ := Option.isSome_iff_exists.1 (h.checkUnfinishedJobs hphase)
  have hresult : cfg.state.result = 0 ↔ ∀ e ∈ cfg.ended, e.2.Succeeds :=
    ⟨h.once.succeeds, fun hall => (h.succeeds hall).progress.result⟩
  refine ⟨unfinished, hunfinished, ?_, fun j cascading => ?_⟩
  · unfold PerformJobsState.checkUnfinishedJobs at hunfinished
    split_ifs at hunfinished
    · rw [← Option.some.inj hunfinished]
      exact List.nodup_nil
    · rw [← Option.some.inj hunfinished, List.map_map]
      exact (comp.nodup_jobs.filter _).map fun _ _ => id
  · have haccounts : j ∉ cfg.state.finishedCommands ↔
        (∀ e ∈ cfg.ended, e.1 = j → ¬ e.2.Succeeds) ∧ j ∉ cfg.state.skipped := by
      rw [h.accounts j, not_or]
      exact and_congr_left' ⟨fun hnone e he heq hs => hnone ⟨e, he, heq, hs⟩, fun hall hex => by
        obtain ⟨e, he, heq, hs⟩ := hex
        exact hall e he heq hs⟩
    unfold PerformJobsState.checkUnfinishedJobs at hunfinished
    by_cases hzero : cfg.state.result = 0
    · rw [if_pos hzero, if_pos (by_contra fun hne => by simp [hne] at hunfinished)] at hunfinished
      rw [← Option.some.inj hunfinished]
      refine iff_of_false List.not_mem_nil fun hfailed => ?_
      obtain ⟨e, he, hfails⟩ := hfailed.1
      exact hfails (hresult.1 hzero e he)
    · have hfailed : ∃ e ∈ cfg.ended, ¬ e.2.Succeeds := by
        by_contra hnone
        exact hzero (hresult.2 fun e he => by_contra fun hfails => hnone ⟨e, he, hfails⟩)
      rw [if_neg hzero] at hunfinished
      rw [← Option.some.inj hunfinished]
      simp only [List.mem_map, List.mem_filter, Bool.and_eq_true, decide_eq_true_eq, Prod.mk.injEq]
      refine ⟨?_, ?_⟩
      · rintro ⟨_, ⟨hjob, ⟨hfile, hnot⟩, hscheduled⟩, rfl, rfl⟩
        obtain ⟨hfails, hskipped⟩ := haccounts.1 hnot
        exact ⟨hfailed, hjob, hfile, hscheduled, hfails, hskipped, rfl⟩
      · rintro ⟨-, hjob, hfile, hscheduled, hfails, hskipped, rfl⟩
        exact ⟨j, ⟨hjob, ⟨hfile, haccounts.2 ⟨hfails, hskipped⟩⟩, hscheduled⟩, rfl, rfl⟩

/-- One job, which is always run. -/
def Compilation.single : Compilation Nat where
  jobs := [0]
  inputs _ := []
  condition _ := .always
  hasDependenciesFile _ := true
  enableIncrementalBuild := false
  continueBuildingAfterErrors := false
  nodup_jobs := by decide
  inputs_mem := by decide
  acyclic _ _ h := by
    obtain ⟨_, _, h⟩ := (Relation.TransGen.tail'_iff).1 h
    exact List.not_mem_nil h

theorem Compilation.Reachable.records_single : ∃ cfg : Config Nat, cfg.ended.map Prod.fst = [0] ∧
    ∃ unfinished, cfg.state.checkUnfinishedJobs Compilation.single = some unfinished ∧ (0, true) ∈ unfinished := by
  let commands : Iteration Nat := ⟨Finset.toList, fun _ _ => Finset.mem_toList, Finset.nodup_toList⟩
  let externals : Iteration String := ⟨Finset.toList, fun _ _ => Finset.mem_toList, Finset.nodup_toList⟩
  let running : PerformJobsState Nat := ⟨{0}, ∅, ∅, ∅, [], .empty, 0, false, false, [0], [(0, ∅)], [], []⟩
  let failed : PerformJobsState Nat := ⟨{0}, ∅, ∅, ∅, [], .empty, -2, true, false, [], [(0, ∅)], [], []⟩
  have hstart : Compilation.single.Starts running := ⟨commands, fun _ => none, externals, fun _ => true, running, rfl, rfl⟩
  have hskip : failed.skipDeferred Compilation.single commands = failed := by
    unfold skipDeferred
    rw [show commands.toList failed.deferredCommands = [] from Finset.toList_empty]
    rfl
  have htask : Compilation.single.Step ⟨running, .executing false, []⟩ ⟨failed, .executing true, [(0, .signalled)]⟩ :=
    .task false commands 0 (List.mem_singleton_self 0) .signalled rfl
  have hlast : Compilation.single.Step ⟨failed, .executing true, [(0, .signalled)]⟩ ⟨failed, .ended, [(0, .signalled)]⟩ :=
    .skip commands (.inl rfl) hskip
  have hreachable : Compilation.single.Reachable ⟨failed, .ended, [(0, .signalled)]⟩ :=
    ⟨running, hstart, (Relation.ReflTransGen.single htask).tail hlast⟩
  obtain ⟨unfinished, hunfinished, -, hiff⟩ := hreachable.records rfl
  refine ⟨_, rfl, unfinished, hunfinished, (hiff 0 true).2 ⟨⟨_, List.mem_singleton_self _, id⟩, List.mem_singleton_self 0, rfl,
    Finset.mem_singleton_self 0, fun e he _ => ?_, List.not_mem_nil, rfl⟩⟩
  rw [List.mem_singleton.1 he]
  exact id

end SwiftKStdlib.Driver
