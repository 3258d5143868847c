import SwiftKStdlib.Driver.Scheduling
import Mathlib.Order.WellFounded

/-!
# What a successful run comes to

* `Progress` : where each job is, while some are deferred and some are still to be scheduled;
* `Progress.schedule`, `Progress.markFinished` and others : what each callback does to it;
* `Reachable.complete` : no task is added twice or early, and no job is left over.
-/

namespace SwiftKStdlib.Driver

open PerformJobsState

variable {Job : Type} [DecidableEq Job] {comp : Compilation Job}

/-! ## What stays as it is -/

section Keeps

variable (s : PerformJobsState Job)

theorem schedule_keeps (cmd : Job) :
    (s.scheduleCommandIfNecessaryAndPossible comp cmd).deferredCommands = s.deferredCommands ∧
      (s.scheduleCommandIfNecessaryAndPossible comp cmd).finishedCommands = s.finishedCommands := by
  unfold scheduleCommandIfNecessaryAndPossible
  split_ifs
  · exact ⟨rfl, rfl⟩
  · split
    · exact ⟨rfl, rfl⟩
    · exact ⟨rfl, rfl⟩

theorem scheduleCommands_keeps (cmds : List Job) :
    (s.scheduleCommands comp cmds).deferredCommands = s.deferredCommands ∧
      (s.scheduleCommands comp cmds).finishedCommands = s.finishedCommands := by
  induction cmds generalizing s with
  | nil => exact ⟨rfl, rfl⟩
  | cons cmd rest ih =>
    obtain ⟨hdeferred, hfinished⟩ := @schedule_keeps _ _ comp s cmd
    obtain ⟨hdeferred', hfinished'⟩ := ih (s.scheduleCommandIfNecessaryAndPossible comp cmd)
    exact ⟨hdeferred'.trans hdeferred, hfinished'.trans hfinished⟩

theorem lookup_of_erase {blocking : AList fun _ : Job => List Job} {cmd k : Job} {l : List Job}
    (h : (blocking.erase cmd).lookup k = some l) : k ≠ cmd ∧ blocking.lookup k = some l := by
  have hne : k ≠ cmd := by
    rintro rfl
    rw [AList.lookup_erase] at h
    cases h
  exact ⟨hne, (AList.lookup_erase_ne hne).symm.trans h⟩

theorem markFinished_eq (cmd : Job) (skipped : Bool) :
    s.markFinished comp cmd skipped = scheduleCommands comp { s with
      finishedCommands := insert cmd s.finishedCommands
      skipped := if skipped then s.skipped ++ [cmd] else s.skipped
      blockingCommands := s.blockingCommands.erase cmd } ((s.blockingCommands.lookup cmd).getD []) := by
  unfold markFinished
  dsimp only
  cases hlookup : s.blockingCommands.lookup cmd with
  | some allBlocked => rfl
  | none =>
    have herase : s.blockingCommands.erase cmd = s.blockingCommands := by
      apply AList.ext
      exact List.kerase_of_notMem_keys (AList.lookup_eq_none.1 hlookup)
    rw [herase]
    rfl

theorem scheduleDependents_finished (dependents : List Job) :
    (s.scheduleDependents comp dependents).finishedCommands = s.finishedCommands := by
  induction dependents generalizing s with
  | nil => rfl
  | cons cmd rest ih => exact (ih _).trans (schedule_keeps _ cmd).2

theorem markFinished_keeps (cmd : Job) (skipped : Bool) :
    (s.markFinished comp cmd skipped).deferredCommands = s.deferredCommands ∧
      (s.markFinished comp cmd skipped).finishedCommands = insert cmd s.finishedCommands := by
  rw [markFinished_eq]
  exact scheduleCommands_keeps _ _

end Keeps

/-! ## Where the jobs are -/

/-- Every job that is `seen` is scheduled, is blocked by an input, is among those that stay `deferred`, or
is still `todo`. -/
structure Progress (comp : Compilation Job) (s : PerformJobsState Job) (seen deferred : Job → Prop)
    (todo : List Job) : Prop where
  result : s.result = 0
  within : s.depGraph.Within (· ∈ comp.jobs) []
  scheduled_iff : ∀ j, j ∈ s.scheduledCommands ↔ j ∈ s.added.map Prod.fst ∨ j ∈ s.skipped
  scheduled_seen : ∀ j ∈ s.scheduledCommands, seen j
  finished : ∀ j ∈ s.finishedCommands, j ∈ s.scheduledCommands
  running : ∀ j ∈ s.added.map Prod.fst, j ∈ s.tasks ∨ j ∈ s.finishedCommands
  skipped : ∀ j ∈ s.skipped, j ∈ s.finishedCommands ∧ j ∉ s.added.map Prod.fst
  blocked : ∀ k l, s.blockingCommands.lookup k = some l →
    l ≠ [] ∧ k ∉ s.finishedCommands ∧ ∀ j ∈ l, k ∈ comp.inputs j ∧ seen j ∧ ¬ deferred j
  waiting : ∀ j, deferred j → seen j ∧ j ∉ s.scheduledCommands
  covered : ∀ j, seen j → j ∈ s.scheduledCommands ∨ deferred j ∨ j ∈ todo ∨
    ∃ k l, s.blockingCommands.lookup k = some l ∧ j ∈ l
  reported : ∀ j ∈ s.reported, seen j ∧ ¬ deferred j ∧ j ∉ s.skipped

section Moves

variable {s : PerformJobsState Job} {seen deferred : Job → Prop} {todo : List Job}

theorem Progress.release (h : Progress comp s seen deferred todo) {deferred' : Job → Prop} {todo' : List Job}
    (hsub : ∀ j, deferred' j → deferred j) (hdeferred : ∀ j, deferred j → deferred' j ∨ j ∈ todo')
    (htodo : ∀ j ∈ todo, j ∈ todo') : Progress comp s seen deferred' todo' where
  result := h.result
  within := h.within
  scheduled_iff := h.scheduled_iff
  scheduled_seen := h.scheduled_seen
  finished := h.finished
  running := h.running
  skipped := h.skipped
  blocked k l hlookup := by
    obtain ⟨hne, hk, hall⟩ := h.blocked k l hlookup
    exact ⟨hne, hk, fun j hj => ⟨(hall j hj).1, (hall j hj).2.1, fun hd => (hall j hj).2.2 (hsub j hd)⟩⟩
  waiting j hd := h.waiting j (hsub j hd)
  covered j hj := by
    rcases h.covered j hj with hscheduled | hd | htodo' | hblocked
    · exact .inl hscheduled
    · rcases hdeferred j hd with hd | hmem
      · exact .inr (.inl hd)
      · exact .inr (.inr (.inl hmem))
    · exact .inr (.inr (.inl (htodo j htodo')))
    · exact .inr (.inr (.inr hblocked))
  reported j hj := ⟨(h.reported j hj).1, fun hd => (h.reported j hj).2.1 (hsub j hd), (h.reported j hj).2.2⟩

theorem Progress.schedule {cmd : Job} (h : Progress comp s seen deferred (cmd :: todo)) (hseen : seen cmd)
    (hcmd : ¬ deferred cmd) :
    Progress comp (s.scheduleCommandIfNecessaryAndPossible comp cmd) seen deferred todo := by
  have hcovered : ∀ j, seen j → j = cmd ∨ j ∈ s.scheduledCommands ∨ deferred j ∨ j ∈ todo ∨
      ∃ k l, s.blockingCommands.lookup k = some l ∧ j ∈ l := by
    intro j hj
    rcases h.covered j hj with hscheduled | hd | htodo | hblocked
    · exact .inr (.inl hscheduled)
    · exact .inr (.inr (.inl hd))
    · rcases List.mem_cons.1 htodo with heq | htodo
      · exact .inl heq
      · exact .inr (.inr (.inr (.inl htodo)))
    · exact .inr (.inr (.inr (.inr hblocked)))
  unfold scheduleCommandIfNecessaryAndPossible
  by_cases hscheduled : cmd ∈ s.scheduledCommands
  · rw [if_pos hscheduled]
    refine { h with covered := fun j hj => ?_ }
    rcases hcovered j hj with rfl | hrest
    · exact .inl hscheduled
    · exact hrest
  rw [if_neg hscheduled]
  cases hfind : s.findUnfinishedJob (comp.inputs cmd) with
  | some blocking =>
    obtain ⟨hinput, hunfinished⟩ := findUnfinishedJob_some s hfind
    have hold : ∀ j ∈ (s.blockingCommands.lookup blocking).getD [],
        blocking ∈ comp.inputs j ∧ seen j ∧ ¬ deferred j := by
      intro j hj
      cases hlookup : s.blockingCommands.lookup blocking with
      | none =>
        rw [hlookup] at hj
        exact absurd hj List.not_mem_nil
      | some l =>
        rw [hlookup] at hj
        exact (h.blocked blocking l hlookup).2.2 j hj
    refine { h with blocked := fun k l hlookup => ?_, covered := fun j hj => ?_ }
    · dsimp only at hlookup
      by_cases hk : k = blocking
      · rw [hk, AList.lookup_insert] at hlookup
        rw [← Option.some.inj hlookup, hk]
        refine ⟨List.append_ne_nil_of_right_ne_nil _ (List.cons_ne_nil _ _), hunfinished, fun j hj => ?_⟩
        rcases List.mem_append.1 hj with hj | hj
        · exact hold j hj
        · rw [List.mem_singleton.1 hj]
          exact ⟨hinput, hseen, hcmd⟩
      · rw [AList.lookup_insert_ne hk] at hlookup
        exact h.blocked k l hlookup
    · dsimp only
      rcases hcovered j hj with rfl | hscheduled' | hd | htodo | ⟨k, l, hlookup, hj⟩
      · refine .inr (.inr (.inr ⟨blocking, _, AList.lookup_insert _, ?_⟩))
        exact List.mem_append_right _ (List.mem_singleton_self _)
      · exact .inl hscheduled'
      · exact .inr (.inl hd)
      · exact .inr (.inr (.inl htodo))
      · by_cases hk : k = blocking
        · refine .inr (.inr (.inr ⟨blocking, _, AList.lookup_insert _, List.mem_append_left _ ?_⟩))
          rw [← hk, hlookup]
          exact hj
        · exact .inr (.inr (.inr ⟨k, l, (AList.lookup_insert_ne hk).trans hlookup, hj⟩))
  | none =>
    have hadded : ∀ j, j ∈ (s.added ++ [(cmd, s.finishedCommands)]).map Prod.fst ↔
        j ∈ s.added.map Prod.fst ∨ j = cmd := by
      intro j
      rw [List.map_append, List.mem_append]
      exact or_congr_right List.mem_singleton
    have hskipped : cmd ∉ s.skipped := fun hmem => hscheduled ((h.scheduled_iff cmd).2 (.inr hmem))
    refine { h with scheduled_iff := fun j => ?_, scheduled_seen := fun j hj => ?_,
                    finished := fun j hj => ?_, running := fun j hj => ?_, skipped := fun j hj => ?_,
                    waiting := fun j hd => ?_, covered := fun j hj => ?_ }
    · rw [hadded, Finset.mem_insert, h.scheduled_iff]
      tauto
    · rcases Finset.mem_insert.1 hj with rfl | hj
      · exact hseen
      · exact h.scheduled_seen j hj
    · exact Finset.mem_insert_of_mem (h.finished j hj)
    · rcases (hadded j).1 hj with hj | rfl
      · exact (h.running j hj).imp_left (List.mem_append_left _)
      · exact .inl (List.mem_append_right _ (List.mem_singleton_self _))
    · refine ⟨(h.skipped j hj).1, fun hmem => ?_⟩
      rcases (hadded j).1 hmem with hmem | rfl
      · exact (h.skipped j hj).2 hmem
      · exact hskipped hj
    · refine ⟨(h.waiting j hd).1, fun hmem => ?_⟩
      rcases Finset.mem_insert.1 hmem with rfl | hmem
      · exact hcmd hd
      · exact (h.waiting j hd).2 hmem
    · rcases hcovered j hj with rfl | hscheduled' | hrest
      · exact .inl (Finset.mem_insert_self _ _)
      · exact .inl (Finset.mem_insert_of_mem hscheduled')
      · exact .inr hrest

theorem Progress.scheduleCommands {cmds : List Job} (h : Progress comp s seen deferred (cmds ++ todo))
    (hcmds : ∀ j ∈ cmds, seen j ∧ ¬ deferred j) :
    Progress comp (s.scheduleCommands comp cmds) seen deferred todo := by
  induction cmds generalizing s with
  | nil => exact h
  | cons cmd rest ih =>
    obtain ⟨hseen, hcmd⟩ := hcmds cmd List.mem_cons_self
    exact ih (Progress.schedule h hseen hcmd) fun j hj => hcmds j (List.mem_cons_of_mem _ hj)

theorem Progress.erase (h : Progress comp s seen deferred todo) (cmd : Job) :
    Progress comp { s with blockingCommands := s.blockingCommands.erase cmd } seen deferred
      ((s.blockingCommands.lookup cmd).getD [] ++ todo) := by
  refine { h with blocked := fun k l hlookup => ?_, covered := fun j hj => ?_ }
  · exact h.blocked k l (lookup_of_erase hlookup).2
  · rcases h.covered j hj with hscheduled | hd | htodo | ⟨k, l, hlookup, hj⟩
    · exact .inl hscheduled
    · exact .inr (.inl hd)
    · exact .inr (.inr (.inl (List.mem_append_right _ htodo)))
    · by_cases hk : k = cmd
      · refine .inr (.inr (.inl (List.mem_append_left _ ?_)))
        rw [← hk, hlookup]
        exact hj
      · exact .inr (.inr (.inr ⟨k, l, (AList.lookup_erase_ne hk).trans hlookup, hj⟩))

theorem Progress.blocked_seen (h : Progress comp s seen deferred todo) (cmd : Job) :
    ∀ j ∈ (s.blockingCommands.lookup cmd).getD [], seen j ∧ ¬ deferred j := by
  intro j hj
  cases hlookup : s.blockingCommands.lookup cmd with
  | none =>
    rw [hlookup] at hj
    exact absurd hj List.not_mem_nil
  | some l =>
    rw [hlookup] at hj
    exact ((h.blocked cmd l hlookup).2.2 j hj).2

theorem Progress.markFinished (h : Progress comp s seen deferred todo) {cmd : Job}
    (hcmd : cmd ∈ s.scheduledCommands) :
    Progress comp (s.markFinished comp cmd false) seen deferred todo := by
  rw [markFinished_eq]
  refine Progress.scheduleCommands ?_ (h.blocked_seen cmd)
  have herase := h.erase cmd
  refine { herase with finished := fun j hj => ?_, running := fun j hj => ?_, skipped := fun j hj => ?_,
                       blocked := fun k l hlookup => ?_ }
  · rcases Finset.mem_insert.1 hj with rfl | hj
    · exact hcmd
    · exact h.finished j hj
  · exact (h.running j hj).imp_right Finset.mem_insert_of_mem
  · exact ⟨Finset.mem_insert_of_mem (h.skipped j hj).1, (h.skipped j hj).2⟩
  · obtain ⟨hne, hk, hall⟩ := herase.blocked k l hlookup
    refine ⟨hne, fun hmem => ?_, hall⟩
    exact hk (Finset.mem_of_mem_insert_of_ne hmem (lookup_of_erase hlookup).1)

theorem Progress.skip (h : Progress comp s seen deferred todo) {cmd : Job} (hcmd : deferred cmd) :
    Progress comp (PerformJobsState.markFinished comp
      { s with scheduledCommands := insert cmd s.scheduledCommands } cmd true) seen
      (fun j => deferred j ∧ j ≠ cmd) todo := by
  obtain ⟨hseen, hnew⟩ := h.waiting cmd hcmd
  have hadded : cmd ∉ s.added.map Prod.fst := fun hmem => hnew ((h.scheduled_iff cmd).2 (.inl hmem))
  rw [markFinished_eq]
  refine Progress.scheduleCommands ?_ fun j hj =>
    ⟨(h.blocked_seen cmd j hj).1, fun hd => (h.blocked_seen cmd j hj).2 hd.1⟩
  have herase := h.erase cmd
  have hskipped : ∀ j, j ∈ s.skipped ++ [cmd] ↔ j ∈ s.skipped ∨ j = cmd := by
    intro j
    rw [List.mem_append, List.mem_singleton]
  refine { herase with scheduled_iff := fun j => ?_, scheduled_seen := fun j hj => ?_,
                       finished := fun j hj => ?_, running := fun j hj => ?_, skipped := fun j hj => ?_,
                       blocked := fun k l hlookup => ?_, waiting := fun j hd => ?_,
                       covered := fun j hj => ?_, reported := fun j hj => ?_ }
  · dsimp only
    rw [if_pos rfl, hskipped, Finset.mem_insert, h.scheduled_iff]
    tauto
  · rcases Finset.mem_insert.1 hj with rfl | hj
    · exact hseen
    · exact h.scheduled_seen j hj
  · rcases Finset.mem_insert.1 hj with rfl | hj
    · exact Finset.mem_insert_self _ _
    · exact Finset.mem_insert_of_mem (h.finished j hj)
  · exact (h.running j hj).imp_right Finset.mem_insert_of_mem
  · dsimp only at hj
    rw [if_pos rfl, hskipped] at hj
    rcases hj with hj | rfl
    · exact ⟨Finset.mem_insert_of_mem (h.skipped j hj).1, (h.skipped j hj).2⟩
    · exact ⟨Finset.mem_insert_self _ _, hadded⟩
  · obtain ⟨hne, hk, hall⟩ := herase.blocked k l hlookup
    refine ⟨hne, fun hmem => ?_, fun j hj => ?_⟩
    · exact hk (Finset.mem_of_mem_insert_of_ne hmem (lookup_of_erase hlookup).1)
    · exact ⟨(hall j hj).1, (hall j hj).2.1, fun hd => (hall j hj).2.2 hd.1⟩
  · refine ⟨(h.waiting j hd.1).1, fun hmem => ?_⟩
    rcases Finset.mem_insert.1 hmem with rfl | hmem
    · exact hd.2 rfl
    · exact (h.waiting j hd.1).2 hmem
  · rcases herase.covered j hj with hscheduled | hd | hrest
    · exact .inl (Finset.mem_insert_of_mem hscheduled)
    · by_cases heq : j = cmd
      · rw [heq]
        exact .inl (Finset.mem_insert_self _ _)
      · exact .inr (.inl ⟨hd, heq⟩)
    · exact .inr (.inr hrest)
  · obtain ⟨hseen, hd, hs⟩ := h.reported j hj
    refine ⟨hseen, fun hd' => hd hd'.1, fun hmem => ?_⟩
    dsimp only at hmem
    rw [if_pos rfl, hskipped] at hmem
    rcases hmem with hmem | rfl
    · exact hs hmem
    · exact hd hcmd

end Moves

/-! ## The callbacks -/

section Callbacks

variable {s : PerformJobsState Job} {seen deferred : Job → Prop} {todo : List Job}

theorem Progress.dependencyLoadFailed (h : Progress comp s seen (· ∈ s.deferredCommands) todo)
    (order : Iteration Job) :
    Progress comp (s.dependencyLoadFailed comp order) seen (fun _ => False) todo := by
  have hall : ∀ j ∈ order.toList s.deferredCommands, seen j ∧ ¬ False := fun j hj =>
    ⟨(h.waiting j ((order.mem_toList _ j).1 hj)).1, not_false⟩
  have hrelease : Progress comp s seen (fun _ => False) (order.toList s.deferredCommands ++ todo) :=
    h.release (fun j hd => hd.elim) (fun j hd => .inr (List.mem_append_left _ ((order.mem_toList _ j).2 hd)))
      fun j hj => List.mem_append_right _ hj
  have hdisable : Progress comp { s with incrementalBuildEnabled := false } seen (fun _ => False)
      (order.toList s.deferredCommands ++ todo) := { hrelease with }
  have hschedule := hdisable.scheduleCommands hall
  unfold PerformJobsState.dependencyLoadFailed
  exact { hschedule with }

theorem Progress.report (h : Progress comp s (· ∈ comp.jobs) (· ∈ s.deferredCommands) [])
    {depGraph : DependencyGraph Job} {visited : List Job}
    (hwithin : depGraph.Within (· ∈ comp.jobs) visited) :
    Progress comp { s with
      depGraph, reported := s.reported ++ visited.filter (· ∈ s.deferredCommands) } (· ∈ comp.jobs)
      (fun j => j ∈ s.deferredCommands ∧ j ∉ visited) (visited.filter (· ∈ s.deferredCommands)) := by
  have hrelease : Progress comp s (· ∈ comp.jobs) (fun j => j ∈ s.deferredCommands ∧ j ∉ visited)
      (visited.filter (· ∈ s.deferredCommands)) := by
    refine h.release (fun j hd => hd.1) (fun j hd => ?_) fun j hj => absurd hj List.not_mem_nil
    by_cases hj : j ∈ visited
    · exact .inr (List.mem_filter.2 ⟨hj, decide_eq_true hd⟩)
    · exact .inl ⟨hd, hj⟩
  refine { hrelease with within := ⟨hwithin.entries, fun y hy => absurd hy List.not_mem_nil⟩,
                         reported := fun j hj => ?_ }
  rcases List.mem_append.1 hj with hj | hj
  · exact hrelease.reported j hj
  · obtain ⟨hvisited, hd⟩ := List.mem_filter.1 hj
    refine ⟨hwithin.visited j hvisited, fun hd' => hd'.2 hvisited, fun hskipped => ?_⟩
    -- a deferred job is not scheduled yet
    exact (h.waiting j (of_decide_eq_true hd)).2 ((h.scheduled_iff j).2 (.inr hskipped))

theorem Progress.reloadAndRemarkDeps (h : Progress comp s (· ∈ comp.jobs) (· ∈ s.deferredCommands) [])
    (order : Iteration Job) {finishedCmd : Job} (hcmd : finishedCmd ∈ comp.jobs) (returnCode : Int)
    (file : DependenciesFile) {r : PerformJobsState Job × List Job}
    (hr : s.reloadAndRemarkDeps comp order finishedCmd returnCode file = r) :
    (∀ j ∈ r.2, j ∈ comp.jobs) ∧ Progress comp r.1 (· ∈ comp.jobs)
      (fun j => j ∈ r.1.deferredCommands ∧ j ∉ r.2) (r.2.filter (· ∈ r.1.deferredCommands)) := by
  obtain ⟨depGraph, hgraph, hcases⟩ :=
    reloadAndRemarkDeps_cases comp s order finishedCmd returnCode file
  have hwithin : depGraph.Within (· ∈ comp.jobs) [] := by
    rcases hgraph with rfl | rfl
    · exact h.within
    · exact h.within.loadFromPath hcmd file
  have hload : Progress comp { s with depGraph } (· ∈ comp.jobs) (· ∈ s.deferredCommands) [] :=
    { h with within := hwithin }
  rw [hr] at hcases
  rcases hcases with rfl | rfl | rfl
  · refine ⟨fun j hj => absurd hj List.not_mem_nil, ?_⟩
    exact hload.release (fun j hd => hd.1) (fun j hd => .inl ⟨hd, List.not_mem_nil⟩) fun j hj => hj
  · refine ⟨fun j hj => absurd hj List.not_mem_nil, ?_⟩
    refine (Progress.dependencyLoadFailed hload order).release (fun j hd => ?_) (fun j hd => hd.elim)
      fun j hj => hj
    exact absurd hd.1 (Finset.notMem_empty j)
  · have hmarked := hwithin.markTransitive finishedCmd
    exact ⟨hmarked.visited, hload.report hmarked⟩

theorem Progress.scheduleDependent {cmd : Job} {rest : List Job}
    (h : Progress comp s seen (fun j => j ∈ s.deferredCommands ∧ j ∉ cmd :: rest)
      ((cmd :: rest).filter (· ∈ s.deferredCommands))) (hseen : seen cmd)
    {s' : PerformJobsState Job} (hs' : s' = scheduleCommandIfNecessaryAndPossible comp
      { s with deferredCommands := s.deferredCommands.erase cmd } cmd) :
    Progress comp s' seen (fun j => j ∈ s'.deferredCommands ∧ j ∉ rest)
      (rest.filter (· ∈ s'.deferredCommands)) := by
  have hkeeps : s'.deferredCommands = s.deferredCommands.erase cmd := by
    rw [hs']
    exact (schedule_keeps _ cmd).1
  have hmem : ∀ j, j ∈ s'.deferredCommands ↔ j ≠ cmd ∧ j ∈ s.deferredCommands := by
    intro j
    rw [hkeeps]
    exact Finset.mem_erase
  have hrelease : Progress comp s seen (fun j => j ∈ s'.deferredCommands ∧ j ∉ rest)
      (cmd :: rest.filter (· ∈ s'.deferredCommands)) := by
    refine h.release (fun j hd => ?_) (fun j hd => .inl ?_) fun j hj => ?_
    · refine ⟨((hmem j).1 hd.1).2, fun hj => ?_⟩
      rcases List.mem_cons.1 hj with rfl | hj
      · exact ((hmem j).1 hd.1).1 rfl
      · exact hd.2 hj
    · exact ⟨(hmem j).2 ⟨fun heq => hd.2 (heq ▸ List.mem_cons_self), hd.1⟩,
        fun hj => hd.2 (List.mem_cons_of_mem _ hj)⟩
    · obtain ⟨hj, hd⟩ := List.mem_filter.1 hj
      rcases List.mem_cons.1 hj with rfl | hj
      · exact List.mem_cons_self
      · by_cases heq : j = cmd
        · rw [heq]
          exact List.mem_cons_self
        · refine List.mem_cons_of_mem _ (List.mem_filter.2 ⟨hj, decide_eq_true ?_⟩)
          exact (hmem j).2 ⟨heq, of_decide_eq_true hd⟩
  have herase : Progress comp { s with deferredCommands := s.deferredCommands.erase cmd } seen
      (fun j => j ∈ s'.deferredCommands ∧ j ∉ rest) (cmd :: rest.filter (· ∈ s'.deferredCommands)) :=
    { hrelease with }
  have hschedule := herase.schedule hseen fun hd => ((hmem cmd).1 hd.1).1 rfl
  rw [← hs'] at hschedule
  exact hschedule

theorem Progress.scheduleDependents {dependents : List Job}
    (h : Progress comp s seen (fun j => j ∈ s.deferredCommands ∧ j ∉ dependents)
      (dependents.filter (· ∈ s.deferredCommands))) (hdependents : ∀ j ∈ dependents, seen j) :
    Progress comp (s.scheduleDependents comp dependents) seen
      (· ∈ (s.scheduleDependents comp dependents).deferredCommands) [] := by
  induction dependents generalizing s with
  | nil => exact h.release (fun j hd => ⟨hd, List.not_mem_nil⟩) (fun j hd => .inl hd.1) fun j hj => hj
  | cons cmd rest ih =>
    exact ih (h.scheduleDependent (hdependents cmd List.mem_cons_self) rfl)
      fun j hj => hdependents j (List.mem_cons_of_mem _ hj)

theorem schedule_erase (s : PerformJobsState Job) (cmd : Job) :
    { s.scheduleCommandIfNecessaryAndPossible comp cmd with
      deferredCommands := (s.scheduleCommandIfNecessaryAndPossible comp cmd).deferredCommands.erase cmd } =
      scheduleCommandIfNecessaryAndPossible comp
        { s with deferredCommands := s.deferredCommands.erase cmd } cmd := by
  unfold scheduleCommandIfNecessaryAndPossible findUnfinishedJob
  dsimp only
  split_ifs
  · rfl
  · generalize (comp.inputs cmd).find? (· ∉ s.finishedCommands) = blocking
    cases blocking with
    | none => rfl
    | some blocking => rfl

theorem Progress.scheduleAdditional {additional : List Job}
    (h : Progress comp s seen (fun j => j ∈ s.deferredCommands ∧ j ∉ additional)
      (additional.filter (· ∈ s.deferredCommands))) (hadditional : ∀ j ∈ additional, seen j) :
    Progress comp (s.scheduleAdditional comp additional) seen
      (· ∈ (s.scheduleAdditional comp additional).deferredCommands) [] := by
  induction additional generalizing s with
  | nil => exact h.release (fun j hd => ⟨hd, List.not_mem_nil⟩) (fun j hd => .inl hd.1) fun j hj => hj
  | cons cmd rest ih =>
    unfold PerformJobsState.scheduleAdditional
    rw [List.foldl_cons]
    apply ih _ fun j hj => hadditional j (List.mem_cons_of_mem _ hj)
    by_cases hcmd : cmd ∈ s.deferredCommands
    · rw [if_neg (not_not.2 hcmd)]
      exact h.scheduleDependent (hadditional cmd List.mem_cons_self) (schedule_erase s cmd)
    · rw [if_pos hcmd]
      have hne : ∀ j ∈ s.deferredCommands, j ≠ cmd := fun j hj heq => hcmd (heq ▸ hj)
      refine h.release (fun j hd => ⟨hd.1, fun hj => ?_⟩) (fun j hd => .inl ⟨hd.1, fun hj => ?_⟩) fun j hj => ?_
      · rcases List.mem_cons.1 hj with heq | hj
        · exact hne j hd.1 heq
        · exact hd.2 hj
      · exact hd.2 (List.mem_cons_of_mem _ hj)
      · rw [List.filter_cons_of_neg (by simpa using hcmd)] at hj
        exact hj

theorem Progress.taskFinished (h : Progress comp s (· ∈ comp.jobs) (· ∈ s.deferredCommands) [])
    (order : Iteration Job) {finishedCmd : Job} (hcmd : finishedCmd ∈ s.scheduledCommands)
    (file : DependenciesFile) {s' : PerformJobsState Job} {response : TaskFinishedResponse}
    (hs' : s.taskFinished comp order finishedCmd 0 file = (s', response)) :
    Progress comp s' (· ∈ comp.jobs) (· ∈ s'.deferredCommands) [] ∧ finishedCmd ∈ s'.finishedCommands ∧
      response = .continueExecution := by
  have hreload : ∃ r : PerformJobsState Job × List Job,
      (if s.incrementalBuildEnabled = true then s.reloadAndRemarkDeps comp order finishedCmd 0 file
        else (s, [])) = r ∧ (∀ j ∈ r.2, j ∈ comp.jobs) ∧ finishedCmd ∈ r.1.scheduledCommands ∧
        Progress comp r.1 (· ∈ comp.jobs) (fun j => j ∈ r.1.deferredCommands ∧ j ∉ r.2)
          (r.2.filter (· ∈ r.1.deferredCommands)) := by
    split_ifs
    · refine ⟨_, rfl, ?_⟩
      obtain ⟨hdependents, hr⟩ := h.reloadAndRemarkDeps order (h.scheduled_seen _ hcmd) 0 file rfl
      obtain ⟨new, hadds⟩ := @adds_reloadAndRemarkDeps _ comp _ s order finishedCmd 0 file
      exact ⟨hdependents, hadds.mono hcmd, hr⟩
    · refine ⟨_, rfl, fun j hj => absurd hj List.not_mem_nil, hcmd, ?_⟩
      exact h.release (fun j hd => hd.1) (fun j hd => .inl ⟨hd, List.not_mem_nil⟩) fun j hj => hj
  obtain ⟨⟨s₁, dependents⟩, hr, hdependents, hscheduled, hprogress⟩ := hreload
  unfold PerformJobsState.taskFinished at hs'
  rw [hr] at hs'
  obtain ⟨hkeeps, hfinished⟩ := @markFinished_keeps _ _ comp s₁ finishedCmd false
  have hmark := hprogress.markFinished hscheduled
  dsimp only at hmark hdependents
  rw [← hkeeps] at hmark
  have heq : (s₁.markFinished comp finishedCmd false).scheduleDependents comp dependents = s' :=
    congrArg Prod.fst hs'
  rw [← heq]
  refine ⟨hmark.scheduleDependents hdependents, ?_, (congrArg Prod.snd hs').symm⟩
  rw [scheduleDependents_finished, hfinished]
  exact Finset.mem_insert_self _ _

theorem Progress.skipDeferred (h : Progress comp s seen (· ∈ s.deferredCommands) []) (order : Iteration Job) :
    Progress comp (s.skipDeferred comp order) seen (· ∈ (s.skipDeferred comp order).deferredCommands) [] := by
  have hskip : ∀ (cmds : List Job) (s : PerformJobsState Job), cmds.Nodup →
      Progress comp s seen (· ∈ cmds) [] → Progress comp (cmds.foldl (fun s cmd =>
        PerformJobsState.markFinished comp
          { s with scheduledCommands := insert cmd s.scheduledCommands } cmd true) s) seen (fun _ => False) [] := by
    intro cmds
    induction cmds with
    | nil =>
      intro s _ hs
      exact hs.release (fun j hd => hd.elim) (fun j hd => absurd hd List.not_mem_nil) fun j hj => hj
    | cons cmd rest ih =>
      intro s hnodup hs
      obtain ⟨hcmd, hrest⟩ := List.nodup_cons.1 hnodup
      apply ih _ hrest
      apply (hs.skip List.mem_cons_self).release
      · intro j hj
        exact ⟨List.mem_cons_of_mem _ hj, fun heq => hcmd (heq ▸ hj)⟩
      · intro j hd
        exact .inl ((List.mem_cons.1 hd.1).resolve_left hd.2)
      · exact fun j hj => hj
  have hlist : Progress comp s seen (· ∈ order.toList s.deferredCommands) [] :=
    h.release (fun j hj => (order.mem_toList _ j).1 hj) (fun j hd => .inl ((order.mem_toList _ j).2 hd))
      fun j hj => hj
  have hdone := hskip _ s (order.nodup_toList _) hlist
  have hempty : (fun _ : Job => False) = (· ∈ (∅ : Finset Job)) := by
    funext j
    exact (eq_false (Finset.notMem_empty j)).symm
  rw [hempty] at hdone
  unfold PerformJobsState.skipDeferred
  exact { hdone with }

end Callbacks

/-! ## Before the task queue -/

section Initial

variable {s : PerformJobsState Job} {before : List Job} {cmd : Job}

theorem Progress.see {seen deferred : Job → Prop} {todo : List Job} (h : Progress comp s seen deferred todo) :
    Progress comp s (fun j => seen j ∨ j = cmd) deferred (cmd :: todo) := by
  refine { h with scheduled_seen := fun j hj => .inl (h.scheduled_seen j hj), blocked := fun k l hlookup => ?_,
                  waiting := fun j hd => ⟨.inl (h.waiting j hd).1, (h.waiting j hd).2⟩,
                  covered := fun j hj => ?_,
                  reported := fun j hj => ⟨.inl (h.reported j hj).1, (h.reported j hj).2⟩ }
  · obtain ⟨hne, hk, hall⟩ := h.blocked k l hlookup
    exact ⟨hne, hk, fun j hj => ⟨(hall j hj).1, .inl (hall j hj).2.1, (hall j hj).2.2⟩⟩
  · rcases hj with hj | rfl
    · rcases h.covered j hj with hscheduled | hd | htodo | hblocked
      · exact .inl hscheduled
      · exact .inr (.inl hd)
      · exact .inr (.inr (.inl (List.mem_cons_of_mem _ htodo)))
      · exact .inr (.inr (.inr hblocked))
    · exact .inr (.inr (.inl List.mem_cons_self))

theorem Progress.scheduleNext (h : Progress comp s (· ∈ before) (· ∈ s.deferredCommands) [])
    (hnew : cmd ∉ before) : Progress comp (s.scheduleCommandIfNecessaryAndPossible comp cmd)
      (fun j => j ∈ before ∨ j = cmd)
      (· ∈ (s.scheduleCommandIfNecessaryAndPossible comp cmd).deferredCommands) [] := by
  rw [(schedule_keeps s cmd).1]
  exact h.see.schedule (.inr rfl) fun hd => hnew (h.waiting cmd hd).1

theorem Progress.deferNext (h : Progress comp s (· ∈ before) (· ∈ s.deferredCommands) []) (hnew : cmd ∉ before) :
    Progress comp { s with deferredCommands := insert cmd s.deferredCommands } (fun j => j ∈ before ∨ j = cmd)
      (· ∈ insert cmd s.deferredCommands) [] := by
  have hsee : Progress comp s (fun j => j ∈ before ∨ j = cmd) (· ∈ s.deferredCommands) [cmd] := h.see
  refine { hsee with blocked := fun k l hlookup => ?_, waiting := fun j hd => ?_, covered := fun j hj => ?_,
                     reported := fun j hj => ?_ }
  · obtain ⟨hne, hk, hall⟩ := h.blocked k l hlookup
    refine ⟨hne, hk, fun j hj => ?_⟩
    obtain ⟨hinput, hseen, hd⟩ := hall j hj
    refine ⟨hinput, .inl hseen, fun hd' => ?_⟩
    rcases Finset.mem_insert.1 hd' with rfl | hd'
    · exact hnew hseen
    · exact hd hd'
  · rcases Finset.mem_insert.1 hd with rfl | hd
    · exact ⟨.inr rfl, fun hmem => hnew (h.scheduled_seen j hmem)⟩
    · exact hsee.waiting j hd
  · rcases hsee.covered j hj with hscheduled | hd | hself | hblocked
    · exact .inl hscheduled
    · exact .inr (.inl (Finset.mem_insert_of_mem hd))
    · rw [List.mem_singleton.1 hself]
      exact .inr (.inl (Finset.mem_insert_self _ _))
    · exact .inr (.inr (.inr hblocked))
  · obtain ⟨hseen, hd, hskipped⟩ := h.reported j hj
    refine ⟨.inl hseen, fun hd' => ?_, hskipped⟩
    rcases Finset.mem_insert.1 hd' with rfl | hd'
    · exact hnew hseen
    · exact hd hd'

theorem Progress.scheduleInitial (h : Progress comp s (· ∈ before) (· ∈ s.deferredCommands) [])
    (hjob : cmd ∈ comp.jobs) (hnew : cmd ∉ before) {order : Iteration Job} {files : Job → DependenciesFile}
    {s' : PerformJobsState Job} (hs' : s.scheduleInitial comp order files cmd = some s') :
    Progress comp s' (fun j => j ∈ before ∨ j = cmd) (· ∈ s'.deferredCommands) [] := by
  rcases scheduleInitial_cases s hs' with rfl | ⟨s₁, condition, hload, hhandle⟩
  · exact h.scheduleNext hnew
  · obtain ⟨depGraph, hwithin, hs₁⟩ := loadInitial_cases s hload
    have hgraph : Progress comp { s with depGraph } (· ∈ before) (· ∈ s.deferredCommands) [] :=
      { h with within := hwithin _ _ h.within hjob }
    have hfirst : Progress comp s₁ (· ∈ before) (· ∈ s₁.deferredCommands) [] := by
      rcases hs₁ with rfl | rfl
      · exact hgraph
      · refine (Progress.dependencyLoadFailed hgraph order).release (fun j hd => ?_) (fun j hd => hd.elim)
          fun j hj => hj
        exact absurd hd (Finset.notMem_empty j)
    rcases handleInitial_cases s₁ hhandle with rfl | ⟨depGraph', initial, hwithin', rfl⟩
    · exact hfirst.deferNext hnew
    · have hinitial : Progress comp { s₁ with
          depGraph := depGraph', initialOutOfDateCommands := initial } (· ∈ before)
          (· ∈ s₁.deferredCommands) [] := { hfirst with within := hwithin' _ _ hfirst.within }
      exact Progress.scheduleNext hinitial hnew

theorem Progress.scheduleInitialJobs {order : Iteration Job} {files : Job → DependenciesFile}
    {s' : PerformJobsState Job} (hs' : PerformJobsState.scheduleInitialJobs comp order files = some s') :
    Progress comp s' (· ∈ comp.jobs) (· ∈ s'.deferredCommands) [] := by
  have hrun : ∀ (rest before : List Job) (s : PerformJobsState Job), before ++ rest = comp.jobs →
      Progress comp s (· ∈ before) (· ∈ s.deferredCommands) [] →
      rest.foldlM (fun s cmd => s.scheduleInitial comp order files cmd) s = some s' →
      Progress comp s' (· ∈ comp.jobs) (· ∈ s'.deferredCommands) [] := by
    intro rest
    induction rest with
    | nil =>
      intro before s hjobs hs hrest
      rw [List.append_nil] at hjobs
      rw [← Option.some.inj hrest, ← hjobs]
      exact hs
    | cons cmd rest ih =>
      intro before s hjobs hs hrest
      rw [List.foldlM_cons] at hrest
      obtain ⟨s₁, hfirst, hrest⟩ := Option.bind_eq_some_iff.1 hrest
      have hnodup := comp.nodup_jobs
      rw [← hjobs] at hnodup
      have hnew : cmd ∉ before := fun hmem =>
        List.disjoint_of_nodup_append hnodup hmem List.mem_cons_self
      have hjob : cmd ∈ comp.jobs := by
        rw [← hjobs]
        exact List.mem_append_right _ List.mem_cons_self
      refine ih (before ++ [cmd]) s₁ (by rw [List.append_assoc]; exact hjobs) ?_ hrest
      have hseen : (fun j => j ∈ before ++ [cmd]) = fun j => j ∈ before ∨ j = cmd := by
        funext j
        rw [List.mem_append, List.mem_singleton]
      rw [hseen]
      exact hs.scheduleInitial hjob hnew hfirst
  refine hrun comp.jobs [] (init comp) rfl ?_ hs'
  refine ⟨rfl, ⟨fun n d hd => ?_, fun y hy => ?_⟩, fun j => ?_, fun j hj => ?_, fun j hj => ?_, fun j hj => ?_,
    fun j hj => ?_, fun k l hlookup => ?_, fun j hd => ?_, fun j hj => ?_, fun j hj => ?_⟩
  · exact absurd hd List.not_mem_nil
  · exact absurd hy List.not_mem_nil
  · exact iff_of_false (Finset.notMem_empty j) fun hj => hj.elim List.not_mem_nil List.not_mem_nil
  · exact absurd hj (Finset.notMem_empty j)
  · exact absurd hj (Finset.notMem_empty j)
  · exact absurd hj List.not_mem_nil
  · exact absurd hj List.not_mem_nil
  · cases hlookup
  · exact absurd hd (Finset.notMem_empty j)
  · exact absurd hj List.not_mem_nil
  · exact absurd hj List.not_mem_nil

theorem Progress.scheduleAdditionalJobs (h : Progress comp s (· ∈ comp.jobs) (· ∈ s.deferredCommands) [])
    (order : Iteration String) (isUpToDate : String → Bool) :
    Progress comp (s.scheduleAdditionalJobs comp order isUpToDate) (· ∈ comp.jobs)
      (· ∈ (s.scheduleAdditionalJobs comp order isUpToDate).deferredCommands) [] := by
  rcases scheduleAdditionalJobs_cases comp s order isUpToDate with
    hsame | ⟨depGraph, additional, hwithin, hs'⟩
  · rw [hsame]
    exact h
  · have hmarked := hwithin _ h.within
    rw [hs']
    exact Progress.scheduleAdditional (h.report hmarked) hmarked.visited

end Initial

/-! ## Runs -/

/-- What holds as long as every task has succeeded. -/
structure Config.Succeeds (comp : Compilation Job) (cfg : Config Job) : Prop where
  progress : Progress comp cfg.state (· ∈ comp.jobs) (· ∈ cfg.state.deferredCommands) []
  ended : cfg.phase = .ended → cfg.state.tasks = [] ∧ cfg.state.deferredCommands = ∅
  executing : cfg.phase ≠ .executing true

theorem Compilation.Step.succeeds {cfg cfg' : Config Job} (hstep : comp.Step cfg cfg') (honce : cfg.Once comp)
    (hall : ∀ e ∈ cfg'.ended, e.2.Succeeds) (h : cfg.Succeeds comp) : cfg'.Succeeds comp := by
  cases hstep with
  | @task s ended stopped order cmd hcmd outcome s' response hends =>
    have hsuccess : outcome.Succeeds := hall (cmd, outcome) (List.mem_append_right _ (List.mem_singleton_self _))
    cases outcome with
    | signalled => exact hsuccess.elim
    | finished returnCode file =>
      have hcode : returnCode = 0 := hsuccess
      rw [hcode] at hends
      have hadded : cmd ∈ s.added.map Prod.fst := honce.queue.mem_iff.2 (List.mem_append_left _ hcmd)
      have hscheduled : cmd ∈ s.scheduledCommands := (h.progress.scheduled_iff cmd).2 (.inl hadded)
      obtain ⟨hprogress, hfinished, hresponse⟩ := h.progress.taskFinished order hscheduled file hends
      refine ⟨{ hprogress with running := fun j hj => ?_ }, fun hphase => ?_, fun hphase => ?_⟩
      · by_cases hself : j = cmd
        · rw [hself]
          exact .inr hfinished
        · exact (hprogress.running j hj).imp_left (List.mem_erase_of_ne hself).2
      · cases hphase
      · have hstopped := Phase.executing.inj hphase
        rw [hresponse, decide_eq_false (by decide), Bool.or_false] at hstopped
        exact h.executing (congrArg Phase.executing hstopped)
  | @skip s ended stopped order hdrained s' hskip =>
    have hprogress := h.progress.skipDeferred order
    rw [hskip] at hprogress
    refine ⟨hprogress, fun hphase => ?_, fun hphase => ?_⟩
    · dsimp only at hphase ⊢
      refine ⟨?_, ?_⟩
      · by_contra hne
        rw [if_pos ⟨hprogress.result, hne⟩] at hphase
        cases hphase
      · rw [← hskip]
        rfl
    · dsimp only at hphase
      split_ifs at hphase
      cases hphase

theorem Compilation.Step.ended_subset {cfg cfg' : Config Job} (hstep : comp.Step cfg cfg') :
    cfg.ended ⊆ cfg'.ended := by
  cases hstep with
  | task stopped order cmd hcmd outcome hends => exact List.subset_append_left _ _
  | skip order hdrained hskip => exact List.Subset.refl _

theorem Compilation.Reachable.succeeds {cfg : Config Job} (h : comp.Reachable cfg)
    (hall : ∀ e ∈ cfg.ended, e.2.Succeeds) : cfg.Succeeds comp := by
  obtain ⟨s, hstart, hrun⟩ := h
  induction hrun with
  | refl =>
    obtain ⟨commands, files, externals, isUpToDate, s₀, hinit, rfl⟩ := hstart
    refine ⟨(Progress.scheduleInitialJobs hinit).scheduleAdditionalJobs externals isUpToDate, ?_, ?_⟩
    · intro hphase
      cases hphase
    · intro hphase
      cases hphase
  | tail hrun hstep ih =>
    have honce := Compilation.Reachable.once ⟨s, hstart, hrun⟩
    exact hstep.succeeds honce hall (ih fun e he => hall e (hstep.ended_subset he))

omit [DecidableEq Job] in
theorem Compilation.inputs_induct (comp : Compilation Job) {P : Job → Prop}
    (h : ∀ j ∈ comp.jobs, (∀ i ∈ comp.inputs j, P i) → P j) : ∀ j ∈ comp.jobs, P j := by
  let before : {j // j ∈ comp.jobs} → {j // j ∈ comp.jobs} → Prop := fun i j =>
    Relation.TransGen (fun i k => i ∈ comp.inputs k) i.1 j.1
  have hfinite : Finite {j // j ∈ comp.jobs} := comp.jobs.finite_toSet.to_subtype
  have htrans : IsTrans _ before := ⟨fun _ _ _ hij hjk => hij.trans hjk⟩
  have hirrefl : Std.Irrefl before := ⟨fun j hj => comp.acyclic j.1 j.2 hj⟩
  have hwf : WellFounded before := Finite.wellFounded_of_trans_of_irrefl before
  intro j hj
  refine hwf.induction (C := fun j => P j.1) ⟨j, hj⟩ fun ⟨j, hj⟩ ih => h j hj fun i hi => ?_
  exact ih ⟨i, comp.inputs_mem j hj i hi⟩ (.single hi)

theorem Compilation.Reachable.drained {cfg : Config Job} (h : comp.Reachable cfg) (hphase : cfg.phase = .ended)
    (hall : ∀ e ∈ cfg.ended, e.2.Succeeds) : (∀ j ∈ comp.jobs, j ∈ cfg.state.finishedCommands) ∧
      cfg.state.blockingCommands = ∅ ∧ cfg.state.deferredCommands = ∅ := by
  obtain ⟨hprogress, hended, -⟩ := h.succeeds hall
  obtain ⟨htasks, hdeferred⟩ := hended hphase
  have hscheduled : ∀ j ∈ cfg.state.scheduledCommands, j ∈ cfg.state.finishedCommands := by
    intro j hj
    rcases (hprogress.scheduled_iff j).1 hj with hadded | hskipped
    · exact (hprogress.running j hadded).resolve_left (htasks ▸ List.not_mem_nil)
    · exact (hprogress.skipped j hskipped).1
  have hfinished : ∀ j ∈ comp.jobs, j ∈ cfg.state.finishedCommands := by
    refine comp.inputs_induct fun j hj ih => ?_
    rcases hprogress.covered j hj with hj | hd | htodo | ⟨k, l, hlookup, hjl⟩
    · exact hscheduled j hj
    · exact absurd (hdeferred ▸ hd) (Finset.notMem_empty j)
    · exact absurd htodo List.not_mem_nil
    · -- the input that blocks it is finished by induction
      obtain ⟨-, hk, hblocked⟩ := hprogress.blocked k l hlookup
      exact absurd (ih k (hblocked j hjl).1) hk
  refine ⟨hfinished, ?_, hdeferred⟩
  apply AList.ext
  refine List.eq_nil_iff_forall_not_mem.2 fun ⟨k, l⟩ hmem => ?_
  obtain ⟨hne, hk, hall⟩ := hprogress.blocked k l (AList.mem_lookup_iff.2 hmem)
  obtain ⟨j, hj⟩ := List.exists_mem_of_ne_nil l hne
  exact hk (hfinished k (comp.inputs_mem j (hall j hj).2.1 k (hall j hj).1))

/-- No job is added twice, or before its inputs are finished. When a successful run is over, every job has
been run once or was skipped, and nothing that was reported was skipped. -/
theorem Compilation.Reachable.complete {cfg : Config Job} (h : comp.Reachable cfg) :
    (cfg.state.added.map Prod.fst).Nodup ∧
      (∀ a ∈ cfg.state.added, ∀ i ∈ comp.inputs a.1, i ∈ a.2) ∧
      (cfg.phase = .ended → (∀ e ∈ cfg.ended, e.2.Succeeds) →
        (∀ j ∈ comp.jobs, j ∈ cfg.state.finishedCommands ∧
          (((cfg.ended.map Prod.fst).count j = 1 ∧ j ∉ cfg.state.skipped) ∨
            ((cfg.ended.map Prod.fst).count j = 0 ∧ j ∈ cfg.state.skipped))) ∧
        cfg.state.blockingCommands = ∅ ∧ cfg.state.deferredCommands = ∅ ∧
        ∀ j ∈ cfg.state.reported, j ∉ cfg.state.skipped) := by
  have honce := h.once
  refine ⟨honce.nodup, honce.ready, fun hphase hall => ?_⟩
  obtain ⟨hfinished, hblocking, hdeferred⟩ := h.drained hphase hall
  obtain ⟨hprogress, hended, -⟩ := h.succeeds hall
  have hqueue := honce.queue
  rw [(hended hphase).1, List.nil_append] at hqueue
  refine ⟨fun j hj => ⟨hfinished j hj, ?_⟩, hblocking, hdeferred, fun j hj => (hprogress.reported j hj).2.2⟩
  rw [← hqueue.count_eq]
  rcases (hprogress.scheduled_iff j).1 (hprogress.finished j (hfinished j hj)) with hadded | hskipped
  · exact .inl ⟨List.count_eq_one_of_mem honce.nodup hadded, fun hmem => (hprogress.skipped j hmem).2 hadded⟩
  · exact .inr ⟨List.count_eq_zero.2 (hprogress.skipped j hskipped).2, hskipped⟩

/-- Job 0 is deferred, and job 1 waits for it. -/
def Compilation.deferredInput : Compilation Nat where
  jobs := [0, 1]
  inputs j := if j = 1 then [0] else []
  condition j := if j = 0 then .checkDependencies else .always
  hasDependenciesFile j := j = 0
  enableIncrementalBuild := true
  continueBuildingAfterErrors := false
  nodup_jobs := by decide
  inputs_mem := by decide
  acyclic := by
    have hlt : ∀ i k : Nat, Relation.TransGen (fun i k => i ∈ if k = 1 then [0] else ([] : List Nat)) i k → i < k := by
      intro i k h
      induction h with
      | single h =>
        split_ifs at h with hk
        · rw [List.mem_singleton.1 h, hk]
          exact Nat.one_pos
        · exact absurd h List.not_mem_nil
      | tail _ h ih =>
        split_ifs at h with hk
        · rw [List.mem_singleton.1 h] at ih
          omega
        · exact absurd h List.not_mem_nil
    exact fun j _ h => lt_irrefl j (hlt j j h)

theorem Compilation.Reachable.complete_deferredInput : ∃ cfg : Config Nat, cfg.ended.map Prod.fst = [1] ∧ cfg.state.skipped = [0] ∧
    cfg.state.blockingCommands = ∅ ∧ ∀ j ∈ Compilation.deferredInput.jobs, j ∈ cfg.state.finishedCommands := by
  let commands : Iteration Nat := ⟨Finset.toList, fun _ _ => Finset.mem_toList, Finset.nodup_toList⟩
  let externals : Iteration String := ⟨Finset.toList, fun _ _ => Finset.mem_toList, Finset.nodup_toList⟩
  let graph : DependencyGraph Nat := (DependencyGraph.empty.loadFromBuffer 0 (some .null)).1
  let waiting : PerformJobsState Nat :=
    ⟨∅, ∅, AList.insert 0 [1] ∅, {0}, [], graph, 0, false, true, [], [], [], []⟩
  let running : PerformJobsState Nat :=
    ⟨{1, 0}, {0}, ∅, ∅, [], graph, 0, false, true, [1], [(1, {0})], [0], []⟩
  let done : PerformJobsState Nat :=
    ⟨{1, 0}, {1, 0}, ∅, ∅, [], graph, 0, false, true, [], [(1, {0})], [0], []⟩
  have hstart : Compilation.deferredInput.Starts waiting := by
    refine ⟨commands, fun _ => some (some .null), externals, fun _ => true, waiting, rfl, ?_⟩
    unfold scheduleAdditionalJobs
    have hnone : (externals.toList waiting.depGraph.externalDependencies).filter (fun _ => !true) = [] :=
      List.filter_eq_nil_iff.2 fun _ _ => Bool.false_ne_true
    dsimp only
    rw [hnone]
    rfl
  have hskip : waiting.skipDeferred Compilation.deferredInput commands = running := by
    unfold skipDeferred
    rw [show commands.toList waiting.deferredCommands = [0] from Finset.toList_singleton 0]
    rfl
  have hskip' : done.skipDeferred Compilation.deferredInput commands = done := by
    unfold skipDeferred
    rw [show commands.toList done.deferredCommands = [] from Finset.toList_empty]
    rfl
  have hfirst : Compilation.deferredInput.Step ⟨waiting, .executing false, []⟩ ⟨running, .executing false, []⟩ :=
    .skip commands (.inl rfl) hskip
  have htask : Compilation.deferredInput.Step ⟨running, .executing false, []⟩ ⟨done, .executing false, [(1, .finished 0 none)]⟩ :=
    .task false commands 1 (List.mem_singleton_self 1) (.finished 0 none) rfl
  have hlast : Compilation.deferredInput.Step ⟨done, .executing false, [(1, .finished 0 none)]⟩
      ⟨done, .ended, [(1, .finished 0 none)]⟩ := .skip commands (.inl rfl) hskip'
  have hreachable : Compilation.deferredInput.Reachable ⟨done, .ended, [(1, .finished 0 none)]⟩ :=
    ⟨waiting, hstart, ((Relation.ReflTransGen.single hfirst).tail htask).tail hlast⟩
  obtain ⟨-, -, hcomplete⟩ := hreachable.complete
  obtain ⟨hjobs, hblocking, -, -⟩ := hcomplete rfl fun e he => by
    rw [List.mem_singleton.1 he]
    rfl
  exact ⟨_, rfl, rfl, hblocking, fun j hj => (hjobs j hj).1⟩

theorem Compilation.Reachable.checkUnfinishedJobs {cfg : Config Job} (h : comp.Reachable cfg)
    (hphase : cfg.phase = .ended) : (cfg.state.checkUnfinishedJobs comp).isSome = true := by
  unfold PerformJobsState.checkUnfinishedJobs
  by_cases hresult : cfg.state.result = 0
  · have hblocking := (h.drained hphase (h.once.succeeds hresult)).2.1
    rw [if_pos hresult, hblocking]
    rfl
  · rw [if_neg hresult]
    rfl

end SwiftKStdlib.Driver
