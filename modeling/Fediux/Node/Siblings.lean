import Fediux.Node.Registry

set_option autoImplicit false

/-! # What the end of one task does to the others

The registry is keyed by the request id alone. A delete event erases the whole entry of its
request, and the final status of one sub-task is cached for the request, so the end of a task
reaches the running tasks of the same request. `frames_iff_spares` says exactly when it does
not.
-/

namespace Fediux.Node

open OrderedMap (Entries find? assign erase)
open Transition (Taken run trace step_of_mem_trace)

/-! ## What a running task relies on -/

/-- The job `i` with the task `t` is in the map. -/
def State.Registered (s : State) (i : Nat) (t : TaskInfo) : Prop := i ∈ s.workers t.workerId

instance (s : State) (i : Nat) (t : TaskInfo) : Decidable (s.Registered i t) :=
  inferInstanceAs (Decidable (i ∈ s.workers t.workerId))

/-- `GetWorker` finds the job `i` for its task `t`. -/
def State.Found (s : State) (i : Nat) (t : TaskInfo) : Prop := s.getWorker t = some i

/-- Data sent to the task `t` is given to the job `i`: data for a finished task is refused. -/
def State.AcceptsData (s : State) (i : Nat) (t : TaskInfo) : Prop :=
  s.isFinishedTask t.workerId = false ∧ s.Found i t

/-- A kill of the task `t` reaches the job `i`: the kill of a finished task is ignored. -/
def State.Killable (s : State) (i : Nat) (t : TaskInfo) : Prop :=
  s.isFinishedTask t.workerId = false ∧ s.Registered i t

/-- The job `i` with the task `t` keeps what it relies on. -/
structure Undisturbed (s s' : State) (i : Nat) (t : TaskInfo) : Prop where
  registered : s.Registered i t → s'.Registered i t
  found : s.Found i t → s'.Found i t
  acceptsData : s.AcceptsData i t → s'.AcceptsData i t
  killable : s.Killable i t → s'.Killable i t

/-- The task that a step completes or deletes. -/
def State.completes (s : State) : Action → Option TaskInfo
  | .finishExecute i _ => (s.jobs[i]?).map Job.task
  | .cacheLastTaskStatus i => (s.jobs[i]?).map Job.task
  | .pushDel i => (s.jobs[i]?).map Job.task
  | .returnManual i => (s.jobs[i]?).map Job.task
  | .stopTask t => some t
  | .manage => (s.taskManageQueue.head?.filter fun e => e.type = .kDel).map TaskManage.task
  | _ => none

/-- The step leaves every running job of another task than the one it completes or deletes
undisturbed. -/
def Frames (e : Taken State Action) : Prop :=
  ∀ t ∈ e.before.completes e.act, ∀ (j : Nat) (job : Job), e.before.jobs[j]? = some job →
    job.exec = .running → job.task ≠ t → Undisturbed e.before e.after j job.task

/-- No other running job of the request is registered when a delete event is handled, nor when
the first final status of the request is cached. -/
def Spares (s : State) (a : Action) : Prop :=
  ∀ t ∈ s.completes a, ∀ (j : Nat) (job : Job), s.jobs[j]? = some job → job.exec = .running →
    job.task ≠ t → job.task.workerId = t.workerId →
    match a with
    | .manage => ¬ s.Registered j job.task
    | .cacheLastTaskStatus _ =>
        s.isFinishedTask t.workerId = false → ¬ s.Registered j job.task
    | _ => True

/-! ## Steps that disturb and steps that do not -/

theorem State.Found.registered {s : State} {i : Nat} {t : TaskInfo} (h : s.Found i t) :
    s.Registered i t := List.mem_of_mem_head? h

/-- Only the entries of its request matter to a job. -/
theorem undisturbed_of_entries {s s' : State} {i : Nat} {t : TaskInfo}
    (hmap : s'.workers t.workerId = s.workers t.workerId)
    (hstatus : find? s'.finishedTaskStatus t.workerId = find? s.finishedTaskStatus t.workerId) :
    Undisturbed s s' i t := by
  have hfound : s'.getWorker t = s.getWorker t := by rw [State.getWorker, hmap, State.getWorker]
  have hfinished : s'.isFinishedTask t.workerId = s.isFinishedTask t.workerId := by
    rw [State.isFinishedTask, hstatus, State.isFinishedTask]
  refine ⟨?_, ?_, ?_, ?_⟩
  · intro h
    rwa [State.Registered, hmap]
  · intro h
    rwa [State.Found, hfound]
  · intro h
    rwa [State.AcceptsData, State.Found, hfinished, hfound]
  · intro h
    rwa [State.Killable, State.Registered, hfinished, hmap]

/-- The cached final status of its request disturbs exactly the registered jobs. -/
theorem undisturbed_iff_of_finished {s s' : State} {i : Nat} {t : TaskInfo}
    (hmap : s'.workers t.workerId = s.workers t.workerId)
    (hfinished : s'.isFinishedTask t.workerId = true) :
    Undisturbed s s' i t ↔ (s.isFinishedTask t.workerId = false → ¬ s.Registered i t) := by
  have hfound : s'.getWorker t = s.getWorker t := by rw [State.getWorker, hmap, State.getWorker]
  constructor
  · intro h hrun hreg
    have hkill := (h.killable ⟨hrun, hreg⟩).1
    rw [hfinished] at hkill
    cases hkill
  · intro h
    refine ⟨?_, ?_, ?_, ?_⟩
    · intro hreg
      rwa [State.Registered, hmap]
    · intro hf
      rwa [State.Found, hfound]
    · rintro ⟨hrun, hf⟩
      exact absurd hf.registered (h hrun)
    · rintro ⟨hrun, hreg⟩
      exact absurd hreg (h hrun)

/-- The erased entry of its request disturbs exactly the registered jobs. -/
theorem undisturbed_iff_of_erased {s s' : State} {i : Nat} {t : TaskInfo}
    (hmap : s'.workers t.workerId = []) : Undisturbed s s' i t ↔ ¬ s.Registered i t := by
  constructor
  · intro h hreg
    have hnone := h.registered hreg
    rw [State.Registered, hmap] at hnone
    cases hnone
  · intro h
    exact ⟨fun hreg => absurd hreg h, fun hf => absurd hf.registered h,
      fun ha => absurd ha.2.registered h, fun hk => absurd hk.2 h⟩

/-! ## Steps and runs -/

/-- A step frames the other tasks exactly when it spares them. -/
theorem frames_iff_spares_step {s s' : State} {a : Action} (hstep : step s a = some s') :
    Frames ⟨s, a, s'⟩ ↔ Spares s a := by
  refine forall_congr' fun t => forall_congr' fun ht => forall_congr' fun j =>
    forall_congr' fun job => forall_congr' fun hjob => forall_congr' fun hrun =>
    forall_congr' fun hne => ?_
  show Undisturbed s s' j job.task ↔ _
  cases a with
  | finishExecute i status =>
      obtain ⟨_, _, rfl⟩ := Option.map_eq_some_iff.mp hstep
      exact ⟨fun _ _ => trivial, fun _ => undisturbed_of_entries rfl rfl⟩
  | cacheLastTaskStatus i =>
      obtain ⟨done, hdone, hstep⟩ := Option.bind_eq_some_iff.mp hstep
      rw [State.completes, hdone] at ht
      cases ht
      split at hstep
      · next status _ =>
          split_ifs at hstep
          cases hstep
          by_cases hr : job.task.workerId = done.task.workerId
          · -- the status is cached for the request, so a sub-task of it counts as finished
            have hfinished :
                ((s.modifyJob i fun job => { job with exec := .cached }).cacheLastTaskStatus
                  done.task.workerId status).isFinishedTask job.task.workerId = true := by
              rw [State.isFinishedTask, State.cacheLastTaskStatus, OrderedMap.find?_assign,
                if_pos hr]
              rfl
            have hiff := undisturbed_iff_of_finished (s := s) (i := j) (t := job.task) (by rfl)
              hfinished
            rw [hr] at hiff
            exact hiff.trans ⟨fun h _ => h, fun h => h hr⟩
          · refine ⟨fun _ h => absurd h hr, fun _ => undisturbed_of_entries rfl ?_⟩
            rw [State.cacheLastTaskStatus, OrderedMap.find?_assign, if_neg hr]
            rfl
      · cases hstep
  | pushDel i =>
      obtain ⟨_, _, rfl⟩ := Option.map_eq_some_iff.mp hstep
      exact ⟨fun _ _ => trivial, fun _ => undisturbed_of_entries rfl rfl⟩
  | returnManual i =>
      obtain ⟨done, hdone, hstep⟩ := Option.bind_eq_some_iff.mp hstep
      split at hstep
      · split_ifs at hstep
        cases hstep
        exact ⟨fun _ _ => trivial, fun _ => undisturbed_of_entries rfl rfl⟩
      · cases hstep
  | stopTask t' =>
      cases hstep
      exact ⟨fun _ _ => trivial, fun _ => undisturbed_of_entries rfl rfl⟩
  | manage =>
      rw [step] at hstep
      rw [State.completes] at ht
      cases hqueue : s.taskManageQueue with
      | nil =>
          rw [hqueue] at hstep
          cases hstep
      | cons e queue =>
          rw [hqueue] at hstep ht
          cases hstep
          obtain ⟨e', he', rfl⟩ := Option.map_eq_some_iff.mp ht
          obtain ⟨he', htype⟩ := Option.filter_eq_some_iff.mp he'
          cases he'
          rw [decide_eq_true_eq] at htype
          obtain ⟨_, _, hstatus⟩ := { s with taskManageQueue := queue }.manageTask_frame e
          -- the whole entry of the request is erased
          have hmap : ({ s with taskManageQueue := queue }.manageTask e).taskExecutorMap =
              erase s.taskExecutorMap e.task.workerId := by
            rw [State.manageTask, htype]
            exact State.executeDelTaskOperation_taskExecutorMap _ e
          by_cases hr : job.task.workerId = e.task.workerId
          · rw [undisturbed_iff_of_erased]
            · exact ⟨fun h _ => h, fun h => h hr⟩
            · rw [State.workers, hmap, OrderedMap.find?_erase, if_pos hr]
              rfl
          · refine ⟨fun _ h => absurd h hr, fun _ => undisturbed_of_entries ?_ ?_⟩
            · rw [State.workers, hmap, OrderedMap.find?_erase, if_neg hr]
              rfl
            · rw [hstatus]
  | executeTask t' manualLaunch => cases ht
  | setTaskReady i ready => cases ht
  | pushAdd i => cases ht
  | failInit i => cases ht
  | killTask t' fromClient => cases ht
  | cleanFinishedTask => cases ht
  | processKillTask => cases ht
  | cleanTimeoutCachedTaskStatus => cases ht
  | tick => cases ht

/-- **In a run, the end of a task leaves the other running tasks alone exactly when no other
running task of its request is registered.** -/
theorem frames_iff_spares (acts : List Action) :
    (∀ e ∈ trace step State.init acts, Frames e) ↔
      ∀ e ∈ trace step State.init acts, Spares e.before e.act :=
  forall_congr' fun _ => forall_congr' fun he => frames_iff_spares_step (step_of_mem_trace he)

/-- Two sub-tasks of one request; the first one ends. -/
def twoSubTasks : List Action :=
  [.executeTask ⟨['r'], ['0']⟩ false, .executeTask ⟨['r'], ['1']⟩ false, .setTaskReady 0 true,
    .setTaskReady 1 true, .pushAdd 0, .pushAdd 1, .manage, .manage, .finishExecute 0 .SUCCESS,
    .cacheLastTaskStatus 0, .pushDel 0, .manage]

/-- The delete event of the first sub-task takes the second one out of the map. -/
theorem not_frames_twoSubTasks :
    ¬ ∀ (acts : List Action), ∀ e ∈ trace step State.init acts, Frames e := by
  intro h
  have hlast := h twoSubTasks _ (List.mem_of_getElem? (i := 11) rfl)
  have hsecond := hlast ⟨['r'], ['0']⟩ rfl 1 _ rfl rfl (by decide)
  have hreg := hsecond.registered (by decide)
  exact absurd hreg (by decide)

end Fediux.Node
