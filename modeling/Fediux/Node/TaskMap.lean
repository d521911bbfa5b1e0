import Fediux.Node.Registry

set_option autoImplicit false

/-! # When the executor map follows the tasks

A worker should be in `task_executor_map_` while its task runs, from the handling of its add
event on, and be gone once the task has ended and the queue is empty (`MapTracksTasks`). The
executor thread does not wait for the add event, so a short task can push its delete event
first, and a delete event erases all workers of its request. `Orderly` is the condition on the
steps of a run that excludes both; `mapTracksTasks_of_orderly` is the result, and its invariant
says that behind every add event of an ended task there is a delete event.
-/

namespace Fediux.Node

open OrderedMap (Entries find? assign erase)
open Transition (run trace run_invariant step_of_mem_trace getElem?_modify_eq_some
  getElem?_modify_of_some getElem?_concat_eq_some getElem?_concat_of_some)

/-! ## The property and the condition -/

structure MapTracksTasks (s : State) : Prop where
  ended : ∀ i job, s.jobs[i]? = some job → job.exec = .ended → s.taskManageQueue = [] →
    ∀ r, i ∉ s.workers r
  running : ∀ i job, s.jobs[i]? = some job → job.exec = .running → job.rpc = .added →
    (∀ e ∈ s.taskManageQueue, e.worker ≠ some i) → i ∈ s.workers job.task.workerId

/-- A step of the threads that dispatch and run tasks and of the manager thread: no task is
killed or stopped from outside, and every executor thread pushes its delete event. -/
def Action.ofTask : Action → Bool
  | .killTask _ _ => false
  | .stopTask _ => false
  | .returnManual _ => false
  | _ => true

/-- A delete event is pushed only when the task's add event is not still to come, and handled
only when no worker of the erased entry is running. -/
def Orderly (s : State) : Action → Prop
  | .pushDel i => ∀ job ∈ s.jobs[i]?, ¬ (job.ready = some true ∧ job.rpc = .waiting)
  | .manage => ∀ e ∈ s.taskManageQueue.head?, e.type = .kDel →
      ∀ i ∈ s.workers e.task.workerId, ∀ job ∈ s.jobs[i]?, job.exec ≠ .running
  | _ => True

instance (s : State) (a : Action) : Decidable (Orderly s a) := by
  cases a <;> unfold Orderly <;> infer_instance

/-! ## Delete events behind add events -/

/-- A delete event of the request `r` is in the queue behind every event of the worker `i`. -/
def DelBehind (i : Nat) (r : Str) : List TaskManage → Prop
  | [] => False
  | e :: q => DelBehind i r q ∨
      (e.type = .kDel ∧ e.task.workerId = r ∧ ∀ e' ∈ q, e'.worker ≠ some i)

theorem DelBehind.push {i : Nat} {r : Str} {q : List TaskManage} (h : DelBehind i r q)
    {e : TaskManage} (he : e.worker ≠ some i) : DelBehind i r (q ++ [e]) := by
  induction q with
  | nil => exact h.elim
  | cons e₀ q ih =>
      -- the new event is none of the worker's, so it may stand behind the delete event
      rcases h with h | ⟨htype, hr, hq⟩
      · exact Or.inl (ih h)
      · refine Or.inr ⟨htype, hr, ?_⟩
        intro e' he'
        rcases List.mem_append.mp he' with hmem | hmem
        · exact hq e' hmem
        · rw [List.mem_singleton.mp hmem]
          exact he

theorem delBehind_push_del (i : Nat) (t : TaskInfo) (q : List TaskManage) :
    DelBehind i t.workerId (q ++ [{ task := t, worker := none, type := .kDel }]) := by
  induction q with
  | nil => exact Or.inr ⟨rfl, rfl, fun _ h => (List.not_mem_nil h).elim⟩
  | cons e q ih => exact Or.inl ih

/-! ## The invariant -/

/-- What the map, the queue and the jobs have to do with each other. -/
structure Inv (jobs : List Job) (map : Entries Str (List Nat)) (queue : List TaskManage) :
    Prop where
  entry : ∀ (r : Str) (i : Nat), i ∈ (find? map r).getD [] →
    ∃ job, jobs[i]? = some job ∧ job.task.workerId = r ∧ job.rpc = .added
  event : ∀ e ∈ queue, ∀ (i : Nat), e.worker = some i →
    e.type = .kAdd ∧ ∃ job, jobs[i]? = some job ∧ job.task = e.task ∧ job.rpc = .added
  noKill : ∀ e ∈ queue, e.type ≠ .kKill
  ended : ∀ (i : Nat) (job : Job), jobs[i]? = some job → job.exec = .ended →
    (i ∈ (find? map job.task.workerId).getD [] ∨ ∃ e ∈ queue, e.worker = some i) →
    DelBehind i job.task.workerId queue
  dispatched : ∀ (i : Nat) (job : Job), jobs[i]? = some job → job.exec = .ended →
    ¬ (job.ready = some true ∧ job.rpc = .waiting)
  running : ∀ (i : Nat) (job : Job), jobs[i]? = some job → job.exec = .running →
    job.rpc = .added → (∀ e ∈ queue, e.worker ≠ some i) →
    i ∈ (find? map job.task.workerId).getD []

def Tracked (s : State) : Prop := Inv s.jobs s.taskExecutorMap s.taskManageQueue

theorem Tracked.mapTracksTasks {s : State} (h : Tracked s) : MapTracksTasks s := by
  refine ⟨?_, h.running⟩
  intro i job hjob hended hempty r hr
  obtain ⟨job', hjob', rfl, _⟩ := h.entry r i hr
  rw [hjob] at hjob'
  cases hjob'
  have hdel := h.ended i job hjob hended (Or.inl hr)
  rw [hempty] at hdel
  exact hdel

theorem tracked_init : Tracked State.init := by
  refine ⟨?_, ?_, ?_, ?_, ?_, ?_⟩
  · intro r i h
    cases h
  · intro e h
    cases h
  · intro e h
    cases h
  · intro i job h
    cases h
  · intro i job h
    cases h
  · intro i job h
    cases h

section Steps

variable {jobs : List Job} {map : Entries Str (List Nat)} {queue : List TaskManage}

/-- Entries stay right when one job changes and is still dispatched. -/
theorem Inv.entry_modify (h : Inv jobs map queue) {i : Nat} {f : Job → Job}
    (hf : ∀ job, jobs[i]? = some job → (f job).task = job.task ∧
      (job.rpc = .added → (f job).rpc = .added)) (r : Str) (j : Nat)
    (hj : j ∈ (find? map r).getD []) :
    ∃ job, (jobs.modify i f)[j]? = some job ∧ job.task.workerId = r ∧ job.rpc = .added := by
  obtain ⟨old, hold, htask, hrpc⟩ := h.entry r j hj
  refine ⟨_, getElem?_modify_of_some hold, ?_⟩
  by_cases hij : i = j
  · subst hij
    rw [if_pos rfl, (hf old hold).1]
    exact ⟨htask, (hf old hold).2 hrpc⟩
  · rw [if_neg hij]
    exact ⟨htask, hrpc⟩

/-- Events stay right when one job changes and is still dispatched. -/
theorem Inv.event_modify (h : Inv jobs map queue) {i : Nat} {f : Job → Job}
    (hf : ∀ job, jobs[i]? = some job → (f job).task = job.task ∧
      (job.rpc = .added → (f job).rpc = .added)) (e : TaskManage) (he : e ∈ queue) (j : Nat)
    (hj : e.worker = some j) :
    e.type = .kAdd ∧
      ∃ job, (jobs.modify i f)[j]? = some job ∧ job.task = e.task ∧ job.rpc = .added := by
  obtain ⟨htype, old, hold, htask, hrpc⟩ := h.event e he j hj
  refine ⟨htype, _, getElem?_modify_of_some hold, ?_⟩
  by_cases hij : i = j
  · subst hij
    rw [if_pos rfl, (hf old hold).1]
    exact ⟨htask, (hf old hold).2 hrpc⟩
  · rw [if_neg hij]
    exact ⟨htask, hrpc⟩

theorem Inv.noKill_push (h : Inv jobs map queue) {e : TaskManage} (he : e.type ≠ .kKill) :
    ∀ e' ∈ queue ++ [e], e'.type ≠ .kKill := by
  intro e' he'
  rcases List.mem_append.mp he' with he' | he'
  · exact h.noKill e' he'
  · rwa [List.mem_singleton.mp he']

/-- A job that has ended keeps its delete event behind the events of others. -/
theorem Inv.ended_push (h : Inv jobs map queue) {e : TaskManage} {j : Nat} {job : Job}
    (hjob : jobs[j]? = some job) (hended : job.exec = .ended) (he : e.worker ≠ some j)
    (hin : j ∈ (find? map job.task.workerId).getD [] ∨ ∃ e' ∈ queue ++ [e], e'.worker = some j) :
    DelBehind j job.task.workerId (queue ++ [e]) := by
  refine (h.ended j job hjob hended ?_).push he
  refine hin.imp id ?_
  rintro ⟨e', he', hej⟩
  rcases List.mem_append.mp he' with he' | he'
  · exact ⟨e', he', hej⟩
  · rw [List.mem_singleton.mp he'] at hej
    exact absurd hej he

/-- A step of one job that ends no task and pushes no event. -/
theorem Inv.modify (h : Inv jobs map queue) {i : Nat} {f : Job → Job}
    (hf : ∀ job, jobs[i]? = some job → (f job).task = job.task ∧
      ((f job).rpc = .added ↔ job.rpc = .added) ∧
      ((f job).exec = .running → job.exec = .running) ∧
      ((f job).exec = .ended → job.exec = .ended ∧
        ¬ ((f job).ready = some true ∧ (f job).rpc = .waiting))) :
    Inv (jobs.modify i f) map queue := by
  have hkeep : ∀ job, jobs[i]? = some job → (f job).task = job.task ∧
      (job.rpc = .added → (f job).rpc = .added) :=
    fun job hjob => ⟨(hf job hjob).1, (hf job hjob).2.1.mpr⟩
  refine ⟨h.entry_modify hkeep, h.event_modify hkeep, h.noKill, ?_, ?_, ?_⟩
  · intro j job hjob hended hin
    obtain ⟨old, hold, rfl⟩ := getElem?_modify_eq_some hjob
    by_cases hij : i = j
    · subst hij
      obtain ⟨htask, _, _, hend⟩ := hf old hold
      rw [if_pos rfl] at hended hin ⊢
      rw [htask] at hin ⊢
      exact h.ended i old hold (hend hended).1 hin
    · rw [if_neg hij] at hended hin ⊢
      exact h.ended j old hold hended hin
  · intro j job hjob hended
    obtain ⟨old, hold, rfl⟩ := getElem?_modify_eq_some hjob
    by_cases hij : i = j
    · subst hij
      rw [if_pos rfl] at hended ⊢
      exact ((hf old hold).2.2.2 hended).2
    · rw [if_neg hij] at hended ⊢
      exact h.dispatched j old hold hended
  · intro j job hjob hrun hrpc hnew
    obtain ⟨old, hold, rfl⟩ := getElem?_modify_eq_some hjob
    by_cases hij : i = j
    · subst hij
      obtain ⟨htask, hadded, hrunning, _⟩ := hf old hold
      rw [if_pos rfl] at hrun hrpc ⊢
      rw [htask]
      exact h.running i old hold (hrunning hrun) (hadded.mp hrpc) hnew
    · rw [if_neg hij] at hrun hrpc ⊢
      exact h.running j old hold hrun hrpc hnew

/-- A new job. -/
theorem Inv.append (h : Inv jobs map queue) {job : Job} (hexec : job.exec = .running)
    (hrpc : job.rpc = .waiting) : Inv (jobs ++ [job]) map queue := by
  refine ⟨?_, ?_, h.noKill, ?_, ?_, ?_⟩
  · intro r i hi
    obtain ⟨old, ho, hrest⟩ := h.entry r i hi
    exact ⟨old, getElem?_concat_of_some ho, hrest⟩
  · intro e he i hi
    obtain ⟨htype, old, ho, hrest⟩ := h.event e he i hi
    exact ⟨htype, old, getElem?_concat_of_some ho, hrest⟩
  · intro i job' hjob hended hin
    rcases getElem?_concat_eq_some hjob with ho | ⟨_, rfl⟩
    · exact h.ended i job' ho hended hin
    · rw [hexec] at hended
      cases hended
  · intro i job' hjob hended
    rcases getElem?_concat_eq_some hjob with ho | ⟨_, rfl⟩
    · exact h.dispatched i job' ho hended
    · rw [hexec] at hended
      cases hended
  · intro i job' hjob hrun hadded hq
    rcases getElem?_concat_eq_some hjob with ho | ⟨_, rfl⟩
    · exact h.running i job' ho hrun hadded hq
    · rw [hrpc] at hadded
      cases hadded

/-- The end of the executor thread of a job whose add event is pushed or will not come. -/
theorem Inv.pushDel (h : Inv jobs map queue) {i : Nat} {job : Job} (hjob : jobs[i]? = some job)
    (horder : ¬ (job.ready = some true ∧ job.rpc = .waiting)) :
    Inv (jobs.modify i fun job => { job with exec := .ended }) map
      (queue ++ [{ task := job.task, worker := none, type := .kDel }]) := by
  refine ⟨h.entry_modify fun _ _ => ⟨rfl, id⟩, ?_, h.noKill_push OperateTaskType.noConfusion,
    ?_, ?_, ?_⟩
  · intro e he j hj
    rcases List.mem_append.mp he with he | he
    · exact h.event_modify (f := fun job => { job with exec := .ended }) (fun _ _ => ⟨rfl, id⟩)
        e he j hj
    · rw [List.mem_singleton.mp he] at hj
      cases hj
  · intro j job' hjob' hended hin
    obtain ⟨old, hold, rfl⟩ := getElem?_modify_eq_some hjob'
    by_cases hij : i = j
    · subst hij
      rw [hjob] at hold
      cases hold
      rw [if_pos rfl]
      -- the event just pushed is behind all others
      exact delBehind_push_del i job.task queue
    · rw [if_neg hij] at hended hin ⊢
      exact h.ended_push hold hended (fun he => nomatch he) hin
  · intro j job' hjob' hended
    obtain ⟨old, hold, rfl⟩ := getElem?_modify_eq_some hjob'
    by_cases hij : i = j
    · subst hij
      rw [hjob] at hold
      cases hold
      rw [if_pos rfl]
      exact horder
    · rw [if_neg hij] at hended ⊢
      exact h.dispatched j old hold hended
  · intro j job' hjob' hrun hrpc hq
    obtain ⟨old, hold, rfl⟩ := getElem?_modify_eq_some hjob'
    by_cases hij : i = j
    · rw [if_pos hij] at hrun
      cases hrun
    · rw [if_neg hij] at hrun hrpc ⊢
      exact h.running j old hold hrun hrpc
        (fun e he => hq e (List.mem_append.mpr (Or.inl he)))

/-- The dispatch of a job that is ready. -/
theorem Inv.pushAdd (h : Inv jobs map queue) {i : Nat} {job : Job} (hjob : jobs[i]? = some job)
    (hready : job.ready = some true) (hwait : job.rpc = .waiting) :
    Inv (jobs.modify i fun job => { job with rpc := .added }) map
      (queue ++ [{ task := job.task, worker := some i, type := .kAdd }]) := by
  -- an ended thread would have pushed its delete event before this add event
  have hnot : job.exec ≠ .ended := fun hended => h.dispatched i job hjob hended ⟨hready, hwait⟩
  refine ⟨h.entry_modify fun _ _ => ⟨rfl, fun _ => rfl⟩, ?_,
    h.noKill_push OperateTaskType.noConfusion, ?_, ?_, ?_⟩
  · intro e he j hj
    rcases List.mem_append.mp he with he | he
    · exact h.event_modify (f := fun job => { job with rpc := .added })
        (fun _ _ => ⟨rfl, fun _ => rfl⟩) e he j hj
    · rw [List.mem_singleton.mp he] at hj ⊢
      cases hj
      refine ⟨rfl, _, getElem?_modify_of_some hjob, ?_⟩
      rw [if_pos rfl]
      exact ⟨rfl, rfl⟩
  · intro j job' hjob' hended hin
    obtain ⟨old, hold, rfl⟩ := getElem?_modify_eq_some hjob'
    by_cases hij : i = j
    · subst hij
      rw [hjob] at hold
      cases hold
      rw [if_pos rfl] at hended
      exact absurd hended hnot
    · rw [if_neg hij] at hended hin ⊢
      exact h.ended_push hold hended (fun he => hij (Option.some.inj he)) hin
  · intro j job' hjob' hended
    obtain ⟨old, hold, rfl⟩ := getElem?_modify_eq_some hjob'
    by_cases hij : i = j
    · subst hij
      rw [hjob] at hold
      cases hold
      rw [if_pos rfl] at hended
      exact absurd hended hnot
    · rw [if_neg hij] at hended ⊢
      exact h.dispatched j old hold hended
  · intro j job' hjob' hrun hrpc hq
    obtain ⟨old, hold, rfl⟩ := getElem?_modify_eq_some hjob'
    by_cases hij : i = j
    · subst hij
      -- the add event of `i` is still in the queue
      have hev := hq _ (List.mem_append.mpr (Or.inr (List.mem_singleton.mpr rfl)))
      exact absurd rfl hev
    · rw [if_neg hij] at hrun hrpc ⊢
      exact h.running j old hold hrun hrpc
        (fun e he => hq e (List.mem_append.mpr (Or.inl he)))

/-- An add event leaves the queue and its worker enters the map. -/
theorem Inv.manageAdd {e : TaskManage} (h : Inv jobs map (e :: queue)) (htype : e.type = .kAdd) :
    Inv jobs (assign map e.task.workerId
      ((find? map e.task.workerId).getD [] ++ e.worker.toList)) queue := by
  have hworkers : ∀ (r : Str) (i : Nat),
      i ∈ (find? (assign map e.task.workerId
        ((find? map e.task.workerId).getD [] ++ e.worker.toList)) r).getD [] ↔
      i ∈ (find? map r).getD [] ∨ (r = e.task.workerId ∧ e.worker = some i) := by
    intro r i
    rw [OrderedMap.find?_assign]
    by_cases hr : r = e.task.workerId
    · rw [if_pos hr, hr]
      simp
    · rw [if_neg hr]
      simp [hr]
  refine ⟨?_, fun e' he' => h.event e' (List.mem_cons_of_mem e he'),
    fun e' he' => h.noKill e' (List.mem_cons_of_mem e he'), ?_, h.dispatched, ?_⟩
  · intro r i hin
    rcases (hworkers r i).mp hin with hi | ⟨rfl, hi⟩
    · exact h.entry r i hi
    · obtain ⟨_, job, hjob, htask, hrpc⟩ := h.event e List.mem_cons_self i hi
      exact ⟨job, hjob, by rw [htask], hrpc⟩
  · intro i job hjob hended hin
    have hbefore : i ∈ (find? map job.task.workerId).getD [] ∨
        ∃ e' ∈ e :: queue, e'.worker = some i := by
      rcases hin with hi | ⟨e', he', hi⟩
      · rcases (hworkers _ i).mp hi with hi | ⟨_, hi⟩
        · exact Or.inl hi
        · exact Or.inr ⟨e, List.mem_cons_self, hi⟩
      · exact Or.inr ⟨e', List.mem_cons_of_mem e he', hi⟩
    -- the event that leaves is an add event, so the delete event is still to come
    rcases h.ended i job hjob hended hbefore with hdel | ⟨hdel, _⟩
    · exact hdel
    · rw [htype] at hdel
      cases hdel
  · intro i job hjob hrun hrpc hq
    rw [hworkers]
    by_cases hi : e.worker = some i
    · obtain ⟨_, job', hjob', htask, _⟩ := h.event e List.mem_cons_self i hi
      rw [hjob] at hjob'
      cases hjob'
      exact Or.inr ⟨by rw [htask], hi⟩
    · refine Or.inl (h.running i job hjob hrun hrpc ?_)
      intro e' he'
      rcases List.mem_cons.mp he' with rfl | he'
      · exact hi
      · exact hq e' he'

/-- A delete event leaves the queue and erases an entry without running workers. -/
theorem Inv.manageDel {e : TaskManage} (h : Inv jobs map (e :: queue)) (htype : e.type = .kDel)
    (hidle : ∀ i ∈ (find? map e.task.workerId).getD [], ∀ job ∈ jobs[i]?, job.exec ≠ .running) :
    Inv jobs (erase map e.task.workerId) queue := by
  have hworkers : ∀ (r : Str) (i : Nat),
      i ∈ (find? (erase map e.task.workerId) r).getD [] ↔
      r ≠ e.task.workerId ∧ i ∈ (find? map r).getD [] := by
    intro r i
    rw [OrderedMap.find?_erase]
    by_cases hr : r = e.task.workerId
    · simp [hr]
    · simp [hr]
  refine ⟨?_, fun e' he' => h.event e' (List.mem_cons_of_mem e he'),
    fun e' he' => h.noKill e' (List.mem_cons_of_mem e he'), ?_, h.dispatched, ?_⟩
  · intro r i hi
    exact h.entry r i ((hworkers r i).mp hi).2
  · intro i job hjob hended hin
    have hbefore : i ∈ (find? map job.task.workerId).getD [] ∨
        ∃ e' ∈ e :: queue, e'.worker = some i := by
      rcases hin with hi | ⟨e', he', hi⟩
      · exact Or.inl ((hworkers _ i).mp hi).2
      · exact Or.inr ⟨e', List.mem_cons_of_mem e he', hi⟩
    -- the event that leaves may be the delete event itself; then the entry is erased
    rcases h.ended i job hjob hended hbefore with hdel | ⟨_, hr, hlast⟩
    · exact hdel
    · rcases hin with hi | ⟨e', he', hi⟩
      · exact absurd hr.symm ((hworkers _ i).mp hi).1
      · exact absurd hi (hlast e' he')
  · intro i job hjob hrun hrpc hq
    have hi : i ∈ (find? map job.task.workerId).getD [] := by
      refine h.running i job hjob hrun hrpc ?_
      intro e' he'
      rcases List.mem_cons.mp he' with rfl | he'
      · intro hi
        obtain ⟨hadd, _⟩ := h.event e' List.mem_cons_self i hi
        rw [htype] at hadd
        cases hadd
      · exact hq e' he'
    -- a running worker is in another entry than the one erased
    refine (hworkers _ i).mpr ⟨?_, hi⟩
    intro hr
    rw [hr] at hi
    exact hidle i hi job hjob hrun

end Steps

/-! ## Steps and runs -/

theorem jobWith_eq_some {s : State} {i : Nat} {p : Job → Bool} {job : Job}
    (h : s.jobWith i p = some job) : s.jobs[i]? = some job ∧ p job = true :=
  Option.filter_eq_some_iff.mp h

theorem tracked_processKillTask (is : List Nat) (s : State) (h : Tracked s) :
    Tracked (is.foldl (fun s i => s.modifyJob i fun job => { job with killed := true }) s) := by
  induction is generalizing s with
  | nil => exact h
  | cons i is ih =>
      refine ih _ (Inv.modify h fun job hjob => ⟨rfl, Iff.rfl, id, fun hended => ⟨hended, ?_⟩⟩)
      exact h.dispatched i job hjob hended

/-- One step of the tasks in order keeps the invariant. -/
theorem tracked_step {s s' : State} {a : Action} (htask : a.ofTask = true) (horder : Orderly s a)
    (h : Tracked s) (hstep : step s a = some s') : Tracked s' := by
  cases a with
  | executeTask t manualLaunch =>
      cases hstep
      rw [State.executeTask]
      split_ifs
      · exact h
      · exact Inv.append h rfl rfl
  | setTaskReady i ready =>
      obtain ⟨job, hjob, rfl⟩ := Option.map_eq_some_iff.mp hstep
      obtain ⟨hjob, hp⟩ := jobWith_eq_some hjob
      rw [decide_eq_true_eq] at hp
      refine Inv.modify h fun job' hjob' => ⟨rfl, Iff.rfl, id, fun hended => ?_⟩
      rw [hjob] at hjob'
      cases hjob'
      rw [hp.1] at hended
      cases hended
  | finishExecute i status =>
      obtain ⟨job, hjob, rfl⟩ := Option.map_eq_some_iff.mp hstep
      refine Inv.modify h fun job' hjob' => ⟨rfl, Iff.rfl, ?_, ?_⟩
      · intro hrun
        cases hrun
      · intro hended
        cases hended
  | cacheLastTaskStatus i =>
      obtain ⟨job, hjob, hstep⟩ := Option.bind_eq_some_iff.mp hstep
      split at hstep
      · split_ifs at hstep
        cases hstep
        refine Inv.modify h fun job' hjob' => ⟨rfl, Iff.rfl, ?_, ?_⟩
        · intro hrun
          cases hrun
        · intro hended
          cases hended
      · cases hstep
  | pushDel i =>
      obtain ⟨job, hjob, rfl⟩ := Option.map_eq_some_iff.mp hstep
      obtain ⟨hjob, _⟩ := jobWith_eq_some hjob
      exact Inv.pushDel h hjob (horder job hjob)
  | returnManual i => cases htask
  | pushAdd i =>
      obtain ⟨job, hjob, rfl⟩ := Option.map_eq_some_iff.mp hstep
      obtain ⟨hjob, hp⟩ := jobWith_eq_some hjob
      rw [decide_eq_true_eq] at hp
      exact Inv.pushAdd h hjob hp.2 hp.1
  | failInit i =>
      obtain ⟨job, hjob, rfl⟩ := Option.map_eq_some_iff.mp hstep
      obtain ⟨hjob, hp⟩ := jobWith_eq_some hjob
      rw [decide_eq_true_eq] at hp
      refine Inv.modify h fun job' hjob' => ⟨rfl, ?_, id, fun hended => ⟨hended, ?_⟩⟩
      · rw [hjob] at hjob'
        cases hjob'
        rw [hp.1]
        constructor
        · intro hf
          cases hf
        · intro hf
          cases hf
      · rintro ⟨_, hwait⟩
        cases hwait
  | manage =>
      rw [step] at hstep
      cases hqueue : s.taskManageQueue with
      | nil =>
          rw [hqueue] at hstep
          cases hstep
      | cons e queue =>
          rw [hqueue] at hstep
          cases hstep
          rw [Tracked, hqueue] at h
          obtain ⟨hjobs, hrest, _⟩ := { s with taskManageQueue := queue }.manageTask_frame e
          rw [Tracked, hjobs, hrest, State.manageTask]
          cases htype : e.type with
          | kAdd => exact Inv.manageAdd h htype
          | kDel =>
              rw [Orderly, hqueue] at horder
              show Inv _ (State.executeDelTaskOperation _ e).taskExecutorMap _
              rw [State.executeDelTaskOperation_taskExecutorMap]
              exact Inv.manageDel h htype (horder e rfl htype)
          | kKill => exact absurd htype (h.noKill e List.mem_cons_self)
  | killTask t fromClient => cases htask
  | stopTask t => cases htask
  | cleanFinishedTask =>
      rw [step] at hstep
      split at hstep
      · cases hstep
      · cases hstep
        exact h
  | processKillTask =>
      rw [step] at hstep
      split at hstep
      · cases hstep
      · cases hstep
        exact tracked_processKillTask _ _ h
  | cleanTimeoutCachedTaskStatus =>
      cases hstep
      exact h
  | tick =>
      cases hstep
      exact h

/-- **The map follows the tasks in every orderly run.** -/
theorem mapTracksTasks_of_orderly (acts : List Action) (s : State)
    (horder : ∀ e ∈ trace step State.init acts, e.act.ofTask = true ∧ Orderly e.before e.act)
    (h : run step State.init acts = some s) : MapTracksTasks s := by
  have htracked : Tracked s := by
    refine run_invariant Tracked ?_ tracked_init h
    intro e he hbefore
    exact tracked_step (horder e he).1 (horder e he).2 hbefore (step_of_mem_trace he)
  exact htracked.mapTracksTasks

/-- A task whose add event is pushed and handled while it runs. -/
def taskInOrder : List Action :=
  [.executeTask ⟨['r'], ['0']⟩ false, .setTaskReady 0 true, .pushAdd 0, .manage,
    .finishExecute 0 .SUCCESS, .cacheLastTaskStatus 0, .pushDel 0, .manage]

theorem mapTracksTasks_of_orderly_taskInOrder :
    ∃ s, run step State.init taskInOrder = some s ∧ MapTracksTasks s :=
  ⟨_, rfl, mapTracksTasks_of_orderly taskInOrder _ (by decide) rfl⟩

/-- A task that ends before its add event is pushed stays in the map. -/
theorem not_mapTracksTasks :
    ¬ ∀ (acts : List Action) (s : State),
      (∀ e ∈ trace step State.init acts, e.act.ofTask = true) →
      run step State.init acts = some s → MapTracksTasks s := by
  intro h
  have hs := h
    [.executeTask ⟨['r'], ['0']⟩ false, .setTaskReady 0 true, .finishExecute 0 .SUCCESS,
      .cacheLastTaskStatus 0, .pushDel 0, .pushAdd 0, .manage, .manage] _ (by decide) rfl
  exact hs.ended 0 _ rfl rfl rfl ['r'] (by decide)

end Fediux.Node
