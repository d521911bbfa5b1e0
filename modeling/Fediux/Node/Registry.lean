import Fediux.Basic.OrderedMap
import Fediux.Basic.Run

set_option autoImplicit false

/-! # The task registry of a node

`VMNodeImpl` keeps the workers of its running tasks in `task_executor_map_`
(`node/node_impl.cc`). `ExecuteTask` starts an executor thread and, when the worker is ready,
pushes an add event; the executor thread caches the final status and pushes a delete event;
one manager thread takes the events off `task_manage_queue_` and changes the map. The model
is a step function over these threads: an action is one step of one of them between two
operations on shared state.
-/

namespace Fediux.Node

open OrderedMap (Entries find? assign emplace erase)

/-- `std::string`. -/
abbrev Str := List Char

/-! ## Data -/

/-- `rpc::TaskContext`, as far as the registry reads it. -/
structure TaskInfo where
  requestId : Str
  subTaskId : Str
  deriving DecidableEq, Repr

/-- `GetWorkerId`. -/
def TaskInfo.workerId (t : TaskInfo) : Str := t.requestId

/-- `retcode`. -/
inductive Retcode where
  | SUCCESS
  | FAIL
  deriving DecidableEq, Repr

/-- `rpc::TaskStatus::StatusCode`. -/
inductive StatusCode where
  | RUNNING
  | SUCCESS
  | FAIL
  | NONEXIST
  | FINISHED
  deriving DecidableEq, Repr

/-- The thread inside `ExecuteTask`: it waits for `task_ready_promise_`, has pushed the add
event, or has returned the failed initialization. -/
inductive RpcPhase where
  | waiting
  | added
  | failed
  deriving DecidableEq, Repr

/-- The executor thread: it runs `worker->execute`, has its result, has cached the final
status, or has ended. -/
inductive ExecPhase where
  | running
  | finished (status : StatusCode)
  | cached
  | ended
  deriving DecidableEq, Repr

/-- One accepted call of `ExecuteTask` with its worker; `ready` is the value of
`task_ready_promise_` once it is set. -/
structure Job where
  task : TaskInfo
  manualLaunch : Bool
  ready : Option Bool
  rpc : RpcPhase
  exec : ExecPhase
  killed : Bool
  deriving DecidableEq, Repr

inductive OperateTaskType where
  | kAdd
  | kDel
  | kKill
  deriving DecidableEq, Repr

/-- An event of `task_manage_queue_`. Of the task it is about only the worker id is in the
queue; a worker is its number among the jobs. -/
structure TaskManage where
  task : TaskInfo
  worker : Option Nat
  type : OperateTaskType
  deriving DecidableEq, Repr

structure State where
  jobs : List Job
  duplicateTaskIdFilter : Entries Str Nat
  taskExecutorMap : Entries Str (List Nat)
  taskManageQueue : List TaskManage
  finishedTaskQueue : List (List Nat)
  killTaskQueue : List (List Nat)
  finishedTaskStatus : Entries Str (StatusCode × Nat)
  now : Nat
  deriving DecidableEq, Repr

/-- `task_id_timeout_s_`. -/
def taskIdTimeoutS : Nat := 30

/-- `CACHED_TASK_STATUS_TIMEOUT_S`. -/
def cachedTaskStatusTimeoutS : Nat := 5

namespace State

def init : State :=
  { jobs := []
    duplicateTaskIdFilter := []
    taskExecutorMap := []
    taskManageQueue := []
    finishedTaskQueue := []
    killTaskQueue := []
    finishedTaskStatus := []
    now := 0 }

def modifyJob (s : State) (i : Nat) (f : Job → Job) : State :=
  { s with jobs := s.jobs.modify i f }

def pushEvent (s : State) (e : TaskManage) : State :=
  { s with taskManageQueue := s.taskManageQueue ++ [e] }

/-- The workers of an entry of `task_executor_map_`; no entry has no workers. -/
def workers (s : State) (workerId : Str) : List Nat := (find? s.taskExecutorMap workerId).getD []

/-! ## Lookups -/

/-- `GetWorker`: the front of the entry's queue. -/
def getWorker (s : State) (t : TaskInfo) : Option Nat := (s.workers t.workerId).head?

def isTaskWorkerReady (s : State) (workerId : Str) : Bool :=
  (find? s.taskExecutorMap workerId).isSome

/-- The first component of `IsFinishedTask`. -/
def isFinishedTask (s : State) (workerId : Str) : Bool :=
  (find? s.finishedTaskStatus workerId).isSome

/-! ## `ExecuteTask` -/

def cleanDuplicateTaskIdFilter (s : State) : State :=
  { s with duplicateTaskIdFilter :=
      s.duplicateTaskIdFilter.filter fun e => ¬ s.now - e.2 > taskIdTimeoutS }

def taskUid (t : TaskInfo) : Str := t.requestId ++ ['_'] ++ t.subTaskId

def isDuplicateTask (s : State) (t : TaskInfo) : Bool :=
  (find? s.duplicateTaskIdFilter (taskUid t)).isSome

/-- `ExecuteTask` up to the start of the executor thread. A task in the filter is refused. -/
def executeTask (s : State) (t : TaskInfo) (manualLaunch : Bool) : State :=
  let s := s.cleanDuplicateTaskIdFilter
  if s.isDuplicateTask t then s
  -- the worker is not in the map yet: its add event comes after `task_ready_promise_`
  else { s with
    duplicateTaskIdFilter := emplace s.duplicateTaskIdFilter (taskUid t) s.now
    jobs := s.jobs ++ [{ task := t, manualLaunch := manualLaunch, ready := none,
                         rpc := .waiting, exec := .running, killed := false }] }

def cacheLastTaskStatus (s : State) (workerId : Str) (status : StatusCode) : State :=
  { s with finishedTaskStatus := assign s.finishedTaskStatus workerId (status, s.now) }

/-! ## The manager thread -/

def executeAddTaskOperation (s : State) (e : TaskManage) : State :=
  { s with taskExecutorMap :=
      assign s.taskExecutorMap e.task.workerId (s.workers e.task.workerId ++ e.worker.toList) }

def executeDelTaskOperation (s : State) (e : TaskManage) : State :=
  match find? s.taskExecutorMap e.task.workerId with
  -- an entry that is not there has already been erased
  | none => s
  | some queue => { s with
      taskExecutorMap := erase s.taskExecutorMap e.task.workerId
      finishedTaskQueue := s.finishedTaskQueue ++ [queue] }

def executeKillTaskOperation (s : State) (e : TaskManage) : State :=
  match find? s.taskExecutorMap e.task.workerId with
  | none => s
  | some queue => { s with
      taskExecutorMap := erase s.taskExecutorMap e.task.workerId
      killTaskQueue := s.killTaskQueue ++ [queue] }

/-- One pass of the loop of `ManageTaskOperatorThread`. -/
def manageTask (s : State) (e : TaskManage) : State :=
  match e.type with
  | .kAdd => s.executeAddTaskOperation e
  | .kDel => s.executeDelTaskOperation e
  | .kKill => s.executeKillTaskOperation e

theorem executeDelTaskOperation_taskExecutorMap (s : State) (e : TaskManage) :
    (s.executeDelTaskOperation e).taskExecutorMap = erase s.taskExecutorMap e.task.workerId := by
  rw [executeDelTaskOperation]
  split
  · next hnone => exact (OrderedMap.erase_of_find?_eq_none hnone).symm
  · rfl

/-- What the manager thread does not touch. -/
theorem manageTask_frame (s : State) (e : TaskManage) :
    (s.manageTask e).jobs = s.jobs ∧ (s.manageTask e).taskManageQueue = s.taskManageQueue ∧
      (s.manageTask e).finishedTaskStatus = s.finishedTaskStatus := by
  rw [manageTask]
  split
  · exact ⟨rfl, rfl, rfl⟩
  · rw [executeDelTaskOperation]
    split <;> exact ⟨rfl, rfl, rfl⟩
  · rw [executeKillTaskOperation]
    split <;> exact ⟨rfl, rfl, rfl⟩

/-! ## Other threads -/

/-- `KillTask`; a request of the client goes to the scheduler worker and not to the registry. -/
def killTask (s : State) (t : TaskInfo) (fromClient : Bool) : State :=
  if s.isFinishedTask t.workerId then s
  else if fromClient then s
  else s.pushEvent { task := t, worker := none, type := .kKill }

def stopTask (s : State) (t : TaskInfo) : State :=
  s.pushEvent { task := t, worker := none, type := .kDel }

/-- One pass of the loop of `CleanTimeoutCachedTaskStatusThread`. -/
def cleanTimeoutCachedTaskStatus (s : State) : State :=
  { s with finishedTaskStatus :=
      s.finishedTaskStatus.filter fun e => ¬ s.now - e.2.2 > cachedTaskStatusTimeoutS }

end State

/-! ## Steps -/

inductive Action where
  /-- `ExecuteTask` is called. -/
  | executeTask (t : TaskInfo) (manualLaunch : Bool)
  /-- The executor thread of job `i` sets `task_ready_promise_`. -/
  | setTaskReady (i : Nat) (ready : Bool)
  /-- `worker->execute` of job `i` is over. -/
  | finishExecute (i : Nat) (status : StatusCode)
  /-- The executor thread of job `i` caches the final status. -/
  | cacheLastTaskStatus (i : Nat)
  /-- The executor thread of job `i` pushes the delete event and ends. -/
  | pushDel (i : Nat)
  /-- The executor thread of a manually launched job `i` ends. -/
  | returnManual (i : Nat)
  /-- The thread in `ExecuteTask` sees that job `i` is ready and pushes the add event. -/
  | pushAdd (i : Nat)
  /-- The thread in `ExecuteTask` sees that the initialization of job `i` has failed. -/
  | failInit (i : Nat)
  /-- The manager thread handles the next event. -/
  | manage
  | killTask (t : TaskInfo) (fromClient : Bool)
  | stopTask (t : TaskInfo)
  /-- `CleanFinishedTaskThread` destroys the next finished queue. -/
  | cleanFinishedTask
  /-- `ProcessKillTaskThread` kills the workers of the next queue. -/
  | processKillTask
  | cleanTimeoutCachedTaskStatus
  /-- A second passes. -/
  | tick
  deriving DecidableEq, Repr

/-- The job `i`, if it is in a phase that satisfies `p`. -/
def State.jobWith (s : State) (i : Nat) (p : Job → Bool) : Option Job :=
  s.jobs[i]?.filter p

/-- The execution that fails before the promise is set to `true` has no other result. -/
def Job.canFinish (job : Job) (status : StatusCode) : Bool :=
  job.exec = .running ∧ (status = .FAIL ∨ (status = .SUCCESS ∧ job.ready = some true))

def step (s : State) : Action → Option State
  | .executeTask t manualLaunch => some (s.executeTask t manualLaunch)
  | .setTaskReady i ready =>
      (s.jobWith i fun job => job.exec = .running ∧ job.ready = none).map fun _ =>
        s.modifyJob i fun job => { job with ready := some ready }
  | .finishExecute i status =>
      (s.jobWith i fun job => job.canFinish status).map fun _ =>
        s.modifyJob i fun job => { job with exec := .finished status }
  | .cacheLastTaskStatus i =>
      (s.jobs[i]?).bind fun job =>
        match job.exec with
        | .finished status =>
            -- a manually launched worker returns without a final status
            if job.manualLaunch then none
            else some ((s.modifyJob i fun job => { job with exec := .cached }).cacheLastTaskStatus
              job.task.workerId status)
        | _ => none
  | .pushDel i =>
      (s.jobWith i fun job => job.exec = .cached).map fun job =>
        (s.modifyJob i fun job => { job with exec := .ended }).pushEvent
          { task := job.task, worker := none, type := .kDel }
  | .returnManual i =>
      (s.jobs[i]?).bind fun job =>
        match job.exec with
        | .finished _ =>
            if job.manualLaunch then some (s.modifyJob i fun job => { job with exec := .ended })
            else none
        | _ => none
  | .pushAdd i =>
      (s.jobWith i fun job => job.rpc = .waiting ∧ job.ready = some true).map fun job =>
        (s.modifyJob i fun job => { job with rpc := .added }).pushEvent
          { task := job.task, worker := some i, type := .kAdd }
  | .failInit i =>
      (s.jobWith i fun job => job.rpc = .waiting ∧ job.ready = some false).map fun _ =>
        s.modifyJob i fun job => { job with rpc := .failed }
  | .manage =>
      match s.taskManageQueue with
      | [] => none
      | e :: queue => some ({ s with taskManageQueue := queue }.manageTask e)
  | .killTask t fromClient => some (s.killTask t fromClient)
  | .stopTask t => some (s.stopTask t)
  | .cleanFinishedTask =>
      match s.finishedTaskQueue with
      | [] => none
      | _ :: rest => some { s with finishedTaskQueue := rest }
  | .processKillTask =>
      match s.killTaskQueue with
      | [] => none
      | queue :: rest => some (queue.foldl
          (fun s i => s.modifyJob i fun job => { job with killed := true })
          { s with killTaskQueue := rest })
  | .cleanTimeoutCachedTaskStatus => some s.cleanTimeoutCachedTaskStatus
  | .tick => some { s with now := s.now + 1 }

end Fediux.Node
