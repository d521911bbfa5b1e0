import Fediux.Basic.Fallible
import Fediux.Basic.Throwing
import Fediux.Node.SchedulerWorker

set_option autoImplicit false

/-! # The ready promise of the executing worker

`ExecuteTask` starts a thread that runs `Worker::execute` and waits until the worker says that
the task is ready (`node/worker/worker.cc`, `node/node_impl.cc`). A worker runs the task in its
own thread or in a process. `announcesOnce_iff` says in which surroundings the promise is set.
-/

namespace Fediux.Node.Execute

open OrderedMap (Entries assign find?)
open Throwing

/-! ## The request -/

/-- `rpc::ParamValue`, as far as it is read or written here. -/
inductive ParamValue where
  | int32 (value : Int)
  | string (value : Str) (isArray : Bool)
  | other
  deriving DecidableEq, Repr

/-- The accessor `value_int32` gives zero when another member is set. -/
def ParamValue.valueInt32 : ParamValue → Int
  | .int32 value => value
  | _ => 0

/-- `rpc::Dataset`: ids by name, in the order in which the map is gone through. -/
structure Dataset where
  data : List (Str × Str)
  datasetDetail : Bool
  deriving DecidableEq, Repr

/-- `rpc::PushTaskRequest`. -/
structure PushTaskRequest where
  taskInfo : TaskInfo
  partyName : Str
  partyDatasets : List (Str × Dataset)
  paramMap : Entries Str ParamValue
  deriving DecidableEq, Repr

/-! ## The surroundings of a worker -/

/-- The code that a worker calls. Each call returns or throws a `std::exception`. A driver is
given by its access info, if it has one. -/
structure Surroundings where
  Exn : Type
  Task : Type
  AccessInfo : Type
  ProcessHandle : Type
  nodeId : Str
  configFile : Str
  /-- `TaskFactory::Create`. -/
  create : Str → PushTaskRequest → Except Exn (Option Task)
  /-- `task_ptr->execute`. -/
  executeTask : Task → Except Exn Int
  getDriver : Str → Except Exn (Option (Option AccessInfo))
  accessInfoToString : AccessInfo → Except Exn Str
  taskRequestToString : PushTaskRequest → Except Exn Str
  serializeToString : PushTaskRequest → Except Exn (Option Str)
  base64Encode : Str → Str
  getCurrentProcessDir : Except Exn Str
  /-- The constructor of `Poco::Pipe`. -/
  openPipe : Except Exn Unit
  /-- `Process::launch`. -/
  launch : Str → List Str → Except Exn ProcessHandle
  /-- The constructor of `Poco::PipeInputStream`. -/
  openPipeInputStream : Except Exn Unit
  wait : ProcessHandle → Except Exn Int
  /-- `std::future_error`, thrown when a promise is set twice. -/
  promiseAlreadySatisfied : Exn

/-! ## The worker -/

/-- What happens at the worker that others can see. -/
inductive Event where
  | created
  | launched
  | setTaskReady (ready : Bool)
  deriving DecidableEq, Repr

def Event.ready? : Event → Option Bool
  | .setTaskReady ready => some ready
  | _ => none

/-- The values `task_ready_promise_` was set to. -/
def readyValues (events : List Event) : List Bool := events.filterMap Event.ready?

variable (env : Surroundings)

abbrev Run (α : Type) : Type := Program (List Event) env.Exn α

variable {env}

def record (e : Event) : Run env Unit := Program.modify fun events => events ++ [e]

/-- `task_ready_promise_.set_value`. -/
def setValue (ready : Bool) : Run env Unit := ⟨fun events =>
  if readyValues events = [] then (.ok (), events ++ [.setTaskReady ready])
  else (.error env.promiseAlreadySatisfied, events)⟩

inductive TaskRunMode where
  | THREAD
  | PROCESS
  deriving DecidableEq, Repr

/-- `rpc::PsiTag::TEE`. -/
def psiTagTee : Int := 2

/-- `ExecuteMode`: a worker runs its own mode, `taskRunMode`, unless the request asks for a
trusted environment. -/
def executeMode (taskRunMode : TaskRunMode) (request : PushTaskRequest) : TaskRunMode :=
  match find? request.paramMap ['p', 's', 'i', 'T', 'a', 'g'] with
  | some pv => if pv.valueInt32 = psiTagTee then .THREAD else taskRunMode
  | none => taskRunMode

def ExecuteTaskByThread (request : PushTaskRequest) : Run env Retcode := do
  match ← Program.call (env.create env.nodeId request) with
  | none =>
      setValue false
      return .FAIL
  | some task =>
      record .created
      setValue true
      let ret ← Program.call (env.executeTask task)
      if ret ≠ 0 then return .FAIL
      return .SUCCESS

variable (env)

/-- One dataset: an id with access info is replaced by it and kept as a parameter. -/
def resolveDataset (datasetName datasetId : Str) (paramMap : Entries Str ParamValue) :
    Except env.Exn (Str × Entries Str ParamValue) := do
  match ← env.getDriver datasetId with
  | some (some accessInfo) =>
      let paramMap := assign paramMap datasetName (.string datasetId false)
      return (← env.accessInfoToString accessInfo, paramMap)
  | _ => return (datasetId, paramMap)

/-- The loop over the datasets of one party. -/
def resolveDatasets : List (Str × Str) → Entries Str ParamValue →
    Except env.Exn (List (Str × Str) × Entries Str ParamValue)
  | [], paramMap => .ok ([], paramMap)
  | (datasetName, datasetId) :: rest, paramMap => do
      let (detail, paramMap) ← resolveDataset env datasetName datasetId paramMap
      let (rest, paramMap) ← resolveDatasets rest paramMap
      return ((datasetName, detail) :: rest, paramMap)

/-- The loop over the parties: only the worker's own datasets are resolved. -/
def resolveParties (selfPartyName : Str) : List (Str × Dataset) → Entries Str ParamValue →
    Except env.Exn (List (Str × Dataset) × Entries Str ParamValue)
  | [], paramMap => .ok ([], paramMap)
  | (partyName, datasets) :: rest, paramMap => do
      if partyName ≠ selfPartyName then
        let (rest, paramMap) ← resolveParties selfPartyName rest paramMap
        return ((partyName, datasets) :: rest, paramMap)
      let (data, paramMap) ← resolveDatasets env datasets.data paramMap
      let (rest, paramMap) ← resolveParties selfPartyName rest paramMap
      return ((partyName, { data, datasetDetail := true }) :: rest, paramMap)

/-- The request that is handed to the process. -/
def sendRequest (request : PushTaskRequest) : Except env.Exn PushTaskRequest := do
  let (partyDatasets, paramMap) ←
    resolveParties env request.partyName request.partyDatasets request.paramMap
  return { request with partyDatasets, paramMap }

def executeApp (currentProcessDir : Str) : Str := currentProcessDir ++ "/task_main".toList

def processArgs (taskInfo : TaskInfo) (requestBase64Str : Str) : List Str :=
  ["--node_id=".toList ++ env.nodeId, "--config_file=".toList ++ env.configFile,
    "--request=".toList ++ requestBase64Str, "--request_id=".toList ++ taskInfo.requestId]

variable {env}

def ExecuteTaskByProcess (request : PushTaskRequest) : Run env Retcode := do
  let send ← Program.call (sendRequest env request)
  let _ ← Program.call (env.taskRequestToString send)
  match ← Program.call (env.serializeToString send) with
  | none => return .FAIL
  | some taskConfigStr =>
      let dir ← Program.call env.getCurrentProcessDir
      Program.call env.openPipe
      let handle ← Program.call (env.launch (executeApp dir)
        (processArgs env send.taskInfo (env.base64Encode taskConfigStr)))
      record .launched
      Program.call env.openPipeInputStream
      setValue true
      -- the output of the process is printed line by line until it ends
      Program.tryCatch (do
        let ret ← Program.call (env.wait handle)
        if ret ≠ 0 then return .FAIL
        return .SUCCESS) fun _ => return .FAIL

def execute (taskRunMode : TaskRunMode) (request : PushTaskRequest) : Run env Retcode :=
  match executeMode taskRunMode request with
  | .THREAD => ExecuteTaskByThread request
  | .PROCESS => ExecuteTaskByProcess request

/-- The events of a worker that executes the request. -/
def eventsOf (env : Surroundings) (taskRunMode : TaskRunMode) (request : PushTaskRequest) :
    List Event :=
  ((execute taskRunMode request : Run env Retcode).run []).2

/-! ## The executor and the waiting thread -/

/-- The status that the executor thread reports in the end: an exception of the worker is
caught. -/
def finalStatus (env : Surroundings) (taskRunMode : TaskRunMode) (request : PushTaskRequest) :
    StatusCode :=
  match ((execute taskRunMode request : Run env Retcode).run []).1 with
  | .ok .SUCCESS => .SUCCESS
  | _ => .FAIL

/-- `waitForTaskReady`, once the worker has ended: a promise that was never set blocks the
thread for ever, since the thread itself keeps the worker alive. -/
def waitForTaskReady (events : List Event) : Option Retcode :=
  (readyValues events).head?.map fun ready => if ready then .SUCCESS else .FAIL

/-- The promise is set exactly once, the waiting thread goes on, and it learns that the task is
ready only after the task was created or its process launched. -/
structure AnnouncesOnce (events : List Event) : Prop where
  once : ∃ ready, readyValues events = [ready]
  continues : ∃ ret, waitForTaskReady events = some ret
  truthful : ∀ pre post, events = pre ++ .setTaskReady true :: post →
    .created ∈ pre ∨ .launched ∈ pre

/-! ## Undisturbed executions -/

/-- Looking up a dataset does not throw. -/
def LookupReturns (env : Surroundings) (datasetId : Str) : Prop :=
  ∃ driver, env.getDriver datasetId = .ok driver ∧
    ∀ accessInfo, driver = some (some accessInfo) →
      ∃ detail, env.accessInfoToString accessInfo = .ok detail

/-- No look-up of the worker's own datasets throws. -/
def LookupsReturn (env : Surroundings) (request : PushTaskRequest) : Prop :=
  ∀ e ∈ request.partyDatasets, e.1 = request.partyName → ∀ d ∈ e.2.data, LookupReturns env d.2

/-- The request can be handed to a process: it is serialised, and nothing on the way to the
launched process throws. -/
def Launches (env : Surroundings) (send : PushTaskRequest) : Prop :=
  ∃ text config dir handle, env.taskRequestToString send = .ok text ∧
    env.serializeToString send = .ok (some config) ∧ env.getCurrentProcessDir = .ok dir ∧
    env.openPipe = .ok () ∧
    env.launch (executeApp dir) (processArgs env send.taskInfo (env.base64Encode config)) =
      .ok handle ∧
    env.openPipeInputStream = .ok ()

/-- In a thread, creating the task does not throw; in a process, the datasets are looked up
without an exception and the request is handed to the process. -/
def Undisturbed (env : Surroundings) (taskRunMode : TaskRunMode) (request : PushTaskRequest) :
    Prop :=
  match executeMode taskRunMode request with
  | .THREAD => ∃ task, env.create env.nodeId request = .ok task
  | .PROCESS => LookupsReturn env request ∧
      ∀ send, sendRequest env request = .ok send → Launches env send

theorem exists_bind_ok {ε α β : Type} {x : Except ε α} {f : α → Except ε β} :
    (∃ b, x >>= f = .ok b) ↔ ∃ a, x = .ok a ∧ ∃ b, f a = .ok b := by
  simp only [Fallible.bind_eq_ok]
  constructor
  · rintro ⟨b, a, ha, hb⟩
    exact ⟨a, ha, b, hb⟩
  · rintro ⟨a, ha, b, hb⟩
    exact ⟨b, a, ha, hb⟩

theorem exists_pure_ok {ε α : Type} (a : α) : ∃ b, (pure a : Except ε α) = .ok b := ⟨a, rfl⟩

theorem resolveDataset_ok_iff (datasetName datasetId : Str)
    (paramMap : Entries Str ParamValue) :
    (∃ r, resolveDataset env datasetName datasetId paramMap = .ok r) ↔
      LookupReturns env datasetId := by
  unfold resolveDataset LookupReturns
  rw [exists_bind_ok]
  refine exists_congr fun driver => and_congr_right fun _ => ?_
  match driver with
  | none => simp [exists_pure_ok]
  | some none => simp [exists_pure_ok]
  | some (some accessInfo) =>
      simp only [exists_bind_ok, exists_pure_ok, and_true]
      constructor
      · intro h info hinfo
        cases hinfo
        exact h
      · intro h
        exact h accessInfo rfl

theorem resolveDatasets_ok_iff (data : List (Str × Str)) (paramMap : Entries Str ParamValue) :
    (∃ r, resolveDatasets env data paramMap = .ok r) ↔
      ∀ d ∈ data, LookupReturns env d.2 := by
  induction data generalizing paramMap with
  | nil => simp [resolveDatasets]
  | cons d data ih =>
      rw [List.forall_mem_cons, ← resolveDataset_ok_iff d.1 d.2 paramMap, resolveDatasets]
      simp only [exists_bind_ok, exists_pure_ok, and_true, ih, exists_and_right]

theorem resolveParties_ok_iff (selfPartyName : Str) (parties : List (Str × Dataset))
    (paramMap : Entries Str ParamValue) :
    (∃ r, resolveParties env selfPartyName parties paramMap = .ok r) ↔
      ∀ e ∈ parties, e.1 = selfPartyName → ∀ d ∈ e.2.data, LookupReturns env d.2 := by
  induction parties generalizing paramMap with
  | nil => simp [resolveParties]
  | cons e parties ih =>
      rw [List.forall_mem_cons, resolveParties]
      by_cases he : e.1 = selfPartyName
      · rw [if_neg (not_not.mpr he), imp_iff_right he,
          ← resolveDatasets_ok_iff e.2.data paramMap]
        simp only [exists_bind_ok, exists_pure_ok, and_true, ih, exists_and_right]
      · rw [if_pos he]
        simp only [exists_bind_ok, exists_pure_ok, and_true, ih, he, false_imp_iff, true_and]

/-- The request can be prepared exactly when no look-up throws. -/
theorem sendRequest_ok_iff (request : PushTaskRequest) :
    (∃ send, sendRequest env request = .ok send) ↔ LookupsReturn env request := by
  unfold sendRequest LookupsReturn
  rw [exists_bind_ok, ← resolveParties_ok_iff request.partyName request.partyDatasets
    request.paramMap]
  exact exists_congr fun r => ⟨fun h => h.1, fun h => ⟨h, exists_pure_ok _⟩⟩

/-! ## The events of a worker -/

theorem run_setValue_bind {α : Type} (ready : Bool) (k : Unit → Run env α) {events : List Event}
    (h : readyValues events = []) :
    (setValue ready >>= k).run events = (k ()).run (events ++ [.setTaskReady ready]) :=
  Program.run_bind_of_ok (if_pos h)

/-- In a thread: nothing, a failed or a created task. -/
theorem thread_events (request : PushTaskRequest) :
    ((ExecuteTaskByThread request : Run env Retcode).run []).2 =
      match env.create env.nodeId request with
      | .error _ => []
      | .ok none => [.setTaskReady false]
      | .ok (some _) => [.created, .setTaskReady true] := by
  unfold ExecuteTaskByThread record
  cases env.create env.nodeId request with
  | error e => rfl
  | ok task =>
      cases task with
      | none => rfl
      | some task =>
          simp only [Program.run_call_ok_bind, Program.run_modify_bind]
          rw [run_setValue_bind true _ rfl]
          cases env.executeTask task with
          | error e => rfl
          | ok ret =>
              simp only [Program.run_call_ok_bind]
              split <;> rfl

theorem process_events_of_launches {request send : PushTaskRequest}
    (hsend : sendRequest env request = .ok send) (h : Launches env send) :
    ((ExecuteTaskByProcess request : Run env Retcode).run []).2 =
      [.launched, .setTaskReady true] := by
  obtain ⟨text, config, dir, handle, htext, hconfig, hdir, hpipe, hlaunch, hstream⟩ := h
  unfold ExecuteTaskByProcess record
  simp only [hsend, htext, hconfig, hdir, hpipe, hlaunch, hstream, Program.run_call_ok_bind,
    Program.run_modify_bind]
  rw [run_setValue_bind true _ rfl]
  unfold Program.tryCatch
  cases env.wait handle with
  | error e => rfl
  | ok ret =>
      simp only [Program.run_call_ok_bind]
      by_cases hret : ret ≠ 0
      · rw [if_pos hret]
        rfl
      · rw [if_neg hret]
        rfl

/-- A call that fails before the announcement leaves the promise as it is. -/
theorem process_silent {request : PushTaskRequest}
    (h : ¬ ∃ send, sendRequest env request = .ok send ∧ Launches env send) :
    readyValues ((ExecuteTaskByProcess request : Run env Retcode).run []).2 = [] := by
  unfold ExecuteTaskByProcess record
  cases hsend : sendRequest env request with
  | error e => rfl
  | ok send =>
  rw [Program.run_call_ok_bind]
  cases htext : env.taskRequestToString send with
  | error e => rfl
  | ok text =>
  rw [Program.run_call_ok_bind]
  cases hconfig : env.serializeToString send with
  | error e => rfl
  | ok config =>
  cases config with
  | none => rfl
  | some config =>
  rw [Program.run_call_ok_bind]
  cases hdir : env.getCurrentProcessDir with
  | error e => rfl
  | ok dir =>
  dsimp only
  rw [Program.run_call_ok_bind]
  cases hpipe : env.openPipe with
  | error e => rfl
  | ok u =>
  rw [Program.run_call_ok_bind]
  cases hlaunch : env.launch (executeApp dir)
      (processArgs env send.taskInfo (env.base64Encode config)) with
  | error e => rfl
  | ok handle =>
  rw [Program.run_call_ok_bind, Program.run_modify_bind]
  cases hstream : env.openPipeInputStream with
  | error e => rfl
  | ok u =>
      refine absurd ⟨send, hsend, text, config, dir, handle, htext, hconfig, hdir, ?_, hlaunch, ?_⟩ h
      · exact hpipe
      · exact hstream

/-! ## When the promise is set -/

theorem announcesOnce_failed : AnnouncesOnce [.setTaskReady false] := by
  refine ⟨⟨false, rfl⟩, ⟨.FAIL, rfl⟩, fun pre post h => ?_⟩
  have hmem : Event.setTaskReady true ∈ [Event.setTaskReady false] := by
    rw [h]
    simp
  simp at hmem

theorem announcesOnce_ready {e : Event} (he : e = .created ∨ e = .launched) :
    AnnouncesOnce [e, .setTaskReady true] := by
  refine ⟨⟨true, ?_⟩, ⟨.SUCCESS, ?_⟩, fun pre post h => ?_⟩
  · rcases he with rfl | rfl <;> rfl
  · rcases he with rfl | rfl <;> rfl
  · cases pre with
    | nil =>
        rw [List.nil_append, List.cons.injEq] at h
        rcases he with rfl | rfl <;> cases h.1
    | cons e' pre =>
        rw [List.cons_append, List.cons.injEq] at h
        rw [← h.1]
        rcases he with rfl | rfl
        · exact .inl List.mem_cons_self
        · exact .inr List.mem_cons_self

theorem not_announcesOnce_of_silent {events : List Event} (h : readyValues events = []) :
    ¬ AnnouncesOnce events := by
  rintro ⟨⟨ready, hready⟩, -, -⟩
  rw [h] at hready
  cases hready

/-- **The waiting thread hears from the worker exactly when nothing before the announcement
throws and the request for a process is serialised.** -/
theorem announcesOnce_iff (env : Surroundings) (taskRunMode : TaskRunMode)
    (request : PushTaskRequest) :
    AnnouncesOnce (eventsOf env taskRunMode request) ↔ Undisturbed env taskRunMode request := by
  unfold eventsOf execute Undisturbed
  cases executeMode taskRunMode request with
  | THREAD =>
      dsimp only
      rw [thread_events]
      cases env.create env.nodeId request with
      | error e =>
          refine iff_of_false (not_announcesOnce_of_silent rfl) ?_
          rintro ⟨task, htask⟩
          cases htask
      | ok task =>
          refine iff_of_true ?_ ⟨task, rfl⟩
          cases task with
          | none => exact announcesOnce_failed
          | some task => exact announcesOnce_ready (.inl rfl)
  | PROCESS =>
      dsimp only
      rw [← sendRequest_ok_iff]
      by_cases h : ∃ send, sendRequest env request = .ok send ∧ Launches env send
      · obtain ⟨send, hsend, hlaunch⟩ := h
        rw [process_events_of_launches hsend hlaunch]
        refine iff_of_true (announcesOnce_ready (.inr rfl)) ⟨⟨send, hsend⟩, fun send' h => ?_⟩
        rw [hsend] at h
        cases h
        exact hlaunch
      · refine iff_of_false (not_announcesOnce_of_silent (process_silent h)) ?_
        rintro ⟨⟨send, hsend⟩, hall⟩
        exact h ⟨send, hsend, hall send hsend⟩

/-- Surroundings in which everything goes well, except that requests are not serialised. -/
def unserialized : Surroundings where
  Exn := Unit
  Task := Unit
  AccessInfo := Str
  ProcessHandle := Unit
  nodeId := ['n']
  configFile := ['c']
  create _ _ := .ok (some ())
  executeTask _ := .ok 0
  getDriver id := .ok (some (some id))
  accessInfoToString accessInfo := .ok accessInfo
  taskRequestToString _ := .ok []
  serializeToString _ := .ok none
  base64Encode str := str
  getCurrentProcessDir := .ok ['d']
  openPipe := .ok ()
  launch _ _ := .ok ()
  openPipeInputStream := .ok ()
  wait _ := .ok 0
  promiseAlreadySatisfied := ()

def smallRequest : PushTaskRequest where
  taskInfo := ⟨['r'], ['0']⟩
  partyName := ['A']
  partyDatasets := [(['A'], ⟨[(['x'], ['i'])], false⟩)]
  paramMap := []

/-- The thread in `ExecuteTask` waits for ever when the request is not serialised. -/
theorem not_announcesOnce :
    ¬ AnnouncesOnce (eventsOf unserialized .PROCESS smallRequest) ∧
      waitForTaskReady (eventsOf unserialized .PROCESS smallRequest) = none :=
  ⟨not_announcesOnce_of_silent rfl, rfl⟩

end Fediux.Node.Execute
