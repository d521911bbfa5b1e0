import Fediux.Node.Registry

set_option autoImplicit false

/-! # Data received for a task

`VMNodeInterface::Send` reads a stream of messages, puts their data together and gives it to
`ProcessReceivedData`, which waits for the worker of the task and appends the data to the
receive queue of the key (`node/node_interface.cc`, `node/node_impl.cc`). The registry changes
while the call runs, so the call is a function of what it sees of the node (`Visit`).
`answersRight_iff` says when the answer of `Send` is right.
-/

namespace Fediux.Node

open OrderedMap (Entries find? assign)

/-! ## Messages -/

abbrev Bytes := List UInt8

/-- `rpc::TaskRequest`. -/
structure TaskRequest where
  taskInfo : TaskInfo
  role : Str
  dataLen : Nat
  data : Bytes
  deriving DecidableEq, Repr

/-- `rpc::TaskResponse`, as far as `Send` fills it. -/
structure TaskResponse where
  retCode : Retcode
  deriving DecidableEq, Repr

/-! ## Receive queues -/

/-- The receive queues (`in_data_queue`) of the link contexts of the workers. A queue that does
not exist is empty; a queue that was shut down still takes data. -/
abbrev RecvQueues := Nat → Entries Str (List Bytes)

/-- `GetRecvQueue`. -/
def RecvQueues.queue (q : RecvQueues) (worker : Nat) (key : Str) : List Bytes :=
  (find? (q worker) key).getD []

def RecvQueues.push (q : RecvQueues) (worker : Nat) (key : Str) (data : Bytes) : RecvQueues :=
  Function.update q worker (assign (q worker) key (q.queue worker key ++ [data]))

theorem RecvQueues.queue_push (q : RecvQueues) (worker w : Nat) (key k : Str) (data : Bytes) :
    (q.push worker key data).queue w k =
      if w = worker ∧ k = key then q.queue w k ++ [data] else q.queue w k := by
  rw [queue, push]
  by_cases hw : w = worker
  · subst hw
    rw [Function.update_self, OrderedMap.find?_assign]
    by_cases hk : k = key
    · subst hk
      rw [if_pos rfl, if_pos ⟨rfl, rfl⟩]
      rfl
    · rw [if_neg hk, if_neg fun h => hk h.2]
      rfl
  · rw [Function.update_of_ne hw, if_neg fun h => hw h.1]
    rfl

/-! ## What a call sees -/

/-- The node as one call of `ProcessReceivedData` sees it: the registry when the call begins,
the registry and `write_flag_` at each poll, the time since the beginning of the wait after the
sleep that follows a poll (in ms, rounded up), the registry when the worker is looked up, and
which workers have a link context then. -/
structure Visit where
  entry : State
  polls : Nat → State × Bool
  elapsed : Nat → Nat
  sleeps : ∀ k, 50 * (k + 1) ≤ elapsed k
  lookup : State
  hasLinkContext : Nat → Bool

/-- A visit in which a poll takes just the 50 ms it sleeps. -/
def Visit.steady (entry : State) (polls : Nat → State × Bool) (lookup : State)
    (hasLinkContext : Nat → Bool) : Visit where
  entry := entry
  polls := polls
  elapsed := fun k => 50 * (k + 1)
  sleeps := fun _ => Nat.le_refl _
  lookup := lookup
  hasLinkContext := hasLinkContext

/-- `WAIT_TASK_WORKER_READY_TIMEOUT_MS`. -/
def waitTaskWorkerReadyTimeoutMs : Nat := 5 * 1000

namespace Visit

variable (v : Visit)

/-- `IsTaskWorkerReady` at the poll `k`. -/
def isTaskWorkerReady (workerId : Str) (k : Nat) : Bool :=
  if (v.polls k).2 then false else (v.polls k).1.isTaskWorkerReady workerId

/-- `WaitUntilWorkerReady` from the poll `k` on. -/
def waitUntilWorkerReady (workerId : Str) (timeoutMs : Nat) (k : Nat) : Retcode :=
  if v.isTaskWorkerReady workerId k then .SUCCESS
  else if v.elapsed k > timeoutMs then .FAIL
  else waitUntilWorkerReady workerId timeoutMs (k + 1)
termination_by timeoutMs - k
decreasing_by
  have := v.sleeps k
  omega

/-- `ProcessReceivedData`. -/
def processReceivedData (q : RecvQueues) (t : TaskInfo) (key : Str) (dataBuffer : Bytes) :
    Retcode × RecvQueues :=
  if v.entry.isFinishedTask t.workerId then (.FAIL, q)
  else if v.waitUntilWorkerReady t.workerId waitTaskWorkerReadyTimeoutMs 0 ≠ .SUCCESS then
    (.FAIL, q)
  else
    match v.lookup.getWorker t with
    | none => (.FAIL, q)
    | some worker =>
        if v.hasLinkContext worker then (.SUCCESS, q.push worker key dataBuffer) else (.FAIL, q)

end Visit

/-! ## `VMNodeInterface::Send` -/

/-- The local variables of `Send`. -/
structure RecvState where
  recvMetaInfo : Bool
  taskInfo : TaskInfo
  key : Str
  receivedData : Bytes
  deriving DecidableEq, Repr

namespace RecvState

def init : RecvState :=
  { recvMetaInfo := false, taskInfo := { requestId := [], subTaskId := [] }, key := [],
    receivedData := [] }

/-- One pass of the loop over the stream. -/
def read (r : RecvState) (request : TaskRequest) : RecvState :=
  let r :=
    if r.recvMetaInfo then r
    else { r with recvMetaInfo := true, taskInfo := request.taskInfo, key := request.role }
  { r with receivedData := r.receivedData ++ request.data }

end RecvState

/-- The stream of requests as one call reads it. -/
def readAll (requests : List TaskRequest) : RecvState :=
  requests.foldl RecvState.read RecvState.init

/-- `VMNodeInterface::Send`. -/
def Visit.send (v : Visit) (q : RecvQueues) (requests : List TaskRequest) :
    TaskResponse × RecvQueues :=
  let r := readAll requests
  let (ret, q) := v.processReceivedData q r.taskInfo r.key r.receivedData
  let response : TaskResponse := { retCode := .SUCCESS }
  let response := if ret ≠ .SUCCESS then { response with retCode := .FAIL } else response
  ({ response with retCode := .SUCCESS }, q)

theorem readAll_cons (request : TaskRequest) (requests : List TaskRequest) :
    readAll (request :: requests) =
      { recvMetaInfo := true
        taskInfo := request.taskInfo
        key := request.role
        receivedData := ((request :: requests).map TaskRequest.data).flatten } := by
  have hfold : ∀ (l : List TaskRequest) (r : RecvState), r.recvMetaInfo = true →
      l.foldl RecvState.read r =
        { r with receivedData := r.receivedData ++ (l.map TaskRequest.data).flatten } := by
    intro l
    induction l with
    | nil =>
        intro r _
        simp
    | cons request l ih =>
        intro r hr
        rw [List.foldl_cons, ih _ (by simp [RecvState.read, hr])]
        simp [RecvState.read, hr]
  rw [readAll, List.foldl_cons, hfold _ _ rfl]
  rfl

/-! ## When data is accepted -/

/-- The worker is seen in time. -/
def Visit.ReadyInTime (v : Visit) (workerId : Str) : Prop :=
  ∃ n, v.isTaskWorkerReady workerId n = true ∧
    ∀ k < n, v.elapsed k ≤ waitTaskWorkerReadyTimeoutMs

/-- The worker `w` takes in data for the task `t`: the task is not finished, the worker is seen
in time, is the one that is looked up, and has a link context. -/
structure Visit.TakesIn (v : Visit) (t : TaskInfo) (w : Nat) : Prop where
  notFinished : v.entry.isFinishedTask t.workerId = false
  readyInTime : v.ReadyInTime t.workerId
  found : v.lookup.getWorker t = some w
  linked : v.hasLinkContext w = true

theorem waitUntilWorkerReady_eq_success_iff (v : Visit) (workerId : Str) (timeoutMs k : Nat) :
    v.waitUntilWorkerReady workerId timeoutMs k = .SUCCESS ↔
      ∃ n, k ≤ n ∧ v.isTaskWorkerReady workerId n = true ∧
        ∀ j, k ≤ j → j < n → v.elapsed j ≤ timeoutMs := by
  induction k using Visit.waitUntilWorkerReady.induct v workerId timeoutMs with
  | case1 k hready =>
      rw [Visit.waitUntilWorkerReady, if_pos hready]
      exact ⟨fun _ => ⟨k, Nat.le_refl k, hready, fun j hkj hjk => by omega⟩, fun _ => rfl⟩
  | case2 k hready hlate =>
      rw [Visit.waitUntilWorkerReady, if_neg hready, if_pos hlate]
      constructor
      · intro h
        cases h
      · rintro ⟨n, hkn, hn, htime⟩
        have hne : k ≠ n := fun h => hready (h ▸ hn)
        -- the worker is seen after the poll `k`, which was already too late
        have hle := htime k (Nat.le_refl k) (by omega)
        omega
  | case3 k hready hlate ih =>
      rw [Visit.waitUntilWorkerReady, if_neg hready, if_neg hlate, ih]
      constructor
      · rintro ⟨n, hkn, hn, htime⟩
        refine ⟨n, by omega, hn, ?_⟩
        intro j hkj hjn
        by_cases hj : j = k
        · subst hj
          omega
        · exact htime j (by omega) hjn
      · rintro ⟨n, hkn, hn, htime⟩
        have hne : k ≠ n := fun h => hready (h ▸ hn)
        exact ⟨n, by omega, hn, fun j hkj hjn => htime j (by omega) hjn⟩

theorem readyInTime_iff (v : Visit) (workerId : Str) : v.ReadyInTime workerId ↔
    v.waitUntilWorkerReady workerId waitTaskWorkerReadyTimeoutMs 0 = .SUCCESS := by
  rw [waitUntilWorkerReady_eq_success_iff]
  constructor
  · rintro ⟨n, hn, htime⟩
    exact ⟨n, Nat.zero_le n, hn, fun j _ hj => htime j hj⟩
  · rintro ⟨n, _, hn, htime⟩
    exact ⟨n, hn, fun k hk => htime k (Nat.zero_le k) hk⟩

/-- The data is appended to the queue of the worker that takes it in. -/
theorem processReceivedData_of_takesIn {v : Visit} {t : TaskInfo} {w : Nat} (h : v.TakesIn t w)
    (q : RecvQueues) (key : Str) (data : Bytes) :
    v.processReceivedData q t key data = (.SUCCESS, q.push w key data) := by
  have hready := (readyInTime_iff v t.workerId).mp h.readyInTime
  simp [Visit.processReceivedData, h.notFinished, hready, h.found, h.linked]

/-- Data that no worker takes in is refused. -/
theorem processReceivedData_of_not_takesIn {v : Visit} {t : TaskInfo}
    (h : ∀ w, ¬ v.TakesIn t w) (q : RecvQueues) (key : Str) (data : Bytes) :
    v.processReceivedData q t key data = (.FAIL, q) := by
  rw [Visit.processReceivedData]
  split_ifs with hfinished hready
  · rfl
  · rfl
  · cases hworker : v.lookup.getWorker t with
    | none => rfl
    | some w =>
        show (if v.hasLinkContext w then _ else _) = _
        rw [not_not] at hready
        -- all that is left to fail is the link context
        have hlink : ¬ v.hasLinkContext w = true := fun hlink =>
          h w ⟨by simpa using hfinished, (readyInTime_iff v t.workerId).mpr hready, hworker, hlink⟩
        rw [if_neg hlink]

/-- **`ProcessReceivedData` succeeds exactly when a worker takes the data in.** -/
theorem processReceivedData_success_iff (v : Visit) (q : RecvQueues) (t : TaskInfo) (key : Str)
    (data : Bytes) :
    (v.processReceivedData q t key data).1 = .SUCCESS ↔ ∃ w, v.TakesIn t w := by
  constructor
  · intro h
    by_contra hnot
    rw [processReceivedData_of_not_takesIn (not_exists.mp hnot)] at h
    cases h
  · rintro ⟨w, hw⟩
    rw [processReceivedData_of_takesIn hw]

/-! ## The answer -/

/-- The answer is `SUCCESS` only if the payload was appended to the queue of the worker and the
key, and `FAIL` whenever `ProcessReceivedData` fails. -/
structure AnswersRight (v : Visit) (q : RecvQueues) (requests : List TaskRequest) : Prop where
  success : (v.send q requests).1.retCode = .SUCCESS →
    ∃ w, v.lookup.getWorker (readAll requests).taskInfo = some w ∧
      (v.send q requests).2.queue w (readAll requests).key =
        q.queue w (readAll requests).key ++ [(requests.map TaskRequest.data).flatten]
  fail : (v.processReceivedData q (readAll requests).taskInfo (readAll requests).key
      (readAll requests).receivedData).1 ≠ .SUCCESS →
    (v.send q requests).1.retCode = .FAIL

theorem send_eq (v : Visit) (q : RecvQueues) (requests : List TaskRequest) :
    v.send q requests = ({ retCode := .SUCCESS },
      (v.processReceivedData q (readAll requests).taskInfo (readAll requests).key
        (readAll requests).receivedData).2) := rfl

theorem receivedData_readAll (requests : List TaskRequest) :
    (readAll requests).receivedData = (requests.map TaskRequest.data).flatten := by
  cases requests with
  | nil => rfl
  | cons request requests => rw [readAll_cons]

/-- **The answer of `Send` is right exactly when a worker takes the data in.** -/
theorem answersRight_iff (v : Visit) (q : RecvQueues) (requests : List TaskRequest) :
    AnswersRight v q requests ↔ ∃ w, v.TakesIn (readAll requests).taskInfo w := by
  constructor
  · intro h
    rw [← processReceivedData_success_iff v q _ (readAll requests).key
      (readAll requests).receivedData]
    by_contra hfail
    have hcode := h.fail hfail
    rw [send_eq] at hcode
    cases hcode
  · rintro ⟨w, hw⟩
    refine ⟨fun _ => ⟨w, hw.found, ?_⟩, ?_⟩
    · rw [send_eq, processReceivedData_of_takesIn hw, receivedData_readAll]
      show (RecvQueues.push _ _ _ _).queue _ _ = _
      rw [RecvQueues.queue_push, if_pos ⟨rfl, rfl⟩]
    · intro hfail
      rw [processReceivedData_of_takesIn hw] at hfail
      exact absurd rfl hfail

/-- A node on which the task of the request has finished. -/
def finishedVisit : Visit :=
  .steady { State.init with finishedTaskStatus := [(['r'], (.SUCCESS, 0))] }
    (fun _ => (State.init, false)) State.init fun _ => false

/-- Data for a finished task is dropped and acknowledged. -/
theorem not_answersRight :
    ¬ ∀ (v : Visit) (q : RecvQueues) (requests : List TaskRequest), AnswersRight v q requests := by
  intro h
  have hcode := (h finishedVisit (fun _ => [])
    [{ taskInfo := ⟨['r'], ['0']⟩, role := ['k'], dataLen := 1, data := [7] }]).fail (by decide)
  rw [send_eq] at hcode
  cases hcode

end Fediux.Node
