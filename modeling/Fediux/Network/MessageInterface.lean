import Fediux.Basic.Turns
import Fediux.Node.Receive

set_option autoImplicit false

/-! # Overlapping operations on a message interface

`async_recv` and `async_send` start a detached thread each, which makes one channel call for
every buffer (`util/network/message_interface.cc`). The header promises that the receive threads
get the messages in the order in which they start. The queue that should see to it is never
used (`recvWaitQueue_eq_nil`), and the send threads have none. `orderKept_of_ordered` says for
which schedules the order is kept.
-/

namespace Fediux.Network.MessagePass

open Fediux.Node (Bytes Retcode)
open Transition (run trace run_invariant step_of_mem_trace)
open Turns (Turn InOrder Serial)

/-! ## Operations -/

/-- The error codes that the completion handlers get. -/
inductive Errc where
  | success
  | operationCanceled
  | interrupted
  | messageSize
  | brokenPipe
  deriving DecidableEq, Repr

/-- Where the thread of a receive is: before the mutex section, in `wait_lock->wait`, at the
head of the loop, in `forwardRecv`, behind the completion handler, or at its end. -/
inductive RecvPhase where
  | starting
  | waiting
  | checking
  | calling
  | completed (errc : Errc)
  | ended
  deriving DecidableEq, Repr

/-- A call of `async_recv` with the sizes of its buffers; `got` are the messages its channel
calls have returned. -/
structure RecvOp where
  buffers : List Nat
  got : List Bytes
  bytesRecv : Nat
  phase : RecvPhase
  deriving DecidableEq, Repr

namespace RecvOp

def start (buffers : List Nat) : RecvOp :=
  { buffers := buffers, got := [], bytesRecv := 0, phase := .starting }

/-- The head of the loop. -/
def check (cancel : Bool) (op : RecvOp) : RecvOp :=
  if op.got.length < op.buffers.length then
    if cancel then { op with phase := .completed .operationCanceled }
    else { op with phase := .calling }
  else { op with phase := .completed .success }

/-- `forwardRecv` returns the message `m`. -/
def receive (m : Bytes) (op : RecvOp) : RecvOp :=
  let size := op.buffers.getD op.got.length 0
  let op := { op with got := op.got ++ [m] }
  if m.length = 0 then { op with phase := .completed .interrupted }
  else if m.length ≠ size then { op with phase := .completed .messageSize }
  else { op with bytesRecv := op.bytesRecv + size, phase := .checking }

/-- The thread is behind its loop. -/
def isOver (op : RecvOp) : Bool :=
  match op.phase with
  | .completed _ => true
  | .ended => true
  | _ => false

/-- A receive makes no channel call any more when it has filled its buffers or is over. -/
def turn (op : RecvOp) : Turn Bytes where
  width := op.buffers.length
  items := op.got
  closed := op.isOver || op.got.length = op.buffers.length

def Calling (op : RecvOp) : Prop := op.phase = .calling

end RecvOp

/-- Where the thread of a send is; `leaving` is behind its loop. -/
inductive SendPhase where
  | starting
  | checking
  | calling
  | leaving (errors : Bool)
  | completed (errc : Errc)
  | ended
  deriving DecidableEq, Repr

/-- A call of `async_send` with its buffers; `put` are those it has given to the channel. -/
structure SendOp where
  buffers : List Bytes
  put : List Bytes
  bytesSend : Nat
  phase : SendPhase
  deriving DecidableEq, Repr

namespace SendOp

def start (buffers : List Bytes) : SendOp :=
  { buffers := buffers, put := [], bytesSend := 0, phase := .starting }

/-- The head of the loop. -/
def check (cancel : Bool) (op : SendOp) : SendOp :=
  if op.put.length < op.buffers.length then
    if cancel then { op with phase := .leaving false } else { op with phase := .calling }
  else { op with phase := .leaving false }

/-- The buffer of the next channel call. -/
def next (op : SendOp) : Bytes := op.buffers.getD op.put.length []

/-- `send_channel_->send` returns `ret`. -/
def sent (ret : Retcode) (op : SendOp) : SendOp :=
  let size := op.next.length
  let op := { op with put := op.put ++ [op.next] }
  if ret = .SUCCESS then { op with bytesSend := op.bytesSend + size, phase := .checking }
  else { op with phase := .leaving true }

/-- The error code of the completion handler. -/
def finish (cancel errors : Bool) (op : SendOp) : SendOp :=
  if cancel then { op with phase := .completed .operationCanceled }
  else if errors then { op with phase := .completed .brokenPipe }
  else { op with phase := .completed .success }

def isOver (op : SendOp) : Bool :=
  match op.phase with
  | .leaving _ => true
  | .completed _ => true
  | .ended => true
  | _ => false

def turn (op : SendOp) : Turn Bytes where
  width := op.buffers.length
  items := op.put
  closed := op.isOver || op.put.length = op.buffers.length

def Calling (op : SendOp) : Prop := op.phase = .calling

end SendOp

/-! ## The interface -/

/-- `TaskMessagePassInterface` with its threads and its link: the messages that have arrived
under `recv_key_`, how many of them the link has delivered, and what was put on the link under
`send_key_`. `recvQueueMu` is the thread that waits with the mutex. -/
structure State where
  recvs : List RecvOp
  recvWaitQueue : List Nat
  recvQueueMu : Option Nat
  recvCount : Int
  arrived : List Bytes
  delivered : Nat
  sends : List SendOp
  sendCount : Int
  outgoing : List Bytes
  cancel : Bool
  deriving DecidableEq, Repr

namespace State

def init : State :=
  { recvs := []
    recvWaitQueue := []
    recvQueueMu := none
    recvCount := 0
    arrived := []
    delivered := 0
    sends := []
    sendCount := 0
    outgoing := []
    cancel := false }

def recvIn (s : State) (i : Nat) (phase : RecvPhase) : Option RecvOp :=
  s.recvs[i]?.filter fun op => op.phase = phase

def sendIn (s : State) (i : Nat) (phase : SendPhase) : Option SendOp :=
  s.sends[i]?.filter fun op => op.phase = phase

def modifyRecv (s : State) (i : Nat) (f : RecvOp → RecvOp) : State :=
  { s with recvs := s.recvs.modify i f }

def modifySend (s : State) (i : Nat) (f : SendOp → SendOp) : State :=
  { s with sends := s.sends.modify i f }

/-- The mutex section at the beginning of `_channelRecv`: a thread queues up only behind
another one in the queue. -/
def recvEnter (s : State) (i : Nat) : State :=
  if s.recvWaitQueue.isEmpty then
    { s.modifyRecv i fun op => { op with phase := .checking } with recvCount := s.recvCount + 1 }
  else
    { s.modifyRecv i fun op => { op with phase := .waiting } with
      recvWaitQueue := s.recvWaitQueue ++ [i]
      recvQueueMu := some i }

/-- The end of `_channelRecv`. -/
def recvLeave (s : State) (i : Nat) : State :=
  let s := { s.modifyRecv i fun op => { op with phase := .ended } with
    recvCount := s.recvCount - 1 }
  match s.recvWaitQueue with
  | [] => s
  | j :: rest =>
      { s.modifyRecv j fun op =>
          if op.phase = .waiting then { op with phase := .checking } else op with
        recvWaitQueue := rest
        recvQueueMu := none
        recvCount := s.recvCount + 1 }

end State

inductive Action where
  /-- `async_recv` is called. -/
  | asyncRecv (buffers : List Nat)
  /-- `async_send` is called. -/
  | asyncSend (buffers : List Bytes)
  | recvEnter (i : Nat)
  | recvCheck (i : Nat)
  /-- `forwardRecv` of the receive `i` returns the next message. -/
  | recvMessage (i : Nat)
  /-- `forwardRecv` of the receive `i` fails, or the queue is shut down. -/
  | recvInterrupted (i : Nat)
  | recvLeave (i : Nat)
  | sendEnter (i : Nat)
  | sendCheck (i : Nat)
  /-- `send` of the channel returns. -/
  | sendCall (i : Nat) (ret : Retcode)
  | sendFinish (i : Nat)
  | sendLeave (i : Nat)
  /-- A message arrives. -/
  | arrive (m : Bytes)
  | cancel
  deriving DecidableEq, Repr

def step (s : State) : Action → Option State
  | .asyncRecv buffers => some { s with recvs := s.recvs ++ [RecvOp.start buffers] }
  | .asyncSend buffers => some { s with sends := s.sends ++ [SendOp.start buffers] }
  | .recvEnter i =>
      if s.recvQueueMu = none then (s.recvIn i .starting).map fun _ => s.recvEnter i else none
  | .recvCheck i => (s.recvIn i .checking).map fun _ => s.modifyRecv i (RecvOp.check s.cancel)
  | .recvMessage i =>
      (s.recvIn i .calling).bind fun _ => s.arrived[s.delivered]?.map fun m =>
        { s.modifyRecv i (RecvOp.receive m) with delivered := s.delivered + 1 }
  | .recvInterrupted i =>
      (s.recvIn i .calling).map fun _ =>
        s.modifyRecv i fun op => { op with phase := .completed .interrupted }
  | .recvLeave i =>
      (s.recvs[i]?).bind fun op =>
        match op.phase with
        | .completed _ => if s.recvQueueMu = none then some (s.recvLeave i) else none
        | _ => none
  | .sendEnter i =>
      (s.sendIn i .starting).map fun _ =>
        { s.modifySend i fun op => { op with phase := .checking } with
          sendCount := s.sendCount + 1 }
  | .sendCheck i => (s.sendIn i .checking).map fun _ => s.modifySend i (SendOp.check s.cancel)
  | .sendCall i ret =>
      (s.sendIn i .calling).map fun op =>
        { s.modifySend i (SendOp.sent ret) with outgoing := s.outgoing ++ [op.next] }
  | .sendFinish i =>
      (s.sends[i]?).bind fun op =>
        match op.phase with
        | .leaving errors => some (s.modifySend i (SendOp.finish s.cancel errors))
        | _ => none
  | .sendLeave i =>
      (s.sendIn i (.completed .success)).map fun _ =>
        { s.modifySend i fun op => { op with phase := .ended } with
          sendCount := s.sendCount - 1 }
  | .arrive m => some { s with arrived := s.arrived ++ [m] }
  | .cancel => some { s with cancel := true }

/-! ## The promised order -/

/-- Every receive gets the messages behind those of the receives issued before it, and every
send is put on the link behind the sends issued before it. With one buffer an operation the
`k`-th receive gets the `k`-th message and the `k`-th send is put on the link as the `k`-th. -/
structure OrderKept (s : State) : Prop where
  recv : InOrder RecvOp.turn s.recvs s.arrived
  send : InOrder SendOp.turn s.sends s.outgoing

/-- A thread goes into a channel call only when the operations issued before its own make no
channel call any more. -/
def Ordered (s : State) : Action → Prop
  | .recvCheck i => ∀ op ∈ s.recvs[i]?, (op.check s.cancel).phase = .calling →
      ∀ j < i, ∀ op' ∈ s.recvs[j]?, op'.turn.closed = true
  | .sendCheck i => ∀ op ∈ s.sends[i]?, (op.check s.cancel).phase = .calling →
      ∀ j < i, ∀ op' ∈ s.sends[j]?, op'.turn.closed = true
  | _ => True

instance (s : State) (a : Action) : Decidable (Ordered s a) := by
  cases a <;> unfold Ordered <;> infer_instance

/-! ## The queue is not used -/

theorem recvWaitQueue_step {s s' : State} {a : Action} (h : s.recvWaitQueue = [])
    (hstep : step s a = some s') : s'.recvWaitQueue = [] := by
  cases a with
  | recvEnter i =>
      rw [step] at hstep
      split_ifs at hstep
      obtain ⟨_, _, rfl⟩ := Option.map_eq_some_iff.mp hstep
      rw [State.recvEnter, h]
      exact h
  | recvLeave i =>
      obtain ⟨op, _, hstep⟩ := Option.bind_eq_some_iff.mp hstep
      split at hstep
      · split_ifs at hstep
        cases hstep
        rw [State.recvLeave]
        show (match s.recvWaitQueue with | [] => _ | j :: rest => _ : State).recvWaitQueue = []
        rw [h]
        exact h
      · cases hstep
  | recvMessage i =>
      obtain ⟨_, _, hstep⟩ := Option.bind_eq_some_iff.mp hstep
      obtain ⟨_, _, rfl⟩ := Option.map_eq_some_iff.mp hstep
      exact h
  | sendFinish i =>
      obtain ⟨op, _, hstep⟩ := Option.bind_eq_some_iff.mp hstep
      split at hstep
      · cases hstep
        exact h
      · cases hstep
  | asyncRecv buffers =>
      cases hstep
      exact h
  | asyncSend buffers =>
      cases hstep
      exact h
  | arrive m =>
      cases hstep
      exact h
  | cancel =>
      cases hstep
      exact h
  | recvCheck i =>
      obtain ⟨_, _, rfl⟩ := Option.map_eq_some_iff.mp hstep
      exact h
  | recvInterrupted i =>
      obtain ⟨_, _, rfl⟩ := Option.map_eq_some_iff.mp hstep
      exact h
  | sendEnter i =>
      obtain ⟨_, _, rfl⟩ := Option.map_eq_some_iff.mp hstep
      exact h
  | sendCheck i =>
      obtain ⟨_, _, rfl⟩ := Option.map_eq_some_iff.mp hstep
      exact h
  | sendCall i ret =>
      obtain ⟨_, _, rfl⟩ := Option.map_eq_some_iff.mp hstep
      exact h
  | sendLeave i =>
      obtain ⟨_, _, rfl⟩ := Option.map_eq_some_iff.mp hstep
      exact h

/-- **In every run `recv_wait_queue_` stays empty**: a thread enters it only if it is not. -/
theorem recvWaitQueue_eq_nil (acts : List Action) (s : State)
    (h : run step State.init acts = some s) : s.recvWaitQueue = [] :=
  run_invariant (fun s => s.recvWaitQueue = [])
    (fun _ he hbefore => recvWaitQueue_step hbefore (step_of_mem_trace he)) rfl h

/-! ## Taking turns -/

/-- The receives take turns at the delivered messages, the sends at the link. -/
structure Tracked (s : State) : Prop where
  recv : Serial RecvOp.turn RecvOp.Calling s.recvs (s.arrived.take s.delivered)
  delivered : s.delivered ≤ s.arrived.length
  send : Serial SendOp.turn SendOp.Calling s.sends s.outgoing

theorem Tracked.orderKept {s : State} (h : Tracked s) : OrderKept s := by
  refine ⟨?_, h.send.inOrder⟩
  intro k op hop b m hm
  have hget := h.recv.inOrder k op hop b m hm
  rw [List.getElem?_take] at hget
  split_ifs at hget
  exact hget

theorem tracked_init : Tracked State.init :=
  ⟨Turns.serial_nil, Nat.le_refl 0, Turns.serial_nil⟩

theorem recvIn_eq_some {s : State} {i : Nat} {phase : RecvPhase} {op : RecvOp}
    (h : s.recvIn i phase = some op) : s.recvs[i]? = some op ∧ op.phase = phase := by
  obtain ⟨hop, hphase⟩ := Option.filter_eq_some_iff.mp h
  exact ⟨hop, of_decide_eq_true hphase⟩

theorem sendIn_eq_some {s : State} {i : Nat} {phase : SendPhase} {op : SendOp}
    (h : s.sendIn i phase = some op) : s.sends[i]? = some op ∧ op.phase = phase := by
  obtain ⟨hop, hphase⟩ := Option.filter_eq_some_iff.mp h
  exact ⟨hop, of_decide_eq_true hphase⟩

/-- A new phase of a thread that is not over, away from the channel. -/
theorem serial_recv_phase {s : State} {log : List Bytes} {i : Nat}
    (h : Serial RecvOp.turn RecvOp.Calling s.recvs log) (phase : RecvPhase)
    (hphase : phase ≠ .calling)
    (hover : ∀ op, s.recvs[i]? = some op → op.isOver = true →
      ({ op with phase := phase } : RecvOp).isOver = true) :
    Serial RecvOp.turn RecvOp.Calling (s.recvs.modify i fun op => { op with phase := phase })
      log := by
  refine h.pass fun op hop => ⟨rfl, ?_, hphase⟩
  intro hclosed
  rcases Bool.or_eq_true_iff.mp hclosed with ho | hfull
  · exact Bool.or_eq_true_iff.mpr (Or.inl (hover op hop ho))
  · exact Bool.or_eq_true_iff.mpr (Or.inr hfull)

theorem serial_send_phase {s : State} {log : List Bytes} {i : Nat}
    (h : Serial SendOp.turn SendOp.Calling s.sends log) (phase : SendPhase)
    (hphase : phase ≠ .calling)
    (hover : ∀ op, s.sends[i]? = some op → op.isOver = true →
      ({ op with phase := phase } : SendOp).isOver = true) :
    Serial SendOp.turn SendOp.Calling (s.sends.modify i fun op => { op with phase := phase })
      log := by
  refine h.pass fun op hop => ⟨rfl, ?_, hphase⟩
  intro hclosed
  rcases Bool.or_eq_true_iff.mp hclosed with ho | hfull
  · exact Bool.or_eq_true_iff.mpr (Or.inl (hover op hop ho))
  · exact Bool.or_eq_true_iff.mpr (Or.inr hfull)

theorem RecvOp.receive_turn (m : Bytes) (op : RecvOp) :
    (op.receive m).turn.items = op.turn.items ++ [m] ∧ ¬ (op.receive m).Calling := by
  rw [RecvOp.receive, RecvOp.Calling]
  dsimp only
  split_ifs <;> exact ⟨rfl, fun h => nomatch h⟩

theorem SendOp.sent_turn (ret : Retcode) (op : SendOp) :
    (op.sent ret).turn.items = op.turn.items ++ [op.next] ∧ ¬ (op.sent ret).Calling := by
  rw [SendOp.sent, SendOp.Calling]
  dsimp only
  split_ifs <;> exact ⟨rfl, fun h => nomatch h⟩

/-- The head of the loop leads into a channel call only with a buffer left. -/
theorem RecvOp.check_turn {op : RecvOp} (hphase : op.phase = .checking) (cancel : Bool) :
    (op.check cancel).turn.items = op.turn.items ∧
      (op.turn.closed = true → (op.check cancel).turn.closed = true) ∧
      ((op.check cancel).Calling → (op.check cancel).turn.closed = false) := by
  -- a thread at the head of its loop is closed only by its last buffer
  have hclosed : op.turn.closed = decide (op.got.length = op.buffers.length) := by
    rw [RecvOp.turn, RecvOp.isOver, hphase]
    rfl
  rw [hclosed, RecvOp.check]
  split_ifs with hlt hcancel
  · exact ⟨rfl, fun _ => rfl, fun h => nomatch h⟩
  · have hne : ¬ op.got.length = op.buffers.length := by omega
    exact ⟨rfl, fun h => absurd (of_decide_eq_true h) hne, fun _ => decide_eq_false hne⟩
  · exact ⟨rfl, fun _ => rfl, fun h => nomatch h⟩

theorem SendOp.check_turn {op : SendOp} (hphase : op.phase = .checking) (cancel : Bool) :
    (op.check cancel).turn.items = op.turn.items ∧
      (op.turn.closed = true → (op.check cancel).turn.closed = true) ∧
      ((op.check cancel).Calling → (op.check cancel).turn.closed = false) := by
  have hclosed : op.turn.closed = decide (op.put.length = op.buffers.length) := by
    rw [SendOp.turn, SendOp.isOver, hphase]
    rfl
  rw [hclosed, SendOp.check]
  split_ifs with hlt hcancel
  · exact ⟨rfl, fun _ => rfl, fun h => nomatch h⟩
  · have hne : ¬ op.put.length = op.buffers.length := by omega
    exact ⟨rfl, fun h => absurd (of_decide_eq_true h) hne, fun _ => decide_eq_false hne⟩
  · exact ⟨rfl, fun _ => rfl, fun h => nomatch h⟩

theorem SendOp.finish_turn (cancel errors : Bool) (op : SendOp) :
    (op.finish cancel errors).turn.items = op.turn.items ∧
      (op.finish cancel errors).turn.closed = true ∧ ¬ (op.finish cancel errors).Calling := by
  rw [SendOp.finish, SendOp.Calling]
  split_ifs <;> exact ⟨rfl, rfl, fun h => nomatch h⟩

/-- A receive that enters the queue begins its loop or waits. -/
theorem Tracked.recvEnter {s : State} {i : Nat} {op : RecvOp} (h : Tracked s)
    (hop : s.recvIn i .starting = some op) : Tracked (s.recvEnter i) := by
  obtain ⟨hop, hphase⟩ := recvIn_eq_some hop
  -- a thread that has not begun its loop is not over
  have hnot : ∀ op', s.recvs[i]? = some op' → op'.isOver = true → False := by
    intro op' hop' hover
    rw [hop] at hop'
    cases hop'
    rw [RecvOp.isOver, hphase] at hover
    cases hover
  rw [State.recvEnter]
  split_ifs
  · exact ⟨serial_recv_phase h.recv .checking (fun hp => nomatch hp)
      (fun op' hop' hover => (hnot op' hop' hover).elim), h.delivered, h.send⟩
  · exact ⟨serial_recv_phase h.recv .waiting (fun hp => nomatch hp)
      (fun op' hop' hover => (hnot op' hop' hover).elim), h.delivered, h.send⟩

/-- A receive that leaves is over; the thread at the front of the queue goes on. -/
theorem Tracked.recvLeave {s : State} (h : Tracked s) (i : Nat) : Tracked (s.recvLeave i) := by
  have hended : Serial RecvOp.turn RecvOp.Calling
      (s.recvs.modify i fun op => { op with phase := .ended }) (s.arrived.take s.delivered) :=
    serial_recv_phase h.recv _ (fun hp => nomatch hp) (fun _ _ _ => rfl)
  rw [State.recvLeave]
  split
  · exact ⟨hended, h.delivered, h.send⟩
  · refine ⟨hended.modify fun op' hop' => ?_, h.delivered, h.send⟩
    -- only a thread that still waits is changed
    by_cases hwait : op'.phase = .waiting
    · rw [if_pos hwait]
      refine ⟨rfl, ?_, fun hcall => nomatch hcall⟩
      intro hclosed
      rcases Bool.or_eq_true_iff.mp hclosed with hover | hfull
      · rw [RecvOp.isOver, hwait] at hover
        cases hover
      · exact hfull
    · rw [if_neg hwait]
      exact ⟨rfl, id, hended.calls _ op' hop'⟩

/-- One step in order keeps the invariant. -/
theorem tracked_step {s s' : State} {a : Action} (horder : Ordered s a) (h : Tracked s)
    (hstep : step s a = some s') : Tracked s' := by
  cases a with
  | asyncRecv buffers =>
      cases hstep
      exact ⟨h.recv.issue rfl (fun hcall => nomatch hcall), h.delivered, h.send⟩
  | asyncSend buffers =>
      cases hstep
      exact ⟨h.recv, h.delivered, h.send.issue rfl (fun hcall => nomatch hcall)⟩
  | recvEnter i =>
      rw [step] at hstep
      split_ifs at hstep
      obtain ⟨op, hop, rfl⟩ := Option.map_eq_some_iff.mp hstep
      exact h.recvEnter hop
  | recvCheck i =>
      obtain ⟨op, hop, rfl⟩ := Option.map_eq_some_iff.mp hstep
      obtain ⟨hop, hphase⟩ := recvIn_eq_some hop
      refine ⟨h.recv.modify fun op' hop' => ?_, h.delivered, h.send⟩
      rw [hop] at hop'
      cases hop'
      obtain ⟨hitems, hclosed, hopen⟩ := RecvOp.check_turn hphase s.cancel
      exact ⟨hitems, hclosed, fun hcall => ⟨hopen hcall, horder op hop hcall⟩⟩
  | recvMessage i =>
      obtain ⟨op, hop, hstep⟩ := Option.bind_eq_some_iff.mp hstep
      obtain ⟨m, hm, rfl⟩ := Option.map_eq_some_iff.mp hstep
      obtain ⟨hop, hphase⟩ := recvIn_eq_some hop
      obtain ⟨hitems, hdone⟩ := RecvOp.receive_turn m op
      obtain ⟨hlt, _⟩ := List.getElem?_eq_some_iff.mp hm
      -- the next message is delivered to the receive that has called
      have htake : s.arrived.take (s.delivered + 1) = s.arrived.take s.delivered ++ [m] := by
        rw [List.take_add_one, hm]
        rfl
      refine ⟨?_, hlt, h.send⟩
      show Serial _ _ (s.recvs.modify i (RecvOp.receive m)) (s.arrived.take (s.delivered + 1))
      rw [htake]
      exact h.recv.take hop hphase hitems hdone
  | recvInterrupted i =>
      obtain ⟨op, hop, rfl⟩ := Option.map_eq_some_iff.mp hstep
      exact ⟨serial_recv_phase h.recv _ (fun hp => nomatch hp) (fun _ _ _ => rfl), h.delivered,
        h.send⟩
  | recvLeave i =>
      obtain ⟨op, hop, hstep⟩ := Option.bind_eq_some_iff.mp hstep
      split at hstep
      · split_ifs at hstep
        cases hstep
        exact h.recvLeave i
      · cases hstep
  | sendEnter i =>
      obtain ⟨op, hop, rfl⟩ := Option.map_eq_some_iff.mp hstep
      obtain ⟨hop, hphase⟩ := sendIn_eq_some hop
      refine ⟨h.recv, h.delivered, serial_send_phase h.send _ (fun hp => nomatch hp) ?_⟩
      intro op' hop' hover
      rw [hop] at hop'
      cases hop'
      rw [SendOp.isOver, hphase] at hover
      cases hover
  | sendCheck i =>
      obtain ⟨op, hop, rfl⟩ := Option.map_eq_some_iff.mp hstep
      obtain ⟨hop, hphase⟩ := sendIn_eq_some hop
      refine ⟨h.recv, h.delivered, h.send.modify fun op' hop' => ?_⟩
      rw [hop] at hop'
      cases hop'
      obtain ⟨hitems, hclosed, hopen⟩ := SendOp.check_turn hphase s.cancel
      exact ⟨hitems, hclosed, fun hcall => ⟨hopen hcall, horder op hop hcall⟩⟩
  | sendCall i ret =>
      obtain ⟨op, hop, rfl⟩ := Option.map_eq_some_iff.mp hstep
      obtain ⟨hop, hphase⟩ := sendIn_eq_some hop
      obtain ⟨hitems, hdone⟩ := SendOp.sent_turn ret op
      exact ⟨h.recv, h.delivered, h.send.take hop hphase hitems hdone⟩
  | sendFinish i =>
      obtain ⟨op, hop, hstep⟩ := Option.bind_eq_some_iff.mp hstep
      split at hstep
      · next errors _ =>
          cases hstep
          refine ⟨h.recv, h.delivered, h.send.pass fun op' _ => ?_⟩
          obtain ⟨hitems, hclosed, hdone⟩ := SendOp.finish_turn s.cancel errors op'
          exact ⟨hitems, fun _ => hclosed, hdone⟩
      · cases hstep
  | sendLeave i =>
      obtain ⟨op, hop, rfl⟩ := Option.map_eq_some_iff.mp hstep
      exact ⟨h.recv, h.delivered,
        serial_send_phase h.send _ (fun hp => nomatch hp) (fun _ _ _ => rfl)⟩
  | arrive m =>
      cases hstep
      refine ⟨?_, ?_, h.send⟩
      · show Serial _ _ s.recvs ((s.arrived ++ [m]).take s.delivered)
        rw [List.take_append_of_le_length h.delivered]
        exact h.recv
      · show s.delivered ≤ (s.arrived ++ [m]).length
        rw [List.length_append]
        exact Nat.le_add_right_of_le h.delivered
  | cancel =>
      cases hstep
      exact ⟨h.recv, h.delivered, h.send⟩

/-- **The promised order is kept in every run whose threads call in order.** -/
theorem orderKept_of_ordered (acts : List Action) (s : State)
    (horder : ∀ e ∈ trace step State.init acts, Ordered e.before e.act)
    (h : run step State.init acts = some s) : OrderKept s := by
  have htracked : Tracked s := by
    refine run_invariant Tracked ?_ tracked_init h
    intro e he hbefore
    exact tracked_step (horder e he) hbefore (step_of_mem_trace he)
  exact htracked.orderKept

/-- Two receives and two sends, one after the other. -/
def oneAtATime : List Action :=
  [.asyncRecv [1], .asyncRecv [1], .arrive [7], .arrive [8],
    .recvEnter 0, .recvCheck 0, .recvMessage 0, .recvEnter 1, .recvCheck 1, .recvMessage 1,
    .asyncSend [[1]], .asyncSend [[2]], .sendEnter 0, .sendCheck 0, .sendCall 0 .SUCCESS,
    .sendEnter 1, .sendCheck 1, .sendCall 1 .SUCCESS]

theorem orderKept_of_ordered_oneAtATime :
    ∃ s, run step State.init oneAtATime = some s ∧ OrderKept s :=
  ⟨_, rfl, orderKept_of_ordered oneAtATime _ (by decide) rfl⟩

/-- The thread of the second receive is the first to call. -/
theorem not_orderKept :
    ¬ ∀ (acts : List Action) (s : State), run step State.init acts = some s → OrderKept s := by
  intro h
  have hs := h
    [.asyncRecv [1], .asyncRecv [1], .arrive [7], .arrive [8], .recvEnter 1, .recvEnter 0,
      .recvCheck 1, .recvMessage 1, .recvCheck 0, .recvMessage 0] _ rfl
  have hfirst := hs.recv 0 _ rfl 0 [8] (by decide)
  exact absurd hfirst (by decide)

end Fediux.Network.MessagePass
