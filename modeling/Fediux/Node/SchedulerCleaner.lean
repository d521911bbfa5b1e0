import Fediux.Basic.OrderedMap
import Fediux.Basic.Run
import Fediux.Node.Registry

set_option autoImplicit false

/-! # Which scheduler workers get cleaned

`DispatchTask` enters a worker into `task_scheduler_map_` before anything can fail, and only the
thread it starts at the end hands the worker's id to the cleaning thread (`node/node_impl.cc`).
The threads take turns at one state. `handedOver_of_good` says for which runs every entry is
handed over once all dispatches have ended.
-/

namespace Fediux.Node.Cleaner

open OrderedMap (Entries assign mem_assign)
open Transition (run trace run_invariant step_of_mem_trace)

/-! ## The state -/

/-- What a call of `DispatchTask` answers: the code and the text in the reply. -/
structure Answer where
  retCode : Nat
  msgInfo : Str
  ret : Retcode
  deriving DecidableEq, Repr

/-- How far a call of `DispatchTask` has come. -/
inductive Phase where
  | inserted
  | parserCreated
  | parsed
  | dispatched
  | threadStarted
  | recorded
  | ended (answer : Answer)
  deriving DecidableEq, Repr

/-- The thread that a dispatch starts: it waits until the task has finished, kills a failed
task, and pushes the id of the worker. -/
inductive ThreadPhase where
  | notStarted
  | running
  | pushed
  | threw
  deriving DecidableEq, Repr

structure DispatchCall where
  workerId : Str
  phase : Phase
  thread : ThreadPhase
  deriving DecidableEq, Repr

/-- The calls of `DispatchTask`, and what they share with the cleaning thread.
`finishedScheduler` and `timeoutedScheduler` are the tables of the cleaning thread. -/
structure State where
  calls : List DispatchCall
  taskSchedulerMap : List Str
  finishedSchedulerWorkers : List Str
  finishedScheduler : Entries Str Nat
  timeoutedScheduler : List Str
  now : Nat
  deriving DecidableEq, Repr

/-- `SCHEDULE_WORKER_TIMEOUT_S`. -/
def schedulerWorkerTimeoutS : Nat := 20

/-! ## Steps -/

/-- How a call that `DispatchTask` makes ends: it returns, it returns a null pointer or `FAIL`,
or it throws. -/
inductive CallResult where
  | ok
  | failed
  | throws (what : Str)
  deriving DecidableEq, Repr

inductive Action where
  /-- `DispatchTask` is called and enters its worker. -/
  | insert (workerId : Str)
  /-- `LanguageParserFactory::Create` in call `i`. -/
  | createParser (i : Nat) (r : CallResult)
  /-- `parseTask` and `parseDatasets`, whose return codes are not read. -/
  | parse (i : Nat) (r : CallResult)
  /-- `parseTaskSyntaxTree`, which dispatches to the parties. -/
  | dispatch (i : Nat) (r : CallResult)
  /-- The scheduler thread of call `i` is started. -/
  | startThread (i : Nat) (r : CallResult)
  /-- The future of the thread is put into the map. -/
  | record (i : Nat)
  /-- The reply is filled in and `DispatchTask` returns. -/
  | reply (i : Nat) (r : CallResult)
  /-- The scheduler thread of call `i` ends and pushes the worker's id. -/
  | push (i : Nat)
  /-- The scheduler thread of call `i` ends with an exception. -/
  | throwInThread (i : Nat)
  /-- The cleaning thread pops an id. -/
  | pop
  /-- The cleaning thread erases the timeouted workers. -/
  | erase
  /-- A second passes. -/
  | tick
  deriving DecidableEq, Repr

/-- The `catch` of `DispatchTask`. -/
def caught (what : Str) : Phase :=
  .ended { retCode := 2, msgInfo := "dispatch task to party failed, detail: ".toList ++ what,
           ret := .SUCCESS }

def failedWith (msg : String) : Phase :=
  .ended { retCode := 1, msgInfo := msg.toList, ret := .FAIL }

def CallResult.next (ok failed : Phase) : CallResult → Phase
  | .ok => ok
  | .failed => failed
  | .throws what => caught what

namespace State

def init : State :=
  { calls := []
    taskSchedulerMap := []
    finishedSchedulerWorkers := []
    finishedScheduler := []
    timeoutedScheduler := []
    now := 0 }

/-- The call `i`, if it satisfies `p`. -/
def callWith (s : State) (i : Nat) (p : DispatchCall → Bool) : Option DispatchCall :=
  s.calls[i]?.filter p

def modifyCall (s : State) (i : Nat) (f : DispatchCall → DispatchCall) : State :=
  { s with calls := s.calls.modify i f }

/-- Call `i` goes on from a phase. -/
def advance (s : State) (i : Nat) (phase next : Phase) : Option State :=
  (s.callWith i fun c => c.phase = phase).map fun _ =>
    s.modifyCall i fun c => { c with phase := next }

/-- `insert` or `operator[]` of the map: an entry that is there stays. -/
def enter (s : State) (workerId : Str) : State :=
  if workerId ∈ s.taskSchedulerMap then s
  else { s with taskSchedulerMap := s.taskSchedulerMap ++ [workerId] }

/-- The ids whose time has come. -/
def expired (s : State) (e : Str × Nat) : Bool := schedulerWorkerTimeoutS < s.now - e.2

/-- The cleaning thread sorts in an id that it has popped. -/
def sortIn (s : State) (workerId : Str) : State :=
  let finished := assign s.finishedScheduler workerId s.now
  let timeouted := (finished.filter s.expired).map Prod.fst
  { s with
    finishedScheduler := finished.filter fun e => !s.expired e
    timeoutedScheduler :=
      s.timeoutedScheduler ++ timeouted.filter (· ∉ s.timeoutedScheduler) }

end State

def step (s : State) : Action → Option State
  | .insert workerId => some { s.enter workerId with
      calls := s.calls ++ [{ workerId, phase := .inserted, thread := .notStarted }] }
  | .createParser i r =>
      s.advance i .inserted (r.next .parserCreated (failedWith "create LanguageParser failed"))
  | .parse i r => s.advance i .parserCreated (r.next .parsed .parsed)
  | .dispatch i r =>
      s.advance i .parsed (r.next .dispatched (failedWith "dispatch task to party failed"))
  | .startThread i r =>
      match r with
      | .ok => (s.callWith i fun c => c.phase = .dispatched).map fun _ =>
          s.modifyCall i fun c => { c with phase := .threadStarted, thread := .running }
      | .failed => none
      | .throws what => s.advance i .dispatched (caught what)
  | .record i => (s.callWith i fun c => c.phase = .threadStarted).map fun c =>
      (s.enter c.workerId).modifyCall i fun c => { c with phase := .recorded }
  | .reply i r =>
      match r with
      | .ok => s.advance i .recorded (.ended { retCode := 0, msgInfo := [], ret := .SUCCESS })
      | .failed => none
      | .throws what => s.advance i .recorded (caught what)
  | .push i => (s.callWith i fun c => c.thread = .running).map fun c =>
      { s.modifyCall i fun c => { c with thread := .pushed } with
        finishedSchedulerWorkers := s.finishedSchedulerWorkers ++ [c.workerId] }
  | .throwInThread i => (s.callWith i fun c => c.thread = .running).map fun _ =>
      s.modifyCall i fun c => { c with thread := .threw }
  | .pop =>
      -- more than a hundred timeouted workers are erased before the next id is popped
      if 100 < s.timeoutedScheduler.length then none
      else
        match s.finishedSchedulerWorkers with
        | [] => none
        | workerId :: rest => some ({ s with finishedSchedulerWorkers := rest }.sortIn workerId)
  | .erase =>
      if 100 < s.timeoutedScheduler.length then
        some { s with
          taskSchedulerMap := s.taskSchedulerMap.filter (· ∉ s.timeoutedScheduler)
          timeoutedScheduler := [] }
      else none
  | .tick => some { s with now := s.now + 1 }

/-! ## The property and the condition -/

/-- The id was handed to the cleaning thread: it is in the queue or in a table of the thread. -/
def Handed (s : State) (workerId : Str) : Prop :=
  workerId ∈ s.finishedSchedulerWorkers ∨ workerId ∈ s.finishedScheduler.map Prod.fst ∨
    workerId ∈ s.timeoutedScheduler

instance (s : State) (workerId : Str) : Decidable (Handed s workerId) :=
  inferInstanceAs (Decidable (_ ∨ _ ∨ _))

/-- Every call of `DispatchTask` has returned and no scheduler thread is running. -/
def AllEnded (s : State) : Prop :=
  ∀ c ∈ s.calls, (∃ answer, c.phase = .ended answer) ∧ c.thread ≠ .running

def HandedOver (s : State) : Prop := ∀ workerId ∈ s.taskSchedulerMap, Handed s workerId

/-- No dispatch fails before its thread is started, no scheduler thread throws, and a future is
recorded only while the entry is there, or the id is still to be pushed or to be erased. -/
def Good (s : State) : Action → Prop
  | .createParser _ r => r = .ok
  | .parse _ r => r = .ok ∨ r = .failed
  | .dispatch _ r => r = .ok
  | .startThread _ r => r = .ok
  | .throwInThread _ => False
  | .record i => ∀ c ∈ s.calls[i]?,
      c.workerId ∈ s.taskSchedulerMap ∨ Handed s c.workerId ∨ c.thread = .running
  | _ => True

instance (s : State) (a : Action) : Decidable (Good s a) := by
  cases a <;> simp only [Good] <;> infer_instance

/-! ## The invariant -/

/-- The phases before the thread is started. -/
def Phase.isEarly : Phase → Bool
  | .inserted => true
  | .parserCreated => true
  | .parsed => true
  | .dispatched => true
  | _ => false

/-- The call is still to hand its worker over. -/
def DispatchCall.UnderWay (c : DispatchCall) : Prop :=
  c.phase.isEarly = true ∨ c.thread = .running

/-- An id is handed over or a call is still to do so. -/
def Tended (s : State) (workerId : Str) : Prop :=
  Handed s workerId ∨ ∃ c ∈ s.calls, c.workerId = workerId ∧ c.UnderWay

def Covered (s : State) : Prop := ∀ workerId ∈ s.taskSchedulerMap, Tended s workerId

theorem Covered.handedOver {s : State} (h : Covered s) (hended : AllEnded s) :
    HandedOver s := by
  intro workerId hmem
  rcases h workerId hmem with hhanded | ⟨c, hc, -, hway⟩
  · exact hhanded
  · obtain ⟨⟨answer, hphase⟩, hthread⟩ := hended c hc
    rcases hway with hearly | hrunning
    · rw [hphase] at hearly
      cases hearly
    · exact absurd hrunning hthread

theorem covered_init : Covered State.init := fun _ h => absurd h List.not_mem_nil

theorem callWith_eq_some {s : State} {i : Nat} {p : DispatchCall → Bool} {c : DispatchCall}
    (h : s.callWith i p = some c) : s.calls[i]? = some c ∧ p c = true :=
  Option.filter_eq_some_iff.mp h

/-- A change of a call that stays under way keeps every id tended. -/
theorem Tended.modifyCall {s : State} {workerId : Str} (h : Tended s workerId) {i : Nat}
    {f : DispatchCall → DispatchCall}
    (hf : ∀ c ∈ s.calls[i]?, (f c).workerId = c.workerId ∧ (c.UnderWay → (f c).UnderWay)) :
    Tended (s.modifyCall i f) workerId := by
  rcases h with hhanded | ⟨c, hc, hid, hway⟩
  · exact .inl hhanded
  · obtain ⟨j, hj⟩ := List.mem_iff_getElem?.mp hc
    have hmod := Transition.getElem?_modify_of_some (i := i) (f := f) hj
    by_cases hij : i = j
    · subst hij
      rw [if_pos rfl] at hmod
      obtain ⟨hid', hway'⟩ := hf c hj
      exact .inr ⟨f c, List.mem_of_getElem? hmod, hid'.trans hid, hway' hway⟩
    · rw [if_neg hij] at hmod
      exact .inr ⟨c, List.mem_of_getElem? hmod, hid, hway⟩

theorem mem_enter {s : State} {workerId id : Str} :
    id ∈ (s.enter workerId).taskSchedulerMap ↔ id ∈ s.taskSchedulerMap ∨ id = workerId := by
  unfold State.enter
  split
  · rename_i hmem
    constructor
    · exact .inl
    · rintro (h | rfl)
      · exact h
      · exact hmem
  · rw [List.mem_append, List.mem_singleton]

theorem tended_enter {s : State} {workerId id : Str} :
    Tended (s.enter workerId) id ↔ Tended s id := by
  unfold State.enter
  split <;> rfl

/-! ## One step -/

variable {s s' : State}

/-- A call that goes on, and stays under way if it was, leaves every entry tended. -/
theorem Covered.advance {i : Nat} {phase next : Phase} (h : Covered s)
    (hstep : s.advance i phase next = some s')
    (hnext : phase.isEarly = true → next.isEarly = true) : Covered s' := by
  obtain ⟨c, hc, rfl⟩ := Option.map_eq_some_iff.mp hstep
  obtain ⟨hcall, hphase⟩ := callWith_eq_some hc
  replace hphase : c.phase = phase := of_decide_eq_true hphase
  intro workerId hmem
  refine (h workerId hmem).modifyCall fun c' hc' => ⟨rfl, ?_⟩
  obtain rfl : c = c' := Option.some.inj (hcall.symm.trans hc')
  rintro (hearly | hrunning)
  · exact .inl (hnext (hphase ▸ hearly))
  · exact .inr hrunning

theorem Covered.insert (h : Covered s) (workerId : Str) :
    Covered { s.enter workerId with
      calls := s.calls ++ [{ workerId, phase := .inserted, thread := .notStarted }] } := by
  have hnew : (⟨workerId, .inserted, .notStarted⟩ : DispatchCall) ∈
      s.calls ++ [⟨workerId, .inserted, .notStarted⟩] :=
    List.mem_append_right _ (List.mem_singleton.mpr rfl)
  intro id hid
  rcases mem_enter.mp hid with hid | rfl
  · rcases tended_enter.mpr (h id hid) with hhanded | ⟨c, hc, hcid, hway⟩
    · exact .inl hhanded
    · refine .inr ⟨c, List.mem_append_left _ ?_, hcid, hway⟩
      unfold State.enter at hc
      split at hc <;> exact hc
  · exact .inr ⟨_, hnew, rfl, .inl rfl⟩

theorem Covered.startThread {i : Nat} (h : Covered s)
    (hstep : (s.callWith i fun c => c.phase = .dispatched).map (fun _ =>
      s.modifyCall i fun c => { c with phase := .threadStarted, thread := .running }) =
        some s') : Covered s' := by
  obtain ⟨c, hc, rfl⟩ := Option.map_eq_some_iff.mp hstep
  exact fun workerId hmem =>
    (h workerId hmem).modifyCall fun c' _ => ⟨rfl, fun _ => .inr rfl⟩

/-- The recorded entry is tended: it was in the map, is handed over, or its thread runs. -/
theorem Covered.record {i : Nat} (h : Covered s) (hgood : Good s (.record i))
    (hstep : (s.callWith i fun c => c.phase = .threadStarted).map (fun c =>
      (s.enter c.workerId).modifyCall i fun c => { c with phase := .recorded }) = some s') :
    Covered s' := by
  obtain ⟨c, hc, rfl⟩ := Option.map_eq_some_iff.mp hstep
  obtain ⟨hcall, hphase⟩ := callWith_eq_some hc
  replace hphase : c.phase = .threadStarted := of_decide_eq_true hphase
  have hcalls : (s.enter c.workerId).calls = s.calls := by
    unfold State.enter
    split <;> rfl
  have htended : Tended s c.workerId := by
    rcases hgood c hcall with hmem | hhanded | hrunning
    · exact h c.workerId hmem
    · exact .inl hhanded
    · exact .inr ⟨c, List.mem_of_getElem? hcall, rfl, .inr hrunning⟩
  intro id hid
  have hid : Tended (s.enter c.workerId) id := by
    rw [tended_enter]
    rcases mem_enter.mp hid with hid | rfl
    · exact h id hid
    · exact htended
  refine hid.modifyCall fun c' hc' => ⟨rfl, ?_⟩
  rw [hcalls] at hc'
  obtain rfl : c = c' := Option.some.inj (hcall.symm.trans hc')
  rintro (hearly | hrunning)
  · rw [hphase] at hearly
    cases hearly
  · exact .inr hrunning

/-- The thread that ends puts the id of its call into the queue. -/
theorem Covered.push {i : Nat} (h : Covered s)
    (hstep : (s.callWith i fun c => c.thread = .running).map (fun c =>
      { s.modifyCall i fun c => { c with thread := .pushed } with
        finishedSchedulerWorkers := s.finishedSchedulerWorkers ++ [c.workerId] }) = some s') :
    Covered s' := by
  obtain ⟨c, hc, rfl⟩ := Option.map_eq_some_iff.mp hstep
  obtain ⟨hcall, -⟩ := callWith_eq_some hc
  intro id hid
  rcases h id hid with (hqueue | htable) | ⟨c', hc', hcid, hway⟩
  · exact .inl (.inl (List.mem_append_left _ hqueue))
  · exact .inl (.inr htable)
  · by_cases hsame : c.workerId = id
    · exact .inl (.inl (List.mem_append_right _ (List.mem_singleton.mpr hsame.symm)))
    · obtain ⟨j, hj⟩ := List.mem_iff_getElem?.mp hc'
      have hij : ¬ i = j := by
        rintro rfl
        obtain rfl : c = c' := Option.some.inj (hcall.symm.trans hj)
        exact hsame hcid
      have hmod := Transition.getElem?_modify_of_some (i := i)
        (f := fun c => { c with thread := ThreadPhase.pushed }) hj
      rw [if_neg hij] at hmod
      exact .inr ⟨c', List.mem_of_getElem? hmod, hcid, hway⟩

/-- An id that was popped is in one of the tables, and the others stay where they are. -/
theorem Handed.sortIn {workerId id : Str} {rest : List Str}
    (hqueue : s.finishedSchedulerWorkers = workerId :: rest) (h : Handed s id) :
    Handed ({ s with finishedSchedulerWorkers := rest }.sortIn workerId) id := by
  have htable : id ∈ (assign s.finishedScheduler workerId s.now).map Prod.fst →
      Handed ({ s with finishedSchedulerWorkers := rest }.sortIn workerId) id := by
    intro hmem
    obtain ⟨e, he, rfl⟩ := List.mem_map.mp hmem
    by_cases hexpired : s.expired e
    · by_cases hold : e.1 ∈ s.timeoutedScheduler
      · exact .inr (.inr (List.mem_append_left _ hold))
      · refine .inr (.inr (List.mem_append_right _ (List.mem_filter.mpr ⟨?_, ?_⟩)))
        · exact List.mem_map_of_mem (List.mem_filter.mpr ⟨he, hexpired⟩)
        · exact decide_eq_true hold
    · refine .inr (.inl (List.mem_map_of_mem (List.mem_filter.mpr ⟨he, ?_⟩)))
      rw [Bool.not_eq_true] at hexpired
      show (!s.expired e) = true
      rw [hexpired]
      rfl
  rcases h with hmem | hmem | hmem
  · rw [hqueue] at hmem
    rcases List.mem_cons.mp hmem with rfl | hmem
    · exact htable ((OrderedMap.mem_keys_assign _ _ _ _).mpr (.inl rfl))
    · exact .inl hmem
  · exact htable ((OrderedMap.mem_keys_assign _ _ _ _).mpr (.inr hmem))
  · exact .inr (.inr (List.mem_append_left _ hmem))

theorem Covered.pop {workerId : Str} {rest : List Str} (h : Covered s)
    (hqueue : s.finishedSchedulerWorkers = workerId :: rest) :
    Covered ({ s with finishedSchedulerWorkers := rest }.sortIn workerId) := by
  intro id hid
  rcases h id hid with hhanded | hway
  · exact .inl (hhanded.sortIn hqueue)
  · exact .inr hway

/-- What is erased from the table is erased from the map. -/
theorem Covered.erase (h : Covered s) :
    Covered { s with
      taskSchedulerMap := s.taskSchedulerMap.filter (· ∉ s.timeoutedScheduler)
      timeoutedScheduler := [] } := by
  intro id hid
  obtain ⟨hmem, hnot⟩ := List.mem_filter.mp hid
  replace hnot : id ∉ s.timeoutedScheduler := of_decide_eq_true hnot
  rcases h id hmem with (hqueue | htable | htimeouted) | hway
  · exact .inl (.inl hqueue)
  · exact .inl (.inr (.inl htable))
  · exact absurd htimeouted hnot
  · exact .inr hway

theorem covered_step {a : Action} (hgood : Good s a) (h : Covered s)
    (hstep : step s a = some s') : Covered s' := by
  cases a with
  | insert workerId =>
      cases hstep
      exact h.insert workerId
  | createParser i r =>
      obtain rfl : r = .ok := hgood
      exact h.advance hstep fun _ => rfl
  | parse i r =>
      rcases hgood with rfl | rfl <;> exact h.advance hstep fun _ => rfl
  | dispatch i r =>
      obtain rfl : r = .ok := hgood
      exact h.advance hstep fun _ => rfl
  | startThread i r =>
      obtain rfl : r = .ok := hgood
      exact h.startThread hstep
  | record i => exact h.record hgood hstep
  | reply i r =>
      cases r with
      | ok => exact h.advance hstep fun hearly => absurd hearly Bool.false_ne_true
      | failed => cases hstep
      | throws what => exact h.advance hstep fun hearly => absurd hearly Bool.false_ne_true
  | push i => exact h.push hstep
  | throwInThread i => exact hgood.elim
  | pop =>
      simp only [step] at hstep
      split at hstep
      · cases hstep
      · split at hstep
        · cases hstep
        · rename_i hqueue
          cases hstep
          exact h.pop hqueue
  | erase =>
      simp only [step] at hstep
      split at hstep
      · cases hstep
        exact h.erase
      · cases hstep
  | tick =>
      cases hstep
      exact h

/-! ## Every run -/

/-- **In a run whose steps are good, every entry is handed to the cleaning thread once all
dispatches have ended.** -/
theorem handedOver_of_good (acts : List Action) (s : State)
    (hgood : ∀ e ∈ trace step State.init acts, Good e.before e.act)
    (h : run step State.init acts = some s) (hended : AllEnded s) : HandedOver s := by
  have hcovered : Covered s := by
    refine run_invariant Covered ?_ covered_init h
    intro e he hbefore
    exact covered_step (hgood e he) hbefore (step_of_mem_trace he)
  exact hcovered.handedOver hended

/-- A dispatch that succeeds, and whose worker is popped by the cleaning thread. -/
def oneDispatch : List Action :=
  [.insert ['r'], .createParser 0 .ok, .parse 0 .ok, .dispatch 0 .ok, .startThread 0 .ok,
    .push 0, .record 0, .reply 0 .ok, .pop]

theorem handedOver_of_good_oneDispatch :
    ∃ s, run step State.init oneDispatch = some s ∧ HandedOver s :=
  ⟨_, rfl, handedOver_of_good oneDispatch _ (by decide) rfl (by
    intro c hc
    rw [List.mem_singleton.mp hc]
    exact ⟨⟨_, rfl⟩, by decide⟩)⟩

/-- No parser can be created: the entry of the worker stays in the map for ever. -/
theorem not_handedOver :
    ¬ ∀ (acts : List Action) (s : State), run step State.init acts = some s → AllEnded s →
      HandedOver s := by
  intro h
  have hended : AllEnded
      { State.init with
        calls := [⟨['r'], failedWith "create LanguageParser failed", .notStarted⟩]
        taskSchedulerMap := [['r']] } := by
    intro c hc
    rw [List.mem_singleton.mp hc]
    exact ⟨⟨_, rfl⟩, by decide⟩
  have hs := h [.insert ['r'], .createParser 0 .failed] _ rfl hended ['r'] (by decide)
  exact absurd hs (by decide)

end Fediux.Node.Cleaner
