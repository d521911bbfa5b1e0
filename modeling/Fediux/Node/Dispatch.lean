import Fediux.Node.SchedulerWorker

set_option autoImplicit false

/-! # How many parties a dispatched task waits for

`VMScheduler::dispatch` sends the task to every party and counts the task servers in the
replies (`task/semantic/scheduler/scheduler.cc`). A node that refuses the task replies without
a server and without an error, so the scheduler worker does not wait for it.
`successOnlyIfAll_iff` says for which replies a final `SUCCESS` is the success of every party.
-/

namespace Fediux.Node

open OrderedMap (Entries assign Sorted)

/-! ## Dispatching -/

/-- `Node`, as a reply names it. -/
structure ServerNode where
  ip : Str
  port : Nat
  useTls : Bool
  role : Str
  deriving DecidableEq, Repr

/-- `rpc::PushTaskReply`. -/
structure PushTaskReply where
  taskServer : List ServerNode
  deriving DecidableEq, Repr

/-- How the call of `ExecuteTask` on a party goes: the task is accepted by the node `server`,
is refused because it was received before, fails to initialize, or the call has no reply in
any of its attempts. -/
inductive PartyReply where
  | accepted (server : ServerNode)
  | duplicate
  | initFailed
  | rpcError
  deriving DecidableEq, Repr

namespace PartyReply

/-- `GrpcChannel::executeTask`: only a call without a reply fails. `VMNodeImpl::ExecuteTask`
adds a task server at its very end. -/
def executeTask : PartyReply → Option PushTaskReply
  | .accepted server => some { taskServer := [server] }
  | .duplicate => some { taskServer := [] }
  | .initFailed => some { taskServer := [] }
  | .rpcError => none

def isAccepted : PartyReply → Bool
  | .accepted _ => true
  | _ => false

end PartyReply

/-- `VMScheduler`. -/
structure VMScheduler where
  error : Bool
  taskServerInfo : List ServerNode
  deriving DecidableEq, Repr

namespace VMScheduler

def init : VMScheduler := { error := false, taskServerInfo := [] }

def parseNotifyServer (s : VMScheduler) (reply : PushTaskReply) : VMScheduler :=
  { s with taskServerInfo := s.taskServerInfo ++ reply.taskServer }

/-- `ScheduleTask`, for one party. -/
def scheduleTask (s : VMScheduler) (r : PartyReply) : VMScheduler :=
  match r.executeTask with
  | none => { s with error := true }
  | some reply => s.parseNotifyServer reply

end VMScheduler

/-- The parties of a task (`party_access_info`) and their replies, in the order in which the
threads of `dispatch` finish. -/
structure Dispatch where
  parties : List (Str × PartyReply)
  nodup : (parties.map Prod.fst).Nodup

namespace Dispatch

def names (d : Dispatch) : List Str := d.parties.map Prod.fst

/-- `dispatch`: the scheduler after all threads. -/
def dispatch (d : Dispatch) : VMScheduler :=
  d.parties.foldl (fun s e => s.scheduleTask e.2) VMScheduler.init

/-- `DispatchTask`: the argument of `setPartyCount`, which is not called when there are no
parties or a call had no reply. -/
def dispatchTask (d : Dispatch) : Option Nat :=
  if d.parties.isEmpty then none
  else if d.dispatch.error then none
  else some d.dispatch.taskServerInfo.length

/-- `ROLE_SCHEDULER`. -/
def roleScheduler : Str := ['S', 'C', 'H', 'E', 'D', 'U', 'L', 'E', 'R']

/-- A status update of the task: of a party it was dispatched to, or the kill by the client. -/
def Sends (d : Dispatch) (st : TaskStatus) : Prop :=
  st.party ∈ d.names ∨ (st.party = roleScheduler ∧ st.status = .FAIL)

/-- The final status is `SUCCESS` only if every party has reported `SUCCESS`. Updates that get
lost are not among those the worker sees. -/
def SuccessOnlyIfAll (d : Dispatch) : Prop :=
  ∀ pre post : List TaskStatus, (∀ st ∈ pre ++ post, d.Sends st) →
    (Worker.after (events pre d.dispatchTask post)).waitUntilTaskFinish = some .SUCCESS →
    ∀ p ∈ d.names, Reported (events pre d.dispatchTask post) p .SUCCESS

/-! ## The count -/

theorem foldl_scheduleTask (l : List (Str × PartyReply)) (s : VMScheduler) :
    (l.foldl (fun s e => s.scheduleTask e.2) s).error =
        (s.error || l.any fun e => e.2 = .rpcError) ∧
      (l.foldl (fun s e => s.scheduleTask e.2) s).taskServerInfo.length =
        s.taskServerInfo.length + (l.filter fun e => e.2.isAccepted).length := by
  induction l generalizing s with
  | nil => simp
  | cons e l ih =>
      obtain ⟨herror, hlength⟩ := ih (s.scheduleTask e.2)
      rw [List.foldl_cons, herror, hlength]
      cases hr : e.2 <;>
        simp [VMScheduler.scheduleTask, PartyReply.executeTask, VMScheduler.parseNotifyServer,
          PartyReply.isAccepted, hr]
      omega

/-- **The count is the number of accepted replies, if every call has a reply.** -/
theorem dispatchTask_eq (d : Dispatch) : d.dispatchTask =
    if d.parties = [] ∨ ∃ e ∈ d.parties, e.2 = .rpcError then none
    else some (d.parties.filter fun e => e.2.isAccepted).length := by
  obtain ⟨herror, hlength⟩ := foldl_scheduleTask d.parties VMScheduler.init
  rw [dispatchTask, dispatch, herror, hlength]
  by_cases hnil : d.parties = []
  · simp [hnil]
  · have hany : (VMScheduler.init.error || d.parties.any fun e => e.2 = .rpcError) = true ↔
        d.parties = [] ∨ ∃ e ∈ d.parties, e.2 = .rpcError := by
      simp [hnil, VMScheduler.init]
    rw [if_neg (by simpa using hnil)]
    simp only [hany]
    simp [VMScheduler.init]

end Dispatch

/-! ## When the promise is set to `SUCCESS` -/

/-- A worker that waits for no party does not succeed. -/
theorem no_success_foldl (sts : List TaskStatus) {w : Worker} (hcount : w.partyCount = 0)
    (h : .SUCCESS ∉ w.taskFinishPromise) :
    .SUCCESS ∉ (sts.foldl Worker.updateTaskStatus w).taskFinishPromise := by
  induction sts generalizing w with
  | nil => exact h
  | cons st sts ih =>
      refine ih (by rw [Worker.updateTaskStatus_partyCount, hcount]) ?_
      rw [Worker.updateTaskStatus_taskFinishPromise]
      intro hmem
      rcases List.mem_append.mp hmem with hmem | hmem
      · exact h hmem
      · rw [Option.mem_toList, Worker.finishValue] at hmem
        -- an update leaves an entry, so the size is never the count zero
        have hpos := OrderedMap.length_assign_pos w.finalStatus st.party st.status
        split_ifs at hmem with _ _ hlen
        · cases hmem
        · omega

theorem after_map (sts : List TaskStatus) : Worker.after (sts.map .updateTaskStatus) =
    sts.foldl Worker.updateTaskStatus Worker.init := by
  rw [Worker.after, List.foldl_map]
  rfl

theorem no_success_map (sts : List TaskStatus) :
    .SUCCESS ∉ (Worker.after (sts.map .updateTaskStatus)).taskFinishPromise := by
  rw [after_map]
  exact no_success_foldl sts rfl (fun h => nomatch h)

theorem events_concat (pre : List TaskStatus) (count : Option Nat) (post : List TaskStatus)
    (st : TaskStatus) :
    events pre count (post ++ [st]) = events pre count post ++ [.updateTaskStatus st] := by
  rw [events, List.map_append, ← List.append_assoc, List.map_singleton, events]

/-- **A success is the success of as many parties as were counted.** -/
theorem succeeded_of_success {pre : List TaskStatus} {n : Nat} (post : List TaskStatus)
    (h : .SUCCESS ∈ (Worker.after (events pre (some n) post)).taskFinishPromise) :
    ∃ ps : List Str, ps.Nodup ∧ ps.length = n ∧
      ∀ p ∈ ps, Reported (events pre (some n) post) p .SUCCESS := by
  induction post using List.reverseRecOn with
  | nil =>
      rw [after_events_some] at h
      exact absurd h (no_success_map pre)
  | append_singleton post st ih =>
      have hnext := history_after (events pre (some n) (post ++ [st]))
      rw [events_concat] at h hnext ⊢
      rw [Worker.after_concat] at h hnext
      have hcount : (Worker.after (events pre (some n) post)).partyCount = n := by
        rw [after_events_some, foldl_updateTaskStatus_partyCount]
        rfl
      have hlast := history_after (events pre (some n) post)
      replace h : .SUCCESS ∈ (Worker.updateTaskStatus _ st).taskFinishPromise := h
      rw [Worker.updateTaskStatus_taskFinishPromise] at h
      rcases List.mem_append.mp h with h | h
      · obtain ⟨ps, hnodup, hlength, hall⟩ := ih h
        exact ⟨ps, hnodup, hlength, fun p hp => (hall p hp).mono (List.subset_append_left _ _)⟩
      · rw [Option.mem_toList, Worker.finishValue] at h
        split_ifs at h with hskip hfail hlen
        · cases h
        · rw [not_or, not_not] at hskip
          -- this update has set the promise: the parties are the keys of `final_status_`
          refine ⟨_, hnext.sorted.nodup_keys, ?_, ?_⟩
          · show ((Worker.updateTaskStatus _ st).finalStatus.map Prod.fst).length = n
            rw [Worker.updateTaskStatus_finalStatus, if_pos hskip.2, List.length_map, hlen, hcount]
          · intro p hp
            rcases (hnext.keys p).mp hp with hs | hf
            · exact hs
            · rcases reported_concat_updateTaskStatus.mp hf with hf | ⟨_, hf⟩
              · exact absurd (hlast.fail p hf) hskip.1
              · exact absurd hf hfail

/-- Without a failure a promise that is set is a success. -/
theorem success_of_finished {evs : List WorkerEvent}
    (hdone : (Worker.after evs).schedulerFinished = true)
    (hfail : ∀ p, ¬ Reported evs p .FAIL) :
    (Worker.after evs).waitUntilTaskFinish = some .SUCCESS := by
  have h := history_after evs
  have hnot : .FAIL ∉ (Worker.after evs).taskFinishPromise := by
    intro hf
    obtain ⟨p, hp⟩ := h.failed hf
    exact hfail p hp
  have honce := h.once
  rw [hdone, if_pos rfl] at honce
  obtain ⟨ret, hret⟩ := List.length_eq_one_iff.mp honce
  rw [Worker.waitUntilTaskFinish, hret]
  cases ret with
  | SUCCESS => rfl
  | FAIL =>
      rw [hret] at hnot
      exact absurd (List.mem_singleton.mpr rfl) hnot

/-! ## Which replies are waited for -/

namespace Dispatch

variable (d : Dispatch)

/-- The parties that accepted the task. -/
def acceptedNames : List Str := (d.parties.filter fun e => e.2.isAccepted).map Prod.fst

theorem nodup_acceptedNames : d.acceptedNames.Nodup :=
  d.nodup.sublist (List.filter_sublist.map _)

theorem mem_acceptedNames {p : Str} {r : PartyReply} (h : (p, r) ∈ d.parties) :
    p ∈ d.acceptedNames ↔ r.isAccepted = true := by
  constructor
  · intro hp
    obtain ⟨e, he, hpe⟩ := List.mem_map.mp hp
    obtain ⟨he, hacc⟩ := List.mem_filter.mp he
    have heq : e = (p, r) := List.inj_on_of_nodup_map d.nodup he h hpe
    rw [heq] at hacc
    exact hacc
  · intro hr
    exact List.mem_map.mpr ⟨(p, r), List.mem_filter.mpr ⟨h, hr⟩, rfl⟩

/-- The statuses of parties that all succeed. -/
def successes (ps : List Str) : List TaskStatus :=
  ps.map fun p => { party := p, status := .SUCCESS, message := [] }

theorem reported_successes {n : Nat} {ps : List Str} {p : Str} {c : StatusCode} :
    Reported (events [] (some n) (successes ps)) p c ↔ p ∈ ps ∧ c = .SUCCESS := by
  constructor
  · rintro ⟨st, hst, rfl, rfl⟩
    rcases List.mem_append.mp hst with hst | hst
    · cases List.mem_singleton.mp hst
    · obtain ⟨st', hst', heq⟩ := List.mem_map.mp hst
      cases heq
      obtain ⟨q, hq, rfl⟩ := List.mem_map.mp hst'
      exact ⟨hq, rfl⟩
  · rintro ⟨hp, rfl⟩
    exact ⟨_, List.mem_append_right _ (List.mem_map_of_mem (List.mem_map_of_mem hp)), rfl, rfl⟩

/-- The success of the accepted parties alone is a success of the task. -/
theorem success_of_successes {n : Nat} (hn : d.acceptedNames.length = n) (hpos : 0 < n) :
    (Worker.after (events [] (some n) (successes d.acceptedNames))).waitUntilTaskFinish =
      some .SUCCESS := by
  refine success_of_finished ?_ ?_
  · refine finished_of_counted (Or.inr hpos) _ d.nodup_acceptedNames hn ?_
    intro p hp
    exact reported_successes.mpr ⟨hp, rfl⟩
  · intro p hp
    cases (reported_successes.mp hp).2

theorem success_mem {w : Worker} (h : w.waitUntilTaskFinish = some .SUCCESS) :
    .SUCCESS ∈ w.taskFinishPromise := List.mem_of_mem_head? h

/-- **The task succeeds only with every party exactly when a call has no reply, every party has
accepted the task, or none has.** -/
theorem successOnlyIfAll_iff : d.SuccessOnlyIfAll ↔
    (∃ e ∈ d.parties, e.2 = .rpcError) ∨ (∀ e ∈ d.parties, e.2.isAccepted = true) ∨
      ∀ e ∈ d.parties, e.2.isAccepted = false := by
  have hlength : d.acceptedNames.length = (d.parties.filter fun e => e.2.isAccepted).length :=
    List.length_map _
  constructor
  · intro h
    by_contra hnot
    rw [not_or, not_or] at hnot
    obtain ⟨herror, hall, hnone⟩ := hnot
    push Not at hall hnone
    obtain ⟨⟨q, r⟩, hq, hr⟩ := hall
    obtain ⟨e, he, hacc⟩ := hnone
    have hnil : d.parties ≠ [] := List.ne_nil_of_mem he
    have hcount : d.dispatchTask = some d.acceptedNames.length := by
      rw [dispatchTask_eq, if_neg (not_or.mpr ⟨hnil, herror⟩), hlength]
    have hpos : 0 < d.acceptedNames.length := by
      rw [hlength]
      exact List.length_pos_of_mem (List.mem_filter.mpr ⟨he, by simpa using hacc⟩)
    -- the accepted parties succeed and the refused party `q` reports nothing
    have hq' := h [] (successes d.acceptedNames) ?_ ?_ q (List.mem_map_of_mem hq)
    · rw [hcount, reported_successes, d.mem_acceptedNames hq] at hq'
      exact hr hq'.1
    · intro st hst
      obtain ⟨p, hp, rfl⟩ := List.mem_map.mp hst
      exact Or.inl ((List.filter_sublist.map Prod.fst).subset hp)
    · rw [hcount]
      exact d.success_of_successes rfl hpos
  · intro h pre post hsends hsuccess p hp
    have hmem := success_mem hsuccess
    have hnone : d.dispatchTask = none →
        .SUCCESS ∉ (Worker.after (events pre d.dispatchTask post)).taskFinishPromise := by
      intro hc
      rw [hc, events, Option.toList_none, List.map_nil, List.append_nil, ← List.map_append]
      exact no_success_map _
    rw [dispatchTask_eq] at hnone
    split_ifs at hnone with hfailed
    · rw [dispatchTask_eq, if_pos hfailed] at hmem
      exact absurd hmem (hnone rfl)
    · rw [not_or] at hfailed
      have hcount : d.dispatchTask = some d.acceptedNames.length := by
        rw [dispatchTask_eq, if_neg (not_or.mpr hfailed), hlength]
      rw [hcount] at hmem hsuccess ⊢
      rcases h with h | h | h
      · exact absurd h hfailed.2
      · obtain ⟨ps, hnodup, hps, hall⟩ := succeeded_of_success post hmem
        have hsub : ps ⊆ d.names := by
          intro q hq
          obtain ⟨st, hst, rfl, hc⟩ := hall q hq
          have hst' : st ∈ pre ++ post := by
            simpa [events] using hst
          rcases hsends st hst' with hst' | ⟨_, hf⟩
          · exact hst'
          · rw [hc] at hf
            cases hf
        -- as many distinct parties as there are names are all of them
        have hlen : d.names.length ≤ ps.length := by
          rw [hps, hlength, List.filter_eq_self.mpr h, names, List.length_map]
        have hperm := (List.subperm_of_subset hnodup hsub).perm_of_length_le hlen
        exact hall p (hperm.mem_iff.mpr hp)
      · -- no party is waited for, and no size of `final_status_` is zero after an update
        have hzero : d.acceptedNames.length = 0 := by
          rw [hlength, List.filter_eq_nil_iff.mpr fun e he => by simp [h e he]]
          rfl
        rw [hzero, after_events_some] at hmem
        exact absurd hmem (no_success_foldl post rfl (no_success_map pre))

/-- The second party is not waited for: its node has received the task before. -/
def oneDuplicate : Dispatch where
  parties :=
    [(['A'], .accepted { ip := ['h'], port := 50050, useTls := false, role := [] }),
      (['B'], .duplicate)]
  nodup := by decide

theorem not_successOnlyIfAll : ¬ ∀ d : Dispatch, d.SuccessOnlyIfAll := by
  intro h
  have hall := h oneDuplicate [] (successes [['A']]) (by simp [Sends, successes, names, oneDuplicate])
    rfl ['B'] (by decide)
  obtain ⟨st, hst, hp, _⟩ := hall
  have hst' : st = { party := ['A'], status := .SUCCESS, message := [] } := by
    simpa [events, successes] using hst
  rw [hst'] at hp
  exact absurd hp (by decide)

end Dispatch

end Fediux.Node
