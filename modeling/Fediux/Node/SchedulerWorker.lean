import Fediux.Node.Registry

set_option autoImplicit false

/-! # The finish promise of the scheduler worker

The scheduler worker collects the final status of the parties (`node/worker/worker.cc`). Its
promise is set to `FAIL` by the first failure, and to `SUCCESS` by the update that brings the
number of parties with a final status to `party_count_`. The dispatching thread sets
`party_count_` after the tasks were started. `finishes_iff_counted` says for which orders of
events the promise is set when it should be.
-/

namespace Fediux.Node

open OrderedMap (Entries assign Sorted)

/-! ## The worker -/

/-- `rpc::TaskStatus` of the task of the worker. -/
structure TaskStatus where
  party : Str
  status : StatusCode
  message : Str
  deriving DecidableEq, Repr

def TaskStatus.isFinal (st : TaskStatus) : Bool := st.status = .SUCCESS ∨ st.status = .FAIL

/-- `Worker`, as far as it follows the status of the parties; `taskFinishPromise` lists the
calls of `set_value`. -/
structure Worker where
  finalStatus : Entries Str StatusCode
  partyCount : Nat
  schedulerFinished : Bool
  taskFinishPromise : List Retcode
  taskStatus : List TaskStatus
  deriving DecidableEq, Repr

namespace Worker

def init : Worker :=
  { finalStatus := []
    partyCount := 0
    schedulerFinished := false
    taskFinishPromise := []
    taskStatus := [] }

def setPartyCount (w : Worker) (partyCount : Nat) : Worker := { w with partyCount := partyCount }

/-- `task_finish_promise_.set_value` behind the test of `scheduler_finished`. -/
def setFinish (w : Worker) (ret : Retcode) : Worker :=
  if w.schedulerFinished then w
  else { w with
    taskFinishPromise := w.taskFinishPromise ++ [ret]
    schedulerFinished := true }

/-- A call runs under `final_status_mtx_` and reads `party_count_` once, so it is one step. -/
def updateTaskStatus (w : Worker) (st : TaskStatus) : Worker :=
  let w :=
    if st.isFinal then
      let w := { w with finalStatus := assign w.finalStatus st.party st.status }
      let w := if st.status = .FAIL then w.setFinish .FAIL else w
      if w.finalStatus.length = w.partyCount then w.setFinish .SUCCESS else w
    else w
  { w with taskStatus := w.taskStatus ++ [st] }

/-- The result of `task_finish_future_.get`, once there is one. -/
def waitUntilTaskFinish (w : Worker) : Option Retcode := w.taskFinishPromise.head?

/-- The value an update sets the promise to. -/
def finishValue (w : Worker) (st : TaskStatus) : Option Retcode :=
  if w.schedulerFinished ∨ ¬ st.isFinal then none
  else if st.status = .FAIL then some .FAIL
  else if (assign w.finalStatus st.party st.status).length = w.partyCount then some .SUCCESS
  else none

section Update

variable (w : Worker) (st : TaskStatus)

theorem updateTaskStatus_partyCount : (w.updateTaskStatus st).partyCount = w.partyCount := by
  simp only [updateTaskStatus, setFinish]
  split_ifs <;> rfl

theorem updateTaskStatus_finalStatus : (w.updateTaskStatus st).finalStatus =
    if st.isFinal then assign w.finalStatus st.party st.status else w.finalStatus := by
  simp only [updateTaskStatus, setFinish]
  split_ifs <;> rfl

theorem updateTaskStatus_taskFinishPromise : (w.updateTaskStatus st).taskFinishPromise =
    w.taskFinishPromise ++ (w.finishValue st).toList := by
  simp only [updateTaskStatus, setFinish, finishValue]
  split_ifs <;> simp_all

theorem updateTaskStatus_schedulerFinished : (w.updateTaskStatus st).schedulerFinished =
    (w.schedulerFinished || (w.finishValue st).isSome) := by
  simp only [updateTaskStatus, setFinish, finishValue]
  split_ifs <;> simp_all

end Update

end Worker

/-! ## Histories -/

/-- What a worker sees: the number of parties from the dispatching thread, and the status
updates of the parties. -/
inductive WorkerEvent where
  | setPartyCount (partyCount : Nat)
  | updateTaskStatus (st : TaskStatus)
  deriving DecidableEq, Repr

def Worker.handle (w : Worker) : WorkerEvent → Worker
  | .setPartyCount partyCount => w.setPartyCount partyCount
  | .updateTaskStatus st => w.updateTaskStatus st

def Worker.after (evs : List WorkerEvent) : Worker := evs.foldl Worker.handle Worker.init

theorem Worker.after_concat (evs : List WorkerEvent) (e : WorkerEvent) :
    Worker.after (evs ++ [e]) = (Worker.after evs).handle e := by
  rw [Worker.after, List.foldl_concat, Worker.after]

/-- The party `p` has reported the status `c`. -/
def Reported (evs : List WorkerEvent) (p : Str) (c : StatusCode) : Prop :=
  ∃ st, .updateTaskStatus st ∈ evs ∧ st.party = p ∧ st.status = c

theorem Reported.mono {evs evs' : List WorkerEvent} {p : Str} {c : StatusCode}
    (h : Reported evs p c) (hsub : evs ⊆ evs') : Reported evs' p c := by
  obtain ⟨st, hst, hp, hc⟩ := h
  exact ⟨st, hsub hst, hp, hc⟩

theorem reported_concat_setPartyCount {evs : List WorkerEvent} {n : Nat} {p : Str}
    {c : StatusCode} : Reported (evs ++ [.setPartyCount n]) p c ↔ Reported evs p c := by
  constructor
  · rintro ⟨st, hst, hp, hc⟩
    rcases List.mem_append.mp hst with hst | hst
    · exact ⟨st, hst, hp, hc⟩
    · cases List.mem_singleton.mp hst
  · intro h
    exact h.mono (List.subset_append_left _ _)

theorem reported_concat_updateTaskStatus {evs : List WorkerEvent} {st : TaskStatus} {p : Str}
    {c : StatusCode} : Reported (evs ++ [.updateTaskStatus st]) p c ↔
      Reported evs p c ∨ (st.party = p ∧ st.status = c) := by
  constructor
  · rintro ⟨st', hst, hp, hc⟩
    rcases List.mem_append.mp hst with hst | hst
    · exact Or.inl ⟨st', hst, hp, hc⟩
    · cases List.mem_singleton.mp hst
      exact Or.inr ⟨hp, hc⟩
  · rintro (h | ⟨hp, hc⟩)
    · exact h.mono (List.subset_append_left _ _)
    · exact ⟨st, List.mem_append_right _ (List.mem_singleton.mpr rfl), hp, hc⟩

/-- What the worker knows of the events it has seen. -/
structure History (evs : List WorkerEvent) (w : Worker) : Prop where
  sorted : Sorted w.finalStatus
  keys : ∀ p, p ∈ w.finalStatus.map Prod.fst ↔
    Reported evs p .SUCCESS ∨ Reported evs p .FAIL
  once : w.taskFinishPromise.length = if w.schedulerFinished then 1 else 0
  fail : ∀ p, Reported evs p .FAIL → w.schedulerFinished = true
  failed : .FAIL ∈ w.taskFinishPromise → ∃ p, Reported evs p .FAIL

theorem History.setPartyCount {evs : List WorkerEvent} {w : Worker} (h : History evs w)
    (n : Nat) : History (evs ++ [.setPartyCount n]) (w.setPartyCount n) := by
  refine ⟨h.sorted, ?_, h.once, ?_, ?_⟩
  · intro p
    rw [reported_concat_setPartyCount, reported_concat_setPartyCount]
    exact h.keys p
  · intro p hp
    exact h.fail p (reported_concat_setPartyCount.mp hp)
  · intro hf
    obtain ⟨p, hp⟩ := h.failed hf
    exact ⟨p, reported_concat_setPartyCount.mpr hp⟩

theorem History.updateTaskStatus {evs : List WorkerEvent} {w : Worker} (h : History evs w)
    (st : TaskStatus) : History (evs ++ [.updateTaskStatus st]) (w.updateTaskStatus st) := by
  have hfinal : st.isFinal = true ↔ st.status = .SUCCESS ∨ st.status = .FAIL := decide_eq_true_iff
  refine ⟨?_, ?_, ?_, ?_, ?_⟩
  · rw [Worker.updateTaskStatus_finalStatus]
    split_ifs
    · exact OrderedMap.sorted_assign h.sorted _ _
    · exact h.sorted
  · intro p
    rw [Worker.updateTaskStatus_finalStatus, reported_concat_updateTaskStatus,
      reported_concat_updateTaskStatus]
    split_ifs with hf
    · rw [OrderedMap.mem_keys_assign, h.keys]
      have hcode := hfinal.mp hf
      grind
    · rw [h.keys]
      rw [hfinal, not_or] at hf
      simp [hf]
  · rw [Worker.updateTaskStatus_taskFinishPromise, Worker.updateTaskStatus_schedulerFinished,
      List.length_append, h.once]
    by_cases hdone : w.schedulerFinished = true
    · simp [hdone, Worker.finishValue]
    · cases hv : w.finishValue st <;> simp [hdone]
  · intro p hp
    rw [Worker.updateTaskStatus_schedulerFinished]
    rcases reported_concat_updateTaskStatus.mp hp with hp | ⟨_, hfail⟩
    · rw [h.fail p hp]
      rfl
    · by_cases hdone : w.schedulerFinished = true
      · rw [hdone]
        rfl
      · simp [Worker.finishValue, hdone, hfail, hfinal.mpr (Or.inr hfail)]
  · intro hf
    rw [Worker.updateTaskStatus_taskFinishPromise] at hf
    rcases List.mem_append.mp hf with hf | hf
    · obtain ⟨p, hp⟩ := h.failed hf
      exact ⟨p, reported_concat_updateTaskStatus.mpr (Or.inl hp)⟩
    · rw [Option.mem_toList, Worker.finishValue] at hf
      split_ifs at hf with hskip hfail
      · exact ⟨st.party, reported_concat_updateTaskStatus.mpr (Or.inr ⟨rfl, hfail⟩)⟩
      · cases hf

/-- **The worker after any events.** -/
theorem history_after (evs : List WorkerEvent) : History evs (Worker.after evs) := by
  induction evs using List.reverseRecOn with
  | nil =>
      refine ⟨List.Pairwise.nil, ?_, rfl, ?_, ?_⟩
      · intro p
        simp [Worker.after, Worker.init, Reported]
      · rintro p ⟨st, hst, _⟩
        cases hst
      · intro h
        cases h
  | append_singleton evs e ih =>
      rw [Worker.after_concat]
      cases e with
      | setPartyCount n => exact ih.setPartyCount n
      | updateTaskStatus st => exact ih.updateTaskStatus st

/-! ## The order of the count and the updates -/

/-- The events of one dispatch: status updates, the party count unless the dispatch has failed,
status updates. -/
def events (pre : List TaskStatus) (count : Option Nat) (post : List TaskStatus) :
    List WorkerEvent :=
  pre.map .updateTaskStatus ++ count.toList.map .setPartyCount ++ post.map .updateTaskStatus

/-- The promise is set at most once; it is set when a party has failed, and when `n` parties
are counted and have succeeded, whichever they are. -/
structure Finishes (evs : List WorkerEvent) : Prop where
  once : (Worker.after evs).taskFinishPromise.length ≤ 1
  onFail : ∀ p, Reported evs p .FAIL → (Worker.after evs).taskFinishPromise ≠ []
  onSuccess : ∀ (n : Nat) (parties : List Str), .setPartyCount n ∈ evs → parties.Nodup →
    parties.length = n → (∀ p ∈ parties, Reported evs p .SUCCESS) →
    (Worker.after evs).taskFinishPromise ≠ []

/-- The parties with a final status. -/
def finalParties (sts : List TaskStatus) : List Str :=
  ((sts.filter TaskStatus.isFinal).map TaskStatus.party).dedup

/-- At the time the count `n` is set, some party has failed or fewer than `n` parties have
ended. -/
def Counted (pre : List TaskStatus) (n : Nat) : Prop :=
  (∃ st ∈ pre, st.status = .FAIL) ∨ (finalParties pre).length < n

/-- The promise is set, or parties are missing. -/
def Worker.Waiting (w : Worker) : Prop :=
  w.schedulerFinished = true ∨ w.finalStatus.length < w.partyCount

theorem Worker.Waiting.updateTaskStatus {w : Worker} (h : w.Waiting) (st : TaskStatus) :
    (w.updateTaskStatus st).Waiting := by
  rw [Waiting, updateTaskStatus_schedulerFinished, updateTaskStatus_finalStatus,
    updateTaskStatus_partyCount]
  rcases h with h | h
  · rw [h]
    exact Or.inl rfl
  · by_cases hdone : w.schedulerFinished = true
    · rw [hdone]
      exact Or.inl rfl
    · by_cases hfinal : st.isFinal = true
      · have hle := OrderedMap.length_assign_le w.finalStatus st.party st.status
        -- the size grows by at most one, so it meets the count or stays below it
        by_cases heq : (assign w.finalStatus st.party st.status).length = w.partyCount
        · refine Or.inl ?_
          by_cases hfail : st.status = .FAIL <;> simp [finishValue, hdone, hfinal, hfail, heq]
        · refine Or.inr ?_
          rw [if_pos hfinal]
          omega
      · refine Or.inr ?_
        rw [if_neg hfinal]
        exact h

theorem after_events_some (pre : List TaskStatus) (n : Nat) (post : List TaskStatus) :
    Worker.after (events pre (some n) post) =
      post.foldl Worker.updateTaskStatus
        ((Worker.after (pre.map .updateTaskStatus)).setPartyCount n) := by
  rw [Worker.after, events, List.foldl_append, List.foldl_append, List.foldl_map]
  rfl

theorem foldl_updateTaskStatus_partyCount (post : List TaskStatus) (w : Worker) :
    (post.foldl Worker.updateTaskStatus w).partyCount = w.partyCount := by
  induction post generalizing w with
  | nil => rfl
  | cons st post ih => rw [List.foldl_cons, ih, Worker.updateTaskStatus_partyCount]

theorem waiting_foldl {w : Worker} (h : w.Waiting) (post : List TaskStatus) :
    (post.foldl Worker.updateTaskStatus w).Waiting := by
  induction post generalizing w with
  | nil => exact h
  | cons st post ih => exact ih (h.updateTaskStatus st)

theorem reported_map_iff {sts : List TaskStatus} {p : Str} {c : StatusCode} :
    Reported (sts.map .updateTaskStatus) p c ↔ ∃ st ∈ sts, st.party = p ∧ st.status = c := by
  constructor
  · rintro ⟨st, hst, h⟩
    obtain ⟨st', hst', heq⟩ := List.mem_map.mp hst
    cases heq
    exact ⟨st, hst', h⟩
  · rintro ⟨st, hst, h⟩
    exact ⟨st, List.mem_map_of_mem hst, h⟩

theorem mem_finalParties {sts : List TaskStatus} {p : Str} :
    p ∈ finalParties sts ↔ Reported (sts.map .updateTaskStatus) p .SUCCESS ∨
      Reported (sts.map .updateTaskStatus) p .FAIL := by
  rw [finalParties, List.mem_dedup, reported_map_iff, reported_map_iff]
  simp only [List.mem_map, List.mem_filter, TaskStatus.isFinal, decide_eq_true_eq]
  constructor
  · rintro ⟨st, ⟨hst, hc | hc⟩, hp⟩
    · exact Or.inl ⟨st, hst, hp, hc⟩
    · exact Or.inr ⟨st, hst, hp, hc⟩
  · rintro (⟨st, hst, hp, hc⟩ | ⟨st, hst, hp, hc⟩)
    · exact ⟨st, ⟨hst, Or.inl hc⟩, hp⟩
    · exact ⟨st, ⟨hst, Or.inr hc⟩, hp⟩

/-- The size of `final_status_` is the number of parties with a final status. -/
theorem length_finalStatus (sts : List TaskStatus) :
    (Worker.after (sts.map .updateTaskStatus)).finalStatus.length = (finalParties sts).length := by
  have h := history_after (sts.map .updateTaskStatus)
  have hperm : ((Worker.after (sts.map .updateTaskStatus)).finalStatus.map Prod.fst).Perm
      (finalParties sts) := by
    refine (List.perm_ext_iff_of_nodup h.sorted.nodup_keys (List.nodup_dedup _)).mpr ?_
    intro p
    rw [h.keys]
    exact mem_finalParties.symm
  rw [← hperm.length_eq, List.length_map]

/-- Without a count only a failure sets the promise. -/
theorem unfinished_of_no_fail (sts : List TaskStatus) (hfail : ∀ st ∈ sts, st.status ≠ .FAIL) :
    (Worker.after (sts.map .updateTaskStatus)).schedulerFinished = false ∧
      (Worker.after (sts.map .updateTaskStatus)).partyCount = 0 := by
  induction sts using List.reverseRecOn with
  | nil => exact ⟨rfl, rfl⟩
  | append_singleton sts st ih =>
      obtain ⟨hdone, hcount⟩ := ih fun st' hst' => hfail st' (List.mem_append_left _ hst')
      have hst := hfail st (List.mem_append_right _ (List.mem_singleton.mpr rfl))
      rw [List.map_append, List.map_singleton, Worker.after_concat]
      show (Worker.updateTaskStatus _ st).schedulerFinished = false ∧
        (Worker.updateTaskStatus _ st).partyCount = 0
      rw [Worker.updateTaskStatus_schedulerFinished, Worker.updateTaskStatus_partyCount, hdone]
      refine ⟨?_, hcount⟩
      -- an update leaves at least one entry, and the count is still zero
      have hpos := OrderedMap.length_assign_pos
        (Worker.after (sts.map .updateTaskStatus)).finalStatus st.party st.status
      have hne : (assign (Worker.after (sts.map .updateTaskStatus)).finalStatus st.party
          st.status).length ≠ 0 := by omega
      simp [Worker.finishValue, hst, hcount, hne]

/-- A prefix of the events ends before the count or after it. -/
theorem prefix_events {pre post : List TaskStatus} {count : Option Nat} {evs : List WorkerEvent}
    (h : evs <+: events pre count post) :
    (∃ sts : List TaskStatus, evs = sts.map .updateTaskStatus) ∨
      ∃ sts, evs = events pre count sts := by
  rcases List.prefix_or_prefix_of_prefix h (List.prefix_append _ _) with hp | ⟨rest, rfl⟩
  · rcases List.prefix_or_prefix_of_prefix hp (List.prefix_append _ _) with hp | ⟨rest, rfl⟩
    · obtain ⟨sts, _, rfl⟩ := List.prefix_map_iff.mp hp
      exact Or.inl ⟨sts, rfl⟩
    · rw [List.prefix_append_right_inj] at hp
      cases count with
      | none =>
          rw [List.prefix_nil.mp hp]
          exact Or.inl ⟨pre, List.append_nil _⟩
      | some n =>
          rcases List.prefix_cons_iff.mp hp with rfl | ⟨rest, rfl, hrest⟩
          · exact Or.inl ⟨pre, List.append_nil _⟩
          · rw [List.prefix_nil.mp hrest]
            exact Or.inr ⟨[], (List.append_nil _).symm⟩
  · rw [events, List.prefix_append_right_inj] at h
    obtain ⟨sts, _, rfl⟩ := List.prefix_map_iff.mp h
    exact Or.inr ⟨sts, rfl⟩

theorem taskFinishPromise_ne_nil {evs : List WorkerEvent}
    (h : (Worker.after evs).schedulerFinished = true) :
    (Worker.after evs).taskFinishPromise ≠ [] := by
  have honce := (history_after evs).once
  rw [h, if_pos rfl] at honce
  intro hnil
  rw [hnil] at honce
  cases honce

/-- Parties that have succeeded have an entry each. -/
theorem length_le_of_reported {evs : List WorkerEvent} {parties : List Str}
    (hnodup : parties.Nodup) (hall : ∀ p ∈ parties, Reported evs p .SUCCESS) :
    parties.length ≤ (Worker.after evs).finalStatus.length := by
  -- distinct parties have distinct keys in `final_status_`
  have hsub : parties ⊆ (Worker.after evs).finalStatus.map Prod.fst := by
    intro p hp
    exact ((history_after evs).keys p).mpr (Or.inl (hall p hp))
  have hle := (List.subperm_of_subset hnodup hsub).length_le
  rwa [List.length_map] at hle

/-- After a count in time the promise is set when the counted parties have succeeded. -/
theorem finished_of_counted {pre : List TaskStatus} {n : Nat} (hcounted : Counted pre n)
    (post : List TaskStatus) {parties : List Str} (hnodup : parties.Nodup)
    (hlength : parties.length = n)
    (hall : ∀ p ∈ parties, Reported (events pre (some n) post) p .SUCCESS) :
    (Worker.after (events pre (some n) post)).schedulerFinished = true := by
  have hcount : (Worker.after (events pre (some n) post)).partyCount = n := by
    rw [after_events_some, foldl_updateTaskStatus_partyCount]
    rfl
  have hwaiting : (Worker.after (events pre (some n) post)).Waiting := by
    rw [after_events_some]
    refine waiting_foldl ?_ post
    rcases hcounted with ⟨st, hst, hfail⟩ | hlt
    · exact Or.inl ((history_after _).fail st.party (reported_map_iff.mpr ⟨st, hst, rfl, hfail⟩))
    · refine Or.inr ?_
      show (Worker.after _).finalStatus.length < n
      rwa [length_finalStatus]
  rcases hwaiting with hdone | hlt
  · exact hdone
  · have hle := length_le_of_reported hnodup hall
    omega

theorem mem_events_setPartyCount {pre post : List TaskStatus} {count : Option Nat} {n : Nat}
    (h : .setPartyCount n ∈ events pre count post) : count = some n := by
  rcases List.mem_append.mp h with h | h
  · rcases List.mem_append.mp h with h | h
    · obtain ⟨st, _, heq⟩ := List.mem_map.mp h
      cases heq
    · obtain ⟨m, hm, heq⟩ := List.mem_map.mp h
      cases heq
      exact Option.mem_toList.mp hm
  · obtain ⟨st, _, heq⟩ := List.mem_map.mp h
    cases heq

theorem finishes_of_onSuccess {evs : List WorkerEvent}
    (h : ∀ (n : Nat) (parties : List Str), .setPartyCount n ∈ evs → parties.Nodup →
      parties.length = n → (∀ p ∈ parties, Reported evs p .SUCCESS) →
      (Worker.after evs).schedulerFinished = true) : Finishes evs := by
  refine ⟨?_, ?_, ?_⟩
  · rw [(history_after evs).once]
    split_ifs <;> omega
  · intro p hp
    exact taskFinishPromise_ne_nil ((history_after evs).fail p hp)
  · intro n parties hn hnodup hlength hall
    exact taskFinishPromise_ne_nil (h n parties hn hnodup hlength hall)

/-- **The promise is always set in time exactly when the count comes before the last counted
party, or after a failure.** -/
theorem finishes_iff_counted (pre : List TaskStatus) (count : Option Nat)
    (post : List TaskStatus) :
    (∀ evs, evs <+: events pre count post → Finishes evs) ↔ ∀ n ∈ count, Counted pre n := by
  constructor
  · rintro h n rfl
    by_contra hnot
    rw [Counted, not_or, not_lt] at hnot
    obtain ⟨hfail, hle⟩ := hnot
    -- right after the count the promise is not set, although `n` parties have succeeded
    have hprefix : events pre (some n) [] <+: events pre (some n) post := by
      rw [events, events, List.map_nil, List.append_nil]
      exact List.prefix_append _ _
    have hset := (h _ hprefix).onSuccess n ((finalParties pre).take n) ?_ ?_ ?_ ?_
    · have hdone := (unfinished_of_no_fail pre fun st hst hst' => hfail ⟨st, hst, hst'⟩).1
      have honce := (history_after (events pre (some n) [])).once
      rw [after_events_some] at honce hset
      have hfalse : ((Worker.after (pre.map .updateTaskStatus)).setPartyCount n).schedulerFinished =
          false := hdone
      rw [List.foldl_nil, hfalse] at honce
      exact hset (List.eq_nil_of_length_eq_zero honce)
    · exact List.mem_append_left _ (List.mem_append_right _ (List.mem_singleton.mpr rfl))
    · exact (List.nodup_dedup _).sublist (List.take_sublist _ _)
    · rw [List.length_take]
      omega
    · intro p hp
      have hsub : pre.map WorkerEvent.updateTaskStatus ⊆ events pre (some n) [] :=
        fun e he => List.mem_append_left _ (List.mem_append_left _ he)
      rcases mem_finalParties.mp (List.mem_of_mem_take hp) with hs | hf
      · exact hs.mono hsub
      · obtain ⟨st, hst, _, hc⟩ := reported_map_iff.mp hf
        exact absurd ⟨st, hst, hc⟩ hfail
  · intro h evs hprefix
    refine finishes_of_onSuccess ?_
    intro n parties hn hnodup hlength hall
    -- before the count no number of parties is asked for
    rcases prefix_events hprefix with ⟨sts, rfl⟩ | ⟨sts, rfl⟩
    · obtain ⟨st, _, heq⟩ := List.mem_map.mp hn
      cases heq
    · have hcount := mem_events_setPartyCount hn
      subst hcount
      exact finished_of_counted (h n rfl) sts hnodup hlength hall

/-- The only party succeeds before the count is set. -/
theorem not_finishes_lateCount :
    ¬ ∀ (pre : List TaskStatus) (count : Option Nat) (post : List TaskStatus)
      (evs : List WorkerEvent), evs <+: events pre count post → Finishes evs := by
  intro h
  have hall := h [⟨['P'], .SUCCESS, []⟩] (some 1) [] _ (List.prefix_refl _)
  exact hall.onSuccess 1 [['P']] (by decide) (by decide) rfl
    (by simp [events, Reported]) (by decide)

end Fediux.Node
