import Fediux.Node.Receive

set_option autoImplicit false

/-! # Sending a payload

`GrpcChannel::send` cuts a payload into messages, streams them to `VMNodeInterface::Send` and
tries again when the call fails (`util/network/grpc_link_context.cc`). The receiving node cannot
tell a second attempt from a second payload. `queueExact_iff_faithful` says for which outcomes
of the calls the receive queue holds the payloads that were sent with success.
-/

namespace Fediux.Network

open Fediux.Node

/-! ## Messages of a payload -/

/-- `LIMITED_PACKAGE_SIZE`. -/
def limitedPackageSize : Nat := 3 * 1024 * 1024

theorem limitedPackageSize_pos : 0 < limitedPackageSize := by
  rw [limitedPackageSize]
  omega

/-- The loop of `buildTaskRequest` from the rest of the data on: it makes a message even when
there is no data. -/
def buildFrom (t : TaskInfo) (role : Str) (totalLength : Nat) (rest : Bytes) :
    List TaskRequest :=
  { taskInfo := t, role := role, dataLen := totalLength, data := rest.take limitedPackageSize } ::
    if rest.length ≤ limitedPackageSize then []
    else buildFrom t role totalLength (rest.drop limitedPackageSize)
termination_by rest.length
decreasing_by
  have := limitedPackageSize_pos
  rw [List.length_drop]
  omega

def buildTaskRequest (t : TaskInfo) (role : Str) (data : Bytes) : List TaskRequest :=
  buildFrom t role data.length data

theorem flatten_buildFrom (t : TaskInfo) (role : Str) (totalLength : Nat) (rest : Bytes) :
    ((buildFrom t role totalLength rest).map TaskRequest.data).flatten = rest := by
  induction rest using buildFrom.induct with
  | case1 rest ih =>
      rw [buildFrom]
      by_cases hle : rest.length ≤ limitedPackageSize
      · rw [if_pos hle, List.map_singleton, List.flatten_singleton]
        exact List.take_of_length_le hle
      · rw [if_neg hle, List.map_cons, List.flatten_cons, ih hle]
        exact List.take_append_drop _ _

/-- **The receiver puts the payload together again.** -/
theorem readAll_buildTaskRequest (t : TaskInfo) (role : Str) (data : Bytes) :
    readAll (buildTaskRequest t role data) =
      { recvMetaInfo := true, taskInfo := t, key := role, receivedData := data } := by
  have hdata := flatten_buildFrom t role data.length data
  rw [buildTaskRequest]
  rw [buildFrom] at hdata ⊢
  rw [readAll_cons, hdata]

/-! ## Attempts -/

/-- What becomes of one call of the RPC `Send`: the request is lost, or the node `visit`
handles it, and its reply arrives or is lost. -/
inductive Outcome where
  | requestLost
  | delivered (visit : Visit) (replyArrives : Bool)

/-- `retry_max_times_`. -/
def retryMaxTimes : Nat := 3

/-- One call: the reply, if the status is ok, and what the node has done. -/
def Outcome.call (o : Outcome) (q : RecvQueues) (requests : List TaskRequest) :
    Option TaskResponse × RecvQueues :=
  match o with
  | .requestLost => (none, q)
  | .delivered visit replyArrives =>
      let (response, q) := visit.send q requests
      (if replyArrives then some response else none, q)

/-- The loop of `GrpcChannel::send` from the attempt `retryTime` on. -/
def sendLoop (requests : List TaskRequest) (outcome : Nat → Outcome) (retryTime : Nat)
    (q : RecvQueues) : Retcode × RecvQueues :=
  match (outcome retryTime).call q requests with
  | (some response, q) => if response.retCode ≠ .SUCCESS then (.FAIL, q) else (.SUCCESS, q)
  | (none, q) =>
      if retryTime + 1 < retryMaxTimes then sendLoop requests outcome (retryTime + 1) q
      else (.FAIL, q)
termination_by retryMaxTimes - retryTime

/-- `GrpcChannel::send` of a channel for the task `t`. -/
def send (t : TaskInfo) (role : Str) (data : Bytes) (outcome : Nat → Outcome) (q : RecvQueues) :
    Retcode × RecvQueues :=
  sendLoop (buildTaskRequest t role data) outcome 0 q

/-! ## What a send does -/

/-- The reply of the node arrives. -/
def Outcome.Acked (o : Outcome) : Prop := ∃ visit, o = .delivered visit true

/-- The worker `w` of the node takes in the payload. -/
def Outcome.TakenIn (o : Outcome) (t : TaskInfo) (w : Nat) : Prop :=
  ∃ visit replyArrives, o = .delivered visit replyArrives ∧ visit.TakesIn t w

/-- The attempt `k` of those from `first` on is made: there is no reply before it. -/
def MadeFrom (outcome : Nat → Outcome) (first k : Nat) : Prop :=
  first ≤ k ∧ k < retryMaxTimes ∧ ∀ j, first ≤ j → j < k → ¬ (outcome j).Acked

def Made (outcome : Nat → Outcome) (k : Nat) : Prop := MadeFrom outcome 0 k

theorem madeFrom_self {outcome : Nat → Outcome} {k : Nat} (hk : k < retryMaxTimes) :
    MadeFrom outcome k k := ⟨Nat.le_refl k, hk, fun j hkj hjk => by omega⟩

/-- After an attempt without a reply the rest of the attempts is made. -/
theorem madeFrom_succ_iff {outcome : Nat → Outcome} {k j : Nat} (hk : ¬ (outcome k).Acked)
    (hj : j ≠ k) : MadeFrom outcome k j ↔ MadeFrom outcome (k + 1) j := by
  constructor
  · rintro ⟨hkj, hlt, hnone⟩
    exact ⟨by omega, hlt, fun i hki hij => hnone i (by omega) hij⟩
  · rintro ⟨hkj, hlt, hnone⟩
    refine ⟨by omega, hlt, ?_⟩
    intro i hki hij
    by_cases hi : i = k
    · rwa [hi]
    · exact hnone i (by omega) hij

/-- After a reply no attempt is made. -/
theorem madeFrom_acked {outcome : Nat → Outcome} {k j : Nat} (hk : (outcome k).Acked)
    (h : MadeFrom outcome k j) : j = k := by
  obtain ⟨hkj, _, hnone⟩ := h
  by_contra hne
  exact hnone k (Nat.le_refl k) (by omega) hk

section Counts

open scoped Classical

variable (outcome : Nat → Outcome) (t : TaskInfo) (w : Nat)

/-- The attempts that are made from `k` on and taken in. -/
noncomputable def takenFrom (k : Nat) : Finset Nat :=
  (Finset.range retryMaxTimes).filter fun j =>
    MadeFrom outcome k j ∧ (outcome j).TakenIn t w

variable {outcome t w}

theorem mem_takenFrom {k j : Nat} :
    j ∈ takenFrom outcome t w k ↔ MadeFrom outcome k j ∧ (outcome j).TakenIn t w := by
  rw [takenFrom, Finset.mem_filter, Finset.mem_range]
  exact ⟨fun h => h.2, fun h => ⟨h.1.2.1, h⟩⟩

/-- What is taken in from the attempt `k` on, without an attempt after the last. -/
theorem takenFrom_last {k : Nat} (hk : retryMaxTimes ≤ k) : takenFrom outcome t w k = ∅ := by
  rw [Finset.eq_empty_iff_forall_notMem]
  intro j hj
  obtain ⟨hkj, hlt, _⟩ := (mem_takenFrom.mp hj).1
  omega

theorem takenFrom_erase (k : Nat) : (takenFrom outcome t w k).erase k =
    if (outcome k).Acked then ∅ else takenFrom outcome t w (k + 1) := by
  ext j
  rw [Finset.mem_erase, mem_takenFrom]
  by_cases hacked : (outcome k).Acked
  · rw [if_pos hacked]
    refine ⟨fun h => absurd (madeFrom_acked hacked h.2.1) h.1, fun h => ?_⟩
    exact absurd h (Finset.notMem_empty j)
  · rw [if_neg hacked, mem_takenFrom]
    constructor
    · rintro ⟨hj, hmade, htaken⟩
      exact ⟨(madeFrom_succ_iff hacked hj).mp hmade, htaken⟩
    · rintro ⟨hmade, htaken⟩
      have hj : j ≠ k := by
        have := hmade.1
        omega
      exact ⟨hj, (madeFrom_succ_iff hacked hj).mpr hmade, htaken⟩

/-- The number of attempts taken in, one attempt at a time. -/
theorem card_takenFrom {k : Nat} (hk : k < retryMaxTimes) : (takenFrom outcome t w k).card =
    (if (outcome k).TakenIn t w then 1 else 0) +
      if (outcome k).Acked then 0 else (takenFrom outcome t w (k + 1)).card := by
  have hrest : ((takenFrom outcome t w k).erase k).card =
      if (outcome k).Acked then 0 else (takenFrom outcome t w (k + 1)).card := by
    rw [takenFrom_erase]
    split_ifs
    · rfl
    · rfl
  by_cases htaken : (outcome k).TakenIn t w
  · have hmem : k ∈ takenFrom outcome t w k := mem_takenFrom.mpr ⟨madeFrom_self hk, htaken⟩
    rw [if_pos htaken, ← hrest, ← Finset.card_erase_add_one hmem, Nat.add_comm]
  · have hmem : k ∉ takenFrom outcome t w k := fun h => htaken (mem_takenFrom.mp h).2
    rw [if_neg htaken, ← hrest, Finset.erase_eq_of_notMem hmem, Nat.zero_add]

end Counts

/-- A call appends the payload to the queue of the worker that takes it in. -/
theorem call_queue (o : Outcome) (q : RecvQueues) (t : TaskInfo) (role : Str) (data : Bytes)
    (w : Nat) :
    (o.TakenIn t w → (o.call q (buildTaskRequest t role data)).2.queue w role =
      q.queue w role ++ [data]) ∧
    (¬ o.TakenIn t w →
      (o.call q (buildTaskRequest t role data)).2.queue w role = q.queue w role) := by
  cases o with
  | requestLost =>
      refine ⟨?_, fun _ => rfl⟩
      rintro ⟨_, _, h, _⟩
      cases h
  | delivered visit replyArrives =>
      have hcall : ((Outcome.delivered visit replyArrives).call q
          (buildTaskRequest t role data)).2 = (visit.processReceivedData q t role data).2 := by
        show (visit.send q (buildTaskRequest t role data)).2 = _
        rw [send_eq, readAll_buildTaskRequest]
      rw [hcall]
      constructor
      · rintro ⟨_, _, heq, htakes⟩
        cases heq
        rw [processReceivedData_of_takesIn htakes]
        show (q.push w role data).queue w role = _
        rw [RecvQueues.queue_push, if_pos ⟨rfl, rfl⟩]
      · intro hnot
        by_cases h : ∃ w', visit.TakesIn t w'
        · obtain ⟨w', hw'⟩ := h
          rw [processReceivedData_of_takesIn hw']
          show (q.push w' role data).queue w role = _
          -- another worker than `w` takes the payload in
          rw [RecvQueues.queue_push, if_neg]
          rintro ⟨rfl, _⟩
          exact hnot ⟨visit, replyArrives, rfl, hw'⟩
        · rw [processReceivedData_of_not_takesIn (not_exists.mp h)]

/-- A call whose reply arrives has the status ok and the code `SUCCESS`. -/
theorem call_reply (o : Outcome) (q : RecvQueues) (requests : List TaskRequest) :
    (o.Acked → (o.call q requests).1 = some { retCode := .SUCCESS }) ∧
      (¬ o.Acked → (o.call q requests).1 = none) := by
  cases o with
  | requestLost =>
      refine ⟨?_, fun _ => rfl⟩
      rintro ⟨_, h⟩
      cases h
  | delivered visit replyArrives =>
      cases replyArrives with
      | false =>
          refine ⟨?_, fun _ => rfl⟩
          rintro ⟨_, h⟩
          cases h
      | true => exact ⟨fun _ => rfl, fun h => absurd ⟨visit, rfl⟩ h⟩

/-- The loop ends with a reply. -/
theorem sendLoop_of_acked {requests : List TaskRequest} {outcome : Nat → Outcome} {k : Nat}
    (h : (outcome k).Acked) (q : RecvQueues) : sendLoop requests outcome k q =
      (.SUCCESS, ((outcome k).call q requests).2) := by
  have hreply := (call_reply (outcome k) q requests).1 h
  rw [sendLoop]
  split
  · next response q' hcall =>
      rw [hcall] at hreply ⊢
      cases hreply
      rfl
  · next q' hcall =>
      rw [hcall] at hreply
      cases hreply

/-- The loop goes on without a reply as long as there are attempts left. -/
theorem sendLoop_of_not_acked {requests : List TaskRequest} {outcome : Nat → Outcome} {k : Nat}
    (h : ¬ (outcome k).Acked) (q : RecvQueues) : sendLoop requests outcome k q =
      if k + 1 < retryMaxTimes then
        sendLoop requests outcome (k + 1) ((outcome k).call q requests).2
      else (.FAIL, ((outcome k).call q requests).2) := by
  have hreply := (call_reply (outcome k) q requests).2 h
  rw [sendLoop]
  split
  · next response q' hcall =>
      rw [hcall] at hreply
      cases hreply
  · next q' hcall => rw [hcall]

open scoped Classical in
/-- **A send appends the payload once for every attempt that is taken in, and succeeds when an
attempt is acknowledged.** -/
theorem sendLoop_spec (t : TaskInfo) (role : Str) (data : Bytes) (outcome : Nat → Outcome)
    (w : Nat) (k : Nat) (q : RecvQueues) (hk : k < retryMaxTimes) :
    (sendLoop (buildTaskRequest t role data) outcome k q).2.queue w role =
        q.queue w role ++ List.replicate (takenFrom outcome t w k).card data ∧
      ((sendLoop (buildTaskRequest t role data) outcome k q).1 = .SUCCESS ↔
        ∃ j, MadeFrom outcome k j ∧ (outcome j).Acked) := by
  obtain ⟨n, hn⟩ : ∃ n, n = retryMaxTimes - k := ⟨_, rfl⟩
  induction n generalizing k q with
  | zero => omega
  | succ n ih =>
      -- this call appends the payload once or not at all, the later ones `m` times
      have hqueue : ∀ m, ((outcome k).call q (buildTaskRequest t role data)).2.queue w role ++
          List.replicate m data = q.queue w role ++
            List.replicate ((if (outcome k).TakenIn t w then 1 else 0) + m) data := by
        intro m
        obtain ⟨htaken, hnot⟩ := call_queue (outcome k) q t role data w
        by_cases h : (outcome k).TakenIn t w
        · rw [htaken h, if_pos h, Nat.add_comm, List.replicate_succ, List.append_assoc,
            List.singleton_append]
        · rw [hnot h, if_neg h, Nat.zero_add]
      by_cases hacked : (outcome k).Acked
      · rw [sendLoop_of_acked hacked, card_takenFrom hk, if_pos hacked]
        refine ⟨?_, fun _ => ⟨k, madeFrom_self hk, hacked⟩, fun _ => rfl⟩
        have h := hqueue 0
        rwa [List.replicate_zero, List.append_nil] at h
      · rw [sendLoop_of_not_acked hacked, card_takenFrom hk, if_neg hacked]
        -- the call has no reply, so a reply comes from a later one
        have hmade : (∃ j, MadeFrom outcome k j ∧ (outcome j).Acked) ↔
            ∃ j, MadeFrom outcome (k + 1) j ∧ (outcome j).Acked := by
          refine exists_congr fun j => and_congr_left fun hj => ?_
          exact madeFrom_succ_iff hacked fun h => hacked (h ▸ hj)
        by_cases hlast : k + 1 < retryMaxTimes
        · rw [if_pos hlast, hmade]
          obtain ⟨hq, hret⟩ := ih (k + 1) ((outcome k).call q (buildTaskRequest t role data)).2
            hlast (by omega)
          exact ⟨hq.trans (hqueue _), hret⟩
        · rw [if_neg hlast, hmade, takenFrom_last (by omega), Finset.card_empty]
          constructor
          · have h := hqueue 0
            rwa [List.replicate_zero, List.append_nil] at h
          · constructor
            · intro h
              cases h
            · rintro ⟨j, ⟨hkj, hj, _⟩, _⟩
              omega

/-! ## Sends on one key -/

/-- A payload and what becomes of the calls for it. -/
structure SendCall where
  payload : Bytes
  outcome : Nat → Outcome

/-- Send the payloads one after the other: the payloads with the results of their sends, and
the receive queues. -/
def sendAll (t : TaskInfo) (role : Str) : List SendCall → RecvQueues →
    List (Bytes × Retcode) × RecvQueues
  | [], q => ([], q)
  | c :: cs, q =>
      let (ret, q) := send t role c.payload c.outcome q
      let (rets, q) := sendAll t role cs q
      ((c.payload, ret) :: rets, q)

/-- The payloads whose send was a success. -/
def succeeded (rets : List (Bytes × Retcode)) : List Bytes :=
  (rets.filter fun e => e.2 = .SUCCESS).map Prod.fst

theorem succeeded_cons (payload : Bytes) (ret : Retcode) (rets : List (Bytes × Retcode)) :
    succeeded ((payload, ret) :: rets) =
      (if ret = .SUCCESS then [payload] else []) ++ succeeded rets := by
  cases ret with
  | SUCCESS => rfl
  | FAIL => rfl

/-- The queue of the worker `w` gets exactly the payloads whose send was a success, each once,
whole and in order. -/
def QueueExact (t : TaskInfo) (role : Str) (w : Nat) (q : RecvQueues) (cs : List SendCall) :
    Prop :=
  (sendAll t role cs q).2.queue w role =
    q.queue w role ++ succeeded (sendAll t role cs q).1

/-- The attempts made are taken in exactly when their replies arrive. -/
def Faithful (outcome : Nat → Outcome) (t : TaskInfo) (w : Nat) : Prop :=
  ∀ k, Made outcome k → ((outcome k).TakenIn t w ↔ (outcome k).Acked)

/-- One attempt is taken in and its reply is lost, and a later one is acknowledged although
nothing is taken in. -/
def Cancels (outcome : Nat → Outcome) (t : TaskInfo) (w : Nat) : Prop :=
  ∃ i j, i < j ∧ Made outcome j ∧ (outcome i).TakenIn t w ∧ (outcome j).Acked ∧
    ¬ (outcome j).TakenIn t w ∧ ∀ k, Made outcome k → (outcome k).TakenIn t w → k = i

open scoped Classical in
/-- Whether a send is acknowledged, as a number of payloads. -/
noncomputable def ackedCard (outcome : Nat → Outcome) : Nat :=
  if ∃ j, Made outcome j ∧ (outcome j).Acked then 1 else 0

theorem made_of_le {outcome : Nat → Outcome} {i j : Nat} (h : Made outcome j) (hij : i ≤ j) :
    Made outcome i := by
  obtain ⟨_, hlt, hnone⟩ := h
  exact ⟨Nat.zero_le i, by omega, fun k hk hki => hnone k hk (by omega)⟩

/-- No attempt is made after one with a reply. -/
theorem le_of_made {outcome : Nat → Outcome} {j k : Nat} (hacked : (outcome j).Acked)
    (hk : Made outcome k) : k ≤ j := by
  by_contra hlt
  exact hk.2.2 j (Nat.zero_le j) (by omega) hacked

/-- **As many attempts are taken in as acknowledged exactly for the faithful outcomes and those
that cancel.** -/
theorem card_eq_ackedCard_iff (outcome : Nat → Outcome) (t : TaskInfo) (w : Nat) :
    (takenFrom outcome t w 0).card = ackedCard outcome ↔
      Faithful outcome t w ∨ Cancels outcome t w := by
  by_cases h : ∃ j, Made outcome j ∧ (outcome j).Acked
  · rw [ackedCard, if_pos h, Finset.card_eq_one]
    obtain ⟨j, hmade, hacked⟩ := h
    constructor
    · rintro ⟨i, hi⟩
      have hiff : ∀ k, k = i ↔ Made outcome k ∧ (outcome k).TakenIn t w := by
        intro k
        rw [← Finset.mem_singleton, ← hi]
        exact mem_takenFrom
      obtain ⟨himade, hitaken⟩ := (hiff i).mp rfl
      -- `i` is the only attempt taken in and `j` the one acknowledged
      by_cases hij : i = j
      · subst hij
        refine Or.inl fun k hk => ⟨?_, ?_⟩
        · intro htaken
          rwa [(hiff k).mpr ⟨hk, htaken⟩]
        · intro hk'
          have hle := le_of_made hacked hk
          have hge := le_of_made hk' hmade
          have heq : k = i := by omega
          rwa [heq]
      · have hle := le_of_made hacked himade
        refine Or.inr ⟨i, j, by omega, hmade, hitaken, hacked, ?_, ?_⟩
        · intro htaken
          exact hij ((hiff j).mpr ⟨hmade, htaken⟩).symm
        · intro k hk htaken
          exact (hiff k).mpr ⟨hk, htaken⟩
    · rintro (hfaithful | ⟨i, j', hij, hmade', hitaken, _, _, honly⟩)
      · refine ⟨j, Finset.ext fun k => ?_⟩
        rw [mem_takenFrom, Finset.mem_singleton]
        constructor
        · rintro ⟨hk, htaken⟩
          have hle := le_of_made hacked hk
          have hge := le_of_made ((hfaithful k hk).mp htaken) hmade
          omega
        · rintro rfl
          exact ⟨hmade, (hfaithful k hmade).mpr hacked⟩
      · refine ⟨i, Finset.ext fun k => ?_⟩
        rw [mem_takenFrom, Finset.mem_singleton]
        constructor
        · rintro ⟨hk, htaken⟩
          exact honly k hk htaken
        · rintro rfl
          exact ⟨made_of_le hmade' (by omega), hitaken⟩
  · rw [ackedCard, if_neg h, Finset.card_eq_zero, Finset.eq_empty_iff_forall_notMem]
    constructor
    · intro hnone
      refine Or.inl fun k hk => ⟨fun htaken => ?_, fun hacked => absurd ⟨k, hk, hacked⟩ h⟩
      exact absurd (mem_takenFrom.mpr ⟨hk, htaken⟩) (hnone k)
    · rintro (hfaithful | ⟨i, j, _, hmade, _, hacked, _⟩) k hk
      · obtain ⟨hmade, htaken⟩ := mem_takenFrom.mp hk
        exact h ⟨k, hmade, (hfaithful k hmade).mp htaken⟩
      · exact h ⟨j, hmade, hacked⟩

/-- What the queue gets from a list of sends. -/
theorem sendAll_queue (t : TaskInfo) (role : Str) (w : Nat) (cs : List SendCall)
    (q : RecvQueues) : (sendAll t role cs q).2.queue w role = q.queue w role ++
      cs.flatMap fun c => List.replicate (takenFrom c.outcome t w 0).card c.payload := by
  induction cs generalizing q with
  | nil => exact (List.append_nil _).symm
  | cons c cs ih =>
      have hsend := (sendLoop_spec t role c.payload c.outcome w 0 q (by decide)).1
      show (sendAll t role cs (send t role c.payload c.outcome q).2).2.queue w role = _
      rw [ih, send, hsend, List.append_assoc, List.flatMap_cons]

/-- Which payloads a list of sends reports as sent. -/
theorem succeeded_sendAll (t : TaskInfo) (role : Str) (cs : List SendCall) (q : RecvQueues) :
    succeeded (sendAll t role cs q).1 =
      cs.flatMap fun c => List.replicate (ackedCard c.outcome) c.payload := by
  induction cs generalizing q with
  | nil => rfl
  | cons c cs ih =>
      have hret : (send t role c.payload c.outcome q).1 = .SUCCESS ↔
          ∃ j, Made c.outcome j ∧ (c.outcome j).Acked :=
        (sendLoop_spec t role c.payload c.outcome 0 0 q (by decide)).2
      show succeeded ((c.payload, (send t role c.payload c.outcome q).1) ::
        (sendAll t role cs (send t role c.payload c.outcome q).2).1) = _
      rw [List.flatMap_cons, ← ih (send t role c.payload c.outcome q).2, succeeded_cons, ackedCard]
      by_cases h : ∃ j, Made c.outcome j ∧ (c.outcome j).Acked
      · rw [if_pos h, if_pos (hret.mpr h)]
        rfl
      · rw [if_neg h, if_neg fun hs => h (hret.mp hs)]
        rfl

/-- Two descriptions of the elements of a list agree when they agree on all prefixes. -/
theorem flatMap_prefix_iff {α β : Type} (f g : α → List β) (l : List α) :
    (∀ pre, pre <+: l → pre.flatMap f = pre.flatMap g) ↔ ∀ x ∈ l, f x = g x := by
  induction l using List.reverseRecOn with
  | nil => simp
  | append_singleton l x ih =>
      constructor
      · intro h y hy
        have hl : ∀ y ∈ l, f y = g y :=
          ih.mp fun pre hpre => h pre (hpre.trans (List.prefix_append _ _))
        rcases List.mem_append.mp hy with hy | hy
        · exact hl y hy
        · rw [List.mem_singleton.mp hy]
          have hall := h (l ++ [x]) (List.prefix_refl _)
          rw [List.flatMap_append, List.flatMap_append, List.flatMap_congr hl,
            List.append_cancel_left_eq, List.flatMap_singleton, List.flatMap_singleton] at hall
          exact hall
      · intro h pre hpre
        exact List.flatMap_congr fun y hy => h y (hpre.subset hy)

/-- The queue is exact when the taken attempts and the acknowledged ones are as many. -/
theorem queueExact_iff (t : TaskInfo) (role : Str) (w : Nat) (q : RecvQueues)
    (cs : List SendCall) : QueueExact t role w q cs ↔
      (cs.flatMap fun c => List.replicate (takenFrom c.outcome t w 0).card c.payload) =
        cs.flatMap fun c => List.replicate (ackedCard c.outcome) c.payload := by
  rw [QueueExact, sendAll_queue, succeeded_sendAll, List.append_cancel_left_eq]

theorem replicate_card_eq_iff (c : SendCall) (t : TaskInfo) (w : Nat) :
    List.replicate (takenFrom c.outcome t w 0).card c.payload =
        List.replicate (ackedCard c.outcome) c.payload ↔
      Faithful c.outcome t w ∨ Cancels c.outcome t w := by
  rw [← card_eq_ackedCard_iff]
  constructor
  · intro h
    have hlength := congrArg List.length h
    rwa [List.length_replicate, List.length_replicate] at hlength
  · intro h
    rw [h]

/-- **The queue holds exactly the payloads that were sent with success, at every point of the
sends, exactly when every send is faithful or cancels.** -/
theorem queueExact_iff_faithful (t : TaskInfo) (role : Str) (w : Nat) (q : RecvQueues)
    (cs : List SendCall) :
    (∀ pre, pre <+: cs → QueueExact t role w q pre) ↔
      ∀ c ∈ cs, Faithful c.outcome t w ∨ Cancels c.outcome t w := by
  simp only [queueExact_iff]
  rw [flatMap_prefix_iff]
  exact forall_congr' fun c => imp_congr_right fun _ => replicate_card_eq_iff c t w

/-- A node with a running worker. -/
def acceptingVisit : Visit :=
  .steady State.init (fun _ => ({ State.init with taskExecutorMap := [(['r'], [0])] }, false))
    { State.init with taskExecutorMap := [(['r'], [0])] } fun _ => true

theorem takesIn_acceptingVisit : acceptingVisit.TakesIn ⟨['r'], ['0']⟩ 0 := by
  refine ⟨rfl, ⟨0, rfl, ?_⟩, rfl, rfl⟩
  intro k hk
  omega

/-- A payload whose first reply is lost is received twice. -/
theorem not_queueExact :
    ¬ ∀ (t : TaskInfo) (role : Str) (w : Nat) (q : RecvQueues) (cs : List SendCall),
      QueueExact t role w q cs := by
  intro h
  have hexact := h ⟨['r'], ['0']⟩ ['k'] 0 (fun _ => [])
    [{ payload := [7], outcome := fun k => .delivered acceptingVisit (k ≠ 0) }]
  rw [queueExact_iff, List.flatMap_singleton, List.flatMap_singleton,
    replicate_card_eq_iff] at hexact
  rcases hexact with hfaithful | ⟨i, j, _, _, _, _, hnot, _⟩
  · -- the first call is taken in and has no reply
    have hmade : Made (fun k => .delivered acceptingVisit (k ≠ 0)) 0 :=
      madeFrom_self (by decide)
    obtain ⟨visit, hacked⟩ := (hfaithful 0 hmade).mp ⟨_, _, rfl, takesIn_acceptingVisit⟩
    cases hacked
  · exact hnot ⟨_, _, rfl, takesIn_acceptingVisit⟩

end Fediux.Network
