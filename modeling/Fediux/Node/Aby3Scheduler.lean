import Fediux.Basic.Fallible
import Fediux.Node.Registry

set_option autoImplicit false

/-! # The links of an ABY3 task

`ABY3Scheduler::dispatch` adds to the node of each of the three parties a virtual machine with
the endpoints of its two neighbours (`task/semantic/scheduler/aby3_scheduler.cc`). The parties
stand in a protobuf map, whose order of iteration is not determined; the ids of the parties
come from the request or from `MergePartyAccessInfo` (`task/language/parser.cc`).
`wired_iff` says for which orders the endpoints carry the ip of the right party.
-/

namespace Fediux.Aby3

open Fediux.Node (Str)
open OrderedMap (Entries insertAll)

/-! ## Messages -/

inductive LinkType where
  | SERVER
  | CLIENT
  deriving DecidableEq, Repr

/-- `rpc::EndPoint`. -/
structure EndPoint where
  ip : Str
  port : ℤ
  name : Str
  link_type : LinkType
  deriving DecidableEq, Repr

/-- `rpc::VirtualMachine`. -/
structure VirtualMachine where
  party_id : ℤ
  next : EndPoint
  prev : EndPoint
  deriving DecidableEq, Repr

/-- `rpc::Node`. -/
structure PbNode where
  node_id : Str
  ip : Str
  port : ℤ
  use_tls : Bool
  role : Str
  vm : List VirtualMachine
  party_id : ℤ
  deriving DecidableEq, Repr

/-- `Node`. -/
structure Node where
  id_ : Str
  ip_ : Str
  port_ : ℤ
  use_tls_ : Bool
  role_ : Str
  deriving DecidableEq, Repr

def pbNode2Node (pb_node : PbNode) : Node where
  id_ := pb_node.node_id
  ip_ := pb_node.ip
  port_ := pb_node.port
  use_tls_ := pb_node.use_tls
  role_ := pb_node.role

/-- The message of a node, all other fields as in a new message. -/
def node2PbNode (node : Node) : PbNode where
  node_id := node.id_
  ip := node.ip_
  port := node.port_
  use_tls := node.use_tls_
  role := node.role_
  vm := []
  party_id := 0

def Node.to_string (node : Node) : Str :=
  node.id_ ++ ":".toList ++ node.ip_ ++ ":".toList ++ (toString node.port_).toList ++
    ":".toList ++ (if node.use_tls_ then "1" else "0").toList ++ ":".toList ++ node.role_

/-- `rpc::TaskType`. -/
inductive TaskType where
  | ACTOR_TASK
  | NODE_TASK
  | PIR_TASK
  | PSI_TASK
  | NODE_PIR_TASK
  | NODE_PSI_TASK
  | TEE_TASK
  | TEE_EXECUTOR_TASK
  | TEE_DATAPROVIDER_TASK
  deriving DecidableEq, Repr

/-- `rpc::Task`; the parties are listed in the order in which the map is iterated. -/
structure Task where
  type : TaskType
  job_id : Str
  task_id : Str
  party_name : Str
  party_access_info : List (Str × PbNode)
  deriving DecidableEq, Repr

/-! ## `LanguageParser` -/

/-- The nodes of the parties with their ids, in the order of the names. -/
def refill : ℤ → List (Str × Node) → List (Str × PbNode)
  | _, [] => []
  | party_id, (party_name, node) :: rest =>
      (party_name, { node2PbNode node with party_id := party_id }) :: refill (party_id + 1) rest

/-- The new contents of `party_access_info`. -/
def MergePartyAccessInfo (current : List (Str × PbNode)) (party_access_info : Entries Str Node) :
    List (Str × PbNode) :=
  let filtered_party : Entries Str Node :=
    insertAll (insertAll [] (current.map fun e => (e.1, pbNode2Node e.2))) party_access_info
  refill 0 filtered_party

theorem party_ids_refill (party_id : ℤ) (parties : List (Str × Node)) :
    (refill party_id parties).map (fun e => e.2.party_id) =
      (List.range parties.length).map fun i : ℕ => party_id + (i : ℤ) := by
  induction parties generalizing party_id with
  | nil => rfl
  | cons e parties ih =>
      rw [refill, List.map_cons, ih, List.length_cons, List.range_succ_eq_map, List.map_cons,
        List.map_map]
      refine congrArg₂ List.cons (by simp) (List.map_congr_left fun i _ => ?_)
      simp only [Function.comp_apply]
      push_cast
      ring

/-- Merged parties are numbered from 0 on. -/
theorem party_ids_merge (current : List (Str × PbNode)) (party_access_info : Entries Str Node) :
    ∃ n : ℕ, (MergePartyAccessInfo current party_access_info).map (fun e => e.2.party_id) =
      (List.range n).map fun i : ℕ => (i : ℤ) := by
  have h := party_ids_refill 0
    (insertAll (insertAll [] (current.map fun e => (e.1, pbNode2Node e.2))) party_access_info)
  simp only [zero_add] at h
  exact ⟨_, h⟩

/-! ## `ABY3Scheduler` -/

/-- What ends `dispatch`: an exception, or an access past the end of a vector. -/
inductive Fault where
  | exception (error_msg : Str)
  | outOfRange
  deriving DecidableEq, Repr

def session_basePort : ℤ := 12120

/-- The endpoint of a link to the party `other`, whose node is taken to be `node`. -/
def endPoint ( name_prefix : Str) (party_id other : ℤ) (node : PbNode) : EndPoint where
  ip := node.ip
  port := min party_id other + session_basePort
  name := name_prefix ++ (toString (min party_id other)).toList ++
    (toString (max party_id other)).toList
  link_type := if party_id < other then .SERVER else .CLIENT

/-- `party_nodes[i]`. -/
def nodeAt (party_nodes : List PbNode) (i : ℤ) : Except Fault PbNode :=
  if i < 0 then .error .outOfRange
  else
    match party_nodes[i.toNat]? with
    | some node => .ok node
    | none => .error .outOfRange

def name_prefix (task : Task) : Str :=
  task.job_id ++ "_".toList ++ task.task_id ++ "_".toList

def add_vm (party_id : ℤ) (task : Task) (party_nodes : List PbNode) (node : PbNode) :
    Except Fault PbNode := do
  let next := (party_id + 1).tmod 3
  let prev := (party_id + 2).tmod 3
  let nextNode ← nodeAt party_nodes next
  let prevNode ← nodeAt party_nodes prev
  return { node with vm := node.vm ++ [{
    party_id := party_id
    next := endPoint ( name_prefix task) party_id next nextNode
    prev := endPoint ( name_prefix task) party_id prev prevNode }] }

/-- Change the value of a key that is in the map. -/
def update (info : List (Str × PbNode)) (name : Str) (f : PbNode → Except Fault PbNode) :
    Except Fault (List (Str × PbNode)) :=
  info.mapM fun e => if e.1 = name then (f e.2).map fun node => (e.1, node) else .ok e

/-- The first part of `dispatch`: the request with the endpoints. -/
def addEndPoints (task : Task) : Except Fault Task := do
  if task.type = .ACTOR_TASK then
    let party_info := task.party_access_info
    let party_names := party_info.map Prod.fst
    let party_nodes := party_info.map Prod.snd
    let dup_filter := (party_nodes.map fun node => (pbNode2Node node).to_string).dedup
    let dup_names := party_names.dedup
    if dup_filter.length ≠ 3 then
      throw (.exception ("ABY3 protocol need 3 party, but get " ++
        toString dup_filter.length).toList)
    if dup_names.length ≠ 3 then
      throw (.exception "ABY3 protocol: different party set same name".toList)
    let party_access_info ← party_names.foldlM (fun info name_ =>
      update info name_ fun node => add_vm node.party_id task party_nodes node) party_info
    return { task with party_access_info := party_access_info }
  else return task

/-- The request that `ScheduleTask` sends to a party. -/
def ScheduleTask (party_name : Str) (request : Task) : Task :=
  { request with party_name := party_name }

/-- The requests that are sent, each with the node it is sent to. -/
def dispatch (task : Task) : Except Fault (List (Node × Task)) := do
  let send_request ← addEndPoints task
  return send_request.party_access_info.map fun e =>
    (pbNode2Node e.2, ScheduleTask e.1 send_request)

/-! ## Adding the endpoints -/

theorem update_of_ok {info : List (Str × PbNode)} {name : Str} {f : PbNode → Except Fault PbNode}
    {g : PbNode → PbNode} (h : ∀ e ∈ info, e.1 = name → f e.2 = .ok (g e.2)) :
    update info name f = .ok (info.map fun e => if e.1 = name then (e.1, g e.2) else e) := by
  apply Fallible.mapM_of_ok
  intro e he
  by_cases hname : e.1 = name
  · rw [if_pos hname, if_pos hname, h e he hname]
    rfl
  · rw [if_neg hname, if_neg hname]

/-- A step for each of several names changes the nodes with these names. -/
theorem foldlM_update {f : PbNode → Except Fault PbNode} {g : PbNode → PbNode}
    {names : List Str} (hnodup : names.Nodup) (info : List (Str × PbNode))
    (h : ∀ e ∈ info, e.1 ∈ names → f e.2 = .ok (g e.2)) :
    names.foldlM (fun info name => update info name f) info =
      .ok (info.map fun e => if e.1 ∈ names then (e.1, g e.2) else e) := by
  induction names generalizing info with
  | nil => simp [pure, Except.pure]
  | cons name names ih =>
      obtain ⟨hnot, hnodup⟩ := List.nodup_cons.mp hnodup
      have hfirst : update info name f = _ :=
        update_of_ok fun e he hname => h e he (hname ▸ List.mem_cons_self)
      rw [Fallible.foldlM_cons_of_ok (f := fun info name => update info name f) hfirst, ih hnodup]
      · rw [List.map_map]
        refine congrArg Except.ok (List.map_congr_left fun e _ => ?_)
        by_cases hname : e.1 = name
        · simp [hname, hnot]
        · simp [hname]
      · -- a changed node has the first name, which does not come again
        intro e he hmem
        obtain ⟨e₀, he₀, rfl⟩ := List.mem_map.mp he
        by_cases hname : e₀.1 = name
        · rw [if_pos hname] at hmem
          exact absurd (hname ▸ hmem) hnot
        · rw [if_neg hname] at hmem ⊢
          exact h e₀ he₀ (List.mem_cons_of_mem name hmem)

/-! ## Right links -/

/-- The records of the two sides of a link. -/
def Agree (a b : EndPoint) : Prop :=
  a.name = b.name ∧ a.port = b.port ∧
    (a.link_type = .SERVER ∧ b.link_type = .CLIENT ∨ a.link_type = .CLIENT ∧ b.link_type = .SERVER)

/-- The virtual machine that was added last to each party has the ips of the parties with the
next and the previous id, and the records of every link agree. -/
structure Wired (parties : List (Str × PbNode)) : Prop where
  ips : ∀ e ∈ parties, ∀ vm ∈ e.2.vm.getLast?, ∀ f ∈ parties,
    (f.2.party_id = (e.2.party_id + 1) % 3 → vm.next.ip = f.2.ip) ∧
      (f.2.party_id = (e.2.party_id + 2) % 3 → vm.prev.ip = f.2.ip)
  links : ∀ e ∈ parties, ∀ f ∈ parties, f.2.party_id = (e.2.party_id + 1) % 3 →
    ∃ vm ∈ e.2.vm.getLast?, ∃ vm' ∈ f.2.vm.getLast?, Agree vm.next vm'.prev

/-- Every request that is sent has the right links. -/
def SendsWired (task : Task) : Prop :=
  ∀ sent, dispatch task = .ok sent → ∀ s ∈ sent, Wired s.2.party_access_info

structure ThreeParties (task : Task) : Prop where
  type : task.type = .ACTOR_TASK
  nodup : (task.party_access_info.map Prod.fst).Nodup
  ids : (task.party_access_info.map fun e => e.2.party_id).Perm [0, 1, 2]

/-- The node at the position of a party's id has the party's ip. -/
def InOrder (parties : List (Str × PbNode)) : Prop :=
  ∀ e ∈ parties, ∀ node ∈ (parties.map Prod.snd)[e.2.party_id.toNat]?, node.ip = e.2.ip

/-- The texts of the nodes are pairwise different. -/
def DistinctNodes (parties : List (Str × PbNode)) : Prop :=
  (parties.map fun e => (pbNode2Node e.2).to_string).Nodup

theorem agree_endPoint ( name_prefix : Str) {a b : ℤ} (h : a ≠ b) (node node' : PbNode) :
    Agree (endPoint name_prefix a b node) (endPoint name_prefix b a node') := by
  refine ⟨?_, ?_, ?_⟩
  · simp only [endPoint, min_comm a b, max_comm a b]
  · simp only [endPoint, min_comm a b]
  · rcases lt_or_gt_of_ne h with hlt | hlt
    · exact Or.inl ⟨if_pos hlt, if_neg hlt.asymm⟩
    · exact Or.inr ⟨if_neg hlt.asymm, if_pos hlt⟩

section

variable {task : Task}

theorem ThreeParties.id_cases (h : ThreeParties task) {e : Str × PbNode}
    (he : e ∈ task.party_access_info) :
    e.2.party_id = 0 ∨ e.2.party_id = 1 ∨ e.2.party_id = 2 := by
  have hmem := h.ids.mem_iff.mp (List.mem_map_of_mem (f := fun e => e.2.party_id) he)
  simpa using hmem

theorem ThreeParties.exists_party (h : ThreeParties task) {i : ℤ} (hi : i = 0 ∨ i = 1 ∨ i = 2) :
    ∃ e ∈ task.party_access_info, e.2.party_id = i := by
  have hmem : i ∈ task.party_access_info.map fun e => e.2.party_id :=
    h.ids.mem_iff.mpr (by simpa using hi)
  exact List.mem_map.mp hmem

theorem ThreeParties.length_eq (h : ThreeParties task) : task.party_access_info.length = 3 := by
  have hlen := h.ids.length_eq
  rwa [List.length_map] at hlen

theorem nodeAt_of_getElem? {party_nodes : List PbNode} {i : ℤ} {node : PbNode} (hi : 0 ≤ i)
    (h : node ∈ party_nodes[i.toNat]?) : nodeAt party_nodes i = .ok node := by
  have hsome : party_nodes[i.toNat]? = some node := h
  rw [nodeAt, if_neg (not_lt.mpr hi), hsome]

theorem ThreeParties.exists_node (h : ThreeParties task) (i : ℤ) :
    ∃ node, node ∈ (task.party_access_info.map Prod.snd)[(i % 3).toNat]? := by
  have hlt : (i % 3).toNat < (task.party_access_info.map Prod.snd).length := by
    rw [List.length_map, h.length_eq]
    omega
  exact ⟨_, List.getElem?_eq_getElem hlt⟩

/-- The node of a party with its virtual machine. -/
def withVm (task : Task) (node : PbNode) : PbNode :=
  (add_vm node.party_id task (task.party_access_info.map Prod.snd) node).toOption.getD node

/-- The neighbours in a virtual machine are the nodes at the positions of their ids. -/
theorem add_vm_spec (h : ThreeParties task) {e : Str × PbNode}
    (he : e ∈ task.party_access_info) :
    add_vm e.2.party_id task (task.party_access_info.map Prod.snd) e.2 = .ok (withVm task e.2) ∧
      ∃ nextNode ∈ (task.party_access_info.map Prod.snd)[((e.2.party_id + 1) % 3).toNat]?,
      ∃ prevNode ∈ (task.party_access_info.map Prod.snd)[((e.2.party_id + 2) % 3).toNat]?,
        withVm task e.2 = { e.2 with vm := e.2.vm ++ [{
          party_id := e.2.party_id
          next := endPoint ( name_prefix task) e.2.party_id ((e.2.party_id + 1) % 3) nextNode
          prev := endPoint ( name_prefix task) e.2.party_id ((e.2.party_id + 2) % 3) prevNode }] } := by
  obtain ⟨nextNode, hnext⟩ := h.exists_node (e.2.party_id + 1)
  obtain ⟨prevNode, hprev⟩ := h.exists_node (e.2.party_id + 2)
  have hpos : 0 ≤ e.2.party_id := by
    rcases h.id_cases he with hid | hid | hid <;> omega
  have hok : add_vm e.2.party_id task (task.party_access_info.map Prod.snd) e.2 =
      .ok { e.2 with vm := e.2.vm ++ [{
        party_id := e.2.party_id
        next := endPoint ( name_prefix task) e.2.party_id ((e.2.party_id + 1) % 3) nextNode
        prev := endPoint ( name_prefix task) e.2.party_id ((e.2.party_id + 2) % 3) prevNode }] } := by
    unfold add_vm
    rw [Int.tmod_eq_emod_of_nonneg (by omega), Int.tmod_eq_emod_of_nonneg (by omega)]
    simp only [nodeAt_of_getElem? (Int.emod_nonneg _ (by decide)) hnext,
      nodeAt_of_getElem? (Int.emod_nonneg _ (by decide)) hprev]
    rfl
  have hwith : withVm task e.2 = _ := congrArg (fun r => r.toOption.getD e.2) hok
  exact ⟨hok.trans (congrArg Except.ok hwith.symm), nextNode, hnext, prevNode, hprev, hwith⟩

theorem ThreeParties.dedup_names (h : ThreeParties task) :
    (task.party_access_info.map Prod.fst).dedup.length = 3 := by
  rw [List.dedup_eq_self.mpr h.nodup, List.length_map, h.length_eq]

theorem ThreeParties.dedup_nodes_iff (h : ThreeParties task) :
    ((task.party_access_info.map Prod.snd).map
      fun node => (pbNode2Node node).to_string).dedup.length = 3 ↔
        DistinctNodes task.party_access_info := by
  rw [List.map_map, DistinctNodes, ← h.length_eq]
  constructor
  · intro hlen
    have hself := (List.dedup_sublist _).eq_of_length (hlen.trans (List.length_map _).symm)
    exact List.dedup_eq_self.mp hself
  · intro hnodup
    have hself := List.dedup_eq_self.mpr hnodup
    exact (congrArg List.length hself).trans (List.length_map _)

theorem addEndPoints_eq (h : ThreeParties task) (hdistinct : DistinctNodes task.party_access_info) :
    addEndPoints task = .ok { task with
      party_access_info := task.party_access_info.map fun e => (e.1, withVm task e.2) } := by
  have hadd := foldlM_update
    (f := fun node => add_vm node.party_id task (task.party_access_info.map Prod.snd) node)
    (g := withVm task) h.nodup task.party_access_info fun e he _ => (add_vm_spec h he).1
  have hmap : (task.party_access_info.map fun e =>
      if e.1 ∈ task.party_access_info.map Prod.fst then (e.1, withVm task e.2) else e) =
        task.party_access_info.map fun e => (e.1, withVm task e.2) :=
    List.map_congr_left fun e he => if_pos (List.mem_map_of_mem he)
  rw [hmap] at hadd
  unfold addEndPoints
  simp only [h.type, h.dedup_nodes_iff.mpr hdistinct, h.dedup_names, hadd, if_true, ne_eq,
    not_true_eq_false, if_false]
  rfl

/-- Three nodes that are not all different end the dispatch with an exception. -/
theorem dispatch_ne_ok (h : ThreeParties task)
    (hdistinct : ¬ DistinctNodes task.party_access_info) (sent : List (Node × Task)) :
    dispatch task ≠ .ok sent := by
  have hlen := mt h.dedup_nodes_iff.mp hdistinct
  unfold dispatch addEndPoints
  simp only [h.type, hlen, if_true, ne_eq, not_false_eq_true]
  intro hok
  cases hok

/-- Every request has the endpoints. -/
theorem parties_of_dispatch (h : ThreeParties task)
    (hdistinct : DistinctNodes task.party_access_info) :
    ∃ sent, dispatch task = .ok sent ∧ sent ≠ [] ∧ ∀ s ∈ sent,
      s.2.party_access_info = task.party_access_info.map fun e => (e.1, withVm task e.2) := by
  unfold dispatch
  rw [addEndPoints_eq h hdistinct]
  refine ⟨_, rfl, ?_, ?_⟩
  · intro hnil
    have hlen := h.length_eq
    rw [List.map_eq_nil_iff, List.map_eq_nil_iff] at hnil
    rw [hnil] at hlen
    cases hlen
  · intro s hs
    obtain ⟨e, _, rfl⟩ := List.mem_map.mp hs
    rfl

theorem wired_of_inOrder (h : ThreeParties task) (horder : InOrder task.party_access_info) :
    Wired (task.party_access_info.map fun e => (e.1, withVm task e.2)) where
  ips := by
    intro e' he' vm hvm f' hf'
    obtain ⟨e, he, rfl⟩ := List.mem_map.mp he'
    obtain ⟨f, hf, rfl⟩ := List.mem_map.mp hf'
    obtain ⟨-, nextNode, hnext, prevNode, hprev, hwith⟩ := add_vm_spec h he
    obtain ⟨-, _, -, _, -, hwithf⟩ := add_vm_spec h hf
    simp only [hwith, List.getLast?_concat, Option.mem_some_iff] at hvm
    simp only [hwith, hwithf, ← hvm]
    constructor
    · intro hid
      exact horder f hf nextNode (hid ▸ hnext)
    · intro hid
      exact horder f hf prevNode (hid ▸ hprev)
  links := by
    intro e' he' f' hf' hid
    obtain ⟨e, he, rfl⟩ := List.mem_map.mp he'
    obtain ⟨f, hf, rfl⟩ := List.mem_map.mp hf'
    obtain ⟨-, nextNode, -, _, -, hwith⟩ := add_vm_spec h he
    obtain ⟨-, _, -, prevNode, -, hwithf⟩ := add_vm_spec h hf
    simp only [hwith, hwithf] at hid ⊢
    refine ⟨_, List.getLast?_concat, _, List.getLast?_concat, ?_⟩
    have hback : (f.2.party_id + 2) % 3 = e.2.party_id ∧ e.2.party_id ≠ f.2.party_id := by
      rcases h.id_cases he with h₀ | h₀ | h₀ <;> omega
    simp only [hback.1, ← hid]
    exact agree_endPoint _ hback.2 _ _

theorem inOrder_of_wired (h : ThreeParties task)
    (hwired : Wired (task.party_access_info.map fun e => (e.1, withVm task e.2))) :
    InOrder task.party_access_info := by
  intro f hf node hnode
  -- the party before `f` has `f` as the next one
  obtain ⟨e, he, hid⟩ := h.exists_party (i := (f.2.party_id + 2) % 3) (by omega)
  have hnextId : f.2.party_id = (e.2.party_id + 1) % 3 := by
    rcases h.id_cases hf with h₀ | h₀ | h₀ <;> omega
  obtain ⟨-, nextNode, hnext, _, -, hwith⟩ := add_vm_spec h he
  obtain ⟨-, _, -, _, -, hwithf⟩ := add_vm_spec h hf
  have hips := hwired.ips (e.1, withVm task e.2)
    (List.mem_map_of_mem (f := fun e => (e.1, withVm task e.2)) he)
  simp only [hwith, List.getLast?_concat, Option.mem_some_iff, forall_eq'] at hips
  have hip := (hips (f.1, withVm task f.2)
    (List.mem_map_of_mem (f := fun e => (e.1, withVm task e.2)) hf)).1
  simp only [hwithf] at hip
  have hsame : nextNode = node := by
    rw [← hnextId] at hnext
    exact Option.mem_unique hnext hnode
  rw [← hsame]
  exact hip hnextId

theorem inOrder_of_sendsWired (h : ThreeParties task) (hsends : SendsWired task)
    (hdistinct : DistinctNodes task.party_access_info) : InOrder task.party_access_info := by
  obtain ⟨sent, hok, hne, hparties⟩ := parties_of_dispatch h hdistinct
  obtain ⟨s, hs⟩ := List.exists_mem_of_ne_nil sent hne
  have hwired := hsends sent hok s hs
  rw [hparties s hs] at hwired
  exact inOrder_of_wired h hwired

/-- **When a request carries the right ips**: if the nodes are all different (otherwise none is
sent), the party at each position of the map's order has the ip of the party with this id. The
records of the links agree in any case. -/
theorem wired_iff (h : ThreeParties task) :
    SendsWired task ↔
      (DistinctNodes task.party_access_info → InOrder task.party_access_info) := by
  constructor
  · exact inOrder_of_sendsWired h
  · intro horder sent hok s hs
    by_cases hdistinct : DistinctNodes task.party_access_info
    · obtain ⟨sent', hok', -, hparties⟩ := parties_of_dispatch h hdistinct
      rw [hok] at hok'
      cases hok'
      rw [hparties s hs]
      exact wired_of_inOrder h (horder hdistinct)
    · exact absurd hok (dispatch_ne_ok h hdistinct sent)

end

/-- The node of a party at the ip with one character. -/
def plainNode (ip : Char) (party_id : ℤ) : PbNode where
  node_id := []
  ip := [ip]
  port := 50050
  use_tls := false
  role := []
  vm := []
  party_id := party_id

def abc (ida idb idc : ℤ) : Task where
  type := .ACTOR_TASK
  job_id := []
  task_id := []
  party_name := []
  party_access_info :=
    [(['A'], plainNode 'a' ida), (['B'], plainNode 'b' idb), (['C'], plainNode 'c' idc)]

theorem wired_abc : SendsWired (abc 0 1 2) := by
  have h : ThreeParties (abc 0 1 2) := ⟨rfl, by decide, by decide⟩
  apply (wired_iff h).mpr
  intro _
  unfold InOrder
  decide

/-- With the ids 1, 0, 2 in the order of the map, the endpoints have the wrong ips. -/
theorem not_wired_swapped : ¬ SendsWired (abc 1 0 2) := by
  intro hsends
  have h : ThreeParties (abc 1 0 2) := ⟨rfl, by decide, by decide⟩
  have hdistinct : DistinctNodes (abc 1 0 2).party_access_info := by
    unfold DistinctNodes
    decide
  have horder := inOrder_of_sendsWired h hsends hdistinct
  have hip := horder (['A'], plainNode 'a' 1) List.mem_cons_self (plainNode 'b' 0) rfl
  exact absurd hip (by decide)

end Fediux.Aby3
