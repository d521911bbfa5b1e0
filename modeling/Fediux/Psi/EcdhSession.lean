import Fediux.Basic.OrderedMap
import Fediux.Basic.Session
import Fediux.Psi.Operators

set_option autoImplicit false

/-! # A session of the ECDH operator

The client and the server of `EcdhPsiOperator` (`kernel/psi/operator/ecdh_psi.cc`), each a program
that sends and receives, up to the end of `BasePsiOperator::Execute`. All messages of both parties
go under one key. `execute_runsTogether_iff` says when the two come to their ends in every order of
their steps, and with what results.
-/

namespace Fediux.Psi.EcdhSession

open Node (Bytes Retcode)
open OrderedMap (Entries find?)
open Session Session.Prog

/-! ## The library -/

/-- `private_set_intersection`. A server message always has one of the two data structures. -/
structure PsiLibrary where
  PsiClient : Type
  PsiServer : Type
  Request : Type
  CreateRequest : PsiClient → List Bytes → Request
  CreateSetupMessage : PsiServer → ℕ → List Bytes → ServerSetup
  ProcessRequest : PsiServer → Request → Response
  GetIntersection : PsiClient → ServerSetup → Response → List ℕ
  setup_set : ∀ psi_server n input,
    (CreateSetupMessage psi_server n input).data_structure ≠ .notSet

/-- `rpc::ParamValue` with the types that the parameters have. -/
inductive ParamValue where
  | int32 (v : ℤ)
  | int64 (v : ℤ)
  deriving DecidableEq, Repr

def ParamValue.value_int32 : ParamValue → ℤ
  | int32 v => v
  | int64 _ => 0

def ParamValue.value_int64 : ParamValue → ℤ
  | int32 _ => 0
  | int64 v => v

/-- `rpc::Params`. -/
abbrev Params := Entries String ParamValue

/-- What the two parties use: the library, the objects that `CreateWithNewKey` makes (the server's
for each value of the flag), the messages of protobuf, and the length of the longest string. -/
structure Setting where
  lib : PsiLibrary
  psi_client : lib.PsiClient
  psi_server : Bool → lib.PsiServer
  params : Protobuf Params
  requests : Protobuf lib.Request
  responses : Protobuf Response
  setups : Protobuf ServerSetup
  limit : ℕ
  psi_result_type : PsiResultType
  sync_result : Bool

/-- How an execution stops without a result. -/
inductive Failure where
  | FAIL
  /-- A read outside a buffer, or a string that cannot be made. -/
  | memory
  deriving DecidableEq, Repr

variable (S : Setting)

/-! ## Sending and receiving -/

abbrev Steps (α : Type) := Session.Prog String Bytes Failure α

def key_ : String := "default"

def Send (data : Bytes) : Steps Unit := send key_ data (ret ())

/-- An empty string is a failure. -/
def Recv : Steps (Retcode × Bytes) :=
  recv key_ fun data => ret (if data = [] then .FAIL else .SUCCESS, data)

/-- `Recv` and `CHECK_RETCODE`. -/
def RecvChecked : Steps Bytes :=
  Recv.bind fun (code, data) => if code = .SUCCESS then ret data else raise .FAIL

/-! ## The client -/

def BuildInitParam (element_size : ℕ) : Params :=
  [("dataset_size", .int64 element_size), ("reveal_intersection", .int32 1)]

def ParsePsiResponse (recv_data_str : Bytes) : Steps PsiResponse :=
  match ParsePsiResponseFromeString S.responses S.setups false recv_data_str with
  | .error _ => raise .memory
  | .ok (.SUCCESS, some response) => ret response
  | .ok _ => raise .FAIL

/-- What `GetIntersection` makes of the positions. -/
def atPositions (input : List Bytes) (intersection : List ℕ) : Option (List Bytes) :=
  match S.psi_result_type with
  | .DIFFERENCE => some ((input.zipIdx.filter fun e => e.2 ∉ intersection).map Prod.fst)
  | .INTERSECTION => intersection.mapM fun i => input[i]?

def GetIntersection (input : List Bytes) (response : PsiResponse) : Steps (List Bytes) :=
  if response.server_setup.data_structure = .notSet then raise .FAIL
  else ofOption .memory (atPositions S input
    (S.lib.GetIntersection S.psi_client response.server_setup ⟨response.encrypted_elements⟩))

def ExecuteAsClient (input : List Bytes) : Steps (List Bytes) :=
  (Send ((S.params.serialize (BuildInitParam input.length)).getD [])).bind fun _ =>
  (Send ((S.requests.serialize (S.lib.CreateRequest S.psi_client input)).getD [])).bind fun _ =>
  RecvChecked.bind fun recv_data_str =>
  (ParsePsiResponse S recv_data_str).bind fun response => GetIntersection S input response

/-- `OnExecute` and `BroadcastResult` in `Execute`. -/
def ExecuteClient (input : List Bytes) : Steps (List Bytes) :=
  if input = [] then raise .FAIL
  else (ExecuteAsClient S input).bind fun result =>
    if S.sync_result then (Send (resultStr result)).bind fun _ => ret result else ret result

/-! ## The server -/

/-- The client's size and flag in the parameters. -/
def initParam (param_map : Params) : Steps (ℕ × Bool) :=
  match find? param_map "dataset_size", find? param_map "reveal_intersection" with
  | some size, some reveal => ret (size.value_int64.toNat, decide (0 < reveal.value_int32))
  | _, _ => raise .FAIL

def RecvInitParam : Steps (ℕ × Bool) :=
  RecvChecked.bind fun init_param_str => initParam (S.params.parse init_param_str)

def InitRequest : Steps S.lib.Request :=
  RecvChecked.bind fun request_str =>
  ret (S.requests.parse request_str)

def ExecuteAsServer (input : List Bytes) : Steps Unit :=
  (RecvInitParam S).bind fun (num_client_elements, reveal_intersection_flag) =>
  let server := S.psi_server reveal_intersection_flag
  let server_setup := S.lib.CreateSetupMessage server num_client_elements input
  (InitRequest S).bind fun psi_request =>
  Send (psiResStr S.responses S.setups (S.lib.ProcessRequest server psi_request) server_setup)

/-- `ReceiveResult` into an empty result. -/
def receiveResult : Steps (List Bytes) :=
  Recv.bind fun received =>
  match ReceiveResult S.limit received [] with
  | .error _ => raise .memory
  | .ok (.SUCCESS, result) => ret result
  | .ok _ => raise .FAIL

/-- `OnExecute` and `ReceiveResult` in `Execute`. -/
def ExecuteServer (input : List Bytes) : Steps (List Bytes) :=
  if input = [] then raise .FAIL
  else (ExecuteAsServer S input).bind fun _ =>
    if S.sync_result then receiveResult S else ret []

/-! ## Positions and elements -/

/-- The positions that the library finds. -/
def Setting.positions (client server : List Bytes) : List ℕ :=
  S.lib.GetIntersection S.psi_client
    (S.lib.CreateSetupMessage (S.psi_server true) client.length server)
    (S.lib.ProcessRequest (S.psi_server true) (S.lib.CreateRequest S.psi_client client))

/-- The library finds each common element once, and nothing else. -/
structure Setting.Exact (client server : List Bytes) : Prop where
  nodup : (S.positions client server).Nodup
  mem : ∀ i, i ∈ S.positions client server ↔ ∃ item ∈ server, client[i]? = some item

/-- The messages of the session fit into protobuf messages that are not empty, and the elements
into strings. -/
structure Setting.Fits (client server : List Bytes) : Prop where
  params : ∃ str, S.params.serialize (BuildInitParam client.length) = some str ∧ str ≠ []
  request : ∃ str, S.requests.serialize (S.lib.CreateRequest S.psi_client client) = some str ∧
    str ≠ []
  response : ∃ str, S.responses.serialize (S.lib.ProcessRequest (S.psi_server true)
    (S.lib.CreateRequest S.psi_client client)) = some str
  setup : ∃ str, S.setups.serialize (S.lib.CreateSetupMessage (S.psi_server true) client.length
    server) = some str
  limit : S.limit < 256 ^ 8
  items : ∀ item ∈ client, item.length ≤ S.limit

/-- The result that the client is asked for. -/
def Setting.IsResult (client server result : List Bytes) : Prop :=
  match S.psi_result_type with
  | .INTERSECTION => result.Perm (client.filter (· ∈ server))
  | .DIFFERENCE => result = client.filter (· ∉ server)

variable {S} {client server : List Bytes}

theorem zipIdx_filter (client : List Bytes) (p : Bytes → Bool) (q : ℕ → Bool)
    (h : ∀ i item, client[i]? = some item → q i = p item) :
    (client.zipIdx.filter fun e => q e.2).map Prod.fst = client.filter p := by
  have hmem : ∀ e ∈ client.zipIdx, q e.2 = (p ∘ Prod.fst) e := by
    intro e he
    exact h e.2 e.1 (List.mem_zipIdx_iff_getElem?.mp he)
  calc (client.zipIdx.filter fun e => q e.2).map Prod.fst
      = (client.zipIdx.filter (p ∘ Prod.fst)).map Prod.fst := by
        rw [List.filter_congr hmem]
    _ = (client.zipIdx.map Prod.fst).filter p := (List.filter_map).symm
    _ = client.filter p := by rw [List.zipIdx_map_fst]

theorem getD_of_getElem? {i : ℕ} {item : Bytes} (h : client[i]? = some item) :
    client.getD i [] = item := by
  rw [List.getD_eq_getElem?_getD, h]
  rfl

theorem mapM_getElem? {positions : List ℕ}
    (h : ∀ i ∈ positions, ∃ item, client[i]? = some item) :
    positions.mapM (fun i => client[i]?) = some (positions.map fun i => client.getD i []) := by
  induction positions with
  | nil => rfl
  | cons i positions ih =>
      obtain ⟨item, hitem⟩ := h i List.mem_cons_self
      have hrest := ih fun j hj => h j (List.mem_cons_of_mem i hj)
      rw [List.mapM_cons, hitem, hrest, List.map_cons, getD_of_getElem? hitem]
      rfl

/-- **The positions give the elements that are asked for.** -/
theorem atPositions_of_exact (h : S.Exact client server) :
    ∃ result, atPositions S client (S.positions client server) = some result ∧
      S.IsResult client server result := by
  have hiff : ∀ i item, client[i]? = some item →
      (i ∈ S.positions client server ↔ item ∈ server) := by
    intro i item hi
    rw [h.mem, hi]
    simp
  unfold atPositions Setting.IsResult
  cases S.psi_result_type with
  | DIFFERENCE =>
      refine ⟨_, rfl, ?_⟩
      refine zipIdx_filter client _ (fun i => i ∉ S.positions client server) fun i item hi => ?_
      rw [decide_eq_decide, hiff i item hi]
  | INTERSECTION =>
      have hall := mapM_getElem? fun i hi => by
        obtain ⟨item, _, hitem⟩ := (h.mem i).mp hi
        exact ⟨item, hitem⟩
      refine ⟨_, hall, ?_⟩
      let found := client.zipIdx.filter fun e => e.2 ∈ S.positions client server
      have hperm : (S.positions client server).Perm (found.map Prod.snd) := by
        refine (List.perm_ext_iff_of_nodup h.nodup ?_).mpr fun i => ?_
        · have hsub : (found.map Prod.snd).Sublist (client.zipIdx.map Prod.snd) :=
            List.filter_sublist.map _
          refine hsub.nodup ?_
          rw [List.zipIdx_map_snd]
          exact List.nodup_range'
        · rw [List.mem_map]
          constructor
          · intro hi
            obtain ⟨item, _, hitem⟩ := (h.mem i).mp hi
            exact ⟨(item, i), List.mem_filter.mpr
              ⟨List.mem_zipIdx_iff_getElem?.mpr hitem, decide_eq_true hi⟩, rfl⟩
          · rintro ⟨e, he, rfl⟩
            exact of_decide_eq_true (List.mem_filter.mp he).2
      have hfst : found.map ((fun i => client.getD i []) ∘ Prod.snd) = found.map Prod.fst := by
        refine List.map_congr_left fun e he => ?_
        exact getD_of_getElem? (List.mem_zipIdx_iff_getElem?.mp (List.mem_filter.mp he).1)
      have hfilter : found.map Prod.fst = client.filter (· ∈ server) := by
        refine zipIdx_filter client _ (fun i => i ∈ S.positions client server) fun i item hi => ?_
        rw [decide_eq_decide, hiff i item hi]
      have hmap := hperm.map fun i => client.getD i []
      rwa [List.map_map, hfst, hfilter] at hmap

/-! ## The session -/

section Lockstep

variable {α β : Type} {es : List (Side × String × Bytes)} {a : α} {b : β} {m : Bytes}

theorem RecvChecked_bind (f : Bytes → Steps α) :
    RecvChecked.bind f = recv key_ fun data => if data = [] then raise .FAIL else f data := by
  unfold RecvChecked Recv
  simp only [recv_bind, ret_bind]
  congr 1
  funext data
  by_cases h : data = []
  · simp [h, Prog.bind]
  · simp [h]

/-- The client sends, and the server receives and goes on. -/
theorem toServer {p : Steps α} {f : Bytes → Steps β} (hm : m ≠ []) (h : Lockstep es p (f m) a b) :
    Lockstep ((.left, key_, m) :: es) (send key_ m p) (RecvChecked.bind f) a b := by
  rw [RecvChecked_bind]
  refine .left ?_
  rw [if_neg hm]
  exact h

/-- The server sends, and the client receives and goes on. -/
theorem toClient {f : Bytes → Steps α} {q : Steps β} (hm : m ≠ []) (h : Lockstep es (f m) q a b) :
    Lockstep ((.right, key_, m) :: es) (RecvChecked.bind f) (send key_ m q) a b := by
  rw [RecvChecked_bind]
  refine .right ?_
  rw [if_neg hm]
  exact h

end Lockstep

theorem psiResStr_ne_nil (responses : Protobuf Response) (setups : Protobuf ServerSetup)
    (response : Response) (setup : ServerSetup) :
    psiResStr responses setups response setup ≠ [] := by
  intro h
  have hlen := congrArg List.length h
  simp [psiResStr, Framing.length_bigEndian] at hlen

theorem ParsePsiResponse_psiResStr {response : Response} {setup : ServerSetup} {str str' : Bytes}
    (hresponse : S.responses.serialize response = some str)
    (hsetup : S.setups.serialize setup = some str') (hset : setup.data_structure ≠ .notSet) :
    ParsePsiResponse S (psiResStr S.responses S.setups response setup) =
      ret ⟨setup, response.encrypted_elements⟩ := by
  rw [ParsePsiResponse, ParsePsiResponseFromeString, if_neg Bool.false_ne_true,
    readMessages_psiResStr hresponse hsetup]
  simp only [if_neg hset]

theorem initParam_BuildInitParam (n : ℕ) : initParam (BuildInitParam n) = ret (n, true) := rfl

/-- `OnExecute` of the two parties. -/
theorem lockstep_execute (hexact : S.Exact client server) (hfits : S.Fits client server) :
    ∃ es result, Lockstep es (ExecuteAsClient S client) (ExecuteAsServer S server) result () ∧
      S.IsResult client server result := by
  obtain ⟨params, hparams, hparams_ne⟩ := hfits.params
  obtain ⟨request, hrequest, hrequest_ne⟩ := hfits.request
  obtain ⟨response, hresponse⟩ := hfits.response
  obtain ⟨setup, hsetup⟩ := hfits.setup
  obtain ⟨result, hresult, hasked⟩ := atPositions_of_exact hexact
  have hset := S.lib.setup_set (S.psi_server true) client.length server
  -- from the last message to the first
  have hresponse' := toClient (f := fun str => (ParsePsiResponse S str).bind
      (GetIntersection S client)) (q := ret ()) (psiResStr_ne_nil S.responses S.setups _ _) (by
    rw [ParsePsiResponse_psiResStr hresponse hsetup hset, ret_bind, GetIntersection, if_neg hset]
    show Lockstep [] (ofOption Failure.memory
      (atPositions S client (S.positions client server))) (ret ()) result ()
    rw [hresult]
    exact .ret result ())
  have hrequest' := toServer (f := fun str => Send (psiResStr S.responses S.setups
      (S.lib.ProcessRequest (S.psi_server true) (S.requests.parse str))
      (S.lib.CreateSetupMessage (S.psi_server true) client.length server))) hrequest_ne (by
    rw [S.requests.parse_serialize _ _ hrequest]
    exact hresponse')
  have hclient : ExecuteAsClient S client = send key_ params (send key_ request
      (RecvChecked.bind fun str => (ParsePsiResponse S str).bind (GetIntersection S client))) := by
    rw [ExecuteAsClient, hparams, hrequest]
    rfl
  have hserver : ExecuteAsServer S server = RecvChecked.bind fun str =>
      (initParam (S.params.parse str)).bind fun (n, flag) => RecvChecked.bind fun str' =>
        Send (psiResStr S.responses S.setups
          (S.lib.ProcessRequest (S.psi_server flag) (S.requests.parse str'))
          (S.lib.CreateSetupMessage (S.psi_server flag) n server)) := by
    simp only [ExecuteAsServer, RecvInitParam, InitRequest, bind_assoc, ret_bind]
  rw [hclient, hserver]
  exact ⟨_, result, toServer hparams_ne (by
    rw [S.params.parse_serialize _ _ hparams, initParam_BuildInitParam, ret_bind]
    exact hrequest'), hasked⟩

/-! ## The end of the session -/

/-- The code of an empty string makes no difference. -/
theorem receiveResult_code (limit : ℕ) (data : Bytes) :
    ReceiveResult limit (if data = [] then .FAIL else .SUCCESS, data) [] =
      ReceiveResult limit (.SUCCESS, data) [] := by
  by_cases h : data = []
  · simp [ReceiveResult, h]
  · rw [if_neg h]

/-- The client's result is synchronised, if it is. -/
theorem lockstep_sync (hfits : S.Fits client server) {result : List Bytes}
    (hasked : S.IsResult client server result) :
    ∃ es, Lockstep es
      (if S.sync_result then (Send (resultStr result)).bind fun _ => ret result else ret result)
      (if S.sync_result then receiveResult S else ret []) result
      (if S.sync_result then result else []) := by
  cases S.sync_result with
  | false => exact ⟨_, .ret result []⟩
  | true =>
      have hitems : ∀ item ∈ result, item.length ≤ S.limit := by
        intro item hitem
        refine hfits.items item ?_
        unfold Setting.IsResult at hasked
        cases htype : S.psi_result_type with
        | INTERSECTION =>
            rw [htype] at hasked
            exact List.mem_of_mem_filter (hasked.mem_iff.mp hitem)
        | DIFFERENCE =>
            rw [htype] at hasked
            rw [hasked] at hitem
            exact List.mem_of_mem_filter hitem
      exact ⟨_, .left (by
        simp only [ret_bind, receiveResult_code, receiveResult_resultStr hfits.limit hitems,
          List.nil_append, if_true]
        exact .ret result result)⟩

/-- **Both parties come to their ends, in every order of their steps, exactly if none of them has an
empty input.** The client then has the elements it is asked for, and the server has them too if the
result is synchronised. -/
theorem execute_runsTogether_iff (hexact : S.Exact client server) (hfits : S.Fits client server) :
    RunsTogether (ExecuteClient S client) (ExecuteServer S server) (fun result received =>
      S.IsResult client server result ∧ received = if S.sync_result then result else []) ↔
      client ≠ [] ∧ server ≠ [] := by
  constructor
  · intro h
    constructor
    · intro hempty
      have hsafe := h.safe
      rw [ExecuteClient, if_pos hempty] at hsafe
      exact hsafe.not_raise_left
    · intro hempty
      have hsafe := h.safe
      rw [ExecuteServer, if_pos hempty] at hsafe
      exact hsafe.not_raise_right
  · rintro ⟨hclient, hserver⟩
    obtain ⟨es, result, hexec, hasked⟩ := lockstep_execute hexact hfits
    obtain ⟨es', hsync⟩ := lockstep_sync hfits hasked
    rw [ExecuteClient, ExecuteServer, if_neg hclient, if_neg hserver]
    exact (hexec.bind hsync).runsTogether ⟨hasked, rfl⟩

/-- A library for elements of one byte that hides nothing. -/
def clearLibrary : PsiLibrary where
  PsiClient := Unit
  PsiServer := Unit
  Request := List Bytes
  CreateRequest _ input := input
  CreateSetupMessage _ _ input := { bits := input.flatten, data_structure := .gcs 1 1 }
  ProcessRequest _ request := { encrypted_elements := request }
  GetIntersection _ setup response :=
    (response.encrypted_elements.zipIdx.filter fun e => e.1.all fun byte => byte ∈ setup.bits).map
      Prod.snd
  setup_set _ _ _ := by simp

/-- The client has `a` and `b`, the server has `b`. -/
def oneCommon : Setting where
  lib := clearLibrary
  psi_client := ()
  psi_server _ := ()
  params := onlyMessage (BuildInitParam 2) [1] (by decide)
  requests := onlyMessage (M := List Bytes) [[97], [98]] [2] (by decide)
  responses := onlyMessage ⟨[[97], [98]]⟩ [3] (by decide)
  setups := onlyMessage ⟨[98], .gcs 1 1⟩ [4] (by decide)
  limit := 1024
  psi_result_type := .INTERSECTION
  sync_result := true

theorem execute_runsTogether_oneCommon :
    RunsTogether (ExecuteClient oneCommon [[97], [98]]) (ExecuteServer oneCommon [[98]])
      (fun result received => oneCommon.IsResult [[97], [98]] [[98]] result ∧ received = result) := by
  have hexact : oneCommon.Exact [[97], [98]] [[98]] := by
    have hpos : oneCommon.positions [[97], [98]] [[98]] = [1] := by decide
    refine ⟨by rw [hpos]; decide, fun i => ?_⟩
    rw [hpos]
    rcases i with _ | _ | i <;> simp
  have hfits : oneCommon.Fits [[97], [98]] [[98]] :=
    ⟨⟨[1], by decide, by decide⟩, ⟨[2], by decide, by decide⟩, ⟨[3], by decide⟩, ⟨[4], by decide⟩,
      by norm_num [oneCommon], by decide⟩
  exact (execute_runsTogether_iff hexact hfits).mpr ⟨by decide, by decide⟩

end Fediux.Psi.EcdhSession
