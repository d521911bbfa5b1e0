import Fediux.Basic.ReturnCodes
import Fediux.Psi.ResultBytes

set_option autoImplicit false

/-! # The failures of a PSI task

The return codes of the PSI operators (`kernel/psi/operator/`), of the broadcast of the result
and of `PsiTask` (`task/semantic/psi_task.cc`). Which of the steps fail is given; a step is a
call that returns `FAIL` or `false`, or a test of a function that returns `FAIL` by itself.
Exceptions leave all of these functions and are not modelled.
-/

namespace Fediux.Psi

open Node (Bytes)
open ReturnCodes (AnyFails Keeps Run State)

/-! ## What a party has -/

/-- The names of the parties of a task. -/
inductive Party where
  | PARTY_CLIENT
  | PARTY_SERVER
  | PARTY_TEE_COMPUTE
  | other (party_name : String)
  deriving DecidableEq, Repr

inductive PsiType where
  | ECDH
  | KKRT
  | TEE
  deriving DecidableEq, Repr

inductive PsiResultType where
  | INTERSECTION
  | DIFFERENCE
  deriving DecidableEq, Repr

/-- The functions of `EcdhPsiOperator` that test `has_stopped()`. -/
inductive EcdhFunction where
  | ExecuteAsClient
  | BuildInitParam
  | SendPSIRequestAndWaitResponse
  | ParsePsiResponseFromeString
  | GetIntersection
  | ExecuteAsServer
  | RecvInitParam
  | InitRequest
  | PreparePSIResponse
  deriving DecidableEq, Repr

inductive Step where
  -- `PsiTask` and the factory
  | LoadParams
  | LoadDataset
  | executor
  | SaveDataToCSVFile
  -- tests
  | inputNotEmpty
  | partyNameValid
  | responseNotEmpty
  | findParty (party_name : Party)
  | CHECK_TASK_STOPPED (caller : EcdhFunction)
  -- ECDH
  | SerializeToString
  | sendInitParam
  | sendRequest
  | recvResponse
  | data_structure_case
  | recvInitParam
  | dataset_size
  | reveal_intersection
  | recvRequest
  | sendResponse
  -- TEE
  | build_ratls_channel
  | hashInit
  | encrypt_data_with_sharekey
  | sendData
  | recvCipherResult
  | get_plain_size
  | decrypt_data_with_sharekey
  | recvData (provider : Party)
  | decrypt_data_with_sharekey_inside (provider : Party)
  | do_compute
  | encrypt_data_with_sharekey_inside
  | sendCipherResult
  -- the broadcast
  | sendResult (party : Party)
  | recvResult
  deriving DecidableEq, Repr

/-- One party in one run: its parameters, which steps fail, and the data that the steps give.
The positions come from the protocol; `plain_result` is what the buffer of the decryption has
after the call; `sent` is the result that the client broadcasts, and `leftover` what a `Recv`
that fails leaves in the buffer for it. -/
structure Env where
  party_name : Party
  party_info : List Party
  psi_result_type : PsiResultType
  sync_result : Bool
  input : List Bytes
  ret : Step → Node.Retcode
  intersection_index : List (Fin input.length)
  response_str : Bytes
  hashToString : Bytes → Bytes
  plain_result : Bytes
  sent : List Bytes
  leftover : Bytes
  limit : ℕ
  limit_lt : limit < 256 ^ 8
  sent_fits : ∀ item ∈ sent, item.length ≤ limit

/-- The code of a test. -/
def code (passed : Bool) : Node.Retcode := if passed then .SUCCESS else .FAIL

/-- The outcome of a step; the tests look at the data. -/
def Env.outcome (env : Env) : Step → Node.Retcode
  | .inputNotEmpty => code !env.input.isEmpty
  | .partyNameValid => code (env.party_name = .PARTY_CLIENT ∨ env.party_name = .PARTY_SERVER)
  | .responseNotEmpty => code !env.response_str.isEmpty
  | .findParty party_name => code (party_name ∈ env.party_info)
  | step => env.ret step

def fails (ret : Node.Retcode) : Bool := ret ≠ .SUCCESS

/-- The steps that fail. -/
def Env.Failing (env : Env) (step : Step) : Prop := fails (env.outcome step) = true

instance (env : Env) : DecidablePred env.Failing :=
  fun _ => inferInstanceAs (Decidable (_ = true))

/-- A function of the operators; its data is `*result`. -/
abbrev Prog := Run Step (List Bytes) Node.Retcode

section

variable (env : Env)

def perform (step : Step) : Prog := Run.perform env.outcome step

def SUCCESS : Prog := pure .SUCCESS

def CHECK_RETCODE (m k : Prog) : Prog := Run.check fails .FAIL m k

def CHECK_TASK_STOPPED (caller : EcdhFunction) (k : Prog) : Prog :=
  CHECK_RETCODE (perform env (.CHECK_TASK_STOPPED caller)) k

/-- `m;` -/
def drop (m k : Prog) : Prog := m >>= fun _ => k

/-! ## `BasePsiOperator` -/

/-- The other party of a protocol of two. -/
def peerName : Party → Party
  | .PARTY_CLIENT => .PARTY_SERVER
  | _ => .PARTY_CLIENT

def GetNodeByName (party_name : Party) : Prog := perform env (.findParty party_name)

/-- `PeerNode`, called by the constructor; `k` is what follows. -/
def PeerNode (k : Prog) : Prog :=
  if env.party_name = .PARTY_CLIENT ∨ env.party_name = .PARTY_SERVER then
    drop (GetNodeByName env (peerName env.party_name)) k
  else k

/-- `GetResult`, which has no step that fails. -/
def GetResult : List Bytes :=
  match env.psi_result_type with
  | .DIFFERENCE =>
      ((List.finRange env.input.length).filter (· ∉ env.intersection_index)).map env.input.get
  | .INTERSECTION => env.intersection_index.map env.input.get

/-- `BroadcastPartyList`. -/
def BroadcastPartyList : List Party :=
  env.party_info.filter fun party_name =>
    !(party_name = env.party_name || party_name = .PARTY_TEE_COMPUTE)

def BroadcastResult : Prog :=
  (BroadcastPartyList env).foldr (fun party k => drop (perform env (.sendResult party)) k) SUCCESS

/-- The buffer of `ReceiveResult`. -/
def Env.recv_data_str : Bytes :=
  if env.outcome .recvResult = .SUCCESS then resultStr env.sent else env.leftover

namespace BasePsiOperator

/-- A fault is not reached: `receiveResult_ne_error`. -/
def ReceiveResult : Prog := do
  let ret ← perform env .recvResult
  let result ← Run.get
  match Psi.ReceiveResult env.limit (ret, env.recv_data_str) result with
  | .ok (ret, result) => Run.modify (fun _ => result) >>= fun _ => pure ret
  | .error _ => pure .FAIL

end BasePsiOperator

def BroadcastPsiResult : Prog :=
  if env.party_name = .PARTY_TEE_COMPUTE then SUCCESS
  else if env.party_name = .PARTY_CLIENT then BroadcastResult env
  else BasePsiOperator.ReceiveResult env

/-! ## `EcdhPsiOperator` -/

namespace EcdhPsiOperator

def BuildInitParam : Prog :=
  CHECK_TASK_STOPPED env .BuildInitParam <|
  CHECK_RETCODE (perform env .SerializeToString) SUCCESS

def ParsePsiResponseFromeString : Prog :=
  CHECK_TASK_STOPPED env .ParsePsiResponseFromeString <|
  CHECK_RETCODE (perform env .data_structure_case) SUCCESS

def SendPSIRequestAndWaitResponse : Prog :=
  CHECK_TASK_STOPPED env .SendPSIRequestAndWaitResponse <|
  CHECK_RETCODE (perform env .sendRequest) <|
  CHECK_RETCODE (perform env .recvResponse) <|
  CHECK_RETCODE (perform env .responseNotEmpty) <|
  ParsePsiResponseFromeString env

def GetIntersection : Prog :=
  CHECK_TASK_STOPPED env .GetIntersection <|
  CHECK_RETCODE (perform env .data_structure_case) <|
  Run.modify (fun result => result ++ GetResult env) >>= fun _ => SUCCESS

/-- The code of `BuildInitParam` is not looked at. -/
def ExecuteAsClient : Prog :=
  CHECK_TASK_STOPPED env .ExecuteAsClient <|
  drop (BuildInitParam env) <|
  CHECK_RETCODE (perform env .sendInitParam) <|
  CHECK_RETCODE (SendPSIRequestAndWaitResponse env) <|
  CHECK_RETCODE (GetIntersection env) SUCCESS

def RecvInitParam : Prog :=
  CHECK_TASK_STOPPED env .RecvInitParam <|
  CHECK_RETCODE (perform env .recvInitParam) <|
  CHECK_RETCODE (perform env .dataset_size) <|
  CHECK_RETCODE (perform env .reveal_intersection) SUCCESS

def InitRequest : Prog :=
  CHECK_TASK_STOPPED env .InitRequest <|
  CHECK_RETCODE (perform env .recvRequest) SUCCESS

def PreparePSIResponse : Prog :=
  CHECK_TASK_STOPPED env .PreparePSIResponse <|
  CHECK_RETCODE (perform env .sendResponse) SUCCESS

/-- The code of `PreparePSIResponse` is not looked at. -/
def ExecuteAsServer : Prog :=
  CHECK_TASK_STOPPED env .ExecuteAsServer <|
  CHECK_RETCODE (RecvInitParam env) <|
  CHECK_RETCODE (InitRequest env) <|
  drop (PreparePSIResponse env) SUCCESS

def OnExecute : Prog :=
  CHECK_RETCODE (perform env .inputNotEmpty) <|
  if env.party_name = .PARTY_CLIENT then ExecuteAsClient env
  else if env.party_name = .PARTY_SERVER then ExecuteAsServer env
  else perform env .partyNameValid

end EcdhPsiOperator

/-! ## `KkrtPsiOperator` -/

namespace KkrtPsiOperator

/-- The failures that give a null pointer. -/
def BuildChannelInterface : Prog :=
  CHECK_RETCODE (perform env .partyNameValid) <|
  CHECK_RETCODE (perform env (.findParty (peerName env.party_name))) SUCCESS

/-- `KkrtRecv` and `KkrtSend` return nothing but `SUCCESS`: the channel throws. -/
def OnExecute : Prog :=
  CHECK_RETCODE (perform env .inputNotEmpty) <|
  CHECK_RETCODE (BuildChannelInterface env) <|
  if env.party_name = .PARTY_CLIENT then Run.modify (fun _ => GetResult env) >>= fun _ => SUCCESS
  else SUCCESS

end KkrtPsiOperator

/-! ## `TeePsiOperator` -/

namespace TeePsiOperator

def GetComputeNode : Prog := GetNodeByName env .PARTY_TEE_COMPUTE

/-- `hashed_data` of `HashData`: an item that is there stays. -/
def hashed_data : List (Bytes × Bytes) :=
  env.input.foldl (fun hashed_data item =>
    if (hashed_data.lookup (env.hashToString item)).isSome then hashed_data
    else hashed_data ++ [(env.hashToString item, item)]) []

/-- What `GetIntersection` finds. -/
def intersection : List Bytes :=
  let hash_size := ((hashed_data env).headD ([], [])).1.length
  (List.range (env.plain_result.length / hash_size)).filterMap fun i =>
    (hashed_data env).lookup ((env.plain_result.drop (i * hash_size)).take hash_size)

/-- The outcome of the decryption is not looked at: its branch is `retcode::FAIL;`. -/
def DecryptDataWithShareKey : Prog :=
  CHECK_RETCODE (perform env .get_plain_size) <|
  if env.plain_result = [] then SUCCESS
  else drop (GetComputeNode env) <| drop (perform env .decrypt_data_with_sharekey) SUCCESS

def GetIntersection : Prog :=
  Run.modify (fun result => result ++ intersection env) >>= fun _ => SUCCESS

/-- What a data provider does after its data is sent. -/
def receiveIntersection : Prog :=
  if env.party_name = .PARTY_CLIENT then
    CHECK_RETCODE (perform env .recvCipherResult) <|
    Run.check fails .SUCCESS (DecryptDataWithShareKey env) <|
    if env.plain_result = [] then SUCCESS
    else CHECK_RETCODE (GetIntersection env) SUCCESS
  else SUCCESS

def ExecuteAsDataProvider : Prog :=
  CHECK_RETCODE (GetComputeNode env) <|
  CHECK_RETCODE (perform env .build_ratls_channel) <|
  CHECK_RETCODE (perform env .hashInit) <|
  CHECK_RETCODE (perform env .encrypt_data_with_sharekey) <|
  drop (GetNodeByName env env.party_name) <|
  drop (perform env .sendData) <|
  receiveIntersection env

/-- `GetDataProviderNode`. -/
def data_provider : List Party :=
  env.party_info.filter fun party_name => !(party_name = env.party_name)

def ReceiveDataFromDataProvider : Prog :=
  (data_provider env).foldr (fun node k =>
    CHECK_RETCODE (CHECK_RETCODE (perform env (.recvData node))
      (perform env (.decrypt_data_with_sharekey_inside node))) k) SUCCESS

def SendEncryptedResult : Prog :=
  CHECK_RETCODE (GetNodeByName env .PARTY_CLIENT) <|
  CHECK_RETCODE (perform env .encrypt_data_with_sharekey_inside) <|
  CHECK_RETCODE (perform env .sendCipherResult) SUCCESS

def ExecuteAsCompute : Prog :=
  CHECK_RETCODE (ReceiveDataFromDataProvider env) <|
  CHECK_RETCODE (perform env .do_compute) <|
  CHECK_RETCODE (SendEncryptedResult env) SUCCESS

/-- Both codes are assigned, and `SUCCESS` is returned. -/
def OnExecute : Prog :=
  if env.party_name = .PARTY_TEE_COMPUTE then drop (ExecuteAsCompute env) SUCCESS
  else
    CHECK_RETCODE (perform env .inputNotEmpty) <|
    drop (ExecuteAsDataProvider env) SUCCESS

end TeePsiOperator

/-! ## `PsiTask` -/

variable (op : PsiType)

def OnExecute : Prog :=
  match op with
  | .ECDH => EcdhPsiOperator.OnExecute env
  | .KKRT => KkrtPsiOperator.OnExecute env
  | .TEE => TeePsiOperator.OnExecute env

/-- `BasePsiOperator::Execute`. -/
def Execute : Prog :=
  CHECK_RETCODE (OnExecute env op) <|
  if env.sync_result then BroadcastPsiResult env else SUCCESS

namespace PsiTask

/-- `result_`, and what has been saved. -/
structure Data where
  result : List Bytes
  saved : Option (List Bytes)
  deriving DecidableEq, Repr

def LoadParams : Prog := perform env .LoadParams

def LoadDataset : Prog := perform env .LoadDataset

/-- Only the factory's function for TEE may give a null pointer. -/
def InitOperator : Prog :=
  match op with
  | .TEE => CHECK_RETCODE (perform env .executor) (PeerNode env SUCCESS)
  | _ => PeerNode env SUCCESS

def NeedSaveResult : Bool :=
  if env.party_name = .PARTY_TEE_COMPUTE then false
  else if env.party_name = .PARTY_SERVER ∧ !env.sync_result then false
  else true

def onResult (m : Prog) : Run Step Data Node.Retcode :=
  Run.focus Data.result (fun data result => { data with result }) m

def SaveResult : Run Step Data Node.Retcode :=
  if NeedSaveResult env then
    Run.check fails .FAIL (Run.perform env.outcome .SaveDataToCSVFile) <|
    Run.modify (fun data => { data with saved := some data.result }) >>= fun _ => pure .SUCCESS
  else pure .SUCCESS

/-- `BREAK_LOOP_BY_RETCODE`, and the exception behind the loop. -/
def BREAK_LOOP_BY_RETCODE (error_msg : String) (m : Run Step Data Node.Retcode)
    (k : Run Step Data (Except String ℤ)) : Run Step Data (Except String ℤ) :=
  Run.check fails (.error error_msg) m k

def execute : Run Step Data (Except String ℤ) :=
  BREAK_LOOP_BY_RETCODE "Psi load task params failed." (onResult (LoadParams env)) <|
  BREAK_LOOP_BY_RETCODE "Psi load dataset failed." (onResult (LoadDataset env)) <|
  BREAK_LOOP_BY_RETCODE "Psi init operator failed." (onResult (InitOperator env op)) <|
  BREAK_LOOP_BY_RETCODE "Psi execute operator failed." (onResult (Execute env op)) <|
  BREAK_LOOP_BY_RETCODE "Psi save result failed." (SaveResult env) <|
  pure (.ok 0)

/-- The loop of `ExecuteTask`, with the code that it leaves in `ret`; the operator's code is not
assigned to `ret`. -/
def executeTaskLoop : Prog :=
  CHECK_RETCODE (LoadParams env) <|
  CHECK_RETCODE (InitOperator env op) <|
  drop (Execute env op) SUCCESS

def ExecuteTask : Prog := drop (executeTaskLoop env op) SUCCESS

end PsiTask

end

end Fediux.Psi
