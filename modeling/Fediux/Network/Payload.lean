import Fediux.Basic.Chunks
import Fediux.Network.GrpcChannel

set_option autoImplicit false

/-! # Payloads cut into messages and put together again

Three functions cut a payload: `GrpcChannel::buildTaskRequest` for data that is sent,
`VMNodeInterface::BuildTaskResponse` for data that is asked for, and
`VMNodeInterface::BuildTaskRequest` for data that is forwarded to another process. Each has a
receiving loop of its own.
-/

namespace Fediux.Network

open Fediux.Node Chunks

/-- The loop over `sended_size`, which the three functions have in common: the data of the
messages. -/
def packages (data : Bytes) : List Bytes := chunks limitedPackageSize_pos data

/-- `rpc::TaskResponse` with the fields that `BuildTaskResponse` fills. It has no task
information and no key. -/
structure DataResponse extends TaskResponse where
  dataLen : Nat
  data : Bytes
  deriving DecidableEq, Repr

def BuildTaskResponse (data : Bytes) : List DataResponse :=
  (packages data).map fun package =>
    { retCode := .SUCCESS, dataLen := data.length, data := package }

def BuildTaskRequest (t : TaskInfo) (key : Str) (data : Bytes) : List TaskRequest :=
  (packages data).map fun package =>
    { taskInfo := t, role := key, dataLen := data.length, data := package }

/-! ## The receiving loops -/

/-- The loop of `GrpcChannel::sendRecv` over the responses: it appends to what `recvData`
holds. -/
def sendRecvLoop (recvData : Bytes) (responses : List DataResponse) : Bytes :=
  responses.foldl (fun buf response => buf ++ response.data) recvData

/-- The loop of `GrpcChannel::forwardRecv`. -/
def forwardRecvLoop (requests : List TaskRequest) : Bytes :=
  requests.foldl (fun tmpBuff request => tmpBuff ++ request.data) []

/-! ## The messages of a payload -/

/-- The messages `ms` are a good cut of the payload: there is one, none is too large, their
metadata are `info`, and the receiver gets the payload back. -/
structure CutOf {M I : Type} (payload : M → Bytes) (metadata : M → I) (info : I)
    (join : List M → Bytes) (data : Bytes) (ms : List M) : Prop where
  nonempty : ms ≠ []
  bounded : ∀ m ∈ ms, (payload m).length ≤ limitedPackageSize
  same : ∀ m ∈ ms, metadata m = info
  joined : join ms = data

theorem foldl_append {M : Type} (payload : M → Bytes) (buf : Bytes) (ms : List M) :
    ms.foldl (fun buf m => buf ++ payload m) buf = buf ++ (ms.map payload).flatten := by
  induction ms generalizing buf with
  | nil => exact (List.append_nil buf).symm
  | cons m ms ih => rw [List.foldl_cons, ih, List.map_cons, List.flatten_cons, List.append_assoc]

/-- What the messages made of the packages have in common, for every kind of message. -/
theorem cutOf_packages {M I : Type} {payload : M → Bytes} {metadata : M → I} {info : I}
    {join : List M → Bytes} (data : Bytes) (message : Bytes → M)
    (hpayload : ∀ package, payload (message package) = package)
    (hmeta : ∀ package, metadata (message package) = info)
    (hjoin : ∀ ms, join ms = (ms.map payload).flatten) :
    CutOf payload metadata info join data ((packages data).map message) := by
  constructor
  · intro h
    exact chunksFrom_ne_nil limitedPackageSize_pos data 0 (List.map_eq_nil_iff.mp h)
  · intro m hm
    obtain ⟨package, hpackage, rfl⟩ := List.mem_map.mp hm
    rw [hpayload]
    exact length_le_of_mem_chunksFrom limitedPackageSize_pos data 0 package hpackage
  · intro m hm
    obtain ⟨package, -, rfl⟩ := List.mem_map.mp hm
    exact hmeta package
  · have hid : payload ∘ message = id := funext hpayload
    rw [hjoin, List.map_map, hid, List.map_id]
    exact flatten_chunks limitedPackageSize_pos data

/-- The messages of `buildTaskRequest` are made of the same packages. -/
theorem buildFrom_eq_packages (t : TaskInfo) (role : Str) (data : Bytes) (sended : Nat)
    (h : sended ≤ data.length) :
    buildFrom t role data.length (data.drop sended) =
      (chunksFrom limitedPackageSize_pos data sended).map fun package =>
        { taskInfo := t, role := role, dataLen := data.length, data := package } := by
  induction sended using chunksFrom.induct limitedPackageSize_pos data with
  | case1 sended len ih =>
      have hlen : len = min limitedPackageSize (data.length - sended) := rfl
      rw [buildFrom, chunksFrom, List.map_cons, List.length_drop]
      have htake : (data.drop sended).take limitedPackageSize = (data.drop sended).take len := by
        rw [List.take_eq_take_iff, List.length_drop]
        omega
      rw [htake]
      refine congrArg₂ List.cons rfl ?_
      by_cases hmore : sended + len < data.length
      · have hfull : sended + limitedPackageSize = sended + len := by omega
        rw [if_neg (by omega), if_pos hmore, List.drop_drop, hfull]
        exact ih hmore (by omega)
      · rw [if_pos (by omega), if_neg hmore]
        rfl

theorem buildTaskRequest_eq_packages (t : TaskInfo) (role : Str) (data : Bytes) :
    buildTaskRequest t role data = (packages data).map fun package =>
      { taskInfo := t, role := role, dataLen := data.length, data := package } :=
  buildFrom_eq_packages t role data 0 (Nat.zero_le _)

/-- The task information, the key and the length in a message. -/
def TaskRequest.metadata (m : TaskRequest) : TaskInfo × Str × Nat :=
  (m.taskInfo, m.role, m.dataLen)

def DataResponse.metadata (m : DataResponse) : Retcode × Nat := (m.retCode, m.dataLen)

/-- **Every payload is cut and put together again, on the three paths.** The receiver of
`Send` takes the task information and the key from the first message. -/
theorem cutOf_payload (t : TaskInfo) (key : Str) (data : Bytes) :
    CutOf TaskRequest.data TaskRequest.metadata (t, key, data.length)
        (fun requests => (readAll requests).receivedData) data (buildTaskRequest t key data) ∧
      (readAll (buildTaskRequest t key data)).taskInfo = t ∧
      (readAll (buildTaskRequest t key data)).key = key ∧
      CutOf DataResponse.data DataResponse.metadata (.SUCCESS, data.length)
        (sendRecvLoop []) data (BuildTaskResponse data) ∧
      CutOf TaskRequest.data TaskRequest.metadata (t, key, data.length)
        forwardRecvLoop data (BuildTaskRequest t key data) := by
  refine ⟨?_, ?_, ?_, ?_, ?_⟩
  · rw [buildTaskRequest_eq_packages]
    exact cutOf_packages data _ (fun _ => rfl) (fun _ => rfl) receivedData_readAll
  · rw [readAll_buildTaskRequest]
  · rw [readAll_buildTaskRequest]
  · exact cutOf_packages data _ (fun _ => rfl) (fun _ => rfl)
      fun ms => foldl_append DataResponse.data [] ms
  · exact cutOf_packages data _ (fun _ => rfl) (fun _ => rfl)
      fun ms => foldl_append TaskRequest.data [] ms

end Fediux.Network
