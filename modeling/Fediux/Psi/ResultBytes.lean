import Fediux.Basic.Framing
import Fediux.Node.Receive

set_option autoImplicit false

/-! # The bytes of PSI results and responses

The client of a PSI task sends its result to the other party as blocks with a length in front
(`BroadcastResult`, `ReceiveResult` in `kernel/psi/operator/base_psi.cc`), and the server of the
ECDH protocol packs its two messages in the same way (`PreparePSIResponse`,
`ParsePsiResponseFromeString` in `ecdh_psi.cc`). Neither reader compares a length with what it
has received.
-/

namespace Fediux.Psi

open Framing (bigEndian block blocks parse readAt value)
open Node (Bytes)

/-! ## `BasePsiOperator` -/

/-- The string that `BroadcastResult` sends. -/
def resultStr (result : List Bytes) : Bytes :=
  result.foldl (fun result_str item => result_str ++ bigEndian 8 item.length ++ item) []

/-- What `c_str()` has after the characters of a string. -/
def terminator : Bytes := [0]

/-- `ReceiveResult`, where `recv` is the outcome of `Recv`; a string of more than `limit`
characters cannot be made and ends it with an exception. -/
def ReceiveResult (limit : ℕ) (recv : Node.Retcode × Bytes) (result : List Bytes) :
    Except Framing.Fault (Node.Retcode × List Bytes) :=
  let (ret, recv_data_str) := recv
  if ret ≠ .SUCCESS ∧ recv_data_str ≠ [] then .ok (.FAIL, result)
  else (parse limit terminator recv_data_str).map fun items => (.SUCCESS, result ++ items)

/-! ## `EcdhPsiOperator` -/

/-- The `oneof` of a server setup. -/
inductive DataStructure where
  | notSet
  | gcs (div hash_range : ℤ)
  | bloomFilter (num_hash_functions : ℤ)
  deriving DecidableEq, Repr

/-- `ServerSetup`, the same in `psi_proto` and `rpc`. -/
structure ServerSetup where
  bits : Bytes
  data_structure : DataStructure
  deriving DecidableEq, Repr

/-- `psi_proto::Response`. -/
structure Response where
  encrypted_elements : List Bytes
  deriving DecidableEq, Repr

/-- `rpc::PsiResponse`. -/
structure PsiResponse where
  server_setup : ServerSetup
  encrypted_elements : List Bytes
  deriving DecidableEq, Repr

/-- Protobuf for one type of messages: serialisation fails for messages of 2 GiB and more, and
otherwise parsing inverts it. Parsing may stop anywhere in other bytes. -/
structure Protobuf (M : Type) where
  serialize : M → Option Bytes
  parse : Bytes → M
  parse_serialize : ∀ m bytes, serialize m = some bytes → parse bytes = m
  length_serialize : ∀ m bytes, serialize m = some bytes → bytes.length < 2 ^ 31

variable (responses : Protobuf Response) (setups : Protobuf ServerSetup)

/-- The string of `PreparePSIResponse`; the outcomes of the serialisations are not looked at. -/
def psiResStr (server_response : Response) (server_setup : ServerSetup) : Bytes :=
  let response_str := (responses.serialize server_response).getD []
  let setup_info_str := (setups.serialize server_setup).getD []
  bigEndian 8 response_str.length ++ response_str ++ bigEndian 8 setup_info_str.length ++
    setup_info_str

/-- A length of 64 bits as an `int`. -/
def toInt (len : ℕ) : ℤ := (len : ℤ).bmod (2 ^ 32)

/-- The bytes that `ParseFromArray` is given with a length of 64 bits. -/
def arrayAt (memory : Bytes) (offset len : ℕ) : Option Bytes :=
  if toInt len < 0 then none else readAt memory offset (toInt len).toNat

/-- A message with its length in front, and where it ends; none if a read leaves the memory. -/
def readMessage {M : Type} (messages : Protobuf M) (memory : Bytes) (offset : ℕ) :
    Option (M × ℕ) := do
  let be_len ← readAt memory offset 8
  let bytes ← arrayAt memory (offset + 8) (value be_len)
  return (messages.parse bytes, offset + 8 + value be_len)

/-- The two messages in a response. -/
def readMessages (response_str : Bytes) : Option (Response × ServerSetup) := do
  let (psi_response, offset) ← readMessage responses (response_str ++ terminator) 0
  let (setup_info, _) ← readMessage setups (response_str ++ terminator) offset
  return (psi_response, setup_info)

/-- `ParsePsiResponseFromeString` into a new message, which is not used if the call fails. -/
def ParsePsiResponseFromeString (stopped : Bool) (response_str : Bytes) :
    Except Framing.Fault (Node.Retcode × Option PsiResponse) :=
  if stopped then .ok (.FAIL, none)
  else
    match readMessages responses setups response_str with
    | none => .error .outside
    | some (psi_response, setup_info) =>
        if setup_info.data_structure = .notSet then .ok (.FAIL, none)
        else .ok (.SUCCESS, some
          { server_setup := setup_info
            encrypted_elements := psi_response.encrypted_elements })

/-! ## Round trips -/

theorem resultStr_eq_blocks (result : List Bytes) : resultStr result = blocks result := by
  have hloop : ∀ pre, result.foldl (fun result_str item =>
      result_str ++ bigEndian 8 item.length ++ item) pre = pre ++ blocks result := by
    induction result with
    | nil => exact fun pre => (List.append_nil pre).symm
    | cons item result ih =>
        intro pre
        rw [List.foldl_cons, ih, Framing.blocks_cons, block, List.append_assoc, List.append_assoc,
          List.append_assoc]
  exact hloop []

theorem receiveResult_resultStr {limit : ℕ} (hlimit : limit < 256 ^ 8) {result : List Bytes}
    (hresult : ∀ item ∈ result, item.length ≤ limit) (before : List Bytes) :
    ReceiveResult limit (.SUCCESS, resultStr result) before = .ok (.SUCCESS, before ++ result) := by
  rw [ReceiveResult, if_neg (by simp), resultStr_eq_blocks, Framing.parse_blocks hlimit hresult]
  rfl

/-- A length below `2 ^ 31` stays the same as an `int`. -/
theorem toInt_of_lt {len : ℕ} (h : len < 2 ^ 31) : toInt len = len := by
  apply Int.bmod_eq_of_le
  · omega
  · norm_num
    omega

theorem arrayAt_of_lt {memory : Bytes} {offset len : ℕ} (h : len < 2 ^ 31) :
    arrayAt memory offset len = readAt memory offset len := by
  rw [arrayAt, toInt_of_lt h, if_neg (by omega), Int.toNat_natCast]

theorem value_length {str : Bytes} (h : str.length < 2 ^ 31) :
    value (bigEndian 8 str.length) = str.length := by
  have hlt : str.length < 256 ^ 8 := h.trans (by norm_num)
  rw [Framing.value_bigEndian, Nat.mod_eq_of_lt hlt]

/-- A message stands in the memory. -/
theorem readMessage_of_drop {M : Type} {messages : Protobuf M} {m : M} {str memory more : Bytes}
    {offset : ℕ} (hm : messages.serialize m = some str) (hoffset : offset ≤ memory.length)
    (h : memory.drop offset = block str ++ more) :
    readMessage messages memory offset = some (m, offset + (block str).length) := by
  have hlt := messages.length_serialize _ _ hm
  have hlength : readAt memory offset 8 = some (bigEndian 8 str.length) := by
    rw [block, List.append_assoc] at h
    have hread := Framing.readAt_of_drop h hoffset
    rwa [Framing.length_bigEndian] at hread
  have hbytes : readAt memory (offset + 8) str.length = some str := by
    have hdrop : memory.drop (offset + 8) = str ++ more := by
      rw [← List.drop_drop, h, block, List.append_assoc]
      exact List.drop_left' (Framing.length_bigEndian 8 str.length)
    have hlen := congrArg List.length h
    rw [List.length_drop, List.length_append, Framing.length_block] at hlen
    exact Framing.readAt_of_drop hdrop (by omega)
  rw [readMessage, hlength, Option.bind_eq_bind, Option.bind_some, value_length hlt,
    arrayAt_of_lt hlt, hbytes, Framing.length_block, ← Nat.add_assoc]
  exact congrArg (fun m => some (m, _)) (messages.parse_serialize _ _ hm)

section

variable {responses setups}

theorem readMessages_psiResStr {server_response : Response} {server_setup : ServerSetup}
    {response_str setup_info_str : Bytes}
    (hresponse : responses.serialize server_response = some response_str)
    (hsetup : setups.serialize server_setup = some setup_info_str) :
    readMessages responses setups (psiResStr responses setups server_response server_setup) =
      some (server_response, server_setup) := by
  have hmemory : psiResStr responses setups server_response server_setup ++ terminator =
      block response_str ++ (block setup_info_str ++ terminator) := by
    rw [psiResStr, hresponse, hsetup]
    simp [block]
  have hfirst := readMessage_of_drop hresponse (Nat.zero_le _) hmemory
  have hdrop : (psiResStr responses setups server_response server_setup ++ terminator).drop
      (0 + (block response_str).length) = block setup_info_str ++ terminator := by
    rw [hmemory, Nat.zero_add, List.drop_left]
  have hsecond := readMessage_of_drop hsetup (by
    rw [hmemory, List.length_append, Nat.zero_add]
    omega) hdrop
  rw [readMessages, hfirst, Option.bind_eq_bind, Option.bind_some]
  show (readMessage setups _ (0 + (block response_str).length)).bind _ = _
  rw [hsecond]
  rfl

end

/-! ## Staying inside the buffer -/

/-- A length and the bytes for `ParseFromArray` are inside. -/
def MessageInside (memory : Bytes) (offset : ℕ) : Prop :=
  let len := value ((memory.drop offset).take 8)
  offset + 8 ≤ memory.length ∧ 0 ≤ toInt len ∧ offset + 8 + (toInt len).toNat ≤ memory.length

/-- Both messages of a response are inside the buffer. -/
def MessagesInside (response_str : Bytes) : Prop :=
  let memory := response_str ++ terminator
  MessageInside memory 0 ∧ MessageInside memory (8 + value (memory.take 8))

theorem readMessage_of_inside {M : Type} (messages : Protobuf M) {memory : Bytes} {offset : ℕ}
    (h : MessageInside memory offset) : ∃ m, readMessage messages memory offset =
      some (m, offset + 8 + value ((memory.drop offset).take 8)) := by
  obtain ⟨hlength, hpos, hbytes⟩ := h
  unfold readMessage arrayAt readAt
  rw [if_pos hlength, Option.bind_eq_bind, Option.bind_some, if_neg (not_lt.mpr hpos),
    if_pos hbytes]
  exact ⟨_, rfl⟩

theorem readMessage_of_not_inside {M : Type} (messages : Protobuf M) {memory : Bytes}
    {offset : ℕ} (h : ¬ MessageInside memory offset) :
    readMessage messages memory offset = none := by
  unfold readMessage arrayAt readAt
  by_cases hlength : offset + 8 ≤ memory.length
  · rw [if_pos hlength, Option.bind_eq_bind, Option.bind_some]
    by_cases hpos : toInt (value ((memory.drop offset).take 8)) < 0
    · rw [if_pos hpos]
      rfl
    · rw [if_neg hpos, if_neg fun hbytes => h ⟨hlength, not_lt.mp hpos, hbytes⟩]
      rfl
  · rw [if_neg hlength]
    rfl

theorem readMessages_ne_none_iff (response_str : Bytes) :
    readMessages responses setups response_str ≠ none ↔ MessagesInside response_str := by
  unfold readMessages MessagesInside
  by_cases hfirst : MessageInside (response_str ++ terminator) 0
  · obtain ⟨psi_response, hread⟩ := readMessage_of_inside responses hfirst
    rw [List.drop_zero, Nat.zero_add] at hread
    rw [hread, Option.bind_eq_bind, Option.bind_some]
    by_cases hsecond : MessageInside (response_str ++ terminator)
        (8 + value ((response_str ++ terminator).take 8))
    · obtain ⟨setup_info, hread₂⟩ := readMessage_of_inside setups hsecond
      simp only [hread₂]
      exact ⟨fun _ => ⟨hfirst, hsecond⟩, fun _ h => by cases h⟩
    · simp only [readMessage_of_not_inside setups hsecond]
      exact ⟨fun h => absurd rfl h, fun h => absurd h.2 hsecond⟩
  · rw [readMessage_of_not_inside responses hfirst]
    exact ⟨fun h => absurd rfl h, fun h => absurd h.1 hfirst⟩

theorem receiveResult_ne_outside_iff {limit : ℕ} (hlimit : limit < 256 ^ 8)
    (recv : Node.Retcode × Bytes) (before : List Bytes) :
    ReceiveResult limit recv before ≠ .error .outside ↔
      (recv.1 ≠ .SUCCESS ∧ recv.2 ≠ []) ∨ Framing.Readable limit terminator recv.2 := by
  obtain ⟨ret, recv_data_str⟩ := recv
  have hparse : parse limit terminator recv_data_str ≠ .error .outside ↔ _ :=
    Framing.parse_ne_outside_iff hlimit (by decide) recv_data_str
  rw [← hparse]
  by_cases hfail : ret ≠ .SUCCESS ∧ recv_data_str ≠ []
  · rw [ReceiveResult, if_pos hfail]
    exact ⟨fun _ => Or.inl hfail, fun _ h => by cases h⟩
  · rw [ReceiveResult, if_neg hfail]
    cases parse limit terminator recv_data_str with
    | ok items => exact ⟨fun _ => Or.inr (fun h => by cases h), fun _ h => by cases h⟩
    | error e =>
        constructor
        · intro h
          exact Or.inr fun he => h (by rw [Except.error.inj he]; rfl)
        · rintro (h | h)
          · exact absurd h hfail
          · exact fun he => h (congrArg Except.error (Except.error.inj he))

theorem parsePsiResponse_ne_outside_iff (stopped : Bool) (response_str : Bytes) :
    ParsePsiResponseFromeString responses setups stopped response_str ≠ .error .outside ↔
      stopped = true ∨ MessagesInside response_str := by
  rw [← readMessages_ne_none_iff responses setups]
  unfold ParsePsiResponseFromeString
  cases stopped with
  | true => exact ⟨fun _ => Or.inl rfl, fun _ h => by cases h⟩
  | false =>
      cases readMessages responses setups response_str with
      | none => simp
      | some messages =>
          obtain ⟨psi_response, setup_info⟩ := messages
          by_cases hset : setup_info.data_structure = .notSet <;> simp [hset]

/-- **What the two formats do**: results and responses are read back, and a reader stays inside
its buffer just when the lengths do. -/
theorem decoding_iff {limit : ℕ} (hlimit : limit < 256 ^ 8) (responses : Protobuf Response)
    (setups : Protobuf ServerSetup) :
    (∀ result before, (∀ item ∈ result, item.length ≤ limit) →
      ReceiveResult limit (.SUCCESS, resultStr result) before = .ok (.SUCCESS, before ++ result)) ∧
    (∀ server_response server_setup, responses.serialize server_response ≠ none →
      setups.serialize server_setup ≠ none → server_setup.data_structure ≠ .notSet →
        ParsePsiResponseFromeString responses setups false
          (psiResStr responses setups server_response server_setup) =
            .ok (.SUCCESS, some ⟨server_setup, server_response.encrypted_elements⟩)) ∧
    (∀ recv before, ReceiveResult limit recv before ≠ .error .outside ↔
      (recv.1 ≠ .SUCCESS ∧ recv.2 ≠ []) ∨ Framing.Readable limit terminator recv.2) ∧
    ∀ stopped response_str,
      ParsePsiResponseFromeString responses setups stopped response_str ≠ .error .outside ↔
        stopped = true ∨ MessagesInside response_str := by
  refine ⟨fun result before hresult => receiveResult_resultStr hlimit hresult before,
    fun server_response server_setup hresponse hsetup hset => ?_,
    receiveResult_ne_outside_iff hlimit, parsePsiResponse_ne_outside_iff responses setups⟩
  obtain ⟨response_str, hresponse⟩ := Option.ne_none_iff_exists'.mp hresponse
  obtain ⟨setup_info_str, hsetup⟩ := Option.ne_none_iff_exists'.mp hsetup
  rw [ParsePsiResponseFromeString, if_neg Bool.false_ne_true,
    readMessages_psiResStr hresponse hsetup]
  exact if_neg hset

/-- Protobuf for one message only. -/
def onlyMessage {M : Type} [DecidableEq M] (m : M) (str : Bytes) (h : str.length < 2 ^ 31) :
    Protobuf M where
  serialize m' := if m' = m then some str else none
  parse _ := m
  parse_serialize m' bytes hm := by
    split at hm
    · exact (‹m' = m›).symm
    · cases hm
  length_serialize m' bytes hm := by
    split at hm
    · cases hm
      exact h
    · cases hm

/-- The empty response is written as no bytes, and an empty GCS setup as a tag and a length. -/
theorem decoding_empty : ParsePsiResponseFromeString (onlyMessage ⟨[]⟩ [] (by decide))
    (onlyMessage ⟨[], .gcs 0 0⟩ [10, 0] (by decide)) false
      (psiResStr (onlyMessage ⟨[]⟩ [] (by decide))
        (onlyMessage ⟨[], .gcs 0 0⟩ [10, 0] (by decide)) ⟨[]⟩ ⟨[], .gcs 0 0⟩) =
      .ok (.SUCCESS, some ⟨⟨[], .gcs 0 0⟩, []⟩) := by
  have hlimit : 1024 < 256 ^ 8 := by norm_num
  have h := decoding_iff hlimit (onlyMessage ⟨[]⟩ [] (by decide))
    (onlyMessage ⟨[], .gcs 0 0⟩ [10, 0] (by decide))
  exact h.2.1 ⟨[]⟩ ⟨[], .gcs 0 0⟩ (by decide) (by decide) (by decide)

/-- The length 100 with nothing after it, and a response of three bytes. -/
theorem not_inside : ReceiveResult 1024 (.SUCCESS, [0, 0, 0, 0, 0, 0, 0, 100]) [] =
      .error .outside ∧
    ParsePsiResponseFromeString (onlyMessage ⟨[]⟩ [] (by decide))
      (onlyMessage ⟨[], .gcs 0 0⟩ [10, 0] (by decide)) false [1, 2, 3] = .error .outside := by
  refine ⟨?_, rfl⟩
  have hparse : parse 1024 terminator [0, 0, 0, 0, 0, 0, 0, 100] = .error .outside :=
    Framing.parseFrom_of_item_outside (by decide) rfl (by decide) (by decide)
  rw [ReceiveResult, if_neg (by simp), hparse]
  rfl

end Fediux.Psi
