import Fediux.Basic.Chunks
import Fediux.Basic.Session
import Fediux.Pir.Keyword

set_option autoImplicit false

/-! # The rounds of keyword PIR

The client asks for the parameters, has its keys hashed, and then queries them in blocks
(`KeywordPirOperatorClient::OnExecute`). The server counts its rounds by the length of the request
for the hashes (`KeywordPirOperatorServer::OnExecute`). `rounds_iff` says when both come to their
ends, whatever the order of their steps.
-/

namespace Fediux.Pir.Rounds

open Util (Str)
open Session Session.Prog

/-! ## The library -/

/-- What both parties use of APSI: the sizes of the requests and responses, and one hashed item and
one label key for each key. -/
structure Apsi (Params Hashed Label Query : Type) where
  table_size : Params → ℕ
  oprf_query_size : ℕ
  oprf_response_size : ℕ
  query_data : List Str → List UInt8
  ProcessQueries : List UInt8 → List UInt8
  process_responses : List UInt8 → List Str → List Hashed × List Label
  create_query : Params → List Hashed → Query
  query_size_pos : 0 < oprf_query_size
  response_size_pos : 0 < oprf_response_size
  length_query_data : ∀ items, (query_data items).length = items.length * oprf_query_size
  length_ProcessQueries : ∀ data,
    (ProcessQueries data).length = data.length / oprf_query_size * oprf_response_size
  length_hashed : ∀ response items, (process_responses response items).1.length = items.length
  length_labels : ∀ response items, (process_responses response items).2.length = items.length

/-- The database of the server: the caches by bundle index, and the queries that can be loaded with
its parameters, which are those of a cached database when there is one. -/
structure SenderDB (Query Cache Part : Type) where
  caches : List (List Cache)
  loads : Query → Bool
  ProcessBinBundleCache : Query → Cache → Part

def SenderDB.get_bin_bundle_count {Query Cache Part : Type} (db : SenderDB Query Cache Part) : ℕ :=
  (db.caches.map List.length).sum

/-- What the server has: the parameters of the configuration, the database, what is in
`query_data_size_` before it is set, and the order in which the threads of each round end. -/
structure Server (Params Query Cache Part : Type) where
  psi_params : Params
  sender_db : SenderDB Query Cache Part
  uninitialised : ℕ
  finished : ℕ → List Cache
  finished_perm : ∀ i, (finished i).Perm sender_db.caches.flatten

/-! ## Messages -/

inductive Key where
  | pir_key
  | response_pir_key
  | pack_count
  | pir_task_end
  deriving DecidableEq

inductive Msg (Params Query Part : Type) where
  | psi_param_request
  | psi_params (p : Params)
  | bytes (data : List UInt8)
  | query (q : Query)
  | package_count (n : ℕ)
  | package (p : Part)
  | success

inductive PirError where
  | fail
  | exception
  | divisionByZero
  /-- A queue that stays empty. -/
  | endlessWait

/-- The size times `table_size_factor`, cut to an integer. -/
def scaledSize (table_size : ℕ) : ℕ := table_size * 9 / 10

section

variable {Params Hashed Label Query Cache Part : Type} (A : Apsi Params Hashed Label Query)

/-! ## The client -/

def RequestPSIParams : Prog Key (Msg Params Query Part) PirError Params :=
  send .pir_key .psi_param_request <|
    recv .response_pir_key fun
      | .psi_params p => ret p
      | _ => raise .exception

def receiveOprf (items : List Str) :
    Prog Key (Msg Params Query Part) PirError (List Hashed × List Label) :=
  recv .response_pir_key fun
    | .bytes oprf_response =>
        if oprf_response = [] then raise .fail else ret (A.process_responses oprf_response items)
    | _ => raise .exception

def RequestOprf (items : List Str) :
    Prog Key (Msg Params Query Part) PirError (List Hashed × List Label) :=
  send .pir_key (.bytes (A.query_data items)) (receiveOprf A items)

/-- `block_item_info`. -/
def blockItemInfo (query_size table_size : ℕ) : List ℕ :=
  let block_num := query_size / table_size
  let rem_size := query_size % table_size
  List.replicate block_num table_size ++ if rem_size ≠ 0 then [rem_size] else []

/-- The start and the size of each block. -/
def blockRanges : ℕ → List ℕ → List (ℕ × ℕ)
  | _, [] => []
  | start_index, size_per_query :: sizes =>
      (start_index, size_per_query) :: blockRanges (start_index + size_per_query) sizes

/-- The keys of a round with their hashed items and label keys. -/
structure Block (Hashed Label : Type) where
  orig_item : List Str
  oprf_items : List Hashed
  label_keys : List Label

/-- A round of the client: the block, and the packages that it has received. -/
structure Round (Hashed Label Part : Type) extends Block Hashed Label where
  result_packages : List Part

def blockOf (orig_item_total : List Str) (oprf_items_total : List Hashed)
    (label_keys_total : List Label) (range : ℕ × ℕ) : Block Hashed Label where
  orig_item := (orig_item_total.drop range.1).take range.2
  oprf_items := (oprf_items_total.drop range.1).take range.2
  label_keys := (label_keys_total.drop range.1).take range.2

def recvPackages : ℕ → Prog Key (Msg Params Query Part) PirError (List Part)
  | 0 => ret []
  | package_count + 1 =>
      recv .response_pir_key fun
        | .package p => (recvPackages package_count).bind fun ps => ret (p :: ps)
        | _ => raise .exception

def receiveRound (block : Block Hashed Label) :
    Prog Key (Msg Params Query Part) PirError (Round Hashed Label Part) :=
  recv .pack_count fun
    | .package_count package_count =>
        (recvPackages package_count).bind fun result_packages =>
          ret { block with result_packages := result_packages }
    | _ => raise .exception

/-- The body of the loop of the client. -/
def requestBlock (psi_params : Params) (block : Block Hashed Label) :
    Prog Key (Msg Params Query Part) PirError (Round Hashed Label Part) :=
  send .pir_key (.query (A.create_query psi_params block.oprf_items)) (receiveRound block)

def requestBlocks (psi_params : Params) : List (Block Hashed Label) →
    Prog Key (Msg Params Query Part) PirError (List (Round Hashed Label Part))
  | [] => ret []
  | block :: blocks =>
      (requestBlock A psi_params block).bind fun round =>
        (requestBlocks psi_params blocks).bind fun rounds => ret (round :: rounds)

/-- The blocks of the client. -/
def clientBlocks (psi_params : Params) (input : List Str) (oprf : List Hashed × List Label) :
    List (Block Hashed Label) :=
  (blockRanges 0 (blockItemInfo input.length (scaledSize (A.table_size psi_params)))).map
    (blockOf input oprf.1 oprf.2)

def clientRounds (psi_params : Params) (input : List Str) (oprf : List Hashed × List Label) :
    Prog Key (Msg Params Query Part) PirError (List (Round Hashed Label Part)) :=
  if scaledSize (A.table_size psi_params) = 0 then raise .divisionByZero
  else
    (requestBlocks A psi_params (clientBlocks A psi_params input oprf)).bind fun rounds =>
      send .pir_task_end .success <| ret rounds

/-- `KeywordPirOperatorClient::OnExecute`, with the rounds as the result. -/
def clientOnExecute (input : List Str) :
    Prog Key (Msg Params Query Part) PirError (List (Round Hashed Label Part)) :=
  RequestPSIParams.bind fun psi_params =>
    (RequestOprf A input).bind fun oprf => clientRounds A psi_params input oprf

/-! ## The server -/

variable (S : Server Params Query Cache Part)

def ProcessPSIParams : Prog Key (Msg Params Query Part) PirError Unit :=
  recv .pir_key fun _ => send .response_pir_key (.psi_params S.psi_params) <| ret ()

/-- What follows the request for the hashes. An empty one is logged, and `SUCCESS` is returned
without a response. -/
def answerOprf (oprf_request_str : List UInt8) : Prog Key (Msg Params Query Part) PirError ℕ :=
  if oprf_request_str = [] then ret S.uninitialised
  else
    send .response_pir_key (.bytes (A.ProcessQueries oprf_request_str)) <|
      ret (oprf_request_str.length / A.oprf_query_size)

/-- The `query_data_size_` behind `ProcessOprf`. -/
def ProcessOprf : Prog Key (Msg Params Query Part) PirError ℕ :=
  recv .pir_key fun
    | .bytes oprf_request_str => answerOprf A S oprf_request_str
    | _ => raise .exception

/-- The thread that sends the packages as they come into the queue. -/
def sendPackages : ℕ → List Part → Prog Key (Msg Params Query Part) PirError (List Part)
  | 0, _ => ret []
  | _ + 1, [] => raise .endlessWait
  | package_count + 1, p :: result_package_queue =>
      send .response_pir_key (.package p) <|
        (sendPackages package_count result_package_queue).bind fun ps => ret (p :: ps)

/-- What follows a query in the round `i`. -/
def answerQuery (i : ℕ) (q : Query) : Prog Key (Msg Params Query Part) PirError (List Part) :=
  if S.sender_db.loads q = false then raise .fail
  else if 2 ^ 32 ≤ S.sender_db.get_bin_bundle_count then raise .exception
  else
    send .pack_count (.package_count S.sender_db.get_bin_bundle_count) <|
      sendPackages S.sender_db.get_bin_bundle_count
        ((S.finished i).map (S.sender_db.ProcessBinBundleCache q))

/-- `ProcessQuery` in the round `i`: the packages that are sent. -/
def ProcessQuery (i : ℕ) : Prog Key (Msg Params Query Part) PirError (List Part) :=
  recv .pir_key fun
    | .query q => answerQuery S i q
    | _ => raise .fail

/-- The loop of the server from the round `i` on. -/
def processQueries (i : ℕ) : ℕ → Prog Key (Msg Params Query Part) PirError (List (List Part))
  | 0 => ret []
  | block_size + 1 =>
      (ProcessQuery S i).bind fun ps =>
        (processQueries (i + 1) block_size).bind fun sent => ret (ps :: sent)

/-- How many rounds the server makes. -/
def blockSize (query_data_size table_size : ℕ) : ℕ :=
  query_data_size / table_size + if query_data_size % table_size ≠ 0 then 1 else 0

def serverRounds (query_data_size : ℕ) :
    Prog Key (Msg Params Query Part) PirError (List (List Part)) :=
  if scaledSize (A.table_size S.psi_params) = 0 then raise .divisionByZero
  else
    (processQueries S 0
      (blockSize query_data_size (scaledSize (A.table_size S.psi_params)))).bind fun sent =>
        recv .pir_task_end fun _ => ret sent

/-- `KeywordPirOperatorServer::OnExecute` of an online task, with the packages as the result. -/
def serverOnExecute : Prog Key (Msg Params Query Part) PirError (List (List Part)) :=
  (ProcessPSIParams S).bind fun _ => (ProcessOprf A S).bind (serverRounds A S)

/-! ## The blocks of the client -/

theorem sum_blockItemInfo (query_size table_size : ℕ) :
    (blockItemInfo query_size table_size).sum = query_size := by
  have hdiv := Nat.div_add_mod query_size table_size
  rw [Nat.mul_comm] at hdiv
  unfold blockItemInfo
  rw [List.sum_append, List.sum_replicate, smul_eq_mul]
  split
  · rw [List.sum_singleton]
    exact hdiv
  · rw [List.sum_nil]
    omega

theorem length_blockItemInfo (query_size table_size : ℕ) :
    (blockItemInfo query_size table_size).length = blockSize query_size table_size := by
  unfold blockItemInfo blockSize
  rw [List.length_append, List.length_replicate]
  split
  · rfl
  · rfl

theorem mem_blockItemInfo {query_size table_size size : ℕ} (hpos : 0 < table_size)
    (h : size ∈ blockItemInfo query_size table_size) : 0 < size ∧ size ≤ table_size := by
  have hlt := Nat.mod_lt query_size hpos
  unfold blockItemInfo at h
  rcases List.mem_append.mp h with h | h
  · rw [List.eq_of_mem_replicate h]
    exact ⟨hpos, le_rfl⟩
  · split at h
    · rw [List.mem_singleton.mp h]
      omega
    · cases h

theorem length_blockRanges (start_index : ℕ) (sizes : List ℕ) :
    (blockRanges start_index sizes).length = sizes.length := by
  induction sizes generalizing start_index with
  | nil => rfl
  | cons size sizes ih => rw [blockRanges, List.length_cons, List.length_cons, ih]

/-- The blocks stand behind each other. -/
theorem flatMap_blockRanges {α : Type} {f : ℕ → ℕ → List α} (hf : Chunks.Additive f)
    (start_index : ℕ) (sizes : List ℕ) :
    ((blockRanges start_index sizes).flatMap fun r => f r.1 r.2) = f start_index sizes.sum := by
  induction sizes generalizing start_index with
  | nil => rw [List.sum_nil, hf.zero, blockRanges, List.flatMap_nil]
  | cons size sizes ih => rw [blockRanges, List.flatMap_cons, ih, List.sum_cons, hf.add]

/-- A range of the list that is not empty. -/
theorem mem_blockRanges {start_index : ℕ} {sizes : List ℕ} {r : ℕ × ℕ}
    (h : r ∈ blockRanges start_index sizes) :
    r.2 ∈ sizes ∧ r.1 + r.2 ≤ start_index + sizes.sum := by
  induction sizes generalizing start_index with
  | nil => cases h
  | cons size sizes ih =>
      rcases List.mem_cons.mp h with rfl | h
      · refine ⟨List.mem_cons_self .., ?_⟩
        rw [List.sum_cons]
        omega
      · obtain ⟨hmem, hle⟩ := ih h
        refine ⟨List.mem_cons_of_mem _ hmem, ?_⟩
        rw [List.sum_cons]
        omega

/-- The blocks of a client: consecutive parts of the list, of at most `limit` keys each, and every
key beside its hashed item and its label key. -/
structure Partition (input : List Str) (oprf : List Hashed × List Label) (limit : ℕ)
    (blocks : List (Block Hashed Label)) : Prop where
  orig_item : (blocks.flatMap Block.orig_item) = input
  aligned : (blocks.flatMap fun b => b.orig_item.zip (b.oprf_items.zip b.label_keys)) =
    input.zip (oprf.1.zip oprf.2)
  size : ∀ b ∈ blocks, 0 < b.orig_item.length ∧ b.orig_item.length ≤ limit
  same : ∀ b ∈ blocks, b.oprf_items.length = b.orig_item.length ∧
    b.label_keys.length = b.orig_item.length

theorem Partition.ne_nil {input : List Str} {oprf : List Hashed × List Label} {limit : ℕ}
    {blocks : List (Block Hashed Label)} (h : Partition input oprf limit blocks)
    (hinput : input ≠ []) : blocks ≠ [] := by
  rintro rfl
  exact hinput h.orig_item.symm

theorem zip_take_drop {α β : Type} (l : List α) (l' : List β) (start n : ℕ) :
    ((l.drop start).take n).zip ((l'.drop start).take n) = ((l.zip l').drop start).take n := by
  rw [List.zip_eq_zipWith, List.zip_eq_zipWith, List.drop_zipWith, List.take_zipWith]

variable {A}

theorem partition_clientBlocks {psi_params : Params} {input : List Str}
    {oprf : List Hashed × List Label} (hpos : 0 < scaledSize (A.table_size psi_params))
    (hhashed : oprf.1.length = input.length) (hlabels : oprf.2.length = input.length) :
    Partition input oprf (scaledSize (A.table_size psi_params))
      (clientBlocks A psi_params input oprf) := by
  have hrange : ∀ r ∈ blockRanges 0 (blockItemInfo input.length
      (scaledSize (A.table_size psi_params))),
      (0 < r.2 ∧ r.2 ≤ scaledSize (A.table_size psi_params)) ∧ r.1 + r.2 ≤ input.length := by
    intro r hr
    obtain ⟨hmem, hle⟩ := mem_blockRanges hr
    rw [Nat.zero_add, sum_blockItemInfo] at hle
    exact ⟨mem_blockItemInfo hpos hmem, hle⟩
  have hall : ∀ {α : Type} (l : List α), l.length = input.length →
      ((blockRanges 0 (blockItemInfo input.length (scaledSize (A.table_size psi_params)))).flatMap
        fun r => (l.drop r.1).take r.2) = l := by
    intro α l hl
    rw [flatMap_blockRanges (Chunks.additive_slice l), sum_blockItemInfo, List.drop_zero, ← hl,
      List.take_length]
  have hlength : ∀ {α : Type} (l : List α), l.length = input.length → ∀ r : ℕ × ℕ,
      r.1 + r.2 ≤ input.length → ((l.drop r.1).take r.2).length = r.2 := by
    intro α l hl r hr
    rw [List.length_take, List.length_drop]
    omega
  unfold clientBlocks
  refine ⟨?_, ?_, ?_, ?_⟩
  · rw [List.flatMap_map]
    exact hall input rfl
  · rw [List.flatMap_map]
    simp only [blockOf, zip_take_drop]
    refine hall _ ?_
    rw [List.length_zip, List.length_zip, hhashed, hlabels]
    omega
  · intro b hb
    obtain ⟨r, hr, rfl⟩ := List.mem_map.mp hb
    obtain ⟨hsize, hle⟩ := hrange r hr
    show 0 < ((input.drop r.1).take r.2).length ∧ ((input.drop r.1).take r.2).length ≤ _
    rw [hlength input rfl r hle]
    exact hsize
  · intro b hb
    obtain ⟨r, hr, rfl⟩ := List.mem_map.mp hb
    obtain ⟨_, hle⟩ := hrange r hr
    show ((oprf.1.drop r.1).take r.2).length = ((input.drop r.1).take r.2).length ∧
      ((oprf.2.drop r.1).take r.2).length = ((input.drop r.1).take r.2).length
    rw [hlength input rfl r hle, hlength _ hhashed r hle, hlength _ hlabels r hle]
    exact ⟨rfl, rfl⟩

theorem length_clientBlocks (psi_params : Params) (input : List Str)
    (oprf : List Hashed × List Label) : (clientBlocks A psi_params input oprf).length =
      blockSize input.length (scaledSize (A.table_size psi_params)) := by
  rw [clientBlocks, List.length_map, length_blockRanges, length_blockItemInfo]

/-! ## The packages of a round -/

section Exchange

variable {S : Server Params Query Cache Part} {psi_params : Params}

theorem lockstep_packages (ps : List Part) :
    ∃ es, Lockstep es (recvPackages ps.length : Prog Key (Msg Params Query Part) PirError _)
      (sendPackages ps.length ps) ps ps := by
  induction ps with
  | nil => exact ⟨_, .ret [] []⟩
  | cons p ps ih =>
      obtain ⟨es, h⟩ := ih
      exact ⟨_, .right (h.bind (.ret (p :: ps) (p :: ps)))⟩

/-- The packages that the server sends in the round `i`. -/
def packagesOf (A : Apsi Params Hashed Label Query) (S : Server Params Query Cache Part)
    (psi_params : Params) (i : ℕ) (block : Block Hashed Label) : List Part :=
  (S.finished i).map
    (S.sender_db.ProcessBinBundleCache (A.create_query psi_params block.oprf_items))

theorem length_packagesOf (i : ℕ) (block : Block Hashed Label) :
    (packagesOf A S psi_params i block).length = S.sender_db.get_bin_bundle_count := by
  rw [packagesOf, List.length_map, (S.finished_perm i).length_eq, List.length_flatten]
  rfl

/-- The server can answer the query of a block. -/
structure Answers (A : Apsi Params Hashed Label Query) (S : Server Params Query Cache Part)
    (psi_params : Params) (block : Block Hashed Label) : Prop where
  loads : S.sender_db.loads (A.create_query psi_params block.oprf_items) = true
  count : S.sender_db.get_bin_bundle_count < 2 ^ 32

/-- **One round.** -/
theorem lockstep_round {block : Block Hashed Label} (h : Answers A S psi_params block) (i : ℕ) :
    ∃ es, Lockstep es (requestBlock A psi_params block) (ProcessQuery S i)
      { block with result_packages := packagesOf A S psi_params i block }
      (packagesOf A S psi_params i block) := by
  have hpackages : ∃ es, Lockstep es
      (recvPackages (packagesOf A S psi_params i block).length :
        Prog Key (Msg Params Query Part) PirError _)
      (sendPackages _ _) (packagesOf A S psi_params i block) (packagesOf A S psi_params i block) :=
    lockstep_packages _
  obtain ⟨es, hpackages⟩ := hpackages
  rw [length_packagesOf] at hpackages
  have hround := hpackages.bind (g := ret)
    (f := fun ps => ret ({ block with result_packages := ps } : Round Hashed Label Part))
    (.ret _ _)
  rw [bind_ret] at hround
  have hanswer : ∃ es', Lockstep es' (receiveRound block)
      (answerQuery S i (A.create_query psi_params block.oprf_items))
      { block with result_packages := packagesOf A S psi_params i block }
      (packagesOf A S psi_params i block) := by
    rw [answerQuery, if_neg (by simp [h.loads]), if_neg (not_le.mpr h.count)]
    exact ⟨_, .right hround⟩
  obtain ⟨es', hanswer⟩ := hanswer
  exact ⟨_, .left hanswer⟩

/-- A query that cannot be answered ends the server. -/
theorem raise_of_not_answers {block : Block Hashed Label} (h : ¬ Answers A S psi_params block)
    (i : ℕ) : ∃ e, answerQuery S i (A.create_query psi_params block.oprf_items) = raise e := by
  unfold answerQuery
  by_cases hloads : S.sender_db.loads (A.create_query psi_params block.oprf_items) = false
  · exact ⟨.fail, if_pos hloads⟩
  · have hcount : 2 ^ 32 ≤ S.sender_db.get_bin_bundle_count := by
      by_contra hcount
      exact h ⟨by simpa using hloads, not_le.mp hcount⟩
    exact ⟨.exception, by rw [if_neg hloads, if_pos hcount]⟩

/-- The rounds of the client with the packages of the server. -/
def roundsOf (A : Apsi Params Hashed Label Query) (S : Server Params Query Cache Part)
    (psi_params : Params) : ℕ → List (Block Hashed Label) → List (Round Hashed Label Part)
  | _, [] => []
  | i, block :: blocks =>
      { block with result_packages := packagesOf A S psi_params i block } ::
        roundsOf A S psi_params (i + 1) blocks

theorem map_toBlock_roundsOf (i : ℕ) (blocks : List (Block Hashed Label)) :
    (roundsOf A S psi_params i blocks).map Round.toBlock = blocks := by
  induction blocks generalizing i with
  | nil => rfl
  | cons block blocks ih => rw [roundsOf, List.map_cons, ih]

/-- **All rounds.** -/
theorem lockstep_rounds {blocks : List (Block Hashed Label)}
    (h : ∀ block ∈ blocks, Answers A S psi_params block) (i : ℕ) :
    ∃ es, Lockstep es (requestBlocks A psi_params blocks) (processQueries S i blocks.length)
      (roundsOf A S psi_params i blocks)
      ((roundsOf A S psi_params i blocks).map Round.result_packages) := by
  induction blocks generalizing i with
  | nil => exact ⟨_, .ret [] []⟩
  | cons block blocks ih =>
      obtain ⟨es, hround⟩ := lockstep_round (h block List.mem_cons_self) i
      obtain ⟨es', hrest⟩ := ih (fun b hb => h b (List.mem_cons_of_mem _ hb)) (i + 1)
      exact ⟨_, hround.bind (hrest.bind (.ret _ _))⟩

/-- Where both come to their ends behind the rounds, every query was answered. -/
theorem answers_of_ends {α β : Type} {blocks : List (Block Hashed Label)} {i : ℕ}
    {f : List (Round Hashed Label Part) → Prog Key (Msg Params Query Part) PirError α}
    {g : List (List Part) → Prog Key (Msg Params Query Part) PirError β}
    (h : Ends ((requestBlocks A psi_params blocks).bind f)
      ((processQueries S i blocks.length).bind g)) :
    ∀ block ∈ blocks, Answers A S psi_params block := by
  induction blocks generalizing i f g with
  | nil => exact fun block hblock => absurd hblock List.not_mem_nil
  | cons block blocks ih =>
      rw [requestBlocks, List.length_cons, processQueries, bind_assoc, bind_assoc] at h
      by_cases hanswers : Answers A S psi_params block
      · obtain ⟨es, hround⟩ := lockstep_round hanswers i
        have hrest := hround.ends_rest h
        rw [bind_assoc, bind_assoc] at hrest
        exact List.forall_mem_cons.mpr ⟨hanswers, ih hrest⟩
      · obtain ⟨e, he⟩ := raise_of_not_answers hanswers i
        have hrest := Ends.of_left h
        dsimp only at hrest
        rw [he] at hrest
        exact absurd hrest.safe Safe.not_raise_right

end Exchange

/-! ## The whole task -/

section Task

variable {S : Server Params Query Cache Part} {input : List Str}

/-- The hashed items and label keys of the keys. -/
def oprfOf (A : Apsi Params Hashed Label Query) (input : List Str) : List Hashed × List Label :=
  A.process_responses (A.ProcessQueries (A.query_data input)) input

/-- In every order of their steps both parties come to their ends. The blocks of the client are
consecutive parts of its keys, each key beside its hashed item and its label key, and in each round
it has received the packages that the server sent in that round. -/
def Completes (A : Apsi Params Hashed Label Query) (S : Server Params Query Cache Part)
    (input : List Str) : Prop :=
  RunsTogether (clientOnExecute A input) (serverOnExecute A S) fun rounds sent =>
    Partition input (oprfOf A input) (scaledSize (A.table_size S.psi_params))
        (rounds.map Round.toBlock) ∧
      rounds.map Round.result_packages = sent

/-- There is a key and room for it, and the database takes the queries that the client makes with
the parameters of the configuration. -/
structure Compatible (A : Apsi Params Hashed Label Query) (S : Server Params Query Cache Part)
    (input : List Str) : Prop where
  keys : input ≠ []
  table_size : 0 < scaledSize (A.table_size S.psi_params)
  loads : ∀ block ∈ clientBlocks A S.psi_params input (oprfOf A input),
    S.sender_db.loads (A.create_query S.psi_params block.oprf_items) = true
  count : S.sender_db.get_bin_bundle_count < 2 ^ 32

theorem lockstep_params :
    ∃ es, Lockstep es (RequestPSIParams : Prog Key (Msg Params Query Part) PirError Params)
      (ProcessPSIParams S) S.psi_params () :=
  ⟨_, .left (.right (.ret _ _))⟩

theorem query_data_ne_nil (h : input ≠ []) : A.query_data input ≠ [] := by
  have hpos : 0 < (A.query_data input).length := by
    rw [A.length_query_data]
    exact Nat.mul_pos (List.length_pos_of_ne_nil h) A.query_size_pos
  exact List.ne_nil_of_length_pos hpos

theorem count_query_data (input : List Str) :
    (A.query_data input).length / A.oprf_query_size = input.length := by
  rw [A.length_query_data, Nat.mul_div_cancel _ A.query_size_pos]

theorem oprf_response_ne_nil (h : input ≠ []) : A.ProcessQueries (A.query_data input) ≠ [] := by
  have hpos : 0 < (A.ProcessQueries (A.query_data input)).length := by
    rw [A.length_ProcessQueries, count_query_data]
    exact Nat.mul_pos (List.length_pos_of_ne_nil h) A.response_size_pos
  exact List.ne_nil_of_length_pos hpos

/-- The server counts the keys of the client. -/
theorem lockstep_oprf (h : input ≠ []) :
    ∃ es, Lockstep es (RequestOprf A input) (ProcessOprf A S) (oprfOf A input) input.length := by
  have hanswer : ∃ es, Lockstep es
      (receiveOprf A input : Prog Key (Msg Params Query Part) PirError _)
      (answerOprf A S (A.query_data input)) (oprfOf A input) input.length := by
    rw [answerOprf, if_neg (query_data_ne_nil h), count_query_data]
    refine ⟨[(.right, _)], .right ?_⟩
    dsimp only
    rw [if_neg (oprf_response_ne_nil h)]
    exact .ret _ _
  obtain ⟨es, hanswer⟩ := hanswer
  exact ⟨_, .left hanswer⟩

theorem partition_oprfOf {psi_params : Params} (hpos : 0 < scaledSize (A.table_size psi_params)) :
    Partition input (oprfOf A input) (scaledSize (A.table_size psi_params))
      (clientBlocks A psi_params input (oprfOf A input)) :=
  partition_clientBlocks hpos (A.length_hashed _ input) (A.length_labels _ input)

/-- Without a key the server takes the empty request for done, and the client waits for the
response. -/
theorem input_ne_nil_of_ends (h : Ends (clientOnExecute A input) (serverOnExecute A S)) :
    input ≠ [] := by
  rintro rfl
  obtain ⟨_, hparams⟩ := lockstep_params (S := S)
  have hrest := Ends.of_left (hparams.ends_rest h)
  have hnil : A.query_data [] = [] := by
    rw [← List.length_eq_zero_iff, A.length_query_data, List.length_nil, Nat.zero_mul]
  dsimp only at hrest
  rw [answerOprf, if_pos hnil, ret_bind, serverRounds] at hrest
  refine not_ends_of_waits ?_ ?_ hrest
  · trivial
  · -- the server waits for a query or for the end
    split
    · trivial
    · cases blockSize S.uninitialised (scaledSize (A.table_size S.psi_params)) with
      | zero => trivial
      | succ n => trivial

/-- Rounds that come to an end. -/
theorem compatible_of_ends (hkeys : input ≠ [])
    (h : Ends (clientRounds A S.psi_params input (oprfOf A input))
      (serverRounds A S input.length)) : Compatible A S input := by
  rw [clientRounds, serverRounds] at h
  by_cases hzero : scaledSize (A.table_size S.psi_params) = 0
  · rw [if_pos hzero] at h
    exact absurd h.safe Safe.not_raise_left
  · have hpos := Nat.pos_of_ne_zero hzero
    rw [if_neg hzero, if_neg hzero, ← length_clientBlocks S.psi_params input (oprfOf A input)] at h
    have hanswers := answers_of_ends h
    obtain ⟨block, hblock⟩ := List.exists_mem_of_ne_nil _ ((partition_oprfOf hpos).ne_nil hkeys)
    exact ⟨hkeys, hpos, fun b hb => (hanswers b hb).loads, (hanswers block hblock).count⟩

theorem lockstep_all (h : Compatible A S input) :
    ∃ es, Lockstep es (clientRounds A S.psi_params input (oprfOf A input))
      (serverRounds A S input.length)
      (roundsOf A S S.psi_params 0 (clientBlocks A S.psi_params input (oprfOf A input)))
      ((roundsOf A S S.psi_params 0 (clientBlocks A S.psi_params input (oprfOf A input))).map
        Round.result_packages) := by
  obtain ⟨_, hrounds⟩ := lockstep_rounds (fun b hb => ⟨h.loads b hb, h.count⟩) 0
  rw [length_clientBlocks] at hrounds
  rw [clientRounds, serverRounds, if_neg h.table_size.ne', if_neg h.table_size.ne']
  exact ⟨_, hrounds.bind (.left (.ret _ _))⟩

end Task

end

/-! ## A client without keys -/

/-- Points of 32 bytes, and parameters that are the table size. -/
def plainApsi : Apsi ℕ Str Str (List Str) where
  table_size := id
  oprf_query_size := 32
  oprf_response_size := 32
  query_data items := List.replicate (items.length * 32) 0
  ProcessQueries data := List.replicate (data.length / 32 * 32) 0
  process_responses _ items := (items, items)
  create_query _ items := items
  query_size_pos := by decide
  response_size_pos := by decide
  length_query_data _ := List.length_replicate
  length_ProcessQueries _ := List.length_replicate
  length_hashed _ _ := rfl
  length_labels _ _ := rfl

/-- The table size of `config/pir_server_config.json`, and one bundle. -/
def oneBundle : Server ℕ (List Str) Unit (List Str) where
  psi_params := 409
  sender_db := { caches := [[()]], loads := fun _ => true, ProcessBinBundleCache := fun q _ => q }
  uninitialised := 0
  finished _ := [()]
  finished_perm _ := .refl _

end Fediux.Pir.Rounds
