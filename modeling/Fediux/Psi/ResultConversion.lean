import Fediux.Basic.Chunks
import Fediux.Basic.Parallel
import Fediux.Psi.Operators

set_option autoImplicit false

/-! # From the answer of the protocol to the result

What the client of each PSI operator makes of an answer that is right: `GetResult` of
`kernel/psi/operator/base_psi.cc`, whose threads copy the intersection block by block, and
`GetIntersection` of `ecdh_psi.cc` and `tee_psi.cc`.
-/

namespace Fediux.Psi

open Node (Bytes)
open Parallel (Interleaving)
open ReturnCodes (Passes Run)

section Threads

variable (env : Env)

/-! ## The threads of `GetResult` -/

/-- The loop of one thread, over `count` places of the result. -/
def copy (index count : ℕ) : List (ℕ × Bytes) :=
  (List.range' index count).map fun index =>
    (index, (env.intersection_index[index]?.map env.input.get).getD [])

/-- A thread for each whole block, and one for what is left. -/
def threads (block_size : ℕ) : List (List (ℕ × Bytes)) :=
  let block_num := env.intersection_index.length / block_size
  let rem_num := env.intersection_index.length % block_size
  ((List.range block_num).map fun i => copy env (i * block_size) block_size) ++
    if rem_num = 0 then [] else [copy env (block_num * block_size) rem_num]

/-- What `GetResult` leaves in a result that was empty. -/
def Leaves (received : List Bytes) : Prop :=
  match env.psi_result_type with
  | .DIFFERENCE => received = GetResult env
  | .INTERSECTION =>
      ∃ writes, Interleaving (threads env 10000000) writes ∧
        received = writes.foldl (Parallel.write fun _ item => item)
          (List.replicate env.intersection_index.length [])

theorem additive_copy : Chunks.Additive (copy env) where
  zero _ := rfl
  add start m n := by
    unfold copy
    rw [← List.range'_append_1, List.map_append]

/-- The threads copy each place once. -/
theorem flatten_threads (block_size : ℕ) :
    (threads env block_size).flatten = copy env 0 env.intersection_index.length := by
  set n := env.intersection_index.length with hn
  have hblocks : ((List.range (n / block_size)).map
      fun i => copy env (i * block_size) block_size).flatten =
        copy env 0 (n / block_size * block_size) := by
    rw [← Chunks.flatMap_equalBlocks block_size (additive_copy env), List.flatMap_def]
    simp only [Nat.zero_add, Nat.mul_comm block_size]
  have hsum : n / block_size * block_size + n % block_size = n := Nat.div_add_mod' _ _
  show (_ ++ if n % block_size = 0 then [] else _).flatten = _
  rw [List.flatten_append, hblocks]
  split
  · rw [List.flatten_nil, List.append_nil]
    congr 1
    omega
  · have hadd := (additive_copy env).add 0 (n / block_size * block_size) (n % block_size)
    rw [hsum, Nat.zero_add] at hadd
    rw [List.flatten_singleton, hadd]

theorem copy_eq_block :
    copy env 0 env.intersection_index.length =
      Parallel.block 0 (env.intersection_index.map env.input.get) := by
  refine List.ext_getElem? fun i => ?_
  rw [Parallel.getElem?_block, List.getElem?_map, copy, List.getElem?_map]
  by_cases hi : i < env.intersection_index.length
  · rw [List.getElem?_range' hi]
    simp [hi]
  · have hout : env.intersection_index.length ≤ i := Nat.le_of_not_lt hi
    simp [hout]

/-- **The order in which the threads run does not matter.** -/
theorem leaves_iff (received : List Bytes) : Leaves env received ↔ received = GetResult env := by
  unfold Leaves GetResult
  cases env.psi_result_type with
  | DIFFERENCE => exact Iff.rfl
  | INTERSECTION =>
      have hflat := (flatten_threads env 10000000).trans (copy_eq_block env)
      have hrun : ∀ writes, Interleaving (threads env 10000000) writes →
          writes.foldl (Parallel.write fun _ item => item)
            (List.replicate env.intersection_index.length []) =
              env.intersection_index.map env.input.get := by
        intro writes hwrites
        rw [Parallel.foldl_write_interleaving _ hflat (by simp) hwrites]
        refine List.ext_getElem (by simp) fun i _ _ => ?_
        simp
      constructor
      · rintro ⟨writes, hwrites, rfl⟩
        exact hrun writes hwrites
      · rintro rfl
        exact ⟨_, Interleaving.inOrder _, (hrun _ (Interleaving.inOrder _)).symm⟩

/-! ## The result of a run -/

/-- `KkrtPsiOperator::OnExecute`, when `GetResult` leaves `received`. -/
def KkrtPsiOperator.OnExecuteLeaving (received : List Bytes) : Prog :=
  CHECK_RETCODE (perform env .inputNotEmpty) <|
  CHECK_RETCODE (BuildChannelInterface env) <|
  if env.party_name = .PARTY_CLIENT then Run.modify (fun _ => received) >>= fun _ => SUCCESS
  else SUCCESS

def resultOf (m : Prog) : List Bytes := (m.run ⟨[], []⟩).2.data

/-- The results that a run of an operator may end with. -/
def Obtains (op : PsiType) (result : List Bytes) : Prop :=
  match op with
  | .KKRT => ∃ received, Leaves env received ∧
      result = resultOf (KkrtPsiOperator.OnExecuteLeaving env received)
  | op => result = resultOf (OnExecute env op)

theorem obtains_iff (op : PsiType) (result : List Bytes) :
    Obtains env op result ↔ result = resultOf (OnExecute env op) := by
  cases op with
  | ECDH => exact Iff.rfl
  | TEE => exact Iff.rfl
  | KKRT =>
      show (∃ received, Leaves env received ∧ _) ↔ _
      simp only [leaves_iff, exists_eq_left]
      exact Iff.rfl

end Threads

/-! ## Answers that are right -/

/-- A client's run without failures in which the protocol answers with the common elements: their
positions for ECDH and KKRT, their hashes for TEE. -/
structure Exchange where
  env : Env
  server : List Bytes
  input_nodup : env.input.Nodup
  server_nodup : server.Nodup
  party_name : env.party_name = .PARTY_CLIENT
  server_known : Party.PARTY_SERVER ∈ env.party_info
  compute_known : Party.PARTY_TEE_COMPUTE ∈ env.party_info
  ret : ∀ step, env.ret step = .SUCCESS
  response_str : env.response_str ≠ []
  index_nodup : env.intersection_index.Nodup
  mem_index : ∀ i, i ∈ env.intersection_index ↔ env.input.get i ∈ server
  hash_size : ℕ
  hash_size_pos : 0 < hash_size
  length_hash : ∀ item, (env.hashToString item).length = hash_size
  hash_injective : ∀ item ∈ env.input ++ server, ∀ item' ∈ env.input ++ server,
    env.hashToString item = env.hashToString item' → item = item'
  order : List Bytes
  order_perm : order.Perm (env.input.filter fun item => server.contains item)
  plain_result : env.plain_result = (order.map env.hashToString).flatten

namespace Exchange

variable (X : Exchange)

/-- The client's elements that the server has, and those that it does not have. -/
def common : List Bytes := X.env.input.filter fun item => X.server.contains item

def different : List Bytes := X.env.input.filter fun item => !X.server.contains item

/-- The result that is asked for. -/
def IsResult (result : List Bytes) : Prop :=
  match X.env.psi_result_type with
  | .INTERSECTION => result.Perm X.common
  | .DIFFERENCE => result = X.different

/-- The client obtains the result that is asked for, and no other. -/
def Converts (op : PsiType) : Prop :=
  (∃ result, Obtains X.env op result) ∧ ∀ result, Obtains X.env op result → X.IsResult result

theorem converts_iff (op : PsiType) :
    X.Converts op ↔ X.IsResult (resultOf (OnExecute X.env op)) := by
  unfold Converts
  simp only [obtains_iff, exists_eq, forall_eq, true_and]

/-! ## Positions -/

theorem map_intersection_index :
    (X.env.intersection_index.map X.env.input.get).Perm X.common := by
  refine (List.perm_ext_iff_of_nodup ?_ (X.input_nodup.filter _)).mpr fun item => ?_
  · exact X.index_nodup.map X.input_nodup.injective_get
  · rw [List.mem_map, List.mem_filter, List.contains_iff_mem]
    constructor
    · rintro ⟨i, hi, rfl⟩
      exact ⟨List.get_mem _ i, (X.mem_index i).mp hi⟩
    · rintro ⟨hitem, hserver⟩
      obtain ⟨i, rfl⟩ := List.mem_iff_get.mp hitem
      exact ⟨i, (X.mem_index i).mpr hserver, rfl⟩

theorem map_other_positions :
    ((List.finRange X.env.input.length).filter (· ∉ X.env.intersection_index)).map X.env.input.get =
      X.different := by
  have hkept : (fun i => decide (i ∉ X.env.intersection_index)) =
      (fun item => !X.server.contains item) ∘ X.env.input.get := by
    funext i
    rw [Function.comp_apply, ← Bool.decide_coe (!_)]
    simp [X.mem_index i]
  rw [hkept, ← List.filter_map, List.map_get_finRange]
  rfl

theorem isResult_getResult : X.IsResult (GetResult X.env) := by
  unfold IsResult GetResult
  cases X.env.psi_result_type with
  | INTERSECTION => exact X.map_intersection_index
  | DIFFERENCE => exact X.map_other_positions

/-! ## Hashes -/

/-- No two elements of the client share a hash, so each one has its entry. -/
theorem hashed_data_eq : TeePsiOperator.hashed_data X.env =
    X.env.input.map fun item => (X.env.hashToString item, item) := by
  suffices h : ∀ (items : List Bytes) (done : List Bytes), done ++ items = X.env.input →
      items.foldl (fun hashed_data item =>
        if (hashed_data.lookup (X.env.hashToString item)).isSome then hashed_data
        else hashed_data ++ [(X.env.hashToString item, item)])
          (done.map fun item => (X.env.hashToString item, item)) =
        X.env.input.map fun item => (X.env.hashToString item, item) by
    exact h X.env.input [] rfl
  intro items
  induction items with
  | nil =>
      intro done hinput
      rw [List.append_nil] at hinput
      rw [hinput]
      rfl
  | cons item items ih =>
      intro done hinput
      have hnew : (done.map fun item => (X.env.hashToString item, item)).lookup
          (X.env.hashToString item) = none := by
        rw [List.lookup_eq_none_iff]
        intro entry hentry
        obtain ⟨item', hitem', rfl⟩ := List.mem_map.mp hentry
        have hne : item' ≠ item := by
          have hnodup := X.input_nodup
          rw [← hinput, List.nodup_append] at hnodup
          exact hnodup.2.2 item' hitem' item List.mem_cons_self
        have hmem : ∀ x ∈ done ++ item :: items, x ∈ X.env.input ++ X.server := fun x hx =>
          List.mem_append_left _ (hinput ▸ hx)
        have hhash : X.env.hashToString item ≠ X.env.hashToString item' := fun heq =>
          hne (X.hash_injective item (hmem item (by simp)) item' (hmem item' (by simp [hitem']))
            heq).symm
        simpa using hhash
      rw [List.foldl_cons, hnew]
      have hnext := ih (done ++ [item]) (by simpa using hinput)
      rwa [List.map_append] at hnext

theorem lookup_hash (item : Bytes) (hitem : item ∈ X.env.input) :
    (TeePsiOperator.hashed_data X.env).lookup (X.env.hashToString item) = some item := by
  rw [hashed_data_eq]
  have hinj : ∀ item' ∈ X.env.input,
      X.env.hashToString item = X.env.hashToString item' → item = item' := fun item' hitem' =>
    X.hash_injective item (List.mem_append_left _ hitem) item' (List.mem_append_left _ hitem')
  generalize X.env.input = input at hitem hinj
  induction input with
  | nil => exact absurd hitem List.not_mem_nil
  | cons item' input ih =>
      rw [List.map_cons, List.lookup_cons]
      by_cases heq : item = item'
      · simp [heq]
      · have hne : (X.env.hashToString item == X.env.hashToString item') = false :=
          beq_false_of_ne fun h => heq (hinj item' List.mem_cons_self h)
        rw [hne]
        exact ih (List.mem_of_ne_of_mem heq hitem) fun item'' hitem'' =>
          hinj item'' (List.mem_cons_of_mem _ hitem'')

/-- The buffer of hashes is read back hash by hash. -/
theorem intersection_eq (hinput : X.env.input ≠ []) :
    TeePsiOperator.intersection X.env = X.order := by
  have hsize : ((TeePsiOperator.hashed_data X.env).headD ([], [])).1.length = X.hash_size := by
    rw [hashed_data_eq]
    obtain ⟨item, items, heq⟩ := List.exists_cons_of_ne_nil hinput
    rw [heq]
    exact X.length_hash item
  have hblocks : Chunks.wholeBlocks X.env.plain_result X.hash_size =
      X.order.map X.env.hashToString := by
    rw [X.plain_result]
    refine Chunks.wholeBlocks_flatten _ X.hash_size_pos _ fun block hblock => ?_
    obtain ⟨item, -, rfl⟩ := List.mem_map.mp hblock
    exact X.length_hash item
  calc TeePsiOperator.intersection X.env
      = (Chunks.wholeBlocks X.env.plain_result X.hash_size).filterMap
          fun block => (TeePsiOperator.hashed_data X.env).lookup block := by
        unfold TeePsiOperator.intersection Chunks.wholeBlocks
        rw [List.filterMap_map, hsize]
        rfl
    _ = X.order.filterMap fun item =>
          (TeePsiOperator.hashed_data X.env).lookup (X.env.hashToString item) := by
        rw [hblocks, List.filterMap_map]
        rfl
    _ = X.order.filterMap some := by
        refine List.filterMap_congr fun item hitem => X.lookup_hash item ?_
        exact List.mem_of_mem_filter (X.order_perm.mem_iff.mp hitem)
    _ = X.order := List.filterMap_some

theorem plain_result_eq_nil_iff : X.env.plain_result = [] ↔ X.order = [] := by
  rw [X.plain_result]
  constructor
  · intro hnil
    cases horder : X.order with
    | nil => rfl
    | cons item order =>
        have hlen := X.length_hash item
        have hpos := X.hash_size_pos
        rw [horder, List.map_cons, List.flatten_cons] at hnil
        rw [(List.append_eq_nil_iff.mp hnil).1, List.length_nil] at hlen
        omega
  · intro horder
    rw [horder]
    rfl

/-! ## The runs -/

theorem passes_SUCCESS : Passes fails SUCCESS id := Passes.pure rfl

theorem passes_step {step : Step} {k : Prog} {f : List Bytes → List Bytes}
    (h : X.env.outcome step = .SUCCESS) (hk : Passes fails k f) :
    Passes fails (CHECK_RETCODE (perform X.env step) k) f :=
  (Passes.perform (by rw [h]; rfl)).check hk

theorem passes_call {m k : Prog} {f : List Bytes → List Bytes} (hm : Passes fails m id)
    (hk : Passes fails k f) : Passes fails (CHECK_RETCODE m k) f :=
  hm.check hk

theorem passes_drop {m k : Prog} {f : List Bytes → List Bytes} (hm : Passes fails m id)
    (hk : Passes fails k f) : Passes fails (drop m k) f :=
  hm.drop hk

/-- The outcome of a step may be dropped. -/
theorem passes_drop_step (step : Step) {k : Prog} {f : List Bytes → List Bytes}
    (hk : Passes fails k f) : Passes fails (drop (perform X.env step) k) f :=
  fun s => hk ⟨s.steps ++ [step], s.data⟩

theorem outcome_findParty {party_name : Party} (h : party_name ∈ X.env.party_info) :
    X.env.outcome (.findParty party_name) = .SUCCESS := by
  simp [Env.outcome, code, h]

theorem outcome_inputNotEmpty (hinput : X.env.input ≠ []) :
    X.env.outcome .inputNotEmpty = .SUCCESS := by
  simp [Env.outcome, code, hinput]

theorem outcome_partyNameValid : X.env.outcome .partyNameValid = .SUCCESS := by
  simp [Env.outcome, code, X.party_name]

theorem outcome_responseNotEmpty : X.env.outcome .responseNotEmpty = .SUCCESS := by
  simp [Env.outcome, code, X.response_str]

section Ecdh

open EcdhPsiOperator

theorem passes_SendPSIRequestAndWaitResponse :
    Passes fails (SendPSIRequestAndWaitResponse X.env) id := by
  refine X.passes_step (X.ret _) ?_
  refine X.passes_step (X.ret _) ?_
  refine X.passes_step (X.ret _) ?_
  refine X.passes_step X.outcome_responseNotEmpty ?_
  refine X.passes_step (X.ret _) ?_
  exact X.passes_step (X.ret _) passes_SUCCESS

theorem passes_GetIntersection :
    Passes fails (GetIntersection X.env) fun result => result ++ GetResult X.env := by
  refine X.passes_step (X.ret _) ?_
  refine X.passes_step (X.ret _) ?_
  exact passes_SUCCESS.modify

theorem passes_BuildInitParam : Passes fails (BuildInitParam X.env) id := by
  refine X.passes_step (X.ret _) ?_
  exact X.passes_step (X.ret _) passes_SUCCESS

theorem passes_ExecuteAsClient :
    Passes fails (ExecuteAsClient X.env) fun result => result ++ GetResult X.env := by
  refine X.passes_step (X.ret _) ?_
  apply passes_drop X.passes_BuildInitParam
  refine X.passes_step (X.ret _) ?_
  apply passes_call X.passes_SendPSIRequestAndWaitResponse
  exact X.passes_GetIntersection.check passes_SUCCESS

theorem resultOf_ecdh (hinput : X.env.input ≠ []) :
    resultOf (EcdhPsiOperator.OnExecute X.env) = GetResult X.env := by
  have hrun : Passes fails (EcdhPsiOperator.OnExecute X.env)
      fun result => result ++ GetResult X.env := by
    refine X.passes_step (X.outcome_inputNotEmpty hinput) ?_
    rw [if_pos X.party_name]
    exact X.passes_ExecuteAsClient
  exact (hrun ⟨[], []⟩).2

end Ecdh

section Kkrt

open KkrtPsiOperator

theorem resultOf_kkrt (hinput : X.env.input ≠ []) :
    resultOf (KkrtPsiOperator.OnExecute X.env) = GetResult X.env := by
  have hpeer : peerName X.env.party_name = .PARTY_SERVER := by
    rw [X.party_name]
    rfl
  have hchannel : Passes fails (BuildChannelInterface X.env) id := by
    refine X.passes_step X.outcome_partyNameValid ?_
    refine X.passes_step ?_ passes_SUCCESS
    rw [hpeer]
    exact X.outcome_findParty X.server_known
  have hrun : Passes fails (KkrtPsiOperator.OnExecute X.env) fun _ => GetResult X.env := by
    refine X.passes_step (X.outcome_inputNotEmpty hinput) ?_
    refine passes_call hchannel ?_
    rw [if_pos X.party_name]
    exact passes_SUCCESS.modify
  exact (hrun ⟨[], []⟩).2

end Kkrt

section Tee

open TeePsiOperator

/-- What the client of TEE does with the decrypted buffer. -/
def readHashes (result : List Bytes) : List Bytes :=
  if X.env.plain_result = [] then result else result ++ intersection X.env

theorem passes_DecryptDataWithShareKey : Passes fails (DecryptDataWithShareKey X.env) id := by
  refine X.passes_step (X.ret _) ?_
  split
  · exact passes_SUCCESS
  · exact X.passes_drop_step _ (X.passes_drop_step _ passes_SUCCESS)

theorem passes_receiveIntersection :
    Passes fails (receiveIntersection X.env) X.readHashes := by
  unfold receiveIntersection
  rw [if_pos X.party_name]
  refine X.passes_step (X.ret _) ?_
  suffices h : Passes fails (if X.env.plain_result = [] then SUCCESS
      else CHECK_RETCODE (GetIntersection X.env) SUCCESS) X.readHashes by
    exact X.passes_DecryptDataWithShareKey.check h
  unfold readHashes
  by_cases hempty : X.env.plain_result = []
  · simp only [if_pos hempty]
    exact passes_SUCCESS
  · simp only [if_neg hempty]
    have hfind : Passes fails (GetIntersection X.env)
        fun result => result ++ intersection X.env := passes_SUCCESS.modify
    exact hfind.check passes_SUCCESS

/-- The client of TEE does not know of a difference. -/
theorem resultOf_tee (hinput : X.env.input ≠ []) :
    resultOf (TeePsiOperator.OnExecute X.env) = X.order := by
  have hprovider : Passes fails (ExecuteAsDataProvider X.env) X.readHashes := by
    refine X.passes_step (X.outcome_findParty X.compute_known) ?_
    refine X.passes_step (X.ret _) ?_
    refine X.passes_step (X.ret _) ?_
    refine X.passes_step (X.ret _) ?_
    refine X.passes_drop_step _ ?_
    exact X.passes_drop_step _ X.passes_receiveIntersection
  have hclient : ¬ X.env.party_name = .PARTY_TEE_COMPUTE := by
    rw [X.party_name]
    exact Party.noConfusion
  have hrun : Passes fails (TeePsiOperator.OnExecute X.env) X.readHashes := by
    unfold TeePsiOperator.OnExecute
    rw [if_neg hclient]
    refine X.passes_step (X.outcome_inputNotEmpty hinput) ?_
    exact hprovider.drop passes_SUCCESS
  calc resultOf (TeePsiOperator.OnExecute X.env)
      = X.readHashes [] := (hrun ⟨[], []⟩).2
    _ = X.order := by
        unfold readHashes
        split
        · exact (X.plain_result_eq_nil_iff.mp ‹_›).symm
        · exact X.intersection_eq hinput

end Tee

/-- Without data every operator stops at once. -/
theorem resultOf_empty (hinput : X.env.input = []) (op : PsiType) :
    resultOf (OnExecute X.env op) = [] := by
  have hfails : fails ((perform X.env .inputNotEmpty).run ⟨[], []⟩).1 = true := by
    show fails (X.env.outcome .inputNotEmpty) = true
    simp [Env.outcome, code, hinput, fails]
  have hstop : ∀ k : Prog, resultOf (CHECK_RETCODE (perform X.env .inputNotEmpty) k) = [] := by
    intro k
    unfold resultOf CHECK_RETCODE
    rw [ReturnCodes.run_check, if_pos hfails]
    rfl
  have hclient : ¬ X.env.party_name = .PARTY_TEE_COMPUTE := by
    rw [X.party_name]
    exact Party.noConfusion
  cases op with
  | ECDH => exact hstop _
  | KKRT => exact hstop _
  | TEE =>
      show resultOf (TeePsiOperator.OnExecute X.env) = []
      unfold TeePsiOperator.OnExecute
      rw [if_neg hclient]
      exact hstop _

/-! ## The results -/

theorem isResult_nil (hinput : X.env.input = []) : X.IsResult [] := by
  have hcommon : X.common = [] := by rw [common, hinput, List.filter_nil]
  have hdifferent : X.different = [] := by rw [different, hinput, List.filter_nil]
  unfold IsResult
  split
  · rw [hcommon]
  · exact hdifferent.symm

/-- An element of the client is either common or not. -/
theorem order_ne_different (hinput : X.env.input ≠ []) : X.order ≠ X.different := by
  intro heq
  obtain ⟨item, items, hcons⟩ := List.exists_cons_of_ne_nil hinput
  have hitem : item ∈ X.env.input := by
    rw [hcons]
    exact List.mem_cons_self
  have hiff : item ∈ X.common ↔ item ∈ X.different := by
    rw [← heq]
    exact X.order_perm.mem_iff.symm
  rw [common, different, List.mem_filter, List.mem_filter] at hiff
  simp [hitem] at hiff

theorem isResult_order_iff (hinput : X.env.input ≠ []) :
    X.IsResult X.order ↔ X.env.psi_result_type = .INTERSECTION := by
  unfold IsResult
  cases htype : X.env.psi_result_type with
  | INTERSECTION => exact iff_of_true X.order_perm rfl
  | DIFFERENCE => exact iff_of_false (X.order_ne_different hinput) PsiResultType.noConfusion

end Exchange

/-- **ECDH and KKRT give the result that is asked for; TEE gives the intersection.** -/
theorem converts_iff_asked (X : Exchange) (op : PsiType) :
    X.Converts op ↔
      (op = .TEE → X.env.psi_result_type = .INTERSECTION ∨ X.env.input = []) := by
  rw [X.converts_iff]
  by_cases hinput : X.env.input = []
  · rw [X.resultOf_empty hinput]
    exact iff_of_true (X.isResult_nil hinput) fun _ => Or.inr hinput
  · have hright : X.IsResult (GetResult X.env) := X.isResult_getResult
    cases op with
    | ECDH => exact iff_of_true (X.resultOf_ecdh hinput ▸ hright) PsiType.noConfusion
    | KKRT => exact iff_of_true (X.resultOf_kkrt hinput ▸ hright) PsiType.noConfusion
    | TEE =>
        show X.IsResult (resultOf (TeePsiOperator.OnExecute X.env)) ↔ _
        rw [X.resultOf_tee hinput, X.isResult_order_iff hinput]
        simp [hinput]

theorem limit_lt_oneElement : 1024 < 256 ^ 8 := by norm_num

/-- A client with one element and a server with none. -/
def oneElement (psi_result_type : PsiResultType) : Exchange where
  env := {
    party_name := .PARTY_CLIENT
    party_info := [.PARTY_CLIENT, .PARTY_SERVER, .PARTY_TEE_COMPUTE]
    psi_result_type := psi_result_type
    sync_result := false
    input := [[97]]
    ret := fun _ => .SUCCESS
    intersection_index := []
    response_str := [0]
    hashToString := fun item => [item.headD 0]
    plain_result := []
    sent := []
    leftover := []
    limit := 1024
    limit_lt := limit_lt_oneElement
    sent_fits := by simp }
  server := []
  input_nodup := by simp
  server_nodup := by simp
  party_name := rfl
  server_known := by simp
  compute_known := by simp
  ret := fun _ => rfl
  response_str := by simp
  index_nodup := by simp
  mem_index := by simp
  hash_size := 1
  hash_size_pos := Nat.one_pos
  length_hash := fun _ => rfl
  hash_injective := by simp
  order := []
  order_perm := by simp
  plain_result := rfl

/-- The client asks TEE for the difference and gets the intersection. -/
theorem not_converts_oneElement : ¬ (oneElement .DIFFERENCE).Converts .TEE := by
  intro h
  rw [Exchange.converts_iff] at h
  have hlost : ([] : List Bytes) = [[97]] := h
  exact List.cons_ne_nil _ _ hlost.symm

end Fediux.Psi
