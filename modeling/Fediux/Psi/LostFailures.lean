import Fediux.Psi.Operators

set_option autoImplicit false

/-! # The failures that a PSI task forgets

Which steps of each operator decide the outcome of `PsiTask::execute`, and which are lost on the
way.
-/

namespace Fediux.Psi

open ReturnCodes (AnyFails Keeps Run State)

/-! ## The rules for the macros -/

variable {env : Env} {op : PsiType} {m k : Prog} {c l c' l' : List Step}

theorem keeps_SUCCESS : Keeps env.Failing fails SUCCESS [] [] := Keeps.pure rfl

theorem keeps_perform (step : Step) : Keeps env.Failing fails (perform env step) [step] [] :=
  Keeps.perform Iff.rfl

theorem keeps_CHECK_RETCODE (hm : Keeps env.Failing fails m c l)
    (hk : Keeps env.Failing fails k c' l') :
    Keeps env.Failing fails (CHECK_RETCODE m k) (c ++ c') (l ++ l') :=
  hm.check rfl hk

theorem keeps_check_step {step : Step} (hk : Keeps env.Failing fails k c' l') :
    Keeps env.Failing fails (CHECK_RETCODE (perform env step) k) (step :: c') l' :=
  keeps_CHECK_RETCODE (keeps_perform step) hk

theorem keeps_drop (hm : Keeps env.Failing fails m c l) (hk : Keeps env.Failing fails k c' l') :
    Keeps env.Failing fails (drop m k) c' (c ++ l ++ l') :=
  hm.drop hk

theorem keeps_drop_step {step : Step} (hk : Keeps env.Failing fails k c' l') :
    Keeps env.Failing fails (drop (perform env step) k) c' (step :: l') :=
  keeps_drop (keeps_perform step) hk

/-! ## The steps of the operators -/

namespace EcdhPsiOperator

/-- The steps whose failure ends the operator. -/
def checkedSteps (env : Env) : List Step :=
  .inputNotEmpty ::
    match env.party_name with
    | .PARTY_CLIENT =>
        [.CHECK_TASK_STOPPED .ExecuteAsClient, .sendInitParam,
          .CHECK_TASK_STOPPED .SendPSIRequestAndWaitResponse, .sendRequest, .recvResponse,
          .responseNotEmpty, .CHECK_TASK_STOPPED .ParsePsiResponseFromeString,
          .data_structure_case, .CHECK_TASK_STOPPED .GetIntersection, .data_structure_case]
    | .PARTY_SERVER =>
        [.CHECK_TASK_STOPPED .ExecuteAsServer, .CHECK_TASK_STOPPED .RecvInitParam, .recvInitParam,
          .dataset_size, .reveal_intersection, .CHECK_TASK_STOPPED .InitRequest, .recvRequest]
    | _ => [.partyNameValid]

/-- The steps whose failure the operator forgets. -/
def lostSteps (env : Env) : List Step :=
  match env.party_name with
  | .PARTY_CLIENT => [.CHECK_TASK_STOPPED .BuildInitParam, .SerializeToString]
  | .PARTY_SERVER => [.CHECK_TASK_STOPPED .PreparePSIResponse, .sendResponse]
  | _ => []

theorem keeps_BuildInitParam : Keeps env.Failing fails (BuildInitParam env)
    [.CHECK_TASK_STOPPED .BuildInitParam, .SerializeToString] [] :=
  keeps_check_step <| keeps_check_step keeps_SUCCESS

theorem keeps_SendPSIRequestAndWaitResponse :
    Keeps env.Failing fails (SendPSIRequestAndWaitResponse env)
      [.CHECK_TASK_STOPPED .SendPSIRequestAndWaitResponse, .sendRequest, .recvResponse,
        .responseNotEmpty, .CHECK_TASK_STOPPED .ParsePsiResponseFromeString,
        .data_structure_case] [] :=
  keeps_check_step <| keeps_check_step <| keeps_check_step <| keeps_check_step <|
    keeps_check_step <| keeps_check_step keeps_SUCCESS

theorem keeps_GetIntersection : Keeps env.Failing fails (GetIntersection env)
    [.CHECK_TASK_STOPPED .GetIntersection, .data_structure_case] [] :=
  keeps_check_step <| keeps_check_step <| Keeps.modify keeps_SUCCESS

theorem keeps_RecvInitParam : Keeps env.Failing fails (RecvInitParam env)
    [.CHECK_TASK_STOPPED .RecvInitParam, .recvInitParam, .dataset_size, .reveal_intersection]
    [] :=
  keeps_check_step <| keeps_check_step <| keeps_check_step <| keeps_check_step keeps_SUCCESS

theorem keeps_InitRequest : Keeps env.Failing fails (InitRequest env)
    [.CHECK_TASK_STOPPED .InitRequest, .recvRequest] [] :=
  keeps_check_step <| keeps_check_step keeps_SUCCESS

theorem keeps_PreparePSIResponse : Keeps env.Failing fails (PreparePSIResponse env)
    [.CHECK_TASK_STOPPED .PreparePSIResponse, .sendResponse] [] :=
  keeps_check_step <| keeps_check_step keeps_SUCCESS

theorem keeps_OnExecute :
    Keeps env.Failing fails (OnExecute env) (checkedSteps env) (lostSteps env) := by
  unfold OnExecute checkedSteps lostSteps
  apply keeps_check_step
  cases env.party_name with
  | PARTY_CLIENT =>
      apply keeps_check_step
      apply keeps_drop keeps_BuildInitParam
      apply keeps_check_step
      apply keeps_CHECK_RETCODE keeps_SendPSIRequestAndWaitResponse
      exact keeps_CHECK_RETCODE keeps_GetIntersection keeps_SUCCESS
  | PARTY_SERVER =>
      apply keeps_check_step
      apply keeps_CHECK_RETCODE keeps_RecvInitParam
      apply keeps_CHECK_RETCODE keeps_InitRequest
      exact keeps_drop keeps_PreparePSIResponse keeps_SUCCESS
  | PARTY_TEE_COMPUTE => exact keeps_perform _
  | other party_name => exact keeps_perform _

end EcdhPsiOperator

namespace KkrtPsiOperator

def checkedSteps (env : Env) : List Step :=
  [.inputNotEmpty, .partyNameValid, .findParty (peerName env.party_name)]

theorem keeps_OnExecute : Keeps env.Failing fails (OnExecute env) (checkedSteps env) [] := by
  apply keeps_check_step
  apply keeps_CHECK_RETCODE (c := [_, _]) (l := [])
  · exact keeps_check_step <| keeps_check_step keeps_SUCCESS
  · by_cases hclient : env.party_name = .PARTY_CLIENT
    · rw [if_pos hclient]
      exact Keeps.modify keeps_SUCCESS
    · rw [if_neg hclient]
      exact keeps_SUCCESS

end KkrtPsiOperator

namespace TeePsiOperator

def checkedSteps (env : Env) : List Step :=
  if env.party_name = .PARTY_TEE_COMPUTE then [] else [.inputNotEmpty]

/-- The steps of the client after its data is sent. -/
def receiveSteps (env : Env) : List Step :=
  if env.party_name = .PARTY_CLIENT then
    [.recvCipherResult, .get_plain_size] ++
      if env.plain_result = [] then []
      else [.findParty .PARTY_TEE_COMPUTE, .decrypt_data_with_sharekey]
  else []

/-- Everything after the first test. -/
def lostSteps (env : Env) : List Step :=
  if env.party_name = .PARTY_TEE_COMPUTE then
    (data_provider env).flatMap (fun node =>
        [.recvData node, .decrypt_data_with_sharekey_inside node]) ++
      [.do_compute, .findParty .PARTY_CLIENT, .encrypt_data_with_sharekey_inside,
        .sendCipherResult]
  else
    [.findParty .PARTY_TEE_COMPUTE, .build_ratls_channel, .hashInit, .encrypt_data_with_sharekey,
      .findParty env.party_name, .sendData] ++ receiveSteps env

theorem keeps_ReceiveDataFromDataProvider : Keeps env.Failing fails
    (ReceiveDataFromDataProvider env)
    ((data_provider env).flatMap (fun node =>
      [.recvData node, .decrypt_data_with_sharekey_inside node])) [] := by
  have hbody : ∀ node, Keeps env.Failing fails (CHECK_RETCODE (perform env (.recvData node))
      (perform env (.decrypt_data_with_sharekey_inside node)))
      [.recvData node, .decrypt_data_with_sharekey_inside node] [] :=
    fun node => keeps_check_step (keeps_perform _)
  have h := Keeps.checkAll hbody (r := .FAIL) rfl keeps_SUCCESS (data_provider env)
  exact h.congr (by simp) (by simp)

theorem keeps_SendEncryptedResult : Keeps env.Failing fails (SendEncryptedResult env)
    [.findParty .PARTY_CLIENT, .encrypt_data_with_sharekey_inside, .sendCipherResult] [] :=
  keeps_check_step <| keeps_check_step <| keeps_check_step keeps_SUCCESS

theorem keeps_ExecuteAsCompute : Keeps env.Failing fails (ExecuteAsCompute env)
    ((data_provider env).flatMap (fun node =>
        [.recvData node, .decrypt_data_with_sharekey_inside node]) ++
      [.do_compute, .findParty .PARTY_CLIENT, .encrypt_data_with_sharekey_inside,
        .sendCipherResult]) [] :=
  keeps_CHECK_RETCODE keeps_ReceiveDataFromDataProvider <| keeps_check_step <|
    keeps_CHECK_RETCODE keeps_SendEncryptedResult keeps_SUCCESS

/-- The decryption ends with `SUCCESS` if the size could be read. -/
theorem keeps_DecryptDataWithShareKey : Keeps env.Failing fails (DecryptDataWithShareKey env)
    [.get_plain_size]
    (if env.plain_result = [] then []
      else [.findParty .PARTY_TEE_COMPUTE, .decrypt_data_with_sharekey]) := by
  apply keeps_check_step
  split
  · exact keeps_SUCCESS
  · exact keeps_drop_step <| keeps_drop_step keeps_SUCCESS

/-- A failure to receive is reported to the caller, one of the decryption is not. -/
theorem keeps_receiveIntersection : ∃ checked lost,
    Keeps env.Failing fails (receiveIntersection env) checked lost ∧
      checked ++ lost = receiveSteps env := by
  unfold receiveIntersection receiveSteps
  by_cases hclient : env.party_name = .PARTY_CLIENT
  · rw [if_pos hclient, if_pos hclient]
    have hfind : Keeps env.Failing fails (if env.plain_result = [] then SUCCESS
        else CHECK_RETCODE (GetIntersection env) SUCCESS) [] [] := by
      split
      · exact keeps_SUCCESS
      · exact keeps_CHECK_RETCODE (c := []) (l := []) (Keeps.modify keeps_SUCCESS) keeps_SUCCESS
    refine ⟨_, _, keeps_check_step (keeps_DecryptDataWithShareKey.leave rfl hfind), ?_⟩
    simp
  · rw [if_neg hclient, if_neg hclient]
    exact ⟨[], [], keeps_SUCCESS, rfl⟩

/-- All steps of a data provider, whatever the function reports of them. -/
theorem keeps_ExecuteAsDataProvider : ∃ checked lost,
    Keeps env.Failing fails (ExecuteAsDataProvider env) checked lost ∧
      (AnyFails env.Failing (checked ++ lost) ↔
        AnyFails env.Failing ([.findParty .PARTY_TEE_COMPUTE, .build_ratls_channel, .hashInit,
          .encrypt_data_with_sharekey, .findParty env.party_name, .sendData] ++
            receiveSteps env)) := by
  obtain ⟨checked, lost, hreceive, hsteps⟩ := @keeps_receiveIntersection env
  refine ⟨_, _, keeps_check_step <| keeps_check_step <| keeps_check_step <| keeps_check_step <|
    keeps_drop_step <| keeps_drop_step hreceive, ?_⟩
  rw [← hsteps]
  simp only [List.cons_append, List.nil_append, ReturnCodes.anyFails_cons,
    ReturnCodes.anyFails_append, or_left_comm]

theorem keeps_OnExecute :
    Keeps env.Failing fails (OnExecute env) (checkedSteps env) (lostSteps env) := by
  unfold OnExecute checkedSteps lostSteps
  by_cases hcompute : env.party_name = .PARTY_TEE_COMPUTE
  · rw [if_pos hcompute, if_pos hcompute, if_pos hcompute]
    have h := keeps_drop (@keeps_ExecuteAsCompute env) keeps_SUCCESS
    rwa [List.append_nil, List.append_nil] at h
  · rw [if_neg hcompute, if_neg hcompute, if_neg hcompute]
    apply keeps_check_step
    obtain ⟨checked, lost, hprovider, hsteps⟩ := @keeps_ExecuteAsDataProvider env
    refine (keeps_drop hprovider keeps_SUCCESS).congr Iff.rfl ?_
    rw [List.append_nil, hsteps]

end TeePsiOperator

/-! ## The steps of a task -/

section

variable (env : Env) (op : PsiType)

namespace BasePsiOperator

/-- The result is received by everybody but the client and the party that computes. -/
def receives : Bool :=
  env.sync_result && !(env.party_name = .PARTY_TEE_COMPUTE || env.party_name = .PARTY_CLIENT)

/-- A `Recv` that fails is noticed if it leaves something in the buffer. -/
def checkedSteps : List Step :=
  if receives env = true ∧ env.leftover ≠ [] then [.recvResult] else []

def lostSteps : List Step :=
  if receives env = true then if env.leftover = [] then [.recvResult] else []
  else if env.sync_result = true ∧ env.party_name = .PARTY_CLIENT then
    (BroadcastPartyList env).map .sendResult
  else []

end BasePsiOperator

/-- The steps of the operator. -/
def operatorChecked : List Step :=
  match op with
  | .ECDH => EcdhPsiOperator.checkedSteps env
  | .KKRT => KkrtPsiOperator.checkedSteps env
  | .TEE => TeePsiOperator.checkedSteps env

def operatorLost : List Step :=
  match op with
  | .ECDH => EcdhPsiOperator.lostSteps env
  | .KKRT => []
  | .TEE => TeePsiOperator.lostSteps env

namespace PsiTask

/-- The party that the constructor of an operator looks for. -/
def peerSteps : List Step :=
  if env.party_name = .PARTY_CLIENT ∨ env.party_name = .PARTY_SERVER then
    [.findParty (peerName env.party_name)]
  else []

/-- The steps whose failure ends the task with an exception. -/
def checkedSteps : List Step :=
  [.LoadParams, .LoadDataset] ++ (if op = .TEE then [.executor] else []) ++
    operatorChecked env op ++ BasePsiOperator.checkedSteps env ++
    if NeedSaveResult env then [.SaveDataToCSVFile] else []

/-- The steps whose failure is forgotten. -/
def lostSteps : List Step :=
  peerSteps env ++ operatorLost env op ++ BasePsiOperator.lostSteps env

end PsiTask

end

theorem keeps_operator :
    Keeps env.Failing fails (OnExecute env op) (operatorChecked env op) (operatorLost env op) := by
  cases op with
  | ECDH => exact EcdhPsiOperator.keeps_OnExecute
  | KKRT => exact KkrtPsiOperator.keeps_OnExecute
  | TEE => exact TeePsiOperator.keeps_OnExecute

/-- What `ReceiveResult` does with its buffer: it is no fault, and a failure if `Recv` failed and
left something. -/
theorem receiveResult_ne_error (env : Env) (result : List Node.Bytes) : ∃ out,
    ReceiveResult env.limit (env.outcome .recvResult, env.recv_data_str) result = .ok out ∧
      (fails out.1 = true ↔ env.Failing .recvResult ∧ env.leftover ≠ []) := by
  unfold Env.recv_data_str
  by_cases hrecv : env.outcome .recvResult = .SUCCESS
  · rw [if_pos hrecv, hrecv]
    refine ⟨_, receiveResult_resultStr env.limit_lt env.sent_fits result, ?_⟩
    simp [fails, Env.Failing, hrecv]
  · rw [if_neg hrecv]
    have hfailing : env.Failing .recvResult := by simp [Env.Failing, fails, hrecv]
    by_cases hleft : env.leftover = []
    · have hparse : Framing.parse env.limit terminator [] = .ok [] :=
        Framing.parse_blocks env.limit_lt fun _ h => absurd h List.not_mem_nil
      rw [ReceiveResult, if_neg (by simp [hleft]), hleft, hparse]
      refine ⟨_, rfl, ?_⟩
      simp [fails]
    · rw [ReceiveResult, if_pos ⟨hrecv, hleft⟩]
      refine ⟨_, rfl, ?_⟩
      simp [fails, hfailing, hleft]

namespace BasePsiOperator

theorem keeps_ReceiveResult : Keeps env.Failing fails (ReceiveResult env)
    (if env.leftover ≠ [] then [.recvResult] else [])
    (if env.leftover = [] then [.recvResult] else []) := by
  intro s
  obtain ⟨out, hout, hfails⟩ := receiveResult_ne_error env s.data
  have hrun : (ReceiveResult env).run s = (out.1, ⟨s.steps ++ [.recvResult], out.2⟩) := by
    simp only [ReceiveResult, bind, perform, Run.perform, Run.get, hout]
    rfl
  rw [hrun, hfails]
  by_cases hleft : env.leftover = []
  · simp [hleft]
  · simp [hleft]

theorem keeps_BroadcastResult : Keeps env.Failing fails (BroadcastResult env) []
    ((BroadcastPartyList env).map .sendResult) := by
  have hbody : ∀ party, Keeps env.Failing fails (perform env (.sendResult party))
      [.sendResult party] [] := fun party => keeps_perform _
  have h := Keeps.dropAll hbody keeps_SUCCESS (BroadcastPartyList env)
  refine h.congr Iff.rfl ?_
  simp [AnyFails]

/-- The part of `Execute` behind the operator. -/
theorem keeps_broadcast : Keeps env.Failing fails
    (if env.sync_result then BroadcastPsiResult env else SUCCESS)
    (checkedSteps env) (lostSteps env) := by
  unfold checkedSteps lostSteps receives BroadcastPsiResult
  cases env.sync_result with
  | false => simpa using keeps_SUCCESS
  | true =>
      by_cases hcompute : env.party_name = .PARTY_TEE_COMPUTE
      · simpa [hcompute] using keeps_SUCCESS
      · by_cases hclient : env.party_name = .PARTY_CLIENT
        · simpa [hclient] using keeps_BroadcastResult
        · simpa [hcompute, hclient] using keeps_ReceiveResult

end BasePsiOperator

theorem keeps_Execute : Keeps env.Failing fails (Execute env op)
    (operatorChecked env op ++ BasePsiOperator.checkedSteps env)
    (operatorLost env op ++ BasePsiOperator.lostSteps env) :=
  keeps_CHECK_RETCODE keeps_operator BasePsiOperator.keeps_broadcast

theorem keeps_PeerNode : Keeps env.Failing fails (PeerNode env SUCCESS) []
    (PsiTask.peerSteps env) := by
  unfold PeerNode PsiTask.peerSteps
  split
  · exact keeps_drop_step keeps_SUCCESS
  · exact keeps_SUCCESS

theorem keeps_InitOperator : Keeps env.Failing fails (PsiTask.InitOperator env op)
    (if op = .TEE then [.executor] else []) (PsiTask.peerSteps env) := by
  cases op with
  | ECDH => exact keeps_PeerNode
  | KKRT => exact keeps_PeerNode
  | TEE => exact keeps_check_step keeps_PeerNode

namespace PsiTask

def failsTask (result : Except String ℤ) : Bool := !result.isOk

theorem keeps_SaveResult : Keeps env.Failing fails (SaveResult env)
    (if NeedSaveResult env then [.SaveDataToCSVFile] else []) [] := by
  unfold SaveResult
  have hdone : Keeps env.Failing fails (pure .SUCCESS : Run Step Data Node.Retcode) [] [] :=
    Keeps.pure rfl
  split
  · have hsave : Keeps env.Failing fails (Run.perform env.outcome .SaveDataToCSVFile :
        Run Step Data Node.Retcode) [.SaveDataToCSVFile] [] := Keeps.perform Iff.rfl
    exact hsave.check rfl (Keeps.modify hdone)
  · exact hdone

theorem keeps_break {msg : String} {m : Run Step Data Node.Retcode}
    {k : Run Step Data (Except String ℤ)} (hm : Keeps env.Failing fails m c l)
    (hk : Keeps env.Failing failsTask k c' l') :
    Keeps env.Failing failsTask (BREAK_LOOP_BY_RETCODE msg m k) (c ++ c') (l ++ l') :=
  hm.check rfl hk

theorem keeps_onResult (hm : Keeps env.Failing fails m c l) :
    Keeps env.Failing fails (onResult m) c l :=
  hm.focus _ _

theorem keeps_done :
    Keeps env.Failing failsTask (pure (.ok 0) : Run Step Data (Except String ℤ)) [] [] :=
  Keeps.pure rfl

theorem keeps_execute : Keeps env.Failing failsTask (execute env op) (checkedSteps env op)
    (lostSteps env op) := by
  have h : Keeps env.Failing failsTask (execute env op) _ _ :=
    keeps_break (keeps_onResult (keeps_perform _)) <|
    keeps_break (keeps_onResult (keeps_perform _)) <|
    keeps_break (keeps_onResult keeps_InitOperator) <|
    keeps_break (keeps_onResult keeps_Execute) <|
    keeps_break keeps_SaveResult keeps_done
  refine h.congr ?_ ?_
  · unfold checkedSteps
    simp only [List.cons_append, List.nil_append, List.append_nil, ReturnCodes.anyFails_cons,
      ReturnCodes.anyFails_append, or_assoc]
  · unfold lostSteps
    simp only [List.nil_append, List.append_nil, ReturnCodes.anyFails_append, or_assoc]

/-- If the rest of a task has saved nothing when it throws, then so has the task. -/
theorem saved_break {msg : String} {m : Run Step Data Node.Retcode}
    {k : Run Step Data (Except String ℤ)}
    (hm : ∀ s, (m.run s).2.data.saved = s.data.saved)
    (hk : ∀ s, s.data.saved = none → failsTask (k.run s).1 = true →
      (k.run s).2.data.saved = none)
    (s : State Step Data) (hs : s.data.saved = none)
    (h : failsTask ((BREAK_LOOP_BY_RETCODE msg m k).run s).1 = true) :
    ((BREAK_LOOP_BY_RETCODE msg m k).run s).2.data.saved = none := by
  rw [BREAK_LOOP_BY_RETCODE, ReturnCodes.run_check] at h ⊢
  by_cases hfail : fails (m.run s).1 = true
  · rw [if_pos hfail]
    exact (hm s).trans hs
  · rw [if_neg hfail] at h ⊢
    exact hk _ ((hm s).trans hs) h

theorem saved_SaveResult (s : State Step Data) (hs : s.data.saved = none)
    (h : fails ((SaveResult env).run s).1 = true) :
    ((SaveResult env).run s).2.data.saved = none := by
  unfold SaveResult at h ⊢
  by_cases hneed : NeedSaveResult env = true
  · rw [if_pos hneed, ReturnCodes.run_check] at h ⊢
    by_cases hfail : fails ((Run.perform env.outcome .SaveDataToCSVFile).run s).1 = true
    · rw [if_pos hfail]
      exact hs
    · rw [if_neg hfail] at h
      cases h
  · rw [if_neg hneed] at h
    cases h

/-- A task that throws has saved nothing. -/
theorem saved_execute (s : State Step Data) (hs : s.data.saved = none)
    (h : failsTask ((execute env op).run s).1 = true) :
    ((execute env op).run s).2.data.saved = none := by
  refine saved_break (fun _ => rfl) (saved_break (fun _ => rfl) (saved_break (fun _ => rfl)
    (saved_break (fun _ => rfl) ?_))) s hs h
  intro s hs h
  rw [BREAK_LOOP_BY_RETCODE, ReturnCodes.run_check] at h ⊢
  by_cases hfail : fails ((SaveResult env).run s).1 = true
  · rw [if_pos hfail]
    exact saved_SaveResult s hs hfail
  · rw [if_neg hfail] at h
    cases h

/-! ## Reporting -/

/-- A new task. -/
def start : State Step Data := ⟨[], ⟨[], none⟩⟩

/-- A failure of any step makes `execute` throw, and nothing is saved. -/
def Reports (env : Env) (op : PsiType) : Prop :=
  let (ret, s) := (execute env op).run start
  AnyFails env.Failing s.steps → (∃ error_msg, ret = .error error_msg) ∧ s.data.saved = none

/-- A failure of any step is returned by `ExecuteTask`. -/
def ReportsToCaller (env : Env) (op : PsiType) : Prop :=
  let (ret, s) := (ExecuteTask env op).run ⟨[], []⟩
  AnyFails env.Failing s.steps → ret = .FAIL

theorem failsTask_iff {result : Except String ℤ} :
    failsTask result = true ↔ ∃ error_msg, result = .error error_msg := by
  cases result with
  | error error_msg => exact ⟨fun _ => ⟨error_msg, rfl⟩, fun _ => rfl⟩
  | ok n =>
      constructor
      · intro h
        cases h
      · rintro ⟨_, h⟩
        cases h

theorem reports_iff : Reports env op ↔
    AnyFails env.Failing (checkedSteps env op) ∨ ¬ AnyFails env.Failing (lostSteps env op) := by
  obtain ⟨hcode, hsteps⟩ := @keeps_execute env op start
  have hstart : ¬ AnyFails env.Failing start.steps := ReturnCodes.anyFails_nil
  show (AnyFails env.Failing ((execute env op).run start).2.steps →
    (∃ error_msg, ((execute env op).run start).1 = .error error_msg) ∧
      ((execute env op).run start).2.data.saved = none) ↔ _
  rw [hsteps, ← failsTask_iff, hcode]
  constructor
  · intro h
    by_cases hlost : AnyFails env.Failing (lostSteps env op)
    · exact Or.inl (h (Or.inr (Or.inr hlost))).1
    · exact Or.inr hlost
  · rintro (hchecked | hlost) h
    · exact ⟨hchecked, saved_execute start rfl (hcode.mpr hchecked)⟩
    · have hchecked : AnyFails env.Failing (checkedSteps env op) :=
        (h.resolve_left hstart).resolve_right hlost
      exact ⟨hchecked, saved_execute start rfl (hcode.mpr hchecked)⟩

/-- The steps of `ExecuteTask`, which loads no dataset and saves nothing. -/
def calledSteps (env : Env) (op : PsiType) : List Step :=
  .LoadParams :: (if op = .TEE then [.executor] else []) ++ operatorChecked env op ++
    BasePsiOperator.checkedSteps env ++ lostSteps env op

theorem keeps_ExecuteTask :
    ∃ lost, Keeps env.Failing fails (ExecuteTask env op) [] lost ∧
      (AnyFails env.Failing lost ↔ AnyFails env.Failing (calledSteps env op)) := by
  refine ⟨_, keeps_drop (keeps_check_step <| keeps_CHECK_RETCODE keeps_InitOperator <|
    keeps_drop keeps_Execute keeps_SUCCESS) keeps_SUCCESS, ?_⟩
  unfold calledSteps lostSteps
  simp only [List.cons_append, List.append_nil, ReturnCodes.anyFails_cons,
    ReturnCodes.anyFails_append, or_assoc, or_left_comm]

theorem reportsToCaller_iff :
    ReportsToCaller env op ↔ ¬ AnyFails env.Failing (calledSteps env op) := by
  obtain ⟨lost, hkeeps, hlost⟩ := @keeps_ExecuteTask env op
  obtain ⟨hcode, hsteps⟩ := hkeeps ⟨[], []⟩
  have hret : ((ExecuteTask env op).run ⟨[], []⟩).1 ≠ .FAIL := by
    intro h
    exact ReturnCodes.anyFails_nil (hcode.mp (by rw [h]; rfl))
  show (AnyFails env.Failing ((ExecuteTask env op).run ⟨[], []⟩).2.steps →
    ((ExecuteTask env op).run ⟨[], []⟩).1 = .FAIL) ↔ _
  rw [hsteps, hlost]
  constructor
  · intro h hcalled
    exact hret (h (Or.inr (Or.inr hcalled)))
  · rintro h (hnil | hnil | hcalled)
    · exact absurd hnil ReturnCodes.anyFails_nil
    · exact absurd hnil ReturnCodes.anyFails_nil
    · exact absurd hcalled h

/-- **When failures are reported**: `execute` reports them just when a step that is checked fails
as well or no step that is forgotten does, and `ExecuteTask` reports none at all. -/
theorem reporting_iff (env : Env) (op : PsiType) :
    (Reports env op ↔
      AnyFails env.Failing (checkedSteps env op) ∨
        ∀ step ∈ lostSteps env op, ¬ env.Failing step) ∧
    (ReportsToCaller env op ↔ ∀ step ∈ calledSteps env op, ¬ env.Failing step) := by
  have hall : ∀ steps, (¬ AnyFails env.Failing steps) ↔ ∀ step ∈ steps, ¬ env.Failing step := by
    intro steps
    rw [AnyFails]
    push Not
    rfl
  rw [reports_iff, reportsToCaller_iff, hall, hall]
  exact ⟨Iff.rfl, Iff.rfl⟩

/-- A task with one item in which one step fails. -/
def oneFailure (party_name : Party) (failing : Step) : Env where
  party_name := party_name
  party_info := [.PARTY_CLIENT, .PARTY_SERVER, .PARTY_TEE_COMPUTE]
  psi_result_type := .INTERSECTION
  sync_result := true
  input := [[49]]
  ret step := if step = failing then .FAIL else .SUCCESS
  intersection_index := [⟨0, by decide⟩]
  response_str := [1]
  hashToString item := item
  plain_result := [49]
  sent := [[49]]
  leftover := []
  limit := 1024
  limit_lt := by norm_num
  sent_fits := by simp

/-- The client's result does not reach the server, the server receives nothing, and the client of
a TEE task receives no result: each time the task ends with 0 and saves what it has. -/
theorem not_reports :
    ((execute (oneFailure .PARTY_CLIENT (.sendResult .PARTY_SERVER)) .ECDH).run start).1 = .ok 0 ∧
    ¬ Reports (oneFailure .PARTY_CLIENT (.sendResult .PARTY_SERVER)) .ECDH ∧
    ¬ Reports (oneFailure .PARTY_SERVER .recvResult) .KKRT ∧
    ¬ Reports (oneFailure .PARTY_CLIENT .recvCipherResult) .TEE := by
  refine ⟨rfl, ?_, ?_, ?_⟩
  · intro h
    obtain ⟨⟨_, hret⟩, _⟩ := h ⟨.sendResult .PARTY_SERVER, by decide, rfl⟩
    cases hret
  · rw [reports_iff]
    decide
  · intro h
    obtain ⟨⟨_, hret⟩, _⟩ := h ⟨.recvCipherResult, by decide, rfl⟩
    cases hret

end PsiTask

end Fediux.Psi
