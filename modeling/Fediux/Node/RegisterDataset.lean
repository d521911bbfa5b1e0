import Fediux.Basic.OrderedMap
import Fediux.Basic.Throwing
import Fediux.Node.Registry

set_option autoImplicit false

/-! # Registering a dataset

`RegisterDatasetProcess` enters a driver for the dataset into the driver registry before it
reads the dataset and stores its meta (`node/ds.cc`, `service/dataset/service.cc`). Every call
it makes may fail or throw. `keepsDrivers_iff` says when a request that fails leaves the
registry as it was.
-/

namespace Fediux.Node.Register

open OrderedMap (Entries assign erase find?)
open Throwing

/-- The code that a registration calls; a call without a result returns a null pointer. -/
structure Surroundings where
  Exn : Type
  AccessInfo : Type
  Driver : Type
  Cursor : Type
  Dataset : Type
  Meta : Type
  what : Exn → Str
  /-- The `std::invalid_argument` of a text. -/
  invalidArgument : Str → Exn
  createAccessInfo : Except Exn (Option AccessInfo)
  accessInfoToString : AccessInfo → Except Exn Str
  /-- `DataDirverFactory::getDriver`, which makes a new driver. -/
  getDriver : AccessInfo → Except Exn Driver
  read : Driver → Except Exn (Option Cursor)
  readMeta : Cursor → Except Exn (Option Dataset)
  /-- The constructor of `DatasetMeta`. -/
  makeMeta : Dataset → Str → Str → Except Exn Meta
  putMeta : Meta → Except Exn Retcode
  getDataURL : Meta → Str
  /-- `ThreadLocalErrorMsg`, as the calls that failed have left it. -/
  threadLocalErrorMsg : Str

/-- `rpc::NewDatasetResponse`. -/
structure NewDatasetResponse where
  retCode : Retcode
  datasetUrl : Str
  retMsg : Str
  deriving DecidableEq, Repr

variable (env : Surroundings)

/-- The driver registry and the reply. -/
structure State where
  driverManager : Entries Str env.Driver
  reply : NewDatasetResponse

abbrev Run (α : Type) : Type := Program (State env) env.Exn α

/-! ## `DatasetService` -/

variable {env}

def registerDriver (datasetId : Str) (driver : env.Driver) : Run env Unit :=
  Program.modify fun s => { s with driverManager := assign s.driverManager datasetId driver }

def unRegisterDriver (datasetId : Str) : Run env Unit :=
  Program.modify fun s => { s with driverManager := erase s.driverManager datasetId }

/-- The meta of the dataset, or a null pointer. -/
def newDataset (driver : env.Driver) (datasetId accessMeta : Str) :
    Except env.Exn (Option env.Meta) := do
  match ← env.read driver with
  | none => return none
  | some cursor =>
      match ← env.readMeta cursor with
      | none => return none
      | some dataset =>
          let mate ← env.makeMeta dataset datasetId accessMeta
          let ret ← env.putMeta mate
          if ret ≠ .SUCCESS then return none
          return some mate

/-! ## `DataServiceImpl` -/

def setResponseErrorMsg (errMsg : Str) : Run env Unit :=
  Program.modify fun s => { s with reply := { s.reply with retCode := .FAIL, retMsg := errMsg } }

/-- What both handlers of exceptions do. -/
def replyException (e : env.Exn) : Run env Unit :=
  setResponseErrorMsg ((env.what e).take 1024)

variable (env)

/-- The access info as text, and the driver, which is not registered yet. -/
def createDriver : Except env.Exn (Str × env.Driver) := do
  match ← env.createAccessInfo with
  | none => throw (env.invalidArgument "create access info failed".toList)
  | some accessInfo =>
      let accessMeta ← env.accessInfoToString accessInfo
      let driver ← env.getDriver accessInfo
      return (accessMeta, driver)

/-- The second part, with the driver in the registry. -/
def registerMeta (datasetId accessMeta : Str) (driver : env.Driver) : Run env Retcode := do
  match ← Program.call (newDataset driver datasetId accessMeta) with
  | none =>
      setResponseErrorMsg env.threadLocalErrorMsg
      unRegisterDriver datasetId
      return .FAIL
  | some mate =>
      Program.modify fun s => { s with
        reply := { s.reply with retCode := .SUCCESS, datasetUrl := env.getDataURL mate } }
      return .SUCCESS

def RegisterDatasetProcess (datasetId : Str) : Run env Retcode := do
  let created ← Program.tryCatch (do
      let (accessMeta, driver) ← Program.call (createDriver env)
      registerDriver datasetId driver
      return some (accessMeta, driver))
    fun e => do
      replyException e
      return none
  match created with
  | none => return .FAIL
  | some (accessMeta, driver) =>
      Program.tryCatch (registerMeta env datasetId accessMeta driver) fun e => do
        replyException e
        return .FAIL

def UpdateDatasetProcess (datasetId : Str) : Run env Retcode :=
  RegisterDatasetProcess env datasetId

/-! ## What a request leaves in the registry -/

variable {env}

/-- When the request replies `FAIL`, every dataset has the driver it had before. -/
def KeepsDrivers (request : Run env Retcode) (s : State env) : Prop :=
  (request.run s).2.reply.retCode = .FAIL →
    ∀ x, find? (request.run s).2.driverManager x = find? s.driverManager x

variable (env)

/-- Registration fails before there is a driver, or it succeeds, or the dataset, which is new,
cannot be read or stored and nothing throws. -/
def Harmless (datasetId : Str) (drivers : Entries Str env.Driver) : Prop :=
  match createDriver env with
  | .error _ => True
  | .ok (accessMeta, driver) =>
      match newDataset driver datasetId accessMeta with
      | .ok (some _) => True
      | .ok none => find? drivers datasetId = none
      | .error _ => find? drivers datasetId = some driver

variable {env}

theorem run_of_createDriver_error {e : env.Exn} (h : createDriver env = .error e) (datasetId : Str)
    (s : State env) : (RegisterDatasetProcess env datasetId).run s =
      (.ok .FAIL, { s with
        reply := { s.reply with retCode := .FAIL, retMsg := (env.what e).take 1024 } }) := by
  unfold RegisterDatasetProcess
  rw [h]
  rfl

theorem run_of_newDataset {accessMeta : Str} {driver : env.Driver}
    (h : createDriver env = .ok (accessMeta, driver)) (datasetId : Str) (s : State env) :
    (RegisterDatasetProcess env datasetId).run s =
      match newDataset driver datasetId accessMeta with
      | .ok none => (.ok .FAIL,
          { driverManager := erase (assign s.driverManager datasetId driver) datasetId
            reply := { s.reply with retCode := .FAIL, retMsg := env.threadLocalErrorMsg } })
      | .ok (some mate) => (.ok .SUCCESS,
          { driverManager := assign s.driverManager datasetId driver
            reply := { s.reply with retCode := .SUCCESS, datasetUrl := env.getDataURL mate } })
      | .error e => (.ok .FAIL,
          { driverManager := assign s.driverManager datasetId driver
            reply := { s.reply with retCode := .FAIL, retMsg := (env.what e).take 1024 } }) := by
  have hfirst : (RegisterDatasetProcess env datasetId).run s =
      (Program.tryCatch (registerMeta env datasetId accessMeta driver) fun e => do
        replyException e
        return .FAIL).run
        { s with driverManager := assign s.driverManager datasetId driver } := by
    unfold RegisterDatasetProcess
    rw [h]
    rfl
  rw [hfirst]
  unfold registerMeta Program.tryCatch
  rcases newDataset driver datasetId accessMeta with e | mate
  · rfl
  · cases mate <;> rfl

theorem keepsDrivers_register_iff (datasetId : Str) (s : State env) :
    KeepsDrivers (RegisterDatasetProcess env datasetId) s ↔
      Harmless env datasetId s.driverManager := by
  unfold KeepsDrivers Harmless
  cases hcreate : createDriver env with
  | error e =>
      rw [run_of_createDriver_error hcreate]
      simp
  | ok created =>
      obtain ⟨accessMeta, driver⟩ := created
      rw [run_of_newDataset hcreate]
      cases hnew : newDataset driver datasetId accessMeta with
      | error e =>
          -- the new driver stays
          simp only [hnew, OrderedMap.find?_assign, forall_const]
          constructor
          · intro h
            simpa using (h datasetId).symm
          · intro h x
            by_cases hx : x = datasetId
            · rw [if_pos hx, hx, h]
            · rw [if_neg hx]
      | ok mate =>
          cases mate with
          | none =>
              -- the dataset has no driver any more
              simp only [hnew, OrderedMap.find?_erase, OrderedMap.find?_assign, forall_const]
              constructor
              · intro h
                simpa using (h datasetId).symm
              · intro h x
                by_cases hx : x = datasetId
                · rw [if_pos hx, hx, h]
                · rw [if_neg hx, if_neg hx]
          | some mate => simp [hnew]

/-- **When a failed request leaves the driver registry as it was.** -/
theorem keepsDrivers_iff (env : Surroundings) (datasetId : Str) (s : State env) :
    (KeepsDrivers (RegisterDatasetProcess env datasetId) s ∧
      KeepsDrivers (UpdateDatasetProcess env datasetId) s) ↔
      Harmless env datasetId s.driverManager := by
  unfold UpdateDatasetProcess
  rw [and_self]
  exact keepsDrivers_register_iff datasetId s

/-- Surroundings in which the driver is made and the dataset cannot be read: drivers are
numbers, and the new one is 2. -/
def unreadable : Surroundings where
  Exn := Str
  AccessInfo := Unit
  Driver := Nat
  Cursor := Unit
  Dataset := Unit
  Meta := Unit
  what e := e
  invalidArgument msg := msg
  createAccessInfo := .ok (some ())
  accessInfoToString _ := .ok []
  getDriver _ := .ok 2
  read _ := .ok none
  readMeta _ := .ok none
  makeMeta _ _ _ := .ok ()
  putMeta _ := .ok .SUCCESS
  getDataURL _ := []
  threadLocalErrorMsg := []

/-- An update that fails takes the driver 1 of a registered dataset away. -/
theorem not_keepsDrivers : ¬ KeepsDrivers (UpdateDatasetProcess unreadable ['a'])
    { driverManager := [(['a'], (1 : Nat))], reply := ⟨.SUCCESS, [], []⟩ } := by
  intro h
  have hx : (none : Option Nat) = some 1 := h rfl ['a']
  cases hx

end Fediux.Node.Register
