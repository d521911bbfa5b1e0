import Fediux.Executor.Columns
import Fediux.Executor.Infix

set_option autoImplicit false

/-! # The evaluators

`MPCExpressExecutor::runMPCEvaluate` and `revealMPCResult` run at the three parties, and
`LocalExpressExecutor::runLocalEvaluate` runs on the plain columns (`executor/express.cc`).
Both walk the token stack with a stack of values; `Evaluator` is what differs. The parties
run the same token loop on their own values, so the loop is modelled once on the values of
all parties, and a step in which the parties would call different protocol steps stops with
`Fault.diverged`.
-/

namespace Fediux.Express

open OrderedMap (Entries find? assign)
open Replicated (Party Share)

/-! ## Token values -/

/-- `TokenValue` with the tags of the integer run mode. -/
inductive TokenValue where
  /-- `type == 1`: a local column. -/
  | i64Vec (xs : List I64)
  /-- `type == 3`: a constant. -/
  | i64Val (c : I64)
  /-- `type == 4`: a remote column. -/
  | remote
  /-- `type == 6`: a share matrix. -/
  | shI64 (m : Si64Matrix)
  deriving DecidableEq, Repr

def isSpace (c : Char) : Bool := c == ' ' || (9 ≤ c.toNat && c.toNat ≤ 13)

/-- `atol`: blanks, a sign and decimal digits up to the first other character, saturating. -/
def atol (s : Str) : I64 :=
  let s := s.dropWhile isSpace
  let digits := fun t : Str => ((t.takeWhile Char.isDigit).foldl
    (fun n c => 10 * n + (c.toNat - 48)) 0 : Nat)
  match s with
  | '-' :: t => BitVec.ofInt 64 (max (-2 ^ 63) (-digits t))
  | '+' :: t => BitVec.ofInt 64 (min (2 ^ 63 - 1) (digits t))
  | t => BitVec.ofInt 64 (min (2 ^ 63 - 1) (digits t))

/-- `MPCExpressExecutor::createTokenValue`; its failure makes `runMPCEvaluate` return `-1`.
A token without an entry in `token_type_map_` gets the first enumerator, `COLUMN`. -/
def createTokenValue (ex : Executor) (token : Str) : Except Fault TokenValue :=
  match (find? ex.tokenTypeMap token).getD .COLUMN with
  | .COLUMN => do
      let isLocal ← ex.colConfig.getColumnLocality token
      if isLocal = false then return .remote
      match ← ex.feedDict.getColumnValues token with
      | .error _ => .error (.failed (-1))
      | .ok xs => return .i64Vec xs
  | .VALUE => .ok (.i64Val (atol token))

/-! ## The token loop -/

/-- The local stacks of the loop and `token_val_map_`. -/
structure Loop (ν : Type) where
  stk1 : List Str
  valStk : List ν
  tokenValMap : Entries Str ν

/-- What a token loop does with an operand and an operator; `ρ` is the state of the protocol
engine. -/
structure Evaluator (ρ ν : Type) where
  createTokenValue : Str → Except Fault ν
  apply : ρ → Op → ν → ν → Except Fault (ν × ρ)

section Loop

variable {ρ ν : Type}

def Loop.new : Loop ν := { stk1 := [], valStk := [], tokenValMap := [] }

/-- `BeforeMPCRun`: the names and the values of both arguments. -/
def Loop.BeforeMPCRun (l : Loop ν) : Except Fault ((Str × ν) × (Str × ν) × Loop ν) :=
  match l.stk1, l.valStk with
  | b :: a :: stk1, val2 :: val1 :: valStk =>
      .ok ((a, val1), (b, val2), { l with stk1 := stk1, valStk := valStk })
  | _, _ => .error .outOfRange

/-- `AfterMPCRun`, also the end of the operand branch. -/
def Loop.AfterMPCRun (l : Loop ν) (newToken : Str) (res : ν) : Loop ν :=
  { stk1 := newToken :: l.stk1
    valStk := res :: l.valStk
    tokenValMap := assign l.tokenValMap newToken res }

/-- One pass of the `while` loop. -/
def evalToken (e : Evaluator ρ ν) (s : Loop ν × ρ) (token : Str) :
    Except Fault (Loop ν × ρ) :=
  match opOf token with
  | some op => do
      let ((a, val1), (b, val2), l) ← s.1.BeforeMPCRun
      let (res, r) ← e.apply s.2 op val1 val2
      -- the name of the result is the bracketed text of the operation
      return (l.AfterMPCRun ('(' :: (a ++ token ++ b ++ [')'])) res, r)
  | none => do
      let tokenVal ← e.createTokenValue token
      return (s.1.AfterMPCRun token tokenVal, s.2)

def evaluate (e : Evaluator ρ ν) (s : Loop ν × ρ) (suffixStk : List Str) :
    Except Fault (Loop ν × ρ) :=
  suffixStk.foldlM (evalToken e) s

/-- The final token and its value, and what remains of `suffix_stk_`: after the loop the names
go back from `stk1` to `suffix_stk_`. -/
def Loop.finalValue (l : Loop ν) : Except Fault (ν × List Str) :=
  match l.stk1.reverse with
  | [] => .error .outOfRange
  | finalToken :: suffixStk =>
      match find? l.tokenValMap finalToken with
      | none => .error .wrongTag
      | some v => .ok (v, suffixStk)

end Loop

/-! ## The secure evaluator -/

/-- A step that every party takes on its own. -/
def atParties {α : Type} (f : Party → Except Fault α) : Except Fault (Party → α) := do
  let a ← f 0
  let b ← f 1
  let c ← f 2
  return fun p => if p = 0 then a else if p = 1 then b else c

/-- An operand after the head of `runMPCxxxI64`: `p_sh_val` points to a share matrix, or
`constInt` is set and the pointer is null. -/
inductive Operand where
  | share (m : Si64Matrix)
  | const (c : I64)
  deriving DecidableEq, Repr

/-- The operand of a value that needs no shares to be created. -/
def TokenValue.loaded? : TokenValue → Option Operand
  | i64Vec _ => none
  | remote => none
  | i64Val c => some (.const c)
  | shI64 m => some (.share m)

/-- The matrix of `constructI64Matrix` for a local column. -/
def TokenValue.column? : TokenValue → Option (List I64)
  | i64Vec xs => some xs
  | _ => none

/-- The head of `runMPCxxxI64` for one operand; `rows p` is `getColumnValuesCount` at `p`. -/
def loadOperand (sh3 : Sh3) (rows : Party → Nat) (r : sh3.Runtime) (val : Party → TokenValue) :
    Except Fault ((Party → Operand) × sh3.Runtime) :=
  match (val 0).loaded?, (val 1).loaded?, (val 2).loaded? with
  | none, none, none => do
      let (m, r) ← sh3.createShares r (fun p => (val p).column?) rows
      return (fun p => .share (m p), r)
  | some a, some b, some c => .ok (fun p => if p = 0 then a else if p = 1 then b else c, r)
  | _, _, _ => .error .diverged

/-- The tail of `runMPCAddI64` at one party. -/
def addOperands (p : Party) : Operand → Operand → Except Fault Si64Matrix
  | .share a, .share b => MPC_Add [a, b]
  | .const c, .share b => .ok (MPC_Add_Const p c b)
  | .share a, .const c => .ok (MPC_Add_Const p c a)
  | .const _, .const _ => .error .nullPointer

/-- The tail of `runMPCSubI64` at one party. -/
def subOperands (p : Party) : Operand → Operand → Except Fault Si64Matrix
  | .share a, .share b => MPC_Sub a [b]
  | .const c, .share b => .ok (MPC_Sub_Const p c b false)
  | .share a, .const c => .ok (MPC_Sub_Const p c a true)
  | .const _, .const _ => .error .nullPointer

/-- The tail of `runMPCMulI64` at a party that does not wait in `asyncDotMul`. -/
def mulConstOperands (sh3 : Sh3) : Operand → Operand → Except Fault Si64Matrix
  | .share _, .share _ => .error .diverged
  | .const c, .share b => .ok (MPC_Mul_Const sh3 c b)
  | .share a, .const c => .ok (MPC_Mul_Const sh3 c a)
  | .const _, .const _ => .error .nullPointer

/-- The share matrices of an operand that is shared at every party. -/
def shares? (x : Party → Operand) : Option (Party → Si64Matrix) :=
  match x 0, x 1, x 2 with
  | .share a, .share b, .share c => some fun p => if p = 0 then a else if p = 1 then b else c
  | _, _, _ => none

section MPC

variable (sh3 : Sh3) (rows : Party → Nat)

/-- The common shape of `runMPCAddI64`, `runMPCSubI64` and `runMPCMulI64`. -/
def runMPCI64
    (tail : sh3.Runtime → (Party → Operand) → (Party → Operand) →
      Except Fault ((Party → Si64Matrix) × sh3.Runtime))
    (r : sh3.Runtime) (val1 val2 : Party → TokenValue) :
    Except Fault ((Party → TokenValue) × sh3.Runtime) := do
  let (x, r) ← loadOperand sh3 rows r val1
  let (y, r) ← loadOperand sh3 rows r val2
  let (m, r) ← tail r x y
  return (fun p => .shI64 (m p), r)

def runMPCAddI64 : sh3.Runtime → (Party → TokenValue) → (Party → TokenValue) →
    Except Fault ((Party → TokenValue) × sh3.Runtime) :=
  runMPCI64 sh3 rows fun r x y => return (← atParties fun p => addOperands p (x p) (y p), r)

def runMPCSubI64 : sh3.Runtime → (Party → TokenValue) → (Party → TokenValue) →
    Except Fault ((Party → TokenValue) × sh3.Runtime) :=
  runMPCI64 sh3 rows fun r x y => return (← atParties fun p => subOperands p (x p) (y p), r)

def runMPCMulI64 : sh3.Runtime → (Party → TokenValue) → (Party → TokenValue) →
    Except Fault ((Party → TokenValue) × sh3.Runtime) :=
  runMPCI64 sh3 rows fun r x y =>
    match shares? x, shares? y with
    | some a, some b => MPC_Dot_Mul sh3 r a b
    | _, _ => return (← atParties fun p => mulConstOperands sh3 (x p) (y p), r)

end MPC

/-- The parties with their executors; a division is computed on floating-point shares. -/
def mpcEvaluator (sh3 : Sh3) (exs : Party → Executor) :
    Evaluator sh3.Runtime (Party → TokenValue) where
  createTokenValue token := atParties fun p => createTokenValue (exs p) token
  apply r op val1 val2 :=
    let rows := fun p => (exs p).feedDict.getColumnValuesCount
    match op with
    | .add => runMPCAddI64 sh3 rows r val1 val2
    | .sub => runMPCSubI64 sh3 rows r val1 val2
    | .mul => runMPCMulI64 sh3 rows r val1 val2
    | .div => .error .fp64Run

def runMPCEvaluate (sh3 : Sh3) (exs : Party → Executor) (r : sh3.Runtime) :
    Except Fault (Loop (Party → TokenValue) × sh3.Runtime) :=
  if ∀ p, (exs p).suffixStk = (exs 0).suffixStk then
    evaluate (mpcEvaluator sh3 exs) (.new, r) (exs 0).suffixStk
  else .error .diverged

/-- Reading `val.val_union.sh_i64_m`. -/
def TokenValue.shI64M : TokenValue → Except Fault Si64Matrix
  | shI64 m => .ok m
  | _ => .error .wrongTag

/-- One pass of the loop of `revealMPCResult`: the final share is opened to `party`, which
appends the rows to its `val_vec`. -/
def revealTo (sh3 : Sh3) (final : Party → TokenValue) (s : (Party → List I64) × sh3.Runtime)
    (party : Party) : Except Fault ((Party → List I64) × sh3.Runtime) := do
  let m ← atParties fun p => (final p).shI64M
  let (xs, r) := sh3.reveal s.2 party m
  return (Function.update s.1 party (s.1 party ++ xs), r)

def revealMPCResult (sh3 : Sh3) (parties : List Party) (final : Party → TokenValue)
    (r : sh3.Runtime) : Except Fault ((Party → List I64) × sh3.Runtime) :=
  parties.foldlM (revealTo sh3 final) (fun _ => [], r)

/-- The final value at every party, the values revealed to it, and its executor afterwards. -/
structure Outcome where
  final : Party → TokenValue
  valVec : Party → List I64
  exs : Party → Executor

/-- A task at the three parties, up to method group 7. -/
def runMPC (sh3 : Sh3) (r : sh3.Runtime) (t : Table) (expr : Str) (parties : List Party) :
    Except Fault Outcome := do
  let exs ← atParties (setup t expr)
  let (l, r) ← runMPCEvaluate sh3 exs r
  let (final, suffixStk) ← l.finalValue
  let (valVec, _) ← revealMPCResult sh3 parties final r
  return { final := final, valVec := valVec,
           exs := fun p => { exs p with suffixStk := suffixStk } }

/-! ## The local evaluator -/

/-- Reading `val.val_union.i64_vec`. -/
def TokenValue.i64VecM : TokenValue → Except Fault (List I64)
  | i64Vec xs => .ok xs
  | _ => .error .wrongTag

/-- The three loops of an operator of `runLocalEvaluate`: on two columns, on a constant and a
column and on a column and a constant. -/
def localI64 (f fConstVec fVecConst : I64 → I64 → I64) (val1 val2 : TokenValue) :
    Except Fault TokenValue :=
  match val1, val2 with
  | .i64Val c, _ => do
      let ys ← val2.i64VecM
      return .i64Vec (ys.map (fConstVec c))
  | _, .i64Val c => do
      let xs ← val1.i64VecM
      return .i64Vec (xs.map fun x => fVecConst x c)
  | _, _ => do
      let xs ← val1.i64VecM
      let ys ← val2.i64VecM
      -- the loop runs over the rows of the first column
      if xs.length ≤ ys.length then return .i64Vec (List.zipWith f xs ys)
      else .error .outOfRange

def localAdd : TokenValue → TokenValue → Except Fault TokenValue :=
  localI64 (· + ·) (· + ·) fun x c => c + x

def localSub : TokenValue → TokenValue → Except Fault TokenValue :=
  localI64 (· - ·) (· - ·) (· - ·)

def localMul : TokenValue → TokenValue → Except Fault TokenValue :=
  localI64 (· * ·) (· * ·) (· * ·)

/-- `LocalExpressExecutor::createTokenValue` on the new feed dictionary. -/
def localTokenValue (ex : Executor) (newFeed : FeedDict) (token : Str) :
    Except Fault TokenValue :=
  match (find? ex.tokenTypeMap token).getD .COLUMN with
  | .COLUMN => do
      match ← newFeed.getColumnValues token with
      | .error _ => .error (.failed (-1))
      | .ok xs => return .i64Vec xs
  | .VALUE => .ok (.i64Val (atol token))

def localEvaluator (ex : Executor) (newFeed : FeedDict) : Evaluator Unit TokenValue where
  createTokenValue := localTokenValue ex newFeed
  apply r op val1 val2 :=
    match op with
    | .add => return (← localAdd val1 val2, r)
    | .sub => return (← localSub val1 val2, r)
    | .mul => return (← localMul val1 val2, r)
    | .div => .error .fp64Run

/-- `createNewColumnConfig`: every column is local. -/
def createNewColumnConfig (c : ColumnConfig) : ColumnConfig :=
  { partyId := c.partyId
    colOwner := []
    colDtype := OrderedMap.insertAll [] c.colDtype
    localCol := OrderedMap.insertAll [] (c.localCol.map fun e => (e.1, true)) }

/-- `init` with all columns of the table, `runLocalEvaluate` and `getFinalVal`. -/
def runLocal (t : Table) (ex : Executor) : Except Fault (List I64) := do
  let newFeed ← importValues (.new (createNewColumnConfig ex.colConfig)) t.columns
  match parseExpress ex.suffixStk ex.expr with
  | none => .error .outOfRange
  | some suffixStk => do
      let (l, _) ← evaluate (localEvaluator ex newFeed) (.new, ()) suffixStk
      let (finalVal, _) ← l.finalValue
      finalVal.i64VecM

end Fediux.Express
