import Fediux.Basic.Joint
import Fediux.Basic.Shaped
import Fediux.Operator.MPCOperator

set_option autoImplicit false

/-! # Sequences of linear operations

`MPC_Add`, `MPC_Sub` and the operations with a public constant, as `operator/aby3_operator.h`
and `operator/aby3_operator.cc` overload them: on integers and on fixed-point numbers (whose
share is that of the scaled integer), on scalars and on matrices of any shape. All overloads
act on the 64-bit components one by one. A sequence of calls refines the same sequence on
plain values at all three parties.
-/

namespace Fediux.Linear

open Replicated Shaped

/-- `si64`, `si64Matrix`, `sf64<D>` and `sf64Matrix<D>` at one party. -/
abbrev Shared := Elements (Share I64)

/-- The plain value of a shared scalar or matrix. -/
abbrev Plain := Elements I64

variable {α : Type}

/-- The operators of aby3 on two operands. -/
def elementwise (f : α → α → α) (a b : Elements α) : Except Fault (Elements α) :=
  if h : a.shape = b.shape then .ok (a.zipWith f b h) else .error .shape

/-! ## The operations at one party -/

def MPC_Add : List Shared → Except Fault Shared
  | [] => .error .outOfRange
  | sum :: sharedInt => sharedInt.foldlM (elementwise Share.add) sum

def MPC_Sub (minuend : Shared) (subtrahends : List Shared) : Except Fault Shared :=
  subtrahends.foldlM (elementwise Share.sub) minuend

def MPC_Add_Const (partyIdx : Party) (constInt : I64) (m : Shared) : Shared :=
  if partyIdx = 0 then m.map fun s => { s with cur := s.cur + constInt }
  else if partyIdx = 1 then m.map fun s => { s with prev := s.prev + constInt }
  else m

/-- The overload with a constant for every element. -/
def MPC_Add_Const_Matrix (partyIdx : Party) (constFixedMatrix : Plain) (m : Shared) :
    Except Fault Shared :=
  if h : m.shape = constFixedMatrix.shape then
    if partyIdx = 0 then .ok (m.zipWith (fun s c => { s with cur := s.cur + c }) _ h)
    else if partyIdx = 1 then .ok (m.zipWith (fun s c => { s with prev := s.prev + c }) _ h)
    else .ok m
  else .error (.exception "LOCATION")

/-- With `mode = false` the result is negated: `constInt - m` instead of `m - constInt`. -/
def MPC_Sub_Const (partyIdx : Party) (constInt : I64) (m : Shared) (mode : Bool) : Shared :=
  let temp :=
    if partyIdx = 0 then m.map fun s => { s with cur := s.cur - constInt }
    else if partyIdx = 1 then m.map fun s => { s with prev := s.prev - constInt }
    else m
  if mode != true then temp.map Share.neg else temp

/-- `asyncConstMul` of aby3 multiplies both components. -/
def MPC_Mul_Const (constInt : I64) (m : Shared) : Shared :=
  m.map fun s => ⟨constInt * s.cur, constInt * s.prev⟩

/-! ## Sequences of calls -/

/-- A call, on the results of earlier calls and the shares at the start, by their places. -/
inductive Call where
  | add (sharedInt : List Nat)
  | addConst (constInt : I64) (m : Nat)
  | addConstMatrix (constFixedMatrix : Plain) (m : Nat)
  | sub (minuend : Nat) (subtrahends : List Nat)
  | subConst (constInt : I64) (m : Nat) (mode : Bool)
  | mulConst (constInt : I64) (m : Nat)

/-- The variable at a place. -/
def get (vars : List (Elements α)) (i : Nat) : Except Fault (Elements α) :=
  match vars[i]? with
  | some m => .ok m
  | none => .error .outOfRange

/-- What a call returns at party `partyIdx`. -/
def result (partyIdx : Party) (vars : List Shared) : Call → Except Fault Shared
  | .add sharedInt => do MPC_Add (← sharedInt.mapM (get vars))
  | .addConst c m => do return MPC_Add_Const partyIdx c (← get vars m)
  | .addConstMatrix c m => do MPC_Add_Const_Matrix partyIdx c (← get vars m)
  | .sub minuend subtrahends => do
      let minuend ← get vars minuend
      MPC_Sub minuend (← subtrahends.mapM (get vars))
  | .subConst c m mode => do return MPC_Sub_Const partyIdx c (← get vars m) mode
  | .mulConst c m => do return MPC_Mul_Const c (← get vars m)

def call (partyIdx : Party) (vars : List Shared) (c : Call) : Except Fault (List Shared) := do
  return vars ++ [← result partyIdx vars c]

/-- The calls of one party, in order. -/
def run (partyIdx : Party) (calls : List Call) (vars : List Shared) :
    Except Fault (List Shared) :=
  calls.foldlM (call partyIdx) vars

/-! ## The calls on plain values -/

def plainSum : List Plain → Except Fault Plain
  | [] => .error .outOfRange
  | x :: xs => xs.foldlM (elementwise (· + ·)) x

def plainResult (vars : List Plain) : Call → Except Fault Plain
  | .add xs => do plainSum (← xs.mapM (get vars))
  | .addConst c x => do return (← get vars x).map (· + c)
  | .addConstMatrix c x => do
      let x ← get vars x
      if h : x.shape = c.shape then return x.zipWith (· + ·) c h
      else .error (.exception "LOCATION")
  | .sub x ys => do
      let x ← get vars x
      (← ys.mapM (get vars)).foldlM (elementwise (· - ·)) x
  | .subConst c x true => do return (← get vars x).map (· - c)
  | .subConst c x false => do return (← get vars x).map (c - ·)
  | .mulConst c x => do return (← get vars x).map (c * ·)

def plainCall (vars : List Plain) (c : Call) : Except Fault (List Plain) := do
  return vars ++ [← plainResult vars c]

def plainRun (calls : List Call) (vars : List Plain) : Except Fault (List Plain) :=
  calls.foldlM plainCall vars

/-! ## Consistent sharings -/

/-- The parties hold a consistent sharing of the scalar or matrix `x`. -/
def Sharing (m : Party → Shared) (x : Plain) : Prop :=
  (∀ p, (m p).shape = x.shape) ∧ Shares (fun p => (m p).data) x.data

/-- All variables of the parties are consistent sharings of the plain ones. -/
def Consistent (vars : Party → List Shared) (xs : List Plain) : Prop :=
  Joint.Rows Sharing vars xs

section Step

variable {m m' : Party → Shared} {x y : Plain}

/-- A local operation on shares is an operation on the shared elements. -/
theorem Sharing.map (f : Party → Share I64 → Share I64) (g : I64 → I64)
    (hf : ∀ s v, IsSharing s v → IsSharing (fun p => f p (s p)) (g v)) (h : Sharing m x) :
    Sharing (fun p => (m p).map (f p)) (x.map g) :=
  ⟨h.1, h.2.map f g hf⟩

theorem Sharing.neg (h : Sharing m x) : Sharing (fun p => (m p).map Share.neg) (x.map (-·)) :=
  h.map (fun _ => Share.neg) (-·) fun _ _ => IsSharing.neg

/-- `+` and `-` at the parties, on operands of one shape or of different shapes. -/
theorem elementwise_refines (f : Share I64 → Share I64 → Share I64) (g : I64 → I64 → I64)
    (hf : ∀ s t v w, IsSharing s v → IsSharing t w →
      IsSharing (fun p => f (s p) (t p)) (g v w))
    (h : Sharing m x) (h' : Sharing m' y) :
    Joint.Refines Sharing (fun p => elementwise f (m p) (m' p)) (elementwise g x y) := by
  by_cases hxy : x.shape = y.shape
  · have hp : ∀ p, (m p).shape = (m' p).shape := by
      intro p
      rw [h.1 p, h'.1 p, hxy]
    have hm : ∀ p, elementwise f (m p) (m' p) = .ok ((m p).zipWith f (m' p) (hp p)) :=
      fun p => dif_pos (hp p)
    rw [elementwise, dif_pos hxy]
    exact .ok hm ⟨h.1, h.2.zipWith (fun _ => f) g hf h'.2⟩
  · have hp : ∀ p, ¬ (m p).shape = (m' p).shape := by
      intro p
      rw [h.1 p, h'.1 p]
      exact hxy
    rw [elementwise, dif_neg hxy]
    exact .error fun p => dif_neg (hp p)

theorem add_refines (h : Sharing m x) (h' : Sharing m' y) :
    Joint.Refines Sharing (fun p => elementwise Share.add (m p) (m' p))
      (elementwise (· + ·) x y) :=
  elementwise_refines Share.add (· + ·) (fun _ _ _ _ => IsSharing.add) h h'

theorem sub_refines (h : Sharing m x) (h' : Sharing m' y) :
    Joint.Refines Sharing (fun p => elementwise Share.sub (m p) (m' p))
      (elementwise (· - ·) x y) :=
  elementwise_refines Share.sub (· - ·) (fun _ _ _ _ => IsSharing.sub) h h'

theorem MPC_Add_refines {ms : Party → List Shared} {xs : List Plain}
    (h : Joint.Rows Sharing ms xs) :
    Joint.Refines Sharing (fun p => MPC_Add (ms p)) (plainSum xs) := by
  obtain ⟨rows, hrows, h⟩ := h
  simp only [hrows]
  cases h with
  | nil => exact .error fun _ => rfl
  | cons hm h =>
      exact Joint.Refines.foldlM (R := Sharing) (fun _ _ _ _ => add_refines)
        ⟨_, fun _ => rfl, h⟩ hm

theorem MPC_Sub_refines {ms : Party → List Shared} {xs : List Plain} (hm : Sharing m x)
    (h : Joint.Rows Sharing ms xs) :
    Joint.Refines Sharing (fun p => MPC_Sub (m p) (ms p))
      (xs.foldlM (elementwise (· - ·)) x) :=
  Joint.Refines.foldlM (R := Sharing) (fun _ _ _ _ => sub_refines) h hm

/-! ## Constants -/

/-- A constant is shared without messages: the summand of party 0. -/
def constShare (p : Party) (c : I64) : Share I64 :=
  ⟨if p = 0 then c else 0, if p = 1 then c else 0⟩

theorem constShare_isSharing (c : I64) : IsSharing (fun p => constShare p c) c := by
  refine ⟨fun p => ?_, ?_⟩
  · fin_cases p <;> rfl
  · simp [constShare]

theorem add_constShare (p : Party) (s : Share I64) (c : I64) :
    s.add (constShare p c) =
      if p = 0 then { s with cur := s.cur + c }
      else if p = 1 then { s with prev := s.prev + c }
      else s := by
  fin_cases p <;> simp [constShare, Share.add]

/-- A matrix of constants is shared without messages. -/
theorem constShare_sharing (c : Plain) : Sharing (fun p => c.map (constShare p)) c := by
  refine ⟨fun _ => rfl, c.data.map fun v p => constShare p v, fun p => ?_, ?_⟩
  · rw [List.map_map]
    rfl
  · rw [List.forall₂_map_left_iff, List.forall₂_same]
    exact fun v _ => constShare_isSharing v

theorem MPC_Add_Const_eq (p : Party) (c : I64) (m : Shared) :
    MPC_Add_Const p c m = m.map fun s => s.add (constShare p c) := by
  simp only [add_constShare]
  unfold MPC_Add_Const
  split
  · rfl
  · split
    · rfl
    · simp [Elements.map]

/-- Subtracting a constant is adding its negative, before the negation of `mode = false`. -/
theorem MPC_Sub_Const_eq (p : Party) (c : I64) (m : Shared) (mode : Bool) :
    MPC_Sub_Const p c m mode =
      if mode then MPC_Add_Const p (-c) m else (MPC_Add_Const p (-c) m).map Share.neg := by
  unfold MPC_Sub_Const MPC_Add_Const
  cases mode <;> simp [sub_eq_add_neg]

theorem MPC_Add_Const_Matrix_eq (p : Party) (c : Plain) (m : Shared)
    (h : m.shape = c.shape) :
    MPC_Add_Const_Matrix p c m = elementwise Share.add m (c.map (constShare p)) := by
  rw [MPC_Add_Const_Matrix, dif_pos h, elementwise, dif_pos (by rw [h, Elements.map_shape])]
  rw [Elements.zipWith_map_right Share.add (constShare p) m c h]
  simp only [add_constShare]
  split
  · rfl
  · split
    · rfl
    · rw [Elements.zipWith_left]

theorem MPC_Add_Const_sharing (c : I64) (h : Sharing m x) :
    Sharing (fun p => MPC_Add_Const p c (m p)) (x.map (· + c)) := by
  simp only [MPC_Add_Const_eq]
  exact h.map (fun p s => s.add (constShare p c)) (· + c)
    fun _ _ h => h.add (constShare_isSharing c)

theorem MPC_Sub_Const_sharing (c : I64) (h : Sharing m x) :
    Sharing (fun p => MPC_Sub_Const p c (m p) true) (x.map (· - c)) := by
  have hadd := MPC_Add_Const_sharing (-c) h
  simpa [MPC_Sub_Const_eq, sub_eq_add_neg] using hadd

theorem const_MPC_Sub_sharing (c : I64) (h : Sharing m x) :
    Sharing (fun p => MPC_Sub_Const p c (m p) false) (x.map (c - ·)) := by
  have hneg := (MPC_Add_Const_sharing (-c) h).neg
  simpa [MPC_Sub_Const_eq, Function.comp_def, sub_eq_add_neg, add_comm] using hneg

theorem MPC_Mul_Const_sharing (c : I64) (h : Sharing m x) :
    Sharing (fun p => MPC_Mul_Const c (m p)) (x.map (c * ·)) := by
  refine h.map (fun _ s => ⟨c * s.cur, c * s.prev⟩) (c * ·) fun s v hs => ?_
  refine ⟨fun p => congrArg (c * ·) (hs.1 p), ?_⟩
  rw [← hs.2]
  ring

theorem MPC_Add_Const_Matrix_refines (c : Plain) (h : Sharing m x) :
    Joint.Refines Sharing (fun p => MPC_Add_Const_Matrix p c (m p))
      (if h : x.shape = c.shape then .ok (x.zipWith (· + ·) c h)
        else .error (.exception "LOCATION")) := by
  by_cases hx : x.shape = c.shape
  · have hp : ∀ p, (m p).shape = c.shape := fun p => (h.1 p).trans hx
    have hadd := add_refines h (constShare_sharing c)
    rw [elementwise, dif_pos hx] at hadd
    simp only [fun p => MPC_Add_Const_Matrix_eq p c (m p) (hp p)]
    rw [dif_pos hx]
    exact hadd
  · rw [dif_neg hx]
    refine .error fun p => dif_neg ?_
    rw [h.1 p]
    exact hx

/-! ## One call and a sequence of calls -/

variable {vars : Party → List Shared} {xs : List Plain}

theorem get_refines (h : Consistent vars xs) (i : Nat) :
    Joint.Refines Sharing (fun p => get (vars p) i) (get xs i) := by
  rcases h.getElem? i with ⟨m, x, hm, hx, hmx⟩ | ⟨hm, hx⟩
  · rw [get, hx]
    exact .ok (fun p => by rw [get, hm p]) hmx
  · rw [get, hx]
    exact .error fun p => by rw [get, hm p]

theorem result_refines (h : Consistent vars xs) (c : Call) :
    Joint.Refines Sharing (fun p => result p (vars p) c) (plainResult xs c) := by
  have hget := get_refines h
  cases c with
  | add is =>
      exact (Joint.Refines.mapM_same hget is).bind fun _ _ => MPC_Add_refines
  | addConst c i =>
      exact (hget i).bind fun _ _ h => .ok (fun _ => rfl) (MPC_Add_Const_sharing c h)
  | addConstMatrix c i =>
      exact (hget i).bind fun _ _ => MPC_Add_Const_Matrix_refines c
  | sub i is =>
      exact (hget i).bind fun _ _ hm =>
        (Joint.Refines.mapM_same hget is).bind fun _ _ => MPC_Sub_refines hm
  | subConst c i mode =>
      cases mode with
      | true => exact (hget i).bind fun _ _ h => .ok (fun _ => rfl) (MPC_Sub_Const_sharing c h)
      | false => exact (hget i).bind fun _ _ h => .ok (fun _ => rfl) (const_MPC_Sub_sharing c h)
  | mulConst c i =>
      exact (hget i).bind fun _ _ h => .ok (fun _ => rfl) (MPC_Mul_Const_sharing c h)

theorem call_refines (h : Consistent vars xs) (c : Call) :
    Joint.Refines Consistent (fun p => call p (vars p) c) (plainCall xs c) :=
  (result_refines h c).bind fun _ _ hr => .ok (fun _ => rfl) (h.concat hr)

/-- After every sequence of calls the parties hold consistent sharings of what the calls
compute on plain values; a call that fails on plain values fails at all parties. -/
theorem run_keeps_sharing (calls : List Call) (vars : Party → List Shared) (xs : List Plain)
    (h : Consistent vars xs) :
    Joint.Refines Consistent (fun p => run p calls (vars p)) (plainRun calls xs) :=
  Joint.Refines.foldlM_same (fun _ _ c h => call_refines h c) calls h

end Step

/-- The scalar 6, shared as 1, 2 and 3. -/
def sharedSix (p : Party) : Shared :=
  .scalar ⟨BitVec.ofNat 64 (p.val + 1), BitVec.ofNat 64 ((p.val + 2) % 3 + 1)⟩

theorem sharedSix_sharing : Sharing sharedSix (.scalar 6) :=
  ⟨fun _ => rfl, [fun p => ⟨BitVec.ofNat 64 (p.val + 1), BitVec.ofNat 64 ((p.val + 2) % 3 + 1)⟩],
    fun _ => rfl, .cons ⟨by decide, by decide⟩ .nil⟩

/-- `(6 + 4)`, then `3 - 10`, then `5 * -7`, then `6 + -35`. -/
theorem run_keeps_sharing_six :
    Joint.Refines Consistent
      (fun p => run p [.addConst 4 0, .subConst 3 1 false, .mulConst 5 2, .add [0, 3]]
        [sharedSix p])
      (.ok [.scalar 6, .scalar 10, .scalar (-7), .scalar (-35), .scalar (-29)]) :=
  run_keeps_sharing [.addConst 4 0, .subConst 3 1 false, .mulConst 5 2, .add [0, 3]]
    (fun p => [sharedSix p]) [.scalar 6] ⟨[sharedSix], fun _ => rfl, .cons sharedSix_sharing .nil⟩

end Fediux.Linear
