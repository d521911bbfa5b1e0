import Fediux.Basic.Replicated

set_option autoImplicit false

/-! # `MPCOperator` on 64-bit integers

The operations of `operator/aby3_operator.cc` that the expression executor uses, on integer
matrices with one column. Local operations are functions of one party's share matrices; the
operations that exchange messages (`createShares`, `asyncDotMul`, `reveal`) are calls of
aby3, made by the three parties together, and are parameters (`Sh3`).
-/

namespace Fediux

open Replicated

abbrev I64 := BitVec 64

/-- `si64Matrix` with one column: the rows of `mShares[0]` and `mShares[1]`. -/
abbrev Si64Matrix := List (Share I64)

/-- The ways an execution stops without a result. -/
inductive Fault where
  /-- A `std::runtime_error` is thrown. -/
  | exception (msg : String)
  /-- A null pointer is dereferenced. -/
  | nullPointer
  /-- A member of a value union is read that its tag does not name. -/
  | wrongTag
  /-- The top of an empty stack or a character past the end of a string is read. -/
  | outOfRange
  /-- Two matrices of different sizes are combined, or meet in one protocol step. -/
  | shape
  /-- The parties issue different protocol steps. -/
  | diverged
  /-- A method returned this code. -/
  | failed (code : Int)
  /-- The executor is in the floating-point run mode. -/
  | fp64Run
  deriving DecidableEq, Repr

/-! ## The protocol engine -/

/-- The integer operations of aby3. In `createShares` a party provides a column or takes part
as a remote party, with a share matrix of the given number of rows. -/
structure Sh3 where
  Runtime : Type
  createShares : Runtime → (Party → Option (List I64)) → (Party → Nat) →
    Except Fault ((Party → Si64Matrix) × Runtime)
  asyncDotMul : Runtime → (Party → Si64Matrix) → (Party → Si64Matrix) →
    (Party → Si64Matrix) × Runtime
  asyncConstMul : I64 → Si64Matrix → Si64Matrix
  reveal : Runtime → Party → (Party → Si64Matrix) → List I64 × Runtime
  createShares_shares : ∀ (r : Runtime) (input : Party → Option (List I64))
    (rows : Party → Nat) (p : Party) (xs : List I64), input p = some xs →
    (∀ q, q ≠ p → input q = none) → (∀ q, rows q = xs.length) →
    ∃ m r', createShares r input rows = .ok (m, r') ∧ Shares m xs
  createShares_shape : ∀ (r : Runtime) (input : Party → Option (List I64))
    (rows : Party → Nat) (p : Party) (xs : List I64), input p = some xs →
    (∃ q, rows q ≠ xs.length) → ∃ f, createShares r input rows = .error f
  asyncDotMul_shares : ∀ (r : Runtime) (a b : Party → Si64Matrix) (xs ys : List I64),
    Shares a xs → Shares b ys → Shares (asyncDotMul r a b).1 (List.zipWith (· * ·) xs ys)
  asyncConstMul_shares : ∀ (c : I64) (m : Party → Si64Matrix) (xs : List I64),
    Shares m xs → Shares (fun p => asyncConstMul c (m p)) (xs.map (c * ·))
  reveal_shares : ∀ (r : Runtime) (p : Party) (m : Party → Si64Matrix) (xs : List I64),
    Shares m xs → (reveal r p m).1 = xs

/-! ## An engine without masks

The protocol with all random masks zero: the owner's summand is the column itself, and a
product is shared as its local summands. It shows that the laws of `Sh3` are consistent. -/

section Unmasked

/-- The summand of party `p` when a column is shared. -/
def unmaskedColumn (input : Party → Option (List I64)) (rows : Party → Nat) (p : Party) :
    List I64 := (input p).getD (List.replicate (rows p) 0)

def unmaskedShares (input : Party → Option (List I64)) (rows : Party → Nat) :
    Except Fault (Party → Si64Matrix) :=
  if ∀ p, rows p = rows 0 ∧ (unmaskedColumn input rows p).length = rows p then
    .ok fun p => List.zipWith Share.mk (unmaskedColumn input rows p)
      (unmaskedColumn input rows (p + 2))
  else .error .shape

def unmaskedDotMul (a b : Party → Si64Matrix) (p : Party) : Si64Matrix :=
  List.zipWith Share.mk (List.zipWith Share.mul (a p) (b p))
    (List.zipWith Share.mul (a (p + 2)) (b (p + 2)))

def unmaskedReveal (p : Party) (m : Party → Si64Matrix) : List I64 :=
  List.zipWith (fun s t => s.cur + s.prev + t.cur) (m p) (m (p + 1))

variable {a b : Party → Si64Matrix} {xs ys : List I64}

/-- The owner's summand is the column, the other summands are zero. -/
theorem unmaskedShares_eq {input : Party → Option (List I64)} {rows : Party → Nat} {p : Party}
    (hp : input p = some xs) (hrest : ∀ q, q ≠ p → input q = none)
    (hrows : ∀ q, rows q = xs.length) :
    unmaskedShares input rows =
      .ok fun q => xs.map fun x => ⟨if q = p then x else 0, if q + 2 = p then x else 0⟩ := by
  have hcol : ∀ q, unmaskedColumn input rows q = xs.map fun x => if q = p then x else 0 := by
    intro q
    by_cases hq : q = p
    · simp [unmaskedColumn, hq, hp]
    · simp [unmaskedColumn, hrest q hq, hrows q, hq]
  unfold unmaskedShares
  rw [if_pos fun q => ⟨by rw [hrows, hrows], by rw [hcol, List.length_map, hrows]⟩]
  refine congrArg Except.ok (funext fun q => ?_)
  rw [hcol, hcol, List.zipWith_map, List.zipWith_self]

theorem unmaskedShares_ok {input : Party → Option (List I64)} {rows : Party → Nat} {p : Party}
    (hp : input p = some xs) (hrest : ∀ q, q ≠ p → input q = none)
    (hrows : ∀ q, rows q = xs.length) :
    ∃ m, unmaskedShares input rows = .ok m ∧ Shares m xs := by
  refine ⟨_, unmaskedShares_eq hp hrest hrows,
    xs.map fun x q => ⟨if q = p then x else 0, if q + 2 = p then x else 0⟩, fun q => ?_, ?_⟩
  · rw [List.map_map]
    rfl
  · rw [List.forall₂_map_left_iff, List.forall₂_same]
    intro x _
    have hback : ∀ q : Party, q + 1 + 2 = q := by decide
    refine ⟨fun q => by simp only [hback q], ?_⟩
    fin_cases p <;> simp

theorem unmaskedShares_error {input : Party → Option (List I64)} {rows : Party → Nat}
    {p : Party} (hp : input p = some xs) (hrows : ∃ q, rows q ≠ xs.length) :
    unmaskedShares input rows = .error .shape := by
  refine if_neg fun h => ?_
  obtain ⟨q, hq⟩ := hrows
  have hlen := (h p).2
  rw [unmaskedColumn, hp, Option.getD_some, (h p).1] at hlen
  exact hq ((h q).1.trans hlen.symm)

theorem unmaskedDotMul_shares (ha : Shares a xs) (hb : Shares b ys) :
    Shares (unmaskedDotMul a b) (List.zipWith (· * ·) xs ys) := by
  obtain ⟨rows, hrows, ha⟩ := ha
  obtain ⟨rows', hrows', hb⟩ := hb
  have h := Shares.zipWith_joint (fun s t p => ⟨(s p).mul (t p), (s (p + 2)).mul (t (p + 2))⟩)
    (· * ·) (fun _ _ _ _ => IsSharing.mul) ha hb
  have heq : unmaskedDotMul a b = fun p => List.zipWith
      (fun s t => ⟨(s p).mul (t p), (s (p + 2)).mul (t (p + 2))⟩) rows rows' := by
    funext p
    rw [unmaskedDotMul, hrows, hrows', hrows, hrows']
    clear ha hb hrows hrows' h
    induction rows generalizing rows' with
    | nil => rfl
    | cons s rows ih =>
        cases rows' with
        | nil => rfl
        | cons t rows' => simpa using ih rows'
  rw [heq]
  exact h

theorem unmaskedReveal_shares (p : Party) (ha : Shares a xs) : unmaskedReveal p a = xs :=
  ha.openRows p

/-- The engine without masks. -/
def Sh3.unmasked : Sh3 where
  Runtime := Unit
  createShares r input rows := return (← unmaskedShares input rows, r)
  asyncDotMul r a b := (unmaskedDotMul a b, r)
  asyncConstMul c m := m.map fun s => ⟨c * s.cur, c * s.prev⟩
  reveal r p m := (unmaskedReveal p m, r)
  createShares_shares r input rows p xs hp hrest hrows := by
    obtain ⟨m, hm, hshares⟩ := unmaskedShares_ok hp hrest hrows
    exact ⟨m, r, by rw [hm]; rfl, hshares⟩
  createShares_shape r input rows p xs hp hrows := by
    rw [unmaskedShares_error hp hrows]
    exact ⟨_, rfl⟩
  asyncDotMul_shares _ _ _ _ _ ha hb := unmaskedDotMul_shares ha hb
  asyncConstMul_shares c m xs h := by
    refine h.map (fun _ s => ⟨c * s.cur, c * s.prev⟩) (c * ·) fun s x hs => ?_
    refine ⟨fun p => congrArg (c * ·) (hs.1 p), ?_⟩
    rw [← hs.2]
    ring
  reveal_shares _ p _ _ h := unmaskedReveal_shares p h

end Unmasked

/-! ## Local operations -/

/-- `operator+` and `operator-` of `si64Matrix`, through their action on a row. -/
def zipRows (f : Share I64 → Share I64 → Share I64) (a b : Si64Matrix) :
    Except Fault Si64Matrix :=
  if a.length = b.length then .ok (List.zipWith f a b) else .error .shape

def MPC_Add : List Si64Matrix → Except Fault Si64Matrix
  | [] => .error .outOfRange
  | sum :: sharedInt => sharedInt.foldlM (zipRows Share.add) sum

def MPC_Sub (minuend : Si64Matrix) (subtrahends : List Si64Matrix) :
    Except Fault Si64Matrix :=
  subtrahends.foldlM (zipRows Share.sub) minuend

def MPC_Add_Const (partyIdx : Party) (constInt : I64) (m : Si64Matrix) : Si64Matrix :=
  if partyIdx = 0 then m.map fun s => { s with cur := s.cur + constInt }
  else if partyIdx = 1 then m.map fun s => { s with prev := s.prev + constInt }
  else m

/-- With `mode = false` the result is negated: `constInt - m` instead of `m - constInt`. -/
def MPC_Sub_Const (partyIdx : Party) (constInt : I64) (m : Si64Matrix) (mode : Bool) :
    Si64Matrix :=
  let temp :=
    if partyIdx = 0 then m.map fun s => { s with cur := s.cur - constInt }
    else if partyIdx = 1 then m.map fun s => { s with prev := s.prev - constInt }
    else m
  if mode != true then temp.map Share.neg else temp

def MPC_Mul_Const (sh3 : Sh3) (constInt : I64) (m : Si64Matrix) : Si64Matrix :=
  sh3.asyncConstMul constInt m

/-- The shape check of `MPC_Dot_Mul` at one party. -/
def checkShape (a b : Si64Matrix) : Except Fault Unit :=
  if a.length = b.length then .ok ()
  else .error (.exception (s!"type: si64Matrix, Shape does not match, " ++
    s!"A(row, col): ({a.length}: 1) B(row, col): ({b.length}: 1) "))

/-- `MPC_Dot_Mul` at the three parties. -/
def MPC_Dot_Mul (sh3 : Sh3) (r : sh3.Runtime) (a b : Party → Si64Matrix) :
    Except Fault ((Party → Si64Matrix) × sh3.Runtime) := do
  checkShape (a 0) (b 0)
  checkShape (a 1) (b 1)
  checkShape (a 2) (b 2)
  return sh3.asyncDotMul r a b

/-! ## Their action on shared vectors -/

section Shares

variable {a b : Party → Si64Matrix} {xs ys : List I64}

theorem zipRows_of_shares (f : Share I64 → Share I64 → Share I64) (ha : Shares a xs)
    (hb : Shares b ys) (hlen : xs.length = ys.length) (p : Party) :
    zipRows f (a p) (b p) = .ok (List.zipWith f (a p) (b p)) := by
  rw [zipRows, if_pos]
  rw [ha.length_eq p, hb.length_eq p, hlen]

theorem MPC_Add_shares (ha : Shares a xs) (hb : Shares b ys) (hlen : xs.length = ys.length) :
    ∃ m, (∀ p, MPC_Add [a p, b p] = .ok (m p)) ∧ Shares m (List.zipWith (· + ·) xs ys) := by
  refine ⟨_, fun p => ?_, ha.add hb⟩
  rw [MPC_Add, List.foldlM_cons, zipRows_of_shares Share.add ha hb hlen p]
  rfl

theorem MPC_Sub_shares (ha : Shares a xs) (hb : Shares b ys) (hlen : xs.length = ys.length) :
    ∃ m, (∀ p, MPC_Sub (a p) [b p] = .ok (m p)) ∧ Shares m (List.zipWith (· - ·) xs ys) := by
  refine ⟨_, fun p => ?_, ha.sub hb⟩
  rw [MPC_Sub, List.foldlM_cons, zipRows_of_shares Share.sub ha hb hlen p]
  rfl

theorem MPC_Dot_Mul_shares (sh3 : Sh3) (r : sh3.Runtime) (ha : Shares a xs)
    (hb : Shares b ys) (hlen : xs.length = ys.length) :
    ∃ m r', MPC_Dot_Mul sh3 r a b = .ok (m, r') ∧
      Shares m (List.zipWith (· * ·) xs ys) := by
  have hcheck : ∀ p, checkShape (a p) (b p) = .ok () := by
    intro p
    rw [checkShape, if_pos]
    rw [ha.length_eq p, hb.length_eq p, hlen]
  refine ⟨_, (sh3.asyncDotMul r a b).2, ?_, sh3.asyncDotMul_shares r a b xs ys ha hb⟩
  rw [MPC_Dot_Mul, hcheck 0, hcheck 1, hcheck 2]
  rfl

theorem MPC_Add_Const_eq (p : Party) (c : I64) (m : Si64Matrix) :
    MPC_Add_Const p c m = m.map fun s => s.addConst c p := by
  unfold MPC_Add_Const Share.addConst
  split
  · rfl
  · split <;> simp

theorem MPC_Add_Const_shares (c : I64) (ha : Shares a xs) :
    Shares (fun p => MPC_Add_Const p c (a p)) (xs.map (· + c)) := by
  simp only [MPC_Add_Const_eq]
  exact ha.map (fun p s => s.addConst c p) (· + c) fun _ _ h => h.addConst c

/-- Subtracting a constant is adding its negative, before the negation of `mode = false`. -/
theorem MPC_Sub_Const_eq (p : Party) (c : I64) (m : Si64Matrix) (mode : Bool) :
    MPC_Sub_Const p c m mode =
      if mode then MPC_Add_Const p (-c) m else (MPC_Add_Const p (-c) m).map Share.neg := by
  unfold MPC_Sub_Const MPC_Add_Const
  cases mode <;> simp [sub_eq_add_neg]

theorem MPC_Sub_Const_shares (c : I64) (ha : Shares a xs) :
    Shares (fun p => MPC_Sub_Const p c (a p) true) (xs.map (· - c)) := by
  simpa [MPC_Sub_Const_eq, sub_eq_add_neg] using MPC_Add_Const_shares (-c) ha

theorem const_MPC_Sub_shares (c : I64) (ha : Shares a xs) :
    Shares (fun p => MPC_Sub_Const p c (a p) false) (xs.map (c - ·)) := by
  have h := (MPC_Add_Const_shares (-c) ha).neg
  simpa [MPC_Sub_Const_eq, Function.comp_def, sub_eq_add_neg, add_comm] using h

end Shares

end Fediux
