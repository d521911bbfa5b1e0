import Fediux.Basic.Fallible
import Fediux.Basic.Joint
import Fediux.Operator.MPCOperator

set_option autoImplicit false

/-! # `MPC_Compare`

Two parties compare their matrices, the third takes part without values. Each party runs its
own overload of `MPC_Compare`: it exchanges shapes with the others, works out which party is
skipped, and issues its half of the binary sharing steps. The circuit adds the two shared
columns and keeps the sign bit. Binary shares are words shared by exclusive or; the steps
that exchange shares are calls of aby3 and are parameters (`Sh3Bin`).
-/

namespace Fediux.Compare

open Replicated

/-- Rows and columns of a matrix, as the parties send them to each other. -/
structure Shape where
  rows : Nat
  cols : Nat
  deriving DecidableEq, Repr

/-- `i64Matrix`: the rows one after the other. Eigen keeps sizes in signed 64-bit integers. -/
structure I64Matrix where
  shape : Shape
  data : List I64
  size_eq : data.length = shape.rows * shape.cols
  rows_lt : shape.rows < 2 ^ 63
  cols_lt : shape.cols < 2 ^ 63
  size_lt : shape.rows * shape.cols < 2 ^ 63

/-- `sbMatrix` of 64-bit words (or of single bits), one row for each word. -/
abbrev SbMatrix := List (Share I64)

def IsBinSharing (s : Party → Share I64) (x : I64) : Prop :=
  (∀ p, (s (p + 1)).prev = (s p).cur) ∧ (s 0).cur ^^^ (s 1).cur ^^^ (s 2).cur = x

/-- The matrices at the three parties share the words `xs`. -/
def BinShares (m : Party → SbMatrix) (xs : List I64) : Prop := Joint.Rows IsBinSharing m xs

def bitWord (b : Bool) : I64 := if b then 1 else 0

/-- What the circuit of `int_int_add_msb` computes from two columns. -/
def addMsb (xs ys : List I64) : List I64 :=
  List.zipWith (fun x y => bitWord (x + y).msb) xs ys

/-! ## The protocol engine -/

/-- The binary operations of aby3. In a sharing step a party provides a column or takes part as
a remote party, with a share matrix of the given number of rows. -/
structure Sh3Bin where
  Runtime : Type
  binMatrix : Runtime → (Party → Option (List I64)) → (Party → Nat) →
    Except Fault ((Party → SbMatrix) × Runtime)
  asyncEvaluate : Runtime → (Party → SbMatrix) → (Party → SbMatrix) →
    (Party → SbMatrix) × Runtime
  reveal : Runtime → Party → (Party → SbMatrix) → List I64 × Runtime
  binMatrix_shares : ∀ (r : Runtime) (input : Party → Option (List I64))
    (rows : Party → Nat) (p : Party) (xs : List I64), input p = some xs →
    (∀ q, q ≠ p → input q = none) → (∀ q, rows q = xs.length) →
    ∃ m r', binMatrix r input rows = .ok (m, r') ∧ BinShares m xs
  binMatrix_shape : ∀ (r : Runtime) (input : Party → Option (List I64))
    (rows : Party → Nat) (p : Party) (xs : List I64), input p = some xs →
    (∃ q, rows q ≠ xs.length) → ∃ f, binMatrix r input rows = .error f
  asyncEvaluate_shares : ∀ (r : Runtime) (a b : Party → SbMatrix) (xs ys : List I64),
    BinShares a xs → BinShares b ys → BinShares (asyncEvaluate r a b).1 (addMsb xs ys)
  reveal_shares : ∀ (r : Runtime) (p : Party) (m : Party → SbMatrix) (xs : List I64),
    BinShares m xs → (reveal r p m).1 = xs

/-! ## An engine without masks

The circuit is evaluated on the opened words. It shows that the laws of `Sh3Bin` are
consistent. -/

section Unmasked

/-- The word `x` with party `p` as its owner. -/
def ownedShare (p : Party) (x : I64) (q : Party) : Share I64 :=
  ⟨if q = p then x else 0, if q + 2 = p then x else 0⟩

theorem ownedShare_isBinSharing (p : Party) (x : I64) : IsBinSharing (ownedShare p x) x := by
  have hback : ∀ q : Party, q + 1 + 2 = q := by decide
  refine ⟨fun q => by simp only [ownedShare, hback q], ?_⟩
  fin_cases p <;> simp [ownedShare]

theorem ownedShare_shares (p : Party) (xs : List I64) :
    BinShares (fun q => xs.map fun x => ownedShare p x q) xs := by
  refine ⟨xs.map (ownedShare p), fun q => by rw [List.map_map]; rfl, ?_⟩
  rw [List.forall₂_map_left_iff, List.forall₂_same]
  exact fun x _ => ownedShare_isBinSharing p x

/-- The words that party `p` opens with what the next party sends. -/
def openWords (p : Party) (m : Party → SbMatrix) : List I64 :=
  List.zipWith (fun s t => s.cur ^^^ s.prev ^^^ t.cur) (m p) (m (p + 1))

theorem IsBinSharing.opens {s : Party → Share I64} {x : I64} (h : IsBinSharing s x)
    (p : Party) : (s p).cur ^^^ (s p).prev ^^^ (s (p + 1)).cur = x := by
  have h0 : (s 1).prev = (s 0).cur := h.1 0
  have h1 : (s 2).prev = (s 1).cur := h.1 1
  have h2 : (s 0).prev = (s 2).cur := h.1 2
  have hxor := h.2
  fin_cases p
  · show (s 0).cur ^^^ (s 0).prev ^^^ (s 1).cur = x
    rw [h2, ← hxor]
    ac_rfl
  · show (s 1).cur ^^^ (s 1).prev ^^^ (s 2).cur = x
    rw [h0, ← hxor]
    ac_rfl
  · show (s 2).cur ^^^ (s 2).prev ^^^ (s 0).cur = x
    rw [h1, ← hxor]
    ac_rfl

theorem openWords_shares {m : Party → SbMatrix} {xs : List I64} (h : BinShares m xs)
    (p : Party) : openWords p m = xs := by
  obtain ⟨rows, hrows, h⟩ := h
  unfold openWords
  rw [hrows, hrows, List.zipWith_map, List.zipWith_self]
  clear hrows
  induction h with
  | nil => rfl
  | @cons s x _ _ hs _ ih => rw [List.map_cons, ih, hs.opens p]

/-- The engine without masks. -/
def Sh3Bin.unmasked : Sh3Bin where
  Runtime := Unit
  binMatrix r input rows := return (← unmaskedShares input rows, r)
  asyncEvaluate r a b :=
    (fun q => (addMsb (openWords 0 a) (openWords 0 b)).map fun x => ownedShare 0 x q, r)
  reveal r p m := (openWords p m, r)
  binMatrix_shares r input rows p xs hp hrest hrows := by
    refine ⟨_, r, ?_, ownedShare_shares p xs⟩
    rw [unmaskedShares_eq hp hrest hrows]
    rfl
  binMatrix_shape r input rows p xs hp hrows := by
    rw [unmaskedShares_error hp hrows]
    exact ⟨_, rfl⟩
  asyncEvaluate_shares r a b xs ys ha hb := by
    rw [openWords_shares ha, openWords_shares hb]
    exact ownedShare_shares 0 (addMsb xs ys)
  reveal_shares _ p _ _ h := openWords_shares h p

end Unmasked

/-! ## What each party does -/

/-- What the three parties have, by party. -/
def atParties {α : Type} (x0 x1 x2 : α) (p : Party) : α :=
  if p = 0 then x0 else if p = 1 then x1 else x2

theorem atParties_self {α : Type} (f : Party → α) : atParties (f 0) (f 1) (f 2) = f := by
  funext p
  fin_cases p <;> rfl

/-- Party `q` takes the shape that party `i` sent: from the previous party, from the next one,
or its own. -/
def recvShape (sent : Party → Shape) (q i : Party) : Except Fault Shape :=
  if q = i then .ok (sent q)
  else if q = i + 1 then .ok (sent (q + 2))
  else if q = i + 2 then .ok (sent (q + 1))
  else .error (.exception "Message recv logic error.")

def getAllPartyShape (sent : Party → Shape) (q : Party) : Except Fault (Party → Shape) := do
  return atParties (← recvShape sent q 0) (← recvShape sent q 1) (← recvShape sent q 2)

/-- One round of the search for the party without values. -/
def skipRound (shape : Party → Shape) (skip : Option Party) (i : Party) :
    Except Fault (Option Party) :=
  if (shape i).rows = 0 ∧ (shape i).cols = 0 then
    if skip.isSome then
      .error (.exception ("There are two party that don't provide any value at last, but " ++
        "compare operator require value from two party."))
    else .ok (some i)
  else .ok skip

def findSkip (shape : Party → Shape) : Except Fault Party := do
  match ← [0, 1, 2].foldlM (skipRound shape) none with
  | some i => return i
  | none => .error (.exception "This operator is binary, can only handle value from two party.")

/-- The rewriting of the shapes: those of the two value parties move to places 0 and 1. -/
def moveShapes (skip : Party) (shape : Party → Shape) : Party → Shape :=
  if skip = 0 then
    let shape := Function.update shape 0 (shape 1)
    Function.update shape 1 (shape 2)
  else if skip ≠ 2 then Function.update shape 1 (shape 2)
  else shape

def checkSameShape (shape : Party → Shape) : Except Fault Unit :=
  if (shape 0).rows ≠ (shape 1).rows ∨ (shape 0).cols ≠ (shape 1).cols then
    .error (.exception "Shape of matrix in two party must be the same.")
  else .ok ()

/-- Set value to it's negative for some party. -/
def negateForParty (skip partyIdx : Party) (data : List I64) : List I64 :=
  if skip = 0 ∨ skip = 1 then
    if partyIdx = 2 then data.map (· * -1) else data
  else
    if partyIdx = 1 then data.map (· * -1) else data

/-- A party's half of a sharing step. -/
inductive BinStep where
  | localBin (m : List I64) (rows : Nat)
  | remoteBin (rows : Nat)

/-- What a party does before the circuit is evaluated. -/
structure Plan where
  skipIndex : Party
  steps : List BinStep
  /-- The matrix afterwards, where the party has one: its content is recovered, its shape is
  the one column that was shared. -/
  value : Option (List I64)

/-- `MPC_Compare(i64Matrix&, sbMatrix&)`. The overload for `f64Matrix<D>` takes the same steps
on the scaled integers. -/
def comparePlan (partyIdx : Party) (m : I64Matrix) (sent : Party → Shape) :
    Except Fault Plan := do
  let shape ← getAllPartyShape sent partyIdx
  let skipIndex ← findSkip shape
  let shape := moveShapes skipIndex shape
  checkSameShape shape
  let data := negateForParty skipIndex partyIdx m.data
  let numElem := (shape 0).rows * (shape 0).cols
  return {
    skipIndex
    steps := ([0, 1, 2].filter (· ≠ skipIndex)).map fun i =>
      if i = partyIdx then .localBin data numElem else .remoteBin numElem
    value := some (negateForParty skipIndex partyIdx data) }

/-- `MPC_Compare(sbMatrix&)`: the party takes itself for the skipped one, and keeps the number
of elements in 32 bits. -/
def helperPlan (partyIdx : Party) (sent : Party → Shape) : Except Fault Plan := do
  let shape ← getAllPartyShape sent partyIdx
  let shape := moveShapes partyIdx shape
  checkSameShape shape
  let numElem := (shape 0).rows * (shape 0).cols % 2 ^ 32
  return { skipIndex := partyIdx, steps := List.replicate 2 (.remoteBin numElem), value := none }

/-! ## The three parties together -/

/-- The shape a party sends: `(0, 0)` without a matrix. -/
def sentShape : Option I64Matrix → Shape
  | some m => m.shape
  | none => ⟨0, 0⟩

def plan (ms : Party → Option I64Matrix) (p : Party) : Except Fault Plan :=
  match ms p with
  | some m => comparePlan p m fun q => sentShape (ms q)
  | none => helperPlan p fun q => sentShape (ms q)

def BinStep.input : BinStep → Option (List I64)
  | .localBin m _ => some m
  | .remoteBin _ => none

def BinStep.rows : BinStep → Nat
  | .localBin _ rows => rows
  | .remoteBin rows => rows

/-- The sharing steps of the parties: the k-th steps of the three meet. -/
def shareSteps (sh3 : Sh3Bin) (r : sh3.Runtime) :
    List BinStep → List BinStep → List BinStep →
    Except Fault (List (Party → SbMatrix) × sh3.Runtime)
  | [], [], [] => .ok ([], r)
  | s0 :: ss0, s1 :: ss1, s2 :: ss2 => do
      let step := atParties s0 s1 s2
      let (m, r) ← sh3.binMatrix r (fun p => (step p).input) fun p => (step p).rows
      let (ms, r) ← shareSteps sh3 r ss0 ss1 ss2
      return (m :: ms, r)
  | _, _, _ => .error .diverged

/-- The parties that provide their column in each of the sharing steps. -/
def owners (steps : Party → List BinStep) : List (List Party) :=
  (List.range (steps 0).length).map fun k =>
    [0, 1, 2].filter fun p => ((steps p)[k]?.bind BinStep.input).isSome

/-- The parties after the call. -/
structure Outcome (sh3 : Sh3Bin) where
  plans : Party → Plan
  shRes : Party → SbMatrix
  runtime : sh3.Runtime

/-- `MPC_Compare` at the three parties. -/
def MPC_Compare (sh3 : Sh3Bin) (r : sh3.Runtime) (ms : Party → Option I64Matrix) :
    Except Fault (Outcome sh3) := do
  let plan0 ← plan ms 0
  let plan1 ← plan ms 1
  let plan2 ← plan ms 2
  match ← shareSteps sh3 r plan0.steps plan1.steps plan2.steps with
  | ([a, b], r) =>
      let (shRes, r) := sh3.asyncEvaluate r a b
      return { plans := atParties plan0 plan1 plan2, shRes, runtime := r }
  | _ => .error .outOfRange

/-! ## Two value parties -/

/-- Parties `lo` and `hi` call with their matrix, the third without. -/
def twoValues (lo hi : Party) (A B : I64Matrix) (q : Party) : Option I64Matrix :=
  if q = lo then some A else if q = hi then some B else none

/-- The party other than two different ones. -/
def third (lo hi : Party) : Party := -(lo + hi)

/-- The shapes that the parties send. -/
def twoShapes (lo hi : Party) (A B : I64Matrix) (q : Party) : Shape :=
  sentShape (twoValues lo hi A B q)

section TwoValues

variable {lo hi : Party} {A B : I64Matrix}

theorem third_ne (h : lo < hi) : third lo hi ≠ lo ∧ third lo hi ≠ hi := by
  revert lo hi
  decide

theorem eq_third (h : lo < hi) {q : Party} (hlo : q ≠ lo) (hhi : q ≠ hi) :
    q = third lo hi := by
  revert lo hi q
  decide

/-- The value parties in the order of their numbers. -/
theorem filter_ne_third (h : lo < hi) :
    ([0, 1, 2] : List Party).filter (· ≠ third lo hi) = [lo, hi] := by
  revert lo hi
  decide

/-- The branch that negates is that of the higher-numbered value party. -/
theorem negateForParty_eq (h : lo < hi) (p : Party) (data : List I64) :
    negateForParty (third lo hi) p data = if p = hi then data.map (· * -1) else data := by
  have hskip : ∀ lo hi : Party, lo < hi → ((third lo hi = 0 ∨ third lo hi = 1) ↔ hi = 2) := by
    decide
  have hother : ∀ lo hi : Party, lo < hi → ¬ hi = 2 → hi = 1 := by decide
  replace hskip := hskip lo hi h
  replace hother := hother lo hi h
  unfold negateForParty
  by_cases hhi : hi = 2
  · rw [if_pos (hskip.mpr hhi), hhi]
  · rw [if_neg (mt hskip.mp hhi), hother hhi]

theorem recvShape_eq (sent : Party → Shape) (q i : Party) : recvShape sent q i = .ok (sent i) := by
  fin_cases q <;> fin_cases i <;> rfl

theorem getAllPartyShape_eq (sent : Party → Shape) (q : Party) :
    getAllPartyShape sent q = .ok sent := by
  unfold getAllPartyShape
  rw [recvShape_eq, recvShape_eq, recvShape_eq]
  exact congrArg Except.ok (atParties_self sent)

theorem twoShapes_lo : twoShapes lo hi A B lo = A.shape := by
  simp [twoShapes, twoValues, sentShape]

theorem twoShapes_hi (h : lo < hi) : twoShapes lo hi A B hi = B.shape := by
  simp [twoShapes, twoValues, sentShape, h.ne']

theorem twoShapes_third (h : lo < hi) : twoShapes lo hi A B (third lo hi) = ⟨0, 0⟩ := by
  simp [twoShapes, twoValues, sentShape, third_ne h]

/-- The shapes of the value parties are at places 0 and 1 after the rewriting. -/
theorem moveShapes_twoShapes (h : lo < hi) :
    moveShapes (third lo hi) (twoShapes lo hi A B) 0 = A.shape ∧
      moveShapes (third lo hi) (twoShapes lo hi A B) 1 = B.shape := by
  have hcases : (lo = 0 ∧ hi = 1) ∨ (lo = 0 ∧ hi = 2) ∨ (lo = 1 ∧ hi = 2) := by
    revert lo hi
    decide
  obtain ⟨rfl, rfl⟩ | ⟨rfl, rfl⟩ | ⟨rfl, rfl⟩ := hcases <;> exact ⟨rfl, rfl⟩

theorem checkSameShape_twoShapes (h : lo < hi) (hshape : A.shape = B.shape) :
    checkSameShape (moveShapes (third lo hi) (twoShapes lo hi A B)) = .ok () := by
  obtain ⟨h0, h1⟩ := moveShapes_twoShapes (A := A) (B := B) h
  rw [checkSameShape, h0, h1, hshape, if_neg]
  simp

/-- A party that alone sends `(0, 0)` is the skipped one. -/
theorem findSkip_eq {shape : Party → Shape} {k : Party} (hk : shape k = ⟨0, 0⟩)
    (hne : ∀ q, q ≠ k → ¬ ((shape q).rows = 0 ∧ (shape q).cols = 0)) :
    findSkip shape = .ok k := by
  have hpass : ∀ skip i, i ≠ k → skipRound shape skip i = .ok skip :=
    fun _ i hi => if_neg (hne i hi)
  have hfound : skipRound shape none k = .ok (some k) := by
    rw [skipRound, hk]
    rfl
  have hfold : [0, 1, 2].foldlM (skipRound shape) none = .ok (some k) := by
    have hk : k = 0 ∨ k = 1 ∨ k = 2 := by
      clear hk hne hpass hfound
      revert k
      decide
    rcases hk with rfl | rfl | rfl
    · rw [Fallible.foldlM_cons_of_ok hfound, Fallible.foldlM_cons_of_ok (hpass _ 1 (by decide)),
        Fallible.foldlM_cons_of_ok (hpass _ 2 (by decide))]
      rfl
    · rw [Fallible.foldlM_cons_of_ok (hpass _ 0 (by decide)), Fallible.foldlM_cons_of_ok hfound,
        Fallible.foldlM_cons_of_ok (hpass _ 2 (by decide))]
      rfl
    · rw [Fallible.foldlM_cons_of_ok (hpass _ 0 (by decide)),
        Fallible.foldlM_cons_of_ok (hpass _ 1 (by decide)), Fallible.foldlM_cons_of_ok hfound]
      rfl
  unfold findSkip
  rw [hfold]
  rfl

/-- Every value party finds the third party. -/
theorem findSkip_third (h : lo < hi) (hshape : A.shape = B.shape)
    (hne : ¬ (A.shape.rows = 0 ∧ A.shape.cols = 0)) :
    findSkip (twoShapes lo hi A B) = .ok (third lo hi) := by
  refine findSkip_eq (twoShapes_third h) fun q hq => ?_
  by_cases hlo : q = lo
  · rw [hlo, twoShapes_lo]
    exact hne
  by_cases hhi : q = hi
  · rw [hhi, twoShapes_hi h, ← hshape]
    exact hne
  exact absurd (eq_third h hlo hhi) hq

theorem negate_twice (data : List I64) : (data.map (· * -1)).map (· * -1) = data := by
  rw [List.map_map]
  refine (List.map_congr_left fun x _ => ?_).trans (List.map_id data)
  show x * -1 * -1 = x
  ring

theorem comparePlan_twoShapes (h : lo < hi) (hshape : A.shape = B.shape)
    (hne : ¬ (A.shape.rows = 0 ∧ A.shape.cols = 0)) (p : Party) (m : I64Matrix) :
    comparePlan p m (twoShapes lo hi A B) = .ok {
      skipIndex := third lo hi
      steps := [lo, hi].map fun i =>
        if i = p then .localBin (if p = hi then m.data.map (· * -1) else m.data)
          (A.shape.rows * A.shape.cols)
        else .remoteBin (A.shape.rows * A.shape.cols)
      value := some m.data } := by
  have hvalue : negateForParty (third lo hi) p (negateForParty (third lo hi) p m.data)
      = m.data := by
    rw [negateForParty_eq h, negateForParty_eq h]
    split
    · exact negate_twice m.data
    · rfl
  unfold comparePlan
  rw [getAllPartyShape_eq]
  simp only [bind, Except.bind, findSkip_third h hshape hne,
    checkSameShape_twoShapes h hshape, filter_ne_third h, moveShapes_twoShapes h, hvalue]
  rw [negateForParty_eq h]
  rfl

theorem helperPlan_twoShapes (h : lo < hi) (hshape : A.shape = B.shape) :
    helperPlan (third lo hi) (twoShapes lo hi A B) = .ok {
      skipIndex := third lo hi
      steps := List.replicate 2 (.remoteBin (A.shape.rows * A.shape.cols % 2 ^ 32))
      value := none } := by
  unfold helperPlan
  rw [getAllPartyShape_eq]
  simp only [bind, Except.bind, checkSameShape_twoShapes h hshape, moveShapes_twoShapes h]
  rfl

/-- The number of rows that a party expects in a sharing step. -/
def stepRows (lo hi : Party) (A : I64Matrix) (p : Party) : Nat :=
  if p = third lo hi then A.shape.rows * A.shape.cols % 2 ^ 32
  else A.shape.rows * A.shape.cols

/-- The halves of a sharing step in which party `owner` provides a column. -/
def stepOf (lo hi : Party) (A : I64Matrix) (owner : Party) (data : List I64) (p : Party) :
    BinStep :=
  if p = owner then .localBin data (stepRows lo hi A p) else .remoteBin (stepRows lo hi A p)

/-- What the parties do when the shapes are accepted: `lo` shares its column, then `hi` shares
the negative of its own. -/
def sharedPlan (lo hi : Party) (A B : I64Matrix) (p : Party) : Plan where
  skipIndex := third lo hi
  steps := [stepOf lo hi A lo A.data p, stepOf lo hi A hi (B.data.map (· * -1)) p]
  value := (twoValues lo hi A B p).map I64Matrix.data

theorem plan_twoValues (h : lo < hi) (hshape : A.shape = B.shape)
    (hne : ¬ (A.shape.rows = 0 ∧ A.shape.cols = 0)) (p : Party) :
    plan (twoValues lo hi A B) p = .ok (sharedPlan lo hi A B p) := by
  obtain ⟨hlo, hhi⟩ := third_ne h
  unfold plan
  by_cases hp : p = third lo hi
  · have hnone : twoValues lo hi A B (third lo hi) = none := (if_neg hlo).trans (if_neg hhi)
    rw [hp, hnone]
    refine (helperPlan_twoShapes (A := A) h hshape).trans ?_
    simp [sharedPlan, stepOf, stepRows, hlo, hhi, hnone]
  · have hrows : stepRows lo hi A p = A.shape.rows * A.shape.cols := if_neg hp
    by_cases hplo : p = lo
    · have hsome : twoValues lo hi A B p = some A := if_pos hplo
      rw [hsome]
      refine (comparePlan_twoShapes h hshape hne p A).trans ?_
      subst hplo
      simp [sharedPlan, stepOf, hrows, hsome, h.ne, h.ne']
    · have hphi : p = hi := by
        by_contra hphi
        exact hp (eq_third h hplo hphi)
      have hsome : twoValues lo hi A B p = some B := (if_neg hplo).trans (if_pos hphi)
      rw [hsome]
      refine (comparePlan_twoShapes h hshape hne p B).trans ?_
      subst hphi
      simp [sharedPlan, stepOf, hrows, hsome, h.ne, h.ne']

/-- Two matrices of shape `(0, 0)` are refused: the value parties count three parties without
values. -/
theorem plan_of_empty (hshape : A.shape = B.shape) (hA : A.shape = ⟨0, 0⟩) :
    plan (twoValues lo hi A B) lo = .error (.exception
      ("There are two party that don't provide any value at last, but " ++
        "compare operator require value from two party.")) := by
  have hsent : (fun q => sentShape (twoValues lo hi A B q)) = fun _ => ⟨0, 0⟩ := by
    funext q
    unfold twoValues
    split
    · exact hA
    · split
      · exact hshape.symm.trans hA
      · rfl
  have hp : twoValues lo hi A B lo = some A := if_pos rfl
  simp only [plan, hp, hsent]
  unfold comparePlan
  rw [getAllPartyShape_eq]
  rfl

/-- The sharing steps and the circuit, for plans of two steps. -/
def evaluateSteps (sh3 : Sh3Bin) (r : sh3.Runtime) (plans : Party → Plan)
    (a b : Party → BinStep) : Except Fault (Outcome sh3) := do
  let (m, r) ← sh3.binMatrix r (fun p => (a p).input) fun p => (a p).rows
  let (m', r) ← sh3.binMatrix r (fun p => (b p).input) fun p => (b p).rows
  let (shRes, r) := sh3.asyncEvaluate r m m'
  return { plans, shRes, runtime := r }

theorem MPC_Compare_of_plans (sh3 : Sh3Bin) (r : sh3.Runtime) {ms : Party → Option I64Matrix}
    {plans : Party → Plan} {a b : Party → BinStep} (hplan : ∀ p, plan ms p = .ok (plans p))
    (hsteps : ∀ p, (plans p).steps = [a p, b p]) :
    MPC_Compare sh3 r ms = evaluateSteps sh3 r plans a b := by
  unfold MPC_Compare evaluateSteps
  simp only [hplan, hsteps, shareSteps, bind, Except.bind, atParties_self]
  cases sh3.binMatrix r (fun p => (a p).input) fun p => (a p).rows with
  | error f => rfl
  | ok m =>
      dsimp only
      cases sh3.binMatrix m.2 (fun p => (b p).input) fun p => (b p).rows with
      | error f => rfl
      | ok m' => rfl

theorem stepOf_input (owner : Party) (data : List I64) (p : Party) :
    (stepOf lo hi A owner data p).input = if p = owner then some data else none := by
  unfold stepOf
  split <;> rfl

theorem stepOf_rows (owner : Party) (data : List I64) (p : Party) :
    (stepOf lo hi A owner data p).rows = stepRows lo hi A p := by
  unfold stepOf
  split <;> rfl

theorem MPC_Compare_twoValues (sh3 : Sh3Bin) (r : sh3.Runtime) (h : lo < hi)
    (hshape : A.shape = B.shape) (hne : ¬ (A.shape.rows = 0 ∧ A.shape.cols = 0)) :
    MPC_Compare sh3 r (twoValues lo hi A B) =
      evaluateSteps sh3 r (sharedPlan lo hi A B) (stepOf lo hi A lo A.data)
        (stepOf lo hi A hi (B.data.map (· * -1))) :=
  MPC_Compare_of_plans sh3 r (plan_twoValues h hshape hne) fun _ => rfl

/-- A sharing step of fewer than `2 ^ 32` elements shares the owner's column. -/
theorem binMatrix_stepOf (sh3 : Sh3Bin) (r : sh3.Runtime) (lo hi : Party)
    (hsize : A.shape.rows * A.shape.cols < 2 ^ 32) (owner : Party) {data : List I64}
    (hdata : data.length = A.shape.rows * A.shape.cols) :
    ∃ m r', sh3.binMatrix r (fun p => (stepOf lo hi A owner data p).input)
      (fun p => (stepOf lo hi A owner data p).rows) = .ok (m, r') ∧ BinShares m data := by
  simp only [stepOf_input, stepOf_rows]
  refine sh3.binMatrix_shares r _ _ owner data (if_pos rfl) (fun q hq => if_neg hq) fun q => ?_
  rw [hdata, stepRows, Nat.mod_eq_of_lt hsize, ite_self]

theorem MPC_Compare_shares (sh3 : Sh3Bin) (r : sh3.Runtime) (h : lo < hi)
    (hshape : A.shape = B.shape) (hne : ¬ (A.shape.rows = 0 ∧ A.shape.cols = 0))
    (hsize : A.shape.rows * A.shape.cols < 2 ^ 32) :
    ∃ out, MPC_Compare sh3 r (twoValues lo hi A B) = .ok out ∧
      out.plans = sharedPlan lo hi A B ∧
      BinShares out.shRes (addMsb A.data (B.data.map (· * -1))) := by
  have hB : (B.data.map (· * -1)).length = A.shape.rows * A.shape.cols := by
    rw [List.length_map, B.size_eq, hshape]
  obtain ⟨m, r₁, hm, hmA⟩ := binMatrix_stepOf sh3 r lo hi hsize lo A.size_eq
  obtain ⟨m', r₂, hm', hmB⟩ := binMatrix_stepOf sh3 r₁ lo hi hsize hi hB
  rw [MPC_Compare_twoValues sh3 r h hshape hne]
  unfold evaluateSteps
  rw [hm]
  simp only [bind, Except.bind]
  rw [hm']
  exact ⟨_, rfl, rfl, sh3.asyncEvaluate_shares r₂ m m' _ _ hmA hmB⟩

/-- From `2 ^ 32` elements on, the third party takes part with fewer rows. -/
theorem MPC_Compare_of_long (sh3 : Sh3Bin) (r : sh3.Runtime) (h : lo < hi)
    (hshape : A.shape = B.shape) (hsize : 2 ^ 32 ≤ A.shape.rows * A.shape.cols) :
    ∃ f, MPC_Compare sh3 r (twoValues lo hi A B) = .error f := by
  have hne : ¬ (A.shape.rows = 0 ∧ A.shape.cols = 0) := by
    rintro ⟨hr, -⟩
    rw [hr, Nat.zero_mul] at hsize
    omega
  rw [MPC_Compare_twoValues sh3 r h hshape hne]
  unfold evaluateSteps
  simp only [stepOf_input, stepOf_rows]
  obtain ⟨f, hf⟩ := sh3.binMatrix_shape r (fun p => if p = lo then some A.data else none)
    (stepRows lo hi A) lo A.data (if_pos rfl) ⟨third lo hi, by
      rw [stepRows, if_pos rfl, A.size_eq]
      have := Nat.mod_lt (A.shape.rows * A.shape.cols) (show 0 < 2 ^ 32 by decide)
      omega⟩
  rw [hf]
  exact ⟨f, rfl⟩

theorem MPC_Compare_of_error (sh3 : Sh3Bin) (r : sh3.Runtime) {ms : Party → Option I64Matrix}
    {p : Party} {f : Fault} (hp : plan ms p = .error f) :
    ∃ f, MPC_Compare sh3 r ms = .error f := by
  unfold MPC_Compare
  cases h0 : plan ms 0 with
  | error f => exact ⟨f, rfl⟩
  | ok plan0 =>
      cases h1 : plan ms 1 with
      | error f => exact ⟨f, rfl⟩
      | ok plan1 =>
          cases h2 : plan ms 2 with
          | error f => exact ⟨f, rfl⟩
          | ok plan2 =>
              have hok : ∀ q, ∃ y, plan ms q = .ok y := by
                intro q
                fin_cases q
                · exact ⟨plan0, h0⟩
                · exact ⟨plan1, h1⟩
                · exact ⟨plan2, h2⟩
              obtain ⟨y, hy⟩ := hok p
              rw [hp] at hy
              cases hy

/-! ## When the revealed bits are right -/

/-- The value of a fixed-point number with `D` binary places; an integer has none. -/
def fixedValue (D : Nat) (x : I64) : ℚ := x.toInt / 2 ^ D

/-- The two value parties are told apart, both columns are shared in the order of their owners,
and every party to which the result is revealed learns where the value of the lower-numbered
value party is smaller. -/
def Compares (sh3 : Sh3Bin) (r : sh3.Runtime) (D : Nat) (lo hi : Party) (A B : I64Matrix) :
    Prop :=
  ∃ out, MPC_Compare sh3 r (twoValues lo hi A B) = .ok out ∧
    (∀ p, (out.plans p).skipIndex = third lo hi) ∧
    owners (fun p => (out.plans p).steps) = [[lo], [hi]] ∧
    ∀ p, (sh3.reveal out.runtime p out.shRes).1 =
      List.zipWith (fun a b => bitWord (decide (fixedValue D a < fixedValue D b))) A.data B.data

/-- There are elements, few enough for 32 bits, and no difference of two leaves 64 bits. -/
def InRange (A B : I64Matrix) : Prop :=
  ¬ (A.shape.rows = 0 ∧ A.shape.cols = 0) ∧ A.shape.rows * A.shape.cols < 2 ^ 32 ∧
    ∀ ab ∈ A.data.zip B.data,
      -2 ^ 63 ≤ ab.1.toInt - ab.2.toInt ∧ ab.1.toInt - ab.2.toInt < 2 ^ 63

theorem fixedValue_lt (D : Nat) (a b : I64) :
    fixedValue D a < fixedValue D b ↔ a.toInt < b.toInt := by
  have hpos : (0 : ℚ) < 2 ^ D := by positivity
  rw [fixedValue, fixedValue, div_lt_div_iff_of_pos_right hpos, Int.cast_lt]

theorem bitWord_injective : Function.Injective bitWord := by
  intro a b h
  cases a <;> cases b <;> first | rfl | simp [bitWord] at h

/-- The sign bit of the wrapped difference is the comparison where the difference fits. -/
theorem msb_sub_eq_iff (D : Nat) (a b : I64) :
    (a + b * -1).msb = decide (fixedValue D a < fixedValue D b) ↔
      -2 ^ 63 ≤ a.toInt - b.toInt ∧ a.toInt - b.toInt < 2 ^ 63 := by
  have hsub : a + b * -1 = a - b := by ring
  have ha := BitVec.toInt_lt (x := a)
  have ha' := BitVec.le_toInt (x := a)
  have hb := BitVec.toInt_lt (x := b)
  have hb' := BitVec.le_toInt (x := b)
  rw [hsub, BitVec.msb_eq_toInt, BitVec.toInt_sub, decide_eq_decide, fixedValue_lt,
    Int.bmod_eq_emod]
  split <;> omega

theorem zipWith_eq_zipWith_iff {α β γ : Type} {f g : α → β → γ} {as : List α} {bs : List β} :
    List.zipWith f as bs = List.zipWith g as bs ↔
      ∀ ab ∈ as.zip bs, f ab.1 ab.2 = g ab.1 ab.2 := by
  induction as generalizing bs with
  | nil => simp
  | cons a as ih =>
      cases bs with
      | nil => simp
      | cons b bs => simp [ih]

/-- The circuit on the shared columns computes the comparison exactly where the differences
fit. -/
theorem addMsb_eq_iff (D : Nat) (xs ys : List I64) :
    addMsb xs (ys.map (· * -1)) =
        List.zipWith (fun a b => bitWord (decide (fixedValue D a < fixedValue D b))) xs ys ↔
      ∀ ab ∈ xs.zip ys, -2 ^ 63 ≤ ab.1.toInt - ab.2.toInt ∧ ab.1.toInt - ab.2.toInt < 2 ^ 63 := by
  unfold addMsb
  rw [List.zipWith_map_right, zipWith_eq_zipWith_iff]
  refine forall₂_congr fun ab _ => ?_
  rw [bitWord_injective.eq_iff]
  exact msb_sub_eq_iff D ab.1 ab.2

theorem owners_sharedPlan :
    owners (fun p => (sharedPlan lo hi A B p).steps) = [[lo], [hi]] := by
  have hfilter : ∀ q : Party, ([0, 1, 2] : List Party).filter (fun p => p = q) = [q] := by
    decide
  have hisSome : ∀ (q : Party) (data : List I64) (p : Party),
      (stepOf lo hi A q data p).input.isSome = decide (p = q) := by
    intro q data p
    rw [stepOf_input]
    by_cases hp : p = q
    · rw [if_pos hp, decide_eq_true hp]
      rfl
    · rw [if_neg hp, decide_eq_false hp]
      rfl
  show [([0, 1, 2] : List Party).filter fun p => (stepOf lo hi A lo A.data p).input.isSome,
    ([0, 1, 2] : List Party).filter fun p =>
      (stepOf lo hi A hi (B.data.map (· * -1)) p).input.isSome] = [[lo], [hi]]
  simp only [hisSome, hfilter]

/-- The call goes through, with the right bits, where the differences fit. -/
theorem compares_of_inRange (sh3 : Sh3Bin) (r : sh3.Runtime) (D : Nat) (h : lo < hi)
    (hshape : A.shape = B.shape) (hrange : InRange A B) : Compares sh3 r D lo hi A B := by
  obtain ⟨hne, hsize, hdiff⟩ := hrange
  obtain ⟨out, hout, hplans, hshares⟩ := MPC_Compare_shares sh3 r h hshape hne hsize
  refine ⟨out, hout, fun p => by rw [hplans]; rfl, ?_, fun p => ?_⟩
  · rw [hplans]
    exact owners_sharedPlan
  · rw [sh3.reveal_shares _ p _ _ hshares]
    exact (addMsb_eq_iff D A.data B.data).mpr hdiff

theorem inRange_of_compares (sh3 : Sh3Bin) (r : sh3.Runtime) (D : Nat) (h : lo < hi)
    (hshape : A.shape = B.shape) (hcmp : Compares sh3 r D lo hi A B) : InRange A B := by
  obtain ⟨out, hout, -, -, hbits⟩ := hcmp
  have hne : ¬ (A.shape.rows = 0 ∧ A.shape.cols = 0) := by
    rintro ⟨hrows, hcols⟩
    have hA : A.shape = ⟨0, 0⟩ := congrArg₂ Shape.mk hrows hcols
    obtain ⟨f, hf⟩ := MPC_Compare_of_error sh3 r (plan_of_empty hshape hA)
    rw [hf] at hout
    cases hout
  have hsize : A.shape.rows * A.shape.cols < 2 ^ 32 := by
    by_contra hlong
    obtain ⟨f, hf⟩ := MPC_Compare_of_long sh3 r h hshape (Nat.le_of_not_lt hlong)
    rw [hf] at hout
    cases hout
  refine ⟨hne, hsize, (addMsb_eq_iff D A.data B.data).mp ?_⟩
  obtain ⟨out', hout', -, hshares⟩ := MPC_Compare_shares sh3 r h hshape hne hsize
  obtain rfl : out = out' := Except.ok.inj (hout.symm.trans hout')
  rw [← hbits 0, sh3.reveal_shares _ 0 _ _ hshares]

theorem compares_iff (sh3 : Sh3Bin) (r : sh3.Runtime) (D : Nat) (lo hi : Party)
    (A B : I64Matrix) (h : lo < hi) (hshape : A.shape = B.shape) :
    Compares sh3 r D lo hi A B ↔ InRange A B :=
  ⟨inRange_of_compares sh3 r D h hshape, compares_of_inRange sh3 r D h hshape⟩

end TwoValues

/-- A column of numbers. -/
def column (xs : List I64) (h : xs.length < 2 ^ 63) : I64Matrix where
  shape := ⟨xs.length, 1⟩
  data := xs
  size_eq := (Nat.mul_one _).symm
  rows_lt := h
  cols_lt := by norm_num
  size_lt := by rwa [Nat.mul_one]

/-- Parties 0 and 2 compare 3 with 5 and -1 with -4. -/
theorem compares_small :
    Compares Sh3Bin.unmasked () 16 0 2 (column [3, -1] (by norm_num))
      (column [5, -4] (by norm_num)) :=
  (compares_iff Sh3Bin.unmasked () 16 0 2 _ _ (by decide) (by rfl)).mpr
    ⟨by decide, by decide, List.forall_mem_cons.mpr ⟨by decide, List.forall_mem_singleton.mpr
      (by decide)⟩⟩

/-- The largest integer is taken to be smaller than -1. -/
theorem not_compares_of_overflow :
    ¬ Compares Sh3Bin.unmasked () 0 0 1 (column [9223372036854775807] (by norm_num))
      (column [-1] (by norm_num)) := by
  intro h
  obtain ⟨-, -, hdiff⟩ := inRange_of_compares Sh3Bin.unmasked () 0
    (show (0 : Party) < 1 by decide) (by rfl) h
  have hmem := hdiff (9223372036854775807, -1) (List.mem_singleton.mpr rfl)
  revert hmem
  decide

end Fediux.Compare
