import Fediux.Algorithm.Aby3ML
import Fediux.Basic.Outcomes

set_option autoImplicit false

/-! # Stochastic gradient descent over an engine

The templates `SGD_Linear` and `SGD_Logistic` of `algorithm/regression.h` run over an engine and
its matrices. Two engines are given here: that of the three parties, on shares, whose protocol
steps are parameters (`Sh3Fixed`), and the same operations on the plain fixed-point values, where
a product may be any truncation that the protocol allows. A training over the first implements
the training over the second (`SGD_implements`).
-/

namespace Fediux.Regression

open Replicated Outcomes Aby3

/-! ## The templates -/

/-- What the templates use of an engine and its matrices. Computations take place in `m`, and `F`
holds what has been revealed. -/
structure Engine (m F : Type → Type) (M : ℕ → ℕ → Type) (V : Type) where
  mul {r k c : ℕ} : M r k → M k c → m (M r c)
  mulTruncate {r k c : ℕ} : M r k → M k c → ℕ → m (M r c)
  logisticFunc {r c : ℕ} : M r c → m (M r c)
  reveal {r c : ℕ} : M r c → m (F (Matrix (Fin r) (Fin c) V))
  sub {r c : ℕ} : M r c → M r c → M r c
  transpose {r c : ℕ} : M r c → M c r
  /-- `extractBatch`: the rows with the given indices. -/
  extractBatch {r c : ℕ} : M r c → (batch : List (Fin r)) → M batch.length c

/-- What the program does with values of type `double`. -/
structure Doubles (V : Type) where
  toFixed : V → I64
  ofFixed : I64 → V
  gtHalf : V → Bool
  divRows : V → ℕ → V
  ratio : ℕ → ℕ → V

/-- The one row or column of a vector. -/
def only : Fin 1 := Fin.last 0

/-- `X_test` and `Y_test`. -/
structure TestSet (M : ℕ → ℕ → Type) (cols : ℕ) where
  rows : ℕ
  x : M rows cols
  y : M rows 1

section Templates

variable {m F : Type → Type} [Monad m] [Applicative F] {M : ℕ → ℕ → Type} {V : Type}
  (engine : Engine m F M V) (dbl : Doubles V) {rows cols : ℕ}

def test_linearModel (w : M cols 1) (test : TestSet M cols) : m (F V) := do
  let error := engine.sub (← engine.mul test.x w) test.y
  let l2 ← engine.mul (engine.transpose error) error
  return (fun l2 => dbl.divRows (l2 only only) test.rows) <$> (← engine.reveal l2)

/-- How many predictions fall on the side of their labels. -/
def countRight {n : ℕ} (pp yy : Matrix (Fin n) (Fin 1) V) : ℕ :=
  (List.finRange n).countP fun i => dbl.gtHalf (pp i only) == dbl.gtHalf (yy i only)

def test_logisticModel (w : M cols 1) (test : TestSet M cols) : m (F (V × V)) := do
  let xw ← engine.mul test.x w
  let fxw ← engine.logisticFunc xw
  let error := engine.sub fxw test.y
  let l2 ← engine.mul (engine.transpose error) error
  let pp ← engine.reveal fxw
  let yy ← engine.reveal test.y
  let l2 ← engine.reveal l2
  return (fun pp yy l2 =>
    (dbl.divRows (l2 only only) test.rows, dbl.ratio (countRight dbl pp yy) test.rows))
      <$> pp <*> yy <*> l2

/-- What the two templates have in common: the prediction from `XX * w`, the score and how often
it is taken. -/
structure Kind (m F : Type → Type) (M : ℕ → ℕ → Type) (S : Type) (cols : ℕ) where
  predict {r : ℕ} : M r 1 → m (M r 1)
  score : M cols 1 → TestSet M cols → m (F S)
  every : ℕ

variable {S : Type}

/-- One iteration: the update of `w` for a batch, and the score that is logged. -/
def iteration (kind : Kind m F M S cols) (aB : ℕ) (X : M rows cols) (Y : M rows 1)
    (test : Option (TestSet M cols)) (state : M cols 1 × List (ℕ × F S))
    (batch : List (Fin rows) × ℕ) : m (M cols 1 × List (ℕ × F S)) := do
  let XX := engine.extractBatch X batch.1
  let YY := engine.extractBatch Y batch.1
  let xw ← engine.mul XX state.1
  let error := engine.sub (← kind.predict xw) YY
  let update ← engine.mulTruncate (engine.transpose XX) error aB
  let w := engine.sub state.1 update
  match test with
  | some test =>
      if batch.2 % kind.every = 0 then
        let score ← kind.score w test
        return (w, state.2 ++ [(batch.2, score)])
      else return (w, state.2)
  | none => return (w, state.2)

/-- The iterations over the batches that `getSubset` draws. -/
def SGD (kind : Kind m F M S cols) (aB : ℕ) (X : M rows cols) (Y : M rows 1)
    (test : Option (TestSet M cols)) (batches : List (List (Fin rows))) (w : M cols 1) :
    m (M cols 1 × List (ℕ × F S)) :=
  batches.zipIdx.foldlM (iteration engine kind aB X Y test) (w, [])

def linear : Kind m F M V cols where
  predict xw := pure xw
  score := test_linearModel engine dbl
  every := 1000

def logisticKind : Kind m F M (V × V) cols where
  predict := engine.logisticFunc
  score := test_logisticModel engine dbl
  every := 10

def SGD_Linear (aB : ℕ) (X : M rows cols) (Y : M rows 1) (test : Option (TestSet M cols))
    (batches : List (List (Fin rows))) (w : M cols 1) : m (M cols 1 × List (ℕ × F V)) :=
  SGD engine (linear engine dbl) aB X Y test batches w

def SGD_Logistic (aB : ℕ) (X : M rows cols) (Y : M rows 1) (test : Option (TestSet M cols))
    (batches : List (List (Fin rows))) (w : M cols 1) : m (M cols 1 × List (ℕ × F (V × V))) :=
  SGD engine (logisticKind engine dbl) aB X Y test batches w

end Templates

/-! ## Two engines for one template -/

/-- A relation between the matrices of two engines, for every shape. -/
abbrev MatrixRel (M M' : ℕ → ℕ → Type) := ∀ r c : ℕ, M r c → M' r c → Prop

/-- A relation between what two engines reveal. -/
abbrev RevealRel (F F' : Type → Type) := ∀ α : Type, F α → F' α → Prop

section Simulation

variable {σ V : Type} {F F' : Type → Type} [Applicative F] [Applicative F']
  {M M' : ℕ → ℕ → Type}

/-- The operations of `E` implement those of `E'`: `R` relates their matrices and `K` what they
reveal. -/
structure Simulates (Good : σ → Prop) (R : MatrixRel M M') (K : RevealRel F F')
    (E : Engine (StateM σ) F M V) (E' : Engine Outcome F' M' V) : Prop where
  mul {r k c : ℕ} {a : M r k} {a' : M' r k} {b : M k c} {b' : M' k c} :
    R r k a a' → R k c b b' → Implements Good (R r c) (E.mul a b) (E'.mul a' b')
  mulTruncate {r k c : ℕ} {a : M r k} {a' : M' r k} {b : M k c} {b' : M' k c} (shift : ℕ) :
    R r k a a' → R k c b b' →
      Implements Good (R r c) (E.mulTruncate a b shift) (E'.mulTruncate a' b' shift)
  logisticFunc {r c : ℕ} {a : M r c} {a' : M' r c} : R r c a a' →
    Implements Good (R r c) (E.logisticFunc a) (E'.logisticFunc a')
  reveal {r c : ℕ} {a : M r c} {a' : M' r c} : R r c a a' →
    Implements Good (K _) (E.reveal a) (E'.reveal a')
  sub {r c : ℕ} {a b : M r c} {a' b' : M' r c} : R r c a a' → R r c b b' →
    R r c (E.sub a b) (E'.sub a' b')
  transpose {r c : ℕ} {a : M r c} {a' : M' r c} : R r c a a' →
    R c r (E.transpose a) (E'.transpose a')
  extractBatch {r c : ℕ} {a : M r c} {a' : M' r c} (batch : List (Fin r)) : R r c a a' →
    R batch.length c (E.extractBatch a batch) (E'.extractBatch a' batch)
  map {α β : Type} (f : α → β) {x : F α} {x' : F' α} : K α x x' → K β (f <$> x) (f <$> x')
  seq {α β : Type} {f : F (α → β)} {f' : F' (α → β)} {x : F α} {x' : F' α} :
    K (α → β) f f' → K α x x' → K β (f <*> x) (f' <*> x')

/-- Related test data. -/
inductive TestRel (R : MatrixRel M M') {cols : ℕ} : TestSet M cols → TestSet M' cols → Prop where
  | mk {rows : ℕ} {x : M rows cols} {y : M rows 1} {x' : M' rows cols} {y' : M' rows 1}
      (hx : R rows cols x x') (hy : R rows 1 y y') : TestRel R ⟨rows, x, y⟩ ⟨rows, x', y'⟩

/-- The predictions and the scores of two kinds of training are related. -/
structure KindRel {S : Type} {cols : ℕ} (Good : σ → Prop) (R : MatrixRel M M')
    (K : RevealRel F F') (kind : Kind (StateM σ) F M S cols)
    (kind' : Kind Outcome F' M' S cols) : Prop where
  predict {r : ℕ} {a : M r 1} {a' : M' r 1} : R r 1 a a' →
    Implements Good (R r 1) (kind.predict a) (kind'.predict a')
  score {w : M cols 1} {w' : M' cols 1} {test : TestSet M cols} {test' : TestSet M' cols} :
    R cols 1 w w' → TestRel R test test' →
      Implements Good (K S) (kind.score w test) (kind'.score w' test')
  every : kind.every = kind'.every

/-- The weights are related, and what has been logged is the same. -/
def StateRel {S : Type} {cols : ℕ} (R : MatrixRel M M') (K : RevealRel F F')
    (state : M cols 1 × List (ℕ × F S)) (state' : M' cols 1 × List (ℕ × F' S)) : Prop :=
  R cols 1 state.1 state'.1 ∧
    List.Forall₂ (fun e e' => e.1 = e'.1 ∧ K S e.2 e'.2) state.2 state'.2

variable {Good : σ → Prop} {R : MatrixRel M M'} {K : RevealRel F F'}
  {E : Engine (StateM σ) F M V} {E' : Engine Outcome F' M' V} (dbl : Doubles V) {rows cols : ℕ}

theorem test_linearModel_implements (sim : Simulates Good R K E E') {w : M cols 1}
    {w' : M' cols 1} {test : TestSet M cols} {test' : TestSet M' cols} (hw : R cols 1 w w')
    (ht : TestRel R test test') :
    Implements Good (K V) (test_linearModel E dbl w test) (test_linearModel E' dbl w' test') := by
  cases ht with
  | mk hx hy =>
      refine (sim.mul hx hw).bind fun xw xw' hxw => ?_
      have herror := sim.sub hxw hy
      refine (sim.mul (sim.transpose herror) herror).bind fun l2 l2' hl2 => ?_
      exact (sim.reveal hl2).bind fun l2 l2' hl2 => .pure (sim.map _ hl2)

theorem test_logisticModel_implements (sim : Simulates Good R K E E') {w : M cols 1}
    {w' : M' cols 1} {test : TestSet M cols} {test' : TestSet M' cols} (hw : R cols 1 w w')
    (ht : TestRel R test test') :
    Implements Good (K (V × V)) (test_logisticModel E dbl w test)
      (test_logisticModel E' dbl w' test') := by
  cases ht with
  | mk hx hy =>
      refine (sim.mul hx hw).bind fun xw xw' hxw => ?_
      refine (sim.logisticFunc hxw).bind fun fxw fxw' hfxw => ?_
      have herror := sim.sub hfxw hy
      refine (sim.mul (sim.transpose herror) herror).bind fun l2 l2' hl2 => ?_
      refine (sim.reveal hfxw).bind fun pp pp' hpp => ?_
      refine (sim.reveal hy).bind fun yy yy' hyy => ?_
      refine (sim.reveal hl2).bind fun l2 l2' hl2 => ?_
      exact .pure (sim.seq (sim.seq (sim.map _ hpp) hyy) hl2)

theorem linear_rel (sim : Simulates Good R K E E') :
    KindRel Good R K (linear E dbl : Kind _ _ _ _ cols) (linear E' dbl) where
  predict := Implements.pure
  score := test_linearModel_implements dbl sim
  every := rfl

theorem logisticKind_rel (sim : Simulates Good R K E E') :
    KindRel Good R K (logisticKind E dbl : Kind _ _ _ _ cols) (logisticKind E' dbl) where
  predict := sim.logisticFunc
  score := test_logisticModel_implements dbl sim
  every := rfl

variable {S : Type} {kind : Kind (StateM σ) F M S cols} {kind' : Kind Outcome F' M' S cols}

/-- **One iteration over the first engine implements one over the second.** -/
theorem iteration_implements (sim : Simulates Good R K E E') (hkind : KindRel Good R K kind kind')
    (aB : ℕ) {X : M rows cols} {X' : M' rows cols} {Y : M rows 1} {Y' : M' rows 1}
    (hX : R rows cols X X') (hY : R rows 1 Y Y') {test : Option (TestSet M cols)}
    {test' : Option (TestSet M' cols)} (ht : Option.Rel (TestRel R) test test')
    {state : M cols 1 × List (ℕ × F S)} {state' : M' cols 1 × List (ℕ × F' S)}
    (hs : StateRel R K state state') (batch : List (Fin rows) × ℕ) :
    Implements Good (StateRel R K) (iteration E kind aB X Y test state batch)
      (iteration E' kind' aB X' Y' test' state' batch) := by
  obtain ⟨hw, hlogs⟩ := hs
  have hXX := sim.extractBatch batch.1 hX
  have hYY := sim.extractBatch batch.1 hY
  refine (sim.mul hXX hw).bind fun xw xw' hxw => ?_
  refine (hkind.predict hxw).bind fun fxw fxw' hfxw => ?_
  have herror := sim.sub hfxw hYY
  refine (sim.mulTruncate aB (sim.transpose hXX) herror).bind fun update update' hupdate => ?_
  have hw' := sim.sub hw hupdate
  cases ht with
  | none => exact .pure ⟨hw', hlogs⟩
  | some ht =>
      -- the score is taken in the same iterations
      dsimp only
      rw [hkind.every]
      split
      · refine (hkind.score hw' ht).bind fun score score' hscore => .pure ⟨hw', ?_⟩
        exact List.rel_append hlogs (.cons ⟨rfl, hscore⟩ .nil)
      · exact .pure ⟨hw', hlogs⟩

/-- **A training over the first engine implements the training over the second.** -/
theorem SGD_implements (sim : Simulates Good R K E E') (hkind : KindRel Good R K kind kind')
    (aB : ℕ) {X : M rows cols} {X' : M' rows cols} {Y : M rows 1} {Y' : M' rows 1}
    (hX : R rows cols X X') (hY : R rows 1 Y Y') {test : Option (TestSet M cols)}
    {test' : Option (TestSet M' cols)} (ht : Option.Rel (TestRel R) test test')
    (batches : List (List (Fin rows))) {w : M cols 1} {w' : M' cols 1} (hw : R cols 1 w w') :
    Implements Good (StateRel R K) (SGD E kind aB X Y test batches w)
      (SGD E' kind' aB X' Y' test' batches w') :=
  .foldlM (fun _ _ batch hs => iteration_implements sim hkind aB hX hY ht hs batch) _
    ⟨hw, .nil⟩

end Simulation

/-! ## The engine of the three parties -/

/-- `sf64Matrix<D20>` at the three parties. -/
abbrev Shared (r c : ℕ) := Party → Matrix (Fin r) (Fin c) (Share I64)

/-- The values of `f64Matrix<D20>`, as scaled integers. -/
abbrev Fixed (r c : ℕ) := Matrix (Fin r) (Fin c) I64

/-- The parties share the matrix, element by element. -/
def SharesOf {r c : ℕ} (m : Shared r c) (X : Fixed r c) : Prop :=
  ∀ i j, IsSharing (fun p => m p i j) (X i j)

/-- The fixed-point operations of aby3. `truncated n x z` says that the protocol may give `z`
when it cuts `n` bits off `x`. -/
structure Sh3Fixed where
  Runtime : Type
  truncated : ℕ → I64 → I64 → Prop
  localFixedMatrix {r c : ℕ} : Runtime → Party → Fixed r c → Shared r c × Runtime
  asyncMul {r k c : ℕ} : Runtime → Shared r k → Shared k c → ℕ → Shared r c × Runtime
  eval {r c : ℕ} : Sh3Piecewise → Runtime → Shared r c → Shared r c × Runtime
  revealAll {r c : ℕ} : Runtime → Shared r c → (Party → Fixed r c) × Runtime
  localFixedMatrix_shares {r c : ℕ} (run : Runtime) (p : Party) (X : Fixed r c) :
    SharesOf (localFixedMatrix run p X).1 X
  asyncMul_shares {r k c : ℕ} (run : Runtime) (a : Shared r k) (b : Shared k c) (shift : ℕ)
    (X : Fixed r k) (Y : Fixed k c) : SharesOf a X → SharesOf b Y →
    ∃ Z, SharesOf (asyncMul run a b shift).1 Z ∧
      ∀ i j, truncated (20 + shift) ((X * Y) i j) (Z i j)
  eval_shares {r c : ℕ} (P : Sh3Piecewise) (run : Runtime) (a : Shared r c) (X : Fixed r c) :
    SharesOf a X → SharesOf (eval P run a).1 (X.map P.value)
  revealAll_shares {r c : ℕ} (run : Runtime) (a : Shared r c) (X : Fixed r c) (p : Party) :
    SharesOf a X → (revealAll run a).1 p = X

/-- The values of a shared matrix, as the sums of the parties' own summands. -/
def reconstruct {r c : ℕ} (a : Shared r c) : Fixed r c := fun i j =>
  (a 0 i j).cur + (a 1 i j).cur + (a 2 i j).cur

theorem reconstruct_eq {r c : ℕ} {a : Shared r c} {X : Fixed r c} (h : SharesOf a X) :
    reconstruct a = X := by
  funext i j
  exact (h i j).2

def ownedBy {r c : ℕ} (p : Party) (X : Fixed r c) : Shared r c := fun q i j => owned p (X i j) q

/-- An engine that computes on the reconstructed values and shares the results without masks. It
shows that the laws of `Sh3Fixed` are consistent. -/
def Sh3Fixed.ideal : Sh3Fixed where
  Runtime := Unit
  truncated n x z := z = x.sshiftRight n
  localFixedMatrix run p X := (ownedBy p X, run)
  asyncMul run a b shift :=
    (ownedBy 0 ((reconstruct a * reconstruct b).map fun x => x.sshiftRight (20 + shift)), run)
  eval P run a := (ownedBy 0 ((reconstruct a).map P.value), run)
  revealAll run a := (fun p i j => (a p i j).cur + (a p i j).prev + (a (p + 1) i j).cur, run)
  localFixedMatrix_shares _ p X i j := isSharing_owned p (X i j)
  asyncMul_shares _ a b shift X Y ha hb := by
    refine ⟨(X * Y).map fun x => x.sshiftRight (20 + shift), fun i j => ?_, fun _ _ => rfl⟩
    rw [reconstruct_eq ha, reconstruct_eq hb]
    exact isSharing_owned 0 _
  eval_shares P _ a X ha i j := by
    rw [reconstruct_eq ha]
    exact isSharing_owned 0 _
  revealAll_shares _ a X p ha := by
    funext i j
    exact (ha i j).opens p

variable (A : Sh3Fixed)

/-- `mLogistic` and the runtime, which all parties have in the same state. -/
abbrev Sh3Fixed.State := Sh3Piecewise × A.Runtime

/-- Each party's own value. -/
abbrev AtEach (α : Type) := ReaderM Party α

section Engines

variable {V : Type} (dbl : Doubles V)

/-- A protocol step of aby3. -/
def protocol {α : Type} (f : A.Runtime → α × A.Runtime) : StateM A.State α := fun (P, run) =>
  ((f run).1, (P, (f run).2))

/-- The members of `aby3ML`, at the three parties together. -/
def aby3ML : Engine (StateM A.State) AtEach Shared V where
  mul left right := protocol A fun run => A.asyncMul run left right 0
  mulTruncate left right shift := protocol A fun run => A.asyncMul run left right shift
  logisticFunc Y := fun (P, run) =>
    let P := P.logisticFunc
    ((A.eval P run Y).1, (P, (A.eval P run Y).2))
  reveal vals := protocol A fun run =>
    (fun p => ((A.revealAll run vals).1 p).map dbl.ofFixed, (A.revealAll run vals).2)
  sub a b p := fun i j => (a p i j).sub (b p i j)
  transpose a p := (a p).transpose
  extractBatch a batch p := (a p).submatrix batch.get id

/-- The truncations that aby3 may give for the elements of a product. -/
def products {r k c : ℕ} (X : Fixed r k) (Y : Fixed k c) (shift : ℕ) : Outcome (Fixed r c) :=
  {Z | ∀ i j, A.truncated (20 + shift) ((X * Y) i j) (Z i j)}

/-- The same operations on plain fixed-point numbers. -/
def plain : Engine Outcome Id Fixed V where
  mul X Y := products A X Y 0
  mulTruncate X Y shift := products A X Y shift
  logisticFunc Y := pure (Y.map sigmoid)
  reveal X := pure (X.map dbl.ofFixed)
  sub X Y := X - Y
  transpose X := X.transpose
  extractBatch X batch := X.submatrix batch.get id

/-- `lt` has not been called, so `logisticFunc` has its own pieces. -/
def Unspoilt (s : A.State) : Prop := s.1 = .empty ∨ s.1 = logistic

/-- All parties know the value. -/
def Known (α : Type) (a : AtEach α) (b : Id α) : Prop := ∀ p, a.run p = b

theorem protocol_implements {α β : Type} {R : α → β → Prop} {f : A.Runtime → α × A.Runtime}
    {y : Outcome β} (h : ∀ run, ∃ b ∈ y.run, R (f run).1 b) :
    Implements (Unspoilt A) R (protocol A f) y :=
  fun s hs => ⟨hs, h s.2⟩

theorem products_mem {r k c : ℕ} {a : Shared r k} {b : Shared k c} {X : Fixed r k}
    {Y : Fixed k c} (ha : SharesOf a X) (hb : SharesOf b Y) (shift : ℕ) (run : A.Runtime) :
    ∃ Z ∈ (products A X Y shift).run, SharesOf (A.asyncMul run a b shift).1 Z := by
  obtain ⟨Z, hZ, htruncated⟩ := A.asyncMul_shares run a b shift X Y ha hb
  exact ⟨Z, htruncated, hZ⟩

/-- **The engine on shares implements the engine on the values.** -/
theorem aby3ML_simulates :
    Simulates (Unspoilt A) (fun _ _ => SharesOf) Known (aby3ML A dbl) (plain A dbl) where
  mul ha hb := protocol_implements A fun run => products_mem A ha hb 0 run
  mulTruncate shift ha hb := protocol_implements A fun run => products_mem A ha hb shift run
  logisticFunc {r c} a a' ha := by
    intro s hs
    -- `logisticFunc` sets the pieces or leaves them as they are
    have hP : s.1.logisticFunc = logistic := by
      rcases hs with hs | hs <;> rw [hs] <;> rfl
    have hvalue : logistic.value = sigmoid := funext value_logistic
    refine ⟨Or.inr hP, a'.map sigmoid, mem_pure_iff.mpr rfl, ?_⟩
    rw [← hvalue, ← hP]
    exact A.eval_shares _ s.2 a a' ha
  reveal {r c} a a' ha := protocol_implements A fun run =>
    ⟨a'.map dbl.ofFixed, mem_pure_iff.mpr rfl, fun p => by
      show ((A.revealAll run a).1 p).map dbl.ofFixed = _
      rw [A.revealAll_shares run a a' p ha]⟩
  sub ha hb i j := (ha i j).sub (hb i j)
  transpose ha i j := ha j i
  extractBatch batch ha i j := ha (batch.get i) j
  map f _ _ hx p := congrArg f (hx p)
  seq hf hx p := congr (hf p) (hx p)

end Engines

end Fediux.Regression
