import Fediux.Algorithm.GetSubset
import Fediux.Algorithm.Regression

set_option autoImplicit false

/-! # Logistic regression of three parties

`LogisticRegressionExecutor` (`algorithm/logistic.cc`) after the data have been loaded: each party
shares its training and its test data, the shares are put below each other, and the model that
`logistic_main` trains on them is revealed. The program is written once, over an engine.
`execute_agrees` says what the three parties end with.
-/

namespace Fediux.Regression

open Replicated Outcomes Aby3

/-! ## The program -/

/-- `train_input_` or `test_input_` of a party: at least one column, and the label in the last
one. -/
structure Table (V : Type) where
  rows : ℕ
  width : ℕ
  entry : Matrix (Fin rows) (Fin (width + 1)) V

/-- What the executor does with shares besides the training: a party provides a matrix, and
matrices are copied below each other, without their last column or only it. -/
structure Inputs (m : Type → Type) (M : ℕ → ℕ → Type) where
  input {r c : ℕ} : Party → Fixed r c → m (M r c)
  data {r₀ r₁ r₂ c : ℕ} : M r₀ (c + 1) → M r₁ (c + 1) → M r₂ (c + 1) → M (r₀ + r₁ + r₂) c
  label {r₀ r₁ r₂ c : ℕ} : M r₀ (c + 1) → M r₁ (c + 1) → M r₂ (c + 1) → M (r₀ + r₁ + r₂) 1

/-- `train_data`, `train_label`, `test_data`, `test_label` and `w`. -/
structure Constructed (M : ℕ → ℕ → Type) (cols : ℕ) where
  rows : ℕ
  train_data : M rows cols
  train_label : M rows 1
  test : TestSet M cols
  w : M cols 1

def columnMismatch (dataset : String) (p q width width' : ℕ) : Fault :=
  .exception ("Count of column in " ++ dataset ++ " dataset mismatch between party " ++ toString p
    ++ " and " ++ toString q ++ ", party " ++ toString p ++ " has " ++ toString (width + 1)
    ++ " column, party " ++ toString q ++ " has " ++ toString (width' + 1) ++ " column.")

def trainTestMismatch (width width' : ℕ) : Fault :=
  .exception ("Count of column mismatch between train dataset and test dataset, "
    ++ "train dataset has " ++ toString (width + 1) ++ ", test dataset has "
    ++ toString (width' + 1) ++ " column.")

section Program

variable {m F : Type → Type} [Monad m] [Applicative F] {M : ℕ → ℕ → Type} {V γ : Type}
  (E : Engine m F M V) (I : Inputs m M) (dbl : Doubles V)

/-- A matrix whose number of columns is also written in another way. -/
def castCols {M : ℕ → ℕ → Type} {r c c' : ℕ} (h : c = c') (a : M r (c + 1)) : M r (c' + 1) :=
  h ▸ a

def shareTables (t : Party → Table V) :
    m (M (t 0).rows ((t 0).width + 1) × M (t 1).rows ((t 1).width + 1) ×
      M (t 2).rows ((t 2).width + 1)) := do
  let t0 ← I.input 0 ((t 0).entry.map dbl.toFixed)
  let t1 ← I.input 1 ((t 1).entry.map dbl.toFixed)
  let t2 ← I.input 2 ((t 2).entry.map dbl.toFixed)
  return (t0, t1, t2)

/-- `_ConstructShares`. -/
def constructShares (train test : Party → Table V) :
    m (Except Fault (Constructed M (train 0).width)) := do
  let (a0, a1, a2) ← shareTables I dbl train
  if h01 : (train 1).width = (train 0).width then
    if h12 : (train 2).width = (train 1).width then
      let (b0, b1, b2) ← shareTables I dbl test
      if k01 : (test 1).width = (test 0).width then
        if k1 : (test 1).width = (train 0).width then
          if k12 : (test 2).width = (test 1).width then
            let a1 := castCols h01 a1
            let a2 := castCols (h12.trans h01) a2
            let b0 := castCols (k01.symm.trans k1) b0
            let b1 := castCols k1 b1
            let b2 := castCols (k12.trans k1) b2
            let w ← I.input 0 0
            return .ok
              { rows := _
                train_data := I.data a0 a1 a2
                train_label := I.label a0 a1 a2
                test := { rows := _, x := I.data b0 b1 b2, y := I.label b0 b1 b2 }
                w := w }
          else return .error (columnMismatch "test" 1 2 (test 1).width (test 2).width)
        else return .error (trainTestMismatch (train 0).width (test 1).width)
      else return .error (columnMismatch "test" 0 1 (test 0).width (test 1).width)
    else return .error (columnMismatch "train" 1 2 (train 1).width (train 2).width)
  else return .error (columnMismatch "train" 0 1 (train 0).width (train 1).width)

/-- `mLearningRate` is `1 / (1 << 7)`: the bits cut off for a batch, `log2(1 / (rate / size))`. -/
def aB (mBatchSize : ℕ) : ℕ := Nat.log 2 (mBatchSize * 2 ^ 7)

/-- The revealed model, and the scores that have been logged. -/
abbrev Trained (F : Type → Type) (V : Type) (cols : ℕ) :=
  F (Matrix (Fin cols) (Fin 1) V) × List (ℕ × F (V × V))

/-- `logistic_main`, or nothing when the training does not come to an end. -/
def logistic_main (sh : (n : ℕ) → Shuffle γ (Fin n)) (prng : γ) (B IT : ℕ) {cols : ℕ}
    (d : Constructed M cols) : m (Option (Trained F V cols)) :=
  match getSubsets (sh d.rows) (B + 1) B IT (sampler d.rows prng) with
  | none => return none
  | some (batches, _) => do
      let (w, logs) ←
        SGD_Logistic E dbl (aB B) d.train_data d.train_label (some d.test) batches d.w
      return some (← E.reveal w, logs)

def execute (sh : (n : ℕ) → Shuffle γ (Fin n)) (prng : γ) (B IT : ℕ)
    (train test : Party → Table V) :
    m (Except Fault (Option (Trained F V (train 0).width))) := do
  match ← constructShares I dbl train test with
  | .error e => return .error e
  | .ok d => return .ok (← logistic_main E dbl sh prng B IT d)

end Program

/-! ## One program over two engines -/

section Simulation

variable {σ V γ : Type} {F F' : Type → Type} [Applicative F] [Applicative F']
  {M M' : ℕ → ℕ → Type} {Good : σ → Prop} {R : MatrixRel M M'} {K : RevealRel F F'}
  {E : Engine (StateM σ) F M V} {E' : Engine Outcome F' M' V}

structure InputsRel (Good : σ → Prop) (R : MatrixRel M M') (I : Inputs (StateM σ) M)
    (I' : Inputs Outcome M') : Prop where
  input {r c : ℕ} (p : Party) (X : Fixed r c) : Implements Good (R r c) (I.input p X) (I'.input p X)
  data {r₀ r₁ r₂ c : ℕ} {a : M r₀ (c + 1)} {b : M r₁ (c + 1)} {d : M r₂ (c + 1)}
    {a' : M' r₀ (c + 1)} {b' : M' r₁ (c + 1)} {d' : M' r₂ (c + 1)} : R _ _ a a' → R _ _ b b' →
      R _ _ d d' → R _ _ (I.data a b d) (I'.data a' b' d')
  label {r₀ r₁ r₂ c : ℕ} {a : M r₀ (c + 1)} {b : M r₁ (c + 1)} {d : M r₂ (c + 1)}
    {a' : M' r₀ (c + 1)} {b' : M' r₁ (c + 1)} {d' : M' r₂ (c + 1)} : R _ _ a a' → R _ _ b b' →
      R _ _ d d' → R _ _ (I.label a b d) (I'.label a' b' d')

inductive ConstructedRel (R : MatrixRel M M') {cols : ℕ} :
    Constructed M cols → Constructed M' cols → Prop where
  | mk {rows : ℕ} {X : M rows cols} {X' : M' rows cols} {Y : M rows 1} {Y' : M' rows 1}
      {test : TestSet M cols} {test' : TestSet M' cols} {w : M cols 1} {w' : M' cols 1}
      (hX : R rows cols X X') (hY : R rows 1 Y Y') (ht : TestRel R test test')
      (hw : R cols 1 w w') : ConstructedRel R ⟨rows, X, Y, test, w⟩ ⟨rows, X', Y', test', w'⟩

/-- Both end with the same error, or with results in `S`. -/
inductive BothEnd {α β : Type} (S : α → β → Prop) : Except Fault α → Except Fault β → Prop where
  | error (e : Fault) : BothEnd S (.error e) (.error e)
  | ok {a : α} {b : β} (h : S a b) : BothEnd S (.ok a) (.ok b)

/-- The model is related, and what has been logged is the same. -/
def TrainedRel (K : RevealRel F F') {cols : ℕ} (t : Trained F V cols) (t' : Trained F' V cols) :
    Prop :=
  K _ t.1 t'.1 ∧ List.Forall₂ (fun e e' => e.1 = e'.1 ∧ K (V × V) e.2 e'.2) t.2 t'.2

theorem rel_castCols (R : MatrixRel M M') {r c c' : ℕ} (h : c = c') {a : M r (c + 1)}
    {a' : M' r (c + 1)} (ha : R _ _ a a') : R _ _ (castCols h a) (castCols h a') := by
  subst h
  exact ha

variable {I : Inputs (StateM σ) M} {I' : Inputs Outcome M'} (dbl : Doubles V)

theorem shareTables_implements (hI : InputsRel Good R I I') (t : Party → Table V) :
    Implements Good (fun a a' => R _ _ a.1 a'.1 ∧ R _ _ a.2.1 a'.2.1 ∧ R _ _ a.2.2 a'.2.2)
      (shareTables I dbl t) (shareTables I' dbl t) := by
  refine (hI.input 0 _).bind fun a0 a0' h0 => ?_
  refine (hI.input 1 _).bind fun a1 a1' h1 => ?_
  exact (hI.input 2 _).bind fun a2 a2' h2 => .pure ⟨h0, h1, h2⟩

theorem constructShares_implements (hI : InputsRel Good R I I') (train test : Party → Table V) :
    Implements Good (BothEnd (ConstructedRel R)) (constructShares I dbl train test)
      (constructShares I' dbl train test) := by
  refine (shareTables_implements dbl hI train).bind fun a a' ha => ?_
  obtain ⟨h0, h1, h2⟩ := ha
  dsimp only
  split
  next h01 =>
    split
    next h12 =>
      refine (shareTables_implements dbl hI test).bind fun b b' hb => ?_
      obtain ⟨g0, g1, g2⟩ := hb
      split
      next k01 =>
        split
        next k1 =>
          split
          next k12 =>
            have h1 := rel_castCols R h01 h1
            have h2 := rel_castCols R (h12.trans h01) h2
            have g0 := rel_castCols R (k01.symm.trans k1) g0
            have g1 := rel_castCols R k1 g1
            have g2 := rel_castCols R (k12.trans k1) g2
            refine (hI.input 0 0).bind fun w w' hw => .pure (.ok ?_)
            exact .mk (hI.data h0 h1 h2) (hI.label h0 h1 h2)
              (.mk (hI.data g0 g1 g2) (hI.label g0 g1 g2)) hw
          next => exact .pure (.error _)
        next => exact .pure (.error _)
      next => exact .pure (.error _)
    next => exact .pure (.error _)
  next => exact .pure (.error _)

theorem logistic_main_implements (sim : Simulates Good R K E E')
    (sh : (n : ℕ) → Shuffle γ (Fin n)) (prng : γ) (B IT : ℕ) {cols : ℕ}
    {d : Constructed M cols} {d' : Constructed M' cols} (h : ConstructedRel R d d') :
    Implements Good (Option.Rel (TrainedRel K)) (logistic_main E dbl sh prng B IT d)
      (logistic_main E' dbl sh prng B IT d') := by
  cases h with
  | mk hX hY ht hw =>
      unfold logistic_main
      dsimp only
      split
      next => exact .pure .none
      next batches _ _ =>
        have hsgd := SGD_implements sim (logisticKind_rel dbl sim) (aB B) hX hY (.some ht) batches hw
        refine hsgd.bind fun state state' hstate => ?_
        exact (sim.reveal hstate.1).bind fun model model' hmodel => .pure (.some ⟨hmodel, hstate.2⟩)

/-- **The executor over one engine implements it over the other.** -/
theorem execute_implements (sim : Simulates Good R K E E') (hI : InputsRel Good R I I')
    (sh : (n : ℕ) → Shuffle γ (Fin n)) (prng : γ) (B IT : ℕ) (train test : Party → Table V) :
    Implements Good (BothEnd (Option.Rel (TrainedRel K)))
      (execute E I dbl sh prng B IT train test) (execute E' I' dbl sh prng B IT train test) := by
  refine (constructShares_implements dbl hI train test).bind fun d d' hd => ?_
  cases hd with
  | error e => exact .pure (.error e)
  | ok hd =>
      exact (logistic_main_implements dbl sim sh prng B IT hd).bind fun t t' ht => .pure (.ok ht)

end Simulation

/-! ## The three parties and the plain values -/

section Stacking

variable {α : Type} {r r₀ r₁ r₂ c : ℕ}

/-- The rows of the three parties below each other. -/
def stackRows (a : Matrix (Fin r₀) (Fin c) α) (b : Matrix (Fin r₁) (Fin c) α)
    (d : Matrix (Fin r₂) (Fin c) α) : Matrix (Fin (r₀ + r₁ + r₂)) (Fin c) α :=
  Fin.append (Fin.append a b) d

def dataOf (a : Matrix (Fin r) (Fin (c + 1)) α) : Matrix (Fin r) (Fin c) α :=
  a.submatrix id Fin.castSucc

def labelOf (a : Matrix (Fin r) (Fin (c + 1)) α) : Matrix (Fin r) (Fin 1) α :=
  fun i _ => a i (Fin.last c)

section Places

variable (a : Matrix (Fin r₀) (Fin c) α) (b : Matrix (Fin r₁) (Fin c) α)
  (d : Matrix (Fin r₂) (Fin c) α) (j : Fin c)

theorem stackRows_first (i : Fin r₀) :
    stackRows a b d (Fin.castAdd r₂ (Fin.castAdd r₁ i)) j = a i j :=
  congrFun ((Fin.append_left _ _ _).trans (Fin.append_left _ _ i)) j

theorem stackRows_second (i : Fin r₁) :
    stackRows a b d (Fin.castAdd r₂ (Fin.natAdd r₀ i)) j = b i j :=
  congrFun ((Fin.append_left _ _ _).trans (Fin.append_right _ _ i)) j

theorem stackRows_third (i : Fin r₂) :
    stackRows a b d (Fin.natAdd (r₀ + r₁) i) j = d i j :=
  congrFun (Fin.append_right _ _ i) j

end Places

theorem sharesOf_stackRows {a : Shared r₀ c} {b : Shared r₁ c} {d : Shared r₂ c}
    {X : Fixed r₀ c} {Y : Fixed r₁ c} {Z : Fixed r₂ c} (ha : SharesOf a X) (hb : SharesOf b Y)
    (hd : SharesOf d Z) :
    SharesOf (fun p => stackRows (a p) (b p) (d p)) (stackRows X Y Z) := by
  intro i j
  refine Fin.addCases (fun i => ?_) (fun i => ?_) i
  · refine Fin.addCases (fun i => ?_) (fun i => ?_) i
    · simpa only [stackRows_first] using ha i j
    · simpa only [stackRows_second] using hb i j
  · simpa only [stackRows_third] using hd i j

end Stacking

variable (A : Sh3Fixed)

/-- The owner calls `localInput`, the others `remoteInput`. -/
def aby3Inputs : Inputs (StateM A.State) Shared where
  input p X := protocol A fun run => A.localFixedMatrix run p X
  data a b d p := dataOf (stackRows (a p) (b p) (d p))
  label a b d p := labelOf (stackRows (a p) (b p) (d p))

def plainInputs : Inputs Outcome Fixed where
  input _ X := pure X
  data a b d := dataOf (stackRows a b d)
  label a b d := labelOf (stackRows a b d)

theorem aby3Inputs_rel :
    InputsRel (Unspoilt A) (fun _ _ => SharesOf) (aby3Inputs A) plainInputs where
  input p X := protocol_implements A fun run =>
    ⟨X, mem_pure_iff.mpr rfl, A.localFixedMatrix_shares run p X⟩
  data ha hb hd := fun i j => sharesOf_stackRows ha hb hd i j.castSucc
  label ha hb hd := fun i _ => sharesOf_stackRows ha hb hd i (Fin.last _)

/-! ## What the parties end with -/

section Endings

variable {V γ : Type} (dbl : Doubles V) (sh : (n : ℕ) → Shuffle γ (Fin n)) (prng : γ) (B IT : ℕ)
  (train test : Party → Table V)

/-- All six tables have the same number of columns. -/
def SameWidths : Prop :=
  ∀ p, (train p).width = (train 0).width ∧ (test p).width = (train 0).width

/-- The training draws from no rows. -/
def Endless : Prop := (∀ p, (train p).rows = 0) ∧ 0 < B ∧ 0 < IT

variable {train test}

theorem sameWidths_iff : SameWidths train test ↔ (train 1).width = (train 0).width ∧
    (train 2).width = (train 1).width ∧ (test 1).width = (test 0).width ∧
    (test 1).width = (train 0).width ∧ (test 2).width = (test 1).width := by
  unfold SameWidths
  rw [Fin.forall_fin_succ, Fin.forall_fin_succ, Fin.forall_fin_succ]
  simp only [Fin.forall_fin_zero, and_true, Fin.succ_zero_eq_one, true_and,
    show Fin.succ (1 : Fin 2) = (2 : Fin 3) from rfl]
  omega

/-- Drawing the batches comes to an end unless there is nothing to draw from. -/
theorem getSubsets_eq_none_iff {n : ℕ} :
    getSubsets (sh n) (B + 1) B IT (sampler n prng) = none ↔ n = 0 ∧ 0 < B ∧ 0 < IT := by
  constructor
  · intro h
    by_contra hnot
    by_cases hn : n = 0
    · subst hn
      -- no batches are drawn, or all of them are empty
      have hempty : B = 0 ∨ IT = 0 := by omega
      rcases hempty with rfl | rfl
      · have hsome (k : ℕ) (s : Sampler γ (Fin 0)) :
            getSubsets (sh 0) 1 0 k s = some (List.replicate k [], s) := by
          induction k with
          | zero => rfl
          | succ k ih => simp [getSubsets, getSubset, ih, List.replicate_succ]
        rw [hsome] at h
        cases h
      · cases h
    · have hbase : List.finRange n ≠ [] := by
        rw [← List.length_pos_iff, List.length_finRange]
        omega
      obtain ⟨batches, s', hcall, -⟩ := getSubsets_drawn (sh n) hbase (Nat.lt_succ_self B) IT
        (drawn_sampler n prng)
      rw [hcall] at h
      cases h
  · rintro ⟨rfl, hB, hIT⟩
    obtain ⟨B, rfl⟩ := Nat.exists_eq_succ_of_ne_zero hB.ne'
    obtain ⟨IT, rfl⟩ := Nat.exists_eq_succ_of_ne_zero hIT.ne'
    have hdrawn := drawn_sampler 0 prng
    rw [List.finRange_zero] at hdrawn
    simp [getSubsets, getSubset_empty (sh 0) hdrawn]

/-- The training on plain values comes to no end exactly when it draws from no rows. -/
theorem logistic_main_none_iff (A : Sh3Fixed) {cols : ℕ} {d : Constructed Fixed cols}
    {out : Option (Trained Id V cols)}
    (h : out ∈ (logistic_main (plain A dbl) dbl sh prng B IT d).run) :
    out = none ↔ d.rows = 0 ∧ 0 < B ∧ 0 < IT := by
  rw [← getSubsets_eq_none_iff sh prng B IT]
  unfold logistic_main at h
  split at h
  next hnone => exact iff_of_true (mem_pure_iff.mp h) hnone
  next hsome =>
    obtain ⟨_, _, h⟩ := mem_bind_iff.mp h
    obtain ⟨_, _, h⟩ := mem_bind_iff.mp h
    rw [mem_pure_iff.mp h, hsome]
    exact iff_of_false nofun nofun

theorem constructShares_ok (h : SameWidths train test) :
    ∃ d, constructShares plainInputs dbl train test = pure (.ok d) ∧
      d.rows = (train 0).rows + (train 1).rows + (train 2).rows := by
  obtain ⟨h01, h12, k01, k1, k12⟩ := sameWidths_iff.mp h
  unfold constructShares shareTables plainInputs
  simp only [pure_bind, dif_pos h01, dif_pos h12, dif_pos k01, dif_pos k1, dif_pos k12]
  exact ⟨_, rfl, rfl⟩

theorem constructShares_error (h : ¬ SameWidths train test) :
    ∃ e, constructShares plainInputs dbl train test = pure (.error e) := by
  rw [sameWidths_iff] at h
  unfold constructShares shareTables plainInputs
  simp only [pure_bind]
  split
  next h01 =>
    split
    next h12 =>
      split
      next k01 =>
        split
        next k1 =>
          split
          next k12 => exact absurd ⟨h01, h12, k01, k1, k12⟩ h
          next => exact ⟨_, rfl⟩
        next => exact ⟨_, rfl⟩
      next => exact ⟨_, rfl⟩
    next => exact ⟨_, rfl⟩
  next => exact ⟨_, rfl⟩

/-- What the executor on plain values can end with, by its kind. -/
theorem execute_kind (A : Sh3Fixed) {out : Except Fault (Option (Trained Id V (train 0).width))}
    (h : out ∈ (execute (plain A dbl) plainInputs dbl sh prng B IT train test).run) :
    ((∃ e, out = .error e) ↔ ¬ SameWidths train test) ∧
      (out = .ok none ↔ SameWidths train test ∧ Endless B IT train) := by
  unfold execute at h
  by_cases hw : SameWidths train test
  · obtain ⟨d, hd, hrows⟩ := constructShares_ok dbl hw
    rw [hd, pure_bind] at h
    obtain ⟨t, ht, h⟩ := mem_bind_iff.mp h
    have hout : out = .ok t := mem_pure_iff.mp h
    have hnone := logistic_main_none_iff dbl sh prng B IT A ht
    have hzero : d.rows = 0 ↔ ∀ p, (train p).rows = 0 := by
      rw [hrows, Fin.forall_fin_succ, Fin.forall_fin_succ, Fin.forall_fin_succ]
      simp only [Fin.forall_fin_zero, and_true, Fin.succ_zero_eq_one,
        show Fin.succ (1 : Fin 2) = (2 : Fin 3) from rfl]
      omega
    rw [hout]
    refine ⟨iff_of_false (by simp) (fun hnot => hnot hw), ?_⟩
    rw [Except.ok.injEq, hnone, hzero]
    exact (and_iff_right hw).symm
  · obtain ⟨e, he⟩ := constructShares_error dbl hw
    rw [he, pure_bind] at h
    have hout : out = .error e := mem_pure_iff.mp h
    rw [hout]
    exact ⟨iff_of_true ⟨e, rfl⟩ hw, iff_of_false nofun fun hall => hw hall.1⟩

end Endings

end Fediux.Regression
