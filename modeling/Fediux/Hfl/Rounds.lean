import Fediux.Vfl.HostGuests

set_option autoImplicit false

/-! # The rounds of horizontal logistic regression

`Plaintext_DPSGD_Server`, `Paillier_Server`, `Plaintext_Client` and `Paillier_Client` of
`python/fediux/FL/logistic_regression`, with contribution assessment, in exact arithmetic: in each
round the server collects the models and metrics of the clients, hands an accuracy to the assessor,
answers its validations and broadcasts a model. The parties always come through a round together,
but the clients send their first metric before they have an aggregated model.
-/

namespace Fediux.Hfl

open Session Session.Prog Messaging Vfl

/-! ## The model of a client -/

inductive Method where
  | Plaintext
  | DPSGD
  | Paillier
  deriving DecidableEq, Repr

/-- `theta`: the bias (`none`) and the weights, for each output. -/
abbrev Theta (features output_dim : ℕ) (K : Type) := Option (Fin features) × Fin output_dim → K

structure Row (features : ℕ) (K : Type) where
  x : Fin features → K
  y : ℕ

section Metrics

variable {K : Type} [Field K] [LinearOrder K] {features output_dim : ℕ}

/-- `x.dot(self.weight) + self.bias`. -/
def linear (theta : Theta features output_dim K) (x : Fin features → K) (c : Fin output_dim) : K :=
  ∑ i, x i * theta (some i, c) + theta (none, c)

/-- The predicted class. A sigmoid is above one half where its argument is positive, and softmax
keeps the order. -/
def predict (h : 0 < output_dim) (theta : Theta features output_dim K) (x : Fin features → K) :
    ℕ :=
  if output_dim = 1 then if 0 < linear theta x ⟨0, h⟩ then 1 else 0
  else ((List.argmax (linear theta x) (List.finRange output_dim)).map Fin.val).getD 0

/-- `classification_metrics(..)["acc"]`. -/
def acc (h : 0 < output_dim) (rows : List (Row features K))
    (theta : Theta features output_dim K) : K :=
  (rows.countP fun r => predict h theta r.x = r.y) / rows.length

/-- `BCELoss` of `LogisticRegression_Paillier`. -/
def approximateLoss (h : 0 < output_dim) (rows : List (Row features K))
    (theta : Theta features output_dim K) : K :=
  (rows.map fun r => (0.5 - (r.y : K)) / rows.length * linear theta r.x ⟨0, h⟩).sum

end Metrics

/-! ## Averages -/

section Averages

variable {K : Type} [Field K] {ι : Type}

/-- `np.average(values, weights)`. -/
def average (weights : List ℕ) (values : List K) : K :=
  (List.zipWith (fun (w : ℕ) v => (w : K) * v) weights values).sum / (weights.sum : ℕ)

/-- `np.average(models, weights, axis=0)`. -/
def averageModel (weights : List ℕ) (models : List (ι → K)) : ι → K :=
  fun c => average weights (models.map fun m => m c)

/-- `np.mean(models, axis=0)`. -/
def meanModel (models : List (ι → K)) : ι → K :=
  fun c => (models.map fun m => m c).sum / models.length

theorem average_finRange (weights : List ℕ) (v : Fin weights.length → K) :
    average weights ((List.finRange weights.length).map v) =
      (∑ j, (weights.get j : K) * v j) / (weights.sum : ℕ) := by
  have hzip : List.zipWith (fun (w : ℕ) v => (w : K) * v) weights
      ((List.finRange weights.length).map v) =
        (List.finRange weights.length).map fun j => (weights.get j : K) * v j := by
    refine List.ext_getElem (by simp) fun i _ _ => ?_
    simp
  rw [average, hzip, Fin.sum_univ_def]

theorem sum_getElem (weights : List ℕ) : ∑ j : Fin weights.length, weights.get j = weights.sum := by
  rw [Fin.sum_univ_def]
  congr 1
  refine List.ext_getElem (by simp) fun i _ _ => ?_
  simp

/-- One summand for the first and one for each of the others. -/
theorem sum_first_others (n : ℕ) (ns : List ℕ) (u v : K) :
    ∑ j : Fin (n :: ns).length, ((n :: ns).get j : K) * (if j.val = 0 then u else v) =
      n * u + (ns.sum : ℕ) * v := by
  rw [← sum_getElem, Nat.cast_sum, Finset.sum_mul]
  exact Fin.sum_univ_succ fun j : Fin (ns.length + 1) =>
    ((n :: ns).get j : K) * (if j.val = 0 then u else v)

end Averages

/-! ## The assessor -/

/-- What an assessor does with `validation_func`: it has some models validated, one after the
other, and each may depend on the values before. -/
inductive Assess (Θ K : Type) where
  | done
  | validate (model : Θ) (rest : K → Assess Θ K)

/-- The models that are validated, with their values. -/
def Assess.run {Θ K : Type} (validation_func : Θ → K) : Assess Θ K → List (Θ × K)
  | done => []
  | validate model rest =>
      (model, validation_func model) :: (rest (validation_func model)).run validation_func

/-! ## The parties -/

/-- `num_examples` of the clients. -/
structure Sizes where
  num_examples : List ℕ
  nonempty : num_examples ≠ []
  num_examples_pos : ∀ n ∈ num_examples, 0 < n

/-- The clients with their data, and the parameters of a training. `fit` is what the local epochs
of a client make of its model in a round. -/
structure Setup (K : Type) extends Sizes where
  method : Method
  features : ℕ
  output_dim : ℕ
  output_dim_pos : 0 < output_dim
  binary : method = .Paillier → output_dim = 1
  rows : Fin num_examples.length → List (Row features K)
  rows_ne_nil : ∀ j, rows j ≠ []
  init : Fin num_examples.length → Theta features output_dim K
  fit : ℕ → Fin num_examples.length → Theta features output_dim K → Theta features output_dim K
  acc_on_last_round : K
  assessor : ℕ → List (Theta features output_dim K) → K → K →
    Assess (Theta features output_dim K) K
  global_epoch : ℕ

inductive Key where
  | client_model
  | metric
  | valid_data
  | server_model
  deriving DecidableEq, Repr

/-- The key of a message, with its round and the number of validations before it, which the
channels do not see. -/
structure Label where
  key : Key
  round_idx : ℕ
  turn : ℕ
  deriving DecidableEq, Repr

/-- `valid_data` without a model has the status 1. -/
inductive Message (Θ K : Type) where
  | model (theta : Θ)
  | metric (v : K)
  | valid_data (valid_model : Option Θ)

instance (Θ K : Type) : Inhabited (Message Θ K) := ⟨.valid_data none⟩

namespace Message

variable {Θ K : Type}

def model? : Message Θ K → Option Θ
  | model theta => some theta
  | _ => none

def metric? : Message Θ K → Option K
  | metric v => some v
  | _ => none

def valid_data? : Message Θ K → Option (Option Θ)
  | valid_data valid_model => some valid_model
  | _ => none

end Message

inductive Err where
  | TypeError
  | OutOfFuel
  deriving DecidableEq, Repr

/-- What the server has of a round: the models of the clients, what it hands to the assessor, and
the validations with their values. -/
structure Record (Θ K : Type) where
  client_models : List Θ
  acc_on_last_round : K
  acc_on_aggregated_model : K
  validated : List (Θ × K)

/-- The records of the rounds so far, and the models that were broadcast. -/
structure ServerState (Θ K : Type) where
  acc_on_last_round : K
  records : List (Record Θ K)
  server_models : List Θ

namespace Setup

variable {K : Type} [Field K] [LinearOrder K] (S : Setup K)

abbrev N : ℕ := S.num_examples.length

abbrev Model := Theta S.features S.output_dim K

abbrev Net (α : Type) := Prog (Party S.N × Label) (Message S.Model K) Err α

/-- `model_aggregate`, the `aggregation_func` of the assessor. -/
def model_aggregate (client_models : List S.Model) : S.Model :=
  averageModel S.num_examples client_models

/-- `client_model_aggregate`: the global model of a round. -/
def client_model_aggregate (client_models : List S.Model) : S.Model :=
  if S.method = .Paillier then meanModel client_models else S.model_aggregate client_models

/-- The metric a client sends in `valid`. -/
def metric (j : Fin S.N) (theta : S.Model) : K :=
  if S.method = .Paillier then approximateLoss S.output_dim_pos (S.rows j) theta
  else acc S.output_dim_pos (S.rows j) theta

/-- `get_scalar_metrics('acc')`, or `-get_loss(encrypted=True)`. -/
def scalarMetric (client_metrics : List K) : K :=
  if S.method = .Paillier then -average S.num_examples client_metrics
  else average S.num_examples client_metrics

/-- The assessor's run: each `validate` is an exchange, and `contribution_over` ends it. -/
def assess (i : ℕ) : ℕ → Assess S.Model K → List (S.Model × K) → S.Net (List (S.Model × K))
  | turn, .done, validated => send_all ⟨.valid_data, i, turn⟩ (.valid_data none) (.ret validated)
  | turn, .validate agg_model_C rest, validated =>
      send_all ⟨.valid_data, i, turn⟩ (.valid_data (some agg_model_C)) <|
      recv_all Message.metric? .TypeError ⟨.metric, i, turn + 1⟩ fun client_metrics =>
      let v := S.scalarMetric client_metrics
      assess i (turn + 1) (rest v) (validated ++ [(agg_model_C, v)])

/-- `train` of the server. -/
def serverRound (i : ℕ) (s : ServerState S.Model K) : S.Net (ServerState S.Model K) :=
  recv_all Message.model? .TypeError ⟨.client_model, i, 0⟩ fun client_models =>
  recv_all Message.metric? .TypeError ⟨.metric, i, 0⟩ fun client_metrics =>
  let acc_on_aggregated_model := S.scalarMetric client_metrics
  (S.assess i 0 (S.assessor i client_models s.acc_on_last_round acc_on_aggregated_model) []).bind
    fun validated =>
  let theta := S.client_model_aggregate client_models
  send_all ⟨.server_model, i, 0⟩ (.model theta) <|
  .ret {
    acc_on_last_round := acc_on_aggregated_model
    records := s.records ++ [{
      client_models := client_models
      acc_on_last_round := s.acc_on_last_round
      acc_on_aggregated_model := acc_on_aggregated_model
      validated := validated }]
    server_models := s.server_models ++ [theta] }

/-- The `while` loop of a client. -/
def validLoop (i : ℕ) (j : Fin S.N) : ℕ → ℕ → S.Net Unit
  | 0, _ => .raise .OutOfFuel
  | fuel + 1, turn =>
      recvHost Message.valid_data? .TypeError ⟨.valid_data, i, turn⟩ fun mid_valid_data =>
      match mid_valid_data with
      | none => .ret ()
      | some valid_model =>
          sendHost ⟨.metric, i, turn + 1⟩ (.metric (S.metric j valid_model)) <|
          validLoop i j fuel (turn + 1)

/-- The local epochs and `train` of a client. -/
def clientRound (fuel i : ℕ) (j : Fin S.N) (theta : S.Model) : S.Net S.Model :=
  let theta := S.fit i j theta
  sendHost ⟨.client_model, i, 0⟩ (.model theta) <|
  sendHost ⟨.metric, i, 0⟩ (.metric (S.metric j theta)) <|
  (S.validLoop i j fuel 0).bind fun _ =>
  recvHost Message.model? .TypeError ⟨.server_model, i, 0⟩ fun theta => .ret theta

/-- The rounds from one on. -/
def serverTrain : ℕ → ℕ → ServerState S.Model K → S.Net (ServerState S.Model K)
  | 0, _, s => .ret s
  | rounds + 1, i, s => (S.serverRound i s).bind (serverTrain rounds (i + 1))

def clientTrain (fuel : ℕ) (j : Fin S.N) : ℕ → ℕ → S.Model → S.Net S.Model
  | 0, _, theta => .ret theta
  | rounds + 1, i, theta =>
      (S.clientRound fuel i j theta).bind (clientTrain fuel j rounds (i + 1))

def serverRun : S.Net (ServerState S.Model K) :=
  S.serverTrain S.global_epoch 0
    { acc_on_last_round := S.acc_on_last_round, records := [], server_models := [] }

def clientRun (fuel : ℕ) (j : Fin S.N) : S.Net S.Model :=
  S.clientTrain fuel j S.global_epoch 0 (S.init j)

/-! ## What the rounds come to -/

/-- `validation_func`: the clients' metrics of one model. -/
def validation_func (theta : S.Model) : K :=
  S.scalarMetric ((List.finRange S.N).map fun j => S.metric j theta)

/-- The clients' metrics of their own models. -/
def ownMetric (theta : Fin S.N → S.Model) : K :=
  S.scalarMetric ((List.finRange S.N).map fun j => S.metric j (theta j))

/-- The record of a round. -/
def recordOf (i : ℕ) (last : K) (theta : Fin S.N → S.Model) : Record S.Model K :=
  let client_models := (List.finRange S.N).map theta
  { client_models := client_models
    acc_on_last_round := last
    acc_on_aggregated_model := S.ownMetric theta
    validated := (S.assessor i client_models last (S.ownMetric theta)).run S.validation_func }

/-- The server and the models of the clients after some rounds. -/
def after : ℕ → ServerState S.Model K × (Fin S.N → S.Model)
  | 0 => ({ acc_on_last_round := S.acc_on_last_round, records := [], server_models := [] }, S.init)
  | i + 1 =>
      let s := (after i).1
      let theta := fun j => S.fit i j ((after i).2 j)
      let server_model := S.client_model_aggregate ((List.finRange S.N).map theta)
      ({ acc_on_last_round := S.ownMetric theta
         records := s.records ++ [S.recordOf i s.acc_on_last_round theta]
         server_models := s.server_models ++ [server_model] },
        fun _ => server_model)

variable {S} {fuel : ℕ}

/-- The validations of a round, whatever the assessor asks for. -/
theorem plays_assess (a : Assess S.Model K) {i turn fuel : ℕ} {validated : List (S.Model × K)}
    (hfuel : (a.run S.validation_func).length < fuel) :
    Plays (together (S.assess i turn a validated) fun j => S.validLoop i j fuel turn)
      (both (validated ++ a.run S.validation_func) fun _ => ()) := by
  induction a generalizing turn fuel validated with
  | done =>
      obtain ⟨fuel, rfl⟩ : ∃ m, fuel = m + 1 := ⟨fuel - 1, by omega⟩
      refine host_to_guests (fun _ => rfl) ?_
      rw [Assess.run, List.append_nil]
      exact plays_ret _ _
  | validate model rest ih =>
      obtain ⟨fuel, rfl⟩ : ∃ m, fuel = m + 1 := ⟨fuel - 1, by omega⟩
      have hrest : ((rest (S.validation_func model)).run S.validation_func).length < fuel := by
        rw [Assess.run, List.length_cons] at hfuel
        omega
      have happend : validated ++ (Assess.validate model rest).run S.validation_func =
          (validated ++ [(model, S.validation_func model)]) ++
            (rest (S.validation_func model)).run S.validation_func := by
        rw [Assess.run, List.append_assoc]
        rfl
      rw [happend]
      refine host_to_guests (fun _ => rfl) (guests_to_host (fun _ => rfl) ?_)
      exact ih (S.validation_func model) hrest

/-- A round, when the clients' loop allows all validations of it. -/
theorem plays_round (i : ℕ)
    (hfuel : ((S.recordOf i (S.after i).1.acc_on_last_round
      fun j => S.fit i j ((S.after i).2 j)).validated).length < fuel) :
    Plays (together (S.serverRound i (S.after i).1)
        fun j => S.clientRound fuel i j ((S.after i).2 j))
      (both (S.after (i + 1)).1 (S.after (i + 1)).2) := by
  refine guests_to_host (fun _ => rfl) (guests_to_host (fun _ => rfl) ?_)
  refine plays_bind (plays_assess _ hfuel) ?_
  exact host_to_guests (fun _ => rfl) (plays_ret _ _)

/-- The clients' loops allow all validations of the training. -/
def Enough (S : Setup K) (fuel : ℕ) : Prop :=
  ∀ i < S.global_epoch, ((S.recordOf i (S.after i).1.acc_on_last_round
    fun j => S.fit i j ((S.after i).2 j)).validated).length < fuel

theorem exists_enough (S : Setup K) : ∃ fuel₀, ∀ fuel ≥ fuel₀, S.Enough fuel := by
  let used := fun i => ((S.recordOf i (S.after i).1.acc_on_last_round
    fun j => S.fit i j ((S.after i).2 j)).validated).length
  refine ⟨(Finset.range S.global_epoch).sup used + 1, fun fuel hfuel i hi => ?_⟩
  have hle : used i ≤ (Finset.range S.global_epoch).sup used :=
    Finset.le_sup (Finset.mem_range.mpr hi)
  show used i < fuel
  omega

theorem plays_train (hfuel : S.Enough fuel) (rounds i : ℕ) (hi : i + rounds = S.global_epoch) :
    Plays (together (S.serverTrain rounds i (S.after i).1)
        fun j => S.clientTrain fuel j rounds i ((S.after i).2 j))
      (both (S.after S.global_epoch).1 (S.after S.global_epoch).2) := by
  induction rounds generalizing i with
  | zero =>
      obtain rfl : i = S.global_epoch := by omega
      exact plays_ret _ _
  | succ rounds ih =>
      exact plays_bind (plays_round i (hfuel i (by omega))) (ih (i + 1) (by omega))

/-- **Server and clients run together, in any order of the steps: no message is missing or left
over, and each metric is taken for the model it was computed for.** -/
theorem runsTogether (hfuel : S.Enough fuel) :
    RunsTogether Label.key (together S.serverRun fun j => S.clientRun fuel j)
      (both (S.after S.global_epoch).1 (S.after S.global_epoch).2) :=
  (plays_train hfuel S.global_epoch 0 (Nat.zero_add _)).runsTogether

/-! ## The value for the aggregated model -/

/-- The value that is handed over is the one that is validated for the aggregation of all models
of the round. -/
def Consistent (S : Setup K) (r : Record S.Model K) : Prop :=
  r.acc_on_aggregated_model = S.validation_func (S.model_aggregate r.client_models)

/-- The parties come through the training together, and every round is consistent. -/
def Agrees (S : Setup K) : Prop :=
  (∃ fuel₀, ∀ fuel ≥ fuel₀, RunsTogether Label.key
    (together S.serverRun fun j => S.clientRun fuel j)
    (both (S.after S.global_epoch).1 (S.after S.global_epoch).2)) ∧
  ∀ r ∈ (S.after S.global_epoch).1.records, S.Consistent r

/-- The model of a client after its local epochs of a round. -/
def trained (S : Setup K) (i : ℕ) (j : Fin S.N) : S.Model := S.fit i j ((S.after i).2 j)

/-- The aggregation of the models of a round. -/
def aggregated (S : Setup K) (i : ℕ) : S.Model :=
  S.model_aggregate ((List.finRange S.N).map (S.trained i))

/-- On their own data the models of the clients do as well, weighted, as their aggregation. -/
def OwnAsGood (S : Setup K) : Prop :=
  ∀ i < S.global_epoch, ∑ j, (S.num_examples.get j : K) * S.metric j (S.trained i j) =
    ∑ j, (S.num_examples.get j : K) * S.metric j (S.aggregated i)

theorem records_after (S : Setup K) (n : ℕ) : (S.after n).1.records =
    (List.range n).map fun i => S.recordOf i (S.after i).1.acc_on_last_round (S.trained i) := by
  induction n with
  | zero => rfl
  | succ n ih =>
      show (S.after n).1.records ++ [_] = _
      rw [ih, List.range_succ, List.map_append]
      rfl

end Setup

section Ordered

variable {K : Type} [Field K] [LinearOrder K] [IsStrictOrderedRing K]

theorem Sizes.sum_pos (Z : Sizes) : 0 < Z.num_examples.sum := by
  obtain ⟨n, hn⟩ := List.exists_mem_of_ne_nil _ Z.nonempty
  exact lt_of_lt_of_le (Z.num_examples_pos n hn) (List.single_le_sum (by simp) n hn)

theorem Sizes.sum_cast_ne_zero (Z : Sizes) : ((Z.num_examples.sum : ℕ) : K) ≠ 0 :=
  Nat.cast_ne_zero.mpr Z.sum_pos.ne'

namespace Setup

variable (S : Setup K)

theorem scalarMetric_eq_iff (v w : Fin S.N → K) :
    S.scalarMetric ((List.finRange S.N).map v) = S.scalarMetric ((List.finRange S.N).map w) ↔
      ∑ j, (S.num_examples.get j : K) * v j = ∑ j, (S.num_examples.get j : K) * w j := by
  rw [scalarMetric, scalarMetric, average_finRange, average_finRange]
  split_ifs with h
  · rw [neg_inj, div_left_inj' S.sum_cast_ne_zero]
  · rw [div_left_inj' S.sum_cast_ne_zero]

/-- In a training the rounds are consistent just when, each time, the clients do as well with
their own models as with the aggregated one. -/
theorem agrees_iff_ownAsGood : S.Agrees ↔ S.OwnAsGood := by
  have hrounds : (∀ r ∈ (S.after S.global_epoch).1.records, S.Consistent r) ↔ S.OwnAsGood := by
    rw [records_after]
    simp only [List.mem_map, List.mem_range, forall_exists_index, and_imp,
      forall_apply_eq_imp_iff₂]
    exact forall₂_congr fun i _ => S.scalarMetric_eq_iff _ _
  rw [Agrees, hrounds, and_iff_right_iff_imp]
  intro _
  obtain ⟨fuel₀, hfuel⟩ := exists_enough S
  exact ⟨fuel₀, fun fuel h => runsTogether (hfuel fuel h)⟩

omit [LinearOrder K] [IsStrictOrderedRing K] in
theorem aggregated_apply [LinearOrder K] (S : Setup K) (i : ℕ)
    (c : Option (Fin S.features) × Fin S.output_dim) :
    S.aggregated i c = (∑ j, (S.num_examples.get j : K) * S.trained i j c) /
      (S.num_examples.sum : ℕ) := by
  rw [← average_finRange, aggregated, model_aggregate, averageModel, List.map_map]
  rfl

/-- A single client has trained the aggregated model. -/
theorem aggregated_of_single (h : S.N = 1) (i : ℕ) (j : Fin S.N) :
    S.aggregated i = S.trained i j := by
  have hall : ∀ k : Fin S.N, k = j := fun k => Fin.ext (by omega)
  have hsum : ∀ f : Fin S.N → K, ∑ k, f k = f j := fun f =>
    Finset.sum_eq_single j (fun k _ hk => absurd (hall k) hk) (by simp)
  have hcast : ((S.num_examples.sum : ℕ) : K) = S.num_examples.get j := by
    rw [← sum_getElem, Nat.cast_sum]
    exact hsum fun k => (S.num_examples.get k : K)
  have hne : (S.num_examples.get j : K) ≠ 0 := hcast ▸ S.sum_cast_ne_zero
  funext c
  rw [aggregated_apply, hcast, hsum fun k => (S.num_examples.get k : K) * S.trained i k c,
    mul_div_cancel_left₀ _ hne]

theorem agrees_of_single (h : S.N = 1) : S.Agrees := by
  refine S.agrees_iff_ownAsGood.mpr fun i _ => Finset.sum_congr rfl fun j _ => ?_
  rw [S.aggregated_of_single h i j]

end Setup

/-! ## Several clients

Some data and models on which the rounds are not consistent, for clients of any sizes. -/

/-- One row each, with label 1 at the first client and 0 at the others. The first one comes to the
bias 1, the others to a bias that outweighs it. -/
def opposed (Z : Sizes) (method : Method) : Setup K where
  toSizes := Z
  method := method
  features := 0
  output_dim := 1
  output_dim_pos := Nat.one_pos
  binary := fun _ => rfl
  rows := fun j => [{ x := fun _ => 0, y := if j.val = 0 then 1 else 0 }]
  rows_ne_nil := fun _ => List.cons_ne_nil _ _
  init := fun _ _ => 0
  fit := fun _ j _ _ => if j.val = 0 then 1 else -(Z.num_examples.sum : ℕ)
  acc_on_last_round := 0
  assessor := fun _ _ _ _ => .done
  global_epoch := 1

theorem metric_opposed (Z : Sizes) (method : Method) (j : Fin Z.num_examples.length)
    {theta : Theta 0 1 K} {bias : K} (hbias : theta (none, 0) = bias) :
    (opposed Z method).metric j theta =
      if method = .Paillier then if j.val = 0 then -(bias / 2) else bias / 2
      else if j.val = 0 then if 0 < bias then 1 else 0 else if 0 < bias then 0 else 1 := by
  have hlinear : ∀ x : Fin 0 → K, linear theta x 0 = bias := by
    intro x
    simp [linear, hbias]
  show (if method = .Paillier then approximateLoss _ [_] theta else acc _ [_] theta) = _
  by_cases hm : method = .Paillier
  · rw [if_pos hm, if_pos hm]
    by_cases hj : j.val = 0
    · simp [approximateLoss, hlinear, hj]
      ring
    · simp [approximateLoss, hlinear, hj]
      ring
  · rw [if_neg hm, if_neg hm]
    by_cases hj : j.val = 0 <;> by_cases hpos : 0 < bias <;>
      simp [acc, predict, hlinear, hj, hpos]

theorem not_ownAsGood_opposed (Z : Sizes) (method : Method) (h : Z.num_examples.length ≠ 1) :
    ¬ (opposed Z method : Setup K).OwnAsGood := by
  intro hgood
  obtain ⟨num_examples, hne, hpos⟩ := Z
  obtain ⟨n, ns, rfl⟩ := List.exists_cons_of_ne_nil hne
  let S : Setup K := opposed ⟨n :: ns, hne, hpos⟩ method
  have hround : ∑ j : Fin (n :: ns).length, ((n :: ns).get j : K) * S.metric j (S.trained 0 j) =
      ∑ j : Fin (n :: ns).length, ((n :: ns).get j : K) * S.metric j (S.aggregated 0) :=
    hgood 0 Nat.one_pos
  have hn : (0 : K) < n := Nat.cast_pos.mpr (hpos n List.mem_cons_self)
  have hR : (1 : K) ≤ (ns.sum : ℕ) := by
    cases ns with
    | nil => exact absurd rfl h
    | cons m ns =>
        have hm : 0 < m := hpos m (by simp)
        rw [List.sum_cons]
        exact Nat.one_le_cast.mpr (by omega)
  generalize hRdef : ((ns.sum : ℕ) : K) = R at hR
  have hT : (((n :: ns).sum : ℕ) : K) = n + R := by simp [← hRdef]
  have hsum : ∀ (f : Fin (n :: ns).length → K) (u v : K),
      (∀ j, f j = if j.val = 0 then u else v) →
        ∑ j, ((n :: ns).get j : K) * f j = n * u + R * v := by
    intro f u v hf
    rw [← hRdef, ← sum_first_others]
    exact Finset.sum_congr rfl fun j _ => congrArg (_ * ·) (hf j)
  have hown : ∀ j, S.trained 0 j (none, ⟨0, S.output_dim_pos⟩) =
      if j.val = 0 then 1 else -((n : K) + R) := by
    intro j
    rw [← hT]
    rfl
  -- the aggregated bias is negative
  let bias : K := (n * 1 + R * -(n + R)) / (n + R)
  have hbias : S.aggregated 0 (none, ⟨0, S.output_dim_pos⟩) = bias := by
    rw [Setup.aggregated_apply]
    exact congrArg₂ (· / ·) (hsum _ 1 (-((n : K) + R)) hown) hT
  have hneg : bias < 0 := div_neg_of_neg_of_pos (by nlinarith) (by linarith)
  have hTneg : ¬ (0 : K) < -(n + R) := by linarith
  by_cases hm : method = .Paillier
  · have hleft : ∀ j, S.metric j (S.trained 0 j) =
        if j.val = 0 then -(1 / 2) else -((n : K) + R) / 2 := by
      intro j
      refine (metric_opposed _ method j (hown j)).trans ?_
      rw [if_pos hm]
      split_ifs <;> rfl
    have hright : ∀ j, S.metric j (S.aggregated 0) =
        if j.val = 0 then -(bias / 2) else bias / 2 := by
      intro j
      exact (metric_opposed _ method j hbias).trans (if_pos hm)
    have hvalues := (hsum _ _ _ hleft).symm.trans (hround.trans (hsum _ _ _ hright))
    have hmul : bias * (n + R) = n * 1 + R * -(n + R) :=
      div_mul_cancel₀ _ (by linarith)
    nlinarith [mul_pos hn (lt_of_lt_of_le one_pos hR)]
  · have hleft : ∀ j, S.metric j (S.trained 0 j) = if j.val = 0 then 1 else 1 := by
      intro j
      refine (metric_opposed _ method j (hown j)).trans ?_
      rw [if_neg hm]
      by_cases hj : j.val = 0
      · simp [hj]
      · simp only [if_neg hj, if_neg hTneg]
    have hright : ∀ j, S.metric j (S.aggregated 0) = if j.val = 0 then 0 else 1 := by
      intro j
      refine (metric_opposed _ method j hbias).trans ?_
      simp only [if_neg hm, if_neg (not_lt.mpr hneg.le)]
    have hvalues := (hsum _ _ _ hleft).symm.trans (hround.trans (hsum _ _ _ hright))
    linarith

/-- **In a training the value for the aggregated model is the validated one just when, in each
round, the models of the clients do as well on their own data as their aggregation; it is so in all
trainings of some clients, whatever the method, just when there is a single one.** -/
theorem agrees_iff (S : Setup K) : (S.Agrees ↔ S.OwnAsGood) ∧
    ((∀ T : Setup K, T.toSizes = S.toSizes → T.method = S.method → T.Agrees) ↔ S.N = 1) := by
  refine ⟨S.agrees_iff_ownAsGood, ?_, ?_⟩
  · intro hall
    by_contra h
    have hagrees := hall (opposed S.toSizes S.method) rfl rfl
    exact not_ownAsGood_opposed S.toSizes S.method h
      ((opposed S.toSizes S.method).agrees_iff_ownAsGood.mp hagrees)
  · intro h T hT _
    have hN : T.N = S.N := congrArg (fun Z : Sizes => Z.num_examples.length) hT
    exact T.agrees_of_single (hN.trans h)

end Ordered

theorem agrees_single : (opposed ⟨[2], by decide, by decide⟩ .Plaintext : Setup ℚ).Agrees :=
  (agrees_iff _).2.mpr rfl _ rfl rfl

/-- Two clients whose models are both right on their own data: the aggregation is right on one row
of two. -/
theorem not_agrees_opposed :
    ¬ (opposed ⟨[2, 2], by decide, by decide⟩ .Plaintext : Setup ℚ).Agrees := by
  intro hagrees
  exact not_ownAsGood_opposed ⟨[2, 2], by decide, by decide⟩ .Plaintext (by decide)
    ((opposed _ _).agrees_iff_ownAsGood.mp hagrees)

end Fediux.Hfl
