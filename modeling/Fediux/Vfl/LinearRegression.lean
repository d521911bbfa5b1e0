import Fediux.Vfl.CkksTraining
import Fediux.Vfl.HostGuests
import Fediux.Vfl.Tenseal

set_option autoImplicit false

/-! # Vertical linear regression under CKKS

`LinearRegressionHost.train`, `LinearRegressionGuest.train` and `LinearRegressionCoordinator.train`
of `python/fediux/FL/linear_regression` with the method `CKKS`, from the exchange of the context
to the final scores. The weights stay encrypted. Each batch takes two levels from them
(`Follows.train`), and the coordinator, which counts the batches ahead, encrypts them afresh when
no level is left. In exact arithmetic the parties train what `LinearRegression` trains alone on the
joined columns (`training_isCentral`), and no multiplication finds its vector without a level.
-/

namespace Fediux.Vfl.Ckks.Linear

open Session Session.Prog Messaging Matrix

/-- The tables behind `StandardScaler`, the common parameters, and the shuffled rows of each epoch,
the same for all parties. `max_iter` is the coordinator's, 1 in the source. No table is empty:
`check_array` sees to that. -/
structure Setup (K : Type) where
  N : ℕ
  host_columns : ℕ
  guest_columns : Fin N → ℕ
  num_examples : ℕ
  batch_size : ℕ
  epoch : ℕ
  print_metrics : Bool
  host_x : Matrix (Fin num_examples) (Fin host_columns) K
  guest_x : (j : Fin N) → Matrix (Fin num_examples) (Fin (guest_columns j)) K
  y : Fin num_examples → K
  order : ℕ → List (Fin num_examples)
  learning_rate : K
  alpha : K
  max_iter : ℕ
  host_columns_pos : 0 < host_columns
  guest_columns_pos : ∀ j, 0 < guest_columns j
  num_examples_pos : 0 < num_examples
  batch_size_pos : 0 < batch_size
  max_iter_pos : 0 < max_iter
  length_order : ∀ epoch, (order epoch).length = num_examples

structure Model (C K : Type) where
  weight : C → K
  bias : K

namespace Setup

variable {K : Type} (S : Setup K)

/-- The slices of the loaders are those of the logistic regression. -/
def params : Params :=
  { num_examples := S.num_examples
    batch_size := S.batch_size
    epoch := S.epoch
    print_metrics := S.print_metrics
    alpha := 0
    max_iter := S.max_iter
    max_y := 1
    num_examples_pos := S.num_examples_pos
    batch_size_pos := S.batch_size_pos
    max_iter_pos := S.max_iter_pos }

/-- The rows of a table in one batch. -/
abbrev Rows := List (Fin S.num_examples)

/-- `self.indices[start:end]`. -/
def batch (epoch : ℕ) (slice : ℕ × ℕ) : S.Rows :=
  ((S.order epoch).drop slice.1).take (slice.2 - slice.1)

/-- The batches of an epoch. -/
def batches (epoch : ℕ) : List S.Rows := S.params.batches.map (S.batch epoch)

/-- `self.dataset[batch_idx]`. -/
def rows {C : Type} (x : Matrix (Fin S.num_examples) C K) (rs : S.Rows) :
    Matrix (Fin rs.length) C K :=
  x.submatrix rs.get id

/-- `self.label[batch_idx]`. -/
def labels (rs : S.Rows) : Fin rs.length → K := S.y ∘ rs.get

/-! ## Central training -/

/-- The columns of the host and of the guests. -/
abbrev Columns := Fin S.host_columns ⊕ (j : Fin S.N) × Fin (S.guest_columns j)

/-- The joined table. -/
def x : Matrix (Fin S.num_examples) S.Columns K :=
  fun r => Sum.elim (S.host_x r) fun c => S.guest_x c.1 r c.2

namespace Central

variable [Field K] {m : ℕ}

/-- `LinearRegression.__init__`. -/
def init : Model S.Columns K := { weight := 0, bias := 0 }

variable {S}

/-- `LinearRegression.predict`. -/
def predict (M : Model S.Columns K) (x : Matrix (Fin m) S.Columns K) : Fin m → K :=
  fun r => (x *ᵥ M.weight) r + M.bias

/-- `LinearRegression.compute_error`. -/
def compute_error (M : Model S.Columns K) (x : Matrix (Fin m) S.Columns K) (y : Fin m → K) :
    Fin m → K :=
  predict M x - y

/-- `LinearRegression.fit`, with `compute_grad` and `gradient_descent`. -/
def fit (M : Model S.Columns K) (x : Matrix (Fin m) S.Columns K) (y : Fin m → K) :
    Model S.Columns K :=
  let error := compute_error M x y
  let dw := (m : K)⁻¹ • (xᵀ *ᵥ error) + S.alpha • M.weight
  let db := (∑ r, error r) / m
  { weight := M.weight - S.learning_rate • dw, bias := M.bias - S.learning_rate * db }

/-- The mean squared error on all rows. -/
def mse (M : Model S.Columns K) : K := (∑ r, compute_error M S.x S.y r ^ 2) / S.num_examples

/-- The batches of an epoch, and the mean squared error behind them. -/
def runEpoch (epoch : ℕ) (s : Model S.Columns K × List K) : Model S.Columns K × List K :=
  let M := (S.batches epoch).foldl (fun M rs => fit M (S.rows S.x rs) (S.labels rs)) s.1
  if S.print_metrics then (M, s.2 ++ [mse M]) else (M, s.2)

variable (S)

def run : Model S.Columns K × List K :=
  (List.range S.epoch).foldl (fun s epoch => runEpoch epoch s) (init S, [])

end Central

end Setup

/-! ## Messages -/

/-- What is sent as bytes, or as an array of numbers. -/
inductive Data {K : Type} (T : TenSEAL K) where
  | context (c : T.Context)
  | vector (v : T.Vector)
  | array (a : List K)

namespace Data

variable {K : Type} {T : TenSEAL K}

/-- `ts.context_from`. -/
def context? : Data T → Option T.Context
  | context c => some c
  | _ => none

/-- `load_vector`. -/
def vector? : Data T → Option T.Vector
  | vector v => some v
  | _ => none

def array? : Data T → Option (List K)
  | array a => some a
  | _ => none

/-- The data of a message, read as one of these. -/
def received {β : Type} (read : Data T → Option β) : Message (Data T) → Option β
  | .data d => read d
  | _ => none

end Data

/-- The key `mse`. The messages under it are those that the logistic regression calls `loss`. -/
abbrev mse : Key := .loss

section

variable {N : ℕ} {D α β : Type}

/-- What may raise. It does not matter here which error it is. -/
def attempt (o : Option β) (f : β → Net N D α) : Net N D α := (ofOption .TypeError o).bind f

@[simp] theorem attempt_some (b : β) (f : β → Net N D α) : attempt (some b) f = f b := rfl

end

/-! ## The host -/

structure HostState {K : Type} (T : TenSEAL K) where
  t : ℕ
  max_iter : ℕ
  weight : T.Vector
  bias : T.Vector

/-- The model that the host saves, and its scores of all rows. -/
structure Trained (K : Type) where
  weight : List K
  bias : List K
  y_pred : List K
  deriving DecidableEq, Repr

namespace Setup

variable {K : Type} [Field K] (S : Setup K) (T : TenSEAL K)

/-- The step of `LinearRegression_Host_CKKS` and of `LinearRegression_Guest_CKKS` for the weights
of the columns of `x`. -/
def descend {m n : ℕ} (x : Matrix (Fin m) (Fin n) K) (error weight : T.Vector) :
    Option T.Vector := do
  let factor := -S.learning_rate / m
  let dw ← T.mm error (factor • x)
  let penalty ← T.mul_number weight (-S.learning_rate * S.alpha)
  let step ← T.add dw penalty
  T.add weight step

namespace Host

/-- `CKKS_Host.update_ciphertext_model`. -/
def update_ciphertext_model (role : Role) (s : HostState T) : Net S.N (Data T) (HostState T) :=
  .send (.coordinator, ⟨.host_weight, role⟩) (.data (.vector s.weight)) <|
  .send (.coordinator, ⟨.host_bias, role⟩) (.data (.vector s.bias)) <|
  recvAs (Data.received Data.vector?) .coordinator ⟨.host_weight, role⟩ fun weight =>
  recvAs (Data.received Data.vector?) .coordinator ⟨.host_bias, role⟩ fun bias =>
  .ret { s with weight := weight, bias := bias }

/-- The test that begins `train` and `compute_metrics`. -/
def refresh (role : Role) (s : HostState T) : Net S.N (Data T) (HostState T) :=
  if s.max_iter ≤ s.t then update_ciphertext_model S T role { s with t := 0 } else .ret s

variable {m : ℕ}

/-- `compute_enc_z` of the model. -/
def compute_enc_z (x : Matrix (Fin m) (Fin S.host_columns) K) (s : HostState T)
    (guest_z : List T.Vector) : Option T.Vector := do
  let z ← T.mm s.weight xᵀ
  let z ← T.add z s.bias
  T.add_sum z guest_z

/-- `fit`. -/
def fit (x : Matrix (Fin m) (Fin S.host_columns) K) (error : T.Vector) (s : HostState T) :
    Option (HostState T) := do
  let factor := -S.learning_rate / m
  let total ← T.sum error
  let db ← T.mul_number total factor
  let bias ← T.add s.bias db
  let weight ← S.descend T x error s.weight
  return { s with weight := weight, bias := bias }

/-- `CKKS_Host.train`, for a batch. -/
def train (epoch : ℕ) (rs : S.Rows) (s : HostState T) : Net S.N (Data T) (HostState T) :=
  (refresh S T (.train epoch) s).bind fun s =>
  let s := { s with t := s.t + 1 }
  recv_all ⟨.guest_z, .train epoch⟩ fun guest_z =>
  attempt (guest_z.mapM Data.vector?) fun guest_z =>
  attempt (compute_enc_z S T (S.rows S.host_x rs) s guest_z) fun z =>
  attempt (T.sub_plain z (List.ofFn (S.labels rs))) fun error =>
  send_all ⟨.error, .train epoch⟩ (.data (.vector error)) <|
  attempt (fit S T (S.rows S.host_x rs) error s) .ret

/-- `((z - y) ** 2).sum()`. -/
def squaredError (z : T.Vector) : Option T.Vector := do
  let error ← T.sub_plain z (List.ofFn S.y)
  let squares ← T.square error
  T.sum squares

/-- `CKKS_Host.compute_metrics`. -/
def compute_metrics (epoch : ℕ) (s : HostState T) : Net S.N (Data T) (HostState T) :=
  (refresh S T (.metrics epoch) s).bind fun s =>
  recv_all ⟨.guest_z, .metrics epoch⟩ fun guest_z =>
  attempt (guest_z.mapM Data.vector?) fun guest_z =>
  attempt (compute_enc_z S T S.host_x s guest_z) fun z =>
  attempt (squaredError S T z) fun total =>
  .send (.coordinator, ⟨mse, .metrics epoch⟩) (.data (.vector total)) <|
  .ret s

def runEpoch (epoch : ℕ) (s : HostState T) : Net S.N (Data T) (HostState T) :=
  (each (train S T epoch) (S.batches epoch) s).bind fun s =>
  if S.print_metrics then compute_metrics S T epoch s else .ret s

/-- `CKKS_Host.update_plaintext_model`: the weight and the bias. -/
def update_plaintext_model (s : HostState T) : Net S.N (Data T) (List K × List K) :=
  .send (.coordinator, ⟨.host_weight, .plaintext⟩) (.data (.vector s.weight)) <|
  .send (.coordinator, ⟨.host_bias, .plaintext⟩) (.data (.vector s.bias)) <|
  recvAs (Data.received Data.array?) .coordinator ⟨.host_weight, .plaintext⟩ fun weight =>
  recvAs (Data.received Data.array?) .coordinator ⟨.host_bias, .plaintext⟩ fun bias =>
  .ret (weight, bias)

/-- `LinearRegression_Host_Plaintext.compute_z`, of all rows. -/
def compute_z (weight bias : List K) (guest_z : List (List K)) :
    Option (Fin S.num_examples → K) := do
  let weight ← TenSEAL.array? S.host_columns weight
  let bias ← match bias with
    | [bias] => some bias
    | _ => none
  let guest_z ← guest_z.mapM (TenSEAL.array? S.num_examples)
  return fun r => (S.host_x *ᵥ weight) r + bias + (guest_z.map fun z => z r).sum

/-- `Plaintext_Host.compute_final_metrics`; of the metrics only the scores they are made of. -/
def compute_final_metrics (model : List K × List K) : Net S.N (Data T) (Trained K) :=
  recv_all ⟨.guest_z, .final⟩ fun guest_z =>
  attempt (guest_z.mapM Data.array?) fun guest_z =>
  attempt (compute_z S model.1 model.2 guest_z) fun y_pred =>
  .ret { weight := model.1, bias := model.2, y_pred := List.ofFn y_pred }

/-- `CKKS_Host.__init__`, and the batch size before it. -/
def init : Net S.N (Data T) (HostState T) :=
  .send (.coordinator, ⟨.batch_size, .setup⟩) (.nat S.params.batch) <|
  recvAs (Data.received Data.context?) .coordinator ⟨.public_context, .setup⟩ fun context =>
  .send (.coordinator, ⟨.num_examples, .setup⟩) (.nat S.num_examples) <|
  attempt (T.ckks_vector context (List.replicate S.host_columns 0)) fun weight =>
  attempt (T.ckks_vector context [0]) fun bias =>
  .ret { t := 0, max_iter := T.multiply_depth context / 2, weight := weight, bias := bias }

def run : Net S.N (Data T) (Trained K) :=
  (init S T).bind fun s =>
  (each (runEpoch S T) (List.range S.epoch) s).bind fun s =>
  (update_plaintext_model S T s).bind fun model =>
  compute_final_metrics S T model

end Host

end Setup

/-! ## The guests -/

structure GuestState {K : Type} (T : TenSEAL K) where
  t : ℕ
  max_iter : ℕ
  weight : T.Vector

namespace Setup

variable {K : Type} [Field K] (S : Setup K) (T : TenSEAL K)

namespace Guest

/-- `CKKS_Guest.update_ciphertext_model`. -/
def update_ciphertext_model (role : Role) (s : GuestState T) : Net S.N (Data T) (GuestState T) :=
  .send (.coordinator, ⟨.guest_weight, role⟩) (.data (.vector s.weight)) <|
  recvAs (Data.received Data.vector?) .coordinator ⟨.guest_weight, role⟩ fun weight =>
  .ret { s with weight := weight }

/-- The test that begins `train` and `compute_metrics`. -/
def refresh (role : Role) (s : GuestState T) : Net S.N (Data T) (GuestState T) :=
  if s.max_iter ≤ s.t then update_ciphertext_model S T role { s with t := 0 } else .ret s

variable (j : Fin S.N)

/-- `CKKS_Guest.train`, for a batch. -/
def train (epoch : ℕ) (rs : S.Rows) (s : GuestState T) : Net S.N (Data T) (GuestState T) :=
  (refresh S T (.train epoch) s).bind fun s =>
  let s := { s with t := s.t + 1 }
  let x := S.rows (S.guest_x j) rs
  attempt (T.mm s.weight xᵀ) fun guest_z =>
  .send (.host, ⟨.guest_z, .train epoch⟩) (.data (.vector guest_z)) <|
  recvAs (Data.received Data.vector?) .host ⟨.error, .train epoch⟩ fun error =>
  attempt (S.descend T x error s.weight) fun weight =>
  .ret { s with weight := weight }

/-- `CKKS_Guest.compute_metrics`. -/
def compute_metrics (epoch : ℕ) (s : GuestState T) : Net S.N (Data T) (GuestState T) :=
  (refresh S T (.metrics epoch) s).bind fun s =>
  attempt (T.mm s.weight (S.guest_x j)ᵀ) fun guest_z =>
  .send (.host, ⟨.guest_z, .metrics epoch⟩) (.data (.vector guest_z)) <|
  .ret s

def runEpoch (epoch : ℕ) (s : GuestState T) : Net S.N (Data T) (GuestState T) :=
  (each (train S T j epoch) (S.batches epoch) s).bind fun s =>
  if S.print_metrics then compute_metrics S T j epoch s else .ret s

/-- `CKKS_Guest.update_plaintext_model`. -/
def update_plaintext_model (s : GuestState T) : Net S.N (Data T) (List K) :=
  .send (.coordinator, ⟨.guest_weight, .plaintext⟩) (.data (.vector s.weight)) <|
  recvAs (Data.received Data.array?) .coordinator ⟨.guest_weight, .plaintext⟩ fun weight =>
  .ret weight

/-- `CKKS_Guest.compute_final_metrics`, with `LinearRegression_Guest_Plaintext.compute_z`. -/
def compute_final_metrics (weight : List K) : Net S.N (Data T) (List K) :=
  attempt (TenSEAL.array? (S.guest_columns j) weight) fun w =>
  .send (.host, ⟨.guest_z, .final⟩) (.data (.array (List.ofFn (S.guest_x j *ᵥ w)))) <|
  .ret weight

/-- `CKKS_Guest.__init__`. -/
def init : Net S.N (Data T) (GuestState T) :=
  recvAs (Data.received Data.context?) .coordinator ⟨.public_context, .setup⟩ fun context =>
  attempt (T.ckks_vector context (List.replicate (S.guest_columns j) 0)) fun weight =>
  .ret { t := 0, max_iter := T.multiply_depth context / 2, weight := weight }

def run : Net S.N (Data T) (List K) :=
  (init S T j).bind fun s =>
  (each (runEpoch S T j) (List.range S.epoch) s).bind fun s =>
  (update_plaintext_model S T s).bind fun weight =>
  compute_final_metrics S T j weight

end Guest

end Setup

/-! ## The coordinator -/

/-- The counters of the coordinator and the errors it has logged. -/
structure CoordinatorState (K : Type) where
  t : ℕ
  num_examples : ℕ
  iter_per_epoch : ℕ
  logged : List K

namespace Setup

variable {K : Type} [Field K] (S : Setup K) (T : TenSEAL K)

namespace Coordinator

/-- The context, for two multiplications in each of `max_iter` iterations. -/
def context : T.Context := T.context (2 * S.max_iter)

/-- `recv_model`. -/
def recv_model {α : Type} (role : Role)
    (f : T.Vector → T.Vector → List T.Vector → Net S.N (Data T) α) : Net S.N (Data T) α :=
  recvAs (Data.received Data.vector?) .host ⟨.host_weight, role⟩ fun host_weight =>
  recvAs (Data.received Data.vector?) .host ⟨.host_bias, role⟩ fun host_bias =>
  recv_all ⟨.guest_weight, role⟩ fun guest_weight =>
  attempt (guest_weight.mapM Data.vector?) (f host_weight host_bias)

/-- `send_model`. -/
def send_model (role : Role) (host_weight host_bias : Data T) (guest_weight : List (Data T)) :
    Net S.N (Data T) Unit :=
  .send (.host, ⟨.host_weight, role⟩) (.data host_weight) <|
  .send (.host, ⟨.host_bias, role⟩) (.data host_bias) <|
  send_seperately ⟨.guest_weight, role⟩ guest_weight <|
  .ret ()

/-- A vector is decrypted and encrypted again. -/
def encryptAgain (v : T.Vector) : Option T.Vector := T.ckks_vector (context S T) (T.decrypt v)

/-- `CKKSCoordinator.update_ciphertext_model`. -/
def update_ciphertext_model (role : Role) : Net S.N (Data T) Unit :=
  recv_model S T role fun host_weight host_bias guest_weight =>
  attempt (encryptAgain S T host_weight) fun host_weight =>
  attempt (encryptAgain S T host_bias) fun host_bias =>
  attempt (guest_weight.mapM (encryptAgain S T)) fun guest_weight =>
  send_model S T role (.vector host_weight) (.vector host_bias) (guest_weight.map .vector)

/-- `CKKSCoordinator.update_plaintext_model`. -/
def update_plaintext_model : Net S.N (Data T) Unit :=
  recv_model S T .plaintext fun host_weight host_bias guest_weight =>
  send_model S T .plaintext (.array (T.decrypt host_weight)) (.array (T.decrypt host_bias))
    (guest_weight.map fun weight => .array (T.decrypt weight))

/-- `CKKSCoordinator.train`. -/
def train (epoch : ℕ) (s : CoordinatorState K) : Net S.N (Data T) (CoordinatorState K) :=
  let after := Ckks.Coordinator.afterEpoch S.max_iter s.iter_per_epoch s.t
  (each (fun _ _ => update_ciphertext_model S T (.train epoch)) (List.range after.1) ()).bind
    fun _ => .ret { s with t := after.2 }

/-- The test that begins `compute_loss`. -/
def refresh (role : Role) (s : CoordinatorState K) : Net S.N (Data T) (CoordinatorState K) :=
  if S.max_iter ≤ s.t then (update_ciphertext_model S T role).bind fun _ => .ret { s with t := 0 }
  else .ret s

/-- `CKKSCoordinator.compute_loss`. -/
def compute_loss (epoch : ℕ) (s : CoordinatorState K) : Net S.N (Data T) (CoordinatorState K) :=
  (refresh S T (.metrics epoch) s).bind fun s =>
  recvAs (Data.received Data.vector?) .host ⟨mse, .metrics epoch⟩ fun total =>
  attempt (T.decrypt total).head? fun total =>
  .ret { s with logged := s.logged ++ [total / s.num_examples] }

def runEpoch (epoch : ℕ) (s : CoordinatorState K) : Net S.N (Data T) (CoordinatorState K) :=
  (train S T epoch s).bind fun s =>
  if S.print_metrics then compute_loss S T epoch s else .ret s

/-- `CKKSCoordinator.__init__`, and the batch size before it. -/
def init : Net S.N (Data T) (CoordinatorState K) :=
  recvAs Message.nat? .host ⟨.batch_size, .setup⟩ fun batch_size =>
  .send (.host, ⟨.public_context, .setup⟩) (.data (.context (context S T))) <|
  send_all ⟨.public_context, .setup⟩ (.data (.context (context S T))) <|
  recvAs Message.nat? .host ⟨.num_examples, .setup⟩ fun num_examples =>
  .ret {
    t := 0
    num_examples := num_examples
    iter_per_epoch := iter_per_epoch num_examples batch_size
    logged := [] }

/-- What is left of it is what it has logged. -/
def run : Net S.N (Data T) (List K) :=
  (init S T).bind fun s =>
  (each (runEpoch S T) (List.range S.epoch) s).bind fun s =>
  (update_plaintext_model S T).bind fun _ =>
  .ret s.logged

end Coordinator

end Setup

/-! ## What the vectors hold -/

namespace Setup

variable {K : Type} {S : Setup K}

/-- The weights of the host's columns. -/
def hostPart (w : S.Columns → K) : Fin S.host_columns → K := fun c => w (.inl c)

/-- The weights of a guest's columns. -/
def guestPart (j : Fin S.N) (w : S.Columns → K) : Fin (S.guest_columns j) → K :=
  fun c => w (.inr ⟨j, c⟩)

variable [Field K] {T : TenSEAL K} {l m : ℕ}

/-- The scores of the joined table are the host's and the guests' together. -/
theorem x_mulVec (w : S.Columns → K) (r : Fin S.num_examples) :
    (S.x *ᵥ w) r = (S.host_x *ᵥ hostPart w) r +
      ((List.finRange S.N).map fun j => (S.guest_x j *ᵥ guestPart j w) r).sum := by
  simp [mulVec, dotProduct, x, hostPart, guestPart, Fintype.sum_sum_type, Fintype.sum_sigma,
    Fin.sum_univ_def]

theorem yields_descend (hT : T.Exact) {n : ℕ} (hn : 0 < n) (x : Matrix (Fin m) (Fin n) K)
    {error weight : T.Vector} {e : Fin m → K} {w : Fin n → K} (he : T.Holds error e (l + 1))
    (hw : T.Holds weight w (l + 1)) :
    T.Yields (S.descend T x error weight)
      (w - S.learning_rate • ((m : K)⁻¹ • (xᵀ *ᵥ e) + S.alpha • w)) l := by
  refine (hT.mm _ hn he).bind fun dw hdw => ?_
  refine (hT.mul_number _ hw).bind fun penalty hpenalty => ?_
  refine (hT.add hdw hpenalty).bind fun step hstep => ?_
  refine (hT.add (hw.mono (Nat.le_succ l)) hstep).congr ?_
  rw [vecMul_smul, mulVec_transpose]
  ext c
  simp only [Pi.add_apply, Pi.sub_apply, Pi.smul_apply, smul_eq_mul]
  ring

theorem yields_compute_enc_z (hT : T.Exact) {M : Model S.Columns K} {s : HostState T}
    {guest_z : Fin S.N → T.Vector} {f : Fin m → Fin S.num_examples} (hm : 0 < m)
    (hweight : T.Holds s.weight (hostPart M.weight) (l + 1))
    (hbias : T.Holds s.bias (fun _ : Fin 1 => M.bias) (l + 1))
    (hguest : ∀ j, T.Holds (guest_z j)
      ((S.guest_x j).submatrix f id *ᵥ guestPart j M.weight) l) :
    T.Yields (Host.compute_enc_z S T (S.host_x.submatrix f id) s ((List.finRange S.N).map guest_z))
      (Central.predict M (S.x.submatrix f id)) l := by
  refine (hT.mm _ hm hweight).bind fun z hz => ?_
  refine (hT.add_single hz (hbias.mono (Nat.le_succ l))).bind fun z hz => ?_
  refine (hT.add_sum _ hz fun j _ => hguest j).congr ?_
  ext r
  have hscore := x_mulVec M.weight (f r)
  simp only [Pi.add_apply, Pi.list_sum_apply, List.map_map]
  calc _ = (S.host_x *ᵥ hostPart M.weight) (f r) + M.bias +
        ((List.finRange S.N).map fun j => (S.guest_x j *ᵥ guestPart j M.weight) (f r)).sum := by
          rw [vecMul_transpose]
          rfl
    _ = (S.x *ᵥ M.weight) (f r) + M.bias := by
          rw [hscore]
          ring

theorem yields_squaredError (hT : T.Exact) {M : Model S.Columns K} {z : T.Vector}
    (hz : T.Holds z (Central.predict M S.x) (l + 1)) :
    T.Yields (Host.squaredError S T z)
      (fun _ : Fin 1 => ∑ r, Central.compute_error M S.x S.y r ^ 2) l :=
  (hT.sub_plain S.y hz).bind fun _ herror => (hT.square herror).bind fun _ hsquares =>
    hT.sum hsquares

theorem yields_encryptAgain (hT : T.Exact) {n : ℕ} (hn : 0 < n) {v : T.Vector} {a : Fin n → K}
    (hv : T.Holds v a l) :
    T.Yields (Coordinator.encryptAgain S T v) a (2 * S.max_iter) := by
  have h := hT.ckks_vector (Coordinator.context S T) a hn
  rw [Coordinator.context, hT.multiply_depth, ← hv.decrypt] at h
  exact h

/-! ## Training together -/

/-- The host and the guests have made the same number of iterations since the last refresh. -/
structure Counts (s : HostState T) (gs : Fin S.N → GuestState T) (t : ℕ) : Prop where
  host_t : s.t = t
  host_max_iter : s.max_iter = S.max_iter
  guest_t : ∀ j, (gs j).t = t
  guest_max_iter : ∀ j, (gs j).max_iter = S.max_iter

/-- The host and the guests have encryptions of their parts of the model. -/
structure Encrypts (M : Model S.Columns K) (s : HostState T) (gs : Fin S.N → GuestState T)
    (l : ℕ) : Prop where
  host_weight : T.Holds s.weight (hostPart M.weight) l
  host_bias : T.Holds s.bias (fun _ : Fin 1 => M.bias) l
  guest_weight : ∀ j, T.Holds (gs j).weight (guestPart j M.weight) l

/-- There are two levels for each iteration that is left before the next refresh. -/
structure Follows (M : Model S.Columns K) (s : HostState T) (gs : Fin S.N → GuestState T)
    (t : ℕ) : Prop where
  counts : Counts s gs t
  encrypts : Encrypts M s gs (2 * (S.max_iter - t))

variable {M : Model S.Columns K} {s : HostState T} {gs : Fin S.N → GuestState T} {t : ℕ}

omit [Field K] in
/-- The vectors of all guests, when each of them has one. -/
theorem choose_guests {n : Fin S.N → ℕ} {o : Fin S.N → Option T.Vector}
    {a : (j : Fin S.N) → Fin (n j) → K} (h : ∀ j, T.Yields (o j) (a j) l) :
    ∃ vs : Fin S.N → T.Vector, (∀ j, o j = some (vs j)) ∧ ∀ j, T.Holds (vs j) (a j) l := by
  choose vs hvs hholds using h
  exact ⟨vs, hvs, hholds⟩

omit [Field K] in
theorem mapM_vector? (vs : Fin S.N → T.Vector) :
    ((List.finRange S.N).map fun j => Data.vector (vs j)).mapM Data.vector? =
      some ((List.finRange S.N).map vs) := by
  have hread : ∀ j, Data.vector? (Data.vector (vs j)) = some (vs j) := fun _ => rfl
  exact mapM_read hread _

omit [Field K] in
/-- The coordinator receives the model. -/
theorem reaches_recv_model {α η θ : Type} {role : Role} {weight bias : T.Vector}
    {weights : Fin S.N → T.Vector} {h : Net S.N (Data T) η} {g : Fin S.N → Net S.N (Data T) θ}
    {f : T.Vector → T.Vector → List T.Vector → Net S.N (Data T) α}
    {Q : α → η → (Fin S.N → θ) → Prop}
    (hrest : Reaches (f weight bias ((List.finRange S.N).map weights)) h g Q) :
    Reaches (Coordinator.recv_model S T role f)
      (.send (.coordinator, ⟨.host_weight, role⟩) (.data (.vector weight)) <|
        .send (.coordinator, ⟨.host_bias, role⟩) (.data (.vector bias)) h)
      (fun j => .send (.coordinator, ⟨.guest_weight, role⟩) (.data (.vector (weights j))) (g j))
      Q := by
  refine host_to_coordinator rfl (host_to_coordinator rfl (guests_to_coordinator ?_))
  rw [mapM_vector?, attempt_some]
  exact hrest

omit [Field K] in
/-- Everybody receives their part of the model. -/
theorem reaches_send_model {β η θ : Type} {role : Role} {read : Message (Data T) → Option β}
    {dweight dbias : Data T} {dweights : Fin S.N → Data T} {weight bias : β}
    {weights : Fin S.N → β} {h : β → β → Net S.N (Data T) η}
    {g : (j : Fin S.N) → β → Net S.N (Data T) θ} {Q : Unit → η → (Fin S.N → θ) → Prop}
    (hweight : read (.data dweight) = some weight) (hbias : read (.data dbias) = some bias)
    (hweights : ∀ j, read (.data (dweights j)) = some (weights j))
    (hrest : Reaches (.ret ()) (h weight bias) (fun j => g j (weights j)) Q) :
    Reaches (Coordinator.send_model S T role dweight dbias ((List.finRange S.N).map dweights))
      (recvAs read .coordinator ⟨.host_weight, role⟩ fun weight =>
        recvAs read .coordinator ⟨.host_bias, role⟩ fun bias => h weight bias)
      (fun j => recvAs read .coordinator ⟨.guest_weight, role⟩ (g j)) Q := by
  refine coordinator_to_host hweight (coordinator_to_host hbias ?_)
  have hsend : send_seperately ⟨.guest_weight, role⟩ ((List.finRange S.N).map dweights)
      (.ret () : Net S.N (Data T) Unit) = sends ((guests S.N).map fun i =>
        ((i, ⟨.guest_weight, role⟩), ofGuests (fun j => .data (dweights j)) i)) (.ret ()) := by
    simp [send_seperately, guests, ofGuests, List.zip_map', Function.comp_def]
  rw [hsend]
  exact coordinator_to_guests hweights hrest

/-- **A refresh restores the levels.** -/
theorem reaches_update_ciphertext_model (hT : T.Exact) (role : Role) (hcounts : Counts s gs t)
    (hencrypts : Encrypts M s gs l) :
    Reaches (Coordinator.update_ciphertext_model S T role) (Host.update_ciphertext_model S T role s)
      (fun j => Guest.update_ciphertext_model S T role (gs j))
      fun _ s gs => Counts s gs t ∧ Encrypts M s gs (2 * S.max_iter) := by
  obtain ⟨weight, hweight, hhost⟩ := yields_encryptAgain (S := S) hT S.host_columns_pos
    hencrypts.host_weight
  obtain ⟨bias, hbias, hhostbias⟩ := yields_encryptAgain (S := S) hT Nat.one_pos
    hencrypts.host_bias
  obtain ⟨weights, hweights, hguest⟩ := choose_guests fun j =>
    yields_encryptAgain (S := S) hT (S.guest_columns_pos j) (hencrypts.guest_weight j)
  apply reaches_recv_model
  rw [hweight, attempt_some, hbias, attempt_some, mapM_read hweights, attempt_some, List.map_map]
  refine reaches_send_model rfl rfl (fun _ => rfl) (reaches_ret ⟨?_, hhost, hhostbias, hguest⟩)
  exact ⟨hcounts.host_t, hcounts.host_max_iter, hcounts.guest_t, hcounts.guest_max_iter⟩

/-- The refresh before a batch or before the metrics, and the coordinator's part in it. -/
theorem reaches_refresh (hT : T.Exact) (role : Role) (hs : Follows M s gs t) :
    Reaches
      (if S.max_iter ≤ t then Coordinator.update_ciphertext_model S T role else .ret ())
      (Host.refresh S T role s) (fun j => Guest.refresh S T role (gs j))
      fun _ s gs => Follows M s gs (if S.max_iter ≤ t then 0 else t) := by
  obtain ⟨⟨ht, hmax, hguest_t, hguest_max⟩, hencrypts⟩ := hs
  by_cases hle : S.max_iter ≤ t
  · have hhost : Host.refresh S T role s =
        Host.update_ciphertext_model S T role { s with t := 0 } := if_pos (by omega)
    have hguest : ∀ j, Guest.refresh S T role (gs j) =
        Guest.update_ciphertext_model S T role { gs j with t := 0 } := fun j =>
      if_pos (by rw [hguest_max, hguest_t]; exact hle)
    simp only [hle, if_true, hhost, hguest]
    have hreset : Counts { s with t := 0 } (fun j => { gs j with t := 0 }) 0 :=
      ⟨rfl, hmax, fun _ => rfl, hguest_max⟩
    have hkept : Encrypts M { s with t := 0 } (fun j => { gs j with t := 0 })
        (2 * (S.max_iter - t)) :=
      ⟨hencrypts.host_weight, hencrypts.host_bias, hencrypts.guest_weight⟩
    obtain ⟨c', h', g', hplays, hcounts, hencrypts'⟩ :=
      reaches_update_ciphertext_model hT role hreset hkept
    exact ⟨c', h', g', hplays, hcounts, hencrypts'⟩
  · simp only [hle, if_false, Host.refresh, Guest.refresh, ht, hmax, hguest_t, hguest_max]
    exact reaches_ret ⟨⟨ht, hmax, hguest_t, hguest_max⟩, hencrypts⟩

theorem fit_yields (hT : T.Exact) (x : Matrix (Fin m) (Fin S.host_columns) K) {error : T.Vector}
    {e : Fin m → K} {w : Fin S.host_columns → K} {b : K} (he : T.Holds error e (l + 1))
    (hw : T.Holds s.weight w (l + 1)) (hb : T.Holds s.bias (fun _ : Fin 1 => b) (l + 1)) :
    ∃ weight bias, Host.fit S T x error s = some { s with weight := weight, bias := bias } ∧
      T.Holds weight (w - S.learning_rate • ((m : K)⁻¹ • (xᵀ *ᵥ e) + S.alpha • w)) l ∧
      T.Holds bias (fun _ : Fin 1 => b - S.learning_rate * ((∑ r, e r) / m)) l := by
  obtain ⟨total, htotal, hsum⟩ := hT.sum he
  obtain ⟨db, hdb, hfactor⟩ := hT.mul_number (-S.learning_rate / m) hsum
  obtain ⟨bias, hbias, hadd⟩ := hT.add (hb.mono (Nat.le_succ l)) hfactor
  obtain ⟨weight, hweight, hdescend⟩ := yields_descend (S := S) hT S.host_columns_pos x he hw
  refine ⟨weight, bias, ?_, hdescend, hadd.congr ?_⟩
  · simp [Host.fit, htotal, hdb, hbias, hweight]
  · ext i
    simp only [Pi.add_apply, Pi.smul_apply, smul_eq_mul]
    ring

/-- **A batch takes two levels.** The coordinator takes part in it only if there are none left. -/
theorem reaches_train (hT : T.Exact) (epoch : ℕ) {rs : S.Rows} (hrs : rs ≠ [])
    (hs : Follows M s gs t) :
    Reaches
      (if S.max_iter ≤ t then Coordinator.update_ciphertext_model S T (.train epoch) else .ret ())
      (Host.train S T epoch rs s) (fun j => Guest.train S T j epoch rs (gs j))
      fun _ s gs => Follows (Central.fit M (S.rows S.x rs) (S.labels rs)) s gs
        (if S.max_iter ≤ t then 1 else t + 1) := by
  rw [← bind_ret (if S.max_iter ≤ t then _ else _)]
  refine (reaches_refresh hT (.train epoch) hs).bind fun _ s₁ gs₁ hs₁ => ?_
  have hnext : (if S.max_iter ≤ t then 1 else t + 1) = (if S.max_iter ≤ t then 0 else t) + 1 := by
    split_ifs <;> rfl
  have hleft : (if S.max_iter ≤ t then 0 else t) < S.max_iter := by
    have hpos := S.max_iter_pos
    split_ifs <;> omega
  rw [hnext]
  generalize (if S.max_iter ≤ t then 0 else t) = u at hs₁ hleft ⊢
  obtain ⟨⟨hu, hmax, hguest_u, hguest_max⟩, hencrypts⟩ := hs₁
  have hlevels : 2 * (S.max_iter - u) = 2 * (S.max_iter - (u + 1)) + 1 + 1 := by omega
  have hm : 0 < rs.length := List.length_pos_iff.mpr hrs
  rw [hlevels] at hencrypts
  -- the scores, the error and the step
  obtain ⟨zs, hzs, hscores⟩ := choose_guests fun j =>
    hT.mm (S.rows (S.guest_x j) rs)ᵀ hm (hencrypts.guest_weight j)
  have hyields : T.Yields (Host.compute_enc_z S T (S.rows S.host_x rs) { s₁ with t := s₁.t + 1 }
      ((List.finRange S.N).map zs)) (Central.predict M (S.rows S.x rs))
      (2 * (S.max_iter - (u + 1)) + 1) :=
    yields_compute_enc_z hT hm hencrypts.host_weight hencrypts.host_bias fun j =>
      (hscores j).congr (vecMul_transpose _ _)
  obtain ⟨z, hz, hscore⟩ := hyields
  obtain ⟨error, herror, hsub⟩ := hT.sub_plain (S.labels rs) hscore
  obtain ⟨weight, bias, hfit, hweight, hbias⟩ := fit_yields (s := { s₁ with t := s₁.t + 1 }) hT
    (S.rows S.host_x rs) hsub (hencrypts.host_weight.mono (Nat.le_succ _))
    (hencrypts.host_bias.mono (Nat.le_succ _))
  obtain ⟨weights, hdescend, hweights⟩ := choose_guests fun j =>
    yields_descend (S := S) hT (S.guest_columns_pos j) (S.rows (S.guest_x j) rs) hsub
      ((hencrypts.guest_weight j).mono (Nat.le_succ _))
  simp only [hzs, attempt_some]
  refine guests_to_host ?_
  rw [mapM_vector? zs, attempt_some, hz, attempt_some, herror, attempt_some]
  refine host_to_all rfl ?_
  simp only [hdescend, hfit, attempt_some]
  refine reaches_ret ⟨⟨?_, hmax, fun j => ?_, hguest_max⟩, hweight, hbias, hweights⟩
  · exact congrArg (· + 1) hu
  · exact congrArg (· + 1) (hguest_u j)

/-- The steps of a model for the batches of `l`. -/
abbrev fits (M : Model S.Columns K) (l : List S.Rows) : Model S.Columns K :=
  l.foldl (fun M rs => Central.fit M (S.rows S.x rs) (S.labels rs)) M

/-- **The batches of an epoch**, beside as many refreshes as the host and the guests count. -/
theorem reaches_batches (hT : T.Exact) (epoch : ℕ) (l : List S.Rows) (hl : ∀ rs ∈ l, rs ≠ [])
    (refreshes : List ℕ)
    (hrefreshes : refreshes.length = (afterBatches S.max_iter l.length t).1)
    (hs : Follows M s gs t) :
    Reaches
      (each (fun _ _ => Coordinator.update_ciphertext_model S T (.train epoch)) refreshes ())
      (each (Host.train S T epoch) l s) (fun j => each (Guest.train S T j epoch) l (gs j))
      fun _ s gs => Follows (fits M l) s gs (afterBatches S.max_iter l.length t).2 := by
  induction l generalizing refreshes M s gs t with
  | nil =>
      obtain rfl : refreshes = [] := List.length_eq_zero_iff.mp hrefreshes
      exact reaches_ret hs
  | cons rs l ih =>
      have htrain := reaches_train hT epoch (hl rs (by simp)) hs
      have hrest : ∀ rs' ∈ l, rs' ≠ [] := fun rs' h => hl rs' (by simp [h])
      by_cases hle : S.max_iter ≤ t
      · simp only [List.length_cons, afterBatches, hle, if_true] at hrefreshes htrain ⊢
        obtain ⟨r, refreshes, rfl⟩ := List.exists_cons_of_length_eq_add_one hrefreshes
        exact htrain.bind fun _ s₁ gs₁ hs₁ => ih hrest refreshes (by simpa using hrefreshes) hs₁
      · simp only [List.length_cons, afterBatches, hle, if_false] at hrefreshes htrain ⊢
        exact htrain.bind fun _ s₁ gs₁ hs₁ => ih hrest refreshes hrefreshes hs₁

omit [Field K] in
theorem mem_slices {fuel start : ℕ} {slice : ℕ × ℕ} (h : slice ∈ S.params.slices fuel start) :
    slice.1 < slice.2 ∧ slice.2 ≤ S.num_examples := by
  induction fuel generalizing start with
  | zero => simp [Params.slices] at h
  | succ fuel ih =>
      have hpos := S.params.batch_pos
      by_cases hstart : start < S.params.num_examples
      · simp only [Params.slices, hstart, if_true, List.mem_cons] at h
        rcases h with rfl | h
        · have hnum : S.params.num_examples = S.num_examples := rfl
          constructor
          · exact lt_min (by omega) hstart
          · exact hnum ▸ min_le_right _ _
        · exact ih h
      · simp [Params.slices, hstart] at h

omit [Field K] in
/-- No batch is empty. -/
theorem ne_nil_of_mem_batches {epoch : ℕ} {rs : S.Rows} (h : rs ∈ S.batches epoch) : rs ≠ [] := by
  obtain ⟨slice, hslice, rfl⟩ := List.mem_map.mp h
  have hbounds := mem_slices hslice
  have hlength := S.length_order epoch
  apply List.ne_nil_of_length_pos
  simp only [batch, List.length_take, List.length_drop]
  omega

/-- All parties, and the central training with what it has logged, between the parts of the
training. -/
structure InStep (p : Model S.Columns K × List K) (cs : CoordinatorState K) (s : HostState T)
    (gs : Fin S.N → GuestState T) : Prop where
  follows : Follows p.1 s gs cs.t
  le : cs.t ≤ S.max_iter
  num_examples : cs.num_examples = S.num_examples
  iter_per_epoch : cs.iter_per_epoch = S.params.batches.length
  logged : cs.logged = p.2

variable {p : Model S.Columns K × List K} {cs : CoordinatorState K}

theorem reaches_trainEpoch (hT : T.Exact) (epoch : ℕ) (hs : InStep p cs s gs) :
    Reaches (Coordinator.train S T epoch cs) (each (Host.train S T epoch) (S.batches epoch) s)
      (fun j => each (Guest.train S T j epoch) (S.batches epoch) (gs j))
      (InStep (fits p.1 (S.batches epoch), p.2)) := by
  have hlength : (S.batches epoch).length = S.params.batches.length := List.length_map _
  have hafter : Ckks.Coordinator.afterEpoch S.max_iter cs.iter_per_epoch cs.t =
      afterBatches S.max_iter (S.batches epoch).length cs.t := by
    rw [hs.iter_per_epoch, hlength]
    exact afterEpoch_eq S.max_iter_pos S.params.batches_pos hs.le
  simp only [Coordinator.train, hafter]
  refine Reaches.map_coordinator ?_
  obtain ⟨c', h', g', hplays, hfollows⟩ := reaches_batches hT epoch (S.batches epoch)
    (fun _ => ne_nil_of_mem_batches)
    (List.range (afterBatches S.max_iter (S.batches epoch).length cs.t).1) (by simp) hs.follows
  exact ⟨c', h', g', hplays, hfollows, afterBatches_le S.max_iter_pos hs.le, hs.num_examples,
    hs.iter_per_epoch, hs.logged⟩

theorem reaches_refreshMetrics (hT : T.Exact) (epoch : ℕ) (hs : InStep p cs s gs) :
    Reaches (Coordinator.refresh S T (.metrics epoch) cs) (Host.refresh S T (.metrics epoch) s)
      (fun j => Guest.refresh S T (.metrics epoch) (gs j))
      fun cs s gs => InStep p cs s gs ∧ cs.t < S.max_iter := by
  have hrefresh := reaches_refresh hT (.metrics epoch) hs.follows
  by_cases hle : S.max_iter ≤ cs.t
  · simp only [Coordinator.refresh, hle, if_true] at hrefresh ⊢
    obtain ⟨c', h', g', hplays, hfollows⟩ := hrefresh
    exact Reaches.map_coordinator ⟨c', h', g', hplays,
      ⟨hfollows, Nat.zero_le _, hs.num_examples, hs.iter_per_epoch, hs.logged⟩, S.max_iter_pos⟩
  · simp only [Coordinator.refresh, hle, if_false] at hrefresh ⊢
    simp only [Host.refresh, Guest.refresh, hs.follows.counts.host_t,
      hs.follows.counts.host_max_iter, hs.follows.counts.guest_t,
      hs.follows.counts.guest_max_iter, hle, if_false]
    exact reaches_ret ⟨hs, Nat.lt_of_not_le hle⟩

/-- The coordinator logs the mean squared error of the central training. -/
theorem reaches_metrics (hT : T.Exact) (epoch : ℕ) (hs : InStep p cs s gs) :
    Reaches (Coordinator.compute_loss S T epoch cs) (Host.compute_metrics S T epoch s)
      (fun j => Guest.compute_metrics S T j epoch (gs j))
      (InStep (p.1, p.2 ++ [Central.mse p.1])) := by
  refine (reaches_refreshMetrics hT epoch hs).bind fun cs₁ s₁ gs₁ ⟨hs₁, hlt⟩ => ?_
  have hencrypts := hs₁.follows.encrypts
  have hlevels : 2 * (S.max_iter - cs₁.t) = 2 * (S.max_iter - (cs₁.t + 1)) + 1 + 1 := by omega
  rw [hlevels] at hencrypts
  obtain ⟨zs, hzs, hscores⟩ := choose_guests fun j =>
    hT.mm (S.guest_x j)ᵀ S.num_examples_pos (hencrypts.guest_weight j)
  have hyields : T.Yields (Host.compute_enc_z S T S.host_x s₁ ((List.finRange S.N).map zs))
      (Central.predict p.1 S.x) (2 * (S.max_iter - (cs₁.t + 1)) + 1) :=
    yields_compute_enc_z (f := id) hT S.num_examples_pos hencrypts.host_weight
      hencrypts.host_bias fun j => (hscores j).congr (vecMul_transpose _ _)
  obtain ⟨z, hz, hscore⟩ := hyields
  obtain ⟨total, htotal, hsum⟩ := yields_squaredError hT hscore
  simp only [hzs, attempt_some]
  refine guests_to_host ?_
  rw [mapM_vector? zs, attempt_some, hz, attempt_some, htotal, attempt_some]
  refine host_to_coordinator rfl ?_
  rw [hsum.decrypt]
  refine reaches_ret ⟨hs₁.follows, hs₁.le, hs₁.num_examples, hs₁.iter_per_epoch, ?_⟩
  simp [hs₁.logged, hs₁.num_examples, Central.mse]

theorem reaches_epoch (hT : T.Exact) (epoch : ℕ) (hs : InStep p cs s gs) :
    Reaches (Coordinator.runEpoch S T epoch cs) (Host.runEpoch S T epoch s)
      (fun j => Guest.runEpoch S T j epoch (gs j)) (InStep (Central.runEpoch epoch p)) := by
  refine (reaches_trainEpoch hT epoch hs).bind fun cs₁ s₁ gs₁ hs₁ => ?_
  by_cases hprint : S.print_metrics = true
  · simp only [Central.runEpoch, hprint, if_true]
    exact reaches_metrics hT epoch hs₁
  · simp only [Central.runEpoch, hprint]
    exact reaches_ret hs₁

theorem reaches_epochs (hT : T.Exact) (l : List ℕ) (hs : InStep p cs s gs) :
    Reaches (each (Coordinator.runEpoch S T) l cs) (each (Host.runEpoch S T) l s)
      (fun j => each (Guest.runEpoch S T j) l (gs j))
      (InStep (l.foldl (fun p epoch => Central.runEpoch epoch p) p)) := by
  induction l generalizing p cs s gs with
  | nil => exact reaches_ret hs
  | cons epoch l ih => exact (reaches_epoch hT epoch hs).bind fun _ _ _ hs₁ => ih hs₁

theorem yields_zero (hT : T.Exact) {n : ℕ} (hn : 0 < n) :
    T.Yields (T.ckks_vector (Coordinator.context S T) (List.replicate n 0))
      (fun _ : Fin n => (0 : K)) (2 * S.max_iter) := by
  have h := hT.ckks_vector (Coordinator.context S T) (fun _ : Fin n => (0 : K)) hn
  rw [List.ofFn_const, Coordinator.context, hT.multiply_depth] at h
  exact h

theorem reaches_init (hT : T.Exact) :
    Reaches (Coordinator.init S T) (Host.init S T) (fun j => Guest.init S T j)
      (InStep (Central.init S, [])) := by
  obtain ⟨weight, hweight, hhost⟩ := yields_zero (S := S) hT S.host_columns_pos
  obtain ⟨bias, hbias, hhostbias⟩ := yields_zero (S := S) hT Nat.one_pos
  obtain ⟨weights, hweights, hguest⟩ := choose_guests fun j =>
    yields_zero (S := S) hT (S.guest_columns_pos j)
  have hmax : T.multiply_depth (Coordinator.context S T) / 2 = S.max_iter := by
    rw [Coordinator.context, hT.multiply_depth]
    omega
  refine host_to_coordinator rfl (coordinator_to_host rfl (coordinator_to_all rfl
    (host_to_coordinator rfl ?_)))
  rw [List.replicate_one] at hbias
  simp only [hweight, hbias, hweights, attempt_some, hmax]
  refine reaches_ret ⟨⟨⟨rfl, rfl, fun _ => rfl, fun _ => rfl⟩, ?_⟩, Nat.zero_le _, rfl,
    S.params.iter_per_epoch_eq, rfl⟩
  exact ⟨hhost, hhostbias, hguest⟩

omit [Field K] in
/-- Everybody gets their part of the model in the clear. -/
theorem reaches_plaintext (hencrypts : Encrypts M s gs l) :
    Reaches (Coordinator.update_plaintext_model S T) (Host.update_plaintext_model S T s)
      (fun j => Guest.update_plaintext_model S T (gs j))
      fun _ model weights => model = (List.ofFn (hostPart M.weight), [M.bias]) ∧
        ∀ j, weights j = List.ofFn (guestPart j M.weight) := by
  apply reaches_recv_model
  rw [List.map_map]
  refine reaches_send_model rfl rfl (fun _ => rfl) (reaches_ret ⟨?_, fun j => ?_⟩)
  · rw [hencrypts.host_weight.decrypt, hencrypts.host_bias.decrypt]
    simp
  · exact (hencrypts.guest_weight j).decrypt

omit [Field K] in
theorem mapM_ofFn {n : ℕ} (l : List (Fin S.N)) (z : Fin S.N → Fin n → K) :
    (l.map fun j => List.ofFn (z j)).mapM (TenSEAL.array? n) = some (l.map z) :=
  mapM_read (fun j => TenSEAL.array?_ofFn (z j)) l

/-- The scores of the trained parts are those of the whole model. -/
theorem compute_z_eq (M : Model S.Columns K) :
    Host.compute_z S (List.ofFn (hostPart M.weight)) [M.bias] ((List.finRange S.N).map fun j =>
      List.ofFn (S.guest_x j *ᵥ guestPart j M.weight)) = some (Central.predict M S.x) := by
  simp only [Host.compute_z, TenSEAL.array?_ofFn, mapM_ofFn, Option.bind_eq_bind,
    Option.bind_some, Option.pure_def, Option.some.injEq, List.map_map]
  funext r
  simp only [Central.predict, x_mulVec, Function.comp_def]
  ring

theorem reaches_final (logged : List K) (M : Model S.Columns K) :
    Reaches (.ret logged)
      (Host.compute_final_metrics S T (List.ofFn (hostPart M.weight), [M.bias]))
      (fun j => Guest.compute_final_metrics S T j (List.ofFn (guestPart j M.weight)))
      fun logged' trained weights => logged' = logged ∧
        trained = {
          weight := List.ofFn (hostPart M.weight)
          bias := [M.bias]
          y_pred := List.ofFn (Central.predict M S.x) } ∧
        ∀ j, weights j = List.ofFn (guestPart j M.weight) := by
  simp only [Host.compute_final_metrics, Guest.compute_final_metrics, TenSEAL.array?_ofFn,
    attempt_some]
  refine guests_to_host ?_
  have hread : ((List.finRange S.N).map fun j =>
      (Data.array (List.ofFn (S.guest_x j *ᵥ guestPart j M.weight)) : Data T)).mapM Data.array? =
      some ((List.finRange S.N).map fun j =>
        List.ofFn (S.guest_x j *ᵥ guestPart j M.weight)) :=
    mapM_read (fun _ => by rfl) _
  rw [hread, attempt_some, compute_z_eq, attempt_some]
  exact reaches_ret ⟨rfl, rfl, fun _ => rfl⟩

/-- **The parties train what is trained centrally**: in any order of the steps nobody runs out of
levels or waits for ever, no message is taken for another or left over, and in the end the
coordinator has logged the errors of the central training, and the host and the guests have the
parts of its model. -/
theorem training_isCentral (hT : T.Exact) :
    RunsTogether Label.key (parties (Coordinator.run S T) (Host.run S T) (Guest.run S T))
      (results (Central.run S).2
        { weight := List.ofFn (hostPart (Central.run S).1.weight)
          bias := [(Central.run S).1.bias]
          y_pred := List.ofFn (Central.predict (Central.run S).1 S.x) }
        fun j => List.ofFn (guestPart j (Central.run S).1.weight)) := by
  have htrained : Reaches (Coordinator.run S T) (Host.run S T) (Guest.run S T)
      fun logged trained weights => logged = (Central.run S).2 ∧
        trained = {
          weight := List.ofFn (hostPart (Central.run S).1.weight)
          bias := [(Central.run S).1.bias]
          y_pred := List.ofFn (Central.predict (Central.run S).1 S.x) } ∧
        ∀ j, weights j = List.ofFn (guestPart j (Central.run S).1.weight) := by
    refine (reaches_init hT).bind fun cs s gs hs => ?_
    refine (reaches_epochs hT (List.range S.epoch) hs).bind fun cs s gs hs => ?_
    refine (reaches_plaintext hs.follows.encrypts).bind fun _ model weights hmodel => ?_
    obtain ⟨rfl, hweights⟩ := hmodel
    simp only [hweights, hs.logged]
    exact reaches_final (Central.run S).2 (Central.run S).1
  obtain ⟨logged, trained, weights, hplays, rfl, rfl, hweights⟩ := htrained
  obtain rfl := funext hweights
  exact hplays.runsTogether

/-- Two batches of one row each, between which the weights are encrypted afresh. -/
def twoRows : Setup ℚ where
  N := 1
  host_columns := 1
  guest_columns _ := 1
  num_examples := 2
  batch_size := 1
  epoch := 1
  print_metrics := true
  host_x r _ := if r.val = 0 then 1 else -1
  guest_x _ r _ := if r.val = 0 then 2 else 0
  y r := if r.val = 0 then 3 else 1
  order _ := List.finRange 2
  learning_rate := 1 / 2
  alpha := 1 / 3
  max_iter := 1
  host_columns_pos := Nat.one_pos
  guest_columns_pos _ := Nat.one_pos
  num_examples_pos := Nat.two_pos
  batch_size_pos := Nat.one_pos
  max_iter_pos := Nat.one_pos
  length_order _ := List.length_finRange

theorem training_isCentral_twoRows : RunsTogether Label.key
    (parties (Coordinator.run twoRows (TenSEAL.levelled ℚ)) (Host.run twoRows (TenSEAL.levelled ℚ))
      (Guest.run twoRows (TenSEAL.levelled ℚ)))
    (results [181 / 16] { weight := [3 / 4], bias := [2], y_pred := [31 / 4, 5 / 4] }
      fun _ => [5 / 2]) := by
  have h := training_isCentral (S := twoRows) TenSEAL.exact_levelled
  have hlogged : (Central.run twoRows).2 = [181 / 16] := by decide +kernel
  have hhost : ({
      weight := List.ofFn (hostPart (Central.run twoRows).1.weight)
      bias := [(Central.run twoRows).1.bias]
      y_pred := List.ofFn (Central.predict (Central.run twoRows).1 twoRows.x) } : Trained ℚ) =
      { weight := [3 / 4], bias := [2], y_pred := [31 / 4, 5 / 4] } := by decide +kernel
  have hguest : ∀ j, List.ofFn (guestPart (S := twoRows) j (Central.run twoRows).1.weight) =
      [5 / 2] := by decide +kernel
  rw [hlogged, hhost, funext hguest] at h
  exact h

end Setup

end Fediux.Vfl.Ckks.Linear
