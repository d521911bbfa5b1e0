import Fediux.Basic.Messaging

set_option autoImplicit false

/-! # Vertical logistic regression under CKKS

The training of `CKKSCoordinator`, `CKKS_Host` and `CKKS_Guest` of
`python/fediux/FL/logistic_regression`, as one program for each party. A model that was multiplied
`max_iter` times has to be decrypted and encrypted again by the coordinator. The host and the
guests count their batches one by one, while the coordinator reckons with a whole epoch
(`afterEpoch_eq`). Every message carries the part of the training it is meant for, which the
channels do not see; `training_runsTogether` says that each one is received in that part, and
that no run gets stuck.
-/

namespace Fediux.Vfl.Ckks

open Session Session.Prog Messaging

inductive Party (N : ℕ) where
  | coordinator
  | host
  | guest (j : Fin N)
  deriving DecidableEq

inductive Key where
  | batch_size
  | output_dim
  | multiclass
  | public_context
  | num_examples
  | host_weight
  | host_bias
  | guest_weight
  | guest_z
  | guest_regular_loss
  | error
  | loss
  deriving DecidableEq, Repr

/-- The part of the training a message is meant for. -/
inductive Role where
  | setup
  | train (epoch : ℕ)
  | metrics (epoch : ℕ)
  | plaintext
  | final
  deriving DecidableEq, Repr

structure Label where
  key : Key
  role : Role
  deriving DecidableEq, Repr

inductive Message (D : Type) where
  | nat (n : ℕ)
  | bool (b : Bool)
  | data (d : D)

inductive Err where
  | TypeError
  deriving DecidableEq, Repr

abbrev Net (N : ℕ) (D α : Type) := Prog (Party N × Label) (Message D) Err α

section Channels

variable {N : ℕ} {D α : Type}

def Message.nat? : Message D → Option ℕ
  | nat n => some n
  | _ => none

def Message.bool? : Message D → Option Bool
  | bool b => some b
  | _ => none

def Message.data? : Message D → Option D
  | data d => some d
  | _ => none

/-- `GrpcClient.recv`, for a message that is used as a value of one kind. -/
def recvAs {β : Type} (read : Message D → Option β) (party : Party N) (k : Label)
    (f : β → Net N D α) : Net N D α :=
  .recv (party, k) fun m => (ofOption .TypeError (read m)).bind f

def guests (N : ℕ) : List (Party N) := (List.finRange N).map .guest

/-- `MultiGrpcClients.recv_all`. -/
def recv_all (k : Label) (f : List D → Net N D α) : Net N D α :=
  recvAll k (guests N) fun ms => (ofOption .TypeError (ms.mapM Message.data?)).bind f

/-- `MultiGrpcClients.send_all`. -/
def send_all (k : Label) (m : Message D) (p : Net N D α) : Net N D α :=
  sends ((guests N).map fun j => ((j, k), m)) p

/-- `MultiGrpcClients.send_seperately`. -/
def send_seperately (k : Label) (ds : List D) (p : Net N D α) : Net N D α :=
  sends (((guests N).zip ds).map fun e => ((e.1, k), .data e.2)) p

end Channels

/-! ## The parameters -/

/-- What the parties know from the start. `max_iter` is `self.multiply_depth // 2`, which all
parties read off the same context; `max_y` is the largest label. -/
structure Params where
  num_examples : ℕ
  batch_size : ℕ
  epoch : ℕ
  print_metrics : Bool
  alpha : ℚ
  max_iter : ℕ
  max_y : ℕ
  num_examples_pos : 0 < num_examples
  batch_size_pos : 0 < batch_size
  max_iter_pos : 0 < max_iter

/-- The operations on arrays, ciphertexts and their bytes, `D`, and on the rows of batches, `X`:
TenSEAL's, and the ones of `vfl_base.py` that are made of them. -/
structure Arithmetic (N : ℕ) (D X : Type) where
  context : D
  serialize : D → D
  /-- `load_tensor` for multiclass labels, else `load_vector`. -/
  load : Bool → D → D
  /-- `encrypt_tensor` or `encrypt_vector`. -/
  encrypt : Bool → D → D
  decrypt : D → D
  /-- `np.array(..)` of a decrypted weight. -/
  array : Bool → D → D
  host_weight : D
  host_bias : D
  guest_weight : Fin N → D
  host_rows : ℕ → ℕ × ℕ → X
  guest_rows : Fin N → ℕ → ℕ × ℕ → X
  host_x : X
  guest_x : Fin N → X
  /-- `compute_enc_z` of the host. -/
  host_z : X → D → D → List D → D
  compute_error : X → D → D
  host_fit : X → D → D × D → D × D
  host_regular_loss : D → List D → D
  host_loss : X → D → Option D → D
  /-- `compute_enc_z` of a guest. -/
  guest_z : X → D → D
  /-- `compute_z` of a guest. -/
  guest_compute_z : X → D → D
  guest_fit : X → D → D → D
  guest_regular_loss : D → D

namespace Params

variable (c : Params)

/-- `self.multiclass` of the host. -/
def multiclass : Bool := c.max_y != 1

def output_dim : ℕ := if c.multiclass then c.max_y + 1 else 1

/-- `batch_size` of the host and of the guests. -/
def batch : ℕ := min c.num_examples c.batch_size

/-- The slices of the indices that the loader of a party takes in one epoch, from `start` on. -/
def slices : ℕ → ℕ → List (ℕ × ℕ)
  | 0, _ => []
  | fuel + 1, start =>
      if start < c.num_examples then
        (start, min (start + c.batch) c.num_examples) :: slices fuel (start + c.batch)
      else []

/-- The batches of an epoch. Each one has a row at least. -/
def batches : List (ℕ × ℕ) := c.slices c.num_examples 0

end Params

/-- `math.ceil(num_examples / batch_size)`. -/
def iter_per_epoch (num_examples batch_size : ℕ) : ℕ := ⌈(num_examples / batch_size : ℚ)⌉₊

/-! ## The host -/

structure HostState (D : Type) where
  t : ℕ
  weight : D
  bias : D

namespace Host

variable {N : ℕ} {D X : Type} (c : Params) (A : Arithmetic N D X)

/-- `CKKS_Host.update_ciphertext_model`. -/
def update_ciphertext_model (role : Role) (s : HostState D) : Net N D (HostState D) :=
  .send (.coordinator, ⟨.host_weight, role⟩) (.data (A.serialize s.weight)) <|
  .send (.coordinator, ⟨.host_bias, role⟩) (.data (A.serialize s.bias)) <|
  recvAs Message.data? .coordinator ⟨.host_weight, role⟩ fun weight =>
  recvAs Message.data? .coordinator ⟨.host_bias, role⟩ fun bias =>
  .ret { s with weight := A.load c.multiclass weight, bias := A.load c.multiclass bias }

/-- The test that begins `train` and `compute_metrics`. -/
def refresh (role : Role) (s : HostState D) : Net N D (HostState D) :=
  if c.max_iter ≤ s.t then update_ciphertext_model c A role { s with t := 0 } else .ret s

/-- `CKKS_Host.train`, for a batch. -/
def train (epoch : ℕ) (batch : ℕ × ℕ) (s : HostState D) : Net N D (HostState D) :=
  (refresh c A (.train epoch) s).bind fun s =>
  let x := A.host_rows epoch batch
  recv_all ⟨.guest_z, .train epoch⟩ fun zs =>
  let error := A.compute_error x (A.host_z x s.weight s.bias (zs.map (A.load c.multiclass)))
  send_all ⟨.error, .train epoch⟩ (.data (A.serialize error)) <|
  let model := A.host_fit x error (s.weight, s.bias)
  .ret { t := s.t + 1, weight := model.1, bias := model.2 }

/-- The regular losses of the guests are asked for unless `alpha` is 0. -/
def regularLoss (read : D → D) (role : Role) (s : HostState D)
    (f : Option D → Net N D (HostState D)) : Net N D (HostState D) :=
  if c.alpha ≠ 0 then
    recv_all ⟨.guest_regular_loss, role⟩ fun losses =>
    f (some (A.host_regular_loss s.weight (losses.map read)))
  else f none

def compute_enc_regular_loss (role : Role) (s : HostState D)
    (f : Option D → Net N D (HostState D)) : Net N D (HostState D) :=
  regularLoss c A (A.load c.multiclass) role s f

/-- `Plaintext_Host.compute_regular_loss`. -/
def compute_regular_loss (role : Role) (s : HostState D)
    (f : Option D → Net N D (HostState D)) : Net N D (HostState D) :=
  regularLoss c A id role s f

/-- `CKKS_Host.compute_metrics`. -/
def compute_metrics (epoch : ℕ) (s : HostState D) : Net N D (HostState D) :=
  (refresh c A (.metrics epoch) s).bind fun s =>
  recv_all ⟨.guest_z, .metrics epoch⟩ fun zs =>
  let z := A.host_z A.host_x s.weight s.bias (zs.map (A.load c.multiclass))
  compute_enc_regular_loss c A (.metrics epoch) s fun regular_loss =>
  .send (.coordinator, ⟨.loss, .metrics epoch⟩)
    (.data (A.serialize (A.host_loss A.host_x z regular_loss))) <|
  .ret s

def runEpoch (epoch : ℕ) (s : HostState D) : Net N D (HostState D) :=
  (each (train c A epoch) c.batches s).bind fun s =>
  if c.print_metrics then compute_metrics c A epoch s else .ret s

def update_plaintext_model (s : HostState D) : Net N D (HostState D) :=
  .send (.coordinator, ⟨.host_weight, .plaintext⟩) (.data (A.serialize s.weight)) <|
  .send (.coordinator, ⟨.host_bias, .plaintext⟩) (.data (A.serialize s.bias)) <|
  recvAs Message.data? .coordinator ⟨.host_weight, .plaintext⟩ fun weight =>
  recvAs Message.data? .coordinator ⟨.host_bias, .plaintext⟩ fun bias =>
  .ret { s with weight := weight, bias := bias }

/-- `Plaintext_Host.compute_final_metrics`; the metrics themselves are not sent. -/
def compute_final_metrics (s : HostState D) : Net N D (HostState D) :=
  recv_all ⟨.guest_z, .final⟩ fun _ =>
  compute_regular_loss c A .final s fun _ => .ret s

/-- `CKKS_Host.__init__`. -/
def init : Net N D (HostState D) :=
  .send (.coordinator, ⟨.batch_size, .setup⟩) (.nat c.batch) <|
  send_all ⟨.output_dim, .setup⟩ (.nat c.output_dim) <|
  .send (.coordinator, ⟨.multiclass, .setup⟩) (.bool c.multiclass) <|
  recvAs Message.data? .coordinator ⟨.public_context, .setup⟩ fun _ =>
  .send (.coordinator, ⟨.num_examples, .setup⟩) (.nat c.num_examples) <|
  .ret {
    t := 0
    weight := A.encrypt c.multiclass A.host_weight
    bias := A.encrypt c.multiclass A.host_bias }

def run : Net N D (HostState D) :=
  (init c A).bind fun s =>
  (each (runEpoch c A) (List.range c.epoch) s).bind fun s =>
  (update_plaintext_model A s).bind fun s =>
  compute_final_metrics c A s

end Host

/-! ## The guests -/

structure GuestState (D : Type) where
  t : ℕ
  weight : D
  multiclass : Bool

namespace Guest

variable {N : ℕ} {D X : Type} (c : Params) (A : Arithmetic N D X) (j : Fin N)

/-- `CKKS_Guest.update_ciphertext_model`. -/
def update_ciphertext_model (role : Role) (s : GuestState D) : Net N D (GuestState D) :=
  .send (.coordinator, ⟨.guest_weight, role⟩) (.data (A.serialize s.weight)) <|
  recvAs Message.data? .coordinator ⟨.guest_weight, role⟩ fun weight =>
  .ret { s with weight := A.load s.multiclass weight }

/-- The test that begins `train` and `compute_metrics`. -/
def refresh (role : Role) (s : GuestState D) : Net N D (GuestState D) :=
  if c.max_iter ≤ s.t then update_ciphertext_model A role { s with t := 0 } else .ret s

/-- `CKKS_Guest.train`, for a batch. -/
def train (epoch : ℕ) (batch : ℕ × ℕ) (s : GuestState D) : Net N D (GuestState D) :=
  (refresh c A (.train epoch) s).bind fun s =>
  let x := A.guest_rows j epoch batch
  .send (.host, ⟨.guest_z, .train epoch⟩) (.data (A.serialize (A.guest_z x s.weight))) <|
  recvAs Message.data? .host ⟨.error, .train epoch⟩ fun error =>
  .ret { s with t := s.t + 1, weight := A.guest_fit x (A.load s.multiclass error) s.weight }

/-- The regular loss is sent unless `alpha` is 0. -/
def regularLoss (write : D → D) (role : Role) (s : GuestState D) : Net N D (GuestState D) :=
  if c.alpha ≠ 0 then
    .send (.host, ⟨.guest_regular_loss, role⟩) (.data (write (A.guest_regular_loss s.weight)))
      (.ret s)
  else .ret s

def send_enc_regular_loss (role : Role) (s : GuestState D) : Net N D (GuestState D) :=
  regularLoss c A A.serialize role s

/-- `Plaintext_Guest.send_regular_loss`. -/
def send_regular_loss (role : Role) (s : GuestState D) : Net N D (GuestState D) :=
  regularLoss c A id role s

/-- `CKKS_Guest.compute_metrics`. -/
def compute_metrics (epoch : ℕ) (s : GuestState D) : Net N D (GuestState D) :=
  (refresh c A (.metrics epoch) s).bind fun s =>
  .send (.host, ⟨.guest_z, .metrics epoch⟩)
    (.data (A.serialize (A.guest_z (A.guest_x j) s.weight))) <|
  send_enc_regular_loss c A (.metrics epoch) s

def runEpoch (epoch : ℕ) (s : GuestState D) : Net N D (GuestState D) :=
  (each (train c A j epoch) c.batches s).bind fun s =>
  if c.print_metrics then compute_metrics c A j epoch s else .ret s

def update_plaintext_model (s : GuestState D) : Net N D (GuestState D) :=
  .send (.coordinator, ⟨.guest_weight, .plaintext⟩) (.data (A.serialize s.weight)) <|
  recvAs Message.data? .coordinator ⟨.guest_weight, .plaintext⟩ fun weight =>
  .ret { s with weight := weight }

/-- `Plaintext_Guest.compute_metrics`, which `compute_final_metrics` calls. -/
def compute_final_metrics (s : GuestState D) : Net N D (GuestState D) :=
  .send (.host, ⟨.guest_z, .final⟩) (.data (A.guest_compute_z (A.guest_x j) s.weight)) <|
  send_regular_loss c A .final s

/-- `CKKS_Guest.__init__`. -/
def init : Net N D (GuestState D) :=
  recvAs Message.nat? .host ⟨.output_dim, .setup⟩ fun output_dim =>
  let multiclass := decide (2 < output_dim)
  recvAs Message.data? .coordinator ⟨.public_context, .setup⟩ fun _ =>
  .ret { t := 0, weight := A.encrypt multiclass (A.guest_weight j), multiclass := multiclass }

def run : Net N D (GuestState D) :=
  (init A j).bind fun s =>
  (each (runEpoch c A j) (List.range c.epoch) s).bind fun s =>
  (update_plaintext_model A s).bind fun s =>
  compute_final_metrics c A j s

end Guest

/-! ## The coordinator -/

structure CoordinatorState where
  t : ℕ
  multiclass : Bool
  iter_per_epoch : ℕ
  deriving DecidableEq, Repr

namespace Coordinator

variable {N : ℕ} {D X : Type} (c : Params) (A : Arithmetic N D X)

/-- `recv_model`, `decrypt_model` and `send_model`, with what is done to each part between. -/
def update_model (role : Role) (f : D → D) : Net N D Unit :=
  recvAs Message.data? .host ⟨.host_weight, role⟩ fun host_weight =>
  recvAs Message.data? .host ⟨.host_bias, role⟩ fun host_bias =>
  recv_all ⟨.guest_weight, role⟩ fun guest_weight =>
  .send (.host, ⟨.host_weight, role⟩) (.data (f host_weight)) <|
  .send (.host, ⟨.host_bias, role⟩) (.data (f host_bias)) <|
  send_seperately ⟨.guest_weight, role⟩ (guest_weight.map f) <|
  .ret ()

def update_ciphertext_model (role : Role) (multiclass : Bool) : Net N D Unit :=
  update_model role fun d =>
    A.serialize (A.encrypt multiclass (A.decrypt (A.load multiclass d)))

def update_plaintext_model (multiclass : Bool) : Net N D Unit :=
  update_model .plaintext fun d => A.array multiclass (A.decrypt (A.load multiclass d))

/-- `num_dec` and `self.t` after an epoch. -/
def afterEpoch (max_iter iter_per_epoch t : ℕ) : ℕ × ℕ :=
  let t := t + iter_per_epoch
  let num_dec := t / max_iter
  let t := t % max_iter
  if t = 0 then (num_dec - 1, max_iter) else (num_dec, t)

/-- `CKKSCoordinator.train`. -/
def train (epoch : ℕ) (s : CoordinatorState) : Net N D CoordinatorState :=
  let after := afterEpoch c.max_iter s.iter_per_epoch s.t
  (each (fun _ _ => update_ciphertext_model A (.train epoch) s.multiclass)
    (List.range after.1) ()).bind fun _ =>
  .ret { s with t := after.2 }

/-- `CKKSCoordinator.compute_loss`. -/
def compute_loss (epoch : ℕ) (s : CoordinatorState) : Net N D CoordinatorState :=
  (if c.max_iter ≤ s.t then
    (update_ciphertext_model A (.metrics epoch) s.multiclass).bind fun _ => .ret { s with t := 0 }
  else .ret s).bind fun s =>
  recvAs Message.data? .host ⟨.loss, .metrics epoch⟩ fun _ =>
  .ret s

def runEpoch (epoch : ℕ) (s : CoordinatorState) : Net N D CoordinatorState :=
  (train c A epoch s).bind fun s =>
  if c.print_metrics then compute_loss c A epoch s else .ret s

/-- `CKKSCoordinator.__init__`, behind the batch size. -/
def init : Net N D CoordinatorState :=
  recvAs Message.nat? .host ⟨.batch_size, .setup⟩ fun batch_size =>
  recvAs Message.bool? .host ⟨.multiclass, .setup⟩ fun multiclass =>
  .send (.host, ⟨.public_context, .setup⟩) (.data A.context) <|
  send_all ⟨.public_context, .setup⟩ (.data A.context) <|
  recvAs Message.nat? .host ⟨.num_examples, .setup⟩ fun num_examples =>
  .ret {
    t := 0
    multiclass := multiclass
    iter_per_epoch := iter_per_epoch num_examples batch_size }

def run : Net N D CoordinatorState :=
  (init A).bind fun s =>
  (each (runEpoch c A) (List.range c.epoch) s).bind fun s =>
  (update_plaintext_model A s.multiclass).bind fun _ =>
  .ret s

end Coordinator

/-! ## The counters -/

/-- The refreshes of a host or guest in `k` batches from the counter `t` on, and its counter
behind them. -/
def afterBatches (max_iter : ℕ) : ℕ → ℕ → ℕ × ℕ
  | 0, t => (0, t)
  | k + 1, t =>
      if max_iter ≤ t then
        let after := afterBatches max_iter k 1
        (after.1 + 1, after.2)
      else afterBatches max_iter k (t + 1)

theorem afterBatches_succ {max_iter : ℕ} (hmax : 0 < max_iter) (k : ℕ) {t : ℕ}
    (ht : t ≤ max_iter) :
    afterBatches max_iter (k + 1) t = ((t + k) / max_iter, (t + k) % max_iter + 1) := by
  induction k generalizing t with
  | zero =>
      by_cases hle : max_iter ≤ t
      · obtain rfl : t = max_iter := by omega
        simp [afterBatches, hmax]
      · have hlt : t < max_iter := by omega
        simp [afterBatches, hle, Nat.div_eq_of_lt hlt, Nat.mod_eq_of_lt hlt]
  | succ k ih =>
      by_cases hle : max_iter ≤ t
      · obtain rfl : t = max_iter := by omega
        rw [afterBatches, if_pos hle, ih hmax, Nat.add_div_left _ hmax, Nat.add_mod_left,
          Nat.add_comm 1 k]
      · rw [afterBatches, if_neg hle, ih (by omega), Nat.add_right_comm t 1 k, Nat.add_assoc t k 1]

/-- A counter that runs from `1` to `max_iter` instead of from `0` to `max_iter - 1`. -/
theorem div_mod_succ {max_iter : ℕ} (hmax : 0 < max_iter) (T : ℕ) :
    (if (T + 1) % max_iter = 0 then ((T + 1) / max_iter - 1, max_iter)
      else ((T + 1) / max_iter, (T + 1) % max_iter)) = (T / max_iter, T % max_iter + 1) := by
  have hT := Nat.div_add_mod T max_iter
  have hr := Nat.mod_lt T hmax
  generalize T / max_iter = q at *
  generalize T % max_iter = r at *
  subst hT
  by_cases hlast : r + 1 = max_iter
  · have hsucc : max_iter * q + r + 1 = max_iter * (q + 1) := by
      rw [Nat.mul_succ]
      omega
    simp [hsucc, hlast, hmax]
  · have hlt : r + 1 < max_iter := by omega
    rw [Nat.add_assoc, Nat.mul_add_mod, Nat.mod_eq_of_lt hlt, Nat.mul_add_div hmax,
      Nat.div_eq_of_lt hlt]
    simp

/-- **The coordinator reckons what the others count.** -/
theorem afterEpoch_eq {max_iter k t : ℕ} (hmax : 0 < max_iter) (hk : 0 < k)
    (ht : t ≤ max_iter) :
    Coordinator.afterEpoch max_iter k t = afterBatches max_iter k t := by
  obtain ⟨k, rfl⟩ : ∃ k', k = k' + 1 := ⟨k - 1, by omega⟩
  rw [afterBatches_succ hmax k ht, ← div_mod_succ hmax (t + k)]
  rfl

theorem afterBatches_le {max_iter k t : ℕ} (hmax : 0 < max_iter) (ht : t ≤ max_iter) :
    (afterBatches max_iter k t).2 ≤ max_iter := by
  cases k with
  | zero => exact ht
  | succ k =>
      rw [afterBatches_succ hmax k ht]
      exact Nat.mod_lt _ hmax

namespace Params

variable (c : Params)

theorem batch_pos : 0 < c.batch := by
  have hn := c.num_examples_pos
  have hb := c.batch_size_pos
  simp only [batch]
  omega

theorem length_slices {fuel start : ℕ} (h : c.num_examples ≤ start + fuel) :
    (c.slices fuel start).length = (c.num_examples - start + c.batch - 1) / c.batch := by
  have hb := c.batch_pos
  induction fuel generalizing start with
  | zero =>
      have hnone : c.num_examples - start + c.batch - 1 < c.batch := by omega
      simp [slices, Nat.div_eq_of_lt hnone]
  | succ fuel ih =>
      by_cases hlt : start < c.num_examples
      · have hrest : c.num_examples - start + c.batch - 1 =
            c.num_examples - (start + c.batch) + c.batch - 1 + c.batch ∨
              (c.num_examples ≤ start + c.batch ∧
                c.num_examples - start + c.batch - 1 = c.num_examples - start - 1 + c.batch) := by
          omega
        simp only [slices, hlt, if_true, List.length_cons]
        rw [ih (by omega)]
        rcases hrest with hmore | ⟨hle, hlast⟩
        · rw [hmore, Nat.add_div_right _ hb]
        · have hone : c.num_examples - start - 1 < c.batch := by omega
          have hnone : c.num_examples - (start + c.batch) + c.batch - 1 < c.batch := by omega
          rw [hlast, Nat.add_div_right _ hb, Nat.div_eq_of_lt hone, Nat.div_eq_of_lt hnone]
      · have hnone : c.num_examples - start + c.batch - 1 < c.batch := by omega
        simp [slices, hlt, Nat.div_eq_of_lt hnone]

/-- The quotient is a float. Rounding it does not change what `math.ceil` makes of it as long as
there are fewer than `2 ^ 53` examples. -/
theorem iter_per_epoch_of_rounded {n b : ℕ} (hb : 0 < b) (hn : n < 2 ^ 53) {r : ℚ}
    (hexact : b ∣ n → r = n / b) (hround : |r - n / b| ≤ n / b / 2 ^ 53) :
    ⌈r⌉₊ = iter_per_epoch n b := by
  by_cases hdvd : b ∣ n
  · rw [hexact hdvd, iter_per_epoch]
  · have hb' : (0 : ℚ) < b := by exact_mod_cast hb
    have hn' : (n : ℚ) < 2 ^ 53 := by exact_mod_cast hn
    have hmod : 0 < n % b := Nat.pos_of_ne_zero fun h => hdvd (Nat.dvd_of_mod_eq_zero h)
    have hlt := Nat.mod_lt n hb
    have hdiv := Nat.div_add_mod n b
    have hsplit : (n : ℚ) = b * (n / b : ℕ) + (n % b : ℕ) := by exact_mod_cast hdiv.symm
    -- the quotient is `1 / b` away from the next whole numbers
    have hlow : (n / b : ℕ) + 1 / (b : ℚ) ≤ n / b := by
      rw [le_div_iff₀ hb', add_mul, one_div_mul_cancel hb'.ne']
      have hone : (1 : ℚ) ≤ (n % b : ℕ) := by exact_mod_cast hmod
      linarith
    have hhigh : (n : ℚ) / b ≤ (n / b : ℕ) + 1 - 1 / (b : ℚ) := by
      rw [div_le_iff₀ hb', sub_mul, add_mul, one_div_mul_cancel hb'.ne']
      have hone : ((n % b : ℕ) : ℚ) + 1 ≤ b := by exact_mod_cast hlt
      linarith
    have herr : (n : ℚ) / b / 2 ^ 53 < 1 / b := by
      rw [div_div, div_lt_div_iff₀ (by positivity) hb']
      nlinarith
    have habs := abs_le.mp hround
    have hceil : ∀ q : ℚ, ((n / b : ℕ) : ℚ) < q → q ≤ (n / b : ℕ) + 1 → ⌈q⌉₊ = n / b + 1 := by
      intro q hq hq'
      refine le_antisymm (Nat.ceil_le.mpr (by exact_mod_cast hq')) ?_
      exact Nat.lt_ceil.mpr hq
    have hpos : (0 : ℚ) < 1 / b := by positivity
    rw [iter_per_epoch, hceil r (by linarith) (by linarith),
      hceil (n / b) (by linarith) (by linarith)]

/-- **The coordinator knows the number of the batches.** -/
theorem iter_per_epoch_eq : iter_per_epoch c.num_examples c.batch = c.batches.length := by
  have hb := c.batch_pos
  rw [batches, c.length_slices (by omega), Nat.sub_zero, iter_per_epoch]
  refine le_antisymm (Nat.ceil_le.mpr ?_) ?_
  · rw [div_le_iff₀ (by exact_mod_cast hb)]
    have hdiv := Nat.lt_div_mul_add hb (a := c.num_examples + c.batch - 1)
    exact_mod_cast (by omega :
      c.num_examples ≤ (c.num_examples + c.batch - 1) / c.batch * c.batch)
  · have hceil := Nat.le_ceil (c.num_examples / c.batch : ℚ)
    rw [div_le_iff₀ (by exact_mod_cast hb)] at hceil
    have hle : c.num_examples ≤ ⌈(c.num_examples / c.batch : ℚ)⌉₊ * c.batch := by
      exact_mod_cast hceil
    refine Nat.lt_succ_iff.mp ((Nat.div_lt_iff_lt_mul hb).mpr ?_)
    rw [Nat.succ_mul]
    omega

theorem batches_pos : 0 < c.batches.length := by
  have hn := c.num_examples_pos
  have hb := c.batch_pos
  rw [batches, c.length_slices (by omega), Nat.sub_zero]
  exact Nat.div_pos (by omega) hb

end Params

/-! ## The messages between the parties -/

section Parties

variable {N : ℕ} {D : Type}

abbrev Result (γ η θ : Type) : Party N → Type
  | .coordinator => γ
  | .host => η
  | .guest _ => θ

def results {γ η θ : Type} (c : γ) (h : η) (g : Fin N → θ) :
    (i : Party N) → Result γ η θ i
  | .coordinator => c
  | .host => h
  | .guest j => g j

def parties {γ η θ : Type} (c : Net N D γ) (h : Net N D η) (g : Fin N → Net N D θ) :
    (i : Party N) → Net N D (Result γ η θ i)
  | .coordinator => c
  | .host => h
  | .guest j => g j

theorem nodup_guests : (guests N).Nodup :=
  (List.nodup_finRange N).map fun _ _ h => Party.guest.inj h

theorem mem_guests {x : Party N} : x ∈ guests N ↔ ∃ j, x = .guest j := by
  simp [guests, eq_comm]

/-- What each guest sends or is sent. -/
def ofGuests (m : Fin N → Message D) : Party N → Message D
  | .guest j => m j
  | _ => .nat 0

theorem map_ofGuests (m : Fin N → Message D) :
    (guests N).map (ofGuests m) = (List.finRange N).map m := by
  simp [guests, ofGuests]

theorem mapM_data? (l : List (Fin N)) (d : Fin N → D) :
    (l.map fun j => Message.data (d j)).mapM Message.data? = some (l.map d) := by
  induction l with
  | nil => rfl
  | cons j l ih => simp [ih, Message.data?]

variable {γ η θ γ' η' θ' : Type} {c : Net N D γ} {h : Net N D η} {g : Fin N → Net N D θ}
  {Q : γ → η → (Fin N → θ) → Prop} {k : Label} {m : Message D} {d : D}

/-- The programs play together, and what they return is as `Q` says. -/
def Reaches (c : Net N D γ) (h : Net N D η) (g : Fin N → Net N D θ)
    (Q : γ → η → (Fin N → θ) → Prop) : Prop :=
  ∃ c' h' g', Plays (parties c h g) (results c' h' g') ∧ Q c' h' g'

theorem reaches_ret {c : γ} {h : η} {g : Fin N → θ} (hQ : Q c h g) :
    Reaches (D := D) (.ret c) (.ret h) (fun j => .ret (g j)) Q := by
  have hret : parties (N := N) (D := D) (.ret c) (.ret h) (fun j => .ret (g j)) =
      fun i => .ret (results c h g i) := by
    funext i
    cases i <;> rfl
  refine ⟨c, h, g, ?_, hQ⟩
  rw [hret]
  exact .ret _

/-- One part of the training after the other. -/
theorem Reaches.bind {kc : γ → Net N D γ'} {kh : η → Net N D η'} {kg : Fin N → θ → Net N D θ'}
    {R : γ' → η' → (Fin N → θ') → Prop} (hfirst : Reaches c h g Q)
    (hrest : ∀ c' h' g', Q c' h' g' → Reaches (kc c') (kh h') (fun j => kg j (g' j)) R) :
    Reaches (c.bind kc) (h.bind kh) (fun j => (g j).bind (kg j)) R := by
  obtain ⟨c', h', g', hplays, hQ⟩ := hfirst
  obtain ⟨c'', h'', g'', hplays', hR⟩ := hrest c' h' g' hQ
  let kont : (i : Party N) → Result γ η θ i → Net N D (Result γ' η' θ' i)
    | .coordinator => kc
    | .host => kh
    | .guest j => kg j
  have hk : (parties (kc c') (kh h') fun j => kg j (g' j)) =
      fun i => kont i (results c' h' g' i) := by
    funext i
    cases i <;> rfl
  have hb : (parties (c.bind kc) (h.bind kh) fun j => (g j).bind (kg j)) =
      fun i => (parties c h g i).bind (kont i) := by
    funext i
    cases i <;> rfl
  refine ⟨c'', h'', g'', ?_, hR⟩
  rw [hb]
  exact hplays.bind (hk ▸ hplays')

/-- The coordinator alone goes on. -/
theorem Reaches.map_coordinator {f : γ → γ'} {R : γ' → η → (Fin N → θ) → Prop}
    (hfirst : Reaches c h g fun c' h' g' => R (f c') h' g') :
    Reaches (c.bind fun c' => .ret (f c')) h g R := by
  have hlater : Reaches (c.bind fun c' => .ret (f c')) (h.bind .ret)
      (fun j => (g j).bind .ret) R :=
    hfirst.bind fun c' h' g' hR => reaches_ret hR
  simpa only [bind_ret] using hlater

/-- Loops over the same list, side by side. -/
theorem Reaches.each {β : Type} {bc : β → γ → Net N D γ} {bh : β → η → Net N D η}
    {bg : Fin N → β → θ → Net N D θ} {l : List β}
    (hbody : ∀ e ∈ l, ∀ c h g, Q c h g → Reaches (bc e c) (bh e h) (fun j => bg j e (g j)) Q)
    {c : γ} {h : η} {g : Fin N → θ} (hQ : Q c h g) :
    Reaches (Prog.each bc l c) (Prog.each bh l h) (fun j => Prog.each (bg j) l (g j)) Q := by
  induction l generalizing c h g with
  | nil => exact reaches_ret hQ
  | cons e l ih =>
      exact (hbody e (by simp) c h g hQ).bind fun _ _ _ hQ' =>
        ih (fun e' he' => hbody e' (by simp [he'])) hQ'

theorem host_to_coordinator {β : Type} {read : Message D → Option β} {v : β}
    {f : β → Net N D γ} (hread : read m = some v) (hrest : Reaches (f v) h g Q) :
    Reaches (recvAs read .host k f) (.send (.coordinator, k) m h) g Q := by
  obtain ⟨c', h', g', hplays, hQ⟩ := hrest
  refine ⟨c', h', g', Exchanges.exchange (i := .host) (j := .coordinator) (by simp) rfl rfl hplays rfl ?_ ?_, hQ⟩
  · simp [parties, hread]
  · rintro (_ | _ | j) hi hj
    · exact absurd rfl hj
    · exact absurd rfl hi
    · rfl

theorem coordinator_to_host {β : Type} {read : Message D → Option β} {v : β}
    {f : β → Net N D η} (hread : read m = some v) (hrest : Reaches c (f v) g Q) :
    Reaches (.send (.host, k) m c) (recvAs read .coordinator k f) g Q := by
  obtain ⟨c', h', g', hplays, hQ⟩ := hrest
  refine ⟨c', h', g', Exchanges.exchange (i := .coordinator) (j := .host) (by simp) rfl rfl hplays rfl ?_ ?_, hQ⟩
  · simp [parties, hread]
  · rintro (_ | _ | j) hi hj
    · exact absurd rfl hi
    · exact absurd rfl hj
    · rfl

theorem guests_to_coordinator {f : List D → Net N D γ} {d : Fin N → D}
    (hrest : Reaches (f ((List.finRange N).map d)) h g Q) :
    Reaches (recv_all k f) h (fun j => .send (.coordinator, k) (.data (d j)) (g j)) Q := by
  obtain ⟨c', h', g', hplays, hQ⟩ := hrest
  refine ⟨c', h', g', Exchanges.gather (i := .coordinator) (m := ofGuests fun j => .data (d j))
    (p := parties (recv_all k f) h g) nodup_guests (by simp [guests]) rfl ?_ hplays ?_ ?_ ?_, hQ⟩
  · intro x hx
    obtain ⟨j, rfl⟩ := mem_guests.mp hx
    rfl
  · rw [map_ofGuests, mapM_data?]
    rfl
  · intro x hx
    obtain ⟨j, rfl⟩ := mem_guests.mp hx
    rfl
  · rintro (_ | _ | j) hi hx
    · exact absurd rfl hi
    · rfl
    · exact absurd (mem_guests.mpr ⟨j, rfl⟩) hx

theorem guests_to_host {f : List D → Net N D η} {d : Fin N → D}
    (hrest : Reaches c (f ((List.finRange N).map d)) g Q) :
    Reaches c (recv_all k f) (fun j => .send (.host, k) (.data (d j)) (g j)) Q := by
  obtain ⟨c', h', g', hplays, hQ⟩ := hrest
  refine ⟨c', h', g', Exchanges.gather (i := .host) (m := ofGuests fun j => .data (d j))
    (p := parties c (recv_all k f) g) nodup_guests (by simp [guests]) rfl ?_ hplays ?_ ?_ ?_, hQ⟩
  · intro x hx
    obtain ⟨j, rfl⟩ := mem_guests.mp hx
    rfl
  · rw [map_ofGuests, mapM_data?]
    rfl
  · intro x hx
    obtain ⟨j, rfl⟩ := mem_guests.mp hx
    rfl
  · rintro (_ | _ | j) hi hx
    · rfl
    · exact absurd rfl hi
    · exact absurd (mem_guests.mpr ⟨j, rfl⟩) hx

/-- The coordinator sends each guest a message of its own. -/
theorem coordinator_to_guests {β : Type} {read : Message D → Option β} {m : Fin N → Message D}
    {v : Fin N → β} {f : Fin N → β → Net N D θ} (hread : ∀ j, read (m j) = some (v j))
    (hrest : Reaches c h (fun j => f j (v j)) Q) :
    Reaches (sends ((guests N).map fun x => ((x, k), ofGuests m x)) c) h
      (fun j => recvAs read .coordinator k (f j)) Q := by
  obtain ⟨c', h', g', hplays, hQ⟩ := hrest
  refine ⟨c', h', g', Exchanges.scatter (i := .coordinator) (m := ofGuests m) (p := c)
    (f := fun x m => parties c h (fun j => (ofOption .TypeError (read m)).bind (f j)) x)
    nodup_guests (by simp [guests]) rfl ?_ hplays rfl ?_ ?_, hQ⟩
  · intro x hx
    obtain ⟨j, rfl⟩ := mem_guests.mp hx
    rfl
  · intro x hx
    obtain ⟨j, rfl⟩ := mem_guests.mp hx
    simp [parties, ofGuests, hread]
  · rintro (_ | _ | j) hi hx
    · exact absurd rfl hi
    · rfl
    · exact absurd (mem_guests.mpr ⟨j, rfl⟩) hx

theorem coordinator_to_all {β : Type} {read : Message D → Option β} {v : β}
    {f : Fin N → β → Net N D θ} (hread : read m = some v)
    (hrest : Reaches c h (fun j => f j v) Q) :
    Reaches (send_all k m c) h (fun j => recvAs read .coordinator k (f j)) Q := by
  have hsend : send_all k m c =
      sends ((guests N).map fun x => ((x, k), ofGuests (fun _ => m) x)) c := by
    simp [send_all, guests, ofGuests, Function.comp_def]
  rw [hsend]
  exact coordinator_to_guests (fun _ => hread) hrest

theorem coordinator_to_each {d : Fin N → D} {f : Fin N → D → Net N D θ}
    (hrest : Reaches c h (fun j => f j (d j)) Q) :
    Reaches (send_seperately k ((List.finRange N).map d) c) h
      (fun j => recvAs Message.data? .coordinator k (f j)) Q := by
  have hsend : send_seperately k ((List.finRange N).map d) c =
      sends ((guests N).map fun x => ((x, k), ofGuests (fun j => .data (d j)) x)) c := by
    simp [send_seperately, guests, ofGuests, List.zip_map', Function.comp_def]
  rw [hsend]
  exact coordinator_to_guests (fun _ => rfl) hrest

theorem host_to_all {β : Type} {read : Message D → Option β} {v : β}
    {f : Fin N → β → Net N D θ} (hread : read m = some v)
    (hrest : Reaches c h (fun j => f j v) Q) :
    Reaches c (send_all k m h) (fun j => recvAs read .host k (f j)) Q := by
  obtain ⟨c', h', g', hplays, hQ⟩ := hrest
  refine ⟨c', h', g', Exchanges.scatter (i := .host) (m := fun _ => m) (p := h)
    (f := fun x m => parties c h (fun j => (ofOption .TypeError (read m)).bind (f j)) x)
    nodup_guests (by simp [guests]) rfl ?_ hplays rfl ?_ ?_, hQ⟩
  · intro x hx
    obtain ⟨j, rfl⟩ := mem_guests.mp hx
    rfl
  · intro x hx
    obtain ⟨j, rfl⟩ := mem_guests.mp hx
    simp [parties, hread]
  · rintro (_ | _ | j) hi hx
    · rfl
    · exact absurd rfl hi
    · exact absurd (mem_guests.mpr ⟨j, rfl⟩) hx

end Parties

/-! ## The parts of the training -/

section Training

variable {N : ℕ} {D X : Type} (c : Params) (A : Arithmetic N D X)

/-- The host and the guests have made the same number of steps since the last refresh. -/
structure Counted (s : HostState D) (gs : Fin N → GuestState D) (t : ℕ) : Prop where
  host : s.t = t
  guest : ∀ j, (gs j).t = t

variable {s : HostState D} {gs : Fin N → GuestState D} {t : ℕ}

theorem reaches_update_ciphertext_model (role : Role) (multiclass : Bool)
    (hs : Counted s gs t) :
    Reaches (Coordinator.update_ciphertext_model A role multiclass)
      (Host.update_ciphertext_model c A role s)
      (fun j => Guest.update_ciphertext_model A role (gs j)) fun _ s gs => Counted s gs t := by
  refine host_to_coordinator rfl (host_to_coordinator rfl (guests_to_coordinator ?_))
  rw [List.map_map]
  refine coordinator_to_host rfl (coordinator_to_host rfl (coordinator_to_each ?_))
  exact reaches_ret ⟨hs.host, hs.guest⟩

/-- The refresh before a batch or before the metrics, and the coordinator's part in it. -/
theorem reaches_refresh (role : Role) (multiclass : Bool) (hs : Counted s gs t) :
    Reaches
      (if c.max_iter ≤ t then Coordinator.update_ciphertext_model A role multiclass else .ret ())
      (Host.refresh c A role s) (fun j => Guest.refresh c A role (gs j))
      fun _ s gs => Counted s gs (if c.max_iter ≤ t then 0 else t) := by
  by_cases hle : c.max_iter ≤ t
  · simp only [hle, if_true, Host.refresh, Guest.refresh, hs.host, hs.guest]
    exact reaches_update_ciphertext_model c A role multiclass ⟨rfl, fun _ => rfl⟩
  · simp only [hle, if_false, Host.refresh, Guest.refresh, hs.host, hs.guest]
    exact reaches_ret hs

/-- A batch. The coordinator takes part in it only if the model has to be refreshed. -/
theorem reaches_train (epoch : ℕ) (batch : ℕ × ℕ) (multiclass : Bool) (hs : Counted s gs t) :
    Reaches
      (if c.max_iter ≤ t then Coordinator.update_ciphertext_model A (.train epoch) multiclass
        else .ret ())
      (Host.train c A epoch batch s) (fun j => Guest.train c A j epoch batch (gs j))
      fun _ s gs => Counted s gs (if c.max_iter ≤ t then 1 else t + 1) := by
  rw [← bind_ret (if c.max_iter ≤ t then _ else _)]
  refine (reaches_refresh c A (.train epoch) multiclass hs).bind fun _ s₁ gs₁ hs₁ => ?_
  refine guests_to_host (host_to_all rfl (reaches_ret ?_))
  constructor
  · simp only [hs₁.host]
    split_ifs <;> rfl
  · intro j
    simp only [hs₁.guest]
    split_ifs <;> rfl

/-- **The batches of an epoch**, beside as many refreshes as the host and the guests count. -/
theorem reaches_batches (epoch : ℕ) (multiclass : Bool) (l : List (ℕ × ℕ)) (rs : List ℕ)
    (hrs : rs.length = (afterBatches c.max_iter l.length t).1) (hs : Counted s gs t) :
    Reaches
      (each (fun _ _ => Coordinator.update_ciphertext_model A (.train epoch) multiclass) rs ())
      (each (Host.train c A epoch) l s) (fun j => each (Guest.train c A j epoch) l (gs j))
      fun _ s gs => Counted s gs (afterBatches c.max_iter l.length t).2 := by
  induction l generalizing rs s gs t with
  | nil =>
      obtain rfl : rs = [] := List.length_eq_zero_iff.mp hrs
      exact reaches_ret hs
  | cons batch l ih =>
      have htrain := reaches_train c A epoch batch multiclass hs
      by_cases hle : c.max_iter ≤ t
      · simp only [List.length_cons, afterBatches, hle, if_true] at hrs htrain ⊢
        obtain ⟨r, rs, rfl⟩ := List.exists_cons_of_length_eq_add_one hrs
        exact htrain.bind fun _ s₁ gs₁ hs₁ => ih rs (by simpa using hrs) hs₁
      · simp only [List.length_cons, afterBatches, hle, if_false] at hrs htrain ⊢
        exact htrain.bind fun _ s₁ gs₁ hs₁ => ih rs hrs hs₁

/-- The counters of all parties, between the parts of the training. -/
structure InStep (cs : CoordinatorState) (s : HostState D) (gs : Fin N → GuestState D) : Prop where
  counted : Counted s gs cs.t
  le : cs.t ≤ c.max_iter
  iter_per_epoch : cs.iter_per_epoch = c.batches.length

variable {cs : CoordinatorState}

theorem reaches_trainEpoch (epoch : ℕ) (hs : InStep c cs s gs) :
    Reaches (Coordinator.train c A epoch cs) (each (Host.train c A epoch) c.batches s)
      (fun j => each (Guest.train c A j epoch) c.batches (gs j)) (InStep c) := by
  have hafter : Coordinator.afterEpoch c.max_iter cs.iter_per_epoch cs.t =
      afterBatches c.max_iter c.batches.length cs.t := by
    rw [hs.iter_per_epoch]
    exact afterEpoch_eq c.max_iter_pos c.batches_pos hs.le
  simp only [Coordinator.train, hafter]
  refine Reaches.map_coordinator ?_
  obtain ⟨c', h', g', hplays, hcounted⟩ := reaches_batches c A epoch cs.multiclass c.batches
    (List.range (afterBatches c.max_iter c.batches.length cs.t).1) (by simp) hs.counted
  exact ⟨c', h', g', hplays, hcounted, afterBatches_le c.max_iter_pos hs.le, hs.iter_per_epoch⟩

/-- The regular losses are sent and received for the same `alpha`. -/
theorem reaches_regularLoss {γ : Type} {co : Net N D γ} {Q : γ → HostState D →
    (Fin N → GuestState D) → Prop} (read write : D → D) (role : Role)
    {f : Option D → Net N D (HostState D)} (hrest : ∀ l, Reaches co (f l) (fun j => .ret (gs j)) Q) :
    Reaches co (Host.regularLoss c A read role s f)
      (fun j => Guest.regularLoss c A write role (gs j)) Q := by
  by_cases halpha : c.alpha = 0
  · simpa [Host.regularLoss, Guest.regularLoss, halpha] using hrest none
  · simp only [Host.regularLoss, Guest.regularLoss, halpha, ne_eq, not_false_eq_true, if_true]
    exact guests_to_host (hrest _)

theorem reaches_metrics (epoch : ℕ) (hs : InStep c cs s gs) :
    Reaches (Coordinator.compute_loss c A epoch cs) (Host.compute_metrics c A epoch s)
      (fun j => Guest.compute_metrics c A j epoch (gs j)) (InStep c) := by
  have hrefresh : Reaches
      (if c.max_iter ≤ cs.t then
        (Coordinator.update_ciphertext_model A (.metrics epoch) cs.multiclass).bind fun _ =>
          .ret { cs with t := 0 }
      else .ret cs)
      (Host.refresh c A (.metrics epoch) s) (fun j => Guest.refresh c A (.metrics epoch) (gs j))
      (InStep c) := by
    obtain ⟨c', h', g', hplays, hcounted⟩ :=
      reaches_refresh c A (.metrics epoch) cs.multiclass hs.counted
    by_cases hle : c.max_iter ≤ cs.t
    · simp only [hle, if_true] at hplays hcounted ⊢
      exact Reaches.map_coordinator
        ⟨c', h', g', hplays, hcounted, Nat.zero_le _, hs.iter_per_epoch⟩
    · simp only [hle, if_false, Host.refresh, Guest.refresh, hs.counted.host, hs.counted.guest]
      exact reaches_ret hs
  refine hrefresh.bind fun cs₁ s₁ gs₁ hs₁ => ?_
  refine guests_to_host (reaches_regularLoss c A _ _ _ fun l => ?_)
  exact host_to_coordinator rfl (reaches_ret hs₁)

theorem reaches_epoch (epoch : ℕ) (hs : InStep c cs s gs) :
    Reaches (Coordinator.runEpoch c A epoch cs) (Host.runEpoch c A epoch s)
      (fun j => Guest.runEpoch c A j epoch (gs j)) (InStep c) := by
  refine (reaches_trainEpoch c A epoch hs).bind fun cs₁ s₁ gs₁ hs₁ => ?_
  by_cases hprint : c.print_metrics = true
  · simp only [hprint, if_true]
    exact reaches_metrics c A epoch hs₁
  · simp only [hprint]
    exact reaches_ret hs₁

theorem reaches_init : Reaches (Coordinator.init A) (Host.init c A) (fun j => Guest.init A j)
    (InStep c) := by
  refine host_to_coordinator rfl (host_to_all rfl (host_to_coordinator rfl
    (coordinator_to_host rfl (coordinator_to_all rfl (host_to_coordinator rfl
      (reaches_ret ?_))))))
  exact ⟨⟨rfl, fun _ => rfl⟩, Nat.zero_le _, c.iter_per_epoch_eq⟩

theorem reaches_plaintext (multiclass : Bool) (s : HostState D) (gs : Fin N → GuestState D) :
    Reaches (Coordinator.update_plaintext_model A multiclass)
      (Host.update_plaintext_model A s) (fun j => Guest.update_plaintext_model A (gs j))
      fun _ _ _ => True := by
  refine host_to_coordinator rfl (host_to_coordinator rfl (guests_to_coordinator ?_))
  rw [List.map_map]
  exact coordinator_to_host rfl (coordinator_to_host rfl (coordinator_to_each
    (reaches_ret trivial)))

theorem reaches_final (cs : CoordinatorState) (s : HostState D) (gs : Fin N → GuestState D) :
    Reaches (.ret cs) (Host.compute_final_metrics c A s)
      (fun j => Guest.compute_final_metrics c A j (gs j)) fun _ _ _ => True :=
  guests_to_host (reaches_regularLoss c A _ _ _ fun _ => reaches_ret trivial)

/-- **The training does not get stuck**: in any order of the steps every message, and so every
model, is received in the part of the training it is meant for, nobody waits for ever, and no
message is left over. -/
theorem training_runsTogether : ∃ a,
    RunsTogether Label.key (parties (Coordinator.run c A) (Host.run c A) (Guest.run c A)) a := by
  obtain ⟨c', h', g', hplays, _⟩ : Reaches (Coordinator.run c A) (Host.run c A)
      (fun j => Guest.run c A j) fun _ _ _ => True := by
    refine (reaches_init c A).bind fun cs s gs hs => ?_
    refine (Reaches.each (fun epoch _ _ _ _ hs => reaches_epoch c A epoch hs) hs).bind
      fun cs s gs _ => ?_
    exact (reaches_plaintext A cs.multiclass s gs).bind fun _ s gs _ =>
      reaches_final c A cs s gs
  exact ⟨_, hplays.runsTogether⟩

end Training

end Fediux.Vfl.Ckks
