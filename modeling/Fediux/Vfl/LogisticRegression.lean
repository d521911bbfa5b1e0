import Fediux.Basic.Fallible
import Fediux.Vfl.HostGuests

set_option autoImplicit false

/-! # Vertical logistic regression in the clear

`Plaintext_Host` and `Plaintext_Guest` of `python/fediux/FL/logistic_regression` train together
what `LogisticRegression` trains alone on the joined columns, in exact arithmetic. The columns are
dealt out to the parties in any way (`owner`). The host adds up the partial scores, sends everyone
the error, and each party makes the step for its own weights (`fit_restrict`);
`training_refines` carries this through any number of batches.
-/

namespace Fediux.Vfl.Logistic

open Session Session.Prog Messaging

/-- The second dimension of an array: none, or the number of its columns. -/
abbrev Shape := Option ℕ

/-- The indices of the second dimension. -/
def Shape.Out : Shape → Type
  | none => Unit
  | some k => Fin k

inductive Err where
  | IndexError
  | ValueError
  deriving DecidableEq, Repr

/-- An array with rows `R`. -/
abbrev Arr (R : Type) (s : Shape) (K : Type) := R → s.Out → K

/-- What all parties know, the labels and the abstract functions. -/
structure Setup (K : Type) where
  N : ℕ
  columns : ℕ
  owner : Fin columns → Party N
  y : List ℤ
  max_y : ℤ
  learning_rate : K
  alpha : K
  sigmoid : K → K
  softmax : (k : ℕ) → (Fin k → K) → Fin k → K
  max_y_eq : y.max? = some max_y
  one_le_max_y : 1 ≤ max_y

/-- The rows of a batch: the joined columns and the labels. -/
structure Batch (C K : Type) where
  rows : ℕ
  x : Fin rows → C → K
  y : Fin rows → ℤ

structure Model (C : Type) (s : Shape) (K : Type) where
  weight : Arr C s K
  bias : Arr Unit s K

section Arithmetic

variable {K C R : Type} [Field K] [Fintype C]

/-- `x.dot(weight)`. -/
def dot {s : Shape} (x : R → C → K) (weight : Arr C s K) : Arr R s K :=
  fun r o => ∑ c, x r c * weight c o

/-- `x.T.dot(error)`. -/
def dotT {s : Shape} {m : ℕ} (x : Fin m → C → K) (error : Arr (Fin m) s K) : Arr C s K :=
  fun c o => ∑ r, x r c * error r o

/-- `error.mean(axis=0, keepdims=True)`. -/
def mean {s : Shape} {m : ℕ} (error : Arr (Fin m) s K) : Arr Unit s K :=
  fun _ o => (∑ r, error r o) / m

/-- A column index of numpy: negative ones count from the end. -/
def column (k : ℕ) (y : ℤ) : Option ℕ :=
  if 0 ≤ y ∧ y < k then some y.toNat
  else if -k ≤ y ∧ y < 0 then some (y + k).toNat
  else none

/-- `error[idx, y] -= 1`. -/
def decrement {k m : ℕ} (error : Fin m → Fin k → K) (y : Fin m → ℤ) :
    Except Err (Fin m → Fin k → K) :=
  if ∀ r, (column k (y r)).isSome then
    .ok fun r o => if column k (y r) = some o.val then error r o - 1 else error r o
  else .error .IndexError

end Arithmetic

namespace Setup

variable {K : Type} [Field K] (S : Setup K)

/-- The shape of the weights for the largest label: `max_y == 1` is binary. -/
def shape : Shape := if S.max_y = 1 then none else some (S.max_y + 1).toNat

/-- `predict_prob`, of `z`. -/
def predict_prob {R : Type} : (s : Shape) → Arr R s K → Arr R s K
  | none, z => fun r o => S.sigmoid (z r o)
  | some k, z => fun r => S.softmax k (z r)

/-- `learning_rate` times the gradient of the weights, taken off. -/
def step {C : Type} {s : Shape} (weight dw : Arr C s K) : Arr C s K :=
  fun c o => weight c o - S.learning_rate * dw c o

/-! ## Central training -/

namespace Central

/-- `LogisticRegression.__init__`. -/
def init : Model (Fin S.columns) S.shape K :=
  { weight := fun _ _ => 0, bias := fun _ _ => 0 }

/-- The error in `LogisticRegression.compute_grad`. -/
def error {C : Type} [Fintype C] : (s : Shape) → Model C s K → (b : Batch C K) →
    Except Err (Arr (Fin b.rows) s K)
  | none, M, b =>
      let z := fun r o => dot b.x M.weight r o + M.bias () o
      .ok fun r o => S.predict_prob none z r o - b.y r
  | some k, M, b =>
      let z := fun r o => dot b.x M.weight r o + M.bias () o
      decrement (S.predict_prob (some k) z) b.y

/-- `LogisticRegression.fit`. -/
def fit (M : Model (Fin S.columns) S.shape K) (b : Batch (Fin S.columns) K) :
    Except Err (Model (Fin S.columns) S.shape K) := do
  let error ← error S S.shape M b
  let dw := fun c o => dotT b.x error c o / b.rows + S.alpha * M.weight c o
  let db := mean error
  return { weight := S.step M.weight dw, bias := S.step M.bias db }

/-- The steps for a sequence of batches. -/
def train (bs : List (Batch (Fin S.columns) K)) : Except Err (Model (Fin S.columns) S.shape K) :=
  bs.foldlM (fit S) (init S)

end Central

/-! ## The parties -/

/-- The columns of a party. -/
abbrev Columns (i : Party S.N) := { c : Fin S.columns // S.owner c = i }

end Setup

inductive Key where
  | output_dim
  | guest_z
  | error
  deriving DecidableEq, Repr

/-- The key of a message, with the batch it is about, which the channels do not see. -/
structure Label where
  key : Key
  batch : ℕ
  deriving DecidableEq, Repr

inductive Message (K : Type) where
  | dim (n : ℕ)
  | array (s : Shape) (rows : ℕ) (a : Arr (Fin rows) s K)

instance (K : Type) : Inhabited (Message K) := ⟨.dim 0⟩

namespace Message

variable {K : Type}

def dim? : Message K → Option ℕ
  | dim n => some n
  | array _ _ _ => none

/-- The array of a message, if it has the shape that is needed. -/
def array? (s : Shape) (rows : ℕ) : Message K → Option (Arr (Fin rows) s K)
  | dim _ => none
  | array s' rows' a => if h : s' = s ∧ rows' = rows then some (h.1 ▸ h.2 ▸ a) else none

@[simp] theorem array?_array (s : Shape) (rows : ℕ) (a : Arr (Fin rows) s K) :
    (array s rows a).array? s rows = some a := by
  simp [array?]

end Message

namespace Setup

variable {K : Type} [Field K] (S : Setup K)

abbrev Net (α : Type) := Prog (Party S.N × Label) (Message K) Err α

/-- The columns of a party in a batch. -/
def rows (i : Party S.N) (b : Batch (Fin S.columns) K) : Fin b.rows → S.Columns i → K :=
  fun r c => b.x r c.1

namespace Host

/-- `self.output_dim`. -/
def output_dim : Shape → ℕ
  | none => 1
  | some k => k

/-- `compute_z`. -/
def compute_z {s : Shape} {m : ℕ} (M : Model (S.Columns none) s K)
    (x : Fin m → S.Columns none → K) (guest_z : List (Arr (Fin m) s K)) : Arr (Fin m) s K :=
  fun r o => dot x M.weight r o + M.bias () o + (guest_z.map fun z => z r o).sum

/-- `compute_error`. -/
def compute_error {m : ℕ} (y : Fin m → ℤ) : (s : Shape) → Arr (Fin m) s K →
    Except Err (Arr (Fin m) s K)
  | none, z => .ok fun r o => S.predict_prob none z r o - y r
  | some k, z => decrement (S.predict_prob (some k) z) y

/-- `fit`. -/
def fit {s : Shape} {m : ℕ} (M : Model (S.Columns none) s K) (x : Fin m → S.Columns none → K)
    (error : Arr (Fin m) s K) : Model (S.Columns none) s K :=
  let dw := fun c o => dotT x error c o / m + S.alpha * M.weight c o
  let db := mean error
  { weight := S.step M.weight dw, bias := S.step M.bias db }

/-- `Plaintext_Host.train`, for batch number `n`. -/
def train (n : ℕ) {m : ℕ} (x : Fin m → S.Columns none → K) (y : Fin m → ℤ)
    (M : Model (S.Columns none) S.shape K) : S.Net (Model (S.Columns none) S.shape K) :=
  recv_all (Message.array? S.shape m) .ValueError ⟨.guest_z, n⟩ fun guest_z =>
  match compute_error S y S.shape (compute_z S M x guest_z) with
  | .error e => .raise e
  | .ok error =>
      send_all ⟨.error, n⟩ (.array S.shape m error) <|
      .ret (fit S M x error)

/-- `Plaintext_Host.__init__`. -/
def init : S.Net (Model (S.Columns none) S.shape K) :=
  send_all ⟨.output_dim, 0⟩ (.dim (output_dim S.shape)) <|
  .ret { weight := fun _ _ => 0, bias := fun _ _ => 0 }

def run (bs : List (Batch (Fin S.columns) K)) : S.Net (Model (S.Columns none) S.shape K) :=
  (init S).bind (each (fun nb => train S nb.2 (S.rows none nb.1) nb.1.y) bs.zipIdx)

end Host

/-- The weights of a guest, with the shape it was told. -/
structure GuestModel (C K : Type) where
  shape : Shape
  weight : Arr C shape K

namespace Guest

variable (j : Fin S.N)

/-- `if output_dim > 2`. -/
def shapeOf (output_dim : ℕ) : Shape := if 2 < output_dim then some output_dim else none

/-- `fit`. -/
def fit {s : Shape} {m : ℕ} (weight : Arr (S.Columns (some j)) s K)
    (x : Fin m → S.Columns (some j) → K) (error : Arr (Fin m) s K) :
    Arr (S.Columns (some j)) s K :=
  let dw := fun c o => dotT x error c o / m + S.alpha * weight c o
  S.step weight dw

/-- `Plaintext_Guest.train`, for batch number `n`. -/
def train (n : ℕ) {m : ℕ} (x : Fin m → S.Columns (some j) → K)
    (M : GuestModel (S.Columns (some j)) K) : S.Net (GuestModel (S.Columns (some j)) K) :=
  sendHost ⟨.guest_z, n⟩ (.array M.shape m (dot x M.weight)) <|
  recvHost (Message.array? M.shape m) .ValueError ⟨.error, n⟩ fun error =>
  .ret { M with weight := fit S j M.weight x error }

/-- `Plaintext_Guest.__init__`. -/
def init : S.Net (GuestModel (S.Columns (some j)) K) :=
  recvHost Message.dim? .ValueError ⟨.output_dim, 0⟩ fun output_dim =>
  .ret { shape := shapeOf output_dim, weight := fun _ _ => 0 }

def run (bs : List (Batch (Fin S.columns) K)) : S.Net (GuestModel (S.Columns (some j)) K) :=
  (init S j).bind (each (fun nb => train S j nb.2 (S.rows (some j) nb.1)) bs.zipIdx)

end Guest

/-! ## One step -/

section Step

variable {S : Setup K}

/-- What the host holds of a model on the joined columns. -/
abbrev splitHost (M : Model (Fin S.columns) S.shape K) : Model (S.Columns none) S.shape K :=
  { weight := fun c => M.weight c.1, bias := M.bias }

/-- What a guest holds of it. -/
abbrev splitGuest (M : Model (Fin S.columns) S.shape K) (j : Fin S.N) :
    GuestModel (S.Columns (some j)) K :=
  { shape := S.shape, weight := fun c => M.weight c.1 }

def split (M : Model (Fin S.columns) S.shape K) : (i : Party S.N) →
    Result (Model (S.Columns none) S.shape K) (fun j => GuestModel (S.Columns (some j)) K) i :=
  both (splitHost M) (splitGuest M)

omit [Field K] in
/-- **The handshake**: the guests take the shape of the host for their own. -/
theorem shapeOf_output_dim : Guest.shapeOf (Host.output_dim S.shape) = S.shape := by
  have hmax := S.one_le_max_y
  by_cases hone : S.max_y = 1
  · simp [shape, hone, Host.output_dim, Guest.shapeOf]
  · have htwo : 2 < (S.max_y + 1).toNat := by omega
    simp [shape, hone, Host.output_dim, Guest.shapeOf, htwo]

/-- **The partial scores add up** to those of the central training. -/
theorem compute_z_split (M : Model (Fin S.columns) S.shape K) (b : Batch (Fin S.columns) K) :
    Host.compute_z S (splitHost M) (S.rows none b)
      ((List.finRange S.N).map fun j => dot (S.rows (some j) b) (splitGuest M j).weight) =
        fun r o => dot b.x M.weight r o + M.bias () o := by
  funext r o
  rw [dot, sum_owner S.owner]
  simp only [Host.compute_z, List.map_map]
  exact add_right_comm _ _ _

/-- The host finds the error of the central training. -/
theorem compute_error_split (s : Shape) (M : Model (Fin S.columns) s K)
    (b : Batch (Fin S.columns) K) :
    Host.compute_error S b.y s (fun r o => dot b.x M.weight r o + M.bias () o) =
      Central.error S s M b := by
  cases s <;> rfl

/-- **A central step is a step of all parties.** -/
theorem fit_split {M M' : Model (Fin S.columns) S.shape K} {b : Batch (Fin S.columns) K}
    (h : Central.fit S M b = .ok M') :
    ∃ error, Central.error S S.shape M b = .ok error ∧
      split M' = both (Host.fit S (splitHost M) (S.rows none b) error) fun j =>
        { shape := S.shape
          weight := Guest.fit S j (splitGuest M j).weight (S.rows (some j) b) error } := by
  obtain ⟨error, herror, hfit⟩ := Fallible.bind_eq_ok.mp h
  cases hfit
  exact ⟨error, herror, rfl⟩

/-! ## All steps -/

/-- **A batch**: the parties do together what the central training does. -/
theorem plays_train {M M' : Model (Fin S.columns) S.shape K} {b : Batch (Fin S.columns) K}
    (h : Central.fit S M b = .ok M') (n : ℕ) :
    Plays (together (Host.train S n (S.rows none b) b.y (splitHost M))
      fun j => Guest.train S j n (S.rows (some j) b) (splitGuest M j)) (split M') := by
  obtain ⟨error, herror, hfit⟩ := fit_split h
  refine guests_to_host (fun j => Message.array?_array _ _ _) ?_
  rw [compute_z_split, compute_error_split, herror, hfit]
  exact host_to_guests (fun j => Message.array?_array _ _ _) (plays_ret _ _)

/-- Any number of batches. -/
theorem plays_each {M M' : Model (Fin S.columns) S.shape K}
    {bs : List (Batch (Fin S.columns) K)} (n : ℕ) (h : bs.foldlM (Central.fit S) M = .ok M') :
    Plays (together
      (each (fun nb => Host.train S nb.2 (S.rows none nb.1) nb.1.y) (bs.zipIdx n) (splitHost M))
      fun j => each (fun nb => Guest.train S j nb.2 (S.rows (some j) nb.1)) (bs.zipIdx n)
        (splitGuest M j)) (split M') := by
  induction bs generalizing n M with
  | nil =>
      obtain rfl : M = M' := Except.ok.inj h
      exact plays_ret _ _
  | cons b bs ih =>
      obtain ⟨M₁, h₁, h⟩ := Fallible.foldlM_cons_eq_ok.mp h
      exact plays_bind (plays_train h₁ n) (ih (n + 1) h)

theorem plays_init :
    Plays (together (Host.init S) (Guest.init S)) (split (Central.init S)) := by
  refine host_to_guests (fun _ => rfl) ?_
  rw [shapeOf_output_dim]
  exact plays_ret _ _

/-- **The parties hold the columns of the centrally trained model**, after any number of batches,
in any order of their steps. -/
theorem training_refines {M : Model (Fin S.columns) S.shape K}
    {bs : List (Batch (Fin S.columns) K)} (h : Central.train S bs = .ok M) :
    RunsTogether Label.key (together (Host.run S bs) fun j => Guest.run S j bs) (split M) :=
  Plays.runsTogether (plays_bind plays_init (plays_each 0 h))

end Step

/-- The host and one guest with a column each, and binary labels. -/
def twoColumns : Setup ℚ where
  N := 1
  columns := 2
  owner := fun c => if c.val = 0 then none else some ⟨0, Nat.one_pos⟩
  y := [0, 1]
  max_y := 1
  learning_rate := 1
  alpha := 0
  sigmoid := fun z => z + 1 / 2
  softmax := fun _ z => z
  max_y_eq := rfl
  one_le_max_y := le_rfl

def oneRow : Batch (Fin 2) ℚ where
  rows := 1
  x := fun _ _ => 1
  y := fun _ => 1

theorem training_refines_twoColumns : ∃ M, Central.train twoColumns [oneRow] = .ok M ∧
    RunsTogether Label.key (together (Host.run twoColumns [oneRow])
      fun j => Guest.run twoColumns j [oneRow]) (split M) :=
  ⟨_, rfl, training_refines rfl⟩

end Setup

end Fediux.Vfl.Logistic
