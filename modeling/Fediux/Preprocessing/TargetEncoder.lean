import Fediux.Preprocessing.PcaTransformer

set_option autoImplicit false

/-! # The horizontal target encoder

`TargetEncoder.fit_transform` of `python/fediux/FL/preprocessing/encoder.py` for binary and
continuous targets, in exact arithmetic, after the categories and the target type are agreed on. The
encodings of all rows are those of the joined table. In the folds the server divides by the number
of the rows that are held out and takes the mean of all rows for that of the training rows
(`encoding_pooled_iff`).
-/

namespace Fediux.Preprocessing.Target

open Session Session.Prog Messaging Vfl
open Pca (divide divide_of_ne_zero)

inductive Key where
  | target_sum
  | n_samples
  | target_mean
  | y_train_sum
  | y_train_mean
  | y_sum_square_diff
  | feat_sums
  | feat_counts
  | feat_sum_squares
  | encodings
  deriving DecidableEq, Repr

inductive Err where
  | ValueError
  | TypeError
  deriving DecidableEq, Repr

/-! ## Rows and tables -/

/-- The categories of the features by their numbers, and the encoded target. -/
structure Row {d : ℕ} (n_categories : Fin d → ℕ) (K : Type) where
  x : (f : Fin d) → Fin (n_categories f)
  y : K

/-- A value for each category of each feature. -/
abbrev Table {d : ℕ} (n_categories : Fin d → ℕ) (V : Type) :=
  (f : Fin d) → Fin (n_categories f) → V

section Statistics

variable {d : ℕ} {n_categories : Fin d → ℕ} {K : Type} [Field K] [LinearOrder K]

def targets (rows : List (Row n_categories K)) : List K := rows.map Row.y

/-- The targets of the rows of a category. -/
def category (rows : List (Row n_categories K)) (f : Fin d) (c : Fin (n_categories f)) : List K :=
  targets (rows.filter fun r => r.x f = c)

def feat_sums (rows : List (Row n_categories K)) : Table n_categories K :=
  fun f c => (category rows f c).sum

def feat_counts (rows : List (Row n_categories K)) : Table n_categories K :=
  fun f c => (category rows f c).length

def feat_sum_squares (rows : List (Row n_categories K)) : Table n_categories K :=
  fun f c => Moments.sumSquares (category rows f c)

/-- The sum over the clients. -/
def total (tables : List (Table n_categories K)) : Table n_categories K :=
  fun f c => (tables.map fun t => t f c).sum

/-- `_fit_encoding` at a category. -/
def encodingSmooth (smooth y_mean sum count : K) : Option K :=
  divide (smooth * y_mean + sum) (smooth + count)

/-- `_fit_encoding_auto_smooth` at a category. -/
def encodingAuto (y_variance y_mean sum count sum_squares : K) : Option K :=
  let mean := divide sum count
  let sum_of_squared_diffs := (divide (sum ^ 2) count).map fun q => sum_squares - q
  if y_variance = 0 then some y_mean
  else do
    let m ← mean
    let s ← sum_of_squared_diffs
    let v ← divide s count
    let lambda ← divide (y_variance * count) (y_variance * count + v)
    return lambda * m + (1 - lambda) * y_mean

end Statistics

/-! ## The exchange -/

inductive Message {d : ℕ} (n_categories : Fin d → ℕ) (K : Type) where
  | nothing
  | number (x : K)
  | count (n : ℕ)
  | table (t : Table n_categories K)
  | encodings (e : Table n_categories (Option K))

namespace Message

variable {d : ℕ} {n_categories : Fin d → ℕ} {K : Type}

instance : Inhabited (Message n_categories K) := ⟨.nothing⟩

def number? : Message n_categories K → Option K
  | number x => some x
  | _ => none

def count? : Message n_categories K → Option ℕ
  | count n => some n
  | _ => none

def table? : Message n_categories K → Option (Table n_categories K)
  | table t => some t
  | _ => none

def encodings? : Message n_categories K → Option (Table n_categories (Option K))
  | encodings e => some e
  | _ => none

end Message

/-- What `cv.split` of scikit-learn returns, by the fold in which a row is held out. -/
structure Split (n n_splits : ℕ) where
  fold : Fin n → Fin n_splits
  le : n_splits ≤ n
  size : ∀ k, (List.finRange n).countP (fun r => fold r = k) =
    n / n_splits + if k.val < n % n_splits then 1 else 0

/-- Every fold holds a row out. -/
theorem Split.countP_pos {n n_splits : ℕ} (s : Split n n_splits) (h : 2 ≤ n_splits)
    (k : Fin n_splits) : 0 < (List.finRange n).countP fun r => s.fold r = k := by
  rw [s.size k]
  have hpos := Nat.div_pos s.le (by omega)
  omega

section Programs

variable {N d n n_splits : ℕ} {n_categories : Fin d → ℕ} {K : Type} [Field K] [LinearOrder K]

abbrev TargetNet (N : ℕ) {d : ℕ} (n_categories : Fin d → ℕ) (K α : Type) :=
  Prog (Party N × Key) (Message n_categories K) Err α

/-! ### Encodings -/

def fitEncodingClient (X : List (Row n_categories K)) :
    TargetNet N n_categories K (Table n_categories (Option K)) :=
  sendHost .feat_sums (.table (feat_sums X)) <|
  sendHost .feat_counts (.table (feat_counts X)) <|
  recvHost Message.encodings? .TypeError .encodings .ret

def fitEncodingServer (smooth y_mean : K) :
    TargetNet N n_categories K (Table n_categories (Option K)) :=
  recv_all Message.table? .TypeError .feat_sums fun client_feat_sums =>
  recv_all Message.table? .TypeError .feat_counts fun client_feat_counts =>
  let encodings : Table n_categories (Option K) := fun f c =>
    encodingSmooth smooth y_mean (total client_feat_sums f c) (total client_feat_counts f c)
  send_all .encodings (.encodings encodings) (.ret encodings)

def sumSquareDiff (y_mean : K) (y : List K) : K := (y.map fun t => (t - y_mean) ^ 2).sum

def fitEncodingAutoSmoothClient (X : List (Row n_categories K)) (y_mean : K) :
    TargetNet N n_categories K (Table n_categories (Option K)) :=
  sendHost .y_sum_square_diff (.number (sumSquareDiff y_mean (targets X))) <|
  sendHost .feat_sums (.table (feat_sums X)) <|
  sendHost .feat_counts (.table (feat_counts X)) <|
  sendHost .feat_sum_squares (.table (feat_sum_squares X)) <|
  recvHost Message.encodings? .TypeError .encodings .ret

/-- `n_samples` is positive wherever this is called. -/
def fitEncodingAutoSmoothServer (y_mean : K) (n_samples : ℕ) :
    TargetNet N n_categories K (Table n_categories (Option K)) :=
  recv_all Message.number? .TypeError .y_sum_square_diff fun y_sum_square_diff =>
  let y_variance := y_sum_square_diff.sum / n_samples
  recv_all Message.table? .TypeError .feat_sums fun client_feat_sums =>
  recv_all Message.table? .TypeError .feat_counts fun client_feat_counts =>
  recv_all Message.table? .TypeError .feat_sum_squares fun client_feat_sum_squares =>
  let encodings : Table n_categories (Option K) := fun f c =>
    encodingAuto y_variance y_mean (total client_feat_sums f c) (total client_feat_counts f c)
      (total client_feat_sum_squares f c)
  send_all .encodings (.encodings encodings) (.ret encodings)

/-- `_fit_encoding_binary_or_continuous`; `smooth` is `none` for `"auto"`. -/
def fitEncodingBinaryOrContinuousClient (smooth : Option K) (X : List (Row n_categories K))
    (target_mean : K) : TargetNet N n_categories K (Table n_categories (Option K)) :=
  match smooth with
  | none => fitEncodingAutoSmoothClient X target_mean
  | some _ => fitEncodingClient X

def fitEncodingBinaryOrContinuousServer (smooth : Option K) (target_mean : K) (n_samples : ℕ) :
    TargetNet N n_categories K (Table n_categories (Option K)) :=
  match smooth with
  | none => fitEncodingAutoSmoothServer target_mean n_samples
  | some smooth => fitEncodingServer smooth target_mean

/-! ### All rows -/

def fitEncodingsAllClient (smooth : Option K) (X : List (Row n_categories K)) :
    TargetNet N n_categories K (Table n_categories (Option K)) :=
  sendHost .target_sum (.number (targets X).sum) <|
  sendHost .n_samples (.count X.length) <|
  recvHost Message.number? .TypeError .target_mean fun target_mean =>
  fitEncodingBinaryOrContinuousClient smooth X target_mean

/-- What `_fit_encodings_all` leaves at the server. -/
structure Fitted {d : ℕ} (n_categories : Fin d → ℕ) (K : Type) where
  encodings_ : Table n_categories (Option K)
  target_mean_ : K
  client_n_samples : List ℕ

def fitEncodingsAllServer (smooth : Option K) : TargetNet N n_categories K (Fitted n_categories K) :=
  recv_all Message.number? .TypeError .target_sum fun target_sum =>
  recv_all Message.count? .TypeError .n_samples fun client_n_samples =>
  let n_samples := client_n_samples.sum
  let target_mean := target_sum.sum / n_samples
  send_all .target_mean (.number target_mean) <|
  (fitEncodingBinaryOrContinuousServer smooth target_mean n_samples).bind fun encodings =>
  .ret ⟨encodings, target_mean, client_n_samples⟩

/-! ### Folds -/

/-- The first `n % n_splits` folds have one row more than the others. -/
def get_n_samples_per_fold (client_n_samples : List ℕ) (n_splits fold_idx : ℕ) : ℕ :=
  client_n_samples.foldl
    (fun n_samples n => n_samples + n / n_splits + if fold_idx < n % n_splits then 1 else 0) 0

/-- The rows of a client that are not held out. -/
def train (row : Fin n → Row n_categories K) (fold : Fin n → Fin n_splits) (k : Fin n_splits) :
    List (Row n_categories K) :=
  ((List.finRange n).filter fun r => fold r ≠ k).map row

/-- `_transform_X_ordinal`, where all categories are known. -/
def transformOrdinal (row : Fin n → Row n_categories K) (fold : Fin n → Fin n_splits)
    (X_out : Fin n → Fin d → Option K) (k : Fin n_splits)
    (encodings : Table n_categories (Option K)) : Fin n → Fin d → Option K :=
  fun r f => if fold r = k then encodings f ((row r).x f) else X_out r f

/-- The loop over the folds. -/
def foldsClient (smooth : Option K) (row : Fin n → Row n_categories K)
    (fold : Fin n → Fin n_splits) :
    List (Fin n_splits) → (Fin n → Fin d → Option K) →
      TargetNet N n_categories K (Fin n → Fin d → Option K)
  | [], X_out => .ret X_out
  | k :: ks, X_out =>
      sendHost .y_train_sum (.number (targets (train row fold k)).sum) <|
      recvHost Message.number? .TypeError .y_train_mean fun y_train_mean =>
      (fitEncodingBinaryOrContinuousClient smooth (train row fold k) y_train_mean).bind
        fun encodings => foldsClient smooth row fold ks (transformOrdinal row fold X_out k encodings)

def foldsServer (smooth : Option K) (fitted : Fitted n_categories K) :
    List (Fin n_splits) → TargetNet N n_categories K Unit
  | [] => .ret ()
  | k :: ks =>
      recv_all Message.number? .TypeError .y_train_sum fun y_train_sum =>
      let n_samples := get_n_samples_per_fold fitted.client_n_samples n_splits k
      let y_train_mean := y_train_sum.sum / n_samples
      send_all .y_train_mean (.number y_train_mean) <|
      (fitEncodingBinaryOrContinuousServer smooth fitted.target_mean_ n_samples).bind fun _ =>
      foldsServer smooth fitted ks

/-- `fit_transform` of a client; `split` is `none` where scikit-learn raises an error. -/
def fitTransformClient (smooth : Option K) (row : Fin n → Row n_categories K)
    (split : Option (Split n n_splits)) :
    TargetNet N n_categories K (Table n_categories (Option K) × (Fin n → Fin d → Option K)) :=
  (fitEncodingsAllClient smooth ((List.finRange n).map row)).bind fun encodings_ =>
  match split with
  | none => .raise .ValueError
  | some s =>
      (foldsClient smooth row s.fold (List.finRange n_splits) fun _ _ => none).bind fun X_out =>
      .ret (encodings_, X_out)

def fitTransformServer (smooth : Option K) (n_splits : ℕ) :
    TargetNet N n_categories K (Table n_categories (Option K)) :=
  (fitEncodingsAllServer smooth).bind fun fitted =>
  (foldsServer smooth fitted (List.finRange n_splits)).bind fun _ =>
  .ret fitted.encodings_

end Programs

/-! ## The pooled encoding -/

section Pooled

variable {d : ℕ} {n_categories : Fin d → ℕ} {K : Type} [Field K] [LinearOrder K]

/-- A mean `m` of `n` values with the variance `w`, drawn to the prior mean. -/
def shrunk (v prior n m w : K) : K :=
  let lambda := v * n / (v * n + w)
  lambda * m + (1 - lambda) * prior

/-- The smoothed mean of the targets of a category, for the prior mean of all rows. A category
without rows, which only the prior can encode, has the prior mean. -/
def smoothedMean (smooth : Option K) (rows : List (Row n_categories K)) (f : Fin d)
    (c : Fin (n_categories f)) : K :=
  let prior := Moments.mean (targets rows)
  let l := category rows f c
  match smooth with
  | some s => if s + l.length = 0 then prior else (s * prior + l.sum) / (s + l.length)
  | none =>
      let v := Moments.variance (targets rows)
      if l = [] ∨ v = 0 then prior
      else shrunk v prior l.length (Moments.mean l) (Moments.variance l)

end Pooled

/-- The clients' rows, the parameters and the splits. The categories are those that occur. -/
structure Setup (K : Type) [Field K] [LinearOrder K] where
  N : ℕ
  N_pos : 0 < N
  d : ℕ
  d_pos : 0 < d
  n_categories : Fin d → ℕ
  rows : Fin N → ℕ
  rows_pos : ∀ j, 0 < rows j
  row : (j : Fin N) → Fin (rows j) → Row n_categories K
  occurs : ∀ f c, ∃ j r, (row j r).x f = c
  smooth : Option K
  smooth_nonneg : ∀ s ∈ smooth, 0 ≤ s
  n_splits : ℕ
  two_le : 2 ≤ n_splits
  split : (j : Fin N) → Option (Split (rows j) n_splits)

namespace Setup

variable {K : Type} [Field K] [LinearOrder K] (S : Setup K)

def data (j : Fin S.N) : List (Row S.n_categories K) := (List.finRange (S.rows j)).map (S.row j)

/-- The joined table. -/
def joined : List (Row S.n_categories K) := (List.finRange S.N).flatMap S.data

/-- A row is held out in a fold. -/
def HeldOut (k : Fin S.n_splits) (j : Fin S.N) (r : Fin (S.rows j)) : Prop :=
  ∃ s ∈ S.split j, s.fold r = k

/-- The training rows of a client. -/
def trainingOf (k : Fin S.n_splits) (j : Fin S.N) : List (Row S.n_categories K) :=
  match S.split j with
  | none => []
  | some s => train (S.row j) s.fold k

/-- The training rows of a fold. -/
def training (k : Fin S.n_splits) : List (Row S.n_categories K) :=
  (List.finRange S.N).flatMap (S.trainingOf k)

/-- The number of the rows that are held out. -/
def heldOutCount (k : Fin S.n_splits) : ℕ :=
  ((List.finRange S.N).map fun j => ((S.split j).elim 0
    fun s => (List.finRange (S.rows j)).countP fun r => s.fold r = k)).sum

/-! ### What the server computes -/

/-- The encodings of joined rows with a prior mean, the mean that the clients have received and the
number that the server divides by. -/
def encode (X : List (Row S.n_categories K)) (target_mean y_mean : K) (n_samples : ℕ) :
    Table S.n_categories (Option K) :=
  fun f c =>
    let l := category X f c
    match S.smooth with
    | none => encodingAuto (sumSquareDiff y_mean (targets X) / n_samples) target_mean l.sum l.length
        (Moments.sumSquares l)
    | some smooth => encodingSmooth smooth target_mean l.sum l.length

def target_mean : K := Moments.mean (targets S.joined)

def y_train_mean (k : Fin S.n_splits) : K := (targets (S.training k)).sum / S.heldOutCount k

def foldEncodings (k : Fin S.n_splits) : Table S.n_categories (Option K) :=
  S.encode (S.training k) S.target_mean (S.y_train_mean k) (S.heldOutCount k)

/-- The number by which the sum of a category is divided. -/
def divisor (k : Fin S.n_splits) (f : Fin S.d) (c : Fin (S.n_categories f)) : K :=
  S.smooth.getD 0 + (category (S.training k) f c).length

abbrev Out (j : Fin S.N) : Type :=
  Table S.n_categories (Option K) × (Fin (S.rows j) → Fin S.d → Option K)

abbrev programs : (i : Party S.N) →
    TargetNet S.N S.n_categories K (Result (Table S.n_categories (Option K)) S.Out i) :=
  together (fitTransformServer S.smooth S.n_splits) fun j =>
    fitTransformClient S.smooth (S.row j) (S.split j)

/-- No division by zero occurs; in any order of the steps all parties come to the encodings of the
joined table, and every row that is held out in a fold to those of the training rows. -/
structure Pooled : Prop where
  defined : ∀ k f c, S.divisor k f c ≠ 0 ∧ (S.foldEncodings k f c).isSome = true
  encoded : ∃ a, RunsTogether id S.programs a ∧
    (∀ f c, a none f c = some (smoothedMean S.smooth S.joined f c)) ∧
    ∀ j, (∀ f c, (a (some j)).1 f c = some (smoothedMean S.smooth S.joined f c)) ∧
      ∀ k r, S.HeldOut k j r → ∀ f,
        (a (some j)).2 r f = some (smoothedMean S.smooth (S.training k) f ((S.row j r).x f))

/-! ### When it is right -/

/-- Every category has a training row. -/
def Covered (k : Fin S.n_splits) : Prop := ∀ f c, category (S.training k) f c ≠ []

/-- The wrong mean and the wrong number of rows do not matter for a category. -/
def AutoRight (k : Fin S.n_splits) (f : Fin S.d) (c : Fin (S.n_categories f)) : Prop :=
  let y := targets (S.training k)
  let l := category (S.training k) f c
  let ratio : K := y.length / S.heldOutCount k
  let v := Moments.variance y
  let v' := ratio * (v + (Moments.mean y * (1 - ratio)) ^ 2)
  if v' = 0 then S.target_mean = Moments.mean y
  else
    Moments.variance l = 0 ∨
      (v' - v) * l.length * (Moments.mean l - Moments.mean y) +
        (v * l.length + Moments.variance l) * (S.target_mean - Moments.mean y) = 0

def RightFold (k : Fin S.n_splits) : Prop :=
  match S.smooth with
  | some s => (s = 0 → S.Covered k) ∧
      (s = 0 ∨ S.target_mean = Moments.mean (targets (S.training k)))
  | none => S.Covered k ∧ ∀ j r, S.HeldOut k j r → ∀ f, S.AutoRight k f ((S.row j r).x f)

/-! ### The sums of the clients -/

section Sums

variable {d : ℕ} {n_categories : Fin d → ℕ} {β : Type} (bs : List β)
  (X : β → List (Row n_categories K))

omit [LinearOrder K] [Field K] in
theorem targets_flatMap : targets (bs.flatMap X) = bs.flatMap fun b => targets (X b) :=
  List.map_flatMap

omit [LinearOrder K] [Field K] in
theorem category_flatMap (f : Fin d) (c : Fin (n_categories f)) :
    category (bs.flatMap X) f c = bs.flatMap fun b => category (X b) f c := by
  unfold category
  rw [List.filter_flatMap, targets_flatMap]

omit [LinearOrder K] in
theorem total_feat_sums :
    total (bs.map fun b => feat_sums (X b)) = feat_sums (bs.flatMap X) := by
  funext f c
  rw [total, feat_sums, category_flatMap, Moments.sum_flatMap, List.map_map]
  rfl

omit [LinearOrder K] in
theorem total_feat_counts :
    total (bs.map fun b => feat_counts (X b)) = feat_counts (bs.flatMap X) := by
  funext f c
  rw [total, feat_counts, category_flatMap, Moments.length_flatMap_cast, List.map_map]
  rfl

omit [LinearOrder K] in
theorem total_feat_sum_squares :
    total (bs.map fun b => feat_sum_squares (X b)) = feat_sum_squares (bs.flatMap X) := by
  funext f c
  rw [total, feat_sum_squares, category_flatMap, Moments.sumSquares_flatMap, List.map_map]
  rfl

omit [LinearOrder K] in
theorem sum_sumSquareDiff (m : K) :
    (bs.map fun b => sumSquareDiff m (targets (X b))).sum =
      sumSquareDiff m (targets (bs.flatMap X)) := by
  rw [targets_flatMap, sumSquareDiff, List.map_flatMap, Moments.sum_flatMap]
  rfl

end Sums

/-- **The exchange of an encoding**: the server computes it for the joined rows. -/
theorem plays_encode (X : Fin S.N → List (Row S.n_categories K)) (target_mean y_mean : K)
    (n_samples : ℕ) :
    Plays
      (together (fitEncodingBinaryOrContinuousServer S.smooth target_mean n_samples) fun j =>
        fitEncodingBinaryOrContinuousClient S.smooth (X j) y_mean)
      (both (S.encode ((List.finRange S.N).flatMap X) target_mean y_mean n_samples) fun _ =>
        S.encode ((List.finRange S.N).flatMap X) target_mean y_mean n_samples) := by
  unfold encode fitEncodingBinaryOrContinuousServer fitEncodingBinaryOrContinuousClient
  cases S.smooth with
  | none =>
      refine guests_to_host (fun _ => rfl) (guests_to_host (fun _ => rfl)
        (guests_to_host (fun _ => rfl) (guests_to_host (fun _ => rfl) ?_)))
      rw [sum_sumSquareDiff, total_feat_sums, total_feat_counts, total_feat_sum_squares]
      exact host_to_guests (fun _ => rfl) (plays_ret _ _)
  | some smooth =>
      refine guests_to_host (fun _ => rfl) (guests_to_host (fun _ => rfl) ?_)
      rw [total_feat_sums, total_feat_counts]
      exact host_to_guests (fun _ => rfl) (plays_ret _ _)

theorem length_data (j : Fin S.N) : (S.data j).length = S.rows j := by
  rw [data, List.length_map, List.length_finRange]

/-- What the server has after the exchange of all rows. -/
def fittedAll : Fitted S.n_categories K where
  encodings_ := S.encode S.joined S.target_mean S.target_mean S.joined.length
  target_mean_ := S.target_mean
  client_n_samples := (List.finRange S.N).map S.rows

theorem plays_fitEncodingsAll :
    Plays
      (together (fitEncodingsAllServer S.smooth) fun j => fitEncodingsAllClient S.smooth (S.data j))
      (both S.fittedAll fun _ => S.fittedAll.encodings_) := by
  have hlength : ((List.finRange S.N).map fun j => (S.data j).length).sum = S.joined.length := by
    rw [joined, List.length_flatMap]
  have hmean : ((List.finRange S.N).map fun j => (targets (S.data j)).sum).sum /
      (S.joined.length : K) = S.target_mean := by
    rw [target_mean, Moments.mean, joined, targets_flatMap, Moments.sum_flatMap,
      ← targets_flatMap, targets, List.length_map]
  refine guests_to_host (fun _ => rfl) (guests_to_host (fun _ => rfl) ?_)
  dsimp only
  rw [hlength, hmean]
  refine host_to_guests (fun _ => rfl) ?_
  have hencode := S.plays_encode S.data S.target_mean S.target_mean S.joined.length
  have hlater : Plays
      (together ((fitEncodingBinaryOrContinuousServer S.smooth S.target_mean S.joined.length).bind
        fun encodings => .ret ⟨encodings, S.target_mean, (List.finRange S.N).map S.rows⟩) fun j =>
          (fitEncodingBinaryOrContinuousClient S.smooth (S.data j) S.target_mean).bind .ret)
      (both S.fittedAll fun _ => S.fittedAll.encodings_) := plays_bind hencode (plays_ret _ _)
  simp only [bind_ret] at hlater
  simp only [length_data]
  exact hlater

/-! ### The folds -/

theorem get_n_samples_per_fold_eq (ns : List ℕ) (n_splits k : ℕ) :
    get_n_samples_per_fold ns n_splits k =
      (ns.map fun n => n / n_splits + if k < n % n_splits then 1 else 0).sum := by
  have hfold : ∀ acc : ℕ, ns.foldl (fun n_samples n =>
      n_samples + n / n_splits + if k < n % n_splits then 1 else 0) acc =
        acc + (ns.map fun n => n / n_splits + if k < n % n_splits then 1 else 0).sum := by
    induction ns with
    | nil =>
        intro acc
        rfl
    | cons n ns ih =>
        intro acc
        rw [List.foldl_cons, ih, List.map_cons, List.sum_cons]
        omega
  rw [get_n_samples_per_fold, hfold, Nat.zero_add]

omit [Field K] [LinearOrder K] in
/-- The value of the last fold in which the row was held out. -/
theorem foldl_transformOrdinal {n d n_splits : ℕ} {n_categories : Fin d → ℕ}
    (row : Fin n → Row n_categories K) (fold : Fin n → Fin n_splits)
    (encodings : Fin n_splits → Table n_categories (Option K)) (ks : List (Fin n_splits))
    (X_out : Fin n → Fin d → Option K) (r : Fin n) (f : Fin d) :
    ks.foldl (fun X_out k => transformOrdinal row fold X_out k (encodings k)) X_out r f =
      if fold r ∈ ks then encodings (fold r) f ((row r).x f) else X_out r f := by
  induction ks generalizing X_out with
  | nil => simp
  | cons k ks ih =>
      rw [List.foldl_cons, ih, transformOrdinal]
      by_cases hmem : fold r ∈ ks
      · rw [if_pos hmem, if_pos (List.mem_cons_of_mem k hmem)]
      · rw [if_neg hmem]
        by_cases hk : fold r = k
        · rw [if_pos hk, if_pos (hk ▸ List.mem_cons_self), hk]
        · rw [if_neg hk, if_neg fun h => (List.mem_cons.mp h).elim hk hmem]

section Splits

variable {S} {s : (j : Fin S.N) → Split (S.rows j) S.n_splits} (hs : ∀ j, S.split j = some (s j))
include hs

theorem trainingOf_eq (k : Fin S.n_splits) (j : Fin S.N) :
    S.trainingOf k j = train (S.row j) (s j).fold k := by
  rw [trainingOf, hs]

theorem training_eq (k : Fin S.n_splits) : S.training k =
    (List.finRange S.N).flatMap fun j => train (S.row j) (s j).fold k := by
  rw [training]
  exact congrArg (fun X => (List.finRange S.N).flatMap X) (funext fun j => trainingOf_eq hs k j)

/-- The number of the server is that of the rows that are held out. -/
theorem n_samples_eq (k : Fin S.n_splits) :
    get_n_samples_per_fold ((List.finRange S.N).map S.rows) S.n_splits k = S.heldOutCount k := by
  rw [get_n_samples_per_fold_eq, heldOutCount, List.map_map]
  refine congrArg List.sum (List.map_congr_left fun j _ => ?_)
  rw [hs]
  exact ((s j).size k).symm

theorem plays_folds (ks : List (Fin S.n_splits))
    (X_out : (j : Fin S.N) → Fin (S.rows j) → Fin S.d → Option K) :
    Plays
      (together (foldsServer S.smooth S.fittedAll ks) fun j =>
        foldsClient S.smooth (S.row j) (s j).fold ks (X_out j))
      (both () fun j => ks.foldl
        (fun X_out k => transformOrdinal (S.row j) (s j).fold X_out k (S.foldEncodings k))
        (X_out j)) := by
  induction ks generalizing X_out with
  | nil => exact plays_ret _ _
  | cons k ks ih =>
      have hsum : ((List.finRange S.N).map fun j =>
          (targets (train (S.row j) (s j).fold k)).sum).sum = (targets (S.training k)).sum := by
        rw [training_eq hs, targets_flatMap, Moments.sum_flatMap]
      have hn : get_n_samples_per_fold S.fittedAll.client_n_samples S.n_splits k =
          S.heldOutCount k := n_samples_eq hs k
      refine guests_to_host (fun _ => rfl) ?_
      dsimp only
      rw [hsum, hn]
      refine host_to_guests (fun _ => rfl) ?_
      have hencode := S.plays_encode (fun j => train (S.row j) (s j).fold k) S.target_mean
        (S.y_train_mean k) (S.heldOutCount k)
      rw [← training_eq hs] at hencode
      exact plays_bind hencode (ih _)

/-- What the parties come to. -/
theorem plays_fitTransform :
    Plays S.programs (both S.fittedAll.encodings_ fun j => (S.fittedAll.encodings_,
      fun r f => S.foldEncodings ((s j).fold r) f ((S.row j r).x f))) := by
  refine plays_bind S.plays_fitEncodingsAll ?_
  simp only [hs]
  refine plays_bind (plays_folds hs (List.finRange S.n_splits) fun _ _ _ => none) ?_
  have hout : ∀ j, (List.finRange S.n_splits).foldl (fun X_out k =>
      transformOrdinal (S.row j) (s j).fold X_out k (S.foldEncodings k)) (fun _ _ => none) =
        fun r f => S.foldEncodings ((s j).fold r) f ((S.row j r).x f) := by
    intro j
    funext r f
    rw [foldl_transformOrdinal, if_pos (List.mem_finRange _)]
  simp only [hout]
  exact plays_ret _ _

end Splits

/-- A client that cannot be split raises an error. -/
theorem not_pooled_of_no_split {j : Fin S.N} (hj : S.split j = none) : ¬ S.Pooled := by
  rintro ⟨-, a, hruns, -⟩
  refine hruns.ne_raise (exchanges_bind S.plays_fitEncodingsAll) (some j) .ValueError ?_
  simp only [together, hj]

/-! ### An encoding -/

section Encoding

theorem encodingSmooth_eq {s : K} {prior sum count : K} (h : s + count ≠ 0) :
    encodingSmooth s prior sum count = some ((s * prior + sum) / (s + count)) :=
  divide_of_ne_zero h

omit [LinearOrder K] in
theorem shrunk_eq {v prior n m w : K} (h : v * n + w ≠ 0) :
    shrunk v prior n m w = (v * n * m + w * prior) / (v * n + w) := by
  unfold shrunk
  field_simp
  ring

variable [IsStrictOrderedRing K]

theorem length_cast_pos {l : List K} (h : l ≠ []) : (0 : K) < l.length :=
  Nat.cast_pos.mpr (List.length_pos_iff.mpr h)

/-- The mean of a category, drawn to the prior mean. -/
theorem encodingAuto_eq {l : List K} (hl : l ≠ []) {v : K} (hv : 0 ≤ v) (prior : K) :
    encodingAuto v prior l.sum l.length (Moments.sumSquares l) =
      some (if v = 0 then prior
        else shrunk v prior l.length (Moments.mean l) (Moments.variance l)) := by
  have hlen := length_cast_pos hl
  unfold encodingAuto
  by_cases hzero : v = 0
  · rw [if_pos hzero, if_pos hzero]
  · have hpos : 0 < v * l.length + Moments.variance l :=
      add_pos_of_pos_of_nonneg (mul_pos (lt_of_le_of_ne hv (Ne.symm hzero)) hlen)
        (Moments.variance_nonneg l)
    have hvariance : (Moments.sumSquares l - l.sum ^ 2 / l.length) / l.length =
        Moments.variance l := by
      rw [Moments.variance_eq hl]
      field_simp
    rw [if_neg hzero, if_neg hzero]
    simp only [divide_of_ne_zero hlen.ne', Option.map_some]
    show (divide _ _).bind _ = _
    rw [hvariance, divide_of_ne_zero hpos.ne']
    rfl

/-- Two prior means and two variances. -/
theorem shrunk_eq_iff {v v' prior prior' n m w : K} (hn : 0 < n) (hv : 0 < v) (hv' : 0 < v')
    (hw : 0 ≤ w) :
    shrunk v' prior' n m w = shrunk v prior n m w ↔
      w = 0 ∨ (v' - v) * n * (m - prior) + (v * n + w) * (prior' - prior) = 0 := by
  have hpos : v * n + w ≠ 0 := (add_pos_of_pos_of_nonneg (mul_pos hv hn) hw).ne'
  have hpos' : v' * n + w ≠ 0 := (add_pos_of_pos_of_nonneg (mul_pos hv' hn) hw).ne'
  have hcross : (v' * n * m + w * prior') * (v * n + w) - (v * n * m + w * prior) * (v' * n + w) =
      w * ((v' - v) * n * (m - prior) + (v * n + w) * (prior' - prior)) := by ring
  rw [shrunk_eq hpos, shrunk_eq hpos', div_eq_div_iff hpos' hpos, ← sub_eq_zero, hcross,
    mul_eq_zero]

end Encoding

/-! ### All rows -/

theorem category_joined_ne_nil (f : Fin S.d) (c : Fin (S.n_categories f)) :
    category S.joined f c ≠ [] := by
  obtain ⟨j, r, hc⟩ := S.occurs f c
  have hmem : S.row j r ∈ S.joined :=
    List.mem_flatMap.mpr ⟨j, List.mem_finRange j, List.mem_map.mpr ⟨r, List.mem_finRange r, rfl⟩⟩
  exact List.ne_nil_of_mem
    (List.mem_map.mpr ⟨S.row j r, List.mem_filter.mpr ⟨hmem, decide_eq_true hc⟩, rfl⟩)

/-- **The encodings of all rows** are those of the joined table. -/
theorem encodings_eq [IsStrictOrderedRing K] (f : Fin S.d) (c : Fin (S.n_categories f)) :
    S.fittedAll.encodings_ f c = some (smoothedMean S.smooth S.joined f c) := by
  have hl := S.category_joined_ne_nil f c
  show S.encode S.joined S.target_mean S.target_mean S.joined.length f c = _
  unfold encode smoothedMean
  cases hsmooth : S.smooth with
  | none =>
      have hvariance : sumSquareDiff S.target_mean (targets S.joined) / S.joined.length =
          Moments.variance (targets S.joined) := by
        rw [Moments.variance, targets, List.length_map]
        rfl
      dsimp only
      rw [hvariance, encodingAuto_eq hl (Moments.variance_nonneg _)]
      simp only [hl, false_or]
      rfl
  | some s =>
      have hs : 0 ≤ s := S.smooth_nonneg s hsmooth
      have hpos : s + (category S.joined f c).length ≠ 0 :=
        (add_pos_of_nonneg_of_pos hs (length_cast_pos hl)).ne'
      dsimp only
      rw [encodingSmooth_eq hpos, if_neg hpos]
      rfl

/-! ### The encodings of a fold -/

/-- No division by zero occurs in a fold, and the held-out rows are encoded by the training rows. -/
def FoldPooled (k : Fin S.n_splits) : Prop :=
  (∀ f c, S.divisor k f c ≠ 0 ∧ (S.foldEncodings k f c).isSome = true) ∧
    ∀ j r, S.HeldOut k j r → ∀ f, S.foldEncodings k f ((S.row j r).x f) =
      some (smoothedMean S.smooth (S.training k) f ((S.row j r).x f))

section Fold

variable {S} {k : Fin S.n_splits}

section HeldOutRows

variable {s : (j : Fin S.N) → Split (S.rows j) S.n_splits} (hs : ∀ j, S.split j = some (s j))
include hs

theorem exists_heldOut (k : Fin S.n_splits) : ∃ j r, S.HeldOut k j r := by
  obtain ⟨r, -, hr⟩ := List.countP_pos_iff.mp ((s ⟨0, S.N_pos⟩).countP_pos S.two_le k)
  exact ⟨_, r, s _, hs _, of_decide_eq_true hr⟩

theorem heldOutCount_pos (k : Fin S.n_splits) : 0 < S.heldOutCount k := by
  have hle := List.single_le_sum (fun _ _ => Nat.zero_le _) _
    (List.mem_map_of_mem (f := fun j => ((S.split j).elim 0
      fun s => (List.finRange (S.rows j)).countP fun r => s.fold r = k))
      (List.mem_finRange (⟨0, S.N_pos⟩ : Fin S.N)))
  have hpos := (s ⟨0, S.N_pos⟩).countP_pos S.two_le k
  rw [hs] at hle
  exact Nat.lt_of_lt_of_le hpos hle

end HeldOutRows

/-! #### A smoothing parameter -/

section Smooth

variable {s : K} (hsmooth : S.smooth = some s) {f : Fin S.d} {c : Fin (S.n_categories f)}
  (hdivisor : S.divisor k f c ≠ 0)
include hsmooth hdivisor

theorem divisor_of_smooth : s + (category (S.training k) f c).length ≠ 0 := by
  rwa [divisor, hsmooth] at hdivisor

theorem foldEncodings_of_smooth : S.foldEncodings k f c =
    some ((s * S.target_mean + (category (S.training k) f c).sum) /
      (s + (category (S.training k) f c).length)) := by
  rw [foldEncodings, encode, hsmooth]
  exact encodingSmooth_eq (divisor_of_smooth hsmooth hdivisor)

/-- The prior mean matters if the sums are smoothed. -/
theorem foldEncodings_of_smooth_eq_iff :
    S.foldEncodings k f c = some (smoothedMean S.smooth (S.training k) f c) ↔
      s = 0 ∨ S.target_mean = Moments.mean (targets (S.training k)) := by
  have hpos := divisor_of_smooth hsmooth hdivisor
  have hmean : smoothedMean S.smooth (S.training k) f c =
      (s * Moments.mean (targets (S.training k)) + (category (S.training k) f c).sum) /
        (s + (category (S.training k) f c).length) := by
    unfold smoothedMean
    rw [hsmooth]
    exact if_neg hpos
  rw [foldEncodings_of_smooth hsmooth hdivisor, hmean, Option.some_inj, div_left_inj' hpos,
    add_left_inj, mul_eq_mul_left_iff, or_comm]

end Smooth

theorem smooth_getD_nonneg : 0 ≤ S.smooth.getD 0 := by
  cases hsmooth : S.smooth with
  | none => exact le_rfl
  | some s => exact S.smooth_nonneg s hsmooth

variable [IsStrictOrderedRing K]

theorem divisor_ne_zero_iff (f : Fin S.d) (c : Fin (S.n_categories f)) :
    S.divisor k f c ≠ 0 ↔ (S.smooth.getD 0 = 0 → category (S.training k) f c ≠ []) := by
  rw [divisor, ne_eq, add_eq_zero_iff_of_nonneg smooth_getD_nonneg (Nat.cast_nonneg _),
    Nat.cast_eq_zero, List.length_eq_zero_iff, not_and]

theorem divisors_iff :
    (∀ f c, S.divisor k f c ≠ 0) ↔ (S.smooth.getD 0 = 0 → S.Covered k) := by
  simp only [divisor_ne_zero_iff]
  exact ⟨fun h hzero f c => h f c hzero, fun h f c hzero => h hzero f c⟩

theorem foldPooled_of_smooth {s : K} (hsmooth : S.smooth = some s)
    (hheld : ∃ j r, S.HeldOut k j r) :
    S.FoldPooled k ↔ (s = 0 → S.Covered k) ∧
      (s = 0 ∨ S.target_mean = Moments.mean (targets (S.training k))) := by
  have hdivisors : (∀ f c, S.divisor k f c ≠ 0) ↔ (s = 0 → S.Covered k) := by
    rw [divisors_iff, hsmooth]
    rfl
  rw [← hdivisors]
  constructor
  · rintro ⟨hdefined, hencoded⟩
    obtain ⟨j, r, hr⟩ := hheld
    refine ⟨fun f c => (hdefined f c).1, ?_⟩
    exact (foldEncodings_of_smooth_eq_iff hsmooth (hdefined _ _).1).mp
      (hencoded j r hr ⟨0, S.d_pos⟩)
  · rintro ⟨hdivisor, hprior⟩
    refine ⟨fun f c => ⟨hdivisor f c, ?_⟩, fun j r _ f => ?_⟩
    · rw [foldEncodings_of_smooth hsmooth (hdivisor f c)]
      rfl
    · exact (foldEncodings_of_smooth_eq_iff hsmooth (hdivisor _ _)).mpr hprior

/-! #### Automatic smoothing -/

section Auto

/-- The variance of the server, from that of the training rows. -/
theorem y_variance_eq (hne : targets (S.training k) ≠ []) :
    sumSquareDiff (S.y_train_mean k) (targets (S.training k)) / (S.heldOutCount k : K) =
      (targets (S.training k)).length / S.heldOutCount k *
        (Moments.variance (targets (S.training k)) + (Moments.mean (targets (S.training k)) *
          (1 - (targets (S.training k)).length / S.heldOutCount k)) ^ 2) := by
  have hlen := length_cast_pos (K := K) hne
  have hmean : S.y_train_mean k = Moments.mean (targets (S.training k)) *
      ((targets (S.training k)).length / S.heldOutCount k) := by
    rw [y_train_mean, Moments.mean]
    field_simp
  rw [sumSquareDiff, Moments.sum_map_sub_sq_eq hne, hmean]
  ring

omit [IsStrictOrderedRing K] in
theorem targets_ne_nil (hcovered : S.Covered k) : targets (S.training k) ≠ [] := by
  have hcategory := hcovered ⟨0, S.d_pos⟩
    ((S.row ⟨0, S.N_pos⟩ ⟨0, S.rows_pos ⟨0, S.N_pos⟩⟩).x ⟨0, S.d_pos⟩)
  intro hnil
  rw [targets, List.map_eq_nil_iff] at hnil
  rw [category, hnil] at hcategory
  exact hcategory rfl

/-- Where all training rows have the same target, the categories have it as well. -/
theorem category_of_variance_zero {X : List (Row S.n_categories K)}
    (hzero : Moments.variance (targets X) = 0) {f : Fin S.d} {c : Fin (S.n_categories f)}
    (hl : category X f c ≠ []) :
    Moments.variance (category X f c) = 0 ∧
      Moments.mean (category X f c) = Moments.mean (targets X) := by
  have hsub : ∀ y ∈ category X f c, y ∈ targets X := by
    intro y hy
    obtain ⟨r, hr, rfl⟩ := List.mem_map.mp hy
    exact List.mem_map_of_mem (List.mem_of_mem_filter hr)
  obtain ⟨y, hy⟩ := List.exists_mem_of_ne_nil _ hl
  have hne := List.ne_nil_of_mem (hsub y hy)
  have hall := (Moments.variance_eq_zero_iff hne).mp hzero
  constructor
  · exact (Moments.variance_eq_zero_iff hl).mpr fun a ha b hb => hall a (hsub a ha) b (hsub b hb)
  · rw [Moments.mean_eq_of_forall hl fun a ha => hall a (hsub a ha) y (hsub y hy),
      Moments.mean_eq_of_forall hne fun a ha => hall a ha y (hsub y hy)]

/-- The variance of the server is not negative. -/
theorem y_variance_nonneg :
    0 ≤ sumSquareDiff (S.y_train_mean k) (targets (S.training k)) / (S.heldOutCount k : K) := by
  refine div_nonneg (List.sum_nonneg fun y hy => ?_) (Nat.cast_nonneg _)
  obtain ⟨x, -, rfl⟩ := List.mem_map.mp hy
  exact sq_nonneg _

variable (hsmooth : S.smooth = none) (hcovered : S.Covered k)
include hsmooth hcovered

theorem foldEncodings_of_auto (f : Fin S.d) (c : Fin (S.n_categories f)) :
    S.foldEncodings k f c = some (
      let l := category (S.training k) f c
      let v := sumSquareDiff (S.y_train_mean k) (targets (S.training k)) / (S.heldOutCount k : K)
      if v = 0 then S.target_mean
      else shrunk v S.target_mean l.length (Moments.mean l) (Moments.variance l)) := by
  rw [foldEncodings, encode, hsmooth]
  exact encodingAuto_eq (hcovered f c) y_variance_nonneg _

/-- The held-out rows of a category. -/
theorem foldEncodings_of_auto_eq_iff (hcount : 0 < S.heldOutCount k) (f : Fin S.d)
    (c : Fin (S.n_categories f)) :
    S.foldEncodings k f c = some (smoothedMean S.smooth (S.training k) f c) ↔
      S.AutoRight k f c := by
  have hl := hcovered f c
  have hne := targets_ne_nil hcovered
  have hnonneg := y_variance_nonneg (S := S) (k := k)
  have hcode := foldEncodings_of_auto hsmooth hcovered f c
  have hratio : (0 : K) < (targets (S.training k)).length / S.heldOutCount k :=
    div_pos (length_cast_pos hne) (Nat.cast_pos.mpr hcount)
  dsimp only at hcode
  rw [y_variance_eq hne] at hcode hnonneg
  rw [hcode]
  unfold smoothedMean AutoRight
  rw [hsmooth]
  simp only [hl, false_or, Option.some_inj]
  generalize hv' : (targets (S.training k)).length / (S.heldOutCount k : K) *
    (Moments.variance (targets (S.training k)) + (Moments.mean (targets (S.training k)) *
      (1 - (targets (S.training k)).length / S.heldOutCount k)) ^ 2) = v' at hnonneg ⊢
  have hv := Moments.variance_nonneg (targets (S.training k))
  by_cases hzero' : v' = 0
  · -- then the targets are all zero, or as many rows are held out as not
    have hzero : Moments.variance (targets (S.training k)) = 0 := by
      rw [← hv', mul_eq_zero] at hzero'
      have hsum := hzero'.resolve_left hratio.ne'
      nlinarith [sq_nonneg (Moments.mean (targets (S.training k)) *
        (1 - (targets (S.training k)).length / (S.heldOutCount k : K)))]
    rw [if_pos hzero', if_pos hzero', if_pos hzero]
  · have hpos' : 0 < v' := lt_of_le_of_ne hnonneg (Ne.symm hzero')
    rw [if_neg hzero', if_neg hzero']
    by_cases hzero : Moments.variance (targets (S.training k)) = 0
    · obtain ⟨hvariance, hmean⟩ := category_of_variance_zero hzero hl
      rw [if_pos hzero, hvariance, hmean]
      refine iff_of_true ?_ (.inl rfl)
      have hpos : v' * (category (S.training k) f c).length ≠ 0 :=
        (mul_pos hpos' (length_cast_pos hl)).ne'
      rw [shrunk_eq (by rwa [add_zero]), zero_mul, add_zero, add_zero, mul_div_cancel_left₀ _ hpos]
    · rw [if_neg hzero]
      exact shrunk_eq_iff (length_cast_pos hl) (lt_of_le_of_ne hv (Ne.symm hzero)) hpos'
        (Moments.variance_nonneg _)

end Auto

theorem foldPooled_of_auto (hsmooth : S.smooth = none) (hcount : 0 < S.heldOutCount k) :
    S.FoldPooled k ↔ S.Covered k ∧
      ∀ j r, S.HeldOut k j r → ∀ f, S.AutoRight k f ((S.row j r).x f) := by
  have hdivisors : (∀ f c, S.divisor k f c ≠ 0) ↔ S.Covered k := by
    rw [divisors_iff, hsmooth]
    exact ⟨fun h => h rfl, fun h _ => h⟩
  constructor
  · rintro ⟨hdefined, hencoded⟩
    have hcovered := hdivisors.mp fun f c => (hdefined f c).1
    refine ⟨hcovered, fun j r hr f => ?_⟩
    exact (foldEncodings_of_auto_eq_iff hsmooth hcovered hcount f _).mp (hencoded j r hr f)
  · rintro ⟨hcovered, hright⟩
    refine ⟨fun f c => ⟨hdivisors.mpr hcovered f c, ?_⟩, fun j r hr f => ?_⟩
    · rw [foldEncodings_of_auto hsmooth hcovered]
      rfl
    · exact (foldEncodings_of_auto_eq_iff hsmooth hcovered hcount f _).mpr (hright j r hr f)

end Fold

/-! ### All folds -/

section Splits

variable {S} [IsStrictOrderedRing K] {s : (j : Fin S.N) → Split (S.rows j) S.n_splits}
  (hs : ∀ j, S.split j = some (s j))
include hs

theorem foldPooled_iff (k : Fin S.n_splits) : S.FoldPooled k ↔ S.RightFold k := by
  unfold RightFold
  cases hsmooth : S.smooth with
  | none => exact foldPooled_of_auto hsmooth (heldOutCount_pos hs k)
  | some smooth => exact foldPooled_of_smooth hsmooth (exists_heldOut hs k)

theorem pooled_iff_folds : S.Pooled ↔ ∀ k, S.FoldPooled k := by
  have hplays := plays_fitTransform hs
  have hfold : ∀ k j r, S.HeldOut k j r ↔ (s j).fold r = k := by
    intro k j r
    unfold HeldOut
    rw [hs]
    exact ⟨fun ⟨_, h, hk⟩ => Option.some.inj h ▸ hk, fun hk => ⟨s j, rfl, hk⟩⟩
  constructor
  · rintro ⟨hdefined, hencoded⟩ k
    obtain ⟨-, hrows⟩ := hplays.exists_runsTogether_iff.mp hencoded
    refine ⟨hdefined k, fun j r hr f => ?_⟩
    have hrow := (hrows j).2 k r hr f
    rw [← (hfold k j r).mp hr] at hrow ⊢
    exact hrow
  · intro hfolds
    refine ⟨fun k => (hfolds k).1, hplays.exists_runsTogether_iff.mpr ⟨S.encodings_eq, ?_⟩⟩
    intro j
    refine ⟨S.encodings_eq, fun k r hr f => ?_⟩
    obtain rfl := (hfold k j r).mp hr
    exact (hfolds _).2 j r hr f

end Splits

/-- **The rows are encoded by the training rows of their folds** exactly if the clients' rows can be
split, and in each fold: with a smoothing parameter, the mean of the training rows is that of all
rows, or the parameter is zero and every category has a training row; with automatic smoothing,
every category has a training row, and for each category of a held-out row the wrong mean and the
wrong number of rows do not matter. -/
theorem encoding_pooled_iff [IsStrictOrderedRing K] :
    S.Pooled ↔ (∀ j, (S.split j).isSome = true) ∧ ∀ k, S.RightFold k := by
  by_cases hsplit : ∀ j, (S.split j).isSome = true
  · have hs : ∀ j, S.split j = some ((S.split j).get (hsplit j)) :=
      fun j => (Option.some_get _).symm
    rw [pooled_iff_folds hs, and_iff_right hsplit]
    exact forall_congr' fun k => foldPooled_iff hs k
  · refine iff_of_false ?_ fun h => hsplit h.1
    obtain ⟨j, hj⟩ := not_forall.mp hsplit
    exact S.not_pooled_of_no_split (Option.not_isSome_iff_eq_none.mp hj)

end Setup

/-- Two rows in two folds. -/
theorem size_twoFolds : ∀ k : Fin 2, (List.finRange 2).countP (fun r => r = k) =
    2 / 2 + if k.val < 2 % 2 then 1 else 0 := by decide

/-- One client with two rows of one category, whose targets are zero and one. -/
def twoRows : Setup ℚ where
  N := 1
  N_pos := Nat.one_pos
  d := 1
  d_pos := Nat.one_pos
  n_categories := fun _ => 1
  rows := fun _ => 2
  rows_pos := fun _ => Nat.two_pos
  row := fun _ r => { x := fun _ => ⟨0, Nat.one_pos⟩, y := r.val }
  occurs := fun _ c => ⟨⟨0, Nat.one_pos⟩, ⟨0, Nat.two_pos⟩, (Fin.eq_zero c).symm⟩
  smooth := some 1
  smooth_nonneg := fun _ hs => Option.some.inj hs ▸ zero_le_one
  n_splits := 2
  two_le := le_rfl
  split := fun _ => some { fold := fun r => r, le := le_rfl, size := size_twoFolds }

theorem pooled_iff_twoRows : twoRows.Pooled ↔
    (∀ j, (twoRows.split j).isSome = true) ∧ ∀ k, twoRows.RightFold k :=
  twoRows.encoding_pooled_iff

/-- The mean of the training row is one, and that of both rows a half. -/
theorem not_pooled_twoRows : ¬ twoRows.Pooled := by
  intro hpooled
  have hs : ∀ j, twoRows.split j = some { fold := fun r => r, le := le_rfl, size := size_twoFolds } :=
    fun _ => rfl
  have hfold := (Setup.pooled_iff_folds hs).mp hpooled ⟨0, Nat.two_pos⟩
  have hright := ((Setup.foldPooled_of_smooth rfl (Setup.exists_heldOut hs _)).mp hfold).2
  have htraining : targets (twoRows.training ⟨0, Nat.two_pos⟩) = [1] := by
    show [((1 : ℕ) : ℚ)] = [1]
    norm_num
  have hjoined : targets twoRows.joined = [0, 1] := by
    show [((0 : ℕ) : ℚ), ((1 : ℕ) : ℚ)] = [0, 1]
    norm_num
  rw [Setup.target_mean, htraining, hjoined] at hright
  norm_num [Moments.mean] at hright

end Fediux.Preprocessing.Target
