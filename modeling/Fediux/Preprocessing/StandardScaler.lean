import Fediux.Stats.MeanVar

set_option autoImplicit false

/-! # The horizontal standard scaler and the imputation of means

`StandardScaler.Hfit` of `python/fediux/FL/preprocessing/scaler.py` and `_dense_fit` of
`SimpleImputer` (`imputer.py`) with the strategy `mean`, beside `col_mean` and `col_var`, in exact
arithmetic. `eps` is the machine epsilon that `_is_constant_feature` uses.
-/

namespace Fediux.Preprocessing.Pooled

open Session Session.Prog Messaging Vfl Stats

section Functions

variable {N rows cols : ℕ} {K : Type} [Field K] [LinearOrder K]

/-- `n_samples_seen_` of a client. -/
def clientSamples (X : Matrix rows cols K) : Count cols :=
  Count.collapse (.array fun c => rows - col_n_nan X c)

/-! ## `StandardScaler` -/

/-- The attributes after `Hfit`. -/
structure Fitted (cols : ℕ) (K : Type) where
  n_samples_seen_ : Option (Count cols)
  mean_ : Option (Arr cols K)
  var_ : Option (Arr cols K)
  scale_ : Option (Arr cols K)

/-- The bound on the error of a computed variance. -/
def is_constant_feature (eps var mean : K) (n_samples : ℕ) : Prop :=
  var ≤ n_samples * eps * var + (n_samples * mean * eps) ^ 2

instance (eps var mean : K) (n_samples : ℕ) :
    Decidable (is_constant_feature eps var mean n_samples) :=
  inferInstanceAs (Decidable (_ ≤ _))

/-- `_handle_zeros_in_scale` of the roots, with the mask of the features that are constant. -/
def scaleArr (sqrt : K → K) (eps : K) (var mean : Arr cols K) (n_sum : Count cols) : Arr cols K :=
  fun c => Option.map₂
    (fun v m => if is_constant_feature eps v m (n_sum.get c) then 1 else sqrt v) (var c) (mean c)

variable (sqrt : K → K) (eps : K) (with_mean with_std : Bool)

def scaler_client (X : Matrix rows cols K) : MeanNet N cols K (Fitted cols K) :=
  check_array true X <|
  let n_samples_seen_ := clientSamples X
  let fitted := fun mean scale => Prog.ret ⟨some n_samples_seen_, mean, none, scale⟩
  if with_mean || with_std then
    sendHost .n_samples (.count n_samples_seen_) <|
    let X_sum := axis0 (sumOf true) X
    if with_mean && !with_std then
      sendHost .X_sum (.array X_sum) <|
      recvHost Message.array? .TypeError .mean fun mean => fitted (some mean) none
    else
      sendHost .X_sum_sum_square (.arrays X_sum (axis0 (sumOf true) (square X))) <|
      if !with_mean then
        recvHost Message.array? .TypeError .scale fun scale => fitted none (some scale)
      else
        recvHost Message.arrays? .TypeError .mean_scale fun mean_scale =>
        fitted (some mean_scale.1) (some mean_scale.2)
  else fitted none none

def scaler_server : MeanNet N cols K (Fitted cols K) :=
  if with_mean || with_std then
    recv_all Message.count? .TypeError .n_samples fun n_samples =>
    let n_sum := (Count.total n_samples).collapse
    if with_mean && !with_std then
      recv_all Message.array? .TypeError .X_sum fun X_sum =>
      let mean := quotient (stacked (sumOf true) X_sum) n_sum
      send_all .mean (.array mean) (.ret ⟨some n_sum, some mean, none, none⟩)
    else
      recv_all Message.arrays? .TypeError .X_sum_sum_square fun X_sum_sum_square =>
      let X_sum := stacked (sumOf true) (X_sum_sum_square.map Prod.fst)
      let X_sum_square := stacked (sumOf true) (X_sum_sum_square.map Prod.snd)
      let mean := quotient X_sum n_sum
      let var := var X_sum X_sum_square n_sum
      let scale := scaleArr sqrt eps var mean n_sum
      let fitted := Prog.ret ⟨some n_sum, some mean, some var, some scale⟩
      if !with_mean then send_all .scale (.array scale) fitted
      else send_all .mean_scale (.arrays mean scale) fitted
  else .ret ⟨none, none, none, none⟩

/-! ## `SimpleImputer` -/

/-- `np.ma.sum`: the sum of the values that are there, if there is one. -/
def maskedSum (l : List (Option K)) : Option K :=
  if l.reduceOption.isEmpty then none else some l.reduceOption.sum

/-- The mean, or what stands for a column that is empty. -/
def imputed (keep_empty_features : Bool) (sum_masked : Arr cols K) (n_sum : Count cols) :
    Arr cols K :=
  fun c => match sum_masked c with
    | none => if keep_empty_features then some 0 else none
    | some _ => quotient sum_masked n_sum c

def imputer_client (X : Matrix rows cols K) : MeanNet N cols K (Arr cols K) :=
  check_array true X <|
  sendHost .sum_masked (.array (axis0 maskedSum X)) <|
  sendHost .n_samples (.count (clientSamples X)) <|
  recvHost Message.array? .TypeError .mean .ret

def imputer_server (keep_empty_features : Bool) : MeanNet N cols K (Arr cols K) :=
  recv_all Message.array? .TypeError .sum_masked fun sum_masked =>
  recv_all Message.count? .TypeError .n_samples fun n_samples =>
  let mean := imputed keep_empty_features (stacked maskedSum sum_masked)
    (Count.total n_samples).collapse
  send_all .mean (.array mean) (.ret mean)

end Functions

/-- The numbers that the clients send are together those of the joined table. -/
theorem isTotal_clientSamples {K : Type} (T : ClientTables K) :
    T.IsTotal (Count.total ((List.finRange T.N).map fun j => clientSamples (T.X j))).collapse := by
  have hcounts : T.Counts fun j => clientSamples (T.X j) := by
    intro j c
    show (clientSamples (T.X j)).get c = _
    rw [clientSamples, Count.get_collapse]
    exact T.sub_col_n_nan j c
  intro c
  rw [Count.get_collapse]
  exact T.get_total_counts hcounts c

/-! ## Pooled statistics -/

/-- The clients' tables and the parameters of the functions. -/
structure Setup (K : Type) [Field K] [LinearOrder K] extends ClientTables K where
  ignore_nan : Bool
  accepted : ∀ j, Accepted ignore_nan (X j)
  with_mean : Bool
  with_std : Bool
  keep_empty_features : Bool
  sqrt : K → K
  eps : K

namespace Setup

variable {K : Type} [Field K] [LinearOrder K] (S : Setup K)

/-- The roots of the variances, and one for a column that counts as constant. -/
def scales (constant : List K → Prop) [DecidablePred constant] : Arr S.cols K :=
  fun c => some (if constant (S.values c) then 1 else S.sqrt (Moments.variance (S.values c)))

/-- The variance is within the bound on its error. -/
def NearConstant (l : List K) : Prop :=
  is_constant_feature S.eps (Moments.variance l) (Moments.mean l) l.length

instance : DecidablePred S.NearConstant :=
  fun _ => inferInstanceAs (Decidable (is_constant_feature _ _ _ _))

def scaler (i : Party S.N) : MeanNet S.N S.cols K (Fitted S.cols K) :=
  match i with
  | none => scaler_server S.sqrt S.eps S.with_mean S.with_std
  | some j => scaler_client S.with_mean S.with_std (S.X j)

/-- In any order of the steps all parties come to the statistics of the joined table. -/
structure Right (constant : List K → Prop) [DecidablePred constant] : Prop where
  col_mean : RunsTogether id
    (together (col_mean_server S.ignore_nan true true) fun j =>
      col_mean_client S.ignore_nan (S.X j) true true)
    (both (some S.means) fun _ => some S.means)
  col_var : RunsTogether id
    (together (col_var_server S.ignore_nan true true) fun j =>
      col_var_client S.ignore_nan (S.X j) true true)
    (both (some S.variances) fun _ => some S.variances)
  imputer : RunsTogether id
    (together (imputer_server S.keep_empty_features) fun j => imputer_client (S.X j))
    (both S.means fun _ => S.means)
  scaler : ∃ server client,
    RunsTogether id (together (S.scaler none) fun j => S.scaler (some j)) (both server client) ∧
    (S.with_mean = true → server.mean_ = some S.means ∧ ∀ j, (client j).mean_ = some S.means) ∧
    (S.with_std = true → server.scale_ = some (S.scales constant) ∧
      ∀ j, (client j).scale_ = some (S.scales constant))

/-! ## The exchanges -/

/-- The numbers of values of all clients. -/
def n_sum : Count S.cols :=
  (Count.total ((List.finRange S.N).map fun j => clientSamples (S.X j))).collapse

theorem isTotal_n_sum : S.IsTotal S.n_sum := isTotal_clientSamples S.toClientTables

theorem accepted_true (j : Fin S.N) : Accepted true (S.X j) := fun h => Bool.noConfusion h

omit [LinearOrder K] in
/-- The clients without a value in a column change nothing. -/
theorem sum_maskedSum {β : Type} (bs : List β) (f : β → List (Option K)) :
    ((bs.map fun b => maskedSum (f b)).reduceOption).sum =
      (bs.map fun b => (f b).reduceOption.sum).sum := by
  induction bs with
  | nil => rfl
  | cons b bs ih =>
      rw [List.map_cons, List.map_cons, List.sum_cons, ← ih]
      unfold maskedSum
      split
      · next hempty =>
          rw [List.reduceOption_cons_of_none, List.isEmpty_iff.mp hempty, List.sum_nil, zero_add]
      · rw [List.reduceOption_cons_of_some, List.sum_cons]

/-- A column has a value on some client. -/
theorem stacked_maskedSum :
    stacked maskedSum ((List.finRange S.N).map fun j => axis0 maskedSum (S.X j)) = S.sums := by
  funext c
  have hlist : ((List.finRange S.N).map fun j => axis0 maskedSum (S.X j)).map (fun v => v c) =
      (List.finRange S.N).map fun j => maskedSum (column (S.X j) c) := by
    rw [List.map_map]
    rfl
  have hne : ((List.finRange S.N).map fun j => maskedSum (column (S.X j) c)).reduceOption ≠ [] := by
    obtain ⟨j, r, hsome⟩ := S.someValue c
    obtain ⟨x, hx⟩ := Option.isSome_iff_exists.mp hsome
    have hmem : x ∈ (column (S.X j) c).reduceOption :=
      List.reduceOption_mem_iff.mpr (List.mem_map.mpr ⟨r, List.mem_finRange r, hx⟩)
    have hmasked : maskedSum (column (S.X j) c) = some (column (S.X j) c).reduceOption.sum := by
      refine if_neg fun hempty => ?_
      exact List.not_mem_nil (List.isEmpty_iff.mp hempty ▸ hmem)
    intro hnil
    have hin : (column (S.X j) c).reduceOption.sum ∈
        ((List.finRange S.N).map fun j => maskedSum (column (S.X j) c)).reduceOption :=
      List.reduceOption_mem_iff.mpr (List.mem_map.mpr ⟨j, List.mem_finRange j, hmasked⟩)
    exact List.not_mem_nil (hnil ▸ hin)
  have hsum := sum_maskedSum (List.finRange S.N) fun j => column (S.X j) c
  rw [← Moments.sum_flatMap, ← S.values_eq] at hsum
  show maskedSum _ = some (S.values c).sum
  rw [hlist, ← hsum]
  exact if_neg fun hempty => hne (List.isEmpty_iff.mp hempty)

theorem imputed_sums : imputed S.keep_empty_features S.sums S.n_sum = S.means := by
  funext c
  exact congrFun (S.quotient_sums S.isTotal_n_sum) c

section Runs

variable {S} (hrows : ∀ j, 0 < S.rows j)
include hrows

theorem plays_imputer :
    Plays (together (imputer_server S.keep_empty_features) fun j => imputer_client (S.X j))
      (both S.means fun _ => S.means) := by
  unfold imputer_client
  simp only [check_array_of_accepted (hrows _) S.cols_pos (S.accepted_true _)]
  refine guests_to_host (fun _ => rfl) (guests_to_host (fun _ => rfl) ?_)
  rw [S.stacked_maskedSum]
  have hmeans := S.imputed_sums
  unfold n_sum at hmeans
  rw [hmeans]
  exact host_to_guests (fun _ => rfl) (plays_ret _ _)

theorem plays_scaler_of_mean (hmean : S.with_mean = true) (hstd : S.with_std = false) :
    Plays (together (S.scaler none) fun j => S.scaler (some j))
      (both ⟨some S.n_sum, some S.means, none, none⟩
        fun j => ⟨some (clientSamples (S.X j)), some S.means, none, none⟩) := by
  unfold scaler scaler_server scaler_client
  simp only [check_array_of_accepted (hrows _) S.cols_pos (S.accepted_true _), hmean, hstd,
    Bool.or_false, Bool.not_false, Bool.and_true, if_true]
  refine guests_to_host (fun _ => rfl) (guests_to_host (fun _ => rfl) ?_)
  have hmeans := S.quotient_sums S.isTotal_n_sum
  unfold n_sum at hmeans
  rw [S.stacked_sums S.accepted_true, hmeans]
  exact host_to_guests (fun _ => rfl) (plays_ret _ _)

end Runs

theorem scaleArr_eq : scaleArr S.sqrt S.eps S.variances S.means S.n_sum =
    S.scales S.NearConstant := by
  funext c
  show some (if is_constant_feature S.eps (Moments.variance (S.values c))
    (Moments.mean (S.values c)) (S.n_sum.get c) then 1 else _) = _
  rw [S.isTotal_n_sum c]
  rfl

section Runs

variable {S} [CharZero K] (hrows : ∀ j, 0 < S.rows j)
include hrows

/-- The scale alone is broadcast, or both. -/
theorem plays_scaler_of_std (hstd : S.with_std = true) :
    Plays (together (S.scaler none) fun j => S.scaler (some j))
      (both
        ⟨some S.n_sum, some S.means, some S.variances, some (S.scales S.NearConstant)⟩
        fun j => ⟨some (clientSamples (S.X j)), if S.with_mean then some S.means else none, none,
          some (S.scales S.NearConstant)⟩) := by
  have hmeans := S.quotient_sums S.isTotal_n_sum
  have hvars := S.var_sums S.isTotal_n_sum
  have hscales := S.scaleArr_eq
  unfold n_sum at hmeans hvars hscales
  have hsums : stacked (sumOf true) ((List.finRange S.N).map (Prod.fst ∘ fun j =>
      (axis0 (sumOf true) (S.X j), axis0 (sumOf true) (square (S.X j))))) = S.sums :=
    S.stacked_sums S.accepted_true
  have hsquares : stacked (sumOf true) ((List.finRange S.N).map (Prod.snd ∘ fun j =>
      (axis0 (sumOf true) (S.X j), axis0 (sumOf true) (square (S.X j))))) = S.sumSquares :=
    S.stacked_sumSquares S.accepted_true
  unfold scaler scaler_server scaler_client
  simp only [check_array_of_accepted (hrows _) S.cols_pos (S.accepted_true _), hstd,
    Bool.or_true, Bool.not_true, Bool.and_false, if_true]
  cases S.with_mean with
  | false =>
      refine guests_to_host (fun _ => rfl) (guests_to_host (fun _ => rfl) ?_)
      simp only [List.map_map, hsums, hsquares, hmeans, hvars, hscales]
      exact host_to_guests (fun _ => rfl) (plays_ret _ _)
  | true =>
      refine guests_to_host (fun _ => rfl) (guests_to_host (fun _ => rfl) ?_)
      simp only [List.map_map, hsums, hsquares, hmeans, hvars, hscales]
      exact host_to_guests (fun _ => rfl) (plays_ret _ _)

omit [CharZero K] in
/-- Nothing is sent. -/
theorem plays_scaler_of_neither (hmean : S.with_mean = false) (hstd : S.with_std = false) :
    Plays (together (S.scaler none) fun j => S.scaler (some j))
      (both ⟨none, none, none, none⟩ fun j => ⟨some (clientSamples (S.X j)), none, none, none⟩) := by
  unfold scaler scaler_server scaler_client
  simp only [check_array_of_accepted (hrows _) S.cols_pos (S.accepted_true _), hmean, hstd]
  exact plays_ret _ _

theorem scaler_right : ∃ server client,
    RunsTogether id (together (S.scaler none) fun j => S.scaler (some j)) (both server client) ∧
    (S.with_mean = true → server.mean_ = some S.means ∧ ∀ j, (client j).mean_ = some S.means) ∧
    (S.with_std = true → server.scale_ = some (S.scales S.NearConstant) ∧
      ∀ j, (client j).scale_ = some (S.scales S.NearConstant)) := by
  cases hstd : S.with_std with
  | true =>
      refine ⟨_, _, (plays_scaler_of_std hrows hstd).runsTogether, ?_, ?_⟩
      · intro hmean
        exact ⟨rfl, fun j => if_pos hmean⟩
      · intro _
        exact ⟨rfl, fun j => rfl⟩
  | false =>
      cases hmean : S.with_mean with
      | true =>
          refine ⟨_, _, (plays_scaler_of_mean hrows hmean hstd).runsTogether, ?_, ?_⟩
          · intro _
            exact ⟨rfl, fun j => rfl⟩
          · intro h
            exact Bool.noConfusion h
      | false =>
          refine ⟨_, _, (plays_scaler_of_neither hrows hmean hstd).runsTogether, ?_, ?_⟩
          · intro h
            exact Bool.noConfusion h
          · intro h
            exact Bool.noConfusion h

end Runs

end Setup

/-- **All parties obtain the statistics of the joined table; the scale of a column that is nearly
constant is one.** -/
theorem pooled_right {K : Type} [Field K] [LinearOrder K] [CharZero K] (S : Setup K)
    (hrows : ∀ j, 0 < S.rows j) : S.Right S.NearConstant where
  col_mean := (ClientTables.plays_col_mean hrows S.accepted).runsTogether
  col_var := (ClientTables.plays_col_var hrows S.accepted).runsTogether
  imputer := (Setup.plays_imputer hrows).runsTogether
  scaler := Setup.scaler_right hrows

/-- One client with two values whose difference is tiny beside them. The root is that of four. -/
def closePair : Setup ℚ where
  N := 1
  cols := 1
  cols_pos := Nat.one_pos
  rows := fun _ => 2
  X := fun _ r _ => some (2 ^ 53 + 4 * r.val)
  someValue := fun _ => ⟨⟨0, Nat.one_pos⟩, ⟨0, Nat.two_pos⟩, rfl⟩
  ignore_nan := true
  accepted := fun _ h => Bool.noConfusion h
  with_mean := true
  with_std := true
  keep_empty_features := false
  sqrt := fun z => z / 2
  eps := 1 / 2 ^ 52

theorem pooled_right_closePair : closePair.Right closePair.NearConstant :=
  pooled_right closePair fun _ => Nat.two_pos

/-- One client without rows beside one with a row. -/
def emptyClient : Setup ℚ where
  N := 2
  cols := 1
  cols_pos := Nat.one_pos
  rows := fun j => j.val
  X := fun _ _ _ => some 0
  someValue := fun _ => ⟨⟨1, Nat.one_lt_two⟩, ⟨0, Nat.one_pos⟩, rfl⟩
  ignore_nan := true
  accepted := fun _ h => Bool.noConfusion h
  with_mean := true
  with_std := true
  keep_empty_features := false
  sqrt := id
  eps := 1 / 2 ^ 52

theorem values_closePair (c : Fin closePair.cols) : closePair.values c = [2 ^ 53, 2 ^ 53 + 4] := by
  show [(2 ^ 53 + 4 * (0 : ℕ) : ℚ), 2 ^ 53 + 4 * (1 : ℕ)] = _
  norm_num

theorem variance_closePair : Moments.variance [(2 ^ 53 : ℚ), 2 ^ 53 + 4] = 4 := by
  simp [Moments.variance, Moments.mean]
  norm_num

/-- The scale is one although the variance is four, and a client without rows is refused. -/
theorem not_right_zeroVariance :
    ¬ closePair.Right (fun l => Moments.variance l = 0) ∧
      ¬ emptyClient.Right (fun l => Moments.variance l = 0) := by
  constructor
  · intro h
    obtain ⟨server, client, hruns, -, hscale⟩ := h.scaler
    have heq := hruns.eq_of_plays
      (Setup.plays_scaler_of_std (S := closePair) (fun _ => Nat.two_pos) rfl)
    have hserver : server = _ := congrFun heq none
    have hscales := (hscale rfl).1
    rw [hserver] at hscales
    have hone := congrFun (Option.some.inj hscales) ⟨0, Nat.one_pos⟩
    have hnear : closePair.NearConstant (closePair.values ⟨0, Nat.one_pos⟩) := by
      show Moments.variance _ ≤ _
      rw [values_closePair, variance_closePair]
      norm_num [closePair, Moments.mean]
    have hroot : ¬ Moments.variance (closePair.values ⟨0, Nat.one_pos⟩) = 0 := by
      rw [values_closePair, variance_closePair]
      norm_num
    have hvalue := Option.some.inj hone
    rw [if_pos hnear, if_neg hroot, values_closePair, variance_closePair] at hvalue
    norm_num [closePair] at hvalue
  · intro h
    exact h.col_mean.ne_raise (.refl _) (some ⟨0, Nat.two_pos⟩) .ValueError rfl

end Fediux.Preprocessing.Pooled
