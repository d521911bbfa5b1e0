import Fediux.Basic.Moments
import Fediux.Stats.Exchange

set_option autoImplicit false

/-! # Horizontal principal components

`PCATransformer.Hfit` of `python/fediux/FL/preprocessing/transformer.py`, in exact arithmetic. The
server builds the mean and the covariance matrix of the joined rows from those of the clients. A
client with a single row divides zero by zero, and what it sends has no value
(`covariance_pooled_iff`).
-/

namespace Fediux.Preprocessing.Pca

open Session Session.Prog Messaging Vfl
open Stats (Matrix Arr sumOf Accepted)

/-! ## The statistics -/

section Functions

variable {N d rows : ℕ} {K : Type} [Field K]

/-- A quotient, which has no value where the divisor is zero. -/
def divide [DecidableEq K] (a b : K) : Option K := if b = 0 then none else some (a / b)

theorem divide_of_ne_zero [DecidableEq K] {a b : K} (h : b ≠ 0) : divide a b = some (a / b) :=
  if_neg h

/-- The rows of a table without missing values. -/
def rowsOf (X : Matrix rows d K) : List (Fin d → K) :=
  (List.finRange rows).map fun r c => (X r c).getD 0

/-- `local_stats` -/
structure LocalStats (d : ℕ) (K : Type) where
  mean : Arr d K
  cov : Fin d → Arr d K
  sample_count : ℕ
  feature_count : ℕ

variable [DecidableEq K]

/-- The means, and the products of the centred columns by the number of rows minus one. -/
def localStats (X_array : List (Fin d → K)) : LocalStats d K :=
  let mean : Arr d K := fun a => divide (X_array.map fun r => r a).sum X_array.length
  { mean := mean
    cov := fun a b => do
      let mean_a ← mean a
      let mean_b ← mean b
      divide (X_array.map fun r => (r a - mean_a) * (r b - mean_b)).sum (X_array.length - 1)
    sample_count := X_array.length
    feature_count := d }

/-- The aggregated mean and covariance matrix. -/
structure Aggregated (d : ℕ) (K : Type) where
  global_mean : Arr d K
  global_cov : Fin d → Arr d K

section Aggregation

variable (all_local_stats : List (LocalStats d K))

def totalSamples : ℕ := (all_local_stats.map fun stats => stats.sample_count).sum

/-- A sum of numbers of which one has no value has none. -/
def globalMean : Arr d K := fun a =>
  sumOf false <| all_local_stats.map fun stats => (stats.mean a).map fun m =>
    (stats.sample_count : K) / (totalSamples all_local_stats : K) * m

/-- The contributions of the clients. -/
def contributions (a b : Fin d) : Option K :=
  sumOf false <| all_local_stats.map fun stats => (stats.cov a b).map fun v =>
    ((stats.sample_count : K) - 1) * v

/-- The contributions of the distances between the means. -/
def meanShifts (a b : Fin d) : Option K :=
  sumOf false <| all_local_stats.map fun stats => do
    let mean_a ← stats.mean a
    let mean_b ← stats.mean b
    let global_a ← globalMean all_local_stats a
    let global_b ← globalMean all_local_stats b
    return (stats.sample_count : K) * ((mean_a - global_a) * (mean_b - global_b))

def aggregate : Aggregated d K where
  global_mean := globalMean all_local_stats
  global_cov := fun a b => do
    let within ← contributions all_local_stats a b
    let between ← meanShifts all_local_stats a b
    divide (within + between) ((totalSamples all_local_stats : K) - 1)

end Aggregation

end Functions

/-! ## The components -/

/-- What `np.linalg.eigh` returns: the eigenvalues, and the eigenvectors as columns. -/
structure Eigen (d : ℕ) (K : Type) where
  eigenvalues : Fin d → K
  eigenvectors : Fin d → Fin d → K

/-- `global_pca_params` -/
structure PcaParams (d : ℕ) (K : Type) where
  mean : Arr d K
  components : List (Fin d → K)
  explained_variance : List K
  explained_variance_ratio : List (Option K)
  n_components : ℕ
  whiten : Bool

/-- The components with the greatest eigenvalues. -/
def pcaParams {d : ℕ} {K : Type} [Field K] [LinearOrder K] (global_mean : Arr d K)
    (e : Eigen d K) (n_components : ℕ) (whiten : Bool) : PcaParams d K :=
  let sorted_indices :=
    ((List.finRange d).mergeSort fun i j => e.eigenvalues i ≤ e.eigenvalues j).reverse
  let top := sorted_indices.take n_components
  { mean := global_mean
    components := top.map fun k c => e.eigenvectors c k
    explained_variance := top.map e.eigenvalues
    explained_variance_ratio := top.map fun k =>
      divide (e.eigenvalues k) ((List.finRange d).map e.eigenvalues).sum
    n_components := n_components
    whiten := whiten }

/-! ## The exchange -/

inductive Key where
  | local_stats
  | global_pca_params
  deriving DecidableEq, Repr

inductive Err where
  | ValueError
  | TypeError
  | LinAlgError
  deriving DecidableEq, Repr

inductive Message (d : ℕ) (K : Type) where
  | nothing
  | stats (local_stats : LocalStats d K)
  | params (global_pca_params : PcaParams d K)

namespace Message

variable {d : ℕ} {K : Type}

instance : Inhabited (Message d K) := ⟨.nothing⟩

def stats? : Message d K → Option (LocalStats d K)
  | stats s => some s
  | _ => none

def params? : Message d K → Option (PcaParams d K)
  | params p => some p
  | _ => none

end Message

section Programs

variable {N d rows : ℕ} {K : Type} [Field K] [LinearOrder K]

abbrev PcaNet (N d : ℕ) (K α : Type) := Prog (Party N × Key) (Message d K) Err α

/-- A client up to the statistics that it sends. -/
def sendStats (n_components : ℕ) (X : Matrix rows d K) : PcaNet N d K Unit :=
  if Accepted false X then
    if n_components < 1 ∨ d < n_components then .raise .ValueError
    else sendHost .local_stats (.stats (localStats (rowsOf X))) (.ret ())
  else .raise .ValueError

/-- The server up to the covariance matrix. -/
def recvStats (n_components : ℕ) : PcaNet N d K (Aggregated d K) :=
  recv_all Message.stats? .TypeError .local_stats fun all_local_stats =>
  let feature_counts := (all_local_stats.map fun s => s.feature_count).dedup
  if all_local_stats.isEmpty then .raise .ValueError
  else if 1 < feature_counts.length then .raise .ValueError
  else if n_components < 1 ∨ feature_counts.headD 0 < n_components then .raise .ValueError
  else .ret (aggregate all_local_stats)

def HfitClient (n_components : ℕ) (X : Matrix rows d K) : PcaNet N d K (PcaParams d K) :=
  (sendStats n_components X).bind fun _ =>
  recvHost Message.params? .TypeError .global_pca_params .ret

/-- `eigh` raises an error for a matrix that it has no eigenvalues of. -/
def HfitServer (eigh : (Fin d → Arr d K) → Option (Eigen d K)) (n_components : ℕ)
    (whiten : Bool) : PcaNet N d K (PcaParams d K) :=
  (recvStats n_components).bind fun s =>
  match eigh s.global_cov with
  | none => .raise .LinAlgError
  | some e =>
      let global_pca_params := pcaParams s.global_mean e n_components whiten
      send_all .global_pca_params (.params global_pca_params) (.ret global_pca_params)

end Programs

/-! ## The joined table -/

/-- The tables of the clients, at least one of them, each with a row and no missing value, and a
number of components that there can be. -/
structure Clients (K : Type) where
  N : ℕ
  N_pos : 0 < N
  d : ℕ
  n_components : ℕ
  components_pos : 1 ≤ n_components
  components_le : n_components ≤ d
  rows : Fin N → ℕ
  rows_pos : ∀ j, 0 < rows j
  X : (j : Fin N) → Matrix (rows j) d K
  accepted : ∀ j, Accepted false (X j)

namespace Clients

variable {K : Type} [Field K] [LinearOrder K] (T : Clients K)

/-- The rows of all clients. -/
def joined : List (Fin T.d → K) := (List.finRange T.N).flatMap fun j => rowsOf (T.X j)

/-- The sample covariance of two columns, which a single row does not have. -/
def sampleCov (a b : Fin T.d) : Option K :=
  divide (Moments.comoment (fun r => r a) (fun r => r b) T.joined) (T.joined.length - 1)

/-- In any order of the steps the server comes to the mean and the covariance matrix of the joined
rows. -/
def Pooled : Prop :=
  ∃ a, RunsTogether id
      (together (recvStats T.n_components) fun j => sendStats T.n_components (T.X j)) a ∧
    (∀ c, (a none).global_mean c = some (Moments.meanOf (fun r => r c) T.joined)) ∧
    ∀ c c', (a none).global_cov c c' = T.sampleCov c c'

/-! ## The exchange -/

/-- What the server receives. -/
def received : List (LocalStats T.d K) :=
  (List.finRange T.N).map fun j => localStats (rowsOf (T.X j))

def aggregated : Aggregated T.d K := aggregate T.received

theorem plays_stats :
    Plays (together (recvStats T.n_components) fun j => sendStats T.n_components (T.X j))
      (both T.aggregated fun _ => ()) := by
  have hcomponents : ¬ (T.n_components < 1 ∨ T.d < T.n_components) := by
    have hpos := T.components_pos
    have hle := T.components_le
    omega
  have hcounts : (((List.finRange T.N).map fun j => localStats (rowsOf (T.X j))).map
      fun s => s.feature_count).dedup = [T.d] := by
    rw [List.map_map]
    have hreplicate : (List.finRange T.N).map ((fun s => s.feature_count) ∘
        fun j => localStats (rowsOf (T.X j))) = List.replicate T.N T.d := by
      rw [List.eq_replicate_iff]
      refine ⟨by rw [List.length_map, List.length_finRange], ?_⟩
      intro x hx
      obtain ⟨j, _, rfl⟩ := List.mem_map.mp hx
      rfl
    rw [hreplicate, List.replicate_dedup T.N_pos.ne']
  unfold sendStats
  simp only [T.accepted _, if_true, if_neg hcomponents]
  refine guests_to_host (fun _ => rfl) ?_
  rw [hcounts]
  dsimp only
  rw [List.headD_cons, if_neg ?_, if_neg (by simp), if_neg hcomponents]
  · exact plays_ret _ _
  · rw [List.isEmpty_iff, List.map_eq_nil_iff, List.finRange_eq_nil_iff]
    exact T.N_pos.ne'

/-- The whole exchange, where the matrix has eigenvalues. -/
theorem plays_Hfit {eigh : (Fin T.d → Arr T.d K) → Option (Eigen T.d K)} {e : Eigen T.d K}
    (heigh : eigh T.aggregated.global_cov = some e) (whiten : Bool) :
    Plays
      (together (HfitServer eigh T.n_components whiten) fun j => HfitClient T.n_components (T.X j))
      (both (pcaParams T.aggregated.global_mean e T.n_components whiten) fun _ =>
        pcaParams T.aggregated.global_mean e T.n_components whiten) := by
  refine plays_bind T.plays_stats ?_
  rw [heigh]
  exact host_to_guests (fun _ => rfl) (plays_ret _ _)

/-! ## The local statistics -/

omit [LinearOrder K] in
theorem length_rowsOf (j : Fin T.N) : (rowsOf (T.X j)).length = T.rows j := by
  rw [rowsOf, List.length_map, List.length_finRange]

omit [LinearOrder K] in
theorem length_pos (j : Fin T.N) : 0 < (rowsOf (T.X j)).length := by
  rw [length_rowsOf]
  exact T.rows_pos j

omit [LinearOrder K] in
theorem length_joined : T.joined.length = ((List.finRange T.N).map T.rows).sum := by
  rw [joined, List.length_flatMap]
  exact congrArg List.sum (List.map_congr_left fun j _ => T.length_rowsOf j)

theorem totalSamples_eq : totalSamples T.received = T.joined.length := by
  rw [totalSamples, received, joined, List.length_flatMap, List.map_map]
  rfl

variable [CharZero K]

omit [LinearOrder K] in
theorem length_sub_one_ne_zero {n : ℕ} (h : 2 ≤ n) : (n : K) - 1 ≠ 0 := by
  have hcast : ((n - 1 : ℕ) : K) = (n : K) - 1 := Nat.cast_pred (by omega)
  rw [← hcast, Nat.cast_ne_zero]
  omega

theorem mean_localStats {l : List (Fin T.d → K)} (h : 0 < l.length) (c : Fin T.d) :
    (localStats l).mean c = some (Moments.meanOf (fun r => r c) l) := by
  have hlen : (l.length : K) ≠ 0 := Nat.cast_ne_zero.mpr h.ne'
  rw [Moments.meanOf, Moments.mean, List.length_map]
  exact divide_of_ne_zero hlen

theorem cov_localStats {l : List (Fin T.d → K)} (h : 0 < l.length) (c c' : Fin T.d) :
    (localStats l).cov c c' =
      divide (Moments.comoment (fun r => r c) (fun r => r c') l) (l.length - 1) := by
  have hmean := T.mean_localStats h
  show ((localStats l).mean c).bind (fun mean_a => ((localStats l).mean c').bind fun mean_b =>
    divide _ _) = _
  rw [hmean c, hmean c']
  rfl

/-- A single row has no covariances. -/
theorem cov_single {l : List (Fin T.d → K)} (h : l.length = 1) (c c' : Fin T.d) :
    (localStats l).cov c c' = none := by
  rw [T.cov_localStats (by omega), h, divide, if_pos (by norm_num)]

theorem cov_of_two {l : List (Fin T.d → K)} (h : 2 ≤ l.length) (c c' : Fin T.d) :
    (localStats l).cov c c' =
      some (Moments.comoment (fun r => r c) (fun r => r c') l / (l.length - 1)) := by
  rw [T.cov_localStats (by omega), divide_of_ne_zero (length_sub_one_ne_zero h)]

/-! ## The joined statistics -/

omit [CharZero K] [LinearOrder K] in
theorem length_joined_pos : 0 < T.joined.length := by
  have hmem : (⟨0, T.N_pos⟩ : Fin T.N) ∈ List.finRange T.N := List.mem_finRange _
  obtain ⟨r, hr⟩ :=
    List.exists_mem_of_ne_nil _ (List.length_pos_iff.mp (T.length_pos ⟨0, T.N_pos⟩))
  exact List.length_pos_of_mem (List.mem_flatMap.mpr ⟨_, hmem, hr⟩)

/-- **The mean** is that of the joined rows. -/
theorem globalMean_eq (c : Fin T.d) :
    globalMean T.received c = some (Moments.meanOf (fun r => r c) T.joined) := by
  have hlist : (T.received.map fun stats => (stats.mean c).map fun m =>
        (stats.sample_count : K) / (T.joined.length : K) * m) =
      ((List.finRange T.N).map fun j => Moments.meanOf (fun r => r c) (rowsOf (T.X j)) *
        ((rowsOf (T.X j)).length : K) * (T.joined.length : K)⁻¹).map some := by
    rw [received, List.map_map, List.map_map]
    refine List.map_congr_left fun j _ => ?_
    rw [Function.comp_apply, Function.comp_apply, T.mean_localStats (T.length_pos j),
      Option.map_some, div_eq_mul_inv, mul_comm, ← mul_assoc]
    rfl
  rw [globalMean, T.totalSamples_eq, hlist, Stats.sumOf_map_some, List.sum_map_mul_right,
    ← div_eq_mul_inv]
  rw [joined, Moments.meanOf_flatMap, ← Moments.length_flatMap_cast]

/-- The squares between the clients. -/
theorem meanShifts_eq (c c' : Fin T.d) : meanShifts T.received c c' =
    some ((List.finRange T.N).map fun j => ((rowsOf (T.X j)).length : K) *
      ((Moments.meanOf (fun r => r c) (rowsOf (T.X j)) -
          Moments.meanOf (fun r => r c) T.joined) *
        (Moments.meanOf (fun r => r c') (rowsOf (T.X j)) -
          Moments.meanOf (fun r => r c') T.joined))).sum := by
  rw [← Stats.sumOf_map_some false, meanShifts, received, List.map_map, List.map_map]
  congr 1
  refine List.map_congr_left fun j _ => ?_
  have hmean := T.globalMean_eq
  rw [received] at hmean
  simp only [Function.comp_apply, T.mean_localStats (T.length_pos j), hmean]
  rfl

/-- The squares within the clients, where every client has two rows. -/
theorem contributions_of_two (h : ∀ j, 2 ≤ T.rows j) (c c' : Fin T.d) :
    contributions T.received c c' = some ((List.finRange T.N).map fun j =>
      Moments.comoment (fun r => r c) (fun r => r c') (rowsOf (T.X j))).sum := by
  rw [← Stats.sumOf_map_some false, contributions, received, List.map_map, List.map_map]
  congr 1
  refine List.map_congr_left fun j _ => ?_
  have htwo : 2 ≤ (rowsOf (T.X j)).length := by
    rw [T.length_rowsOf]
    exact h j
  rw [Function.comp_apply, Function.comp_apply, T.cov_of_two htwo, Option.map_some]
  exact congrArg some (mul_div_cancel₀ _ (length_sub_one_ne_zero htwo))

/-- **The matrix**, where every client has two rows. -/
theorem global_cov_of_two (h : ∀ j, 2 ≤ T.rows j) (c c' : Fin T.d) :
    T.aggregated.global_cov c c' = T.sampleCov c c' := by
  show (contributions T.received c c').bind (fun within =>
    (meanShifts T.received c c').bind fun between => divide (within + between) _) = _
  rw [T.contributions_of_two h, T.meanShifts_eq, Option.bind_some, Option.bind_some,
    T.totalSamples_eq, ← List.sum_map_add, sampleCov]
  congr 1
  rw [joined, Moments.comoment_flatMap]

/-- A client with a single row leaves the matrix without values. -/
theorem global_cov_of_single {j : Fin T.N} (hj : T.rows j = 1) (c c' : Fin T.d) :
    T.aggregated.global_cov c c' = none := by
  have hnone : none ∈ T.received.map fun stats => (stats.cov c c').map fun v =>
      ((stats.sample_count : K) - 1) * v := by
    rw [received, List.map_map]
    refine List.mem_map.mpr ⟨j, List.mem_finRange j, ?_⟩
    have hone : (rowsOf (T.X j)).length = 1 := (T.length_rowsOf j).trans hj
    rw [Function.comp_apply, T.cov_single hone]
    rfl
  show (contributions T.received c c').bind _ = none
  rw [contributions, Stats.sumOf_of_none hnone]
  rfl

theorem pooled_iff_cov :
    T.Pooled ↔ ∀ c c', T.aggregated.global_cov c c' = T.sampleCov c c' := by
  refine T.plays_stats.exists_runsTogether_iff.trans ?_
  exact and_iff_right T.globalMean_eq

/-- A client with a single row, where there are other rows. -/
theorem not_pooled_of_single {j : Fin T.N} (hj : T.rows j = 1) (htotal : T.joined.length ≠ 1) :
    ¬ T.Pooled := by
  rw [pooled_iff_cov]
  intro hcov
  -- some column there is
  have hd : 0 < T.d := Nat.lt_of_lt_of_le T.components_pos T.components_le
  have hsample := hcov ⟨0, hd⟩ ⟨0, hd⟩
  rw [T.global_cov_of_single hj, sampleCov, divide_of_ne_zero] at hsample
  · cases hsample
  · apply length_sub_one_ne_zero
    have hlen := T.length_joined_pos
    omega

/-- **The server's statistics are those of the joined rows** exactly if every client has two rows,
or there is one row in all, which has no covariances. -/
theorem covariance_pooled_iff :
    T.Pooled ↔ (∀ j, 2 ≤ T.rows j) ∨ ((List.finRange T.N).map T.rows).sum = 1 := by
  rw [← T.length_joined]
  constructor
  · intro hpooled
    by_contra hnot
    rw [not_or, not_forall] at hnot
    obtain ⟨⟨j, hj⟩, htotal⟩ := hnot
    have hpos := T.rows_pos j
    exact T.not_pooled_of_single (j := j) (by omega) htotal hpooled
  · rw [pooled_iff_cov]
    rintro (htwo | hone)
    · exact T.global_cov_of_two htwo
    · intro c c'
      have hj : T.rows ⟨0, T.N_pos⟩ = 1 := by
        have hle := List.single_le_sum (fun _ _ => Nat.zero_le _) _
          (List.mem_map_of_mem (f := T.rows) (List.mem_finRange ⟨0, T.N_pos⟩))
        rw [← T.length_joined, hone] at hle
        have hpos := T.rows_pos ⟨0, T.N_pos⟩
        omega
      rw [T.global_cov_of_single hj, sampleCov, hone, divide, if_pos (by norm_num)]

end Clients

/-- A client with `n` rows beside one with two. -/
def besideTwo (n : ℕ) (hn : 0 < n) : Clients ℚ where
  N := 2
  N_pos := Nat.two_pos
  d := 1
  n_components := 1
  components_pos := le_rfl
  components_le := le_rfl
  rows := fun j => if j.val = 0 then n else 2
  rows_pos := by
    intro j
    split_ifs
    · exact hn
    · exact Nat.two_pos
  X := fun _ r _ => some r.val
  accepted := fun _ _ _ _ => rfl

theorem pooled_iff_besideTwo : (besideTwo 3 (Nat.succ_pos 2)).Pooled ↔
    (∀ j, 2 ≤ (besideTwo 3 (Nat.succ_pos 2)).rows j) ∨
      ((List.finRange 2).map (besideTwo 3 (Nat.succ_pos 2)).rows).sum = 1 :=
  (besideTwo 3 (Nat.succ_pos 2)).covariance_pooled_iff

/-- One row beside two rows. -/
theorem not_pooled_besideTwo : ¬ (besideTwo 1 Nat.one_pos).Pooled := by
  refine Clients.not_pooled_of_single _ (j := ⟨0, Nat.two_pos⟩) rfl ?_
  rw [Clients.length_joined]
  decide

end Fediux.Preprocessing.Pca
