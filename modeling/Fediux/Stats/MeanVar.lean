import Fediux.Basic.Moments
import Fediux.Stats.Exchange

set_option autoImplicit false

/-! # Mean and variance of the columns

`python/fediux/FL/stats/mean_var.py`, in exact arithmetic. A client sends the number of its values
as one number or, where a value is missing, as one for each column.
-/

namespace Fediux.Stats

open Session Session.Prog Messaging Vfl

/-! ## Numbers of values -/

/-- For all columns, or for each one. -/
inductive Count (n : ℕ) where
  | scalar (m : ℕ)
  | array (v : Fin n → ℕ)

namespace Count

variable {n : ℕ}

def get (c : Fin n) : Count n → ℕ
  | scalar m => m
  | array v => v c

/-- `+`, with broadcasting. -/
def add : Count n → Count n → Count n
  | scalar m, scalar m' => scalar (m + m')
  | m, m' => array fun c => m.get c + m'.get c

/-- The loop over the numbers of the clients. -/
def total (ns : List (Count n)) : Count n := ns.foldl add (scalar 0)

/-- A number for each column becomes one number where `np.ptp` is zero. -/
def collapse : Count n → Count n
  | scalar m => scalar m
  | array v =>
      if h : 0 < n then if ∀ c, v c = v ⟨0, h⟩ then scalar (v ⟨0, h⟩) else array v
      else array v

theorem get_add (m m' : Count n) (c : Fin n) : (m.add m').get c = m.get c + m'.get c := by
  cases m <;> cases m' <;> rfl

theorem get_foldl_add (ns : List (Count n)) (m : Count n) (c : Fin n) :
    (ns.foldl add m).get c = m.get c + (ns.map fun k => k.get c).sum := by
  induction ns generalizing m with
  | nil => simp
  | cons k ns ih =>
      rw [List.foldl_cons, ih, get_add, List.map_cons, List.sum_cons, Nat.add_assoc]

theorem get_total (ns : List (Count n)) (c : Fin n) :
    (total ns).get c = (ns.map fun k => k.get c).sum := by
  rw [total, get_foldl_add]
  exact Nat.zero_add _

theorem get_collapse (m : Count n) (c : Fin n) : m.collapse.get c = m.get c := by
  cases m with
  | scalar m => rfl
  | array v =>
      have hpos : 0 < n := Fin.pos c
      rw [collapse, dif_pos hpos]
      split
      · next hall => exact (hall c).symm
      · rfl

end Count

/-! ## The messages -/

inductive Message (n : ℕ) (K : Type) where
  | nothing
  | array (v : Arr n K)
  | arrays (v w : Arr n K)
  | count (m : Count n)

instance (n : ℕ) (K : Type) : Inhabited (Message n K) := ⟨.nothing⟩

namespace Message

variable {n : ℕ} {K : Type}

def array? : Message n K → Option (Arr n K)
  | array v => some v
  | _ => none

def arrays? : Message n K → Option (Arr n K × Arr n K)
  | arrays v w => some (v, w)
  | _ => none

def count? : Message n K → Option (Count n)
  | count m => some m
  | _ => none

/-- An array or `None`. -/
def result? : Message n K → Option (Option (Arr n K))
  | nothing => some none
  | array v => some (some v)
  | _ => none

def ofResult : Option (Arr n K) → Message n K
  | none => nothing
  | some v => array v

@[simp] theorem result?_ofResult (v : Option (Arr n K)) : (ofResult v).result? = some v := by
  cases v <;> rfl

end Message

/-! ## The functions -/

section Functions

variable {N rows cols : ℕ} {K : Type} [Field K]

abbrev MeanNet (N cols : ℕ) (K α : Type) := Prog (Party N × Key) (Message cols K) Err α

/-- The number of missing values of each column. -/
def col_n_nan (X : Matrix rows cols K) (c : Fin cols) : ℕ := (column X c).countP Option.isNone

/-- `client_col_n` -/
def col_n (ignore_nan : Bool) (X : Matrix rows cols K) : Count cols :=
  if ignore_nan = true ∧ ∃ c, col_n_nan X c ≠ 0 then .array fun c => rows - col_n_nan X c
  else .scalar rows

/-- `s / n`, which is missing where there is no value. -/
def quotient (s : Arr cols K) (n : Count cols) : Arr cols K :=
  fun c => (s c).bind fun s => if n.get c = 0 then none else some (s / n.get c)

def var (s s_square : Arr cols K) (n : Count cols) : Arr cols K :=
  fun c => Option.map₂ (fun q m => q - m ^ 2) (quotient s_square n c) (quotient s n c)

def square (X : Matrix rows cols K) : Matrix rows cols K := mapMatrix (fun x => x ^ 2) X

variable (ignore_nan : Bool)

def col_mean_client (X : Matrix rows cols K) (send_server recv_server : Bool) :
    MeanNet N cols K (Option (Arr cols K)) :=
  check_array ignore_nan X <|
  let client_col_sum := axis0 (sumOf ignore_nan) X
  let client_col_n := col_n ignore_nan X
  let receive :=
    if recv_server then recvHost Message.result? .TypeError .server_col_mean .ret
    else .ret (some (quotient client_col_sum client_col_n))
  if send_server then
    sendHost .client_col_sum (.array client_col_sum) <|
    sendHost .client_col_n (.count client_col_n) receive
  else receive

def col_mean_server (send_client recv_client : Bool) : MeanNet N cols K (Option (Arr cols K)) :=
  let finish := fun server_col_mean : Option (Arr cols K) =>
    if send_client then
      send_all .server_col_mean (.ofResult server_col_mean) (.ret server_col_mean)
    else .ret server_col_mean
  if recv_client then
    recv_all Message.array? .TypeError .client_col_sum fun client_col_sum =>
    recv_all Message.count? .TypeError .client_col_n fun client_col_n =>
    finish <| some <|
      quotient (stacked (sumOf ignore_nan) client_col_sum) (Count.total client_col_n)
  else finish none

def col_var_client (X : Matrix rows cols K) (send_server recv_server : Bool) :
    MeanNet N cols K (Option (Arr cols K)) :=
  check_array ignore_nan X <|
  let client_col_sum := axis0 (sumOf ignore_nan) X
  let client_col_sum_square := axis0 (sumOf ignore_nan) (square X)
  let client_col_n := col_n ignore_nan X
  let receive :=
    if recv_server then recvHost Message.result? .TypeError .server_col_var .ret
    else .ret (some (var client_col_sum client_col_sum_square client_col_n))
  if send_server then
    sendHost .client_col_sum_sum_square (.arrays client_col_sum client_col_sum_square) <|
    sendHost .client_col_n (.count client_col_n) receive
  else receive

def col_var_server (send_client recv_client : Bool) : MeanNet N cols K (Option (Arr cols K)) :=
  let finish := fun server_col_var : Option (Arr cols K) =>
    if send_client then
      send_all .server_col_var (.ofResult server_col_var) (.ret server_col_var)
    else .ret server_col_var
  if recv_client then
    recv_all Message.arrays? .TypeError .client_col_sum_sum_square fun sum_sum_square =>
    recv_all Message.count? .TypeError .client_col_n fun client_col_n =>
    finish <| some <|
      var (stacked (sumOf ignore_nan) (sum_sum_square.map Prod.fst))
        (stacked (sumOf ignore_nan) (sum_sum_square.map Prod.snd)) (Count.total client_col_n)
  else finish none

end Functions

/-! ## The joined table -/

/-- The tables of the clients; each column has a value somewhere. -/
structure ClientTables (K : Type) where
  N : ℕ
  cols : ℕ
  cols_pos : 0 < cols
  rows : Fin N → ℕ
  X : (j : Fin N) → Matrix (rows j) cols K
  someValue : ∀ c, ∃ j r, (X j r c).isSome = true

namespace ClientTables

variable {K : Type} (T : ClientTables K)

/-- The values of a column over all clients. -/
def values (c : Fin T.cols) : List K :=
  ((List.finRange T.N).flatMap fun j => column (T.X j) c).reduceOption

theorem values_eq (c : Fin T.cols) :
    T.values c = (List.finRange T.N).flatMap fun j => (column (T.X j) c).reduceOption :=
  Missing.reduceOption_flatMap _ _

theorem values_ne_nil (c : Fin T.cols) : T.values c ≠ [] := by
  obtain ⟨j, r, hsome⟩ := T.someValue c
  obtain ⟨x, hx⟩ := Option.isSome_iff_exists.mp hsome
  intro hnil
  have hmem : x ∈ T.values c := by
    rw [values, List.reduceOption_mem_iff]
    exact List.mem_flatMap.mpr
      ⟨j, List.mem_finRange j, List.mem_map.mpr ⟨r, List.mem_finRange r, hx⟩⟩
  exact List.not_mem_nil (hnil ▸ hmem)

/-- The clients' numbers of values, in either form. -/
def Counts (n : Fin T.N → Count T.cols) : Prop :=
  ∀ j c, (n j).get c = (column (T.X j) c).reduceOption.length

theorem get_total_counts {n : Fin T.N → Count T.cols} (hn : T.Counts n) (c : Fin T.cols) :
    (Count.total ((List.finRange T.N).map n)).get c = (T.values c).length := by
  rw [Count.get_total, List.map_map, values_eq, List.length_flatMap]
  exact congrArg List.sum (List.map_congr_left fun j _ => hn j c)

theorem length_column (j : Fin T.N) (c : Fin T.cols) : (column (T.X j) c).length = T.rows j := by
  rw [column, List.length_map, List.length_finRange]

theorem sub_col_n_nan (j : Fin T.N) (c : Fin T.cols) :
    T.rows j - col_n_nan (T.X j) c = (column (T.X j) c).reduceOption.length := by
  have hlen := Missing.length_sub_missing (column (T.X j) c)
  rwa [T.length_column j c] at hlen

/-- One number is enough where no value is missing. -/
theorem counts_col_n {ignore_nan : Bool} (h : ∀ j, Accepted ignore_nan (T.X j)) :
    T.Counts fun j => col_n ignore_nan (T.X j) := by
  intro j c
  show (col_n ignore_nan (T.X j)).get c = _
  unfold col_n
  split
  · exact T.sub_col_n_nan j c
  · next hnone =>
      show T.rows j = _
      rw [← T.sub_col_n_nan j c]
      have hzero : col_n_nan (T.X j) c = 0 := by
        cases hignore : ignore_nan with
        | true =>
            by_contra hne
            exact hnone ⟨hignore, c, hne⟩
        | false =>
            have hcomplete := complete_column (h j) hignore c
            unfold col_n_nan
            rw [List.countP_eq_zero]
            intro o ho
            obtain ⟨x, rfl⟩ := Option.isSome_iff_exists.mp (List.all_eq_true.mp hcomplete o ho)
            exact Bool.false_ne_true
      omega

theorem mapMatrix_id {rows cols : ℕ} (X : Matrix rows cols K) : mapMatrix (fun x => x) X = X := by
  funext r c
  exact Option.map_id'

variable [Field K]

/-- The sum of the clients' sums of a function of the values. -/
theorem stacked_sum {ignore_nan : Bool} (h : ∀ j, Accepted ignore_nan (T.X j)) (f : K → K)
    (c : Fin T.cols) :
    stacked (sumOf ignore_nan)
        ((List.finRange T.N).map fun j => axis0 (sumOf ignore_nan) (mapMatrix f (T.X j))) c =
      some ((T.values c).map f).sum := by
  have hlocal : ∀ j, sumOf ignore_nan (column (mapMatrix f (T.X j)) c) =
      some ((column (T.X j) c).reduceOption.map f).sum := by
    intro j
    have hmap : column (mapMatrix f (T.X j)) c = (column (T.X j) c).map (Option.map f) := by
      rw [column, column, List.map_map]
      rfl
    have hcomplete : ignore_nan = false → Missing.Complete (column (mapMatrix f (T.X j)) c) := by
      intro hignore
      refine complete_column (fun _ r c => ?_) hignore c
      rw [mapMatrix, Option.isSome_map]
      exact h j hignore r c
    unfold sumOf
    rw [Missing.guarded_of_complete _ hcomplete, Missing.nansum, hmap, List.reduceOption_map]
  calc stacked (sumOf ignore_nan)
        ((List.finRange T.N).map fun j => axis0 (sumOf ignore_nan) (mapMatrix f (T.X j))) c
      = sumOf ignore_nan (((List.finRange T.N).map
          fun j => ((column (T.X j) c).reduceOption.map f).sum).map some) := by
        rw [stacked, List.map_map, List.map_map]
        exact congrArg _ (List.map_congr_left fun j _ => hlocal j)
    _ = some ((T.values c).map f).sum := by
        rw [sumOf_map_some, values_eq, List.map_flatMap, Moments.sum_flatMap]

/-- The sums of the values. -/
def sums : Arr T.cols K := fun c => some (T.values c).sum

def sumSquares : Arr T.cols K := fun c => some (Moments.sumSquares (T.values c))

theorem stacked_sums {ignore_nan : Bool} (h : ∀ j, Accepted ignore_nan (T.X j)) :
    stacked (sumOf ignore_nan)
      ((List.finRange T.N).map fun j => axis0 (sumOf ignore_nan) (T.X j)) = T.sums := by
  funext c
  have hsum := T.stacked_sum h (fun x => x) c
  simp only [mapMatrix_id, List.map_id'] at hsum
  exact hsum

theorem stacked_sumSquares {ignore_nan : Bool} (h : ∀ j, Accepted ignore_nan (T.X j)) :
    stacked (sumOf ignore_nan)
      ((List.finRange T.N).map fun j => axis0 (sumOf ignore_nan) (square (T.X j))) =
        T.sumSquares :=
  funext fun c => T.stacked_sum h (fun x => x ^ 2) c

/-- The means of the columns. -/
def means : Arr T.cols K := fun c => some (Moments.mean (T.values c))

/-- The population variances of the columns. -/
def variances : Arr T.cols K := fun c => some (Moments.variance (T.values c))

/-- `n` has the number of values of each column of the joined table. -/
def IsTotal (n : Count T.cols) : Prop := ∀ c, n.get c = (T.values c).length

variable {n : Count T.cols}

theorem quotient_of_total (hn : T.IsTotal n) (s : Fin T.cols → K) :
    quotient (fun c => some (s c)) n = fun c => some (s c / (T.values c).length) := by
  funext c
  have hne : ¬ n.get c = 0 := by
    rw [hn c, List.length_eq_zero_iff]
    exact T.values_ne_nil c
  show (if n.get c = 0 then none else some (s c / (n.get c : K))) = _
  rw [if_neg hne, hn c]

theorem quotient_sums (hn : T.IsTotal n) : quotient T.sums n = T.means :=
  T.quotient_of_total hn fun c => (T.values c).sum

theorem var_sums [CharZero K] (hn : T.IsTotal n) : var T.sums T.sumSquares n = T.variances := by
  funext c
  have hs := congrFun (T.quotient_of_total hn fun c => (T.values c).sum) c
  have hq := congrFun (T.quotient_of_total hn fun c => Moments.sumSquares (T.values c)) c
  show Option.map₂ _ (quotient T.sumSquares n c) (quotient T.sums n c) = _
  rw [show quotient T.sums n c = _ from hs, show quotient T.sumSquares n c = _ from hq]
  exact congrArg some (Moments.variance_eq (T.values_ne_nil c)).symm

/-! ## The exchanges -/

section Exchanges

variable {T} (hrows : ∀ j, 0 < T.rows j) {ignore_nan : Bool}
  (h : ∀ j, Accepted ignore_nan (T.X j))
include hrows h

theorem plays_col_mean :
    Plays
      (together (col_mean_server ignore_nan true true) fun j =>
        col_mean_client ignore_nan (T.X j) true true)
      (both (some T.means) fun _ => some T.means) := by
  unfold col_mean_client
  simp only [check_array_of_accepted (hrows _) T.cols_pos (h _)]
  refine guests_to_host (fun _ => rfl) (guests_to_host (fun _ => rfl) ?_)
  rw [T.stacked_sums h, T.quotient_sums (T.get_total_counts (T.counts_col_n h))]
  exact host_to_guests (fun _ => rfl) (plays_ret _ _)

theorem plays_col_var [CharZero K] :
    Plays
      (together (col_var_server ignore_nan true true) fun j =>
        col_var_client ignore_nan (T.X j) true true)
      (both (some T.variances) fun _ => some T.variances) := by
  unfold col_var_client
  simp only [check_array_of_accepted (hrows _) T.cols_pos (h _)]
  refine guests_to_host (fun _ => rfl) (guests_to_host (fun _ => rfl) ?_)
  rw [List.map_map, List.map_map]
  have hsums : stacked (sumOf ignore_nan) ((List.finRange T.N).map (Prod.fst ∘ fun j =>
      (axis0 (sumOf ignore_nan) (T.X j), axis0 (sumOf ignore_nan) (square (T.X j))))) = T.sums :=
    T.stacked_sums h
  have hsquares : stacked (sumOf ignore_nan) ((List.finRange T.N).map (Prod.snd ∘ fun j =>
      (axis0 (sumOf ignore_nan) (T.X j), axis0 (sumOf ignore_nan) (square (T.X j))))) =
        T.sumSquares :=
    T.stacked_sumSquares h
  rw [hsums, hsquares, T.var_sums (T.get_total_counts (T.counts_col_n h))]
  exact host_to_guests (fun _ => rfl) (plays_ret _ _)

end Exchanges

end ClientTables

end Fediux.Stats
