import Fediux.Stats.Exchange

set_option autoImplicit false

/-! # Minimum and maximum over all parties

The functions of `python/fediux/FL/stats/min_max.py`. A missing value is `none`, and `np.nanmin`
of a slice without any value is missing.
-/

namespace Fediux.Stats

open Session Session.Prog Messaging Vfl
open Missing (nanmin nanmax guarded IsExtreme)

section Functions

variable {N rows cols n : ℕ} {K : Type} [LinearOrder K]

/-- `np.nanmin`, or `np.min`. -/
def minOf (ignore_nan : Bool) (l : List (Option K)) : Option K := guarded nanmin ignore_nan l

/-- `np.nanmax`, or `np.max`. -/
def maxOf (ignore_nan : Bool) (l : List (Option K)) : Option K := guarded nanmax ignore_nan l

/-- Minima and maxima. -/
abbrev Pair (n : ℕ) (K : Type) := Arr n K × Arr n K

/-- Both rows of a list of pairs. -/
def stackedPair (ignore_nan : Bool) (vs : List (Pair n K)) : Pair n K :=
  (stacked (minOf ignore_nan) (vs.map Prod.fst), stacked (maxOf ignore_nan) (vs.map Prod.snd))

variable (ignore_nan : Bool)

/-! ## Columns -/

def col_min_client (X : Matrix rows cols K) (send_server recv_server : Bool) :
    Net N (Arr cols K) (Option (Arr cols K)) :=
  check_array ignore_nan X <|
  guestSide .client_col_min .server_col_min (axis0 (minOf ignore_nan) X) send_server recv_server

/-- The arrays of the clients are checked once more. -/
def col_min_server (send_client recv_client : Bool) : Net N (Arr cols K) (Option (Arr cols K)) :=
  hostSide .client_col_min .server_col_min
    (fun client_col_min =>
      if ignore_nan || client_col_min.all fun v => decide (∀ c, (v c).isSome = true) then
        some (stacked (minOf ignore_nan) client_col_min)
      else none)
    none send_client recv_client

def col_max_client (X : Matrix rows cols K) (send_server recv_server : Bool) :
    Net N (Arr cols K) (Option (Arr cols K)) :=
  check_array ignore_nan X <|
  guestSide .client_col_max .server_col_max (axis0 (maxOf ignore_nan) X) send_server recv_server

def col_max_server (send_client recv_client : Bool) : Net N (Arr cols K) (Option (Arr cols K)) :=
  hostSide .client_col_max .server_col_max
    (fun client_col_max => some (stacked (maxOf ignore_nan) client_col_max))
    none send_client recv_client

def col_min_max_client (X : Matrix rows cols K) (send_server recv_server : Bool) :
    Net N (Pair cols K) (Option (Pair cols K)) :=
  check_array ignore_nan X <|
  guestSide .client_col_min_max .server_col_min_max
    (axis0 (minOf ignore_nan) X, axis0 (maxOf ignore_nan) X) send_server recv_server

/-- `(None, None)` is broadcast as nothing. -/
def col_min_max_server (send_client recv_client : Bool) :
    Net N (Pair cols K) (Option (Pair cols K)) :=
  hostSide .client_col_min_max .server_col_min_max
    (fun client_col_min_max => some (stackedPair ignore_nan client_col_min_max))
    none send_client recv_client

/-! ## Rows -/

def row_min_guest (X : Matrix rows cols K) (send_host recv_host : Bool) :
    Net N (Arr rows K) (Option (Arr rows K)) :=
  check_array ignore_nan X <|
  guestSide .guest_row_min .global_row_min (axis1 (minOf ignore_nan) X) send_host recv_host

def row_min_host (X : Matrix rows cols K) (send_guest recv_guest : Bool) :
    Net N (Arr rows K) (Option (Arr rows K)) :=
  check_array ignore_nan X <|
  hostSide .guest_row_min .global_row_min
    (fun guest_row_min => some (stacked (minOf ignore_nan) guest_row_min))
    (some (axis1 (minOf ignore_nan) X)) send_guest recv_guest

def row_max_guest (X : Matrix rows cols K) (send_host recv_host : Bool) :
    Net N (Arr rows K) (Option (Arr rows K)) :=
  check_array ignore_nan X <|
  guestSide .guest_row_max .global_row_max (axis1 (maxOf ignore_nan) X) send_host recv_host

def row_max_host (X : Matrix rows cols K) (send_guest recv_guest : Bool) :
    Net N (Arr rows K) (Option (Arr rows K)) :=
  check_array ignore_nan X <|
  hostSide .guest_row_max .global_row_max
    (fun guest_row_max => some (stacked (maxOf ignore_nan) guest_row_max))
    (some (axis1 (maxOf ignore_nan) X)) send_guest recv_guest

def row_min_max_guest (X : Matrix rows cols K) (send_host recv_host : Bool) :
    Net N (Pair rows K) (Option (Pair rows K)) :=
  check_array ignore_nan X <|
  guestSide .guest_row_min_max .global_row_min_max
    (axis1 (minOf ignore_nan) X, axis1 (maxOf ignore_nan) X) send_host recv_host

/-- `recv` instead of `recv_all`, which the channel to the guests does not have. -/
def row_min_max_host (X : Matrix rows cols K) (send_guest recv_guest : Bool) :
    Net N (Pair rows K) (Option (Pair rows K)) :=
  check_array ignore_nan X <|
  if recv_guest then .raise .AttributeError
  else
    hostSide .guest_row_min_max .global_row_min_max
      (fun guest_row_min_max => some (stackedPair ignore_nan guest_row_min_max))
      (some (axis1 (minOf ignore_nan) X, axis1 (maxOf ignore_nan) X)) send_guest false

end Functions

/-! ## The calls -/

inductive Statistic where
  | min
  | max
  | min_max
  deriving DecidableEq, Repr

/-- The clients of a column function, whose rows are joined. -/
structure ColSetup (K : Type) where
  N : ℕ
  N_pos : 0 < N
  rows : Fin N → ℕ
  rows_pos : ∀ j, 0 < rows j
  cols : ℕ
  cols_pos : 0 < cols
  X : (j : Fin N) → Matrix (rows j) cols K
  ignore_nan : Bool
  accepted : ∀ j, Accepted ignore_nan (X j)
  directions : Directions

/-- The host and the guests of a row function, whose columns are joined. -/
structure RowSetup (K : Type) where
  N : ℕ
  rows : ℕ
  rows_pos : 0 < rows
  cols : Party N → ℕ
  cols_pos : ∀ i, 0 < cols i
  X : (i : Party N) → Matrix rows (cols i) K
  ignore_nan : Bool
  accepted : ∀ i, Accepted ignore_nan (X i)
  directions : Directions

namespace ColSetup

variable {K : Type} [LinearOrder K] (S : ColSetup K)

/-- A column of the joined table. -/
def joined (c : Fin S.cols) : List (Option K) :=
  (List.finRange S.N).flatMap fun j => column (S.X j) c

def AreMinima (v : Arr S.cols K) : Prop := ∀ c, IsExtreme (· ≤ ·) (S.joined c) (v c)

def AreMaxima (v : Arr S.cols K) : Prop := ∀ c, IsExtreme (· ≥ ·) (S.joined c) (v c)

def col_min : Programs S.N (Arr S.cols K) where
  host := col_min_server S.ignore_nan S.directions.to_guests S.directions.to_host
  guest j := col_min_client S.ignore_nan (S.X j) S.directions.to_host S.directions.to_guests

def col_max : Programs S.N (Arr S.cols K) where
  host := col_max_server S.ignore_nan S.directions.to_guests S.directions.to_host
  guest j := col_max_client S.ignore_nan (S.X j) S.directions.to_host S.directions.to_guests

def col_min_max : Programs S.N (Pair S.cols K) where
  host := col_min_max_server S.ignore_nan S.directions.to_guests S.directions.to_host
  guest j := col_min_max_client S.ignore_nan (S.X j) S.directions.to_host S.directions.to_guests

/-- A function returns what it should. -/
def Right : Statistic → Prop
  | .min => S.col_min.Answers S.directions S.AreMinima
  | .max => S.col_max.Answers S.directions S.AreMaxima
  | .min_max =>
      S.col_min_max.Answers S.directions (fun v => S.AreMinima v.1 ∧ S.AreMaxima v.2) ∧
        S.col_min_max.Agree S.col_min S.col_max

omit [LinearOrder K] in
/-- The extreme values of the clients' extreme values. -/
theorem isExtreme_joined {R : K → K → Prop} {f : List (Option K) → Option K}
    (htrans : ∀ a b c, R a b → R b c → R a c) (hf : ∀ l, IsExtreme R l (f l)) (c : Fin S.cols) :
    IsExtreme R (S.joined c)
      (stacked (guarded f S.ignore_nan)
        ((List.finRange S.N).map fun j => axis0 (guarded f S.ignore_nan) (S.X j)) c) := by
  have hextreme := Missing.isExtreme_guarded_map htrans hf
    (fun j (_ : j ∈ List.finRange S.N) => column_ne_nil (S.rows_pos j) (S.X j) c)
    fun hignore j _ => complete_column (S.accepted j) hignore c
  unfold stacked axis0
  rw [List.map_map]
  exact hextreme

def minima : Arr S.cols K :=
  stacked (minOf S.ignore_nan)
    ((List.finRange S.N).map fun j => axis0 (minOf S.ignore_nan) (S.X j))

def maxima : Arr S.cols K :=
  stacked (maxOf S.ignore_nan)
    ((List.finRange S.N).map fun j => axis0 (maxOf S.ignore_nan) (S.X j))

theorem areMinima_minima : S.AreMinima S.minima :=
  S.isExtreme_joined (fun _ _ _ => le_trans) Missing.isExtreme_nanmin

theorem areMaxima_maxima : S.AreMaxima S.maxima :=
  S.isExtreme_joined (fun _ _ _ hab hbc => le_trans hbc hab) Missing.isExtreme_nanmax

/-- The second check of the minima finds nothing. -/
theorem accepted_minima : (S.ignore_nan ||
    ((List.finRange S.N).map fun j => axis0 (minOf S.ignore_nan) (S.X j)).all
      fun v => decide (∀ c, (v c).isSome = true)) = true := by
  cases hignore : S.ignore_nan with
  | true => rfl
  | false =>
      rw [Bool.false_or, List.all_eq_true]
      intro v hv
      obtain ⟨j, -, rfl⟩ := List.mem_map.mp hv
      exact decide_eq_true fun c => Missing.isSome_guarded Missing.isExtreme_nanmin
        (column_ne_nil (S.rows_pos j) (S.X j) c) (complete_column (S.accepted j) hignore c)

theorem right (stat : Statistic) : S.Right stat := by
  have hchecked : ∀ {V : Type} (j : Fin S.N) (k : Net S.N V (Option V)),
      check_array S.ignore_nan (S.X j) k = k := fun j =>
    check_array_of_accepted (S.rows_pos j) S.cols_pos (S.accepted j)
  have hmin : (fun client_col_min : List (Arr S.cols K) =>
      if S.ignore_nan || client_col_min.all fun v => decide (∀ c, (v c).isSome = true) then
        some (stacked (minOf S.ignore_nan) client_col_min)
      else none)
        ((List.finRange S.N).map (fun j => axis0 (minOf S.ignore_nan) (S.X j)) ++
          Option.toList none) = some S.minima := by
    rw [Option.toList_none, List.append_nil]
    exact if_pos S.accepted_minima
  have hmax : some (stacked (maxOf S.ignore_nan)
      ((List.finRange S.N).map (fun j => axis0 (maxOf S.ignore_nan) (S.X j)) ++
        Option.toList none)) = some S.maxima := by
    rw [Option.toList_none, List.append_nil]
    rfl
  have hpair : some (stackedPair S.ignore_nan
      ((List.finRange S.N).map (fun j =>
        (axis0 (minOf S.ignore_nan) (S.X j), axis0 (maxOf S.ignore_nan) (S.X j))) ++
          Option.toList none)) = some (S.minima, S.maxima) := by
    rw [Option.toList_none, List.append_nil, stackedPair, List.map_map, List.map_map]
    rfl
  cases stat with
  | min =>
      unfold Right col_min col_min_client
      simp only [hchecked]
      exact answers_sides S.directions hmin S.areMinima_minima
  | max =>
      unfold Right col_max col_max_client
      simp only [hchecked]
      exact answers_sides S.directions hmax S.areMaxima_maxima
  | min_max =>
      unfold Right col_min_max col_min col_max col_min_max_client col_min_client col_max_client
      simp only [hchecked]
      exact ⟨answers_sides S.directions hpair ⟨S.areMinima_minima, S.areMaxima_maxima⟩,
        agree_sides S.directions rfl hmin hmax hpair⟩

end ColSetup

namespace RowSetup

variable {K : Type} [LinearOrder K] (S : RowSetup K)

/-- A row of the joined table. -/
def joined (r : Fin S.rows) : List (Option K) :=
  (guests S.N ++ [none]).flatMap fun i => row (S.X i) r

def AreMinima (v : Arr S.rows K) : Prop := ∀ r, IsExtreme (· ≤ ·) (S.joined r) (v r)

def AreMaxima (v : Arr S.rows K) : Prop := ∀ r, IsExtreme (· ≥ ·) (S.joined r) (v r)

def row_min : Programs S.N (Arr S.rows K) where
  host := row_min_host S.ignore_nan (S.X none) S.directions.to_guests S.directions.to_host
  guest j := row_min_guest S.ignore_nan (S.X (some j)) S.directions.to_host S.directions.to_guests

def row_max : Programs S.N (Arr S.rows K) where
  host := row_max_host S.ignore_nan (S.X none) S.directions.to_guests S.directions.to_host
  guest j := row_max_guest S.ignore_nan (S.X (some j)) S.directions.to_host S.directions.to_guests

def row_min_max : Programs S.N (Pair S.rows K) where
  host := row_min_max_host S.ignore_nan (S.X none) S.directions.to_guests S.directions.to_host
  guest j :=
    row_min_max_guest S.ignore_nan (S.X (some j)) S.directions.to_host S.directions.to_guests

def Right : Statistic → Prop
  | .min => S.row_min.Answers S.directions S.AreMinima
  | .max => S.row_max.Answers S.directions S.AreMaxima
  | .min_max =>
      S.row_min_max.Answers S.directions (fun v => S.AreMinima v.1 ∧ S.AreMaxima v.2) ∧
        S.row_min_max.Agree S.row_min S.row_max

omit [LinearOrder K] in
/-- The extreme values of the extreme values of the guests and the host. -/
theorem isExtreme_joined {R : K → K → Prop} {f : List (Option K) → Option K}
    (htrans : ∀ a b c, R a b → R b c → R a c) (hf : ∀ l, IsExtreme R l (f l)) (r : Fin S.rows) :
    IsExtreme R (S.joined r)
      (stacked (guarded f S.ignore_nan)
        ((guests S.N ++ [none]).map fun i => axis1 (guarded f S.ignore_nan) (S.X i)) r) := by
  have hextreme := Missing.isExtreme_guarded_map htrans hf
    (fun i (_ : i ∈ guests S.N ++ [none]) => row_ne_nil (S.cols_pos i) (S.X i) r)
    fun hignore i _ => complete_row (S.accepted i) hignore r
  unfold stacked axis1
  rw [List.map_map]
  exact hextreme

def minima : Arr S.rows K :=
  stacked (minOf S.ignore_nan)
    ((guests S.N ++ [none]).map fun i => axis1 (minOf S.ignore_nan) (S.X i))

def maxima : Arr S.rows K :=
  stacked (maxOf S.ignore_nan)
    ((guests S.N ++ [none]).map fun i => axis1 (maxOf S.ignore_nan) (S.X i))

theorem areMinima_minima : S.AreMinima S.minima :=
  S.isExtreme_joined (fun _ _ _ => le_trans) Missing.isExtreme_nanmin

theorem areMaxima_maxima : S.AreMaxima S.maxima :=
  S.isExtreme_joined (fun _ _ _ hab hbc => le_trans hbc hab) Missing.isExtreme_nanmax

omit [LinearOrder K] in
theorem checked {V : Type} (i : Party S.N) (k : Net S.N V (Option V)) :
    check_array S.ignore_nan (S.X i) k = k :=
  check_array_of_accepted S.rows_pos (S.cols_pos i) (S.accepted i) k

theorem combine_min : some (stacked (minOf S.ignore_nan)
    ((List.finRange S.N).map (fun j => axis1 (minOf S.ignore_nan) (S.X (some j))) ++
      (some (axis1 (minOf S.ignore_nan) (S.X none))).toList)) = some S.minima := by
  rw [map_parties fun i => axis1 (minOf S.ignore_nan) (S.X i)]
  rfl

theorem combine_max : some (stacked (maxOf S.ignore_nan)
    ((List.finRange S.N).map (fun j => axis1 (maxOf S.ignore_nan) (S.X (some j))) ++
      (some (axis1 (maxOf S.ignore_nan) (S.X none))).toList)) = some S.maxima := by
  rw [map_parties fun i => axis1 (maxOf S.ignore_nan) (S.X i)]
  rfl

theorem right_min : S.Right .min := by
  unfold Right row_min row_min_host row_min_guest
  simp only [checked]
  exact answers_sides S.directions S.combine_min S.areMinima_minima

theorem plays_row_max : Plays (together S.row_max.host S.row_max.guest)
    (both (hostResult S.directions (some (axis1 (maxOf S.ignore_nan) (S.X none))) S.maxima)
      fun j => guestResult S.directions (axis1 (maxOf S.ignore_nan) (S.X (some j))) S.maxima) := by
  unfold row_max row_max_host row_max_guest
  simp only [checked]
  exact plays_sides S.directions S.combine_max

theorem right_max : S.Right .max :=
  answers_of_plays S.directions S.plays_row_max S.areMaxima_maxima

/-- Nobody sends to the host, so it does not receive. -/
theorem right_min_max (h : S.directions.to_host = false) : S.Right .min_max := by
  have hpair : some (stackedPair S.ignore_nan
      ((List.finRange S.N).map (fun j =>
        (axis1 (minOf S.ignore_nan) (S.X (some j)), axis1 (maxOf S.ignore_nan) (S.X (some j)))) ++
          (some (axis1 (minOf S.ignore_nan) (S.X none),
            axis1 (maxOf S.ignore_nan) (S.X none))).toList)) = some (S.minima, S.maxima) := by
    rw [map_parties fun i =>
      (axis1 (minOf S.ignore_nan) (S.X i), axis1 (maxOf S.ignore_nan) (S.X i)),
      stackedPair, List.map_map, List.map_map]
    rfl
  have hhost : ∀ k : Net S.N (Pair S.rows K) (Option (Pair S.rows K)),
      (if S.directions.to_host then .raise .AttributeError else k) = k := by
    intro k
    rw [h]
    rfl
  unfold Right row_min_max row_min row_max row_min_max_host row_min_host row_max_host
    row_min_max_guest row_min_guest row_max_guest
  simp only [checked, hhost]
  rw [← h]
  exact ⟨answers_sides S.directions hpair ⟨S.areMinima_minima, S.areMaxima_maxima⟩,
    agree_sides S.directions rfl S.combine_min S.combine_max hpair⟩

/-- The host that receives raises an error. -/
theorem not_right_min_max (h : S.directions.to_host = true) : ¬ S.Right .min_max := by
  rintro ⟨⟨host, guest, hend, -⟩, -⟩
  have hraise : S.row_min_max.host = .raise .AttributeError := by
    unfold row_min_max row_min_max_host
    rw [checked, h, if_pos rfl]
  exact hend.ne_raise (.refl _) none .AttributeError hraise

end RowSetup

/-! ## All calls -/

inductive Call (K : Type) where
  | columns (S : ColSetup K)
  | rows (S : RowSetup K)

namespace Call

variable {K : Type} [LinearOrder K]

def Right (stat : Statistic) : Call K → Prop
  | columns S => S.Right stat
  | rows S => S.Right stat

/-- The host of the row functions is to receive. -/
def HostReceives : Call K → Prop
  | columns _ => False
  | rows S => S.directions.to_host = true

end Call

/-- **All functions but one are right; minima and maxima of rows together fail whenever the host
is to receive.** -/
theorem minMax_right_iff {K : Type} [LinearOrder K] (call : Call K) (stat : Statistic) :
    call.Right stat ↔ ¬ (stat = .min_max ∧ call.HostReceives) := by
  cases call with
  | columns S => exact iff_of_true (S.right stat) fun h => h.2
  | rows S =>
      cases stat with
      | min => exact iff_of_true S.right_min fun h => Statistic.noConfusion h.1
      | max => exact iff_of_true S.right_max fun h => Statistic.noConfusion h.1
      | min_max =>
          cases hhost : S.directions.to_host with
          | false =>
              refine iff_of_true (S.right_min_max hhost) fun h => ?_
              exact Bool.false_ne_true (hhost.symm.trans h.2)
          | true => exact iff_of_false (S.not_right_min_max hhost) fun h => h ⟨rfl, hhost⟩

/-- A host and a guest with one value each. -/
def oneRow : RowSetup ℤ where
  N := 1
  rows := 1
  rows_pos := Nat.one_pos
  cols := fun _ => 1
  cols_pos := fun _ => Nat.one_pos
  X := fun _ _ _ => some 0
  ignore_nan := true
  accepted := fun _ h => Bool.noConfusion h
  directions := ⟨true, true⟩

theorem not_right_oneRow : ¬ (Call.rows oneRow).Right .min_max := by
  rintro ⟨⟨host, guest, hend, -⟩, -⟩
  exact hend.ne_raise (.refl _) none .AttributeError rfl

end Fediux.Stats
