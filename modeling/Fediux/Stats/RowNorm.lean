import Fediux.Stats.MinMax

set_option autoImplicit false

/-! # The norm of the joined rows

`row_sum` of `python/fediux/FL/stats/sum.py` and `row_norm` of `norm.py`. The values are taken as
exact, and `sqrt` is a function of them.
-/

namespace Fediux.Stats

open Session Session.Prog Messaging Vfl
open Missing (nanmax)

inductive Norm where
  | l1
  | l2
  | max
  deriving DecidableEq, Repr

section Functions

variable {N rows cols n : ℕ} {K : Type} [Field K] [LinearOrder K]

def row_sum_guest (ignore_nan : Bool) (X : Matrix rows cols K) (send_host recv_host : Bool) :
    Net N (Arr rows K) (Option (Arr rows K)) :=
  check_array ignore_nan X <|
  guestSide .guest_row_sum .global_row_sum (axis1 (sumOf ignore_nan) X) send_host recv_host

def row_sum_host (ignore_nan : Bool) (X : Matrix rows cols K) (send_guest recv_guest : Bool) :
    Net N (Arr rows K) (Option (Arr rows K)) :=
  check_array ignore_nan X <|
  hostSide .guest_row_sum .global_row_sum
    (fun guest_row_sum => some (stacked (sumOf ignore_nan) guest_row_sum))
    (some (axis1 (sumOf ignore_nan) X)) send_guest recv_guest

variable (sqrt : K → K)

def row_norm_guest (norm : Norm) (ignore_nan : Bool) (X : Matrix rows cols K)
    (send_host recv_host : Bool) : Net N (Arr rows K) (Option (Arr rows K)) :=
  match norm with
  | .l1 => row_sum_guest ignore_nan (mapMatrix (fun x => |x|) X) send_host recv_host
  | .l2 =>
      (row_sum_guest ignore_nan (mapMatrix (fun x => x ^ 2) X) send_host false).bind
        fun global_row_norm =>
      if recv_host then recvHost some .TypeError .global_row_norm .ret
      else .ret (global_row_norm.map (mapArr sqrt))
  | .max => row_max_guest ignore_nan (mapMatrix (fun x => |x|) X) send_host recv_host

/-- The root is taken of the joined sum of squares. -/
def row_norm_host (norm : Norm) (ignore_nan : Bool) (X : Matrix rows cols K)
    (send_guest recv_guest : Bool) : Net N (Arr rows K) (Option (Arr rows K)) :=
  match norm with
  | .l1 => row_sum_host ignore_nan (mapMatrix (fun x => |x|) X) send_guest recv_guest
  | .l2 =>
      (row_sum_host ignore_nan (mapMatrix (fun x => x ^ 2) X) false recv_guest).bind
        fun global_row_norm =>
      let global_row_norm := global_row_norm.map (mapArr sqrt)
      if send_guest then
        send_all .global_row_norm (if recv_guest then global_row_norm else none)
          (.ret global_row_norm)
      else .ret global_row_norm
  | .max => row_max_host ignore_nan (mapMatrix (fun x => |x|) X) send_guest recv_guest

end Functions

/-! ## Tables without missing values -/

/-- The host and the guests with their columns of a joined table. -/
structure Tables (K : Type) where
  N : ℕ
  rows : ℕ
  rows_pos : 0 < rows
  cols : Party N → ℕ
  cols_pos : ∀ i, 0 < cols i
  x : (i : Party N) → Fin rows → Fin (cols i) → K

namespace Tables

variable {K : Type} (T : Tables K)

/-- The parties in the order in which the host joins their values. -/
def parties : List (Party T.N) := guests T.N ++ [none]

def X (i : Party T.N) : Matrix T.rows (T.cols i) K := fun r c => some (T.x i r c)

/-- A row of a party. -/
def rowOf (i : Party T.N) (r : Fin T.rows) : List K := (List.finRange (T.cols i)).map (T.x i r)

/-- A row of the joined table. -/
def joined (r : Fin T.rows) : List K := T.parties.flatMap fun i => T.rowOf i r

theorem row_mapMatrix (f : K → K) (i : Party T.N) (r : Fin T.rows) :
    row (mapMatrix f (T.X i)) r = ((T.rowOf i r).map f).map some := by
  simp [row, mapMatrix, rowOf, X]

theorem accepted_mapMatrix (f : K → K) (i : Party T.N) : Accepted false (mapMatrix f (T.X i)) :=
  fun _ _ _ => rfl

theorem rowOf_ne_nil (i : Party T.N) (r : Fin T.rows) : T.rowOf i r ≠ [] := by
  intro hnil
  have hlen := congrArg List.length hnil
  have hpos := T.cols_pos i
  rw [rowOf, List.length_map, List.length_finRange, List.length_nil] at hlen
  omega

theorem joined_ne_nil (r : Fin T.rows) : T.joined r ≠ [] := by
  intro hnil
  refine T.rowOf_ne_nil none r (List.eq_nil_iff_forall_not_mem.mpr fun x hx => ?_)
  have hmem : x ∈ T.joined r :=
    List.mem_flatMap.mpr ⟨none, List.mem_append_right _ List.mem_cons_self, hx⟩
  exact List.not_mem_nil (hnil ▸ hmem)

variable [Field K] [LinearOrder K]

/-- The norm of a row. -/
def normOf (sqrt : K → K) (norm : Norm) (row : List K) : K :=
  match norm with
  | .l1 => (row.map fun x => |x|).sum
  | .l2 => sqrt (row.map fun x => x ^ 2).sum
  | .max => (row.map fun x => |x|).max?.getD 0

/-- The host's and a guest's call of `row_norm`. -/
def norm_host (sqrt : K → K) (norm : Norm) : Net T.N (Arr T.rows K) (Option (Arr T.rows K)) :=
  row_norm_host sqrt norm false (T.X none) true true

def norm_guest (sqrt : K → K) (norm : Norm) (j : Fin T.N) :
    Net T.N (Arr T.rows K) (Option (Arr T.rows K)) :=
  row_norm_guest sqrt norm false (T.X (some j)) true true

omit [LinearOrder K] in
/-- The sum of the parties' sums is the one over the joined row. -/
theorem stacked_sums (f : K → K) : stacked (sumOf false)
    (T.parties.map fun i => axis1 (sumOf false) (mapMatrix f (T.X i))) =
      fun r => some ((T.joined r).map f).sum := by
  funext r
  have hlocal : ((T.parties.map fun i => axis1 (sumOf false) (mapMatrix f (T.X i))).map
      fun v => v r) = (T.parties.map fun i => ((T.rowOf i r).map f).sum).map some := by
    rw [List.map_map, List.map_map]
    refine List.map_congr_left fun i _ => ?_
    show sumOf false (row (mapMatrix f (T.X i)) r) = _
    rw [row_mapMatrix, sumOf_map_some]
    rfl
  calc stacked (sumOf false)
        (T.parties.map fun i => axis1 (sumOf false) (mapMatrix f (T.X i))) r
      = some (T.parties.map fun i => ((T.rowOf i r).map f).sum).sum := by
        rw [stacked, hlocal, sumOf_map_some]
    _ = some ((T.joined r).map f).sum := by
        rw [joined, List.map_flatMap, List.flatMap_def, List.sum_flatten, List.map_map]
        rfl

omit [LinearOrder K] in
/-- The sums of all parties, in either direction. -/
theorem plays_row_sum (f : K → K) (d : Directions) :
    Plays
      (together (row_sum_host false (mapMatrix f (T.X none)) d.to_guests d.to_host) fun j =>
        row_sum_guest false (mapMatrix f (T.X (some j))) d.to_host d.to_guests)
      (both
        (hostResult d (some (axis1 (sumOf false) (mapMatrix f (T.X none))))
          fun r => some ((T.joined r).map f).sum)
        fun j => guestResult d (axis1 (sumOf false) (mapMatrix f (T.X (some j))))
          fun r => some ((T.joined r).map f).sum) := by
  unfold row_sum_host row_sum_guest
  simp only [check_array_of_accepted T.rows_pos (T.cols_pos _) (T.accepted_mapMatrix f _)]
  refine plays_sides d ?_
  rw [map_parties fun i => axis1 (sumOf false) (mapMatrix f (T.X i))]
  exact congrArg some (T.stacked_sums f)

/-- The absolute values. -/
def absolute : RowSetup K where
  N := T.N
  rows := T.rows
  rows_pos := T.rows_pos
  cols := T.cols
  cols_pos := T.cols_pos
  X i := mapMatrix (fun x => |x|) (T.X i)
  ignore_nan := false
  accepted i := T.accepted_mapMatrix _ i
  directions := ⟨true, true⟩

/-- The greatest of the parties' greatest absolute values. -/
theorem maxima_absolute (r : Fin T.rows) :
    T.absolute.maxima r = some (((T.joined r).map fun x => |x|).max?.getD 0) := by
  have hjoined : T.absolute.joined r = ((T.joined r).map fun x => |x|).map some := by
    rw [joined, List.map_flatMap, List.map_flatMap]
    exact List.flatMap_congr fun i _ => T.row_mapMatrix _ i r
  have hmax : nanmax (T.absolute.joined r) = ((T.joined r).map fun x => |x|).max? := by
    rw [hjoined, nanmax, Missing.reduceOption_map_some]
  have hsome : (((T.joined r).map fun x => |x|).max?).isSome = true := by
    rw [List.isSome_max?_iff]
    simp [T.joined_ne_nil r]
  have hunique : T.absolute.maxima r = nanmax (T.absolute.joined r) :=
    (T.absolute.areMaxima_maxima r).unique (fun _ _ hab hba => le_antisymm hba hab)
      (Missing.isExtreme_nanmax _)
  obtain ⟨m, hm⟩ := Option.isSome_iff_exists.mp hsome
  rw [hunique, hmax, hm]
  rfl

/-- The norms of all rows. -/
def norms (sqrt : K → K) (norm : Norm) : Arr T.rows K :=
  fun r => some (normOf sqrt norm (T.joined r))

/-- **Every party gets the norms of the joined rows.** -/
theorem plays_norm (sqrt : K → K) (norm : Norm) :
    Plays (together (T.norm_host sqrt norm) (T.norm_guest sqrt norm))
      (both (some (T.norms sqrt norm)) fun _ => some (T.norms sqrt norm)) := by
  cases norm with
  | l1 => exact T.plays_row_sum (fun x => |x|) ⟨true, true⟩
  | l2 =>
      refine plays_bind (T.plays_row_sum (fun x => x ^ 2) ⟨true, false⟩) ?_
      exact host_to_guests (fun _ => rfl) (plays_ret _ _)
  | max =>
      have hmax : T.absolute.maxima = T.norms sqrt .max := funext fun r => T.maxima_absolute r
      rw [← hmax]
      exact T.absolute.plays_row_max

end Tables

end Fediux.Stats
