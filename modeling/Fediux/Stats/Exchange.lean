import Fediux.Basic.Missing
import Fediux.Vfl.HostGuests

set_option autoImplicit false

/-! # The exchanges of the statistics

What the functions of `python/fediux/FL/stats` have in common: every client or guest sends its
local values, and the server or host combines them, in the row functions with its own ones, and
broadcasts the result. Either direction may be switched off, on both sides alike.
-/

namespace Fediux.Stats

open Session Session.Prog Messaging Vfl

inductive Key where
  | client_col_min
  | server_col_min
  | client_col_max
  | server_col_max
  | client_col_min_max
  | server_col_min_max
  | guest_row_min
  | global_row_min
  | guest_row_max
  | global_row_max
  | guest_row_min_max
  | global_row_min_max
  | guest_row_sum
  | global_row_sum
  | global_row_norm
  | client_col_sum
  | client_col_sum_sum_square
  | client_col_n
  | server_col_mean
  | server_col_var
  | n_samples
  | X_sum
  | X_sum_sum_square
  | mean
  | scale
  | mean_scale
  | sum_masked
  deriving DecidableEq, Repr

inductive Err where
  | ValueError
  | TypeError
  | AttributeError
  deriving DecidableEq, Repr

/-! ## Arrays -/

/-- A missing value is `none`. -/
abbrev Matrix (rows cols : ℕ) (K : Type) := Fin rows → Fin cols → Option K

abbrev Arr (n : ℕ) (K : Type) := Fin n → Option K

section Arrays

variable {rows cols n : ℕ} {K : Type}

def column (X : Matrix rows cols K) (c : Fin cols) : List (Option K) :=
  (List.finRange rows).map fun r => X r c

def row (X : Matrix rows cols K) (r : Fin rows) : List (Option K) := (List.finRange cols).map (X r)

/-- `axis=0` -/
def axis0 (f : List (Option K) → Option K) (X : Matrix rows cols K) : Arr cols K :=
  fun c => f (column X c)

/-- `axis=1` -/
def axis1 (f : List (Option K) → Option K) (X : Matrix rows cols K) : Arr rows K :=
  fun r => f (row X r)

/-- `axis=0` of a list of arrays. -/
def stacked (f : List (Option K) → Option K) (vs : List (Arr n K)) : Arr n K :=
  fun i => f (vs.map fun v => v i)

theorem column_ne_nil (h : 0 < rows) (X : Matrix rows cols K) (c : Fin cols) :
    column X c ≠ [] := by
  intro hnil
  have hlen := congrArg List.length hnil
  rw [column, List.length_map, List.length_finRange, List.length_nil] at hlen
  omega

theorem row_ne_nil (h : 0 < cols) (X : Matrix rows cols K) (r : Fin rows) : row X r ≠ [] := by
  intro hnil
  have hlen := congrArg List.length hnil
  rw [row, List.length_map, List.length_finRange, List.length_nil] at hlen
  omega

/-! ### Sums -/

section Sums

variable [AddMonoid K]

/-- `np.nansum`, or `np.sum`. -/
def sumOf (ignore_nan : Bool) (l : List (Option K)) : Option K :=
  Missing.guarded Missing.nansum ignore_nan l

theorem sumOf_map_some (ignore_nan : Bool) (l : List K) :
    sumOf ignore_nan (l.map some) = some l.sum := by
  unfold sumOf
  rw [Missing.guarded_of_complete _ fun _ => Missing.complete_map_some l, Missing.nansum,
    Missing.reduceOption_map_some]

/-- A missing value that is not ignored. -/
theorem sumOf_of_none {l : List (Option K)} (h : none ∈ l) : sumOf false l = none := by
  have hcomplete : Missing.Complete l = false := by
    rw [Missing.Complete, List.all_eq_false]
    exact ⟨none, h, Bool.false_ne_true⟩
  rw [sumOf, Missing.guarded, hcomplete]
  rfl

end Sums

def mapMatrix (f : K → K) (X : Matrix rows cols K) : Matrix rows cols K :=
  fun r c => (X r c).map f

def mapArr (f : K → K) (v : Arr n K) : Arr n K := fun i => (v i).map f

/-- No value is missing that may not be ignored. -/
def Accepted (ignore_nan : Bool) (X : Matrix rows cols K) : Prop :=
  ignore_nan = false → ∀ r c, (X r c).isSome = true

instance (ignore_nan : Bool) (X : Matrix rows cols K) : Decidable (Accepted ignore_nan X) :=
  inferInstanceAs (Decidable (ignore_nan = false → ∀ r c, (X r c).isSome = true))

theorem complete_column {ignore_nan : Bool} {X : Matrix rows cols K} (h : Accepted ignore_nan X)
    (hignore : ignore_nan = false) (c : Fin cols) : Missing.Complete (column X c) = true := by
  simp [Missing.Complete, column, h hignore]

theorem complete_row {ignore_nan : Bool} {X : Matrix rows cols K} (h : Accepted ignore_nan X)
    (hignore : ignore_nan = false) (r : Fin rows) : Missing.Complete (row X r) = true := by
  simp [Missing.Complete, row, h hignore]

end Arrays

/-! ## The two sides -/

section Sides

variable {N : ℕ} {V α : Type}

/-- The messages are values `V` or `None`. -/
abbrev Net (N : ℕ) (V α : Type) := Prog (Party N × Key) (Option V) Err α

/-- `check_array`: a table needs a row and a column. -/
def check_array {rows cols : ℕ} {K μ : Type} (ignore_nan : Bool) (X : Matrix rows cols K)
    (k : Prog (Party N × Key) μ Err α) : Prog (Party N × Key) μ Err α :=
  if 0 < rows ∧ 0 < cols ∧ Accepted ignore_nan X then k else .raise .ValueError

theorem check_array_of_accepted {rows cols : ℕ} {K μ : Type} {ignore_nan : Bool}
    {X : Matrix rows cols K} (hrows : 0 < rows) (hcols : 0 < cols) (h : Accepted ignore_nan X)
    (k : Prog (Party N × Key) μ Err α) : check_array ignore_nan X k = k :=
  if_pos ⟨hrows, hcols, h⟩

/-- The guests' values, and the host's behind them. -/
theorem map_parties (value : Party N → V) :
    (List.finRange N).map (fun j => value (some j)) ++ (some (value none)).toList =
      (guests N ++ [none]).map value := by
  rw [guests, List.map_append, List.map_map]
  rfl

/-- A client or guest with its local value. -/
def guestSide (up down : Key) (value : V) (send_host recv_host : Bool) : Net N V (Option V) :=
  let receive := if recv_host then recvHost some .TypeError down .ret else .ret (some value)
  if send_host then sendHost up (some value) receive else receive

/-- The server, which has no value of its own, or the host. -/
def hostSide (up down : Key) (combine : List V → Option V) (own : Option V)
    (send_guest recv_guest : Bool) : Net N V (Option V) :=
  let finish := fun global : Option V =>
    let result := .ret (if recv_guest then global else own)
    if send_guest then send_all down global result else result
  if recv_guest then
    recv_all id .TypeError up fun received =>
      (ofOption .ValueError (combine (received ++ own.toList))).bind fun v => finish (some v)
  else finish none

/-- Which directions are switched on. -/
structure Directions where
  to_host : Bool
  to_guests : Bool
  deriving DecidableEq, Repr

variable {up down : Key} {combine : List V → Option V} {own : Option V} {value : Fin N → V}
  {global : V} (d : Directions)

/-- What the host has in the end. -/
def hostResult (own : Option V) (global : V) : Option V := if d.to_host then some global else own

/-- What a guest has in the end. -/
def guestResult (value global : V) : Option V :=
  if d.to_guests then if d.to_host then some global else none else some value

/-- **The two sides fit together.** -/
theorem plays_sides
    (hcombine : combine ((List.finRange N).map value ++ own.toList) = some global) :
    Plays
      (together (hostSide up down combine own d.to_guests d.to_host) fun j =>
        guestSide up down (value j) d.to_host d.to_guests)
      (both (hostResult d own global) fun j => guestResult d (value j) global) := by
  obtain ⟨to_host, to_guests⟩ := d
  cases to_host <;> cases to_guests
  · exact plays_ret _ _
  · exact host_to_guests (fun _ => rfl) (plays_ret _ _)
  · refine guests_to_host (fun _ => rfl) ?_
    rw [hcombine]
    exact plays_ret _ _
  · refine guests_to_host (fun _ => rfl) ?_
    rw [hcombine]
    exact host_to_guests (fun _ => rfl) (plays_ret _ _)

/-! ## Answers -/

/-- The programs of the host or server and of the others. -/
structure Programs (N : ℕ) (V : Type) where
  host : Net N V (Option V)
  guest : Fin N → Net N V (Option V)

/-- The parties come through the exchange together, in any order of the steps, with these
results. -/
def Programs.End (P : Programs N V) (host : Option V) (guest : Fin N → Option V) : Prop :=
  RunsTogether id (together P.host P.guest) (both host guest)

/-- Each party that receives a result has one with the property `spec`. -/
def Programs.Answers (P : Programs N V) (spec : V → Prop) : Prop :=
  ∃ host guest, P.End host guest ∧
    (d.to_host = true → ∃ v, host = some v ∧ spec v) ∧
    (d.to_host = true → d.to_guests = true → ∀ j, ∃ v, guest j = some v ∧ spec v)

theorem answers_of_plays {P : Programs N V} {spec : V → Prop}
    (hplays : Plays (together P.host P.guest)
      (both (hostResult d own global) fun j => guestResult d (value j) global))
    (hspec : spec global) : P.Answers d spec := by
  refine ⟨_, _, hplays.runsTogether, ?_, ?_⟩
  · intro hhost
    exact ⟨global, by simp [hostResult, hhost], hspec⟩
  · intro hhost hguests j
    exact ⟨global, by simp [guestResult, hhost, hguests], hspec⟩

theorem answers_sides {spec : V → Prop}
    (hcombine : combine ((List.finRange N).map value ++ own.toList) = some global)
    (hspec : spec global) :
    Programs.Answers d
      { host := hostSide up down combine own d.to_guests d.to_host
        guest := fun j => guestSide up down (value j) d.to_host d.to_guests } spec :=
  answers_of_plays d (plays_sides d hcombine) hspec

/-- The results of `P` are made of those of `Q` and `Q'`. -/
def Programs.Agree {W W' : Type} (P : Programs N (W × W')) (Q : Programs N W)
    (Q' : Programs N W') : Prop :=
  ∀ host guest hostQ guestQ hostQ' guestQ',
    P.End host guest → Q.End hostQ guestQ → Q'.End hostQ' guestQ' →
      host = Option.map₂ Prod.mk hostQ hostQ' ∧
        ∀ j, guest j = Option.map₂ Prod.mk (guestQ j) (guestQ' j)

theorem Programs.End.eq_of_plays {P : Programs N V} {host host' : Option V}
    {guest guest' : Fin N → Option V} (h : P.End host guest)
    (h' : Plays (together P.host P.guest) (both host' guest')) : host = host' ∧ guest = guest' := by
  have heq := RunsTogether.eq_of_plays h h'
  exact ⟨congrFun heq none, funext fun j => congrFun heq (some j)⟩

/-- An exchange of pairs agrees with the exchanges of their parts. -/
theorem agree_sides {W W' : Type} {up up' up'' down down' down'' : Key}
    {combine : List W → Option W} {combine' : List W' → Option W'}
    {combinePair : List (W × W') → Option (W × W')} {own : Option W} {own' : Option W'}
    {ownPair : Option (W × W')} {value : Fin N → W} {value' : Fin N → W'} {global : W}
    {global' : W'} (hown : ownPair = Option.map₂ Prod.mk own own')
    (h : combine ((List.finRange N).map value ++ own.toList) = some global)
    (h' : combine' ((List.finRange N).map value' ++ own'.toList) = some global')
    (hpair : combinePair ((List.finRange N).map (fun j => (value j, value' j)) ++
      ownPair.toList) = some (global, global')) :
    Programs.Agree
      { host := hostSide up'' down'' combinePair ownPair d.to_guests d.to_host
        guest := fun j => guestSide up'' down'' (value j, value' j) d.to_host d.to_guests }
      { host := hostSide up down combine own d.to_guests d.to_host
        guest := fun j => guestSide up down (value j) d.to_host d.to_guests }
      { host := hostSide up' down' combine' own' d.to_guests d.to_host
        guest := fun j => guestSide up' down' (value' j) d.to_host d.to_guests } := by
  intro host guest hostQ guestQ hostQ' guestQ' hP hQ hQ'
  obtain ⟨rfl, rfl⟩ := hP.eq_of_plays (plays_sides d hpair)
  obtain ⟨rfl, rfl⟩ := hQ.eq_of_plays (plays_sides d h)
  obtain ⟨rfl, rfl⟩ := hQ'.eq_of_plays (plays_sides d h')
  obtain ⟨to_host, to_guests⟩ := d
  cases to_host <;> cases to_guests <;> exact ⟨by simp [hostResult, hown], fun _ => rfl⟩

end Sides

end Fediux.Stats
