import Fediux.Preprocessing.PowerTransformer

set_option autoImplicit false

/-! # The lambdas of the power transformer

`boxcox_normmax` and `yeojohnson_normmax` of `python/fediux/FL/preprocessing/_power.py` beside the
functions of the server and of the clients, in exact arithmetic. The server searches for the lambda
with the greatest likelihood and asks the clients for the sums that each value of the likelihood
needs. In the end it constrains the lambda by the least and the greatest value of the column, which
it takes from the first and from the second client (`lmax_pooled_iff`).
-/

namespace Fediux.Preprocessing.Normmax

open Session Session.Prog Messaging Vfl
open Power (Method)

/-! ## The search -/

/-- `optimize.brent`, by the values of the function that it asks for. -/
inductive Search (K : Type) where
  | done (lmax : K)
  | ask (lmb : K) (next : K → Search K)

namespace Search

variable {K : Type}

def brent (f : K → K) : Search K → K
  | done lmax => lmax
  | ask lmb next => (next (f lmb)).brent f

/-- How often it calls the function. -/
def calls (f : K → K) : Search K → ℕ
  | done _ => 0
  | ask lmb next => (next (f lmb)).calls f + 1

end Search

/-! ## The transformations -/

section Transformations

variable {K : Type} [Field K] [LinearOrder K]

/-- The functions of `numpy` and `scipy.special` that the transformations are made of. -/
structure Special (K : Type) where
  log : K → K
  pow : K → K → K
  boxcox_inv_lmbda : K → K → K
  yeojohnson_inv_lmbda : K → K → K
  spacing : K

/-- What the functions of both methods need. -/
structure Family (K : Type) where
  log : K → K
  /-- The terms of `constant`. -/
  constant : K → K
  /-- The numbers whose logarithms are `logbc` or `logyj`. -/
  power : K → K → K
  transform : K → K → K
  inv_lmbda : K → K → K
  /-- Where the transformed values change their sign. -/
  pivot : K
  /-- The data must be positive. -/
  positive : Bool

variable (sp : Special K)

def boxcox : Family K where
  log := sp.log
  constant := sp.log
  power := fun lmb x => if lmb = 0 then sp.log x else sp.pow x lmb / |lmb|
  transform := fun x lmb => if lmb = 0 then sp.log x else (sp.pow x lmb - 1) / lmb
  inv_lmbda := sp.boxcox_inv_lmbda
  pivot := 1
  positive := true

def yeojohnson : Family K where
  log := sp.log
  constant := fun x => SignType.sign x * sp.log (1 + |x|)
  power := fun lmb x =>
    if 0 ≤ x then
      if |lmb| < sp.spacing then sp.log (1 + x) else (sp.pow (1 + x) lmb - 1) / lmb
    else
      if sp.spacing < |lmb - (2 : ℕ)| then (sp.pow (1 - x) ((2 : ℕ) - lmb) - 1) / (lmb - (2 : ℕ))
      else -sp.log (1 - x)
  transform := fun x lmb =>
    if lmb = 1 then x
    else if 0 ≤ x then
      if |lmb| < sp.spacing then sp.log (1 + x) else (sp.pow (1 + x) lmb - 1) / lmb
    else
      if sp.spacing < |lmb - (2 : ℕ)| then
        -(sp.pow (1 - x) ((2 : ℕ) - lmb) - 1) / ((2 : ℕ) - lmb)
      else -sp.log (1 - x)
  inv_lmbda := sp.yeojohnson_inv_lmbda
  pivot := 0
  positive := false

variable (F : Family K)

/-- The lambda, or the one with which no transformed value is beyond `ymax`. -/
def constranined_lmax (lmax xmin xmax ymax : K) : K :=
  let x_treme :=
    if F.pivot ≤ xmin then xmax
    else if xmax ≤ F.pivot then xmin
    else if |F.transform xmin lmax| < F.transform xmax lmax then xmax else xmin
  if ymax < |F.transform x_treme lmax| then
    F.inv_lmbda x_treme (ymax * SignType.sign (x_treme - F.pivot))
  else lmax

/-- The lambda in the end; `ymax` is `none` where it is infinite. -/
def adjusted (ymax : Option K) (lmax xmin xmax : K) : K :=
  match ymax with
  | none => lmax
  | some ymax => constranined_lmax F lmax xmin xmax ymax

/-- `np.min` of a list that is not empty. -/
def npMin (x : List K) : K := x.min?.getD 0

def npMax (x : List K) : K := x.max?.getD 0

end Transformations

/-! ## One column -/

inductive Key where
  | n_samples_constant
  | lmb
  | log_sum_sum_square
  | x_min_max
  | lmax
  deriving DecidableEq, Repr

inductive Err where
  | ValueError
  | TypeError
  | IndexError
  | OutOfFuel
  deriving DecidableEq, Repr

section Column

variable {K : Type} [Field K] [LinearOrder K] (F : Family K)

/-- `boxcox_llf` and `yeojohnson_llf` -/
def llf (lmb : K) (data : List K) : K :=
  (lmb - 1) * (data.map F.constant).sum -
    data.length / (2 : ℕ) * F.log (Moments.variance (data.map (F.power lmb)))

def normmax (search : Search K) (ymax : Option K) (x : List K) : Except Err K :=
  match x with
  | [] => .error .ValueError
  | v :: l =>
      if ∀ w ∈ l, w = v then .error .ValueError
      else if F.positive = true ∧ ∃ w ∈ v :: l, w ≤ 0 then .error .ValueError
      else
        let lmax := search.brent fun lmb => -llf F lmb (v :: l)
        match ymax with
        | none => .ok lmax
        | some ymax =>
            if ymax ≤ 0 then .error .ValueError
            else .ok (constranined_lmax F lmax (npMin (v :: l)) (npMax (v :: l)) ymax)

end Column

/-! ## The exchange -/

inductive Message (K : Type) where
  | nothing
  | number (lmb : K)
  | ymax
  | n_samples_constant (n_samples : ℕ) (constant : K)
  /-- The sums whose logarithms are sent. -/
  | sum_sum_square (sum sum_square : K)
  | x_min_max (xmin xmax : K)

namespace Message

variable {K : Type}

instance : Inhabited (Message K) := ⟨.nothing⟩

def number? : Message K → Option K
  | number lmb => some lmb
  | _ => none

def n_samples_constant? : Message K → Option (ℕ × K)
  | n_samples_constant n c => some (n, c)
  | _ => none

def sum_sum_square? : Message K → Option (K × K)
  | sum_sum_square s q => some (s, q)
  | _ => none

def x_min_max? : Message K → Option (K × K)
  | x_min_max lo hi => some (lo, hi)
  | _ => none

end Message

section Programs

variable {N : ℕ} {K α : Type} [Field K] [LinearOrder K] (F : Family K)

abbrev NormmaxNet (N : ℕ) (K α : Type) := Prog (Party N × Key) (Message K) Err α

/-- `boxcox_llf_server` and `yeojohnson_llf_server`, from the sums of all clients. -/
def llf_server (lmb : K) (n_samples : ℕ) (constant : K) (sum_sum_square : List (K × K)) : K :=
  let mean := (sum_sum_square.map Prod.fst).sum / n_samples
  let mean_square := (sum_sum_square.map Prod.snd).sum / n_samples
  (lmb - 1) * constant - n_samples / (2 : ℕ) * F.log (mean_square - mean ^ 2)

/-- The search of the server. -/
def searchServer (n_samples : ℕ) (constant : K) :
    Search K → (K → NormmaxNet N K α) → NormmaxNet N K α
  | .done lmax, k => k lmax
  | .ask lmb next, k =>
      send_all .lmb (.number lmb) <|
      recv_all Message.sum_sum_square? .TypeError .log_sum_sum_square fun sums =>
      searchServer n_samples constant (next (-llf_server F lmb n_samples constant sums)) k

/-- `np.min(x_min_max[0])` and `np.max(x_min_max[1])`, where the array has a row for each client. -/
def extremes : List (K × K) → Option (K × K)
  | first :: second :: _ => some (min first.1 first.2, max second.1 second.2)
  | _ => none

def normmax_server (search : Search K) (ymax : Option K) : NormmaxNet N K K :=
  if ymax.any (fun ymax => ymax ≤ 0) = true then .raise .ValueError
  else
    recv_all Message.n_samples_constant? .TypeError .n_samples_constant fun n_samples_constant =>
    let n_samples := (n_samples_constant.map Prod.fst).sum
    let constant := (n_samples_constant.map Prod.snd).sum
    searchServer F n_samples constant search fun lmax =>
    match ymax with
    | none => send_all .lmb .nothing <| send_all .lmax (.number lmax) (.ret lmax)
    | some ymax =>
        send_all .lmb .ymax <|
        recv_all Message.x_min_max? .TypeError .x_min_max fun x_min_max =>
        (ofOption .IndexError (extremes x_min_max)).bind fun e =>
        let lmax := constranined_lmax F lmax e.1 e.2 ymax
        send_all .lmax (.number lmax) (.ret lmax)

/-- The sums of a client. -/
def sums (lmb : K) (x : List K) : K × K :=
  ((x.map (F.power lmb)).sum, Moments.sumSquares (x.map (F.power lmb)))

def recvLmax : NormmaxNet N K K := recvHost Message.number? .TypeError .lmax .ret

/-- The loop of a client, as long as it receives numbers. -/
def awaitLmb (x : List K) : ℕ → NormmaxNet N K K
  | 0 => .raise .OutOfFuel
  | fuel + 1 =>
      recvHost some .TypeError .lmb fun lmb =>
      match lmb with
      | .number lmb =>
          sendHost .log_sum_sum_square (.sum_sum_square (sums F lmb x).1 (sums F lmb x).2) <|
          awaitLmb x fuel
      | .nothing => recvLmax
      | _ => sendHost .x_min_max (.x_min_max (npMin x) (npMax x)) recvLmax

def normmax_client (fuel : ℕ) (x : List K) : NormmaxNet N K K :=
  if x = [] then .raise .ValueError
  else if F.positive = true ∧ ∃ w ∈ x, w ≤ 0 then .raise .ValueError
  else
    sendHost .n_samples_constant (.n_samples_constant x.length (x.map F.constant).sum) <|
    awaitLmb F x fuel

end Programs

/-! ### The two methods -/

section Methods

variable {N : ℕ} {K : Type} [Field K] [LinearOrder K] (sp : Special K) (search : Search K)
  (ymax : Option K) (fuel : ℕ)

def boxcox_normmax (x : List K) : Except Err K := normmax (boxcox sp) search ymax x

def boxcox_normmax_server : NormmaxNet N K K := normmax_server (boxcox sp) search ymax

def boxcox_normmax_client (x : List K) : NormmaxNet N K K := normmax_client (boxcox sp) fuel x

def yeojohnson_normmax (x : List K) : Except Err K := normmax (yeojohnson sp) search ymax x

def yeojohnson_normmax_server : NormmaxNet N K K := normmax_server (yeojohnson sp) search ymax

def yeojohnson_normmax_client (x : List K) : NormmaxNet N K K :=
  normmax_client (yeojohnson sp) fuel x

end Methods

/-! ## The column of all clients -/

/-- The clients' parts of a column, positive where the method needs it. -/
structure Setup (K : Type) [Field K] [LinearOrder K] where
  N : ℕ
  x : Fin N → List K
  method : Method
  positive : method = .box_cox → ∀ j, ∀ v ∈ x j, 0 < v
  special : Special K
  search : Search K
  ymax : Option K
  ymax_pos : ∀ y ∈ ymax, 0 < y

namespace Setup

variable {K : Type} [Field K] [LinearOrder K] (S : Setup K)

def family : Family K :=
  match S.method with
  | .box_cox => boxcox S.special
  | .yeo_johnson => yeojohnson S.special

/-- The values of all clients. -/
def joined : List K := (List.finRange S.N).flatMap S.x

/-- The function for the joined column. -/
def optimised : Except Err K :=
  match S.method with
  | .box_cox => boxcox_normmax S.special S.search S.ymax S.joined
  | .yeo_johnson => yeojohnson_normmax S.special S.search S.ymax S.joined

def server : NormmaxNet S.N K K :=
  match S.method with
  | .box_cox => boxcox_normmax_server S.special S.search S.ymax
  | .yeo_johnson => yeojohnson_normmax_server S.special S.search S.ymax

def client (fuel : ℕ) (j : Fin S.N) : NormmaxNet S.N K K :=
  match S.method with
  | .box_cox => boxcox_normmax_client S.special fuel (S.x j)
  | .yeo_johnson => yeojohnson_normmax_client S.special fuel (S.x j)

/-- The function of which the search finds the least value. -/
def neg_llf (lmb : K) : K := -llf S.family lmb S.joined

/-- The rows of `x_min_max`. -/
def sent : List (K × K) := (List.finRange S.N).map fun j => (npMin (S.x j), npMax (S.x j))

/-- The server constrains the lambda by the least and the greatest value of the joined column, and
in any order of the steps all parties come to the lambda of the joined column. -/
structure Pooled : Prop where
  constraint : S.ymax ≠ none → ∃ xmin xmax, extremes S.sent = some (xmin, xmax) ∧
    IsLeast {v | v ∈ S.joined} xmin ∧ IsGreatest {v | v ∈ S.joined} xmax
  lmax : ∃ lmax, S.optimised = .ok lmax ∧
    ∀ fuel, S.search.calls S.neg_llf < fuel →
      RunsTogether id (together S.server (S.client fuel)) (both lmax fun _ => lmax)

/-- The least value is one of the first client's, and the greatest one of the second client's. -/
def ExtremesInOrder : Prop :=
  ∃ first second : Fin S.N, first.val = 0 ∧ second.val = 1 ∧
    (∃ v ∈ S.x first, ∀ w ∈ S.joined, v ≤ w) ∧ ∃ v ∈ S.x second, ∀ w ∈ S.joined, w ≤ v

/-! ### Members of the families -/

theorem optimised_eq : S.optimised = normmax S.family S.search S.ymax S.joined := by
  unfold optimised family
  cases S.method <;> rfl

theorem server_eq : S.server = normmax_server S.family S.search S.ymax := by
  unfold server family
  cases S.method <;> rfl

theorem client_eq (fuel : ℕ) (j : Fin S.N) :
    S.client fuel j = normmax_client S.family fuel (S.x j) := by
  unfold client family
  cases S.method <;> rfl

theorem positive_iff : S.family.positive = true ↔ S.method = .box_cox := by
  unfold family
  cases S.method <;> simp [boxcox, yeojohnson]

theorem not_nonpositive {l : List K} (hl : ∀ v ∈ l, ∃ j, v ∈ S.x j) :
    ¬ (S.family.positive = true ∧ ∃ w ∈ l, w ≤ 0) := by
  rintro ⟨hpositive, w, hw, hle⟩
  obtain ⟨j, hj⟩ := hl w hw
  exact absurd (S.positive (S.positive_iff.mp hpositive) j w hj) (not_lt.mpr hle)

theorem mem_joined {v : K} : v ∈ S.joined ↔ ∃ j, v ∈ S.x j := by
  rw [joined, List.mem_flatMap]
  exact ⟨fun ⟨j, _, h⟩ => ⟨j, h⟩, fun ⟨j, h⟩ => ⟨j, List.mem_finRange j, h⟩⟩

/-! ### The extremes -/

theorem isLeast_npMin {l : List K} (h : l ≠ []) : IsLeast {v | v ∈ l} (npMin l) := by
  cases hmin : l.min? with
  | none => exact absurd (List.min?_eq_none_iff.mp hmin) h
  | some m =>
      obtain ⟨hm, hall⟩ := List.min?_eq_some_iff.mp hmin
      rw [npMin, hmin]
      exact ⟨hm, fun v hv => hall v hv⟩

theorem isGreatest_npMax {l : List K} (h : l ≠ []) : IsGreatest {v | v ∈ l} (npMax l) := by
  cases hmax : l.max? with
  | none => exact absurd (List.max?_eq_none_iff.mp hmax) h
  | some m =>
      obtain ⟨hm, hall⟩ := List.max?_eq_some_iff.mp hmax
      rw [npMax, hmax]
      exact ⟨hm, fun v hv => hall v hv⟩

theorem npMin_le_npMax {l : List K} (h : l ≠ []) : npMin l ≤ npMax l :=
  (isLeast_npMin h).2 (isGreatest_npMax h).1

omit [Field K] in
/-- The first row and the second one. -/
theorem extremes_map {N : ℕ} (f : Fin N → K × K) (a b : K) :
    extremes ((List.finRange N).map f) = some (a, b) ↔
      ∃ first second : Fin N, first.val = 0 ∧ second.val = 1 ∧
        min (f first).1 (f first).2 = a ∧ max (f second).1 (f second).2 = b := by
  match N, f with
  | 0, _ =>
      constructor
      · intro h
        cases h
      · rintro ⟨first, -⟩
        exact first.elim0
  | 1, _ =>
      constructor
      · intro h
        cases h
      · rintro ⟨first, second, -, hsecond, -⟩
        omega
  | n + 2, f =>
      rw [List.finRange_succ, List.finRange_succ]
      constructor
      · intro h
        obtain ⟨ha, hb⟩ := Prod.mk.inj (Option.some.inj h)
        exact ⟨0, 1, rfl, rfl, ha, hb⟩
      · rintro ⟨first, second, hfirst, hsecond, rfl, rfl⟩
        obtain rfl : first = 0 := Fin.ext hfirst
        obtain rfl : second = 1 := Fin.ext hsecond
        rfl

section Nonempty

variable {S} (hne : ∀ j, S.x j ≠ [])
include hne

/-- The rows hold each client's least value before its greatest one. -/
theorem extremes_sent (xmin xmax : K) :
    extremes S.sent = some (xmin, xmax) ↔ ∃ first second : Fin S.N,
      first.val = 0 ∧ second.val = 1 ∧ npMin (S.x first) = xmin ∧ npMax (S.x second) = xmax := by
  rw [sent, extremes_map]
  simp only [min_eq_left (npMin_le_npMax (hne _)), max_eq_right (npMin_le_npMax (hne _))]

theorem constraint_iff :
    (∃ xmin xmax, extremes S.sent = some (xmin, xmax) ∧
      IsLeast {v | v ∈ S.joined} xmin ∧ IsGreatest {v | v ∈ S.joined} xmax) ↔
        S.ExtremesInOrder := by
  simp only [extremes_sent hne]
  constructor
  · rintro ⟨_, _, ⟨first, second, hfirst, hsecond, rfl, rfl⟩, hleast, hgreatest⟩
    exact ⟨first, second, hfirst, hsecond,
      ⟨_, (isLeast_npMin (hne first)).1, fun w hw => hleast.2 hw⟩,
      ⟨_, (isGreatest_npMax (hne second)).1, fun w hw => hgreatest.2 hw⟩⟩
  · rintro ⟨first, second, hfirst, hsecond, ⟨v, hv, hle⟩, ⟨v', hv', hle'⟩⟩
    refine ⟨_, _, ⟨first, second, hfirst, hsecond, rfl, rfl⟩, ⟨?_, ?_⟩, ?_, ?_⟩
    · exact S.mem_joined.mpr ⟨first, (isLeast_npMin (hne first)).1⟩
    · intro w hw
      exact ((isLeast_npMin (hne first)).2 hv).trans (hle w hw)
    · exact S.mem_joined.mpr ⟨second, (isGreatest_npMax (hne second)).1⟩
    · intro w hw
      exact (hle' w hw).trans ((isGreatest_npMax (hne second)).2 hv')

end Nonempty

/-! ### The search -/

/-- The likelihood of the joined column. -/
theorem llf_server_eq [CharZero K] (hne : S.joined ≠ []) (lmb : K) :
    llf_server S.family lmb S.joined.length (S.joined.map S.family.constant).sum
      ((List.finRange S.N).map fun j => sums S.family lmb (S.x j)) =
        llf S.family lmb S.joined := by
  have hlist : S.joined.map (S.family.power lmb) ≠ [] := fun h => hne (List.map_eq_nil_iff.mp h)
  have hsum : (((List.finRange S.N).map fun j => sums S.family lmb (S.x j)).map Prod.fst).sum =
      (S.joined.map (S.family.power lmb)).sum := by
    rw [joined, List.map_flatMap, Moments.sum_flatMap, List.map_map]
    rfl
  have hsquares : (((List.finRange S.N).map fun j => sums S.family lmb (S.x j)).map Prod.snd).sum =
      Moments.sumSquares (S.joined.map (S.family.power lmb)) := by
    rw [joined, List.map_flatMap, Moments.sumSquares_flatMap, List.map_map]
    rfl
  rw [llf, Moments.variance_eq hlist, List.length_map, llf_server, hsum, hsquares]

section Search

variable {F : Family K} {N n_samples : ℕ} {constant : K} {x : Fin N → List K}

/-- The searching server and the loops of the clients. -/
theorem exchanges_search {f : K → K}
    (hf : ∀ lmb, f lmb = -llf_server F lmb n_samples constant
      ((List.finRange N).map fun j => sums F lmb (x j)))
    {α : Type} {T : (i : Party N) → NormmaxNet N K (Result α (fun _ => K) i)}
    {kont : K → NormmaxNet N K α} (search : Search K)
    (hrest : ∀ fuel, Exchanges (together (kont (search.brent f)) fun j =>
      awaitLmb F (x j) (fuel + 1)) T) {fuel : ℕ} (hfuel : search.calls f < fuel) :
    Exchanges (together (searchServer F n_samples constant search kont) fun j =>
      awaitLmb F (x j) fuel) T := by
  induction search generalizing fuel with
  | done lmax =>
      obtain ⟨fuel, rfl⟩ := Nat.exists_eq_succ_of_ne_zero (Nat.ne_of_gt hfuel)
      exact hrest fuel
  | ask lmb next ih =>
      have hcalls : (next (f lmb)).calls f + 1 < fuel := hfuel
      obtain ⟨fuel, rfl⟩ := Nat.exists_eq_succ_of_ne_zero (by omega : fuel ≠ 0)
      refine host_to_guests (fun _ => rfl) (guests_to_host (fun _ => rfl) ?_)
      have hvalue := hf lmb
      simp only [Prod.mk.eta]
      rw [← hvalue]
      exact ih (f lmb) hrest (by omega)

end Search

/-! ### The exchange -/

/-- What the server does after the search. -/
def finish (lmax : K) : NormmaxNet S.N K K :=
  match S.ymax with
  | none => send_all .lmb .nothing <| send_all .lmax (.number lmax) (.ret lmax)
  | some ymax =>
      send_all .lmb .ymax <|
      recv_all Message.x_min_max? .TypeError .x_min_max fun x_min_max =>
      (ofOption .IndexError (extremes x_min_max)).bind fun e =>
      let lmax := constranined_lmax S.family lmax e.1 e.2 ymax
      send_all .lmax (.number lmax) (.ret lmax)

/-- The lambda before it is constrained. -/
def found : K := S.search.brent S.neg_llf

section Exchange

variable {S} [CharZero K] (hne : ∀ j, S.x j ≠ []) (hjoined : S.joined ≠ [])
include hne hjoined

/-- All up to the end of the search. -/
theorem exchanges_found {T : (i : Party S.N) → NormmaxNet S.N K (Result K (fun _ => K) i)}
    (hrest : ∀ fuel, Exchanges (together (S.finish S.found) fun j =>
      awaitLmb S.family (S.x j) (fuel + 1)) T)
    {fuel : ℕ} (hfuel : S.search.calls S.neg_llf < fuel) :
    Exchanges (together S.server (S.client fuel)) T := by
  have hpositive : ∀ j, ¬ (S.family.positive = true ∧ ∃ w ∈ S.x j, w ≤ 0) :=
    fun j => S.not_nonpositive fun v hv => ⟨j, hv⟩
  have hymax : ¬ S.ymax.any (fun ymax => ymax ≤ 0) = true := by
    intro hany
    obtain ⟨y, hy, hle⟩ := (Option.any_eq_true _ _).mp hany
    exact absurd (S.ymax_pos y hy) (not_lt.mpr (of_decide_eq_true hle))
  have hlength : (((List.finRange S.N).map fun j =>
      ((S.x j).length, ((S.x j).map S.family.constant).sum)).map Prod.fst).sum =
        S.joined.length := by
    rw [joined, List.length_flatMap, List.map_map]
    rfl
  have hconstant : (((List.finRange S.N).map fun j =>
      ((S.x j).length, ((S.x j).map S.family.constant).sum)).map Prod.snd).sum =
        (S.joined.map S.family.constant).sum := by
    rw [joined, List.map_flatMap, Moments.sum_flatMap, List.map_map]
    rfl
  have hclient : S.client fuel = fun j =>
      sendHost .n_samples_constant (.n_samples_constant (S.x j).length
        ((S.x j).map S.family.constant).sum) (awaitLmb S.family (S.x j) fuel) := by
    funext j
    rw [client_eq, normmax_client, if_neg (hne j), if_neg (hpositive j)]
  rw [server_eq, hclient, normmax_server, if_neg hymax]
  refine guests_to_host (fun _ => rfl) ?_
  rw [hlength, hconstant]
  refine exchanges_search (f := S.neg_llf) ?_ S.search hrest hfuel
  intro lmb
  rw [S.llf_server_eq hjoined, neg_llf]

theorem plays_of_infinite (hymax : S.ymax = none) {fuel : ℕ}
    (hfuel : S.search.calls S.neg_llf < fuel) :
    Plays (together S.server (S.client fuel)) (both S.found fun _ => S.found) := by
  refine exchanges_found hne hjoined (fun fuel => ?_) hfuel
  rw [finish, hymax]
  exact host_to_guests (fun _ => rfl) (host_to_guests (fun _ => rfl) (plays_ret _ _))

/-- The server takes the two values out of what it receives. -/
theorem plays_of_extremes {ymax xmin xmax : K} (hymax : S.ymax = some ymax)
    (hextremes : extremes S.sent = some (xmin, xmax)) {fuel : ℕ}
    (hfuel : S.search.calls S.neg_llf < fuel) :
    Plays (together S.server (S.client fuel))
      (both (constranined_lmax S.family S.found xmin xmax ymax)
        fun _ => constranined_lmax S.family S.found xmin xmax ymax) := by
  refine exchanges_found hne hjoined (fun fuel => ?_) hfuel
  rw [finish, hymax]
  refine host_to_guests (fun _ => rfl) (guests_to_host (fun _ => rfl) ?_)
  unfold sent at hextremes
  rw [hextremes]
  exact host_to_guests (fun _ => rfl) (plays_ret _ _)

end Exchange

/-! ### The lambda -/

omit [Field K] [LinearOrder K] in
theorem ne_nil_of_ne {x : List K} (h : ∃ v ∈ x, ∃ w ∈ x, v ≠ w) : x ≠ [] := by
  obtain ⟨v, hv, -⟩ := h
  exact List.ne_nil_of_mem hv

theorem normmax_of_constant {F : Family K} {search : Search K} {ymax : Option K} {x : List K}
    (h : ¬ ∃ v ∈ x, ∃ w ∈ x, v ≠ w) : normmax F search ymax x = .error .ValueError := by
  cases x with
  | nil => rfl
  | cons v l =>
      refine if_pos fun w hw => ?_
      by_contra hwv
      exact h ⟨w, List.mem_cons_of_mem v hw, v, List.mem_cons_self, hwv⟩

theorem normmax_of_not_constant {F : Family K} {search : Search K} {ymax : Option K}
    {x : List K} (h : ∃ v ∈ x, ∃ w ∈ x, v ≠ w)
    (hpositive : ¬ (F.positive = true ∧ ∃ w ∈ x, w ≤ 0)) (hymax : ∀ y ∈ ymax, 0 < y) :
    normmax F search ymax x =
      .ok (adjusted F ymax (search.brent fun lmb => -llf F lmb x) (npMin x) (npMax x)) := by
  cases x with
  | nil => exact absurd rfl (ne_nil_of_ne h)
  | cons v l =>
      have hvaries : ¬ ∀ w ∈ l, w = v := by
        intro hall
        have heq : ∀ w ∈ v :: l, w = v := List.forall_mem_cons.mpr ⟨rfl, hall⟩
        obtain ⟨a, ha, b, hb, hab⟩ := h
        exact hab ((heq a ha).trans (heq b hb).symm)
      rw [normmax, if_neg hvaries, if_neg hpositive]
      cases ymax with
      | none => rfl
      | some y => exact if_neg (not_le.mpr (hymax y rfl))

/-- The joined column has two values. -/
def NotConstant : Prop := ∃ v ∈ S.joined, ∃ w ∈ S.joined, v ≠ w

theorem optimised_of_not_constant (h : S.NotConstant) :
    S.optimised =
      .ok (adjusted S.family S.ymax S.found (npMin S.joined) (npMax S.joined)) := by
  rw [optimised_eq, normmax_of_not_constant h ?_ S.ymax_pos]
  · rfl
  · exact S.not_nonpositive fun v hv => S.mem_joined.mp hv

/-- A client without a value raises an error. -/
theorem not_pooled_of_empty {j : Fin S.N} (hj : S.x j = []) : ¬ S.Pooled := by
  rintro ⟨-, lmax, -, hruns⟩
  refine (hruns _ (Nat.lt_succ_self _)).ne_raise (.refl _) (some j) .ValueError ?_
  show S.client _ j = _
  rw [client_eq, normmax_client, if_pos hj]

variable {S} [CharZero K] (hne : ∀ j, S.x j ≠ [])
include hne

theorem pooled_of_infinite (h : S.NotConstant) (hymax : S.ymax = none) : S.Pooled := by
  refine ⟨fun hne => absurd hymax hne, S.found, ?_, ?_⟩
  · rw [S.optimised_of_not_constant h, hymax]
    rfl
  · intro fuel hfuel
    exact (plays_of_infinite hne (ne_nil_of_ne h) hymax hfuel).runsTogether

theorem pooled_of_extremesInOrder (h : S.NotConstant) {ymax : K} (hymax : S.ymax = some ymax)
    (horder : S.ExtremesInOrder) : S.Pooled := by
  have hjoined := ne_nil_of_ne h
  have hconstraint := (constraint_iff hne).mpr horder
  obtain ⟨xmin, xmax, hextremes, hleast, hgreatest⟩ := hconstraint
  refine ⟨fun _ => ⟨xmin, xmax, hextremes, hleast, hgreatest⟩, _,
    S.optimised_of_not_constant h, ?_⟩
  intro fuel hfuel
  rw [hymax, (isLeast_npMin hjoined).unique hleast, (isGreatest_npMax hjoined).unique hgreatest]
  exact (plays_of_extremes hne hjoined hymax hextremes hfuel).runsTogether

omit hne in
variable (S) in
/-- **The lambda is that of the joined column**, constrained by its least and its greatest value,
exactly if the column is not constant, every client has a part of it, and the first client has the
least value and the second one the greatest; the last does not matter where `ymax` is infinite. -/
theorem lmax_pooled_iff :
    S.Pooled ↔ S.NotConstant ∧ (∀ j, S.x j ≠ []) ∧ (S.ymax = none ∨ S.ExtremesInOrder) := by
  constructor
  · intro hpooled
    have hne : ∀ j, S.x j ≠ [] := fun j hj => S.not_pooled_of_empty hj hpooled
    refine ⟨?_, hne, ?_⟩
    · by_contra hconstant
      obtain ⟨lmax, hlmax, -⟩ := hpooled.lmax
      rw [optimised_eq, normmax_of_constant hconstant] at hlmax
      cases hlmax
    · by_cases hymax : S.ymax = none
      · exact .inl hymax
      · exact .inr ((constraint_iff hne).mp (hpooled.constraint hymax))
  · rintro ⟨hvaries, hne, hextremes⟩
    cases hymax : S.ymax with
    | none => exact pooled_of_infinite hne hvaries hymax
    | some ymax =>
        have hfinite : ¬ S.ymax = none := by simp [hymax]
        exact pooled_of_extremesInOrder hne hvaries hymax (hextremes.resolve_left hfinite)

end Setup

/-- The parts of a column, of which no transformed value may be beyond two. The search asks for the
likelihood of one and returns it. -/
def parts (x : List (List ℚ)) : Setup ℚ where
  N := x.length
  x := fun j => x.get j
  method := .yeo_johnson
  positive := fun h => Method.noConfusion h
  special := {
    log := fun _ => 0
    pow := fun x _ => x
    boxcox_inv_lmbda := fun _ _ => 0
    yeojohnson_inv_lmbda := fun _ _ => 0
    spacing := 1 / 2 ^ 52 }
  search := .ask 1 fun _ => .done 1
  ymax := some 2
  ymax_pos := fun _ hy => Option.some.inj hy ▸ two_pos

theorem pooled_iff_parts : (parts [[-1, 1], [3]]).Pooled ↔
    (parts [[-1, 1], [3]]).NotConstant ∧ (∀ j, (parts [[-1, 1], [3]]).x j ≠ []) ∧
      ((parts [[-1, 1], [3]]).ymax = none ∨ (parts [[-1, 1], [3]]).ExtremesInOrder) :=
  (parts [[-1, 1], [3]]).lmax_pooled_iff

/-- One client, and two whose extremes are the other way around. -/
theorem not_pooled_parts : ¬ (parts [[-1, 3]]).Pooled ∧ ¬ (parts [[3], [-1]]).Pooled := by
  constructor
  · intro h
    obtain ⟨_, _, hextremes, -⟩ := h.constraint (fun h => nomatch h)
    cases hextremes
  · intro h
    obtain ⟨xmin, xmax, hextremes, hleast, -⟩ := h.constraint (fun h => nomatch h)
    have hmin : (3 : ℚ) = xmin := (Prod.mk.inj (Option.some.inj hextremes)).1
    have hle : xmin ≤ -1 := hleast.2 (by decide)
    rw [← hmin] at hle
    exact absurd hle (by norm_num)

end Fediux.Preprocessing.Normmax
