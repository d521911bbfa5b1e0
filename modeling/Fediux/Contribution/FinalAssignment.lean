import Fediux.Contribution.MrShapley
import Fediux.Contribution.Shapley

set_option autoImplicit false

/-! # The final contribution assignment

`get_final_contribution_assignment` of the four assessors in `python/fediux/contribution`: the
recorded contributions of all rounds are added up for each client and divided by their sum. The
copies differ in how they read a client without a record: only TMC looks it up
(`assigns_iff`).
-/

namespace Fediux.Contribution

open Dict Fallible OrderedMap

/-! ## What a round records -/

/-- The contributions of the clients of one round. -/
structure RoundValues where
  values : List (ℕ × ℚ)
  nonempty : values ≠ []
  distinct : (values.map Prod.fst).Nodup
  nonneg : ∀ e ∈ values, 0 ≤ e.2

theorem fits_of_run {R : Round} {fuel : ℕ} {out : Outcome}
    (h : TMCShapleyValue.run R fuel = some (.ok out)) : R.Fits := by
  by_contra hfits
  cases fuel with
  | zero => simp [TMCShapleyValue.run, Round.loop] at h
  | succ fuel => simp [run_fails hfits] at h

/-- A run of TMC appends a mean of clipped contributions for each client. -/
theorem appended_of_run {R : Round} {fuel : ℕ} {out : Outcome}
    (h : TMCShapleyValue.run R fuel = some (.ok out)) :
    out.appended.map Prod.fst = R.client_index_for_this_round ∧
      ∀ e ∈ out.appended, 0 ≤ e.2 := by
  obtain ⟨n, -, rfl⟩ := run_eq_some_ok (fits_of_run h) h
  rw [record_stateAt]
  constructor
  · refine List.ext_getElem (by simp) fun i _ _ => ?_
    simp
  · intro e he
    obtain ⟨i, hi, rfl⟩ := List.mem_mapIdx.mp he
    show 0 ≤ RunningMean.total (R.placeAt i) n / n
    have htotal := RunningMean.total_nonneg (fun k => (placeAt_bounded (R := R) i k).1) n
    positivity

/-- As TMC, or zeros. -/
theorem appended_of_run_gtg {R : Round} {fuel : ℕ} {out : Outcome}
    (h : GTGShapleyValue.run R fuel = some (.ok out)) :
    out.appended.map Prod.fst = R.client_index_for_this_round ∧
      ∀ e ∈ out.appended, 0 ≤ e.2 := by
  rw [GTGShapleyValue.run] at h
  split_ifs at h
  · cases h
    constructor
    · simp [Function.comp_def]
    · intro e he
      obtain ⟨client, -, rfl⟩ := List.mem_map.mp he
      exact le_refl 0
  · exact appended_of_run h

/-- What `LeaveOneOut.run` stores for a client: what is lost without it. -/
def LeaveOneOut.mc (A : RunArgs) (client_id : ℕ) : ℚ :=
  let subset := A.client_index_for_this_round.filter fun x => x ≠ client_id
  max (A.acc_on_aggregated_model - A.validation subset) 0

namespace RoundValues

def ofAppended (R : Round) (out : Outcome)
    (h : out.appended.map Prod.fst = R.client_index_for_this_round ∧
      ∀ e ∈ out.appended, 0 ≤ e.2) : RoundValues where
  values := out.appended
  nonempty := by
    intro hnil
    have hids := h.1
    rw [hnil] at hids
    exact R.nonempty hids.symm
  distinct := h.1 ▸ R.distinct
  nonneg := h.2

def ofTMC (R : Round) (fuel : ℕ) (out : Outcome)
    (h : TMCShapleyValue.run R fuel = some (.ok out)) : RoundValues :=
  ofAppended R out (appended_of_run h)

def ofGTG (R : Round) (fuel : ℕ) (out : Outcome)
    (h : GTGShapleyValue.run R fuel = some (.ok out)) : RoundValues :=
  ofAppended R out (appended_of_run_gtg h)

/-- A value for each client. -/
def ofValues (A : RunArgs) (v : ℕ → ℚ) (h : ∀ id, 0 ≤ v id) : RoundValues where
  values := A.client_index_for_this_round.map fun id => (id, v id)
  nonempty := by simpa using A.nonempty
  distinct := by simpa [Function.comp_def] using A.distinct
  nonneg := by
    intro e he
    obtain ⟨id, -, rfl⟩ := List.mem_map.mp he
    exact h id

/-- What `MRShapleyValue.run` stores. -/
def ofMR (A : RunArgs) : RoundValues :=
  ofValues A A.orderAverage fun _ =>
    div_nonneg (Finset.sum_nonneg fun _ _ => le_max_right _ _) (Nat.cast_nonneg _)

def ofLOO (A : RunArgs) : RoundValues :=
  ofValues A (LeaveOneOut.mc A) fun _ => le_max_right _ _

end RoundValues

/-- The rounds that an assessor has seen, each with a number of its own. -/
structure History where
  client_num_in_total : ℕ
  rounds : List (ℕ × RoundValues)
  distinct : (rounds.map Prod.fst).Nodup
  clients : ∀ r ∈ rounds, ∀ e ∈ r.2.values, e.1 < client_num_in_total

namespace History

variable (h : History)

/-- All recorded values, in the order of the rounds. -/
def recorded : List (ℕ × ℚ) := h.rounds.flatMap fun r => r.2.values

def TookPart (client : ℕ) : Prop := ∃ r ∈ h.rounds, client ∈ r.2.values.map Prod.fst

/-- The recorded values of a client, added up. -/
def totalOf (client : ℕ) : ℚ := (valuesOf h.recorded client).sum

end History

/-! ## The code -/

inductive AssignErr where
  | KeyError
  | ValueError
  | ZeroDivisionError
  deriving DecidableEq, Repr

/-- `shapley_values_by_round` of GTG and TMC: each value is appended to a list of its client. -/
def appendedByRound (rounds : List (ℕ × RoundValues)) : Entries ℕ (Entries ℕ (List ℚ)) :=
  rounds.foldl (fun m r =>
    put m r.1 (r.2.values.foldl (fun round e => append round e.1 e.2) ((find? m r.1).getD []))) []

/-- `shapley_values_by_round` of MR: the values of a round replace those before. -/
def putByRound (rounds : List (ℕ × RoundValues)) : Entries ℕ (Entries ℕ ℚ) :=
  rounds.foldl (fun m r => put m r.1 r.2.values) []

/-- `Contribution_records` of LOO: a value that is there stays. -/
def setDefaultByRound (rounds : List (ℕ × RoundValues)) : Entries ℕ (Entries ℕ ℚ) :=
  rounds.foldl (fun m r =>
    put m r.1 (r.2.values.foldl (fun round e => put round e.1 ((find? round e.1).getD e.2))
      ((find? m r.1).getD []))) []

/-- `SV`: the entries of each client in the rounds. -/
def collect {α : Type} (by_round : Entries ℕ (Entries ℕ α)) : Entries ℕ (List α) :=
  by_round.foldl (fun SV r => r.2.foldl (fun SV e => append SV e.1 e.2) SV) []

/-- `np.sum` of a list of lists, which must be of one length. -/
def npSum (rows : List (List ℚ)) : Except AssignErr ℚ :=
  if ∀ row ∈ rows, row.length = (rows.headD []).length then .ok (rows.map List.sum).sum
  else .error .ValueError

/-- The shares of the clients: equal ones if the sum of the contributions passes for zero. -/
def shares (client_num_in_total : ℕ) (negligible : ℚ → Bool) (SV_summed : Entries ℕ ℚ) :
    Except AssignErr (Entries ℕ ℚ) :=
  let total_sv := (SV_summed.map Prod.snd).sum
  if negligible total_sv then
    if client_num_in_total = 0 then .error .ZeroDivisionError
    else .ok (SV_summed.map fun e => (e.1, 1 / (client_num_in_total : ℚ)))
  else .ok (SV_summed.map fun e => (e.1, e.2 / total_sv))

/-- `SV_summed`, one client after the other. -/
def summed {α : Type} (client_num_in_total : ℕ) (sumOf : Entries ℕ α → ℕ → Except AssignErr ℚ)
    (SV : Entries ℕ α) : Except AssignErr (Entries ℕ ℚ) :=
  (List.range client_num_in_total).mapM fun id => do return (id, ← sumOf SV id)

def isZero (total_sv : ℚ) : Bool := total_sv = 0

def GTGShapleyValue.sumOf (SV : Entries ℕ (List (List ℚ))) (id : ℕ) : Except AssignErr ℚ :=
  match find? SV id with
  | some rows => npSum rows
  | none => .ok 0

/-- As GTG, but a client without a record is a `KeyError`. -/
def TMCShapleyValue.sumOf (SV : Entries ℕ (List (List ℚ))) (id : ℕ) : Except AssignErr ℚ :=
  match find? SV id with
  | some rows => npSum rows
  | none => .error .KeyError

def MRShapleyValue.sumOf (SV : Entries ℕ (List ℚ)) (id : ℕ) : Except AssignErr ℚ :=
  .ok ((find? SV id).getD []).sum

def GTGShapleyValue.get_final_contribution_assignment (h : History) :
    Except AssignErr (Entries ℕ ℚ) := do
  let SV := collect (appendedByRound h.rounds)
  shares h.client_num_in_total isZero (← summed h.client_num_in_total sumOf SV)

def TMCShapleyValue.get_final_contribution_assignment (h : History) :
    Except AssignErr (Entries ℕ ℚ) := do
  let SV := collect (appendedByRound h.rounds)
  shares h.client_num_in_total isZero (← summed h.client_num_in_total sumOf SV)

def MRShapleyValue.get_final_contribution_assignment (h : History) :
    Except AssignErr (Entries ℕ ℚ) := do
  let SV := collect (putByRound h.rounds)
  shares h.client_num_in_total isZero (← summed h.client_num_in_total sumOf SV)

namespace LeaveOneOut

def similar_threshold : ℚ := 1 / 100

/-- `total_contributions[client_id] += mc`. -/
def add (total_contributions : Entries ℕ ℚ) (e : ℕ × ℚ) : Except AssignErr (Entries ℕ ℚ) :=
  match find? total_contributions e.1 with
  | some v => .ok (put total_contributions e.1 (v + e.2))
  | none => .error .KeyError

def get_final_contribution_assignment (h : History) : Except AssignErr (Entries ℕ ℚ) := do
  let start := (List.range h.client_num_in_total).foldl (fun m client_id => put m client_id 0) []
  let total_contributions ←
    (setDefaultByRound h.rounds).foldlM (fun totals r => r.2.foldlM add totals) start
  shares h.client_num_in_total (fun total => total = 0 || total < similar_threshold)
    total_contributions

end LeaveOneOut

/-! ## The records as lists -/

section Records

variable (h : History)

theorem appendedByRound_eq : appendedByRound h.rounds =
    h.rounds.map fun r => (r.1, r.2.values.map fun e => (e.1, [e.2])) := by
  have hrounds := foldl_put_new (fun old (r : RoundValues) =>
    r.values.foldl (fun round e => append round e.1 e.2) (old.getD [])) h.rounds [] h.distinct
  rw [appendedByRound, hrounds]
  refine List.map_congr_left fun r _ => ?_
  have hround := foldl_put_new (fun (old : Option (List ℚ)) x => old.getD [] ++ [x])
    r.2.values [] r.2.distinct
  exact congrArg (Prod.mk r.1) hround

theorem putByRound_eq : putByRound h.rounds = h.rounds.map fun r => (r.1, r.2.values) :=
  foldl_put_new (fun _ (r : RoundValues) => r.values) h.rounds [] h.distinct

theorem setDefaultByRound_eq :
    setDefaultByRound h.rounds = h.rounds.map fun r => (r.1, r.2.values) := by
  have hrounds := foldl_put_new (fun old (r : RoundValues) =>
    r.values.foldl (fun round e => put round e.1 ((find? round e.1).getD e.2)) (old.getD []))
    h.rounds [] h.distinct
  rw [setDefaultByRound, hrounds]
  refine List.map_congr_left fun r _ => ?_
  have hround := foldl_put_new (fun (old : Option ℚ) x => old.getD x) r.2.values [] r.2.distinct
  rw [List.nil_append] at hround
  exact congrArg (Prod.mk r.1) (hround.trans (List.map_id _))

theorem find?_collect {α : Type} (by_round : Entries ℕ (Entries ℕ α)) (id : ℕ) :
    find? (collect by_round) id =
      if valuesOf (by_round.flatMap Prod.snd) id = [] then none
      else some (valuesOf (by_round.flatMap Prod.snd) id) := by
  have hcollect : collect by_round =
      (by_round.flatMap Prod.snd).foldl (fun SV e => append SV e.1 e.2) [] := by
    rw [List.foldl_flatMap]
    rfl
  rw [hcollect, find?_foldl_append]
  rfl

theorem find?_collect_putByRound (id : ℕ) : find? (collect (putByRound h.rounds)) id =
    if valuesOf h.recorded id = [] then none else some (valuesOf h.recorded id) := by
  have hflat : (putByRound h.rounds).flatMap Prod.snd = h.recorded := by
    rw [putByRound_eq, List.flatMap_map]
    rfl
  rw [find?_collect, hflat]

/-- In the records of GTG and TMC each value is a list of its own. -/
theorem find?_collect_appendedByRound (id : ℕ) : find? (collect (appendedByRound h.rounds)) id =
    if valuesOf h.recorded id = [] then none
    else some ((valuesOf h.recorded id).map fun v => [v]) := by
  have hflat : (appendedByRound h.rounds).flatMap Prod.snd =
      h.recorded.map fun e => (e.1, [e.2]) := by
    rw [appendedByRound_eq, List.flatMap_map, History.recorded, List.map_flatMap]
  have hvalues : valuesOf (h.recorded.map fun e => (e.1, [e.2])) id =
      (valuesOf h.recorded id).map fun v => [v] := by
    simp [valuesOf, List.filter_map, Function.comp_def]
  rw [find?_collect, hflat, hvalues]
  simp only [List.map_eq_nil_iff]

theorem npSum_singletons (vs : List ℚ) : npSum (vs.map fun v => [v]) = .ok vs.sum := by
  have hlengths : ∀ row ∈ vs.map fun v => [v],
      row.length = ((vs.map fun v => [v]).headD []).length := by
    intro row hrow
    obtain ⟨v, -, rfl⟩ := List.mem_map.mp hrow
    cases vs with
    | nil => cases hrow
    | cons w vs => rfl
  rw [npSum, if_pos hlengths]
  simp [Function.comp_def]

theorem valuesOf_ne_nil_iff (client : ℕ) :
    valuesOf h.recorded client ≠ [] ↔ h.TookPart client := by
  rw [valuesOf, Ne, List.map_eq_nil_iff, List.filter_eq_nil_iff, not_forall]
  constructor
  · rintro ⟨e, he⟩
    obtain ⟨hmem, hclient⟩ := Classical.not_imp.mp he
    obtain ⟨r, hr, hmem⟩ := List.mem_flatMap.mp hmem
    have heq : e.1 = client := by simpa using hclient
    exact ⟨r, hr, List.mem_map.mpr ⟨e, hmem, heq⟩⟩
  · rintro ⟨r, hr, hclient⟩
    obtain ⟨e, hmem, rfl⟩ := List.mem_map.mp hclient
    exact ⟨e, fun hnot => hnot (List.mem_flatMap.mpr ⟨r, hr, hmem⟩) (by simp)⟩

theorem recorded_nonneg {e : ℕ × ℚ} (he : e ∈ h.recorded) : 0 ≤ e.2 := by
  obtain ⟨r, -, hmem⟩ := List.mem_flatMap.mp he
  exact r.2.nonneg e hmem

theorem totalOf_nonneg (client : ℕ) : 0 ≤ h.totalOf client := by
  apply List.sum_nonneg
  intro v hv
  obtain ⟨e, he, rfl⟩ := List.mem_map.mp hv
  exact recorded_nonneg h (List.mem_of_mem_filter he)

end Records

/-! ## The sums of the clients -/

section Sums

variable (h : History)

theorem sumOf_gtg (id : ℕ) :
    GTGShapleyValue.sumOf (collect (appendedByRound h.rounds)) id = .ok (h.totalOf id) := by
  rw [GTGShapleyValue.sumOf, find?_collect_appendedByRound]
  by_cases hnone : valuesOf h.recorded id = []
  · simp [hnone, History.totalOf]
  · rw [if_neg hnone]
    exact npSum_singletons _

theorem sumOf_mr (id : ℕ) :
    MRShapleyValue.sumOf (collect (putByRound h.rounds)) id = .ok (h.totalOf id) := by
  rw [MRShapleyValue.sumOf, find?_collect_putByRound]
  by_cases hnone : valuesOf h.recorded id = []
  · simp [hnone, History.totalOf]
  · rw [if_neg hnone]
    rfl

theorem sumOf_tmc {id : ℕ} (hid : h.TookPart id) :
    TMCShapleyValue.sumOf (collect (appendedByRound h.rounds)) id = .ok (h.totalOf id) := by
  rw [TMCShapleyValue.sumOf, find?_collect_appendedByRound,
    if_neg ((valuesOf_ne_nil_iff h id).mpr hid)]
  exact npSum_singletons _

theorem sumOf_tmc_absent {id : ℕ} (hid : ¬ h.TookPart id) :
    TMCShapleyValue.sumOf (collect (appendedByRound h.rounds)) id = .error .KeyError := by
  have hnone : valuesOf h.recorded id = [] :=
    not_not.mp fun hne => hid ((valuesOf_ne_nil_iff h id).mp hne)
  rw [TMCShapleyValue.sumOf, find?_collect_appendedByRound, if_pos hnone]

theorem summed_of_ok {α : Type} {SV : Entries ℕ α} {sumOf : Entries ℕ α → ℕ → Except AssignErr ℚ}
    (hsum : ∀ id < h.client_num_in_total, sumOf SV id = .ok (h.totalOf id)) :
    summed h.client_num_in_total sumOf SV =
      .ok (table h.totalOf (List.range h.client_num_in_total)) := by
  refine mapM_of_ok fun id hid => ?_
  rw [hsum id (List.mem_range.mp hid)]
  rfl

theorem foldlM_add {n : ℕ} (l : List (ℕ × ℚ)) (hl : ∀ e ∈ l, e.1 < n) (v : ℕ → ℚ) :
    l.foldlM LeaveOneOut.add (table v (List.range n)) =
      .ok (table (fun id => v id + (valuesOf l id).sum) (List.range n)) := by
  induction l generalizing v with
  | nil =>
      have hzero : (fun id => v id + (valuesOf ([] : List (ℕ × ℚ)) id).sum) = v := by
        funext id
        exact add_zero (v id)
      rw [hzero]
      rfl
  | cons e l ih =>
      have he : e.1 ∈ List.range n := List.mem_range.mpr (hl e List.mem_cons_self)
      have hadd : LeaveOneOut.add (table v (List.range n)) e =
          .ok (table (Function.update v e.1 (v e.1 + e.2)) (List.range n)) := by
        rw [LeaveOneOut.add, find?_table, if_pos he, ← put_table_of_mem List.nodup_range he]
      rw [foldlM_cons_of_ok hadd, ih fun x hx => hl x (List.mem_cons_of_mem e hx)]
      congr 2
      funext id
      rw [valuesOf_cons]
      by_cases hid : e.1 = id
      · subst hid
        simp [add_assoc]
      · have hid' : id ≠ e.1 := fun heq => hid heq.symm
        simp [hid, hid']

/-- The rounds one after the other add up all recorded values. -/
theorem total_contributions_eq :
    (setDefaultByRound h.rounds).foldlM (fun totals r => r.2.foldlM LeaveOneOut.add totals)
        ((List.range h.client_num_in_total).foldl (fun m client_id => put m client_id 0) []) =
      .ok (table h.totalOf (List.range h.client_num_in_total)) := by
  have hstart : (List.range h.client_num_in_total).foldl
      (fun m client_id => put m client_id (0 : ℚ)) [] =
        table (fun _ => 0) (List.range h.client_num_in_total) :=
    foldl_put_const 0 _ [] List.nodup_range
  have hclients : ∀ e ∈ h.recorded, e.1 < h.client_num_in_total := by
    intro e he
    obtain ⟨r, hr, hmem⟩ := List.mem_flatMap.mp he
    exact h.clients r hr e hmem
  calc (setDefaultByRound h.rounds).foldlM (fun totals r => r.2.foldlM LeaveOneOut.add totals) _
      = ((setDefaultByRound h.rounds).flatMap Prod.snd).foldlM LeaveOneOut.add
          (table (fun _ => 0) (List.range h.client_num_in_total)) := by
        rw [hstart, foldlM_flatMap]
    _ = h.recorded.foldlM LeaveOneOut.add
          (table (fun _ => 0) (List.range h.client_num_in_total)) := by
        rw [setDefaultByRound_eq, List.flatMap_map]
        rfl
    _ = .ok (table h.totalOf (List.range h.client_num_in_total)) := by
        rw [foldlM_add h.recorded hclients]
        simp only [zero_add]
        rfl

end Sums

/-! ## The shares -/

/-- A share is assigned to every client that took part in some round; the shares are not negative
and their sum is 1. -/
def Assigns (h : History) (result : Except AssignErr (Entries ℕ ℚ)) : Prop :=
  ∃ assignment, result = .ok assignment ∧
    (∀ client, h.TookPart client → ∃ v, find? assignment client = some v) ∧
    (∀ e ∈ assignment, 0 ≤ e.2) ∧ (assignment.map Prod.snd).sum = 1

section Shares

variable (h : History)

theorem lt_of_tookPart {client : ℕ} (hclient : h.TookPart client) :
    client < h.client_num_in_total := by
  obtain ⟨r, hr, hmem⟩ := hclient
  obtain ⟨e, he, rfl⟩ := List.mem_map.mp hmem
  exact h.clients r hr e he

theorem assigns_table {v : ℕ → ℚ} (hnonneg : ∀ id, 0 ≤ v id)
    (hsum : ((List.range h.client_num_in_total).map v).sum = 1) :
    Assigns h (.ok (table v (List.range h.client_num_in_total))) := by
  refine ⟨_, rfl, ?_, ?_, ?_⟩
  · intro client hclient
    refine ⟨v client, ?_⟩
    rw [find?_table, if_pos (List.mem_range.mpr (lt_of_tookPart h hclient))]
  · intro e he
    obtain ⟨id, -, rfl⟩ := List.mem_map.mp he
    exact hnonneg id
  · simpa [table, Function.comp_def] using hsum

theorem assigns_shares {negligible : ℚ → Bool} (hzero : negligible 0 = true)
    (hpos : 0 < h.client_num_in_total) :
    Assigns h (shares h.client_num_in_total negligible
      (table h.totalOf (List.range h.client_num_in_total))) := by
  have hn : (h.client_num_in_total : ℚ) ≠ 0 := Nat.cast_ne_zero.mpr hpos.ne'
  let total := ((List.range h.client_num_in_total).map h.totalOf).sum
  have htotal : ((table h.totalOf (List.range h.client_num_in_total)).map Prod.snd).sum =
      total := by
    simp [table, Function.comp_def, total]
  have hmap : ∀ f : ℕ × ℚ → ℚ,
      (table h.totalOf (List.range h.client_num_in_total)).map (fun e => (e.1, f e)) =
        table (fun id => f (id, h.totalOf id)) (List.range h.client_num_in_total) := by
    intro f
    simp [table]
  rw [shares, htotal]
  by_cases hneg : negligible total
  · rw [if_pos hneg, if_neg hpos.ne', hmap]
    refine assigns_table h (fun _ => by positivity) ?_
    simp [hn]
  · rw [if_neg hneg, hmap]
    have hne : total ≠ 0 := by
      intro heq
      rw [heq] at hneg
      exact hneg hzero
    have hnonneg : 0 ≤ total := by
      apply List.sum_nonneg
      intro v hv
      obtain ⟨id, -, rfl⟩ := List.mem_map.mp hv
      exact totalOf_nonneg h id
    refine assigns_table h (fun id => div_nonneg (totalOf_nonneg h id) hnonneg) ?_
    simp only [div_eq_mul_inv]
    rw [List.sum_map_mul_right]
    exact mul_inv_cancel₀ hne

theorem not_assigns_zero {negligible : ℚ → Bool} (hzero : negligible 0 = true)
    (hn : h.client_num_in_total = 0) :
    ¬ Assigns h (shares h.client_num_in_total negligible
      (table h.totalOf (List.range h.client_num_in_total))) := by
  rintro ⟨assignment, hshares, -⟩
  rw [hn] at hshares
  simp [shares, table, hzero] at hshares

end Shares

/-- The assessors that `ContributionAssessorManager` builds. -/
inductive Alg where
  | LOO
  | GTG
  | TMC
  | MR
  deriving DecidableEq, Repr

/-- `get_final_contribution_assignment` of the manager. -/
def get_final_contribution_assignment (h : History) : Alg → Except AssignErr (Entries ℕ ℚ)
  | .LOO => LeaveOneOut.get_final_contribution_assignment h
  | .GTG => GTGShapleyValue.get_final_contribution_assignment h
  | .TMC => TMCShapleyValue.get_final_contribution_assignment h
  | .MR => MRShapleyValue.get_final_contribution_assignment h

/-- The test for a sum that passes for zero. -/
def Alg.negligible : Alg → ℚ → Bool
  | .LOO => fun total => total = 0 || total < LeaveOneOut.similar_threshold
  | _ => isZero

theorem Alg.negligible_zero (alg : Alg) : alg.negligible 0 = true := by
  cases alg <;> rfl

/-- All assessors give shares of the same sums, if TMC has a record of every client. -/
theorem get_final_contribution_assignment_eq (h : History) {alg : Alg}
    (hall : alg = .TMC → ∀ client < h.client_num_in_total, h.TookPart client) :
    get_final_contribution_assignment h alg = shares h.client_num_in_total alg.negligible
      (table h.totalOf (List.range h.client_num_in_total)) := by
  cases alg with
  | LOO =>
      show LeaveOneOut.get_final_contribution_assignment h = _
      dsimp only [LeaveOneOut.get_final_contribution_assignment]
      rw [total_contributions_eq]
      rfl
  | GTG =>
      show GTGShapleyValue.get_final_contribution_assignment h = _
      dsimp only [GTGShapleyValue.get_final_contribution_assignment]
      rw [summed_of_ok h fun id _ => sumOf_gtg h id]
      rfl
  | TMC =>
      show TMCShapleyValue.get_final_contribution_assignment h = _
      dsimp only [TMCShapleyValue.get_final_contribution_assignment]
      rw [summed_of_ok h fun id hid => sumOf_tmc h (hall rfl id hid)]
      rfl
  | MR =>
      show MRShapleyValue.get_final_contribution_assignment h = _
      dsimp only [MRShapleyValue.get_final_contribution_assignment]
      rw [summed_of_ok h fun id _ => sumOf_mr h id]
      rfl

/-- TMC looks up a client without a record. -/
theorem tmc_fails_of_absent (h : History) {client : ℕ} (hlt : client < h.client_num_in_total)
    (habsent : ¬ h.TookPart client) (assignment : Entries ℕ ℚ) :
    get_final_contribution_assignment h .TMC ≠ .ok assignment := by
  intro hok
  obtain ⟨SV_summed, hsummed, -⟩ := bind_eq_ok.mp hok
  obtain ⟨e, he⟩ := ok_of_mapM hsummed (List.mem_range.mpr hlt)
  rw [sumOf_tmc_absent h habsent] at he
  cases he

/-- **Every history ends in shares, just when there are clients and, with TMC, each of them took
part in some round.** -/
theorem assigns_iff (h : History) (alg : Alg) :
    Assigns h (get_final_contribution_assignment h alg) ↔
      0 < h.client_num_in_total ∧
        (alg = .TMC → ∀ client < h.client_num_in_total, h.TookPart client) := by
  constructor
  · intro hassigns
    have hall : alg = .TMC → ∀ client < h.client_num_in_total, h.TookPart client := by
      rintro rfl client hlt
      by_contra habsent
      obtain ⟨assignment, hok, -⟩ := hassigns
      exact tmc_fails_of_absent h hlt habsent assignment hok
    refine ⟨Nat.pos_of_ne_zero fun hn => ?_, hall⟩
    rw [get_final_contribution_assignment_eq h hall] at hassigns
    exact not_assigns_zero h alg.negligible_zero hn hassigns
  · rintro ⟨hpos, hall⟩
    rw [get_final_contribution_assignment_eq h hall]
    exact assigns_shares h alg.negligible_zero hpos

/-- One of two clients in one round. -/
def onlyFirst : History where
  client_num_in_total := 2
  rounds := [(0, ⟨[(0, 1)], by simp, by simp, by simp⟩)]
  distinct := by simp
  clients := by decide

/-- There is no share for the client that took part. -/
theorem not_assigns_onlyFirst :
    onlyFirst.TookPart 0 ∧
      ¬ Assigns onlyFirst (get_final_contribution_assignment onlyFirst .TMC) := by
  refine ⟨⟨_, List.mem_singleton.mpr rfl, by simp⟩, ?_⟩
  rintro ⟨assignment, hok, -⟩
  have habsent : ¬ onlyFirst.TookPart 1 := by
    simp [History.TookPart, onlyFirst]
  exact tmc_fails_of_absent onlyFirst (by decide) habsent assignment hok

end Fediux.Contribution
