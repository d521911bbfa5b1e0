import Fediux.Basic.Dict
import Fediux.Basic.Fallible
import Fediux.Basic.Orders
import Fediux.Contribution.Utilities

set_option autoImplicit false

/-! # The Shapley values over all subsets

`MRShapleyValue.run` of `python/fediux/contribution`, which validates every subset of the clients
once and adds up the clipped marginal contributions with the weights of the subsets. The weights
count the orders in which a subset comes before a client: what is recorded is the average over all
orders of the clients (`run_eq_average`).
-/

namespace Fediux.Contribution

open Dict Fallible Orders OrderedMap

/-- The arguments of a run: the clients of the round and the utilities. `validation` is what
`validation_func` gives to the aggregated model of a subset. -/
structure RunArgs where
  client_index_for_this_round : List ℕ
  validation : Subset → ℚ
  acc_on_last_round : ℚ
  acc_on_aggregated_model : ℚ
  nonempty : client_index_for_this_round ≠ []
  distinct : client_index_for_this_round.Nodup

inductive LookupErr where
  | KeyError
  deriving DecidableEq, Repr

/-- `m[k]`. -/
def lookup {κ α : Type} [DecidableEq κ] (m : Entries κ α) (k : κ) : Except LookupErr α :=
  match find? m k with
  | some v => .ok v
  | none => .error .KeyError

namespace MRShapleyValue

/-- The weighted contribution of a client to a subset, added to its value. -/
def addContribution (utility : Entries Subset ℚ) (N : ℕ) (S : Subset)
    (sv_dict : Entries ℕ ℚ) (id : ℕ) : Except LookupErr (Entries ℕ ℚ) := do
  let S_without_id := S.filter fun i => i ≠ id
  let marginal_contribution := max ((← lookup utility S) - (← lookup utility S_without_id)) 0
  let weight := 1 / (((N - 1).choose (S.length - 1) : ℚ) * N)
  let contribution := marginal_contribution * weight
  return put sv_dict id ((← lookup sv_dict id) + contribution)

def shapley_value (utility : Entries Subset ℚ) (idxs : List ℕ) :
    Except LookupErr (Entries ℕ ℚ) :=
  let N := idxs.length
  let sv_dict := idxs.foldl (fun sv id => put sv id 0) []
  let valid_subsets := (keys utility).filter fun S => S ≠ []
  valid_subsets.foldlM (fun sv S => S.foldlM (addContribution utility N S) sv) sv_dict

/-- `util`, after the loop over the subsets. -/
def utilities (A : RunArgs) : Entries Subset ℚ :=
  let powerset := generate_power_set A.client_index_for_this_round
  let s_all := powerset.getLast?.getD []
  let util := put (put [] [] A.acc_on_last_round) s_all A.acc_on_aggregated_model
  powerset.foldl
    (fun util S => if (find? util S).isSome then util else put util S (A.validation S)) util

/-- The values by round after a run. -/
def run (A : RunArgs) (round_idx : ℕ) (shapley_values_by_round : Entries ℕ (Entries ℕ ℚ)) :
    Except LookupErr (Entries ℕ (Entries ℕ ℚ)) := do
  let shapley_result ← shapley_value (utilities A) A.client_index_for_this_round
  return put shapley_values_by_round round_idx shapley_result

end MRShapleyValue

/-! ## The average over the orders -/

namespace RunArgs

variable (A : RunArgs)

/-- The utility of a set of clients: the accuracy of the last round for no client, that of the
aggregated model for all of them, else what its validation gives. -/
def coalition (T : Finset ℕ) : ℚ :=
  if T = ∅ then A.acc_on_last_round
  else if T = A.client_index_for_this_round.toFinset then A.acc_on_aggregated_model
  else A.validation (within T A.client_index_for_this_round)

/-- What a client adds to a set without it, negative contributions clipped. -/
def marginal (id : ℕ) (T : Finset ℕ) : ℚ := max (A.coalition (insert id T) - A.coalition T) 0

/-- The average over all orders of the clients of what a client adds to those before it. -/
def orderAverage (id : ℕ) : ℚ :=
  (∑ order ∈ orders A.client_index_for_this_round, A.marginal id (before id order)) /
    A.client_index_for_this_round.length.factorial

/-- The weighted sum over the sets without a client. -/
def subsetSum (id : ℕ) : ℚ :=
  let n := A.client_index_for_this_round.length
  ∑ T ∈ (A.client_index_for_this_round.toFinset.erase id).powerset,
    (T.card.factorial * (n - 1 - T.card).factorial : ℕ) / n.factorial * A.marginal id T

theorem orderAverage_eq_subsetSum {id : ℕ} (hid : id ∈ A.client_index_for_this_round) :
    A.orderAverage id = A.subsetSum id := by
  rw [orderAverage, sum_orders_before A.distinct hid (A.marginal id), Finset.sum_div]
  refine Finset.sum_congr rfl fun T _ => ?_
  exact mul_div_right_comm _ _ _

end RunArgs

/-! ## The subsets -/

theorem mem_combinations {α : Type} {r : ℕ} {l S : List α} :
    S ∈ combinations r l ↔ S.Sublist l ∧ S.length = r := by
  induction l generalizing r S with
  | nil =>
      cases r with
      | zero => simp [combinations]
      | succ r =>
          simp only [combinations, List.not_mem_nil, false_iff, not_and]
          intro hS
          rw [List.sublist_nil.mp hS]
          simp
  | cons x l ih =>
      cases r with
      | zero =>
          rw [combinations, List.mem_singleton, List.length_eq_zero_iff]
          exact ⟨fun h => ⟨h ▸ List.nil_sublist _, h⟩, And.right⟩
      | succ r =>
          rw [combinations, List.mem_append, List.mem_map, ih]
          constructor
          · rintro (⟨S', hS', rfl⟩ | ⟨hsub, hlength⟩)
            · obtain ⟨hsub, rfl⟩ := ih.mp hS'
              exact ⟨hsub.cons_cons x, rfl⟩
            · exact ⟨hsub.cons x, hlength⟩
          · rintro ⟨hsub, hlength⟩
            cases hsub with
            | cons _ hsub => exact Or.inr ⟨hsub, hlength⟩
            | cons_cons _ hsub =>
                exact Or.inl ⟨_, ih.mpr ⟨hsub, Nat.succ.inj hlength⟩, rfl⟩

theorem mem_generate_power_set {α : Type} {l S : List α} :
    S ∈ generate_power_set l ↔ S.Sublist l := by
  rw [generate_power_set, List.mem_flatMap]
  constructor
  · rintro ⟨r, _, hS⟩
    exact (mem_combinations.mp hS).1
  · intro hS
    have hlength : S.length ∈ List.range (l.length + 1) :=
      List.mem_range.mpr (Nat.lt_succ_of_le hS.length_le)
    exact ⟨S.length, hlength, mem_combinations.mpr ⟨hS, rfl⟩⟩

theorem getLast_generate_power_set {α : Type} (l : List α) :
    (generate_power_set l).getLast?.getD [] = l := by
  simp [generate_power_set, List.range_succ, combinations_length]

/-- A subset is given by its elements. -/
theorem within_toFinset_of_sublist {l S : List ℕ} (hnodup : l.Nodup) (hS : S.Sublist l) :
    within S.toFinset l = S := by
  induction hS with
  | slnil => rfl
  | @cons S l x hsub ih =>
      obtain ⟨hx, hnodup⟩ := List.nodup_cons.mp hnodup
      have hxS : x ∉ S := fun h => hx (hsub.subset h)
      rw [within, List.filter_cons_of_neg (by simpa using hxS)]
      exact ih hnodup
  | @cons_cons S l x hsub ih =>
      obtain ⟨hx, hnodup⟩ := List.nodup_cons.mp hnodup
      have hrest : within (x :: S).toFinset l = within S.toFinset l := by
        refine List.filter_congr fun y hy => ?_
        have hne : y ≠ x := fun h => hx (h ▸ hy)
        simp [hne]
      rw [within, List.filter_cons_of_pos (by simp)]
      exact congrArg (x :: ·) (hrest.trans (ih hnodup))

theorem toFinset_within {l : List ℕ} {T : Finset ℕ} (hT : T ⊆ l.toFinset) :
    (within T l).toFinset = T := by
  ext x
  rw [List.mem_toFinset, mem_within]
  exact and_iff_right_of_imp fun hx => List.mem_toFinset.mp (hT hx)

/-! ## What a run records -/

namespace RunArgs

variable (A : RunArgs)

/-- The utility under the key of a subset. -/
def utility (S : Subset) : ℚ :=
  if S = [] then A.acc_on_last_round
  else if S = A.client_index_for_this_round then A.acc_on_aggregated_model
  else A.validation S

theorem utility_eq_coalition {S : Subset} (hS : S.Sublist A.client_index_for_this_round) :
    A.utility S = A.coalition S.toFinset := by
  have hwithin := within_toFinset_of_sublist A.distinct hS
  have hall : S.toFinset = A.client_index_for_this_round.toFinset ↔
      S = A.client_index_for_this_round := by
    refine ⟨fun h => ?_, congrArg List.toFinset⟩
    rw [← hwithin, h, within_toFinset_of_sublist A.distinct (List.Sublist.refl _)]
  simp only [utility, coalition, hall, hwithin, List.toFinset_eq_empty_iff]

end RunArgs

namespace MRShapleyValue

variable (A : RunArgs)

/-- The cache has the utilities of all subsets. -/
theorem utilities_eq : ∃ subsets : List Subset,
    utilities A = table A.utility subsets ∧ subsets.Nodup ∧
      ∀ S, S ∈ subsets ↔ S.Sublist A.client_index_for_this_round := by
  have hstart : put (put [] [] A.acc_on_last_round) A.client_index_for_this_round
      A.acc_on_aggregated_model = table A.utility [[], A.client_index_for_this_round] := by
    have hne := A.nonempty
    simp [put, table, RunArgs.utility, hne]
  have hnodup : [[], A.client_index_for_this_round].Nodup := by
    simpa using A.nonempty.symm
  obtain ⟨subsets, hfold, hnodup', hmem⟩ := foldl_put_table (f := A.utility)
    (g := A.validation) (generate_power_set A.client_index_for_this_round)
    [[], A.client_index_for_this_round] hnodup (by
      intro S _ hS
      simp only [List.mem_cons, List.not_mem_nil, or_false, not_or] at hS
      rw [RunArgs.utility, if_neg hS.1, if_neg hS.2])
  refine ⟨subsets, ?_, hnodup', fun S => ?_⟩
  · dsimp only [utilities]
    rw [getLast_generate_power_set, hstart, hfold]
  · rw [hmem, mem_generate_power_set, List.mem_cons, List.mem_singleton]
    constructor
    · rintro ((rfl | rfl) | hS)
      · exact List.nil_sublist _
      · exact List.Sublist.refl _
      · exact hS
    · exact Or.inr

/-- What a subset adds to the value of one of its clients. -/
def share (S : Subset) (id : ℕ) : ℚ :=
  let N := A.client_index_for_this_round.length
  max (A.utility S - A.utility (S.filter fun i => i ≠ id)) 0 *
    (1 / (((N - 1).choose (S.length - 1) : ℚ) * N))

section Loop

variable {A} {subsets : List Subset} {S : Subset}

theorem addContribution_table (hmem : ∀ S, S ∈ subsets ↔ S.Sublist A.client_index_for_this_round)
    (hS : S.Sublist A.client_index_for_this_round) (v : ℕ → ℚ) {id : ℕ} (hid : id ∈ S) :
    addContribution (table A.utility subsets) A.client_index_for_this_round.length S
        (table v A.client_index_for_this_round) id =
      .ok (table (Function.update v id (v id + share A S id))
        A.client_index_for_this_round) := by
  have hin : lookup (table A.utility subsets) S = .ok (A.utility S) := by
    rw [lookup, find?_table, if_pos ((hmem S).mpr hS)]
  have hwithout : lookup (table A.utility subsets) (S.filter fun i => i ≠ id) =
      .ok (A.utility (S.filter fun i => i ≠ id)) := by
    rw [lookup, find?_table, if_pos ((hmem _).mpr (List.filter_sublist.trans hS))]
  have hvalue : lookup (table v A.client_index_for_this_round) id = .ok (v id) := by
    rw [lookup, find?_table, if_pos (hS.subset hid)]
  rw [← put_table_of_mem A.distinct (hS.subset hid)]
  simp only [addContribution, hin, hwithout, hvalue, bind, Except.bind]
  rfl

/-- The clients of a subset in turn. -/
theorem foldlM_addContribution
    (hmem : ∀ S, S ∈ subsets ↔ S.Sublist A.client_index_for_this_round)
    (hS : S.Sublist A.client_index_for_this_round) (l : List ℕ) (hl : ∀ id ∈ l, id ∈ S)
    (hnodup : l.Nodup) (v : ℕ → ℚ) :
    l.foldlM (addContribution (table A.utility subsets) A.client_index_for_this_round.length S)
        (table v A.client_index_for_this_round) =
      .ok (table (fun id => v id + if id ∈ l then share A S id else 0)
        A.client_index_for_this_round) := by
  induction l generalizing v with
  | nil => simp [pure, Except.pure]
  | cons id l ih =>
      obtain ⟨hnot, hnodup⟩ := List.nodup_cons.mp hnodup
      rw [foldlM_cons_of_ok (addContribution_table hmem hS v (hl id List.mem_cons_self)),
        ih (fun x hx => hl x (List.mem_cons_of_mem id hx)) hnodup]
      congr 2
      funext x
      by_cases hx : x = id
      · subst hx
        simp [hnot]
      · simp [hx]

/-- The subsets in turn. -/
theorem foldlM_shares (hmem : ∀ S, S ∈ subsets ↔ S.Sublist A.client_index_for_this_round)
    (l : List Subset) (hl : ∀ S ∈ l, S.Sublist A.client_index_for_this_round) (v : ℕ → ℚ) :
    l.foldlM (fun sv S => S.foldlM (addContribution (table A.utility subsets)
          A.client_index_for_this_round.length S) sv) (table v A.client_index_for_this_round) =
      .ok (table (fun id => v id + (l.map fun S => if id ∈ S then share A S id else 0).sum)
        A.client_index_for_this_round) := by
  induction l generalizing v with
  | nil => simp [pure, Except.pure]
  | cons S l ih =>
      have hS := hl S List.mem_cons_self
      have hfirst := foldlM_addContribution hmem hS S (fun _ h => h) (hS.nodup A.distinct) v
      rw [foldlM_cons_of_ok (by exact hfirst), ih fun T hT => hl T (List.mem_cons_of_mem S hT)]
      congr 2
      funext id
      rw [List.map_cons, List.sum_cons, add_assoc]

end Loop

/-- The value of a client is the sum over the subsets with it. -/
theorem run_eq_sum (round_idx : ℕ) (shapley_values_by_round : Entries ℕ (Entries ℕ ℚ)) :
    ∃ valid_subsets : List Subset, valid_subsets.Nodup ∧
      (∀ S, S ∈ valid_subsets ↔ S.Sublist A.client_index_for_this_round ∧ S ≠ []) ∧
      run A round_idx shapley_values_by_round = .ok (put shapley_values_by_round round_idx
        (table (fun id => (valid_subsets.map fun S => if id ∈ S then share A S id else 0).sum)
          A.client_index_for_this_round)) := by
  obtain ⟨subsets, hutil, hnodup, hmem⟩ := utilities_eq A
  have hzero : A.client_index_for_this_round.foldl (fun sv id => put sv id (0 : ℚ)) [] =
      table (fun _ => 0) A.client_index_for_this_round :=
    foldl_put_const 0 A.client_index_for_this_round [] A.distinct
  refine ⟨subsets.filter fun S => S ≠ [], hnodup.filter _, fun S => ?_, ?_⟩
  · rw [List.mem_filter, hmem, decide_eq_true_eq]
  · have hl : ∀ S ∈ subsets.filter fun S => S ≠ [],
        S.Sublist A.client_index_for_this_round :=
      fun S hS => (hmem S).mp (List.mem_of_mem_filter hS)
    dsimp only [run, shapley_value]
    rw [hutil, keys_table, hzero, foldlM_shares hmem _ hl]
    simp only [zero_add]
    rfl

/-- The weight of a subset counts the orders. -/
theorem weight_eq {N t : ℕ} (ht : t + 1 ≤ N) :
    1 / (((N - 1).choose t : ℚ) * N) = (t.factorial * (N - 1 - t).factorial : ℕ) / N.factorial := by
  have hfactorial : (N - 1).choose t * N * (t.factorial * (N - 1 - t).factorial) = N.factorial := by
    calc (N - 1).choose t * N * (t.factorial * (N - 1 - t).factorial)
        = N * ((N - 1).choose t * t.factorial * (N - 1 - t).factorial) := by ring
      _ = N * (N - 1).factorial := by
          rw [Nat.choose_mul_factorial_mul_factorial (by omega)]
      _ = N.factorial := Nat.mul_factorial_pred (by omega)
  have hpos : (0 : ℚ) < (N - 1).choose t * N := by
    have hchoose : 0 < (N - 1).choose t := Nat.choose_pos (by omega)
    have hN : 0 < N := by omega
    positivity
  rw [div_eq_div_iff hpos.ne' (Nat.cast_ne_zero.mpr (Nat.factorial_ne_zero N)), one_mul,
    ← hfactorial]
  push_cast
  ring

/-- The share of a subset by its other clients. -/
theorem share_eq {S : Subset} (hS : S.Sublist A.client_index_for_this_round) {id : ℕ}
    (hid : id ∈ S) :
    let n := A.client_index_for_this_round.length
    let T := S.toFinset.erase id
    share A S id =
      (T.card.factorial * (n - 1 - T.card).factorial : ℕ) / n.factorial * A.marginal id T := by
  intro n T
  have hcard : T.card + 1 = S.length := by
    rw [Finset.card_erase_add_one (List.mem_toFinset.mpr hid),
      List.toFinset_card_of_nodup (hS.nodup A.distinct)]
  have hwith : A.utility S = A.coalition (insert id T) := by
    rw [A.utility_eq_coalition hS, Finset.insert_erase (List.mem_toFinset.mpr hid)]
  have hwithout : A.utility (S.filter fun i => i ≠ id) = A.coalition T := by
    rw [A.utility_eq_coalition (List.filter_sublist.trans hS), List.toFinset_filter]
    congr 1
    ext x
    simp [T, and_comm]
  have hle : S.length ≤ n := hS.length_le
  have hpred : S.length - 1 = T.card := by omega
  show max (A.utility S - A.utility (S.filter fun i => i ≠ id)) 0 *
    (1 / (((n - 1).choose (S.length - 1) : ℚ) * n)) = _
  rw [hpred, weight_eq (by omega), hwith, hwithout, mul_comm]
  rfl

/-- The subsets with a client are the sets without it, with it put in. -/
theorem sum_shares_eq {valid_subsets : List Subset} (hnodup : valid_subsets.Nodup)
    (hmem : ∀ S, S ∈ valid_subsets ↔ S.Sublist A.client_index_for_this_round ∧ S ≠ [])
    {id : ℕ} (hid : id ∈ A.client_index_for_this_round) :
    (valid_subsets.map fun S => if id ∈ S then share A S id else 0).sum = A.subsetSum id := by
  rw [← List.sum_toFinset _ hnodup, ← Finset.sum_filter]
  refine Finset.sum_bij' (fun S _ => S.toFinset.erase id)
    (fun T _ => within (insert id T) A.client_index_for_this_round) ?_ ?_ ?_ ?_ ?_
  · intro S hS
    obtain ⟨hS, hidS⟩ := Finset.mem_filter.mp hS
    have hsub := ((hmem S).mp (List.mem_toFinset.mp hS)).1
    refine Finset.mem_powerset.mpr (Finset.erase_subset_erase id fun x hx => ?_)
    exact List.mem_toFinset.mpr (hsub.subset (List.mem_toFinset.mp hx))
  · intro T hT
    have hwithin : id ∈ within (insert id T) A.client_index_for_this_round :=
      mem_within.mpr ⟨hid, Finset.mem_insert_self id T⟩
    refine Finset.mem_filter.mpr ⟨List.mem_toFinset.mpr ((hmem _).mpr ⟨?_, ?_⟩), hwithin⟩
    · exact List.filter_sublist
    · exact List.ne_nil_of_mem hwithin
  · intro S hS
    obtain ⟨hS, hidS⟩ := Finset.mem_filter.mp hS
    have hsub := ((hmem S).mp (List.mem_toFinset.mp hS)).1
    rw [Finset.insert_erase (List.mem_toFinset.mpr hidS)]
    exact within_toFinset_of_sublist A.distinct hsub
  · intro T hT
    have hsub := Finset.mem_powerset.mp hT
    have hall : insert id T ⊆ A.client_index_for_this_round.toFinset :=
      Finset.insert_subset (List.mem_toFinset.mpr hid) (hsub.trans (Finset.erase_subset _ _))
    rw [toFinset_within hall]
    exact Finset.erase_insert fun h => absurd rfl (Finset.mem_erase.mp (hsub h)).1
  · intro S hS
    obtain ⟨hS, hidS⟩ := Finset.mem_filter.mp hS
    exact share_eq A ((hmem S).mp (List.mem_toFinset.mp hS)).1 hidS

theorem run_eq (round_idx : ℕ) (shapley_values_by_round : Entries ℕ (Entries ℕ ℚ)) :
    run A round_idx shapley_values_by_round =
      .ok (put shapley_values_by_round round_idx
        (A.client_index_for_this_round.map fun id => (id, A.orderAverage id))) := by
  obtain ⟨valid_subsets, hnodup, hmem, hrun⟩ := run_eq_sum A round_idx shapley_values_by_round
  rw [hrun]
  congr 2
  refine List.map_congr_left fun id hid => ?_
  show (id, _) = (id, A.orderAverage id)
  rw [A.orderAverage_eq_subsetSum hid, ← sum_shares_eq A hnodup hmem hid]

/-- **A run records for each client the average of its clipped marginal contributions over all
orders of the clients, which is their weighted sum over the subsets without it.** -/
theorem run_eq_average (round_idx : ℕ)
    (shapley_values_by_round : Entries ℕ (Entries ℕ ℚ)) :
    run A round_idx shapley_values_by_round =
        .ok (put shapley_values_by_round round_idx
          (A.client_index_for_this_round.map fun id => (id, A.orderAverage id))) ∧
      ∀ id ∈ A.client_index_for_this_round, A.orderAverage id = A.subsetSum id :=
  ⟨run_eq A round_idx shapley_values_by_round, fun _ hid => A.orderAverage_eq_subsetSum hid⟩

end MRShapleyValue

end Fediux.Contribution
