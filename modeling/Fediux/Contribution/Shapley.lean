import Fediux.Basic.Fallible
import Fediux.Basic.RunningMean
import Fediux.Contribution.Utilities

set_option autoImplicit false

/-! # The recorded Shapley values

`GTGShapleyValue.run` and `TMCShapleyValue.run` of `python/fediux/contribution`: the passes over
the clients, the vectors of marginal contributions, the convergence test and the values that are
recorded. A vector is written by the number of a client, shifted by one when no client has the
number 0, and read by the place of a client in the list. `recordsOwnAverages_iff` says for which
lists of clients that is the same. -/

namespace Fediux.Contribution

open Fallible OrderedMap

inductive Err where
  | IndexError
  deriving DecidableEq, Repr

def round_trunc_threshold : ℚ := 1 / 100

def CONVERGE_MIN_K : ℕ := 3 * 10

def last_k : ℕ := 10

def CONVERGE_CRITERIA : ℚ := 5 / 100

/-- The index in `marginal_contribution_k` under which a client is stored. -/
def storeIndex (client_index_for_this_round : List ℕ) (client : ℕ) : ℕ :=
  if client_index_for_this_round.min? = some 0 then client else client - 1

/-- The locals of `run` that outlive a permutation, and `self.Contribution_records`. -/
structure State where
  k : ℕ
  util : Util
  Contribution_records : List (List ℚ)
  deriving DecidableEq

/-- Row `n` of the cumulated records over their numbers. -/
def meanRow (N : ℕ) (records : List (List ℚ)) (n : ℕ) : List ℚ :=
  (List.range N).map fun i => ((records.take n).map fun row => row.getD i 0).sum / n

/-- `np.cumsum(self.Contribution_records, 0) / np.reshape(np.arange(1, ..), (-1, 1))`. -/
def runningMeans (N : ℕ) (records : List (List ℚ)) : List (List ℚ) :=
  (List.range records.length).map fun n => meanRow N records (n + 1)

/-- `errors` of `_is_not_converged`, one for each of the last rows. -/
def errors (N : ℕ) (records : List (List ℚ)) : List ℚ :=
  let all_vals := (runningMeans N records).drop (records.length - last_k)
  let last := all_vals.getLast?.getD []
  all_vals.map fun row =>
    (List.zipWith (fun a b => |a - b| / (|b| + 1 / 10 ^ 12)) row last).sum / N

namespace Round

variable (R : Round)

/-- `N`. -/
def N : ℕ := R.client_index_for_this_round.length

/-- `marginal_contribution_k[..] = mc`. -/
def store (marginal_contribution_k : List ℚ) (t : Turn) : Except Err (List ℚ) :=
  let i := storeIndex R.client_index_for_this_round t.client
  if i < marginal_contribution_k.length then .ok (marginal_contribution_k.set i (t.mc R))
  else .error .IndexError

/-- The body of the loop over `pi`. -/
def permutationBody (s : State) (pi : ℕ) : Except Err State := do
  let k := s.k + 1
  let idxs_k := pi :: R.permutation k pi
  let ts := turns R s.util [] (v0 s.util) idxs_k
  let marginal_contribution_k ← ts.foldlM R.store (List.replicate R.N 0)
  return {
    k := k
    util := cacheAfter R s.util ts
    Contribution_records := s.Contribution_records ++ [marginal_contribution_k] }

/-- The loop over `pi`. -/
def pass (s : State) : Except Err State :=
  R.client_index_for_this_round.foldlM R.permutationBody s

def _is_not_converged (s : State) : Bool :=
  if s.k ≤ CONVERGE_MIN_K then true
  else
    let max_error := (errors R.N s.Contribution_records).max?.getD 0
    decide (CONVERGE_CRITERIA < max_error)

/-- All subsets have a utility and there were as many permutations as there are. -/
def exhausted (s : State) : Prop :=
  s.util.length = (generate_power_set R.client_index_for_this_round).length ∧
    R.N.factorial ≤ s.k

instance (s : State) : Decidable (R.exhausted s) := inferInstanceAs (Decidable (_ ∧ _))

/-- The `while` loop. -/
def loop : ℕ → State → Option (Except Err State)
  | 0, _ => none
  | fuel + 1, s =>
      if R._is_not_converged s then
        match R.pass s with
        | .error e => some (.error e)
        | .ok s' => if R.exhausted s' then some (.ok s') else loop fuel s'
      else some (.ok s)

def start : State := { k := 0, util := R.init, Contribution_records := [] }

end Round

/-- What a run leaves behind: the number of permutations it has processed, and the value it has
appended for each client to `self.shapley_values_by_round[round_idx]`. -/
structure Outcome where
  k : ℕ
  appended : List (ℕ × ℚ)
  deriving DecidableEq

/-- The values recorded after the loop: `shapley_values` is its last row of means. -/
def Round.record (R : Round) (s : State) : Outcome :=
  let shapley_values := (runningMeans R.N s.Contribution_records).getLast?.getD []
  { k := s.k
    appended := R.client_index_for_this_round.mapIdx fun index client =>
      (client, shapley_values.getD index 0) }

def TMCShapleyValue.run (R : Round) (fuel : ℕ) : Option (Except Err Outcome) :=
  (R.loop fuel R.start).map (Except.map R.record)

/-- As TMC, but a round that hardly changes the accuracy records zeros at once. -/
def GTGShapleyValue.run (R : Round) (fuel : ℕ) : Option (Except Err Outcome) :=
  let accuracy_improvement := |R.full R.init - Round.v0 R.init|
  if accuracy_improvement ≤ round_trunc_threshold then
    some (.ok { k := 0, appended := R.client_index_for_this_round.map fun client => (client, 0) })
  else TMCShapleyValue.run R fuel

namespace Round

variable (R : Round)

/-! ## The vector of a permutation -/

/-- Every client has a place in the vectors. -/
def Fits : Prop :=
  ∀ client ∈ R.client_index_for_this_round,
    storeIndex R.client_index_for_this_round client < R.N

/-- `store` for a client that has a place. -/
def put (row : List ℚ) (t : Turn) : List ℚ :=
  row.set (storeIndex R.client_index_for_this_round t.client) (t.mc R)

/-- The vector of the permutation after the first `k`. -/
def rowAt (k : ℕ) : List ℚ := (R.turnsAt k).foldl R.put (List.replicate R.N 0)

/-- The marginal contribution of a client in the permutation after the first `k`. -/
def ownContribution (client k : ℕ) : ℚ :=
  match (R.turnsAt k).find? fun t => decide (t.client = client) with
  | some t => t.mc R
  | none => 0

/-- The average of the marginal contributions of a client in the first `n` permutations. -/
def ownAverage (n client : ℕ) : ℚ := RunningMean.mean (R.ownContribution client) n

end Round

theorem clients_turns (R : Round) (util : Util) (seen : List ℕ) (v : ℚ) (rest : List ℕ) :
    (turns R util seen v rest).map Turn.client = rest := by
  induction rest generalizing util seen v with
  | nil => rfl
  | cons client rest ih => simp [turns, ih]

section Vector

variable {R : Round}

theorem N_pos : 0 < R.N := List.length_pos_iff.mpr R.nonempty

/-- A client and the others are all clients. -/
theorem cons_filter_perm {ids : List ℕ} (hnodup : ids.Nodup) {pi : ℕ} (hpi : pi ∈ ids) :
    (pi :: ids.filter fun p => decide (p ≠ pi)).Perm ids := by
  have herase : (ids.filter fun p => decide (p ≠ pi)) = ids.erase pi := by
    rw [hnodup.erase_eq_filter]
    exact List.filter_congr fun p _ => by simp [bne, Bool.beq_eq_decide_eq]
  rw [herase]
  exact (List.perm_cons_erase hpi).symm

/-- Each permutation has all clients. -/
theorem idxs_perm (k : ℕ) : (R.idxs k).Perm R.client_index_for_this_round := by
  have hlt : k % R.client_index_for_this_round.length < R.client_index_for_this_round.length :=
    Nat.mod_lt k N_pos
  have hpi : R.client_index_for_this_round.getD (k % R.client_index_for_this_round.length) 0 ∈
      R.client_index_for_this_round := by
    rw [List.getD_eq_getElem _ _ hlt]
    exact List.getElem_mem hlt
  exact ((R.permutes (k + 1) _).cons _).trans (cons_filter_perm R.distinct hpi)

theorem turnsAt_clients_perm (k : ℕ) :
    ((R.turnsAt k).map Turn.client).Perm R.client_index_for_this_round := by
  rw [Round.turnsAt, clients_turns]
  exact idxs_perm k

theorem mem_clients_of_mem_turnsAt {k : ℕ} {t : Turn} (ht : t ∈ R.turnsAt k) :
    t.client ∈ R.client_index_for_this_round :=
  (turnsAt_clients_perm k).mem_iff.mp (List.mem_map_of_mem ht)

theorem min?_eq_zero_iff {ids : List ℕ} : ids.min? = some 0 ↔ 0 ∈ ids := by
  simp [List.min?_eq_some_iff]

/-- Two clients have different places. -/
theorem storeIndex_inj {ids : List ℕ} {c c' : ℕ} (hc : c ∈ ids) (hc' : c' ∈ ids)
    (h : storeIndex ids c = storeIndex ids c') : c = c' := by
  by_cases hzero : 0 ∈ ids
  · simpa [storeIndex, min?_eq_zero_iff, hzero] using h
  · have hne : c ≠ 0 := fun h0 => hzero (h0 ▸ hc)
    have hne' : c' ≠ 0 := fun h0 => hzero (h0 ▸ hc')
    simp only [storeIndex, min?_eq_zero_iff, hzero, if_false] at h
    omega

theorem store_of_lt {row : List ℚ} {t : Turn}
    (h : storeIndex R.client_index_for_this_round t.client < row.length) :
    R.store row t = .ok (R.put row t) := by
  simp [Round.store, Round.put, h]

theorem store_of_le {row : List ℚ} {t : Turn}
    (h : row.length ≤ storeIndex R.client_index_for_this_round t.client) :
    R.store row t = .error .IndexError := by
  simp [Round.store, h]

@[simp] theorem length_put (row : List ℚ) (t : Turn) : (R.put row t).length = row.length := by
  simp [Round.put]

theorem foldlM_store {ts : List Turn} {row : List ℚ}
    (h : ∀ t ∈ ts, storeIndex R.client_index_for_this_round t.client < row.length) :
    ts.foldlM R.store row = .ok (ts.foldl R.put row) := by
  induction ts generalizing row with
  | nil => rfl
  | cons t ts ih =>
      calc (t :: ts).foldlM R.store row = ts.foldlM R.store (R.put row t) :=
            foldlM_cons_of_ok (store_of_lt (h t (by simp)))
        _ = .ok (ts.foldl R.put (R.put row t)) :=
            ih fun u hu => by simpa using h u (by simp [hu])

theorem foldlM_store_error {ts : List Turn} {row : List ℚ} {t : Turn} (ht : t ∈ ts)
    (h : row.length ≤ storeIndex R.client_index_for_this_round t.client) :
    ts.foldlM R.store row = .error .IndexError := by
  induction ts generalizing row with
  | nil => cases ht
  | cons u ts ih =>
      by_cases hu : storeIndex R.client_index_for_this_round u.client < row.length
      · have htail : t ∈ ts := by
          rcases List.mem_cons.mp ht with rfl | htail
          · omega
          · exact htail
        calc (u :: ts).foldlM R.store row = ts.foldlM R.store (R.put row u) :=
              foldlM_cons_of_ok (store_of_lt hu)
          _ = .error .IndexError := ih htail (by simpa using h)
      · exact foldlM_cons_of_error (store_of_le (by omega))

/-- Turns of other clients leave a place alone. -/
theorem foldl_put_getD_of_ne {ts : List Turn} {row : List ℚ} {i : ℕ}
    (h : ∀ t ∈ ts, storeIndex R.client_index_for_this_round t.client ≠ i) :
    (ts.foldl R.put row).getD i 0 = row.getD i 0 := by
  induction ts generalizing row with
  | nil => rfl
  | cons t ts ih =>
      calc ((t :: ts).foldl R.put row).getD i 0 = (R.put row t).getD i 0 :=
            ih fun u hu => h u (by simp [hu])
        _ = row.getD i 0 := by simp [Round.put, List.getElem?_set_ne (h t (by simp))]

/-- The place of a client holds what its own turn has stored. -/
theorem foldl_put_getD {ts : List Turn} {row : List ℚ} {t : Turn} (ht : t ∈ ts)
    (hnodup : (ts.map Turn.client).Nodup)
    (hclients : ∀ u ∈ ts, u.client ∈ R.client_index_for_this_round)
    (hfits : storeIndex R.client_index_for_this_round t.client < row.length) :
    (ts.foldl R.put row).getD (storeIndex R.client_index_for_this_round t.client) 0 =
      t.mc R := by
  induction ts generalizing row with
  | nil => cases ht
  | cons u ts ih =>
      have hnodup' : u.client ∉ ts.map Turn.client ∧ (ts.map Turn.client).Nodup := by
        simpa using hnodup
      have hclients' : ∀ w ∈ ts, w.client ∈ R.client_index_for_this_round :=
        fun w hw => hclients w (by simp [hw])
      rcases List.mem_cons.mp ht with rfl | ht'
      · have hothers : ∀ w ∈ ts, storeIndex R.client_index_for_this_round w.client ≠
            storeIndex R.client_index_for_this_round t.client := by
          intro w hw hsame
          have hclient := storeIndex_inj (hclients' w hw) (hclients t (by simp)) hsame
          exact hnodup'.1 (hclient ▸ List.mem_map_of_mem hw)
        calc ((t :: ts).foldl R.put row).getD _ 0 = (R.put row t).getD _ 0 :=
              foldl_put_getD_of_ne hothers
          _ = t.mc R := by simp [Round.put, hfits]
      · exact ih ht' hnodup'.2 hclients' (by simpa [Round.put] using hfits)

/-- **The place of a client in the vector of a permutation holds its own contribution.** -/
theorem rowAt_storeIndex (hfits : R.Fits) (k : ℕ) {client : ℕ}
    (hclient : client ∈ R.client_index_for_this_round) :
    (R.rowAt k).getD (storeIndex R.client_index_for_this_round client) 0 =
      R.ownContribution client k := by
  have hsome : ((R.turnsAt k).find? fun t => decide (t.client = client)).isSome := by
    have hmem := (turnsAt_clients_perm k).mem_iff.mpr hclient
    simpa [List.find?_isSome] using hmem
  obtain ⟨t, ht⟩ := Option.isSome_iff_exists.mp hsome
  have hmem : t ∈ R.turnsAt k := List.mem_of_find?_eq_some ht
  have hcl : t.client = client := by simpa using List.find?_some ht
  subst hcl
  have hnodup : ((R.turnsAt k).map Turn.client).Nodup :=
    (turnsAt_clients_perm k).nodup_iff.mpr R.distinct
  calc (R.rowAt k).getD (storeIndex R.client_index_for_this_round t.client) 0 = t.mc R :=
        foldl_put_getD hmem hnodup (fun u hu => mem_clients_of_mem_turnsAt hu)
          (by simpa using hfits t.client hclient)
    _ = R.ownContribution t.client k := by simp [Round.ownContribution, ht]

/-- A property of zero and of what the turns store is one of every entry. -/
theorem foldl_put_induction {P : ℚ → Prop} {ts : List Turn} {row : List ℚ}
    (hrow : ∀ i, P (row.getD i 0)) (hts : ∀ t ∈ ts, P (t.mc R)) (i : ℕ) :
    P ((ts.foldl R.put row).getD i 0) := by
  induction ts generalizing row with
  | nil => exact hrow i
  | cons t ts ih =>
      refine ih (fun j => ?_) fun u hu => hts u (by simp [hu])
      by_cases hj : storeIndex R.client_index_for_this_round t.client = j
      · by_cases hlt : j < row.length
        · simpa [Round.put, hj, hlt] using hts t (by simp)
        · have hrow' := hrow j
          simp only [List.getD_eq_getElem?_getD, List.getElem?_eq_none (not_lt.mp hlt)] at hrow'
          simpa [Round.put, hj, hlt] using hrow'
      · simpa [Round.put, List.getElem?_set_ne hj] using hrow j

end Vector

/-! ## The passes -/

namespace Round

variable (R : Round)

/-- The state behind the first `n` permutations. -/
def stateAt (n : ℕ) : State :=
  { k := n, util := R.utilAt n, Contribution_records := (List.range n).map R.rowAt }

/-- The entry of one place in the vectors. -/
def placeAt (i k : ℕ) : ℚ := (R.rowAt k).getD i 0

end Round

section Passes

variable {R : Round}

theorem permutationBody_stateAt (hfits : R.Fits) (n : ℕ) :
    R.permutationBody (R.stateAt n)
      (R.client_index_for_this_round.getD (n % R.client_index_for_this_round.length) 0) =
        .ok (R.stateAt (n + 1)) := by
  have hrow : (R.turnsAt n).foldlM R.store (List.replicate R.N 0) = .ok (R.rowAt n) :=
    foldlM_store fun t ht => by simpa using hfits t.client (mem_clients_of_mem_turnsAt ht)
  have hbody : R.permutationBody (R.stateAt n)
      (R.client_index_for_this_round.getD (n % R.client_index_for_this_round.length) 0) =
        ((R.turnsAt n).foldlM R.store (List.replicate R.N 0)).bind fun row =>
          .ok {
            k := n + 1
            util := R.utilAt (n + 1)
            Contribution_records := (R.stateAt n).Contribution_records ++ [row] } := rfl
  rw [hbody, hrow]
  simp [Except.bind, Round.stateAt, List.range_succ]

/-- A pass takes each client in turn as the first one. -/
theorem pass_stateAt (hfits : R.Fits) (m : ℕ) :
    R.pass (R.stateAt (m * R.N)) = .ok (R.stateAt ((m + 1) * R.N)) := by
  have hrest : ∀ rest before : List ℕ, R.client_index_for_this_round = before ++ rest →
      rest.foldlM R.permutationBody (R.stateAt (m * R.N + before.length)) =
        .ok (R.stateAt ((m + 1) * R.N)) := by
    intro rest
    induction rest with
    | nil =>
        intro before hids
        have hlen : before.length = R.N := by simp [Round.N, hids]
        rw [hlen, Nat.succ_mul]
        rfl
    | cons pi rest ih =>
        intro before hids
        have hlt : before.length < R.client_index_for_this_round.length := by simp [hids]
        have hmod : (m * R.N + before.length) % R.client_index_for_this_round.length =
            before.length := by
          rw [Round.N, Nat.mul_add_mod', Nat.mod_eq_of_lt hlt]
        have hpi : R.client_index_for_this_round.getD before.length 0 = pi := by
          simp [hids]
        have hstep := permutationBody_stateAt hfits (m * R.N + before.length)
        rw [hmod, hpi] at hstep
        calc (pi :: rest).foldlM R.permutationBody (R.stateAt (m * R.N + before.length)) =
              rest.foldlM R.permutationBody (R.stateAt (m * R.N + before.length + 1)) :=
                foldlM_cons_of_ok hstep
          _ = .ok (R.stateAt ((m + 1) * R.N)) := by
                simpa [Nat.add_assoc] using ih (before ++ [pi]) (by simp [hids])
  simpa [Round.pass] using hrest R.client_index_for_this_round [] rfl

/-- **Without a place for every client the first pass fails.** -/
theorem pass_error (hfits : ¬ R.Fits) (s : State) : R.pass s = .error .IndexError := by
  simp only [Round.Fits, not_forall, not_lt] at hfits
  obtain ⟨client, hclient, hout⟩ := hfits
  obtain ⟨pi, rest, hids⟩ := List.exists_cons_of_ne_nil R.nonempty
  have hpi : pi ∈ R.client_index_for_this_round := by simp [hids]
  have hperm : (pi :: R.permutation (s.k + 1) pi).Perm R.client_index_for_this_round :=
    ((R.permutes (s.k + 1) pi).cons pi).trans (cons_filter_perm R.distinct hpi)
  have hmem : client ∈ (turns R s.util [] (Round.v0 s.util)
      (pi :: R.permutation (s.k + 1) pi)).map Turn.client := by
    rw [clients_turns]
    exact hperm.mem_iff.mpr hclient
  obtain ⟨t, ht, rfl⟩ := List.mem_map.mp hmem
  have hbody : R.permutationBody s pi = .error .IndexError := by
    simp only [Round.permutationBody]
    rw [foldlM_store_error ht (by simpa using hout)]
    rfl
  have hpass : (pi :: rest).foldlM R.permutationBody s = .error .IndexError :=
    foldlM_cons_of_error hbody
  rwa [← hids] at hpass

/-! ## The means -/

theorem meanRow_stateAt {m n : ℕ} (hm : m ≤ n) :
    meanRow R.N (R.stateAt n).Contribution_records m =
      (List.range R.N).map fun i => RunningMean.mean (R.placeAt i) m := by
  have htake : (List.range n).take m = List.range m := by
    rw [List.take_range, Nat.min_eq_left hm]
  refine List.map_congr_left fun i _ => ?_
  simp only [Round.stateAt, ← List.map_take, htake, List.map_map, RunningMean.mean]
  rw [← RunningMean.sum_map_range]
  rfl

/-- The last row of the running means. -/
theorem getLast?_runningMeans_stateAt (n : ℕ) :
    (runningMeans R.N (R.stateAt n).Contribution_records).getLast?.getD [] =
      if n = 0 then [] else (List.range R.N).map fun i => RunningMean.mean (R.placeAt i) n := by
  cases n with
  | zero => rfl
  | succ n =>
      have hlen : (R.stateAt (n + 1)).Contribution_records.length = n + 1 := by
        simp [Round.stateAt]
      have hrow := meanRow_stateAt (R := R) (le_refl (n + 1))
      simp [runningMeans, hlen, List.range_succ, hrow]

/-- What is recorded for a client is the mean of the entries at its place in the list. -/
theorem record_stateAt (n : ℕ) :
    R.record (R.stateAt n) = {
      k := n
      appended := R.client_index_for_this_round.mapIdx fun index client =>
        (client, RunningMean.mean (R.placeAt index) n) } := by
  have hvalues : ∀ index < R.N,
      ((runningMeans R.N (R.stateAt n).Contribution_records).getLast?.getD []).getD index 0 =
        RunningMean.mean (R.placeAt index) n := by
    intro index hindex
    rw [getLast?_runningMeans_stateAt]
    by_cases hn : n = 0
    · simp [hn, RunningMean.mean]
    · simp [hn, hindex]
  simp only [Round.record, Round.stateAt] at hvalues ⊢
  congr 1
  refine List.ext_getElem (by simp) fun index h _ => ?_
  simpa using hvalues index (by simpa [Round.N] using h)

/-! ## The end of the loop -/

/-- The errors are small when the means of all places have settled. -/
theorem errors_le {n : ℕ} {ε : ℚ} (hε : 0 ≤ ε) (hn : last_k ≤ n)
    (hsettled : ∀ i < R.N, ∀ d < last_k,
      |RunningMean.mean (R.placeAt i) (n - d) - RunningMean.mean (R.placeAt i) n| ≤
        ε * |RunningMean.mean (R.placeAt i) n|) :
    ∀ e ∈ errors R.N (R.stateAt n).Contribution_records, e ≤ ε := by
  have hlen : (R.stateAt n).Contribution_records.length = n := by simp [Round.stateAt]
  have hk : last_k = 10 := rfl
  have hlast : ((runningMeans R.N (R.stateAt n).Contribution_records).drop
      (n - last_k)).getLast?.getD [] =
        (List.range R.N).map fun i => RunningMean.mean (R.placeAt i) n := by
    have hdrop := getLast?_runningMeans_stateAt (R := R) n
    rw [if_neg (by omega)] at hdrop
    rw [← hdrop, List.getLast?_drop, if_neg]
    simp [runningMeans, hlen]
    omega
  intro e he
  simp only [errors, hlen, hlast, List.mem_map] at he
  obtain ⟨row, hrow, rfl⟩ := he
  have hrow' : ∃ d < last_k,
      row = (List.range R.N).map fun i => RunningMean.mean (R.placeAt i) (n - d) := by
    obtain ⟨j, hj, hget⟩ := List.mem_iff_getElem.mp hrow
    simp only [runningMeans, hlen, List.length_drop, List.length_map, List.length_range] at hj
    refine ⟨n - (n - last_k + j + 1), by omega, ?_⟩
    rw [← hget, Nat.sub_sub_self (by omega), ← meanRow_stateAt (n := n) (by omega)]
    simp [runningMeans]
  obtain ⟨d, hd, rfl⟩ := hrow'
  have hN : (0 : ℚ) < R.N := by exact_mod_cast N_pos
  rw [List.zipWith_map, List.zipWith_self, div_le_iff₀ hN]
  calc _ ≤ ((List.range R.N).map fun _ => ε).sum := by
        refine List.sum_le_sum fun i hi => ?_
        have hi' := hsettled i (List.mem_range.mp hi) d hd
        have hpos : 0 < |RunningMean.mean (R.placeAt i) n| + 1 / 10 ^ 12 := by positivity
        rw [div_le_iff₀ hpos]
        calc _ ≤ ε * |RunningMean.mean (R.placeAt i) n| := hi'
          _ ≤ ε * (|RunningMean.mean (R.placeAt i) n| + 1 / 10 ^ 12) := by
              gcongr
              simp
    _ = ε * R.N := by simp [mul_comm]

theorem converged_stateAt {n : ℕ} (hn : CONVERGE_MIN_K < n)
    (hsettled : ∀ i < R.N, ∀ d < last_k,
      |RunningMean.mean (R.placeAt i) (n - d) - RunningMean.mean (R.placeAt i) n| ≤
        CONVERGE_CRITERIA * |RunningMean.mean (R.placeAt i) n|) :
    R._is_not_converged (R.stateAt n) = false := by
  have hpos : 0 ≤ CONVERGE_CRITERIA := by norm_num [CONVERGE_CRITERIA]
  have hlast : last_k ≤ n := by
    simp only [CONVERGE_MIN_K, last_k] at *
    omega
  have hmax : (errors R.N (R.stateAt n).Contribution_records).max?.getD 0 ≤ CONVERGE_CRITERIA := by
    cases hmax : (errors R.N (R.stateAt n).Contribution_records).max? with
    | none => exact hpos
    | some e => exact errors_le hpos hlast hsettled e (List.max?_mem hmax)
  have hk : (R.stateAt n).k = n := rfl
  simp [Round._is_not_converged, hk, not_le.mpr hn, hmax]

end Passes

/-! ## The vectors are bounded -/

namespace Round

variable (R : Round)

/-- The keys that the turns write. -/
def prefixSets : List Subset :=
  R.client_index_for_this_round.permutations.flatMap fun idxs_k => idxs_k.inits.map sorted

/-- No utility is larger. -/
def bound : ℚ :=
  |R.acc_on_last_round| + |R.acc_on_aggregated_model| +
    (R.prefixSets.map fun C => |R.validation C|).sum

end Round

section Bounds

variable {R : Round}

theorem validation_sum_nonneg (sets : List Subset) :
    0 ≤ (sets.map fun C => |R.validation C|).sum :=
  List.sum_nonneg fun v hv => by
    obtain ⟨C, _, rfl⟩ := List.mem_map.mp hv
    exact abs_nonneg _

theorem last_le_bound : |R.acc_on_last_round| ≤ R.bound := by
  have hagg := abs_nonneg R.acc_on_aggregated_model
  have hsum := validation_sum_nonneg (R := R) R.prefixSets
  simp only [Round.bound]
  linarith

theorem aggregated_le_bound : |R.acc_on_aggregated_model| ≤ R.bound := by
  have hlast := abs_nonneg R.acc_on_last_round
  have hsum := validation_sum_nonneg (R := R) R.prefixSets
  simp only [Round.bound]
  linarith

theorem bound_nonneg : 0 ≤ R.bound := (abs_nonneg _).trans (last_le_bound (R := R))

theorem validation_le_bound {C : Subset} (hC : C ∈ R.prefixSets) : |R.validation C| ≤ R.bound := by
  have hmem : |R.validation C| ≤ (R.prefixSets.map fun C => |R.validation C|).sum :=
    List.single_le_sum (fun v hv => by
      obtain ⟨C', _, rfl⟩ := List.mem_map.mp hv
      exact abs_nonneg _) _ (List.mem_map_of_mem hC)
  have hlast := abs_nonneg R.acc_on_last_round
  have hagg := abs_nonneg R.acc_on_aggregated_model
  simp only [Round.bound]
  linarith

/-- The utilities in the cache are bounded. -/
def Bounded (R : Round) (util : Util) : Prop := ∀ C v, find? util C = some v → |v| ≤ R.bound

theorem Turn.value_le_bound {t : Turn} (hutil : Bounded R t.before) (hprev : |t.prev| ≤ R.bound)
    (hC : t.C ∈ R.prefixSets) : |t.value R| ≤ R.bound := by
  simp only [Turn.value]
  split_ifs
  · cases hfind : find? t.before t.C with
    | none => exact validation_le_bound hC
    | some v => exact hutil t.C v hfind
  · exact hprev

theorem bounded_assign {util : Util} {C : Subset} {v : ℚ} (hutil : Bounded R util)
    (hv : |v| ≤ R.bound) : Bounded R (assign util C v) := by
  intro C' v' hv'
  by_cases hC : C' = C
  · simp only [hC, find?_assign, if_true, Option.some.injEq] at hv'
    exact hv' ▸ hv
  · simp only [find?_assign, hC, if_false] at hv'
    exact hutil C' v' hv'

/-- All values of a permutation are bounded. -/
theorem turns_bounded {util : Util} {seen rest : List ℕ} {v : ℚ} (hutil : Bounded R util)
    (hv : |v| ≤ R.bound) (hperm : (seen ++ rest).Perm R.client_index_for_this_round) :
    (∀ t ∈ turns R util seen v rest, |t.value R| ≤ R.bound ∧ |t.prev| ≤ R.bound) ∧
      Bounded R (cacheAfter R util (turns R util seen v rest)) := by
  induction rest generalizing util seen v with
  | nil => exact ⟨by simp [turns], hutil⟩
  | cons client rest ih =>
      let t : Turn :=
        { before := util, prev := v, C := sorted (seen ++ [client]), client := client }
      have hC : t.C ∈ R.prefixSets := by
        refine List.mem_flatMap.mpr ⟨seen ++ client :: rest, List.mem_permutations.mpr hperm, ?_⟩
        refine List.mem_map_of_mem ((List.mem_inits _ _).mpr ?_)
        exact ⟨rest, by simp⟩
      have hvalue : |t.value R| ≤ R.bound := Turn.value_le_bound hutil hv hC
      have hperm' : (seen ++ [client] ++ rest).Perm R.client_index_for_this_round := by
        simpa using hperm
      have hrest := ih (bounded_assign (C := t.C) hutil hvalue) hvalue hperm'
      refine ⟨fun u hu => ?_, hrest.2⟩
      rcases List.mem_cons.mp hu with rfl | hu
      · exact ⟨hvalue, hv⟩
      · exact hrest.1 u hu

theorem v0_le_bound {util : Util} (hutil : Bounded R util) : |Round.v0 util| ≤ R.bound := by
  cases hfind : find? util [] with
  | none => simpa [Round.v0, hfind] using bound_nonneg (R := R)
  | some v => simpa [Round.v0, hfind] using hutil [] v hfind

theorem bounded_utilAt (n : ℕ) : Bounded R (R.utilAt n) := by
  induction n with
  | zero =>
      have hempty : Bounded R [] := fun C v hv => by simp at hv
      exact bounded_assign (bounded_assign hempty last_le_bound) aggregated_le_bound
  | succ n ih => exact (turns_bounded ih (v0_le_bound ih) (by simpa using idxs_perm n)).2

theorem mc_bounded {n : ℕ} {t : Turn} (ht : t ∈ R.turnsAt n) :
    0 ≤ t.mc R ∧ t.mc R ≤ 2 * R.bound := by
  have hutil := bounded_utilAt (R := R) n
  have hvalue := (turns_bounded hutil (v0_le_bound hutil) (by simpa using idxs_perm n)).1 t ht
  have hv := abs_le.mp hvalue.1
  have hprev := abs_le.mp hvalue.2
  have hpos := bound_nonneg (R := R)
  refine ⟨le_max_right _ _, max_le ?_ (by linarith)⟩
  linarith

theorem placeAt_bounded (i k : ℕ) : 0 ≤ R.placeAt i k ∧ R.placeAt i k ≤ 2 * R.bound := by
  have hpos := bound_nonneg (R := R)
  refine foldl_put_induction (P := fun v => 0 ≤ v ∧ v ≤ 2 * R.bound) (fun j => ?_)
    (fun t ht => mc_bounded ht) i
  have hzero : (List.replicate R.N (0 : ℚ)).getD j 0 = 0 := by
    by_cases hj : j < R.N <;> simp [hj]
  simpa [hzero] using hpos

/-- **The loop ends**: the means of all places settle. -/
theorem exists_converged : ∃ m, R._is_not_converged (R.stateAt (m * R.N)) = false := by
  have hpos : 0 < CONVERGE_CRITERIA := by norm_num [CONVERGE_CRITERIA]
  have hsettles := fun i => RunningMean.mean_settles
    (fun k => (placeAt_bounded (R := R) i k).1) (fun k => (placeAt_bounded i k).2) hpos last_k
  choose n₀ hn₀ using hsettles
  let m := (Finset.range R.N).sup n₀ + CONVERGE_MIN_K + 1
  have hm : m ≤ m * R.N := Nat.le_mul_of_pos_right m N_pos
  refine ⟨m, converged_stateAt (by omega) fun i hi d hd => ?_⟩
  have hsup : n₀ i ≤ (Finset.range R.N).sup n₀ := Finset.le_sup (Finset.mem_range.mpr hi)
  exact hn₀ i (m * R.N) (by omega) d hd

theorem loop_stops (hfits : R.Fits) {m d : ℕ}
    (hconv : R._is_not_converged (R.stateAt ((m + d) * R.N)) = false) :
    ∃ fuel n, R.loop fuel (R.stateAt (m * R.N)) = some (.ok (R.stateAt n)) := by
  induction d generalizing m with
  | zero =>
      have hconv' : R._is_not_converged (R.stateAt (m * R.N)) = false := by simpa using hconv
      exact ⟨1, m * R.N, by simp [Round.loop, hconv']⟩
  | succ d ih =>
      by_cases hnow : R._is_not_converged (R.stateAt (m * R.N))
      · by_cases hall : R.exhausted (R.stateAt ((m + 1) * R.N))
        · exact ⟨1, (m + 1) * R.N, by simp [Round.loop, hnow, pass_stateAt hfits, hall]⟩
        · have hstep : m + (d + 1) = m + 1 + d := by omega
          obtain ⟨fuel, n, hloop⟩ := ih (m := m + 1) (hstep ▸ hconv)
          exact ⟨fuel + 1, n, by simp [Round.loop, hnow, pass_stateAt hfits, hall, hloop]⟩
      · exact ⟨1, m * R.N, by simp [Round.loop, hnow]⟩

theorem loop_ends (hfits : R.Fits) :
    ∃ fuel n, R.loop fuel R.start = some (.ok (R.stateAt n)) := by
  obtain ⟨m, hm⟩ := exists_converged (R := R)
  have hconv : R._is_not_converged (R.stateAt ((0 + m) * R.N)) = false := by simpa using hm
  obtain ⟨fuel, n, hloop⟩ := loop_stops hfits hconv
  have hstart : R.stateAt (0 * R.N) = R.start := by
    rw [Nat.zero_mul]
    rfl
  rw [hstart] at hloop
  exact ⟨fuel, n, hloop⟩

/-- **Every run ends**, with a value for every client, when all clients have a place. -/
theorem run_ends (hfits : R.Fits) :
    ∃ fuel n, TMCShapleyValue.run R fuel = some (.ok (R.record (R.stateAt n))) := by
  obtain ⟨fuel, n, hloop⟩ := loop_ends hfits
  exact ⟨fuel, n, by simp [TMCShapleyValue.run, hloop, Except.map]⟩

/-- The loop is left when all subsets are cached and all permutations counted, or when the averages
have converged. -/
theorem loop_stopped {fuel : ℕ} {s s' : State} (h : R.loop fuel s = some (.ok s')) :
    R.exhausted s' ∨ R._is_not_converged s' = false := by
  induction fuel generalizing s with
  | zero => cases h
  | succ fuel ih =>
      rw [Round.loop] at h
      by_cases hnow : R._is_not_converged s
      · rw [if_pos hnow] at h
        cases hpass : R.pass s with
        | error e =>
            rw [hpass] at h
            cases h
        | ok s₁ =>
            rw [hpass] at h
            by_cases hall : R.exhausted s₁
            · simp only [if_pos hall, Option.some.injEq, Except.ok.injEq] at h
              exact Or.inl (h ▸ hall)
            · simp only [if_neg hall] at h
              exact ih h
      · rw [if_neg hnow] at h
        simp only [Option.some.injEq, Except.ok.injEq] at h
        exact Or.inr (h ▸ Bool.eq_false_of_not_eq_true hnow)

/-- **Every run fails** when a client has no place. -/
theorem run_fails (hfits : ¬ R.Fits) (fuel : ℕ) :
    TMCShapleyValue.run R (fuel + 1) = some (.error .IndexError) := by
  have hfirst : R._is_not_converged R.start = true := rfl
  simp [TMCShapleyValue.run, Round.loop, hfirst, pass_error hfits, Except.map]

end Bounds

/-! ## Which values are recorded -/

/-- The run ends and has recorded for each client the average of its own contributions. -/
def RecordsOwnAverages (run : Round → ℕ → Option (Except Err Outcome)) (R : Round) : Prop :=
  ∃ fuel out, run R fuel = some (.ok out) ∧
    out.appended = R.client_index_for_this_round.map fun client =>
      (client, R.ownAverage out.k client)

/-- Every client is stored where it is read. -/
def Placed (ids : List ℕ) : Prop := ∀ i (h : i < ids.length), storeIndex ids ids[i] = i

theorem placed_iff {ids : List ℕ} :
    Placed ids ↔ ids = List.range ids.length ∨ ids = List.range' 1 ids.length := by
  constructor
  · intro hplaced
    by_cases hzero : 0 ∈ ids
    · refine Or.inl (List.ext_getElem (by simp) fun i h _ => ?_)
      simpa [storeIndex, min?_eq_zero_iff, hzero] using hplaced i h
    · refine Or.inr (List.ext_getElem (by simp) fun i h _ => ?_)
      have hne : ids[i] ≠ 0 := fun h0 => hzero (h0 ▸ List.getElem_mem h)
      have hi : ids[i] - 1 = i := by
        simpa [storeIndex, min?_eq_zero_iff, hzero] using hplaced i h
      simp only [List.getElem_range']
      omega
  · rintro (hids | hids) i h
    · have hzero : 0 ∈ ids := by
        rw [hids, List.mem_range]
        omega
      have hi : ids[i] = i := by simp [List.getElem_of_eq hids h]
      simp [storeIndex, min?_eq_zero_iff, hzero, hi]
    · have hzero : 0 ∉ ids := by
        rw [hids]
        simp
      have hi : ids[i] = 1 + i := by simp [List.getElem_of_eq hids h]
      simp [storeIndex, min?_eq_zero_iff, hzero, hi]

section Recorded

variable {R : Round}

theorem fits_of_placed (h : Placed R.client_index_for_this_round) : R.Fits := by
  intro client hclient
  obtain ⟨i, hi, rfl⟩ := List.mem_iff_getElem.mp hclient
  rw [h i hi]
  exact hi

/-- A placed client is read where its own contributions are. -/
theorem record_of_placed (h : Placed R.client_index_for_this_round) (n : ℕ) :
    (R.record (R.stateAt n)).appended = R.client_index_for_this_round.map fun client =>
      (client, R.ownAverage n client) := by
  rw [record_stateAt]
  refine List.ext_getElem (by simp) fun i hi _ => ?_
  have hi' : i < R.client_index_for_this_round.length := by simpa using hi
  have hown : R.placeAt i = R.ownContribution R.client_index_for_this_round[i] := by
    funext k
    have hrow := rowAt_storeIndex (fits_of_placed h) k (List.getElem_mem hi')
    rwa [h i hi'] at hrow
  simp [Round.ownAverage, hown]

/-- In a round that ends at once there are no contributions. -/
theorem ownAverage_zero (client : ℕ) : R.ownAverage 0 client = 0 := by
  simp [Round.ownAverage, RunningMean.mean]

theorem recordsOwnAverages_of_placed (h : Placed R.client_index_for_this_round) :
    RecordsOwnAverages GTGShapleyValue.run R ∧ RecordsOwnAverages TMCShapleyValue.run R := by
  obtain ⟨fuel, n, hrun⟩ := run_ends (fits_of_placed h)
  have htmc : RecordsOwnAverages TMCShapleyValue.run R :=
    ⟨fuel, R.record (R.stateAt n), hrun, record_of_placed h n⟩
  refine ⟨?_, htmc⟩
  by_cases hsmall : |R.full R.init - Round.v0 R.init| ≤ round_trunc_threshold
  · let out : Outcome :=
      { k := 0, appended := R.client_index_for_this_round.map fun client => (client, 0) }
    refine ⟨0, out, by simp [GTGShapleyValue.run, hsmall, out], ?_⟩
    simp [out, ownAverage_zero]
  · obtain ⟨fuel, out, hout⟩ := htmc
    exact ⟨fuel, out, by simpa [GTGShapleyValue.run, hsmall] using hout⟩

end Recorded

/-! ## A utility that tells the clients apart -/

/-- Client `c` is worth `c + 1`. -/
def worth (C : Subset) : ℚ := (C.map fun client : ℕ => (client : ℚ) + 1).sum

/-- A round in which each client adds its worth. -/
def additive (ids : List ℕ) (hne : ids ≠ []) (hnodup : ids.Nodup) : Round where
  client_index_for_this_round := ids
  validation := worth
  acc_on_last_round := 0
  acc_on_aggregated_model := worth ids
  permutation := fun _ pi => ids.filter fun p => decide (p ≠ pi)
  nonempty := hne
  distinct := hnodup
  permutes := fun _ _ => List.Perm.refl _

theorem worth_perm {C C' : Subset} (h : C.Perm C') : worth C = worth C' := by
  simp only [worth]
  exact (h.map _).sum_eq

theorem worth_append (C C' : Subset) : worth (C ++ C') = worth C + worth C' := by
  simp [worth]

theorem one_le_worth {C : Subset} (hne : C ≠ []) : 1 ≤ worth C := by
  obtain ⟨client, C, rfl⟩ := List.exists_cons_of_ne_nil hne
  have hrest : 0 ≤ worth C := List.sum_nonneg fun v hv => by
    obtain ⟨c, _, rfl⟩ := List.mem_map.mp hv
    have hc : (0 : ℚ) ≤ c := Nat.cast_nonneg c
    linarith
  have hclient : (0 : ℚ) ≤ client := Nat.cast_nonneg client
  calc (1 : ℚ) ≤ client + 1 + worth C := by linarith
    _ = worth (client :: C) := by simp [worth]

section Additive

variable {ids : List ℕ} {hne : ids ≠ []} {hnodup : ids.Nodup}

/-- The cache holds the worth of the subsets. -/
structure HoldsWorth (ids : List ℕ) (util : Util) : Prop where
  worth : ∀ C v, find? util C = some v → v = worth C
  empty : (find? util []).isSome
  full : (find? util ids).isSome

theorem HoldsWorth.eq_some {util : Util} (h : HoldsWorth ids util) {C : Subset}
    (hC : (find? util C).isSome) : find? util C = some (Contribution.worth C) := by
  obtain ⟨v, hv⟩ := Option.isSome_iff_exists.mp hC
  rw [hv, h.worth C v hv]

theorem HoldsWorth.assign {util : Util} (h : HoldsWorth ids util) {C : Subset} :
    HoldsWorth ids (assign util C (Contribution.worth C)) := by
  refine ⟨fun C' v hv => ?_, ?_, ?_⟩
  · by_cases hC : C' = C
    · simpa [hC, eq_comm] using hv
    · exact h.worth C' v (by simpa [hC] using hv)
  · by_cases hC : [] = C <;> simp [hC, h.empty]
  · by_cases hC : ids = C <;> simp [hC, h.full]

theorem sorted_perm (C : List ℕ) : (sorted C).Perm C := List.perm_insertionSort _ C

/-- No turn is truncated: the clients that are left are worth more than `eps`. -/
theorem value_additive {t : Turn} {seen rest : List ℕ}
    (hutil : HoldsWorth ids t.before) (hprev : t.prev = worth seen)
    (hperm : (seen ++ t.client :: rest).Perm ids) :
    t.value (additive ids hne hnodup) = worth t.C := by
  have hfull : (additive ids hne hnodup).full t.before = worth ids := by
    have hids : (additive ids hne hnodup).client_index_for_this_round = ids := rfl
    simp [Round.full, Round.s_all_eq, hids, hutil.eq_some hutil.full]
  have hfar : eps ≤ |worth ids - worth seen| := by
    have hrest := one_le_worth (List.cons_ne_nil t.client rest)
    rw [← worth_perm hperm, worth_append, add_sub_cancel_left, abs_of_nonneg (by linarith)]
    norm_num [eps]
    linarith
  have hvalid : (additive ids hne hnodup).validation t.C = worth t.C := rfl
  cases hfind : find? t.before t.C with
  | none => simp [Turn.value, hfull, hprev, hfar, hfind, hvalid]
  | some v => simp [Turn.value, hfull, hprev, hfar, hfind, hutil.worth t.C v hfind]

/-- Each turn of a permutation contributes the worth of its client. -/
theorem turns_additive {util : Util} {seen rest : List ℕ} (hutil : HoldsWorth ids util)
    (hperm : (seen ++ rest).Perm ids) :
    (∀ t ∈ turns (additive ids hne hnodup) util seen (worth seen) rest,
        t.mc (additive ids hne hnodup) = t.client + 1) ∧
      HoldsWorth ids (cacheAfter (additive ids hne hnodup) util
        (turns (additive ids hne hnodup) util seen (worth seen) rest)) := by
  induction rest generalizing util seen with
  | nil => exact ⟨by simp [turns], hutil⟩
  | cons client rest ih =>
      let t : Turn :=
        { before := util, prev := worth seen, C := sorted (seen ++ [client]), client := client }
      have hworth : worth t.C = worth (seen ++ [client]) := worth_perm (sorted_perm _)
      have hvalue : t.value (additive ids hne hnodup) = worth (seen ++ [client]) :=
        (value_additive hutil rfl hperm).trans hworth
      have hadd : worth (seen ++ [client]) = worth seen + (client + 1) := by
        simp [worth]
      have hmc : t.mc (additive ids hne hnodup) = client + 1 := by
        have hpos : (0 : ℚ) ≤ client + 1 := by positivity
        simp [Turn.mc, hvalue, hadd, t, hpos]
      have hafter : HoldsWorth ids (t.after (additive ids hne hnodup)) := by
        rw [Turn.after, hvalue, ← hworth]
        exact hutil.assign
      have hperm' : (seen ++ [client] ++ rest).Perm ids := by simpa using hperm
      have hturns : turns (additive ids hne hnodup) util seen (worth seen) (client :: rest) =
          t :: turns (additive ids hne hnodup) (t.after (additive ids hne hnodup))
            (seen ++ [client]) (worth (seen ++ [client])) rest := by
        rw [← hvalue]
        rfl
      have hrest := ih hafter hperm'
      rw [hturns]
      refine ⟨fun u hu => ?_, hrest.2⟩
      rcases List.mem_cons.mp hu with rfl | hu
      · exact hmc
      · exact hrest.1 u hu

theorem holdsWorth_init : HoldsWorth ids (additive ids hne hnodup).init := by
  have hs : (additive ids hne hnodup).s_all = ids := Round.s_all_eq _
  have hinit : ∀ C, find? (additive ids hne hnodup).init C =
      if C = ids then some (worth ids) else if C = [] then some (worth []) else none := by
    intro C
    simp only [Round.init, hs, find?_assign, find?_nil]
    rfl
  refine ⟨fun C v hv => ?_, ?_, ?_⟩
  · rw [hinit] at hv
    split_ifs at hv with hC hnil
    · exact hC ▸ (Option.some.inj hv).symm
    · exact hnil ▸ (Option.some.inj hv).symm
  · simp [hinit, hne.symm]
  · simp [hinit]

theorem turnsAt_additive (n : ℕ) :
    HoldsWorth ids ((additive ids hne hnodup).utilAt n) ∧
      ∀ t ∈ (additive ids hne hnodup).turnsAt n,
        t.mc (additive ids hne hnodup) = t.client + 1 := by
  have hstep : ∀ n, HoldsWorth ids ((additive ids hne hnodup).utilAt n) →
      (∀ t ∈ (additive ids hne hnodup).turnsAt n,
        t.mc (additive ids hne hnodup) = t.client + 1) ∧
      HoldsWorth ids ((additive ids hne hnodup).utilAt (n + 1)) := by
    intro n hutil
    have hv0 : Round.v0 ((additive ids hne hnodup).utilAt n) = worth [] := by
      simp [Round.v0, hutil.eq_some hutil.empty]
    have hperm : ([] ++ (additive ids hne hnodup).idxs n).Perm ids :=
      idxs_perm (R := additive ids hne hnodup) n
    simp only [Round.turnsAt, Round.utilAt, hv0]
    exact turns_additive hutil hperm
  have hutil : ∀ n, HoldsWorth ids ((additive ids hne hnodup).utilAt n) := by
    intro n
    induction n with
    | zero => exact holdsWorth_init
    | succ n ih => exact (hstep n ih).2
  exact ⟨hutil n, (hstep n (hutil n)).1⟩

theorem ownContribution_additive {client : ℕ} (hclient : client ∈ ids) (k : ℕ) :
    (additive ids hne hnodup).ownContribution client k = client + 1 := by
  have hmem := (turnsAt_clients_perm (R := additive ids hne hnodup) k).mem_iff.mpr hclient
  have hsome : (((additive ids hne hnodup).turnsAt k).find?
      fun t => decide (t.client = client)).isSome := by
    simpa [List.find?_isSome] using hmem
  obtain ⟨t, ht⟩ := Option.isSome_iff_exists.mp hsome
  have hcl : t.client = client := by simpa using List.find?_some ht
  have hmc : t.mc (additive ids hne hnodup) = t.client + 1 :=
    (turnsAt_additive k).2 t (List.mem_of_find?_eq_some ht)
  simp [Round.ownContribution, ht, hmc, hcl]

theorem ownAverage_additive {client n : ℕ} (hclient : client ∈ ids) (hn : 0 < n) :
    (additive ids hne hnodup).ownAverage n client = client + 1 := by
  have hown : (additive ids hne hnodup).ownContribution client =
      fun _ => (client : ℚ) + 1 := funext fun k => ownContribution_additive hclient k
  rw [Round.ownAverage, hown, RunningMean.mean_const _ hn]

end Additive

section Exactly

variable {R : Round}

/-- A run that ends has processed some permutations. -/
theorem loop_eq_some (hfits : R.Fits) {fuel m : ℕ} {r : Except Err State}
    (h : R.loop fuel (R.stateAt (m * R.N)) = some r) : ∃ n > 0, r = .ok (R.stateAt n) := by
  induction fuel generalizing m with
  | zero => cases h
  | succ fuel ih =>
      by_cases hnow : R._is_not_converged (R.stateAt (m * R.N))
      · by_cases hall : R.exhausted (R.stateAt ((m + 1) * R.N))
        · refine ⟨(m + 1) * R.N, Nat.mul_pos (Nat.succ_pos m) N_pos, ?_⟩
          simpa [Round.loop, hnow, pass_stateAt hfits, hall, eq_comm] using h
        · exact ih (by simpa [Round.loop, hnow, pass_stateAt hfits, hall] using h)
      · refine ⟨m * R.N, ?_, by simpa [Round.loop, hnow, eq_comm] using h⟩
        have hk : CONVERGE_MIN_K < (R.stateAt (m * R.N)).k := by
          by_contra hle
          simp [Round._is_not_converged, not_lt.mp hle] at hnow
        exact lt_of_le_of_lt (Nat.zero_le _) hk

theorem run_eq_some_ok (hfits : R.Fits) {fuel : ℕ} {out : Outcome}
    (h : TMCShapleyValue.run R fuel = some (.ok out)) :
    ∃ n > 0, out = R.record (R.stateAt n) := by
  obtain ⟨r, hloop, hr⟩ := Option.map_eq_some_iff.mp h
  have hstart : R.start = R.stateAt (0 * R.N) := by
    rw [Nat.zero_mul]
    rfl
  rw [hstart] at hloop
  obtain ⟨n, hn, rfl⟩ := loop_eq_some hfits hloop
  refine ⟨n, hn, ?_⟩
  simpa [Except.map, eq_comm] using hr

theorem fits_of_records (h : RecordsOwnAverages TMCShapleyValue.run R) : R.Fits := by
  by_contra hfits
  obtain ⟨fuel, out, hrun, _⟩ := h
  cases fuel with
  | zero => simp [TMCShapleyValue.run, Round.loop] at hrun
  | succ fuel => simp [run_fails hfits] at hrun

/-- With the additive utility a client that is not placed is given the value of another one. -/
theorem placed_of_records_additive {ids : List ℕ} {hne : ids ≠ []} {hnodup : ids.Nodup}
    (h : RecordsOwnAverages TMCShapleyValue.run (additive ids hne hnodup)) : Placed ids := by
  have hfits := fits_of_records h
  obtain ⟨fuel, out, hrun, hout⟩ := h
  obtain ⟨n, hn, rfl⟩ := run_eq_some_ok hfits hrun
  have hids : (additive ids hne hnodup).client_index_for_this_round = ids := rfl
  simp only [record_stateAt, hids] at hout
  -- the mean of the entries at a place is the worth of the client that is read there
  have hread : ∀ i (hi : i < ids.length),
      RunningMean.mean ((additive ids hne hnodup).placeAt i) n = (ids[i] : ℚ) + 1 := by
    intro i hi
    have hget := congrArg (fun l => l[i]?) hout
    simp only [List.getElem?_mapIdx, List.getElem?_map, List.getElem?_eq_getElem hi,
      Option.map_some, Option.some.injEq, Prod.mk.injEq, true_and] at hget
    rw [hget, ownAverage_additive (List.getElem_mem hi) hn]
  -- and of the client that is stored there
  have hstored : ∀ client ∈ ids,
      RunningMean.mean ((additive ids hne hnodup).placeAt (storeIndex ids client)) n =
        (client : ℚ) + 1 := by
    intro client hclient
    have hplace : (additive ids hne hnodup).placeAt (storeIndex ids client) =
        (additive ids hne hnodup).ownContribution client :=
      funext fun k => rowAt_storeIndex hfits k hclient
    rw [hplace]
    exact ownAverage_additive hclient hn
  intro i hi
  have hp : storeIndex ids ids[i] < ids.length := hfits ids[i] (List.getElem_mem hi)
  have hsame : (ids[storeIndex ids ids[i]] : ℚ) + 1 = ids[i] + 1 :=
    (hread _ hp).symm.trans (hstored ids[i] (List.getElem_mem hi))
  have hclient : ids[storeIndex ids ids[i]] = ids[i] := by
    exact_mod_cast add_right_cancel hsame
  exact (hnodup.getElem_inj_iff).mp hclient

/-- Clients 1 and 3 of a round. -/
def gapped : Round := additive [1, 3] (by decide) (by decide)

end Exactly

/-! ## Termination -/

end Fediux.Contribution
