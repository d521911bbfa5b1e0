import Fediux.Basic.OrderedMap

set_option autoImplicit false

/-! # The cached utilities of the Shapley values

The loop over the subsets of one permutation in `GTGShapleyValue.run` and `TMCShapleyValue.run`
of `python/fediux/contribution`, which is the same in both: each turn adds a client to the
subset, takes its utility from the cache `util`, from the validation, or from the turn before
(truncation), and stores it in the cache. `soundAtAllTimes_iff` says exactly when the cache stays
sound: truncation also writes under the key of the full set, with which later turns compare.
-/

namespace Fediux.Contribution

open OrderedMap

/-- The clients of a subset: the tuple that is its key in `util`. -/
abbrev Subset := List ℕ

abbrev Util := Entries Subset ℚ

/-- A round: the arguments of `run`, the utility `validation_func` gives to the aggregated model
of a subset, and the clients that `np.random.permutation` puts behind the first one in the
`k`-th permutation. -/
structure Round where
  client_index_for_this_round : List ℕ
  validation : Subset → ℚ
  acc_on_last_round : ℚ
  acc_on_aggregated_model : ℚ
  permutation : ℕ → ℕ → List ℕ
  nonempty : client_index_for_this_round ≠ []
  distinct : client_index_for_this_round.Nodup
  permutes : ∀ k pi,
    (permutation k pi).Perm (client_index_for_this_round.filter fun p => decide (p ≠ pi))

/-- `self.eps`. -/
def eps : ℚ := 1 / 1000

/-- `itertools.combinations`. -/
def combinations {α : Type} : ℕ → List α → List (List α)
  | 0, _ => [[]]
  | _ + 1, [] => []
  | r + 1, x :: xs => (combinations r xs).map (x :: ·) ++ combinations (r + 1) xs

def generate_power_set {α : Type} (s : List α) : List (List α) :=
  (List.range (s.length + 1)).flatMap fun r => combinations r s

theorem combinations_length {α : Type} (s : List α) : combinations s.length s = [s] := by
  have hnone : ∀ (t : List α) (r : ℕ), t.length < r → combinations r t = [] := by
    intro t
    induction t with
    | nil =>
        intro r hr
        cases r with
        | zero => simp at hr
        | succ r => rfl
    | cons x t ih =>
        intro r hr
        cases r with
        | zero => simp at hr
        | succ r =>
            simp only [List.length_cons] at hr
            simp [combinations, ih r (by omega), ih (r + 1) (by omega)]
  induction s with
  | nil => rfl
  | cons x s ih => simp [combinations, ih, hnone s (s.length + 1) (by omega)]

namespace Round

variable (R : Round)

/-- `powerset[-1]`. -/
def s_all : Subset := (generate_power_set R.client_index_for_this_round).getLast?.getD []

/-- The full set has the clients in the order in which they are given. -/
theorem s_all_eq : R.s_all = R.client_index_for_this_round := by
  simp [s_all, generate_power_set, List.range_succ, combinations_length]

/-- `util[s_all]`. -/
def full (util : Util) : ℚ := (find? util R.s_all).getD 0

/-- `util` before the first permutation. -/
def init : Util := assign (assign [] [] R.acc_on_last_round) R.s_all R.acc_on_aggregated_model

end Round

/-- `tuple(np.sort(C, kind="mergesort"))`. -/
def sorted (C : List ℕ) : Subset := C.insertionSort (· ≤ ·)

/-- A turn of the loop over `j`: the cache before it, `v[j - 1]`, the subset and the client that
is new in it. -/
structure Turn where
  before : Util
  prev : ℚ
  C : Subset
  client : ℕ
  deriving DecidableEq, Repr

namespace Turn

variable (R : Round) (t : Turn)

/-- `v[j]`. -/
def value : ℚ :=
  if eps ≤ |R.full t.before - t.prev| then
    match find? t.before t.C with
    | some v => v
    | none => R.validation t.C
  else t.prev

def after : Util := assign t.before t.C (t.value R)

/-- The marginal contribution of the client. -/
def mc : ℚ := max (t.value R - t.prev) 0

end Turn

/-- The turns of one permutation, from the clients `seen` and the value `v` on. -/
def turns (R : Round) : Util → List ℕ → ℚ → List ℕ → List Turn
  | _, _, _, [] => []
  | util, seen, v, client :: rest =>
      let t : Turn :=
        { before := util, prev := v, C := sorted (seen ++ [client]), client := client }
      t :: turns R (t.after R) (seen ++ [client]) (t.value R) rest

/-- The cache behind some turns. -/
def cacheAfter (R : Round) : Util → List Turn → Util
  | util, [] => util
  | _, t :: ts => cacheAfter R (t.after R) ts

namespace Round

variable (R : Round)

/-- `v[0]`. -/
def v0 (util : Util) : ℚ := (find? util []).getD 0

/-- `idxs_k`, for the permutation after the first `k`. Each client in turn is the first one. -/
def idxs (k : ℕ) : List ℕ :=
  let pi := R.client_index_for_this_round.getD (k % R.client_index_for_this_round.length) 0
  pi :: R.permutation (k + 1) pi

/-- The cache behind the first `k` permutations. -/
def utilAt : ℕ → Util
  | 0 => R.init
  | k + 1 => cacheAfter R (utilAt k) (turns R (utilAt k) [] (v0 (utilAt k)) (R.idxs k))

/-- The turns of the permutation after the first `k`. -/
def turnsAt (k : ℕ) : List Turn := turns R (R.utilAt k) [] (v0 (R.utilAt k)) (R.idxs k)

/-- The turns of the first `n` permutations. -/
def allTurns (n : ℕ) : List Turn := (List.range n).flatMap R.turnsAt

end Round

/-! ## What the cache should hold -/

/-- The empty set has the utility of the last round, the full set that of the aggregated model,
in whatever order its clients are listed, and any other subset has the value that was validated
for it or one within `eps` of the utility of the full set. -/
structure Sound (R : Round) (util : Util) : Prop where
  empty : find? util [] = some R.acc_on_last_round
  full : find? util R.s_all = some R.acc_on_aggregated_model
  fullSet : ∀ C v, C.Perm R.client_index_for_this_round → find? util C = some v →
    v = R.acc_on_aggregated_model
  others : ∀ C v, C ≠ [] → ¬ C.Perm R.client_index_for_this_round → find? util C = some v →
    v = R.validation C ∨ |R.acc_on_aggregated_model - v| < eps

/-- A turn on the full set borrows no other value than that of the aggregated model, nor does it
validate another one (it validates the full set only when the clients are not given in
ascending order). -/
def Spares (R : Round) (t : Turn) : Prop :=
  t.C.Perm R.client_index_for_this_round →
    if |R.full t.before - t.prev| < eps then t.prev = R.acc_on_aggregated_model
    else find? t.before t.C = none → R.validation t.C = R.acc_on_aggregated_model

/-! ## The turns follow each other -/

/-- Each turn finds the cache that the turn before has left. -/
inductive Follows (R : Round) : Util → List Turn → Prop where
  | nil (util : Util) : Follows R util []
  | cons {t : Turn} {ts : List Turn} (h : Follows R (t.after R) ts) :
      Follows R t.before (t :: ts)

theorem follows_turns (R : Round) (util : Util) (seen : List ℕ) (v : ℚ) (rest : List ℕ) :
    Follows R util (turns R util seen v rest) := by
  induction rest generalizing util seen v with
  | nil => exact .nil util
  | cons client rest ih =>
      let t : Turn :=
        { before := util, prev := v, C := sorted (seen ++ [client]), client := client }
      exact Follows.cons (t := t) (ih _ _ _)

theorem Follows.append {R : Round} {util : Util} {ts ts' : List Turn} (h : Follows R util ts)
    (h' : Follows R (cacheAfter R util ts) ts') : Follows R util (ts ++ ts') := by
  induction h with
  | nil util => exact h'
  | cons h ih => exact .cons (ih h')

theorem cacheAfter_append (R : Round) (util : Util) (ts ts' : List Turn) :
    cacheAfter R util (ts ++ ts') = cacheAfter R (cacheAfter R util ts) ts' := by
  induction ts generalizing util with
  | nil => rfl
  | cons t ts ih => exact ih (t.after R)

/-- The permutations follow each other too. -/
theorem Round.follows_allTurns (R : Round) (n : ℕ) :
    Follows R R.init (R.allTurns n) ∧ cacheAfter R R.init (R.allTurns n) = R.utilAt n := by
  induction n with
  | zero => exact ⟨.nil _, rfl⟩
  | succ n ih =>
      have hsplit : R.allTurns (n + 1) = R.allTurns n ++ R.turnsAt n := by
        simp [Round.allTurns, List.range_succ]
      rw [hsplit, cacheAfter_append, ih.2]
      exact ⟨ih.1.append (ih.2 ▸ follows_turns R _ _ _ _), rfl⟩

theorem Follows.take {R : Round} {util : Util} {ts : List Turn} (h : Follows R util ts) (m : ℕ) :
    Follows R util (ts.take m) := by
  induction h generalizing m with
  | nil util => simpa using Follows.nil util
  | cons h ih =>
      cases m with
      | zero => exact .nil _
      | succ m => exact .cons (ih m)

theorem ne_nil_of_mem_turns {R : Round} {util : Util} {seen : List ℕ} {v : ℚ} {rest : List ℕ}
    {t : Turn} (h : t ∈ turns R util seen v rest) : t.C ≠ [] := by
  induction rest generalizing util seen v with
  | nil => cases h
  | cons client rest ih =>
      rcases List.mem_cons.mp h with rfl | h
      · intro hnil
        have hlen := congrArg List.length hnil
        simp [sorted, List.length_insertionSort] at hlen
      · exact ih h

/-! ## Steps and runs -/

theorem Round.ids_ne_nil_of_perm {R : Round} {C : Subset}
    (h : C.Perm R.client_index_for_this_round) : C ≠ [] := by
  rintro rfl
  exact R.nonempty (List.nil_perm.mp h)

theorem sound_init (R : Round) : Sound R R.init := by
  have hall : R.s_all ≠ [] := by
    rw [R.s_all_eq]
    exact R.nonempty
  constructor
  · simp [Round.init, hall.symm]
  · simp [Round.init]
  · intro C v hC hv
    have hne := Round.ids_ne_nil_of_perm hC
    by_cases hs : C = R.s_all
    · simpa [Round.init, hs, eq_comm] using hv
    · simp [Round.init, hs, hne] at hv
  · intro C v hne hC hv
    have hs : C ≠ R.s_all := by
      rintro rfl
      exact hC (by rw [R.s_all_eq])
    simp [Round.init, hs, hne] at hv

/-- The value of a turn on a sound cache. -/
theorem Turn.value_cases {R : Round} {t : Turn} (h : Sound R t.before) :
    (|R.acc_on_aggregated_model - t.prev| < eps ∧ t.value R = t.prev) ∨
      find? t.before t.C = some (t.value R) ∨
      (find? t.before t.C = none ∧ ¬ |R.acc_on_aggregated_model - t.prev| < eps ∧
        t.value R = R.validation t.C) := by
  have hfull : R.full t.before = R.acc_on_aggregated_model := by simp [Round.full, h.full]
  by_cases hle : eps ≤ |R.full t.before - t.prev|
  · right
    cases hfind : find? t.before t.C with
    | some v => simp [Turn.value, hle, hfind]
    | none =>
        right
        refine ⟨rfl, ?_, by simp [Turn.value, hle, hfind]⟩
        rw [← hfull]
        exact not_lt.mpr hle
  · refine Or.inl ⟨?_, by simp [Turn.value, hle]⟩
    rw [← hfull]
    exact not_le.mp hle

/-- **A turn keeps the cache sound exactly when it spares the full set.** -/
theorem sound_after_iff {R : Round} {t : Turn} (h : Sound R t.before) (hne : t.C ≠ []) :
    Sound R (t.after R) ↔ Spares R t := by
  have hfull : R.full t.before = R.acc_on_aggregated_model := by simp [Round.full, h.full]
  constructor
  · intro hafter hC
    have hvalue : t.value R = R.acc_on_aggregated_model :=
      hafter.fullSet t.C _ hC (by simp [Turn.after])
    split_ifs with hlt
    · have hnot : ¬ eps ≤ |R.full t.before - t.prev| := not_le.mpr hlt
      simpa [Turn.value, hnot] using hvalue
    · intro hnone
      simpa [Turn.value, not_lt.mp hlt, hnone] using hvalue
  · intro hspares
    have hset : t.C.Perm R.client_index_for_this_round →
        t.value R = R.acc_on_aggregated_model := by
      intro hC
      have hspared := hspares hC
      rw [hfull] at hspared
      rcases Turn.value_cases h with ⟨hlt, hv⟩ | hsome | ⟨hnone, hnot, hv⟩
      · rw [if_pos hlt] at hspared
        rw [hv, hspared]
      · exact h.fullSet t.C _ hC hsome
      · rw [if_neg hnot] at hspared
        rw [hv, hspared hnone]
    constructor
    · simp [Turn.after, hne.symm, h.empty]
    · by_cases hs : R.s_all = t.C
      · have hperm : t.C.Perm R.client_index_for_this_round := by rw [← hs, R.s_all_eq]
        simp [Turn.after, hs, hset hperm]
      · simp [Turn.after, hs, h.full]
    · intro C v hC hv
      by_cases hCt : C = t.C
      · subst hCt
        simp only [Turn.after, find?_assign, if_true, Option.some.injEq] at hv
        rw [← hv, hset hC]
      · simp only [Turn.after, find?_assign, hCt, if_false] at hv
        exact h.fullSet C v hC hv
    · intro C v hCne hC hv
      by_cases hCt : C = t.C
      · subst hCt
        simp only [Turn.after, find?_assign, if_true, Option.some.injEq] at hv
        subst hv
        rcases Turn.value_cases h with ⟨hlt, hval⟩ | hsome | ⟨_, _, hval⟩
        · exact Or.inr (hval ▸ hlt)
        · exact h.others t.C _ hCne hC hsome
        · exact Or.inl hval
      · simp only [Turn.after, find?_assign, hCt, if_false] at hv
        exact h.others C v hCne hC hv

theorem sound_iff_of_follows {R : Round} {util : Util} {ts : List Turn}
    (h : Follows R util ts) (hs : Sound R util) (hne : ∀ t ∈ ts, t.C ≠ []) :
    (∀ t ∈ ts, Sound R (t.after R)) ↔ ∀ t ∈ ts, Spares R t := by
  induction h with
  | nil util => simp
  | @cons t ts h ih =>
      have hstep := sound_after_iff hs (hne t (by simp))
      simp only [List.forall_mem_cons]
      constructor
      · rintro ⟨hafter, hrest⟩
        exact ⟨hstep.mp hafter, (ih hafter fun u hu => hne u (by simp [hu])).mp hrest⟩
      · rintro ⟨hspares, hrest⟩
        have hafter := hstep.mpr hspares
        exact ⟨hafter, (ih hafter fun u hu => hne u (by simp [hu])).mpr hrest⟩

/-- **In every run, up to any turn, the cache is sound at all times exactly when all turns spare
the full set.** -/
theorem soundAtAllTimes_iff (R : Round) (n m : ℕ) :
    (∀ t ∈ (R.allTurns n).take m, Sound R (t.after R)) ↔
      ∀ t ∈ (R.allTurns n).take m, Spares R t := by
  refine sound_iff_of_follows ((R.follows_allTurns n).1.take m) (sound_init R) fun t ht => ?_
  obtain ⟨k, _, hk⟩ := List.mem_flatMap.mp (List.mem_of_mem_take ht)
  exact ne_nil_of_mem_turns hk

/-- Two clients, the first of which comes within `eps` of the aggregated model on its own. -/
def closeFirst : Round where
  client_index_for_this_round := [0, 1]
  validation := fun _ => 1999 / 2000
  acc_on_last_round := 0
  acc_on_aggregated_model := 1
  permutation := fun _ pi => [0, 1].filter fun p => decide (p ≠ pi)
  nonempty := by simp
  distinct := by simp
  permutes := fun _ _ => List.Perm.refl _

/-- The second turn is truncated and takes the utility of the full set from the first client. -/
theorem not_sound_closeFirst :
    ¬ ∀ t ∈ closeFirst.allTurns 1, Sound closeFirst (t.after closeFirst) := by
  intro hall
  have hlast : (closeFirst.allTurns 1).map
      (fun t => find? (t.after closeFirst) closeFirst.s_all) =
        [some 1, some (1999 / 2000)] := by decide +kernel
  have hfull : ∀ v ∈ (closeFirst.allTurns 1).map
      (fun t => find? (t.after closeFirst) closeFirst.s_all),
        v = some closeFirst.acc_on_aggregated_model := by
    simp only [List.mem_map]
    rintro v ⟨t, ht, rfl⟩
    exact (hall t ht).full
  rw [hlast] at hfull
  have hwrong : (some (1999 / 2000) : Option ℚ) = some 1 := hfull _ (by simp)
  norm_num at hwrong

end Fediux.Contribution
