import Mathlib

set_option autoImplicit false

/-! # The merged ROC curve of two clients

`fpr_tpr_merge2` of `python/fediux/FL/metrics/hfl_metrics.py` merges two descending lists of
thresholds. At each step it takes the rates of the side that goes on, keeps the last ones of the
other side, and averages them by the numbers of examples. Where both sides have the same threshold
both go on in one step, but the threshold is appended twice. `merges_iff` says which curves are
merged into that of the pooled examples.
-/

namespace Fediux.Metrics

/-! ## The code -/

structure Rates where
  fpr : ℚ
  tpr : ℚ

/-- A threshold of a curve with its rates. -/
structure Point (α : Type) extends Rates where
  threshold : α

structure Merged (α : Type) where
  fpr_merge : List ℚ
  tpr_merge : List ℚ
  thresholds_merge : List α

/-- `np.average` of two values, which raises when the weights add up to zero. -/
def average (x₁ x₂ : ℚ) (weights : ℕ × ℕ) : Option ℚ :=
  if weights.1 + weights.2 = 0 then none
  else some ((x₁ * weights.1 + x₂ * weights.2) / (weights.1 + weights.2))

section Merge

variable {α : Type} (num_positive_examples_weights num_negtive_examples_weights : ℕ × ℕ)

/-- One round of the loop: the thresholds that it appends, the rates of both sides, and the rounds
behind it. -/
def emit (thresholds : List α) (prev1 prev2 : Rates) (rest : Option (Merged α)) :
    Option (Merged α) := do
  let fpr ← average prev1.fpr prev2.fpr num_negtive_examples_weights
  let tpr ← average prev1.tpr prev2.tpr num_positive_examples_weights
  let rest ← rest
  return { fpr_merge := fpr :: rest.fpr_merge
           tpr_merge := tpr :: rest.tpr_merge
           thresholds_merge := thresholds ++ rest.thresholds_merge }

variable [LinearOrder α]

/-- The loop, from the points that are left of both curves and the last rates of both sides. -/
def mergeFrom : List (Point α) → List (Point α) → Rates → Rates → Option (Merged α)
  | [], [], _, _ => some ⟨[], [], []⟩
  | [], p2 :: rest2, prev1, _ =>
      emit num_positive_examples_weights num_negtive_examples_weights [p2.threshold] prev1
        p2.toRates (mergeFrom [] rest2 prev1 p2.toRates)
  | p1 :: rest1, [], _, prev2 =>
      emit num_positive_examples_weights num_negtive_examples_weights [p1.threshold] p1.toRates
        prev2 (mergeFrom rest1 [] p1.toRates prev2)
  | p1 :: rest1, p2 :: rest2, prev1, prev2 =>
      let score := max p1.threshold p2.threshold
      -- a score that is larger than the first threshold is the second one
      if score ≤ p1.threshold then
        if score ≤ p2.threshold then
          emit num_positive_examples_weights num_negtive_examples_weights
            [p1.threshold, p2.threshold] p1.toRates p2.toRates
            (mergeFrom rest1 rest2 p1.toRates p2.toRates)
        else
          emit num_positive_examples_weights num_negtive_examples_weights [p1.threshold]
            p1.toRates prev2 (mergeFrom rest1 (p2 :: rest2) p1.toRates prev2)
      else
        emit num_positive_examples_weights num_negtive_examples_weights [p2.threshold] prev1
          p2.toRates (mergeFrom (p1 :: rest1) rest2 prev1 p2.toRates)
termination_by l1 l2 => l1.length + l2.length

def fpr_tpr_merge2 (curve1 curve2 : List (Point α)) : Option (Merged α) :=
  mergeFrom num_positive_examples_weights num_negtive_examples_weights curve1 curve2 ⟨0, 0⟩ ⟨0, 0⟩

end Merge

/-! ## Curves of examples -/

section Curves

variable {α : Type} [LinearOrder α]

/-- The part of the scores that reach a threshold. -/
def rate (scores : List α) (t : α) : ℚ :=
  scores.countP (fun s => decide (t ≤ s)) / scores.length

/-- A client with the scores of its examples and the thresholds of its curve. -/
structure Client (α : Type) [LinearOrder α] where
  positive : List α
  negative : List α
  thresholds : List α
  positive_ne_nil : positive ≠ []
  negative_ne_nil : negative ≠ []
  descending : thresholds.Pairwise (· > ·)

namespace Client

variable (c : Client α)

def point (t : α) : Point α :=
  { threshold := t, fpr := rate c.negative t, tpr := rate c.positive t }

def curve : List (Point α) := c.thresholds.map c.point

end Client

def mergeClients (c1 c2 : Client α) : Option (Merged α) :=
  fpr_tpr_merge2 (c1.positive.length, c2.positive.length) (c1.negative.length, c2.negative.length)
    c1.curve c2.curve

/-- The lists have one length, the thresholds descend, and the rates at each are those of the
pooled examples. -/
structure Pools (c1 c2 : Client α) (m : Merged α) : Prop where
  length_fpr : m.fpr_merge.length = m.thresholds_merge.length
  length_tpr : m.tpr_merge.length = m.thresholds_merge.length
  descending : m.thresholds_merge.Pairwise (· > ·)
  rates : ∀ (i : ℕ) t, m.thresholds_merge[i]? = some t →
    m.fpr_merge[i]? = some (rate (c1.negative ++ c2.negative) t) ∧
      m.tpr_merge[i]? = some (rate (c1.positive ++ c2.positive) t)

def Merges (c1 c2 : Client α) : Prop := ∃ m, mergeClients c1 c2 = some m ∧ Pools c1 c2 m

/-- Every score of the client that reaches one of the thresholds reaches a threshold of its own
that is not below it. -/
def Client.Covers (c : Client α) (ts : List α) : Prop :=
  ∀ t ∈ ts, ∀ s ∈ c.positive ++ c.negative, t ≤ s → ∃ u ∈ c.thresholds, t ≤ u ∧ u ≤ s

end Curves

/-! ## Step functions

A descending list of thresholds, and the value at the last of them that is not below `t`. -/

section Steps

variable {α β : Type} [LinearOrder α]

def lastValue (f : α → β) : List α → β → α → β
  | [], prev, _ => prev
  | u :: ts, prev, t => if t ≤ u then lastValue f ts (f u) t else prev

variable {f : α → β} {ts : List α} {prev : β} {t u : α}

theorem lt_of_mem_cons (ht : ∀ w ∈ ts, w < t) (h : t < u) : ∀ w ∈ t :: ts, w < u := by
  intro w hw
  rcases List.mem_cons.mp hw with rfl | hw
  · exact h
  · exact (ht w hw).trans h

theorem lastValue_cons_of_le (h : t ≤ u) :
    lastValue f (u :: ts) prev t = lastValue f ts (f u) t := by
  rw [lastValue, if_pos h]

theorem lastValue_of_lt (h : ∀ u ∈ ts, u < t) : lastValue f ts prev t = prev := by
  cases ts with
  | nil => rfl
  | cons u ts => rw [lastValue, if_neg (not_le.mpr (h u List.mem_cons_self))]

theorem map_lastValue {γ : Type} (g : β → γ) (f : α → β) (ts : List α) (prev : β) (t : α) :
    g (lastValue f ts prev t) = lastValue (fun u => g (f u)) ts (g prev) t := by
  induction ts generalizing prev with
  | nil => rfl
  | cons u ts ih =>
      rw [lastValue, lastValue]
      split
      · exact ih (f u)
      · rfl

/-- The value at the least threshold that is not below `t`, if there is one. -/
theorem lastValue_cases (f : α → β) (prev : β) (t : α) (h : ts.Pairwise (· > ·)) :
    (∃ u ∈ ts, t ≤ u ∧ (∀ w ∈ ts, t ≤ w → u ≤ w) ∧ lastValue f ts prev t = f u) ∨
      (∀ u ∈ ts, u < t) ∧ lastValue f ts prev t = prev := by
  induction ts generalizing prev with
  | nil => exact Or.inr ⟨fun u hu => absurd hu List.not_mem_nil, rfl⟩
  | cons u ts ih =>
      obtain ⟨hu, hts⟩ := List.pairwise_cons.mp h
      by_cases hle : t ≤ u
      · left
        rw [lastValue_cons_of_le hle]
        rcases ih (f u) hts with ⟨v, hv, htv, hleast, hvalue⟩ | ⟨hbelow, hvalue⟩
        · refine ⟨v, List.mem_cons_of_mem u hv, htv, ?_, hvalue⟩
          intro w hw htw
          rcases List.mem_cons.mp hw with rfl | hw
          · exact (hu v hv).le
          · exact hleast w hw htw
        · refine ⟨u, List.mem_cons_self, hle, ?_, hvalue⟩
          intro w hw htw
          rcases List.mem_cons.mp hw with rfl | hw
          · exact le_rfl
          · exact absurd htw (not_le.mpr (hbelow w hw))
      · right
        have hbelow := lt_of_mem_cons hu (not_le.mp hle)
        exact ⟨hbelow, lastValue_of_lt hbelow⟩

/-- At a threshold of the list it is the value there. -/
theorem lastValue_of_mem (h : ts.Pairwise (· > ·)) (ht : t ∈ ts) :
    lastValue f ts prev t = f t := by
  rcases lastValue_cases f prev t h with
    ⟨u, -, htu, hleast, hvalue⟩ | ⟨hbelow, -⟩
  · rw [hvalue, le_antisymm (hleast t ht le_rfl) htu]
  · exact absurd (hbelow t ht) (lt_irrefl t)

end Steps

/-! ## Rates -/

section Rate

variable {α : Type} [LinearOrder α] {scores : List α} {t u : α}

/-- A higher threshold leaves out the scores between. -/
theorem countP_between (scores : List α) (h : t ≤ u) :
    scores.countP (fun s => decide (t ≤ s)) = scores.countP (fun s => decide (u ≤ s)) +
      scores.countP fun s => decide (t ≤ s ∧ ¬ u ≤ s) := by
  induction scores with
  | nil => rfl
  | cons s scores ih =>
      rw [List.countP_cons, List.countP_cons, List.countP_cons, ih]
      by_cases hu : u ≤ s
      · have ht : t ≤ s := h.trans hu
        simp only [hu, ht, decide_true, not_true_eq_false, and_false, decide_false, if_true,
          Bool.false_eq_true, if_false]
        omega
      · by_cases ht : t ≤ s
        · simp only [hu, ht, decide_true, not_false_eq_true, and_true, decide_false, if_true,
            Bool.false_eq_true, if_false]
          omega
        · simp only [hu, ht, decide_false, false_and, Bool.false_eq_true, if_false]
          omega

theorem rate_eq_rate_iff (hne : scores ≠ []) (h : t ≤ u) :
    rate scores u = rate scores t ↔ ∀ s ∈ scores, t ≤ s → u ≤ s := by
  have hlen : (scores.length : ℚ) ≠ 0 := by
    exact_mod_cast (List.length_pos_iff.mpr hne).ne'
  unfold rate
  rw [div_left_inj' hlen, Nat.cast_inj, countP_between scores h, left_eq_add, List.countP_eq_zero]
  simp only [decide_eq_true_eq, not_and, not_not]

theorem rate_eq_zero_iff (hne : scores ≠ []) :
    0 = rate scores t ↔ ∀ s ∈ scores, ¬ t ≤ s := by
  have hlen : (scores.length : ℚ) ≠ 0 := by
    exact_mod_cast (List.length_pos_iff.mpr hne).ne'
  unfold rate
  rw [eq_comm, div_eq_zero_iff, or_iff_left hlen, Nat.cast_eq_zero, List.countP_eq_zero]
  simp only [decide_eq_true_eq]

/-- The last rate of a curve is the one at `t` exactly when no score lies between. -/
theorem lastValue_rate_iff (hne : scores ≠ []) {ts : List α} (hts : ts.Pairwise (· > ·)) :
    lastValue (rate scores) ts 0 t = rate scores t ↔
      ∀ s ∈ scores, t ≤ s → ∃ u ∈ ts, t ≤ u ∧ u ≤ s := by
  rcases lastValue_cases (rate scores) 0 t hts with
    ⟨u, hu, htu, hleast, hvalue⟩ | ⟨hbelow, hvalue⟩
  · rw [hvalue, rate_eq_rate_iff hne htu]
    constructor
    · intro h s hs hts'
      exact ⟨u, hu, htu, h s hs hts'⟩
    · intro h s hs hts'
      obtain ⟨w, hw, htw, hws⟩ := h s hs hts'
      exact (hleast w hw htw).trans hws
  · rw [hvalue, rate_eq_zero_iff hne]
    constructor
    · intro h s hs hts'
      exact absurd hts' (h s hs)
    · intro h s hs hts'
      obtain ⟨u, hu, htu, -⟩ := h s hs hts'
      exact absurd htu (not_le.mpr (hbelow u hu))

end Rate

/-! ## Averages -/

def averageOf (x₁ x₂ : ℚ) (weights : ℕ × ℕ) : ℚ :=
  (x₁ * weights.1 + x₂ * weights.2) / (weights.1 + weights.2)

theorem average_of_pos {weights : ℕ × ℕ} (h : 0 < weights.1) (x₁ x₂ : ℚ) :
    average x₁ x₂ weights = some (averageOf x₁ x₂ weights) := by
  rw [average, if_neg (by omega)]
  rfl

section Average

variable {weights : ℕ × ℕ} {x₁ x₂ y : ℚ}

theorem averageOf_left_inj (h : 0 < weights.1) :
    averageOf x₁ x₂ weights = averageOf y x₂ weights ↔ x₁ = y := by
  have h1 : (weights.1 : ℚ) ≠ 0 := by exact_mod_cast h.ne'
  have hsum : (weights.1 : ℚ) + weights.2 ≠ 0 := by
    exact_mod_cast (by omega : weights.1 + weights.2 ≠ 0)
  rw [averageOf, averageOf, div_left_inj' hsum, add_left_inj, mul_left_inj' h1]

theorem averageOf_right_inj (h : 0 < weights.2) :
    averageOf x₁ x₂ weights = averageOf x₁ y weights ↔ x₂ = y := by
  have h2 : (weights.2 : ℚ) ≠ 0 := by exact_mod_cast h.ne'
  have hsum : (weights.1 : ℚ) + weights.2 ≠ 0 := by
    exact_mod_cast (by omega : weights.1 + weights.2 ≠ 0)
  rw [averageOf, averageOf, div_left_inj' hsum, add_right_inj, mul_left_inj' h2]

/-- The pooled rate is the average of the rates. -/
theorem rate_append {α : Type} [LinearOrder α] {a b : List α} (ha : a ≠ []) (hb : b ≠ []) (t : α) :
    rate (a ++ b) t = averageOf (rate a t) (rate b t) (a.length, b.length) := by
  have ha' : (a.length : ℚ) ≠ 0 := by exact_mod_cast (List.length_pos_iff.mpr ha).ne'
  have hb' : (b.length : ℚ) ≠ 0 := by exact_mod_cast (List.length_pos_iff.mpr hb).ne'
  rw [averageOf, rate, rate, rate, List.countP_append, List.length_append, div_mul_cancel₀ _ ha',
    div_mul_cancel₀ _ hb']
  push_cast
  rfl

end Average

/-! ## Curves without a shared threshold -/

section Merged

variable {α : Type} {positive_weights negative_weights : ℕ × ℕ}

/-- A threshold with the averages of the last rates of both sides, given as functions of it. -/
def mergedOf (weightsP weightsN : ℕ × ℕ) (r1 r2 : α → Rates) (ts : List α) : Merged α where
  fpr_merge := ts.map fun t => averageOf (r1 t).fpr (r2 t).fpr weightsN
  tpr_merge := ts.map fun t => averageOf (r1 t).tpr (r2 t).tpr weightsP
  thresholds_merge := ts

/-- One round in front of the others. -/
theorem emit_mergedOf (hpos : 0 < positive_weights.1) (hneg : 0 < negative_weights.1) {t : α}
    {ts : List α} {r1 r1' r2 r2' : α → Rates} (h1 : ∀ w ∈ ts, r1 w = r1' w)
    (h2 : ∀ w ∈ ts, r2 w = r2' w) :
    emit positive_weights negative_weights [t] (r1' t) (r2' t)
        (some (mergedOf positive_weights negative_weights r1 r2 ts)) =
      some (mergedOf positive_weights negative_weights r1' r2' (t :: ts)) := by
  have hfpr : ts.map (fun w => averageOf (r1 w).fpr (r2 w).fpr negative_weights) =
      ts.map fun w => averageOf (r1' w).fpr (r2' w).fpr negative_weights :=
    List.map_congr_left fun w hw => by rw [h1 w hw, h2 w hw]
  have htpr : ts.map (fun w => averageOf (r1 w).tpr (r2 w).tpr positive_weights) =
      ts.map fun w => averageOf (r1' w).tpr (r2' w).tpr positive_weights :=
    List.map_congr_left fun w hw => by rw [h1 w hw, h2 w hw]
  rw [emit, average_of_pos hneg, average_of_pos hpos]
  unfold mergedOf
  rw [hfpr, htpr]
  rfl

/-- A point for each threshold. -/
def pointAt (f : α → Rates) (t : α) : Point α := { toRates := f t, threshold := t }

variable [LinearOrder α] (f1 f2 : α → Rates)

/-- The thresholds of two descending lists, in descending order. -/
def mergeDesc (ts1 ts2 : List α) : List α := ts1.merge ts2 fun a b => decide (b ≤ a)

theorem mem_mergeDesc {ts1 ts2 : List α} {t : α} :
    t ∈ mergeDesc ts1 ts2 ↔ t ∈ ts1 ∨ t ∈ ts2 := List.mem_merge

theorem mergeDesc_cons_cons (t1 t2 : α) (ts1 ts2 : List α) :
    mergeDesc (t1 :: ts1) (t2 :: ts2) =
      if t2 ≤ t1 then t1 :: mergeDesc ts1 (t2 :: ts2) else t2 :: mergeDesc (t1 :: ts1) ts2 := by
  simp [mergeDesc, List.cons_merge_cons]

theorem mergeDesc_nil (ts : List α) : mergeDesc ts [] = ts := List.merge_right ts

theorem nil_mergeDesc (ts : List α) : mergeDesc [] ts = ts := List.nil_merge ts

variable {f1 f2} {t : α} {ts1 ts2 ts : List α}

theorem lt_of_mem_mergeDesc (h1 : ∀ w ∈ ts1, w < t) (h2 : ∀ w ∈ ts2, w < t) :
    ∀ w ∈ mergeDesc ts1 ts2, w < t := by
  intro w hw
  rcases mem_mergeDesc.mp hw with hw | hw
  · exact h1 w hw
  · exact h2 w hw

/-- A round that takes the first point of the first side. -/
theorem emit_left (hpos : 0 < positive_weights.1) (hneg : 0 < negative_weights.1)
    (hts1 : ∀ u ∈ ts1, u < t) (hts2 : ∀ u ∈ ts2, u < t) (hts : ∀ u ∈ ts, u ≤ t)
    (prev1 prev2 : Rates) :
    emit positive_weights negative_weights [t] (f1 t) prev2
        (some (mergedOf positive_weights negative_weights (lastValue f1 ts1 (f1 t))
          (lastValue f2 ts2 prev2) ts)) =
      some (mergedOf positive_weights negative_weights (lastValue f1 (t :: ts1) prev1)
        (lastValue f2 ts2 prev2) (t :: ts)) := by
  have h1 : lastValue f1 (t :: ts1) prev1 t = f1 t := by
    rw [lastValue_cons_of_le le_rfl, lastValue_of_lt hts1]
  have h2 : lastValue f2 ts2 prev2 t = prev2 := lastValue_of_lt hts2
  rw [← emit_mergedOf hpos hneg (fun u hu => (lastValue_cons_of_le (hts u hu)).symm)
    fun _ _ => rfl, h1, h2]

/-- A round that takes the first point of the second side. -/
theorem emit_right (hpos : 0 < positive_weights.1) (hneg : 0 < negative_weights.1)
    (hts1 : ∀ u ∈ ts1, u < t) (hts2 : ∀ u ∈ ts2, u < t) (hts : ∀ u ∈ ts, u ≤ t)
    (prev1 prev2 : Rates) :
    emit positive_weights negative_weights [t] prev1 (f2 t)
        (some (mergedOf positive_weights negative_weights (lastValue f1 ts1 prev1)
          (lastValue f2 ts2 (f2 t)) ts)) =
      some (mergedOf positive_weights negative_weights (lastValue f1 ts1 prev1)
        (lastValue f2 (t :: ts2) prev2) (t :: ts)) := by
  have h1 : lastValue f1 ts1 prev1 t = prev1 := lastValue_of_lt hts1
  have h2 : lastValue f2 (t :: ts2) prev2 t = f2 t := by
    rw [lastValue_cons_of_le le_rfl, lastValue_of_lt hts2]
  rw [← emit_mergedOf hpos hneg (fun _ _ => rfl)
    fun u hu => (lastValue_cons_of_le (hts u hu)).symm, h1, h2]

variable (f1 f2)

/-- **The loop without ties**: each threshold of either side once, with the averages of the last
rates of both. -/
theorem mergeFrom_eq (hpos : 0 < positive_weights.1) (hneg : 0 < negative_weights.1)
    (h1 : ts1.Pairwise (· > ·)) (h2 : ts2.Pairwise (· > ·)) (hdisjoint : ∀ t ∈ ts1, t ∉ ts2)
    (prev1 prev2 : Rates) :
    mergeFrom positive_weights negative_weights (ts1.map (pointAt f1)) (ts2.map (pointAt f2))
        prev1 prev2 =
      some (mergedOf positive_weights negative_weights (lastValue f1 ts1 prev1)
        (lastValue f2 ts2 prev2) (mergeDesc ts1 ts2)) := by
  induction ts1 generalizing ts2 prev1 prev2 with
  | nil =>
      induction ts2 generalizing prev2 with
      | nil =>
          rw [List.map_nil, List.map_nil, mergeFrom, nil_mergeDesc]
          rfl
      | cons t2 ts2 ih =>
          obtain ⟨ht2, hts2⟩ := List.pairwise_cons.mp h2
          have hrest := ih hts2 (fun t ht => absurd ht List.not_mem_nil) (f2 t2)
          rw [nil_mergeDesc] at hrest ⊢
          rw [List.map_cons, List.map_nil, mergeFrom]
          show emit _ _ [t2] prev1 (f2 t2) (mergeFrom _ _ ([].map (pointAt f1)) _ prev1 (f2 t2)) = _
          rw [hrest]
          exact emit_right hpos hneg (fun u hu => absurd hu List.not_mem_nil) ht2
            (fun u hu => (ht2 u hu).le) prev1 prev2
  | cons t1 ts1 ih1 =>
      obtain ⟨ht1, hts1⟩ := List.pairwise_cons.mp h1
      induction ts2 generalizing prev2 with
      | nil =>
          have hrest := ih1 hts1 h2 (fun t ht => List.not_mem_nil) (f1 t1) prev2
          rw [mergeDesc_nil] at hrest ⊢
          rw [List.map_cons, List.map_nil, mergeFrom]
          show emit _ _ [t1] (f1 t1) prev2 (mergeFrom _ _ _ ([].map (pointAt f2)) (f1 t1) prev2) = _
          rw [hrest]
          exact emit_left hpos hneg ht1 (fun u hu => absurd hu List.not_mem_nil)
            (fun u hu => (ht1 u hu).le) prev1 prev2
      | cons t2 ts2 ih2 =>
          obtain ⟨ht2, hts2⟩ := List.pairwise_cons.mp h2
          rw [List.map_cons, List.map_cons, mergeFrom, mergeDesc_cons_cons]
          show (if max t1 t2 ≤ t1 then if max t1 t2 ≤ t2 then _ else _ else _) = _
          rcases lt_trichotomy t1 t2 with hlt | heq | hgt
          · -- the second side goes on
            have hbelow := lt_of_mem_cons ht1 hlt
            have hrest := ih2 hts2 (fun t ht hmem => hdisjoint t ht (List.mem_cons_of_mem _ hmem))
              (f2 t2)
            rw [if_neg (by simpa using hlt), if_neg (not_le.mpr hlt)]
            show emit _ _ [t2] prev1 (f2 t2)
              (mergeFrom _ _ ((t1 :: ts1).map (pointAt f1)) _ prev1 (f2 t2)) = _
            rw [hrest]
            exact emit_right hpos hneg hbelow ht2
              (fun u hu => (lt_of_mem_mergeDesc hbelow ht2 u hu).le) prev1 prev2
          · exact absurd (heq ▸ List.mem_cons_self) (hdisjoint t1 List.mem_cons_self)
          · -- the first side goes on
            have hbelow := lt_of_mem_cons ht2 hgt
            have hrest := ih1 hts1 h2 (fun t ht => hdisjoint t (List.mem_cons_of_mem _ ht)) (f1 t1)
              prev2
            rw [if_pos (by simpa using hgt.le), if_neg (by simpa using hgt), if_pos hgt.le]
            show emit _ _ [t1] (f1 t1) prev2
              (mergeFrom _ _ _ ((t2 :: ts2).map (pointAt f2)) (f1 t1) prev2) = _
            rw [hrest]
            exact emit_left hpos hneg ht1 hbelow
              (fun u hu => (lt_of_mem_mergeDesc ht1 hbelow u hu).le) prev1 prev2

end Merged

/-! ## Curves with a shared threshold -/

section Shared

variable {α : Type} {positive_weights negative_weights : ℕ × ℕ}

/-- A round appends one rate and the thresholds that it is given. -/
theorem length_emit {thresholds : List α} {prev1 prev2 : Rates} {rest : Option (Merged α)}
    {m : Merged α} {k : ℕ}
    (h : emit positive_weights negative_weights thresholds prev1 prev2 rest = some m)
    (hrest : ∀ m', rest = some m' → m'.fpr_merge.length + k ≤ m'.thresholds_merge.length) :
    m.fpr_merge.length + k + thresholds.length ≤ m.thresholds_merge.length + 1 := by
  obtain ⟨fpr, -, h⟩ := Option.bind_eq_some_iff.mp h
  obtain ⟨tpr, -, h⟩ := Option.bind_eq_some_iff.mp h
  obtain ⟨m', hsome, h⟩ := Option.bind_eq_some_iff.mp h
  obtain rfl := Option.some.inj h
  have hk := hrest m' hsome
  simp only [List.length_cons, List.length_append]
  omega

variable [LinearOrder α]

theorem length_mergeFrom_le (l1 l2 : List (Point α)) (prev1 prev2 : Rates) {m : Merged α}
    (h : mergeFrom positive_weights negative_weights l1 l2 prev1 prev2 = some m) :
    m.fpr_merge.length ≤ m.thresholds_merge.length := by
  fun_induction mergeFrom positive_weights negative_weights l1 l2 prev1 prev2 generalizing m with
  | case1 prev1 prev2 =>
      obtain rfl := Option.some.inj h
      exact le_rfl
  | case2 p2 rest2 prev1 prev2 ih | case3 p1 rest1 prev1 prev2 ih =>
      have := length_emit (k := 0) h fun m' => ih
      simp only [List.length_singleton] at this
      omega
  | case4 p1 rest1 p2 rest2 prev1 prev2 score hle1 hle2 =>
      rename_i ih
      have := length_emit (k := 0) h fun m' => ih
      simp only [List.length_cons, List.length_nil] at this
      omega
  | case5 p1 rest1 p2 rest2 prev1 prev2 score hle1 hle2 =>
      rename_i ih
      have := length_emit (k := 0) h fun m' => ih
      simp only [List.length_singleton] at this
      omega
  | case6 p1 rest1 p2 rest2 prev1 prev2 score hle1 =>
      rename_i ih
      have := length_emit (k := 0) h fun m' => ih
      simp only [List.length_singleton] at this
      omega

/-- A threshold of two descending lists is behind a first one above the other list's first. -/
theorem mem_tail_of_lt {ts1 ts2 : List α} {t t1 t2 : α} (h2 : (t2 :: ts2).Pairwise (· > ·))
    (hlt : t2 < t1) (ht1 : t ∈ t1 :: ts1) (ht2 : t ∈ t2 :: ts2) : t ∈ ts1 := by
  rcases List.mem_cons.mp ht1 with rfl | ht1
  · exact absurd ht2 fun hmem => absurd
      (lt_of_mem_cons (List.pairwise_cons.mp h2).1 hlt t hmem) (lt_irrefl t)
  · exact ht1

/-- **A shared threshold** is appended twice in one round. -/
theorem length_mergeFrom_lt (l1 l2 : List (Point α)) (prev1 prev2 : Rates) {m : Merged α}
    (h : mergeFrom positive_weights negative_weights l1 l2 prev1 prev2 = some m)
    (h1 : (l1.map Point.threshold).Pairwise (· > ·))
    (h2 : (l2.map Point.threshold).Pairwise (· > ·)) {t : α} (ht1 : t ∈ l1.map Point.threshold)
    (ht2 : t ∈ l2.map Point.threshold) :
    m.fpr_merge.length < m.thresholds_merge.length := by
  fun_induction mergeFrom positive_weights negative_weights l1 l2 prev1 prev2 generalizing m with
  | case1 prev1 prev2 => cases ht1
  | case2 p2 rest2 prev1 prev2 ih => cases ht1
  | case3 p1 rest1 prev1 prev2 ih => cases ht2
  | case4 p1 rest1 p2 rest2 prev1 prev2 score hle1 hle2 =>
      have := length_emit (k := 0) h fun m' => length_mergeFrom_le _ _ _ _
      simp only [List.length_cons, List.length_nil] at this
      omega
  | case5 p1 rest1 p2 rest2 prev1 prev2 score hle1 hle2 =>
      rename_i ih
      have hlt : p2.threshold < p1.threshold :=
        (lt_max_iff.mp (not_le.mp hle2)).resolve_right (lt_irrefl _)
      have := length_emit (k := 1) h fun m' hm' =>
        ih hm' (List.pairwise_cons.mp h1).2 h2 (mem_tail_of_lt h2 hlt ht1 ht2) ht2
      simp only [List.length_singleton] at this
      omega
  | case6 p1 rest1 p2 rest2 prev1 prev2 score hle1 =>
      rename_i ih
      have hlt : p1.threshold < p2.threshold :=
        (lt_max_iff.mp (not_le.mp hle1)).resolve_left (lt_irrefl _)
      have := length_emit (k := 1) h fun m' hm' =>
        ih hm' h1 (List.pairwise_cons.mp h2).2 ht1 (mem_tail_of_lt h1 hlt ht2 ht1)
      simp only [List.length_singleton] at this
      omega

end Shared

/-! ## When the curve is that of the pooled examples -/

section Pools

variable {α : Type} [LinearOrder α] {c1 c2 : Client α}

namespace Client

variable (c : Client α)

def ratesAt (t : α) : Rates := ⟨rate c.negative t, rate c.positive t⟩

theorem curve_thresholds : c.curve.map Point.threshold = c.thresholds := by
  rw [curve, List.map_map]
  exact List.map_id _

/-- The last rates of the client at `t`. -/
def last (t : α) : Rates := lastValue c.ratesAt c.thresholds ⟨0, 0⟩ t

/-- At its own thresholds a client has its own rates. -/
theorem last_of_mem {t : α} (ht : t ∈ c.thresholds) : c.last t = c.ratesAt t :=
  lastValue_of_mem c.descending ht

/-- The last rates are those at `t` exactly when no score of the client lies between. -/
theorem last_eq_iff (t : α) :
    ((c.last t).fpr = rate c.negative t ∧ (c.last t).tpr = rate c.positive t) ↔
      ∀ s ∈ c.positive ++ c.negative, t ≤ s → ∃ u ∈ c.thresholds, t ≤ u ∧ u ≤ s := by
  have hfpr : (c.last t).fpr = lastValue (rate c.negative) c.thresholds 0 t :=
    map_lastValue Rates.fpr c.ratesAt c.thresholds ⟨0, 0⟩ t
  have htpr : (c.last t).tpr = lastValue (rate c.positive) c.thresholds 0 t :=
    map_lastValue Rates.tpr c.ratesAt c.thresholds ⟨0, 0⟩ t
  rw [hfpr, htpr, lastValue_rate_iff c.negative_ne_nil c.descending,
    lastValue_rate_iff c.positive_ne_nil c.descending]
  constructor
  · rintro ⟨hneg, hpos⟩ s hs
    rcases List.mem_append.mp hs with hs | hs
    · exact hpos s hs
    · exact hneg s hs
  · intro h
    exact ⟨fun s hs => h s (List.mem_append_right _ hs), fun s hs => h s (List.mem_append_left _ hs)⟩

end Client

theorem positive_weight (c : Client α) : 0 < c.positive.length :=
  List.length_pos_iff.mpr c.positive_ne_nil

theorem negative_weight (c : Client α) : 0 < c.negative.length :=
  List.length_pos_iff.mpr c.negative_ne_nil

theorem mergeClients_eq (hdisjoint : ∀ t ∈ c1.thresholds, t ∉ c2.thresholds) :
    mergeClients c1 c2 = some (mergedOf (c1.positive.length, c2.positive.length)
      (c1.negative.length, c2.negative.length) c1.last c2.last
      (mergeDesc c1.thresholds c2.thresholds)) :=
  mergeFrom_eq c1.ratesAt c2.ratesAt (positive_weight c1) (negative_weight c1) c1.descending
    c2.descending hdisjoint ⟨0, 0⟩ ⟨0, 0⟩

/-- The merged thresholds descend. -/
theorem pairwise_mergeDesc {ts1 ts2 : List α} (h1 : ts1.Pairwise (· > ·))
    (h2 : ts2.Pairwise (· > ·)) (hdisjoint : ∀ t ∈ ts1, t ∉ ts2) :
    (mergeDesc ts1 ts2).Pairwise (· > ·) := by
  induction ts1 generalizing ts2 with
  | nil => rwa [nil_mergeDesc]
  | cons t1 ts1 ih1 =>
      obtain ⟨ht1, hts1⟩ := List.pairwise_cons.mp h1
      induction ts2 with
      | nil => rwa [mergeDesc_nil]
      | cons t2 ts2 ih2 =>
          obtain ⟨ht2, hts2⟩ := List.pairwise_cons.mp h2
          rw [mergeDesc_cons_cons]
          split
          · next hle =>
            have hlt : t2 < t1 := lt_of_le_of_ne hle fun heq =>
              hdisjoint t1 List.mem_cons_self (heq ▸ List.mem_cons_self)
            have hrest := ih1 hts1 h2 fun t ht => hdisjoint t (List.mem_cons_of_mem _ ht)
            exact List.pairwise_cons.mpr
              ⟨lt_of_mem_mergeDesc ht1 (lt_of_mem_cons ht2 hlt), hrest⟩
          · next hle =>
            have hlt : t1 < t2 := not_le.mp hle
            have hrest := ih2 hts2 fun t ht hmem => hdisjoint t ht (List.mem_cons_of_mem _ hmem)
            exact List.pairwise_cons.mpr
              ⟨lt_of_mem_mergeDesc (lt_of_mem_cons ht1 hlt) ht2, hrest⟩

/-- The averages of two rates are those of the pooled examples at `t`. -/
def Right (c1 c2 : Client α) (t : α) (r1 r2 : Rates) : Prop :=
  averageOf r1.fpr r2.fpr (c1.negative.length, c2.negative.length) =
      rate (c1.negative ++ c2.negative) t ∧
    averageOf r1.tpr r2.tpr (c1.positive.length, c2.positive.length) =
      rate (c1.positive ++ c2.positive) t

theorem pools_mergedOf_iff {r1 r2 : α → Rates} {ts : List α} (hts : ts.Pairwise (· > ·)) :
    Pools c1 c2 (mergedOf (c1.positive.length, c2.positive.length)
        (c1.negative.length, c2.negative.length) r1 r2 ts) ↔
      ∀ t ∈ ts, Right c1 c2 t (r1 t) (r2 t) := by
  constructor
  · intro h t ht
    obtain ⟨i, hi⟩ := List.mem_iff_getElem?.mp ht
    obtain ⟨hfpr, htpr⟩ := h.rates i t hi
    rw [mergedOf, List.getElem?_map, hi] at hfpr htpr
    exact ⟨Option.some.inj hfpr, Option.some.inj htpr⟩
  · intro h
    refine ⟨List.length_map _, List.length_map _, hts, ?_⟩
    intro i t hi
    obtain ⟨hfpr, htpr⟩ := h t (List.mem_of_getElem? hi)
    rw [mergedOf, List.getElem?_map, List.getElem?_map, ← hfpr, ← htpr]
    have hi : ts[i]? = some t := hi
    rw [hi]
    exact ⟨rfl, rfl⟩

/-- At a threshold of the first client, the rates are right when those of the second one are. -/
theorem right_last_left {t : α} (ht : t ∈ c1.thresholds) :
    Right c1 c2 t (c1.last t) (c2.last t) ↔
      (c2.last t).fpr = rate c2.negative t ∧ (c2.last t).tpr = rate c2.positive t := by
  rw [Right, rate_append c1.negative_ne_nil c2.negative_ne_nil,
    rate_append c1.positive_ne_nil c2.positive_ne_nil, c1.last_of_mem ht]
  exact and_congr (averageOf_right_inj (negative_weight c2))
    (averageOf_right_inj (positive_weight c2))

theorem right_last_right {t : α} (ht : t ∈ c2.thresholds) :
    Right c1 c2 t (c1.last t) (c2.last t) ↔
      (c1.last t).fpr = rate c1.negative t ∧ (c1.last t).tpr = rate c1.positive t := by
  rw [Right, rate_append c1.negative_ne_nil c2.negative_ne_nil,
    rate_append c1.positive_ne_nil c2.positive_ne_nil, c2.last_of_mem ht]
  exact and_congr (averageOf_left_inj (negative_weight c1))
    (averageOf_left_inj (positive_weight c1))

/-- With a shared threshold the lists have different lengths. -/
theorem not_merges_of_shared {t : α} (h1 : t ∈ c1.thresholds) (h2 : t ∈ c2.thresholds) :
    ¬ Merges c1 c2 := by
  rintro ⟨m, hm, hpools⟩
  have hlt := length_mergeFrom_lt c1.curve c2.curve ⟨0, 0⟩ ⟨0, 0⟩ hm
    (c1.curve_thresholds ▸ c1.descending) (c2.curve_thresholds ▸ c2.descending)
    (c1.curve_thresholds ▸ h1) (c2.curve_thresholds ▸ h2)
  exact absurd hpools.length_fpr hlt.ne

/-- **Which curves are merged into the pooled one**: those that share no threshold, where each
client has a threshold of its own at or above every threshold of the other one that a score of it
reaches. -/
theorem merges_iff (c1 c2 : Client α) :
    Merges c1 c2 ↔ (∀ t ∈ c1.thresholds, t ∉ c2.thresholds) ∧
      c1.Covers c2.thresholds ∧ c2.Covers c1.thresholds := by
  constructor
  · intro h
    have hdisjoint : ∀ t ∈ c1.thresholds, t ∉ c2.thresholds := fun t h1 h2 =>
      not_merges_of_shared h1 h2 h
    obtain ⟨m, hm, hpools⟩ := h
    rw [mergeClients_eq hdisjoint] at hm
    obtain rfl := Option.some.inj hm
    have hrates := (pools_mergedOf_iff
      (pairwise_mergeDesc c1.descending c2.descending hdisjoint)).mp hpools
    refine ⟨hdisjoint, ?_, ?_⟩
    · intro t ht
      exact (c1.last_eq_iff t).mp ((right_last_right ht).mp (hrates t (mem_mergeDesc.mpr (Or.inr ht))))
    · intro t ht
      exact (c2.last_eq_iff t).mp ((right_last_left ht).mp (hrates t (mem_mergeDesc.mpr (Or.inl ht))))
  · rintro ⟨hdisjoint, hcovers1, hcovers2⟩
    refine ⟨_, mergeClients_eq hdisjoint, ?_⟩
    rw [pools_mergedOf_iff (pairwise_mergeDesc c1.descending c2.descending hdisjoint)]
    intro t ht
    rcases mem_mergeDesc.mp ht with ht | ht
    · exact (right_last_left ht).mpr ((c2.last_eq_iff t).mpr (hcovers2 t ht))
    · exact (right_last_right ht).mpr ((c1.last_eq_iff t).mpr (hcovers1 t ht))

end Pools

/-- A client with a positive example that scores 2 and a negative one that scores 1. -/
def twoScores : Client ℕ where
  positive := [2]
  negative := [1]
  thresholds := [2, 1]
  positive_ne_nil := List.cons_ne_nil _ _
  negative_ne_nil := List.cons_ne_nil _ _
  descending := by simp

/-- Two such clients share their thresholds. -/
theorem not_merges_twoScores : ¬ Merges twoScores twoScores :=
  not_merges_of_shared (t := 2) List.mem_cons_self List.mem_cons_self

end Fediux.Metrics
