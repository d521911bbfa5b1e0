import Mathlib

set_option autoImplicit false

/-! # Grouping by a key and running sums

`groupKeys key rows` lists the keys of the rows once each, in their order, and `groupRows` the
rows of one key. When values of the keys are added up in their order, the entry of a key sums up
the keys that are not above it (`runningFrom_map`); where the values are sums over the groups,
this is the sum over the rows whose key is not above it (`sumOf_groupRows_le`).
-/

namespace Grouping

variable {α κ M : Type}

/-! ## Sums over a part of the rows -/

/-- The sum of `f` over the rows. -/
def sumOf [AddCommMonoid M] (f : α → M) (rows : List α) : M := (rows.map f).sum

section Sums

variable [AddCommMonoid M]

@[simp] theorem sumOf_nil (f : α → M) : sumOf f ([] : List α) = 0 := rfl

@[simp] theorem sumOf_cons (f : α → M) (r : α) (rows : List α) :
    sumOf f (r :: rows) = f r + sumOf f rows := by
  simp [sumOf]

theorem sumOf_add (f g : α → M) (rows : List α) :
    sumOf (fun r => f r + g r) rows = sumOf f rows + sumOf g rows := by
  induction rows with
  | nil => simp
  | cons r rows ih =>
      rw [sumOf_cons, sumOf_cons, sumOf_cons, ih]
      exact add_add_add_comm _ _ _ _

/-- A map that keeps sums goes out of them. -/
theorem sumOf_hom {N : Type} [AddCommMonoid N] (φ : M →+ N) (f : α → M) (rows : List α) :
    sumOf (fun r => φ (f r)) rows = φ (sumOf f rows) := by
  induction rows with
  | nil => simp
  | cons r rows ih => rw [sumOf_cons, sumOf_cons, ih, map_add]

theorem sumOf_sub {G : Type} [AddCommGroup G] (f g : α → G) (rows : List α) :
    sumOf (fun r => f r - g r) rows = sumOf f rows - sumOf g rows := by
  induction rows with
  | nil => simp
  | cons r rows ih =>
      rw [sumOf_cons, sumOf_cons, sumOf_cons, ih]
      exact (add_sub_add_comm _ _ _ _).symm

/-- Two parts without a common row. -/
theorem sumOf_filter_or (f : α → M) (p q : α → Bool) (rows : List α)
    (h : ∀ r ∈ rows, ¬ (p r = true ∧ q r = true)) :
    sumOf f (rows.filter fun r => p r || q r) =
      sumOf f (rows.filter p) + sumOf f (rows.filter q) := by
  induction rows with
  | nil => simp
  | cons r rows ih =>
      have hr := h r (List.mem_cons_self ..)
      have ih' := ih fun r' hr' => h r' (List.mem_cons_of_mem _ hr')
      cases hp : p r <;> cases hq : q r
      · simp [hp, hq, ih']
      · simp [hp, hq, ih', add_left_comm]
      · simp [hp, hq, ih', add_assoc]
      · exact absurd ⟨hp, hq⟩ hr

/-- What a part `p` has more than `q`, and `q` more than `p`. -/
theorem sumOf_filter_add_sdiff (f : α → M) (p q : α → Bool) (rows : List α) :
    sumOf f (rows.filter p) + sumOf f (rows.filter fun r => q r && !p r) =
      sumOf f (rows.filter q) + sumOf f (rows.filter fun r => p r && !q r) := by
  induction rows with
  | nil => simp
  | cons r rows ih =>
      cases hp : p r <;> cases hq : q r
      · simpa [hp, hq] using ih
      · simp [hp, hq, add_left_comm, add_assoc, ih]
      · simp [hp, hq, add_left_comm, add_assoc, ih]
      · simp [hp, hq, add_assoc, ih]

end Sums

/-! ## Groups -/

section Groups

variable [LinearOrder κ] (key : α → κ)

def groupKeys (rows : List α) : List κ := (rows.map key).dedup.insertionSort (· ≤ ·)

def groupRows (rows : List α) (k : κ) : List α := rows.filter fun r => decide (key r = k)

theorem mem_groupKeys {rows : List α} {k : κ} :
    k ∈ groupKeys key rows ↔ ∃ r ∈ rows, key r = k := by
  rw [groupKeys, List.mem_insertionSort, List.mem_dedup, List.mem_map]

theorem nodup_groupKeys (rows : List α) : (groupKeys key rows).Nodup :=
  (List.perm_insertionSort _ _).nodup_iff.mpr (List.nodup_dedup _)

theorem pairwise_le_groupKeys (rows : List α) : (groupKeys key rows).Pairwise (· ≤ ·) :=
  List.pairwise_insertionSort _ _

/-- Every key comes once and behind the smaller ones. -/
theorem pairwise_groupKeys (rows : List α) : (groupKeys key rows).Pairwise (· < ·) := by
  have hle := pairwise_le_groupKeys key rows
  have hne : (groupKeys key rows).Pairwise (· ≠ ·) := nodup_groupKeys key rows
  exact hle.imp₂ (fun _ _ hab hab' => lt_of_le_of_ne hab hab') hne

theorem groupKeys_map {β : Type} (e : β → α) (rows : List β) :
    groupKeys key (rows.map e) = groupKeys (fun r => key (e r)) rows := by
  simp [groupKeys, Function.comp_def]

theorem groupRows_map {β : Type} (e : β → α) (rows : List β) (k : κ) :
    groupRows key (rows.map e) k = (groupRows (fun r => key (e r)) rows k).map e := by
  simp [groupRows, List.filter_map, Function.comp_def]

theorem groupKeys_ne_nil {rows : List α} (h : rows ≠ []) : groupKeys key rows ≠ [] := by
  intro hnil
  cases rows with
  | nil => exact h rfl
  | cons r rows =>
      have hmem : key r ∈ groupKeys key (r :: rows) :=
        (mem_groupKeys key).mpr ⟨r, List.mem_cons_self .., rfl⟩
      rw [hnil] at hmem
      exact List.not_mem_nil hmem

theorem groupRows_ne_nil {rows : List α} {k : κ} (hk : k ∈ groupKeys key rows) :
    groupRows key rows k ≠ [] := by
  rcases (mem_groupKeys key).mp hk with ⟨r, hr, hrk⟩
  apply List.ne_nil_of_mem (a := r)
  simp [groupRows, hr, hrk]

/-- Groups with the keys `ks`, put together. -/
theorem sumOf_groupRows [AddCommMonoid M] (f : α → M) (rows : List α) (ks : List κ)
    (hks : ks.Nodup) :
    sumOf (fun k => sumOf f (groupRows key rows k)) ks =
      sumOf f (rows.filter fun r => decide (key r ∈ ks)) := by
  induction ks with
  | nil => simp
  | cons k ks ih =>
      have hk : k ∉ ks := (List.nodup_cons.mp hks).1
      rw [sumOf_cons, ih (List.nodup_cons.mp hks).2, groupRows, ← sumOf_filter_or]
      · simp only [List.mem_cons, Bool.decide_or]
      · rintro r _ ⟨hrk, hrks⟩
        exact hk (of_decide_eq_true hrk ▸ of_decide_eq_true hrks)

/-- The groups whose key is not above `c`. -/
theorem sumOf_groupRows_le [AddCommMonoid M] (f : α → M) (rows : List α) (c : κ) :
    sumOf (fun k => sumOf f (groupRows key rows k))
        ((groupKeys key rows).filter fun k => decide (k ≤ c)) =
      sumOf f (rows.filter fun r => decide (key r ≤ c)) := by
  rw [sumOf_groupRows key f rows _ ((nodup_groupKeys key rows).filter _)]
  congr 1
  apply List.filter_congr
  intro r hr
  have hmem : key r ∈ groupKeys key rows := (mem_groupKeys key).mpr ⟨r, hr, rfl⟩
  simp [hmem]

end Groups

/-! ## Running sums -/

section Running

variable [AddCommMonoid M]

def runningFrom (acc : M) : List M → List M
  | [] => []
  | x :: xs => (acc + x) :: runningFrom (acc + x) xs

/-- **Running sums**: in a list of keys in their order the entry of a key sums up the keys that
are not above it. -/
theorem runningFrom_map [LinearOrder κ] (f : κ → M) (acc : M) (ks : List κ)
    (hks : ks.Pairwise (· < ·)) :
    runningFrom acc (ks.map f) =
      ks.map fun c => acc + sumOf f (ks.filter fun k => decide (k ≤ c)) := by
  induction ks generalizing acc with
  | nil => rfl
  | cons k ks ih =>
      have hlt : ∀ c ∈ ks, k < c := (List.pairwise_cons.mp hks).1
      have hnone : ks.filter (fun c => decide (c ≤ k)) = [] := by
        apply List.filter_eq_nil_iff.mpr
        intro c hc
        simpa using hlt c hc
      rw [List.map_cons, runningFrom, ih _ (List.pairwise_cons.mp hks).2, List.map_cons]
      congr 1
      · simp [hnone]
      · apply List.map_congr_left
        intro c hc
        simp [(hlt c hc).le, add_assoc]

end Running

end Grouping
