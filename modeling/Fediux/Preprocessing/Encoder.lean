import Fediux.Basic.Counter
import Fediux.Basic.Fallible

set_option autoImplicit false

/-! # Infrequent categories

`_BaseEncoder._Hfit` of `python/fediux/FL/preprocessing/encoder.py` with `min_frequency`, with
`items_union` of `FL/stats/union.py` and the frequent items of `FL/sketch/fi.py`, whose sketches are
exact counters here. A client sends only the categories that are rare among its own rows, so the
server counts a category that is common at one client by its rows at the other ones
(`assignsInfrequent_iff`).
-/

namespace Fediux.Preprocessing.Encoder

open Counter

inductive Err where
  | IndexError
  | TypeError
  | ValueError
  deriving DecidableEq, Repr

/-- `min_frequency`, in the bounds that scikit-learn allows. -/
inductive MinFrequency where
  | integer (n : ℕ) (one_le : 1 ≤ n)
  | fraction (q : ℚ) (pos : 0 < q) (lt_one : q < 1)

/-- The table of a client. A missing value is `none`. -/
structure Client (α : Type) (columns : ℕ) where
  n_samples : ℕ
  x : Fin n_samples → Fin columns → Option α

def Client.column {α : Type} {columns : ℕ} (X : Client α columns) (f : Fin columns) :
    List (Option α) :=
  List.ofFn fun r => X.x r f

/-- The parameters of the encoder and the clients. `categories` is `none` for `"auto"`, `times` is
the product of floats, and the order of items with equal counts is left open. -/
structure Setup (α : Type) [LinearOrder α] where
  columns : ℕ
  clients : List (Client α columns)
  categories : Option (List (List α))
  min_frequency : MinFrequency
  times : ℚ → ℕ → ℚ
  ranking : Ranking (Option α)

/-- `self.categories_` and `self._infrequent_indices`. -/
structure Fitted (α : Type) (columns : ℕ) where
  categories : Fin columns → List (Option α)
  infrequent_indices : List (Option (List ℕ))

section Columns

variable {α : Type} [LinearOrder α]

/-- `_unique`: the sorted values, and a missing one at the end. -/
def unique (values : List (Option α)) : List (Option α) :=
  (values.reduceOption.dedup.insertionSort (· ≤ ·)).map some ++
    if none ∈ values then [none] else []

/-- What a client sends to the server about a column: the categories whose counts are below
`min_frequency`, without the missing one. -/
def local_items (min_frequency : ℚ) (values : List (Option α)) : Log (Option α) :=
  let category_counts := (unique values).map fun c => (c, values.count c)
  let category_counts :=
    if (unique values).getLast? = some none then category_counts.dropLast else category_counts
  category_counts.filter fun c => c.2 < min_frequency

/-- The infrequent categories of a column by their places among all categories. -/
def infrequent (ranking : Ranking (Option α)) (min_frequency : ℚ) (categories : List (Option α))
    (sketch : Log (Option α)) : Except Err (Option (List ℕ)) :=
  let freq_items := ranking.rank sketch 0
  let infreq_items := freq_items.dropWhile fun c => min_frequency ≤ c.2
  if infreq_items = [] then .ok none
  else do
    let infreq_indices ← infreq_items.mapM fun c =>
      match categories.idxOf? c.1 with
      | none => .error .IndexError
      | some i => .ok i
    return some (infreq_indices.insertionSort (· ≤ ·))

variable {columns : ℕ}

/-- The categories of a client in `_fit`. `check_array` refuses a column without rows. -/
def client_categories (X : Client α columns) : Except Err (Fin columns → List (Option α)) :=
  if 0 < columns ∧ X.n_samples = 0 then .error .ValueError
  else .ok fun f => unique (X.column f)

/-- `items_union`. -/
def items_union : List (Fin columns → List (Option α)) →
    Except Err (Fin columns → List (Option α))
  | [] => .error .IndexError
  | items => .ok fun f => unique (items.flatMap fun item => item f)

/-- `send_local_fi_sketch`. `check_inputdim` reads the first column. -/
def send_local_fi_sketch (min_frequency : ℚ) (X : Client α columns) :
    Except Err (Fin columns → Log (Option α)) :=
  if columns = 0 then .error .IndexError
  else .ok fun f => local_items min_frequency (X.column f)

/-- `merge_local_fi_sketch`. -/
def merge_local_fi_sketch (sketches : List (Fin columns → Log (Option α))) (f : Fin columns) :
    Log (Option α) :=
  sketches.flatMap fun sketch => sketch f

end Columns

namespace Setup

variable {α : Type} [LinearOrder α] (S : Setup α)

/-- `min_frequency` of the server, of the rows of all clients. -/
def threshold : ℚ :=
  match S.min_frequency with
  | .integer n _ => n
  | .fraction q _ _ => S.times q (S.clients.map Client.n_samples).sum

/-- `_Hfit` of the clients and the server with `max_categories=None`. With given categories the
server runs `for i in len(self.categories)`. -/
def Hfit : Except Err (Fitted α S.columns) :=
  match S.categories with
  | some _ => .error .TypeError
  | none => do
      let local_categories ← S.clients.mapM client_categories
      let categories ← items_union local_categories
      let sketches ← S.clients.mapM (send_local_fi_sketch S.threshold)
      let infrequent_indices ← (List.finRange S.columns).mapM fun f =>
        infrequent S.ranking S.threshold (categories f) (merge_local_fi_sketch sketches f)
      return { categories := categories, infrequent_indices := infrequent_indices }

end Setup

/-- `infrequent_categories_` of a column. -/
def Fitted.infrequent_categories {α : Type} {columns : ℕ} (fit : Fitted α columns)
    (f : Fin columns) : List (Option α) :=
  ((fit.infrequent_indices[f.val]?.getD none).getD []).filterMap fun i => (fit.categories f)[i]?

namespace Setup

variable {α : Type} [LinearOrder α] (S : Setup α)

/-- The rows of all clients with a category. -/
def total (f : Fin S.columns) (c : Option α) : ℕ :=
  (S.clients.map fun X => (X.column f).count c).sum

/-- The rows that the server hears of. -/
def sent (f : Fin S.columns) (c : Option α) : ℕ :=
  (S.clients.map fun X =>
    if ((X.column f).count c : ℚ) < S.threshold then (X.column f).count c else 0).sum

/-- The infrequent categories of every column are the non-missing categories that have fewer rows
than the threshold. -/
def AssignsInfrequent : Prop :=
  ∃ fit, S.Hfit = .ok fit ∧ ∀ f c, c ∈ fit.infrequent_categories f ↔
    c ≠ none ∧ 0 < S.total f c ∧ (S.total f c : ℚ) < S.threshold

/-- No category that some client finds common enough is rare, yet there, in the tables of the
others. -/
def NoRareRest : Prop :=
  ∀ f c, c ≠ none → 0 < S.sent f c → (S.sent f c : ℚ) < S.threshold →
    ∀ X ∈ S.clients, ((X.column f).count c : ℚ) < S.threshold

/-- The encoder is fitted: it has to find the categories, and nobody's table is empty. -/
structure Fits : Prop where
  auto : S.categories = none
  clients : S.clients ≠ []
  columns : 0 < S.columns
  rows : ∀ X ∈ S.clients, X.n_samples ≠ 0

end Setup

/-! ## One column -/

section Columns

variable {α : Type} [LinearOrder α] {values : List (Option α)}

theorem mem_unique {c : Option α} : c ∈ unique values ↔ c ∈ values := by
  cases c with
  | none => simp [unique]
  | some a => simp [unique, List.reduceOption_mem_iff]

theorem nodup_unique : (unique values).Nodup := by
  have hknown : (values.reduceOption.dedup.insertionSort (· ≤ ·)).Nodup :=
    (List.perm_insertionSort _ _).nodup_iff.mpr (List.nodup_dedup _)
  refine (hknown.map (Option.some_injective α)).append ?_ ?_
  · split <;> simp
  · intro c hc hc'
    split at hc'
    · obtain ⟨a, _, rfl⟩ := List.mem_map.mp hc
      simp at hc'
    · cases hc'

/-- What a client sends: the known categories with few rows. -/
theorem local_items_eq (t : ℚ) : local_items t values =
    ((values.reduceOption.dedup.insertionSort (· ≤ ·)).map fun a =>
      (some a, values.count (some a))).filter fun c => c.2 < t := by
  by_cases hmissing : none ∈ values
  · have hunique : unique values =
        (values.reduceOption.dedup.insertionSort (· ≤ ·)).map some ++ [none] := by
      rw [unique, if_pos hmissing]
    simp only [local_items, hunique, List.getLast?_concat, if_true, List.map_append,
      List.map_cons, List.map_nil, List.dropLast_concat, List.map_map]
    rfl
  · have hunique : unique values =
        (values.reduceOption.dedup.insertionSort (· ≤ ·)).map some := by
      rw [unique, if_neg hmissing, List.append_nil]
    have hlast : (unique values).getLast? ≠ some none := by
      intro hlast
      exact hmissing (mem_unique.mp (List.mem_of_getLast? hlast))
    simp only [local_items, if_neg hlast]
    rw [hunique, List.map_map]
    rfl

theorem mem_local_items {t : ℚ} {c : Option α} {w : ℕ} :
    (c, w) ∈ local_items t values ↔
      c ≠ none ∧ c ∈ values ∧ w = values.count c ∧ (w : ℚ) < t := by
  simp only [local_items_eq, List.mem_filter, List.mem_map, List.mem_insertionSort,
    List.mem_dedup, List.reduceOption_mem_iff, Prod.mk.injEq, decide_eq_true_eq]
  constructor
  · rintro ⟨⟨a, ha, rfl, rfl⟩, ht⟩
    exact ⟨Option.some_ne_none a, ha, rfl, ht⟩
  · rintro ⟨hc, hmem, rfl, ht⟩
    obtain ⟨a, rfl⟩ := Option.ne_none_iff_exists'.mp hc
    exact ⟨⟨a, hmem, rfl, rfl⟩, ht⟩

theorem nodup_local_items {t : ℚ} : ((local_items t values).map Prod.fst).Nodup := by
  have hknown : (values.reduceOption.dedup.insertionSort (· ≤ ·)).Nodup :=
    (List.perm_insertionSort _ _).nodup_iff.mpr (List.nodup_dedup _)
  rw [local_items_eq]
  refine List.Nodup.sublist (List.filter_sublist.map Prod.fst) ?_
  rw [List.map_map]
  exact hknown.map (Option.some_injective α)

/-- The counts of a client as the server has them. -/
theorem count_local_items (t : ℚ) {c : Option α} (hc : c ≠ none) :
    count (local_items t values) c =
      if (values.count c : ℚ) < t then values.count c else 0 := by
  by_cases hsent : c ∈ values ∧ (values.count c : ℚ) < t
  · rw [if_pos hsent.2]
    exact count_of_mem nodup_local_items (mem_local_items.mpr ⟨hc, hsent.1, rfl, hsent.2⟩)
  · have hzero : count (local_items t values) c = 0 := by
      refine count_of_forall_ne fun u hu huc => hsent ?_
      obtain ⟨_, hmem, hcount, ht⟩ := mem_local_items.mp hu
      rw [huc] at hmem hcount
      exact ⟨hmem, hcount ▸ ht⟩
    rw [hzero]
    split
    · next ht => exact (List.count_eq_zero.mpr fun hmem => hsent ⟨hmem, ht⟩).symm
    · rfl

theorem count_local_items_none (t : ℚ) : count (local_items t values) none = 0 :=
  count_of_forall_ne fun _ hu hmissing => (mem_local_items.mp hu).1 hmissing

variable {ranking : Ranking (Option α)} {t : ℚ} {categories : List (Option α)}
  {sketch : Log (Option α)}

theorem place_of_mem {c : Option α} (hc : c ∈ categories) :
    (match categories.idxOf? c with
      | none => .error .IndexError
      | some i => .ok i : Except Err ℕ) = .ok (categories.idxOf c) := by
  cases hplace : categories.idxOf? c with
  | none => exact absurd hc (List.idxOf?_eq_none_iff.mp hplace)
  | some i => simp [List.idxOf_eq_getD_idxOf?, hplace]

theorem mem_infreq_items (ranking : Ranking (Option α)) {c : Option α} {w : ℕ} :
    (c, w) ∈ (ranking.rank sketch 0).dropWhile (fun c => t ≤ (c.2 : ℚ)) ↔
      w = count sketch c ∧ 0 < w ∧ (w : ℚ) < t := by
  rw [mem_dropWhile Nat.mono_cast (ranking.descending sketch 0), ranking.mem_rank, not_le,
    and_assoc]

/-- **The cut of the server**: the infrequent categories are those with a count below the
threshold. -/
theorem infrequent_eq_ok (ranking : Ranking (Option α)) (t : ℚ) (h : ∀ c, 0 < count sketch c → c ∈ categories) :
    ∃ indices, infrequent ranking t categories sketch = .ok indices ∧
      ∀ c, c ∈ (indices.getD []).filterMap (fun i => categories[i]?) ↔
        0 < count sketch c ∧ (count sketch c : ℚ) < t := by
  by_cases hnone : (ranking.rank sketch 0).dropWhile (fun c => t ≤ (c.2 : ℚ)) = []
  · refine ⟨none, by rw [infrequent, if_pos hnone], fun c => ?_⟩
    have hempty : ¬ (0 < count sketch c ∧ (count sketch c : ℚ) < t) := by
      intro hc
      have hmem := (mem_infreq_items ranking).mpr ⟨rfl, hc⟩
      rw [hnone] at hmem
      cases hmem
    simpa using hempty
  · have hplaces : ∀ u ∈ (ranking.rank sketch 0).dropWhile (fun c => t ≤ (c.2 : ℚ)),
        u.1 ∈ categories := by
      rintro ⟨c, w⟩ hu
      obtain ⟨rfl, hpos, _⟩ := (mem_infreq_items ranking).mp hu
      exact h c hpos
    have hindices := Fallible.mapM_of_ok fun u hu => place_of_mem (hplaces u hu)
    refine ⟨_, by rw [infrequent, if_neg hnone, hindices]; rfl, fun c => ?_⟩
    simp only [Option.getD_some, List.mem_filterMap, List.mem_insertionSort, List.mem_map]
    constructor
    · rintro ⟨i, ⟨⟨c', w⟩, hu, rfl⟩, hi⟩
      rw [List.getElem?_idxOf (hplaces _ hu), Option.some_inj] at hi
      obtain ⟨rfl, hc⟩ := (mem_infreq_items ranking).mp hu
      exact hi ▸ hc
    · intro hc
      have hu := (mem_infreq_items ranking).mpr ⟨rfl, hc⟩
      exact ⟨_, ⟨_, hu, rfl⟩, List.getElem?_idxOf (hplaces _ hu)⟩

end Columns

namespace Setup

variable {α : Type} [LinearOrder α] {S : Setup α}

/-! ## All clients -/

/-- The merged sketch of a column. -/
def merged (S : Setup α) (f : Fin S.columns) : Log (Option α) :=
  merge_local_fi_sketch (S.clients.map fun X f => local_items S.threshold (X.column f)) f

theorem count_merged {f : Fin S.columns} {c : Option α} (hc : c ≠ none) :
    count (S.merged f) c = S.sent f c := by
  rw [merged, merge_local_fi_sketch, List.flatMap_map, count_flatMap, sent]
  simp only [count_local_items S.threshold hc]

theorem count_merged_none {f : Fin S.columns} : count (S.merged f) none = 0 := by
  rw [merged, merge_local_fi_sketch, List.flatMap_map, count_flatMap]
  simp [count_local_items_none]

theorem sent_le_total (f : Fin S.columns) (c : Option α) : S.sent f c ≤ S.total f c := by
  refine List.sum_le_sum fun X _ => ?_
  split <;> omega

/-- A client that finds a category common does so for the total. -/
theorem count_le_total {f : Fin S.columns} {c : Option α} {X : Client α S.columns}
    (hX : X ∈ S.clients) : (X.column f).count c ≤ S.total f c :=
  List.single_le_sum (by simp) _ (List.mem_map_of_mem hX)

/-- Where all clients find a category rare, the server hears of all its rows. -/
theorem sent_eq_total {f : Fin S.columns} {c : Option α}
    (h : ∀ X ∈ S.clients, ((X.column f).count c : ℚ) < S.threshold) :
    S.sent f c = S.total f c := by
  rw [sent, total]
  exact congrArg List.sum (List.map_congr_left fun X hX => if_pos (h X hX))

theorem mem_union {f : Fin S.columns} {c : Option α} (hc : 0 < S.total f c) :
    c ∈ unique (S.clients.flatMap fun X => unique (X.column f)) := by
  rw [mem_unique, List.mem_flatMap]
  by_contra hnone
  have hzero : S.total f c = 0 := by
    refine List.sum_eq_zero fun n hn => ?_
    obtain ⟨X, hX, rfl⟩ := List.mem_map.mp hn
    exact List.count_eq_zero.mpr fun hmem => hnone ⟨X, hX, mem_unique.mpr hmem⟩
  omega

theorem Fits.Hfit_eq (h : S.Fits) : S.Hfit = do
    let categories : Fin S.columns → List (Option α) :=
      fun f => unique (S.clients.flatMap fun X => unique (X.column f))
    let infrequent_indices ← (List.finRange S.columns).mapM fun f =>
      infrequent S.ranking S.threshold (categories f) (S.merged f)
    return { categories := categories, infrequent_indices := infrequent_indices } := by
  have hcategories : S.clients.mapM client_categories =
      .ok (S.clients.map fun X f => unique (X.column f)) :=
    Fallible.mapM_of_ok fun X hX => if_neg fun hempty => h.rows X hX hempty.2
  have hunion : items_union (S.clients.map fun X f => unique (X.column f)) =
      .ok fun f => unique (S.clients.flatMap fun X => unique (X.column f)) := by
    cases hclients : S.clients with
    | nil => exact absurd hclients h.clients
    | cons X clients => simp [items_union, List.flatMap_map]
  have hsketches : S.clients.mapM (send_local_fi_sketch S.threshold) =
      .ok (S.clients.map fun X f => local_items S.threshold (X.column f)) :=
    Fallible.mapM_of_ok fun X _ => if_neg h.columns.ne'
  rw [Hfit, h.auto]
  simp only [hcategories, hunion, hsketches, bind, Except.bind]
  rfl

/-- **What the encoder assigns**, by what the server hears of. -/
theorem Fits.infrequent_categories (h : S.Fits) : ∃ fit, S.Hfit = .ok fit ∧
    ∀ f c, c ∈ fit.infrequent_categories f ↔
      c ≠ none ∧ 0 < S.sent f c ∧ (S.sent f c : ℚ) < S.threshold := by
  have hcounted : ∀ f c, 0 < count (S.merged f) c →
      c ∈ unique (S.clients.flatMap fun X => unique (X.column f)) := by
    intro f c hc
    cases c with
    | none => exact absurd count_merged_none hc.ne'
    | some a =>
        rw [count_merged (Option.some_ne_none a)] at hc
        exact mem_union (hc.trans_le (sent_le_total f (some a)))
  choose indices hindices hmem using fun f =>
    infrequent_eq_ok S.ranking S.threshold (hcounted f)
  refine ⟨{ categories := fun f => unique (S.clients.flatMap fun X => unique (X.column f))
            infrequent_indices := (List.finRange S.columns).map indices }, ?_, ?_⟩
  · rw [h.Hfit_eq]
    simp only [Fallible.mapM_of_ok fun f (_ : f ∈ List.finRange S.columns) => hindices f]
    rfl
  · intro f c
    have hf : ((List.finRange S.columns).map indices)[f.val]? = some (indices f) := by simp
    simp only [Fitted.infrequent_categories, hf, Option.getD_some]
    rw [hmem f c]
    cases c with
    | none => simp [count_merged_none]
    | some a => simp [count_merged (Option.some_ne_none a)]

/-- An encoder that is fitted can be. -/
theorem fits_of_Hfit {fit : Fitted α S.columns} (h : S.Hfit = .ok fit) : S.Fits := by
  cases hauto : S.categories with
  | some l =>
      rw [Hfit, hauto] at h
      cases h
  | none =>
      rw [Hfit, hauto] at h
      obtain ⟨local_categories, hlocal, h⟩ := Fallible.bind_eq_ok.mp h
      obtain ⟨categories, hunion, h⟩ := Fallible.bind_eq_ok.mp h
      obtain ⟨sketches, hsketches, _⟩ := Fallible.bind_eq_ok.mp h
      have hclients : S.clients ≠ [] := by
        intro hnil
        rw [hnil] at hlocal
        cases hlocal
        cases hunion
      have hcolumns : 0 < S.columns := by
        obtain ⟨X, hX⟩ := List.exists_mem_of_ne_nil _ hclients
        obtain ⟨sketch, hsketch⟩ := Fallible.ok_of_mapM hsketches hX
        by_contra hzero
        rw [send_local_fi_sketch, if_pos (by omega)] at hsketch
        cases hsketch
      refine ⟨hauto, hclients, hcolumns, fun X hX hempty => ?_⟩
      obtain ⟨local', hlocal'⟩ := Fallible.ok_of_mapM hlocal hX
      rw [client_categories, if_pos ⟨hcolumns, hempty⟩] at hlocal'
      cases hlocal'

/-- A common category of one client with a few rows at the others is the one mistake. -/
theorem exact_iff_noRareRest :
    (∀ f c, (c ≠ none ∧ 0 < S.sent f c ∧ (S.sent f c : ℚ) < S.threshold) ↔
      c ≠ none ∧ 0 < S.total f c ∧ (S.total f c : ℚ) < S.threshold) ↔ S.NoRareRest := by
  have hrare : ∀ {f c}, (S.total f c : ℚ) < S.threshold →
      ∀ X ∈ S.clients, ((X.column f).count c : ℚ) < S.threshold := by
    intro f c htotal X hX
    have hle : ((X.column f).count c : ℚ) ≤ S.total f c := by exact_mod_cast count_le_total hX
    exact hle.trans_lt htotal
  constructor
  · intro h f c hc hpos hsent
    exact hrare ((h f c).mp ⟨hc, hpos, hsent⟩).2.2
  · intro h f c
    constructor
    · rintro ⟨hc, hpos, hsent⟩
      have htotal := sent_eq_total (h f c hc hpos hsent)
      exact ⟨hc, htotal ▸ hpos, htotal ▸ hsent⟩
    · rintro ⟨hc, hpos, htotal⟩
      have hsent := sent_eq_total (hrare htotal)
      exact ⟨hc, hsent ▸ hpos, hsent ▸ htotal⟩

theorem AssignsInfrequent.noRareRest (h : S.AssignsInfrequent) : S.NoRareRest := by
  obtain ⟨fit, hfit, hexact⟩ := h
  obtain ⟨fit', hfit', hassigned⟩ := (fits_of_Hfit hfit).infrequent_categories
  obtain rfl : fit = fit' := Except.ok.inj (hfit.symm.trans hfit')
  exact exact_iff_noRareRest.mp fun f c => (hassigned f c).symm.trans (hexact f c)

/-- **The infrequent categories are right exactly when** the encoder can be fitted and no common
category of one client has a rare rest. -/
theorem assignsInfrequent_iff : S.AssignsInfrequent ↔ S.Fits ∧ S.NoRareRest := by
  constructor
  · intro h
    refine ⟨?_, h.noRareRest⟩
    obtain ⟨fit, hfit, _⟩ := h
    exact fits_of_Hfit hfit
  · rintro ⟨hfits, hrest⟩
    obtain ⟨fit, hfit, hassigned⟩ := hfits.infrequent_categories
    exact ⟨fit, hfit, fun f c => (hassigned f c).trans (exact_iff_noRareRest.mpr hrest f c)⟩

/-- Two clients, and a category with 3 rows at the first one and 1 row at the second. -/
def twoClients : Setup ℕ where
  columns := 1
  clients :=
    [{ n_samples := 3, x := fun _ _ => some 0 }, { n_samples := 1, x := fun _ _ => some 0 }]
  categories := none
  min_frequency := .integer 2 (by decide)
  times := fun q n => q * n
  ranking := byInsertion

/-- The category has 4 rows and is infrequent, below a threshold of 2. -/
theorem twoClients_not_assignsInfrequent : ¬ twoClients.AssignsInfrequent := by
  intro h
  have hsent : twoClients.sent (0 : Fin 1) (some 0) = 1 := by decide +kernel
  have hcommon := h.noRareRest (0 : Fin 1) (some 0) (by simp) (by omega)
    (by rw [hsent]; decide +kernel) _ List.mem_cons_self
  revert hcommon
  decide +kernel

end Setup

end Fediux.Preprocessing.Encoder
