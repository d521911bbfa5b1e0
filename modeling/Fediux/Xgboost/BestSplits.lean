import Fediux.Basic.FloatOrder
import Fediux.Basic.Missing

set_option autoImplicit false

/-! # The best split of a node

`search_best_splits` goes through the columns of a table. It makes cuts from a histogram or from
the distinct values, computes the gain of each, takes the first cut of the largest gain of a
column, and only then looks whether this cut leaves enough in both children.
`searches_iff` says when the split that is returned is the best one: a best admissible cut has to
be the first of the largest gain in its column, admissible or not.

Numbers are doubles. What numpy does inside `np.histogram` and `np.dot` is left open.
-/

namespace Fediux.Xgboost.Search

open FloatOrder

abbrev Number : Type := Float.Model

/-! ## Arrays -/

/-- A number in an array of its type. -/
inductive Cell where
  | int (z : ℤ)
  | float (x : Number)
  deriving DecidableEq

def Cell.toFloat : Cell → Number
  | .int z => Float.Model.ofInt z
  | .float x => x

/-- Integers are compared as such, and as doubles with a double. -/
def Cell.less : Cell → Cell → Bool
  | .int a, .int b => decide (a < b)
  | a, b => decide (a.toFloat < b.toFloat)

/-- An array of `int64` or of `float64`. -/
inductive Column where
  | ints (xs : List ℤ)
  | floats (xs : List Number)
  deriving DecidableEq

/-- What is put into an `int64` loses its fraction; out of range it becomes the least integer. -/
def toInt64 (x : Number) : ℤ :=
  if x.isNaN then -2 ^ 63
  else
    let z := x.unpack.toInt (-2 ^ 63) (-2 ^ 63)
    if -2 ^ 63 ≤ z ∧ z < 2 ^ 63 then z else -2 ^ 63

namespace Column

def cells : Column → List Cell
  | ints xs => xs.map .int
  | floats xs => xs.map .float

def length : Column → ℕ
  | ints xs => xs.length
  | floats xs => xs.length

/-- `a[1:]`. -/
def tail : Column → Column
  | ints xs => ints xs.tail
  | floats xs => floats xs.tail

/-- `np.unique`: the values in their order, once each, and one NaN at the end. -/
def unique : Column → Column
  | ints xs => ints (xs.insertionSort (· ≤ ·)).eraseReps
  | floats xs =>
      floats (((xs.filter fun x => !x.isNaN).insertionSort (· ≤ ·)).eraseReps ++
        (xs.filter Float.Model.isNaN).take 1)

/-- `a[i] = f(a[i])`. -/
def modify (i : ℕ) (f : Number → Number) : Column → Column
  | ints xs => ints (xs.modify i fun z => toInt64 (f (Float.Model.ofInt z)))
  | floats xs => floats (xs.modify i f)

end Column

/-! ## The input -/

/-- A table whose rows are labelled by natural numbers. -/
structure Frame (V : Type) where
  rows : ℕ
  columns : List (V × Column)
  distinct : (columns.map Prod.fst).Nodup
  full : ∀ c ∈ columns, c.2.length = rows

/-- Gradients and hessians of `n` rows. -/
structure Stats (n : ℕ) where
  g : List Number
  h : List Number
  length_g : g.length = n
  length_h : h.length = n

structure Numpy where
  /-- The edges of `np.histogram`, an error where the values have no finite range. -/
  histogram : Column → ℕ → Option (List Number)
  dot : List Number → List Number → Number
  /-- `int(np.ceil(np.log(n) / np.log(4)))`. -/
  ceilLog4 : ℕ → ℕ

structure Params where
  best_gain : Option Number := some (Float.Model.ofNat 0)
  hist : Bool := true
  bins : Option ℕ := none
  eps : Number := Float.Model.ofScientific 1 (-3)
  reg_lambda : Number := Float.Model.ofNat 1
  gamma : Number := Float.Model.ofNat 0
  min_child_sample : Option ℤ := none
  min_child_weight : Option Number := none

/-! ## Cuts -/

/-- A cut of a column, the rows that are less, and the sums of both sides. -/
structure Cut where
  cut : Cell
  less_flag : List Bool
  G_left : Number
  G_right : Number
  H_left : Number
  H_right : Number
  gain : Number
  deriving DecidableEq

/-- All columns have equally many distinct values; then pandas makes one table of them. -/
def sameCounts {V : Type} (X : Frame V) : Bool :=
  match X.columns with
  | [] => true
  | c :: cs => cs.all fun d => decide (d.2.unique.length = c.2.unique.length)

section Cuts

variable {V : Type} (N : Numpy) (P : Params)

/-- The logarithm of no row is infinite, and no integer. -/
def binsFor (n : ℕ) : Option ℕ :=
  match P.bins with
  | some bins => some bins
  | none => if n = 0 then none else some (max (N.ceilLog4 n) 2)

/-- The cut points of a column before its ends are moved. -/
def tmp_splits (same : Bool) (bins : ℕ) (col : Column) : Option Column :=
  if P.hist then
    (N.histogram col bins).map fun edges =>
      -- a column of a table is a series and has no `flatten`
      if same then (Column.floats edges).tail
      else if edges.length < col.unique.length then .floats edges
      else col.unique
  else if same && decide (0 < col.unique.tail.length) then
    -- the rest of a series has no label -1
    none
  else some col.unique.tail

/-- The first cut is lowered and the last one raised. -/
def moveEnds (splits : Column) : Column :=
  (splits.modify 0 (· - P.eps)).modify (splits.length - 1) (· + P.eps)

def flag (b : Bool) : Number := if b then Float.Model.ofNat 1 else Float.Model.ofNat 0

def square (x : Number) : Number := x * x

def gainOf (G_left G_right H_left H_right : Number) : Number :=
  (square G_left / (H_left + P.reg_lambda) + square G_right / (H_right + P.reg_lambda) -
    square (G_left + G_right) / (H_left + H_right + P.reg_lambda)) / Float.Model.ofNat 2 - P.gamma

def cutAt {n : ℕ} (s : Stats n) (tmp_col : Column) (cut : Cell) : Cut :=
  let less_flag := tmp_col.cells.map fun x => x.less cut
  let lefts := less_flag.map flag
  let rights := less_flag.map fun b => flag !b
  { cut := cut
    less_flag := less_flag
    G_left := N.dot lefts s.g
    G_right := N.dot rights s.g
    H_left := N.dot lefts s.h
    H_right := N.dot rights s.h
    gain := gainOf P (N.dot lefts s.g) (N.dot rights s.g) (N.dot lefts s.h) (N.dot rights s.h) }

/-- The columns with their cuts; `none` is an error. Without a row or a column there is nothing
that `apply` can make histograms of. -/
def allCuts (X : Frame V) (s : Stats X.rows) : Option (List (V × List Cut)) :=
  (binsFor N P X.rows).bind fun bins =>
    if X.columns.isEmpty then (if P.hist then none else some [])
    else if X.rows = 0 then none
    else
      X.columns.mapM fun (var, col) =>
        (tmp_splits N P (sameCounts X) bins col).map fun splits =>
          (var, (moveEnds P splits).cells.map (cutAt N P s col))

end Cuts

/-! ## The search -/

/-- Both children keep enough rows and enough weight. -/
def Params.allows (P : Params) (c : Cut) : Bool :=
  (P.min_child_sample.all fun m =>
    !(decide ((c.less_flag.count true : ℤ) < m) || decide ((c.less_flag.count false : ℤ) < m))) &&
  P.min_child_weight.all fun m => !(decide (c.H_left < m) || decide (c.H_right < m))

/-- `best_gain is None or gain > best_gain`. -/
def exceeds (best_gain : Option Number) (gain : Number) : Bool :=
  best_gain.all fun b => decide (b < gain)

/-- The best so far: its gain, and the variable with the cut once there is one. -/
structure Running (V : Type) where
  best_gain : Option Number
  best : Option (V × Cut)

/-- What is returned. -/
structure Splits (V : Type) where
  w_left : Option Number
  w_right : Option Number
  best_var : Option V
  best_cut : Option Cell
  best_gain : Option Number
  deriving DecidableEq

section Search

variable {V : Type} (P : Params)

/-- One column; `index` finds no NaN. -/
def consider (st : Running V) (item : V × List Cut) : Option (Running V) :=
  match item.2 with
  | [] => some st
  | c :: cs =>
      (firstMax Cut.gain c cs).map fun top =>
        let max_gain := maxOf c.gain (cs.map Cut.gain)
        if exceeds st.best_gain max_gain && P.allows top then
          { best_gain := some max_gain, best := some (item.1, top) }
        else st

def weight (G H : Number) : Number := -G / (H + P.reg_lambda)

def finish (st : Running V) : Splits V where
  w_left := st.best.map fun b => weight P b.2.G_left b.2.H_left
  w_right := st.best.map fun b => weight P b.2.G_right b.2.H_right
  best_var := st.best.map Prod.fst
  best_cut := st.best.map fun b => b.2.cut
  best_gain := st.best_gain

def search_best_splits (N : Numpy) (X : Frame V) (s : Stats X.rows) : Option (Splits V) :=
  (allCuts N P X s).bind fun cols =>
    (cols.foldlM (consider P) { best_gain := P.best_gain, best := none }).map (finish P)

end Search

/-! ## What the best split is -/

section Spec

variable {V : Type} (P : Params) (cols : List (V × List Cut))

/-- An admissible cut above the initial gain. -/
structure Candidate (var : V) (c : Cut) : Prop where
  listed : ∃ cuts, (var, cuts) ∈ cols ∧ c ∈ cuts
  allowed : P.allows c = true
  number : rank c.gain ≠ none
  exceeds : exceeds P.best_gain c.gain = true

/-- A candidate of the largest gain with the weights of its sides, and none when there is no
candidate. -/
structure Optimal (r : Splits V) : Prop where
  found : ∀ var, r.best_var = some var → ∃ c, Candidate P cols var c ∧
    (∀ var' c', Candidate P cols var' c' → ¬ c.gain < c'.gain) ∧
    r.best_cut = some c.cut ∧
    r.w_left = some (weight P c.G_left c.H_left) ∧
    r.w_right = some (weight P c.G_right c.H_right) ∧
    ∃ gain, r.best_gain = some gain ∧ rank gain = rank c.gain
  notFound : r.best_var = none ↔ ∀ var c, ¬ Candidate P cols var c

/-- A candidate that leads its column. -/
structure Leading (var : V) (c : Cut) : Prop where
  leads : ∃ cuts, (var, cuts) ∈ cols ∧ Leads Cut.gain cuts c
  allowed : P.allows c = true
  exceeds : exceeds P.best_gain c.gain = true

end Spec

/-- The search returns the best split of the table. -/
def Searches {V : Type} (P : Params) (N : Numpy) (X : Frame V) (s : Stats X.rows) : Prop :=
  ∃ cols r, allCuts N P X s = some cols ∧ search_best_splits P N X s = some r ∧
    Optimal P cols r

/-- The first gain of every column is a number. -/
def FirstNumbers {V : Type} (cols : List (V × List Cut)) : Prop :=
  ∀ item ∈ cols, ∀ c, item.2.head? = some c → rank c.gain ≠ none

/-- Every candidate is matched by one that leads its column. -/
def Led {V : Type} (P : Params) (cols : List (V × List Cut)) : Prop :=
  ∀ var c, Candidate P cols var c → ∃ var' c', Leading P cols var' c' ∧ ¬ c'.gain < c.gain

/-! ## The cuts of a histogram -/

/-- With histograms, the cuts can be made of every table that has rows and columns and whose
columns numpy can make histograms of. -/
theorem isSome_allCuts {V : Type} {P : Params} (hhist : P.hist = true) (N : Numpy) (X : Frame V)
    (s : Stats X.rows) :
    (allCuts N P X s).isSome ↔ X.columns ≠ [] ∧ X.rows ≠ 0 ∧
      ∃ bins, binsFor N P X.rows = some bins ∧ ∀ c ∈ X.columns, (N.histogram c.2 bins).isSome := by
  have hsplits : ∀ same bins col,
      (tmp_splits N P same bins col).isSome = (N.histogram col bins).isSome := fun same bins col => by
    rw [tmp_splits, if_pos hhist, Option.isSome_map]
  unfold allCuts
  cases binsFor N P X.rows with
  | none => simp
  | some bins =>
      rw [Option.bind_some]
      by_cases hcolumns : X.columns = []
      · simp [hcolumns, hhist]
      by_cases hrows : X.rows = 0
      · simp [hcolumns, hrows]
      · rw [if_neg (by simpa using hcolumns), if_neg hrows, Missing.isSome_mapM]
        simp [hsplits, hcolumns, hrows]

/-! ## One column -/

section Step

variable {V : Type} {P : Params}

theorem exceeds_congr {x y : Number} (h : rank x = rank y) (best_gain : Option Number) :
    exceeds best_gain x = exceeds best_gain y := by
  cases best_gain with
  | none => rfl
  | some b => simp [exceeds, lt_iff, h]

theorem exceeds_some {b x : Number} : exceeds (some b) x = true ↔ b < x := by
  simp [exceeds]

/-- A column without a cut changes nothing. -/
theorem consider_nil (st : Running V) (var : V) : consider P st (var, []) = some st := rfl

/-- NaN at the front is an error. -/
theorem consider_eq_none {c : Cut} (hc : rank c.gain = none) (st : Running V) (var : V)
    (cs : List Cut) : consider P st (var, c :: cs) = none := by
  show (firstMax Cut.gain c cs).map _ = none
  rw [firstMax_eq_none hc, Option.map_none]

/-- Otherwise the cut that leads the column is looked at. -/
theorem consider_cons {c : Cut} (hc : rank c.gain ≠ none) (st : Running V) (var : V)
    (cs : List Cut) :
    ∃ top max_gain, Leads Cut.gain (c :: cs) top ∧ rank max_gain = rank top.gain ∧
      consider P st (var, c :: cs) =
        some (if exceeds st.best_gain top.gain && P.allows top then
          { best_gain := some max_gain, best := some (var, top) }
        else st) := by
  obtain ⟨p, hp⟩ := Option.ne_none_iff_exists'.mp hc
  obtain ⟨top, htop, hleads, hrank⟩ := firstMax_eq_some hp cs
  refine ⟨top, maxOf c.gain (cs.map Cut.gain), hleads, hrank.symm, ?_⟩
  rw [exceeds_congr hrank]
  show (firstMax Cut.gain c cs).map _ = _
  rw [htop, Option.map_some]

end Step

/-! ## The loop -/

section Loop

variable {V : Type} {P : Params} {done cols : List (V × List Cut)} {var : V} {c : Cut}

theorem Leading.rank_ne_none (h : Leading P cols var c) : rank c.gain ≠ none := by
  obtain ⟨_, _, hleads⟩ := h.leads
  exact hleads.rank_ne_none

theorem Leading.candidate (h : Leading P cols var c) : Candidate P cols var c where
  listed := by
    obtain ⟨cuts, hcuts, hleads⟩ := h.leads
    exact ⟨cuts, hcuts, hleads.mem⟩
  allowed := h.allowed
  number := h.rank_ne_none
  exceeds := h.exceeds

theorem leading_append {item : V × List Cut} :
    Leading P (done ++ [item]) var c ↔ Leading P done var c ∨ Leading P [item] var c := by
  constructor
  · rintro ⟨⟨cuts, hcuts, hleads⟩, hallowed, hexceeds⟩
    rcases List.mem_append.mp hcuts with hcuts | hcuts
    · exact Or.inl ⟨⟨cuts, hcuts, hleads⟩, hallowed, hexceeds⟩
    · exact Or.inr ⟨⟨cuts, hcuts, hleads⟩, hallowed, hexceeds⟩
  · rintro (⟨⟨cuts, hcuts, hleads⟩, hallowed, hexceeds⟩ | ⟨⟨cuts, hcuts, hleads⟩, hallowed, hexceeds⟩)
    · exact ⟨⟨cuts, List.mem_append_left _ hcuts, hleads⟩, hallowed, hexceeds⟩
    · exact ⟨⟨cuts, List.mem_append_right _ hcuts, hleads⟩, hallowed, hexceeds⟩

/-- What is known of the best so far: it is one of the largest gain among the candidates that lead
the columns done. -/
structure Tracks (P : Params) (done : List (V × List Cut)) (st : Running V) : Prop where
  empty : st.best = none → st.best_gain = P.best_gain ∧ ∀ var c, ¬ Leading P done var c
  full : ∀ var c, st.best = some (var, c) → Leading P done var c ∧
    (∃ gain, st.best_gain = some gain ∧ rank gain = rank c.gain) ∧
    ∀ var' c', Leading P done var' c' → ¬ c.gain < c'.gain

theorem exceeds_trans {best_gain : Option Number} {x y : Number}
    (hx : exceeds best_gain x = true) (hxy : x < y) : exceeds best_gain y = true := by
  cases best_gain with
  | none => rfl
  | some b => exact exceeds_some.mpr (lt_trans (exceeds_some.mp hx) hxy)

/-- A cut that is better than the best so far is above the initial gain and not below any cut that
led. -/
theorem Tracks.better {st : Running V} (h : Tracks P done st) {gain : Number}
    (hexceeds : exceeds st.best_gain gain = true) :
    exceeds P.best_gain gain = true ∧ ∀ var' c', Leading P done var' c' → ¬ gain < c'.gain := by
  cases hbest : st.best with
  | none =>
      obtain ⟨hgain, hnone⟩ := h.empty hbest
      rw [hgain] at hexceeds
      exact ⟨hexceeds, fun var' c' hc' => absurd hc' (hnone var' c')⟩
  | some b =>
      obtain ⟨hleading, ⟨best_gain, hgain, hrank⟩, hmax⟩ := h.full b.1 b.2 hbest
      have hlt : b.2.gain < gain := by
        rw [hgain, exceeds_some, lt_iff, hrank, ← lt_iff] at hexceeds
        exact hexceeds
      refine ⟨exceeds_trans hleading.exceeds hlt, ?_⟩
      intro var' c' hc' hlt'
      exact hmax var' c' hc' (lt_trans hlt hlt')

/-- A cut that is not better is not above the best so far. -/
theorem Tracks.not_better {st : Running V} (h : Tracks P done st) {gain : Number}
    (hnot : ¬ exceeds st.best_gain gain = true) (hinit : exceeds P.best_gain gain = true) :
    ∃ var c, st.best = some (var, c) ∧ ¬ c.gain < gain := by
  cases hbest : st.best with
  | none =>
      rw [(h.empty hbest).1] at hnot
      exact absurd hinit hnot
  | some b =>
      obtain ⟨_, ⟨best_gain, hgain, hrank⟩, _⟩ := h.full b.1 b.2 hbest
      rw [hgain, exceeds_some, lt_iff, hrank, ← lt_iff] at hnot
      exact ⟨b.1, b.2, rfl, hnot⟩

/-- Only the cut that leads the column is new. -/
theorem leading_singleton {cuts : List Cut} {top : Cut} (hleads : Leads Cut.gain cuts top)
    {var' : V} {c' : Cut} : Leading P [(var, cuts)] var' c' ↔
      var' = var ∧ c' = top ∧ P.allows top = true ∧ exceeds P.best_gain top.gain = true := by
  constructor
  · rintro ⟨⟨cuts', hcuts, hleads'⟩, hallowed, hexceeds⟩
    obtain ⟨rfl, rfl⟩ := Prod.mk.inj (List.mem_singleton.mp hcuts)
    obtain rfl := hleads'.unique hleads
    exact ⟨rfl, rfl, hallowed, hexceeds⟩
  · rintro ⟨rfl, rfl, hallowed, hexceeds⟩
    exact ⟨⟨cuts, List.mem_singleton.mpr rfl, hleads⟩, hallowed, hexceeds⟩

section Column

variable {st : Running V} {cuts : List Cut} {top : Cut}

/-- A column without a cut brings nothing. -/
theorem Tracks.skip (h : Tracks P done st) (var : V) : Tracks P (done ++ [(var, [])]) st := by
  have hsame : ∀ var' c', Leading P (done ++ [(var, [])]) var' c' ↔ Leading P done var' c' := by
    intro var' c'
    rw [leading_append, or_iff_left]
    rintro ⟨⟨cuts, hcuts, hleads⟩, -, -⟩
    obtain ⟨-, rfl⟩ := Prod.mk.inj (List.mem_singleton.mp hcuts)
    exact absurd hleads.mem List.not_mem_nil
  constructor
  · intro hbest
    simp only [hsame]
    exact h.empty hbest
  · intro var' c' hbest
    simp only [hsame]
    exact h.full var' c' hbest

/-- The cut that leads the column becomes the best one. -/
theorem Tracks.replace (h : Tracks P done st) (hleads : Leads Cut.gain cuts top)
    (hexceeds : exceeds st.best_gain top.gain = true) (hallowed : P.allows top = true)
    {max_gain : Number} (hrank : rank max_gain = rank top.gain) :
    Tracks P (done ++ [(var, cuts)])
      { best_gain := some max_gain, best := some (var, top) } := by
  obtain ⟨hinit, hmax⟩ := h.better hexceeds
  constructor
  · intro hbest
    exact absurd hbest (Option.some_ne_none _)
  · intro var' c' hbest
    obtain ⟨rfl, rfl⟩ := Prod.mk.inj (Option.some.inj hbest)
    refine ⟨?_, ⟨max_gain, rfl, hrank⟩, ?_⟩
    · exact leading_append.mpr (Or.inr ((leading_singleton hleads).mpr ⟨rfl, rfl, hallowed, hinit⟩))
    · intro var'' c'' hc''
      rcases leading_append.mp hc'' with hc'' | hc''
      · exact hmax var'' c'' hc''
      · obtain ⟨-, rfl, -, -⟩ := (leading_singleton hleads).mp hc''
        exact not_lt_of_rank_eq rfl

/-- The best one stays. -/
theorem Tracks.keep (h : Tracks P done st) (hleads : Leads Cut.gain cuts top)
    (hnot : ¬ (exceeds st.best_gain top.gain = true ∧ P.allows top = true)) :
    Tracks P (done ++ [(var, cuts)]) st := by
  have hstay : ∀ var' c', Leading P [(var, cuts)] var' c' →
      ∃ var₀ c₀, st.best = some (var₀, c₀) ∧ ¬ c₀.gain < c'.gain := by
    intro var' c' hc'
    obtain ⟨-, rfl, hallowed, hinit⟩ := (leading_singleton hleads).mp hc'
    exact h.not_better (fun hexceeds => hnot ⟨hexceeds, hallowed⟩) hinit
  constructor
  · intro hbest
    obtain ⟨hgain, hnone⟩ := h.empty hbest
    refine ⟨hgain, fun var' c' hc' => ?_⟩
    rcases leading_append.mp hc' with hc' | hc'
    · exact hnone var' c' hc'
    · obtain ⟨var₀, c₀, hbest', -⟩ := hstay var' c' hc'
      rw [hbest] at hbest'
      cases hbest'
  · intro var' c' hbest
    obtain ⟨hleading, hgain, hmax⟩ := h.full var' c' hbest
    refine ⟨leading_append.mpr (Or.inl hleading), hgain, fun var'' c'' hc'' => ?_⟩
    rcases leading_append.mp hc'' with hc'' | hc''
    · exact hmax var'' c'' hc''
    · obtain ⟨var₀, c₀, hbest', hle⟩ := hstay var'' c'' hc''
      obtain ⟨rfl, rfl⟩ := Prod.mk.inj (Option.some.inj (hbest.symm.trans hbest'))
      exact hle

/-- **One column.** -/
theorem tracks_consider (h : Tracks P done st) {item : V × List Cut}
    (hfirst : ∀ c, item.2.head? = some c → rank c.gain ≠ none) :
    ∃ st', consider P st item = some st' ∧ Tracks P (done ++ [item]) st' := by
  obtain ⟨var, cuts⟩ := item
  cases cuts with
  | nil => exact ⟨st, consider_nil st var, h.skip var⟩
  | cons c cs =>
      obtain ⟨top, max_gain, hleads, hrank, hstep⟩ := consider_cons (hfirst c rfl) st var cs
      refine ⟨_, hstep, ?_⟩
      by_cases hbetter : exceeds st.best_gain top.gain = true ∧ P.allows top = true
      · rw [if_pos (by simpa using hbetter)]
        exact h.replace hleads hbetter.1 hbetter.2 hrank
      · rw [if_neg (by simpa using hbetter)]
        exact h.keep hleads hbetter

end Column

/-- **All columns.** -/
theorem tracks_foldlM {st : Running V} (h : Tracks P done st) (hfirst : FirstNumbers cols) :
    ∃ st', cols.foldlM (consider P) st = some st' ∧ Tracks P (done ++ cols) st' := by
  induction cols generalizing done st with
  | nil => exact ⟨st, rfl, by simpa using h⟩
  | cons item cols ih =>
      obtain ⟨st', hstep, h'⟩ := tracks_consider h (hfirst item (List.mem_cons_self ..))
      obtain ⟨st'', hrest, h''⟩ := ih h' fun item' hitem' =>
        hfirst item' (List.mem_cons_of_mem _ hitem')
      refine ⟨st'', ?_, by simpa using h''⟩
      rw [List.foldlM_cons, hstep]
      exact hrest

theorem tracks_init :
    Tracks P ([] : List (V × List Cut)) { best_gain := P.best_gain, best := none } where
  empty _ := by
    refine ⟨rfl, fun var c h => ?_⟩
    obtain ⟨cuts, hcuts, -⟩ := h.leads
    exact absurd hcuts List.not_mem_nil
  full var c h := by cases h

/-- A column whose first gain is NaN is an error. -/
theorem firstNumbers_of_foldlM {st st' : Running V}
    (h : cols.foldlM (consider P) st = some st') : FirstNumbers cols := by
  induction cols generalizing st with
  | nil => exact fun item hitem => absurd hitem List.not_mem_nil
  | cons item cols ih =>
      rw [List.foldlM_cons] at h
      obtain ⟨st₁, hstep, hrest⟩ := Option.bind_eq_some_iff.mp h
      intro item' hitem' c hc
      rcases List.mem_cons.mp hitem' with rfl | hitem'
      · intro hnone
        obtain ⟨var, cuts⟩ := item'
        cases cuts with
        | nil => cases hc
        | cons c' cs =>
            obtain rfl : c' = c := Option.some.inj hc
            rw [consider_eq_none hnone] at hstep
            cases hstep
      · exact ih hrest item' hitem' c hc

end Loop

/-! ## The best split -/

section Best

variable {V : Type} {P : Params} {cols : List (V × List Cut)}

/-- The end of the loop is the best split exactly when the candidates are led. -/
theorem optimal_iff_led {st : Running V} (h : Tracks P cols st) :
    Optimal P cols (finish P st) ↔ Led P cols := by
  constructor
  · intro hoptimal var c hc
    cases hbest : st.best with
    | none =>
        have hnone : (finish P st).best_var = none := by simp [finish, hbest]
        exact absurd hc (hoptimal.notFound.mp hnone var c)
    | some b =>
        obtain ⟨hleading, ⟨gain, hgain, hrank⟩, -⟩ := h.full b.1 b.2 hbest
        obtain ⟨c', -, hmax, -, -, -, gain', hgain', hrank'⟩ :=
          hoptimal.found b.1 (by simp [finish, hbest])
        have hsame : gain' = gain := Option.some.inj (hgain'.symm.trans hgain)
        refine ⟨b.1, b.2, hleading, ?_⟩
        have hnot := hmax var c hc
        rw [lt_iff, ← hrank', hsame, hrank, ← lt_iff] at hnot
        exact hnot
  · intro hled
    constructor
    · intro var hvar
      obtain ⟨⟨var', c⟩, hbest, rfl⟩ := Option.map_eq_some_iff.mp hvar
      obtain ⟨hleading, ⟨gain, hgain, hrank⟩, hmax⟩ := h.full var' c hbest
      refine ⟨c, hleading.candidate, ?_, by simp [finish, hbest], by simp [finish, hbest],
        by simp [finish, hbest], gain, hgain, hrank⟩
      intro var'' c'' hc''
      obtain ⟨var₁, c₁, hc₁, hle⟩ := hled var'' c'' hc''
      exact not_lt_trans hc₁.rank_ne_none (hmax var₁ c₁ hc₁) hle
    · constructor
      · intro hnone var c hc
        have hbest : st.best = none := by simpa [finish] using hnone
        obtain ⟨var₁, c₁, hc₁, -⟩ := hled var c hc
        exact (h.empty hbest).2 var₁ c₁ hc₁
      · intro hno
        cases hbest : st.best with
        | none => simp [finish, hbest]
        | some b => exact absurd (h.full b.1 b.2 hbest).1.candidate (hno b.1 b.2)

end Best

/-- **When the search returns the best split**: when the cuts can be made, the first gain of every
column is a number, and every admissible cut above the initial gain is matched by an admissible
one that is the first of the largest gain in its column. -/
theorem searches_iff {V : Type} (P : Params) (N : Numpy) (X : Frame V) (s : Stats X.rows) :
    Searches P N X s ↔ ∃ cols, allCuts N P X s = some cols ∧ FirstNumbers cols ∧ Led P cols := by
  constructor
  · rintro ⟨cols, r, hcols, hr, hoptimal⟩
    rw [search_best_splits, hcols, Option.bind_some] at hr
    obtain ⟨st, hst, rfl⟩ := Option.map_eq_some_iff.mp hr
    have hfirst := firstNumbers_of_foldlM hst
    obtain ⟨st', hst', htracks⟩ := tracks_foldlM tracks_init hfirst
    obtain rfl : st' = st := Option.some.inj (hst'.symm.trans hst)
    exact ⟨cols, hcols, hfirst, (optimal_iff_led htracks).mp hoptimal⟩
  · rintro ⟨cols, hcols, hfirst, hled⟩
    obtain ⟨st, hst, htracks⟩ := tracks_foldlM tracks_init hfirst
    refine ⟨cols, finish P st, hcols, ?_, (optimal_iff_led htracks).mpr hled⟩
    rw [search_best_splits, hcols, Option.bind_some, hst, Option.map_some]

/-! ## A column whose best cut leaves too little -/

/-- `np.linspace` with both ends. -/
def linspace (start stop : Number) (n : ℕ) : List Number :=
  let step := (stop - start) / Float.Model.ofNat n
  (List.range n).map (fun i => Float.Model.ofNat i * step + start) ++ [stop]

/-- The edges of bins of one width, around a single value half a unit on each side. -/
def edges (col : Column) (bins : ℕ) : Option (List Number) :=
  match col.cells.map Cell.toFloat with
  | [] => some (linspace (Float.Model.ofNat 0) (Float.Model.ofNat 1) bins)
  | x :: xs =>
      let least := xs.foldl (fun m y => if y < m then y else m) x
      let most := maxOf x xs
      let half := Float.Model.ofScientific 5 (-1)
      if bins = 0 || !(x :: xs).all Float.Model.isFinite then none
      else if least == most then some (linspace (least - half) (most + half) bins)
      else some (linspace least most bins)

def numpy : Numpy where
  histogram := edges
  dot a b := (List.zipWith (· * ·) a b).foldl (· + ·) (Float.Model.ofNat 0)
  ceilLog4 := Nat.clog 4

/-- One row with the value 0, eight with 5 and eight with 9. -/
def ages : Frame String where
  rows := 17
  columns := [("age", .ints (0 :: List.replicate 8 5 ++ List.replicate 8 9))]
  distinct := by decide
  full := by decide

def ageStats : Stats 17 where
  g := (-3 :: 1 :: List.replicate 7 0 ++ (2 :: List.replicate 7 0) : List ℤ).map Float.Model.ofInt
  h := List.replicate 17 (Float.Model.ofNat 1)
  length_g := by decide
  length_h := by decide

/-- The cut below 3 has the largest gain and leaves one row on the left, so the column is skipped,
although the cut at 6 leaves nine and eight. -/
theorem not_searches_ages : ¬ Searches { min_child_sample := some 2 } numpy ages ageStats := by
  rintro ⟨cols, r, hcols, hr, hoptimal⟩
  have hnone : (search_best_splits { min_child_sample := some 2 } numpy ages ageStats).map
      Splits.best_var = some none := by
    decide +kernel
  have hsome : (allCuts numpy { min_child_sample := some 2 } ages ageStats).any (fun cols =>
      cols.any fun item => item.2.any fun c =>
        Params.allows { min_child_sample := some 2 } c && !c.gain.isNaN &&
          exceeds (some (Float.Model.ofNat 0)) c.gain) = true := by
    decide +kernel
  rw [hr, Option.map_some, Option.some.injEq] at hnone
  rw [hcols, Option.any_some, List.any_eq_true] at hsome
  obtain ⟨item, hitem, hcut⟩ := hsome
  obtain ⟨c, hc, hcandidate⟩ := List.any_eq_true.mp hcut
  simp only [Bool.and_eq_true, Bool.not_eq_true', ← Bool.not_eq_true, isNaN_iff] at hcandidate
  exact hoptimal.notFound.mp hnone item.1 c
    ⟨⟨item.2, hitem, hc⟩, hcandidate.1.1, hcandidate.1.2, hcandidate.2⟩

end Fediux.Xgboost.Search
