import Fediux.Basic.Fallible
import Fediux.Basic.FloatOrder

set_option autoImplicit false

/-! # The decision tree

`DecisionTree` of `python/fediux/FL/randomforest/rf_base.py`. A feature is a value in some linear
order, a label a natural number, and gains are doubles. A threshold with no row above it scores a
gain of 0, which beats the `-1` that the search starts from, so a node whose sampled features are
constant is split into itself and nothing. `fitsWell_iff` says when no node is.
-/

namespace Fediux.RandomForest

open Fallible FloatOrder

abbrev Number : Type := Float.Model

/-! ## The parameters -/

structure Row (n_feats : ℕ) (α : Type) where
  x : Fin n_feats → α
  y : ℕ

structure Params where
  max_depth : Option ℤ := none
  min_samples_split : ℤ := 2
  n_features : Option ℤ := none

inductive Side where
  | left
  | right
  deriving DecidableEq

/-- `random.sample(range(n_feats), k)` at a node, which is named by the sides that lead to it, the
last one first. -/
structure Sampler (n_feats : ℕ) where
  sample : List Side → ℕ → List (Fin n_feats)
  nodup : ∀ path k, k ≤ n_feats → (sample path k).Nodup
  length_sample : ∀ path k, k ≤ n_feats → (sample path k).length = k

/-- `np.log` and `np.sum`, whose rounding is left open. -/
structure NumPy where
  log : Number → Number
  sum : List Number → Number

/-- What ends `fit`; the last one stands for a stack of any height. -/
inductive Err where
  | ValueError
  | IndexError
  | TypeError
  | RecursionError
  deriving DecidableEq

/-- `feature` and `threshold` are `None` together. -/
inductive Node (n_feats : ℕ) (α : Type) where
  | leaf (value : ℕ)
  | split (cut : Option (Fin n_feats × α)) (left right : Node n_feats α)

variable {n_feats : ℕ} {α : Type} [LinearOrder α]

def labels (rows : List (Row n_feats α)) : List ℕ := rows.map Row.y

/-! ## The gain of a threshold -/

def zero : Number := Float.Model.ofNat 0

/-- The rows of `_split`, in their order. -/
def sides (rows : List (Row n_feats α)) (cut : Fin n_feats × α) :
    List (Row n_feats α) × List (Row n_feats α) :=
  (rows.filter fun r => r.x cut.1 ≤ cut.2, rows.filter fun r => cut.2 < r.x cut.1)

/-- `np.bincount(y)`: how often each number up to the largest label occurs. -/
def bincount (y : List ℕ) : List ℕ := (List.range (y.foldr max 0 + 1)).map fun v => y.count v

def ratio (a b : ℕ) : Number := Float.Model.ofNat a / Float.Model.ofNat b

namespace NumPy

variable (N : NumPy)

def entropy (y : List ℕ) : Number :=
  -N.sum ((ps.filter fun p => zero < p).map fun p => p * N.log p)
where
  ps : List Number := (bincount y).map fun c => ratio c y.length

def information_gain (rows : List (Row n_feats α)) (cut : Fin n_feats × α) : Number :=
  let parent_entropy := N.entropy (labels rows)
  let (l, r) := sides rows cut
  if l.length = 0 ∨ r.length = 0 then zero
  else
    let n := rows.length
    let child_entropy := ratio l.length n * N.entropy (labels l) +
      ratio r.length n * N.entropy (labels r)
    parent_entropy - child_entropy

end NumPy

/-! ## The best split -/

/-- `np.unique(X[:, feat_idx])`. -/
def thresholds (rows : List (Row n_feats α)) (feat_idx : Fin n_feats) : List α :=
  (rows.map fun r => r.x feat_idx).toFinset.sort

/-- One feature and the thresholds of its column. -/
def cuts (rows : List (Row n_feats α)) (feat_idx : Fin n_feats) : List (Fin n_feats × α) :=
  (thresholds rows feat_idx).map fun thresh => (feat_idx, thresh)

def best_split (N : NumPy) (rows : List (Row n_feats α)) (feat_idxs : List (Fin n_feats)) :
    Option (Fin n_feats × α) :=
  (feat_idxs.foldl
    (fun best feat_idx => (cuts rows feat_idx).foldl (keepAbove (N.information_gain rows)) best)
    (Float.Model.ofInt (-1), none)).2

/-! ## The tree -/

/-- `counter.most_common(1)[0][0]`: the label that was met first among those of the highest
count. -/
def most_common_label (y : List ℕ) : Except Err ℕ :=
  match y.eraseDups.argmax fun v => y.count v with
  | some v => .ok v
  | none => .error .IndexError

/-- `self._split(X[:, best_feat], best_thresh)`. With `None` the column is the whole array, and
`None` is compared with each of its elements, of which there may be none. -/
def split (rows : List (Row n_feats α)) :
    Option (Fin n_feats × α) → Except Err (List (Row n_feats α) × List (Row n_feats α))
  | some cut => .ok (sides rows cut)
  | none => if rows.length = 0 ∨ n_feats = 0 then .ok ([], []) else .error .TypeError

namespace Params

variable (p : Params)

/-- `self.n_features` as `fit` sets it. -/
def fitted_n_features (n_feats : ℕ) : ℤ :=
  match p.n_features with
  | none => n_feats
  | some k => if k = 0 then n_feats else min k n_feats

/-- The node becomes a leaf. -/
def Stops (rows : List (Row n_feats α)) (depth : ℕ) : Prop :=
  (∃ max_depth, p.max_depth = some max_depth ∧ max_depth ≤ depth) ∨
    (labels rows).eraseDups.length = 1 ∨ (rows.length : ℤ) < p.min_samples_split

instance (rows : List (Row n_feats α)) (depth : ℕ) : Decidable (p.Stops rows depth) :=
  inferInstanceAs (Decidable ((∃ max_depth, p.max_depth = some max_depth ∧ max_depth ≤ depth) ∨ _))

end Params

section Growing

variable (N : NumPy) (S : Sampler n_feats) (p : Params)

/-- `random.sample(range(n_feats), self.n_features)`. -/
def sample_features (path : List Side) : Except Err (List (Fin n_feats)) :=
  let k := p.fitted_n_features n_feats
  if k < 0 then .error .ValueError else .ok (S.sample path k.toNat)

/-- `_grow_tree` on a stack that has room for `frames` calls. -/
def grow_tree : ℕ → List (Row n_feats α) → List Side → Except Err (Node n_feats α)
  | 0, _, _ => .error .RecursionError
  | frames + 1, rows, path => do
      let depth := path.length
      if p.Stops rows depth then
        let leaf_value ← most_common_label (labels rows)
        return .leaf leaf_value
      else
        let feat_idxs ← sample_features S p path
        let best := best_split N rows feat_idxs
        let (l, r) ← split rows best
        let left ← grow_tree frames l (.left :: path)
        let right ← grow_tree frames r (.right :: path)
        return .split best left right

def fit (frames : ℕ) (rows : List (Row n_feats α)) : Except Err (Node n_feats α) :=
  grow_tree N S p frames rows []

end Growing

/-! ## Prediction -/

namespace Node

/-- `_traverse_tree`; nothing can be compared with a threshold that is `None`. -/
def traverse_tree (x : Fin n_feats → α) : Node n_feats α → Except Err ℕ
  | .leaf value => .ok value
  | .split none _ _ => .error .TypeError
  | .split (some cut) left right =>
      if x cut.1 ≤ cut.2 then traverse_tree x left else traverse_tree x right

/-- The sides that `_traverse_tree` takes, the first one first. -/
def route (x : Fin n_feats → α) : Node n_feats α → Except Err (List Side)
  | .leaf _ => .ok []
  | .split none _ _ => .error .TypeError
  | .split (some cut) left right =>
      if x cut.1 ≤ cut.2 then (route x left).map (.left :: ·) else (route x right).map (.right :: ·)

/-- The leaf at the end of a path. -/
def leafAt : Node n_feats α → List Side → Option ℕ
  | .leaf value, [] => some value
  | .split _ left _, .left :: path => left.leafAt path
  | .split _ _ right, .right :: path => right.leafAt path
  | _, _ => none

/-- Prediction answers with the leaf at the end of the route. -/
theorem traverse_tree_eq (x : Fin n_feats → α) (tree : Node n_feats α) (value : ℕ) :
    tree.traverse_tree x = .ok value ↔
      ∃ path, tree.route x = .ok path ∧ tree.leafAt path = some value := by
  induction tree with
  | leaf v => simp [traverse_tree, route, leafAt]
  | split cut left right ihl ihr =>
      cases cut with
      | none => simp [traverse_tree, route]
      | some cut =>
          rw [traverse_tree, route]
          split
          · rw [ihl]
            simp [map_eq_ok, leafAt]
          · rw [ihr]
            simp [map_eq_ok, leafAt]

/-- Both sides of every split have rows, when these are the rows that reach the root. -/
def BothSides : Node n_feats α → List (Row n_feats α) → Prop
  | .leaf _, _ => True
  | .split none _ _, _ => False
  | .split (some cut) left right, rows =>
      ((sides rows cut).1 ≠ [] ∧ (sides rows cut).2 ≠ []) ∧
        left.BothSides (sides rows cut).1 ∧ right.BothSides (sides rows cut).2

end Node

/-! ## What a tree is for -/

/-- No label is more frequent. -/
def MostFrequent (value : ℕ) (y : List ℕ) : Prop := value ∈ y ∧ ∀ v, y.count v ≤ y.count value

/-- The labels of the rows that take the path. -/
def Node.labelsAt (tree : Node n_feats α) (rows : List (Row n_feats α)) (path : List Side) :
    List ℕ :=
  labels (rows.filter fun r => tree.route r.x = .ok path)

/-- What training is to give: splits with rows on both sides, and in every leaf a most frequent
label of the rows that prediction routes there. -/
structure Node.Sound (tree : Node n_feats α) (rows : List (Row n_feats α)) : Prop where
  bothSides : tree.BothSides rows
  mostFrequent : ∀ path value, tree.leafAt path = some value →
    MostFrequent value (tree.labelsAt rows path)

structure TrainingSet (n_feats : ℕ) (α : Type) where
  rows : List (Row n_feats α)
  nonempty : rows ≠ []

/-- `fit` ends on every stack that is high enough, with a tree that is sound. -/
def FitsWell (N : NumPy) (S : Sampler n_feats) (p : Params) (X : TrainingSet n_feats α) : Prop :=
  ∃ tree, (∃ bound, ∀ frames, bound ≤ frames → fit N S p frames X.rows = .ok tree) ∧
    tree.Sound X.rows

/-! ## When it does -/

/-- The cut has rows on both sides. -/
def Useful (rows : List (Row n_feats α)) (cut : Fin n_feats × α) : Prop :=
  (sides rows cut).1 ≠ [] ∧ (sides rows cut).2 ≠ []

/-- A sampled feature has a useful cut of positive gain, or the first one has a useful cut whose
gain is not below 0. -/
def Informative (N : NumPy) (rows : List (Row n_feats α)) (feat_idxs : List (Fin n_feats)) :
    Prop :=
  (∃ f ∈ feat_idxs, ∃ cut ∈ cuts rows f, Useful rows cut ∧ zero < N.information_gain rows cut) ∨
    ∃ f, feat_idxs.head? = some f ∧
      ∃ cut ∈ cuts rows f, Useful rows cut ∧ zero ≤ N.information_gain rows cut

section Reached

variable (N : NumPy) (S : Sampler n_feats) (p : Params)

/-- The rows and the path of the nodes that training comes to. -/
inductive Reached (rows : List (Row n_feats α)) : List (Row n_feats α) → List Side → Prop
  | root : Reached rows rows []
  | left {node : List (Row n_feats α)} {path : List Side} {feat_idxs : List (Fin n_feats)}
      {cut : Fin n_feats × α} : Reached rows node path → ¬ p.Stops node path.length →
      sample_features S p path = .ok feat_idxs → best_split N node feat_idxs = some cut →
      Reached rows (sides node cut).1 (.left :: path)
  | right {node : List (Row n_feats α)} {path : List Side} {feat_idxs : List (Fin n_feats)}
      {cut : Fin n_feats × α} : Reached rows node path → ¬ p.Stops node path.length →
      sample_features S p path = .ok feat_idxs → best_split N node feat_idxs = some cut →
      Reached rows (sides node cut).2 (.right :: path)

/-- At every node that is to be split the sampled features tell rows apart. -/
def Separates (rows : List (Row n_feats α)) : Prop :=
  ∀ node path, Reached N S p rows node path → ¬ p.Stops node path.length →
    ∃ feat_idxs, sample_features S p path = .ok feat_idxs ∧ Informative N node feat_idxs

end Reached

/-! ## The cuts of a feature -/

section Cuts

variable {rows : List (Row n_feats α)} {f : Fin n_feats} {t : α}

theorem mem_thresholds : t ∈ thresholds rows f ↔ ∃ r ∈ rows, r.x f = t := by
  simp [thresholds]

/-- The last threshold is the largest value of the column. -/
theorem thresholds_eq (hrows : rows ≠ []) (f : Fin n_feats) :
    ∃ init top, thresholds rows f = init ++ [top] ∧ (∀ t ∈ init, t < top) ∧
      ∀ r ∈ rows, r.x f ≤ top := by
  have hne : thresholds rows f ≠ [] := by
    obtain ⟨r, hr⟩ := List.exists_mem_of_ne_nil rows hrows
    exact List.ne_nil_of_mem (mem_thresholds.mpr ⟨r, hr, rfl⟩)
  have hsplit := List.dropLast_append_getLast hne
  have hsorted : (thresholds rows f).Pairwise (· < ·) :=
    (Finset.sortedLT_sort _).pairwise
  rw [← hsplit, List.pairwise_append] at hsorted
  have hinit : ∀ t ∈ (thresholds rows f).dropLast, t < (thresholds rows f).getLast hne :=
    fun t ht => hsorted.2.2 t ht _ (List.mem_singleton_self _)
  refine ⟨_, _, hsplit.symm, hinit, fun r hr => ?_⟩
  have hmem : r.x f ∈ thresholds rows f := mem_thresholds.mpr ⟨r, hr, rfl⟩
  rw [← hsplit] at hmem
  rcases List.mem_append.mp hmem with h | h
  · exact (hinit _ h).le
  · exact (List.mem_singleton.mp h).le

/-- A threshold of the column is useful when it is not the largest. -/
theorem useful_iff (ht : t ∈ thresholds rows f) : Useful rows (f, t) ↔ ∃ r ∈ rows, t < r.x f := by
  obtain ⟨r, hr, hrt⟩ := mem_thresholds.mp ht
  have hleft : (sides rows (f, t)).1 ≠ [] :=
    List.ne_nil_of_mem (List.mem_filter.mpr ⟨hr, by simp [hrt]⟩)
  rw [Useful, and_iff_right hleft]
  simp [sides]

/-- The cuts of a feature are useful but for the last. -/
theorem cuts_eq (hrows : rows ≠ []) (f : Fin n_feats) :
    ∃ init last, cuts rows f = init ++ [last] ∧ (∀ cut ∈ init, Useful rows cut) ∧
      ¬ Useful rows last := by
  obtain ⟨init, top, heq, hinit, htop⟩ := thresholds_eq hrows f
  have hmem : top ∈ thresholds rows f := by simp [heq]
  refine ⟨init.map fun t => (f, t), (f, top), by simp [cuts, heq], ?_, ?_⟩
  · intro cut hcut
    obtain ⟨t, ht, rfl⟩ := List.mem_map.mp hcut
    obtain ⟨r, hr, hrt⟩ := mem_thresholds.mp hmem
    rw [useful_iff (by simp [heq, ht])]
    exact ⟨r, hr, by rw [hrt]; exact hinit t ht⟩
  · rw [useful_iff hmem]
    rintro ⟨r, hr, hlt⟩
    exact absurd (htop r hr) (not_le.mpr hlt)

theorem information_gain_of_not_useful (N : NumPy) {cut : Fin n_feats × α}
    (h : ¬ Useful rows cut) : N.information_gain rows cut = zero := by
  rw [Useful, not_and_or, not_not, not_not] at h
  simp only [NumPy.information_gain, List.length_eq_zero_iff]
  rw [if_pos h]

end Cuts

/-! ## The choice of a cut -/

section Choice

variable {N : NumPy} {rows : List (Row n_feats α)}

theorem best_split_eq (N : NumPy) (rows : List (Row n_feats α)) (feat_idxs : List (Fin n_feats)) :
    best_split N rows feat_idxs =
      ((feat_idxs.flatMap (cuts rows)).foldl (keepAbove (N.information_gain rows))
        (Float.Model.ofInt (-1), none)).2 := by
  rw [best_split, List.foldl_flatMap]

/-- Without rows nothing is chosen. -/
theorem best_split_nil (N : NumPy) (feat_idxs : List (Fin n_feats)) :
    best_split N ([] : List (Row n_feats α)) feat_idxs = none := by
  have hnil : feat_idxs.flatMap (cuts ([] : List (Row n_feats α))) = [] := by
    simp [cuts, thresholds]
  rw [best_split_eq, hnil]
  rfl

theorem rank_zero : rank zero ≠ none := by
  obtain ⟨p, hp⟩ := exists_rank (x := zero) (by decide)
  simp [hp]

/-- **The cut that is chosen** is useful exactly when the sampled features are informative: a
useful cut of positive gain beats the useless ones, and one of gain 0 wins only before the first of
them, which ends the cuts of the first feature. -/
theorem best_split_useful_iff (hrows : rows ≠ []) (f : Fin n_feats) (fs : List (Fin n_feats)) :
    ∃ cut, best_split N rows (f :: fs) = some cut ∧
      (Useful rows cut ↔ Informative N rows (f :: fs)) := by
  obtain ⟨init, last, hcuts, hinit, hlast⟩ := cuts_eq hrows f
  have hitems : (f :: fs).flatMap (cuts rows) = init ++ last :: fs.flatMap (cuts rows) := by
    simp [hcuts]
  have hmem : last ∈ (f :: fs).flatMap (cuts rows) := by simp [hitems]
  have hzero := information_gain_of_not_useful N hlast
  rw [best_split_eq]
  rcases @foldl_keepAbove _ (N.information_gain rows) (Float.Model.ofInt (-1))
    ((f :: fs).flatMap (cuts rows)) with ⟨-, hnone⟩ | ⟨top, hfold, hleads⟩
  · have hlt : Float.Model.ofInt (-1) < zero := by decide
    rw [← hzero] at hlt
    exact absurd hlt (hnone last hmem)
  have htop : ¬ Useful rows top → N.information_gain rows top = zero :=
    information_gain_of_not_useful N
  have hpositive : ∀ cut ∈ (f :: fs).flatMap (cuts rows), zero < N.information_gain rows cut →
      Useful rows top := by
    intro cut hcut hlt
    by_contra hnot
    rw [← htop hnot] at hlt
    exact hleads.not_lt hcut hlt
  refine ⟨top, by rw [hfold], ?_, ?_⟩
  · intro huseful
    have hle : zero ≤ N.information_gain rows top := by
      have hnot := hleads.not_lt hmem
      rw [hzero] at hnot
      exact le_of_not_lt rank_zero hleads.rank_ne_none hnot
    rcases le_iff_lt_or_beq.mp hle with hlt | heq
    · obtain ⟨f', hf', htop'⟩ := List.mem_flatMap.mp hleads.mem
      exact Or.inl ⟨f', hf', top, htop', huseful, hlt⟩
    rcases hleads.before_or hitems with hinit' | ⟨-, hlast' | hnot⟩
    · exact Or.inr ⟨f, rfl, top, by simp [hcuts, hinit'], huseful, hle⟩
    · rw [hlast'] at huseful
      exact absurd huseful hlast
    · rw [hzero] at hnot
      exact absurd heq hnot
  · rintro (⟨f', hf', cut, hcut, -, hlt⟩ | ⟨f', hf', cut, hcut, huseful, hle⟩)
    · exact hpositive cut (List.mem_flatMap.mpr ⟨f', hf', hcut⟩) hlt
    obtain rfl : f = f' := Option.some.inj hf'
    rcases le_iff_lt_or_beq.mp hle with hlt | heq
    · exact hpositive cut (List.mem_flatMap.mpr ⟨f, List.mem_cons_self .., hcut⟩) hlt
    have hcut' : cut ∈ init := by
      rw [hcuts] at hcut
      rcases List.mem_append.mp hcut with hcut | hcut
      · exact hcut
      · rw [List.mem_singleton.mp hcut] at huseful
        exact absurd huseful hlast
    rcases hleads.before_or hitems with hinit' | ⟨hbefore, -⟩
    · exact hinit top hinit'
    · by_contra hnot
      have hfirst := hbefore cut hcut'
      rw [htop hnot] at hfirst
      exact hfirst (beq_comm.mp heq)

end Choice

/-! ## Leaves -/

section Leaves

theorem most_common_label_ok {y : List ℕ} (hy : y ≠ []) :
    ∃ v, most_common_label y = .ok v ∧ MostFrequent v y := by
  cases htop : y.eraseDups.argmax fun v => y.count v with
  | none =>
      obtain ⟨v, hv⟩ := List.exists_mem_of_ne_nil y hy
      have hnil : y.eraseDups = [] := List.argmax_eq_none.mp htop
      rw [← List.mem_eraseDups, hnil] at hv
      exact absurd hv List.not_mem_nil
  | some v =>
      refine ⟨v, by simp [most_common_label, htop], ?_, fun w => ?_⟩
      · exact List.mem_eraseDups.mp (List.argmax_mem htop)
      · by_cases hw : w ∈ y
        · exact List.le_of_mem_argmax (List.mem_eraseDups.mpr hw) htop
        · rw [List.count_eq_zero_of_not_mem hw]
          exact Nat.zero_le _

variable {rows : List (Row n_feats α)}

/-- A leaf is sound when its value is. -/
theorem Node.Sound.leaf {value : ℕ} (h : MostFrequent value (labels rows)) :
    (Node.leaf value : Node n_feats α).Sound rows where
  bothSides := trivial
  mostFrequent path v hleaf := by
    cases path with
    | nil =>
        obtain rfl : value = v := Option.some.inj hleaf
        simpa [Node.labelsAt, Node.route] using h
    | cons side path => cases hleaf

/-- The rows of a path are those of its rest among the rows of its first side. -/
theorem labelsAt_split (cut : Fin n_feats × α) (left right : Node n_feats α) (path : List Side) :
    (Node.split (some cut) left right).labelsAt rows (.left :: path) =
        left.labelsAt (sides rows cut).1 path ∧
      (Node.split (some cut) left right).labelsAt rows (.right :: path) =
        right.labelsAt (sides rows cut).2 path := by
  simp only [Node.labelsAt, sides, List.filter_filter]
  constructor
  · congr 1
    refine List.filter_congr fun r _ => ?_
    by_cases hle : r.x cut.1 ≤ cut.2
    · simp [Node.route, hle, map_eq_ok]
    · simp [Node.route, hle, map_eq_ok]
  · congr 1
    refine List.filter_congr fun r _ => ?_
    by_cases hle : r.x cut.1 ≤ cut.2
    · simp [Node.route, hle, map_eq_ok]
    · simp [Node.route, hle, map_eq_ok, not_le.mp hle]

theorem Node.Sound.split {cut : Fin n_feats × α} {left right : Node n_feats α}
    (h : Useful rows cut) (hleft : left.Sound (sides rows cut).1)
    (hright : right.Sound (sides rows cut).2) :
    (Node.split (some cut) left right).Sound rows where
  bothSides := ⟨h, hleft.bothSides, hright.bothSides⟩
  mostFrequent path value hleaf := by
    cases path with
    | nil => cases hleaf
    | cons side path =>
        cases side with
        | left =>
            rw [(labelsAt_split cut left right path).1]
            exact hleft.mostFrequent path value hleaf
        | right =>
            rw [(labelsAt_split cut left right path).2]
            exact hright.mostFrequent path value hleaf

end Leaves

/-! ## One node -/

section Growth

variable {N : NumPy} {S : Sampler n_feats} {p : Params} {frames : ℕ}
  {rows : List (Row n_feats α)} {path : List Side}

/-- What a call of `_grow_tree` returns. -/
theorem grow_tree_succ {tree : Node n_feats α} :
    grow_tree N S p (frames + 1) rows path = .ok tree ↔
      (p.Stops rows path.length ∧ ∃ v, most_common_label (labels rows) = .ok v ∧ tree = .leaf v) ∨
      (¬ p.Stops rows path.length ∧ ∃ feat_idxs l r left right,
        sample_features S p path = .ok feat_idxs ∧
        split rows (best_split N rows feat_idxs) = .ok (l, r) ∧
        grow_tree N S p frames l (.left :: path) = .ok left ∧
        grow_tree N S p frames r (.right :: path) = .ok right ∧
        tree = .split (best_split N rows feat_idxs) left right) := by
  rw [grow_tree]
  by_cases hstop : p.Stops rows path.length
  · simp only [hstop, if_true, bind_eq_ok, true_and, not_true_eq_false, false_and, or_false]
    constructor
    · rintro ⟨v, hlabel, htree⟩
      exact ⟨v, hlabel, (Except.ok.inj htree).symm⟩
    · rintro ⟨v, hlabel, htree⟩
      exact ⟨v, hlabel, congrArg _ htree.symm⟩
  · simp only [hstop, if_false, bind_eq_ok, false_and, false_or, not_false_eq_true, true_and,
      Prod.exists]
    constructor
    · rintro ⟨feat_idxs, hsample, l, r, hsplit, left, hleft, right, hright, htree⟩
      exact ⟨feat_idxs, l, r, left, right, hsample, hsplit, hleft, hright,
        (Except.ok.inj htree).symm⟩
    · rintro ⟨feat_idxs, l, r, left, right, hsample, hsplit, hleft, hright, htree⟩
      exact ⟨feat_idxs, hsample, l, r, hsplit, left, hleft, right, hright, congrArg _ htree.symm⟩

theorem grow_tree_leaf (hstop : p.Stops rows path.length) {v : ℕ}
    (h : most_common_label (labels rows) = .ok v) :
    grow_tree N S p (frames + 1) rows path = .ok (.leaf v) :=
  grow_tree_succ.mpr (Or.inl ⟨hstop, v, h, rfl⟩)

theorem grow_tree_split (hstop : ¬ p.Stops rows path.length) {feat_idxs : List (Fin n_feats)}
    {cut : Fin n_feats × α} {left right : Node n_feats α}
    (hsample : sample_features S p path = .ok feat_idxs)
    (hcut : best_split N rows feat_idxs = some cut)
    (hleft : grow_tree N S p frames (sides rows cut).1 (.left :: path) = .ok left)
    (hright : grow_tree N S p frames (sides rows cut).2 (.right :: path) = .ok right) :
    grow_tree N S p (frames + 1) rows path = .ok (.split (some cut) left right) := by
  refine grow_tree_succ.mpr (Or.inr ⟨hstop, feat_idxs, _, _, left, right, hsample, ?_, hleft,
    hright, by rw [hcut]⟩)
  rw [hcut]
  rfl

/-- No tree grows from no rows. -/
theorem grow_tree_nil (frames : ℕ) (path : List Side) (tree : Node n_feats α) :
    grow_tree N S p frames [] path ≠ .ok tree := by
  induction frames generalizing path tree with
  | zero => exact fun h => by cases h
  | succ frames ih =>
      intro h
      rcases grow_tree_succ.mp h with ⟨-, v, hlabel, -⟩ | ⟨-, feat_idxs, l, r, left, _, -, hsplit,
        hleft, -⟩
      · cases hlabel
      · rw [best_split_nil] at hsplit
        obtain ⟨rfl, -⟩ := Prod.mk.inj (Except.ok.inj hsplit)
        exact ih _ left hleft

/-- **A node that is split in the end** was informative, and both its sides grew. -/
theorem informative_of_grow_tree {tree : Node n_feats α}
    (h : grow_tree N S p (frames + 1) rows path = .ok tree)
    (hstop : ¬ p.Stops rows path.length) :
    ∃ feat_idxs cut left right, sample_features S p path = .ok feat_idxs ∧
      best_split N rows feat_idxs = some cut ∧ Informative N rows feat_idxs ∧
      grow_tree N S p frames (sides rows cut).1 (.left :: path) = .ok left ∧
      grow_tree N S p frames (sides rows cut).2 (.right :: path) = .ok right := by
  have hrows : rows ≠ [] := by
    rintro rfl
    exact grow_tree_nil _ _ _ h
  rcases grow_tree_succ.mp h with ⟨hstop', -⟩ | ⟨-, feat_idxs, l, r, left, right, hsample, hsplit,
    hleft, hright, -⟩
  · exact absurd hstop' hstop
  have hl : l ≠ [] := by
    rintro rfl
    exact grow_tree_nil _ _ _ hleft
  have hr : r ≠ [] := by
    rintro rfl
    exact grow_tree_nil _ _ _ hright
  cases feat_idxs with
  | nil =>
      have hnone : best_split N rows [] = none := rfl
      rw [hnone, split] at hsplit
      split at hsplit
      · exact absurd (Prod.mk.inj (Except.ok.inj hsplit)).1.symm hl
      · cases hsplit
  | cons f fs =>
      obtain ⟨cut, hcut, hiff⟩ := best_split_useful_iff (N := N) hrows f fs
      rw [hcut] at hsplit
      obtain ⟨rfl, rfl⟩ := Prod.mk.inj (Except.ok.inj hsplit)
      exact ⟨f :: fs, cut, left, right, hsample, hcut, hiff.mp ⟨hl, hr⟩, hleft, hright⟩

end Growth

/-! ## All nodes -/

section Runs

variable {N : NumPy} {S : Sampler n_feats} {p : Params} {rows node : List (Row n_feats α)}
  {path : List Side}

/-- A tree has grown from every node that a training with a result comes to. -/
theorem grown_of_reached {frames : ℕ} {tree : Node n_feats α}
    (h : grow_tree N S p frames rows [] = .ok tree) (hreached : Reached N S p rows node path) :
    ∃ frames' tree', grow_tree N S p (frames' + 1) node path = .ok tree' := by
  have hsucc : ∀ {frames : ℕ} {node : List (Row n_feats α)} {path : List Side}
      {tree : Node n_feats α}, grow_tree N S p frames node path = .ok tree →
      ∃ frames' tree', grow_tree N S p (frames' + 1) node path = .ok tree' := by
    intro frames node path tree h
    cases frames with
    | zero => cases h
    | succ frames => exact ⟨frames, tree, h⟩
  induction hreached with
  | root => exact hsucc h
  | left _ hstop hsample hcut ih =>
      obtain ⟨frames', tree', h'⟩ := ih
      obtain ⟨_, _, left, right, hsample', hcut', -, hleft, -⟩ := informative_of_grow_tree h' hstop
      obtain rfl := Except.ok.inj (hsample.symm.trans hsample')
      obtain rfl := Option.some.inj (hcut.symm.trans hcut')
      exact hsucc hleft
  | right _ hstop hsample hcut ih =>
      obtain ⟨frames', tree', h'⟩ := ih
      obtain ⟨_, _, left, right, hsample', hcut', -, -, hright⟩ := informative_of_grow_tree h' hstop
      obtain rfl := Except.ok.inj (hsample.symm.trans hsample')
      obtain rfl := Option.some.inj (hcut.symm.trans hcut')
      exact hsucc hright

/-- A useful cut leaves fewer rows on both sides. -/
theorem Useful.length_lt {cut : Fin n_feats × α} (h : Useful rows cut) :
    (sides rows cut).1.length < rows.length ∧ (sides rows cut).2.length < rows.length := by
  obtain ⟨l, hl⟩ := List.exists_mem_of_ne_nil _ h.1
  obtain ⟨r, hr⟩ := List.exists_mem_of_ne_nil _ h.2
  obtain ⟨hl, hle⟩ := List.mem_filter.mp hl
  obtain ⟨hr, hlt⟩ := List.mem_filter.mp hr
  constructor
  · exact List.length_filter_lt_length_iff_exists.mpr ⟨r, hr, by simpa using hlt⟩
  · exact List.length_filter_lt_length_iff_exists.mpr ⟨l, hl, by simpa using hle⟩

/-- **From a node** a sound tree grows within as many calls as it has rows. -/
theorem sound_of_separates (h : Separates N S p rows) (hreached : Reached N S p rows node path)
    (hnode : node ≠ []) :
    ∃ tree, (∀ frames, node.length ≤ frames → grow_tree N S p frames node path = .ok tree) ∧
      tree.Sound node := by
  -- by induction on the number of rows
  induction hn : node.length using Nat.strong_induction_on generalizing node path with
  | _ n ih =>
      subst hn
      have hpos : 0 < node.length := List.length_pos_of_ne_nil hnode
      by_cases hstop : p.Stops node path.length
      · obtain ⟨v, hlabel, hfrequent⟩ := most_common_label_ok (y := labels node)
          (by simpa [labels] using hnode)
        refine ⟨.leaf v, fun frames hframes => ?_, Node.Sound.leaf hfrequent⟩
        obtain ⟨frames, rfl⟩ : ∃ k, frames = k + 1 := ⟨frames - 1, by omega⟩
        exact grow_tree_leaf hstop hlabel
      · obtain ⟨feat_idxs, hsample, hinformative⟩ := h node path hreached hstop
        cases feat_idxs with
        | nil =>
            rcases hinformative with ⟨_, hf, -⟩ | ⟨_, hf, -⟩
            · exact absurd hf List.not_mem_nil
            · cases hf
        | cons f fs =>
            obtain ⟨cut, hcut, hiff⟩ := best_split_useful_iff (N := N) hnode f fs
            have huseful := hiff.mpr hinformative
            obtain ⟨left, hleft, hsoundl⟩ := ih _ huseful.length_lt.1
              (hreached.left hstop hsample hcut) huseful.1 rfl
            obtain ⟨right, hright, hsoundr⟩ := ih _ huseful.length_lt.2
              (hreached.right hstop hsample hcut) huseful.2 rfl
            refine ⟨.split (some cut) left right, fun frames hframes => ?_,
              Node.Sound.split huseful hsoundl hsoundr⟩
            obtain ⟨frames, rfl⟩ : ∃ k, frames = k + 1 := ⟨frames - 1, by omega⟩
            have hl := huseful.length_lt.1
            have hr := huseful.length_lt.2
            exact grow_tree_split hstop hsample hcut (hleft frames (by omega))
              (hright frames (by omega))

/-- The nodes of a training with a result are informative. -/
theorem separates_of_fit {frames : ℕ} {tree : Node n_feats α}
    (h : fit N S p frames rows = .ok tree) : Separates N S p rows := by
  intro node path hreached hstop
  obtain ⟨frames', tree', h'⟩ := grown_of_reached h hreached
  obtain ⟨feat_idxs, _, _, _, hsample, -, hinformative, -⟩ := informative_of_grow_tree h' hstop
  exact ⟨feat_idxs, hsample, hinformative⟩

end Runs

/-- **When training gives a tree as it should**: when at every node that is to be split a sampled
feature has a useful cut of positive gain, or the first one has a useful cut whose gain is not
below 0. -/
theorem fitsWell_iff (N : NumPy) (S : Sampler n_feats) (p : Params) (X : TrainingSet n_feats α) :
    FitsWell N S p X ↔ Separates N S p X.rows := by
  constructor
  · rintro ⟨tree, ⟨bound, hfit⟩, -⟩
    exact separates_of_fit (hfit bound le_rfl)
  · intro h
    obtain ⟨tree, hgrow, hsound⟩ := sound_of_separates h .root X.nonempty
    exact ⟨tree, ⟨X.rows.length, hgrow⟩, hsound⟩

/-! ## Columns with one value -/

/-- Where the rows agree on the sampled features, these are not informative. -/
theorem not_informative_of_constant {N : NumPy} {rows : List (Row n_feats α)}
    {feat_idxs : List (Fin n_feats)}
    (h : ∀ f ∈ feat_idxs, ∀ r ∈ rows, ∀ r' ∈ rows, r.x f = r'.x f) :
    ¬ Informative N rows feat_idxs := by
  have hno : ∀ f ∈ feat_idxs, ∀ cut ∈ cuts rows f, ¬ Useful rows cut := by
    intro f hf cut hcut
    obtain ⟨t, ht, rfl⟩ := List.mem_map.mp hcut
    obtain ⟨r, hr, rfl⟩ := mem_thresholds.mp ht
    rw [useful_iff ht]
    rintro ⟨r', hr', hlt⟩
    exact absurd (h f hf r hr r' hr') hlt.ne
  rintro (⟨f, hf, cut, hcut, huseful, -⟩ | ⟨f, hf, cut, hcut, huseful, -⟩)
  · exact hno f hf cut hcut huseful
  · exact hno f (List.mem_of_head? hf) cut hcut huseful

/-- Two rows that differ in their labels only. -/
def twins : TrainingSet 1 ℤ where
  rows := [⟨fun _ => 0, 0⟩, ⟨fun _ => 0, 1⟩]
  nonempty := List.cons_ne_nil _ _

/-- The node is split into itself and nothing, over and over. -/
theorem not_fitsWell_twins : ¬ ∃ N S, FitsWell N S {} twins := by
  rintro ⟨N, S, tree, ⟨bound, hfit⟩, -⟩
  obtain ⟨feat_idxs, -, hinformative⟩ :=
    separates_of_fit (hfit bound le_rfl) twins.rows [] .root (by decide)
  have hx : ∀ r ∈ twins.rows, r.x = fun _ => 0 := by simp [twins]
  refine not_informative_of_constant (fun f _ r hr r' hr' => ?_) hinformative
  rw [hx r hr, hx r' hr']

end Fediux.RandomForest
