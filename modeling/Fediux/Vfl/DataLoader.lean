import Mathlib

set_option autoImplicit false

/-! # The batches of the host and of the guests

`DataLoader` of `python/fediux/FL/utils/dataset.py` and the training loops of
`LogisticRegressionHost.train` and `LogisticRegressionGuest.train`. Each party shuffles its rows
with the global generator of its own process. `sameBatches_iff` says when the parties see the
same rows in every batch: `if seed:` takes the seed 0 for no seed, and the loss of
`LogisticRegression_Host_CKKS` draws from the generator of the host alone.
-/

namespace Fediux.Vfl.Batches

inductive Err where
  | ValueError
  deriving DecidableEq, Repr

/-- The generator behind `np.random`. A state is what the seed and the draws have made of it. -/
structure Numpy where
  State : Type
  seed : ℤ → State
  /-- The places of a list in their new order. -/
  shuffle : State → ℕ → List ℕ × State
  normal : State → ℕ × ℕ → State
  shuffle_perm : ∀ s n, (shuffle s n).1.Perm (List.range n)

/-- The value of `shuffle_seed`. -/
inductive ShuffleSeed where
  | null
  | int (s : ℤ)
  deriving DecidableEq, Repr

namespace ShuffleSeed

/-- `bool(seed)`. -/
def truth : ShuffleSeed → Bool
  | null => false
  | int s => s != 0

/-- `np.random.seed` takes the seed. -/
def valid : ShuffleSeed → Bool
  | null => true
  | int s => decide (0 ≤ s ∧ s < 2 ^ 32)

end ShuffleSeed

inductive Method where
  | Plaintext
  | CKKS
  deriving DecidableEq, Repr

/-- `self.multiclass`, with `self.output_dim`. -/
inductive LabelType where
  | binary
  | multiclass (output_dim : ℕ)
  deriving DecidableEq, Repr

inductive Role where
  | host
  | guest
  deriving DecidableEq, Repr

/-- The rows of each table and the common parameters. -/
structure Params where
  n_samples : ℕ
  batch_size : ℕ
  epoch : ℕ
  shuffle_seed : ShuffleSeed
  print_metrics : Bool
  method : Method
  label : LabelType
  deriving DecidableEq, Repr

structure DataLoader where
  batch_size : ℕ
  n_samples : ℕ
  indices : List ℕ
  start : ℕ
  deriving DecidableEq, Repr

namespace DataLoader

/-- `DataLoader.__init__`; without a seed the generator stays as it is. -/
def init (np : Numpy) (n_samples batch_size : ℕ) (seed : ShuffleSeed) (generator : np.State) :
    Except Err (DataLoader × np.State) :=
  let loader :=
    { batch_size := batch_size, n_samples := n_samples, indices := List.range n_samples, start := 0 }
  if seed.truth then
    if seed.valid then
      match seed with
      | .int s => .ok (loader, np.seed s)
      | .null => .ok (loader, generator)
    else .error .ValueError
  else .ok (loader, generator)

/-- `np.random.shuffle(self.indices)`. -/
def shuffle (np : Numpy) (L : DataLoader) (generator : np.State) : DataLoader × np.State :=
  let places := np.shuffle generator L.indices.length
  ({ L with indices := places.1.map fun i => L.indices.getD i 0 }, places.2)

/-- `__next__`: the indices of the next batch, or `StopIteration`. -/
def next (np : Numpy) (L : DataLoader) (generator : np.State) :
    Option (List ℕ) × DataLoader × np.State :=
  let (L, generator) := if L.start = 0 then L.shuffle np generator else (L, generator)
  let start := L.start
  let stop := min (start + L.batch_size) L.n_samples
  if start < L.n_samples then
    (some ((L.indices.drop start).take (stop - start)),
      { L with start := start + L.batch_size }, generator)
  else (none, { L with start := 0 }, generator)

end DataLoader

/-- A party in its training loop: the epochs it has finished, its loader and its generator. -/
structure Party (np : Numpy) where
  epoch : ℕ
  loader : DataLoader
  generator : np.State

namespace Params

variable (c : Params) (np : Numpy)

/-- What `compute_metrics` makes of the generator. Only `LogisticRegression_Host_CKKS.CELoss` draws
from it: `np.random.normal(0, 1e-4, (self.output_dim, y.shape[0]))`. -/
def compute_metrics (role : Role) (generator : np.State) : np.State :=
  match role, c.method, c.label with
  | .host, .CKKS, .multiclass output_dim => np.normal generator (output_dim, c.n_samples)
  | _, _, _ => generator

/-- The next call of `__next__` in the training loop, with what follows up to the call after. -/
def turn (role : Role) (p : Party np) : Option (List ℕ) × Party np :=
  if p.epoch < c.epoch then
    match p.loader.next np p.generator with
    | (some batch, loader, generator) =>
        (some batch, { p with loader := loader, generator := generator })
    | (none, loader, generator) =>
        (none,
          { epoch := p.epoch + 1
            loader := loader
            generator := if c.print_metrics then c.compute_metrics np role generator
              else generator })
  else (none, p)

/-- The batches of the next `m` turns. -/
def run (role : Role) : Party np → ℕ → List (List ℕ) × Party np
  | p, 0 => ([], p)
  | p, m + 1 =>
      let now := c.turn np role p
      let later := run role now.2 m
      (now.1.toList ++ later.1, later.2)

/-- The batches of a party in the first `m` turns of its training. -/
def batches (role : Role) (generator : np.State) (m : ℕ) : List (List ℕ) :=
  match DataLoader.init np c.n_samples (min c.n_samples c.batch_size) c.shuffle_seed generator with
  | .error _ => []
  | .ok (loader, generator) =>
      (c.run np role { epoch := 0, loader := loader, generator := generator } m).1

end Params

/-- In all runs, whatever the generators are like and were before, the host and a guest see the
same batches. -/
def SameBatches (c : Params) : Prop :=
  ∀ (np : Numpy) (hostEntropy guestEntropy : np.State) (m : ℕ),
    c.batches np .host hostEntropy m = c.batches np .guest guestEntropy m

/-- The host draws from its generator when it computes the metrics. -/
def Params.drawsNoise (c : Params) : Prop :=
  c.print_metrics = true ∧ c.method = .CKKS ∧ c.label ≠ .binary

/-- The seed is set, or refused, and the host has drawn no noise before a shuffle. -/
def Params.inStep (c : Params) : Prop :=
  c.shuffle_seed.truth = true ∧
    (c.shuffle_seed.valid = false ∨ ¬ (c.drawsNoise ∧ 2 ≤ c.epoch))

/-- There is one order of the rows only, or no batch has a row. -/
def Params.trivial (c : Params) : Prop := c.n_samples ≤ 1 ∨ c.batch_size = 0 ∨ c.epoch = 0

/-! ## What keeps the batches the same -/

section Same

variable {c : Params} {np : Numpy}

/-- What the turns of both parties keep, a run keeps. -/
theorem run_same {P : Party np → Party np → Prop}
    (hstep : ∀ p q, P p q → (c.turn np .host p).1 = (c.turn np .guest q).1 ∧
      P (c.turn np .host p).2 (c.turn np .guest q).2) {p q : Party np} (h : P p q) (m : ℕ) :
    (c.run np .host p m).1 = (c.run np .guest q m).1 := by
  induction m generalizing p q with
  | zero => rfl
  | succ m ih =>
      obtain ⟨hbatch, hnext⟩ := hstep p q h
      simp [Params.run, hbatch, ih hnext]

/-- The loader before the first batch. -/
def DataLoader.fresh (c : Params) : DataLoader :=
  { batch_size := min c.n_samples c.batch_size
    n_samples := c.n_samples
    indices := List.range c.n_samples
    start := 0 }

/-- Whatever the generator was, the seed is refused or the loader is a fresh one. -/
theorem init_cases (c : Params) (np : Numpy) :
    (c.shuffle_seed.valid = false ∧ c.shuffle_seed.truth = true) ∨
      ∀ g, ∃ g', DataLoader.init np c.n_samples (min c.n_samples c.batch_size) c.shuffle_seed g =
        .ok (DataLoader.fresh c, g') := by
  by_cases htruth : c.shuffle_seed.truth = true
  · by_cases hvalid : c.shuffle_seed.valid = true
    · refine Or.inr fun g => ?_
      cases hseed : c.shuffle_seed with
      | null => simp [hseed, ShuffleSeed.truth] at htruth
      | int s =>
          rw [hseed] at htruth hvalid
          exact ⟨np.seed s, by simp [DataLoader.init, htruth, hvalid, DataLoader.fresh]⟩
    · exact Or.inl ⟨by simpa using hvalid, htruth⟩
  · exact Or.inr fun g => ⟨g, by simp [DataLoader.init, htruth, DataLoader.fresh]⟩

/-- With a seed the generators are the same after `__init__`. -/
theorem init_of_truth {n bs : ℕ} {seed : ShuffleSeed} (h : seed.truth = true)
    (g g' : np.State) : DataLoader.init np n bs seed g = DataLoader.init np n bs seed g' := by
  cases seed with
  | null => cases h
  | int s => simp [DataLoader.init, h]

/-- A turn of a party that has finished. -/
theorem turn_of_le {role : Role} {p : Party np} (h : c.epoch ≤ p.epoch) :
    c.turn np role p = (none, p) := by
  simp [Params.turn, not_lt.mpr h]

@[simp] theorem compute_metrics_guest (g : np.State) :
    c.compute_metrics np .guest g = g := rfl

theorem metrics_of_not_drawsNoise (h : ¬ c.drawsNoise) (g : np.State) :
    (if c.print_metrics then c.compute_metrics np .host g else g) = g := by
  simp only [Params.drawsNoise, not_and] at h
  by_cases hprint : c.print_metrics = true
  · cases hmethod : c.method with
    | Plaintext => simp [Params.compute_metrics, hmethod]
    | CKKS =>
        have hbinary : c.label = .binary := not_not.mp (h hprint hmethod)
        simp [Params.compute_metrics, hmethod, hbinary]
  · simp [hprint]

/-- A turn is the same for both roles, except that the host may draw noise. -/
theorem turn_host_guest (p : Party np) :
    (c.turn np .host p).1 = (c.turn np .guest p).1 ∧
      ((c.turn np .host p).2 = (c.turn np .guest p).2 ∨
        (c.drawsNoise ∧ (c.turn np .host p).2.epoch = p.epoch + 1 ∧
          (c.turn np .guest p).2.epoch = p.epoch + 1)) := by
  by_cases hlt : p.epoch < c.epoch
  · simp only [Params.turn, hlt, if_true]
    rcases p.loader.next np p.generator with ⟨_ | batch, loader, generator⟩
    · refine ⟨rfl, ?_⟩
      by_cases hnoise : c.drawsNoise
      · exact Or.inr ⟨hnoise, rfl, rfl⟩
      · refine Or.inl ?_
        simp [metrics_of_not_drawsNoise hnoise]
    · exact ⟨rfl, Or.inl rfl⟩
  · simp [Params.turn, hlt]

/-- **With a seed, and no noise before a shuffle, the batches are the same.** -/
theorem sameBatches_of_inStep (h : c.inStep) : SameBatches c := by
  intro np g g' m
  simp only [Params.batches]
  rw [init_of_truth h.1 g g']
  cases hinit : DataLoader.init np c.n_samples (min c.n_samples c.batch_size)
      c.shuffle_seed g' with
  | error e => rfl
  | ok start =>
      have hvalid : c.shuffle_seed.valid = true := by
        by_contra hinvalid
        simp [DataLoader.init, h.1, hinvalid] at hinit
      have hquiet : ¬ (c.drawsNoise ∧ 2 ≤ c.epoch) := by
        rcases h.2 with hinvalid | hquiet
        · simp [hvalid] at hinvalid
        · exact hquiet
      refine run_same (P := fun p q => p = q ∨ (c.epoch ≤ p.epoch ∧ c.epoch ≤ q.epoch)) ?_
        (Or.inl rfl) m
      rintro p q (rfl | ⟨hp, hq⟩)
      · obtain ⟨hbatch, hnext | ⟨hnoise, hhost, hguest⟩⟩ := turn_host_guest (c := c) p
        · exact ⟨hbatch, Or.inl hnext⟩
        · -- the noise comes at the end of the only epoch
          have hlast : c.epoch < 2 := not_le.mp fun hle => hquiet ⟨hnoise, hle⟩
          exact ⟨hbatch, Or.inr ⟨by omega, by omega⟩⟩
      · rw [turn_of_le hp, turn_of_le hq]
        exact ⟨rfl, Or.inr ⟨hp, hq⟩⟩

/-- One row has one order. -/
theorem shuffle_of_short {L : DataLoader} {n : ℕ} (hn : n ≤ 1) (hL : L.indices = List.range n)
    (g : np.State) : (L.shuffle np g).1 = L := by
  have hperm := np.shuffle_perm g n
  have hplaces : (np.shuffle g n).1 = List.range n := by
    obtain rfl | rfl : n = 0 ∨ n = 1 := by omega
    · exact List.perm_nil.mp hperm
    · exact List.perm_singleton.mp hperm
  have hmap : (List.range n).map (fun i => (List.range n).getD i 0) = List.range n := by
    refine List.ext_getElem (by simp) fun i h _ => ?_
    have hi : i < n := by simpa using h
    simp [hi]
  cases L with
  | mk batch_size n_samples indices start =>
      subst hL
      simp only [DataLoader.shuffle, List.length_range, hplaces, hmap]

theorem next_of_short {L : DataLoader} {n : ℕ} (hn : n ≤ 1) (hL : L.indices = List.range n)
    (g g' : np.State) :
    (L.next np g).1 = (L.next np g').1 ∧ (L.next np g).2.1 = (L.next np g').2.1 ∧
      (L.next np g).2.1.indices = List.range n := by
  have hsame : ∀ g : np.State, (L.shuffle np g).1 = L := shuffle_of_short hn hL
  by_cases hstart : L.start = 0
  · by_cases hlt : L.start < L.n_samples
    · simp [DataLoader.next, hstart, hsame, hstart ▸ hlt, hL]
    · simp [DataLoader.next, hstart, hsame, hstart ▸ hlt, hL]
  · by_cases hlt : L.start < L.n_samples
    · simp [DataLoader.next, hstart, hlt, hL]
    · simp [DataLoader.next, hstart, hlt, hL]

/-- Parties whose loaders do the same have the same turn. -/
theorem turn_congr (role role' : Role) {p q : Party np} (hepoch : p.epoch = q.epoch)
    (hlt : p.epoch < c.epoch)
    (hbatch : (p.loader.next np p.generator).1 = (q.loader.next np q.generator).1) :
    (c.turn np role p).1 = (c.turn np role' q).1 ∧
      (c.turn np role p).2.epoch = (c.turn np role' q).2.epoch ∧
      (c.turn np role p).2.loader = (p.loader.next np p.generator).2.1 ∧
      (c.turn np role' q).2.loader = (q.loader.next np q.generator).2.1 := by
  simp only [Params.turn, hlt, ← hepoch, if_true]
  revert hbatch
  rcases p.loader.next np p.generator with ⟨_ | batch, L, g⟩ <;>
    rcases q.loader.next np q.generator with ⟨_ | batch', L', g'⟩ <;> simp

/-- **With one row the batches are the same.** -/
theorem run_same_of_short (hn : c.n_samples ≤ 1) (g g' : np.State) (m : ℕ) :
    (c.run np .host ⟨0, DataLoader.fresh c, g⟩ m).1 =
      (c.run np .guest ⟨0, DataLoader.fresh c, g'⟩ m).1 := by
  refine run_same (P := fun p q => p.epoch = q.epoch ∧ p.loader = q.loader ∧
    p.loader.indices = List.range c.n_samples) ?_ ?_ m
  case refine_2 => exact ⟨rfl, rfl, rfl⟩
  rintro p q ⟨hepoch, hloader, hindices⟩
  by_cases hlt : p.epoch < c.epoch
  · obtain ⟨hbatch, hnext, hindices'⟩ :=
      next_of_short hn hindices p.generator q.generator
    obtain ⟨h₁, h₂, h₃, h₄⟩ := turn_congr .host .guest hepoch hlt
      (by rw [← hloader]; exact hbatch)
    refine ⟨h₁, h₂, ?_, by rw [h₃, hindices']⟩
    rw [h₃, h₄, ← hloader, hnext]
  · rw [turn_of_le (not_lt.mp hlt), turn_of_le (hepoch ▸ not_lt.mp hlt)]
    exact ⟨rfl, hepoch, hloader, hindices⟩

theorem next_of_empty {L : DataLoader} (hbs : L.batch_size = 0) (hstart : L.start = 0)
    (hn : 0 < L.n_samples) (g : np.State) :
    (L.next np g).1 = some [] ∧ (L.next np g).2.1.batch_size = 0 ∧
      (L.next np g).2.1.start = 0 ∧ 0 < (L.next np g).2.1.n_samples := by
  simp [DataLoader.next, DataLoader.shuffle, hbs, hstart, hn]

/-- **Batches without rows are the same**, though there is no end of them. -/
theorem run_same_of_empty (hbs : c.batch_size = 0) (hn : 0 < c.n_samples) (g g' : np.State)
    (m : ℕ) :
    (c.run np .host ⟨0, DataLoader.fresh c, g⟩ m).1 =
      (c.run np .guest ⟨0, DataLoader.fresh c, g'⟩ m).1 := by
  refine run_same (P := fun p q => p.epoch = q.epoch ∧
    (p.loader.batch_size = 0 ∧ p.loader.start = 0 ∧ 0 < p.loader.n_samples) ∧
    (q.loader.batch_size = 0 ∧ q.loader.start = 0 ∧ 0 < q.loader.n_samples)) ?_ ?_ m
  case refine_2 =>
    have hfresh : (DataLoader.fresh c).batch_size = 0 := by simp [DataLoader.fresh, hbs]
    exact ⟨rfl, ⟨hfresh, rfl, hn⟩, ⟨hfresh, rfl, hn⟩⟩
  rintro p q ⟨hepoch, ⟨hp₁, hp₂, hp₃⟩, ⟨hq₁, hq₂, hq₃⟩⟩
  by_cases hlt : p.epoch < c.epoch
  · obtain ⟨hbatch, hp⟩ := next_of_empty hp₁ hp₂ hp₃ p.generator
    obtain ⟨hbatch', hq⟩ := next_of_empty hq₁ hq₂ hq₃ q.generator
    obtain ⟨h₁, h₂, h₃, h₄⟩ := turn_congr .host .guest hepoch hlt
      (hbatch.trans hbatch'.symm)
    rw [h₃, h₄]
    exact ⟨h₁, h₂, hp, hq⟩
  · rw [turn_of_le (not_lt.mp hlt), turn_of_le (hepoch ▸ not_lt.mp hlt)]
    exact ⟨rfl, hepoch, ⟨hp₁, hp₂, hp₃⟩, ⟨hq₁, hq₂, hq₃⟩⟩

theorem run_of_no_epoch (hepoch : c.epoch = 0) {role : Role} (p : Party np) (m : ℕ) :
    (c.run np role p m).1 = [] := by
  induction m with
  | zero => rfl
  | succ m ih =>
      have hturn : c.turn np role p = (none, p) := turn_of_le (by omega)
      simp [Params.run, hturn, ih]

theorem sameBatches_of_trivial (h : c.trivial) : SameBatches c := by
  intro np g g' m
  simp only [Params.batches]
  rcases init_cases c np with ⟨hinvalid, htruth⟩ | hinit
  · simp [DataLoader.init, hinvalid, htruth]
  · obtain ⟨g₁, hg⟩ := hinit g
    obtain ⟨g₁', hg'⟩ := hinit g'
    rw [hg, hg']
    by_cases hshort : c.n_samples ≤ 1
    · exact run_same_of_short hshort g₁ g₁' m
    · rcases h with hn | hbs | hepoch
      · exact absurd hn hshort
      · exact run_same_of_empty hbs (by omega) g₁ g₁' m
      · simp only [run_of_no_epoch hepoch]

end Same

/-! ## A generator that tells its states apart -/

/-- A seeded generator keeps the order of the rows, and one that has drawn noise reverses it. -/
def reversing : Numpy where
  State := Bool
  seed := fun _ => false
  shuffle := fun s n => (if s then (List.range n).reverse else List.range n, s)
  normal := fun _ _ => true
  shuffle_perm := by
    intro s n
    cases s with
    | false => exact List.Perm.refl _
    | true => exact List.reverse_perm _

section Reversing

variable {c : Params}

theorem map_getD_range {n : ℕ} {l : List ℕ} (h : ∀ i ∈ l, i < n) :
    l.map (fun i => (List.range n).getD i 0) = l := by
  conv_rhs => rw [← List.map_id l]
  exact List.map_congr_left fun i hi => by simp [h i hi]

/-- The first batch of an epoch whose rows are in their old order. -/
theorem next_reversing (c : Params) (hn : 0 < c.n_samples) (s : Bool) :
    (DataLoader.fresh c).next reversing s =
      (some ((if s then (List.range c.n_samples).reverse else List.range c.n_samples).take
          (min c.n_samples c.batch_size)),
        { DataLoader.fresh c with
            indices := if s then (List.range c.n_samples).reverse else List.range c.n_samples
            start := min c.n_samples c.batch_size }, s) := by
  have hmap : (if s then (List.range c.n_samples).reverse else List.range c.n_samples).map
      (fun i => (List.range c.n_samples).getD i 0) =
        if s then (List.range c.n_samples).reverse else List.range c.n_samples :=
    map_getD_range fun i hi => by
      cases s with
      | false => simpa using hi
      | true => simpa using hi
  have hshuffle : (DataLoader.fresh c).shuffle reversing s =
      ({ DataLoader.fresh c with
          indices := if s then (List.range c.n_samples).reverse else List.range c.n_samples },
        s) := by
    have hlen : (DataLoader.fresh c).indices.length = c.n_samples := by simp [DataLoader.fresh]
    simp only [DataLoader.shuffle, hlen]
    rw [← hmap]
    rfl
  have hstart : (DataLoader.fresh c).start = 0 := rfl
  simp only [DataLoader.next, hstart, hshuffle]
  simp [DataLoader.fresh, hn]
  rfl

/-- The batches and the end of an epoch that has begun: the loader is reset. -/
theorem rest_of_epoch (c : Params) (np : Numpy) {L : DataLoader} (hbs : 0 < L.batch_size)
    (hstart : 0 < L.start) {e : ℕ} (he : e < c.epoch) :
    ∃ m B, ∀ (role : Role) (g : np.State), c.run np role ⟨e, L, g⟩ m =
      (B, ⟨e + 1, { L with start := 0 },
        if c.print_metrics then c.compute_metrics np role g else g⟩) := by
  have hsome : ∀ d, ∀ L : DataLoader, 0 < L.batch_size → 0 < L.start → L.n_samples - L.start ≤ d →
      ∃ m B, ∀ (role : Role) (g : np.State), c.run np role ⟨e, L, g⟩ m =
        (B, ⟨e + 1, { L with start := 0 },
          if c.print_metrics then c.compute_metrics np role g else g⟩) := by
    intro d
    induction d with
    | zero =>
        intro L _ hstart hd
        have hend : ¬ L.start < L.n_samples := by omega
        refine ⟨1, [], fun role g => ?_⟩
        simp [Params.run, Params.turn, he, DataLoader.next, hstart.ne', hend]
    | succ d ih =>
        intro L hbs hstart hd
        by_cases hlt : L.start < L.n_samples
        · obtain ⟨m, B, hrun⟩ := ih { L with start := L.start + L.batch_size } hbs
            (by simp; omega) (by simp; omega)
          refine ⟨m + 1, (L.indices.drop L.start).take
            (min (L.start + L.batch_size) L.n_samples - L.start) :: B, fun role g => ?_⟩
          have hturn : c.turn np role ⟨e, L, g⟩ =
              (some ((L.indices.drop L.start).take
                (min (L.start + L.batch_size) L.n_samples - L.start)),
                ⟨e, { L with start := L.start + L.batch_size }, g⟩) := by
            simp [Params.turn, he, DataLoader.next, hstart.ne', hlt]
          rw [Params.run, hturn]
          simp [hrun role g]
        · refine ⟨1, [], fun role g => ?_⟩
          simp [Params.run, Params.turn, he, DataLoader.next, hstart.ne', hlt]
  exact hsome _ L hbs hstart (le_refl _)

theorem run_add (np : Numpy) (role : Role) (p : Party np) (m m' : ℕ) :
    (c.run np role p (m + m')).1 =
      (c.run np role p m).1 ++ (c.run np role (c.run np role p m).2 m').1 := by
  induction m generalizing p with
  | zero => simp [Params.run]
  | succ m ih =>
      rw [Nat.succ_add, Params.run, Params.run]
      simp [ih]

theorem run_one (np : Numpy) (role : Role) (p : Party np) :
    c.run np role p 1 = ((c.turn np role p).1.toList, (c.turn np role p).2) := by
  simp [Params.run]

/-- Two rows in the two orders. -/
theorem take_reverse_ne {n k : ℕ} (hn : 2 ≤ n) (hk : 0 < k) :
    (List.range n).reverse.take k ≠ (List.range n).take k := by
  intro hsame
  have hfirst := congrArg (fun l : List ℕ => l[0]?) hsame
  simp [hk, (by omega : 0 < n)] at hfirst
  omega

theorem turn_reversing (hn : 0 < c.n_samples) {e : ℕ} (he : e < c.epoch) (role : Role)
    (s : Bool) :
    c.turn reversing role ⟨e, DataLoader.fresh c, s⟩ =
      (some ((if s then (List.range c.n_samples).reverse else List.range c.n_samples).take
          (min c.n_samples c.batch_size)),
        ⟨e, { DataLoader.fresh c with
            indices := if s then (List.range c.n_samples).reverse else List.range c.n_samples
            start := min c.n_samples c.batch_size }, s⟩) := by
  simp [Params.turn, he, next_reversing c hn s]

/-- **Without a seed the batches depend on what the generators were before.** -/
theorem truth_of_sameBatches (h : SameBatches c) (htrivial : ¬ c.trivial) :
    c.shuffle_seed.truth = true := by
  by_contra htruth
  simp only [Params.trivial, not_or] at htrivial
  obtain ⟨hn, hbs, hepoch⟩ := htrivial
  have hfirst : ∀ (role : Role) (s : Bool), c.batches reversing role s 1 =
      [(if s then (List.range c.n_samples).reverse else List.range c.n_samples).take
        (min c.n_samples c.batch_size)] := by
    intro role s
    have hinit : DataLoader.init reversing c.n_samples (min c.n_samples c.batch_size)
        c.shuffle_seed s = .ok (DataLoader.fresh c, s) := by
      simp [DataLoader.init, htruth, DataLoader.fresh]
    simp only [Params.batches, hinit, Params.run]
    rw [turn_reversing (by omega) (by omega)]
    rfl
  have hsame := h reversing true false 1
  rw [hfirst, hfirst] at hsame
  exact take_reverse_ne (by omega) (by omega) (List.head_eq_of_cons_eq hsame)

/-- **Noise in an epoch that is not the last one sets the generators apart.** -/
theorem quiet_of_sameBatches (h : SameBatches c) (htrivial : ¬ c.trivial)
    (htruth : c.shuffle_seed.truth = true) (hvalid : c.shuffle_seed.valid = true) :
    ¬ (c.drawsNoise ∧ 2 ≤ c.epoch) := by
  rintro ⟨⟨hprint, hmethod, hlabel⟩, hepoch⟩
  simp only [Params.trivial, not_or] at htrivial
  obtain ⟨hn, hbs, _⟩ := htrivial
  have hmin : 0 < min c.n_samples c.batch_size := by omega
  obtain ⟨m, B, hrest⟩ := rest_of_epoch c reversing
    (L := { DataLoader.fresh c with start := min c.n_samples c.batch_size })
    hmin hmin (e := 0) (by omega)
  have hinit : DataLoader.init reversing c.n_samples (min c.n_samples c.batch_size)
      c.shuffle_seed false = .ok (DataLoader.fresh c, false) := by
    cases hseed : c.shuffle_seed with
    | null => simp [hseed, ShuffleSeed.truth] at htruth
    | int s =>
        rw [hseed] at htruth hvalid
        simp [DataLoader.init, htruth, hvalid, DataLoader.fresh, reversing]
  -- the second epoch begins with a reversed order at the host only
  have hsecond : ∀ (role : Role), c.batches reversing role false (1 + (m + 1)) =
      (List.range c.n_samples).take (min c.n_samples c.batch_size) :: (B ++
        [(if role = .host then (List.range c.n_samples).reverse else List.range c.n_samples).take
          (min c.n_samples c.batch_size)]) := by
    intro role
    have hmetrics : (if c.print_metrics then c.compute_metrics reversing role false else false) =
        decide (role = .host) := by
      cases hl : c.label with
      | binary => exact absurd hl hlabel
      | multiclass output_dim =>
          cases role <;> simp [hprint, Params.compute_metrics, hmethod, hl, reversing]
    have hbegun : c.turn reversing role ⟨0, DataLoader.fresh c, false⟩ =
        (some ((List.range c.n_samples).take (min c.n_samples c.batch_size)),
          ⟨0, { DataLoader.fresh c with start := min c.n_samples c.batch_size }, false⟩) :=
      turn_reversing (by omega) (by omega) role false
    have hlast : (c.run reversing role ⟨1, DataLoader.fresh c, decide (role = .host)⟩ 1).1 =
        [(if role = .host then (List.range c.n_samples).reverse else List.range c.n_samples).take
          (min c.n_samples c.batch_size)] := by
      rw [run_one, turn_reversing (by omega) hepoch]
      simp
    simp only [Params.batches, hinit]
    rw [run_add, run_one, hbegun, run_add, hrest role false, hmetrics]
    exact congrArg (fun l => _ :: (B ++ l)) hlast
  have hsame := h reversing false false (1 + (m + 1))
  rw [hsecond, hsecond] at hsame
  have hlast := List.append_cancel_left (List.tail_eq_of_cons_eq hsame)
  exact take_reverse_ne (by omega) hmin (List.head_eq_of_cons_eq hlast)

end Reversing

/-- **The host and the guests see the same rows in every batch exactly when there is one order
only, or the seed is set (or refused) and the host draws no noise before its last shuffle.** -/
theorem sameBatches_iff (c : Params) : SameBatches c ↔ c.trivial ∨ c.inStep := by
  constructor
  · intro h
    by_cases htrivial : c.trivial
    · exact Or.inl htrivial
    · have htruth := truth_of_sameBatches h htrivial
      refine Or.inr ⟨htruth, ?_⟩
      by_cases hvalid : c.shuffle_seed.valid = true
      · exact Or.inr (quiet_of_sameBatches h htrivial htruth hvalid)
      · exact Or.inl (by simpa using hvalid)
  · rintro (htrivial | hstep)
    · exact sameBatches_of_trivial htrivial
    · exact sameBatches_of_inStep hstep

/-- Two rows, one epoch and the seed 0, which the examples use. -/
def seedZero : Params where
  n_samples := 2
  batch_size := 2
  epoch := 1
  shuffle_seed := .int 0
  print_metrics := true
  method := .Plaintext
  label := .binary

/-- The seed 0 is not set. -/
theorem not_sameBatches_seedZero : ¬ SameBatches seedZero := by
  intro h
  have hfirst := h reversing true false 1
  have hhost : seedZero.batches reversing .host true 1 = [[1, 0]] := rfl
  have hguest : seedZero.batches reversing .guest false 1 = [[0, 1]] := rfl
  rw [hhost, hguest] at hfirst
  exact absurd hfirst (by decide)

end Fediux.Vfl.Batches
