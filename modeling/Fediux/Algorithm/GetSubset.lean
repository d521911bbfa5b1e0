import Fediux.Basic.Epochs

set_option autoImplicit false

/-! # Mini-batches without replacement

`getSubset` (`algorithm/regression.h`) fills a batch from a pool of indices and shuffles the pool
each time it has been used up. A training calls it once for each iteration, with a pool that is
used up at the start. The shuffle and its generator are parameters; all that counts is that a
shuffle permutes. `getSubset_balanced` says how often each row of the data is in the batches.
-/

namespace Fediux.Regression

open Epochs (InEpochs)

variable {γ α : Type}

/-- `pool`, `poolIter` and the state of `prng`. -/
structure Sampler (γ α : Type) where
  pool : List α
  poolIter : ℕ
  prng : γ

/-- `std::shuffle` with a generator. -/
structure Shuffle (γ α : Type) where
  shuffle : γ → List α → List α × γ
  perm : ∀ g pool, (shuffle g pool).1.Perm pool

/-- The pool is shuffled once its end is reached. -/
def Sampler.refill (sh : Shuffle γ α) (s : Sampler γ α) : Sampler γ α :=
  if s.poolIter = s.pool.length then
    let (pool, prng) := sh.shuffle s.prng s.pool
    { pool := pool, poolIter := 0, prng := prng }
  else s

/-- The loop of `getSubset` for the last `left` places of `dest`, in at most `fuel` rounds. -/
def getSubset (sh : Shuffle γ α) : ℕ → ℕ → Sampler γ α → Option (List α × Sampler γ α)
  | _, 0, s => some ([], s)
  | 0, _ + 1, _ => none
  | fuel + 1, left + 1, s =>
      let step := min (s.pool.length - s.poolIter) (left + 1)
      let copied := (s.pool.drop s.poolIter).take step
      let s := { s with poolIter := s.poolIter + step }.refill sh
      (getSubset sh fuel (left + 1 - step) s).map fun (dest, s) => (copied ++ dest, s)

/-- The batches of the first iterations. -/
def getSubsets (sh : Shuffle γ α) (fuel mBatchSize : ℕ) :
    ℕ → Sampler γ α → Option (List (List α) × Sampler γ α)
  | 0, s => some ([], s)
  | iterations + 1, s => do
      let (batch, s) ← getSubset sh fuel mBatchSize s
      let (batches, s) ← getSubsets sh fuel mBatchSize iterations s
      return (batch :: batches, s)

/-- The indices of `rows` rows, with the iterator at their end. -/
def sampler (rows : ℕ) (prng : γ) : Sampler γ (Fin rows) where
  pool := List.finRange rows
  poolIter := rows
  prng := prng

/-! ## One batch -/

/-- What has been drawn, followed by the rest of the pool, is full epochs. -/
structure Drawn (base drawn : List α) (s : Sampler γ α) : Prop where
  perm : s.pool.Perm base
  le : s.poolIter ≤ s.pool.length
  epochs : ∃ epochs : List (List α), (∀ e ∈ epochs, e.Perm base) ∧
    drawn ++ s.pool.drop s.poolIter = epochs.flatten

variable (sh : Shuffle γ α) {fuel left : ℕ} {base drawn : List α} {s : Sampler γ α}

theorem drawn_sampler (rows : ℕ) (prng : γ) :
    Drawn (List.finRange rows) [] (sampler rows prng) where
  perm := List.Perm.refl _
  le := by simp [sampler]
  epochs := ⟨[], by simp, by simp [sampler]⟩

theorem Drawn.inEpochs (h : Drawn base drawn s) : InEpochs base drawn := by
  obtain ⟨epochs, hperm, heq⟩ := h.epochs
  exact ⟨epochs, hperm, heq ▸ List.prefix_append _ _⟩

theorem Drawn.pool_length (h : Drawn base drawn s) : s.pool.length = base.length :=
  h.perm.length_eq

/-- Copying from the pool moves what is copied to what has been drawn. -/
theorem Drawn.copy (h : Drawn base drawn s) (step : ℕ)
    (hstep : step ≤ s.pool.length - s.poolIter) :
    Drawn base (drawn ++ (s.pool.drop s.poolIter).take step)
      { s with poolIter := s.poolIter + step } where
  perm := h.perm
  le := by
    have hle := h.le
    dsimp only
    omega
  epochs := by
    obtain ⟨epochs, hperm, heq⟩ := h.epochs
    refine ⟨epochs, hperm, ?_⟩
    rw [← List.drop_drop, List.append_assoc, List.take_append_drop, heq]

/-- A shuffle begins a new epoch. -/
theorem Drawn.refill (h : Drawn base drawn s) : Drawn base drawn (s.refill sh) := by
  unfold Sampler.refill
  split
  next hend =>
    obtain ⟨epochs, hperm, heq⟩ := h.epochs
    have hnew : (sh.shuffle s.prng s.pool).1.Perm base :=
      (sh.perm s.prng s.pool).trans h.perm
    refine ⟨hnew, Nat.zero_le _, epochs ++ [(sh.shuffle s.prng s.pool).1], fun e he => ?_, ?_⟩
    · rcases List.mem_append.mp he with he | he
      · exact hperm e he
      · rw [List.mem_singleton.mp he]
        exact hnew
    · rw [hend, List.drop_length, List.append_nil] at heq
      rw [heq]
      simp
  next => exact h

theorem poolIter_refill_lt (h : Drawn base drawn s) (hbase : base ≠ []) :
    (s.refill sh).poolIter < (s.refill sh).pool.length := by
  have hlen := (h.refill sh).pool_length
  rw [hlen]
  unfold Sampler.refill
  split
  next => exact List.length_pos_of_ne_nil hbase
  next hend =>
    have hle := h.le
    have hpool := h.pool_length
    omega

/-- What a call that returns has done: the batch is full, and the draws go on. -/
def Fills (sh : Shuffle γ α) (base : List α) (fuel left : ℕ) (drawn : List α)
    (s : Sampler γ α) : Prop :=
  ∃ dest s', getSubset sh fuel left s = some (dest, s') ∧ dest.length = left ∧
    Drawn base (drawn ++ dest) s'

/-- One round of the loop, before the others. -/
theorem fills_round
    (hrest : ∀ step, step = min (s.pool.length - s.poolIter) (left + 1) →
      Fills sh base fuel (left + 1 - step) (drawn ++ (s.pool.drop s.poolIter).take step)
        ({ s with poolIter := s.poolIter + step }.refill sh)) :
    Fills sh base (fuel + 1) (left + 1) drawn s := by
  obtain ⟨dest, s', hcall, hlen, hdrawn⟩ := hrest _ rfl
  refine ⟨(s.pool.drop s.poolIter).take (min (s.pool.length - s.poolIter) (left + 1)) ++ dest, s',
    ?_, ?_, ?_⟩
  · rw [getSubset, hcall]
    rfl
  · rw [List.length_append, List.length_take, List.length_drop, hlen]
    omega
  · rw [List.append_assoc] at hdrawn
    exact hdrawn

theorem fills_of_le (hbase : base ≠ []) (h : Drawn base drawn s) (hin : s.poolIter < s.pool.length)
    (hfuel : left ≤ fuel) : Fills sh base fuel left drawn s := by
  induction fuel generalizing left drawn s with
  | zero =>
      obtain rfl : left = 0 := by omega
      exact ⟨[], s, rfl, rfl, by simpa using h⟩
  | succ fuel ih =>
      cases left with
      | zero => exact ⟨[], s, rfl, rfl, by simpa using h⟩
      | succ left =>
          refine fills_round sh fun step hstep => ?_
          -- at least one index is copied, and the pool is not at its end afterwards
          have hcopy := h.copy step (by omega)
          exact ih (hcopy.refill sh) (poolIter_refill_lt sh hcopy hbase) (by omega)

/-- **A batch can be filled from every pool that is not empty.** -/
theorem fills (hbase : base ≠ []) (h : Drawn base drawn s) (hfuel : left < fuel) :
    Fills sh base fuel left drawn s := by
  cases fuel with
  | zero => omega
  | succ fuel =>
      cases left with
      | zero => exact ⟨[], s, rfl, rfl, by simpa using h⟩
      | succ left =>
          refine fills_round sh fun step hstep => ?_
          have hcopy := h.copy step (by omega)
          exact fills_of_le sh hbase (hcopy.refill sh) (poolIter_refill_lt sh hcopy hbase)
            (by omega)

/-- From an empty pool the loop goes on for ever. -/
theorem getSubset_empty (h : Drawn [] drawn s) (fuel : ℕ) :
    getSubset sh fuel (left + 1) s = none := by
  induction fuel generalizing s with
  | zero => rfl
  | succ fuel ih =>
      have hlen := h.pool_length
      have hcopy := h.copy 0 (Nat.zero_le _)
      rw [getSubset, hlen, List.length_nil, Nat.zero_sub, Nat.zero_min]
      simp only [Nat.sub_zero]
      rw [ih (by simpa using hcopy.refill sh)]
      rfl

/-! ## The batches of a training -/

variable {mBatchSize iterations : ℕ}

theorem getSubsets_drawn (hbase : base ≠ []) (hfuel : mBatchSize < fuel) (iterations : ℕ)
    (h : Drawn base drawn s) :
    ∃ batches s', getSubsets sh fuel mBatchSize iterations s = some (batches, s') ∧
      batches.length = iterations ∧ (∀ batch ∈ batches, batch.length = mBatchSize) ∧
      Drawn base (drawn ++ batches.flatten) s' := by
  induction iterations generalizing drawn s with
  | zero => exact ⟨[], s, rfl, rfl, by simp, by simpa using h⟩
  | succ iterations ih =>
      obtain ⟨batch, s₁, hbatch, hlen, h₁⟩ := fills sh hbase h hfuel
      obtain ⟨batches, s', hbatches, hcount, hall, h'⟩ := ih h₁
      refine ⟨batch :: batches, s', by simp [getSubsets, hbatch, hbatches], by simp [hcount],
        ?_, ?_⟩
      · intro b hb
        rcases List.mem_cons.mp hb with rfl | hb
        · exact hlen
        · exact hall b hb
      · rwa [List.flatten_cons, ← List.append_assoc]

/-- **The rows of the data take turns.** However the pool is shuffled, over all iterations every
row is in the batches as often as the others, up to one time. -/
theorem getSubset_balanced {rows : ℕ} (sh : Shuffle γ (Fin rows)) (prng : γ) (hrows : 0 < rows)
    (hfuel : mBatchSize < fuel) (iterations : ℕ) :
    ∃ batches s', getSubsets sh fuel mBatchSize iterations (sampler rows prng)
        = some (batches, s') ∧
      batches.length = iterations ∧ (∀ batch ∈ batches, batch.length = mBatchSize) ∧
      ∀ i, iterations * mBatchSize / rows ≤ batches.flatten.count i ∧
        batches.flatten.count i ≤ iterations * mBatchSize / rows + 1 := by
  have hbase : List.finRange rows ≠ [] := by
    rw [← List.length_pos_iff, List.length_finRange]
    exact hrows
  obtain ⟨batches, s', hcall, hcount, hall, h⟩ :=
    getSubsets_drawn sh hbase hfuel iterations (drawn_sampler rows prng)
  rw [List.nil_append] at h
  have htotal : batches.flatten.length = iterations * mBatchSize := by
    rw [List.length_flatten, List.map_congr_left hall, List.map_const', List.sum_replicate, hcount,
      smul_eq_mul]
  refine ⟨batches, s', hcall, hcount, hall, fun i => ?_⟩
  have hbounds := h.inEpochs.count_bounds (List.nodup_finRange rows) (List.mem_finRange i)
  rwa [htotal, List.length_finRange] at hbounds

/-- A generator that turns the pool by one place. -/
def turn (α : Type) : Shuffle Unit α where
  shuffle g pool := (pool.rotate 1, g)
  perm _ pool := List.rotate_perm pool 1

theorem getSubset_balanced_turn :
    ∃ batches s', getSubsets (turn (Fin 3)) 3 2 4 (sampler 3 ()) = some (batches, s') ∧
      batches.length = 4 ∧ (∀ batch ∈ batches, batch.length = 2) ∧
      ∀ i, 4 * 2 / 3 ≤ batches.flatten.count i ∧ batches.flatten.count i ≤ 4 * 2 / 3 + 1 :=
  getSubset_balanced (turn (Fin 3)) () (by decide) (by decide) 4

end Fediux.Regression
