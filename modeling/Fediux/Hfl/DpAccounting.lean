import Mathlib
import Fediux.Basic.Fallible

set_option autoImplicit false

/-! # The privacy accounting of DPSGD

`LogisticRegressionClient.train` with the method `DPSGD`, from
`python/fediux/FL/logistic_regression/hfl_client.py`, as far as its numbers of rows, batches and
steps go, and `DPDataLoader` of `python/fediux/FL/utils/dataset.py`. The accountant gets a number
of steps that covers the training, but its sampling probability is taken over all rows of the
client, while the batches are drawn from the rows left for training (`covers_iff`).
-/

namespace Fediux.Hfl.DpAccounting

open Fallible

/-! ## The split -/

inductive TestSize where
  | int (k : ℤ)
  | float (q : ℚ)

/-- `train_test_split` of scikit-learn, as the number of rows that it leaves for training. It
raises where one of the two parts would have no rows. -/
structure Splitting where
  trainRows : ℕ → TestSize → Option ℕ
  pos : ∀ {n test_size k}, trainRows n test_size = some k → 0 < k
  lt : ∀ {n test_size k}, trainRows n test_size = some k → k < n

/-! ## The loader -/

/-- The rows of a batch: `size` of `rows`, drawn without replacement. -/
structure Draw where
  rows : ℕ
  size : ℕ

inductive Failure where
  | split
  | zeroDivision
  | unboundLocal

structure DPDataLoader where
  n_samples : ℕ
  batch_size : ℕ
  max_iter : ℕ
  num_iter : ℕ

namespace DPDataLoader

def init (n_samples batch_size : ℕ) : Except Failure DPDataLoader :=
  if batch_size = 0 then .error .zeroDivision
  else .ok { n_samples, batch_size, max_iter := n_samples / batch_size, num_iter := 0 }

/-- `__next__`: a batch, or `StopIteration`. -/
def next (loader : DPDataLoader) : Option Draw × DPDataLoader :=
  if loader.num_iter + 1 ≤ loader.max_iter then
    (some ⟨loader.n_samples, loader.batch_size⟩, { loader with num_iter := loader.num_iter + 1 })
  else (none, { loader with num_iter := 0 })

theorem num_iter_next {loader loader' : DPDataLoader} {draw : Draw}
    (h : loader.next = (some draw, loader')) :
    loader'.max_iter = loader.max_iter ∧ loader'.num_iter = loader.num_iter + 1 ∧
      loader.num_iter + 1 ≤ loader.max_iter := by
  unfold next at h
  split at h
  · rename_i hle
    cases h
    exact ⟨rfl, rfl, hle⟩
  · cases h

end DPDataLoader

/-! ## The training -/

/-- The loader, and the batches of the noisy gradient steps so far. -/
structure Training where
  loader : DPDataLoader
  fitted : List Draw

/-- `for batch_x, batch_y in train_dataloader: client.model.fit(batch_x, batch_y)`. -/
def localEpoch (t : Training) : Training :=
  match _h : t.loader.next with
  | (some draw, loader) => localEpoch { loader, fitted := t.fitted ++ [draw] }
  | (none, loader) => { t with loader }
termination_by t.loader.max_iter - t.loader.num_iter
decreasing_by
  obtain ⟨hmax, hnum, hle⟩ := DPDataLoader.num_iter_next _h
  simp only [hmax, hnum]
  omega

/-- The exchange of the models after the local epochs takes no gradient step. -/
def globalEpoch (local_epoch : ℕ) (t : Training) : Training := localEpoch^[local_epoch] t

/-- What the accountant composes: `count` times a Gaussian event on a Poisson sample. -/
structure DpEvent where
  sampling_probability : ℚ
  noise_multiplier : ℚ
  count : ℕ

structure Params where
  rows : ℕ
  test_size : Option TestSize
  batch_size : ℕ
  global_epoch : ℕ
  local_epoch : ℕ
  noise_multiplier : ℚ

/-- The event that `compute_epsilon` hands to the accountant. Without noise it returns infinity. -/
def compute_epsilon (num_examples : ℕ) (noise_multiplier : ℚ) (steps batch_size : ℕ) :
    Option DpEvent :=
  if noise_multiplier = 0 then none
  else some { sampling_probability := batch_size / num_examples, noise_multiplier, count := steps }

structure Outcome where
  trained : Training
  event : Option DpEvent

def train (S : Splitting) (p : Params) : Except Failure Outcome := do
  let test_size := p.test_size.getD (.float (1 / 5))
  let n_train ← (S.trainRows p.rows test_size).elim (.error .split) .ok
  let num_examples := p.rows
  let batch_size := min num_examples p.batch_size
  let train_dataloader ← DPDataLoader.init n_train batch_size
  let trained := (globalEpoch p.local_epoch)^[p.global_epoch] ⟨train_dataloader, []⟩
  -- `local_epoch` is first set in the loop
  if p.global_epoch = 0 then .error .unboundLocal
  else
    let steps := p.global_epoch * p.local_epoch * num_examples / batch_size
    return { trained, event := compute_epsilon num_examples p.noise_multiplier steps batch_size }

/-- The accountant's probability and number of steps are no less than those of the training. -/
structure DpEvent.Covers (event : DpEvent) (t : Training) : Prop where
  probability : (t.loader.batch_size : ℚ) / t.loader.n_samples ≤ event.sampling_probability
  steps : t.fitted.length ≤ event.count

def Covers (S : Splitting) (p : Params) : Prop :=
  ∀ outcome event, train S p = .ok outcome → outcome.event = some event →
    event.Covers outcome.trained

/-- Nothing fails before the accounting, and there is noise to account for. -/
structure Accounted (S : Splitting) (p : Params) : Prop where
  split : S.trainRows p.rows (p.test_size.getD (.float (1 / 5))) ≠ none
  batch_size : p.batch_size ≠ 0
  global_epoch : p.global_epoch ≠ 0
  noise_multiplier : p.noise_multiplier ≠ 0

/-! ## The steps of the training -/

/-- The batches that the loader gives before it stops. -/
def DPDataLoader.rest (loader : DPDataLoader) : List Draw :=
  List.replicate (loader.max_iter - loader.num_iter) ⟨loader.n_samples, loader.batch_size⟩

/-- One turn of the loop, by what the loader answers. -/
theorem localEpoch_of_next {t : Training} {answer : Option Draw} {loader : DPDataLoader}
    (h : t.loader.next = (answer, loader)) :
    localEpoch t = match answer with
      | some draw => localEpoch { loader, fitted := t.fitted ++ [draw] }
      | none => { t with loader } := by
  rw [localEpoch]
  split
  · rename_i draw loader' heq
    cases h.symm.trans heq
    rfl
  · rename_i loader' heq
    cases h.symm.trans heq
    rfl

theorem localEpoch_of_batch {t : Training} (h : t.loader.num_iter + 1 ≤ t.loader.max_iter) :
    localEpoch t = localEpoch {
      loader := { t.loader with num_iter := t.loader.num_iter + 1 }
      fitted := t.fitted ++ [⟨t.loader.n_samples, t.loader.batch_size⟩] } :=
  localEpoch_of_next (if_pos h)

theorem localEpoch_of_stop {t : Training} (h : ¬ t.loader.num_iter + 1 ≤ t.loader.max_iter) :
    localEpoch t = { t with loader := { t.loader with num_iter := 0 } } :=
  localEpoch_of_next (if_neg h)

/-- **A local epoch** takes the batches that are left, and the loader starts again. -/
theorem localEpoch_eq (t : Training) :
    localEpoch t = {
      loader := { t.loader with num_iter := 0 }
      fitted := t.fitted ++ t.loader.rest } := by
  -- on the batches that are left
  induction hk : t.loader.max_iter - t.loader.num_iter generalizing t with
  | zero =>
      rw [localEpoch_of_stop (by omega), DPDataLoader.rest, hk, List.replicate_zero,
        List.append_nil]
  | succ k ih =>
      have hrest : t.loader.rest = ⟨t.loader.n_samples, t.loader.batch_size⟩ ::
          List.replicate k ⟨t.loader.n_samples, t.loader.batch_size⟩ := by
        rw [DPDataLoader.rest, hk, List.replicate_succ]
      have hk' : t.loader.max_iter - (t.loader.num_iter + 1) = k := by omega
      rw [localEpoch_of_batch (by omega), ih _ hk', hrest, DPDataLoader.rest, hk',
        List.append_assoc]
      rfl

/-- Epochs from a new loader. -/
theorem iterate_localEpoch {loader : DPDataLoader} (h : loader.num_iter = 0) (n : ℕ)
    (fitted : List Draw) :
    localEpoch^[n] ⟨loader, fitted⟩ = ⟨loader, fitted ++
      List.replicate (n * loader.max_iter) ⟨loader.n_samples, loader.batch_size⟩⟩ := by
  induction n generalizing fitted with
  | zero =>
      rw [Function.iterate_zero, id, Nat.zero_mul, List.replicate_zero, List.append_nil]
  | succ n ih =>
      have hone : localEpoch ⟨loader, fitted⟩ = ⟨loader, fitted ++
          List.replicate loader.max_iter ⟨loader.n_samples, loader.batch_size⟩⟩ := by
        cases loader
        cases h
        exact localEpoch_eq _
      rw [Function.iterate_succ_apply, hone, ih, List.append_assoc, List.replicate_append_replicate,
        Nat.succ_mul, Nat.add_comm loader.max_iter]

/-- **The whole training.** -/
theorem training_eq {loader : DPDataLoader} (h : loader.num_iter = 0) (local_epoch n : ℕ) :
    (globalEpoch local_epoch)^[n] ⟨loader, []⟩ = ⟨loader,
      List.replicate (n * local_epoch * loader.max_iter)
        ⟨loader.n_samples, loader.batch_size⟩⟩ := by
  have hglobal : globalEpoch local_epoch = localEpoch^[local_epoch] := rfl
  rw [hglobal, ← Function.iterate_mul, iterate_localEpoch h, List.nil_append,
    Nat.mul_comm local_epoch]

/-! ## The numbers of the accountant -/

section Run

variable {S : Splitting} {p : Params}

/-- The batch size of the loader. -/
def Params.batch (p : Params) : ℕ := min p.rows p.batch_size

/-- The rows that are left for training. -/
def Params.trainRows (p : Params) (S : Splitting) : Option ℕ :=
  S.trainRows p.rows (p.test_size.getD (.float (1 / 5)))

/-- The end of a run in which `n_train` rows are left for training. -/
def outcomeOf (p : Params) (n_train : ℕ) : Outcome where
  trained := {
    loader := ⟨n_train, p.batch, n_train / p.batch, 0⟩
    fitted := List.replicate (p.global_epoch * p.local_epoch * (n_train / p.batch))
      ⟨n_train, p.batch⟩ }
  event := compute_epsilon p.rows p.noise_multiplier
    (p.global_epoch * p.local_epoch * p.rows / p.batch) p.batch

theorem exists_event (h : p.noise_multiplier ≠ 0) (n_train : ℕ) :
    ∃ event, (outcomeOf p n_train).event = some event := ⟨_, if_neg h⟩

theorem train_eq {n_train : ℕ} (hsplit : p.trainRows S = some n_train) :
    train S p = if p.batch = 0 then .error .zeroDivision
      else if p.global_epoch = 0 then .error .unboundLocal else .ok (outcomeOf p n_train) := by
  have hrows : (S.trainRows p.rows (p.test_size.getD (.float (1 / 5)))).elim
      (.error .split) .ok = (.ok n_train : Except Failure ℕ) := by
    rw [Params.trainRows] at hsplit
    rw [hsplit]
    rfl
  unfold train
  simp only [hrows]
  show (DPDataLoader.init n_train p.batch >>= _) = _
  rw [DPDataLoader.init]
  by_cases hbatch : p.batch = 0
  · rw [if_pos hbatch, if_pos hbatch]
    rfl
  · rw [if_neg hbatch, if_neg hbatch]
    by_cases hglobal : p.global_epoch = 0
    · rw [if_pos hglobal]
      exact if_pos hglobal
    · rw [if_neg hglobal]
      refine (if_neg hglobal).trans ?_
      rw [training_eq rfl]
      rfl

/-- A run that comes to its end. -/
theorem train_eq_ok_iff {outcome : Outcome} :
    train S p = .ok outcome ↔ ∃ n_train, p.trainRows S = some n_train ∧ p.batch ≠ 0 ∧
      p.global_epoch ≠ 0 ∧ outcome = outcomeOf p n_train := by
  cases hsplit : p.trainRows S with
  | none =>
      have hfail : train S p = .error .split := by
        rw [Params.trainRows] at hsplit
        rw [train, hsplit]
        rfl
      rw [hfail]
      constructor
      · intro h
        cases h
      · rintro ⟨n_train, h, -⟩
        cases h
  | some n_train =>
      rw [train_eq hsplit]
      by_cases hbatch : p.batch = 0
      · simp [hbatch]
      · by_cases hglobal : p.global_epoch = 0
        · simp [hbatch, hglobal]
        · simp [hbatch, hglobal, eq_comm]

theorem compute_epsilon_eq_some {num_examples steps batch_size : ℕ} {noise_multiplier : ℚ}
    {event : DpEvent}
    (h : compute_epsilon num_examples noise_multiplier steps batch_size = some event) :
    noise_multiplier ≠ 0 ∧ event.sampling_probability = batch_size / num_examples ∧
      event.count = steps := by
  unfold compute_epsilon at h
  split at h
  · cases h
  · rename_i hnoise
    obtain rfl := Option.some.inj h
    exact ⟨hnoise, rfl, rfl⟩

/-- **The number of steps** given to the accountant is enough. -/
theorem steps_covered {outcome : Outcome} (h : train S p = .ok outcome) {event : DpEvent}
    (hevent : outcome.event = some event) : outcome.trained.fitted.length ≤ event.count := by
  obtain ⟨n_train, hsplit, -, -, rfl⟩ := train_eq_ok_iff.mp h
  obtain ⟨-, -, hcount⟩ := compute_epsilon_eq_some hevent
  calc (outcomeOf p n_train).trained.fitted.length
      = p.global_epoch * p.local_epoch * (n_train / p.batch) := List.length_replicate
    _ ≤ p.global_epoch * p.local_epoch * n_train / p.batch := Nat.mul_div_le_mul_div_assoc _ _ _
    _ ≤ p.global_epoch * p.local_epoch * p.rows / p.batch :=
        Nat.div_le_div_right (Nat.mul_le_mul_left _ (S.lt hsplit).le)
    _ = event.count := hcount.symm

/-- **The sampling probability** given to the accountant is below that of the batches. -/
theorem probability_lt {outcome : Outcome} (h : train S p = .ok outcome) {event : DpEvent}
    (hevent : outcome.event = some event) :
    event.sampling_probability <
      (outcome.trained.loader.batch_size : ℚ) / outcome.trained.loader.n_samples := by
  obtain ⟨n_train, hsplit, hbatch, -, rfl⟩ := train_eq_ok_iff.mp h
  obtain ⟨-, hprobability, -⟩ := compute_epsilon_eq_some hevent
  have hbatch' : (0 : ℚ) < p.batch := by exact_mod_cast Nat.pos_of_ne_zero hbatch
  have hpos : (0 : ℚ) < n_train := by exact_mod_cast S.pos hsplit
  have hlt : (n_train : ℚ) < p.rows := by exact_mod_cast S.lt hsplit
  rw [hprobability]
  exact div_lt_div_of_pos_left hbatch' hpos hlt

theorem accounted_iff :
    (∃ outcome event, train S p = .ok outcome ∧ outcome.event = some event) ↔ Accounted S p := by
  constructor
  · rintro ⟨outcome, event, h, hevent⟩
    obtain ⟨n_train, hsplit, hbatch, hglobal, rfl⟩ := train_eq_ok_iff.mp h
    refine ⟨?_, ?_, hglobal, (compute_epsilon_eq_some hevent).1⟩
    · intro hnone
      rw [Params.trainRows, hnone] at hsplit
      cases hsplit
    · intro hzero
      exact hbatch (Nat.min_eq_zero_iff.mpr (Or.inr hzero))
  · intro h
    obtain ⟨n_train, hsplit⟩ := Option.ne_none_iff_exists'.mp h.split
    have hrows : p.rows ≠ 0 := Nat.ne_zero_of_lt (S.lt hsplit)
    have hbatch : p.batch ≠ 0 := by
      intro hzero
      rcases Nat.min_eq_zero_iff.mp hzero with h0 | h0
      · exact hrows h0
      · exact h.batch_size h0
    have htrain := train_eq_ok_iff.mpr ⟨n_train, hsplit, hbatch, h.global_epoch, rfl⟩
    obtain ⟨event, hevent⟩ := exists_event h.noise_multiplier n_train
    exact ⟨outcomeOf p n_train, event, htrain, hevent⟩

end Run

/-- **When the accounting covers the training**: only where there is none. -/
theorem covers_iff (S : Splitting) (p : Params) : Covers S p ↔ ¬ Accounted S p := by
  rw [← accounted_iff]
  constructor
  · rintro hcovers ⟨outcome, event, h, hevent⟩
    exact absurd (hcovers outcome event h hevent).probability (not_le.mpr (probability_lt h hevent))
  · intro hnone outcome event h hevent
    exact absurd ⟨outcome, event, h, hevent⟩ hnone

/-- The split in exact arithmetic: a number of test rows, or a part of all rows, rounded up. -/
def exactSplit : Splitting where
  trainRows n
    | .int k => if 0 < k ∧ k < n then some (n - k.toNat) else none
    | .float q => if 0 < q ∧ q < 1 ∧ ⌈q * n⌉₊ < n then some (n - ⌈q * n⌉₊) else none
  pos {n test_size k} h := by
    cases test_size with
    | int k =>
        obtain ⟨hk, h⟩ := Option.ite_none_right_eq_some.mp h
        obtain rfl := Option.some.inj h
        omega
    | float q =>
        obtain ⟨⟨-, -, hlt⟩, h⟩ := Option.ite_none_right_eq_some.mp h
        obtain rfl := Option.some.inj h
        omega
  lt {n test_size k} h := by
    cases test_size with
    | int k =>
        obtain ⟨hk, h⟩ := Option.ite_none_right_eq_some.mp h
        obtain rfl := Option.some.inj h
        omega
    | float q =>
        obtain ⟨⟨hpos, -, hlt⟩, h⟩ := Option.ite_none_right_eq_some.mp h
        obtain rfl := Option.some.inj h
        have hn : (0 : ℚ) < n := by exact_mod_cast Nat.zero_lt_of_lt hlt
        have hceil : 0 < ⌈q * n⌉₊ := Nat.ceil_pos.mpr (mul_pos hpos hn)
        omega

/-- Ten rows, of which eight are left for training, in batches of two. -/
def tenRows : Params where
  rows := 10
  test_size := none
  batch_size := 2
  global_epoch := 1
  local_epoch := 1
  noise_multiplier := 1

theorem not_covers_tenRows : ¬ Covers exactSplit tenRows := by
  have hceil : ⌈(1 / 5 : ℚ) * (10 : ℕ)⌉₊ = 2 := by norm_num
  have hsplit : tenRows.trainRows exactSplit = some 8 := by
    have hin : (0 : ℚ) < 1 / 5 ∧ (1 / 5 : ℚ) < 1 ∧ ⌈(1 / 5 : ℚ) * (10 : ℕ)⌉₊ < 10 := by
      rw [hceil]
      norm_num
    calc tenRows.trainRows exactSplit
        = some (10 - ⌈(1 / 5 : ℚ) * (10 : ℕ)⌉₊) := if_pos hin
      _ = some 8 := by rw [hceil]
  have htrain : train exactSplit tenRows = .ok (outcomeOf tenRows 8) :=
    train_eq_ok_iff.mpr ⟨8, hsplit, by decide, by decide, rfl⟩
  have hnoise : tenRows.noise_multiplier ≠ 0 := one_ne_zero
  obtain ⟨event, hevent⟩ := exists_event hnoise 8
  intro hcovers
  exact absurd (hcovers _ _ htrain hevent).probability
    (not_le.mpr (probability_lt htrain hevent))

end Fediux.Hfl.DpAccounting
