import Fediux.Basic.Threads

set_option autoImplicit false

/-! # The queue that threads share

`ThreadSafeQueue` (`util/threadsafe_queue.h`) is a queue behind a mutex and a condition variable.
Any number of threads call it, and what another thread can see of a call happens in steps of its
own: the lock is taken, the predicate is looked at, the lock is given back to wait, one waiting
thread is notified. A waiting thread may also wake up without being notified.

In every run the items come out in the order in which they went in, each to one caller
(`Sound`). As long as nobody shuts the queue down, no wake-up is lost (`delivers`). A shutdown
notifies one thread only; `releases_iff` says when that is enough.
-/

namespace Fediux.ThreadSafeQueue

open Threads (Exclusive census census_update le_census census_le_census census_eq_zero
  census_le_one exists_of_census_ne_zero Settled Decreasing)
open Transition (run trace run_invariant run_cons_eq_some run_append step_of_mem_trace
  act_mem_of_mem_trace)

/-! ## The state -/

section Model

variable (θ T : Type)

/-- What a call gives back: an item, nothing (`try_pop` on an empty queue), or the value that was
there before (a pop after a shutdown). -/
inductive Result where
  | item (x : T)
  | nothing
  | untouched
  deriving DecidableEq, Repr

inductive Call where
  | emplace (x : T)
  | tryPop
  | waitAndPop
  | shutdown
  deriving DecidableEq, Repr

/-- How far the call of a thread has come. In `emplaced`, `trying`, `test`, `block`, `take` and
`unlock` the thread has the lock; `undefined` is behind a `front()` of an empty queue. -/
inductive Phase where
  | idle
  | emplace (x : T)
  | emplaced
  | notify
  | tryPop
  | trying
  | acquire
  | test
  | block
  | waiting
  | take
  | unlock (r : Result T)
  | shutdown
  | stopped
  | undefined
  deriving DecidableEq, Repr

/-- The queue and its callers. `pushed`, `popped` and `results` keep what has happened. -/
structure State where
  mQueue : List T
  mMutex : Option θ
  stop : Bool
  phase : θ → Phase T
  pushed : List T
  popped : List (θ × T)
  results : θ → List (Result T)

inductive Act where
  | call (t : θ) (c : Call T)
  | run (t : θ) (woken : Option θ)
  | spurious (t : θ)
  deriving DecidableEq, Repr

end Model

variable {θ T : Type}

def Phase.holdsLock : Phase T → Bool
  | .emplaced | .trying | .test | .block | .take | .unlock _ => true
  | _ => false

def Call.enter : Call T → Phase T
  | .emplace x => .emplace x
  | .tryPop => .tryPop
  | .waitAndPop => .acquire
  | .shutdown => .shutdown

def Result.item? : Result T → Option T
  | .item x => some x
  | _ => none

/-- The item that a thread has taken and not given to its caller yet. -/
def Phase.carried : Phase T → List T
  | .unlock (.item x) => [x]
  | _ => []

def start : State θ T where
  mQueue := []
  mMutex := none
  stop := false
  phase := fun _ => .idle
  pushed := []
  popped := []
  results := fun _ => []

section Step

variable [DecidableEq θ]

def State.set (s : State θ T) (t : θ) (p : Phase T) : State θ T :=
  { s with phase := Function.update s.phase t p }

/-- Take the lock and go on to the phase `p`. -/
def State.lock (s : State θ T) (t : θ) (p : Phase T) : Option (State θ T) :=
  match s.mMutex with
  | none => some ({ s with mMutex := some t }.set t p)
  | some _ => none

/-- Give the lock back and go on to the phase `p`. -/
def State.unlock (s : State θ T) (t : θ) (p : Phase T) : State θ T :=
  { s with mMutex := none }.set t p

/-- Take the first item of the queue. -/
def State.popFront (s : State θ T) (t : θ) (x : T) (rest : List T) : State θ T :=
  { s with mQueue := rest, popped := s.popped ++ [(t, x)] }.set t (.unlock (.item x))

variable [Fintype θ] [DecidableEq T]

/-- `notify_one` wakes one of the waiting threads, if there are any. -/
def State.notifyOne (s : State θ T) (t : θ) (woken : Option θ) : Option (State θ T) :=
  match woken with
  | some u => if s.phase u = .waiting then some ((s.set u .acquire).set t .idle) else none
  | none => if ∀ u, s.phase u ≠ .waiting then some (s.set t .idle) else none

/-- The next step of a thread inside its call. -/
def advance (s : State θ T) (t : θ) (woken : Option θ) : Option (State θ T) :=
  match s.phase t with
  | .idle => none
  | .emplace x =>
      { s with mQueue := s.mQueue ++ [x], pushed := s.pushed ++ [x] }.lock t .emplaced
  | .emplaced => some (s.unlock t .notify)
  | .notify => s.notifyOne t woken
  | .tryPop => s.lock t .trying
  | .trying =>
      match s.mQueue with
      | [] => some (s.set t (.unlock .nothing))
      | x :: rest => some (s.popFront t x rest)
  | .acquire => s.lock t .test
  | .test =>
      some (s.set t (if s.stop || !s.mQueue.isEmpty then .take else .block))
  | .block => some (s.unlock t .waiting)
  | .waiting => none
  | .take =>
      if s.stop then some (s.set t (.unlock .untouched))
      else
        match s.mQueue with
        | [] => some (s.set t .undefined)
        | x :: rest => some (s.popFront t x rest)
  | .unlock r =>
      some ({ s with results := Function.update s.results t (s.results t ++ [r]) }.unlock t .idle)
  | .shutdown => some ({ s with stop := true }.set t .stopped)
  | .stopped => s.notifyOne t woken
  | .undefined => none

def step (s : State θ T) : Act θ T → Option (State θ T)
  | .call t c => if s.phase t = .idle then some (s.set t c.enter) else none
  | .run t woken => advance s t woken
  | .spurious t => if s.phase t = .waiting then some (s.set t .acquire) else none

end Step

/-! ## What one step does -/

section Moves

variable [DecidableEq θ]

@[simp] theorem set_phase (s : State θ T) (t : θ) (p : Phase T) :
    (s.set t p).phase = Function.update s.phase t p := rfl

@[simp] theorem set_mQueue (s : State θ T) (t : θ) (p : Phase T) :
    (s.set t p).mQueue = s.mQueue := rfl

@[simp] theorem set_mMutex (s : State θ T) (t : θ) (p : Phase T) :
    (s.set t p).mMutex = s.mMutex := rfl

@[simp] theorem set_stop (s : State θ T) (t : θ) (p : Phase T) : (s.set t p).stop = s.stop := rfl

@[simp] theorem set_pushed (s : State θ T) (t : θ) (p : Phase T) :
    (s.set t p).pushed = s.pushed := rfl

@[simp] theorem set_popped (s : State θ T) (t : θ) (p : Phase T) :
    (s.set t p).popped = s.popped := rfl

@[simp] theorem set_results (s : State θ T) (t : θ) (p : Phase T) :
    (s.set t p).results = s.results := rfl

/-- What the steps of the queue can do: a thread moves on without the lock or with it, takes the
lock, puts an item in, takes one out, gives the lock back, or notifies. -/
inductive Move (s : State θ T) : Act θ T → State θ T → Prop where
  | call {t : θ} {c : Call T} (ht : s.phase t = .idle) : Move s (.call t c) (s.set t c.enter)
  | spurious {t : θ} (ht : s.phase t = .waiting) : Move s (.spurious t) (s.set t .acquire)
  | put {t : θ} {w : Option θ} {x : T} (ht : s.phase t = .emplace x) (hfree : s.mMutex = none) :
      Move s (.run t w) ({ s with
        mQueue := s.mQueue ++ [x], pushed := s.pushed ++ [x], mMutex := some t }.set t .emplaced)
  | emplaced {t : θ} {w : Option θ} (ht : s.phase t = .emplaced) :
      Move s (.run t w) ({ s with mMutex := none }.set t .notify)
  | wake {t u : θ} (ht : s.phase t = .notify ∨ s.phase t = .stopped)
      (hu : s.phase u = .waiting) :
      Move s (.run t (some u)) ((s.set u .acquire).set t .idle)
  | noOne {t : θ} (ht : s.phase t = .notify ∨ s.phase t = .stopped)
      (hnone : ∀ u, s.phase u ≠ .waiting) : Move s (.run t none) (s.set t .idle)
  | tryPop {t : θ} {w : Option θ} (ht : s.phase t = .tryPop) (hfree : s.mMutex = none) :
      Move s (.run t w) ({ s with mMutex := some t }.set t .trying)
  | nothing {t : θ} {w : Option θ} (ht : s.phase t = .trying) (hq : s.mQueue = []) :
      Move s (.run t w) (s.set t (.unlock .nothing))
  | pop {t : θ} {w : Option θ} {x : T} {rest : List T}
      (ht : s.phase t = .trying ∨ s.phase t = .take ∧ s.stop = false)
      (hq : s.mQueue = x :: rest) : Move s (.run t w) (s.popFront t x rest)
  | acquire {t : θ} {w : Option θ} (ht : s.phase t = .acquire) (hfree : s.mMutex = none) :
      Move s (.run t w) ({ s with mMutex := some t }.set t .test)
  | go {t : θ} {w : Option θ} (ht : s.phase t = .test) (hgo : s.stop = true ∨ s.mQueue ≠ []) :
      Move s (.run t w) (s.set t .take)
  | block {t : θ} {w : Option θ} (ht : s.phase t = .test) (hstop : s.stop = false)
      (hq : s.mQueue = []) : Move s (.run t w) (s.set t .block)
  | wait {t : θ} {w : Option θ} (ht : s.phase t = .block) :
      Move s (.run t w) ({ s with mMutex := none }.set t .waiting)
  | leave {t : θ} {w : Option θ} (ht : s.phase t = .take) (hstop : s.stop = true) :
      Move s (.run t w) (s.set t (.unlock .untouched))
  | undefined {t : θ} {w : Option θ} (ht : s.phase t = .take) (hstop : s.stop = false)
      (hq : s.mQueue = []) : Move s (.run t w) (s.set t .undefined)
  | unlock {t : θ} {w : Option θ} {r : Result T} (ht : s.phase t = .unlock r) :
      Move s (.run t w) ({ s with
        results := Function.update s.results t (s.results t ++ [r]), mMutex := none }.set t .idle)
  | shutdown {t : θ} {w : Option θ} (ht : s.phase t = .shutdown) :
      Move s (.run t w) ({ s with stop := true }.set t .stopped)

/-- Taking the lock needs the lock to be free. -/
theorem of_lock {s s' : State θ T} {t : θ} {p : Phase T} (h : s.lock t p = some s') :
    s.mMutex = none ∧ s' = { s with mMutex := some t }.set t p := by
  unfold State.lock at h
  split at h
  next hfree => exact ⟨hfree, (Option.some.inj h).symm⟩
  next => cases h

variable [Fintype θ] [DecidableEq T]

theorem of_notifyOne {s s' : State θ T} {t : θ} {w : Option θ}
    (ht : s.phase t = .notify ∨ s.phase t = .stopped) (h : s.notifyOne t w = some s') :
    Move s (.run t w) s' := by
  unfold State.notifyOne at h
  cases w with
  | some u =>
      dsimp only at h
      split at h
      next hu =>
        cases h
        exact .wake ht hu
      next => cases h
  | none =>
      dsimp only at h
      split at h
      next hnone =>
        cases h
        exact .noOne ht hnone
      next => cases h

theorem of_advance {s s' : State θ T} {t : θ} {w : Option θ} (h : advance s t w = some s') :
    Move s (.run t w) s' := by
  unfold advance at h
  split at h
  next => cases h
  next x ht =>
    obtain ⟨hfree, rfl⟩ := of_lock h
    exact .put ht hfree
  next ht =>
    cases h
    exact .emplaced ht
  next ht => exact of_notifyOne (Or.inl ht) h
  next ht =>
    obtain ⟨hfree, rfl⟩ := of_lock h
    exact .tryPop ht hfree
  next ht =>
    split at h
    next hq =>
      cases h
      exact .nothing ht hq
    next x rest hq =>
      cases h
      exact .pop (Or.inl ht) hq
  next ht =>
    obtain ⟨hfree, rfl⟩ := of_lock h
    exact .acquire ht hfree
  next ht =>
    cases h
    by_cases hgo : s.stop = true ∨ s.mQueue ≠ []
    · have hp : (s.stop || !s.mQueue.isEmpty) = true := by simpa using hgo
      rw [if_pos hp]
      exact .go ht hgo
    · have hp : ¬ (s.stop || !s.mQueue.isEmpty) = true := by simpa using hgo
      rw [if_neg hp]
      push Not at hgo
      exact .block ht (Bool.eq_false_of_not_eq_true hgo.1) hgo.2
  next ht =>
    cases h
    exact .wait ht
  next => cases h
  next ht =>
    split at h
    next hstop =>
      cases h
      exact .leave ht hstop
    next hstop =>
      have hgo : s.stop = false := Bool.eq_false_of_not_eq_true hstop
      split at h
      next hq =>
        cases h
        exact .undefined ht hgo hq
      next x rest hq =>
        cases h
        exact .pop (Or.inr ⟨ht, hgo⟩) hq
  next r ht =>
    cases h
    exact .unlock ht
  next ht =>
    cases h
    exact .shutdown ht
  next ht => exact of_notifyOne (Or.inr ht) h
  next => cases h

theorem move_of_step {s s' : State θ T} {a : Act θ T} (h : step s a = some s') : Move s a s' := by
  cases a with
  | call t c =>
      rw [step] at h
      split at h
      next ht =>
        cases h
        exact .call ht
      next => cases h
  | run t w => exact of_advance h
  | spurious t =>
      rw [step] at h
      split at h
      next ht =>
        cases h
        exact .spurious ht
      next => cases h

end Moves

/-! ## What holds in every run -/

section Soundness

variable [DecidableEq θ]

/-- The items come out in the order in which they went in, each to one caller, and `front()` is
never called on an empty queue. -/
structure Sound (s : State θ T) : Prop where
  mutex : Exclusive Phase.holdsLock s.mMutex s.phase
  fifo : s.pushed = s.popped.map Prod.snd ++ s.mQueue
  mine : ∀ t, (s.popped.filter (·.1 = t)).map Prod.snd
    = (s.results t).filterMap Result.item? ++ (s.phase t).carried
  blocked : ∀ t, s.phase t = .block → s.mQueue = []
  ready : ∀ t, s.phase t = .take → s.stop = true ∨ s.mQueue ≠ []
  defined : ∀ t, s.phase t ≠ .undefined
  untouched : ∀ t, Result.untouched ∈ s.results t ∨ s.phase t = .unlock .untouched →
    s.stop = true

variable {s s' : State θ T} {a : Act θ T}

theorem of_update {phase : θ → Phase T} {t v : θ} {p q : Phase T}
    (h : Function.update phase t p v = q) (hpq : p ≠ q) : phase v = q := by
  by_cases hv : v = t
  · subst hv
    rw [Function.update_self] at h
    exact absurd h hpq
  · rwa [Function.update_of_ne hv] at h

theorem carried_update {phase : θ → Phase T} {t : θ} {p : Phase T}
    (hp : p.carried = (phase t).carried) (v : θ) :
    (Function.update phase t p v).carried = (phase v).carried := by
  by_cases hv : v = t
  · subst hv
    rw [Function.update_self, hp]
  · rw [Function.update_of_ne hv]

theorem carried_enter (c : Call T) : c.enter.carried = [] := by
  cases c <;> rfl

omit [DecidableEq θ] in
/-- A thread that notifies is not the one that it wakes. -/
theorem ne_of_notify {t u : θ} (ht : s.phase t = .notify ∨ s.phase t = .stopped)
    (hu : s.phase u = .waiting) : t ≠ u := by
  rintro rfl
  rcases ht with ht | ht <;> rw [ht] at hu <;> cases hu

theorem Sound.not_undefined (h : Sound s) {t : θ} (ht : s.phase t = .take)
    (hstop : s.stop = false) : s.mQueue ≠ [] := by
  rcases h.ready t ht with hs | hq
  · rw [hstop] at hs
    cases hs
  · exact hq

theorem Sound.mutex_move (h : Sound s) (m : Move s a s') :
    Exclusive Phase.holdsLock s'.mMutex s'.phase := by
  have hx := h.mutex
  cases m with
  | @call t c ht =>
      have hc : c.enter.holdsLock = false := by cases c <;> rfl
      exact hx.keep (by rw [hc, ht]; rfl)
  | spurious ht => exact hx.keep (by rw [ht]; rfl)
  | put ht hfree =>
      rw [hfree] at hx
      exact hx.acquire rfl
  | emplaced ht => exact hx.release (by rw [ht]; rfl) rfl
  | @wake t u ht hu =>
      have hu' := hx.keep (t := u) (p := .acquire) (by rw [hu]; rfl)
      refine hu'.keep ?_
      rw [Function.update_of_ne (ne_of_notify ht hu)]
      rcases ht with ht | ht <;> rw [ht] <;> rfl
  | noOne ht hnone =>
      refine hx.keep ?_
      rcases ht with ht | ht <;> rw [ht] <;> rfl
  | tryPop ht hfree =>
      rw [hfree] at hx
      exact hx.acquire rfl
  | nothing ht hq => exact hx.keep (by rw [ht]; rfl)
  | pop ht hq =>
      refine hx.keep ?_
      rcases ht with ht | ⟨ht, _⟩ <;> rw [ht] <;> rfl
  | acquire ht hfree =>
      rw [hfree] at hx
      exact hx.acquire rfl
  | go ht hgo => exact hx.keep (by rw [ht]; rfl)
  | block ht hstop hq => exact hx.keep (by rw [ht]; rfl)
  | wait ht => exact hx.release (by rw [ht]; rfl) rfl
  | leave ht hstop => exact hx.keep (by rw [ht]; rfl)
  | undefined ht hstop hq => exact absurd hq (h.not_undefined ht hstop)
  | unlock ht => exact hx.release (by rw [ht]; rfl) rfl
  | shutdown ht => exact hx.keep (by rw [ht]; rfl)

theorem Sound.fifo_move (h : Sound s) (m : Move s a s') :
    s'.pushed = s'.popped.map Prod.snd ++ s'.mQueue := by
  have hf := h.fifo
  cases m with
  | @put t w x ht hfree => simp [hf]
  | @pop t w x rest ht hq =>
      rw [hq] at hf
      simp [State.popFront, hf]
  | _ => exact hf

/-- While a thread has the lock in `block` or `take`, the queue stays as it is. -/
theorem Sound.alone (h : Sound s) {v : θ} (hv : s.phase v = .block ∨ s.phase v = .take) :
    s.mMutex = some v := by
  refine (h.mutex v).mpr ?_
  rcases hv with hv | hv <;> rw [hv] <;> rfl

/-- A thread that takes an item has the lock. -/
theorem Sound.pops (h : Sound s) {t : θ}
    (ht : s.phase t = .trying ∨ s.phase t = .take ∧ s.stop = false) : s.mMutex = some t := by
  refine (h.mutex t).mpr ?_
  rcases ht with ht | ⟨ht, _⟩ <;> rw [ht] <;> rfl

theorem Sound.blocked_move (h : Sound s) (m : Move s a s') {v : θ} (hv : s'.phase v = .block) :
    s'.mQueue = [] := by
  cases m with
  | @call t c ht => exact h.blocked v (of_update hv (by cases c <;> nofun))
  | spurious ht => exact h.blocked v (of_update hv nofun)
  | put ht hfree =>
      have hlock := h.alone (Or.inl (of_update hv nofun))
      rw [hfree] at hlock
      cases hlock
  | emplaced ht => exact h.blocked v (of_update hv nofun)
  | wake ht hu => exact h.blocked v (of_update (of_update hv nofun) nofun)
  | noOne ht hnone => exact h.blocked v (of_update hv nofun)
  | tryPop ht hfree => exact h.blocked v (of_update hv nofun)
  | nothing ht hq => exact hq
  | pop ht hq =>
      -- the thread that takes an item has the lock, and so has one that is about to wait
      have hb : s.phase v = .block := of_update hv nofun
      have hq' := h.blocked v hb
      rw [hq] at hq'
      cases hq'
  | acquire ht hfree => exact h.blocked v (of_update hv nofun)
  | go ht hgo => exact h.blocked v (of_update hv nofun)
  | block ht hstop hq => exact hq
  | wait ht => exact h.blocked v (of_update hv nofun)
  | leave ht hstop => exact h.blocked v (of_update hv nofun)
  | undefined ht hstop hq => exact hq
  | unlock ht => exact h.blocked v (of_update hv nofun)
  | shutdown ht => exact h.blocked v (of_update hv nofun)

theorem Sound.ready_move (h : Sound s) (m : Move s a s') {v : θ} (hv : s'.phase v = .take) :
    s'.stop = true ∨ s'.mQueue ≠ [] := by
  cases m with
  | @call t c ht => exact h.ready v (of_update hv (by cases c <;> nofun))
  | spurious ht => exact h.ready v (of_update hv nofun)
  | put ht hfree => exact Or.inr (by simp)
  | emplaced ht => exact h.ready v (of_update hv nofun)
  | wake ht hu => exact h.ready v (of_update (of_update hv nofun) nofun)
  | noOne ht hnone => exact h.ready v (of_update hv nofun)
  | tryPop ht hfree => exact h.ready v (of_update hv nofun)
  | nothing ht hq => exact h.ready v (of_update hv nofun)
  | @pop t w x rest ht hq =>
      have htake : s.phase v = .take := of_update hv nofun
      have hvt : v = t := by
        have hlock := h.alone (Or.inr htake)
        rw [h.pops ht] at hlock
        exact (Option.some.inj hlock).symm
      subst hvt
      simp [State.popFront] at hv
  | acquire ht hfree => exact h.ready v (of_update hv nofun)
  | go ht hgo => exact hgo
  | block ht hstop hq => exact h.ready v (of_update hv nofun)
  | wait ht => exact h.ready v (of_update hv nofun)
  | leave ht hstop => exact Or.inl hstop
  | undefined ht hstop hq => exact h.ready v (of_update hv nofun)
  | unlock ht => exact h.ready v (of_update hv nofun)
  | shutdown ht => exact Or.inl rfl

theorem Sound.defined_move (h : Sound s) (m : Move s a s') (v : θ) :
    s'.phase v ≠ .undefined := by
  intro hv
  refine h.defined v ?_
  cases m with
  | @call t c ht => exact of_update hv (by cases c <;> nofun)
  | wake ht hu => exact of_update (of_update hv nofun) nofun
  | undefined ht hstop hq => exact absurd hq (h.not_undefined ht hstop)
  | _ => exact of_update hv nofun

theorem Sound.untouched_move (h : Sound s) (m : Move s a s') {v : θ}
    (hv : Result.untouched ∈ s'.results v ∨ s'.phase v = .unlock .untouched) :
    s'.stop = true := by
  have hstay {p : Phase T} {t : θ}
      (hv : Result.untouched ∈ s.results v ∨ Function.update s.phase t p v = .unlock .untouched)
      (hp : p ≠ .unlock .untouched) : s.stop = true :=
    h.untouched v (hv.imp_right fun hv => of_update hv hp)
  cases m with
  | @call t c ht => exact hstay hv (by cases c <;> nofun)
  | @wake t u ht hu =>
      have hu' : Result.untouched ∈ s.results v
          ∨ Function.update s.phase u .acquire v = .unlock .untouched :=
        hv.imp_right fun hv => of_update (t := t) (p := .idle) hv nofun
      exact hstay hu' nofun
  | leave ht hstop => exact hstop
  | @unlock t w r ht =>
      -- the results of the thread grow by the one it was about to give back
      rcases hv with hv | hv
      · by_cases hvt : v = t
        · subst hvt
          simp only [set_results, Function.update_self, List.mem_append,
            List.mem_singleton] at hv
          rcases hv with hv | rfl
          · exact h.untouched v (Or.inl hv)
          · exact h.untouched v (Or.inr ht)
        · simp only [set_results, Function.update_of_ne hvt] at hv
          exact h.untouched v (Or.inl hv)
      · exact h.untouched v (Or.inr (of_update hv nofun))
  | shutdown ht => rfl
  | _ => exact hstay hv nofun

theorem Sound.mine_move (h : Sound s) (m : Move s a s') (v : θ) :
    (s'.popped.filter (·.1 = v)).map Prod.snd
      = (s'.results v).filterMap Result.item? ++ (s'.phase v).carried := by
  have hm := h.mine v
  -- a step that neither takes an item nor ends a call
  have hstay {p : Phase T} {t : θ} (hp : p.carried = (s.phase t).carried) :
      (s.popped.filter (·.1 = v)).map Prod.snd = (s.results v).filterMap Result.item?
        ++ (Function.update s.phase t p v).carried := by
    rw [carried_update hp, hm]
  cases m with
  | @call t c ht => exact hstay (by rw [ht, carried_enter]; rfl)
  | @wake t u ht hu =>
      have hu' : (Phase.acquire : Phase T).carried = (s.phase u).carried := by rw [hu]; rfl
      have ht' : (Phase.idle : Phase T).carried
          = (Function.update s.phase u .acquire t).carried := by
        rw [Function.update_of_ne (ne_of_notify ht hu)]
        rcases ht with ht | ht <;> rw [ht] <;> rfl
      simp only [set_phase, set_popped, set_results]
      rw [carried_update ht', carried_update hu', hm]
  | noOne ht hnone =>
      refine hstay ?_
      rcases ht with ht | ht <;> rw [ht] <;> rfl
  | @pop t w x rest ht hq =>
      simp only [State.popFront, set_popped, set_results, set_phase, List.filter_append,
        List.map_append, hm]
      by_cases hv : v = t
      · subst hv
        have hnone : (s.phase v).carried = [] := by
          rcases ht with ht | ⟨ht, _⟩ <;> rw [ht] <;> rfl
        rw [hnone, Function.update_self]
        simp [Phase.carried]
      · simp [Function.update_of_ne hv, Ne.symm hv]
  | @unlock t w r ht =>
      simp only [set_popped, set_results, set_phase, hm]
      by_cases hv : v = t
      · subst hv
        simp only [Function.update_self, List.filterMap_append, ht]
        cases r <;> simp [Phase.carried, Result.item?]
      · simp [Function.update_of_ne hv]
  | @spurious t ht | @put t w x ht | @emplaced t w ht | @tryPop t w ht | @nothing t w ht
  | @acquire t w ht | @go t w ht | @block t w ht | @wait t w ht | @leave t w ht
  | @undefined t w ht | @shutdown t w ht => exact hstay (by rw [ht]; rfl)

theorem Sound.move (h : Sound s) (m : Move s a s') : Sound s' where
  mutex := h.mutex_move m
  fifo := h.fifo_move m
  mine := h.mine_move m
  blocked _ hv := h.blocked_move m hv
  ready _ hv := h.ready_move m hv
  defined := h.defined_move m
  untouched _ hv := h.untouched_move m hv

theorem sound_start : Sound (start : State θ T) where
  mutex t := by simp [start, Phase.holdsLock]
  fifo := rfl
  mine t := rfl
  blocked t ht := rfl
  ready t ht := nomatch ht
  defined t ht := nomatch ht
  untouched t ht := by simp [start] at ht

variable [Fintype θ] [DecidableEq T]

/-- **No item is lost, given out twice or out of order**, in whatever order the threads take
their steps. -/
theorem sound_of_run {acts : List (Act θ T)} {s : State θ T}
    (h : run step start acts = some s) : Sound s :=
  run_invariant Sound
    (fun _ he hs => hs.move (move_of_step (step_of_mem_trace he))) sound_start h

/-- **The items come out in the order in which they went in, each to one caller**; at most one
thread has the lock, `front()` is never called on an empty queue, and a pop comes back with
nothing only after a shutdown. -/
theorem each_given_once {acts : List (Act θ T)} {s : State θ T}
    (h : run step start acts = some s) :
    s.pushed = s.popped.map Prod.snd ++ s.mQueue ∧
    (∀ t, (s.popped.filter (·.1 = t)).map Prod.snd
      = (s.results t).filterMap Result.item? ++ (s.phase t).carried) ∧
    (∀ t u, (s.phase t).holdsLock = true → (s.phase u).holdsLock = true → t = u) ∧
    (∀ t, s.phase t ≠ .undefined) ∧ ∀ t, Result.untouched ∈ s.results t → s.stop = true := by
  have hs := sound_of_run h
  exact ⟨hs.fifo, hs.mine, fun _ _ ht hu => hs.mutex.unique ht hu, hs.defined,
    fun t ht => hs.untouched t (Or.inl ht)⟩

/-- One thread waits for an item, the other one brings it and wakes the first one. -/
def handOver : List (Act Bool ℕ) :=
  [.call false .waitAndPop, .run false none, .run false none, .run false none,
    .call true (.emplace 7), .run true none, .run true none, .run true (some false),
    .run false none, .run false none, .run false none, .run false none]

theorem each_given_once_handOver :
    ∃ s, run step start handOver = some s ∧ s.results false = [.item 7] ∧
      s.pushed = s.popped.map Prod.snd ++ s.mQueue :=
  ⟨_, rfl, rfl, (each_given_once (show run step start handOver = some _ from rfl)).1⟩

end Soundness

/-! ## No wake-up is lost -/

section Liveness

/-- The steps that the threads take by themselves: no new calls, and no wake-up without a
notification. -/
def Act.Internal : Act θ T → Prop
  | .run _ _ => True
  | _ => False

/-- How many steps a call still takes at most, with what it wakes. -/
def Phase.effort : Phase T → ℕ
  | .idle | .waiting | .undefined => 0
  | .unlock _ | .block => 1
  | .take | .trying => 2
  | .test | .tryPop => 3
  | .acquire => 4
  | .notify | .stopped => 5
  | .emplaced | .shutdown => 6
  | .emplace _ => 7

/-- One for each thread that will yet take an item or wake another thread for one. -/
def Phase.due : Phase T → ℕ
  | .emplaced | .notify | .acquire | .test | .take => 1
  | _ => 0

variable [Fintype θ]

def State.effort (s : State θ T) : ℕ := census Phase.effort s.phase

/-- While a thread waits, each item in the queue has a thread that is due to deal with it. -/
def Owed (queue : List T) (phase : θ → Phase T) : Prop :=
  (∃ t, phase t = .waiting) → queue.length ≤ census Phase.due phase

variable [DecidableEq θ] {s s' : State θ T} {a : Act θ T}

/-- The thread that notifies and the one that it wakes move together. -/
theorem census_wake (weight : Phase T → ℕ) {t u : θ}
    (ht : s.phase t = .notify ∨ s.phase t = .stopped) (hu : s.phase u = .waiting) :
    census weight ((s.set u .acquire).set t .idle).phase + weight (s.phase t) + weight .waiting
      = census weight s.phase + weight .acquire + weight .idle := by
  have hu' := census_update weight s.phase u .acquire
  have ht' := census_update weight (Function.update s.phase u .acquire) t .idle
  rw [Function.update_of_ne (ne_of_notify ht hu)] at ht'
  rw [hu] at hu'
  simp only [set_phase]
  omega

theorem Owed.update {queue queue' : List T} {phase : θ → Phase T} {t : θ} {p : Phase T}
    (h : Owed queue phase) (hp : p ≠ .waiting)
    (hle : queue'.length + (phase t).due ≤ queue.length + p.due) :
    Owed queue' (Function.update phase t p) := by
  rintro ⟨v, hv⟩
  have hq := h ⟨v, of_update hv hp⟩
  have hc := census_update Phase.due phase t p
  omega

/-- **Every step but a shutdown leaves each item with a thread that is due.** -/
theorem Owed.move (h : Owed s.mQueue s.phase) (hs : Sound s) (hstop : s.stop = false)
    (hcalm : ∀ t, s.phase t ≠ .shutdown) (m : Move s a s') : Owed s'.mQueue s'.phase := by
  cases m with
  | @call t c ht => exact h.update (by cases c <;> nofun) (by rw [ht]; simp [Phase.due])
  | spurious ht => exact h.update nofun (by rw [ht]; simp [Phase.due])
  | put ht hfree => exact h.update nofun (by rw [ht]; simp [Phase.due])
  | emplaced ht => exact h.update nofun (by rw [ht]; simp [Phase.due])
  | @wake t u ht hu =>
      intro _
      have hq := h ⟨u, hu⟩
      have hdue : (s.phase t).due ≤ (Phase.acquire : Phase T).due := by
        rcases ht with ht | ht <;> rw [ht] <;> simp [Phase.due]
      have hc := census_wake Phase.due ht hu
      have hzero : (Phase.waiting : Phase T).due = 0 := rfl
      simp only [set_mQueue]
      omega
  | noOne ht hnone =>
      rintro ⟨v, hv⟩
      exact absurd (of_update hv nofun) (hnone v)
  | tryPop ht hfree => exact h.update nofun (by rw [ht]; simp [Phase.due])
  | nothing ht hq => exact h.update nofun (by rw [ht]; simp [Phase.due])
  | pop ht hq =>
      refine h.update nofun ?_
      rcases ht with ht | ⟨ht, _⟩ <;> rw [ht, hq] <;> simp [Phase.due, State.popFront]
  | acquire ht hfree => exact h.update nofun (by rw [ht]; simp [Phase.due])
  | go ht hgo => exact h.update nofun (by rw [ht]; simp [Phase.due])
  | block ht _ hq =>
      intro _
      simp [hq]
  | @wait t w ht =>
      intro _
      simp [hs.blocked t ht]
  | leave ht hstop' =>
      rw [hstop] at hstop'
      cases hstop'
  | undefined ht _ hq => exact absurd hq (hs.not_undefined ht hstop)
  | unlock ht => exact h.update nofun (by rw [ht]; simp [Phase.due])
  | @shutdown t w ht => exact absurd ht (hcalm t)

/-- Nobody has called `shutdown`. -/
structure Calm (s : State θ T) : Prop where
  sound : Sound s
  stop : s.stop = false
  phase : ∀ t, s.phase t ≠ .shutdown
  owed : Owed s.mQueue s.phase

theorem Calm.move (h : Calm s) (ha : ∀ t, a ≠ .call t .shutdown) (m : Move s a s') : Calm s' where
  sound := h.sound.move m
  owed := h.owed.move h.sound h.stop h.phase m
  stop := by
    cases m with
    | @shutdown t w ht => exact absurd ht (h.phase t)
    | _ => exact h.stop
  phase v hv := by
    refine h.phase v ?_
    cases m with
    | @call t c ht =>
        refine of_update hv ?_
        cases c with
        | shutdown => exact absurd rfl (ha t)
        | _ => nofun
    | wake ht hu => exact of_update (of_update hv nofun) nofun
    | _ => exact of_update hv nofun

variable [DecidableEq T]

theorem calm_of_run {acts : List (Act θ T)} (hno : ∀ t, .call t .shutdown ∉ acts)
    (h : run step start acts = some s) : Calm s := by
  refine run_invariant Calm (fun e he hs => ?_) ?_ h
  · refine hs.move (fun t ht => hno t ?_) (move_of_step (step_of_mem_trace he))
    rw [← ht]
    exact act_mem_of_mem_trace he
  · exact ⟨sound_start, rfl, nofun, fun ⟨_, ht⟩ => nomatch ht⟩

/-- **Every own step of the threads brings the calls nearer to their ends.** -/
theorem decreasing_effort :
    Decreasing (step (θ := θ) (T := T)) Act.Internal State.effort := by
  intro s a s' ha h
  have hstep {t : θ} {p : Phase T} (hlt : p.effort < (s.phase t).effort) :
      census Phase.effort (Function.update s.phase t p) < census Phase.effort s.phase := by
    have hc := census_update Phase.effort s.phase t p
    omega
  unfold State.effort
  cases move_of_step h with
  | call | spurious => exact absurd ha id
  | @wake t u ht hu =>
      have hc := census_wake Phase.effort ht hu
      have ht' : (s.phase t).effort = 5 := by
        rcases ht with ht | ht <;> rw [ht] <;> rfl
      rw [ht'] at hc
      simp only [Phase.effort] at hc
      omega
  | noOne ht hnone =>
      refine hstep ?_
      rcases ht with ht | ht <;> rw [ht] <;> simp [Phase.effort]
  | pop ht hq =>
      refine hstep ?_
      rcases ht with ht | ⟨ht, _⟩ <;> rw [ht] <;> simp [Phase.effort]
  | put ht | emplaced ht | tryPop ht | nothing ht | acquire ht | go ht | block ht | wait ht
  | leave ht | undefined ht | unlock ht | shutdown ht =>
      exact hstep (by rw [ht]; simp [Phase.effort])

/-- A notification finds somebody to wake or nobody. -/
theorem notifyOne_ne_none (s : State θ T) (t : θ) : ∃ w, s.notifyOne t w ≠ none := by
  by_cases hwait : ∃ u, s.phase u = .waiting
  · obtain ⟨u, hu⟩ := hwait
    exact ⟨some u, by simp [State.notifyOne, hu]⟩
  · push Not at hwait
    exact ⟨none, by simp [State.notifyOne, hwait]⟩

/-- A thread that does not need the lock, or that has it, can go on. -/
theorem advance_ne_none {t : θ} (ht : s.mMutex = none ∨ (s.phase t).holdsLock = true)
    (hidle : s.phase t ≠ .idle) (hwait : s.phase t ≠ .waiting) (hdef : s.phase t ≠ .undefined) :
    ∃ w, advance s t w ≠ none := by
  cases hp : s.phase t with
  | idle => exact absurd hp hidle
  | waiting => exact absurd hp hwait
  | undefined => exact absurd hp hdef
  | notify | stopped => simpa [advance, hp] using notifyOne_ne_none s t
  | emplace x | tryPop | acquire =>
      have hfree : s.mMutex = none := ht.resolve_right (by simp [hp, Phase.holdsLock])
      exact ⟨none, by simp [advance, hp, State.lock, hfree]⟩
  | trying => exact ⟨none, by cases hq : s.mQueue <;> simp [advance, hp, hq]⟩
  | take =>
      refine ⟨none, ?_⟩
      by_cases hstop : s.stop = true
      · simp [advance, hp, hstop]
      · cases hq : s.mQueue <;> simp [advance, hp, hstop, hq]
  | emplaced | test | block | unlock r | shutdown => exact ⟨none, by simp [advance, hp]⟩

/-- **No deadlock**: while a call is neither ended nor waiting, some thread can go on. -/
theorem Sound.quiet_of_settled (h : Sound s) (hs : Settled step Act.Internal s) (t : θ) :
    s.phase t = .idle ∨ s.phase t = .waiting := by
  by_contra hbusy
  push Not at hbusy
  have hstuck {u : θ} : ¬ ∃ w, advance s u w ≠ none := by
    rintro ⟨w, hw⟩
    exact hw (hs (.run u w) trivial)
  cases hm : s.mMutex with
  | none => exact hstuck (advance_ne_none (Or.inl hm) hbusy.1 hbusy.2 (h.defined t))
  | some u =>
      -- the thread that has the lock goes on
      have hu := (h.mutex u).mp hm
      have hne {p : Phase T} (hp : p.holdsLock = false) : s.phase u ≠ p := by
        rintro rfl
        rw [hp] at hu
        cases hu
      exact hstuck (advance_ne_none (Or.inr hu) (hne rfl) (hne rfl) (hne rfl))

omit [DecidableEq θ] [DecidableEq T] in
theorem census_due_of_quiet (h : ∀ t, s.phase t = .idle ∨ s.phase t = .waiting) :
    census Phase.due s.phase = 0 := by
  rw [census_eq_zero]
  intro t
  rcases h t with ht | ht <;> rw [ht] <;> rfl

/-- **No wake-up is lost.** While nobody calls `shutdown`, the threads come to rest from every
state they reach, and then either every item has been given out or no thread waits for one. -/
theorem delivers {acts acts' : List (Act θ T)} {s s' : State θ T}
    (hno : ∀ t, .call t .shutdown ∉ acts) (h : run step start acts = some s)
    (hint : ∀ a ∈ acts', a.Internal) (h' : run step s acts' = some s') :
    acts'.length ≤ s.effort ∧ (Settled step Act.Internal s' →
      (∀ t, s'.phase t = .idle ∨ s'.phase t = .waiting) ∧
      (s'.popped.map Prod.snd = s'.pushed ∨ ∀ t, s'.phase t = .idle)) := by
  have hcalm : Calm s' := by
    have hall : ∀ t, .call t .shutdown ∉ acts ++ acts' := by
      intro t ht
      rcases List.mem_append.mp ht with ht | ht
      · exact hno t ht
      · exact hint _ ht
    exact calm_of_run hall (run_append h h')
  refine ⟨Nat.le_of_add_right_le (decreasing_effort.length_le hint h'), fun hset => ?_⟩
  have hquiet := hcalm.sound.quiet_of_settled hset
  refine ⟨hquiet, ?_⟩
  by_cases hwait : ∃ t, s'.phase t = .waiting
  · have hq := hcalm.owed hwait
    rw [census_due_of_quiet hquiet, Nat.le_zero, List.length_eq_zero_iff] at hq
    have hf := hcalm.sound.fifo
    rw [hq, List.append_nil] at hf
    exact Or.inl hf.symm
  · push Not at hwait
    exact Or.inr fun t => (hquiet t).resolve_right (hwait t)

/-- The thread waits, and the other one is about to put an item in. -/
theorem delivers_handOver :
    ∃ s s' : State Bool ℕ, run step start (handOver.take 5) = some s ∧
      run step s (handOver.drop 5) = some s' ∧ 7 ≤ s.effort := by
  refine ⟨_, _, rfl, rfl, ?_⟩
  have hint : ∀ a ∈ handOver.drop 5, a.Internal := by
    intro a ha
    simp only [handOver, List.drop, List.mem_cons, List.not_mem_nil, or_false] at ha
    rcases ha with rfl | rfl | rfl | rfl | rfl | rfl | rfl <;> trivial
  exact (delivers (by decide) (show run step start (handOver.take 5) = some _ from rfl) hint
    rfl).1

end Liveness

/-! ## Whom a shutdown releases -/

section Shutdown

def Phase.waits : Phase T → ℕ
  | .waiting => 1
  | _ => 0

/-- One for a thread that has looked at the predicate and is about to wait. -/
def Phase.blocks : Phase T → ℕ
  | .block => 1
  | _ => 0

/-- One for a thread that will yet notify. -/
def Phase.wakes : Phase T → ℕ
  | .emplace _ | .emplaced | .notify | .shutdown | .stopped => 1
  | _ => 0

/-- One for a thread that needs the lock before it notifies. -/
def Phase.pushes : Phase T → ℕ
  | .emplace _ => 1
  | _ => 0

variable [Fintype θ]

def State.waiting (s : State θ T) : ℕ := census Phase.waits s.phase
def State.blocking (s : State θ T) : ℕ := census Phase.blocks s.phase
def State.waking (s : State θ T) : ℕ := census Phase.wakes s.phase
def State.pushing (s : State θ T) : ℕ := census Phase.pushes s.phase

/-- The threads that will yet notify are as many as those that wait or are about to, and the
last of them comes after a thread that is about to wait has given the lock back. -/
structure Enough (s : State θ T) : Prop where
  total : s.waiting + s.blocking ≤ s.waking
  pushing : s.blocking ≤ s.pushing

variable [DecidableEq θ] {s s' : State θ T} {a : Act θ T}

/-- How the four counts of a state come from those of another one, of which a thread has moved
on: nothing changes, or an item is put in, a thread is woken, nobody is there to be woken, or a
thread gives the lock back to wait. -/
inductive Recount (s s' : State θ T) : Prop where
  | same (hw : s'.waiting = s.waiting) (hb : s'.blocking = s.blocking)
      (hn : s'.waking = s.waking) (hp : s'.pushing = s.pushing)
  | put (hw : s'.waiting = s.waiting) (hb : s.blocking = 0) (hb' : s'.blocking = 0)
      (hn : s'.waking = s.waking) (hp : s'.pushing ≤ s.pushing)
  | wake (hw : s'.waiting + 1 = s.waiting) (hb : s'.blocking = s.blocking)
      (hn : s'.waking + 1 = s.waking) (hp : s'.pushing = s.pushing)
  | noOne (hw : s.waiting = 0) (hw' : s'.waiting = 0) (hb : s'.blocking = s.blocking)
      (hn : s'.waking + 1 = s.waking) (hp : s'.pushing = s.pushing)
  | wait (hw : s'.waiting = s.waiting + 1) (hb : s'.blocking + 1 = s.blocking)
      (hn : s'.waking = s.waking) (hp : s'.pushing = s.pushing)

omit [DecidableEq θ] in
theorem blocking_eq_zero (h : ∀ t, s.phase t ≠ .block) : s.blocking = 0 := by
  refine census_eq_zero.mpr fun t => ?_
  cases hp : s.phase t with
  | block => exact absurd hp (h t)
  | _ => rfl

omit [DecidableEq θ] in
theorem waiting_eq_zero : s.waiting = 0 ↔ ∀ t, s.phase t ≠ .waiting := by
  refine census_eq_zero.trans (forall_congr' fun t => ?_)
  cases s.phase t <;> simp [Phase.waits]

/-- A thread in `block` has the lock. -/
theorem Sound.blocking_eq_zero (h : Sound s) (hfree : s.mMutex = none) : s.blocking = 0 := by
  refine ThreadSafeQueue.blocking_eq_zero fun t ht => ?_
  have hlock := h.alone (Or.inl ht)
  rw [hfree] at hlock
  cases hlock

omit [Fintype θ] [DecidableEq θ] in
theorem eq_block_of_blocks {t : θ} (h : (s.phase t).blocks ≠ 0) : s.phase t = .block := by
  cases hp : s.phase t with
  | block => rfl
  | _ => exact absurd (by rw [hp]; rfl) h

theorem Sound.blocking_le_one (h : Sound s) : s.blocking ≤ 1 := by
  refine census_le_one (fun p => by cases p <;> simp [Phase.blocks]) fun t u ht hu => ?_
  have ht := h.alone (Or.inl (eq_block_of_blocks ht))
  rw [h.alone (Or.inl (eq_block_of_blocks hu))] at ht
  exact (Option.some.inj ht).symm

theorem counts_move (hs : Sound s) (hstop : s.stop = true) (ha : a.Internal) (m : Move s a s') :
    Recount s s' := by
  have hset (weight : Phase T → ℕ) (t : θ) (p : Phase T) :=
    census_update weight s.phase t p
  have hsame (weight : Phase T → ℕ) {t : θ} {p : Phase T} (hp : weight p = weight (s.phase t)) :
      census weight (Function.update s.phase t p) = census weight s.phase := by
    have := hset weight t p
    omega
  cases m with
  | call | spurious => exact absurd ha id
  | @put t w x ht hfree =>
      have hb := hs.blocking_eq_zero hfree
      have hp := hset Phase.pushes t .emplaced
      rw [ht] at hp
      exact .put (hsame _ (by rw [ht]; rfl)) hb ((hsame _ (by rw [ht]; rfl)).trans hb)
        (hsame _ (by rw [ht]; rfl)) (Nat.le_of_add_right_le hp.le)
  | @wake t u ht hu =>
      have hw := census_wake Phase.waits ht hu
      have hb := census_wake Phase.blocks ht hu
      have hn := census_wake Phase.wakes ht hu
      have hp := census_wake Phase.pushes ht hu
      rcases ht with ht | ht <;> rw [ht] at hw hb hn hp <;> exact .wake hw hb hn hp
  | @noOne t ht hnone =>
      have hw := waiting_eq_zero.mpr hnone
      have hn := hset Phase.wakes t .idle
      rcases ht with ht | ht <;> rw [ht] at hn <;>
        exact .noOne hw ((hsame _ (by rw [ht]; rfl)).trans hw) (hsame _ (by rw [ht]; rfl)) hn
          (hsame _ (by rw [ht]; rfl))
  | @wait t w ht =>
      have hw := hset Phase.waits t .waiting
      have hb := hset Phase.blocks t .waiting
      rw [ht] at hw hb
      exact .wait hw hb (hsame _ (by rw [ht]; rfl)) (hsame _ (by rw [ht]; rfl))
  | block _ hgo =>
      rw [hstop] at hgo
      cases hgo
  | @pop t w x rest ht hq =>
      rcases ht with ht | ⟨ht, _⟩ <;>
        exact .same (hsame _ (by rw [ht]; rfl)) (hsame _ (by rw [ht]; rfl))
          (hsame _ (by rw [ht]; rfl)) (hsame _ (by rw [ht]; rfl))
  | emplaced ht | tryPop ht | nothing ht | acquire ht | go ht | leave ht | undefined ht
  | unlock ht | shutdown ht =>
      exact .same (hsame _ (by rw [ht]; rfl)) (hsame _ (by rw [ht]; rfl))
        (hsame _ (by rw [ht]; rfl)) (hsame _ (by rw [ht]; rfl))

omit [Fintype θ] in
/-- A step of a thread leaves the others where they are, unless it wakes one. -/
theorem Move.phase_of_ne {t b : θ} {w : Option θ} (m : Move s (.run t w) s') (hb : b ≠ t)
    (hwait : s.phase b ≠ .waiting) : s'.phase b = s.phase b := by
  cases m with
  | @wake t u ht hu =>
      have hbu : b ≠ u := by
        rintro rfl
        exact hwait hu
      simp [Function.update_of_ne hb, Function.update_of_ne hbu]
  | _ => simp [State.popFront, Function.update_of_ne hb]

omit [Fintype θ] in
theorem stop_move (m : Move s a s') (hstop : s.stop = true) : s'.stop = true := by
  cases m with
  | shutdown => rfl
  | _ => exact hstop

omit [DecidableEq θ] in
theorem pushing_le_waking : s.pushing ≤ s.waking := by
  refine census_le_census fun p => ?_
  cases p <;> simp [Phase.pushes, Phase.wakes]

omit [DecidableEq θ] in
theorem Recount.pushing_le (c : Recount s s') : s'.pushing ≤ s.pushing := by
  cases c <;> omega

omit [DecidableEq θ] in
theorem Enough.move (h : Enough s) (c : Recount s s') : Enough s' := by
  obtain ⟨ht, hp⟩ := h
  have hle := pushing_le_waking (s := s')
  cases c with
  | same | put | wake | wait => exact ⟨by omega, by omega⟩
  | noOne => exact ⟨by omega, by omega⟩

/-- More threads wait, or are about to, than will be notified. -/
def Short (s : State θ T) : Prop := s.waking < s.waiting + s.blocking

omit [DecidableEq θ] in
theorem Short.move (h : Short s) (c : Recount s s') : Short s' := by
  unfold Short at *
  cases c <;> omega

variable [DecidableEq T]

/-- A run of own steps after a shutdown keeps what each recount keeps. -/
theorem invariant_after_shutdown {P : State θ T → Prop}
    (hP : ∀ {s s' : State θ T}, P s → Recount s s' → P s') {acts : List (Act θ T)}
    (hs : Sound s) (hstop : s.stop = true) (hPs : P s) (hint : ∀ a ∈ acts, a.Internal)
    (h : run step s acts = some s') : Sound s' ∧ s'.stop = true ∧ P s' := by
  refine run_invariant (fun s => Sound s ∧ s.stop = true ∧ P s) (fun e he hb => ?_)
    ⟨hs, hstop, hPs⟩ h
  obtain ⟨hs, hstop, hPs⟩ := hb
  have m := move_of_step (step_of_mem_trace he)
  have ha := hint _ (act_mem_of_mem_trace he)
  exact ⟨hs.move m, stop_move m hstop, hP hPs (counts_move hs hstop ha m)⟩

omit [DecidableEq θ] [DecidableEq T] in
theorem Short.exists_busy (h : Short s) : ∃ t, s.phase t ≠ .idle := by
  by_contra hnone
  push Not at hnone
  have hw : s.waiting = 0 := waiting_eq_zero.mpr fun t => by rw [hnone t]; nofun
  have hb : s.blocking = 0 := blocking_eq_zero fun t => by rw [hnone t]; nofun
  unfold Short at h
  omega

/-- While one thread is about to wait and none needs the lock to notify, all notifications can
be spent before it waits. -/
theorem exists_short (hs : Sound s) (hstop : s.stop = true) {b : θ} (hb : s.phase b = .block)
    (hp : s.pushing = 0) :
    ∃ acts s', (∀ a ∈ acts, a.Internal) ∧ run step s acts = some s' ∧ Short s' := by
  induction hn : s.effort using Nat.strong_induction_on generalizing s with
  | _ n ih =>
      have hone : 1 ≤ s.blocking := by
        have := le_census Phase.blocks s.phase b
        rw [hb] at this
        exact this
      by_cases hzero : s.waking = 0
      · exact ⟨[], s, by simp, rfl, by unfold Short; omega⟩
      · obtain ⟨t, ht⟩ := exists_of_census_ne_zero hzero
        have hlock : s.mMutex = some b := hs.alone (Or.inl hb)
        have htb : t ≠ b := by
          rintro rfl
          rw [hb] at ht
          exact ht rfl
        -- it notifies without the lock
        have hfree : s.phase t = .notify ∨ s.phase t = .stopped ∨ s.phase t = .shutdown := by
          cases hpt : s.phase t with
          | emplace x =>
              have := le_census Phase.pushes s.phase t
              rw [hpt] at this
              exact absurd (this.trans_eq hp) (by simp [Phase.pushes])
          | emplaced =>
              have := (hs.mutex t).mpr (by rw [hpt]; rfl)
              rw [hlock] at this
              exact absurd (Option.some.inj this) htb.symm
          | notify => exact Or.inl rfl
          | stopped => exact Or.inr (Or.inl rfl)
          | shutdown => exact Or.inr (Or.inr rfl)
          | _ => exact absurd (by rw [hpt]; rfl) ht
        obtain ⟨w, hw⟩ : ∃ w, advance s t w ≠ none := by
          rcases hfree with hpt | hpt | hpt
          · simpa [advance, hpt] using notifyOne_ne_none s t
          · simpa [advance, hpt] using notifyOne_ne_none s t
          · exact ⟨none, by simp [advance, hpt]⟩
        obtain ⟨s₁, h₁⟩ := Option.ne_none_iff_exists'.mp hw
        have h₁ : step s (.run t w) = some s₁ := h₁
        have m := move_of_step h₁
        have hb₁ : s₁.phase b = .block := (m.phase_of_ne htb.symm (by rw [hb]; nofun)).trans hb
        have hp₁ := (counts_move (a := .run t w) hs hstop trivial m).pushing_le.trans_eq hp
        have hlt : s₁.effort < n := hn ▸ decreasing_effort s (.run t w) s₁ trivial h₁
        obtain ⟨acts, s', hint, h, hshort⟩ := ih s₁.effort hlt (hs.move m) (stop_move m hstop) hb₁
          (Nat.le_zero.mp hp₁) rfl
        refine ⟨.run t w :: acts, s', fun a ha => ?_, run_cons_eq_some.mpr ⟨s₁, h₁, h⟩, hshort⟩
        rcases List.mem_cons.mp ha with rfl | ha
        · trivial
        · exact hint a ha

/-- **Whom a shutdown releases.** Once `stop_` is set, the calls in progress all end, in whatever
order the threads go on, exactly when as many threads will yet notify as wait or are about to,
and, if one is about to wait, one of those needs the lock first. -/
theorem releases_iff {acts : List (Act θ T)} (h : run step start acts = some s)
    (hstop : s.stop = true) :
    (∀ acts' s', (∀ a ∈ acts', a.Internal) → run step s acts' = some s' →
      Settled step Act.Internal s' → ∀ t, s'.phase t = .idle) ↔
    s.waiting + s.blocking ≤ s.waking ∧ s.blocking ≤ s.pushing := by
  have hs := sound_of_run h
  -- from a state with too few notifications every run leaves a thread waiting
  have hstuck {s₁ : State θ T} {acts₁ : List (Act θ T)} (hint : ∀ a ∈ acts₁, a.Internal)
      (h₁ : run step s acts₁ = some s₁) (hshort : Short s₁) :
      ¬ ∀ acts' s', (∀ a ∈ acts', a.Internal) → run step s acts' = some s' →
        Settled step Act.Internal s' → ∀ t, s'.phase t = .idle := by
    intro hall
    obtain ⟨hs₁, hstop₁, _⟩ := invariant_after_shutdown (P := fun _ => True)
      (fun _ _ => trivial) hs hstop trivial hint h₁
    obtain ⟨acts₂, s₂, hint₂, h₂, hset⟩ := decreasing_effort.exists_settled s₁
    obtain ⟨_, _, hshort₂⟩ := invariant_after_shutdown Short.move hs₁ hstop₁ hshort hint₂ h₂
    obtain ⟨t, ht⟩ := hshort₂.exists_busy
    refine ht (hall (acts₁ ++ acts₂) s₂ (fun a ha => ?_) (run_append h₁ h₂) hset t)
    exact (List.mem_append.mp ha).elim (hint a) (hint₂ a)
  constructor
  · intro hall
    by_contra hnot
    by_cases htotal : s.waiting + s.blocking ≤ s.waking
    · have hlt : s.pushing < s.blocking := by
        by_contra hle
        exact hnot ⟨htotal, by omega⟩
      have hone := hs.blocking_le_one
      obtain ⟨b, hb⟩ := exists_of_census_ne_zero (show s.blocking ≠ 0 by omega)
      obtain ⟨acts₁, s₁, hint, h₁, hshort⟩ :=
        exists_short hs hstop (eq_block_of_blocks hb) (show s.pushing = 0 by omega)
      exact hstuck hint h₁ hshort hall
    · have hnil : ∀ a ∈ ([] : List (Act θ T)), a.Internal := by simp
      exact hstuck hnil rfl (not_le.mp htotal) hall
  · rintro ⟨htotal, hpush⟩ acts' s' hint h' hset t
    obtain ⟨hs', _, henough⟩ :=
      invariant_after_shutdown Enough.move hs hstop ⟨htotal, hpush⟩ hint h'
    have hquiet := hs'.quiet_of_settled hset
    have hwaking : s'.waking = 0 := census_eq_zero.mpr fun u => by
      rcases hquiet u with hu | hu <;> rw [hu] <;> rfl
    have hwaiting : s'.waiting = 0 := by
      have := henough.total
      omega
    exact (hquiet t).resolve_right (waiting_eq_zero.mp hwaiting t)

/-- One thread waits, and the other one has set `stop_` and is about to notify. -/
def oneWaits : List (Act Bool ℕ) :=
  [.call false .waitAndPop, .run false none, .run false none, .run false none,
    .call true .shutdown, .run true none]

theorem releases_oneWaits :
    ∃ s, run step start oneWaits = some s ∧ ∀ acts' s', (∀ a ∈ acts', a.Internal) →
      run step s acts' = some s' → Settled step Act.Internal s' → ∀ t, s'.phase t = .idle :=
  ⟨_, rfl, (releases_iff (show run step start oneWaits = some _ from rfl) rfl).mpr (by decide)⟩

end Shutdown

end Fediux.ThreadSafeQueue
