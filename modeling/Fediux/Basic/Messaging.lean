import Fediux.Basic.Session

set_option autoImplicit false

/-! # Many parties that exchange messages over queues

Every party runs a program (`Session.Prog`) whose messages are addressed to another party. A
message carries the label under which it is sent, but on the way only the `wire` of the label is
seen: there is one queue for each sender, receiver and wire, and a receive takes the first
message of its queue, whatever the label of that message is.

A party is deterministic, and nobody else takes from its queues, so two steps of different
parties commute (`diamond`). Hence a single run to the end says how all runs go
(`run_extends`). `Plays` builds such a run from exchanges: one party sends and another one
receives. What has it runs together in any order of the steps (`Plays.runsTogether`).
-/

namespace Messaging

open Session
open Transition (run)

variable {ι κ χ μ ε : Type} {α β : ι → Type}

/-! ## States and steps -/

/-- The rest of each program, the messages on their way from one party to another, and for each
party the labels of its receives beside those of the messages it took. -/
structure State (ι κ χ μ ε : Type) (α : ι → Type) where
  prog : (i : ι) → Prog (ι × κ) μ ε (α i)
  queue : ι × ι × χ → List (κ × μ)
  log : ι → List (κ × κ)

def start (P : (i : ι) → Prog (ι × κ) μ ε (α i)) : State ι κ χ μ ε α :=
  { prog := P, queue := fun _ => [], log := fun _ => [] }

variable [DecidableEq ι] [DecidableEq χ] (wire : κ → χ)

namespace State

variable (s : State ι κ χ μ ε α)

def sent (i j : ι) (k : κ) (m : μ) (rest : Prog (ι × κ) μ ε (α i)) : State ι κ χ μ ε α :=
  { s with
    prog := Function.update s.prog i rest
    queue := Function.update s.queue (i, j, wire k) (s.queue (i, j, wire k) ++ [(k, m)]) }

def took (i j : ι) (k k' : κ) (rest : Prog (ι × κ) μ ε (α i)) (queue : List (κ × μ)) :
    State ι κ χ μ ε α :=
  { prog := Function.update s.prog i rest
    queue := Function.update s.queue (j, i, wire k) queue
    log := Function.update s.log i (s.log i ++ [(k, k')]) }

end State

/-- The next step of a party, if it has one. -/
def step (s : State ι κ χ μ ε α) (i : ι) : Option (State ι κ χ μ ε α) :=
  match s.prog i with
  | .ret _ => none
  | .raise _ => none
  | .send (j, k) m rest => some (s.sent wire i j k m rest)
  | .recv (j, k) rest =>
      match s.queue (j, i, wire k) with
      | [] => none
      | (k', m) :: queue => some (s.took wire i j k k' (rest m) queue)

variable {wire} {s s' t : State ι κ χ μ ε α} {i : ι}

theorem step_of_send {j : ι} {k : κ} {m : μ} {rest : Prog (ι × κ) μ ε (α i)}
    (h : s.prog i = .send (j, k) m rest) : step wire s i = some (s.sent wire i j k m rest) := by
  simp [step, h]

theorem step_of_recv {j : ι} {k k' : κ} {m : μ} {rest : μ → Prog (ι × κ) μ ε (α i)}
    {queue : List (κ × μ)} (h : s.prog i = .recv (j, k) rest)
    (hq : s.queue (j, i, wire k) = (k', m) :: queue) :
    step wire s i = some (s.took wire i j k k' (rest m) queue) := by
  simp [step, h, hq]

/-- **What a step can do**: a party sends the next message of its program, or it takes the first
message of the queue it reads. -/
theorem step_cases (h : step wire s i = some s') :
    (∃ j k m rest, s.prog i = .send (j, k) m rest ∧ s' = s.sent wire i j k m rest) ∨
      ∃ j k k' m rest queue, s.prog i = .recv (j, k) rest ∧
        s.queue (j, i, wire k) = (k', m) :: queue ∧
        s' = s.took wire i j k k' (rest m) queue := by
  unfold step at h
  split at h
  · cases h
  · cases h
  · next j k m rest hp => exact Or.inl ⟨j, k, m, rest, hp, (Option.some.inj h).symm⟩
  · next j k rest hp =>
      split at h
      · cases h
      · next k' m queue hq =>
          exact Or.inr ⟨j, k, k', m, rest, queue, hp, hq, (Option.some.inj h).symm⟩

theorem step_prog_ne {j : ι} (h : step wire s i = some s') (hj : j ≠ i) :
    s'.prog j = s.prog j := by
  obtain ⟨_, _, _, _, _, rfl⟩ | ⟨_, _, _, _, _, _, _, _, rfl⟩ := step_cases h
  · simp [State.sent, hj]
  · simp [State.took, hj]

/-! ## Steps of different parties commute -/

/-- A send leaves what another party reads in its place. -/
theorem step_sent {i j j' : ι} {k : κ} {m : μ} {rest : Prog (ι × κ) μ ε (α i)} (hij : i ≠ j)
    (hi : s.prog i = .send (j', k) m rest) (hj : step wire s j = some s') :
    ∃ t, step wire (s.sent wire i j' k m rest) j = some t ∧ step wire s' i = some t := by
  obtain ⟨x, l, n, rest', hp, rfl⟩ | ⟨x, l, l', n, rest', queue, hp, hq, rfl⟩ := step_cases hj
  · -- both send: their queues have different senders
    have hp' : (s.sent wire i j' k m rest).prog j = .send (x, l) n rest' := by
      simp [State.sent, hij.symm, hp]
    have hi' : (s.sent wire j x l n rest').prog i = .send (j', k) m rest := by
      simp [State.sent, hij, hi]
    refine ⟨_, step_of_send hp', ?_⟩
    rw [step_of_send hi']
    simp [State.sent, Function.update_comm hij, hij, hij.symm,
      Function.update_comm (show (i, j', wire k) ≠ (j, x, wire l) by simp [hij])]
  · have hi' : (s.took wire j x l l' (rest' n) queue).prog i = .send (j', k) m rest := by
      simp [State.took, hij, hi]
    have hp' : (s.sent wire i j' k m rest).prog j = .recv (x, l) rest' := by
      simp [State.sent, hij.symm, hp]
    by_cases hsame : ((x, j, wire l) : ι × ι × χ) = (i, j', wire k)
    · -- the message goes to the end of the queue whose head is taken
      have hq' : (s.sent wire i j' k m rest).queue (x, j, wire l) =
          (l', n) :: (queue ++ [(k, m)]) := by
        rw [hsame] at hq ⊢
        simp [State.sent, hq]
      refine ⟨_, step_of_recv hp' hq', ?_⟩
      rw [step_of_send hi']
      simp [State.sent, State.took, Function.update_comm hij, hsame]
    · have hq' : (s.sent wire i j' k m rest).queue (x, j, wire l) = (l', n) :: queue := by
        simp [State.sent, hsame, hq]
      refine ⟨_, step_of_recv hp' hq', ?_⟩
      rw [step_of_send hi']
      simp [State.sent, State.took, Function.update_comm hij, Ne.symm hsame,
        Function.update_comm (Ne.symm hsame)]

/-- **Steps of different parties commute.** -/
theorem diamond {j : ι} {s₁ s₂ : State ι κ χ μ ε α} (hij : i ≠ j)
    (hi : step wire s i = some s₁) (hj : step wire s j = some s₂) :
    ∃ t, step wire s₁ j = some t ∧ step wire s₂ i = some t := by
  obtain ⟨x, k, m, rest, hp, rfl⟩ | ⟨x, k, k', m, rest, queue, hp, hq, rfl⟩ := step_cases hi
  · exact step_sent hij hp hj
  · obtain ⟨y, l, n, rest', hp', rfl⟩ | ⟨y, l, l', n, rest', queue', hp', hq', rfl⟩ :=
      step_cases hj
    · obtain ⟨t, ht, ht'⟩ := step_sent hij.symm hp' hi
      exact ⟨t, ht', ht⟩
    · -- both receive: their queues have different receivers
      have hne : ((x, i, wire k) : ι × ι × χ) ≠ (y, j, wire l) := by simp [hij]
      have hpj : (s.took wire i x k k' (rest m) queue).prog j = .recv (y, l) rest' := by
        simp [State.took, hij.symm, hp']
      have hqj : (s.took wire i x k k' (rest m) queue).queue (y, j, wire l) =
          (l', n) :: queue' := by
        simp [State.took, hij.symm, hq']
      have hpi : (s.took wire j y l l' (rest' n) queue').prog i = .recv (x, k) rest := by
        simp [State.took, hij, hp]
      have hqi : (s.took wire j y l l' (rest' n) queue').queue (x, i, wire k) =
          (k', m) :: queue := by
        simp [State.took, hij, hq]
      refine ⟨_, step_of_recv hpj hqj, ?_⟩
      rw [step_of_recv hpi hqi]
      simp [State.took, Function.update_comm hij, hij, hij.symm, Function.update_comm hne]

/-! ## One run to the end stands for all -/

/-- Nobody can go on. -/
def Halted (wire : κ → χ) (s : State ι κ χ μ ε α) : Prop := ∀ i, step wire s i = none

/-- A step that is possible at the beginning of a run to the end can be taken first. -/
theorem run_after_step {acts : List ι} (hend : Halted wire t)
    (hrun : run (step wire) s acts = some t) (hi : step wire s i = some s') :
    ∃ acts', run (step wire) s' acts' = some t ∧ acts.length = acts'.length + 1 := by
  induction acts generalizing s s' with
  | nil =>
      cases hrun
      rw [hend i] at hi
      cases hi
  | cons j acts ih =>
      obtain ⟨s₁, hj, hrun⟩ := Transition.run_cons_eq_some.mp hrun
      by_cases hij : i = j
      · rw [← hij, hi] at hj
        cases hj
        exact ⟨acts, hrun, rfl⟩
      · obtain ⟨u, hu, hu'⟩ := diamond hij hi hj
        obtain ⟨acts', hacts, hlen⟩ := ih hrun hu'
        refine ⟨j :: acts', Transition.run_cons_eq_some.mpr ⟨u, hu, hacts⟩, ?_⟩
        simp [hlen]

/-- **Every run goes on to the end of the one that is known**, in the same number of steps. -/
theorem run_extends {acts acts' : List ι} (hend : Halted wire t)
    (hrun : run (step wire) s acts = some t) (h : run (step wire) s acts' = some s') :
    ∃ rest, run (step wire) s' rest = some t ∧ acts.length = acts'.length + rest.length := by
  induction acts' generalizing s acts with
  | nil =>
      cases h
      exact ⟨acts, hrun, by simp⟩
  | cons i acts' ih =>
      obtain ⟨s₁, hi, h⟩ := Transition.run_cons_eq_some.mp h
      obtain ⟨acts₁, hrun₁, hlen⟩ := run_after_step hend hrun hi
      obtain ⟨rest, hrest, hlen'⟩ := ih hrun₁ h
      exact ⟨rest, hrest, by simp only [List.length_cons]; omega⟩

theorem log_subset_of_step {j : ι} (h : step wire s i = some s') : s.log j ⊆ s'.log j := by
  obtain ⟨_, _, _, _, _, rfl⟩ | ⟨_, _, _, _, _, _, _, _, rfl⟩ := step_cases h
  · simp [State.sent]
  · by_cases hj : j = i
    · subst hj
      simp [State.took]
    · simp [State.took, hj]

theorem log_subset_of_run {acts : List ι} {j : ι} (h : run (step wire) s acts = some t) :
    s.log j ⊆ t.log j := by
  induction acts generalizing s with
  | nil =>
      cases h
      simp
  | cons i acts ih =>
      obtain ⟨s₁, hi, h⟩ := Transition.run_cons_eq_some.mp h
      exact List.Subset.trans (log_subset_of_step hi) (ih h)

/-- What has raised an error stays there. -/
theorem raise_of_run {acts : List ι} {j : ι} {e : ε} (h : run (step wire) s acts = some t)
    (hj : s.prog j = .raise e) : t.prog j = .raise e := by
  induction acts generalizing s with
  | nil =>
      cases h
      exact hj
  | cons i acts ih =>
      obtain ⟨s₁, hi, h⟩ := Transition.run_cons_eq_some.mp h
      refine ih h ?_
      by_cases hij : j = i
      · subst hij
        simp [step, hj] at hi
      · rw [step_prog_ne hi hij, hj]

/-! ## Exchange after exchange -/

/-- Receive from each of the parties in turn. -/
def recvAll {ρ : Type} (k : κ) : List ι → (List μ → Prog (ι × κ) μ ε ρ) → Prog (ι × κ) μ ε ρ
  | [], f => f []
  | j :: js, f => .recv (j, k) fun m => recvAll k js fun ms => f (m :: ms)

variable {P P' T : (i : ι) → Prog (ι × κ) μ ε (α i)} {a : (i : ι) → α i}

/-- The programs come to `T` when each message is received as soon as it is sent, under the label
of its receive. -/
inductive Exchanges : ((i : ι) → Prog (ι × κ) μ ε (α i)) →
    ((i : ι) → Prog (ι × κ) μ ε (α i)) → Prop where
  | refl (P : (i : ι) → Prog (ι × κ) μ ε (α i)) : Exchanges P P
  | comm {P T : (i : ι) → Prog (ι × κ) μ ε (α i)} {i j : ι} {k : κ} {m : μ}
      {p : Prog (ι × κ) μ ε (α i)} {f : μ → Prog (ι × κ) μ ε (α j)} (hij : i ≠ j)
      (hi : P i = .send (j, k) m p) (hj : P j = .recv (i, k) f)
      (h : Exchanges (Function.update (Function.update P i p) j (f m)) T) : Exchanges P T

/-- The programs return `a` in this way. -/
def Plays (P : (i : ι) → Prog (ι × κ) μ ε (α i)) (a : (i : ι) → α i) : Prop :=
  Exchanges P fun i => .ret (a i)

theorem Plays.ret (a : (i : ι) → α i) :
    Plays (fun i => (.ret (a i) : Prog (ι × κ) μ ε (α i))) a :=
  .refl _

namespace Exchanges

theorem trans (h : Exchanges P P') (h' : Exchanges P' T) : Exchanges P T := by
  induction h with
  | refl P => exact h'
  | comm hij hi hj _ ih => exact comm hij hi hj (ih h')

theorem bind (g : (i : ι) → α i → Prog (ι × κ) μ ε (β i)) (h : Exchanges P T) :
    Exchanges (fun i => (P i).bind (g i)) fun i => (T i).bind (g i) := by
  induction h with
  | refl P => exact refl _
  | @comm P T i j k m p f hij hi hj _ ih =>
      have hi' : (P i).bind (g i) = .send (j, k) m (p.bind (g i)) := by simp [hi]
      have hj' : (P j).bind (g j) = .recv (i, k) fun m => (f m).bind (g j) := by simp [hj]
      refine comm hij hi' hj' ?_
      convert ih using 1
      funext x
      by_cases hxj : x = j
      · subst hxj
        simp
      · by_cases hxi : x = i
        · subst hxi
          simp [hxj]
        · simp [hxj, hxi]

/-- The messages of one party to several others, which receive them. -/
theorem scatter {i : ι} {js : List ι} {k : κ} {m : ι → μ} {p : Prog (ι × κ) μ ε (α i)}
    {f : (j : ι) → μ → Prog (ι × κ) μ ε (α j)} (hjs : js.Nodup) (hi : i ∉ js)
    (hsend : P i = Prog.sends (js.map fun j => ((j, k), m j)) p)
    (hrecv : ∀ j ∈ js, P j = .recv (i, k) (f j)) (h : Exchanges P' T) (hi' : P' i = p)
    (hjs' : ∀ j ∈ js, P' j = f j (m j)) (hframe : ∀ x, x ≠ i → x ∉ js → P' x = P x) :
    Exchanges P T := by
  induction js generalizing P with
  | nil =>
      have hP : P = P' := by
        funext x
        by_cases hx : x = i
        · subst hx
          simp [hsend, hi']
        · exact (hframe x hx (by simp)).symm
      exact hP ▸ h
  | cons j js ih =>
      simp only [List.nodup_cons, List.mem_cons, not_or] at hjs hi
      rw [List.map_cons, Prog.sends_cons] at hsend
      refine comm hi.1 hsend (hrecv j (by simp)) (ih hjs.2 hi.2 ?_ ?_ ?_ ?_)
      · simp [hi.1]
      · intro x hx
        have hxj : x ≠ j := fun hxj => hjs.1 (hxj ▸ hx)
        have hxi : x ≠ i := fun hxi => hi.2 (hxi ▸ hx)
        simp [hxj, hxi, hrecv x (by simp [hx])]
      · intro x hx
        exact hjs' x (by simp [hx])
      · intro x hxi hx
        by_cases hxj : x = j
        · subst hxj
          simp [hjs' x (by simp)]
        · simp [hxj, hxi, hframe x hxi (by simp [hxj, hx])]

/-- The messages of several parties to one party, which receives them in turn. -/
theorem gather {i : ι} {js : List ι} {k : κ} {m : ι → μ}
    {f : List μ → Prog (ι × κ) μ ε (α i)} {p : (j : ι) → Prog (ι × κ) μ ε (α j)}
    (hjs : js.Nodup) (hi : i ∉ js) (hrecv : P i = recvAll k js f)
    (hsend : ∀ j ∈ js, P j = .send (i, k) (m j) (p j)) (h : Exchanges P' T)
    (hi' : P' i = f (js.map m)) (hjs' : ∀ j ∈ js, P' j = p j)
    (hframe : ∀ x, x ≠ i → x ∉ js → P' x = P x) : Exchanges P T := by
  induction js generalizing P f with
  | nil =>
      have hP : P = P' := by
        funext x
        by_cases hx : x = i
        · subst hx
          simp [hrecv, hi', recvAll]
        · exact (hframe x hx (by simp)).symm
      exact hP ▸ h
  | cons j js ih =>
      simp only [List.nodup_cons, List.mem_cons, not_or] at hjs hi
      refine comm (Ne.symm hi.1) (hsend j (by simp)) hrecv
        (ih (f := fun ms => f (m j :: ms)) hjs.2 hi.2 ?_ ?_ ?_ ?_ ?_)
      · simp
      · intro x hx
        have hxj : x ≠ j := fun hxj => hjs.1 (hxj ▸ hx)
        have hxi : x ≠ i := fun hxi => hi.2 (hxi ▸ hx)
        simp [hxj, hxi, hsend x (by simp [hx])]
      · simp [hi']
      · intro x hx
        exact hjs' x (by simp [hx])
      · intro x hxi hx
        by_cases hxj : x = j
        · subst hxj
          simp [hxi, hjs' x (by simp)]
        · simp [hxj, hxi, hframe x hxi (by simp [hxj, hx])]

/-- One message. -/
theorem exchange {i j : ι} {k : κ} {m : μ} {p : Prog (ι × κ) μ ε (α i)}
    {f : μ → Prog (ι × κ) μ ε (α j)} (hij : i ≠ j) (hi : P i = .send (j, k) m p)
    (hj : P j = .recv (i, k) f) (h : Exchanges P' T) (hi' : P' i = p) (hj' : P' j = f m)
    (hframe : ∀ x, x ≠ i → x ≠ j → P' x = P x) : Exchanges P T := by
  refine comm hij hi hj ?_
  convert h using 1
  funext x
  by_cases hxj : x = j
  · subst hxj
    simp [hj']
  · by_cases hxi : x = i
    · subst hxi
      simp [hxj, hi']
    · simp [hxj, hxi, hframe x hxi hxj]

end Exchanges

/-- **One part after the other.** -/
theorem Plays.bind {g : (i : ι) → α i → Prog (ι × κ) μ ε (β i)} {b : (i : ι) → β i}
    (h : Plays P a) (h' : Plays (fun i => g i (a i)) b) :
    Plays (fun i => (P i).bind (g i)) b :=
  (Exchanges.bind g h).trans h'

/-! ## All runs -/

/-- All parties have returned, and no message is left over. -/
structure Ended (s : State ι κ χ μ ε α) (a : (i : ι) → α i) : Prop where
  prog : ∀ i, s.prog i = .ret (a i)
  queue : ∀ q, s.queue q = []

/-- Every message was taken under the label under which it was sent. -/
def Matched (s : State ι κ χ μ ε α) : Prop := ∀ i, ∀ e ∈ s.log i, e.1 = e.2

theorem Ended.halted (h : Ended s a) : Halted wire s := by
  intro i
  simp [step, h.prog i]

variable (wire) in
/-- What a pair of steps, a send and its receive, leaves behind. -/
theorem exchange_steps {i j : ι} {k : κ} {m : μ} {p : Prog (ι × κ) μ ε (α i)}
    {f : μ → Prog (ι × κ) μ ε (α j)} (hij : i ≠ j) (hi : s.prog i = .send (j, k) m p)
    (hj : s.prog j = .recv (i, k) f) (hq : ∀ q, s.queue q = []) (hm : Matched s) :
    ∃ t, run (step wire) s [i, j] = some t ∧
      t.prog = Function.update (Function.update s.prog i p) j (f m) ∧
      (∀ q, t.queue q = []) ∧ Matched t := by
  have hj' : (s.sent wire i j k m p).prog j = .recv (i, k) f := by
    simp [State.sent, hij.symm, hj]
  have hq' : (s.sent wire i j k m p).queue (i, j, wire k) = [(k, m)] := by
    simp [State.sent, hq]
  refine ⟨(s.sent wire i j k m p).took wire j i k k (f m) [], ?_, rfl, ?_, ?_⟩
  · simp [run, step_of_send hi, step_of_recv hj' hq']
  · intro q
    by_cases hqe : q = (i, j, wire k)
    · simp [State.took, hqe]
    · simp [State.took, State.sent, hqe, hq]
  · intro x e he
    by_cases hx : x = j
    · subst hx
      simp only [State.took, State.sent, Function.update_self, List.mem_append,
        List.mem_singleton] at he
      rcases he with he | rfl
      · exact hm x e he
      · rfl
    · simp only [State.took, State.sent, ne_eq, hx, not_false_eq_true,
        Function.update_of_ne] at he
      exact hm x e he

variable (wire) in
theorem Exchanges.run (h : Exchanges P T) (s : State ι κ χ μ ε α) (hs : s.prog = P)
    (hq : ∀ q, s.queue q = []) (hm : Matched s) :
    ∃ acts t, Transition.run (step wire) s acts = some t ∧ t.prog = T ∧
      (∀ q, t.queue q = []) ∧ Matched t := by
  induction h generalizing s with
  | refl P => exact ⟨[], s, rfl, hs, hq, hm⟩
  | @comm P T i j k m p f hij hi hj _ ih =>
      subst hs
      obtain ⟨s₁, h₁, hs₁, hq₁, hm₁⟩ := exchange_steps wire hij hi hj hq hm
      obtain ⟨acts, t, hrun, ht⟩ := ih s₁ hs₁ hq₁ hm₁
      exact ⟨[i, j] ++ acts, t, Transition.run_append h₁ hrun, ht⟩

variable (wire) in
/-- A run from the start, exchange after exchange. -/
theorem Exchanges.run_start (h : Exchanges P T) :
    ∃ acts t, Transition.run (step wire) (start P) acts = some t ∧ t.prog = T ∧
      (∀ q, t.queue q = []) ∧ Matched t :=
  h.run wire (start P) rfl (fun _ => rfl) fun _ _ he => by cases he

/-- In every run of the programs, in whatever order the parties take their steps, each message
is taken under the label under which it was sent; nobody raises an error; the run can go on
until all have returned `a` and no message is left over; and it cannot go on for ever. -/
structure RunsTogether (wire : κ → χ) (P : (i : ι) → Prog (ι × κ) μ ε (α i))
    (a : (i : ι) → α i) : Prop where
  matched : ∀ acts s, run (step wire) (start P) acts = some s → Matched s
  safe : ∀ acts s, run (step wire) (start P) acts = some s → ∀ i e, s.prog i ≠ .raise e
  goesOn : ∀ acts s, run (step wire) (start P) acts = some s →
    (∃ i s', step wire s i = some s') ∨ Ended s a
  bounded : ∃ n, ∀ acts s, run (step wire) (start P) acts = some s → acts.length ≤ n

/-- **Programs that play together run together.** -/
theorem Plays.runsTogether (h : Plays P a) : RunsTogether wire P a := by
  obtain ⟨acts, t, hrun, hprog, hqueue, hm⟩ := Exchanges.run_start wire h
  have hend : Ended t a := ⟨fun i => by rw [hprog], hqueue⟩
  constructor
  · intro acts' s hs i e he
    obtain ⟨rest, hrest, _⟩ := run_extends hend.halted hrun hs
    exact hm i e (log_subset_of_run hrest he)
  · intro acts' s hs i e hraise
    obtain ⟨rest, hrest, _⟩ := run_extends hend.halted hrun hs
    have hret := raise_of_run hrest hraise
    rw [hend.prog i] at hret
    cases hret
  · intro acts' s hs
    obtain ⟨rest, hrest, _⟩ := run_extends hend.halted hrun hs
    cases rest with
    | nil =>
        cases hrest
        exact Or.inr hend
    | cons i rest =>
        obtain ⟨s', hi, _⟩ := Transition.run_cons_eq_some.mp hrest
        exact Or.inl ⟨i, s', hi⟩
  · refine ⟨acts.length, ?_⟩
    intro acts' s hs
    obtain ⟨rest, _, hlen⟩ := run_extends hend.halted hrun hs
    omega

/-- The results are the only ones. -/
theorem RunsTogether.eq_of_plays {a' : (i : ι) → α i} (h : RunsTogether wire P a)
    (h' : Plays P a') : a = a' := by
  obtain ⟨acts, t, hrun, hprog, hqueue, _⟩ := Exchanges.run_start wire h'
  rcases h.goesOn acts t hrun with ⟨i, s', hstep⟩ | hend
  · have hhalted : step wire t i = none := by simp [step, hprog]
    rw [hhalted] at hstep
    cases hstep
  · funext i
    have hret := hend.prog i
    rw [hprog] at hret
    exact (Prog.ret.inj hret).symm

/-- What holds of the results of such parties is what holds of the results they come to. -/
theorem Plays.exists_runsTogether_iff (h : Plays P a) {Q : ((i : ι) → α i) → Prop} :
    (∃ a', RunsTogether wire P a' ∧ Q a') ↔ Q a := by
  constructor
  · rintro ⟨a', hruns, hQ⟩
    exact hruns.eq_of_plays h ▸ hQ
  · intro hQ
    exact ⟨a, h.runsTogether, hQ⟩

/-- Nobody comes to raise an error. -/
theorem RunsTogether.ne_raise (h : RunsTogether wire P a) (h' : Exchanges P T) (i : ι) (e : ε) :
    T i ≠ .raise e := by
  obtain ⟨acts, t, hrun, hprog, _, _⟩ := Exchanges.run_start wire h'
  exact hprog ▸ h.safe acts t hrun i e

end Messaging
