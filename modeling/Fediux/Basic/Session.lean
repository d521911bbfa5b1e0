import Fediux.Basic.Run

set_option autoImplicit false

/-! # Two parties that exchange messages under keys

A program sends and receives messages under keys, and may raise an error. Two programs run side
by side: what one sends lies in the inbox of the other until it is received, in any order of the
steps, and a receive takes the first message with its key. Two programs are in `Lockstep` when
each receive of one is answered by the next send of the other. In every run of such a pair what
one has sent is what the other has received or has in its inbox (`Lockstep.together`), and a run
that cannot go on has ended on both sides (`Lockstep.runsTogether`).
-/

namespace Session

variable {κ μ ε α β α' β' : Type}

/-! ## Programs -/

inductive Prog (κ μ ε α : Type) where
  | ret (a : α)
  | raise (e : ε)
  | send (k : κ) (m : μ) (rest : Prog κ μ ε α)
  | recv (k : κ) (rest : μ → Prog κ μ ε α)

namespace Prog

def bind : Prog κ μ ε α → (α → Prog κ μ ε α') → Prog κ μ ε α'
  | ret a, f => f a
  | raise e, _ => raise e
  | send k m rest, f => send k m (rest.bind f)
  | recv k rest, f => recv k fun m => (rest m).bind f

@[simp] theorem ret_bind (a : α) (f : α → Prog κ μ ε α') : (ret a).bind f = f a := rfl

@[simp] theorem send_bind (k : κ) (m : μ) (rest : Prog κ μ ε α) (f : α → Prog κ μ ε α') :
    (send k m rest).bind f = send k m (rest.bind f) := rfl

@[simp] theorem recv_bind (k : κ) (rest : μ → Prog κ μ ε α) (f : α → Prog κ μ ε α') :
    (recv k rest).bind f = recv k fun m => (rest m).bind f := rfl

theorem bind_ret (p : Prog κ μ ε α) : p.bind ret = p := by
  induction p with
  | ret a => rfl
  | raise e => rfl
  | send k m rest ih => rw [send_bind, ih]
  | recv k rest ih =>
      rw [recv_bind]
      congr 1
      funext m
      exact ih m

theorem bind_assoc {α'' : Type} (p : Prog κ μ ε α) (f : α → Prog κ μ ε α')
    (g : α' → Prog κ μ ε α'') : (p.bind f).bind g = p.bind fun a => (f a).bind g := by
  induction p with
  | ret a => rfl
  | raise e => rfl
  | send k m rest ih => rw [send_bind, send_bind, send_bind, ih]
  | recv k rest ih =>
      rw [recv_bind, recv_bind, recv_bind]
      congr 1
      funext m
      exact ih m

/-- The body for each element in turn. -/
def each {β : Type} (body : β → α → Prog κ μ ε α) : List β → α → Prog κ μ ε α
  | [], a => ret a
  | b :: bs, a => (body b a).bind (each body bs)

/-- Go on with a value, or raise `e` where there is none. -/
def ofOption (e : ε) : Option α → Prog κ μ ε α
  | some a => ret a
  | none => raise e

@[simp] theorem ofOption_some (e : ε) (a : α) :
    (ofOption e (some a) : Prog κ μ ε α) = ret a := rfl

/-- The program that sends the messages before it goes on. -/
def sends (pending : List (κ × μ)) (p : Prog κ μ ε α) : Prog κ μ ε α :=
  pending.foldr (fun e rest => send e.1 e.2 rest) p

@[simp] theorem sends_nil (p : Prog κ μ ε α) : sends [] p = p := rfl

@[simp] theorem sends_cons (e : κ × μ) (pending : List (κ × μ)) (p : Prog κ μ ε α) :
    sends (e :: pending) p = send e.1 e.2 (sends pending p) := rfl

theorem of_sends_eq_ret {pending : List (κ × μ)} {p : Prog κ μ ε α} {a : α}
    (h : sends pending p = ret a) : pending = [] ∧ p = ret a := by
  cases pending with
  | nil => exact ⟨rfl, h⟩
  | cons e pending => cases h

theorem of_sends_eq_recv {pending : List (κ × μ)} {p : Prog κ μ ε α} {k : κ}
    {f : μ → Prog κ μ ε α} (h : sends pending p = recv k f) : pending = [] ∧ p = recv k f := by
  cases pending with
  | nil => exact ⟨rfl, h⟩
  | cons e pending => cases h

theorem sends_concat (pending : List (κ × μ)) (k : κ) (m : μ) (p : Prog κ μ ε α) :
    sends (pending ++ [(k, m)]) p = sends pending (send k m p) := by
  simp [sends]

end Prog

open Prog

/-! ## Running two programs -/

/-- A party: the rest of its program, what has arrived, and what it has sent and received so
far. -/
structure Party (κ μ ε α : Type) where
  prog : Prog κ μ ε α
  inbox : List (κ × μ)
  sent : List (κ × μ)
  received : List (κ × μ)

structure System (κ μ ε α β : Type) where
  left : Party κ μ ε α
  right : Party κ μ ε β

inductive Side where
  | left
  | right
  deriving DecidableEq

/-- The first message under the key `k`, and the others. -/
def takeKey [DecidableEq κ] (k : κ) : List (κ × μ) → Option (μ × List (κ × μ))
  | [] => none
  | (k', m) :: inbox =>
      if k' = k then some (m, inbox)
      else (takeKey k inbox).map fun (m', inbox') => (m', (k', m) :: inbox')

/-- One step of a party, and what it puts into the inbox of the other one. -/
def Party.step [DecidableEq κ] (s : Party κ μ ε α) :
    Option (Party κ μ ε α × List (κ × μ)) :=
  match s.prog with
  | .ret _ => none
  | .raise _ => none
  | .send k m rest => some ({ s with prog := rest, sent := s.sent ++ [(k, m)] }, [(k, m)])
  | .recv k rest =>
      (takeKey k s.inbox).map fun (m, inbox) =>
        ({ s with prog := rest m, inbox := inbox, received := s.received ++ [(k, m)] }, [])

def Party.deliver (s : Party κ μ ε α) (arrived : List (κ × μ)) : Party κ μ ε α :=
  { s with inbox := s.inbox ++ arrived }

def System.step [DecidableEq κ] (s : System κ μ ε α β) : Side → Option (System κ μ ε α β)
  | .left => s.left.step.map fun (left, out) => { left := left, right := s.right.deliver out }
  | .right => s.right.step.map fun (right, out) => { left := s.left.deliver out, right := right }

def Party.start (p : Prog κ μ ε α) : Party κ μ ε α :=
  { prog := p, inbox := [], sent := [], received := [] }

def System.start (p : Prog κ μ ε α) (q : Prog κ μ ε β) : System κ μ ε α β :=
  { left := .start p, right := .start q }

def System.swap (s : System κ μ ε α β) : System κ μ ε β α :=
  { left := s.right, right := s.left }

def Side.swap : Side → Side
  | .left => .right
  | .right => .left

/-! ## Lockstep -/

/-- Each receive of one program is answered by the next send of the other one under its key, and
both return. -/
inductive Lockstep : List (Side × κ × μ) → Prog κ μ ε α → Prog κ μ ε β → α → β → Prop where
  | ret (a : α) (b : β) : Lockstep [] (.ret a) (.ret b) a b
  | left {es : List (Side × κ × μ)} {p : Prog κ μ ε α} {f : μ → Prog κ μ ε β} {a : α} {b : β}
      {k : κ} {m : μ} (h : Lockstep es p (f m) a b) :
      Lockstep ((.left, k, m) :: es) (.send k m p) (.recv k f) a b
  | right {es : List (Side × κ × μ)} {f : μ → Prog κ μ ε α} {q : Prog κ μ ε β} {a : α} {b : β}
      {k : κ} {m : μ} (h : Lockstep es (f m) q a b) :
      Lockstep ((.right, k, m) :: es) (.recv k f) (.send k m q) a b

/-- The exchange with the parties in the other places. -/
def swapEvents (es : List (Side × κ × μ)) : List (Side × κ × μ) :=
  es.map fun (side, e) => (side.swap, e)

@[simp] theorem length_swapEvents (es : List (Side × κ × μ)) :
    (swapEvents es).length = es.length := by
  simp [swapEvents]

namespace Lockstep

variable {es es' : List (Side × κ × μ)} {p : Prog κ μ ε α} {q : Prog κ μ ε β} {a : α} {b : β}

theorem swap (h : Lockstep es p q a b) : Lockstep (swapEvents es) q p b a := by
  induction h with
  | ret a b => exact .ret b a
  | left _ ih => exact .right ih
  | right _ ih => exact .left ih

/-- **The exchange of one part after the other.** -/
theorem bind {f : α → Prog κ μ ε α'} {g : β → Prog κ μ ε β'} {a' : α'} {b' : β'}
    (h : Lockstep es p q a b) (h' : Lockstep es' (f a) (g b) a' b') :
    Lockstep (es ++ es') (p.bind f) (q.bind g) a' b' := by
  induction h with
  | ret a b => exact h'
  | left _ ih => exact .left (ih h')
  | right _ ih => exact .right (ih h')

/-- Behind a send the other program receives. -/
theorem of_send {k : κ} {m : μ} (h : Lockstep es (.send k m p) q a b) :
    ∃ es' f, es = (.left, k, m) :: es' ∧ q = .recv k f ∧ Lockstep es' p (f m) a b := by
  cases h with
  | left h => exact ⟨_, _, rfl, rfl, h⟩

/-- Behind a receive the other program sends. -/
theorem of_recv {k : κ} {f : μ → Prog κ μ ε α} (h : Lockstep es (.recv k f) q a b) :
    ∃ es' m q', es = (.right, k, m) :: es' ∧ q = .send k m q' ∧ Lockstep es' (f m) q' a b := by
  cases h with
  | right h => exact ⟨_, _, _, rfl, rfl, h⟩

/-- What is sent is received in the rest of the exchange. -/
theorem length_le {pending : List (κ × μ)} (h : Lockstep es (sends pending p) q a b) :
    pending.length ≤ es.length := by
  induction pending generalizing es q with
  | nil => simp
  | cons e pending ih =>
      obtain ⟨es', f, rfl, rfl, h'⟩ := h.of_send
      simpa using ih h'

theorem not_raise {pending : List (κ × μ)} {e : ε} :
    ¬ Lockstep es (sends pending (.raise e)) q a b := by
  intro h
  induction pending generalizing es q with
  | nil => cases h
  | cons m pending ih =>
      obtain ⟨_, _, _, _, h'⟩ := h.of_send
      exact ih h'

end Lockstep

/-! ## The state of a run -/

/-- One party may be ahead of the other by the messages in the inbox of the latter; `n` steps
are yet to come. -/
structure Together (n : ℕ) (s : System κ μ ε α β) (a : α) (b : β) : Prop where
  lockstep : ∃ es, Lockstep es (sends s.right.inbox s.left.prog) (sends s.left.inbox s.right.prog)
    a b ∧ n + s.left.inbox.length + s.right.inbox.length = 2 * es.length
  ahead : s.left.inbox = [] ∨ s.right.inbox = []
  sentLeft : s.left.sent = s.right.received ++ s.right.inbox
  sentRight : s.right.sent = s.left.received ++ s.left.inbox

theorem takeKey_head [DecidableEq κ] (k : κ) (m : μ) (inbox : List (κ × μ)) :
    takeKey k ((k, m) :: inbox) = some (m, inbox) := by
  simp [takeKey]

namespace Together

variable {n : ℕ} {s : System κ μ ε α β} {a : α} {b : β}

theorem swap (h : Together n s a b) : Together n s.swap b a := by
  obtain ⟨es, hes, hn⟩ := h.lockstep
  refine ⟨⟨swapEvents es, hes.swap, ?_⟩, h.ahead.symm, h.sentRight, h.sentLeft⟩
  rw [length_swapEvents]
  simp only [System.swap]
  omega

/-- The left party sends: its message waits behind those that are not yet received. -/
theorem step_send {k : κ} {m : μ} {p : Prog κ μ ε α} (h : Together n s a b)
    (hp : s.left.prog = .send k m p) :
    ∃ n', n = n' + 1 ∧ Together n'
      { left := { s.left with prog := p, sent := s.left.sent ++ [(k, m)] },
        right := s.right.deliver [(k, m)] } a b := by
  obtain ⟨es, hes, hn⟩ := h.lockstep
  rw [hp, ← sends_concat] at hes
  have hleft : s.left.inbox = [] := by
    rcases h.ahead with hleft | hright
    · exact hleft
    · -- otherwise both would send
      cases hin : s.left.inbox with
      | nil => rfl
      | cons e inbox =>
          rw [hin, hright] at hes
          obtain ⟨_, _, _, hq, _⟩ := hes.of_send
          cases hq
  have hle := hes.length_le
  rw [List.length_append, List.length_singleton] at hle
  refine ⟨n - 1, ?_, ⟨es, hes, ?_⟩, Or.inl hleft, ?_, h.sentRight⟩
  · rw [hleft, List.length_nil] at hn
    omega
  · simp only [Party.deliver, hleft, List.length_nil, List.length_append, List.length_singleton]
    rw [hleft, List.length_nil] at hn
    omega
  · simp [Party.deliver, h.sentLeft]

/-- The left party receives: what waits in its inbox is what it asks for. -/
theorem step_recv [DecidableEq κ] {k : κ} {f : μ → Prog κ μ ε α} {m : μ} {inbox : List (κ × μ)}
    (h : Together n s a b) (hp : s.left.prog = .recv k f)
    (ht : takeKey k s.left.inbox = some (m, inbox)) :
    ∃ n', n = n' + 1 ∧ Together n'
      { left := { s.left with prog := f m, inbox := inbox,
                              received := s.left.received ++ [(k, m)] },
        right := s.right } a b := by
  obtain ⟨es, hes, hn⟩ := h.lockstep
  cases hin : s.left.inbox with
  | nil =>
      rw [hin] at ht
      cases ht
  | cons e rest =>
      have hright : s.right.inbox = [] := by
        rcases h.ahead with hleft | hright
        · rw [hin] at hleft
          cases hleft
        · exact hright
      rw [hin, hright, hp] at hes
      obtain ⟨es', m', q', rfl, hq, hes'⟩ := hes.of_recv
      rw [sends_cons, Prog.send.injEq] at hq
      obtain ⟨rfl, rfl, rfl⟩ := hq
      rw [hin, takeKey_head, Option.some.injEq, Prod.mk.injEq] at ht
      obtain ⟨rfl, rfl⟩ := ht
      have hle := hes'.swap.length_le
      rw [length_swapEvents] at hle
      rw [hin, hright, List.length_cons, List.length_cons, List.length_nil] at hn
      refine ⟨n - 1, by omega, ⟨es', ?_, ?_⟩, Or.inr hright, h.sentLeft, ?_⟩
      · rw [hright]
        exact hes'
      · simp only [hright, List.length_nil]
        omega
      · rw [h.sentRight, hin]
        simp

theorem step_left [DecidableEq κ] {left : Party κ μ ε α} {out : List (κ × μ)}
    (h : Together n s a b) (hs : s.left.step = some (left, out)) :
    ∃ n', n = n' + 1 ∧ Together n' { left := left, right := s.right.deliver out } a b := by
  unfold Party.step at hs
  cases hp : s.left.prog with
  | ret a => simp [hp] at hs
  | raise e => simp [hp] at hs
  | send k m p =>
      simp only [hp, Option.some.injEq, Prod.mk.injEq] at hs
      obtain ⟨rfl, rfl⟩ := hs
      exact h.step_send hp
  | recv k f =>
      simp only [hp, Option.map_eq_some_iff, Prod.mk.injEq] at hs
      obtain ⟨⟨m, inbox⟩, ht, rfl, rfl⟩ := hs
      have hdeliver : s.right.deliver [] = s.right := by simp [Party.deliver]
      rw [hdeliver]
      exact h.step_recv hp ht

/-- **A step of either party** uses up one of the steps to come. -/
theorem step [DecidableEq κ] {side : Side} {s' : System κ μ ε α β} (h : Together n s a b)
    (hs : s.step side = some s') : ∃ n', n = n' + 1 ∧ Together n' s' a b := by
  cases side with
  | left =>
      obtain ⟨⟨left, out⟩, hl, rfl⟩ := Option.map_eq_some_iff.mp hs
      exact h.step_left hl
  | right =>
      obtain ⟨⟨right, out⟩, hr, rfl⟩ := Option.map_eq_some_iff.mp hs
      obtain ⟨n', hn, h'⟩ := h.swap.step_left hr
      exact ⟨n', hn, h'.swap⟩

theorem run [DecidableEq κ] {acts : List Side} {s' : System κ μ ε α β} (h : Together n s a b)
    (hr : Transition.run System.step s acts = some s') :
    ∃ n', n = n' + acts.length ∧ Together n' s' a b := by
  induction acts generalizing n s with
  | nil =>
      cases hr
      exact ⟨n, rfl, h⟩
  | cons side acts ih =>
      obtain ⟨s₁, hs₁, hr⟩ := Transition.run_cons_eq_some.mp hr
      obtain ⟨n₁, rfl, h₁⟩ := h.step hs₁
      obtain ⟨n', rfl, h'⟩ := ih h₁ hr
      exact ⟨n', by rw [List.length_cons]; omega, h'⟩

theorem left_ne_raise (h : Together n s a b) (e : ε) : s.left.prog ≠ .raise e := by
  intro hp
  obtain ⟨es, hes, _⟩ := h.lockstep
  rw [hp] at hes
  exact Lockstep.not_raise hes

end Together

/-- Both parties have returned, and no message is left over. -/
structure Ended (s : System κ μ ε α β) (a : α) (b : β) : Prop where
  left : s.left.prog = .ret a
  right : s.right.prog = .ret b
  leftInbox : s.left.inbox = []
  rightInbox : s.right.inbox = []

theorem Party.step_of_send [DecidableEq κ] {s : Party κ μ ε α} {k : κ} {m : μ}
    {p : Prog κ μ ε α} (hp : s.prog = .send k m p) : ∃ r, s.step = some r := by
  rw [Party.step, hp]
  exact ⟨_, rfl⟩

theorem Party.step_of_recv [DecidableEq κ] {s : Party κ μ ε α} {k : κ} {m : μ}
    {f : μ → Prog κ μ ε α} {inbox : List (κ × μ)} (hp : s.prog = .recv k f)
    (hin : s.inbox = (k, m) :: inbox) : ∃ r, s.step = some r := by
  simp [Party.step, hp, hin, takeKey_head]

theorem System.step_of_left [DecidableEq κ] {s : System κ μ ε α β}
    (h : ∃ r, s.left.step = some r) : ∃ side s', s.step side = some s' := by
  obtain ⟨r, hr⟩ := h
  exact ⟨.left, _, by rw [System.step, hr]; rfl⟩

theorem System.step_of_right [DecidableEq κ] {s : System κ μ ε α β}
    (h : ∃ r, s.right.step = some r) : ∃ side s', s.step side = some s' := by
  obtain ⟨r, hr⟩ := h
  exact ⟨.right, _, by rw [System.step, hr]; rfl⟩

/-- The next message of the exchange can be sent, or it has been sent and can be received. -/
theorem Together.goesOn [DecidableEq κ] {n : ℕ} {s : System κ μ ε α β} {a : α} {b : β}
    (h : Together n s a b) : (∃ side s', s.step side = some s') ∨ Ended s a b := by
  obtain ⟨es, hes, _⟩ := h.lockstep
  generalize hP : sends s.right.inbox s.left.prog = P at hes
  generalize hQ : sends s.left.inbox s.right.prog = Q at hes
  cases hes with
  | ret a b =>
      obtain ⟨hrin, hp⟩ := of_sends_eq_ret hP
      obtain ⟨hlin, hq⟩ := of_sends_eq_ret hQ
      exact Or.inr ⟨hp, hq, hlin, hrin⟩
  | @left es p f a b k m _ =>
      obtain ⟨hlin, hq⟩ := of_sends_eq_recv hQ
      left
      cases hrin : s.right.inbox with
      | nil =>
          rw [hrin, sends_nil] at hP
          exact System.step_of_left (Party.step_of_send hP)
      | cons e rest =>
          rw [hrin, sends_cons, Prog.send.injEq] at hP
          obtain ⟨rfl, rfl, _⟩ := hP
          exact System.step_of_right (Party.step_of_recv hq hrin)
  | @right es f q a b k m _ =>
      obtain ⟨hrin, hp⟩ := of_sends_eq_recv hP
      left
      cases hlin : s.left.inbox with
      | nil =>
          rw [hlin, sends_nil] at hQ
          exact System.step_of_right (Party.step_of_send hQ)
      | cons e rest =>
          rw [hlin, sends_cons, Prog.send.injEq] at hQ
          obtain ⟨rfl, rfl, _⟩ := hQ
          exact System.step_of_left (Party.step_of_recv hp hlin)

/-! ## All runs -/

/-- No run of the two programs comes to an error. -/
def Safe [DecidableEq κ] (p : Prog κ μ ε α) (q : Prog κ μ ε β) : Prop :=
  ∀ acts s, Transition.run System.step (System.start p q) acts = some s →
    ∀ e, s.left.prog ≠ .raise e ∧ s.right.prog ≠ .raise e

/-- In every run of the two programs, in whatever order they take their steps, each party has
received what the other one has sent, but for what is in its inbox, in the same order and under
the same keys; none raises an error; the run can go on until both have returned, with results in
the relation `R`; and it cannot go on for ever. -/
structure RunsTogether [DecidableEq κ] (p : Prog κ μ ε α) (q : Prog κ μ ε β)
    (R : α → β → Prop) : Prop where
  matched : ∀ acts s, Transition.run System.step (System.start p q) acts = some s →
    s.left.sent = s.right.received ++ s.right.inbox ∧
      s.right.sent = s.left.received ++ s.left.inbox
  safe : Safe p q
  goesOn : ∀ acts s, Transition.run System.step (System.start p q) acts = some s →
    (∃ side s', s.step side = some s') ∨ ∃ a b, Ended s a b ∧ R a b
  bounded : ∃ n, ∀ acts s, Transition.run System.step (System.start p q) acts = some s →
    acts.length ≤ n

theorem Lockstep.together {es : List (Side × κ × μ)} {p : Prog κ μ ε α} {q : Prog κ μ ε β}
    {a : α} {b : β} (h : Lockstep es p q a b) :
    Together (2 * es.length) (System.start p q) a b :=
  ⟨⟨es, h, rfl⟩, Or.inl rfl, rfl, rfl⟩

/-- **Programs in lockstep run together.** -/
theorem Lockstep.runsTogether [DecidableEq κ] {es : List (Side × κ × μ)} {p : Prog κ μ ε α}
    {q : Prog κ μ ε β} {a : α} {b : β} {R : α → β → Prop} (h : Lockstep es p q a b)
    (hR : R a b) : RunsTogether p q R := by
  constructor
  · intro acts s hr
    obtain ⟨n, _, hs⟩ := h.together.run hr
    exact ⟨hs.sentLeft, hs.sentRight⟩
  · intro acts s hr e
    obtain ⟨n, _, hs⟩ := h.together.run hr
    exact ⟨hs.left_ne_raise e, hs.swap.left_ne_raise e⟩
  · intro acts s hr
    obtain ⟨n, _, hs⟩ := h.together.run hr
    exact hs.goesOn.imp id fun hend => ⟨a, b, hend, hR⟩
  · refine ⟨2 * es.length, ?_⟩
    intro acts s hr
    obtain ⟨n, hn, _⟩ := h.together.run hr
    omega

/-! ## Errors -/

/-- The states differ only in what was sent and received before. -/
structure SameRest (s t : System κ μ ε α β) : Prop where
  leftProg : s.left.prog = t.left.prog
  leftInbox : s.left.inbox = t.left.inbox
  rightProg : s.right.prog = t.right.prog
  rightInbox : s.right.inbox = t.right.inbox

theorem Party.step_congr [DecidableEq κ] {s t s' : Party κ μ ε α} {out : List (κ × μ)}
    (hprog : s.prog = t.prog) (hin : s.inbox = t.inbox) (h : s.step = some (s', out)) :
    ∃ t', t.step = some (t', out) ∧ s'.prog = t'.prog ∧ s'.inbox = t'.inbox := by
  unfold Party.step at h ⊢
  rw [← hprog, ← hin]
  cases hp : s.prog with
  | ret a => simp [hp] at h
  | raise e => simp [hp] at h
  | send k m rest =>
      simp only [hp, Option.some.injEq, Prod.mk.injEq] at h
      obtain ⟨rfl, rfl⟩ := h
      exact ⟨_, rfl, rfl, rfl⟩
  | recv k rest =>
      simp only [hp, Option.map_eq_some_iff, Prod.mk.injEq] at h
      obtain ⟨⟨m, inbox⟩, ht, rfl, rfl⟩ := h
      refine ⟨{ t with prog := rest m, inbox := inbox, received := t.received ++ [(k, m)] }, ?_,
        rfl, rfl⟩
      simp only [ht, Option.map_some]

namespace SameRest

variable {s t s' : System κ μ ε α β}

theorem symm (h : SameRest s t) : SameRest t s :=
  ⟨h.leftProg.symm, h.leftInbox.symm, h.rightProg.symm, h.rightInbox.symm⟩

variable [DecidableEq κ]

theorem step {side : Side} (h : SameRest s t) (hs : s.step side = some s') :
    ∃ t', t.step side = some t' ∧ SameRest s' t' := by
  cases side with
  | left =>
      obtain ⟨⟨left, out⟩, hl, rfl⟩ := Option.map_eq_some_iff.mp hs
      obtain ⟨left', hl', hprog, hin⟩ := Party.step_congr h.leftProg h.leftInbox hl
      refine ⟨{ left := left', right := t.right.deliver out }, by rw [System.step, hl']; rfl,
        hprog, hin, h.rightProg, ?_⟩
      simp [Party.deliver, h.rightInbox]
  | right =>
      obtain ⟨⟨right, out⟩, hr, rfl⟩ := Option.map_eq_some_iff.mp hs
      obtain ⟨right', hr', hprog, hin⟩ := Party.step_congr h.rightProg h.rightInbox hr
      refine ⟨{ left := t.left.deliver out, right := right' }, by rw [System.step, hr']; rfl,
        h.leftProg, ?_, hprog, hin⟩
      simp [Party.deliver, h.leftInbox]

theorem run {acts : List Side} (h : SameRest s t)
    (hs : Transition.run System.step s acts = some s') :
    ∃ t', Transition.run System.step t acts = some t' ∧ SameRest s' t' := by
  induction acts generalizing s t with
  | nil =>
      cases hs
      exact ⟨t, rfl, h⟩
  | cons side acts ih =>
      obtain ⟨s₁, hs₁, hs⟩ := Transition.run_cons_eq_some.mp hs
      obtain ⟨t₁, ht₁, h₁⟩ := h.step hs₁
      obtain ⟨t', ht, h'⟩ := ih h₁ hs
      exact ⟨t', Transition.run_cons_eq_some.mpr ⟨t₁, ht₁, ht⟩, h'⟩

end SameRest

section Errors

variable [DecidableEq κ] {p : Prog κ μ ε α} {q : Prog κ μ ε β}

theorem Safe.not_raise_left {e : ε} : ¬ Safe (.raise e : Prog κ μ ε α) q :=
  fun h => (h [] _ rfl e).1 rfl

theorem Safe.not_raise_right {e : ε} : ¬ Safe p (.raise e : Prog κ μ ε β) :=
  fun h => (h [] _ rfl e).2 rfl

/-- A message of the left party, sent and received. -/
theorem run_left (k : κ) (m : μ) (p : Prog κ μ ε α) (f : μ → Prog κ μ ε β) :
    ∃ t : System κ μ ε α β,
      Transition.run System.step (System.start (.send k m p) (.recv k f)) [.left, .right] = some t ∧
        SameRest (System.start p (f m)) t :=
  ⟨{ left := { prog := p, inbox := [], sent := [(k, m)], received := [] },
     right := { prog := f m, inbox := [], sent := [], received := [(k, m)] } },
    by simp [Transition.run, System.step, System.start, Party.start, Party.step, Party.deliver,
      takeKey], rfl, rfl, rfl, rfl⟩

theorem run_right (k : κ) (m : μ) (f : μ → Prog κ μ ε α) (q : Prog κ μ ε β) :
    ∃ t : System κ μ ε α β,
      Transition.run System.step (System.start (.recv k f) (.send k m q)) [.right, .left] = some t ∧
        SameRest (System.start (f m) q) t :=
  ⟨{ left := { prog := f m, inbox := [], sent := [], received := [(k, m)] },
     right := { prog := q, inbox := [], sent := [(k, m)], received := [] } },
    by simp [Transition.run, System.step, System.start, Party.start, Party.step, Party.deliver,
      takeKey], rfl, rfl, rfl, rfl⟩

/-- What can happen behind a message of the left party can happen. -/
theorem Safe.of_left {k : κ} {m : μ} {f : μ → Prog κ μ ε β}
    (h : Safe (.send k m p) (.recv k f)) : Safe p (f m) := by
  intro acts s hs
  obtain ⟨t, ht, hsame⟩ := run_left k m p f
  obtain ⟨t', ht', h'⟩ := hsame.run hs
  rw [h'.leftProg, h'.rightProg]
  exact h (.left :: .right :: acts) t' (Transition.run_append ht ht')

theorem Safe.of_right {k : κ} {m : μ} {f : μ → Prog κ μ ε α}
    (h : Safe (.recv k f) (.send k m q)) : Safe (f m) q := by
  intro acts s hs
  obtain ⟨t, ht, hsame⟩ := run_right k m f q
  obtain ⟨t', ht', h'⟩ := hsame.run hs
  rw [h'.leftProg, h'.rightProg]
  exact h (.right :: .left :: acts) t' (Transition.run_append ht ht')

/-- Behind a part in lockstep the rest is without errors too. -/
theorem Lockstep.safe_rest {es : List (Side × κ × μ)} {a : α} {b : β}
    {f : α → Prog κ μ ε α'} {g : β → Prog κ μ ε β'} (h : Lockstep es p q a b)
    (hs : Safe (p.bind f) (q.bind g)) : Safe (f a) (g b) := by
  induction h with
  | ret a b => exact hs
  | left _ ih => exact ih hs.of_left
  | right _ ih => exact ih hs.of_right

end Errors

/-! ## The order of the steps -/

/-- In some order of the steps both programs come to their ends. -/
def Ends [DecidableEq κ] (p : Prog κ μ ε α) (q : Prog κ μ ε β) : Prop :=
  ∃ acts s a b, Transition.run System.step (System.start p q) acts = some s ∧
    s.left.prog = .ret a ∧ s.right.prog = .ret b

section Order

variable [DecidableEq κ] {s s₁ s₂ t : System κ μ ε α β}

/-- What arrives later is behind the message that is taken. -/
theorem takeKey_append {k : κ} {inbox rest : List (κ × μ)} {m : μ}
    (h : takeKey k inbox = some (m, rest)) (arrived : List (κ × μ)) :
    takeKey k (inbox ++ arrived) = some (m, rest ++ arrived) := by
  induction inbox generalizing rest with
  | nil => cases h
  | cons e inbox ih =>
      obtain ⟨k', m'⟩ := e
      rw [takeKey] at h
      rw [List.cons_append, takeKey]
      split_ifs at h ⊢ with hk
      · cases h
        rfl
      · obtain ⟨⟨m₁, rest₁⟩, h₁, he⟩ := Option.map_eq_some_iff.mp h
        cases he
        rw [ih h₁]
        rfl

theorem Party.step_deliver {p p' : Party κ μ ε α} {out : List (κ × μ)}
    (h : p.step = some (p', out)) (arrived : List (κ × μ)) :
    (p.deliver arrived).step = some (p'.deliver arrived, out) := by
  unfold Party.step at h ⊢
  cases hp : p.prog with
  | ret a => simp [hp] at h
  | raise e => simp [hp] at h
  | send k m rest =>
      simp only [hp, Option.some.injEq, Prod.mk.injEq] at h
      obtain ⟨rfl, rfl⟩ := h
      simp [Party.deliver, hp]
  | recv k rest =>
      simp only [hp, Option.map_eq_some_iff, Prod.mk.injEq] at h
      obtain ⟨⟨m, inbox⟩, ht, rfl, rfl⟩ := h
      simp [Party.deliver, hp, takeKey_append ht]

/-- Steps of both parties can be taken in either order. -/
theorem System.step_comm (hl : s.step .left = some s₁) (hr : s.step .right = some s₂) :
    ∃ t, s₁.step .right = some t ∧ s₂.step .left = some t := by
  obtain ⟨⟨left, outl⟩, hleft, rfl⟩ := Option.map_eq_some_iff.mp hl
  obtain ⟨⟨right, outr⟩, hright, rfl⟩ := Option.map_eq_some_iff.mp hr
  refine ⟨{ left := left.deliver outr, right := right.deliver outl }, ?_, ?_⟩
  · simp [System.step, Party.step_deliver hright]
  · simp [System.step, Party.step_deliver hleft]

/-- A state in which no party can take a step. -/
def System.Stuck (t : System κ μ ε α β) : Prop := ∀ side, t.step side = none

/-- A step does not lead away from where a run has ended. -/
theorem run_of_step (ht : t.Stuck) {acts : List Side} {side : Side}
    (h : Transition.run System.step s acts = some t) (hs : s.step side = some s₁) :
    ∃ acts', Transition.run System.step s₁ acts' = some t := by
  induction acts generalizing s s₁ with
  | nil =>
      cases h
      rw [ht side] at hs
      cases hs
  | cons act acts ih =>
      obtain ⟨s₂, hs₂, h⟩ := Transition.run_cons_eq_some.mp h
      by_cases hact : act = side
      · rw [hact, hs, Option.some.injEq] at hs₂
        exact ⟨acts, hs₂ ▸ h⟩
      · have hjoin : ∃ u, s₂.step side = some u ∧ s₁.step act = some u := by
          cases act <;> cases side
          · exact absurd rfl hact
          · exact System.step_comm hs₂ hs
          · obtain ⟨u, hu, hu'⟩ := System.step_comm hs hs₂
            exact ⟨u, hu', hu⟩
          · exact absurd rfl hact
        obtain ⟨u, hu, hu'⟩ := hjoin
        obtain ⟨acts', hacts'⟩ := ih h hu
        exact ⟨act :: acts', Transition.run_cons_eq_some.mpr ⟨u, hu', hacts'⟩⟩

/-- **The order of the steps does not matter**: where one run has ended every other run can end. -/
theorem run_of_run (ht : t.Stuck) {acts acts₁ : List Side}
    (h : Transition.run System.step s acts = some t)
    (h₁ : Transition.run System.step s acts₁ = some s₁) :
    ∃ acts', Transition.run System.step s₁ acts' = some t := by
  induction acts₁ generalizing s acts with
  | nil =>
      cases h₁
      exact ⟨acts, h⟩
  | cons act acts₁ ih =>
      obtain ⟨s₂, hs₂, h₁⟩ := Transition.run_cons_eq_some.mp h₁
      obtain ⟨acts₂, h₂⟩ := run_of_step ht h hs₂
      exact ih h₂ h₁

/-- A party that has raised an error has still raised it after any run. -/
theorem raise_of_run {acts : List Side} {e : ε} (h : Transition.run System.step s acts = some t) :
    (s.left.prog = .raise e → t.left.prog = .raise e) ∧
      (s.right.prog = .raise e → t.right.prog = .raise e) := by
  refine Transition.run_invariant (fun u => (s.left.prog = .raise e → u.left.prog = .raise e) ∧
    (s.right.prog = .raise e → u.right.prog = .raise e)) ?_ ⟨id, id⟩ h
  intro taken htaken hbefore
  have hstep := Transition.step_of_mem_trace htaken
  cases hact : taken.act with
  | left =>
      rw [hact] at hstep
      obtain ⟨⟨left, out⟩, hleft, hafter⟩ := Option.map_eq_some_iff.mp hstep
      rw [← hafter]
      refine ⟨fun hs => ?_, hbefore.2⟩
      rw [Party.step, hbefore.1 hs] at hleft
      cases hleft
  | right =>
      rw [hact] at hstep
      obtain ⟨⟨right, out⟩, hright, hafter⟩ := Option.map_eq_some_iff.mp hstep
      rw [← hafter]
      refine ⟨hbefore.1, fun hs => ?_⟩
      rw [Party.step, hbefore.2 hs] at hright
      cases hright

/-- **Where one run ends well no run comes to an error.** -/
theorem Ends.safe {p : Prog κ μ ε α} {q : Prog κ μ ε β} (h : Ends p q) : Safe p q := by
  obtain ⟨acts, t, a, b, hrun, hleft, hright⟩ := h
  have ht : t.Stuck := by
    intro side
    cases side with
    | left => simp [System.step, Party.step, hleft]
    | right => simp [System.step, Party.step, hright]
  intro acts₁ s₁ h₁ e
  obtain ⟨acts', h'⟩ := run_of_run ht hrun h₁
  constructor
  · intro he
    rw [(raise_of_run h').1 he] at hleft
    cases hleft
  · intro he
    rw [(raise_of_run h').2 he] at hright
    cases hright

/-- Programs that run together come to their ends. -/
theorem RunsTogether.ends {p : Prog κ μ ε α} {q : Prog κ μ ε β} {R : α → β → Prop}
    (h : RunsTogether p q R) : Ends p q := by
  obtain ⟨n, hn⟩ := h.bounded
  -- the steps that a run can still take become fewer with each step
  have hrest : ∀ rest acts s, Transition.run System.step (System.start p q) acts = some s →
      n + 1 - acts.length = rest → Ends p q := by
    intro rest
    induction rest with
    | zero =>
        intro acts s hs hrest
        have hle := hn acts s hs
        omega
    | succ rest ih =>
        intro acts s hs hrest
        rcases h.goesOn acts s hs with ⟨side, s', hstep⟩ | ⟨a, b, hended, _⟩
        · have hs' : Transition.run System.step (System.start p q) (acts ++ [side]) = some s' :=
            Transition.run_append hs (Transition.run_cons_eq_some.mpr ⟨s', hstep, rfl⟩)
          apply ih (acts ++ [side]) s' hs'
          rw [List.length_append, List.length_singleton]
          omega
        · exact ⟨acts, s, a, b, hs, hended.left, hended.right⟩
  exact hrest (n + 1) [] (System.start p q) rfl rfl

/-! ## Runs that do not end -/

/-- From a state that a run reaches, the run can be brought to its end as well. -/
theorem Ends.of_run {p p' : Prog κ μ ε α} {q q' : Prog κ μ ε β} (h : Ends p q) {acts : List Side}
    {u : System κ μ ε α β} (hu : Transition.run System.step (System.start p q) acts = some u)
    (hsame : SameRest u (System.start p' q')) : Ends p' q' := by
  obtain ⟨acts', t, a, b, hrun, hleft, hright⟩ := h
  have ht : t.Stuck := by
    intro side
    cases side with
    | left => simp [System.step, Party.step, hleft]
    | right => simp [System.step, Party.step, hright]
  obtain ⟨rest, hrest⟩ := run_of_run ht hrun hu
  obtain ⟨t', ht', hsame'⟩ := hsame.run hrest
  exact ⟨rest, t', a, b, ht', hsame'.leftProg ▸ hleft, hsame'.rightProg ▸ hright⟩

theorem Ends.of_left {p : Prog κ μ ε α} {k : κ} {m : μ} {f : μ → Prog κ μ ε β}
    (h : Ends (.send k m p) (.recv k f)) : Ends p (f m) := by
  obtain ⟨t, ht, hsame⟩ := run_left k m p f
  exact h.of_run ht hsame.symm

theorem Ends.of_right {q : Prog κ μ ε β} {k : κ} {m : μ} {f : μ → Prog κ μ ε α}
    (h : Ends (.recv k f) (.send k m q)) : Ends (f m) q := by
  obtain ⟨t, ht, hsame⟩ := run_right k m f q
  exact h.of_run ht hsame.symm

/-- Behind a part in lockstep the rest comes to its end too. -/
theorem Lockstep.ends_rest {es : List (Side × κ × μ)} {p : Prog κ μ ε α} {q : Prog κ μ ε β}
    {a : α} {b : β} {f : α → Prog κ μ ε α'} {g : β → Prog κ μ ε β'} (h : Lockstep es p q a b)
    (hs : Ends (p.bind f) (q.bind g)) : Ends (f a) (g b) := by
  induction h with
  | ret a b => exact hs
  | left _ ih => exact ih hs.of_left
  | right _ ih => exact ih hs.of_right

/-- The program cannot go on by itself, and has not returned. -/
def Prog.Waits : Prog κ μ ε α → Prop
  | .ret _ => False
  | .raise _ => True
  | .send _ _ _ => False
  | .recv _ _ => True

omit [DecidableEq κ] in
theorem Prog.Waits.ne_ret {p : Prog κ μ ε α} (h : p.Waits) (a : α) : p ≠ .ret a := by
  rintro rfl
  exact h

theorem Prog.Waits.step {p : Prog κ μ ε α} (h : p.Waits) : (Party.start p).step = none := by
  cases p with
  | ret a => exact h.elim
  | raise e => rfl
  | send k m rest => exact h.elim
  | recv k rest => rfl

/-- **Two programs that wait for each other** do not end. -/
theorem not_ends_of_waits {p : Prog κ μ ε α} {q : Prog κ μ ε β} (hp : p.Waits) (hq : q.Waits) :
    ¬ Ends p q := by
  rintro ⟨acts, s, a, b, hrun, hleft, _⟩
  cases acts with
  | nil =>
      cases hrun
      exact hp.ne_ret a hleft
  | cons side acts =>
      obtain ⟨s₁, hs₁, _⟩ := Transition.run_cons_eq_some.mp hrun
      cases side with
      | left =>
          rw [System.step, System.start, hp.step] at hs₁
          cases hs₁
      | right =>
          rw [System.step, System.start, hq.step] at hs₁
          cases hs₁

end Order

end Session
