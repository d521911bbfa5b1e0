import Fediux.Basic.Messaging

set_option autoImplicit false

/-! # A host and its guests

The parties of the vertical algorithms of `python/fediux/FL` that have no coordinator: the host
talks to every guest over a `MultiGrpcClients`, and the guests only to the host. The columns of the
data are dealt out to the parties.
-/

namespace Fediux.Vfl

open Session Session.Prog Messaging

/-- The host is `none`, guest `j` is `some j`. -/
abbrev Party (N : ℕ) := Option (Fin N)

def guests (N : ℕ) : List (Party N) := (List.finRange N).map some

section Channels

variable {N : ℕ} {κ μ ε α β : Type}

/-- `recv_all` of the host. A message that cannot be used as it should raises `e`. -/
def recv_all (read : μ → Option β) (e : ε) (k : κ) (f : List β → Prog (Party N × κ) μ ε α) :
    Prog (Party N × κ) μ ε α :=
  recvAll k (guests N) fun ms => (ofOption e (ms.mapM read)).bind f

/-- `send_all` of the host. -/
def send_all (k : κ) (m : μ) (p : Prog (Party N × κ) μ ε α) : Prog (Party N × κ) μ ε α :=
  sends ((guests N).map fun i => ((i, k), m)) p

/-- `recv` of a guest. -/
def recvHost (read : μ → Option β) (e : ε) (k : κ) (f : β → Prog (Party N × κ) μ ε α) :
    Prog (Party N × κ) μ ε α :=
  .recv (none, k) fun m => (ofOption e (read m)).bind f

/-- `send` of a guest. -/
def sendHost (k : κ) (m : μ) (p : Prog (Party N × κ) μ ε α) : Prog (Party N × κ) μ ε α :=
  .send (none, k) m p

end Channels

/-! ## The messages between them -/

section Together

variable {N : ℕ} {κ μ ε η : Type} {θ : Fin N → Type}

abbrev Result (η : Type) (θ : Fin N → Type) : Party N → Type
  | none => η
  | some j => θ j

/-- What the host has and what the guests have. -/
def both (h : η) (g : (j : Fin N) → θ j) : (i : Party N) → Result η θ i
  | none => h
  | some j => g j

/-- The programs of the host and of the guests. -/
def together (h : Prog (Party N × κ) μ ε η) (g : (j : Fin N) → Prog (Party N × κ) μ ε (θ j)) :
    (i : Party N) → Prog (Party N × κ) μ ε (Result η θ i)
  | none => h
  | some j => g j

theorem mem_guests {i : Party N} : i ∈ guests N ↔ ∃ j, i = some j := by
  simp [guests, eq_comm]

theorem nodup_guests : (guests N).Nodup :=
  (List.nodup_finRange N).map (Option.some_injective _)

theorem mapM_read {β : Type} {read : μ → Option β} {m : Fin N → μ} {v : Fin N → β}
    (hread : ∀ j, read (m j) = some (v j)) (l : List (Fin N)) :
    (l.map m).mapM read = some (l.map v) := by
  induction l with
  | nil => rfl
  | cons j l ih => simp [ih, hread j]

variable {h : Prog (Party N × κ) μ ε η} {g : (j : Fin N) → Prog (Party N × κ) μ ε (θ j)}
  {T : (i : Party N) → Prog (Party N × κ) μ ε (Result η θ i)} {k : κ} {e : ε}

theorem guests_to_host [Inhabited μ] {β : Type} {read : μ → Option β} {m : Fin N → μ}
    {v : Fin N → β} {f : List β → Prog (Party N × κ) μ ε η}
    (hread : ∀ j, read (m j) = some (v j))
    (hrest : Exchanges (together (f ((List.finRange N).map v)) g) T) :
    Exchanges (together (recv_all read e k f) fun j => sendHost k (m j) (g j)) T := by
  refine Exchanges.gather (i := none) (m := fun i => i.elim default m)
    (p := together (recv_all read e k f) g) nodup_guests (by simp [guests]) rfl
    (fun i hi => ?_) hrest ?_ (fun i hi => ?_) (fun i hi hi' => ?_)
  · obtain ⟨j, rfl⟩ := mem_guests.mp hi
    rfl
  · have hm : (guests N).map (fun i => i.elim default m) = (List.finRange N).map m := by
      simp [guests]
    rw [hm, mapM_read hread]
    rfl
  · obtain ⟨j, rfl⟩ := mem_guests.mp hi
    rfl
  · cases i with
    | none => exact absurd rfl hi
    | some j => exact absurd (mem_guests.mpr ⟨j, rfl⟩) hi'

theorem host_to_guests {β : Fin N → Type} {read : (j : Fin N) → μ → Option (β j)} {m : μ}
    {v : (j : Fin N) → β j} {f : (j : Fin N) → β j → Prog (Party N × κ) μ ε (θ j)}
    (hread : ∀ j, read j m = some (v j))
    (hrest : Exchanges (together h fun j => f j (v j)) T) :
    Exchanges (together (send_all k m h) fun j => recvHost (read j) e k (f j)) T := by
  refine Exchanges.scatter (i := none) (m := fun _ => m) (p := h)
    (f := fun i m => together h (fun j => (ofOption e (read j m)).bind (f j)) i)
    nodup_guests (by simp [guests]) rfl (fun i hi => ?_) hrest rfl (fun i hi => ?_)
    (fun i hi hi' => ?_)
  · obtain ⟨j, rfl⟩ := mem_guests.mp hi
    rfl
  · obtain ⟨j, rfl⟩ := mem_guests.mp hi
    simp [together, hread]
  · cases i with
    | none => exact absurd rfl hi
    | some j => exact absurd (mem_guests.mpr ⟨j, rfl⟩) hi'

theorem plays_ret (h : η) (g : (j : Fin N) → θ j) :
    Plays (together (.ret h : Prog (Party N × κ) μ ε η) fun j => .ret (g j)) (both h g) := by
  have hret : together (.ret h : Prog (Party N × κ) μ ε η) (fun j => .ret (g j)) =
      fun i => .ret (both h g i) := by
    funext i
    cases i <;> rfl
  rw [hret]
  exact .ret _

/-- The first part of the programs. -/
theorem exchanges_bind {η' : Type} {θ' : Fin N → Type} {kh : η → Prog (Party N × κ) μ ε η'}
    {kg : (j : Fin N) → θ j → Prog (Party N × κ) μ ε (θ' j)} {h' : η} {g' : (j : Fin N) → θ j}
    (hfirst : Plays (together h g) (both h' g')) :
    Exchanges (together (h.bind kh) fun j => (g j).bind (kg j))
      (together (kh h') fun j => kg j (g' j)) := by
  let kont : (i : Party N) → Result η θ i → Prog (Party N × κ) μ ε (Result η' θ' i)
    | none => kh
    | some j => kg j
  have hk : (together (kh h') fun j => kg j (g' j)) = fun i => kont i (both h' g' i) := by
    funext i
    cases i <;> rfl
  have hb : (together (h.bind kh) fun j => (g j).bind (kg j)) =
      fun i => (together h g i).bind (kont i) := by
    funext i
    cases i <;> rfl
  rw [hb, hk]
  exact Exchanges.bind kont hfirst

/-- One part after the other. -/
theorem plays_bind {η' : Type} {θ' : Fin N → Type} {kh : η → Prog (Party N × κ) μ ε η'}
    {kg : (j : Fin N) → θ j → Prog (Party N × κ) μ ε (θ' j)} {h' : η} {g' : (j : Fin N) → θ j}
    {b : (i : Party N) → Result η' θ' i} (hfirst : Plays (together h g) (both h' g'))
    (hrest : Plays (together (kh h') fun j => kg j (g' j)) b) :
    Plays (together (h.bind kh) fun j => (g j).bind (kg j)) b :=
  (exchanges_bind hfirst).trans hrest

end Together

/-! ## The columns -/

/-- A sum over all columns is one over the host's and over those of each guest. -/
theorem sum_owner {N : ℕ} {C K : Type} [Fintype C] [AddCommMonoid K] (owner : C → Party N)
    (f : C → K) :
    ∑ c, f c = ∑ c : { c // owner c = none }, f c +
      ((List.finRange N).map fun j => ∑ c : { c // owner c = some j }, f c).sum := by
  have hfibers : ∑ c, f c = ∑ i : Party N, ∑ c : { c // owner c = i }, f c := by
    rw [← Fintype.sum_sigma']
    exact ((Equiv.sigmaFiberEquiv owner).sum_comp f).symm
  rw [hfibers, Fintype.sum_option, Fin.sum_univ_def]

end Fediux.Vfl
