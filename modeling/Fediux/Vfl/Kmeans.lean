import Fediux.Basic.Fallible
import Fediux.Vfl.HostGuests

set_option autoImplicit false

/-! # Vertical k-means

`Plaintext_Host` and `Plaintext_Guest` of `python/fediux/FL/kmeans`, in exact arithmetic, against
k-means on the joined columns. The labels and shifts of an iteration are the central ones, but at
the exit for a small shift the guests have taken their new centers and the host has not, and with
one cluster the silhouette of a finished iteration raises an error. `agreesWithCentral_iff` says
that nothing else goes wrong.
-/

namespace Fediux.Vfl.Kmeans

open Session Session.Prog Messaging

inductive Err where
  | ValueError
  deriving DecidableEq, Repr

/-- The rows of the joined columns, dealt out by `owner`, the joined initial centers and the common
parameters. -/
structure Setup (K : Type) where
  N : ℕ
  columns : ℕ
  owner : Fin columns → Party N
  rows : ℕ
  x : Fin rows → Fin columns → K
  n_clusters : ℕ
  centers : Fin n_clusters → Fin columns → K
  max_iter : ℕ
  tol : K
  n_clusters_pos : 0 < n_clusters

section Arithmetic

variable {K C : Type} [Field K] [LinearOrder K] [Fintype C] {n k : ℕ}

/-- `_compute_distances`. -/
def compute_distances (x : Fin n → C → K) (centers : Fin k → C → K) : Fin n → Fin k → K :=
  fun r i => ∑ c, (x r c - centers i c) ^ 2

/-- `np.argmin(distances, axis=1)`: the first of the nearest centers. -/
def assign_labels (hk : 0 < k) (distances : Fin n → Fin k → K) : Fin n → Fin k :=
  fun r => (List.argmin (distances r) (List.finRange k)).getD ⟨0, hk⟩

/-- `_update_centers`: the mean of each cluster, and zeros for an empty one. -/
def update_centers (x : Fin n → C → K) (labels : Fin n → Fin k) : Fin k → C → K :=
  fun i c =>
    let mask := Finset.univ.filter fun r => labels r = i
    if 0 < mask.card then (∑ r ∈ mask, x r c) / mask.card else 0

/-- `np.sum((new_centers - centers) ** 2)`. -/
def center_shift (new_centers centers : Fin k → C → K) : K :=
  ∑ i, ∑ c, (new_centers i c - centers i c) ^ 2

/-- `silhouette`. `min` of an empty list raises an error. -/
def silhouette (total_distances : Fin n → Fin k → K) (labels : Fin n → Fin k) : Except Err K := do
  let scores ← (List.finRange n).mapM fun r =>
    let cluster_idx := labels r
    let a := total_distances r cluster_idx
    let other_clusters := (List.finRange k).filter fun c => decide (c ≠ cluster_idx)
    match (other_clusters.map (total_distances r)).min? with
    | none => .error .ValueError
    | some b => .ok ((b - a) / max a b)
  return scores.sum / n

end Arithmetic

inductive Key where
  | guest_distances
  | labels
  | center_shift
  | break_flag
  deriving DecidableEq, Repr

/-- The key of a message, with its iteration, which the channels do not see. -/
structure Label where
  key : Key
  iteration : ℕ
  deriving DecidableEq, Repr

inductive Message (K : Type) (n k : ℕ) where
  | distances (d : Fin n → Fin k → K)
  | labels (l : Fin n → Fin k)
  | shift (s : K)
  | flag (b : Bool)

instance (K : Type) (n k : ℕ) : Inhabited (Message K n k) := ⟨.flag false⟩

namespace Message

variable {K : Type} {n k : ℕ}

def distances? : Message K n k → Option (Fin n → Fin k → K)
  | distances d => some d
  | _ => none

def labels? : Message K n k → Option (Fin n → Fin k)
  | labels l => some l
  | _ => none

def shift? : Message K n k → Option K
  | shift s => some s
  | _ => none

def flag? : Message K n k → Option Bool
  | flag b => some b
  | _ => none

end Message

/-- `self.model.centers`, `self.labels` after each iteration so far, and `self.silhouette_score`,
once it is set. -/
structure HostState (C K : Type) (n k : ℕ) where
  centers : Fin k → C → K
  labels : List (Fin n → Fin k)
  silhouette_score : Option K

/-- `self.model.centers`, and the labels of each iteration so far. -/
structure GuestState (C K : Type) (n k : ℕ) where
  centers : Fin k → C → K
  labels : List (Fin n → Fin k)

namespace Setup

variable {K : Type} [Field K] [LinearOrder K] (S : Setup K)

/-- The columns of a party. -/
abbrev Columns (i : Party S.N) := { c : Fin S.columns // S.owner c = i }

/-- The data of a party. -/
def data (i : Party S.N) : Fin S.rows → S.Columns i → K := fun r c => S.x r c.1

abbrev Net (α : Type) := Prog (Party S.N × Label) (Message K S.rows S.n_clusters) Err α

abbrev Host := HostState (S.Columns none) K S.rows S.n_clusters

abbrev Guest (j : Fin S.N) := GuestState (S.Columns (some j)) K S.rows S.n_clusters

/-- `Plaintext_Host.train`, from an iteration on. -/
def hostTrain : ℕ → ℕ → S.Host → S.Net S.Host
  | 0, _, s => .ret s
  | fuel + 1, n, s =>
      let x := S.data none
      recv_all Message.distances? .ValueError ⟨.guest_distances, n⟩ fun guest_distances =>
      let total_distances := guest_distances.foldl (fun total d r i => total r i + d r i)
        (compute_distances x s.centers)
      let labels := assign_labels S.n_clusters_pos total_distances
      send_all ⟨.labels, n⟩ (.labels labels) <|
      let new_centers := update_centers x labels
      recv_all Message.shift? .ValueError ⟨.center_shift, n⟩ fun guest_shift =>
      let total_shift := center_shift new_centers s.centers + guest_shift.sum
      if total_shift < S.tol then
        send_all ⟨.break_flag, n⟩ (.flag true) <|
        .ret { s with labels := s.labels ++ [labels] }
      else
        send_all ⟨.break_flag, n⟩ (.flag false) <|
        match silhouette total_distances labels with
        | .error e => .raise e
        | .ok score =>
            hostTrain fuel (n + 1) {
              centers := new_centers
              labels := s.labels ++ [labels]
              silhouette_score := some score }

/-- `Plaintext_Guest.train`, from an iteration on. -/
def guestTrain (j : Fin S.N) : ℕ → ℕ → S.Guest j → S.Net (S.Guest j)
  | 0, _, s => .ret s
  | fuel + 1, n, s =>
      let x := S.data (some j)
      sendHost ⟨.guest_distances, n⟩ (.distances (compute_distances x s.centers)) <|
      recvHost Message.labels? .ValueError ⟨.labels, n⟩ fun labels =>
      let new_centers := update_centers x labels
      sendHost ⟨.center_shift, n⟩ (.shift (center_shift new_centers s.centers)) <|
      let s := { centers := new_centers, labels := s.labels ++ [labels] }
      recvHost Message.flag? .ValueError ⟨.break_flag, n⟩ fun break_flag =>
      if break_flag then .ret s else guestTrain j fuel (n + 1) s

/-- A party's columns of the centers. -/
def part (centers : Fin S.n_clusters → Fin S.columns → K) (i : Party S.N) :
    Fin S.n_clusters → S.Columns i → K :=
  fun m c => centers m c.1

def hostRun : S.Net S.Host :=
  S.hostTrain S.max_iter 0
    { centers := S.part S.centers none, labels := [], silhouette_score := none }

def guestRun (j : Fin S.N) : S.Net (S.Guest j) :=
  S.guestTrain j S.max_iter 0 { centers := S.part S.centers (some j), labels := [] }

/-! ## Central k-means -/

/-- The labels of the rows for some centers. -/
def labelsOf (centers : Fin S.n_clusters → Fin S.columns → K) : Fin S.rows → Fin S.n_clusters :=
  assign_labels S.n_clusters_pos (compute_distances S.x centers)

/-- The centers after an iteration. -/
def recomputed (centers : Fin S.n_clusters → Fin S.columns → K) :
    Fin S.n_clusters → Fin S.columns → K :=
  update_centers S.x (S.labelsOf centers)

/-- The shift of an iteration is small. -/
def settles (centers : Fin S.n_clusters → Fin S.columns → K) : Prop :=
  center_shift (S.recomputed centers) centers < S.tol

instance (centers : Fin S.n_clusters → Fin S.columns → K) : Decidable (S.settles centers) :=
  inferInstanceAs (Decidable (_ < _))

/-- Assign to the nearest, recompute the means, stop on a small shift: the labels of each
iteration and the last centers. -/
def central : ℕ → (Fin S.n_clusters → Fin S.columns → K) →
    List (Fin S.rows → Fin S.n_clusters) × (Fin S.n_clusters → Fin S.columns → K)
  | 0, centers => ([], centers)
  | fuel + 1, centers =>
      if S.settles centers then ([S.labelsOf centers], S.recomputed centers)
      else
        let later := central fuel (S.recomputed centers)
        (S.labelsOf centers :: later.1, later.2)

/-- In any order of the steps the parties come to the labels of the central iterations and, joined,
to its centers. -/
def AgreesWithCentral : Prop :=
  ∃ (host : S.Host) (guest : (j : Fin S.N) → S.Guest j),
    RunsTogether Label.key (together S.hostRun S.guestRun) (both host guest) ∧
      (host.labels = (S.central S.max_iter S.centers).1 ∧
        ∀ j, (guest j).labels = (S.central S.max_iter S.centers).1) ∧
      host.centers = S.part (S.central S.max_iter S.centers).2 none ∧
        ∀ j, (guest j).centers = S.part (S.central S.max_iter S.centers).2 (some j)

/-- An iteration with a small shift leaves the centers of the host as they are, and any other one
is of several clusters (or has no row). -/
def ExitsWell : ℕ → (Fin S.n_clusters → Fin S.columns → K) → Prop
  | 0, _ => True
  | fuel + 1, centers =>
      if S.settles centers then S.part (S.recomputed centers) none = S.part centers none
      else (1 < S.n_clusters ∨ S.rows = 0) ∧ ExitsWell fuel (S.recomputed centers)

/-! ## The parts add up -/

omit [LinearOrder K] in
theorem total_distances (centers : Fin S.n_clusters → Fin S.columns → K) :
    ((List.finRange S.N).map fun j =>
        compute_distances (S.data (some j)) (S.part centers (some j))).foldl
      (fun total d r i => total r i + d r i)
      (compute_distances (S.data none) (S.part centers none)) =
        compute_distances S.x centers := by
  have hfold : ∀ (l : List (Fin S.rows → Fin S.n_clusters → K))
      (d : Fin S.rows → Fin S.n_clusters → K) r i,
      l.foldl (fun total d r i => total r i + d r i) d r i =
        d r i + (l.map fun d => d r i).sum := by
    intro l
    induction l with
    | nil => simp
    | cons d' l ih =>
        intro d r i
        simp [ih, add_assoc]
  funext r i
  rw [hfold, compute_distances, compute_distances, sum_owner S.owner, List.map_map]
  rfl

omit [LinearOrder K] in
theorem total_shift (new centers : Fin S.n_clusters → Fin S.columns → K) :
    center_shift (S.part new none) (S.part centers none) +
      ((List.finRange S.N).map fun j =>
        center_shift (S.part new (some j)) (S.part centers (some j))).sum =
          center_shift new centers := by
  have hcolumns : ∀ {C : Type} [Fintype C] (a b : Fin S.n_clusters → C → K),
      center_shift a b = ∑ c, ∑ i, (a i c - b i c) ^ 2 := fun a b => Finset.sum_comm
  simp only [hcolumns]
  rw [sum_owner S.owner fun c => ∑ i, (new i c - centers i c) ^ 2]
  rfl

/-- The labels are those of nearest centers. -/
theorem labelsOf_le (centers : Fin S.n_clusters → Fin S.columns → K) (r : Fin S.rows)
    (i : Fin S.n_clusters) :
    compute_distances S.x centers r (S.labelsOf centers r) ≤
      compute_distances S.x centers r i := by
  cases hmin : List.argmin (compute_distances S.x centers r) (List.finRange S.n_clusters) with
  | none =>
      have hnil := List.argmin_eq_none.mp hmin
      exact absurd (List.mem_finRange i) (by simp [hnil])
  | some m =>
      have hle := List.le_of_mem_argmin (List.mem_finRange i) hmin
      simpa [labelsOf, assign_labels, hmin] using hle

end Setup

/-! ## The silhouette -/

section Silhouette

variable {K : Type} [Field K] [LinearOrder K] {n k : ℕ} (total_distances : Fin n → Fin k → K)
  (labels : Fin n → Fin k)

theorem silhouette_ok (h : 1 < k ∨ n = 0) :
    ∃ score, silhouette total_distances labels = .ok score := by
  suffices hscores : ∃ scores, (List.finRange n).mapM (fun r =>
      match (((List.finRange k).filter fun c => decide (c ≠ labels r)).map
        (total_distances r)).min? with
      | none => Except.error Err.ValueError
      | some b => .ok ((b - total_distances r (labels r)) /
          max (total_distances r (labels r)) b)) = .ok scores by
    obtain ⟨scores, hscores⟩ := hscores
    exact ⟨_, Fallible.bind_eq_ok.mpr ⟨scores, hscores, rfl⟩⟩
  refine Fallible.mapM_succeeds fun r _ => ?_
  have hn : n ≠ 0 := fun hn => absurd r.2 (by omega)
  -- there is another cluster than that of the row
  have hk : Nontrivial (Fin k) := Fin.nontrivial_iff_two_le.mpr (h.resolve_right hn)
  obtain ⟨c, hc⟩ := exists_ne (labels r)
  cases hmin : (((List.finRange k).filter fun c => decide (c ≠ labels r)).map
      (total_distances r)).min? with
  | none =>
      rw [List.min?_eq_none_iff, List.map_eq_nil_iff, List.filter_eq_nil_iff] at hmin
      exact absurd (decide_eq_true hc) (hmin c (List.mem_finRange c))
  | some b => exact ⟨_, rfl⟩

theorem silhouette_error (h : ¬ (1 < k ∨ n = 0)) :
    silhouette total_distances labels = .error .ValueError := by
  obtain ⟨m, rfl⟩ : ∃ m, n = m + 1 := ⟨n - 1, by omega⟩
  have hnone : (((List.finRange k).filter fun c => decide (c ≠ labels 0)).map
      (total_distances 0)).min? = none := by
    rw [List.min?_eq_none_iff, List.map_eq_nil_iff, List.filter_eq_nil_iff]
    intro c _
    have hc : c = labels 0 := Fin.ext (by omega)
    simp [hc]
  rw [silhouette, List.finRange_succ, Fallible.mapM_cons_of_error (e := Err.ValueError)]
  · rfl
  · simp only [hnone]

end Silhouette

namespace Setup

variable {K : Type} [Field K] [LinearOrder K] {S : Setup K} {fuel n : ℕ}
  {centers : Fin S.n_clusters → Fin S.columns → K}
  {L : List (Fin S.rows → Fin S.n_clusters)} {score : Option K}

/-! ## An iteration -/

/-- An iteration up to the flag. -/
theorem exchanges_iteration
    {T : (i : Party S.N) → Prog (Party S.N × Label) (Message K S.rows S.n_clusters) Err
      (Result S.Host S.Guest i)}
    (hrest : Exchanges (together
      (if S.settles centers then
        send_all ⟨.break_flag, n⟩ (.flag true) <|
        .ret { centers := S.part centers none
               labels := L ++ [S.labelsOf centers]
               silhouette_score := score }
      else
        send_all ⟨.break_flag, n⟩ (.flag false) <|
        match silhouette (compute_distances S.x centers) (S.labelsOf centers) with
        | .error e => .raise e
        | .ok score =>
            S.hostTrain fuel (n + 1) {
              centers := S.part (S.recomputed centers) none
              labels := L ++ [S.labelsOf centers]
              silhouette_score := some score })
      fun j => recvHost Message.flag? .ValueError ⟨.break_flag, n⟩ fun break_flag =>
        let s : S.Guest j :=
          { centers := S.part (S.recomputed centers) (some j), labels := L ++ [S.labelsOf centers] }
        if break_flag then .ret s else S.guestTrain j fuel (n + 1) s) T) :
    Exchanges (together
      (S.hostTrain (fuel + 1) n
        { centers := S.part centers none, labels := L, silhouette_score := score })
      fun j => S.guestTrain j (fuel + 1) n { centers := S.part centers (some j), labels := L })
        T := by
  refine guests_to_host (fun _ => rfl) ?_
  simp only [S.total_distances]
  refine host_to_guests (fun _ => rfl) (guests_to_host (fun _ => rfl) ?_)
  simp only [settles, labelsOf, recomputed, ← S.total_shift (update_centers S.x (assign_labels
    S.n_clusters_pos (compute_distances S.x centers))) centers] at hrest
  exact hrest

/-- The exit for a small shift: the host keeps its centers. -/
theorem plays_break (hs : S.settles centers) :
    Plays (together
      (S.hostTrain (fuel + 1) n
        { centers := S.part centers none, labels := L, silhouette_score := score })
      fun j => S.guestTrain j (fuel + 1) n { centers := S.part centers (some j), labels := L })
      (both
        { centers := S.part centers none
          labels := L ++ [S.labelsOf centers]
          silhouette_score := score }
        fun j =>
          { centers := S.part (S.recomputed centers) (some j)
            labels := L ++ [S.labelsOf centers] }) := by
  refine exchanges_iteration ?_
  rw [if_pos hs]
  exact host_to_guests (fun _ => rfl) (plays_ret _ _)

/-- An iteration after which all go on. -/
theorem exchanges_continue (hs : ¬ S.settles centers) (hk : 1 < S.n_clusters ∨ S.rows = 0) :
    ∃ score', Exchanges (together
      (S.hostTrain (fuel + 1) n
        { centers := S.part centers none, labels := L, silhouette_score := score })
      fun j => S.guestTrain j (fuel + 1) n { centers := S.part centers (some j), labels := L })
      (together
        (S.hostTrain fuel (n + 1)
          { centers := S.part (S.recomputed centers) none
            labels := L ++ [S.labelsOf centers]
            silhouette_score := some score' })
        fun j => S.guestTrain j fuel (n + 1)
          { centers := S.part (S.recomputed centers) (some j)
            labels := L ++ [S.labelsOf centers] }) := by
  obtain ⟨score', hscore⟩ :=
    silhouette_ok (compute_distances S.x centers) (S.labelsOf centers) hk
  refine ⟨score', exchanges_iteration ?_⟩
  rw [if_neg hs, hscore]
  exact host_to_guests (fun _ => rfl) (.refl _)

/-- An iteration after which the host has raised an error. -/
theorem exchanges_raise (hs : ¬ S.settles centers) (hk : ¬ (1 < S.n_clusters ∨ S.rows = 0)) :
    Exchanges (together
      (S.hostTrain (fuel + 1) n
        { centers := S.part centers none, labels := L, silhouette_score := score })
      fun j => S.guestTrain j (fuel + 1) n { centers := S.part centers (some j), labels := L })
      (together (.raise .ValueError) fun j => S.guestTrain j fuel (n + 1)
        { centers := S.part (S.recomputed centers) (some j)
          labels := L ++ [S.labelsOf centers] }) := by
  refine exchanges_iteration ?_
  rw [if_neg hs, silhouette_error _ _ hk]
  exact host_to_guests (fun _ => rfl) (.refl _)

/-! ## All iterations -/

theorem central_of_settles (hs : S.settles centers) :
    S.central (fuel + 1) centers = ([S.labelsOf centers], S.recomputed centers) := if_pos hs

theorem central_of_not_settles (hs : ¬ S.settles centers) :
    S.central (fuel + 1) centers =
      (S.labelsOf centers :: (S.central fuel (S.recomputed centers)).1,
        (S.central fuel (S.recomputed centers)).2) := if_neg hs

theorem exitsWell_of_settles (hs : S.settles centers) :
    S.ExitsWell (fuel + 1) centers ↔ S.part (S.recomputed centers) none = S.part centers none := by
  rw [ExitsWell, if_pos hs]

theorem exitsWell_of_not_settles (hs : ¬ S.settles centers) :
    S.ExitsWell (fuel + 1) centers ↔
      (1 < S.n_clusters ∨ S.rows = 0) ∧ S.ExitsWell fuel (S.recomputed centers) := by
  rw [ExitsWell, if_neg hs]

/-- **With good exits the parties come to the centers of the central iterations.** -/
theorem plays_train (score : Option K) (h : S.ExitsWell fuel centers) :
    ∃ score', Plays (together
      (S.hostTrain fuel n
        { centers := S.part centers none, labels := L, silhouette_score := score })
      fun j => S.guestTrain j fuel n { centers := S.part centers (some j), labels := L })
      (both
        { centers := S.part (S.central fuel centers).2 none
          labels := L ++ (S.central fuel centers).1
          silhouette_score := score' }
        fun j =>
          { centers := S.part (S.central fuel centers).2 (some j)
            labels := L ++ (S.central fuel centers).1 }) := by
  induction fuel generalizing n centers L score with
  | zero =>
      refine ⟨score, ?_⟩
      simp only [central, List.append_nil]
      exact plays_ret _ _
  | succ fuel ih =>
      by_cases hs : S.settles centers
      · have hcenters := (exitsWell_of_settles hs).mp h
        refine ⟨score, ?_⟩
        rw [central_of_settles hs, hcenters]
        exact plays_break hs
      · obtain ⟨hk, hlater⟩ := (exitsWell_of_not_settles hs).mp h
        obtain ⟨score₁, hfirst⟩ := exchanges_continue hs hk
        obtain ⟨score', hrest⟩ := ih (n := n + 1) (L := L ++ [S.labelsOf centers])
          (some score₁) hlater
        refine ⟨score', ?_⟩
        rw [central_of_not_settles hs]
        simp only [List.append_assoc, List.singleton_append] at hrest
        exact hfirst.trans hrest

/-- **With a bad exit** the host raises an error, or it returns other centers. -/
theorem exchanges_of_not_exitsWell (score : Option K) (h : ¬ S.ExitsWell fuel centers) :
    ∃ T, Exchanges (together
      (S.hostTrain fuel n
        { centers := S.part centers none, labels := L, silhouette_score := score })
      fun j => S.guestTrain j fuel n { centers := S.part centers (some j), labels := L }) T ∧
      ((∃ e, T none = .raise e) ∨
        ∃ (host : S.Host) (guest : (j : Fin S.N) → S.Guest j),
          T = (fun i => .ret (both host guest i)) ∧
            host.centers ≠ S.part (S.central fuel centers).2 none) := by
  induction fuel generalizing n centers L score with
  | zero => exact absurd trivial h
  | succ fuel ih =>
      by_cases hs : S.settles centers
      · rw [exitsWell_of_settles hs] at h
        refine ⟨_, plays_break hs, Or.inr ⟨_, _, rfl, ?_⟩⟩
        rw [central_of_settles hs]
        exact Ne.symm h
      · by_cases hk : 1 < S.n_clusters ∨ S.rows = 0
        · have hlater : ¬ S.ExitsWell fuel (S.recomputed centers) :=
            fun hlater => h ((exitsWell_of_not_settles hs).mpr ⟨hk, hlater⟩)
          obtain ⟨score₁, hfirst⟩ := exchanges_continue hs hk
          obtain ⟨T, hT, hend⟩ := ih (some score₁) hlater
          refine ⟨T, hfirst.trans hT, ?_⟩
          rwa [central_of_not_settles hs]
        · exact ⟨_, exchanges_raise hs hk, Or.inl ⟨_, rfl⟩⟩

theorem AgreesWithCentral.exitsWell (h : S.AgreesWithCentral) :
    S.ExitsWell S.max_iter S.centers := by
  obtain ⟨host, guest, hruns, _, hhost, _⟩ := h
  by_contra hbad
  obtain ⟨T, hT, hend⟩ := exchanges_of_not_exitsWell (n := 0) (L := []) none hbad
  rcases hend with ⟨e, he⟩ | ⟨host', guest', rfl, hcenters⟩
  · exact hruns.ne_raise hT none e he
  · have hboth : host = host' := congrFun (hruns.eq_of_plays hT) none
    exact hcenters (hboth ▸ hhost)

/-- **The run agrees with the central one exactly when it exits well.** -/
theorem agreesWithCentral_iff : S.AgreesWithCentral ↔ S.ExitsWell S.max_iter S.centers := by
  refine ⟨AgreesWithCentral.exitsWell, fun h => ?_⟩
  obtain ⟨score, hplays⟩ := plays_train (n := 0) (L := []) none h
  exact ⟨_, _, hplays.runsTogether, ⟨rfl, fun _ => rfl⟩, rfl, fun _ => rfl⟩

/-- The host and a guest with a column each, both with the rows 0, 2 and 10. The first iteration
brings the first center from 0 to 1, which is below the tolerance. -/
def threeRows : Setup ℚ where
  N := 1
  columns := 2
  owner := fun c => if c = 0 then none else some 0
  rows := 3
  x := fun r _ => ![0, 2, 10] r
  n_clusters := 2
  centers := fun m _ => ![0, 10] m
  max_iter := 1
  tol := 3
  n_clusters_pos := Nat.two_pos

theorem threeRows_not_agreesWithCentral : ¬ threeRows.AgreesWithCentral := by
  intro h
  have hexits := h.exitsWell
  have hsettles : threeRows.settles threeRows.centers := by decide +kernel
  have hstays := (exitsWell_of_settles hsettles).mp hexits
  have hmoved : threeRows.recomputed threeRows.centers (0 : Fin 2) (0 : Fin 2) ≠
      threeRows.centers (0 : Fin 2) (0 : Fin 2) := by
    decide +kernel
  exact hmoved (congrFun (congrFun hstays (0 : Fin 2)) ⟨(0 : Fin 2), rfl⟩)

end Setup

end Fediux.Vfl.Kmeans
