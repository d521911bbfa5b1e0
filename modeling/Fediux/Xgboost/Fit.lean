import Fediux.Xgboost.TreeRuns

set_option autoImplicit false

/-! # A training and the prediction behind it

The records are counted through all trees, and the lookup tables grow with them: after the last
tree the tables have the records of every tree (`lockstep_fit`), so that host and guest stay
together through `fit` and through the prediction that follows it (`fit_runsTogether`).
-/

namespace Fediux.Xgboost

open Session Session.Prog

variable {Id V F G E S D : Type} [DecidableEq Id] [LinearOrder F] [Zero F]

/-- The rows of a round are rows of the data, with a code for each, and its tree is computed
without an error. -/
structure RoundComputes (P : TreeParams) (K : Kernels Id V F G E S D)
    (host_data guest_data : Table Id (V → F)) (round : Round Id G E) : Prop where
  sampled : ∀ i ∈ round.sample_gh.index, i ∈ host_data.index
  encoded : round.gh_en.index = round.sample_gh.index
  computes : Computes P K 0 (host_data.restrict round.sample_gh.index) round.sample_gh
    (guest_data.restrict round.sample_gh.index) round.gh_en

variable {P : TreeParams} {K : Kernels Id V F G E S D} {host_data guest_data : Table Id (V → F)}

/-- **The trees of a training**: each is grown together, and at the end all are recorded. -/
theorem lockstep_fit (hindex : guest_data.index = host_data.index)
    (rounds : List (Round Id G E))
    (hrounds : ∀ round ∈ rounds, RoundComputes P K host_data guest_data round)
    (sh sg : Records V F) (hcount : ∀ role, sh.count role = sg.count role) :
    ∃ es trees sh' sg', Lockstep es (host_fit P K host_data rounds sh)
      (guest_fit P K guest_data rounds.length sg) (trees, sh') (trees, sg') ∧
      sh.Grew .host sh' ∧ sg.Grew .guest sg' ∧ ∀ tree ∈ trees, Recorded sh' sg' tree := by
  induction rounds generalizing sh sg with
  | nil =>
      exact ⟨_, _, _, _, .ret _ _, .refl sh, .refl sg, fun tree h => absurd h List.not_mem_nil⟩
  | cons round rounds ih =>
      have hround := hrounds round (List.mem_cons_self ..)
      have halign : Aligned (host_data.restrict round.sample_gh.index) round.sample_gh
          (guest_data.restrict round.sample_gh.index) round.gh_en :=
        ⟨rfl, rfl, hround.encoded⟩
      obtain ⟨es, tree, sh₁, sg₁, f_t, hes, h₁, _⟩ := lockstep_tree_construct hround.computes halign
        sh sg (fun _ => 0) hcount
      obtain ⟨es', trees, sh₂, sg₂, hes', hsh, hsg, hrec⟩ := ih
        (fun r hr => hrounds r (List.mem_cons_of_mem _ hr)) sh₁ sg₁ h₁.count
      refine ⟨(.left, .sample_ids, .sample_ids (some round.sample_gh.index)) ::
        (.left, .gh_en, .gh_en round.gh_en) :: (es ++ (es' ++ [])), tree :: trees, sh₂, sg₂, ?_,
        h₁.host.trans hsh, h₁.guest.trans hsg, ?_⟩
      · rw [host_fit, List.length_cons, guest_fit]
        apply Lockstep.left
        simp only [sampled, Table.loc_eq_some hround.sampled,
          Table.loc_eq_some (hindex ▸ hround.sampled), ofOption_some, ret_bind]
        apply Lockstep.left
        exact hes.bind (hes'.bind (.ret _ _))
      · intro t ht
        rcases List.mem_cons.mp ht with rfl | ht
        · exact h₁.recorded.mono hsh hsg
        · exact hrec t ht

theorem lockstep_predict {sh sg : Records V F} {X_host X_guest : Table Id (V → F)}
    (hindex : X_guest.index = X_host.index) (trees : List (Tree F))
    (h : ∀ tree ∈ trees, Recorded sh sg tree) :
    ∃ es ys, Lockstep es (host_predict (E := E) (S := S) sh.lookup_table X_host trees)
      (guest_predict sg.lookup_table X_guest trees) ys () := by
  induction trees with
  | nil => exact ⟨_, _, .ret _ _⟩
  | cons tree trees ih =>
      obtain ⟨es, y_t, hes, _⟩ := lockstep_get_tree (E := E) (S := S)
        (h tree (List.mem_cons_self ..)) X_host X_guest hindex fun _ => 0
      obtain ⟨es', ys, hes'⟩ := ih fun t ht => h t (List.mem_cons_of_mem _ ht)
      refine ⟨es ++ (es' ++ []), y_t :: ys, ?_⟩
      rw [host_predict, guest_predict, ← bind_ret (guest_predict sg.lookup_table X_guest trees)]
      exact hes.bind (hes'.bind (.ret _ _))

/-- **A whole training and the prediction behind it stay together.** -/
theorem fit_runsTogether (hindex : guest_data.index = host_data.index)
    (rounds : List (Round Id G E))
    (hrounds : ∀ round ∈ rounds, RoundComputes P K host_data guest_data round)
    (sh sg : Records V F) (hcount : ∀ role, sh.count role = sg.count role)
    {X_host X_guest : Table Id (V → F)} (htest : X_guest.index = X_host.index) :
    RunsTogether
      ((host_fit P K host_data rounds sh).bind fun (trees, s) =>
        host_predict s.lookup_table X_host trees)
      ((guest_fit P K guest_data rounds.length sg).bind fun (trees, s) =>
        guest_predict s.lookup_table X_guest trees)
      fun _ _ => True := by
  obtain ⟨es, trees, sh', sg', hes, _, _, hrec⟩ :=
    lockstep_fit hindex rounds hrounds sh sg hcount
  obtain ⟨es', ys, hes'⟩ := lockstep_predict (E := E) (S := S) htest trees hrec
  exact (hes.bind hes').runsTogether trivial

end Fediux.Xgboost
