import Fediux.Xgboost.Fit

set_option autoImplicit false

/-! # The scores of a training

`my_fit` adds the weights that a tree has assigned to the scores `y_hat` of the rows, and works
out the gradients of the next tree from them. Behind the last tree `predict_raw` walks down all
trees again. Both score a row by the weight of its leaf in each tree (`scored`): the training
because the host has assigned the weights of the leaves (`lockstep_my_fit_trees`), the prediction
because the records of all trees are still in the lookup tables (`lockstep_predict_raw`).
-/

namespace Fediux.Xgboost

open Session Session.Prog

/-! ## The code -/

/-- `reset_index(drop='True')`. -/
def Table.reset_index {R : Type} (t : Table ℕ R) : Table ℕ R where
  index := List.range t.index.length
  row i := t.row (t.index.getD i i)

/-- A table with the default index. -/
def Table.ofRows {R : Type} (n : ℕ) (row : ℕ → R) : Table ℕ R where
  index := List.range n
  row := row

/-- What `my_fit` works out beside the trees, in the round `t`; `none` is an error. -/
structure Boosting (F G E : Type) where
  estimators : ℕ
  base_score : F
  learning_rate : F
  /-- `_grad` and `_hess` of the scores. -/
  gh : (ℕ → F) → Option (ℕ → G)
  /-- `sample_ids`, and the gradients with the amplified ones. -/
  sample : ℕ → Table ℕ G → Option (Option (List ℕ) × Table ℕ G)
  /-- The codes of the rows. -/
  gh_en : ℕ → Table ℕ G → Option (ℕ → E)
  log_loss : (ℕ → F) → Option F

variable {V F G E S D : Type}

/-- The records before the first tree. -/
def Records.empty : Records V F where
  host_record := 0
  guest_record := 0
  lookup_table _ := none

section Code

variable [LinearOrder F] [Semiring F]
variable (P : TreeParams) (K : Kernels ℕ V F G E S D) (M : Boosting F G E)

/-- `y_hat + learning_rate * f_t`, in the rows of the sample. -/
def Boosting.add (sample_ids : Option (List ℕ)) (y_hat f_t : ℕ → F) : ℕ → F :=
  match sample_ids with
  | none => fun i => y_hat i + M.learning_rate * f_t i
  | some sample_ids => fun i =>
      if i ∈ sample_ids then y_hat i + M.learning_rate * f_t i else y_hat i

/-- The loop of `my_fit`. -/
def my_fit_round (X_host : Table ℕ (V → F)) (t : ℕ) (s : Records V F) (y_hat : ℕ → F) :
    Prog Key (Msg ℕ V F E S) PyError (Tree F × Records V F × (ℕ → F)) :=
  (ofOption .keyError (M.gh y_hat)).bind fun gh =>
  (ofOption .numeric (M.sample t (.ofRows X_host.index.length gh))).bind fun (sample_ids, gh) =>
    send .sample_ids (.sample_ids sample_ids) <|
      (ofOption .keyError (sampled X_host sample_ids)).bind fun current_x =>
      (ofOption .keyError (sampled gh sample_ids)).bind fun current_ghs =>
      (ofOption .numeric (M.gh_en t current_ghs)).bind fun codes =>
        send .gh_en (.gh_en { index := current_ghs.index, row := codes }) <|
          (host_tree_construct P K s (fun _ => 0) current_x 0 current_ghs).bind
            fun (tree, s, current_f_t) =>
              (ofOption .numeric (M.log_loss (M.add sample_ids y_hat current_f_t))).bind fun _ =>
                ret (tree, s, M.add sample_ids y_hat current_f_t)

def my_fit_trees (X_host : Table ℕ (V → F)) : List ℕ → Records V F → (ℕ → F) →
    Prog Key (Msg ℕ V F E S) PyError (List (Tree F) × Records V F × (ℕ → F))
  | [], s, y_hat => ret ([], s, y_hat)
  | t :: ts, s, y_hat =>
      (my_fit_round P K M X_host t s y_hat).bind fun (tree, s, y_hat) =>
        (my_fit_trees X_host ts s y_hat).bind fun (trees, s, y_hat) =>
          ret (tree :: trees, s, y_hat)

/-- The loop of `predict_raw`, from the scores `Y` on. -/
def predict_raw_trees (lookup : ℕ → Option (V × F)) (X : Table ℕ (V → F)) :
    List (Tree F) → (ℕ → F) → Prog Key (Msg ℕ V F E S) PyError (ℕ → F)
  | [], Y => ret Y
  | tree :: trees, Y =>
      (host_get_tree_node_weight lookup tree X fun _ => 0).bind fun y_t =>
        predict_raw_trees lookup X trees fun i => Y i + M.learning_rate * y_t i

def predict_raw (X : Table ℕ (V → F)) (lookup : ℕ → Option (V × F)) (trees : List (Tree F)) :
    Prog Key (Msg ℕ V F E S) PyError (ℕ → F) :=
  predict_raw_trees M lookup X.reset_index trees fun _ => M.base_score

/-- What a party has of the training: its trees and its lookup table. -/
structure Model (V F : Type) where
  tree_structure : List (Tree F)
  lookup_table : ℕ → Option (V × F)

/-- The host at the end: its model, the scores of the training, and those of the prediction. -/
structure Scores (V F : Type) extends Model V F where
  y_hat : ℕ → F
  Y : ℕ → F

/-- The trees of `my_fit`. -/
def my_fit_training (X_host : Table ℕ (V → F)) :
    Prog Key (Msg ℕ V F E S) PyError (List (Tree F) × Records V F × (ℕ → F)) :=
  my_fit_trees P K M X_host (List.range M.estimators) .empty fun _ => M.base_score

def my_fit (X_host : Table ℕ (V → F)) : Prog Key (Msg ℕ V F E S) PyError (Scores V F) :=
  (my_fit_training P K M X_host).bind fun (trees, s, y_hat) =>
    (predict_raw M X_host s.lookup_table trees).bind fun Y =>
      ret { tree_structure := trees, lookup_table := s.lookup_table, y_hat := y_hat, Y := Y }

/-- `fit` of the guest, with its prediction. -/
def guest_my_fit (data : Table ℕ (V → F)) (estimators : ℕ) :
    Prog Key (Msg ℕ V F E S) PyError (Model V F) :=
  (guest_fit P K data estimators .empty).bind fun (trees, s) =>
    (guest_predict s.lookup_table data trees).bind fun _ =>
      ret { tree_structure := trees, lookup_table := s.lookup_table }

/-- A round of the guest. -/
def guest_round (data : Table ℕ (V → F)) (s : Records V F) :
    Prog Key (Msg ℕ V F E S) PyError (Tree F × Records V F) :=
  recv .sample_ids fun
    | .sample_ids sample_ids =>
        (ofOption .keyError (sampled data sample_ids)).bind fun sample_guest =>
          recv .gh_en fun
            | .gh_en gh_en => guest_tree_construct P K s sample_guest gh_en 0
            | _ => raise .typeError
    | _ => raise .typeError

theorem guest_fit_succ (data : Table ℕ (V → F)) (estimators : ℕ) (s : Records V F) :
    guest_fit P K data (estimators + 1) s =
      (guest_round P K data s).bind fun (tree, s) =>
        (guest_fit P K data estimators s).bind fun (trees, s) => ret (tree :: trees, s) := by
  rw [guest_fit, guest_round, recv_bind]
  congr 1
  funext m
  cases m with
  | sample_ids sample_ids =>
      dsimp only
      rw [bind_assoc]
      congr 1
      funext sample_guest
      rw [recv_bind]
      congr 1
      funext m
      cases m <;> rfl
  | _ => rfl

end Code

/-! ## The score of a row -/

section Scored

variable [Semiring F] (M : Boosting F G E) {left : Role → ℕ → ℕ → Bool}

/-- The weights of the trees, added up in their order. -/
def scored (left : Role → ℕ → ℕ → Bool) (trees : List (Tree F)) (y : F) (i : ℕ) : F :=
  trees.foldl (fun y tree => y + M.learning_rate * tree.weight left 0 i) y

theorem scored_eq (trees : List (Tree F)) (y : F) (i : ℕ) :
    scored M left trees y i =
      y + M.learning_rate * (trees.map fun tree => tree.weight left 0 i).sum := by
  induction trees generalizing y with
  | nil => simp [scored]
  | cons tree trees ih =>
      calc scored M left (tree :: trees) y i
          = scored M left trees (y + M.learning_rate * tree.weight left 0 i) i := rfl
        _ = y + M.learning_rate * tree.weight left 0 i +
              M.learning_rate * (trees.map fun tree => tree.weight left 0 i).sum := ih _
        _ = y + M.learning_rate *
              ((tree :: trees).map fun tree => tree.weight left 0 i).sum := by
            rw [List.map_cons, List.sum_cons, mul_add, add_assoc]

end Scored

@[simp] theorem Table.reset_index_ofRows {R : Type} (n : ℕ) (row : ℕ → R) :
    (Table.ofRows n row).reset_index = .ofRows n row := by
  simp only [Table.reset_index, Table.ofRows, List.length_range, Table.mk.injEq, true_and]
  funext i
  congr 1
  rw [List.getD_eq_getElem?_getD]
  by_cases hi : i < n
  · rw [List.getElem?_range hi]
    rfl
  · rw [List.getElem?_eq_none (by rw [List.length_range]; omega)]
    rfl

/-! ## The training -/

section Training

variable [LinearOrder F] [Semiring F] {P : TreeParams} {K : Kernels ℕ V F G E S D}
variable {M : Boosting F G E} {X_host X_guest : Table ℕ (V → F)} {α β : Type}

/-- Without a sample a round without errors adds the weights of its tree to the scores. -/
theorem lockstep_my_fit_round (hsample : ∀ t gh, M.sample t gh = some (none, gh))
    (hrange : X_host.index = List.range X_host.index.length)
    (hindex : X_guest.index = X_host.index) {t : ℕ} {sh sg : Records V F} {y_hat : ℕ → F}
    (hcount : ∀ role, sh.count role = sg.count role)
    {f : Tree F × Records V F × (ℕ → F) → Prog Key (Msg ℕ V F E S) PyError α}
    {g : Tree F × Records V F → Prog Key (Msg ℕ V F E S) PyError β}
    (hs : Safe ((my_fit_round P K M X_host t sh y_hat).bind f)
      ((guest_round P K X_guest sg).bind g)) :
    ∃ es tree sh' sg' f_t, Lockstep es (my_fit_round P K M X_host t sh y_hat)
      (guest_round P K X_guest sg) (tree, sh', M.add none y_hat f_t) (tree, sg') ∧
      Grown sh sg sh' sg' tree ∧ Assigned X_host X_guest sh' sg' tree (fun _ => 0) f_t := by
  unfold my_fit_round guest_round at hs ⊢
  cases hgh : M.gh y_hat with
  | none =>
      rw [hgh] at hs
      exact absurd hs Safe.not_raise_left
  | some gh =>
      simp only [hgh, hsample, ofOption_some, ret_bind, sampled] at hs ⊢
      have hcode := hs.of_left
      cases hcodes : M.gh_en t (.ofRows X_host.index.length gh) with
      | none =>
          rw [hcodes] at hcode
          exact absurd hcode Safe.not_raise_left
      | some codes =>
          rw [hcodes] at hcode
          have htree := hcode.of_left
          dsimp only at htree
          rw [bind_assoc] at htree
          have halign : Aligned X_host (.ofRows X_host.index.length gh) X_guest
              { index := (Table.ofRows X_host.index.length gh).index, row := codes } :=
            ⟨hrange.symm, hindex, hrange.symm⟩
          have hcomputes := computes_of_safe le_rfl halign hcount htree
          obtain ⟨es, tree, sh', sg', f_t, hes, hgrown, hassigned⟩ :=
            lockstep_tree_construct hcomputes halign sh sg (fun _ => 0) hcount
          have hloss := hes.safe_rest htree
          cases hlog : M.log_loss (M.add none y_hat f_t) with
          | none =>
              simp only [hlog] at hloss
              exact absurd hloss Safe.not_raise_left
          | some loss =>
              refine ⟨(.left, .sample_ids, .sample_ids none) ::
                (.left, .gh_en, .gh_en { index := List.range X_host.index.length, row := codes }) ::
                  (es ++ []), tree, sh', sg', f_t, ?_, hgrown, hassigned⟩
              apply Lockstep.left
              apply Lockstep.left
              dsimp only
              rw [← bind_ret (guest_tree_construct P K sg X_guest _ 0)]
              apply hes.bind
              simp only [hlog, ofOption_some, ret_bind]
              exact .ret _ _

/-- **The rounds of a training without errors**: the trees are grown together, all of them are
recorded at the end, and every row has been scored by the weights of its leaves. -/
theorem lockstep_my_fit_trees (hsample : ∀ t gh, M.sample t gh = some (none, gh))
    (hrange : X_host.index = List.range X_host.index.length)
    (hindex : X_guest.index = X_host.index) (ts : List ℕ) {sh sg : Records V F} {y_hat : ℕ → F}
    (hcount : ∀ role, sh.count role = sg.count role)
    {f : List (Tree F) × Records V F × (ℕ → F) → Prog Key (Msg ℕ V F E S) PyError α}
    {g : List (Tree F) × Records V F → Prog Key (Msg ℕ V F E S) PyError β}
    (hs : Safe ((my_fit_trees P K M X_host ts sh y_hat).bind f)
      ((guest_fit P K X_guest ts.length sg).bind g)) :
    ∃ es trees sh' sg' y_hat', Lockstep es (my_fit_trees P K M X_host ts sh y_hat)
      (guest_fit P K X_guest ts.length sg) (trees, sh', y_hat') (trees, sg') ∧
      trees.length = ts.length ∧ (∀ tree ∈ trees, Recorded sh' sg' tree) ∧
      sh.Grew .host sh' ∧ sg.Grew .guest sg' ∧
      ∀ sh'' sg'', sh'.Grew .host sh'' → sg'.Grew .guest sg'' → ∀ i ∈ X_host.index,
        y_hat' i = scored M (routesLeft X_host X_guest sh''.lookup_table sg''.lookup_table) trees
          (y_hat i) i := by
  induction ts generalizing sh sg y_hat f g with
  | nil =>
      exact ⟨_, _, _, _, _, .ret _ _, rfl, fun _ h => absurd h List.not_mem_nil, .refl sh,
        .refl sg, fun _ _ _ _ _ _ => rfl⟩
  | cons t ts ih =>
      rw [List.length_cons, guest_fit_succ, my_fit_trees] at hs ⊢
      rw [bind_assoc, bind_assoc] at hs
      obtain ⟨es, tree, sh₁, sg₁, f_t, hes, h₁, hassigned⟩ :=
        lockstep_my_fit_round hsample hrange hindex hcount hs
      have hrest := hes.safe_rest hs
      dsimp only at hrest
      rw [bind_assoc, bind_assoc] at hrest
      obtain ⟨es', trees, sh₂, sg₂, y_hat', hes', hlength, hrec, hsh, hsg, hscored⟩ :=
        ih h₁.count hrest
      refine ⟨es ++ (es' ++ []), tree :: trees, sh₂, sg₂, y_hat',
        hes.bind (hes'.bind (.ret _ _)), congrArg (· + 1) hlength, ?_,
        h₁.host.trans hsh, h₁.guest.trans hsg, ?_⟩
      · intro tree' htree'
        rcases List.mem_cons.mp htree' with rfl | htree'
        · exact h₁.recorded.mono hsh hsg
        · exact hrec tree' htree'
      · intro sh'' sg'' hsh'' hsg'' i hi
        have hf_t := (hassigned sh'' sg'' (hsh.trans hsh'') (hsg.trans hsg'')).apply_const hi
        rw [hscored sh'' sg'' hsh'' hsg'' i hi]
        simp only [Boosting.add, hf_t]
        rfl

/-- **The trees of a prediction** score the rows in the same way. -/
theorem lockstep_predict_raw {sh sg : Records V F} (hindex : X_guest.index = X_host.index)
    (trees : List (Tree F)) (h : ∀ tree ∈ trees, Recorded sh sg tree) (Y : ℕ → F) :
    ∃ es Y', Lockstep es
      (predict_raw_trees (E := E) (S := S) M sh.lookup_table X_host trees Y)
      (guest_predict sg.lookup_table X_guest trees) Y' () ∧
      ∀ i ∈ X_host.index, Y' i =
        scored M (routesLeft X_host X_guest sh.lookup_table sg.lookup_table) trees (Y i) i := by
  induction trees generalizing Y with
  | nil => exact ⟨_, _, .ret _ _, fun _ _ => rfl⟩
  | cons tree trees ih =>
      obtain ⟨es, y_t, hes, hweighs⟩ := lockstep_get_tree (E := E) (S := S)
        (h tree (List.mem_cons_self ..)) X_host X_guest hindex fun _ => 0
      obtain ⟨es', Y', hes', hscored⟩ := ih (fun t ht => h t (List.mem_cons_of_mem _ ht))
        fun i => Y i + M.learning_rate * y_t i
      refine ⟨es ++ es', Y', hes.bind hes', ?_⟩
      intro i hi
      rw [hscored i hi, hweighs.apply_const hi]
      rfl

/-! ## The prediction behind the training -/

/-- Both parties have the same trees, one for each round, and the prediction gives every row the
score of the training: the base score and the weights of its leaves. -/
structure SameScores (M : Boosting F G E) (X_host X_guest : Table ℕ (V → F)) (a : Scores V F)
    (b : Model V F) : Prop where
  tree_structure : a.tree_structure = b.tree_structure
  estimators : a.tree_structure.length = M.estimators
  predicted : ∀ i ∈ X_host.index, a.Y i = a.y_hat i
  weights : ∀ i ∈ X_host.index, a.y_hat i = M.base_score + M.learning_rate *
    (a.tree_structure.map fun tree =>
      tree.weight (routesLeft X_host X_guest a.lookup_table b.lookup_table) 0 i).sum

/-- **The prediction gives the scores of the training**, whenever the training has come to its
end in some order of the steps. -/
theorem my_fit_sameScores (n : ℕ) (host_row guest_row : ℕ → V → F)
    (hsample : ∀ t gh, M.sample t gh = some (none, gh))
    (hends : Ends (my_fit_training P K M (.ofRows n host_row))
      (guest_fit P K (.ofRows n guest_row) M.estimators .empty)) :
    RunsTogether (my_fit P K M (.ofRows n host_row))
      (guest_my_fit P K (.ofRows n guest_row) M.estimators)
      (SameScores M (.ofRows n host_row) (.ofRows n guest_row)) := by
  have hrange : (Table.ofRows n host_row).index =
      List.range (Table.ofRows n host_row).index.length := by
    simp [Table.ofRows]
  have hindex : (Table.ofRows n guest_row).index = (Table.ofRows n host_row).index := rfl
  have hs : Safe ((my_fit_training P K M (.ofRows n host_row)).bind ret)
      ((guest_fit P K (.ofRows n guest_row) (List.range M.estimators).length .empty).bind ret) := by
    rw [List.length_range, bind_ret, bind_ret]
    exact hends.safe
  obtain ⟨es, trees, sh, sg, y_hat, hes, hlength, hrec, _, _, hscored⟩ :=
    lockstep_my_fit_trees hsample hrange hindex _ (fun role => by cases role <;> rfl) hs
  rw [List.length_range] at hes hlength
  obtain ⟨es', Y, hes', hY⟩ := lockstep_predict_raw (M := M) (E := E) (S := S) hindex trees hrec
    fun _ => M.base_score
  have hweights := hscored sh sg (.refl sh) (.refl sg)
  have hend : Lockstep (es ++ (es' ++ [])) (my_fit P K M (.ofRows n host_row))
      (guest_my_fit P K (.ofRows n guest_row) M.estimators)
      { tree_structure := trees, lookup_table := sh.lookup_table, y_hat := y_hat, Y := Y }
      { tree_structure := trees, lookup_table := sg.lookup_table } := by
    apply hes.bind
    simp only [predict_raw, Table.reset_index_ofRows]
    exact hes'.bind (.ret _ _)
  apply hend.runsTogether
  refine ⟨rfl, hlength, ?_, ?_⟩
  · intro i hi
    exact (hY i hi).trans (hweights i hi).symm
  · intro i hi
    exact (hweights i hi).trans (scored_eq M trees _ i)

end Training

/-! ## Two rows -/

/-- One tree for the two rows of `splitTable`. -/
def splitBoosting : Boosting ℤ ℤ ℤ where
  estimators := 1
  base_score := 5
  learning_rate := 2
  gh _ := some splitGh.row
  sample _ gh := some (none, gh)
  gh_en _ gh := some gh.row
  log_loss _ := some 0

/-- The host splits the two rows of the table. -/
theorem ends_splitBoosting :
    Ends (my_fit_training (splitParams true) splitKernels splitBoosting (.ofRows 2 splitTable.row))
      (guest_fit (splitParams true) splitKernels (.ofRows 2 splitTable.row)
        splitBoosting.estimators .empty) := by
  have hcomputes : Computes (splitParams true) splitKernels 0 (.ofRows 2 splitTable.row)
      (.ofRows 2 splitGh.row) (.ofRows 2 splitTable.row) (.ofRows 2 splitGh.row) := by
    refine .node rfl ⟨rfl, rfl, _, _, rfl, rfl, rfl⟩ ?_ ?_
    · intro w _
      exact .stop (by simp [stops, splitParams])
    · intro w _
      exact .stop (by simp [stops, splitParams])
  obtain ⟨es, tree, sh, sg, f_t, hes, _⟩ := lockstep_tree_construct hcomputes ⟨rfl, rfl, rfl⟩
    .empty .empty (fun _ => 0) fun role => by cases role <;> rfl
  have hround : Lockstep ((.left, .sample_ids, .sample_ids none) ::
      (.left, .gh_en, .gh_en (.ofRows 2 splitGh.row)) :: (es ++ []))
      (my_fit_round (splitParams true) splitKernels splitBoosting (.ofRows 2 splitTable.row) 0
        .empty fun _ => 5)
      (guest_round (splitParams true) splitKernels (.ofRows 2 splitTable.row) .empty)
      (tree, sh, splitBoosting.add none (fun _ => 5) f_t) (tree, sg) := by
    apply Lockstep.left
    apply Lockstep.left
    dsimp only
    rw [← bind_ret (guest_tree_construct _ _ _ _ _ 0)]
    exact hes.bind (.ret _ _)
  have hfit := hround.bind (f := fun a => ret ([a.1], a.2.1, a.2.2))
    (g := fun b => ret ([b.1], b.2)) (.ret _ _)
  have hguest : (guest_round (splitParams true) splitKernels (.ofRows 2 splitTable.row)
      .empty).bind (fun b => ret ([b.1], b.2)) = guest_fit (splitParams true) splitKernels
        (.ofRows 2 splitTable.row) splitBoosting.estimators .empty := by
    exact (guest_fit_succ (splitParams true) splitKernels _ 0 _).symm
  rw [hguest] at hfit
  exact (hfit.runsTogether (R := fun _ _ => True) trivial).ends

theorem my_fit_sameScores_splitBoosting :
    RunsTogether
      (my_fit (splitParams true) splitKernels splitBoosting (.ofRows 2 splitTable.row))
      (guest_my_fit (splitParams true) splitKernels (.ofRows 2 splitTable.row) 1)
      (SameScores splitBoosting (.ofRows 2 splitTable.row) (.ofRows 2 splitTable.row)) :=
  my_fit_sameScores 2 splitTable.row splitTable.row (fun _ _ => rfl) ends_splitBoosting

end Fediux.Xgboost
