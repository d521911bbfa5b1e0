import Fediux.Xgboost.TreeLockstep

set_option autoImplicit false

/-! # The runs of host and guest

`tree_construct_runsTogether_iff` says when all runs of the two recursions stay together: exactly
when `Computes` holds, and the host never computes at an open node without `ray_group`. The trees
have their records in the tables of the owners, so that the recursions of the prediction run
together as well, and so does a whole training with the prediction behind it.
-/

namespace Fediux.Xgboost

open Session Session.Prog

variable {Id V F G E S D : Type} [LinearOrder F]

/-! ## The prediction -/

section Predict

variable [DecidableEq Id]

theorem Table.loc_of_subset {R R' : Type} {t : Table Id R} {t' : Table Id R'}
    (h : t'.index = t.index) (p : Id → Bool) :
    t'.loc (t.index.filter p) = some (t'.restrict (t.index.filter p)) :=
  Table.loc_eq_some fun _ hi => h ▸ List.mem_of_mem_filter hi

/-- **Host and guest walk down a tree together** when the records of its nodes are in the tables
of their owners, and the host assigns the weights of the tree. -/
theorem lockstep_get_tree {sh sg : Records V F} {tree : Tree F} (h : Recorded sh sg tree)
    (host_test guest_test : Table Id (V → F)) (hindex : guest_test.index = host_test.index)
    (w : Id → F) :
    ∃ es w', Lockstep es
      (host_get_tree_node_weight (E := E) (S := S) sh.lookup_table tree host_test w)
      (guest_get_tree_ids sg.lookup_table tree guest_test) w' () ∧
      Weighs (routesLeft host_test guest_test sh.lookup_table sg.lookup_table) host_test.index tree
        w w' := by
  induction tree generalizing host_test guest_test w with
  | leaf => exact ⟨_, _, .ret _ _, weighs_leaf⟩
  | node role record w_left left w_right right ihl ihr =>
      obtain ⟨⟨hhost, hguest⟩, hl, hr⟩ := h
      -- the owner of the node sends the ids, which are labels of the other table as well
      have hsub (ids : Id → Bool) (w : Id → F) := ihl hl
        (host_test.restrict (host_test.index.filter ids))
        (guest_test.restrict (host_test.index.filter ids)) rfl w
      have hsub' (ids : Id → Bool) (w : Id → F) := ihr hr
        (host_test.restrict (host_test.index.filter ids))
        (guest_test.restrict (host_test.index.filter ids)) rfl w
      cases role with
      | host =>
          obtain ⟨⟨var, cut⟩, hentry⟩ := Option.isSome_iff_exists.mp (hhost rfl).2
          obtain ⟨es, w₁, hes, hw₁⟩ := hsub (fun i => decide (host_test.row i var < cut))
            (assign (assign w (host_test.less var cut) w_left) (host_test.notLess var cut) w_right)
          obtain ⟨es', w₂, hes', hw₂⟩ := hsub' (fun i => !decide (host_test.row i var < cut)) w₁
          refine ⟨(.left, .ids record,
            .ids (host_test.less var cut) (host_test.notLess var cut)) :: (es ++ es'), w₂, ?_, ?_⟩
          · simp only [host_get_tree_node_weight, guest_get_tree_ids, hentry, ofOption_some,
              ret_bind, Table.atLeast_eq_notLess]
            apply Lockstep.left
            simp only [Table.less, Table.notLess, Table.loc_of_subset hindex, ofOption_some,
              ret_bind]
            exact hes.bind hes'
          · exact weighs_node (fun i _ => by simp [routesLeft, hentry]) hw₁ hw₂
      | guest =>
          obtain ⟨⟨var, cut⟩, hentry⟩ := Option.isSome_iff_exists.mp (hguest rfl).2
          rw [← hindex] at hsub hsub' ⊢
          obtain ⟨es, w₁, hes, hw₁⟩ := hsub (fun i => decide (guest_test.row i var < cut))
            (assign (assign w (guest_test.less var cut) w_left) (guest_test.notLess var cut)
              w_right)
          obtain ⟨es', w₂, hes', hw₂⟩ := hsub' (fun i => !decide (guest_test.row i var < cut)) w₁
          refine ⟨(.right, .ids record,
            .ids (guest_test.less var cut) (guest_test.notLess var cut)) :: (es ++ es'), w₂, ?_,
            ?_⟩
          · simp only [host_get_tree_node_weight, guest_get_tree_ids, hentry, ofOption_some,
              ret_bind, Table.atLeast_eq_notLess]
            apply Lockstep.right
            simp only [Table.less, Table.notLess, Table.loc_of_subset hindex.symm, ofOption_some,
              ret_bind]
            exact hes.bind hes'
          · exact weighs_node (fun i _ => by simp [routesLeft, hentry]) hw₁ hw₂

end Predict

/-! ## Errors -/

section Errors

variable [DecidableEq Id] [Zero F] {P : TreeParams} {K : Kernels Id V F G E S D}
variable {X_host X_guest : Table Id (V → F)} {gh : Table Id G} {encrypted_ghs : Table Id E}
variable {α β : Type}

omit [DecidableEq Id] in
/-- An exchange at a node without an error has computed everything. -/
theorem nodeComputes_of_safe {sh sg : Records V F}
    {f : Option (Role × ℕ × IdsW Id F) × Records V F → Prog Key (Msg Id V F E S) PyError α}
    {g : Option (Role × ℕ × IdsW Id F) × Records V F → Prog Key (Msg Id V F E S) PyError β}
    (hs : Safe ((host_node P K sh X_host gh).bind f)
      ((guest_node P K sg X_guest encrypted_ghs).bind g)) :
    ∃ host_best guest_best,
      NodeComputes P K X_host gh X_guest encrypted_ghs host_best guest_best := by
  unfold host_node guest_node at hs
  cases hhost : host_best_cut P K X_host gh with
  | none =>
      rw [hhost] at hs
      exact absurd hs Safe.not_raise_left
  | some host_best =>
      rw [hhost] at hs
      cases hsums : (if P.ray_group then K.sums_of_encrypted_ghs_with_ray X_guest encrypted_ghs
          else K.sums_of_encrypted_ghs X_guest encrypted_ghs) with
      | none =>
          rw [hsums] at hs
          exact absurd hs Safe.not_raise_right
      | some sums =>
          rw [hsums] at hs
          have hdecrypts := hs.of_right
          dsimp only at hdecrypts
          by_cases hray : P.ray_group = true
          · rw [if_pos hray] at hsums
            rw [dec_guest_gh_sums, if_pos hray] at hdecrypts
            cases hdec : K.gh_sums_decrypted_with_ray sums (K.sum gh) with
            | none =>
                rw [hdec] at hdecrypts
                exact absurd hdecrypts Safe.not_raise_left
            | some dec =>
                rw [hdec] at hdecrypts
                cases hguest : K.guest_best_cut dec with
                | none =>
                    rw [ofOption_some, ret_bind, hguest] at hdecrypts
                    exact absurd hdecrypts Safe.not_raise_left
                | some guest_best =>
                    exact ⟨host_best, guest_best, hray, hhost, sums, dec, hsums, hdec, hguest⟩
          · rw [dec_guest_gh_sums_none hray] at hdecrypts
            exact absurd hdecrypts Safe.not_raise_left

theorem open_or_computes {d : ℕ} {s : Records V F} {f_t : Id → F}
    {f : Tree F × Records V F × (Id → F) → Prog Key (Msg Id V F E S) PyError α}
    {q : Prog Key (Msg Id V F E S) PyError β}
    (hs : Safe ((host_tree_construct P K s f_t X_host d gh).bind f) q) :
    stops P X_host.index.length d = some false ∨
      Computes P K d X_host gh X_guest encrypted_ghs := by
  cases hstop : stops P X_host.index.length d with
  | none =>
      rw [host_tree_construct_none hstop] at hs
      exact absurd hs Safe.not_raise_left
  | some stop =>
      cases stop with
      | true => exact Or.inr (.stop hstop)
      | false => exact Or.inl rfl

/-- Runs without an error have computed every node that they open. -/
theorem computes_of_safe {d n : ℕ} (hn : (P.max_depth + 1 - d).toNat ≤ n)
    (halign : Aligned X_host gh X_guest encrypted_ghs) {sh sg : Records V F} {f_t : Id → F}
    (hcount : ∀ role, sh.count role = sg.count role)
    {f : Tree F × Records V F × (Id → F) → Prog Key (Msg Id V F E S) PyError α}
    {g : Tree F × Records V F → Prog Key (Msg Id V F E S) PyError β}
    (hs : Safe ((host_tree_construct P K sh f_t X_host d gh).bind f)
      ((guest_tree_construct P K sg X_guest encrypted_ghs d).bind g)) :
    Computes P K d X_host gh X_guest encrypted_ghs := by
  induction n generalizing d X_host gh X_guest encrypted_ghs sh sg f_t f g with
  | zero =>
      rcases open_or_computes hs with hopen | hcomputes
      · have hle := depth_le_of_stops P hopen
        omega
      · exact hcomputes
  | succ n ih =>
      rcases open_or_computes hs with hopen | hcomputes
      · have hle := depth_le_of_stops P hopen
        have hn' : (P.max_depth + 1 - ((d + 1 : ℕ) : ℤ)).toNat ≤ n := by omega
        obtain ⟨hostRest, hhost, hhostRest⟩ :=
          host_tree_construct_open (K := K) hopen halign sh f_t
        obtain ⟨guestRest, hguest, hguestRest⟩ :=
          guest_tree_construct_open (K := K) (halign.guest ▸ hopen) halign sg
        rw [hhost, hguest, bind_assoc, bind_assoc] at hs
        obtain ⟨host_best, guest_best, hnode⟩ := nodeComputes_of_safe hs
        obtain ⟨es, hes⟩ := lockstep_node hnode sh sg
        have hrest := hes.safe_rest hs
        rw [hhostRest, hguestRest] at hrest
        cases hw : winner host_best guest_best with
        | none =>
            refine .node hopen hnode ?_ ?_
            · simp [hw]
            · simp [hw]
        | some w =>
            have hcount₁ : ∀ role,
                (sh.after .host w).count role = (sg.after .guest w).count role :=
              fun role => by rw [Records.count_after, Records.count_after, hcount]
            rw [hw, chosen, chosen, host_children, guest_children, bind_assoc,
              bind_assoc] at hrest
            have hleft := ih hn' (Aligned.restrict _) hcount₁ hrest
            -- behind the left child the right one runs without an error too
            obtain ⟨_, _, _, _, _, hes₂, h₂, _⟩ := lockstep_tree_construct hleft
              (Aligned.restrict _) _ _ _ hcount₁
            have hrest₂ := hes₂.safe_rest hrest
            rw [bind_assoc, bind_assoc] at hrest₂
            have hright := ih hn' (Aligned.restrict _) h₂.count hrest₂
            refine .node hopen hnode ?_ ?_
            · intro w' hw'
              rw [hw, Option.some.injEq] at hw'
              exact hw' ▸ hleft
            · intro w' hw'
              rw [hw, Option.some.injEq] at hw'
              exact hw' ▸ hright
      · exact hcomputes

end Errors

/-! ## All runs -/

/-- Both parties return the same tree. Its records are in the tables of their owners, so that
the prediction with it runs together, whatever trees are grown after it. -/
structure SameTree [DecidableEq Id] (E S : Type) (a : Tree F × Records V F × (Id → F))
    (b : Tree F × Records V F) : Prop where
  tree : a.1 = b.1
  recorded : Recorded a.2.1 b.2 a.1
  predicts : ∀ sh sg, a.2.1.Grew .host sh → b.2.Grew .guest sg →
    ∀ host_test guest_test : Table Id (V → F), guest_test.index = host_test.index → ∀ w : Id → F,
      RunsTogether
        (host_get_tree_node_weight (E := E) (S := S) sh.lookup_table a.1 host_test w)
        (guest_get_tree_ids sg.lookup_table b.1 guest_test) fun _ _ => True

section Runs

variable [DecidableEq Id] [Zero F] {P : TreeParams} {K : Kernels Id V F G E S D}
variable {X_host X_guest : Table Id (V → F)} {gh : Table Id G} {encrypted_ghs : Table Id E}

omit [Zero F] in
theorem sameTree_of_recorded {tree : Tree F} {sh sg : Records V F} (h : Recorded sh sg tree)
    (f_t : Id → F) : SameTree E S (tree, sh, f_t) (tree, sg) := by
  refine ⟨rfl, h, ?_⟩
  intro sh' sg' hsh hsg host_test guest_test hindex w
  obtain ⟨es, w', hes, _⟩ := lockstep_get_tree (E := E) (S := S) (h.mono hsh hsg) host_test
    guest_test hindex w
  exact hes.runsTogether trivial

/-- Where every node is computed, all runs stay together. -/
theorem Computes.runsTogether {d : ℕ} (h : Computes P K d X_host gh X_guest encrypted_ghs)
    (halign : Aligned X_host gh X_guest encrypted_ghs) {sh sg : Records V F} (f_t : Id → F)
    (hcount : ∀ role, sh.count role = sg.count role) :
    RunsTogether (host_tree_construct P K sh f_t X_host d gh)
      (guest_tree_construct P K sg X_guest encrypted_ghs d) (SameTree E S) := by
  obtain ⟨es, tree, sh', sg', f_t', hes, hgrown, _⟩ :=
    lockstep_tree_construct h halign sh sg f_t hcount
  exact hes.runsTogether (sameTree_of_recorded hgrown.recorded f_t')

theorem computes_of_runsTogether {d : ℕ} (halign : Aligned X_host gh X_guest encrypted_ghs)
    {sh sg : Records V F} {f_t : Id → F} (hcount : ∀ role, sh.count role = sg.count role)
    {R : Tree F × Records V F × (Id → F) → Tree F × Records V F → Prop}
    (h : RunsTogether (host_tree_construct P K sh f_t X_host d gh)
      (guest_tree_construct P K sg X_guest encrypted_ghs d) R) :
    Computes P K d X_host gh X_guest encrypted_ghs := by
  have hs := h.safe
  rw [← bind_ret (host_tree_construct P K sh f_t X_host d gh),
    ← bind_ret (guest_tree_construct P K sg X_guest encrypted_ghs d)] at hs
  exact computes_of_safe le_rfl halign hcount hs

/-- Without `ray_group` no run that opens its first node stays together. -/
theorem not_runsTogether_of_not_ray_group {d : ℕ} (hray : P.ray_group = false)
    (hopen : stops P X_host.index.length d = some false)
    (halign : Aligned X_host gh X_guest encrypted_ghs) {sh sg : Records V F} {f_t : Id → F}
    (hcount : ∀ role, sh.count role = sg.count role)
    {R : Tree F × Records V F × (Id → F) → Tree F × Records V F → Prop} :
    ¬ RunsTogether (host_tree_construct P K sh f_t X_host d gh)
      (guest_tree_construct P K sg X_guest encrypted_ghs d) R := by
  intro h
  cases computes_of_runsTogether halign hcount h with
  | stop hstop => simp [hstop] at hopen
  | node _ hnode _ _ => simp [hnode.ray_group] at hray

/-- **When host and guest stay in lockstep**: in all runs exactly when every node that is opened
is computed without an error, which takes `ray_group`. -/
theorem tree_construct_runsTogether_iff {d : ℕ}
    (halign : Aligned X_host gh X_guest encrypted_ghs) {sh sg : Records V F} {f_t : Id → F}
    (hcount : ∀ role, sh.count role = sg.count role) :
    RunsTogether (host_tree_construct P K sh f_t X_host d gh)
        (guest_tree_construct P K sg X_guest encrypted_ghs d) (SameTree E S) ↔
      Computes P K d X_host gh X_guest encrypted_ghs :=
  ⟨computes_of_runsTogether halign hcount, fun h => h.runsTogether halign f_t hcount⟩

end Runs

/-! ## Two rows -/

/-- A host that splits a node of two rows, and a guest without a cut. -/
def splitKernels : Kernels ℕ String ℤ ℤ ℤ ℤ ℤ where
  search_best_splits X_host _ :=
    if X_host.index.length < 2 then some none
    else some (some { w_left := -1, w_right := 1, best_var := "age", best_cut := 1,
                      best_gain := 1 })
  sums_of_encrypted_ghs_with_ray X_guest encrypted_ghs :=
    some (X_guest.index.map encrypted_ghs.row).sum
  sums_of_encrypted_ghs X_guest encrypted_ghs := some (X_guest.index.map encrypted_ghs.row).sum
  sum gh := (gh.index.map gh.row).sum
  gh_sums_decrypted_with_ray s _ := some s
  dec_gh_sums_df _ s := some s
  right_sums s plain := some (plain - s)
  guest_best_cut _ := some none
  leaf_weight G H := -G / (H + 1)

def splitParams (ray_group : Bool) : TreeParams where
  merge_gh := true
  encrypted_proto := some "paillier"
  ray_group := ray_group
  max_depth := 0
  min_child_sample := some 1

/-- A column with the values 0 and 1, of the host and of the guest. -/
def splitTable : Table ℕ (String → ℤ) where
  index := [0, 1]
  row i _ := i

/-- The gradients of the rows, and their codes. -/
def splitGh : Table ℕ ℤ where
  index := [0, 1]
  row i := 2 * i - 1

def noRecords : Records String ℤ where
  host_record := 0
  guest_record := 0
  lookup_table _ := none

theorem aligned_split : Aligned splitTable splitGh splitTable splitGh :=
  ⟨rfl, rfl, rfl⟩

theorem tree_construct_runsTogether_iff_split :
    RunsTogether
      (host_tree_construct (splitParams true) splitKernels noRecords (fun _ => 0) splitTable 0
        splitGh)
      (guest_tree_construct (splitParams true) splitKernels noRecords splitTable splitGh 0)
      (SameTree ℤ ℤ) := by
  apply (tree_construct_runsTogether_iff aligned_split fun _ => rfl).mpr
  refine .node rfl ⟨rfl, rfl, _, _, rfl, rfl, rfl⟩ ?_ ?_
  · intro w _
    exact .stop (by simp [stops, splitParams])
  · intro w _
    exact .stop (by simp [stops, splitParams])

/-- Without `ray_group` the host raises an error after the first message, and the guest waits. -/
theorem not_runsTogether_split :
    ¬ RunsTogether
      (host_tree_construct (splitParams false) splitKernels noRecords (fun _ => 0) splitTable 0
        splitGh)
      (guest_tree_construct (splitParams false) splitKernels noRecords splitTable splitGh 0)
      (SameTree ℤ ℤ) :=
  not_runsTogether_of_not_ray_group rfl rfl aligned_split fun _ => rfl

end Fediux.Xgboost
