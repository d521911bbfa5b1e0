import Fediux.Xgboost.LeafWeight

set_option autoImplicit false

/-! # Host and guest grow the same tree

Both parties find the winner of a node from the same two gains (`lockstep_choose`). Where the
numeric work of the nodes raises no error (`Computes`), the two recursions are in lockstep:
`lockstep_tree_construct` goes by induction on the nodes that are opened. Without `ray_group` the
host raises an error at the first node that is opened.
-/

namespace Fediux.Xgboost

open Session Session.Prog

variable {Id V F G E S D : Type}

/-! ## Records -/

inductive Winner (V F : Type) where
  | host (best : HostBest V F)
  | guest (best : GuestBest V F)

def Winner.role : Winner V F → Role
  | .host _ => .host
  | .guest _ => .guest

def Winner.entry : Winner V F → V × F
  | .host best => (best.best_var, best.best_cut)
  | .guest best => (best.var, best.cut)

namespace Records

/-- How many nodes of a role there are so far. -/
def count (s : Records V F) : Role → ℕ
  | .host => s.host_record
  | .guest => s.guest_record

/-- The records of the party `mine` after a node that `w` splits. -/
def after (mine : Role) (s : Records V F) (w : Winner V F) : Records V F :=
  let entered := if w.role = mine then s.enter (s.count mine) w.entry.1 w.entry.2 else s
  match w.role with
  | .host => { entered with host_record := s.host_record + 1 }
  | .guest => { entered with guest_record := s.guest_record + 1 }

/-- The record is in the table of the party `mine`, if it is the owner. -/
def Has (mine : Role) (s : Records V F) (role : Role) (record : ℕ) : Prop :=
  role = mine → record < s.count mine ∧ (s.lookup_table record).isSome

/-- Records are added, and those that were there stay. -/
structure Grew (mine : Role) (s s' : Records V F) : Prop where
  count_le : ∀ role, s.count role ≤ s'.count role
  kept : ∀ record < s.count mine, s'.lookup_table record = s.lookup_table record

variable {mine : Role} {s s' s'' : Records V F}

theorem Grew.refl (s : Records V F) : Grew mine s s :=
  ⟨fun _ => le_rfl, fun _ _ => rfl⟩

theorem Grew.trans (h : Grew mine s s') (h' : Grew mine s' s'') : Grew mine s s'' := by
  constructor
  · intro role
    exact (h.count_le role).trans (h'.count_le role)
  · intro record hlt
    rw [h'.kept record (hlt.trans_le (h.count_le mine)), h.kept record hlt]

/-- What is in the table stays in it. -/
theorem Has.mono {role : Role} {record : ℕ} (hs : s.Has mine role record) (h : Grew mine s s') :
    s'.Has mine role record := by
  intro hrole
  obtain ⟨hlt, hsome⟩ := hs hrole
  refine ⟨hlt.trans_le (h.count_le mine), ?_⟩
  rwa [h.kept record hlt]

theorem count_after (s : Records V F) (w : Winner V F) (role : Role) :
    (s.after mine w).count role = s.count role + if role = w.role then 1 else 0 := by
  cases w <;> cases mine <;> cases role <;> rfl

theorem lookup_after (s : Records V F) (w : Winner V F) (record : ℕ) :
    (s.after mine w).lookup_table record =
      if w.role = mine ∧ record = s.count mine then some w.entry else s.lookup_table record := by
  cases w <;> cases mine <;>
    simp [after, Winner.role, enter, count, Winner.entry, Function.update_apply]

theorem grew_after (s : Records V F) (w : Winner V F) : Grew mine s (s.after mine w) := by
  constructor
  · intro role
    rw [count_after]
    omega
  · intro record hlt
    rw [lookup_after, if_neg]
    omega

/-- The record of the winner stays in the table of its owner. -/
theorem Grew.lookup_after {w : Winner V F} (h : Grew mine (s.after mine w) s')
    (hrole : w.role = mine) : s'.lookup_table (s.count mine) = some w.entry := by
  have hlt : s.count mine < (s.after mine w).count mine := by
    rw [count_after, if_pos hrole.symm]
    omega
  rw [h.kept _ hlt, Records.lookup_after, if_pos ⟨hrole, rfl⟩]

/-- The node that `w` splits is in the table of its owner. -/
theorem has_after (s : Records V F) (w : Winner V F) :
    (s.after mine w).Has mine w.role (s.count w.role) := by
  intro hrole
  rw [count_after, lookup_after, hrole]
  simp

end Records

/-! ## Tables -/

/-- The tables have the same rows. -/
structure Aligned (X_host : Table Id (V → F)) (gh : Table Id G) (X_guest : Table Id (V → F))
    (encrypted_ghs : Table Id E) : Prop where
  gh : gh.index = X_host.index
  guest : X_guest.index = X_host.index
  encrypted : encrypted_ghs.index = X_host.index

theorem Aligned.restrict {X_host X_guest : Table Id (V → F)} {gh : Table Id G}
    {encrypted_ghs : Table Id E} (ids : List Id) : Aligned (X_host.restrict ids)
      (gh.restrict ids) (X_guest.restrict ids) (encrypted_ghs.restrict ids) :=
  ⟨rfl, rfl, rfl⟩

variable [LinearOrder F]

/-- The message `ids_w` of the winner. -/
def Winner.idsW (K : Kernels Id V F G E S D) (X_host X_guest : Table Id (V → F)) :
    Winner V F → IdsW Id F
  | .host best =>
      { id_left := X_host.less best.best_var best.best_cut,
        id_right := X_host.notLess best.best_var best.best_cut,
        w_left := best.w_left, w_right := best.w_right }
  | .guest best =>
      { id_left := X_guest.less best.var best.cut,
        id_right := X_guest.notLess best.var best.cut,
        w_left := K.leaf_weight best.G_left best.H_left,
        w_right := K.leaf_weight best.G_right best.H_right }

/-- The owner compares the rows of the node with the cut of the winner. -/
def Winner.side (X_host X_guest : Table Id (V → F)) : Winner V F → Id → Bool
  | .host best, i => decide (X_host.row i best.best_var < best.best_cut)
  | .guest best, i => decide (X_guest.row i best.var < best.cut)

theorem idsW_id_left {K : Kernels Id V F G E S D} {X_host X_guest : Table Id (V → F)}
    (hguest : X_guest.index = X_host.index) (w : Winner V F) :
    (w.idsW K X_host X_guest).id_left = X_host.index.filter (w.side X_host X_guest) := by
  cases w with
  | host best => rfl
  | guest best => exact hguest ▸ rfl

theorem idsW_id_right {K : Kernels Id V F G E S D} {X_host X_guest : Table Id (V → F)}
    (hguest : X_guest.index = X_host.index) (w : Winner V F) :
    (w.idsW K X_host X_guest).id_right =
      X_host.index.filter fun i => !w.side X_host X_guest i := by
  cases w with
  | host best => rfl
  | guest best => exact hguest ▸ rfl

/-- With the record of the winner in the tables, the rows go to the sides that it has chosen. -/
theorem routesLeft_eq_side {X_host X_guest : Table Id (V → F)} {sh sg : Records V F} {record : ℕ}
    (w : Winner V F) (hhost : w.role = .host → sh.lookup_table record = some w.entry)
    (hguest : w.role = .guest → sg.lookup_table record = some w.entry) (i : Id) :
    routesLeft X_host X_guest sh.lookup_table sg.lookup_table w.role record i =
      w.side X_host X_guest i := by
  cases w with
  | host best => simp [Winner.role, routesLeft, hhost rfl, Winner.entry, Winner.side]
  | guest best => simp [Winner.role, routesLeft, hguest rfl, Winner.entry, Winner.side]

/-- The ids of the children are ids of the node. -/
theorem mem_of_mem_idsW {K : Kernels Id V F G E S D} {X_host X_guest : Table Id (V → F)}
    (hguest : X_guest.index = X_host.index) (w : Winner V F) {i : Id}
    (hi : i ∈ (w.idsW K X_host X_guest).id_left ∨ i ∈ (w.idsW K X_host X_guest).id_right) :
    i ∈ X_host.index := by
  cases w <;> rcases hi with hi | hi
  · exact List.mem_of_mem_filter hi
  · exact List.mem_of_mem_filter hi
  · exact hguest ▸ List.mem_of_mem_filter hi
  · exact hguest ▸ List.mem_of_mem_filter hi

/-- What a party knows of the node after the exchange. -/
def chosen (K : Kernels Id V F G E S D) (X_host X_guest : Table Id (V → F)) (mine : Role)
    (s : Records V F) (w : Option (Winner V F)) : Option (Role × ℕ × IdsW Id F) × Records V F :=
  match w with
  | none => (none, s)
  | some w => (some (w.role, s.count w.role, w.idsW K X_host X_guest), s.after mine w)

/-! ## The winner of a node -/

variable [Zero F]

def guestTakes (host_best_gain guest_best_gain : Option F) : Bool :=
  ((truthy host_best_gain && truthy guest_best_gain) && above guest_best_gain host_best_gain) ||
    (!truthy host_best_gain && truthy guest_best_gain)

/-- The cut that splits the node, if any. -/
def winner (host_best : Option (HostBest V F)) (guest_best : Option (GuestBest V F)) :
    Option (Winner V F) :=
  let host_best_gain := host_best.map HostBest.best_gain
  let guest_best_gain := guest_best.map GuestBest.gain
  if truthy host_best_gain || truthy guest_best_gain then
    if guestTakes host_best_gain guest_best_gain then guest_best.map .guest
    else host_best.map .host
  else none

theorem truthy_none : truthy (none : Option F) = false := rfl

/-- A winner that is the host has its cut, and the guest does not take the node. -/
theorem winner_eq_host {host_best : Option (HostBest V F)} {guest_best : Option (GuestBest V F)}
    {best : HostBest V F} (h : winner host_best guest_best = some (.host best)) :
    host_best = some best ∧
      (truthy (host_best.map HostBest.best_gain) ||
        truthy (guest_best.map GuestBest.gain)) = true ∧
      guestTakes (host_best.map HostBest.best_gain) (guest_best.map GuestBest.gain) = false := by
  unfold winner at h
  dsimp only at h
  split_ifs at h with hgain htakes
  · cases guest_best <;> simp at h
  · cases host_best with
    | none => simp at h
    | some best' =>
        simp only [Option.map_some, Option.some.injEq, Winner.host.injEq] at h
        exact ⟨by rw [h], hgain, by simpa using htakes⟩

theorem winner_eq_guest {host_best : Option (HostBest V F)}
    {guest_best : Option (GuestBest V F)} {best : GuestBest V F}
    (h : winner host_best guest_best = some (.guest best)) :
    guest_best = some best ∧
      (truthy (host_best.map HostBest.best_gain) ||
        truthy (guest_best.map GuestBest.gain)) = true ∧
      guestTakes (host_best.map HostBest.best_gain) (guest_best.map GuestBest.gain) = true := by
  unfold winner at h
  dsimp only at h
  split_ifs at h with hgain htakes
  · cases guest_best with
    | none => simp at h
    | some best' =>
        simp only [Option.map_some, Option.some.injEq, Winner.guest.injEq] at h
        exact ⟨by rw [h], hgain, htakes⟩
  · cases host_best <;> simp at h

/-- Without a winner no gain counts. -/
theorem winner_eq_none {host_best : Option (HostBest V F)}
    {guest_best : Option (GuestBest V F)} (h : winner host_best guest_best = none) :
    (truthy (host_best.map HostBest.best_gain) ||
      truthy (guest_best.map GuestBest.gain)) = false := by
  unfold winner at h
  dsimp only at h
  split_ifs at h with hgain htakes
  · -- the guest takes the node only with a gain of its own
    rw [Option.map_eq_none_iff] at h
    simp [h, guestTakes, truthy_none] at htakes
  · rw [Option.map_eq_none_iff] at h
    simp_all [guestTakes, truthy_none]
  · simpa using hgain

/-! ## The exchange at a node -/

section Choose

variable (K : Kernels Id V F G E S D) (X_host X_guest : Table Id (V → F)) (s : Records V F)
variable {host_best : Option (HostBest V F)} {guest_best : Option (GuestBest V F)}

theorem host_choose_none (h : winner host_best guest_best = none) :
    (host_choose s X_host host_best guest_best :
      Prog Key (Msg Id V F E S) PyError _) = ret (none, s) := by
  simp [host_choose, winner_eq_none h]

theorem guest_choose_none (h : winner host_best guest_best = none) :
    guest_choose K s X_guest host_best guest_best = ret (none, s) := by
  simp [guest_choose, winner_eq_none h]

theorem host_choose_host {best : HostBest V F}
    (h : winner host_best guest_best = some (.host best)) :
    (host_choose s X_host host_best guest_best : Prog Key (Msg Id V F E S) PyError _) =
      send .ids_w (.ids_w ((Winner.host best).idsW K X_host X_guest))
        (ret (some (.host, s.host_record, (Winner.host best).idsW K X_host X_guest),
          s.after .host (.host best))) := by
  obtain ⟨rfl, hgain, htakes⟩ := winner_eq_host h
  unfold guestTakes at htakes
  simp only [host_choose, hgain, htakes]
  rfl

theorem guest_choose_host {best : HostBest V F}
    (h : winner host_best guest_best = some (.host best)) :
    guest_choose K s X_guest host_best guest_best =
      recv .ids_w fun
        | .ids_w ids_w => ret (some (.host, s.host_record, ids_w), s.after .guest (.host best))
        | _ => raise .typeError := by
  obtain ⟨rfl, hgain, htakes⟩ := winner_eq_host h
  unfold guestTakes at htakes
  simp only [guest_choose, hgain, Bool.and_comm _ (!_), htakes]
  rfl

theorem host_choose_guest {best : GuestBest V F}
    (h : winner host_best guest_best = some (.guest best)) :
    (host_choose s X_host host_best guest_best : Prog Key (Msg Id V F E S) PyError _) =
      recv .ids_w fun
        | .ids_w ids_w => ret (some (.guest, s.guest_record, ids_w), s.after .host (.guest best))
        | _ => raise .typeError := by
  obtain ⟨rfl, hgain, htakes⟩ := winner_eq_guest h
  unfold guestTakes at htakes
  cases host_best <;> simp only [host_choose, hgain, htakes] <;> rfl

theorem guest_choose_guest {best : GuestBest V F}
    (h : winner host_best guest_best = some (.guest best)) :
    guest_choose K s X_guest host_best guest_best =
      send .ids_w (.ids_w ((Winner.guest best).idsW K X_host X_guest))
        (ret (some (.guest, s.guest_record, (Winner.guest best).idsW K X_host X_guest),
          s.after .guest (.guest best))) := by
  obtain ⟨rfl, hgain, htakes⟩ := winner_eq_guest h
  unfold guestTakes at htakes
  cases host_best <;> simp only [guest_choose, hgain, Bool.and_comm _ (!_), htakes] <;> rfl

/-- **Both parties do the same with the two cuts.** -/
theorem lockstep_choose (host_best : Option (HostBest V F))
    (guest_best : Option (GuestBest V F)) (sh sg : Records V F) :
    ∃ es, Lockstep es (host_choose sh X_host host_best guest_best)
      (guest_choose K sg X_guest host_best guest_best)
      (chosen K X_host X_guest .host sh (winner host_best guest_best))
      (chosen K X_host X_guest .guest sg (winner host_best guest_best)) := by
  cases hw : winner host_best guest_best with
  | none =>
      rw [host_choose_none X_host sh hw, guest_choose_none K X_guest sg hw]
      exact ⟨_, .ret _ _⟩
  | some w =>
      cases w with
      | host best =>
          rw [host_choose_host K X_host X_guest sh hw, guest_choose_host K X_guest sg hw]
          exact ⟨_, .left (.ret _ _)⟩
      | guest best =>
          rw [host_choose_guest X_host sh hw, guest_choose_guest K X_host X_guest sg hw]
          exact ⟨_, .right (.ret _ _)⟩

end Choose

/-! ## Nodes whose numeric work raises no error -/

section Nodes

variable (P : TreeParams) (K : Kernels Id V F G E S D)

/-- What both parties work out at a node that is opened. -/
structure NodeComputes (X_host : Table Id (V → F)) (gh : Table Id G) (X_guest : Table Id (V → F))
    (encrypted_ghs : Table Id E) (host_best : Option (HostBest V F))
    (guest_best : Option (GuestBest V F)) : Prop where
  ray_group : P.ray_group = true
  host_best : host_best_cut P K X_host gh = some host_best
  guest_best : ∃ sums dec, K.sums_of_encrypted_ghs_with_ray X_guest encrypted_ghs = some sums ∧
    K.gh_sums_decrypted_with_ray sums (K.sum gh) = some dec ∧
      K.guest_best_cut dec = some guest_best

/-- From the node on, with `ray_group`, the comparison with `min_child_sample` and the numeric
work raise no error at the nodes that are opened. -/
inductive Computes : ℕ → Table Id (V → F) → Table Id G → Table Id (V → F) → Table Id E → Prop where
  | stop {d : ℕ} {X_host : Table Id (V → F)} {gh : Table Id G} {X_guest : Table Id (V → F)}
      {encrypted_ghs : Table Id E} (h : stops P X_host.index.length d = some true) :
      Computes d X_host gh X_guest encrypted_ghs
  | node {d : ℕ} {X_host : Table Id (V → F)} {gh : Table Id G} {X_guest : Table Id (V → F)}
      {encrypted_ghs : Table Id E} {host_best : Option (HostBest V F)}
      {guest_best : Option (GuestBest V F)} (h : stops P X_host.index.length d = some false)
      (hnode : NodeComputes P K X_host gh X_guest encrypted_ghs host_best guest_best)
      (left : ∀ w, winner host_best guest_best = some w →
        Computes (d + 1) (X_host.restrict (w.idsW K X_host X_guest).id_left)
          (gh.restrict (w.idsW K X_host X_guest).id_left)
          (X_guest.restrict (w.idsW K X_host X_guest).id_left)
          (encrypted_ghs.restrict (w.idsW K X_host X_guest).id_left))
      (right : ∀ w, winner host_best guest_best = some w →
        Computes (d + 1) (X_host.restrict (w.idsW K X_host X_guest).id_right)
          (gh.restrict (w.idsW K X_host X_guest).id_right)
          (X_guest.restrict (w.idsW K X_host X_guest).id_right)
          (encrypted_ghs.restrict (w.idsW K X_host X_guest).id_right)) :
      Computes d X_host gh X_guest encrypted_ghs

variable {P K}
variable {X_host X_guest : Table Id (V → F)} {gh : Table Id G} {encrypted_ghs : Table Id E}
variable {host_best : Option (HostBest V F)} {guest_best : Option (GuestBest V F)}

/-- **The exchange at a node**: the sums, the best cuts, and the ids of the children. -/
theorem lockstep_node (h : NodeComputes P K X_host gh X_guest encrypted_ghs host_best guest_best)
    (sh sg : Records V F) :
    ∃ es, Lockstep es (host_node P K sh X_host gh) (guest_node P K sg X_guest encrypted_ghs)
      (chosen K X_host X_guest .host sh (winner host_best guest_best))
      (chosen K X_host X_guest .guest sg (winner host_best guest_best)) := by
  obtain ⟨sums, dec, hsums, hdec, hguest⟩ := h.guest_best
  obtain ⟨es, hes⟩ := lockstep_choose (E := E) (S := S) K X_host X_guest host_best guest_best
    sh sg
  refine ⟨(.right, .encrypte_gh_sums, .sums sums) ::
    (.left, .best_cut, .best_cut host_best guest_best) :: es, ?_⟩
  simp only [host_node, guest_node, h.host_best, h.ray_group, if_true, hsums, ofOption_some,
    ret_bind]
  apply Lockstep.right
  simp only [dec_guest_gh_sums, h.ray_group, if_true, hdec, hguest, ofOption_some, ret_bind]
  exact Lockstep.left hes

end Nodes

/-! ## The recursion -/

def Tree.All (p : Role → ℕ → Prop) : Tree F → Prop
  | .leaf => True
  | .node role record _ left _ right => p role record ∧ left.All p ∧ right.All p

omit [LinearOrder F] [Zero F] in
theorem Tree.All.imp {p q : Role → ℕ → Prop} {tree : Tree F} (h : tree.All p)
    (hpq : ∀ role record, p role record → q role record) : tree.All q := by
  induction tree with
  | leaf => trivial
  | node role record _ left _ right ihl ihr => exact ⟨hpq _ _ h.1, ihl h.2.1, ihr h.2.2⟩

/-- Every record of the tree is in the table of the party that owns it. -/
def Recorded (sh sg : Records V F) (tree : Tree F) : Prop :=
  tree.All fun role record => sh.Has .host role record ∧ sg.Has .guest role record

omit [LinearOrder F] [Zero F] in
theorem Recorded.mono {sh sg sh' sg' : Records V F} {tree : Tree F} (h : Recorded sh sg tree)
    (hh : sh.Grew .host sh') (hg : sg.Grew .guest sg') : Recorded sh' sg' tree :=
  h.imp fun _ _ hp => ⟨hp.1.mono hh, hp.2.mono hg⟩

/-- The host has assigned the weights of the tree to the rows of the node, whatever tables the
trees after it leave. -/
def Assigned [DecidableEq Id] (X_host X_guest : Table Id (V → F)) (sh sg : Records V F)
    (tree : Tree F) (f_t f_t' : Id → F) : Prop :=
  ∀ sh' sg', sh.Grew .host sh' → sg.Grew .guest sg' →
    Weighs (routesLeft X_host X_guest sh'.lookup_table sg'.lookup_table) X_host.index tree f_t f_t'

/-- What both parties have after a tree. -/
structure Grown (sh sg sh' sg' : Records V F) (tree : Tree F) : Prop where
  count : ∀ role, sh'.count role = sg'.count role
  host : sh.Grew .host sh'
  guest : sg.Grew .guest sg'
  recorded : Recorded sh' sg' tree

section Recursion

variable [DecidableEq Id] {P : TreeParams} {K : Kernels Id V F G E S D}
variable {X_host X_guest : Table Id (V → F)} {gh : Table Id G} {encrypted_ghs : Table Id E}

theorem host_tree_construct_none {d : ℕ} (h : stops P X_host.index.length d = none)
    (s : Records V F) (f_t : Id → F) :
    host_tree_construct P K s f_t X_host d gh = raise .typeError := by
  rw [host_tree_construct]
  split <;> simp_all

theorem host_tree_construct_stop {d : ℕ} (h : stops P X_host.index.length d = some true)
    (s : Records V F) (f_t : Id → F) :
    host_tree_construct P K s f_t X_host d gh = ret (.leaf, s, f_t) := by
  rw [host_tree_construct]
  split <;> simp_all

theorem guest_tree_construct_stop {d : ℕ} (h : stops P X_guest.index.length d = some true)
    (s : Records V F) :
    guest_tree_construct P K s X_guest encrypted_ghs d = ret (.leaf, s) := by
  rw [guest_tree_construct]
  split <;> simp_all

variable (P K X_host X_guest gh encrypted_ghs)

/-- The children of an open node, once the parties know who splits it. -/
def host_children (f_t : Id → F) (d : ℕ) : Option (Role × ℕ × IdsW Id F) × Records V F →
    Prog Key (Msg Id V F E S) PyError (Tree F × Records V F × (Id → F))
  | (none, s) => ret (.leaf, s, f_t)
  | (some (role, record, ids_w), s) =>
      (host_tree_construct P K s
        (assign (assign f_t ids_w.id_left ids_w.w_left) ids_w.id_right ids_w.w_right)
        (X_host.restrict ids_w.id_left) (d + 1) (gh.restrict ids_w.id_left)).bind
          fun (left, s, f_t) =>
            (host_tree_construct P K s f_t (X_host.restrict ids_w.id_right) (d + 1)
              (gh.restrict ids_w.id_right)).bind fun (right, s, f_t) =>
                ret (.node role record ids_w.w_left left ids_w.w_right right, s, f_t)

def guest_children (d : ℕ) : Option (Role × ℕ × IdsW Id F) × Records V F →
    Prog Key (Msg Id V F E S) PyError (Tree F × Records V F)
  | (none, s) => ret (.leaf, s)
  | (some (role, record, ids_w), s) =>
      (guest_tree_construct P K s (X_guest.restrict ids_w.id_left)
        (encrypted_ghs.restrict ids_w.id_left) (d + 1)).bind fun (left, s) =>
          (guest_tree_construct P K s (X_guest.restrict ids_w.id_right)
            (encrypted_ghs.restrict ids_w.id_right) (d + 1)).bind fun (right, s) =>
              ret (.node role record ids_w.w_left left ids_w.w_right right, s)

variable {P K X_host X_guest gh encrypted_ghs}
/-- An open node: the exchange, then the children, whose ids no table misses. -/
theorem host_tree_construct_open {d : ℕ} (hopen : stops P X_host.index.length d = some false)
    (halign : Aligned X_host gh X_guest encrypted_ghs) (s : Records V F) (f_t : Id → F) :
    ∃ rest, host_tree_construct P K s f_t X_host d gh = (host_node P K s X_host gh).bind rest ∧
      ∀ w, rest (chosen K X_host X_guest .host s w) =
        host_children P K X_host gh f_t d (chosen K X_host X_guest .host s w) := by
  rw [host_tree_construct]
  split
  · simp_all
  · simp_all
  refine ⟨_, rfl, ?_⟩
  intro w
  cases w with
  | none => rfl
  | some w =>
      have hleft : ∀ i ∈ (w.idsW K X_host X_guest).id_left, i ∈ X_host.index :=
        fun i hi => mem_of_mem_idsW halign.guest w (Or.inl hi)
      have hright : ∀ i ∈ (w.idsW K X_host X_guest).id_right, i ∈ X_host.index :=
        fun i hi => mem_of_mem_idsW halign.guest w (Or.inr hi)
      simp only [chosen, host_children, Table.loc_eq_some hleft, Table.loc_eq_some hright,
        Table.loc_eq_some (halign.gh ▸ hleft), Table.loc_eq_some (halign.gh ▸ hright),
        ofOption_some, ret_bind]

theorem guest_tree_construct_open {d : ℕ} (hopen : stops P X_guest.index.length d = some false)
    (halign : Aligned X_host gh X_guest encrypted_ghs) (s : Records V F) :
    ∃ rest, guest_tree_construct P K s X_guest encrypted_ghs d =
        (guest_node P K s X_guest encrypted_ghs).bind rest ∧
      ∀ w, rest (chosen K X_host X_guest .guest s w) =
        guest_children P K X_guest encrypted_ghs d (chosen K X_host X_guest .guest s w) := by
  rw [guest_tree_construct]
  split
  · simp_all
  · simp_all
  refine ⟨_, rfl, ?_⟩
  intro w
  cases w with
  | none => rfl
  | some w =>
      have hleft : ∀ i ∈ (w.idsW K X_host X_guest).id_left, i ∈ X_host.index :=
        fun i hi => mem_of_mem_idsW halign.guest w (Or.inl hi)
      have hright : ∀ i ∈ (w.idsW K X_host X_guest).id_right, i ∈ X_host.index :=
        fun i hi => mem_of_mem_idsW halign.guest w (Or.inr hi)
      simp only [chosen, guest_children, Table.loc_eq_some (halign.guest ▸ hleft),
        Table.loc_eq_some (halign.guest ▸ hright), Table.loc_eq_some (halign.encrypted ▸ hleft),
        Table.loc_eq_some (halign.encrypted ▸ hright), ofOption_some, ret_bind]

/-- **Host and guest grow the same tree.** The induction is on the nodes that are opened. -/
theorem lockstep_tree_construct {d : ℕ} (h : Computes P K d X_host gh X_guest encrypted_ghs)
    (halign : Aligned X_host gh X_guest encrypted_ghs) (sh sg : Records V F) (f_t : Id → F)
    (hcount : ∀ role, sh.count role = sg.count role) :
    ∃ es tree sh' sg' f_t', Lockstep es (host_tree_construct P K sh f_t X_host d gh)
      (guest_tree_construct P K sg X_guest encrypted_ghs d) (tree, sh', f_t') (tree, sg') ∧
      Grown sh sg sh' sg' tree ∧ Assigned X_host X_guest sh' sg' tree f_t f_t' := by
  induction h generalizing sh sg f_t with
  | stop hstop =>
      rw [host_tree_construct_stop hstop, guest_tree_construct_stop (halign.guest ▸ hstop)]
      exact ⟨_, _, _, _, _, .ret _ _, ⟨hcount, .refl sh, .refl sg, trivial⟩,
        fun _ _ _ _ => weighs_leaf⟩
  | @node d X_host gh X_guest encrypted_ghs host_best guest_best hopen hnode _ _ ihl ihr =>
      obtain ⟨hostRest, hhost, hhostRest⟩ :=
        host_tree_construct_open (K := K) hopen halign sh f_t
      obtain ⟨guestRest, hguest, hguestRest⟩ :=
        guest_tree_construct_open (K := K) (halign.guest ▸ hopen) halign sg
      rw [hhost, hguest]
      obtain ⟨es, hes⟩ := lockstep_node hnode sh sg
      cases hw : winner host_best guest_best with
      | none =>
          rw [hw] at hes
          refine ⟨es ++ [], .leaf, sh, sg, f_t, hes.bind ?_,
            ⟨hcount, .refl sh, .refl sg, trivial⟩, fun _ _ _ _ => weighs_leaf⟩
          rw [hhostRest, hguestRest]
          exact .ret _ _
      | some w =>
          rw [hw] at hes
          have hcount₁ : ∀ role, (sh.after .host w).count role = (sg.after .guest w).count role :=
            fun role => by rw [Records.count_after, Records.count_after, hcount]
          obtain ⟨es₂, left, sh₂, sg₂, f₂, hes₂, h₂, hleft⟩ := ihl w hw (Aligned.restrict _)
            (sh.after .host w) (sg.after .guest w)
            (assign (assign f_t (w.idsW K X_host X_guest).id_left (w.idsW K X_host X_guest).w_left)
              (w.idsW K X_host X_guest).id_right (w.idsW K X_host X_guest).w_right) hcount₁
          obtain ⟨es₃, right, sh₃, sg₃, f₃, hes₃, h₃, hright⟩ := ihr w hw (Aligned.restrict _)
            sh₂ sg₂ f₂ h₂.count
          have hsh : (sh.after .host w).Grew .host sh₃ := h₂.host.trans h₃.host
          have hsg : (sg.after .guest w).Grew .guest sg₃ := h₂.guest.trans h₃.guest
          refine ⟨es ++ (es₂ ++ (es₃ ++ [])),
            .node w.role (sh.count w.role) (w.idsW K X_host X_guest).w_left left
              (w.idsW K X_host X_guest).w_right right, sh₃, sg₃, f₃, hes.bind ?_, ?_, ?_⟩
          · rw [hhostRest, hguestRest, chosen, chosen, hcount]
            exact hes₂.bind (hes₃.bind (.ret _ _))
          · refine ⟨h₃.count, (Records.grew_after sh w).trans hsh,
              (Records.grew_after sg w).trans hsg, ?_, h₂.recorded.mono h₃.host h₃.guest,
              h₃.recorded⟩
            exact ⟨(Records.has_after sh w).mono hsh,
              hcount w.role ▸ (Records.has_after sg w).mono hsg⟩
          · intro sh' sg' hsh' hsg'
            have hweighs := hleft sh' sg' (h₃.host.trans hsh') (h₃.guest.trans hsg')
            rw [Table.restrict, idsW_id_left halign.guest, idsW_id_right halign.guest] at hweighs
            have hweighs' := hright sh' sg' hsh' hsg'
            rw [Table.restrict, idsW_id_right halign.guest] at hweighs'
            refine weighs_node (fun i _ => routesLeft_eq_side w ?_ ?_ i) hweighs hweighs'
            · intro hrole
              rw [hrole]
              exact (hsh.trans hsh').lookup_after hrole
            · intro hrole
              rw [hcount, hrole]
              exact (hsg.trans hsg').lookup_after hrole

end Recursion

end Fediux.Xgboost
