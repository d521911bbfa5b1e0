import Fediux.Basic.Session
import Fediux.Xgboost.HistSums

set_option autoImplicit false

/-! # Growing a tree between host and guest

`host_tree_construct` and `guest_tree_construct` walk down the same tree on two machines. At a
node the guest sends its sums, the host answers with the best cuts, the party whose cut is the
better one sends the ids of the children, and both go on with the left and then the right child.
At the prediction `host_get_tree_node_weight` and `guest_get_tree_ids` walk down the tree again,
and the party that owns a node sends the ids. The numeric work of a node is given by `Kernels`;
each of them may raise an error.
-/

namespace Fediux.Xgboost

open Session Session.Prog

/-! ## Tables -/

/-- A data frame: its index, and the row of a label. -/
structure Table (Id R : Type) where
  index : List Id
  row : Id → R

section Tables

variable {Id R V F : Type}

def Table.restrict (t : Table Id R) (ids : List Id) : Table Id R := { t with index := ids }

/-- `loc[ids]`; a label that is missing is a `KeyError`. -/
def Table.loc [DecidableEq Id] (t : Table Id R) (ids : List Id) : Option (Table Id R) :=
  if ids.all fun i => decide (i ∈ t.index) then some (t.restrict ids) else none

theorem Table.loc_eq_some [DecidableEq Id] {t : Table Id R} {ids : List Id}
    (h : ∀ i ∈ ids, i ∈ t.index) : t.loc ids = some (t.restrict ids) := by
  simpa [Table.loc] using h

variable [LinearOrder F]

/-- The labels of the rows with `t[var] < cut`. -/
def Table.less (t : Table Id (V → F)) (var : V) (cut : F) : List Id :=
  t.index.filter fun i => decide (t.row i var < cut)

/-- The labels of the other rows. -/
def Table.notLess (t : Table Id (V → F)) (var : V) (cut : F) : List Id :=
  t.index.filter fun i => !decide (t.row i var < cut)

/-- The labels of the rows with `t[var] >= cut`. -/
def Table.atLeast (t : Table Id (V → F)) (var : V) (cut : F) : List Id :=
  t.index.filter fun i => decide (cut ≤ t.row i var)

end Tables

/-- `s[ids] = w`. -/
def assign {Id F : Type} [DecidableEq Id] (s : Id → F) (ids : List Id) (w : F) : Id → F :=
  fun i => if i ∈ ids then w else s i

/-! ## Trees and messages -/

inductive Role where
  | host
  | guest
  deriving DecidableEq

/-- `{(role, record): {('left', w_left): …, ('right', w_right): …}}`, or `None`. -/
inductive Tree (F : Type) where
  | leaf
  | node (role : Role) (record : ℕ) (w_left : F) (left : Tree F) (w_right : F) (right : Tree F)
  deriving DecidableEq

structure HostBest (V F : Type) where
  w_left : F
  w_right : F
  best_var : V
  best_cut : F
  best_gain : F

structure GuestBest (V F : Type) where
  var : V
  cut : F
  G_left : F
  H_left : F
  G_right : F
  H_right : F
  gain : F

structure IdsW (Id F : Type) where
  id_left : List Id
  id_right : List Id
  w_left : F
  w_right : F

/-- The keys of the messages; `ids record` is `str(record) + '_ids'`. -/
inductive Key where
  | sample_ids
  | gh_en
  | encrypte_gh_sums
  | best_cut
  | ids_w
  | ids (record : ℕ)
  deriving DecidableEq

/-- What is sent; `E` is a row of `gh_en` and `S` the sums of a guest. `sample_ids` is `None`
without a sample. -/
inductive Msg (Id V F E S : Type) where
  | sample_ids (ids : Option (List Id))
  | gh_en (t : Table Id E)
  | sums (s : S)
  | best_cut (host_best : Option (HostBest V F)) (guest_best : Option (GuestBest V F))
  | ids_w (w : IdsW Id F)
  | ids (id_left id_right : List Id)

inductive PyError where
  | typeError
  | keyError
  | numeric

/-! ## Parties -/

structure TreeParams extends Params where
  ray_group : Bool
  max_depth : ℤ
  min_child_sample : Option ℤ

/-- The numeric work; `none` is an error. `G` is a row of gradients and hessians, and `D` what the
host has after the decryption. -/
structure Kernels (Id V F G E S D : Type) where
  search_best_splits : Table Id (V → F) → Table Id G → Option (Option (HostBest V F))
  sums_of_encrypted_ghs_with_ray : Table Id (V → F) → Table Id E → Option S
  sums_of_encrypted_ghs : Table Id (V → F) → Table Id E → Option S
  /-- `gh.sum(axis=0)`. -/
  sum : Table Id G → G
  gh_sums_decrypted_with_ray : S → G → Option D
  /-- `dec_gh_sums_df` of `gh_sums_decrypted`. -/
  dec_gh_sums_df : Option String → S → Option D
  /-- The sums of the right sides in `gh_sums_decrypted`. -/
  right_sums : D → G → Option D
  guest_best_cut : D → Option (Option (GuestBest V F))
  /-- `-G / (H + reg_lambda)`. -/
  leaf_weight : F → F → F

/-- What both parties count and look up. -/
structure Records (V F : Type) where
  host_record : ℕ
  guest_record : ℕ
  lookup_table : ℕ → Option (V × F)

def Records.enter {V F : Type} (s : Records V F) (record : ℕ) (var : V) (cut : F) :
    Records V F :=
  { s with lookup_table := Function.update s.lookup_table record (some (var, cut)) }

section Construct

variable {Id V F G E S D : Type} [DecidableEq Id] [LinearOrder F] [Zero F]
variable (P : TreeParams) (K : Kernels Id V F G E S D)

/-- `m < self.min_child_sample or current_depth > self.max_depth`; there is no order between a
number and `None`. -/
def stops (m current_depth : ℕ) : Option Bool :=
  P.min_child_sample.map fun least =>
    decide ((m : ℤ) < least) || decide (P.max_depth < (current_depth : ℤ))

theorem depth_le_of_stops {m d : ℕ} (h : stops P m d = some false) : (d : ℤ) ≤ P.max_depth := by
  obtain ⟨least, _, hor⟩ := Option.map_eq_some_iff.mp h
  simpa using (Bool.or_eq_false_iff.mp hor).2

/-- A gain counts when it is there and not zero. -/
def truthy (gain : Option F) : Bool := gain.any fun x => decide (x ≠ 0)

def above : Option F → Option F → Bool
  | some a, some b => decide (b < a)
  | _, _ => false

/-! ## The host -/

def host_best_cut (X_host : Table Id (V → F)) (plain_gh : Table Id G) :
    Option (Option (HostBest V F)) :=
  if P.min_child_sample.any fun least => decide (least ≠ 0 ∧ (X_host.index.length : ℤ) < least)
  then some none
  else K.search_best_splits X_host plain_gh

/-- What the parameter `decryption_pools` is bound to. -/
inductive PoolsArg (G : Type) where
  | number (n : ℕ)
  | sums (s : G)

/-- `range(decryption_pools)` needs a number, and `plain_gh_sums['g']` a table. -/
def gh_sums_decrypted (gh_sums : S) (decryption_pools : PoolsArg G)
    (plain_gh_sums : Option G) : Option D :=
  match P.encrypted_proto, decryption_pools with
  | some _, .sums _ => none
  | proto, _ => (K.dec_gh_sums_df proto gh_sums).bind fun dec =>
      plain_gh_sums.bind fun plain => K.right_sums dec plain

/-- The call of `host_tree_construct`: without `ray_group` the second argument is
`decryption_pools`. -/
def dec_guest_gh_sums (guest_gh_sums : S) (plain_gh_sums : G) : Option D :=
  if P.ray_group then K.gh_sums_decrypted_with_ray guest_gh_sums plain_gh_sums
  else gh_sums_decrypted P K guest_gh_sums (.sums plain_gh_sums) none

omit [DecidableEq Id] [LinearOrder F] [Zero F] in
/-- **Without `ray_group`** the sums of the node are bound to `decryption_pools`, and the host
raises an error. -/
theorem dec_guest_gh_sums_none {P : TreeParams} {K : Kernels Id V F G E S D}
    (hray : ¬ P.ray_group = true) (guest_gh_sums : S)
    (plain_gh_sums : G) : dec_guest_gh_sums P K guest_gh_sums plain_gh_sums = none := by
  rw [dec_guest_gh_sums, if_neg hray]
  cases hproto : P.encrypted_proto with
  | none => simp [gh_sums_decrypted, hproto]
  | some proto => simp [gh_sums_decrypted, hproto]

/-- The part of `host_tree_construct` from the message `best_cut` on: who splits the node, under
which record, and how. -/
def host_choose (s : Records V F) (X_host : Table Id (V → F))
    (host_best : Option (HostBest V F)) (guest_best : Option (GuestBest V F)) :
    Prog Key (Msg Id V F E S) PyError (Option (Role × ℕ × IdsW Id F) × Records V F) :=
  let host_best_gain := host_best.map HostBest.best_gain
  let guest_best_gain := guest_best.map GuestBest.gain
  if host_best_gain.isNone && guest_best_gain.isNone then ret (none, s)
  else
    let flag_guest1 := (truthy host_best_gain && truthy guest_best_gain) &&
      above guest_best_gain host_best_gain
    let flag_guest2 := !truthy host_best_gain && truthy guest_best_gain
    if truthy host_best_gain || truthy guest_best_gain then
      if flag_guest1 || flag_guest2 then
        recv .ids_w fun
          | .ids_w ids_w =>
              ret (some (.guest, s.guest_record, ids_w),
                { s with guest_record := s.guest_record + 1 })
          | _ => raise .typeError
      else
        match host_best with
        | none => raise .typeError
        | some best =>
            let ids_w : IdsW Id F :=
              { id_left := X_host.less best.best_var best.best_cut,
                id_right := X_host.notLess best.best_var best.best_cut,
                w_left := best.w_left, w_right := best.w_right }
            send .ids_w (.ids_w ids_w) <|
              ret (some (.host, s.host_record, ids_w),
                { s.enter s.host_record best.best_var best.best_cut with
                  host_record := s.host_record + 1 })
    else ret (none, s)

def host_node (s : Records V F) (X_host : Table Id (V → F)) (gh : Table Id G) :
    Prog Key (Msg Id V F E S) PyError (Option (Role × ℕ × IdsW Id F) × Records V F) :=
  (ofOption .numeric (host_best_cut P K X_host gh)).bind fun host_best =>
    recv .encrypte_gh_sums fun
      | .sums guest_gh_sums =>
          (ofOption .typeError (dec_guest_gh_sums P K guest_gh_sums (K.sum gh))).bind fun dec =>
            (ofOption .numeric (K.guest_best_cut dec)).bind fun guest_best =>
              send .best_cut (.best_cut host_best guest_best) <|
                host_choose s X_host host_best guest_best
      | _ => raise .typeError

def host_tree_construct (s : Records V F) (f_t : Id → F) (X_host : Table Id (V → F))
    (current_depth : ℕ) (gh : Table Id G) :
    Prog Key (Msg Id V F E S) PyError (Tree F × Records V F × (Id → F)) :=
  match _h : stops P X_host.index.length current_depth with
  | none => raise .typeError
  | some true => ret (.leaf, s, f_t)
  | some false =>
      (host_node P K s X_host gh).bind fun
        | (none, s) => ret (.leaf, s, f_t)
        | (some (role, record, ids_w), s) =>
            (ofOption .keyError (X_host.loc ids_w.id_left)).bind fun X_host_left =>
            (ofOption .keyError (gh.loc ids_w.id_left)).bind fun plain_gh_left =>
            (ofOption .keyError (X_host.loc ids_w.id_right)).bind fun X_host_right =>
            (ofOption .keyError (gh.loc ids_w.id_right)).bind fun plain_gh_right =>
              let f_t := assign (assign f_t ids_w.id_left ids_w.w_left) ids_w.id_right ids_w.w_right
              (host_tree_construct s f_t X_host_left (current_depth + 1) plain_gh_left).bind
                fun (tree_left, s, f_t) =>
                  (host_tree_construct s f_t X_host_right (current_depth + 1)
                    plain_gh_right).bind fun (tree_right, s, f_t) =>
                      ret (.node role record ids_w.w_left tree_left ids_w.w_right tree_right, s,
                        f_t)
termination_by (P.max_depth + 1 - current_depth).toNat
decreasing_by
  all_goals
    have := depth_le_of_stops P _h
    omega

/-! ## The guest -/

/-- The part of `guest_tree_construct` behind the message `best_cut`. -/
def guest_choose (s : Records V F) (X_guest : Table Id (V → F))
    (host_best : Option (HostBest V F)) (guest_best : Option (GuestBest V F)) :
    Prog Key (Msg Id V F E S) PyError (Option (Role × ℕ × IdsW Id F) × Records V F) :=
  let guest_best_gain := guest_best.map GuestBest.gain
  let host_best_gain := host_best.map HostBest.best_gain
  if host_best_gain.isNone && guest_best_gain.isNone then ret (none, s)
  else
    let guest_flag1 := (truthy host_best_gain && truthy guest_best_gain) &&
      above guest_best_gain host_best_gain
    let guest_flag2 := truthy guest_best_gain && !truthy host_best_gain
    if truthy host_best_gain || truthy guest_best_gain then
      if guest_flag1 || guest_flag2 then
        match guest_best with
        | none => raise .typeError
        | some best =>
            let ids_w : IdsW Id F :=
              { id_left := X_guest.less best.var best.cut,
                id_right := X_guest.notLess best.var best.cut,
                w_left := K.leaf_weight best.G_left best.H_left,
                w_right := K.leaf_weight best.G_right best.H_right }
            send .ids_w (.ids_w ids_w) <|
              ret (some (.guest, s.guest_record, ids_w),
                { s.enter s.guest_record best.var best.cut with
                  guest_record := s.guest_record + 1 })
      else
        recv .ids_w fun
          | .ids_w ids_w =>
              ret (some (.host, s.host_record, ids_w),
                { s with host_record := s.host_record + 1 })
          | _ => raise .typeError
    else ret (none, s)

def guest_node (s : Records V F) (X_guest : Table Id (V → F)) (encrypted_ghs : Table Id E) :
    Prog Key (Msg Id V F E S) PyError (Option (Role × ℕ × IdsW Id F) × Records V F) :=
  (ofOption .numeric
      (if P.ray_group then K.sums_of_encrypted_ghs_with_ray X_guest encrypted_ghs
        else K.sums_of_encrypted_ghs X_guest encrypted_ghs)).bind fun encrypte_gh_sums =>
    send .encrypte_gh_sums (.sums encrypte_gh_sums) <|
      recv .best_cut fun
        | .best_cut host_best guest_best => guest_choose K s X_guest host_best guest_best
        | _ => raise .typeError

def guest_tree_construct (s : Records V F) (X_guest : Table Id (V → F))
    (encrypted_ghs : Table Id E) (current_depth : ℕ) :
    Prog Key (Msg Id V F E S) PyError (Tree F × Records V F) :=
  match _h : stops P X_guest.index.length current_depth with
  | none => raise .typeError
  | some true => ret (.leaf, s)
  | some false =>
      (guest_node P K s X_guest encrypted_ghs).bind fun
        | (none, s) => ret (.leaf, s)
        | (some (role, record, ids_w), s) =>
            (ofOption .keyError (X_guest.loc ids_w.id_left)).bind fun X_guest_left =>
            (ofOption .keyError (X_guest.loc ids_w.id_right)).bind fun X_guest_right =>
            (ofOption .keyError (encrypted_ghs.loc ids_w.id_left)).bind fun encrypted_ghs_left =>
            (ofOption .keyError (encrypted_ghs.loc ids_w.id_right)).bind
              fun encrypted_ghs_right =>
                (guest_tree_construct s X_guest_left encrypted_ghs_left
                  (current_depth + 1)).bind fun (tree_left, s) =>
                    (guest_tree_construct s X_guest_right encrypted_ghs_right
                      (current_depth + 1)).bind fun (tree_right, s) =>
                        ret (.node role record ids_w.w_left tree_left ids_w.w_right tree_right, s)
termination_by (P.max_depth + 1 - current_depth).toNat
decreasing_by
  all_goals
    have := depth_le_of_stops P _h
    omega

end Construct

/-! ## The prediction -/

section Predict

variable {Id V F E S : Type} [DecidableEq Id] [LinearOrder F]

def host_get_tree_node_weight (current_lookup : ℕ → Option (V × F)) :
    Tree F → Table Id (V → F) → (Id → F) → Prog Key (Msg Id V F E S) PyError (Id → F)
  | .leaf, _, w => ret w
  | .node .guest record_id w_left tree_left w_right tree_right, host_test, w =>
      recv (.ids record_id) fun
        | .ids id_left id_right =>
            (ofOption .keyError (host_test.loc id_left)).bind fun host_test_left =>
            (ofOption .keyError (host_test.loc id_right)).bind fun host_test_right =>
              (host_get_tree_node_weight current_lookup tree_left host_test_left
                (assign (assign w id_left w_left) id_right w_right)).bind
                  (host_get_tree_node_weight current_lookup tree_right host_test_right)
        | _ => raise .typeError
  | .node .host record_id w_left tree_left w_right tree_right, host_test, w =>
      (ofOption .keyError (current_lookup record_id)).bind fun (var, cut) =>
        let id_left := host_test.less var cut
        let id_right := host_test.atLeast var cut
        send (.ids record_id) (.ids id_left id_right) <|
          (host_get_tree_node_weight current_lookup tree_left (host_test.restrict id_left)
            (assign (assign w id_left w_left) id_right w_right)).bind
              (host_get_tree_node_weight current_lookup tree_right (host_test.restrict id_right))

def guest_get_tree_ids (current_lookup : ℕ → Option (V × F)) :
    Tree F → Table Id (V → F) → Prog Key (Msg Id V F E S) PyError Unit
  | .leaf, _ => ret ()
  | .node .guest record_id _ tree_left _ tree_right, guest_test =>
      (ofOption .keyError (current_lookup record_id)).bind fun (var, cut) =>
        let id_left := guest_test.less var cut
        let id_right := guest_test.atLeast var cut
        send (.ids record_id) (.ids id_left id_right) <|
          (guest_get_tree_ids current_lookup tree_left (guest_test.restrict id_left)).bind
            fun _ => guest_get_tree_ids current_lookup tree_right (guest_test.restrict id_right)
  | .node .host record_id _ tree_left _ tree_right, guest_test =>
      recv (.ids record_id) fun
        | .ids id_left id_right =>
            (ofOption .keyError (guest_test.loc id_left)).bind fun guest_test_left =>
            (ofOption .keyError (guest_test.loc id_right)).bind fun guest_test_right =>
              (guest_get_tree_ids current_lookup tree_left guest_test_left).bind
                fun _ => guest_get_tree_ids current_lookup tree_right guest_test_right
        | _ => raise .typeError

end Predict

/-! ## Several trees -/

/-- The sampled gradients of a round, and their encryption. -/
structure Round (Id G E : Type) where
  sample_gh : Table Id G
  gh_en : Table Id E

section Fit

variable {Id V F G E S D : Type} [DecidableEq Id] [LinearOrder F] [Zero F]
variable (P : TreeParams) (K : Kernels Id V F G E S D)

/-- The loop of `VGBTHost.fit`: the trees, and what the host has in its lookup table. -/
def host_fit (data : Table Id (V → F)) : List (Round Id G E) → Records V F →
    Prog Key (Msg Id V F E S) PyError (List (Tree F) × Records V F)
  | [], s => ret ([], s)
  | round :: rounds, s =>
      send .sample_ids (.sample_ids (some round.sample_gh.index)) <|
        (ofOption .keyError (data.loc round.sample_gh.index)).bind fun sample_data =>
          send .gh_en (.gh_en round.gh_en) <|
            (host_tree_construct P K s (fun _ => 0) sample_data 0 round.sample_gh).bind
              fun (tree, s, _) =>
                (host_fit data rounds s).bind fun (trees, s) => ret (tree :: trees, s)

/-- The rows of the sample, or all of them. -/
def sampled {R : Type} (data : Table Id R) : Option (List Id) → Option (Table Id R)
  | none => some data
  | some sample_ids => data.loc sample_ids

/-- The loop of `VGBTGuest.fit` over as many rounds. -/
def guest_fit (data : Table Id (V → F)) : ℕ → Records V F →
    Prog Key (Msg Id V F E S) PyError (List (Tree F) × Records V F)
  | 0, s => ret ([], s)
  | estimators + 1, s =>
      recv .sample_ids fun
        | .sample_ids sample_ids =>
            (ofOption .keyError (sampled data sample_ids)).bind fun sample_guest =>
              recv .gh_en fun
                | .gh_en gh_en =>
                    (guest_tree_construct P K s sample_guest gh_en 0).bind fun (tree, s) =>
                      (guest_fit data estimators s).bind fun (trees, s) =>
                        ret (tree :: trees, s)
                | _ => raise .typeError
        | _ => raise .typeError

/-- `predict_raw` of the host: the trees one after the other, with the lookup table that the
training has left. -/
def host_predict (current_lookup : ℕ → Option (V × F)) (X : Table Id (V → F)) :
    List (Tree F) → Prog Key (Msg Id V F E S) PyError (List (Id → F))
  | [] => ret []
  | tree :: trees =>
      (host_get_tree_node_weight current_lookup tree X fun _ => 0).bind fun y_t =>
        (host_predict current_lookup X trees).bind fun ys => ret (y_t :: ys)

def guest_predict (current_lookup : ℕ → Option (V × F)) (X : Table Id (V → F)) :
    List (Tree F) → Prog Key (Msg Id V F E S) PyError Unit
  | [] => ret ()
  | tree :: trees =>
      (guest_get_tree_ids current_lookup tree X).bind fun _ =>
        guest_predict current_lookup X trees

end Fit

end Fediux.Xgboost
