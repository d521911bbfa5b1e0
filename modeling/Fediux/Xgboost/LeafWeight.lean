import Fediux.Xgboost.TreeConstruct

set_option autoImplicit false

/-! # The weight of the leaf of a row

What a tree says about a row: at each node the owner of the node compares the row with its cut,
and the weight of the side is the weight of the row until a node below changes it
(`Tree.weight`). The parties never do this row by row. They assign the weights of both sides of
a node to all of its rows at once, in the training and in the prediction, and go on with the two
sides. `Weighs` is what a whole tree does to the weights of the rows of a node, and
`weighs_node` puts it together from the two sides.
-/

namespace Fediux.Xgboost

variable {Id V F : Type}

/-- The weight of the leaf that the row is in, where it has the weight `w` so far. -/
def Tree.weight (left : Role → ℕ → Id → Bool) : Tree F → F → Id → F
  | .leaf, w, _ => w
  | .node role record w_left tree_left w_right tree_right, _, i =>
      if left role record i then tree_left.weight left w_left i
      else tree_right.weight left w_right i

/-- The rows `ids` have gone through the tree, and the other ones have kept their weights. -/
def Weighs [DecidableEq Id] (left : Role → ℕ → Id → Bool) (ids : List Id) (tree : Tree F)
    (w w' : Id → F) : Prop :=
  ∀ i, w' i = if i ∈ ids then tree.weight left (w i) i else w i

section Sides

variable [DecidableEq Id] {left : Role → ℕ → Id → Bool} {ids : List Id} {w w' w'' : Id → F}

theorem weighs_leaf : Weighs left ids .leaf w w := by
  intro i
  simp [Tree.weight]

/-- **Both sides of a node**: the weights of the sides are assigned, then the sides go through
their trees. -/
theorem weighs_node {role : Role} {record : ℕ} {w_left w_right : F} {tree_left tree_right : Tree F}
    {side : Id → Bool} (hside : ∀ i ∈ ids, left role record i = side i)
    (hl : Weighs left (ids.filter side) tree_left
      (assign (assign w (ids.filter side) w_left) (ids.filter fun i => !side i) w_right) w')
    (hr : Weighs left (ids.filter fun i => !side i) tree_right w' w'') :
    Weighs left ids (.node role record w_left tree_left w_right tree_right) w w'' := by
  intro i
  rw [hr i, hl i]
  by_cases hi : i ∈ ids
  · rw [if_pos hi, Tree.weight, hside i hi]
    cases hs : side i with
    | true => simp [assign, hi, hs]
    | false => simp [assign, hi, hs]
  · simp [assign, hi]

/-- All rows of the tables start with the same weight. -/
theorem Weighs.apply_const {tree : Tree F} {c : F} {i : Id}
    (h : Weighs left ids tree (fun _ => c) w) (hi : i ∈ ids) : w i = tree.weight left c i := by
  rw [h i, if_pos hi]

end Sides

variable [LinearOrder F]

/-- The owner of a node compares the row with the cut in its lookup table. -/
def routesLeft (X_host X_guest : Table Id (V → F)) (host_lookup guest_lookup : ℕ → Option (V × F)) :
    Role → ℕ → Id → Bool
  | .host, record, i => (host_lookup record).any fun (var, cut) => decide (X_host.row i var < cut)
  | .guest, record, i =>
      (guest_lookup record).any fun (var, cut) => decide (X_guest.row i var < cut)

/-- Without missing values `t[var] >= cut` are the rows that `t[var] < cut` leaves. -/
theorem Table.atLeast_eq_notLess (t : Table Id (V → F)) (var : V) (cut : F) :
    t.atLeast var cut = t.notLess var cut := by
  unfold Table.atLeast Table.notLess
  congr 1
  funext i
  rw [← decide_not]
  exact decide_eq_decide.mpr not_lt.symm

end Fediux.Xgboost
