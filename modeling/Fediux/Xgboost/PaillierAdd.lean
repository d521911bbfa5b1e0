import Fediux.Basic.Reduction
import Fediux.Xgboost.EncryptedSums

set_option autoImplicit false

/-! # The sums of ciphertexts in slices

`atom_paillier_sum` and `PallierAdd.pai_add` cut a long list of ciphertexts into slices, let the
actors of a pool add up each slice, and add up their results (`python/fediux/FL/xgboost/gbt.py`).
`sums_in_slices` says that every element is used exactly once. The addition itself is a parameter
here; for the cells of the training these are the sums of the other modules
(`atom_paillier_sum_cells`, `pai_add_cells`).
-/

namespace Fediux.PaillierAdd

open Reduction
open Xgboost (Cell itemsList flatten_itemsList ne_nil_of_mem_itemsList)

section Model

variable {C : Type} (opt_paillier_add : C → C → C)

/-- `ActorAdd.add`; the sum of no value is `None`. -/
def ActorAdd.add (values : List C) : Option C :=
  values.foldl
    (fun tmp_sum item =>
      match tmp_sum with
      | none => some item
      | some tmp_sum => some (opt_paillier_add tmp_sum item))
    none

/-- `functools.reduce` over the results of the actors, in the order of the slices. A result that is
`None` cannot be added. -/
def final_result (inter_results : List (Option C)) : Option C :=
  (inter_results.mapM id).bind (reduce opt_paillier_add)

/-- `[items[x:x + limit] for x in range(0, len(items), limit)]`. -/
def atomSlices (limit : ℕ) (items : List C) : List (List C) :=
  (List.range' 0 ((items.length + limit - 1) / limit) limit).map fun x =>
    (items.drop x).take limit

def atom_paillier_sum (limit : ℕ) (items : List C) : Option C :=
  if items.length < limit then reduce opt_paillier_add items
  else
    final_result opt_paillier_add
      ((atomSlices limit items).map (ActorAdd.add opt_paillier_add))

/-- `PallierAdd.pai_add`, where `sum` is the one of Python, for values that are not encrypted. -/
def pai_add (sum : List C → C) (encrypted_proto : Option String) (self_nums min_num : ℕ)
    (items : List C) : Option C :=
  if encrypted_proto.isSome then
    let nums := self_nums * min_num
    if items.length < nums then reduce opt_paillier_add items
    else
      final_result opt_paillier_add
        ((itemsList items nums).map (ActorAdd.add opt_paillier_add))
  else some (sum items)

end Model

section Slices

variable {C : Type} {opt_paillier_add : C → C → C} {items : List C}

/-! ## The slices -/

theorem add_eq_reduce (values : List C) :
    ActorAdd.add opt_paillier_add values = reduce opt_paillier_add values := by
  cases values with
  | nil => rfl
  | cons c values =>
      show values.foldl _ (some c) = some (values.foldl opt_paillier_add c)
      induction values generalizing c with
      | nil => rfl
      | cons d values ih => exact ih (opt_paillier_add c d)

theorem atomSlices_eq (limit : ℕ) (items : List C) :
    atomSlices limit items = (List.range ((items.length + limit - 1) / limit)).map fun i =>
      (items.drop (i * limit)).take limit := by
  unfold atomSlices
  apply List.ext_getElem
  · rw [List.length_map, List.length_map, List.length_range', List.length_range]
  · intro i _ _
    rw [List.getElem_map, List.getElem_map, List.getElem_range', List.getElem_range, Nat.zero_add,
      Nat.mul_comm]

theorem flatten_atomSlices {limit : ℕ} (hlimit : 1 ≤ limit) (items : List C) :
    (atomSlices limit items).flatten = items := by
  have hall : items.length ≤ (items.length + limit - 1) / limit * limit := by
    have hdiv := Nat.div_add_mod (items.length + limit - 1) limit
    have hmod := Nat.mod_lt (items.length + limit - 1) hlimit
    rw [Nat.mul_comm] at hdiv
    omega
  rw [atomSlices_eq, Chunks.flatten_wholeBlocks, List.take_of_length_le hall]

/-- Every slice starts within the list. -/
theorem ne_nil_of_mem_atomSlices {limit : ℕ} (hlimit : 1 ≤ limit) {slice : List C}
    (h : slice ∈ atomSlices limit items) : slice ≠ [] := by
  rw [atomSlices_eq] at h
  obtain ⟨i, hi, rfl⟩ := List.mem_map.mp h
  have hi := List.mem_range.mp hi
  have hstart : i * limit < items.length := by
    have hle : (i + 1) * limit ≤ items.length + limit - 1 :=
      (Nat.le_div_iff_mul_le hlimit).mp hi
    rw [Nat.succ_mul] at hle
    omega
  intro hnil
  rcases List.take_eq_nil_iff.mp hnil with hzero | hdrop
  · omega
  · exact absurd (List.drop_eq_nil_iff.mp hdrop) (by omega)

/-! ## The sums -/

/-- The sum is made of all items, each used once and in order. -/
structure SumsOnce (opt_paillier_add : C → C → C) (items : List C) (result : Option C) :
    Prop where
  bracketed : ∃ v, result = some v ∧ Bracketed opt_paillier_add items v
  leftFold : Std.Associative opt_paillier_add → result = reduce opt_paillier_add items

theorem SumsOnce.of_bracketed {result : Option C} {v : C} (hresult : result = some v)
    (hv : Bracketed opt_paillier_add items v) : SumsOnce opt_paillier_add items result := by
  refine ⟨⟨v, hresult, hv⟩, ?_⟩
  intro hassoc
  rw [hresult, hv.reduce_eq]

theorem sumsOnce_reduce (hitems : items ≠ []) :
    SumsOnce opt_paillier_add items (reduce opt_paillier_add items) := by
  obtain ⟨v, hv⟩ := Option.isSome_iff_exists.mp ((reduce_isSome_iff _).mpr hitems)
  exact .of_bracketed hv (bracketed_reduce hv)

theorem final_result_add (slices : List (List C)) :
    final_result opt_paillier_add (slices.map (ActorAdd.add opt_paillier_add)) =
      (slices.mapM (reduce opt_paillier_add)).bind (reduce opt_paillier_add) := by
  have hadd : slices.map (ActorAdd.add opt_paillier_add) =
      slices.map (reduce opt_paillier_add) :=
    List.map_congr_left fun values _ => add_eq_reduce values
  rw [final_result, hadd, List.mapM_map]
  rfl

/-- Slices that make up the list, of which none is empty. -/
theorem sumsOnce_slices (hitems : items ≠ []) {slices : List (List C)}
    (hflatten : slices.flatten = items) (hne : ∀ slice ∈ slices, slice ≠ []) :
    SumsOnce opt_paillier_add items
      (final_result opt_paillier_add (slices.map (ActorAdd.add opt_paillier_add))) := by
  have hslices : slices ≠ [] := by
    rintro rfl
    exact hitems hflatten.symm
  obtain ⟨v, hv, hbracketed⟩ := bracketed_slices opt_paillier_add hslices hne
  rw [hflatten] at hbracketed
  rw [final_result_add]
  exact .of_bracketed hv hbracketed

theorem sumsOnce_atom {limit : ℕ} (hlimit : 1 ≤ limit) (hitems : items ≠ []) :
    SumsOnce opt_paillier_add items (atom_paillier_sum opt_paillier_add limit items) := by
  unfold atom_paillier_sum
  split
  · exact sumsOnce_reduce hitems
  · exact sumsOnce_slices hitems (flatten_atomSlices hlimit items) fun slice hslice =>
      ne_nil_of_mem_atomSlices hlimit hslice

theorem sumsOnce_pai_add {encrypted_proto : Option String} (henc : encrypted_proto.isSome = true)
    {self_nums min_num : ℕ} (hnums : 1 ≤ self_nums) (hmin : 1 ≤ min_num) (sum : List C → C)
    (hitems : items ≠ []) :
    SumsOnce opt_paillier_add items
      (pai_add opt_paillier_add sum encrypted_proto self_nums min_num items) := by
  have hpos : 0 < self_nums * min_num := Nat.mul_pos hnums hmin
  unfold pai_add
  rw [if_pos henc]
  dsimp only
  split
  · exact sumsOnce_reduce hitems
  · have hle : self_nums * min_num ≤ items.length := by omega
    exact sumsOnce_slices hitems (flatten_itemsList items hpos) fun slice hslice =>
      ne_nil_of_mem_itemsList hpos hle hslice

end Slices

/-! ## The cells of the training -/

instance : Std.Associative Xgboost.opt_paillier_add where
  assoc a b c := by
    cases a <;> cases b <;> cases c <;> simp [Xgboost.opt_paillier_add, add_assoc]

theorem reduce_cells (cells : List Cell) :
    Xgboost.reduce cells = reduce Xgboost.opt_paillier_add cells := by
  cases cells with
  | nil => rfl
  | cons c cells => rfl

/-- The sum over a group is the one that is made in slices. -/
theorem atom_paillier_sum_cells {limit : ℕ} (hlimit : 1 ≤ limit) {cells : List Cell}
    (hcells : cells ≠ []) :
    atom_paillier_sum Xgboost.opt_paillier_add limit cells =
      some (Xgboost.atom_paillier_sum cells) := by
  rw [(sumsOnce_atom hlimit hcells).leftFold inferInstance]
  cases cells with
  | nil => exact absurd rfl hcells
  | cons c cells => rfl

/-- The sum of `map_gh` too. -/
theorem pai_add_cells {encrypted_proto : Option String} {nums : ℕ} (hnums : 1 ≤ nums)
    (cells : List Cell) :
    pai_add Xgboost.opt_paillier_add (List.foldl Cell.plus (.number 0)) encrypted_proto nums 3
        cells = Xgboost.pai_add encrypted_proto nums cells := by
  unfold pai_add Xgboost.pai_add
  split
  · dsimp only
    split
    · rw [reduce_cells]
    · have hpos : 0 < nums * 3 := by omega
      have hle : nums * 3 ≤ cells.length := by omega
      have hadd : (itemsList cells (nums * 3)).mapM (reduce Xgboost.opt_paillier_add) =
          some ((itemsList cells (nums * 3)).map Xgboost.add) := by
        apply Missing.mapM_of_some
        intro slice hslice
        have hne := ne_nil_of_mem_itemsList hpos hle hslice
        obtain ⟨c, slice, rfl⟩ := List.exists_cons_of_ne_nil hne
        rfl
      rw [final_result_add, hadd, Option.bind_some, reduce_cells]
  · rfl

/-- **The sums in slices**: with any addition, every element is used exactly once, no slice is
empty, and with an associative one the sum is the left fold. -/
theorem sums_in_slices {C : Type} (opt_paillier_add : C → C → C) (sum : List C → C)
    {items : List C} (hitems : items ≠ []) {encrypted_proto : Option String}
    (henc : encrypted_proto.isSome = true) {limit self_nums min_num : ℕ} (hlimit : 1 ≤ limit)
    (hnums : 1 ≤ self_nums) (hmin : 1 ≤ min_num) :
    (SumsOnce opt_paillier_add items (atom_paillier_sum opt_paillier_add limit items) ∧
      ∀ slice ∈ atomSlices limit items, slice ≠ []) ∧
    (SumsOnce opt_paillier_add items
        (pai_add opt_paillier_add sum encrypted_proto self_nums min_num items) ∧
      (self_nums * min_num ≤ items.length →
        ∀ slice ∈ itemsList items (self_nums * min_num), slice ≠ [])) := by
  refine ⟨⟨sumsOnce_atom hlimit hitems, ?_⟩, sumsOnce_pai_add henc hnums hmin sum hitems, ?_⟩
  · exact fun slice hslice => ne_nil_of_mem_atomSlices hlimit hslice
  · exact fun hle slice hslice => ne_nil_of_mem_itemsList (Nat.mul_pos hnums hmin) hle hslice

/-- Seven values in slices of three, and in six slices. -/
theorem sums_in_slices_seven :
    (SumsOnce (· + ·) [1, 2, 3, 4, 5, 6, 7] (atom_paillier_sum (· + ·) 3 [1, 2, 3, 4, 5, 6, 7]) ∧
      ∀ slice ∈ atomSlices 3 [1, 2, 3, 4, 5, 6, 7], slice ≠ []) ∧
    (SumsOnce (· + ·) [1, 2, 3, 4, 5, 6, 7]
        (pai_add (· + ·) List.sum (some "CRT") 2 3 [1, 2, 3, 4, 5, 6, 7]) ∧
      (2 * 3 ≤ [1, 2, 3, 4, 5, 6, 7].length →
        ∀ slice ∈ itemsList [1, 2, 3, 4, 5, 6, 7] (2 * 3), slice ≠ [])) :=
  sums_in_slices (C := ℕ) (· + ·) List.sum (List.cons_ne_nil _ _) rfl (by decide) (by decide)
    (by decide)

end Fediux.PaillierAdd
