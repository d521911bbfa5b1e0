import Fediux.Basic.Chunks
import Fediux.Basic.Missing
import Fediux.Xgboost.MyFit
import Fediux.Xgboost.RealChildren

set_option autoImplicit false

/-! # The sums of a training without ray

Without `ray_group` the guest adds up, for each cut of each column, the codes of the rows below the
cut (`sums_of_encrypted_ghs`, `map_gh`, `pai_add`), and the host is to decrypt the sums and to take
the right sides from the sums of the node (`gh_sums_decrypted`). The sums are right
(`gh_sums_decrypted_right`), but the call of the host binds the sums of the node to another
parameter, so that no node that is opened comes through.
-/

namespace Fediux.Xgboost

open Session Session.Prog Grouping

/-! ## The guest -/

/-- A row of the table `gh_sums`, with cells of the guest or numbers of the host. -/
structure GhSums (V C : Type) where
  G_left : C
  G_right : C
  H_left : C
  H_right : C
  var : V
  cut : ℚ

/-- A row of `gh_en`; merged codes have no column `h`. -/
structure EncRow where
  g : Cell
  h : Option Cell

/-- `functools.reduce` of the additions; an empty list is a `TypeError`. -/
def reduce : List Cell → Option Cell
  | [] => none
  | c :: cs => some (cs.foldl opt_paillier_add c)

/-- `ActorAdd.add`, which starts with `None`. -/
def add (values : List Cell) : Cell := (reduce values).getD .none

/-- The lists of the actors: the last one takes the rest. -/
def itemsList {α : Type} (items : List α) (nums : ℕ) : List (List α) :=
  let N := items.length / nums
  (List.range nums).map fun i =>
    if i = nums - 1 then items.drop (i * N) else (items.drop (i * N)).take N

/-- `PallierAdd.pai_add`, with `nums` as it is set in the constructor. -/
def pai_add (encrypted_proto : Option String) (nums : ℕ) (items : List Cell) : Option Cell :=
  if encrypted_proto.isSome then
    let nums := nums * 3
    if items.length < nums then reduce items else reduce ((itemsList items nums).map add)
  else some (items.foldl Cell.plus (.number 0))

/-- The entries of a column at the places where the column of the guest is below the cut. -/
def masked (col : List ℚ) (tmp_cut : ℚ) (cells : List Cell) : List Cell :=
  (col.zip cells).filterMap fun (x, c) => if x < tmp_cut then some c else none

section Guest

variable {Id V : Type} (P : TreeParams)

/-- `MapGH.map_gh` for one cut: the row, or none for a cut that is left out. -/
def map_cut (item : V) (col : List ℚ) (g h : List Cell) (tmp_cut : ℚ) :
    Option (Option (GhSums V Cell)) :=
  let less_sum := col.countP fun x => decide (x < tmp_cut)
  let great_sum := col.countP fun x => !decide (x < tmp_cut)
  if P.min_child_sample.any fun least =>
      decide (least ≠ 0 ∧ ((less_sum : ℤ) < least ∨ (great_sum : ℤ) < least)) then some none
  else
    (pai_add P.encrypted_proto 50 (masked col tmp_cut g)).bind fun tmp_g_left =>
      (pai_add P.encrypted_proto 50 (masked col tmp_cut h)).map fun tmp_h_left =>
        some { G_left := tmp_g_left, G_right := .number 0, H_left := tmp_h_left,
               H_right := .number 0, var := item, cut := tmp_cut }

def map_gh (item : V) (col cut_points : List ℚ) (g h : List Cell) :
    Option (List (GhSums V Cell)) :=
  (cut_points.mapM (map_cut P item col g h)).map List.reduceOption

/-- `np.unique` of a column. -/
def uniquePoints (col : List ℚ) : List ℚ := col.dedup.insertionSort (· ≤ ·)

def select (hist_points uniq_points : List ℚ) : List ℚ :=
  if hist_points.length < uniq_points.length then hist_points else uniq_points

/-- The ends of the bins of `np.histogram`. -/
abbrev Histogram := ℕ → List ℚ → List ℚ

/-- `log` of the number of rows has no integer part when there is no row, and merged codes have no
column `h`. -/
def sums_of_encrypted_ghs (histogram : Histogram) (columns : List V)
    (X_guest : Table Id (V → ℚ)) (encrypted_ghs : Table Id EncRow) :
    Option (List (GhSums V Cell)) :=
  if X_guest.index.length = 0 then none
  else
    (encrypted_ghs.index.mapM fun i => (encrypted_ghs.row i).h).bind fun h =>
      (columns.mapM fun item =>
        let col := X_guest.index.map fun i => X_guest.row i item
        map_gh P item col
          (select (histogram (bins exactArith X_guest.index.length) col) (uniquePoints col))
          (encrypted_ghs.index.map fun i => (encrypted_ghs.row i).g) h).map List.flatten

end Guest

/-! ## The host -/

section Host

variable {Id V : Type} (P : TreeParams)

/-- `gh.sum(axis=0)`. -/
def ghSum (gh : Table Id GradHess) : GradHess where
  g := sumOf (fun i => (gh.row i).g) gh.index
  h := sumOf (fun i => (gh.row i).h) gh.index

/-- What a cell of the table stands for, decrypted or as it is. -/
def cellValue (encrypted_proto : Option String) (c : Cell) : Option ℚ :=
  if encrypted_proto.isSome then (opt_paillier_decrypt_crt c).map fun m => (m : ℚ) / ratio
  else
    match c with
    | .number q => some q
    | _ => none

/-- `dec_gh_sums_df`; the right sides are filled in later. -/
def dec_gh_sums_df (encrypted_proto : Option String) (gh_sums : List (GhSums V Cell)) :
    Option (List (GhSums V ℚ)) :=
  gh_sums.mapM fun r =>
    (cellValue encrypted_proto r.G_left).bind fun G_left =>
      (cellValue encrypted_proto r.H_left).map fun H_left =>
        { G_left := G_left, G_right := 0, H_left := H_left, H_right := 0, var := r.var,
          cut := r.cut }

def right_sums (dec : List (GhSums V ℚ)) (plain_gh_sums : GradHess) : List (GhSums V ℚ) :=
  dec.map fun r =>
    { r with G_right := plain_gh_sums.g - r.G_left, H_right := plain_gh_sums.h - r.H_left }

/-- A row of `gh_en` in the loop of `VGBTHost.fit`. -/
def encodeRow (gh : GradHess) : EncRow :=
  if P.encrypted_proto.isSome then
    if P.merge_gh then
      { g := opt_paillier_encrypt_crt (P.encodeG gh * ratio + P.encodeH gh), h := none }
    else
      { g := opt_paillier_encrypt_crt (P.encodeG gh),
        h := some (opt_paillier_encrypt_crt (P.encodeH gh)) }
  else { g := .number gh.g, h := some (.number gh.h) }

/-- `gh_en`. -/
def encodeTable (gh : Table Id GradHess) : Table Id EncRow where
  index := gh.index
  row i := encodeRow P (gh.row i)

end Host

/-! ## The sums of the actors -/

section Add

variable {α : Type} (m : α → ℤ)

/-- **The sum of ciphertexts**; there is none of an empty list. -/
theorem reduce_cipher {rows : List α} (h : rows ≠ []) :
    reduce (rows.map fun r => .cipher (m r)) = some (.cipher (sumOf m rows)) := by
  cases rows with
  | nil => exact absurd rfl h
  | cons r rows => rw [List.map_cons, reduce, foldl_opt_paillier_add, sumOf_cons]

theorem itemsList_map {β : Type} (f : α → β) (rows : List α) (nums : ℕ) :
    itemsList (rows.map f) nums = (itemsList rows nums).map (List.map f) := by
  unfold itemsList
  rw [List.length_map, List.map_map]
  refine List.map_congr_left fun i _ => ?_
  show _ = List.map f (if i = nums - 1 then _ else _)
  split
  · rw [List.map_drop]
  · rw [List.map_take, List.map_drop]

theorem flatten_itemsList (rows : List α) {nums : ℕ} (hnums : 0 < nums) :
    (itemsList rows nums).flatten = rows := by
  obtain ⟨n, rfl⟩ : ∃ n, nums = n + 1 := ⟨nums - 1, by omega⟩
  have hblocks : (List.range n).map (fun i => if i = n + 1 - 1
        then rows.drop (i * (rows.length / (n + 1)))
        else (rows.drop (i * (rows.length / (n + 1)))).take (rows.length / (n + 1))) =
      (List.range n).map fun i =>
        (rows.drop (i * (rows.length / (n + 1)))).take (rows.length / (n + 1)) := by
    refine List.map_congr_left fun i hi => if_neg ?_
    have hlt := List.mem_range.mp hi
    omega
  unfold itemsList
  dsimp only
  rw [List.range_succ, List.map_append, hblocks, List.flatten_append,
    Chunks.flatten_wholeBlocks rows _ n]
  simp

theorem ne_nil_of_mem_itemsList {rows : List α} {nums : ℕ} (hnums : 0 < nums)
    (hle : nums ≤ rows.length) {l : List α} (hl : l ∈ itemsList rows nums) : l ≠ [] := by
  obtain ⟨i, hi, rfl⟩ := List.mem_map.mp hl
  have hlt := List.mem_range.mp hi
  have hN : 0 < rows.length / nums := Nat.div_pos hle hnums
  have hstart : i * (rows.length / nums) < rows.length := by
    calc i * (rows.length / nums) < nums * (rows.length / nums) :=
          Nat.mul_lt_mul_of_pos_right hlt hN
      _ ≤ rows.length := Nat.mul_div_le _ _
  split
  · exact fun h => absurd (List.drop_eq_nil_iff.mp h) (by omega)
  · intro h
    rcases List.take_eq_nil_iff.mp h with hzero | hdrop
    · omega
    · exact absurd (List.drop_eq_nil_iff.mp hdrop) (by omega)

theorem add_cipher {rows : List α} (h : rows ≠ []) :
    add (rows.map fun r => .cipher (m r)) = .cipher (sumOf m rows) := by
  rw [add, reduce_cipher m h, Option.getD_some]

theorem sumOf_flatten (ls : List (List α)) : sumOf m ls.flatten = sumOf (sumOf m) ls := by
  induction ls with
  | nil => rfl
  | cons l ls ih =>
      rw [List.flatten_cons, sumOf_cons, ← ih, sumOf, List.map_append, List.sum_append, sumOf,
        sumOf]

/-- **What `pai_add` makes of ciphertexts**, however many actors there are. -/
theorem pai_add_cipher {encrypted_proto : Option String} (henc : encrypted_proto.isSome)
    {nums : ℕ} (hnums : 0 < nums) {rows : List α} (h : rows ≠ []) :
    pai_add encrypted_proto nums (rows.map fun r => .cipher (m r)) =
      some (.cipher (sumOf m rows)) := by
  unfold pai_add
  dsimp only
  rw [if_pos henc, List.length_map]
  split
  · exact reduce_cipher m h
  · have hle : nums * 3 ≤ rows.length := by omega
    have hpos : 0 < nums * 3 := by omega
    have hsums : (itemsList (rows.map fun r => Cell.cipher (m r)) (nums * 3)).map add =
        (itemsList rows (nums * 3)).map fun l => .cipher (sumOf m l) := by
      rw [itemsList_map, List.map_map]
      exact List.map_congr_left fun l hl => add_cipher m (ne_nil_of_mem_itemsList hpos hle hl)
    have hne : itemsList rows (nums * 3) ≠ [] := by
      intro hnil
      have hflatten := flatten_itemsList rows hpos
      rw [hnil] at hflatten
      exact h hflatten.symm
    rw [hsums, reduce_cipher (sumOf m) hne, ← sumOf_flatten, flatten_itemsList rows hpos]

/-- An empty side of encrypted rows is an error. -/
theorem pai_add_nil {encrypted_proto : Option String} (henc : encrypted_proto.isSome) {nums : ℕ}
    (hnums : 0 < nums) : pai_add encrypted_proto nums [] = none := by
  unfold pai_add
  dsimp only
  rw [if_pos henc, List.length_nil, if_pos (by omega), reduce]

theorem foldl_plus (q : α → ℚ) (rows : List α) (acc : ℚ) :
    (rows.map fun r => Cell.number (q r)).foldl Cell.plus (.number acc) =
      .number (acc + sumOf q rows) := by
  induction rows generalizing acc with
  | nil => simp
  | cons r rows ih => rw [List.map_cons, List.foldl_cons, Cell.plus, ih, sumOf_cons, add_assoc]

theorem pai_add_number {encrypted_proto : Option String} (henc : ¬ encrypted_proto.isSome)
    (nums : ℕ) (q : α → ℚ) (rows : List α) :
    pai_add encrypted_proto nums (rows.map fun r => .number (q r)) =
      some (.number (sumOf q rows)) := by
  rw [pai_add, if_neg henc, foldl_plus, zero_add]

theorem cellValue_encrypted {encrypted_proto : Option String} (henc : encrypted_proto.isSome)
    (c : Cell) : cellValue encrypted_proto c =
      (opt_paillier_decrypt_crt c).map fun z => (z : ℚ) / ratio := by
  unfold cellValue
  exact if_pos henc

theorem cellValue_plain {encrypted_proto : Option String} (henc : ¬ encrypted_proto.isSome)
    {c : Cell} {q : ℚ} : cellValue encrypted_proto c = some q ↔ c = .number q := by
  unfold cellValue
  rw [if_neg henc]
  cases c <;> simp

theorem cellValue_cipher {encrypted_proto : Option String} (henc : encrypted_proto.isSome)
    {c : Cell} {q : ℚ} (h : cellValue encrypted_proto c = some q) :
    ∃ z : ℤ, c = .cipher z ∧ q = z / ratio := by
  rw [cellValue_encrypted henc] at h
  cases c with
  | cipher z =>
      cases h
      exact ⟨z, rfl, rfl⟩
  | _ => cases h

theorem sumOf_congr {f g : α → ℚ} {rows : List α} (h : ∀ r ∈ rows, f r = g r) :
    sumOf f rows = sumOf g rows :=
  congrArg List.sum (List.map_congr_left h)

/-- **The sum of a side** stands for the sum of what its cells stand for. -/
theorem cellValue_pai_add {encrypted_proto : Option String} {nums : ℕ} (hnums : 0 < nums)
    {cell : α → Cell} {value : α → ℚ} {rows : List α}
    (hcell : ∀ r ∈ rows, cellValue encrypted_proto (cell r) = some (value r))
    (hne : encrypted_proto.isSome → rows ≠ []) :
    ∃ c, pai_add encrypted_proto nums (rows.map cell) = some c ∧
      cellValue encrypted_proto c = some (sumOf value rows) := by
  by_cases henc : encrypted_proto.isSome
  · have hz : ∀ r ∈ rows, ∃ z : ℤ, cell r = .cipher z ∧ value r = z / ratio :=
      fun r hr => cellValue_cipher henc (hcell r hr)
    have hcells : rows.map cell =
        rows.map fun r => .cipher ((opt_paillier_decrypt_crt (cell r)).getD 0) := by
      refine List.map_congr_left fun r hr => ?_
      obtain ⟨z, hcipher, _⟩ := hz r hr
      rw [hcipher]
      rfl
    refine ⟨_, hcells ▸ pai_add_cipher _ henc hnums (hne henc), ?_⟩
    rw [cellValue_encrypted henc]
    refine congrArg some ?_
    calc ((sumOf (fun r => (opt_paillier_decrypt_crt (cell r)).getD 0) rows : ℤ) : ℚ) / ratio
        = sumOf (fun r => (((opt_paillier_decrypt_crt (cell r)).getD 0 : ℤ) : ℚ)) rows / ratio :=
          congrArg (· / (ratio : ℚ)) (sumOf_hom (Int.castAddHom ℚ) _ rows).symm
      _ = sumOf (fun r => (((opt_paillier_decrypt_crt (cell r)).getD 0 : ℤ) : ℚ) / ratio) rows :=
          (sumOf_div _ _ rows).symm
      _ = sumOf value rows := by
          refine sumOf_congr fun r hr => ?_
          obtain ⟨z, hcipher, hvalue⟩ := hz r hr
          rw [hcipher, hvalue]
          rfl
  · have hcells : rows.map cell = rows.map fun r => .number (value r) := by
      refine List.map_congr_left fun r hr => ?_
      exact (cellValue_plain henc).mp (hcell r hr)
    exact ⟨_, hcells ▸ pai_add_number henc nums value rows, (cellValue_plain henc).mpr rfl⟩

end Add

/-! ## The rows of the table -/

section Rows

variable {Id V : Type} {P : TreeParams}

/-- The codes of a row are exact: encrypted gradients are not merged, and are whole numbers of
steps. -/
def Exact (P : TreeParams) (gh : GradHess) : Prop :=
  P.encrypted_proto.isSome →
    P.merge_gh = false ∧ (∃ z : ℤ, gh.g * ratio = z) ∧ ∃ z : ℤ, gh.h * ratio = z

theorem encodeRow_exact {gh : GradHess} (h : Exact P gh) :
    cellValue P.encrypted_proto (encodeRow P gh).g = some gh.g ∧
      ∃ c, (encodeRow P gh).h = some c ∧ cellValue P.encrypted_proto c = some gh.h := by
  by_cases henc : P.encrypted_proto.isSome
  · obtain ⟨hmerge, ⟨zg, hg⟩, zh, hh⟩ := h henc
    have hcarriedG : P.carriedG gh = gh.g := Params.carriedG_eq (by simpa [Params.grid, hmerge])
    have hcarriedH : P.carriedH gh = gh.h := Params.carriedH_eq (by simpa [Params.grid, hmerge])
    rw [Params.carriedG, if_pos henc, hmerge] at hcarriedG
    rw [Params.carriedH, if_pos henc, hmerge] at hcarriedH
    rw [encodeRow, if_pos henc, hmerge]
    refine ⟨?_, _, rfl, ?_⟩
    · rw [cellValue_encrypted henc]
      exact congrArg some hcarriedG
    · rw [cellValue_encrypted henc]
      exact congrArg some hcarriedH
  · rw [encodeRow, if_neg henc]
    exact ⟨(cellValue_plain henc).mpr rfl, _, rfl, (cellValue_plain henc).mpr rfl⟩

theorem masked_map (ids : List Id) (x : Id → ℚ) (cell : Id → Cell) (tmp_cut : ℚ) :
    masked (ids.map x) tmp_cut (ids.map cell) =
      (ids.filter fun i => decide (x i < tmp_cut)).map cell := by
  unfold masked
  induction ids with
  | nil => rfl
  | cons i ids ih =>
      rw [List.map_cons, List.map_cons, List.zip_cons_cons, List.filterMap_cons, ih]
      by_cases hlt : x i < tmp_cut
      · simp [hlt]
      · simp [hlt]

/-- The left sums stand for those of the rows below the cut. -/
structure GhSums.LeftRight (encrypted_proto : Option String) (X_guest : Table Id (V → ℚ))
    (gh : Table Id GradHess) (r : GhSums V Cell) : Prop where
  G_left : cellValue encrypted_proto r.G_left =
    some (sumOf (fun i => (gh.row i).g) (X_guest.less r.var r.cut))
  H_left : cellValue encrypted_proto r.H_left =
    some (sumOf (fun i => (gh.row i).h) (X_guest.less r.var r.cut))

/-- The sums are those of the rows of the node on both sides of the cut. -/
structure GhSums.Right (X_guest : Table Id (V → ℚ)) (gh : Table Id GradHess) (r : GhSums V ℚ) :
    Prop where
  G_left : r.G_left = sumOf (fun i => (gh.row i).g) (X_guest.less r.var r.cut)
  H_left : r.H_left = sumOf (fun i => (gh.row i).h) (X_guest.less r.var r.cut)
  G_right : r.G_right = sumOf (fun i => (gh.row i).g) (X_guest.notLess r.var r.cut)
  H_right : r.H_right = sumOf (fun i => (gh.row i).h) (X_guest.notLess r.var r.cut)

variable {X_guest : Table Id (V → ℚ)} {gh : Table Id GradHess} {least : ℤ}

/-- With at least one row on each side no cut fails. -/
theorem map_cut_right (hleast : P.min_child_sample = some least) (hpos : 1 ≤ least)
    {g h : Id → Cell}
    (hg : ∀ i ∈ X_guest.index, cellValue P.encrypted_proto (g i) = some (gh.row i).g)
    (hh : ∀ i ∈ X_guest.index, cellValue P.encrypted_proto (h i) = some (gh.row i).h)
    (item : V) (tmp_cut : ℚ) :
    ∃ o, map_cut P item (X_guest.index.map fun i => X_guest.row i item) (X_guest.index.map g)
        (X_guest.index.map h) tmp_cut = some o ∧
      ∀ r ∈ o, r.LeftRight P.encrypted_proto X_guest gh := by
  unfold map_cut
  dsimp only
  split
  · exact ⟨none, rfl, fun r hr => by cases hr⟩
  · rename_i hkept
    have hcount : (X_guest.index.map fun i => X_guest.row i item).countP
        (fun x => decide (x < tmp_cut)) = (X_guest.less item tmp_cut).length := by
      rw [List.countP_map, List.countP_eq_length_filter]
      rfl
    have hne : X_guest.less item tmp_cut ≠ [] := by
      intro hnil
      rw [hleast, hcount, hnil] at hkept
      simp only [Option.any_some, decide_eq_true_eq, not_and_or, not_or, not_not,
        List.length_nil] at hkept
      omega
    have hmem : ∀ i ∈ X_guest.less item tmp_cut, i ∈ X_guest.index :=
      fun i hi => List.mem_of_mem_filter hi
    obtain ⟨c, hc, hvalue⟩ := cellValue_pai_add (by decide : 0 < 50)
      (fun i hi => hg i (hmem i hi)) fun _ => hne
    obtain ⟨c', hc', hvalue'⟩ := cellValue_pai_add (by decide : 0 < 50)
      (fun i hi => hh i (hmem i hi)) fun _ => hne
    rw [masked_map, masked_map]
    rw [Table.less] at hc hc'
    rw [hc, hc']
    refine ⟨_, rfl, fun r hr => ?_⟩
    cases hr
    exact ⟨hvalue, hvalue'⟩

/-- **The table of the guest**: no candidate fails, and the left sums are those of its rows. -/
theorem sums_of_encrypted_ghs_right (hleast : P.min_child_sample = some least) (hpos : 1 ≤ least)
    (hindex : gh.index = X_guest.index) (hne : X_guest.index ≠ [])
    (hexact : ∀ i ∈ X_guest.index, Exact P (gh.row i)) (histogram : Histogram)
    (columns : List V) :
    ∃ sums, sums_of_encrypted_ghs P histogram columns X_guest (encodeTable P gh) = some sums ∧
      ∀ r ∈ sums, r.LeftRight P.encrypted_proto X_guest gh := by
  have hh : ∀ i ∈ gh.index, ∃ c, (encodeRow P (gh.row i)).h = some c ∧
      cellValue P.encrypted_proto c = some (gh.row i).h :=
    fun i hi => (encodeRow_exact (hexact i (hindex ▸ hi))).2
  obtain ⟨hs, hhs⟩ : ∃ h : Id → Cell, ∀ i ∈ gh.index, (encodeRow P (gh.row i)).h = some (h i) ∧
      cellValue P.encrypted_proto (h i) = some (gh.row i).h := by
    refine ⟨fun i => ((encodeRow P (gh.row i)).h).getD .none, fun i hi => ?_⟩
    obtain ⟨c, hc, hvalue⟩ := hh i hi
    simp only [hc, Option.getD_some, true_and, hvalue]
  have hcolumn : (gh.index.mapM fun i => (encodeRow P (gh.row i)).h) = some (gh.index.map hs) :=
    Missing.mapM_of_some fun i hi => (hhs i hi).1
  have hmap : ∀ item ∈ columns, ∃ rows,
      map_gh P item (X_guest.index.map fun i => X_guest.row i item)
        (select (histogram (bins exactArith X_guest.index.length)
            (X_guest.index.map fun i => X_guest.row i item))
          (uniquePoints (X_guest.index.map fun i => X_guest.row i item)))
        (X_guest.index.map fun i => (encodeRow P (gh.row i)).g) (X_guest.index.map hs) =
          some rows ∧ ∀ r ∈ rows, r.LeftRight P.encrypted_proto X_guest gh := by
    intro item _
    obtain ⟨os, hos, hright⟩ := Missing.mapM_forall fun tmp_cut _ =>
      map_cut_right hleast hpos (g := fun i => (encodeRow P (gh.row i)).g) (h := hs)
        (fun i hi => (encodeRow_exact (hexact i hi)).1)
        (fun i hi => (hhs i (hindex ▸ hi)).2) item tmp_cut
    refine ⟨os.reduceOption, congrArg (Option.map _) hos, fun r hr => ?_⟩
    exact hright (some r) (List.reduceOption_mem_iff.mp hr) r rfl
  obtain ⟨tables, htables, hright⟩ := Missing.mapM_forall hmap
  refine ⟨tables.flatten, ?_, fun r hr => ?_⟩
  · unfold sums_of_encrypted_ghs
    rw [if_neg fun h => hne (List.length_eq_zero_iff.mp h)]
    show (gh.index.mapM fun i => (encodeRow P (gh.row i)).h).bind _ = _
    rw [hcolumn, Option.bind_some]
    dsimp only
    show (columns.mapM fun item => map_gh P item _ _
      (gh.index.map fun i => (encodeRow P (gh.row i)).g) _).map List.flatten = _
    rw [hindex, htables, Option.map_some]
  · obtain ⟨table, htable, hr⟩ := List.mem_flatten.mp hr
    exact hright table htable r hr

end Rows

/-! ## What the host has -/

section Decrypted

variable {Id V : Type} {P : TreeParams} {X_guest : Table Id (V → ℚ)} {gh : Table Id GradHess}

/-- The kernels of a training without ray: the parts with ray are not reached. -/
def Kernels.withoutRay
    (K : Kernels Id V ℚ GradHess EncRow (List (GhSums V Cell)) (List (GhSums V ℚ)))
    (P : TreeParams) (histogram : Histogram) (columns : List V) :
    Kernels Id V ℚ GradHess EncRow (List (GhSums V Cell)) (List (GhSums V ℚ)) :=
  { K with
    sums_of_encrypted_ghs := Xgboost.sums_of_encrypted_ghs P histogram columns
    sum := ghSum
    dec_gh_sums_df := Xgboost.dec_gh_sums_df
    right_sums := fun dec plain => some (Xgboost.right_sums dec plain) }

theorem sumOf_less_add_notLess (f : Id → ℚ) (var : V) (cut : ℚ) :
    sumOf f (X_guest.less var cut) + sumOf f (X_guest.notLess var cut) =
      sumOf f X_guest.index := by
  unfold sumOf
  rw [← List.sum_append, ← List.map_append]
  exact ((List.filter_append_perm _ _).map f).sum_eq

/-- **With the sums of the node under their name** the host has the sums of both sides. -/
theorem gh_sums_decrypted_right {least : ℤ} (hleast : P.min_child_sample = some least)
    (hpos : 1 ≤ least) (hindex : gh.index = X_guest.index) (hne : X_guest.index ≠ [])
    (hexact : ∀ i ∈ X_guest.index, Exact P (gh.row i))
    (K : Kernels Id V ℚ GradHess EncRow (List (GhSums V Cell)) (List (GhSums V ℚ)))
    (histogram : Histogram) (columns : List V) :
    ∃ sums dec, sums_of_encrypted_ghs P histogram columns X_guest (encodeTable P gh) = some sums ∧
      gh_sums_decrypted P (K.withoutRay P histogram columns) sums (.number 50) (some (ghSum gh)) =
        some dec ∧ ∀ r ∈ dec, r.Right X_guest gh := by
  obtain ⟨sums, hsums, hleft⟩ :=
    sums_of_encrypted_ghs_right hleast hpos hindex hne hexact histogram columns
  have hrow : ∀ r ∈ sums, ∃ r' : GhSums V ℚ,
      ((cellValue P.encrypted_proto r.G_left).bind fun G_left =>
        (cellValue P.encrypted_proto r.H_left).map fun H_left =>
          ({ G_left := G_left, G_right := 0, H_left := H_left, H_right := 0, var := r.var,
             cut := r.cut } : GhSums V ℚ)) = some r' ∧
      r'.G_left = sumOf (fun i => (gh.row i).g) (X_guest.less r'.var r'.cut) ∧
        r'.H_left = sumOf (fun i => (gh.row i).h) (X_guest.less r'.var r'.cut) := by
    intro r hr
    rw [(hleft r hr).G_left, (hleft r hr).H_left]
    exact ⟨_, rfl, rfl, rfl⟩
  obtain ⟨dec, hdec, hdecLeft⟩ := Missing.mapM_forall hrow
  refine ⟨sums, right_sums dec (ghSum gh), hsums, ?_, fun r hr => ?_⟩
  · have hcall : gh_sums_decrypted P (K.withoutRay P histogram columns) sums (.number 50)
        (some (ghSum gh)) = (dec_gh_sums_df P.encrypted_proto sums).bind fun dec =>
          some (right_sums dec (ghSum gh)) := by
      unfold gh_sums_decrypted
      cases hproto : P.encrypted_proto with
      | none => rfl
      | some proto => rfl
    rw [hcall, dec_gh_sums_df, hdec, Option.bind_some]
  · obtain ⟨r', hr', rfl⟩ := List.mem_map.mp hr
    obtain ⟨hG, hH⟩ := hdecLeft r' hr'
    refine ⟨hG, hH, ?_, ?_⟩
    · show sumOf (fun i => (gh.row i).g) gh.index - r'.G_left =
        sumOf (fun i => (gh.row i).g) (X_guest.notLess r'.var r'.cut)
      rw [hG, hindex, ← sumOf_less_add_notLess _ r'.var r'.cut, add_sub_cancel_left]
    · show sumOf (fun i => (gh.row i).h) gh.index - r'.H_left =
        sumOf (fun i => (gh.row i).h) (X_guest.notLess r'.var r'.cut)
      rw [hH, hindex, ← sumOf_less_add_notLess _ r'.var r'.cut, add_sub_cancel_left]

end Decrypted

/-! ## The nodes of a training -/

section Training

variable {Id V E S : Type}
variable (P : TreeParams) (K : Kernels Id V ℚ GradHess E S (List (GhSums V ℚ)))

/-- From the node on, the numeric work raises no error at the nodes that are opened, and the host
has the sums of both sides for every candidate. -/
inductive NodesRight : ℕ → Table Id (V → ℚ) → Table Id GradHess → Table Id (V → ℚ) →
    Table Id E → Prop where
  | stop {d : ℕ} {X_host : Table Id (V → ℚ)} {gh : Table Id GradHess}
      {X_guest : Table Id (V → ℚ)} {encrypted_ghs : Table Id E}
      (h : stops P X_host.index.length d = some true) :
      NodesRight d X_host gh X_guest encrypted_ghs
  | node {d : ℕ} {X_host : Table Id (V → ℚ)} {gh : Table Id GradHess}
      {X_guest : Table Id (V → ℚ)} {encrypted_ghs : Table Id E} {sums : S}
      {dec : List (GhSums V ℚ)} {host_best : Option (HostBest V ℚ)}
      {guest_best : Option (GuestBest V ℚ)} (h : stops P X_host.index.length d = some false)
      (hsums : K.sums_of_encrypted_ghs X_guest encrypted_ghs = some sums)
      (hdec : dec_guest_gh_sums P K sums (K.sum gh) = some dec)
      (hright : ∀ r ∈ dec, r.Right X_guest gh)
      (hhost : host_best_cut P K X_host gh = some host_best)
      (hguest : K.guest_best_cut dec = some guest_best)
      (left : ∀ w, winner host_best guest_best = some w →
        NodesRight (d + 1) (X_host.restrict (w.idsW K X_host X_guest).id_left)
          (gh.restrict (w.idsW K X_host X_guest).id_left)
          (X_guest.restrict (w.idsW K X_host X_guest).id_left)
          (encrypted_ghs.restrict (w.idsW K X_host X_guest).id_left))
      (right : ∀ w, winner host_best guest_best = some w →
        NodesRight (d + 1) (X_host.restrict (w.idsW K X_host X_guest).id_right)
          (gh.restrict (w.idsW K X_host X_guest).id_right)
          (X_guest.restrict (w.idsW K X_host X_guest).id_right)
          (encrypted_ghs.restrict (w.idsW K X_host X_guest).id_right)) :
      NodesRight d X_host gh X_guest encrypted_ghs

variable {P K}

/-- **No node that is opened without ray is right**: the host has no sums. -/
theorem nodesRight_iff (hray : P.ray_group = false) {d : ℕ} {X_host X_guest : Table Id (V → ℚ)}
    {gh : Table Id GradHess} {encrypted_ghs : Table Id E} :
    NodesRight P K d X_host gh X_guest encrypted_ghs ↔
      stops P X_host.index.length d = some true := by
  constructor
  · intro h
    cases h with
    | stop h => exact h
    | node _ _ hdec =>
        have hoff : ¬ P.ray_group = true := by simp [hray]
        rw [dec_guest_gh_sums_none hoff] at hdec
        cases hdec
  · exact .stop

end Training

section Fit

variable {Id V : Type} [DecidableEq Id] {P : TreeParams}
variable (K : Kernels Id V ℚ GradHess EncRow (List (GhSums V Cell)) (List (GhSums V ℚ)))
variable (histogram : Histogram) (columns : List V) {host_data guest_data : Table Id (V → ℚ)}

/-- The rounds of `VGBTHost.fit`, from the sampled gradients of each. -/
def roundsOf (P : TreeParams) (ghs : List (Table Id GradHess)) : List (Round Id GradHess EncRow) :=
  ghs.map fun gh => { sample_gh := gh, gh_en := encodeTable P gh }

/-- **A training without ray**: the exchange comes to its end, with the sums of both sides at each
node, just when no round opens its first node. -/
theorem fit_withoutRay_iff (hray : P.ray_group = false)
    (hindex : guest_data.index = host_data.index) (ghs : List (Table Id GradHess))
    (hsampled : ∀ gh ∈ ghs, ∀ i ∈ gh.index, i ∈ host_data.index) :
    (RunsTogether
        (host_fit P (K.withoutRay P histogram columns) host_data (roundsOf P ghs) .empty)
        (guest_fit P (K.withoutRay P histogram columns) guest_data ghs.length .empty)
        (fun _ _ => True) ∧
      ∀ gh ∈ ghs, NodesRight P (K.withoutRay P histogram columns) 0 (host_data.restrict gh.index)
        gh (guest_data.restrict gh.index) (encodeTable P gh)) ↔
    ∀ gh ∈ ghs, stops P gh.index.length 0 = some true := by
  have hnodes : (∀ gh ∈ ghs, NodesRight P (K.withoutRay P histogram columns) 0
      (host_data.restrict gh.index) gh (guest_data.restrict gh.index) (encodeTable P gh)) ↔
      ∀ gh ∈ ghs, stops P gh.index.length 0 = some true :=
    forall₂_congr fun gh _ => nodesRight_iff hray
  rw [hnodes, and_iff_right_iff_imp]
  intro hstop
  have hrounds : ∀ round ∈ roundsOf P ghs,
      RoundComputes P (K.withoutRay P histogram columns) host_data guest_data round := by
    intro round hround
    obtain ⟨gh, hgh, rfl⟩ := List.mem_map.mp hround
    exact ⟨hsampled gh hgh, rfl, .stop (hstop gh hgh)⟩
  obtain ⟨es, trees, sh, sg, hes, _⟩ := lockstep_fit hindex (roundsOf P ghs) hrounds .empty .empty
    fun role => by cases role <;> rfl
  rw [roundsOf, List.length_map] at hes
  exact hes.runsTogether trivial

end Fit

/-! ## Two rows -/

/-- Statistics without encryption, for nodes of at least `min_child_sample` rows. -/
def plainParams (min_child_sample : ℤ) : TreeParams where
  merge_gh := false
  encrypted_proto := none
  ray_group := false
  max_depth := 3
  min_child_sample := some min_child_sample

/-- The column `age` with the values 0 and 1. -/
def ageTable : Table ℕ (String → ℚ) where
  index := [0, 1]
  row i _ := i

def ageGh : Table ℕ GradHess where
  index := [0, 1]
  row i := { g := i, h := 1 }

/-- No party finds a cut. -/
def noCuts : Kernels ℕ String ℚ GradHess EncRow (List (GhSums String Cell))
    (List (GhSums String ℚ)) where
  search_best_splits _ _ := some none
  sums_of_encrypted_ghs_with_ray _ _ := none
  sums_of_encrypted_ghs _ _ := none
  sum := ghSum
  gh_sums_decrypted_with_ray _ _ := none
  dec_gh_sums_df _ _ := none
  right_sums _ _ := none
  guest_best_cut _ := some none
  leaf_weight G H := -G / (H + 1)

def noHistogram : Histogram := fun _ _ => []

/-- With two rows and at least three to a node no node is opened. -/
theorem fit_withoutRay_small :
    RunsTogether
        (host_fit (plainParams 3) (noCuts.withoutRay (plainParams 3) noHistogram ["age"]) ageTable
          (roundsOf (plainParams 3) [ageGh]) .empty)
        (guest_fit (plainParams 3) (noCuts.withoutRay (plainParams 3) noHistogram ["age"]) ageTable
          1 .empty)
        (fun _ _ => True) ∧
      ∀ gh ∈ [ageGh], NodesRight (plainParams 3)
        (noCuts.withoutRay (plainParams 3) noHistogram ["age"]) 0 (ageTable.restrict gh.index) gh
        (ageTable.restrict gh.index) (encodeTable (plainParams 3) gh) := by
  refine (fit_withoutRay_iff noCuts noHistogram ["age"] rfl rfl [ageGh] ?_).mpr ?_
  · intro gh hgh i hi
    cases List.mem_singleton.mp hgh
    exact hi
  · intro gh hgh
    cases List.mem_singleton.mp hgh
    decide

/-- With one row to a node the host raises an error at the first node, whatever the cuts are. -/
theorem not_runsTogether_withoutRay :
    ¬ RunsTogether
        (host_tree_construct (plainParams 1)
          (noCuts.withoutRay (plainParams 1) noHistogram ["age"]) .empty (fun _ => 0) ageTable 0
          ageGh)
        (guest_tree_construct (plainParams 1)
          (noCuts.withoutRay (plainParams 1) noHistogram ["age"]) .empty ageTable
          (encodeTable (plainParams 1) ageGh) 0)
        (fun _ _ => True) ∧
      ¬ NodesRight (plainParams 1) (noCuts.withoutRay (plainParams 1) noHistogram ["age"]) 0
        ageTable ageGh ageTable (encodeTable (plainParams 1) ageGh) := by
  have hopen : stops (plainParams 1) ageTable.index.length 0 = some false := by decide
  have halign : Aligned ageTable ageGh ageTable (encodeTable (plainParams 1) ageGh) :=
    ⟨rfl, rfl, rfl⟩
  constructor
  · exact not_runsTogether_of_not_ray_group rfl hopen halign fun role => by
      cases role <;> rfl
  · rw [nodesRight_iff rfl, hopen]
    decide

end Fediux.Xgboost
