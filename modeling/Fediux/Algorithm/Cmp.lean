import Fediux.Algorithm.Arithmetic
import Fediux.Operator.Compare

set_option autoImplicit false

/-! # Comparing the columns of two parties

A task of `ArithmeticExecutor` whose expression is `CMP(a,b)`. Every party takes the names of
the columns from the text, loads its table, and calls `MPC_Compare` with its column if it owns
one of the two. The parties of the task learn one bit for each row. `revealsOrder_iff` says
for which owners and values these bits are right.
-/

namespace Fediux.Cmp

open OrderedMap (Entries find? emplace erase)
open Replicated (Party)
open Express (Str)
open Arithmetic
open Compare

/-! ## The columns in the text -/

/-- `substr`, where a negative count is the rest of the text. -/
def substr (s : Str) (pos : Nat) (count : Int) : Option Str :=
  if s.length < pos then none
  else if count < 0 then some (s.drop pos)
  else some ((s.drop pos).take count.toNat)

/-- `find(",")` as an `int`. -/
def commaIndex (expr : Str) : Int :=
  match expr.findIdx? (· == ',') with
  | some i => i
  | none => -1

/-- `cmp_col1` and `cmp_col2`. -/
def cmpColumns (expr : Str) : Option (Str × Str) := do
  let cmpCol1 ← substr expr 4 (commaIndex expr - 4)
  let cmpCol2 ← substr expr (commaIndex expr + 1).toNat (expr.length - commaIndex expr - 2)
  return (cmpCol1, cmpCol2)

def isCmp (expr : Str) : Bool := expr.take 3 == ['C', 'M', 'P']

/-! ## A party -/

/-- The task of the three parties. The result is revealed to `parties`, at least one. -/
structure CmpTask where
  partyName : Party → Str
  colAndOwner : Entries Str Party
  colAndDtype : Entries Str Bool
  expr : Str
  parties : List Party
  parties_ne_nil : parties ≠ []

def CmpTask.executor (t : CmpTask) (p : Party) : ArithmeticExecutor where
  partyId := p
  partyName := t.partyName p
  colAndOwner := t.colAndOwner
  colAndDtype := t.colAndDtype
  expr := t.expr

variable {F : Type} (toDouble : I64 → F) (encode : F → I64)

/-- The column of integers is converted by its owner. -/
def convertColumn (ex : ArithmeticExecutor) (convertCol : Str) (l : ColAndVal F) :
    Except Fault (ColAndVal F) :=
  match find? ex.colAndOwner convertCol with
  | none => .error (.exception ("Party: " ++ String.ofList ex.partyName ++
      ", Can't find the party that column " ++ String.ofList convertCol ++ " belong to."))
  | some owner =>
      if ex.partyId ≠ owner then .ok l
      else
        match find? l.int convertCol with
        | none => .error (.exception ("Party: " ++ String.ofList ex.partyName ++ ", " ++
            "Can't find column value with column name " ++ String.ofList convertCol ++ "."))
        | some colSrc => .ok
            { int := erase l.int convertCol
              double := emplace l.double convertCol (colSrc.map toDouble) }

/-- `loadDataset` where `is_cmp`: `i64_cmp` and the values. -/
def loadCmpDataset (ex : ArithmeticExecutor) (cmpCol1 cmpCol2 : Str)
    (table : List (ArrowColumn F)) : Except Fault (Option (Bool × ColAndVal F)) := do
  let (ret, l) ← LoadDatasetFromCSV toDouble ex table
  if ret ≤ 0 then return none
  match find? ex.colAndDtype cmpCol1 with
  | none => .error (.exception ("Can't find dtype of column " ++ String.ofList cmpCol1 ++ "."))
  | some dtype1 =>
    match find? ex.colAndDtype cmpCol2 with
    | none => .error (.exception ("Can't find dtype of column " ++ String.ofList cmpCol1 ++ "."))
    | some dtype2 =>
      if dtype1 = dtype2 then return some (!dtype1, l)
      let convertCol := if dtype1 = false then cmpCol1 else cmpCol2
      return some (false, ← convertColumn toDouble ex convertCol l)

/-- The words of the matrix that is filled from a column. -/
def cmpWords (i64Cmp : Bool) (l : ColAndVal F) (col : Str) : List I64 :=
  if i64Cmp then (find? l.int col).getD [] else ((find? l.double col).getD []).map encode

/-- The words that a party compares; a column without an owner is taken for that of party 0. -/
def cmpValue (ex : ArithmeticExecutor) (cmpCol1 cmpCol2 : Str) (v : Bool × ColAndVal F) :
    Option (List I64) :=
  if (find? ex.colAndOwner cmpCol1).getD 0 = ex.partyId then
    some (cmpWords encode v.1 v.2 cmpCol1)
  else if (find? ex.colAndOwner cmpCol2).getD 0 = ex.partyId then
    some (cmpWords encode v.1 v.2 cmpCol2)
  else none

/-! ## The three parties together -/

/-- `m.resize(1, count)`. -/
def rowMatrix (xs : List I64) (h : xs.length < 2 ^ 63) : I64Matrix where
  shape := ⟨1, xs.length⟩
  data := xs
  size_eq := (Nat.one_mul _).symm
  rows_lt := by norm_num
  cols_lt := h
  size_lt := by rwa [Nat.one_mul]

/-- The matrix of a party, where its columns can be counted. -/
def cmpMatrix : Option (List I64) → Except Fault (Option I64Matrix)
  | none => .ok none
  | some xs => if h : xs.length < 2 ^ 63 then .ok (some (rowMatrix xs h)) else .error .outOfRange

/-- The reveals to the parties of the task, and `cmp_res_` of every party. -/
def revealTo (sh3 : Sh3Bin) (shRes : Party → SbMatrix) :
    List Party → (Party → List Bool) × sh3.Runtime → (Party → List Bool) × sh3.Runtime
  | [], s => s
  | party :: parties, (cmpRes, r) =>
      let (tmp, r) := sh3.reveal r party shRes
      revealTo sh3 shRes parties
        (Function.update cmpRes party (cmpRes party ++ tmp.map (· != 0)), r)

/-- `execute` at the three parties. -/
def execute (sh3 : Sh3Bin) (r : sh3.Runtime) (parties : List Party)
    (value : Party → Option (List I64)) : Except Fault (Party → List Bool) := do
  let m0 ← cmpMatrix (value 0)
  let m1 ← cmpMatrix (value 1)
  let m2 ← cmpMatrix (value 2)
  let out ← MPC_Compare sh3 r (atParties m0 m1 m2)
  return (revealTo sh3 out.shRes parties (fun _ => [], out.runtime)).1

/-- `loadDataset` and `execute` at the three parties; `none` is a return code `-1`. -/
def run (sh3 : Sh3Bin) (r : sh3.Runtime) (t : CmpTask)
    (table : Party → List (ArrowColumn F)) : Except Fault (Option (Party → List Bool)) := do
  match cmpColumns t.expr with
  | none => return none
  | some (cmpCol1, cmpCol2) =>
      let load (p : Party) := loadCmpDataset toDouble (t.executor p) cmpCol1 cmpCol2 (table p)
      match ← load 0, ← load 1, ← load 2 with
      | some v0, some v1, some v2 =>
          let value (p : Party) :=
            cmpValue encode (t.executor p) cmpCol1 cmpCol2 (atParties v0 v1 v2 p)
          return some (← execute sh3 r t.parties value)
      | _, _, _ => return none

/-! ## The text `CMP(a,b)` -/

/-- The text of the comparison of two columns. -/
def render (a b : Str) : Str := ['C', 'M', 'P', '('] ++ a ++ [','] ++ b ++ [')']

theorem commaIndex_render {a : Str} (ha : ',' ∉ a) (b : Str) :
    commaIndex (render a b) = a.length + 4 := by
  have hnone : a.findIdx? (· == ',') = none := by
    rw [List.findIdx?_eq_none_iff]
    intro x hx
    have hne : x ≠ ',' := fun h => ha (h ▸ hx)
    simpa using hne
  have hrender : (render a b).findIdx? (· == ',') = some (a.length + 4) := by
    simp [render, List.findIdx?_cons, List.findIdx?_append, hnone]
  rw [commaIndex, hrender]
  push_cast
  ring

/-- The operands are taken in the order of the text. -/
theorem cmpColumns_render {a : Str} (ha : ',' ∉ a) (b : Str) :
    isCmp (render a b) = true ∧ cmpColumns (render a b) = some (a, b) := by
  refine ⟨rfl, ?_⟩
  have hlen : (render a b).length = a.length + b.length + 6 := by
    simp [render]
    omega
  have hfirst : substr (render a b) 4 (a.length + 4 - 4) = some a := by
    rw [substr, if_neg (by omega), if_neg (by omega)]
    have hcount : ((a.length : Int) + 4 - 4).toNat = a.length := by omega
    rw [hcount]
    simp [render]
  have hsecond : substr (render a b) ((a.length : Int) + 4 + 1).toNat
      ((render a b).length - (a.length + 4) - 2) = some b := by
    have hpos : ((a.length : Int) + 4 + 1).toNat = (['C', 'M', 'P', '('] ++ a ++ [',']).length := by
      simp
      omega
    have hcount : (((render a b).length : Int) - (a.length + 4) - 2).toNat = b.length := by
      omega
    rw [substr, if_neg (by omega), if_neg (by omega), hcount, hpos]
    have hassoc : render a b = (['C', 'M', 'P', '('] ++ a ++ [',']) ++ (b ++ [')']) := by
      simp [render]
    rw [hassoc, List.drop_left]
    simp
  rw [cmpColumns, commaIndex_render ha, hfirst, hsecond]
  rfl

/-! ## What the owners share -/

/-- The numbers of a column, `rat` being the value of a double. -/
def numbers (rat : F → ℚ) : ColumnData F → List ℚ
  | .int64 chunks => chunks.flatten.map fun x => (x.toInt : ℚ)
  | .double chunks => chunks.flatten.map rat
  | .other _ => []

/-- The words of a column in a comparison. -/
def columnWords (i64Cmp : Bool) (data : ColumnData F) : List I64 :=
  if i64Cmp then data.ints.getD [] else ((data.doubles toDouble).getD []).map encode

/-- Both columns are declared as integers. -/
def i64Cmp (t : CmpTask) (cmpCol1 cmpCol2 : Str) : Bool :=
  find? t.colAndDtype cmpCol1 == some false && find? t.colAndDtype cmpCol2 == some false

/-- After the conversion the owner of a column has it among the doubles. -/
theorem convertColumn_eq_ok {t : CmpTask} {p : Party} {convertCol : Str} {l l' : ColAndVal F}
    (h : convertColumn toDouble (t.executor p) convertCol l = .ok l') {c : Str}
    (howner : find? t.colAndOwner c = some p) {xs : Option (List F)}
    (hother : c ≠ convertCol → find? l.double c = xs)
    (hconvert : c = convertCol →
      find? l.double c = none ∧ (find? l.int c).map (List.map toDouble) = xs) :
    find? l'.double c = xs := by
  unfold convertColumn at h
  by_cases hc : c = convertCol
  · subst hc
    obtain ⟨hnone, hints⟩ := hconvert rfl
    have howner' : find? (t.executor p).colAndOwner c = some p := howner
    have hparty : (t.executor p).partyId = p := rfl
    simp only [howner', hparty, ne_eq, not_true, if_false] at h
    split at h
    · cases h
    · rename_i colSrc hcolSrc
      cases h
      rw [OrderedMap.find?_emplace, if_pos rfl, hnone, ← hints, hcolSrc]
      rfl
  · split at h
    · cases h
    · split at h
      · cases h
        exact hother hc
      · split at h
        · cases h
        · cases h
          rw [OrderedMap.find?_emplace, if_neg hc]
          exact hother hc

section Loaded

variable {t : CmpTask} {p : Party} {cmpCol1 cmpCol2 c : Str} {table : List (ArrowColumn F)}
  {col : ArrowColumn F} {n : Nat}

/-- A column declared as integers is read among the integers only. -/
theorem find?_read_of_int (hloadable : ∀ col ∈ table, Loadable toDouble (t.executor p) n col)
    (hcol : column? table c = some col) (hdtype : find? t.colAndDtype c = some false) :
    find? (read toDouble (t.executor p) table).int c = col.data.ints ∧
      find? (read toDouble (t.executor p) table).double c = none := by
  have hne : find? (t.executor p).colAndDtype c ≠ some true := by
    show find? t.colAndDtype c ≠ some true
    rw [hdtype]
    decide
  refine ⟨?_, find?_read_double_eq_none toDouble hne⟩
  rw [find?_read_int' toDouble hloadable hdtype, hcol]
  rfl

theorem find?_read_of_double (hloadable : ∀ col ∈ table, Loadable toDouble (t.executor p) n col)
    (hcol : column? table c = some col) (hdtype : find? t.colAndDtype c = some true) :
    find? (read toDouble (t.executor p) table).double c = col.data.doubles toDouble := by
  rw [find?_read_double' toDouble hloadable hdtype, hcol]
  rfl

/-- Of two columns with different types, the converted one is declared as integers and the other
one as doubles. -/
theorem converted_or {dtype1 dtype2 : Bool} (h1 : find? t.colAndDtype cmpCol1 = some dtype1)
    (h2 : find? t.colAndDtype cmpCol2 = some dtype2) (hne : dtype1 ≠ dtype2)
    (hc : c = cmpCol1 ∨ c = cmpCol2) :
    (if dtype1 = false then cmpCol1 else cmpCol2) = c ∧ find? t.colAndDtype c = some false ∨
      (if dtype1 = false then cmpCol1 else cmpCol2) ≠ c ∧
        find? t.colAndDtype c = some true := by
  have hcols : cmpCol1 ≠ cmpCol2 := by
    rintro rfl
    exact hne (Option.some.inj (h1.symm.trans h2))
  cases dtype1 with
  | false =>
      obtain rfl : dtype2 = true := Bool.eq_true_of_not_eq_false hne.symm
      rcases hc with rfl | rfl
      · exact Or.inl ⟨rfl, h1⟩
      · exact Or.inr ⟨hcols, h2⟩
  | true =>
      obtain rfl : dtype2 = false := Bool.eq_false_of_not_eq_true hne.symm
      rcases hc with rfl | rfl
      · exact Or.inr ⟨hcols.symm, h1⟩
      · exact Or.inl ⟨rfl, h2⟩

/-- After the conversion either column has its doubles. -/
theorem find?_convertColumn_read {convertCol : Str} {l : ColAndVal F}
    (hloadable : ∀ col ∈ table, Loadable toDouble (t.executor p) n col)
    (hconvert : convertColumn toDouble (t.executor p) convertCol
      (read toDouble (t.executor p) table) = .ok l)
    (hdtype : convertCol = c ∧ find? t.colAndDtype c = some false ∨
      convertCol ≠ c ∧ find? t.colAndDtype c = some true)
    (howner : find? t.colAndOwner c = some p) (hcol : column? table c = some col) :
    find? l.double c = col.data.doubles toDouble := by
  rcases hdtype with ⟨rfl, hdtype⟩ | ⟨hne, hdtype⟩
  · refine convertColumn_eq_ok toDouble hconvert howner (fun hne => absurd rfl hne) fun _ => ?_
    obtain ⟨hints, hnone⟩ := find?_read_of_int toDouble hloadable hcol hdtype
    refine ⟨hnone, ?_⟩
    have hmem : col ∈ table := List.mem_of_find?_eq_some hcol
    have hname : col.name = convertCol := by simpa using List.find?_some hcol
    obtain ⟨xs, hxs, _⟩ := (hloadable col hmem).ints (hname ▸ hdtype)
    rw [hints, hxs, doubles_of_ints toDouble hxs]
    rfl
  · refine convertColumn_eq_ok toDouble hconvert howner (fun _ => ?_) fun heq => absurd heq.symm hne
    exact find?_read_of_double toDouble hloadable hcol hdtype

theorem loadCmpDataset_eq_ok {v : Bool × ColAndVal F}
    (h : loadCmpDataset toDouble (t.executor p) cmpCol1 cmpCol2 table = .ok (some v))
    (hc : c = cmpCol1 ∨ c = cmpCol2) (howner : find? t.colAndOwner c = some p)
    (hcol : column? table c = some col) :
    cmpWords encode v.1 v.2 c =
      columnWords toDouble encode (i64Cmp t cmpCol1 cmpCol2) col.data := by
  obtain ⟨⟨ret, l⟩, hl, h⟩ := Fallible.bind_eq_ok.mp h
  obtain ⟨rfl, n, hloadable⟩ := LoadDatasetFromCSV_eq_ok toDouble hl
  have hret : ¬ ret ≤ 0 := by
    intro hret
    simp only [hret, if_true] at h
    cases h
  simp only [hret, if_false] at h
  cases h1 : find? (t.executor p).colAndDtype cmpCol1 with
  | none =>
      rw [h1] at h
      cases h
  | some dtype1 =>
    cases h2 : find? (t.executor p).colAndDtype cmpCol2 with
    | none =>
        rw [h1, h2] at h
        cases h
    | some dtype2 =>
        simp only [h1, h2] at h
        replace h1 : find? t.colAndDtype cmpCol1 = some dtype1 := h1
        replace h2 : find? t.colAndDtype cmpCol2 = some dtype2 := h2
        by_cases heq : dtype1 = dtype2
        · subst heq
          rw [if_pos rfl] at h
          cases h
          have hdtype : find? t.colAndDtype c = some dtype1 := by
            rcases hc with rfl | rfl
            · exact h1
            · exact h2
          cases dtype1 with
          | false =>
              have hread := (find?_read_of_int toDouble hloadable hcol hdtype).1
              simp [cmpWords, columnWords, i64Cmp, h1, h2, hread]
          | true =>
              have hread := find?_read_of_double toDouble hloadable hcol hdtype
              simp [cmpWords, columnWords, i64Cmp, h1, hread]
        · rw [if_neg heq] at h
          obtain ⟨l', hl', h⟩ := Fallible.bind_eq_ok.mp h
          cases h
          have hmode : i64Cmp t cmpCol1 cmpCol2 = false := by
            cases dtype1 <;> cases dtype2 <;> simp_all [i64Cmp]
          have hvalues := find?_convertColumn_read toDouble hloadable hl'
            (converted_or h1 h2 heq hc) howner hcol
          rw [hmode]
          show ((find? l'.double c).getD []).map encode = _
          rw [hvalues]
          rfl

end Loaded

theorem loadable_of_loadCmpDataset {t : CmpTask} {p : Party} {cmpCol1 cmpCol2 : Str}
    {table : List (ArrowColumn F)} {v : Bool × ColAndVal F}
    (h : loadCmpDataset toDouble (t.executor p) cmpCol1 cmpCol2 table = .ok (some v)) :
    (∃ n, ∀ col ∈ table, Loadable toDouble (t.executor p) n col) ∧
      ∀ c, c = cmpCol1 ∨ c = cmpCol2 → (find? t.colAndDtype c).isSome = true := by
  obtain ⟨⟨ret, l⟩, hl, h⟩ := Fallible.bind_eq_ok.mp h
  obtain ⟨-, hloadable⟩ := LoadDatasetFromCSV_eq_ok toDouble hl
  refine ⟨hloadable, ?_⟩
  have hret : ¬ ret ≤ 0 := by
    intro hret
    simp only [hret, if_true] at h
    cases h
  simp only [hret, if_false] at h
  cases h1 : find? (t.executor p).colAndDtype cmpCol1 with
  | none =>
      rw [h1] at h
      cases h
  | some dtype1 =>
    cases h2 : find? (t.executor p).colAndDtype cmpCol2 with
    | none =>
        rw [h1, h2] at h
        cases h
    | some dtype2 =>
        rintro c (rfl | rfl)
        · exact Option.isSome_of_eq_some h1
        · exact Option.isSome_of_eq_some h2

/-- A loaded column of the comparison has a word and a number for each of its values. -/
theorem length_of_loadCmpDataset (rat : F → ℚ) {t : CmpTask} {p : Party} {cmpCol1 cmpCol2 : Str}
    {table : List (ArrowColumn F)} {v : Bool × ColAndVal F}
    (h : loadCmpDataset toDouble (t.executor p) cmpCol1 cmpCol2 table = .ok (some v))
    {c : Str} (hc : c = cmpCol1 ∨ c = cmpCol2) {col : ArrowColumn F}
    (hcol : column? table c = some col) :
    (columnWords toDouble encode (i64Cmp t cmpCol1 cmpCol2) col.data).length = col.data.length ∧
      (numbers rat col.data).length = col.data.length := by
  obtain ⟨⟨n, hloadable⟩, hdtype⟩ := loadable_of_loadCmpDataset toDouble h
  have hmem : col ∈ table := List.mem_of_find?_eq_some hcol
  have hname : col.name = c := by simpa using List.find?_some hcol
  obtain ⟨hints, hdoubles⟩ := hloadable col hmem
  rw [hname] at hints hdoubles
  obtain ⟨dtype, hc'⟩ := Option.isSome_iff_exists.mp (hdtype c hc)
  obtain ⟨name, data⟩ := col
  cases data with
  | int64 chunks =>
      refine ⟨?_, List.length_map ..⟩
      cases hmode : i64Cmp t cmpCol1 cmpCol2 with
      | false =>
          show ((chunks.flatten.map toDouble).map encode).length = chunks.flatten.length
          rw [List.length_map, List.length_map]
      | true => rfl
  | double chunks =>
      refine ⟨?_, List.length_map ..⟩
      cases hmode : i64Cmp t cmpCol1 cmpCol2 with
      | false =>
          show (chunks.flatten.map encode).length = chunks.flatten.length
          rw [List.length_map]
      | true =>
          -- a column of doubles is not declared as integers
          have hfalse : find? t.colAndDtype c = some false := by
            simp only [i64Cmp, Bool.and_eq_true, beq_iff_eq] at hmode
            rcases hc with rfl | rfl
            · exact hmode.1
            · exact hmode.2
          obtain ⟨xs, hxs, _⟩ := hints hfalse
          cases hxs
  | other lengths =>
      cases dtype with
      | false =>
          obtain ⟨xs, hxs, _⟩ := hints hc'
          cases hxs
      | true =>
          obtain ⟨xs, hxs, _⟩ := hdoubles hc'
          cases hxs

/-! ## What is revealed -/

/-- The difference of two words is not wrapped. -/
def Fits (x y : I64) : Prop := -2 ^ 63 ≤ x.toInt - y.toInt ∧ x.toInt - y.toInt < 2 ^ 63

instance (x y : I64) : Decidable (Fits x y) := inferInstanceAs (Decidable (_ ∧ _))

theorem msb_sub_eq_decide (x y : I64) (P : Prop) [Decidable P] :
    (x + y * -1).msb = decide P ↔ (Fits x y ↔ (P ↔ x.toInt < y.toInt)) := by
  have hmsb := msb_sub_eq_iff 0 x y
  have hlt : decide (fixedValue 0 x < fixedValue 0 y) = decide (x.toInt < y.toInt) :=
    decide_eq_decide.mpr (fixedValue_lt 0 x y)
  rw [hlt] at hmsb
  unfold Fits
  rw [← hmsb]
  by_cases hP : P <;> by_cases hlt : x.toInt < y.toInt <;> simp [hP, hlt]

/-- The bits that `MPC_Compare` computes from the words of two parties. -/
def lowerBits (pa pb : Party) (xs ys : List I64) : List Bool :=
  if pa < pb then List.zipWith (fun x y => (x + y * -1).msb) xs ys
  else List.zipWith (fun y x => (y + x * -1).msb) ys xs

theorem map_addMsb (xs ys : List I64) : (addMsb xs (ys.map (· * -1))).map (· != 0) =
    List.zipWith (fun x y => (x + y * -1).msb) xs ys := by
  have hbit : ∀ b : Bool, (bitWord b != 0) = b := by
    intro b
    cases b <;> rfl
  unfold addMsb
  rw [List.zipWith_map_right, List.map_zipWith]
  simp only [hbit]

theorem revealTo_eq (sh3 : Sh3Bin) {shRes : Party → SbMatrix} {words : List I64}
    (h : BinShares shRes words) (parties : List Party) (cmpRes : Party → List Bool)
    (r : sh3.Runtime) (p : Party) :
    (revealTo sh3 shRes parties (cmpRes, r)).1 p =
      cmpRes p ++ (List.replicate (parties.count p) (words.map (· != 0))).flatten := by
  induction parties generalizing cmpRes r with
  | nil => simp [revealTo]
  | cons party parties ih =>
      show (revealTo sh3 shRes parties (Function.update cmpRes party
        (cmpRes party ++ (sh3.reveal r party shRes).1.map (· != 0)), _)).1 p = _
      rw [ih, sh3.reveal_shares r party shRes words h]
      by_cases hp : p = party
      · subst hp
        rw [Function.update_self, List.count_cons_self, List.replicate_succ,
          List.flatten_cons, List.append_assoc]
      · rw [Function.update_of_ne hp, List.count_cons_of_ne (Ne.symm hp)]

theorem twoValues_comm {pa pb : Party} (h : pa ≠ pb) (A B : I64Matrix) :
    twoValues pa pb A B = twoValues pb pa B A := by
  funext q
  unfold twoValues
  by_cases ha : q = pa
  · have hb : q ≠ pb := ha ▸ h
    simp [ha, h]
  · simp [ha]

/-- `MPC_Compare` on the rows of two parties that need not be in the order of their numbers. -/
theorem MPC_Compare_rows (sh3 : Sh3Bin) (r : sh3.Runtime) {pa pb : Party} (h : pa ≠ pb)
    {xs ys : List I64} (hlen : xs.length = ys.length) (hx : xs.length < 2 ^ 63)
    (hy : ys.length < 2 ^ 63) :
    (xs.length < 2 ^ 32 → ∃ out words,
      MPC_Compare sh3 r (twoValues pa pb (rowMatrix xs hx) (rowMatrix ys hy)) = .ok out ∧
        BinShares out.shRes words ∧ words.map (· != 0) = lowerBits pa pb xs ys) ∧
    (2 ^ 32 ≤ xs.length → ∃ f,
      MPC_Compare sh3 r (twoValues pa pb (rowMatrix xs hx) (rowMatrix ys hy)) = .error f) := by
  have hshape : (rowMatrix xs hx).shape = (rowMatrix ys hy).shape := congrArg (Shape.mk 1) hlen
  have hrow : ∀ (zs : List I64) (hz : zs.length < 2 ^ 63),
      ¬ ((rowMatrix zs hz).shape.rows = 0 ∧ (rowMatrix zs hz).shape.cols = 0) :=
    fun _ _ h => Nat.one_ne_zero h.1
  have hsize : ∀ (zs : List I64) (hz : zs.length < 2 ^ 63),
      (rowMatrix zs hz).shape.rows * (rowMatrix zs hz).shape.cols = zs.length :=
    fun zs _ => Nat.one_mul zs.length
  rcases lt_or_gt_of_ne h with hlt | hgt
  · refine ⟨fun hshort => ?_, fun hlong => ?_⟩
    · obtain ⟨out, hout, _, hshares⟩ :=
        MPC_Compare_shares sh3 r hlt hshape (hrow xs hx) (by rwa [hsize])
      refine ⟨out, _, hout, hshares, ?_⟩
      rw [lowerBits, if_pos hlt]
      exact map_addMsb xs ys
    · exact MPC_Compare_of_long sh3 r hlt hshape (by rwa [hsize])
  · rw [twoValues_comm h]
    refine ⟨fun hshort => ?_, fun hlong => ?_⟩
    · obtain ⟨out, hout, _, hshares⟩ :=
        MPC_Compare_shares sh3 r hgt hshape.symm (hrow ys hy) (by rwa [hsize, ← hlen])
      refine ⟨out, _, hout, hshares, ?_⟩
      rw [lowerBits, if_neg (not_lt_of_gt hgt)]
      exact map_addMsb ys xs
    · exact MPC_Compare_of_long sh3 r hgt hshape.symm (by rwa [hsize, ← hlen])

/-! ## Which owners and values are compared right -/

/-- The columns `a` and `b` of the text belong to two parties, all parties have loaded their
tables, and those of the two have the columns, with the same number of rows. -/
structure Loaded (t : CmpTask) (table : Party → List (ArrowColumn F)) (a b : Str)
    (pa pb : Party) (colA colB : ArrowColumn F) : Prop where
  columns : cmpColumns t.expr = some (a, b)
  ownerA : find? t.colAndOwner a = some pa
  ownerB : find? t.colAndOwner b = some pb
  ne : pa ≠ pb
  loads : ∀ p, ∃ v, loadCmpDataset toDouble (t.executor p) a b (table p) = .ok (some v)
  columnA : column? (table pa) a = some colA
  columnB : column? (table pb) b = some colB
  rows : colA.data.length = colB.data.length

/-- The task ends, and every party it is revealed to has, for every row, whether the number in
the first column of the text is smaller than that in the second. -/
def RevealsOrder (rat : F → ℚ) (sh3 : Sh3Bin) (r : sh3.Runtime) (t : CmpTask)
    (table : Party → List (ArrowColumn F)) (colA colB : ArrowColumn F) : Prop :=
  ∃ res, run toDouble encode sh3 r t table = .ok (some res) ∧ ∀ p ∈ t.parties, ∀ (i : Nat) (a b : ℚ),
    (numbers rat colA.data)[i]? = some a → (numbers rat colB.data)[i]? = some b →
    (res p)[i]? = some (decide (a < b))

/-- The bit of a row with the numbers `a` and `b` and the words `x` and `y` is right. The
lower-numbered party is the one that is taken for the first operand. -/
def RowRight (pa pb : Party) (a b : ℚ) (x y : I64) : Prop :=
  if pa < pb then Fits x y ↔ (a < b ↔ x.toInt < y.toInt)
  else Fits y x ↔ (a < b ↔ y.toInt < x.toInt)

/-- There are few enough rows for 32 bits, and every row is right. -/
def OrderKept (rat : F → ℚ) (t : CmpTask) (a b : Str) (pa pb : Party)
    (colA colB : ArrowColumn F) : Prop :=
  colA.data.length < 2 ^ 32 ∧ ∀ (i : Nat) (m n : ℚ) (x y : I64),
    (numbers rat colA.data)[i]? = some m → (numbers rat colB.data)[i]? = some n →
    (columnWords toDouble encode (i64Cmp t a b) colA.data)[i]? = some x →
    (columnWords toDouble encode (i64Cmp t a b) colB.data)[i]? = some y → RowRight pa pb m n x y

/-- Integers of owners in the order of the text are compared right where no difference is
wrapped. In the other order they are compared right where they are equal or the difference is
wrapped. -/
theorem rowRight_int (pa pb : Party) (x y : I64) :
    RowRight pa pb x.toInt y.toInt x y ↔
      if pa < pb then Fits x y else x = y ∨ ¬ Fits y x := by
  unfold RowRight
  split
  · simp
  · rw [Int.cast_lt, ← BitVec.toInt_inj]
    have heq : (x.toInt < y.toInt ↔ y.toInt < x.toInt) ↔ x.toInt = y.toInt := by omega
    rw [heq]
    have hfits : x.toInt = y.toInt → Fits y x := by
      intro h
      rw [Fits, h, sub_self]
      decide
    tauto

theorem getElem?_lowerBits (pa pb : Party) {xs ys : List I64} {i : Nat} {x y : I64}
    (hx : xs[i]? = some x) (hy : ys[i]? = some y) :
    (lowerBits pa pb xs ys)[i]? =
      some (if pa < pb then (x + y * -1).msb else (y + x * -1).msb) := by
  unfold lowerBits
  split <;> simp [List.getElem?_zipWith, hx, hy]

theorem rowRight_iff {pa pb : Party} {m n : ℚ} {x y : I64} :
    RowRight pa pb m n x y ↔
      (if pa < pb then (x + y * -1).msb else (y + x * -1).msb) = decide (m < n) := by
  unfold RowRight
  split
  · exact (msb_sub_eq_decide x y (m < n)).symm
  · exact (msb_sub_eq_decide y x (m < n)).symm

theorem execute_of_matrices (sh3 : Sh3Bin) (r : sh3.Runtime) (parties : List Party)
    {value : Party → Option (List I64)} {ms : Party → Option I64Matrix}
    (h : ∀ p, cmpMatrix (value p) = .ok (ms p)) :
    execute sh3 r parties value = (MPC_Compare sh3 r ms).map fun out =>
      (revealTo sh3 out.shRes parties (fun _ => [], out.runtime)).1 := by
  unfold execute
  simp only [h, bind, Except.bind, atParties_self]
  cases MPC_Compare sh3 r ms <;> rfl

theorem execute_of_error (sh3 : Sh3Bin) (r : sh3.Runtime) (parties : List Party)
    {value : Party → Option (List I64)} {p : Party} {f : Fault}
    (h : cmpMatrix (value p) = .error f) : ∃ f, execute sh3 r parties value = .error f := by
  unfold execute
  cases h0 : cmpMatrix (value 0) with
  | error f => exact ⟨f, rfl⟩
  | ok m0 =>
      cases h1 : cmpMatrix (value 1) with
      | error f => exact ⟨f, rfl⟩
      | ok m1 =>
          cases h2 : cmpMatrix (value 2) with
          | error f => exact ⟨f, rfl⟩
          | ok m2 =>
              have hok : ∃ m, cmpMatrix (value p) = .ok m := by
                fin_cases p
                · exact ⟨m0, h0⟩
                · exact ⟨m1, h1⟩
                · exact ⟨m2, h2⟩
              obtain ⟨m, hm⟩ := hok
              rw [h] at hm
              cases hm

/-- `execute` where two parties have words: the bits of the lower-numbered one, as often as the
result is revealed to a party. -/
theorem execute_words (sh3 : Sh3Bin) (r : sh3.Runtime) (parties : List Party) {pa pb : Party}
    (hne : pa ≠ pb) {xs ys : List I64} (hlen : xs.length = ys.length) :
    (xs.length < 2 ^ 32 → ∃ res, (execute sh3 r parties fun q =>
        if q = pa then some xs else if q = pb then some ys else none) = .ok res ∧
      ∀ p, res p = (List.replicate (parties.count p) (lowerBits pa pb xs ys)).flatten) ∧
    (2 ^ 32 ≤ xs.length → ∃ f, (execute sh3 r parties fun q =>
        if q = pa then some xs else if q = pb then some ys else none) = .error f) := by
  by_cases hx : xs.length < 2 ^ 63
  · have hy : ys.length < 2 ^ 63 := hlen ▸ hx
    have hms : ∀ q, cmpMatrix (if q = pa then some xs else if q = pb then some ys else none) =
        .ok (twoValues pa pb (rowMatrix xs hx) (rowMatrix ys hy) q) := by
      intro q
      unfold twoValues
      by_cases hqa : q = pa
      · rw [if_pos hqa, if_pos hqa, cmpMatrix, dif_pos hx]
      · rw [if_neg hqa, if_neg hqa]
        by_cases hqb : q = pb
        · rw [if_pos hqb, if_pos hqb, cmpMatrix, dif_pos hy]
        · rw [if_neg hqb, if_neg hqb]
          rfl
    rw [execute_of_matrices sh3 r parties hms]
    obtain ⟨hshort, hlong⟩ := MPC_Compare_rows sh3 r hne hlen hx hy
    refine ⟨fun h => ?_, fun h => ?_⟩
    · obtain ⟨out, words, hout, hshares, hbits⟩ := hshort h
      rw [hout]
      refine ⟨_, rfl, fun p => ?_⟩
      refine (revealTo_eq sh3 hshares parties (fun _ => []) out.runtime p).trans ?_
      rw [hbits]
      rfl
    · obtain ⟨f, hf⟩ := hlong h
      rw [hf]
      exact ⟨f, rfl⟩
  · refine ⟨fun h => absurd (h.trans (by norm_num)) hx, fun _ => ?_⟩
    refine execute_of_error sh3 r parties (p := pa) (f := .outOfRange) ?_
    show cmpMatrix (if pa = pa then some xs else _) = _
    rw [if_pos rfl, cmpMatrix, dif_neg hx]

section Joint

variable {t : CmpTask} {table : Party → List (ArrowColumn F)} {a b : Str} {pa pb : Party}
  {colA colB : ArrowColumn F}

/-- The two owners compare the words of their columns, the third party has none. -/
theorem run_eq (sh3 : Sh3Bin) (r : sh3.Runtime)
    (h : Loaded toDouble t table a b pa pb colA colB) :
    run toDouble encode sh3 r t table = (execute sh3 r t.parties fun q =>
      if q = pa then some (columnWords toDouble encode (i64Cmp t a b) colA.data)
      else if q = pb then some (columnWords toDouble encode (i64Cmp t a b) colB.data)
      else none).map some := by
  obtain ⟨v0, h0⟩ := h.loads 0
  obtain ⟨v1, h1⟩ := h.loads 1
  obtain ⟨v2, h2⟩ := h.loads 2
  have hload : ∀ p, loadCmpDataset toDouble (t.executor p) a b (table p) =
      .ok (some (atParties v0 v1 v2 p)) := by
    intro p
    fin_cases p
    · exact h0
    · exact h1
    · exact h2
  have hvalue : (fun p => cmpValue encode (t.executor p) a b (atParties v0 v1 v2 p)) = fun q =>
      if q = pa then some (columnWords toDouble encode (i64Cmp t a b) colA.data)
      else if q = pb then some (columnWords toDouble encode (i64Cmp t a b) colB.data)
      else none := by
    funext p
    have hownerA : (find? (t.executor p).colAndOwner a).getD 0 = pa :=
      congrArg (Option.getD · 0) h.ownerA
    have hownerB : (find? (t.executor p).colAndOwner b).getD 0 = pb :=
      congrArg (Option.getD · 0) h.ownerB
    have hparty : (t.executor p).partyId = p := rfl
    rw [cmpValue, hownerA, hownerB, hparty]
    by_cases hpa : p = pa
    · subst hpa
      rw [if_pos rfl, if_pos rfl, loadCmpDataset_eq_ok toDouble encode (hload p) (Or.inl rfl)
        h.ownerA h.columnA]
    · rw [if_neg (Ne.symm hpa), if_neg hpa]
      by_cases hpb : p = pb
      · subst hpb
        rw [if_pos rfl, if_pos rfl, loadCmpDataset_eq_ok toDouble encode (hload p) (Or.inr rfl)
          h.ownerB h.columnB]
      · rw [if_neg (Ne.symm hpb), if_neg hpb]
  unfold run
  simp only [h.columns, h0, h1, h2, bind, Except.bind, hvalue]
  cases execute sh3 r t.parties _ <;> rfl

/-- The bits that the run reveals, row by row. -/
theorem run_bits (sh3 : Sh3Bin) (r : sh3.Runtime)
    (h : Loaded toDouble t table a b pa pb colA colB) :
    (colA.data.length < 2 ^ 32 → ∃ res, run toDouble encode sh3 r t table = .ok (some res) ∧
      ∀ p ∈ t.parties, ∀ (i : Nat) (x y : I64),
        (columnWords toDouble encode (i64Cmp t a b) colA.data)[i]? = some x →
        (columnWords toDouble encode (i64Cmp t a b) colB.data)[i]? = some y →
        (res p)[i]? = some (if pa < pb then (x + y * -1).msb else (y + x * -1).msb)) ∧
    (2 ^ 32 ≤ colA.data.length → ∃ f, run toDouble encode sh3 r t table = .error f) := by
  obtain ⟨v, hv⟩ := h.loads pa
  obtain ⟨v', hv'⟩ := h.loads pb
  have hxlen := (length_of_loadCmpDataset toDouble encode (fun _ => 0) hv (Or.inl rfl) h.columnA).1
  have hylen := (length_of_loadCmpDataset toDouble encode (fun _ => 0) hv' (Or.inr rfl) h.columnB).1
  obtain ⟨hshort, hlong⟩ := execute_words sh3 r t.parties h.ne
    (hxlen.trans (h.rows.trans hylen.symm))
  rw [run_eq toDouble encode sh3 r h]
  refine ⟨fun hsize => ?_, fun hsize => ?_⟩
  · obtain ⟨res, hres, hbits⟩ := hshort (by omega)
    rw [hres]
    refine ⟨res, rfl, fun p hp i x y hx hy => ?_⟩
    -- the first time a party learns the result it is put at the front
    obtain ⟨k, hk⟩ := Nat.exists_eq_succ_of_ne_zero (List.count_pos_iff.mpr hp).ne'
    have hbit := getElem?_lowerBits pa pb hx hy
    obtain ⟨hi, _⟩ := List.getElem?_eq_some_iff.mp hbit
    rw [hbits, hk, List.replicate_succ, List.flatten_cons, List.getElem?_append_left hi, hbit]
  · obtain ⟨f, hf⟩ := hlong (by omega)
    rw [hf]
    exact ⟨f, rfl⟩

theorem orderKept_of_revealsOrder (rat : F → ℚ) (sh3 : Sh3Bin) (r : sh3.Runtime)
    (h : Loaded toDouble t table a b pa pb colA colB)
    (hreveals : RevealsOrder toDouble encode rat sh3 r t table colA colB) :
    OrderKept toDouble encode rat t a b pa pb colA colB := by
  obtain ⟨res, hrun, hres⟩ := hreveals
  obtain ⟨hshort, hlong⟩ := run_bits toDouble encode sh3 r h
  have hsize : colA.data.length < 2 ^ 32 := by
    by_contra hcontra
    obtain ⟨f, hf⟩ := hlong (Nat.le_of_not_lt hcontra)
    rw [hf] at hrun
    cases hrun
  obtain ⟨res', hres', hbits⟩ := hshort hsize
  rw [hres'] at hrun
  cases hrun
  refine ⟨hsize, fun i m n x y hm hn hx hy => rowRight_iff.mpr ?_⟩
  obtain ⟨p, hp⟩ := List.exists_mem_of_ne_nil _ t.parties_ne_nil
  have hbit := hres p hp i m n hm hn
  rw [hbits p hp i x y hx hy] at hbit
  exact Option.some.inj hbit

theorem revealsOrder_of_orderKept (rat : F → ℚ) (sh3 : Sh3Bin) (r : sh3.Runtime)
    (h : Loaded toDouble t table a b pa pb colA colB)
    (hkept : OrderKept toDouble encode rat t a b pa pb colA colB) :
    RevealsOrder toDouble encode rat sh3 r t table colA colB := by
  obtain ⟨hsize, hrows⟩ := hkept
  obtain ⟨res, hrun, hbits⟩ := (run_bits toDouble encode sh3 r h).1 hsize
  refine ⟨res, hrun, fun p hp i m n hm hn => ?_⟩
  obtain ⟨v, hv⟩ := h.loads pa
  obtain ⟨v', hv'⟩ := h.loads pb
  obtain ⟨hxlen, hmlen⟩ :=
    length_of_loadCmpDataset toDouble encode rat hv (Or.inl rfl) h.columnA
  obtain ⟨hylen, hnlen⟩ :=
    length_of_loadCmpDataset toDouble encode rat hv' (Or.inr rfl) h.columnB
  -- a row with numbers has words
  obtain ⟨hi, _⟩ := List.getElem?_eq_some_iff.mp hm
  obtain ⟨hi', _⟩ := List.getElem?_eq_some_iff.mp hn
  have hx := List.getElem?_eq_getElem (l := columnWords toDouble encode (i64Cmp t a b) colA.data)
    (i := i) (by omega)
  have hy := List.getElem?_eq_getElem (l := columnWords toDouble encode (i64Cmp t a b) colB.data)
    (i := i) (by omega)
  rw [hbits p hp i _ _ hx hy]
  exact congrArg some (rowRight_iff.mp (hrows i m n _ _ hm hn hx hy))

/-- **When a comparison follows the text**: the bits revealed say for every row whether the
first number is smaller exactly when there are fewer than `2 ^ 32` rows and every row is right
for the order of the owners. -/
theorem revealsOrder_iff (rat : F → ℚ) (sh3 : Sh3Bin) (r : sh3.Runtime)
    (h : Loaded toDouble t table a b pa pb colA colB) :
    RevealsOrder toDouble encode rat sh3 r t table colA colB ↔
      OrderKept toDouble encode rat t a b pa pb colA colB :=
  ⟨orderKept_of_revealsOrder toDouble encode rat sh3 r h,
    revealsOrder_of_orderKept toDouble encode rat sh3 r h⟩

end Joint

/-- The integer columns `A` and `B` of two parties are compared for party 0. -/
def oneRowTask (pa pb : Party) : CmpTask where
  partyName _ := ['p']
  colAndOwner := [(['A'], pa), (['B'], pb)]
  colAndDtype := [(['A'], false), (['B'], false)]
  expr := ['C', 'M', 'P', '(', 'A', ',', 'B', ')']
  parties := [0]
  parties_ne_nil := List.cons_ne_nil _ _

/-- `A` has the value 1 and `B` the value 2. -/
def oneRowTable (pa : Party) (p : Party) : List (ArrowColumn ℚ) :=
  [⟨['I', 'D'], .int64 [[0]]⟩, if p = pa then ⟨['A'], .int64 [[1]]⟩ else ⟨['B'], .int64 [[2]]⟩]

/-- Doubles that are integers. -/
def wholeDouble (x : I64) : ℚ := x.toInt

def encodeWhole (D : Nat) (x : ℚ) : I64 := BitVec.ofInt 64 (x.num * 2 ^ D)

theorem loaded_oneRow {pa pb : Party} (h : pa ≠ pb) :
    Loaded wholeDouble (oneRowTask pa pb) (oneRowTable pa) ['A'] ['B'] pa pb
      ⟨['A'], .int64 [[1]]⟩ ⟨['B'], .int64 [[2]]⟩ where
  columns := by
    show cmpColumns ['C', 'M', 'P', '(', 'A', ',', 'B', ')'] = _
    decide
  ownerA := rfl
  ownerB := rfl
  ne := h
  loads p := by
    have hload : ∀ pa pb p : Party, ((loadCmpDataset wholeDouble ((oneRowTask pa pb).executor p)
        ['A'] ['B'] (oneRowTable pa p)).toOption.bind id).isSome = true := by
      decide +kernel
    replace hload := hload pa pb p
    cases hv : loadCmpDataset wholeDouble ((oneRowTask pa pb).executor p) ['A'] ['B']
        (oneRowTable pa p) with
    | error f =>
        rw [hv] at hload
        cases hload
    | ok v =>
        rw [hv] at hload
        exact ⟨_, congrArg Except.ok (Option.some_get hload).symm⟩
  columnA := by simp [column?, oneRowTable]
  columnB := by simp [column?, oneRowTable, h.symm]
  rows := rfl

theorem orderKept_oneRow {pa pb : Party} : OrderKept wholeDouble (encodeWhole 16) id
    (oneRowTask pa pb) ['A'] ['B'] pa pb ⟨['A'], .int64 [[1]]⟩ ⟨['B'], .int64 [[2]]⟩ ↔
      RowRight pa pb (1 : I64).toInt (2 : I64).toInt 1 2 := by
  have hwords : i64Cmp (oneRowTask pa pb) ['A'] ['B'] = true := rfl
  unfold OrderKept
  rw [hwords]
  constructor
  · intro h
    exact h.2 0 _ _ 1 2 rfl rfl rfl rfl
  · intro h
    refine ⟨by decide, fun i m n x y hm hn hx hy => ?_⟩
    cases i with
    | zero =>
        cases hm
        cases hn
        cases hx
        cases hy
        exact h
    | succ i => cases hm

theorem revealsOrder_oneRow : RevealsOrder wholeDouble (encodeWhole 16) id Sh3Bin.unmasked ()
    (oneRowTask 0 2) (oneRowTable 0) ⟨['A'], .int64 [[1]]⟩ ⟨['B'], .int64 [[2]]⟩ :=
  (revealsOrder_iff wholeDouble (encodeWhole 16) id Sh3Bin.unmasked ()
    (loaded_oneRow (by decide))).mpr
      (orderKept_oneRow.mpr ((rowRight_int 0 2 1 2).mpr (by decide)))

/-- With party 1 as the owner of the first column, 1 is not smaller than 2. -/
theorem not_revealsOrder : ¬ RevealsOrder wholeDouble (encodeWhole 16) id Sh3Bin.unmasked ()
    (oneRowTask 1 0) (oneRowTable 1) ⟨['A'], .int64 [[1]]⟩ ⟨['B'], .int64 [[2]]⟩ := by
  intro h
  have hkept := orderKept_of_revealsOrder wholeDouble (encodeWhole 16) id Sh3Bin.unmasked ()
    (loaded_oneRow (by decide)) h
  exact absurd ((rowRight_int 1 0 1 2).mp (orderKept_oneRow.mp hkept)) (by decide)

end Fediux.Cmp
