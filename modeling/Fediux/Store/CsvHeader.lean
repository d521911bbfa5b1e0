import Fediux.Basic.Separator

set_option autoImplicit false

/-! # The header of a CSV file

`WriteHeader` writes a byte-order mark and the names with commas between them, and
`GetColumnNames` reads the first line, splits it and strips the mark, the end of the line and
quotation marks (`data_store/csv/csv_driver.cc`). `GetColumnNames_WriteHeader` says that the names
are read back.
-/

namespace Fediux.Store.Csv

abbrev Bytes : Type := List UInt8

def LF : UInt8 := 10

def CR : UInt8 := 13

def comma : UInt8 := 44

def quote : UInt8 := 34

def kBOM : Bytes := [239, 187, 191]

/-! ## Writing -/

inductive Retcode where
  | SUCCESS
  | FAIL
  deriving DecidableEq, Repr

/-- The mark and the names, with the last comma made into the end of the line. -/
def headerStr (col_name : List Bytes) : Bytes :=
  (kBOM ++ col_name.flatMap fun item => item ++ [comma]).dropLast ++ [LF]

/-- The file behind `WriteHeader`, where `ret` is what `ValidateDir` returns. -/
def WriteHeader (ret : ℤ) (file : Option Bytes) (col_name : List Bytes) :
    Retcode × Option Bytes :=
  if ret ≠ 0 then (.FAIL, file)
  else if col_name.isEmpty then (.SUCCESS, file)
  else (.SUCCESS, some (headerStr col_name))

/-! ## Reading -/

inductive Fault where
  | openFailed
  | truncatedMark
  deriving DecidableEq, Repr

/-- The line, and what is left when the end of the file is not reached. -/
def getline (data : Bytes) : Bytes × Option Bytes :=
  (data.takeWhile (· ≠ LF),
    match data.dropWhile (· ≠ LF) with
    | [] => none
    | _ :: rest => some rest)

def readLines : Option Bytes → ℕ → Bytes
  | none, _ => []
  | some _, 0 => []
  | some csv_data, line_number + 1 =>
      let tmp := getline csv_data
      (if tmp.1.isEmpty then [] else tmp.1 ++ [LF]) ++ readLines tmp.2 line_number

def ReadRawData (file : Option Bytes) (line_number : ℕ) : Except Fault Bytes :=
  match file with
  | none => .error .openFailed
  | some csv_data => .ok (readLines (some csv_data) line_number)

/-- What stands behind the mark, if it is there. -/
def stripMark : Bytes → Bytes → Except Fault (Option Bytes)
  | [], data => .ok (some data)
  | _ :: _, [] => .error .truncatedMark
  | b :: mark, c :: data => if c = b then stripMark mark data else .ok none

def SkipUTF8BOM (origin_data : Bytes) : Except Fault Bytes :=
  if origin_data.isEmpty then .ok []
  else (stripMark kBOM origin_data).map fun rest => rest.getD origin_data

/-- `str_split` for a single character, on bytes. -/
def str_split (delimiter : UInt8) : Bytes → List Bytes
  | [] => [[]]
  | c :: str =>
      if c = delimiter then [] :: str_split delimiter str
      else (str_split delimiter str).modifyHead (c :: ·)

/-- The first end of a line and the first carriage return are erased. -/
def eraseLineEnd (last_item : Bytes) : Bytes := (last_item.erase LF).erase CR

/-- The quotation marks on both sides are erased. -/
def trimQuotes (name : Bytes) : Bytes := (name.dropWhile (· = quote)).rdropWhile (· = quote)

/-- The names of `CSVDriver::GetColumnNames`, or `none` when it returns `FAIL`. -/
def GetColumnNames (delimiter : UInt8) (file : Option Bytes) :
    Except Fault (Option (List Bytes)) := do
  let tile_row ← ReadRawData file 1
  if tile_row.isEmpty then return none
  match (str_split delimiter tile_row).modifyLast eraseLineEnd with
  | [] => return some []
  | first_item :: rest => do
      let first_item ← SkipUTF8BOM first_item
      return some ((first_item :: rest).map trimQuotes)

/-! ## The parts of a header -/

/-- No character that the format uses. -/
structure Plain (name : Bytes) : Prop where
  comma : comma ∉ name
  quote : quote ∉ name
  CR : CR ∉ name
  LF : LF ∉ name

theorem str_split_eq (delimiter : UInt8) (str : Bytes) :
    str_split delimiter str = str.splitOn delimiter := by
  induction str with
  | nil => rfl
  | cons c str ih =>
      rw [List.splitOn_cons_eq_if_modifyHead, ← ih, str_split]
      by_cases h : c = delimiter
      · rw [if_pos h, if_pos (beq_iff_eq.mpr h)]
      · rw [if_neg h, if_neg (by rwa [beq_iff_eq])]

theorem flatMap_concat_eq (names : List Bytes) (last : Bytes) :
    (names ++ [last]).flatMap (fun item => item ++ [comma]) =
      List.intercalate [comma] (names ++ [last]) ++ [comma] := by
  induction names with
  | nil => rw [List.nil_append, List.flatMap_singleton, List.intercalate_singleton]
  | cons name names ih =>
      rw [List.cons_append, List.flatMap_cons, ih,
        Separator.intercalate_cons_of_ne_nil (List.append_ne_nil_of_right_ne_nil _
          (List.cons_ne_nil _ _))]
      simp only [List.append_assoc]

/-- The names with the mark before the first and the end of the line behind the last. -/
theorem headerStr_eq {name : Bytes} {rest names : List Bytes} {last : Bytes}
    (h : (kBOM ++ name) :: rest = names ++ [last]) :
    headerStr (name :: rest) = List.intercalate [comma] (names ++ [last ++ [LF]]) := by
  obtain ⟨init, item, hlist⟩ : ∃ init item, name :: rest = init ++ [item] :=
    ⟨_, _, (List.dropLast_append_getLast (List.cons_ne_nil name rest)).symm⟩
  have hjoin : kBOM ++ List.intercalate [comma] (name :: rest) =
      List.intercalate [comma] (names ++ [last]) := by
    rw [← h, Separator.intercalate_cons_eq, Separator.intercalate_cons_eq, List.append_assoc]
  rw [headerStr, Separator.intercalate_concat_append, ← hjoin, hlist, flatMap_concat_eq,
    ← List.append_assoc, List.dropLast_concat]

theorem readLines_one {line : Bytes} (hne : line ≠ []) (h : LF ∉ line) :
    readLines (some (line ++ [LF])) 1 = line ++ [LF] := by
  have hall : ∀ c ∈ line, (decide (c ≠ LF)) = true := fun c hc =>
    decide_eq_true fun heq => h (heq ▸ hc)
  have hline : getline (line ++ [LF]) = (line, some []) := by
    rw [getline, List.takeWhile_append_of_pos hall, List.dropWhile_append_of_pos hall]
    simp
  have hempty : line.isEmpty = false := by simpa using hne
  simp only [readLines, hline, hempty]
  simp

theorem stripMark_append (mark data : Bytes) : stripMark mark (mark ++ data) = .ok (some data) := by
  induction mark with
  | nil => rfl
  | cons b mark ih => rw [List.cons_append, stripMark, if_pos rfl, ih]

theorem SkipUTF8BOM_append (name : Bytes) : SkipUTF8BOM (kBOM ++ name) = .ok name := by
  have hempty : (kBOM ++ name).isEmpty = false := rfl
  rw [SkipUTF8BOM, hempty, stripMark_append]
  rfl

theorem eraseLineEnd_append {last : Bytes} (hLF : LF ∉ last) (hCR : CR ∉ last) :
    eraseLineEnd (last ++ [LF]) = last := by
  have herase : (last ++ [LF]).erase LF = last := by
    rw [List.erase_append_right _ hLF, List.erase_cons_head, List.append_nil]
  rw [eraseLineEnd, herase, List.erase_of_not_mem hCR]

theorem trimQuotes_of_notMem {name : Bytes} (h : quote ∉ name) : trimQuotes name = name := by
  have hleft : name.dropWhile (· = quote) = name := by
    cases name with
    | nil => rfl
    | cons c name =>
        have hc : c ≠ quote := fun heq => h (heq ▸ List.mem_cons_self)
        exact List.dropWhile_cons_of_neg (by simpa using hc)
  rw [trimQuotes, hleft, List.rdropWhile_eq_self_iff]
  intro hne
  have hlast : name.getLast hne ≠ quote := fun heq => h (heq ▸ List.getLast_mem hne)
  simpa using hlast

theorem notMem_kBOM : comma ∉ kBOM ∧ CR ∉ kBOM ∧ LF ∉ kBOM := by decide

section Parts

variable {name : Bytes} {rest init : List Bytes} {last : Bytes}

/-- With the mark before the first name, the parts of the line are still free of the characters
that end a part or the line. -/
theorem notMem_of_parts (hplain : ∀ n ∈ name :: rest, Plain n)
    (hparts : (kBOM ++ name) :: rest = init ++ [last]) :
    ∀ part ∈ init ++ [last], comma ∉ part ∧ CR ∉ part ∧ LF ∉ part := by
  intro part hpart
  rw [← hparts] at hpart
  rcases List.mem_cons.mp hpart with rfl | hpart
  · have hname := hplain name List.mem_cons_self
    obtain ⟨hcomma, hCR, hLF⟩ := notMem_kBOM
    simp only [List.mem_append, not_or]
    exact ⟨⟨hcomma, hname.comma⟩, ⟨hCR, hname.CR⟩, ⟨hLF, hname.LF⟩⟩
  · have hname := hplain part (List.mem_cons_of_mem name hpart)
    exact ⟨hname.comma, hname.CR, hname.LF⟩

/-- The header is one line. -/
theorem ReadRawData_headerStr (hparts : (kBOM ++ name) :: rest = init ++ [last])
    (hLF : ∀ part ∈ init ++ [last], LF ∉ part) :
    ReadRawData (some (headerStr (name :: rest))) 1 = .ok (headerStr (name :: rest)) := by
  have hline : LF ∉ List.intercalate [comma] (init ++ [last]) := by
    rw [Separator.mem_intercalate_iff (by decide)]
    rintro ⟨part, hpart, hmem⟩
    exact hLF part hpart hmem
  have hnil : List.intercalate [comma] (init ++ [last]) ≠ [] := by
    rw [← hparts, Separator.intercalate_cons_eq, List.append_assoc]
    exact List.cons_ne_nil _ _
  rw [headerStr_eq hparts, Separator.intercalate_concat_append]
  exact congrArg Except.ok (readLines_one hnil hline)

/-- Each part is between two commas, and the end of the line belongs to the last one. -/
theorem str_split_headerStr (hparts : (kBOM ++ name) :: rest = init ++ [last])
    (hcomma : ∀ part ∈ init ++ [last], comma ∉ part) :
    str_split comma (headerStr (name :: rest)) = init ++ [last ++ [LF]] := by
  rw [headerStr_eq hparts, str_split_eq]
  apply List.splitOn_intercalate comma
  · intro part hpart
    rcases List.mem_append.mp hpart with hpart | hpart
    · exact hcomma part (List.mem_append_left _ hpart)
    · have hlast := hcomma last (List.mem_append_right _ (List.mem_singleton.mpr rfl))
      rw [List.mem_singleton.mp hpart, List.mem_append, not_or]
      exact ⟨hlast, by decide⟩
  · exact List.append_ne_nil_of_right_ne_nil _ (List.cons_ne_nil _ _)

end Parts

theorem map_trimQuotes {names : List Bytes} (h : ∀ name ∈ names, quote ∉ name) :
    names.map trimQuotes = names :=
  calc names.map trimQuotes = names.map id :=
        List.map_congr_left fun name hname => trimQuotes_of_notMem (h name hname)
    _ = names := List.map_id _

/-- **A header that is written is read back.** -/
theorem GetColumnNames_WriteHeader {names : List Bytes} (hne : names ≠ [])
    (hplain : ∀ name ∈ names, Plain name) (file : Option Bytes) :
    (WriteHeader 0 file names).1 = .SUCCESS ∧
      GetColumnNames comma (WriteHeader 0 file names).2 = .ok (some names) := by
  cases names with
  | nil => exact absurd rfl hne
  | cons name rest =>
      refine ⟨rfl, ?_⟩
      show GetColumnNames comma (some (headerStr (name :: rest))) = _
      -- the parts, with the mark in the first one
      obtain ⟨init, last, hparts⟩ : ∃ init last, (kBOM ++ name) :: rest = init ++ [last] :=
        ⟨_, _, (List.dropLast_append_getLast (List.cons_ne_nil _ rest)).symm⟩
      have hclean := notMem_of_parts hplain hparts
      obtain ⟨-, hCR, hLF⟩ := hclean last (by simp)
      have hread := ReadRawData_headerStr hparts fun part hpart => (hclean part hpart).2.2
      have hsplit := str_split_headerStr hparts fun part hpart => (hclean part hpart).1
      have hlast : (init ++ [last ++ [LF]]).modifyLast eraseLineEnd = (kBOM ++ name) :: rest := by
        rw [List.modifyLast_concat, eraseLineEnd_append hLF hCR, ← hparts]
      have htrim := map_trimQuotes fun n hn => (hplain n hn).quote
      have hfilled : (headerStr (name :: rest)).isEmpty = false := by
        rw [headerStr]
        simp
      unfold GetColumnNames
      rw [hread]
      simp only [bind, Except.bind, hfilled, Bool.false_eq_true, if_false, hsplit, hlast,
        SkipUTF8BOM_append, htrim]
      rfl

/-- A first name that begins with the mark, and an empty last one. -/
theorem GetColumnNames_marked :
    (WriteHeader 0 none [kBOM ++ [97], []]).1 = .SUCCESS ∧
      GetColumnNames comma (WriteHeader 0 none [kBOM ++ [97], []]).2 =
        .ok (some [kBOM ++ [97], []]) := by
  refine GetColumnNames_WriteHeader (List.cons_ne_nil _ _) ?_ none
  intro name hname
  rcases List.mem_cons.mp hname with rfl | hname
  · exact ⟨by decide, by decide, by decide, by decide⟩
  · rw [List.mem_singleton.mp hname]
    exact ⟨by decide, by decide, by decide, by decide⟩

end Fediux.Store.Csv
