import Fediux.Basic.Fallible
import Fediux.Util.StrSplit

set_option autoImplicit false

/-! # Aligning a CSV table with a PSI result

`generate_new_dataset_from_csv` of `plain_data_util/data_align.py` writes, for each id of a PSI
result, a row of the table with this id, in the order of the result. It reads the table once; a
row whose turn has not come waits in a map. A file is its header and the rows of the CSV reader.
-/

namespace Fediux.Align

open Util (Str)

abbrev Row := List Str

/-- `str.isspace` for one character. -/
def isspace (c : Char) : Bool :=
  let n := c.toNat
  (9 ≤ n ∧ n ≤ 13) ∨ (28 ≤ n ∧ n ≤ 32) ∨ n = 0x85 ∨ n = 0xA0 ∨ n = 0x1680 ∨
    (0x2000 ≤ n ∧ n ≤ 0x200A) ∨ n = 0x2028 ∨ n = 0x2029 ∨ n = 0x202F ∨ n = 0x205F ∨ n = 0x3000

def strip (s : Str) : Str := ((s.dropWhile isspace).reverse.dropWhile isspace).reverse

inductive PyError where
  | IndexError
  | TypeError
  | ValueError
  | RuntimeError (msg : String)
  | Exception (msg : String)
  deriving DecidableEq, Repr

/-- `row[i]`; a negative index counts from the end. -/
def item? (row : Row) (i : ℤ) : Option Str :=
  if 0 ≤ i then row[i.toNat]?
  else if 0 ≤ i + row.length then row[(i + row.length).toNat]?
  else none

/-- `psi_index`. -/
inductive PsiIndex where
  | one (i : ℤ)
  | many (is : List ℤ)
  deriving DecidableEq, Repr

/-- The key of a row; none if the row has no such item. -/
def psi_key : PsiIndex → Row → Option Str
  | .one i, row => item? row i
  | .many is, row => is.foldlM (fun psi_key _index => (item? row _index).map (psi_key ++ ·)) []

/-- `intersection_list`, from the rows of the PSI result. -/
def intersectionList : List Row → Except PyError (List Str)
  | [] => .ok []
  | [] :: _ => .error .IndexError
  | (item :: _) :: f_csv => do
      let intersection_list ← intersectionList f_csv
      return if strip item = [] then intersection_list else strip item :: intersection_list

structure State where
  intersection_map : Str → Option Row
  intersection_list : List Str
  new_file : List Row

/-- The `while` loop: the rows that have waited for their turn are written. -/
def writePending (intersection_map : Str → Option Row) :
    List Str → List Row → List Str × List Row
  | [], new_file => ([], new_file)
  | psi_key :: intersection_list, new_file =>
      match intersection_map psi_key with
      | some row => writePending intersection_map intersection_list (new_file ++ [row])
      | none => (psi_key :: intersection_list, new_file)

/-- One row of the table; `intersection_set` has the ids of the result. -/
def readRow (psi_index : PsiIndex) (intersection_set : List Str) (s : State) (row : Row) :
    Except PyError State :=
  match psi_key psi_index row with
  | none => .error .IndexError
  | some psi_key =>
      if !intersection_set.contains psi_key then .ok s
      else
        match s.intersection_list with
        | [] => .error .IndexError
        | head :: rest =>
            if psi_key ≠ head then
              let intersection_map := Function.update s.intersection_map psi_key (some row)
              let (intersection_list, new_file) :=
                writePending intersection_map s.intersection_list s.new_file
              .ok { intersection_map, intersection_list, new_file }
            else
              let (intersection_list, new_file) :=
                writePending s.intersection_map rest (s.new_file ++ [row])
              .ok { s with intersection_list, new_file }

/-- The rows of the new file, which is then registered. -/
def generate_new_dataset_from_csv (psi_index : PsiIndex) (psi : List Row) (header : Row)
    (table : List Row) : Except PyError (List Row) := do
  let intersection_list ← intersectionList psi
  if intersection_list = [] then
    .error (.Exception "PSI result is empty, no intersection is found")
  else
    let s ← table.foldlM (readRow psi_index intersection_list)
      { intersection_map := fun _ => none, intersection_list, new_file := [header] }
    return s.new_file

/-! ## The loop -/

section

variable (psi_index : PsiIndex)

/-- A row with the id has been read. -/
def Seen (before : List Row) (id : Str) : Prop := ∃ row ∈ before, psi_key psi_index row = some id

instance (before : List Row) (id : Str) : Decidable (Seen psi_index before id) :=
  inferInstanceAs (Decidable (∃ row ∈ before, psi_key psi_index row = some id))

/-- The row is one of the table with the id. -/
def Refers (table : List Row) (id : Str) (row : Row) : Prop :=
  row ∈ table ∧ psi_key psi_index row = some id

/-- After the rows `before`: the ids up to the first that was not seen are written, and the map has
a row for each other id that was seen. -/
structure Inv (ids : List Str) (header : Row) (before : List Row) (s : State) : Prop where
  written : ∃ done rows, ids = done ++ s.intersection_list ∧ s.new_file = header :: rows ∧
    List.Forall₂ (Refers psi_index before) done rows
  head_not_seen : ∀ head rest, s.intersection_list = head :: rest → ¬ Seen psi_index before head
  map_refers : ∀ id row, s.intersection_map id = some row → Refers psi_index before id row
  map_seen : ∀ id ∈ s.intersection_list, Seen psi_index before id →
    s.intersection_map id ≠ none

end

variable {psi_index : PsiIndex} {ids : List Str} {header : Row} {before : List Row} {s : State}

theorem seen_append_singleton {row : Row} {id : Str} :
    Seen psi_index (before ++ [row]) id ↔
      Seen psi_index before id ∨ psi_key psi_index row = some id := by
  simp only [Seen, List.mem_append, List.mem_singleton, or_and_right, exists_or,
    exists_eq_left]

theorem Refers.mono {row : Row} {more : List Row} {id : Str} (h : Refers psi_index before id row) :
    Refers psi_index (before ++ more) id row :=
  ⟨List.mem_append_left more h.1, h.2⟩

theorem writePending_spec (intersection_map : Str → Option Row) (list : List Str)
    (new_file : List Row) : ∃ taken rows,
      list = taken ++ (writePending intersection_map list new_file).1 ∧
      (writePending intersection_map list new_file).2 = new_file ++ rows ∧
      List.Forall₂ (fun id row => intersection_map id = some row) taken rows ∧
      ∀ head rest, (writePending intersection_map list new_file).1 = head :: rest →
        intersection_map head = none := by
  induction list generalizing new_file with
  | nil => exact ⟨[], [], rfl, (List.append_nil _).symm, .nil, fun _ _ h => by cases h⟩
  | cons psi_key list ih =>
      rw [writePending]
      cases hmap : intersection_map psi_key with
      | none =>
          refine ⟨[], [], rfl, (List.append_nil _).symm, .nil, ?_⟩
          intro head rest h
          cases h
          exact hmap
      | some row =>
          obtain ⟨taken, rows, hlist, hfile, hrows, hhead⟩ := ih (new_file ++ [row])
          refine ⟨psi_key :: taken, row :: rows, congrArg (psi_key :: ·) hlist, ?_,
            .cons hmap hrows, hhead⟩
          rw [hfile, List.append_assoc]
          rfl

theorem Inv.head_pending {head : Str} {rest : List Str} (hinv : Inv psi_index ids header before s)
    (hlist : s.intersection_list = head :: rest) : s.intersection_map head = none := by
  cases hmap : s.intersection_map head with
  | none => rfl
  | some row =>
      have hrefers := hinv.map_refers head row hmap
      exact absurd ⟨row, hrefers⟩ (hinv.head_not_seen head rest hlist)

/-- A row with an id that is not in the result changes nothing. -/
theorem Inv.skip {row : Row} {id : Str} (hinv : Inv psi_index ids header before s)
    (hkey : psi_key psi_index row = some id) (hid : id ∉ ids) :
    Inv psi_index ids header (before ++ [row]) s := by
  obtain ⟨done, rows, hids, hfile, hrows⟩ := hinv.written
  have hseen : ∀ id' ∈ ids, Seen psi_index (before ++ [row]) id' → Seen psi_index before id' := by
    intro id' hid' h
    rcases seen_append_singleton.mp h with h | h
    · exact h
    · rw [hkey] at h
      cases h
      exact absurd hid' hid
  have hsub : ∀ id' ∈ s.intersection_list, id' ∈ ids := by
    intro id' h
    rw [hids]
    exact List.mem_append_right done h
  refine ⟨⟨done, rows, hids, hfile, hrows.imp fun _ _ h => h.mono⟩, ?_, ?_, ?_⟩
  · intro head rest hlist h
    have hmem : head ∈ s.intersection_list := by rw [hlist]; exact List.mem_cons_self
    exact hinv.head_not_seen head rest hlist (hseen head (hsub head hmem) h)
  · exact fun id' row' h => (hinv.map_refers id' row' h).mono
  · exact fun id' hmem h => hinv.map_seen id' hmem (hseen id' (hsub id' hmem) h)

/-- A row whose turn has not come waits in the map. -/
theorem Inv.wait {row : Row} {id head : Str} {rest : List Str}
    (hinv : Inv psi_index ids header before s) (hkey : psi_key psi_index row = some id)
    (hlist : s.intersection_list = head :: rest) (hne : id ≠ head) :
    Inv psi_index ids header (before ++ [row])
      { s with intersection_map := Function.update s.intersection_map id (some row) } := by
  obtain ⟨done, rows, hids, hfile, hrows⟩ := hinv.written
  refine ⟨⟨done, rows, hids, hfile, hrows.imp fun _ _ h => h.mono⟩, ?_, ?_, ?_⟩
  · intro head' rest' hlist' h
    have hhead : head' = head := by
      rw [hlist] at hlist'
      cases hlist'
      rfl
    rcases seen_append_singleton.mp h with h | h
    · exact hinv.head_not_seen head' rest' hlist' h
    · rw [hkey] at h
      exact hne ((Option.some.inj h).trans hhead)
  · intro id' row' hmap
    change Function.update s.intersection_map id (some row) id' = some row' at hmap
    by_cases hid : id' = id
    · subst hid
      rw [Function.update_self] at hmap
      cases hmap
      exact ⟨List.mem_append_right before (List.mem_singleton_self _), hkey⟩
    · rw [Function.update_of_ne hid] at hmap
      exact (hinv.map_refers id' row' hmap).mono
  · intro id' hmem h
    show Function.update s.intersection_map id (some row) id' ≠ none
    by_cases hid : id' = id
    · subst hid
      rw [Function.update_self]
      exact Option.some_ne_none row
    · rw [Function.update_of_ne hid]
      rcases seen_append_singleton.mp h with h | h
      · exact hinv.map_seen id' hmem h
      · rw [hkey] at h
        exact absurd (Option.some.inj h).symm hid

/-- The row whose turn it is is written, and then the rows that waited for it. -/
theorem Inv.write {row : Row} {head : Str} {rest : List Str} (hnodup : ids.Nodup)
    (hinv : Inv psi_index ids header before s) (hkey : psi_key psi_index row = some head)
    (hlist : s.intersection_list = head :: rest) :
    Inv psi_index ids header (before ++ [row])
      { s with
        intersection_list := (writePending s.intersection_map rest (s.new_file ++ [row])).1
        new_file := (writePending s.intersection_map rest (s.new_file ++ [row])).2 } := by
  obtain ⟨done, rows, hids, hfile, hrows⟩ := hinv.written
  obtain ⟨taken, more, hrest, hnew, hmore, hstop⟩ :=
    writePending_spec s.intersection_map rest (s.new_file ++ [row])
  set left := (writePending s.intersection_map rest (s.new_file ++ [row])).1 with hleft
  have hrow : Refers psi_index (before ++ [row]) head row :=
    ⟨List.mem_append_right before (List.mem_singleton_self row), hkey⟩
  -- the ids are distinct, so that no other id on the list has just been seen
  have hseen : ∀ id ∈ rest, Seen psi_index (before ++ [row]) id → Seen psi_index before id := by
    intro id hid h
    rcases seen_append_singleton.mp h with h | h
    · exact h
    · rw [hkey] at h
      cases h
      rw [hids, hlist] at hnodup
      exact absurd hid (List.nodup_cons.mp (List.nodup_append.mp hnodup).2.1).1
  have hsub : ∀ id ∈ left, id ∈ rest := by
    intro id hid
    rw [hrest]
    exact List.mem_append_right taken hid
  have hmem : ∀ id ∈ rest, id ∈ s.intersection_list := by
    intro id hid
    rw [hlist]
    exact List.mem_cons_of_mem head hid
  refine ⟨⟨done ++ head :: taken, rows ++ row :: more, ?_, ?_, ?_⟩, ?_, ?_, ?_⟩
  · rw [hids, hlist, hrest, List.append_assoc]
    rfl
  · show (writePending s.intersection_map rest (s.new_file ++ [row])).2 = _
    rw [hnew, hfile]
    simp
  · refine List.rel_append (hrows.imp fun _ _ h => h.mono) (.cons hrow ?_)
    exact hmore.imp fun id row' h => (hinv.map_refers id row' h).mono
  · intro head' rest' hleft' h
    change left = head' :: rest' at hleft'
    have hhead' : head' ∈ left := by rw [hleft']; exact List.mem_cons_self
    have hbefore := hseen head' (hsub head' hhead') h
    exact hinv.map_seen head' (hmem head' (hsub head' hhead')) hbefore (hstop head' rest' hleft')
  · exact fun id row' h => (hinv.map_refers id row' h).mono
  · intro id hid h
    exact hinv.map_seen id (hmem id (hsub id hid)) (hseen id (hsub id hid) h)

/-- One row: an exception if it has a listed id and no id is left, and otherwise a step that keeps
the invariant. -/
theorem readRow_spec {row : Row} {id : Str} (hnodup : ids.Nodup)
    (hinv : Inv psi_index ids header before s) (hkey : psi_key psi_index row = some id) :
    if id ∈ ids ∧ s.intersection_list = [] then
      readRow psi_index ids s row = .error .IndexError
    else ∃ s', readRow psi_index ids s row = .ok s' ∧
      Inv psi_index ids header (before ++ [row]) s' := by
  unfold readRow
  rw [hkey]
  by_cases hid : id ∈ ids
  · cases hlist : s.intersection_list with
    | nil =>
        rw [if_pos ⟨hid, rfl⟩]
        simp [hid]
    | cons head rest =>
        rw [if_neg fun h => List.cons_ne_nil _ _ h.2]
        by_cases hne : id = head
        · subst hne
          refine ⟨_, ?_, hinv.write hnodup hkey hlist⟩
          simp [hid]
        · refine ⟨_, ?_, hinv.wait hkey hlist hne⟩
          have hpending : Function.update s.intersection_map id (some row) head = none := by
            rw [Function.update_of_ne (Ne.symm hne)]
            exact hinv.head_pending hlist
          have hwrite : writePending (Function.update s.intersection_map id (some row))
              (head :: rest) s.new_file = (head :: rest, s.new_file) := by
            rw [writePending, hpending]
          simp [hid, hne, hwrite, hlist]
  · rw [if_neg fun h => hid h.1]
    exact ⟨s, by simp [hid], hinv.skip hkey hid⟩

theorem Inv.list_ne_nil_iff (hinv : Inv psi_index ids header before s) :
    s.intersection_list ≠ [] ↔ ∃ id ∈ ids, ¬ Seen psi_index before id := by
  obtain ⟨done, rows, hids, -, hrows⟩ := hinv.written
  constructor
  · intro hne
    cases hlist : s.intersection_list with
    | nil => exact absurd hlist hne
    | cons head rest =>
        refine ⟨head, ?_, hinv.head_not_seen head rest hlist⟩
        rw [hids, hlist]
        exact List.mem_append_right done List.mem_cons_self
  · rintro ⟨id, hid, hseen⟩ hnil
    rw [hids, hnil, List.append_nil] at hid
    obtain ⟨i, hi, rfl⟩ := List.getElem_of_mem hid
    have hi' : i < rows.length := hrows.length_eq ▸ hi
    exact hseen ⟨rows[i], (List.forall₂_iff_get.mp hrows).2 i hi hi'⟩

/-- No row with a listed id comes after all ids have been seen: each such row of `table`, read after
`before` and the rows in front of it, leaves an id to be seen. -/
def NoneLate (psi_index : PsiIndex) (ids : List Str) (before table : List Row) : Prop :=
  ∀ front row back, table = front ++ row :: back → (∃ id ∈ ids, psi_key psi_index row = some id) →
    ∃ id ∈ ids, ¬ Seen psi_index (before ++ front) id

theorem noneLate_nil : NoneLate psi_index ids before [] := by
  intro front row back htable
  cases front <;> cases htable

theorem noneLate_cons {row : Row} {table : List Row} :
    NoneLate psi_index ids before (row :: table) ↔
      ((∃ id ∈ ids, psi_key psi_index row = some id) →
        ∃ id ∈ ids, ¬ Seen psi_index before id) ∧
      NoneLate psi_index ids (before ++ [row]) table := by
  constructor
  · intro h
    refine ⟨fun hrow => ?_, fun front row' back htable hrow => ?_⟩
    · simpa using h [] row table rfl hrow
    · simpa using h (row :: front) row' back (congrArg (row :: ·) htable) hrow
  · rintro ⟨hhead, htail⟩ front row' back htable hrow
    cases front with
    | nil =>
        cases htable
        simpa using hhead hrow
    | cons row'' front =>
        cases htable
        simpa using htail front row' back rfl hrow

/-- The whole loop, from a state that fits the rows read so far. -/
theorem readRows_spec (hnodup : ids.Nodup) {table : List Row}
    (hkeys : ∀ row ∈ table, psi_key psi_index row ≠ none)
    (hinv : Inv psi_index ids header before s) :
    (NoneLate psi_index ids before table →
      ∃ s', table.foldlM (readRow psi_index ids) s = .ok s' ∧
        Inv psi_index ids header (before ++ table) s') ∧
    (¬ NoneLate psi_index ids before table →
      table.foldlM (readRow psi_index ids) s = .error .IndexError) := by
  induction table generalizing before s with
  | nil =>
      refine ⟨fun _ => ⟨s, rfl, ?_⟩, fun h => absurd noneLate_nil h⟩
      rwa [List.append_nil]
  | cons row table ih =>
      obtain ⟨id, hkey⟩ := Option.ne_none_iff_exists'.mp (hkeys row List.mem_cons_self)
      have hstep := readRow_spec hnodup hinv hkey
      have hlisted : (∃ id ∈ ids, psi_key psi_index row = some id) ↔ id ∈ ids := by
        rw [hkey]
        simp
      rw [noneLate_cons, hlisted, ← hinv.list_ne_nil_iff]
      by_cases hstuck : id ∈ ids ∧ s.intersection_list = []
      · rw [if_pos hstuck] at hstep
        refine ⟨fun h => absurd hstuck.2 (h.1 hstuck.1), fun _ => ?_⟩
        exact Fallible.foldlM_cons_of_error hstep
      · rw [if_neg hstuck] at hstep
        obtain ⟨s', hread, hinv'⟩ := hstep
        have hrest := ih (fun row' h => hkeys row' (List.mem_cons_of_mem row h)) hinv'
        rw [Fallible.foldlM_cons_of_ok hread]
        refine ⟨fun h => ?_, fun h => hrest.2 fun htable => h ⟨?_, htable⟩⟩
        · have hdone := hrest.1 h.2
          rwa [List.append_assoc, List.singleton_append] at hdone
        · exact fun hid hnil => hstuck ⟨hid, hnil⟩

theorem inv_start : Inv psi_index ids header []
    { intersection_map := fun _ => none, intersection_list := ids, new_file := [header] } where
  written := ⟨[], [], rfl, rfl, .nil⟩
  head_not_seen := fun _ _ _ ⟨_, h, _⟩ => List.not_mem_nil h
  map_refers := fun _ _ h => by cases h
  map_seen := fun _ _ ⟨_, h, _⟩ => absurd h List.not_mem_nil

/-! ## The new file -/

/-- The result and the table of one party: the ids are distinct, every row has its key columns, and
every id is the key of a row. -/
structure Input (ids : List Str) where
  psi_index : PsiIndex
  psi : List Row
  header : Row
  table : List Row
  read_psi : intersectionList psi = .ok ids
  keys : ∀ row ∈ table, psi_key psi_index row ≠ none
  occurs : ∀ id ∈ ids, Seen psi_index table id

def Input.run (party : Input ids) : Except PyError (List Row) :=
  generate_new_dataset_from_csv party.psi_index party.psi party.header party.table

/-- The function ends without exception, and behind the header stands one row for each id, in the
order of the ids. -/
def Input.Aligned (party : Input ids) : Prop :=
  ∃ rows, party.run = .ok (party.header :: rows) ∧
    List.Forall₂ (Refers party.psi_index party.table) ids rows

/-- No row with a listed id comes after each listed id has occurred. -/
def Input.NoneLate (party : Input ids) : Prop :=
  ∀ front row back, party.table = front ++ row :: back →
    (∃ id ∈ ids, psi_key party.psi_index row = some id) →
      ∃ id ∈ ids, ¬ Seen party.psi_index front id

theorem Input.noneLate_iff (party : Input ids) :
    party.NoneLate ↔ Align.NoneLate party.psi_index ids [] party.table := Iff.rfl

theorem Input.run_eq (party : Input ids) (hne : ids ≠ []) :
    party.run = (party.table.foldlM (readRow party.psi_index ids)
      { intersection_map := fun _ => none, intersection_list := ids,
        new_file := [party.header] }).map State.new_file := by
  unfold Input.run generate_new_dataset_from_csv
  rw [party.read_psi]
  show (if ids = [] then _ else _) = _
  rw [if_neg hne]
  generalize party.table.foldlM (readRow party.psi_index ids) _ = s
  cases s <;> rfl

theorem Input.run_of_nil (party : Input ids) (h : ids = []) :
    party.run = .error (.Exception "PSI result is empty, no intersection is found") := by
  unfold Input.run generate_new_dataset_from_csv
  rw [party.read_psi]
  exact if_pos h

theorem Input.run_of_noneLate (party : Input ids) (hnodup : ids.Nodup) (hne : ids ≠ [])
    (hlate : party.NoneLate) : party.Aligned := by
  have hstart : Inv party.psi_index ids party.header [] _ := inv_start
  obtain ⟨s, hs, hinv⟩ := (readRows_spec hnodup party.keys hstart).1 hlate
  rw [List.nil_append] at hinv
  obtain ⟨done, rows, hids, hfile, hrows⟩ := hinv.written
  have hnil : s.intersection_list = [] := by
    by_contra hlist
    obtain ⟨id, hid, hseen⟩ := hinv.list_ne_nil_iff.mp hlist
    exact hseen (party.occurs id hid)
  rw [hnil, List.append_nil] at hids
  refine ⟨rows, ?_, hids ▸ hrows⟩
  rw [party.run_eq hne, hs, ← hfile]
  rfl

theorem Input.run_of_late (party : Input ids) (hnodup : ids.Nodup) (hne : ids ≠ [])
    (hlate : ¬ party.NoneLate) : party.run = .error .IndexError := by
  have hstart : Inv party.psi_index ids party.header [] _ := inv_start
  rw [party.run_eq hne, (readRows_spec hnodup party.keys hstart).2 hlate]
  rfl

theorem Input.aligned_iff (party : Input ids) (hnodup : ids.Nodup) :
    party.Aligned ↔ ids ≠ [] ∧ party.NoneLate := by
  refine ⟨fun ⟨rows, h, _⟩ => ⟨fun hnil => ?_, ?_⟩,
    fun ⟨hne, hlate⟩ => party.run_of_noneLate hnodup hne hlate⟩
  · rw [party.run_of_nil hnil] at h
    cases h
  · by_contra hlate
    have hne : ids ≠ [] := by
      intro hnil
      rw [party.run_of_nil hnil] at h
      cases h
    rw [party.run_of_late hnodup hne hlate] at h
    cases h

/-- Whatever file a run gives, it is aligned. -/
theorem Input.refers_of_run (party : Input ids) (hnodup : ids.Nodup) {rows : List Row}
    (hrun : party.run = .ok (party.header :: rows)) :
    List.Forall₂ (Refers party.psi_index party.table) ids rows := by
  by_cases hne : ids = []
  · rw [party.run_of_nil hne] at hrun
    cases hrun
  · by_cases hlate : party.NoneLate
    · obtain ⟨rows', hrun', hrows⟩ := party.run_of_noneLate hnodup hne hlate
      rw [hrun] at hrun'
      cases hrun'
      exact hrows
    · rw [party.run_of_late hnodup hne hlate] at hrun
      cases hrun

/-- Two lists of rows for the same ids have the same id at each place. -/
theorem same_ids {psi_index' : PsiIndex} {table table' rows rows' : List Row}
    (h : List.Forall₂ (Refers psi_index table) ids rows)
    (h' : List.Forall₂ (Refers psi_index' table') ids rows') :
    List.Forall₂ (fun row row' => psi_key psi_index row = psi_key psi_index' row') rows rows' := by
  induction h generalizing rows' with
  | nil =>
      cases h'
      exact .nil
  | cons hrow _ ih =>
      cases h' with
      | cons hrow' h' => exact .cons (hrow.2.trans hrow'.2.symm) (ih h')

/-- **When an alignment succeeds**: if there are ids and no row with one of them comes after all of
them have occurred. Two parties with the same ids then have rows of the same id at each place. -/
theorem alignment_iff {ids : List Str} (hnodup : ids.Nodup) (party : Input ids) :
    (party.Aligned ↔ ids ≠ [] ∧ party.NoneLate) ∧
    ∀ other : Input ids, ∀ rows rows', party.run = .ok (party.header :: rows) →
      other.run = .ok (other.header :: rows') →
        List.Forall₂ (fun row row' =>
          psi_key party.psi_index row = psi_key other.psi_index row') rows rows' :=
  ⟨party.aligned_iff hnodup, fun other _ _ hrun hrun' =>
    same_ids (party.refers_of_run hnodup hrun) (other.refers_of_run hnodup hrun')⟩

/-- The result `a, b`, and a table of one column with these keys. -/
def oneColumn (keys : List Char) (hkeys : 'a' ∈ keys ∧ 'b' ∈ keys) :
    Input [['a'], ['b']] where
  psi_index := .one 0
  psi := [[['a']], [['b']]]
  header := [['i', 'd']]
  table := keys.map fun key => [[key]]
  read_psi := by decide
  keys := by
    intro row hrow
    obtain ⟨key, -, rfl⟩ := List.mem_map.mp hrow
    exact Option.some_ne_none _
  occurs := by
    intro id hid
    obtain ⟨ha, hb⟩ := hkeys
    simp only [List.mem_cons, List.not_mem_nil, or_false] at hid
    rcases hid with rfl | rfl
    · exact ⟨[['a']], List.mem_map.mpr ⟨'a', ha, rfl⟩, rfl⟩
    · exact ⟨[['b']], List.mem_map.mpr ⟨'b', hb, rfl⟩, rfl⟩

/-- The table `b, b, c, a` is aligned. -/
theorem alignment_babc : (oneColumn ['b', 'b', 'c', 'a'] (by decide)).Aligned := by
  refine (alignment_iff (by decide) (oneColumn ['b', 'b', 'c', 'a'] (by decide))).1.mpr
    ⟨by decide, ?_⟩
  rw [Input.noneLate_iff]
  refine noneLate_cons.mpr ⟨by decide, noneLate_cons.mpr ⟨by decide, noneLate_cons.mpr
    ⟨by decide, noneLate_cons.mpr ⟨by decide, noneLate_nil⟩⟩⟩⟩

/-- The table `b, a, b` ends with an `IndexError`. -/
theorem not_aligned_bab :
    (oneColumn ['b', 'a', 'b'] (by decide)).run = .error .IndexError ∧
    ¬ (oneColumn ['b', 'a', 'b'] (by decide)).Aligned := by
  have hrun : (oneColumn ['b', 'a', 'b'] (by decide)).run = .error .IndexError := by decide
  refine ⟨hrun, ?_⟩
  rintro ⟨rows, h, _⟩
  rw [hrun] at h
  cases h

end Fediux.Align
