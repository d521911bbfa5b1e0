import Fediux.Pir.Keyword

set_option autoImplicit false

/-! # What the client saves for a key

The label of a key comes back padded with zero bytes, is split at the separator and cut at its
first zero byte. `read_labels_iff` says when this gives the labels that were joined, and
`savesRows_iff` when the client saves the rows of the server.
-/

namespace Fediux.Pir

open Fediux.Util Fediux.Arrow

/-! ## Labels -/

section Labels

variable {ts : List Str} {t : Str} {n : ℕ}

theorem comma_not_mem_sep : ',' ∉ DATA_RECORD_SEP.1 := by decide

theorem NUL_not_mem_sep : NUL ∉ DATA_RECORD_SEP.1 := by decide

theorem eraseFromNul_of_not_mem {item : Str} (h : NUL ∉ item) : eraseFromNul item = item := by
  unfold eraseFromNul
  rw [List.takeWhile_eq_self_iff]
  intro c hc
  exact decide_eq_true fun heq => h (heq ▸ hc)

theorem eraseFromNul_append_nuls (h : NUL ∉ t) :
    eraseFromNul (t ++ List.replicate n NUL) = t := by
  have hself : t.takeWhile (fun c => c ≠ NUL) = t := eraseFromNul_of_not_mem h
  unfold eraseFromNul
  rw [List.takeWhile_append_of_pos (by simpa using fun c hc (heq : c = NUL) => h (heq ▸ hc))]
  cases n with
  | zero => rw [List.replicate_zero, List.takeWhile_nil, List.append_nil]
  | succ n => rw [List.replicate_succ, List.takeWhile_cons_of_neg (by simp), List.append_nil]

/-- What `eraseFromNul` takes away is nothing or starts with a zero byte. -/
theorem eq_eraseFromNul_append (item : Str) :
    NUL ∉ eraseFromNul item ∧
      (item = eraseFromNul item ∨ ∃ r, item = eraseFromNul item ++ NUL :: r) := by
  induction item with
  | nil => exact ⟨List.not_mem_nil, Or.inl rfl⟩
  | cons c item ih =>
      obtain ⟨hnot, hcases⟩ := ih
      unfold eraseFromNul at *
      by_cases hc : c = NUL
      · rw [List.takeWhile_cons_of_neg (by simpa using hc), hc]
        exact ⟨List.not_mem_nil, Or.inr ⟨item, rfl⟩⟩
      · rw [List.takeWhile_cons_of_pos (by simpa using hc)]
        refine ⟨?_, ?_⟩
        · rw [List.mem_cons, not_or]
          exact ⟨fun h => hc h.symm, hnot⟩
        · rcases hcases with h | ⟨r, h⟩
          · exact Or.inl (congrArg (c :: ·) h)
          · exact Or.inr ⟨r, congrArg (c :: ·) h⟩

/-- Pieces that become the labels when they are cut are the labels, but for the last. -/
theorem eq_of_map_eraseFromNul {ss : List Str} {rest extra : Str}
    (hmap : ss.map eraseFromNul = ts ++ [t])
    (hjoin : List.intercalate DATA_RECORD_SEP.1 ss ++ extra =
      List.intercalate DATA_RECORD_SEP.1 (ts ++ [rest])) :
    ∃ last, ss = ts ++ [last] ∧ last ++ extra = rest := by
  induction ts generalizing ss with
  | nil =>
      obtain ⟨last, rfl, _⟩ := List.map_eq_singleton_iff.mp hmap
      rw [List.intercalate_singleton, List.nil_append, List.intercalate_singleton] at hjoin
      exact ⟨last, rfl, hjoin⟩
  | cons u ts ih =>
      rw [List.cons_append] at hmap
      obtain ⟨s, ss, rfl, hs, hss⟩ := List.map_eq_cons_iff.mp hmap
      have hne : ss ≠ [] := by
        rintro rfl
        simp at hss
      rw [Separator.intercalate_cons_of_ne_nil hne, List.cons_append,
        Separator.intercalate_cons_of_ne_nil (List.append_ne_nil_of_right_ne_nil _
          (List.cons_ne_nil _ _))] at hjoin
      have hu : s = u := by
        rcases (eq_eraseFromNul_append s).2 with h | ⟨r, h⟩
        · rw [← hs]
          exact h
        · -- a zero byte would stand where the separator starts
          rw [h, hs] at hjoin
          simp only [List.append_assoc] at hjoin
          have htail := List.append_cancel_left hjoin
          injection htail with hnul _
          exact absurd hnul (by decide)
      subst hu
      simp only [List.append_assoc] at hjoin
      obtain ⟨last, hlast, hrest⟩ := ih hss (by
        simpa only [List.append_assoc] using
          List.append_cancel_left (List.append_cancel_left hjoin))
      exact ⟨last, by rw [hlast, List.cons_append], hrest⟩

/-- The pieces of a padded label, joined. -/
theorem padded_label_eq :
    List.intercalate DATA_RECORD_SEP.1 (ts ++ [t]) ++ List.replicate n NUL =
      List.intercalate DATA_RECORD_SEP.1 (ts ++ [t ++ List.replicate n NUL]) :=
  (Separator.intercalate_concat_append _ _ _ _).symm

/-- The pieces are all there, or an empty one behind them was dropped. -/
theorem join_str_split (str : Str) (hne : str ≠ []) :
    (Separator.pieces DATA_RECORD_SEP str = str_split DATA_RECORD_SEP str ∧
        List.intercalate DATA_RECORD_SEP.1 (str_split DATA_RECORD_SEP str) = str) ∨
      (str_split DATA_RECORD_SEP str ≠ [] ∧
        Separator.pieces DATA_RECORD_SEP str = str_split DATA_RECORD_SEP str ++ [[]] ∧
        List.intercalate DATA_RECORD_SEP.1 (str_split DATA_RECORD_SEP str) ++
          DATA_RECORD_SEP.1 = str) := by
  have hpieces := pieces_eq DATA_RECORD_SEP str
  have hjoin := Separator.intercalate_pieces DATA_RECORD_SEP str
  by_cases hlast : (Separator.pieces DATA_RECORD_SEP str).getLast? = some []
  · right
    rw [if_pos hlast] at hpieces
    have hsplit : str_split DATA_RECORD_SEP str ≠ [] := by
      intro h
      rw [hpieces, h, List.nil_append, List.intercalate_singleton] at hjoin
      exact hne hjoin.symm
    refine ⟨hsplit, hpieces, ?_⟩
    rw [hpieces, Separator.intercalate_concat hsplit, List.append_nil] at hjoin
    exact hjoin
  · left
    rw [if_neg hlast, List.append_nil] at hpieces
    exact ⟨hpieces, by rwa [hpieces] at hjoin⟩

/-- **When the labels come back.** -/
theorem read_labels_iff (ht : t ≠ []) :
    (str_split DATA_RECORD_SEP (List.intercalate DATA_RECORD_SEP.1 (ts ++ [t]) ++
        List.replicate n NUL)).map eraseFromNul = ts ++ [t] ↔
      (∀ w ∈ ts ++ [t], NUL ∉ w ∧ ¬ DATA_RECORD_SEP.1 <:+: w) ∧
        ∀ w ∈ ts, w.getLast? ≠ some '#' := by
  rw [padded_label_eq]
  have hpad : t ++ List.replicate n NUL ≠ [] := List.append_ne_nil_of_left_ne_nil ht _
  constructor
  · intro h
    have hsplit : str_split DATA_RECORD_SEP (List.intercalate DATA_RECORD_SEP.1
        (ts ++ [t ++ List.replicate n NUL])) = ts ++ [t ++ List.replicate n NUL] := by
      have hwhole : List.intercalate DATA_RECORD_SEP.1 (ts ++ [t ++ List.replicate n NUL]) ≠ [] := by
        intro hnil
        rw [hnil, str_split_nil, List.map_nil] at h
        exact List.cons_ne_nil _ _ (List.append_eq_nil_iff.mp h.symm).2
      rcases join_str_split _ hwhole with ⟨_, hjoin⟩ | ⟨_, _, hjoin⟩
      · rw [← List.append_nil (List.intercalate _ (str_split _ _))] at hjoin
        obtain ⟨last, hlast, heq⟩ := eq_of_map_eraseFromNul h hjoin
        rw [List.append_nil] at heq
        rw [hlast, heq]
      · -- the padded label does not end with the separator, unless its last part does
        obtain ⟨last, hlast, heq⟩ := eq_of_map_eraseFromNul h hjoin
        rw [hlast, List.map_append, List.map_singleton] at h
        have hcut := (List.append_inj' h rfl).2
        injection hcut with hcut _
        obtain ⟨r, hr⟩ : ∃ r, last = t ++ r := by
          rcases (eq_eraseFromNul_append last).2 with hlast | ⟨r, hlast⟩
          · exact ⟨[], by rw [List.append_nil, ← hcut]; exact hlast⟩
          · exact ⟨NUL :: r, by rw [← hcut]; exact hlast⟩
        rw [hr, List.append_assoc] at heq
        have hmem : '#' ∈ List.replicate n NUL := by
          rw [← List.append_cancel_left heq]
          exact List.mem_append_right r (by decide)
        exact absurd (List.eq_of_mem_replicate hmem) (by decide)
    obtain ⟨hclean, hinfix, _⟩ := str_split_intercalate_iff.mp hsplit
    rw [Separator.infix_append_replicate_iff DATA_RECORD_SEP.2 NUL_not_mem_sep] at hinfix
    have hnul : ∀ w ∈ ts ++ [t], NUL ∉ w := by
      intro w hw
      rw [← h] at hw
      obtain ⟨s, _, rfl⟩ := List.mem_map.mp hw
      exact (eq_eraseFromNul_append s).1
    refine ⟨fun w hw => ⟨hnul w hw, ?_⟩, fun w hw => (clean_record_iff.mp (hclean w hw)).2⟩
    rcases List.mem_append.mp hw with hw | hw
    · exact (clean_record_iff.mp (hclean w hw)).1
    · rwa [List.mem_singleton.mp hw]
  · rintro ⟨hall, hends⟩
    have hsplit : str_split DATA_RECORD_SEP (List.intercalate DATA_RECORD_SEP.1
        (ts ++ [t ++ List.replicate n NUL])) = ts ++ [t ++ List.replicate n NUL] := by
      refine str_split_intercalate_iff.mpr ⟨fun w hw => ?_, ?_, hpad⟩
      · exact clean_record_iff.mpr ⟨(hall w (List.mem_append_left _ hw)).2, hends w hw⟩
      · rw [Separator.infix_append_replicate_iff DATA_RECORD_SEP.2 NUL_not_mem_sep]
        exact (hall t (by simp)).2
    rw [hsplit, List.map_append, List.map_singleton,
      eraseFromNul_append_nuls (hall t (by simp)).1]
    congr 1
    conv_rhs => rw [← List.map_id ts]
    exact List.map_congr_left fun w hw =>
      eraseFromNul_of_not_mem (hall w (List.mem_append_left _ hw)).1

/-- **No label is lost in the splitting.** -/
theorem length_le_str_split (ts : List Str) (n : ℕ) (hcomma : ',' ∈ t) :
    ts.length + 1 ≤ (str_split DATA_RECORD_SEP
      (List.intercalate DATA_RECORD_SEP.1 (ts ++ [t]) ++ List.replicate n NUL)).length := by
  rw [padded_label_eq]
  set rest := t ++ List.replicate n NUL with hrest
  set str := List.intercalate DATA_RECORD_SEP.1 (ts ++ [rest]) with hstr
  have hcount : (ts ++ [rest]).length ≤ (Separator.pieces DATA_RECORD_SEP str).length :=
    Separator.length_le_length_pieces
  have hsuffix : rest <:+ str := by
    by_cases hts : ts = []
    · rw [hstr, hts, List.nil_append, List.intercalate_singleton]
    · rw [hstr, Separator.intercalate_concat hts]
      exact List.suffix_append _ _
  have hmem : ',' ∈ rest := List.mem_append_left _ hcomma
  have hne : str ≠ [] := List.ne_nil_of_mem (hsuffix.subset hmem)
  rcases join_str_split str hne with ⟨hpieces, _⟩ | ⟨_, hpieces, hjoin⟩
  · rwa [hpieces, List.length_append, List.length_singleton] at hcount
  · -- an empty piece was dropped, so the last label ends with a separator of its own
    have hend : DATA_RECORD_SEP.1 <:+ rest := by
      rcases List.suffix_or_suffix_of_suffix ⟨_, hjoin⟩ hsuffix with h | h
      · exact h
      · exact absurd (h.subset hmem) comma_not_mem_sep
    obtain ⟨t', ht'⟩ := hend
    have hmore : str = List.intercalate DATA_RECORD_SEP.1 (ts ++ [t'] ++ [[]]) := by
      rw [Separator.intercalate_concat (List.append_ne_nil_of_right_ne_nil _
        (List.cons_ne_nil _ _)), List.append_nil, hstr, ← ht',
        Separator.intercalate_concat_append]
    have hcount' : (ts ++ [t'] ++ [[]]).length ≤
        (Separator.pieces DATA_RECORD_SEP str).length := by
      rw [hmore]
      exact Separator.length_le_length_pieces
    rw [hpieces] at hcount'
    simp only [List.length_append, List.length_cons, List.length_nil] at hcount'
    omega

end Labels

/-! ## The task -/

/-- The rows that a request asks for. -/
def Request.Matches (key_col : List ℕ) (row : List Str) : Request → Prop
  | .item text => rowText key_col row = text
  | .columns values => (key_col.map fun col => row.getD col []) = values

instance decidableMatches (key_col : List ℕ) (row : List Str) (r : Request) :
    Decidable (r.Matches key_col row) :=
  match r with
  | .item text => inferInstanceAs (Decidable (rowText key_col row = text))
  | .columns values => inferInstanceAs (Decidable (_ = values))

theorem Request.text_of_matches {key_col : List ℕ} {row : List Str} {r : Request}
    (h : r.Matches key_col row) : rowText key_col row = r.text := by
  cases r with
  | item text => exact h
  | columns values => exact congrArg (List.intercalate [',']) h

/-- The rows that the server cannot tell from those of the request. -/
def sameText (table : Table) (key_col : List ℕ) (r : Request) : List (List Str) :=
  table.rows.filter fun row => rowText key_col row = r.text

section Task

variable {table : Table} {key_col : List ℕ} {apsi : Apsi} {requests : List Request} {r : Request}

theorem getD_extractOne (result : PirDataType) (key : Str) (record : MatchRecord) (k : Str) :
    (OrderedMap.find? (extractOne result key record) k).getD [] =
      (OrderedMap.find? result k).getD [] ++
        if k = key ∧ record.found then str_split DATA_RECORD_SEP record.label else [] := by
  unfold extractOne
  by_cases hfound : record.found
  · rw [if_neg (not_not.mpr hfound)]
    by_cases hlabel : record.label = []
    · rw [if_pos hlabel, hlabel, str_split_nil, ite_self, List.append_nil]
    · rw [if_neg hlabel, OrderedMap.find?_assign]
      by_cases hk : k = key
      · rw [if_pos hk, if_pos ⟨hk, hfound⟩, hk, Option.getD_some]
      · rw [if_neg hk, if_neg fun h => hk h.1, List.append_nil]
  · rw [if_pos hfound, if_neg fun h => hfound h.2, List.append_nil]

/-- What `ExtractResult` has for a key. -/
theorem getD_ExtractResult {keys : List Str} (hnodup : keys.Nodup) (query : Str → MatchRecord)
    (k : Str) :
    (OrderedMap.find? (ExtractResult keys (keys.map query)) k).getD [] =
      if k ∈ keys ∧ (query k).found then str_split DATA_RECORD_SEP (query k).label else [] := by
  have hloop : ∀ result : PirDataType,
      (OrderedMap.find? ((keys.zip (keys.map query)).foldl
        (fun result p => extractOne result p.1 p.2) result) k).getD [] =
      (OrderedMap.find? result k).getD [] ++
        if k ∈ keys ∧ (query k).found then str_split DATA_RECORD_SEP (query k).label else [] := by
    induction keys with
    | nil =>
        intro result
        rw [if_neg (by simp), List.append_nil]
        rfl
    | cons key keys ih =>
        intro result
        obtain ⟨hnot, hnodup⟩ := List.nodup_cons.mp hnodup
        rw [List.map_cons, List.zip_cons_cons, List.foldl_cons, ih hnodup, getD_extractOne]
        by_cases hk : k = key
        · subst hk
          simp [hnot]
        · simp [hk]
  have := hloop []
  rwa [OrderedMap.find?_nil, Option.getD_none, List.nil_append] at this

theorem getD_SaveResult (result : PirDataType) (k : Str) :
    (OrderedMap.find? (SaveResult result) k).getD [] =
      ((OrderedMap.find? result k).getD []).map eraseFromNul := by
  rw [SaveResult, OrderedMap.find?_map_values]
  cases OrderedMap.find? result k <;> rfl

/-- A task on a table without rows reads behind the end of the database. -/
theorem keywordPir_empty (htwo : 2 ≤ table.columns.length) (hne : key_col ≠ [])
    (hkey : ∀ col ∈ key_col, col < table.columns.length) (hrows : table.num_rows = 0) :
    keywordPir apsi table key_col requests = .error .undefinedBehaviour := by
  obtain ⟨elements, hload, hfind⟩ := ServerLoadDataset_spec htwo hne hkey
  have hnil : table.rows = [] := by
    rw [← List.length_eq_zero_iff, table.length_rows, hrows]
  have helements : elements = [] := by
    cases elements with
    | nil => rfl
    | cons e m =>
        have := hfind e.1
        rw [hnil, List.filter_nil, if_pos rfl, OrderedMap.find?, if_pos rfl] at this
        cases this
  unfold keywordPir
  rw [hload, helements]
  rfl

/-- **What the client saves for a key.** -/
theorem keywordPir_spec (apsi : Apsi) (htwo : 2 ≤ table.columns.length) (hne : key_col ≠ [])
    (hkey : ∀ col ∈ key_col, col < table.columns.length) (hrows : table.num_rows ≠ 0)
    (hr : r ∈ requests) :
    ∃ saved, keywordPir apsi table key_col requests = .ok saved ∧ ∃ n,
      (OrderedMap.find? saved r.text).getD [] =
        if sameText table key_col r = [] then []
        else (str_split DATA_RECORD_SEP (List.intercalate DATA_RECORD_SEP.1
          ((sameText table key_col r).map (List.intercalate [','])) ++
            List.replicate n NUL)).map eraseFromNul := by
  obtain ⟨elements, hload, hfind⟩ := ServerLoadDataset_spec htwo hne hkey
  have hdb : CreateDb elements ≠ [] := by
    -- the first row has a key
    have hpos : 0 < table.rows.length := by
      rw [table.length_rows]
      omega
    intro hnil
    have helements : elements = [] := List.map_eq_nil_iff.mp hnil
    have := hfind (rowText key_col table.rows[0])
    rw [helements, OrderedMap.find?_nil, if_neg (List.ne_nil_of_mem
      (List.mem_filter.mpr ⟨List.getElem_mem hpos, decide_eq_true rfl⟩))] at this
    cases this
  refine ⟨SaveResult (ExtractResult (requests.map Request.text).dedup
    ((requests.map Request.text).dedup.map (apsi.query (CreateDb elements)))), ?_, ?_⟩
  · unfold keywordPir CreateSenderDb
    rw [hload, Fallible.bind_eq_ok]
    refine ⟨elements, rfl, ?_⟩
    rw [if_neg hdb]
    rfl
  · refine ⟨apsi.padding (CreateDb elements) r.text, ?_⟩
    have hmem : r.text ∈ (requests.map Request.text).dedup :=
      List.mem_dedup.mpr (List.mem_map_of_mem hr)
    rw [getD_SaveResult, getD_ExtractResult (List.nodup_dedup _)]
    have hstored : OrderedMap.find? (CreateDb elements) r.text =
        (OrderedMap.find? elements r.text).map joinLabels :=
      OrderedMap.find?_map_values elements joinLabels r.text
    rw [hfind, ← sameText] at hstored
    unfold Apsi.query
    rw [hstored]
    by_cases hnil : sameText table key_col r = []
    · rw [if_pos hnil, if_pos hnil]
      simp
    · rw [if_neg hnil, if_neg hnil, Option.map_some,
        joinLabels_eq (fun h => hnil (List.map_eq_nil_iff.mp h))]
      simp only [hmem, true_and, if_true]

/-- The client saves for a key exactly the rows with it, in the order of the table and column by
column. -/
def SavesRows (apsi : Apsi) (table : Table) (key_col : List ℕ) (requests : List Request)
    (r : Request) : Prop :=
  ∃ saved, keywordPir apsi table key_col requests = .ok saved ∧
    ((OrderedMap.find? saved r.text).getD []).map (fun item => item.splitOn ',') =
      table.rows.filter fun row => r.Matches key_col row

/-- The values of a row have none of the characters that the task uses. -/
def Plain (row : List Str) : Prop :=
  ∀ v ∈ row, ',' ∉ v ∧ NUL ∉ v ∧ ¬ DATA_RECORD_SEP.1 <:+: v

/-- The last value of a row does not end with the character of the separator. -/
def EndsPlain (row : List Str) : Prop := (row.getLastD []).getLast? ≠ some '#'

instance decidablePlain (row : List Str) : Decidable (Plain row) :=
  inferInstanceAs (Decidable (∀ v ∈ row, _))

instance decidableEndsPlain (row : List Str) : Decidable (EndsPlain row) :=
  inferInstanceAs (Decidable (_ ≠ _))

/-- The rows of a request can be told from each other and from other rows. -/
def Readable (table : Table) (key_col : List ℕ) (r : Request) : Prop :=
  (∀ row ∈ sameText table key_col r, r.Matches key_col row ∧ Plain row) ∧
    ∀ row ∈ (sameText table key_col r).dropLast, EndsPlain row

theorem exists_of_two_le {row : List Str} (h : 2 ≤ row.length) :
    ∃ ws v, ws ≠ [] ∧ row = ws ++ [v] := by
  have hne : row ≠ [] := by
    rintro rfl
    simp at h
  refine ⟨row.dropLast, row.getLast hne, ?_, (List.dropLast_append_getLast hne).symm⟩
  rw [← List.length_pos_iff, List.length_dropLast]
  omega

/-- The text of a row ends as its last value does. -/
theorem endsPlain_iff {row : List Str} (h : 2 ≤ row.length) :
    (List.intercalate [','] row).getLast? ≠ some '#' ↔ EndsPlain row := by
  obtain ⟨ws, v, hws, rfl⟩ := exists_of_two_le h
  unfold EndsPlain
  rw [Separator.intercalate_concat hws, List.getLastD_concat]
  by_cases hv : v = []
  · rw [hv, List.append_nil, List.getLast?_concat]
    decide
  · rw [List.getLast?_append_of_ne_nil _ hv]

theorem comma_mem_text {row : List Str} (h : 2 ≤ row.length) :
    ',' ∈ List.intercalate [','] row := by
  obtain ⟨ws, v, hws, rfl⟩ := exists_of_two_le h
  rw [Separator.intercalate_concat hws]
  simp

/-- The text of a row without commas has the other characters where a value has them. -/
theorem plain_iff {row : List Str} :
    Plain row ↔ (∀ v ∈ row, ',' ∉ v) ∧ NUL ∉ List.intercalate [','] row ∧
      ¬ DATA_RECORD_SEP.1 <:+: List.intercalate [','] row := by
  rw [Separator.mem_intercalate_iff (by decide),
    Separator.infix_intercalate_iff DATA_RECORD_SEP.2 comma_not_mem_sep]
  unfold Plain
  push Not
  constructor
  · intro h
    exact ⟨fun v hv => (h v hv).1, fun v hv => (h v hv).2.1, fun v hv => (h v hv).2.2⟩
  · rintro ⟨hcomma, hnul, hsep⟩ v hv
    exact ⟨hcomma v hv, hnul v hv, hsep v hv⟩

theorem two_le_length (htwo : 2 ≤ table.columns.length) {row : List Str}
    (h : row ∈ sameText table key_col r) : 2 ≤ row.length := by
  rw [table.length_of_mem_rows (List.mem_filter.mp h).1]
  exact htwo

/-- The rows of a request are among those with its text. -/
theorem filter_sameText :
    (sameText table key_col r).filter (fun row => r.Matches key_col row) =
      table.rows.filter fun row => r.Matches key_col row := by
  unfold sameText
  rw [List.filter_filter]
  apply List.filter_congr
  intro row _
  rw [Bool.and_eq_left_iff_imp]
  intro h
  exact decide_eq_true (Request.text_of_matches (of_decide_eq_true h))

/-- Saved labels are the rows when they are the texts of the rows and no value has a comma. -/
theorem map_splitOn_iff {M : List (List Str)} (hM : ∀ row ∈ M, row ≠ []) {saved : List Str} :
    saved.map (fun item => item.splitOn ',') = M ↔
      saved = M.map (List.intercalate [',']) ∧ ∀ row ∈ M, ∀ v ∈ row, ',' ∉ v := by
  constructor
  · rintro rfl
    refine ⟨?_, ?_⟩
    · rw [List.map_map]
      conv_lhs => rw [← List.map_id saved]
      exact List.map_congr_left fun item _ => (List.intercalate_splitOn ',').symm
    · intro row hrow v hv
      obtain ⟨item, _, rfl⟩ := List.mem_map.mp hrow
      exact Separator.not_mem_of_mem_splitOn hv
  · rintro ⟨rfl, hcomma⟩
    rw [List.map_map]
    conv_rhs => rw [← List.map_id M]
    exact List.map_congr_left fun row hrow =>
      (Separator.splitOn_intercalate_iff (hM row hrow)).mpr (hcomma row hrow)

/-- When the rows with the text of a request come back as they are. -/
theorem saved_eq_iff (htwo : 2 ≤ table.columns.length) (n : ℕ)
    (hne : sameText table key_col r ≠ []) :
    ((str_split DATA_RECORD_SEP (List.intercalate DATA_RECORD_SEP.1
        ((sameText table key_col r).map (List.intercalate [','])) ++
          List.replicate n NUL)).map eraseFromNul).map (fun item => item.splitOn ',') =
        sameText table key_col r ↔
      (∀ row ∈ sameText table key_col r, Plain row) ∧
        ∀ row ∈ (sameText table key_col r).dropLast, EndsPlain row := by
  have hlen : ∀ row ∈ sameText table key_col r, 2 ≤ row.length := fun row hrow =>
    two_le_length htwo hrow
  generalize sameText table key_col r = M at hne hlen
  obtain ⟨rows, row, rfl⟩ : ∃ rows row, M = rows ++ [row] :=
    ⟨M.dropLast, M.getLast hne, (List.dropLast_append_getLast hne).symm⟩
  rw [map_splitOn_iff (fun row hrow => by
    rintro rfl
    have := hlen _ hrow
    simp at this)]
  rw [List.map_append, List.map_singleton, read_labels_iff (List.ne_nil_of_mem
    (comma_mem_text (hlen row (by simp)))), List.dropLast_concat]
  have hsame : rows.map (List.intercalate [',']) ++ [List.intercalate [','] row] =
      (rows ++ [row]).map (List.intercalate [',']) := by
    rw [List.map_append, List.map_singleton]
  rw [hsame, List.forall_mem_map, List.forall_mem_map]
  simp only [plain_iff]
  constructor
  · rintro ⟨⟨hplain, hends⟩, hcomma⟩
    exact ⟨fun u hu => ⟨hcomma u hu, hplain u hu⟩, fun u hu =>
      (endsPlain_iff (hlen u (List.mem_append_left _ hu))).mp (hends u hu)⟩
  · rintro ⟨hplain, hends⟩
    exact ⟨⟨fun u hu => (hplain u hu).2, fun u hu =>
      (endsPlain_iff (hlen u (List.mem_append_left _ hu))).mpr (hends u hu)⟩,
      fun u hu => (hplain u hu).1⟩

/-- No fewer items are saved than rows have the text of the request. -/
theorem length_le_saved (htwo : 2 ≤ table.columns.length) (n : ℕ)
    (hne : sameText table key_col r ≠ []) :
    (sameText table key_col r).length ≤
      ((str_split DATA_RECORD_SEP (List.intercalate DATA_RECORD_SEP.1
        ((sameText table key_col r).map (List.intercalate [','])) ++
          List.replicate n NUL)).map eraseFromNul).length := by
  have hlen : ∀ row ∈ sameText table key_col r, 2 ≤ row.length := fun row hrow =>
    two_le_length htwo hrow
  generalize sameText table key_col r = M at hne hlen
  obtain ⟨rows, row, rfl⟩ : ∃ rows row, M = rows ++ [row] :=
    ⟨M.dropLast, M.getLast hne, (List.dropLast_append_getLast hne).symm⟩
  have hcount := length_le_str_split (rows.map (List.intercalate [','])) n
    (comma_mem_text (hlen row (by simp)))
  rw [List.length_map] at hcount
  rw [List.length_map, List.map_append, List.map_singleton, List.length_append,
    List.length_singleton]
  exact hcount

/-- Rows that come back can be told from each other and from other rows. -/
theorem SavesRows.readable (htwo : 2 ≤ table.columns.length) (hne : key_col ≠ [])
    (hkey : ∀ col ∈ key_col, col < table.columns.length) (hr : r ∈ requests)
    (h : SavesRows apsi table key_col requests r) :
    table.num_rows ≠ 0 ∧ Readable table key_col r := by
  obtain ⟨saved, hrun, heq⟩ := h
  have hrows : table.num_rows ≠ 0 := by
    intro h0
    rw [keywordPir_empty htwo hne hkey h0] at hrun
    cases hrun
  refine ⟨hrows, ?_⟩
  obtain ⟨saved', hrun', n, hspec⟩ := keywordPir_spec apsi htwo hne hkey hrows hr
  obtain rfl : saved = saved' := by
    rw [hrun] at hrun'
    injection hrun'
  unfold Readable
  by_cases hnil : sameText table key_col r = []
  · rw [hnil]
    exact ⟨fun row hrow => absurd hrow List.not_mem_nil,
      fun row hrow => absurd hrow List.not_mem_nil⟩
  · rw [if_neg hnil] at hspec
    rw [hspec, ← filter_sameText] at heq
    -- as many rows are asked for as have the text, so these are all of them
    have hcount := length_le_saved htwo n hnil
    have hall : (sameText table key_col r).filter (fun row => r.Matches key_col row) =
        sameText table key_col r := by
      apply (List.filter_sublist).eq_of_length_le
      rw [← heq, List.length_map]
      exact hcount
    rw [hall] at heq
    obtain ⟨hplain, hends⟩ := (saved_eq_iff htwo n hnil).mp heq
    refine ⟨fun row hrow => ⟨?_, hplain row hrow⟩, hends⟩
    rw [← hall] at hrow
    exact of_decide_eq_true (List.mem_filter.mp hrow).2

theorem savesRows_of_readable (htwo : 2 ≤ table.columns.length) (hne : key_col ≠ [])
    (hkey : ∀ col ∈ key_col, col < table.columns.length) (hr : r ∈ requests)
    (hrows : table.num_rows ≠ 0) (h : Readable table key_col r) :
    SavesRows apsi table key_col requests r := by
  obtain ⟨saved, hrun, n, hspec⟩ := keywordPir_spec apsi htwo hne hkey hrows hr
  refine ⟨saved, hrun, ?_⟩
  obtain ⟨hplain, hends⟩ := h
  have hall : (sameText table key_col r).filter (fun row => r.Matches key_col row) =
      sameText table key_col r := by
    rw [List.filter_eq_self]
    exact fun row hrow => decide_eq_true (hplain row hrow).1
  rw [← filter_sameText, hall, hspec]
  by_cases hnil : sameText table key_col r = []
  · rw [hnil, if_pos rfl]
    rfl
  · rw [if_neg hnil]
    exact (saved_eq_iff htwo n hnil).mpr ⟨fun row hrow => (hplain row hrow).2, hends⟩

end Task

/-- **The client saves the rows of a key exactly when the table has rows and those with the text
of the key are plain and have the key.** -/
theorem savesRows_iff (apsi : Apsi) (table : Table) (key_col : List ℕ) (requests : List Request)
    (r : Request) (htwo : 2 ≤ table.columns.length) (hne : key_col ≠ [])
    (hkey : ∀ col ∈ key_col, col < table.columns.length) (hr : r ∈ requests) :
    SavesRows apsi table key_col requests r ↔ table.num_rows ≠ 0 ∧ Readable table key_col r :=
  ⟨fun h => h.readable htwo hne hkey hr,
    fun h => savesRows_of_readable htwo hne hkey hr h.1 h.2⟩

/-- Two rows with one key, and their values. -/
def twoRows (v w : Str) : Table where
  num_rows := 2
  columns := [⟨['i', 'd'], [[['k'], ['k']]], by simp⟩, ⟨['x'], [[v], [w]], by simp⟩]
  length_values := by
    intro c hc
    rcases List.mem_cons.mp hc with rfl | hc
    · rfl
    · rw [List.mem_singleton.mp hc]
      rfl

/-- Padding to a length of 32. -/
def padTo32 : Apsi where
  padding db key := 32 - ((OrderedMap.find? db key).getD []).length

theorem savesRows_iff_twoRows :
    SavesRows padTo32 (twoRows ['a'] ['b']) [0] [.item ['k']] (.item ['k']) :=
  (savesRows_iff padTo32 (twoRows ['a'] ['b']) [0] [.item ['k']] (.item ['k']) (by decide)
    (by decide) (by decide) (by simp)).mpr ⟨by decide, by decide, by decide⟩

/-- A value that ends with `#` is not saved as it is. -/
theorem not_savesRows :
    ¬ SavesRows padTo32 (twoRows ['a', '#'] ['b']) [0] [.item ['k']] (.item ['k']) := by
  intro h
  have hreadable := (h.readable (by decide) (by decide) (by decide) (by simp)).2.2
  exact hreadable [['k'], ['a', '#']] (by decide) (by decide)

end Fediux.Pir
