import Fediux.Psi.LoadDataset

set_option autoImplicit false

/-! # Which rows a PSI dataset has

`restColumns_cases` follows the loop over the columns: it builds up the rows, or stops at the
first column that does not fit. `loadDatasetFromTable_iff` says for which tables the rows are
those of the table however the threads run.
-/

namespace Fediux.Psi

open Fediux.Util Fediux.Arrow Parallel

/-! ## Consecutive ranges -/

/-- Ranges that go from `a` to `b` without a gap. -/
def Consecutive : ℕ → ℕ → List (ℕ × ℕ) → Prop
  | a, b, [] => a = b
  | a, b, r :: rs => r.1 = a ∧ a ≤ r.2 ∧ Consecutive r.2 b rs

section Consecutive

variable {a b d : ℕ} {rs rs' : List (ℕ × ℕ)}

theorem Consecutive.le (h : Consecutive a b rs) : a ≤ b := by
  induction rs generalizing a with
  | nil => exact h.le
  | cons r rs ih =>
      obtain ⟨_, hle, hrest⟩ := h
      exact le_trans hle (ih hrest)

theorem Consecutive.append (h : Consecutive a b rs) (h' : Consecutive b d rs') :
    Consecutive a d (rs ++ rs') := by
  induction rs generalizing a with
  | nil =>
      obtain rfl : a = b := h
      exact h'
  | cons r rs ih =>
      obtain ⟨hstart, hle, hrest⟩ := h
      exact ⟨hstart, hle, ih hrest⟩

/-- Ranges of one length. -/
theorem consecutive_steps (step count : ℕ) :
    Consecutive 0 (count * step)
      ((List.range count).map fun i => (i * step, (i + 1) * step)) := by
  induction count with
  | zero => exact (Nat.zero_mul step).symm
  | succ count ih =>
      rw [List.range_succ, List.map_append, List.map_singleton]
      refine ih.append ⟨rfl, ?_, rfl⟩
      exact Nat.mul_le_mul_right step (Nat.le_succ count)

theorem Consecutive.le_of_mem (h : Consecutive a b rs) : ∀ r ∈ rs, a ≤ r.1 ∧ r.2 ≤ b := by
  induction rs generalizing a with
  | nil => exact fun r hr => absurd hr List.not_mem_nil
  | cons q rs ih =>
      obtain ⟨hstart, hle, hrest⟩ := h
      intro r hr
      rcases List.mem_cons.mp hr with rfl | hr
      · exact ⟨hstart.ge, hrest.le⟩
      · have := ih hrest r hr
        omega

theorem Consecutive.pairwise (h : Consecutive a b rs) : rs.Pairwise fun r r' => r.1 ≤ r'.1 := by
  induction rs generalizing a with
  | nil => exact .nil
  | cons q rs ih =>
      obtain ⟨hstart, hle, hrest⟩ := h
      refine .cons (fun r hr => ?_) (ih hrest)
      have := (hrest.le_of_mem r hr).1
      omega

/-- The parts of a list in consecutive ranges. -/
theorem Consecutive.flatten_slices {α : Type} (h : Consecutive a b rs) (xs : List α) :
    (rs.map fun r => (xs.take r.2).drop r.1).flatten = (xs.take b).drop a := by
  induction rs generalizing a with
  | nil =>
      obtain rfl : a = b := h
      rw [List.map_nil, List.flatten_nil, eq_comm, List.drop_eq_nil_iff, List.length_take]
      exact min_le_left _ _
  | cons r rs ih =>
      obtain ⟨rfl, hle, hrest⟩ := h
      rw [List.map_cons, List.flatten_cons, ih hrest]
      have hsplit : xs.take b = xs.take r.2 ++ (xs.take b).drop r.2 := by
        conv_lhs => rw [← List.take_append_drop r.2 (xs.take b)]
        rw [List.take_take, min_eq_left hrest.le]
      by_cases hlen : r.1 ≤ (xs.take r.2).length
      · conv_rhs => rw [hsplit]
        rw [List.drop_append_of_le_length hlen]
      · -- the list ends before the range
        rw [List.length_take] at hlen
        rw [List.drop_of_length_le (by rw [List.length_take]; omega),
          List.drop_of_length_le (by rw [List.length_take]; omega),
          List.drop_of_length_le (by rw [List.length_take]; omega)]
        rfl

end Consecutive

/-! ## The loop over the columns -/

section Loop

variable {fits : Column → Prop} {threads : Column → List (List (ℕ × Str))} {m num_rows : ℕ}

/-- A column is taken in row by row. -/
def Takes (fits : Column → Prop) (threads : Column → List (List (ℕ × Str))) (m : ℕ)
    (c : Column) : Prop :=
  fits c ∧ (threads c).flatten = block 0 (c.values.take m)

theorem phase_assign_iff {c : Column} {ts : List (List (ℕ × Str))} (hm : m ≤ num_rows)
    (hc : c.values.length = num_rows) (h : ts.flatten = block 0 (c.values.take m))
    {result : Option (List Str)} :
    Phase assign ts (List.replicate num_rows []) result ↔
      result = some (partialRows m num_rows [c]) := by
  have hlen : (c.values.take m).length ≤ (List.replicate num_rows ([] : Str)).length := by
    rw [List.length_take, List.length_replicate]
    omega
  have hzip := zipWith_partialRows assign [] (List.replicate num_rows []) hm hc
    List.length_replicate (fun i hi _ => List.getElem_replicate hi) (fun i hi _ => rfl)
  rw [List.nil_append] at hzip
  rw [phase_iff_of_flatten h hlen, hzip]

theorem phase_append_iff {c : Column} {taken : List Column} {ts : List (List (ℕ × Str))}
    (hm : m ≤ num_rows) (hc : c.values.length = num_rows) (htaken : taken ≠ [])
    (h : ts.flatten = block 0 (c.values.take m)) {result : Option (List Str)} :
    Phase appendValue ts (partialRows m num_rows taken) result ↔
      result = some (partialRows m num_rows (taken ++ [c])) := by
  have hlen : (c.values.take m).length ≤ (partialRows m num_rows taken).length := by
    rw [List.length_take, length_partialRows]
    omega
  have hzip := zipWith_partialRows appendValue taken (partialRows m num_rows taken) hm hc
    length_partialRows (fun i hi him => by rw [getElem_partialRows, if_neg (by omega)])
    (fun i hi him => by
      rw [getElem_partialRows, if_pos him, List.map_append, List.map_singleton, joinRow_concat]
      exact fun hnil => htaken (List.map_eq_nil_iff.mp hnil))
  rw [phase_iff_of_flatten h hlen, hzip]

/-- **Columns that are all taken in give their rows.** -/
theorem restColumns_of_takes {cols taken : List Column} (hm : m ≤ num_rows) (htaken : taken ≠ [])
    (hcols : ∀ c ∈ cols, c.values.length = num_rows) (htakes : ∀ c ∈ cols, Takes fits threads m c)
    {col_name : List Str} {o : Outcome} :
    RestColumns fits threads cols (partialRows m num_rows taken) col_name o ↔
      o = .returned .SUCCESS (partialRows m num_rows (taken ++ cols))
        (col_name ++ cols.map fun c => c.name) := by
  induction cols generalizing taken col_name with
  | nil =>
      rw [List.append_nil, List.map_nil, List.append_nil]
      constructor
      · intro h
        cases h
        rfl
      · rintro rfl
        exact .done
  | cons c cols ih =>
      obtain ⟨hc, hcols⟩ := List.forall_mem_cons.mp hcols
      obtain ⟨⟨hfits, hflat⟩, htakes⟩ := List.forall_mem_cons.mp htakes
      have hphase : ∀ result, Phase appendValue (threads c) (partialRows m num_rows taken) result ↔
          result = some (partialRows m num_rows (taken ++ [c])) := fun _ =>
        phase_append_iff hm hc htaken hflat
      have hih : RestColumns fits threads cols (partialRows m num_rows (taken ++ [c]))
          (col_name ++ [c.name]) o ↔ _ :=
        ih (List.append_ne_nil_of_left_ne_nil htaken [c]) hcols htakes
      rw [List.append_assoc, List.append_assoc, List.singleton_append] at hih
      rw [List.map_cons, ← List.singleton_append (x := c.name)]
      constructor
      · intro h
        cases h with
        | mismatch hnot => exact absurd hfits hnot
        | raced _ hrace => cases (hphase none).mp hrace
        | next _ hjoined hrest =>
            cases (hphase _).mp hjoined
            exact hih.mp hrest
      · intro h
        exact .next hfits ((hphase _).mpr rfl) (hih.mpr h)

/-- A column that is not taken in ends the loop, or its threads race. -/
theorem restColumns_of_not_takes {cols taken : List Column} (hm : m ≤ num_rows)
    (htaken : taken ≠ []) (hcols : ∀ c ∈ cols, c.values.length = num_rows)
    (hrace : ∀ c ∈ cols, fits c → RaceFree (threads c) num_rows → Takes fits threads m c)
    (hnot : ¬ ∀ c ∈ cols, Takes fits threads m c) (col_name : List Str) :
    ∃ o, RestColumns fits threads cols (partialRows m num_rows taken) col_name o ∧
      (o = .undefinedBehaviour ∨ ∃ cols' c rest col_name',
        cols = cols' ++ c :: rest ∧
          o = .returned .FAIL (partialRows m num_rows (taken ++ cols')) col_name') := by
  induction cols generalizing taken col_name with
  | nil => exact absurd (fun c hc => absurd hc List.not_mem_nil) hnot
  | cons c cols ih =>
      obtain ⟨hc, hcols⟩ := List.forall_mem_cons.mp hcols
      obtain ⟨hfree, hrace⟩ := List.forall_mem_cons.mp hrace
      by_cases hfits : fits c
      · by_cases hracefree : RaceFree (threads c) num_rows
        · have htakes := hfree hfits hracefree
          have hnot' : ¬ ∀ c ∈ cols, Takes fits threads m c := fun hall =>
            hnot (List.forall_mem_cons.mpr ⟨htakes, hall⟩)
          obtain ⟨o, ho, hcases⟩ := ih (List.append_ne_nil_of_left_ne_nil htaken [c]) hcols hrace
            hnot' (col_name ++ [c.name])
          refine ⟨o, .next hfits
            ((phase_append_iff hm hc htaken htakes.2).mpr rfl) ho, ?_⟩
          rcases hcases with h | ⟨cols', d, rest, names, rfl, h⟩
          · exact Or.inl h
          · refine Or.inr ⟨c :: cols', d, rest, names, rfl, ?_⟩
            rw [h, List.append_assoc, List.singleton_append]
        · refine ⟨_, .raced hfits (.raced ?_), Or.inl rfl⟩
          rwa [length_partialRows]
      · refine ⟨_, .mismatch hfits, Or.inr ⟨[], c, cols, col_name ++ [c.name], rfl, ?_⟩⟩
        rw [List.append_nil]

end Loop

/-! ## The rows of the table -/

/-- A run that ends with `SUCCESS` has these rows, and every run that goes on is defined. -/
def Outcome.HasRows (rows : List Str) : Outcome → Prop
  | .crashed => True
  | .undefinedBehaviour => False
  | .returned ret col_data _ => ret = .SUCCESS → col_data = rows

theorem rows_eq_partialRows (table : Table) :
    table.rows.map joinRow = partialRows table.num_rows table.num_rows table.columns := by
  unfold Table.rows partialRows
  rw [List.map_map]
  apply List.map_congr_left
  intro i hi
  rw [if_pos (List.mem_range.mp hi)]
  rfl

/-- Every further value makes a row longer. -/
theorem length_joinRow_append (row : List Str) (h : row ≠ []) (more : List Str) :
    (joinRow row).length + more.length ≤ (joinRow (row ++ more)).length := by
  induction more generalizing row with
  | nil => rw [List.append_nil, List.length_nil, Nat.add_zero]
  | cons v more ih =>
      have hconcat := ih (row ++ [v]) (List.append_ne_nil_of_left_ne_nil h [v])
      rw [joinRow_concat h, List.append_assoc, List.singleton_append] at hconcat
      have hgrow : (joinRow row).length + 1 ≤ (appendValue (joinRow row) v).length := by
        unfold appendValue
        rw [List.length_append, List.length_append]
        have : 1 ≤ DATA_RECORD_SEP.1.length := by decide
        omega
      rw [List.length_cons]
      omega

section Rows

variable {m num_rows : ℕ} {first : Column} {cols : List Column}

/-- Rows without the last columns are not the rows. -/
theorem partialRows_ne (h0 : num_rows ≠ 0) (cols : List Column) (c : Column)
    (rest : List Column) :
    partialRows m num_rows (first :: cols) ≠
      partialRows num_rows num_rows (first :: (cols ++ c :: rest)) := by
  intro heq
  have hget := congrArg (fun rows => rows[0]?.map List.length) heq
  have hpos : 0 < num_rows := Nat.pos_of_ne_zero h0
  have hleft : 0 < (partialRows m num_rows (first :: cols)).length := by rwa [length_partialRows]
  have hright : 0 < (partialRows num_rows num_rows (first :: (cols ++ c :: rest))).length := by
    rwa [length_partialRows]
  simp only [List.getElem?_eq_getElem hleft, List.getElem?_eq_getElem hright, Option.map_some,
    Option.some.injEq, getElem_partialRows, if_pos hpos] at hget
  have hlong := length_joinRow_append ((first :: cols).map fun c => c.values.getD 0 [])
    (List.cons_ne_nil _ _) ((c :: rest).map fun c => c.values.getD 0 [])
  rw [← List.map_append, List.cons_append, List.length_map, List.length_cons] at hlong
  split_ifs at hget
  · omega
  · rw [List.length_nil] at hget
    omega

/-- Rows beyond the place `m` are left empty. -/
theorem partialRows_eq_iff :
    partialRows m num_rows (first :: cols) = partialRows num_rows num_rows (first :: cols) ↔
      num_rows ≤ m ∨ cols = [] ∧ ∀ i, m ≤ i → i < num_rows → first.values.getD i [] = [] := by
  unfold partialRows
  rw [List.map_inj_left]
  constructor
  · intro h
    rw [or_iff_not_imp_left]
    intro hlt
    have hrow : ∀ i, m ≤ i → i < num_rows →
        joinRow ((first :: cols).map fun c => c.values.getD i []) = [] := by
      intro i hmi hi
      have := h i (List.mem_range.mpr hi)
      rw [if_neg (by omega), if_pos hi] at this
      exact this.symm
    have hnil : cols = [] := by
      by_contra hcols
      -- a row of several values is not empty
      have hlong := length_joinRow_append [first.values.getD m []] (List.cons_ne_nil _ _)
        (cols.map fun c => c.values.getD m [])
      have hzero := congrArg List.length (hrow m le_rfl (by omega))
      have hpos := List.length_pos_iff.mpr hcols
      rw [List.singleton_append, List.length_map] at hlong
      rw [List.map_cons, List.length_nil] at hzero
      omega
    refine ⟨hnil, fun i hmi hi => ?_⟩
    have := hrow i hmi hi
    rwa [hnil] at this
  · intro h i hi
    have hin := List.mem_range.mp hi
    rw [if_pos hin]
    by_cases him : i < m
    · rw [if_pos him]
    · rw [if_neg him]
      rcases h with h | ⟨rfl, hempty⟩
      · omega
      · exact (hempty i (by omega) hin).symm

/-- **When extracting the columns gives the rows.** -/
theorem extractColumns_iff {fits : Column → Prop} {threads : Column → List (List (ℕ × Str))}
    (hm : m ≤ num_rows) (h0 : num_rows ≠ 0)
    (hlen : ∀ c ∈ first :: cols, c.values.length = num_rows)
    (hfirst : (threads first).flatten = block 0 (first.values.take m))
    (hrace : ∀ c ∈ cols, fits c → RaceFree (threads c) num_rows → Takes fits threads m c) :
    (∀ o, ExtractColumns fits threads first cols (List.replicate num_rows []) o →
      o.ignoreStatus.HasRows (partialRows num_rows num_rows (first :: cols))) ↔
    (∀ c ∈ cols, Takes fits threads m c) ∧
      (num_rows ≤ m ∨ cols = [] ∧ ∀ i, m ≤ i → i < num_rows → first.values.getD i [] = []) := by
  obtain ⟨hlen0, hlen⟩ := List.forall_mem_cons.mp hlen
  have hphase : ∀ result, Phase assign (threads first) (List.replicate num_rows []) result ↔
      result = some (partialRows m num_rows [first]) := fun _ =>
    phase_assign_iff hm hlen0 hfirst
  have hone : [first] ≠ [] := List.cons_ne_nil _ _
  rw [← partialRows_eq_iff]
  constructor
  · intro h
    have htakes : ∀ c ∈ cols, Takes fits threads m c := by
      by_contra hnot
      obtain ⟨o, ho, hcases⟩ :=
        restColumns_of_not_takes hm hone hlen hrace hnot [first.name]
      have hgood := h o (.next ((hphase _).mpr rfl) ho)
      rcases hcases with rfl | ⟨cols', c, rest, names, rfl, rfl⟩
      · exact hgood
      · exact partialRows_ne h0 cols' c rest (hgood rfl)
    refine ⟨htakes, ?_⟩
    have hrest : RestColumns fits threads cols (partialRows m num_rows [first]) [first.name] _ :=
      (restColumns_of_takes hm hone hlen htakes).mpr rfl
    exact h _ (.next ((hphase _).mpr rfl) hrest) rfl
  · rintro ⟨htakes, hrows⟩ o ho
    cases ho with
    | raced hraced => cases (hphase none).mp hraced
    | next hjoined hrest =>
        cases (hphase _).mp hjoined
        rw [(restColumns_of_takes hm hone hlen htakes).mp hrest]
        exact fun _ => hrows

/-- Without rows there is nothing to write. -/
theorem extractColumns_empty {fits : Column → Prop}
    {threads : Column → List (List (ℕ × Str))}
    (h : ∀ c ∈ first :: cols, (threads c).flatten = []) {o : Outcome}
    (ho : ExtractColumns fits threads first cols [] o) : o.ignoreStatus.HasRows [] := by
  have hphase : ∀ {op : Str → Str → Str} {c : Column} {result : Option (List Str)},
      c ∈ first :: cols → Phase op (threads c) [] result → result = some [] := by
    intro op c result hc hresult
    have hnil : (threads c).flatten = block 0 [] := h c hc
    exact (phase_iff_of_flatten hnil (Nat.zero_le _)).mp hresult
  cases ho with
  | raced hraced => cases hphase List.mem_cons_self hraced
  | @next col_data' o hjoined hrest =>
      cases hphase List.mem_cons_self hjoined
      -- the data stays empty in the loop
      have hloop : ∀ {cs : List Column} {data names : List Str} {o' : Outcome},
          RestColumns fits threads cs data names o' → data = [] → cs ⊆ cols →
          o'.ignoreStatus.HasRows [] := by
        intro cs data names o' hrest hdata hcs
        induction hrest with
        | done => exact fun _ => hdata
        | mismatch _ => exact fun _ => hdata
        | raced _ hraced =>
            subst hdata
            cases hphase (List.mem_cons_of_mem _ (hcs List.mem_cons_self)) hraced
        | next _ hjoined _ ih =>
            subst hdata
            cases hphase (List.mem_cons_of_mem _ (hcs List.mem_cons_self)) hjoined
            exact ih rfl fun d hd => hcs (List.mem_cons_of_mem _ hd)
      exact hloop hrest rfl fun d hd => hd

end Rows

/-! ## Columns of several chunks -/

section Trunk

variable {cpu_core_num : Fin (2 ^ 32)} {first c : Column} {a b : ℕ} {rs : List (ℕ × ℕ)}

theorem trunkThreadNum_pos (cpu_core_num : Fin (2 ^ 32)) {chunk_size : ℕ} (h : 0 < chunk_size) :
    0 < trunkThreadNum cpu_core_num chunk_size ∧
      trunkThreadNum cpu_core_num chunk_size ≤ chunk_size := by
  unfold trunkThreadNum
  simp only
  split_ifs with hle
  · exact ⟨h, le_rfl⟩
  · omega

/-- The threads divide the chunks. -/
theorem consecutive_trunkRanges (cpu_core_num : Fin (2 ^ 32)) {chunk_size : ℕ} (h : 0 < chunk_size) :
    Consecutive 0 chunk_size (trunkRanges cpu_core_num chunk_size) := by
  obtain ⟨hpos, hle⟩ := trunkThreadNum_pos cpu_core_num h
  unfold trunkRanges
  simp only
  generalize trunkThreadNum cpu_core_num chunk_size = t at hpos hle
  have hmul : chunk_size / t * t ≤ chunk_size := Nat.div_mul_le_self _ _
  obtain ⟨k, hk, hlast⟩ : ∃ k, (if chunk_size / t * t < chunk_size then t + 1 else t) = k + 1 ∧
      k * (chunk_size / t) ≤ chunk_size := by
    split_ifs with hlt
    · exact ⟨t, rfl, by rwa [Nat.mul_comm]⟩
    · refine ⟨t - 1, by omega, le_trans (Nat.mul_le_mul_right _ (Nat.sub_le t 1)) ?_⟩
      rwa [Nat.mul_comm]
  rw [hk, Nat.add_sub_cancel, List.range_succ, List.map_append, List.map_singleton, if_pos rfl]
  have hsteps : (List.range k).map (fun i => (i * (chunk_size / t),
      if i = k then chunk_size else (i + 1) * (chunk_size / t))) =
      (List.range k).map fun i => (i * (chunk_size / t), (i + 1) * (chunk_size / t)) := by
    apply List.map_congr_left
    intro i hi
    rw [if_neg (List.mem_range.mp hi).ne]
  rw [hsteps]
  exact (consecutive_steps _ k).append ⟨rfl, hlast, rfl⟩

theorem elementsBefore_add (hab : a ≤ b) :
    elementsBefore c a + (rangeValues c (a, b)).length = elementsBefore c b := by
  unfold elementsBefore rangeValues
  have hsplit : c.chunks.take b = c.chunks.take a ++ (c.chunks.take b).drop a := by
    conv_lhs => rw [← List.take_append_drop a (c.chunks.take b)]
    rw [List.take_take, min_eq_left hab]
  conv_rhs => rw [hsplit]
  rw [List.map_append, List.sum_append, List.length_flatten]

/-- The blocks of a column are aligned where its chunks start with those of the first column. -/
theorem aligned_trunk_iff (first c : Column) (h : Consecutive a b rs) :
    Aligned (elementsBefore c a) (rs.map fun r => (elementsBefore first r.1, rangeValues c r)) ↔
      ∀ r ∈ rs, rangeValues c r ≠ [] → elementsBefore first r.1 = elementsBefore c r.1 := by
  induction rs generalizing a with
  | nil => exact iff_of_true trivial fun r hr => absurd hr List.not_mem_nil
  | cons r rs ih =>
      obtain ⟨s, e⟩ := r
      obtain ⟨rfl, hle, hrest⟩ := h
      rw [List.map_cons, List.forall_mem_cons, ← ih hrest]
      rw [Aligned, elementsBefore_add hle]

theorem trunkBlocks_values (cpu_core_num : Fin (2 ^ 32))
    (h : c.chunks.length = first.chunks.length)
    (hpos : 0 < first.chunks.length) :
    ((trunkBlocks cpu_core_num first c).map Prod.snd).flatten = c.values := by
  have hslices := (consecutive_trunkRanges cpu_core_num hpos).flatten_slices c.chunks
  unfold trunkBlocks
  rw [List.map_map]
  have hmap : (trunkRanges cpu_core_num first.chunks.length).map
      (Prod.snd ∘ fun r => (elementsBefore first r.1, rangeValues c r)) =
      ((trunkRanges cpu_core_num first.chunks.length).map
        fun r => (c.chunks.take r.2).drop r.1).map List.flatten := by
    rw [List.map_map]
    rfl
  rw [hmap, ← List.flatten_flatten, hslices, List.drop_zero, ← h, List.take_length]
  rfl

theorem trunkBlocks_mono (hpos : 0 < first.chunks.length) :
    (trunkBlocks cpu_core_num first c).Pairwise fun p q => p.1 ≤ q.1 := by
  unfold trunkBlocks
  rw [List.pairwise_map]
  refine (consecutive_trunkRanges cpu_core_num hpos).pairwise.imp fun {r r'} hle => ?_
  have := elementsBefore_add (c := first) hle
  omega

/-- The chunks of a column lie as those of the first column do, wherever a thread starts. -/
def TrunkFits (cpu_core_num : Fin (2 ^ 32)) (first c : Column) : Prop :=
  c.chunks.length = first.chunks.length ∧
    ∀ r ∈ trunkRanges cpu_core_num first.chunks.length,
      rangeValues c r ≠ [] → elementsBefore first r.1 = elementsBefore c r.1

theorem takes_trunk_iff {num_rows : ℕ} (hpos : 0 < first.chunks.length)
    (hc : c.values.length = num_rows) :
    Takes (fun c => c.chunks.length = first.chunks.length)
      (fun c => blocks (trunkBlocks cpu_core_num first c)) num_rows c ↔
      TrunkFits cpu_core_num first c := by
  have htake : c.values.take num_rows = c.values := List.take_of_length_le hc.le
  unfold Takes TrunkFits
  rw [htake]
  refine and_congr_right fun hcount => ?_
  have haligned := aligned_trunk_iff first c (consecutive_trunkRanges cpu_core_num hpos)
  have hzero : elementsBefore c 0 = 0 := by
    rw [elementsBefore, List.take_zero, List.map_nil, List.sum_nil]
  rw [hzero] at haligned
  rw [← haligned]
  have hvalues := trunkBlocks_values cpu_core_num hcount hpos
  constructor
  · intro hflat
    refine (raceFree_iff_aligned (trunkBlocks_mono hpos) ?_).mp (raceFree_of_flatten hflat hc.le)
    rw [hvalues, hc]
  · intro h
    have hflat := Aligned.flatten_blocks h
    change (blocks (trunkBlocks cpu_core_num first c)).flatten = _ at hflat
    rw [hflat]
    congr 1

theorem takes_trunk_of_raceFree {num_rows : ℕ} (hpos : 0 < first.chunks.length)
    (hc : c.values.length = num_rows) (hcount : c.chunks.length = first.chunks.length)
    (hfree : RaceFree (blocks (trunkBlocks cpu_core_num first c)) num_rows) :
    Takes (fun c => c.chunks.length = first.chunks.length)
      (fun c => blocks (trunkBlocks cpu_core_num first c)) num_rows c := by
  have hvalues := trunkBlocks_values cpu_core_num hcount hpos
  have haligned := (raceFree_iff_aligned (trunkBlocks_mono hpos) (by rw [hvalues, hc])).mp hfree
  refine ⟨hcount, ?_⟩
  show (blocks (trunkBlocks cpu_core_num first c)).flatten = _
  rw [haligned.flatten_blocks, hvalues, List.take_of_length_le hc.le]

end Trunk

/-! ## Columns of one chunk -/

section Array

variable {cpu_core_num : Fin (2 ^ 32)} {first c : Column} {cols : List Column} {num_rows : ℕ}

theorem arrayThreadNum_pos (cpu_core_num : Fin (2 ^ 32)) (element_number : ℕ) :
    0 < arrayThreadNum cpu_core_num element_number := by
  unfold arrayThreadNum
  simp only
  split_ifs <;> omega

/-- The rows that threads of one length cover. -/
theorem consecutive_capped {step count size : ℕ} (h : (count - 1) * step ≤ size)
    (hcount : 0 < count) :
    Consecutive 0 (min (count * step) size)
      ((List.range count).map fun i => (i * step, min ((i + 1) * step) size)) := by
  obtain ⟨k, rfl⟩ : ∃ k, count = k + 1 := ⟨count - 1, by omega⟩
  rw [Nat.add_sub_cancel] at h
  rw [List.range_succ, List.map_append, List.map_singleton]
  have hsteps : (List.range k).map (fun i => (i * step, min ((i + 1) * step) size)) =
      (List.range k).map fun i => (i * step, (i + 1) * step) := by
    apply List.map_congr_left
    intro i hi
    have : (i + 1) * step ≤ k * step := Nat.mul_le_mul_right step (List.mem_range.mp hi)
    rw [min_eq_left (by omega)]
  rw [hsteps]
  refine (consecutive_steps step k).append ⟨rfl, ?_, rfl⟩
  rw [le_min_iff]
  exact ⟨Nat.mul_le_mul_right step (Nat.le_succ k), h⟩

/-- The number of threads when the rest has one of its own. -/
def restThreads (cpu_core_num : Fin (2 ^ 32)) (element_number : ℕ) : ℕ :=
  let thread_num := arrayThreadNum cpu_core_num element_number
  if thread_num ∣ element_number then thread_num else thread_num + 1

theorem arrayRanges_eq (element_number : ℕ) :
    arrayRanges cpu_core_num element_number =
      if restThreads cpu_core_num element_number *
          (element_number / arrayThreadNum cpu_core_num element_number) < 2 ^ 31 then
        some ((List.range (restThreads cpu_core_num element_number)).map fun i =>
          (i * (element_number / arrayThreadNum cpu_core_num element_number),
            min ((i + 1) * (element_number / arrayThreadNum cpu_core_num element_number))
              element_number))
      else none := by
  have hrest : (if element_number / arrayThreadNum cpu_core_num element_number *
      arrayThreadNum cpu_core_num element_number < element_number then
        arrayThreadNum cpu_core_num element_number + 1
      else arrayThreadNum cpu_core_num element_number) =
      restThreads cpu_core_num element_number := by
    unfold restThreads
    by_cases hdvd : arrayThreadNum cpu_core_num element_number ∣ element_number
    · rw [Nat.div_mul_cancel hdvd, if_neg (lt_irrefl _), if_pos hdvd]
    · have hle := Nat.div_mul_le_self element_number (arrayThreadNum cpu_core_num element_number)
      have hne : element_number / arrayThreadNum cpu_core_num element_number *
          arrayThreadNum cpu_core_num element_number ≠ element_number := fun heq =>
        hdvd ⟨_, by rw [Nat.mul_comm]; exact heq.symm⟩
      rw [if_pos (lt_of_le_of_ne hle hne), if_neg hdvd]
  unfold arrayRanges
  simp only [hrest]

theorem consecutive_arrayRanges (cpu_core_num : Fin (2 ^ 32)) (element_number : ℕ) :
    Consecutive 0
      (min (restThreads cpu_core_num element_number *
        (element_number / arrayThreadNum cpu_core_num element_number)) element_number)
      ((List.range (restThreads cpu_core_num element_number)).map fun i =>
        (i * (element_number / arrayThreadNum cpu_core_num element_number),
          min ((i + 1) * (element_number / arrayThreadNum cpu_core_num element_number))
            element_number)) := by
  have hpos := arrayThreadNum_pos cpu_core_num element_number
  have hle := Nat.mul_div_le element_number (arrayThreadNum cpu_core_num element_number)
  apply consecutive_capped
  · refine le_trans (Nat.mul_le_mul_right _ ?_) hle
    unfold restThreads
    simp only
    split_ifs <;> omega
  · unfold restThreads
    simp only
    split_ifs <;> omega

theorem aligned_arrayBlocks {a b : ℕ} {rs : List (ℕ × ℕ)} (h : Consecutive a b rs)
    (hb : b ≤ c.values.length) : Aligned a (arrayBlocks rs c) := by
  induction rs generalizing a with
  | nil => trivial
  | cons r rs ih =>
      obtain ⟨s, e⟩ := r
      obtain ⟨rfl, hle, hrest⟩ := h
      refine ⟨fun _ => rfl, ?_⟩
      have hend : s + ((c.values.take e).drop s).length = e := by
        have := hrest.le
        rw [List.length_drop, List.length_take]
        simp only at hle this
        omega
      show Aligned (s + ((c.values.take e).drop s).length) (arrayBlocks rs c)
      rw [hend]
      exact ih hrest

/-- The threads of a column write its first values. -/
theorem flatten_arrayBlocks {b : ℕ} {rs : List (ℕ × ℕ)} (h : Consecutive 0 b rs)
    (hb : b ≤ c.values.length) :
    (blocks (arrayBlocks rs c)).flatten = block 0 (c.values.take b) := by
  have hslices := h.flatten_slices c.values
  rw [(aligned_arrayBlocks h hb).flatten_blocks]
  congr 1
  unfold arrayBlocks
  rw [List.map_map]
  exact hslices

/-- All columns have one chunk, and the threads divide the rows or, one more thread for the rest,
go over all of them that are not empty. -/
def ArrayFits (cpu_core_num : Fin (2 ^ 32)) (first : Column) (cols : List Column) : Prop :=
  let element_number := first.values.length
  let thread_num := arrayThreadNum cpu_core_num element_number
  let covered := (thread_num + 1) * (element_number / thread_num)
  (∀ c ∈ cols, c.chunks.length = 1) ∧
    (thread_num ∣ element_number ∨
      covered < 2 ^ 31 ∧ (element_number ≤ covered ∨
        cols = [] ∧ ∀ i, covered ≤ i → i < element_number → first.values.getD i [] = []))

theorem extractArray_iff (hone : first.chunks.length = 1) (h0 : num_rows ≠ 0)
    (hlen : ∀ c ∈ first :: cols, c.values.length = num_rows) :
    (∀ o, ExtractDataFromArray cpu_core_num first cols (List.replicate num_rows []) o →
      o.ignoreStatus.HasRows (partialRows num_rows num_rows (first :: cols))) ↔
      ArrayFits cpu_core_num first cols := by
  have hfirst : first.values.length = num_rows := hlen first List.mem_cons_self
  have hshort : num_rows < 2 ^ 31 := by
    obtain ⟨chunk, hchunk⟩ := List.length_eq_one_iff.mp hone
    have := first.short chunk (by rw [hchunk]; exact List.mem_cons_self)
    rw [← hfirst, Column.values, hchunk, List.flatten_singleton]
    exact this
  unfold ExtractDataFromArray ArrayFits
  simp only [if_neg (not_not.mpr hone), hfirst, arrayRanges_eq]
  have hcons := consecutive_arrayRanges cpu_core_num num_rows
  have hrest : arrayThreadNum cpu_core_num num_rows ∣ num_rows ∧
        restThreads cpu_core_num num_rows * (num_rows / arrayThreadNum cpu_core_num num_rows) =
          num_rows ∨
      ¬ arrayThreadNum cpu_core_num num_rows ∣ num_rows ∧
        restThreads cpu_core_num num_rows = arrayThreadNum cpu_core_num num_rows + 1 := by
    unfold restThreads
    by_cases hdvd : arrayThreadNum cpu_core_num num_rows ∣ num_rows
    · simp only [if_pos hdvd]
      exact Or.inl ⟨hdvd, Nat.mul_div_cancel' hdvd⟩
    · simp only [if_neg hdvd]
      exact Or.inr ⟨hdvd, trivial⟩
  generalize restThreads cpu_core_num num_rows = t' at hcons hrest ⊢
  generalize arrayThreadNum cpu_core_num num_rows = t at hcons hrest ⊢
  by_cases hfits : t' * (num_rows / t) < 2 ^ 31
  · simp only [if_pos hfits]
    generalize (List.range t').map _ = rs at hcons ⊢
    have hflat : ∀ c ∈ first :: cols, (blocks (arrayBlocks rs c)).flatten =
        block 0 (c.values.take (min (t' * (num_rows / t)) num_rows)) := fun c hc =>
      flatten_arrayBlocks hcons (by rw [hlen c hc]; exact min_le_right _ _)
    rw [extractColumns_iff (min_le_right _ _) h0 hlen (hflat first List.mem_cons_self)
      fun c hc hone _ => ⟨hone, hflat c (List.mem_cons_of_mem _ hc)⟩]
    have htakes : (∀ c ∈ cols, Takes (fun c => c.chunks.length = 1)
        (fun c => blocks (arrayBlocks rs c)) (min (t' * (num_rows / t)) num_rows) c) ↔
        ∀ c ∈ cols, c.chunks.length = 1 := by
      constructor
      · exact fun h c hc => (h c hc).1
      · exact fun h c hc => ⟨h c hc, hflat c (List.mem_cons_of_mem _ hc)⟩
    rw [htakes]
    refine and_congr_right fun _ => ?_
    rcases hrest with ⟨hdvd, heq⟩ | ⟨hdvd, rfl⟩
    · exact iff_of_true (Or.inl (by omega)) (Or.inl hdvd)
    · rw [or_iff_right hdvd, and_iff_right hfits]
      constructor
      · rintro (h | ⟨hnil, hempty⟩)
        · exact Or.inl (le_trans h (min_le_left _ _))
        · exact Or.inr ⟨hnil, fun i hi hin => hempty i (le_trans (min_le_left _ _) hi) hin⟩
      · rintro (h | ⟨hnil, hempty⟩)
        · exact Or.inl (by omega)
        · exact Or.inr ⟨hnil, fun i hi hin => hempty i (by omega) hin⟩
  · -- the computation of a range overflows
    simp only [if_neg hfits]
    constructor
    · intro h
      exact (h _ rfl).elim
    · rintro ⟨_, h⟩
      rcases hrest with ⟨hdvd, heq⟩ | ⟨hdvd, rfl⟩
      · omega
      · rw [or_iff_right hdvd] at h
        exact absurd h.1 hfits

end Array

/-! ## The table -/

/-- The tables whose rows are loaded. -/
def Loads (cpu_core_num : Fin (2 ^ 32)) (table : Table) : Prop :=
  table.num_rows = 0 ∨
    match table.columns with
    | [] => True
    | first :: cols =>
        if first.chunks.length = 1 then ArrayFits cpu_core_num first cols
        else ∀ c ∈ cols, TrunkFits cpu_core_num first c

section Load

variable {cpu_core_num : Fin (2 ^ 32)}

theorem extractTrunk_iff {first : Column} {cols : List Column} {num_rows : ℕ}
    (h0 : num_rows ≠ 0) (hlen : ∀ c ∈ first :: cols, c.values.length = num_rows) :
    (∀ o, ExtractDataFromTrunkArray cpu_core_num first cols (List.replicate num_rows []) o →
      o.ignoreStatus.HasRows (partialRows num_rows num_rows (first :: cols))) ↔
      ∀ c ∈ cols, TrunkFits cpu_core_num first c := by
  have hfirst := hlen first List.mem_cons_self
  have hpos : 0 < first.chunks.length := by
    by_contra hnil
    have hchunks : first.chunks = [] := List.length_eq_zero_iff.mp (by omega)
    rw [Column.values, hchunks] at hfirst
    exact h0 hfirst.symm
  have htakes : Takes (fun c => c.chunks.length = first.chunks.length)
      (fun c => blocks (trunkBlocks cpu_core_num first c)) num_rows first :=
    (takes_trunk_iff hpos hfirst).mpr ⟨rfl, fun _ _ _ => rfl⟩
  unfold ExtractDataFromTrunkArray
  simp only [if_neg hpos.ne']
  rw [extractColumns_iff le_rfl h0 hlen htakes.2 fun c hc hcount hfree =>
    takes_trunk_of_raceFree hpos (hlen c (List.mem_cons_of_mem _ hc)) hcount hfree,
    and_iff_left (Or.inl le_rfl)]
  exact forall₂_congr fun c hc => takes_trunk_iff hpos (hlen c (List.mem_cons_of_mem _ hc))

/-- A table without rows. -/
theorem hasRows_of_empty {table : Table} (h0 : table.num_rows = 0) {o : Outcome}
    (ho : LoadDatasetFromTable cpu_core_num table o) : o.HasRows (table.rows.map joinRow) := by
  have hrows : table.rows.map joinRow = [] := by
    rw [List.map_eq_nil_iff, ← List.length_eq_zero_iff, table.length_rows, h0]
  have hvalues : ∀ c ∈ table.columns, c.values = [] := fun c hc =>
    List.length_eq_zero_iff.mp (by rw [table.length_values c hc, h0])
  have hblocks : ∀ ps : List (ℕ × List Str), (∀ p ∈ ps, p.2 = []) → (blocks ps).flatten = [] := by
    intro ps hps
    rw [List.flatten_eq_nil_iff]
    intro t ht
    obtain ⟨p, hp, rfl⟩ := List.mem_map.mp ht
    rw [hps p hp]
    rfl
  unfold LoadDatasetFromTable at ho
  rw [hrows]
  cases hcols : table.columns with
  | nil =>
      rw [hcols] at ho
      obtain rfl := ho
      intro h
      cases h
  | cons first cols =>
      rw [hcols] at ho hvalues
      rw [h0] at ho
      obtain ⟨extracted, rfl, hextract⟩ := ho
      split_ifs at hextract with hone
      · unfold ExtractDataFromArray at hextract
        rw [if_neg (not_not.mpr hone), hvalues first List.mem_cons_self] at hextract
        have hranges : arrayRanges cpu_core_num ([] : List Str).length =
            some ((List.range (restThreads cpu_core_num 0)).map fun i =>
              (i * (0 / arrayThreadNum cpu_core_num 0),
                min ((i + 1) * (0 / arrayThreadNum cpu_core_num 0)) 0)) := by
          rw [List.length_nil, arrayRanges_eq, if_pos (by rw [Nat.zero_div, Nat.mul_zero]; norm_num)]
        rw [hranges] at hextract
        refine extractColumns_empty (fun c hc => hblocks _ fun p hp => ?_) hextract
        obtain ⟨r, _, rfl⟩ := List.mem_map.mp hp
        rw [hvalues c hc, List.take_nil, List.drop_nil]
      · unfold ExtractDataFromTrunkArray at hextract
        split_ifs at hextract with hchunks
        · rw [hextract]
          trivial
        · refine extractColumns_empty (fun c hc => hblocks _ fun p hp => ?_) hextract
          obtain ⟨r, _, rfl⟩ := List.mem_map.mp hp
          -- the values of a range are values of the column
          have hsub : rangeValues c r ⊆ c.values := by
            intro v hv
            obtain ⟨chunk, hchunk, hv⟩ := List.mem_flatten.mp hv
            exact List.mem_flatten.mpr
              ⟨chunk, List.mem_of_mem_take (List.mem_of_mem_drop hchunk), hv⟩
          rw [hvalues c hc] at hsub
          exact List.subset_nil.mp hsub

/-- The rows are loaded, when there are any. -/
theorem loads_iff {table : Table} (h0 : table.num_rows ≠ 0) :
    (∀ o, LoadDatasetFromTable cpu_core_num table o → o.HasRows (table.rows.map joinRow)) ↔
      Loads cpu_core_num table := by
  have hlen := table.length_values
  rw [rows_eq_partialRows]
  unfold Loads LoadDatasetFromTable
  rw [or_iff_right h0]
  cases hcols : table.columns with
  | nil =>
      refine iff_of_true (fun o ho => ?_) trivial
      obtain rfl := ho
      intro h
      cases h
  | cons first cols =>
      rw [hcols] at hlen
      by_cases hone : first.chunks.length = 1
      · simp only [if_pos hone]
        rw [← extractArray_iff hone h0 hlen]
        constructor
        · exact fun h o ho => h _ ⟨o, rfl, ho⟩
        · rintro h o ⟨extracted, rfl, ho⟩
          exact h extracted ho
      · simp only [if_neg hone]
        rw [← extractTrunk_iff h0 hlen]
        constructor
        · exact fun h o ho => h _ ⟨o, rfl, ho⟩
        · rintro h o ⟨extracted, rfl, ho⟩
          exact h extracted ho

end Load

/-- **Exactly for these tables every run that returns `SUCCESS` has the joined rows of the table,
however its threads are scheduled.** -/
theorem loadDatasetFromTable_iff (cpu_core_num : Fin (2 ^ 32)) (table : Table) :
    (∀ o, LoadDatasetFromTable cpu_core_num table o → o.HasRows (table.rows.map joinRow)) ↔
      Loads cpu_core_num table := by
  by_cases h0 : table.num_rows = 0
  · exact iff_of_true (fun o ho => hasRows_of_empty h0 ho) (Or.inl h0)
  · exact loads_iff h0

/-- Two rows; the first column has one chunk, the second has two. -/
def unevenTable : Table where
  num_rows := 2
  columns := [⟨['x'], [[['a'], ['b']]], by simp⟩, ⟨['y'], [[['c']], [['d']]], by simp⟩]
  length_values := by
    intro c hc
    rcases List.mem_cons.mp hc with rfl | hc
    · rfl
    · rw [List.mem_singleton.mp hc]
      rfl

/-- The rows are returned without the second column. -/
theorem not_hasRows_unevenTable :
    ¬ ∀ o, LoadDatasetFromTable 8 unevenTable o → o.HasRows (unevenTable.rows.map joinRow) := by
  intro h
  have hloads := (loads_iff (by decide)).mp h
  rcases hloads with h0 | ⟨hchunks, _⟩
  · exact absurd h0 (by decide)
  · exact absurd (hchunks _ List.mem_cons_self) (by decide)

end Fediux.Psi
