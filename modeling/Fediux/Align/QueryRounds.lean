import Fediux.Align.MysqlQuery
import Fediux.Basic.StableSort

set_option autoImplicit false

/-! # When the rows from MySQL are those of the list

Every call of `mysql_run_query_multithread` and of `mysql_thread_query` is a round of the plan: so
many threads, each with so many ids from a start on. A round fails or gives the rows of its ids,
sorted. What a whole run does follows from the rounds that fail.
-/

namespace Fediux.Align

open Util (Str)
open Chunks (Additive)

/-! ## The queries of a thread -/

theorem flatMap_subRanges {α : Type} {f : ℕ → ℕ → List α} (hf : Additive f) {start stop : ℕ} :
    ((subRanges start stop).flatMap fun r => f r.1 (r.2 - r.1)) = f start (stop - start) := by
  have hsplit : stop - start = (stop - start) / 1000 * 1000 + (stop - start) % 1000 := by omega
  have hblock : ∀ i, start + 1000 * i + 1000 - (start + 1000 * i) = 1000 := fun i => by omega
  unfold subRanges
  simp only [List.flatMap_append, List.flatMap_map, hblock, Chunks.flatMap_equalBlocks 1000 hf]
  conv_rhs => rw [hsplit, hf.add]
  congr 1
  split
  · simp
  · rename_i hzero
    rw [not_not.mp hzero, hf.zero, List.flatMap_nil]

section

variable {Row V : Type} (intersect_ids : List Str) (db : Database Row V) (server : Server)

/-- The positions of the list in these ranges. -/
def positions (ranges : List (ℕ × ℕ)) : List ℕ :=
  ranges.flatMap fun r => List.range' r.1 (r.2 - r.1)

/-- The rows that the queries of these ranges fetch. -/
def fetched (ranges : List (ℕ × ℕ)) : List Row :=
  ranges.flatMap fun r => db.select (slice intersect_ids r.1 r.2)

/-- One of these queries, counted from `i` on, asks for a single id or is refused. -/
def QueryFails (round thread i : ℕ) (ranges : List (ℕ × ℕ)) : Prop :=
  ∃ k r, ranges[k]? = some r ∧
    ((slice intersect_ids r.1 r.2).length = 1 ∨ server.execute round thread (i + k) = false)

def ThreadFails (round thread start stop : ℕ) : Prop :=
  server.connect round thread = false ∨
    QueryFails intersect_ids server round thread 0 (subRanges start stop)

variable {intersect_ids db server}

theorem queryFails_cons {round thread i : ℕ} {r : ℕ × ℕ} {ranges : List (ℕ × ℕ)} :
    QueryFails intersect_ids server round thread i (r :: ranges) ↔
      ((slice intersect_ids r.1 r.2).length = 1 ∨ server.execute round thread i = false) ∨
        QueryFails intersect_ids server round thread (i + 1) ranges := by
  constructor
  · rintro ⟨k, q, hq, hfails⟩
    cases k with
    | zero =>
        cases hq
        exact Or.inl hfails
    | succ k =>
        refine Or.inr ⟨k, q, hq, ?_⟩
        rwa [Nat.add_right_comm, Nat.add_assoc]
  · rintro (hfails | ⟨k, q, hq, hfails⟩)
    · exact ⟨0, r, rfl, hfails⟩
    · refine ⟨k + 1, q, hq, ?_⟩
      rwa [Nat.add_right_comm, Nat.add_assoc] at hfails

theorem executeAll_of_not_fails {round thread i : ℕ} {ranges : List (ℕ × ℕ)}
    (h : ¬ QueryFails intersect_ids server round thread i ranges) :
    executeAll intersect_ids db server round thread i ranges =
      (positions ranges, some (fetched intersect_ids db ranges)) := by
  induction ranges generalizing i with
  | nil => rfl
  | cons r ranges ih =>
      rw [queryFails_cons, not_or] at h
      rw [executeAll, if_neg h.1, ih h.2]
      rfl

theorem executeAll_of_fails {round thread i : ℕ} {ranges : List (ℕ × ℕ)}
    (h : QueryFails intersect_ids server round thread i ranges) :
    (executeAll intersect_ids db server round thread i ranges).2 = none := by
  induction ranges generalizing i with
  | nil =>
      obtain ⟨k, r, hr, _⟩ := h
      cases hr
  | cons r ranges ih =>
      rw [executeAll]
      rcases queryFails_cons.mp h with hfails | htail
      · rw [if_pos hfails]
      · split
        · rfl
        · show Option.map _ (executeAll intersect_ids db server round thread (i + 1) ranges).2 = _
          rw [ih htail, Option.map_none]

theorem executeAll_sublist {round thread i : ℕ} {ranges : List (ℕ × ℕ)} :
    (executeAll intersect_ids db server round thread i ranges).1.Sublist (positions ranges) := by
  induction ranges generalizing i with
  | nil => exact List.Sublist.refl _
  | cons r ranges ih =>
      rw [executeAll]
      split
      · exact List.sublist_append_left _ _
      · exact List.Sublist.append (List.Sublist.refl _) ih

/-! ## Rounds -/

/-- What a call is to give for these threads: some of the positions, and the sorted rows if no
thread fails. -/
structure Gives (fails : Prop) (all : List ℕ) (rows : List Row)
    (result : List ℕ × Option (List Row)) : Prop where
  sublist : result.1.Sublist all
  of_fails : fails → result.2 = none
  of_not_fails : ¬ fails → result = (all, some rows)

variable (intersect_ids db server) in
theorem gives_thread (round thread start stop : ℕ) :
    Gives (ThreadFails intersect_ids server round thread start stop)
      (List.range' start (stop - start)) (fetched intersect_ids db (subRanges start stop))
      (mysql_thread_query intersect_ids db server round thread start stop) := by
  have hall : positions (subRanges start stop) = List.range' start (stop - start) :=
    flatMap_subRanges Chunks.additive_range'
  unfold mysql_thread_query
  cases hconnect : server.connect round thread with
  | false => exact ⟨List.nil_sublist _, fun _ => rfl, fun h => absurd (Or.inl hconnect) h⟩
  | true =>
      refine ⟨hall ▸ executeAll_sublist, ?_, ?_⟩
      · rintro (hfalse | hfails)
        · rw [hconnect] at hfalse
          cases hfalse
        · exact executeAll_of_fails hfails
      · intro h
        exact hall ▸ executeAll_of_not_fails fun hfails => h (Or.inr hfails)

end

/-- A round of the plan: its number, the first position, the threads and the ids of each. -/
structure Round where
  number : ℕ
  start : ℕ
  threads : ℕ
  size : ℕ

namespace Round

variable {Row V : Type} (intersect_ids : List Str) (db : Database Row V) (server : Server)
  (r : Round)

def positions : List ℕ := List.range' r.start (r.threads * r.size)

/-- The ranges of all queries of the round. -/
def queries : List (ℕ × ℕ) :=
  (List.range r.threads).flatMap fun j =>
    subRanges (r.start + r.size * j) (r.start + r.size * j + r.size)

/-- A thread of the round fails. -/
def Fails : Prop :=
  ∃ j < r.threads, ThreadFails intersect_ids server r.number j (r.start + r.size * j)
    (r.start + r.size * j + r.size)

/-- The rows of the round as they arrive. -/
def arrived : List Row := fetched intersect_ids db r.queries

/-- The rows of the round as they are written. -/
def rows [LinearOrder V] : List Row := sortRows db (r.arrived intersect_ids db)

variable {intersect_ids db server r}

theorem flatMap_queries {α : Type} {f : ℕ → ℕ → List α} (hf : Additive f) :
    (r.queries.flatMap fun q => f q.1 (q.2 - q.1)) = f r.start (r.threads * r.size) := by
  unfold queries
  rw [List.flatMap_assoc, ← Chunks.flatMap_equalBlocks r.size hf]
  congr 1
  funext j
  rw [flatMap_subRanges hf, Nat.add_sub_cancel_left]

variable [LinearOrder V]

variable (intersect_ids db server) in
theorem gives_multithread (curr_iter batch_size num_thread : ℕ) :
    let r : Round := ⟨curr_iter, curr_iter * batch_size * num_thread, num_thread, batch_size⟩
    Gives (r.Fails intersect_ids server) r.positions (r.rows intersect_ids db)
      (mysql_run_query_multithread intersect_ids db server curr_iter batch_size num_thread) := by
  intro r
  have hgives := fun j => gives_thread intersect_ids db server curr_iter j
    (r.start + batch_size * j) (r.start + batch_size * j + batch_size)
  simp only [Nat.add_sub_cancel_left] at hgives
  have hpositions : ((List.range num_thread).flatMap fun j =>
      List.range' (r.start + batch_size * j) batch_size) = r.positions :=
    Chunks.flatMap_equalBlocks batch_size Chunks.additive_range' r.start num_thread
  refine ⟨?_, ?_, ?_⟩
  · rw [← hpositions]
    show (List.flatMap Prod.fst (List.map _ _)).Sublist _
    rw [List.flatMap_map]
    exact List.Sublist.flatMap_right _ fun j _ => (hgives j).sublist
  · rintro ⟨j, hj, hfails⟩
    refine if_pos ⟨_, List.mem_map_of_mem (List.mem_range.mpr hj), ?_⟩
    exact Option.isNone_iff_eq_none.mpr ((hgives j).of_fails hfails)
  · intro h
    have hfuts : ((List.range num_thread).map fun j =>
        mysql_thread_query intersect_ids db server curr_iter j
          (curr_iter * batch_size * num_thread + batch_size * j)
          (curr_iter * batch_size * num_thread + batch_size * j + batch_size)) =
        (List.range num_thread).map fun j => (List.range' (r.start + batch_size * j) batch_size,
          some (fetched intersect_ids db (subRanges (r.start + batch_size * j)
            (r.start + batch_size * j + batch_size)))) :=
      List.map_congr_left fun j hj =>
        (hgives j).of_not_fails fun hfails => h ⟨j, List.mem_range.mp hj, hfails⟩
    unfold mysql_run_query_multithread
    dsimp only
    rw [hfuts]
    refine Prod.ext ?_ ?_
    · exact (List.flatMap_map _ _ _).trans hpositions
    · refine (if_neg ?_).trans ?_
      · rintro ⟨fut, hfut, hnone⟩
        obtain ⟨j, _, rfl⟩ := List.mem_map.mp hfut
        cases hnone
      · show some (sortRows db (List.flatMap _ (List.map _ _))) = _
        rw [List.flatMap_map, rows, arrived, fetched, queries, List.flatMap_assoc]
        rfl

variable (intersect_ids db server) in
theorem gives_final (num_batch num_iter batch_size reminder : ℕ) :
    let r : Round := ⟨num_iter + 1, num_batch * batch_size, 1, reminder⟩
    let result := mysql_thread_query intersect_ids db server (num_iter + 1) 0
      (num_batch * batch_size) (num_batch * batch_size + reminder)
    Gives (r.Fails intersect_ids server) r.positions (r.rows intersect_ids db)
      (result.1, result.2.map (sortRows db)) := by
  intro r result
  have hgives := gives_thread intersect_ids db server (num_iter + 1) 0 (num_batch * batch_size) (num_batch * batch_size + reminder)
  have hpositions : r.positions = List.range' (num_batch * batch_size) reminder := by
    rw [positions, Nat.one_mul]
  rw [Nat.add_sub_cancel_left, ← hpositions] at hgives
  refine ⟨hgives.sublist, ?_, ?_⟩
  · rintro ⟨j, hj, hfails⟩
    obtain rfl : j = 0 := Nat.lt_one_iff.mp hj
    exact congrArg (Option.map _) (hgives.of_fails hfails)
  · intro h
    have hthread := hgives.of_not_fails fun hfails => h ⟨0, Nat.one_pos, hfails⟩
    have hqueries : r.queries =
        subRanges (num_batch * batch_size) (num_batch * batch_size + reminder) := by
      simp [queries, r]
    show (result.1, result.2.map _) = _
    rw [show result = _ from hthread, rows, arrived, hqueries]
    rfl

end Round

/-! ## The plan -/

section

variable (n query_thread_num : ℕ)

def numIter : ℕ := n / batch_size n / query_thread_num

def remainThread : ℕ := n / batch_size n % query_thread_num

def fullRound (i : ℕ) : Round :=
  ⟨i, i * batch_size n * query_thread_num, query_thread_num, batch_size n⟩

def fullRoundsOf : List Round := (List.range (numIter n query_thread_num)).map
  (fullRound n query_thread_num)

/-- The round of the remaining threads. Its first position is computed with their number. -/
def remainRound : Round :=
  ⟨numIter n query_thread_num,
    numIter n query_thread_num * batch_size n * remainThread n query_thread_num,
    remainThread n query_thread_num, batch_size n⟩

def finalRound : Round :=
  ⟨numIter n query_thread_num + 1, n / batch_size n * batch_size n, 1, n % batch_size n⟩

def laterRounds : List Round :=
  (if remainThread n query_thread_num ≠ 0 then [remainRound n query_thread_num] else []) ++
    if n % batch_size n ≠ 0 then [finalRound n query_thread_num] else []

def plan : List Round := fullRoundsOf n query_thread_num ++ laterRounds n query_thread_num

end

section

variable {Row V : Type} [LinearOrder V] {intersect_ids : List Str} {db : Database Row V}
  {server : Server} {query_thread_num : ℕ}

theorem note_of_fails {fails : Prop} {all : List ℕ} {rows : List Row}
    {result : List ℕ × Option (List Row)} (hgives : Gives fails all rows result) (h : fails)
    (s : QueryState Row) :
    (s.note result).failed = true ∧ (s.note result).queried = s.queried ++ result.1 := by
  refine ⟨?_, rfl⟩
  show (s.failed || result.2.isNone) = true
  rw [hgives.of_fails h, Option.isNone_none, Bool.or_true]

theorem note_of_not_fails {fails : Prop} {all : List ℕ} {rows : List Row}
    {result : List ℕ × Option (List Row)} (hgives : Gives fails all rows result) (h : ¬ fails)
    (s : QueryState Row) :
    s.note result = ⟨s.queried ++ all, s.failed, s.written ++ rows⟩ := by
  rw [hgives.of_not_fails h, QueryState.note]
  simp

/-- What the rounds leave if none fails. -/
def QueryState.noteAll (intersect_ids : List Str) (db : Database Row V) (s : QueryState Row)
    (rounds : List Round) : QueryState Row where
  queried := s.queried ++ rounds.flatMap Round.positions
  failed := s.failed
  written := s.written ++ rounds.flatMap fun r => r.rows intersect_ids db

variable (db) in
theorem fullRounds_of_not_fails {is : List ℕ} (s : QueryState Row)
    (h : ∀ i ∈ is, ¬ (fullRound intersect_ids.length query_thread_num i).Fails intersect_ids
      server) :
    fullRounds intersect_ids db server (batch_size intersect_ids.length) query_thread_num is s =
      (s.noteAll intersect_ids db (is.map (fullRound intersect_ids.length query_thread_num)),
        false) := by
  induction is generalizing s with
  | nil => simp [fullRounds, QueryState.noteAll]
  | cons i is ih =>
      have hgives := Round.gives_multithread intersect_ids db server i
        (batch_size intersect_ids.length) query_thread_num
      have hi := h i (List.mem_cons_self ..)
      rw [fullRounds]
      rw [if_neg (by rw [hgives.of_not_fails hi]; exact Bool.false_ne_true),
        note_of_not_fails hgives hi, ih _ fun j hj => h j (List.mem_cons_of_mem i hj)]
      simp [QueryState.noteAll, fullRound]

variable (db) in
/-- Some of the positions have been queried when a full round fails. -/
theorem fullRounds_of_fails {is : List ℕ} (s : QueryState Row)
    (h : ∃ i ∈ is, (fullRound intersect_ids.length query_thread_num i).Fails intersect_ids server) :
    ∃ s' queried, fullRounds intersect_ids db server (batch_size intersect_ids.length)
        query_thread_num is s = (s', true) ∧ s'.failed = true ∧
      s'.queried = s.queried ++ queried ∧
      queried.Sublist ((is.map (fullRound intersect_ids.length query_thread_num)).flatMap
        Round.positions) := by
  induction is generalizing s with
  | nil =>
      obtain ⟨i, hi, _⟩ := h
      cases hi
  | cons i is ih =>
      have hgives := Round.gives_multithread intersect_ids db server i
        (batch_size intersect_ids.length) query_thread_num
      rw [fullRounds]
      by_cases hi : (fullRound intersect_ids.length query_thread_num i).Fails intersect_ids server
      · obtain ⟨hfailed, hqueried⟩ := note_of_fails hgives hi s
        rw [if_pos (by rw [hgives.of_fails hi]; rfl)]
        refine ⟨_, _, rfl, hfailed, hqueried, ?_⟩
        exact hgives.sublist.trans (List.sublist_append_left _ _)
      · have htail : ∃ j ∈ is, (fullRound intersect_ids.length query_thread_num j).Fails
            intersect_ids server := by
          obtain ⟨j, hj, hfails⟩ := h
          rcases List.mem_cons.mp hj with rfl | hj
          · exact absurd hfails hi
          · exact ⟨j, hj, hfails⟩
        obtain ⟨s', queried, hrun, hfailed, hqueried, hsublist⟩ := ih _ htail
        rw [if_neg (by rw [hgives.of_not_fails hi]; exact Bool.false_ne_true),
          note_of_not_fails hgives hi, hrun]
        refine ⟨s', (fullRound intersect_ids.length query_thread_num i).positions ++ queried, rfl,
          hfailed, ?_, List.Sublist.append (List.Sublist.refl _) hsublist⟩
        rw [hqueried, List.append_assoc]
        rfl

/-! ## Whole runs -/

variable (intersect_ids server query_thread_num)

/-- A full round fails. -/
def Aborted : Prop :=
  ∃ r ∈ fullRoundsOf intersect_ids.length query_thread_num, r.Fails intersect_ids server

/-- No round fails. -/
def Undisturbed : Prop :=
  ∀ r ∈ plan intersect_ids.length query_thread_num, ¬ r.Fails intersect_ids server

variable {intersect_ids server query_thread_num}

variable (db) in
theorem generate_of_aborted (hids : intersect_ids.length ≠ 0) (hthreads : query_thread_num ≠ 0)
    (h : Aborted intersect_ids server query_thread_num) :
    ∃ s, generate_new_datast_from_mysql intersect_ids db server query_thread_num = (s, .removed) ∧
      s.failed = true ∧
      s.queried.Sublist ((fullRoundsOf intersect_ids.length query_thread_num).flatMap
        Round.positions) := by
  obtain ⟨r, hr, hfails⟩ := h
  obtain ⟨i, hi, rfl⟩ := List.mem_map.mp hr
  obtain ⟨s, queried, hrun, hfailed, hqueried, hsublist⟩ :=
    fullRounds_of_fails db ⟨[], false, []⟩ ⟨i, hi, hfails⟩
  refine ⟨s, ?_, hfailed, ?_⟩
  · unfold generate_new_datast_from_mysql
    dsimp only
    rw [if_neg hids, if_neg hthreads]
    unfold numIter at hrun
    rw [hrun]
    rfl
  · rw [hqueried]
    exact hsublist

/-- What is left to do behind the full rounds. -/
theorem generate_of_not_aborted (hids : intersect_ids.length ≠ 0) (hthreads : query_thread_num ≠ 0)
    (h : ¬ Aborted intersect_ids server query_thread_num) :
    generate_new_datast_from_mysql intersect_ids db server query_thread_num =
      let s := QueryState.noteAll intersect_ids db ⟨[], false, []⟩
        (fullRoundsOf intersect_ids.length query_thread_num)
      let result := mysql_run_query_multithread intersect_ids db server
        (numIter intersect_ids.length query_thread_num) (batch_size intersect_ids.length)
        (remainThread intersect_ids.length query_thread_num)
      if remainThread intersect_ids.length query_thread_num ≠ 0 ∧ result.2.isNone then
        (s.note result, .raised .TypeError)
      else
        let s := if remainThread intersect_ids.length query_thread_num ≠ 0 then s.note result else s
        finish intersect_ids
          (if intersect_ids.length % batch_size intersect_ids.length ≠ 0 then
            finalQuery intersect_ids db server
              (intersect_ids.length / batch_size intersect_ids.length)
              (numIter intersect_ids.length query_thread_num) (batch_size intersect_ids.length)
              (intersect_ids.length % batch_size intersect_ids.length) s
          else s) := by
  have hfull : ∀ i ∈ List.range (numIter intersect_ids.length query_thread_num),
      ¬ (fullRound intersect_ids.length query_thread_num i).Fails intersect_ids server :=
    fun i hi hfails => h ⟨_, List.mem_map_of_mem hi, hfails⟩
  have hrun := fullRounds_of_not_fails db ⟨[], false, []⟩ hfull
  unfold generate_new_datast_from_mysql
  dsimp only
  rw [if_neg hids, if_neg hthreads]
  unfold numIter at hrun
  rw [hrun]
  rfl

theorem finish_eq (s : QueryState Row) :
    ∃ ending, finish intersect_ids s = (s, ending) ∧ ending ≠ .removed := by
  unfold finish
  split
  · exact ⟨_, rfl, by simp⟩
  · exact ⟨_, rfl, by simp⟩

theorem noteAll_append (s : QueryState Row) (rounds rounds' : List Round) :
    (s.noteAll intersect_ids db rounds).noteAll intersect_ids db rounds' =
      s.noteAll intersect_ids db (rounds ++ rounds') := by
  simp [QueryState.noteAll]

theorem note_eq_noteAll {r : Round} {result : List ℕ × Option (List Row)}
    (hgives : Gives (r.Fails intersect_ids server) r.positions (r.rows intersect_ids db) result)
    (h : ¬ r.Fails intersect_ids server) (s : QueryState Row) :
    s.note result = s.noteAll intersect_ids db [r] := by
  rw [note_of_not_fails hgives h, QueryState.noteAll]
  simp

/-- A round that is run under a condition. -/
theorem note_ite {p : Prop} [Decidable p] {r : Round} {result : List ℕ × Option (List Row)}
    (hgives : Gives (r.Fails intersect_ids server) r.positions (r.rows intersect_ids db) result)
    (h : p → ¬ r.Fails intersect_ids server) (s : QueryState Row) :
    (if p then s.note result else s) = s.noteAll intersect_ids db (if p then [r] else []) := by
  split
  · rename_i hp
    exact note_eq_noteAll hgives (h hp) s
  · simp [QueryState.noteAll]

theorem not_isNone_of_gives {fails : Prop} {all : List ℕ} {rows : List Row}
    {result : List ℕ × Option (List Row)} (hgives : Gives fails all rows result) (h : ¬ fails) :
    ¬ result.2.isNone = true := by
  rw [hgives.of_not_fails h]
  exact Bool.false_ne_true

theorem gives_remainRound :
    Gives ((remainRound intersect_ids.length query_thread_num).Fails intersect_ids server)
      (remainRound intersect_ids.length query_thread_num).positions
      ((remainRound intersect_ids.length query_thread_num).rows intersect_ids db)
      (mysql_run_query_multithread intersect_ids db server
        (numIter intersect_ids.length query_thread_num) (batch_size intersect_ids.length)
        (remainThread intersect_ids.length query_thread_num)) :=
  Round.gives_multithread _ _ _ _ _ _

theorem gives_finalRound :
    let result := mysql_thread_query intersect_ids db server
      (numIter intersect_ids.length query_thread_num + 1) 0
      (intersect_ids.length / batch_size intersect_ids.length * batch_size intersect_ids.length)
      (intersect_ids.length / batch_size intersect_ids.length * batch_size intersect_ids.length +
        intersect_ids.length % batch_size intersect_ids.length)
    Gives ((finalRound intersect_ids.length query_thread_num).Fails intersect_ids server)
      (finalRound intersect_ids.length query_thread_num).positions
      ((finalRound intersect_ids.length query_thread_num).rows intersect_ids db)
      (result.1, result.2.map (sortRows db)) :=
  Round.gives_final _ _ _ _ _ _ _

variable (db) in
theorem generate_of_undisturbed (hids : intersect_ids.length ≠ 0)
    (hthreads : query_thread_num ≠ 0) (h : Undisturbed intersect_ids server query_thread_num) :
    ∃ ending, generate_new_datast_from_mysql intersect_ids db server query_thread_num =
      (QueryState.noteAll intersect_ids db ⟨[], false, []⟩
        (plan intersect_ids.length query_thread_num), ending) := by
  have hremain : remainThread intersect_ids.length query_thread_num ≠ 0 →
      ¬ (remainRound intersect_ids.length query_thread_num).Fails intersect_ids server := by
    intro hne
    exact h _ (List.mem_append_right _ (List.mem_append_left _ (by simp [hne])))
  have hfinal : intersect_ids.length % batch_size intersect_ids.length ≠ 0 →
      ¬ (finalRound intersect_ids.length query_thread_num).Fails intersect_ids server := by
    intro hne
    exact h _ (List.mem_append_right _ (List.mem_append_right _ (by simp [hne])))
  rw [generate_of_not_aborted hids hthreads fun ⟨r, hr, hfails⟩ =>
    h r (List.mem_append_left _ hr) hfails]
  dsimp only
  rw [if_neg fun hboth => not_isNone_of_gives gives_remainRound (hremain hboth.1) hboth.2,
    note_ite gives_remainRound hremain, show finalQuery .. = QueryState.note _ _ from rfl,
    note_ite gives_finalRound hfinal, noteAll_append, noteAll_append]
  exact (finish_eq _).imp fun _ h => h.1

variable (db) in
/-- The file stays if only a later round fails. -/
theorem generate_of_later (hids : intersect_ids.length ≠ 0) (hthreads : query_thread_num ≠ 0)
    (h : ¬ Aborted intersect_ids server query_thread_num)
    (hdisturbed : ¬ Undisturbed intersect_ids server query_thread_num) :
    ∃ s ending, generate_new_datast_from_mysql intersect_ids db server query_thread_num =
      (s, ending) ∧ s.failed = true ∧ ending ≠ .removed := by
  rw [generate_of_not_aborted hids hthreads h]
  dsimp only
  by_cases hremain : remainThread intersect_ids.length query_thread_num ≠ 0 ∧
      (remainRound intersect_ids.length query_thread_num).Fails intersect_ids server
  · rw [if_pos ⟨hremain.1, Option.isNone_iff_eq_none.mpr (gives_remainRound.of_fails hremain.2)⟩]
    exact ⟨_, _, rfl, (note_of_fails gives_remainRound hremain.2 _).1, by simp⟩
  · have hfinal : intersect_ids.length % batch_size intersect_ids.length ≠ 0 ∧
        (finalRound intersect_ids.length query_thread_num).Fails intersect_ids server := by
      by_contra hfinal
      refine hdisturbed fun r hr hfails => ?_
      rcases List.mem_append.mp hr with hfull | hlater
      · exact h ⟨r, hfull, hfails⟩
      · rcases List.mem_append.mp hlater with hr | hr
        · split at hr
          · rename_i hne
            cases List.mem_singleton.mp hr
            exact hremain ⟨hne, hfails⟩
          · cases hr
        · split at hr
          · rename_i hne
            cases List.mem_singleton.mp hr
            exact hfinal ⟨hne, hfails⟩
          · cases hr
    rw [if_neg fun hboth => not_isNone_of_gives gives_remainRound
      (fun hfails => hremain ⟨hboth.1, hfails⟩) hboth.2, if_pos hfinal.1]
    obtain ⟨ending, hfinish, hne⟩ := finish_eq (finalQuery
      intersect_ids db server (intersect_ids.length / batch_size intersect_ids.length)
      (numIter intersect_ids.length query_thread_num) (batch_size intersect_ids.length)
      (intersect_ids.length % batch_size intersect_ids.length) _)
    exact ⟨_, _, hfinish, (note_of_fails gives_finalRound hfinal.2 _).1, hne⟩

end

/-! ## The positions of the plan -/

section

variable {n query_thread_num : ℕ}

theorem flatMap_fullRoundsOf :
    (fullRoundsOf n query_thread_num).flatMap Round.positions =
      List.range' 0 (numIter n query_thread_num * (query_thread_num * batch_size n)) := by
  rw [fullRoundsOf, List.flatMap_map, ← Chunks.flatMap_equalBlocks _ Chunks.additive_range']
  congr 1
  funext i
  show List.range' (i * batch_size n * query_thread_num) _ = _
  congr 1
  ring

theorem flatMap_laterRounds :
    (laterRounds n query_thread_num).flatMap Round.positions =
      List.range' (remainRound n query_thread_num).start
          (remainThread n query_thread_num * batch_size n) ++
        List.range' (n / batch_size n * batch_size n) (n % batch_size n) := by
  unfold laterRounds
  rw [List.flatMap_append]
  congr 1
  · split
    · simp [Round.positions, remainRound]
    · rename_i hzero
      rw [not_not.mp hzero, Nat.zero_mul]
      rfl
  · split
    · simp [Round.positions, finalRound]
    · rename_i hzero
      rw [not_not.mp hzero]
      rfl

theorem batch_eq : n / batch_size n =
    numIter n query_thread_num * query_thread_num + remainThread n query_thread_num := by
  unfold numIter remainThread
  rw [Nat.mul_comm]
  exact (Nat.div_add_mod _ _).symm

/-- **All positions are in the plan, once**, if there are no full rounds or no remaining
threads. -/
theorem flatMap_plan (h : numIter n query_thread_num = 0 ∨ remainThread n query_thread_num = 0) :
    (plan n query_thread_num).flatMap Round.positions = List.range n := by
  have hsum : numIter n query_thread_num * (query_thread_num * batch_size n) +
      remainThread n query_thread_num * batch_size n = n / batch_size n * batch_size n := by
    rw [← Nat.mul_assoc, ← Nat.add_mul, ← batch_eq]
  have hstart : List.range' (remainRound n query_thread_num).start
      (remainThread n query_thread_num * batch_size n) =
        List.range' (numIter n query_thread_num * (query_thread_num * batch_size n))
          (remainThread n query_thread_num * batch_size n) := by
    rcases h with hzero | hzero
    · simp [remainRound, hzero]
    · simp [hzero]
  have hn : n / batch_size n * batch_size n + n % batch_size n = n := by
    rw [Nat.mul_comm]
    exact Nat.div_add_mod n _
  have happend : ∀ m k, List.range' 0 m ++ List.range' m k = List.range' 0 (m + k) := fun m k => by
    rw [← List.range'_append_1, Nat.zero_add]
  rw [plan, List.flatMap_append, flatMap_fullRoundsOf, flatMap_laterRounds, hstart,
    ← List.append_assoc, happend, hsum, happend, hn, List.range_eq_range']

/-- Otherwise the round of the remaining threads starts inside the full rounds. -/
theorem not_nodup_plan (hthreads : query_thread_num ≠ 0) (hiter : numIter n query_thread_num ≠ 0)
    (hremain : remainThread n query_thread_num ≠ 0) :
    ¬ ((plan n query_thread_num).flatMap Round.positions).Nodup := by
  have hbatch : 0 < batch_size n := by
    unfold batch_size
    split_ifs <;> decide
  have hlt : remainThread n query_thread_num < query_thread_num :=
    Nat.mod_lt _ (Nat.pos_of_ne_zero hthreads)
  rw [plan, List.flatMap_append, flatMap_fullRoundsOf, flatMap_laterRounds]
  intro hnodup
  have hdisjoint := List.disjoint_of_nodup_append hnodup
  refine hdisjoint (a := (remainRound n query_thread_num).start) ?_ ?_
  · rw [List.mem_range'_1]
    refine ⟨Nat.zero_le _, ?_⟩
    rw [Nat.zero_add, Nat.mul_comm query_thread_num]
    show numIter n query_thread_num * batch_size n * remainThread n query_thread_num < _
    rw [← Nat.mul_assoc]
    exact Nat.mul_lt_mul_of_pos_left hlt (Nat.mul_pos (Nat.pos_of_ne_zero hiter) hbatch)
  · refine List.mem_append_left _ (List.mem_range'_1.mpr ⟨le_rfl, ?_⟩)
    exact Nat.lt_add_of_pos_right (Nat.mul_pos (Nat.pos_of_ne_zero hremain) hbatch)

end

/-! ## One run -/

section

variable {Row V : Type} [LinearOrder V] {intersect_ids : List Str} {db : Database Row V}
  {server : Server} {query_thread_num : ℕ}

/-- No position is queried twice, each one is queried unless a query fails, and if one fails the
file is removed and nothing registered. -/
structure Sound (intersect_ids : List Str) (run : QueryState Row × Ending) : Prop where
  nodup : run.1.queried.Nodup
  queried : run.1.failed = false → ∀ p, p ∈ run.1.queried ↔ p < intersect_ids.length
  removed : run.1.failed = true → run.2 = .removed

/-- What makes a run sound: a full round fails, or no round does and there are no full rounds or no
remaining threads. -/
def Covered (intersect_ids : List Str) (server : Server) (query_thread_num : ℕ) : Prop :=
  query_thread_num ≠ 0 ∧
    (Aborted intersect_ids server query_thread_num ∨
      Undisturbed intersect_ids server query_thread_num ∧
        (numIter intersect_ids.length query_thread_num = 0 ∨
          remainThread intersect_ids.length query_thread_num = 0))

theorem sound_of_aborted (hids : intersect_ids.length ≠ 0) (hthreads : query_thread_num ≠ 0)
    (h : Aborted intersect_ids server query_thread_num) :
    Sound intersect_ids
      (generate_new_datast_from_mysql intersect_ids db server query_thread_num) := by
  obtain ⟨s, hrun, hfailed, hsublist⟩ := generate_of_aborted db hids hthreads h
  rw [hrun]
  refine ⟨hsublist.nodup ?_, fun hfalse => ?_, fun _ => rfl⟩
  · rw [flatMap_fullRoundsOf]
    exact List.nodup_range'
  · rw [hfailed] at hfalse
    cases hfalse

theorem sound_of_undisturbed_iff (hids : intersect_ids.length ≠ 0)
    (hthreads : query_thread_num ≠ 0) (h : Undisturbed intersect_ids server query_thread_num) :
    Sound intersect_ids
        (generate_new_datast_from_mysql intersect_ids db server query_thread_num) ↔
      numIter intersect_ids.length query_thread_num = 0 ∨
        remainThread intersect_ids.length query_thread_num = 0 := by
  obtain ⟨ending, hrun⟩ := generate_of_undisturbed db hids hthreads h
  rw [hrun]
  constructor
  · rintro ⟨hnodup, _, _⟩
    by_contra hboth
    obtain ⟨hiter, hremain⟩ := not_or.mp hboth
    exact not_nodup_plan hthreads hiter hremain hnodup
  · intro hcovered
    have hqueried := flatMap_plan hcovered
    refine ⟨?_, fun _ p => ?_, fun hfalse => by cases hfalse⟩
    · show ([] ++ List.flatMap Round.positions _).Nodup
      rw [List.nil_append, hqueried]
      exact List.nodup_range
    · show p ∈ [] ++ List.flatMap Round.positions _ ↔ _
      rw [List.nil_append, hqueried, List.mem_range]

/-- **A run is sound** just when its rounds cover the list. -/
theorem sound_iff (hids : intersect_ids.length ≠ 0) :
    Sound intersect_ids
        (generate_new_datast_from_mysql intersect_ids db server query_thread_num) ↔
      Covered intersect_ids server query_thread_num := by
  unfold Covered
  by_cases hthreads : query_thread_num = 0
  · -- no query is made
    have hrun : generate_new_datast_from_mysql intersect_ids db server query_thread_num =
        (⟨[], false, []⟩, .raised .ValueError) := by
      unfold generate_new_datast_from_mysql
      dsimp only
      rw [if_neg hids, if_pos hthreads]
    rw [hrun]
    refine ⟨fun h => ?_, fun h => absurd hthreads h.1⟩
    have hmem := (h.queried rfl 0).mpr (Nat.pos_of_ne_zero hids)
    cases hmem
  · by_cases haborted : Aborted intersect_ids server query_thread_num
    · exact iff_of_true (sound_of_aborted hids hthreads haborted) ⟨hthreads, Or.inl haborted⟩
    · by_cases hundisturbed : Undisturbed intersect_ids server query_thread_num
      · rw [sound_of_undisturbed_iff hids hthreads hundisturbed]
        simp [hthreads, haborted, hundisturbed]
      · obtain ⟨s, ending, hrun, hfailed, hne⟩ :=
          generate_of_later db hids hthreads haborted hundisturbed
        rw [hrun]
        refine iff_of_false (fun h => hne (h.removed hfailed)) ?_
        simp [haborted, hundisturbed]

end

/-! ## The order of the rows -/

section

variable {Row V : Type} {intersect_ids : List Str} {db : Database Row V}

/-- Each id has one row in the table. -/
def UniqueIds (intersect_ids : List Str) (db : Database Row V) : Prop :=
  ∀ part, part <:+: intersect_ids → ((db.select part).map db.id).Perm part

/-- The ids of a round. -/
def Round.ids (intersect_ids : List Str) (r : Round) : List Str :=
  (intersect_ids.drop r.start).take (r.threads * r.size)

theorem Round.infix_ids (r : Round) : r.ids intersect_ids <:+: intersect_ids :=
  (List.take_prefix _ _).isInfix.trans (List.drop_suffix _ _).isInfix

theorem Round.perm_arrived (hdb : UniqueIds intersect_ids db) (r : Round) :
    ((r.arrived intersect_ids db).map db.id).Perm (r.ids intersect_ids) := by
  have hids : r.ids intersect_ids =
      r.queries.flatMap fun q => slice intersect_ids q.1 q.2 :=
    (Round.flatMap_queries (Chunks.additive_slice intersect_ids)).symm
  rw [hids, Round.arrived, fetched, List.map_flatMap]
  exact List.Perm.flatMap_left _ fun q _ => hdb _
    ((List.take_prefix _ _).isInfix.trans (List.drop_suffix _ _).isInfix)

end

section

variable {Row V Row' V' : Type} [LinearOrder V] [LinearOrder V'] {intersect_ids : List Str}
  {db : Database Row V} {db' : Database Row' V'} {server server' : Server} {query_thread_num : ℕ}

/-- The order of `sort`. -/
def leLast (db : Database Row V) (v w : Row) : Bool := decide (db.last v ≤ db.last w)

theorem order_leLast : StableSort.Order (leLast db) where
  trans a b c hab hbc := by
    rw [leLast, decide_eq_true_eq] at hab hbc ⊢
    exact hab.trans hbc
  total a b := by
    rw [leLast, leLast, Bool.or_eq_true, decide_eq_true_eq, decide_eq_true_eq]
    exact le_total _ _

theorem Round.perm_rows (hdb : UniqueIds intersect_ids db) (r : Round) :
    ((r.rows intersect_ids db).map db.id).Perm (r.ids intersect_ids) :=
  ((List.mergeSort_perm _ _).map db.id).trans (r.perm_arrived hdb)

/-- In a round any two rows stand in the same order at both parties: by their last columns, and
where these are equal as they have arrived. -/
def SameOrder (intersect_ids : List Str) (db : Database Row V) (db' : Database Row' V')
    (r : Round) : Prop :=
  ∀ a ∈ r.arrived intersect_ids db, ∀ b ∈ r.arrived intersect_ids db,
    ∀ a' ∈ r.arrived intersect_ids db', ∀ b' ∈ r.arrived intersect_ids db',
      db.id a = db'.id a' → db.id b = db'.id b' → a ≠ b →
        StableSort.Precedes (leLast db) (r.arrived intersect_ids db) a b →
          StableSort.Precedes (leLast db') (r.arrived intersect_ids db') a' b'

theorem rows_eq_iff (hnodup : intersect_ids.Nodup) (hdb : UniqueIds intersect_ids db)
    (hdb' : UniqueIds intersect_ids db') (r : Round) :
    (r.rows intersect_ids db).map db.id = (r.rows intersect_ids db').map db'.id ↔
      SameOrder intersect_ids db db' r :=
  StableSort.map_mergeSort_eq_iff order_leLast order_leLast
    ((r.perm_arrived hdb).trans (r.perm_arrived hdb').symm)
    ((r.perm_arrived hdb).nodup_iff.mpr (r.infix_ids.sublist.nodup hnodup))

theorem written_eq_iff (hids : intersect_ids.length ≠ 0) (hthreads : query_thread_num ≠ 0)
    (hnodup : intersect_ids.Nodup) (hdb : UniqueIds intersect_ids db)
    (hdb' : UniqueIds intersect_ids db')
    (h : Undisturbed intersect_ids server query_thread_num)
    (h' : Undisturbed intersect_ids server' query_thread_num) :
    (generate_new_datast_from_mysql intersect_ids db server query_thread_num).1.written.map db.id =
        (generate_new_datast_from_mysql intersect_ids db' server'
          query_thread_num).1.written.map db'.id ↔
      ∀ r ∈ plan intersect_ids.length query_thread_num, SameOrder intersect_ids db db' r := by
  obtain ⟨_, hrun⟩ := generate_of_undisturbed db hids hthreads h
  obtain ⟨_, hrun'⟩ := generate_of_undisturbed db' hids hthreads h'
  rw [hrun, hrun']
  show List.map _ ([] ++ _) = List.map _ ([] ++ _) ↔ _
  rw [List.nil_append, List.nil_append, List.map_flatMap, List.map_flatMap,
    Chunks.flatMap_eq_flatMap_iff fun r _ =>
      (r.perm_rows hdb).length_eq.trans (r.perm_rows hdb').length_eq.symm]
  exact forall₂_congr fun r _ => rows_eq_iff hnodup hdb hdb' r

theorem failed_eq_false_iff (hids : intersect_ids.length ≠ 0) (hthreads : query_thread_num ≠ 0) :
    (generate_new_datast_from_mysql intersect_ids db server query_thread_num).1.failed = false ↔
      Undisturbed intersect_ids server query_thread_num := by
  by_cases hundisturbed : Undisturbed intersect_ids server query_thread_num
  · obtain ⟨_, hrun⟩ := generate_of_undisturbed db hids hthreads hundisturbed
    rw [hrun]
    exact iff_of_true rfl hundisturbed
  · refine iff_of_false ?_ hundisturbed
    rw [Bool.not_eq_false]
    by_cases haborted : Aborted intersect_ids server query_thread_num
    · obtain ⟨s, hrun, hfailed, _⟩ := generate_of_aborted db hids hthreads haborted
      rw [hrun]
      exact hfailed
    · obtain ⟨s, ending, hrun, hfailed, _⟩ :=
        generate_of_later db hids hthreads haborted hundisturbed
      rw [hrun]
      exact hfailed

end

/-- A table of one column: the row of an id is the id itself. -/
def idTable : Database Str ℕ := ⟨fun row => row, fun _ => 0, fun query_ids => query_ids⟩

/-- Every connection and every query succeeds. -/
def allFine : Server := ⟨fun _ _ => true, fun _ _ _ => true⟩

theorem uniqueIds_idTable (intersect_ids : List Str) : UniqueIds intersect_ids idTable :=
  fun part _ => by
    show (part.map fun row => row).Perm part
    rw [List.map_id']

/-- A thread with such a server fails only for a single id. -/
theorem not_threadFails_allFine {intersect_ids : List Str} {round thread start stop : ℕ}
    (hstop : stop ≤ intersect_ids.length) (hone : (stop - start) % 1000 ≠ 1) :
    ¬ ThreadFails intersect_ids allFine round thread start stop := by
  rintro (hconnect | ⟨k, r, hr, hlength | hexecute⟩)
  · cases hconnect
  · have hmem := List.mem_of_getElem? hr
    unfold subRanges at hmem
    rcases List.mem_append.mp hmem with hmem | hmem
    · obtain ⟨i, hi, rfl⟩ := List.mem_map.mp hmem
      have hi := List.mem_range.mp hi
      rw [slice, List.length_take, List.length_drop] at hlength
      omega
    · split at hmem
      · cases List.mem_singleton.mp hmem
        rw [slice, List.length_take, List.length_drop] at hlength
        omega
      · cases hmem
  · cases hexecute

/-- Six thousand ids and five threads. -/
def sixThousand : List Str := (List.range 6000).map fun k => List.replicate k 'a'

end Fediux.Align
