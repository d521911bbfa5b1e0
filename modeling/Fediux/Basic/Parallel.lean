import Mathlib

set_option autoImplicit false

/-! # Threads that write to a list

Each thread writes to places of a list that all of them share. Without races the result does not
depend on the order in which the threads run; `raceFree_iff_aligned` says when threads that write
blocks of values, one block behind the other, are free of races.
-/

namespace Parallel

variable {α β γ : Type}

/-- The operations of the threads in one order that keeps the order of each thread. -/
inductive Interleaving : List (List α) → List α → Prop where
  | done {threads : List (List α)} : (∀ t ∈ threads, t = []) → Interleaving threads []
  | step {front back : List (List α)} {t : List α} {a : α} {rest : List α} :
      Interleaving (front ++ t :: back) rest →
      Interleaving (front ++ (a :: t) :: back) (a :: rest)

theorem Interleaving.perm {threads : List (List α)} {l : List α} (h : Interleaving threads l) :
    l.Perm threads.flatten := by
  induction h with
  | done hnil =>
      rw [List.flatten_eq_nil_iff.mpr hnil]
  | @step front back t a rest _ ih =>
      rw [List.flatten_append, List.flatten_cons, List.cons_append]
      rw [List.flatten_append, List.flatten_cons] at ih
      exact (ih.cons a).trans List.perm_middle.symm

/-- One thread after the other. -/
theorem Interleaving.inOrder (threads : List (List α)) :
    Interleaving threads threads.flatten := by
  suffices h : ∀ (front back : List (List α)), (∀ t ∈ front, t = []) →
      Interleaving (front ++ back) back.flatten by
    exact h [] threads fun t ht => absurd ht List.not_mem_nil
  intro front back hfront
  induction back generalizing front with
  | nil =>
      rw [List.append_nil]
      exact .done hfront
  | cons t back ih =>
      induction t with
      | nil =>
          have hnil : ∀ t ∈ front ++ [[]], t = [] := by
            intro t ht
            rcases List.mem_append.mp ht with ht | ht
            · exact hfront t ht
            · exact List.mem_singleton.mp ht
          have := ih (front ++ [[]]) hnil
          rwa [List.append_assoc, List.singleton_append] at this
      | cons a t iht => exact .step iht

/-! ## Writes -/

/-- One write: the place and what is combined with the old value there. -/
def write (op : β → γ → β) (data : List β) (w : ℕ × γ) : List β :=
  data.modify w.1 fun old => op old w.2

/-- All writes are within the list, and no two threads write to one place. -/
def RaceFree (threads : List (List (ℕ × γ))) (size : ℕ) : Prop :=
  (∀ w ∈ threads.flatten, w.1 < size) ∧
    threads.Pairwise fun t t' => ∀ w ∈ t, ∀ w' ∈ t', w.1 ≠ w'.1

/-- A block of values from the place `n` on. -/
def block : ℕ → List γ → List (ℕ × γ)
  | _, [] => []
  | n, v :: vs => (n, v) :: block (n + 1) vs

section Block

variable {n : ℕ} {vs : List γ}

theorem block_append (n : ℕ) (vs vs' : List γ) :
    block n (vs ++ vs') = block n vs ++ block (n + vs.length) vs' := by
  induction vs generalizing n with
  | nil => rfl
  | cons v vs ih =>
      rw [List.cons_append, block, block, ih, List.length_cons, List.cons_append]
      congr 3
      omega

theorem map_fst_block (n : ℕ) (vs : List γ) :
    (block n vs).map Prod.fst = List.range' n vs.length := by
  induction vs generalizing n with
  | nil => rfl
  | cons v vs ih => rw [block, List.map_cons, ih, List.length_cons, List.range'_succ]

theorem getElem?_block (n : ℕ) (vs : List γ) (i : ℕ) :
    (block n vs)[i]? = vs[i]?.map fun v => (n + i, v) := by
  induction vs generalizing n i with
  | nil => rfl
  | cons v vs ih =>
      cases i with
      | zero => rfl
      | succ i =>
          show (block (n + 1) vs)[i]? = vs[i]?.map fun v => (n + (i + 1), v)
          rw [ih, Nat.add_right_comm, Nat.add_assoc]

theorem mem_block_place {i : ℕ} :
    (∃ w ∈ block n vs, w.1 = i) ↔ n ≤ i ∧ i < n + vs.length := by
  rw [← List.mem_map, map_fst_block, List.mem_range'_1]

theorem modify_at_length (f : β → β) (pre : List β) (b : β) (post : List β) :
    (pre ++ b :: post).modify pre.length f = pre ++ f b :: post := by
  induction pre with
  | nil => rfl
  | cons c pre ih =>
      rw [List.cons_append, List.length_cons, List.modify_succ_cons, ih, List.cons_append]

/-- A block is written at its place. -/
theorem foldl_write_block (op : β → γ → β) (pre mid post : List β) (vs : List γ)
    (h : mid.length = vs.length) :
    (block pre.length vs).foldl (write op) (pre ++ mid ++ post) =
      pre ++ List.zipWith op mid vs ++ post := by
  induction vs generalizing pre mid with
  | nil =>
      rw [List.length_eq_zero_iff.mp h]
      rfl
  | cons v vs ih =>
      cases mid with
      | nil => simp at h
      | cons b mid =>
          have hwrite : write op (pre ++ (b :: mid) ++ post) (pre.length, v) =
              (pre ++ [op b v]) ++ mid ++ post := by
            unfold write
            rw [List.append_assoc, List.cons_append, modify_at_length]
            simp only [List.append_assoc, List.cons_append, List.nil_append]
          have hlen : (pre ++ [op b v]).length = pre.length + 1 := by
            rw [List.length_append, List.length_singleton]
          rw [block, List.foldl_cons, hwrite, ← hlen, ih _ _ (by simpa using h)]
          simp

end Block

/-- The order of writes to different places does not matter. -/
theorem foldl_write_perm (op : β → γ → β) {l l' : List (ℕ × γ)} (h : l.Perm l')
    (hnodup : (l.map Prod.fst).Nodup) (data : List β) :
    l.foldl (write op) data = l'.foldl (write op) data := by
  induction h generalizing data with
  | nil => rfl
  | cons w _ ih => exact ih (List.nodup_cons.mp hnodup).2 _
  | swap w w' l =>
      have hne : w'.1 ≠ w.1 := by
        intro heq
        rw [List.map_cons, List.map_cons, List.nodup_cons] at hnodup
        exact hnodup.1 (heq ▸ List.mem_cons_self)
      rw [List.foldl_cons, List.foldl_cons, List.foldl_cons, List.foldl_cons]
      congr 1
      unfold write
      refine List.ext_getElem? fun i => ?_
      simp only [List.getElem?_modify]
      by_cases h1 : w.1 = i <;> by_cases h2 : w'.1 = i
      · exact absurd (h2.trans h1.symm) hne
      all_goals simp [h1, h2]
  | trans hp _ ih ih' =>
      rw [ih hnodup]
      exact ih' ((hp.map Prod.fst).nodup_iff.mp hnodup) data

section Flatten

variable {threads : List (List (ℕ × γ))} {vs : List γ} {size : ℕ}

/-- Threads that together write one block are free of races. -/
theorem raceFree_of_flatten (h : threads.flatten = block 0 vs) (hlen : vs.length ≤ size) :
    RaceFree threads size := by
  have hplaces : (threads.flatten.map Prod.fst).Nodup := by
    rw [h, map_fst_block]
    exact List.nodup_range'
  constructor
  · intro w hw
    rw [h] at hw
    have := (mem_block_place.mp ⟨w, hw, rfl⟩).2
    omega
  · exact (List.pairwise_flatten.mp (List.pairwise_map.mp hplaces)).2

/-- **However the threads are scheduled, they write the block.** -/
theorem foldl_write_interleaving (op : β → γ → β) (h : threads.flatten = block 0 vs)
    {data : List β} (hlen : vs.length ≤ data.length) {l : List (ℕ × γ)}
    (hl : Interleaving threads l) :
    l.foldl (write op) data = List.zipWith op data vs ++ data.drop vs.length := by
  have hperm := hl.perm
  rw [h] at hperm
  have hplaces : (l.map Prod.fst).Nodup := by
    rw [(hperm.map Prod.fst).nodup_iff, map_fst_block]
    exact List.nodup_range'
  rw [foldl_write_perm op hperm hplaces]
  have hmid : (data.take vs.length).length = vs.length := by
    rw [List.length_take, min_eq_left hlen]
  have hblock := foldl_write_block op [] (data.take vs.length) (data.drop vs.length) vs hmid
  rw [List.nil_append, List.take_append_drop] at hblock
  rw [List.nil_append] at hblock
  rw [List.length_nil] at hblock
  rw [hblock]
  have hsplit : List.zipWith op (data.take vs.length ++ data.drop vs.length) (vs ++ []) =
      List.zipWith op (data.take vs.length) vs ++ List.zipWith op (data.drop vs.length) [] :=
    List.zipWith_append hmid
  rw [List.take_append_drop, List.append_nil, List.zipWith_nil_right, List.append_nil] at hsplit
  rw [hsplit]

end Flatten

/-! ## Threads that write one block each -/

/-- Each thread writes its values from its place on. -/
def blocks (ps : List (ℕ × List γ)) : List (List (ℕ × γ)) := ps.map fun p => block p.1 p.2

/-- Every block that is not empty starts where the blocks before it end. -/
def Aligned : ℕ → List (ℕ × List γ) → Prop
  | _, [] => True
  | a, p :: ps => (p.2 ≠ [] → p.1 = a) ∧ Aligned (a + p.2.length) ps

section Blocks

variable {a size : ℕ} {ps : List (ℕ × List γ)}

theorem Aligned.flatten_blocks (h : Aligned a ps) :
    (blocks ps).flatten = block a (ps.map Prod.snd).flatten := by
  induction ps generalizing a with
  | nil => rfl
  | cons p ps ih =>
      obtain ⟨hstart, hrest⟩ := h
      have hhead : block p.1 p.2 = block a p.2 := by
        by_cases hnil : p.2 = []
        · rw [hnil]
          rfl
        · rw [hstart hnil]
      rw [List.map_cons, List.flatten_cons, block_append, ← ih hrest, ← hhead]
      rfl

theorem RaceFree.tail {p : ℕ × List γ} (h : RaceFree (blocks (p :: ps)) size) :
    RaceFree (blocks ps) size :=
  ⟨fun w hw => h.1 w (List.mem_append_right _ hw), (List.pairwise_cons.mp h.2).2⟩

/-- A block that is not empty ends within the list and before the later blocks. -/
theorem RaceFree.head {p : ℕ × List γ} (h : RaceFree (blocks (p :: ps)) size) (hp : p.2 ≠ [])
    (hmono : ∀ q ∈ ps, p.1 ≤ q.1) :
    p.1 + p.2.length ≤ size ∧ ∀ q ∈ ps, q.2 ≠ [] → p.1 + p.2.length ≤ q.1 := by
  have hpos : 0 < p.2.length := List.length_pos_iff.mpr hp
  constructor
  · obtain ⟨w, hw, hplace⟩ := mem_block_place.mpr
      (show p.1 ≤ p.1 + p.2.length - 1 ∧ p.1 + p.2.length - 1 < p.1 + p.2.length by omega)
    have := h.1 w (List.mem_append_left _ hw)
    omega
  · intro q hq hne
    by_contra hlt
    -- the first place of `q` lies in `p`
    have hqpos : 0 < q.2.length := List.length_pos_iff.mpr hne
    obtain ⟨w, hw, hplace⟩ := mem_block_place.mpr
      (show p.1 ≤ q.1 ∧ q.1 < p.1 + p.2.length from ⟨hmono q hq, by omega⟩)
    obtain ⟨w', hw', hplace'⟩ := mem_block_place.mpr
      (show q.1 ≤ q.1 ∧ q.1 < q.1 + q.2.length by omega)
    exact (List.pairwise_cons.mp h.2).1 _ (List.mem_map_of_mem hq) w hw w' hw'
      (hplace.trans hplace'.symm)

/-- The values of blocks from `a` on fit behind `a`. -/
theorem RaceFree.length_le (h : RaceFree (blocks ps) size)
    (hmono : ps.Pairwise fun p q => p.1 ≤ q.1) (hlow : ∀ p ∈ ps, p.2 ≠ [] → a ≤ p.1)
    (ha : a ≤ size) : a + (ps.map Prod.snd).flatten.length ≤ size := by
  induction ps generalizing a with
  | nil => exact ha
  | cons p ps ih =>
      obtain ⟨hfirst, hmono⟩ := List.pairwise_cons.mp hmono
      obtain ⟨hp, hlow⟩ := List.forall_mem_cons.mp hlow
      rw [List.map_cons, List.flatten_cons, List.length_append]
      by_cases hnil : p.2 = []
      · rw [hnil, List.length_nil]
        have := ih h.tail hmono hlow ha
        omega
      · obtain ⟨hend, hnext⟩ := h.head hnil hfirst
        have := ih h.tail hmono hnext hend
        have := hp hnil
        omega

/-- Blocks without races that fill the list are aligned. -/
theorem RaceFree.aligned (h : RaceFree (blocks ps) size)
    (hmono : ps.Pairwise fun p q => p.1 ≤ q.1) (hlow : ∀ p ∈ ps, p.2 ≠ [] → a ≤ p.1)
    (hsum : a + (ps.map Prod.snd).flatten.length = size) : Aligned a ps := by
  induction ps generalizing a with
  | nil => trivial
  | cons p ps ih =>
      obtain ⟨hfirst, hmono⟩ := List.pairwise_cons.mp hmono
      obtain ⟨hp, hlow⟩ := List.forall_mem_cons.mp hlow
      rw [List.map_cons, List.flatten_cons, List.length_append] at hsum
      by_cases hnil : p.2 = []
      · refine ⟨fun hne => absurd hnil hne, ih h.tail hmono ?_ (by omega)⟩
        intro q hq hne
        rw [hnil, List.length_nil, Nat.add_zero]
        exact hlow q hq hne
      · obtain ⟨hend, hnext⟩ := h.head hnil hfirst
        have hle := h.tail.length_le hmono hnext hend
        have hlow' := hp hnil
        have hstart : p.1 = a := by omega
        refine ⟨fun _ => hstart, ih h.tail hmono ?_ (by omega)⟩
        rwa [← hstart]

/-- **Blocks that fill the list are free of races exactly when they are aligned.** -/
theorem raceFree_iff_aligned (hmono : ps.Pairwise fun p q => p.1 ≤ q.1)
    (hsum : (ps.map Prod.snd).flatten.length = size) :
    RaceFree (blocks ps) size ↔ Aligned 0 ps := by
  constructor
  · intro h
    exact h.aligned hmono (fun p _ _ => Nat.zero_le _) (by omega)
  · intro h
    exact raceFree_of_flatten h.flatten_blocks hsum.le

end Blocks

end Parallel
