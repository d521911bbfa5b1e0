import Mathlib

set_option autoImplicit false

/-! # Cutting a list into chunks of bounded length

Two loops: one copies at most `limit` elements at a time and makes one chunk even when there is
nothing to copy, the other makes the whole blocks first and then a block of what is left.
-/

namespace Chunks

variable {α : Type} {limit : Nat}

/-- The chunks from place `sent` of the data on. -/
def chunksFrom (hlimit : 0 < limit) (data : List α) (sent : Nat) : List (List α) :=
  let len := min limit (data.length - sent)
  (data.drop sent).take len ::
    if sent + len < data.length then chunksFrom hlimit data (sent + len) else []
termination_by data.length - sent
decreasing_by omega

def chunks (hlimit : 0 < limit) (data : List α) : List (List α) := chunksFrom hlimit data 0

variable (hlimit : 0 < limit) (data : List α)

theorem chunksFrom_ne_nil (sent : Nat) : chunksFrom hlimit data sent ≠ [] := by
  unfold chunksFrom
  exact List.cons_ne_nil _ _

theorem length_le_of_mem_chunksFrom (sent : Nat) :
    ∀ c ∈ chunksFrom hlimit data sent, c.length ≤ limit := by
  induction sent using chunksFrom.induct hlimit data with
  | case1 sent len ih =>
      intro c hc
      rw [chunksFrom] at hc
      rcases List.mem_cons.mp hc with rfl | hc
      · rw [List.length_take]
        omega
      · split at hc
        · exact ih ‹_› c hc
        · exact absurd hc List.not_mem_nil

/-- The chunks make up the rest of the data. -/
theorem flatten_chunksFrom (sent : Nat) (h : sent ≤ data.length) :
    (chunksFrom hlimit data sent).flatten = data.drop sent := by
  induction sent using chunksFrom.induct hlimit data with
  | case1 sent len ih =>
      have hlen : len = min limit (data.length - sent) := rfl
      rw [chunksFrom, List.flatten_cons]
      split
      · rw [ih ‹_› (by omega), ← List.drop_drop]
        exact List.take_append_drop _ _
      · rw [List.flatten_nil, List.append_nil]
        refine List.take_of_length_le ?_
        rw [List.length_drop]
        omega

theorem flatten_chunks : (chunks hlimit data).flatten = data := by
  rw [chunks, flatten_chunksFrom hlimit data 0 (Nat.zero_le _), List.drop_zero]

/-! ## Whole blocks and a remainder

A loop over the whole blocks, and a last block for what is left, if there is something left. -/

variable (size : Nat)

def wholeBlocks : List (List α) :=
  (List.range (data.length / size)).map fun i => (data.drop (i * size)).take size

def blocks : List (List α) :=
  wholeBlocks data size ++
    if data.length % size = 0 then [] else [data.drop (data.length / size * size)]

theorem flatten_wholeBlocks (n : Nat) :
    ((List.range n).map fun i => (data.drop (i * size)).take size).flatten =
      data.take (n * size) := by
  induction n with
  | zero => simp
  | succ n ih =>
      rw [List.range_succ, List.map_append, List.flatten_append, ih, Nat.succ_mul, List.take_add]
      simp

theorem flatten_blocks : (blocks data size).flatten = data := by
  have hmod : data.length / size * size + data.length % size = data.length := by
    rw [Nat.mul_comm]
    exact Nat.div_add_mod _ _
  unfold blocks wholeBlocks
  rw [List.flatten_append, flatten_wholeBlocks data size]
  split
  · rw [List.flatten_nil, List.append_nil]
    exact List.take_of_length_le (by omega)
  · rw [List.flatten_singleton]
    exact List.take_append_drop _ _

/-- The blocks of chunks of one length are the chunks. -/
theorem wholeBlocks_flatten (hsize : 0 < size) (cs : List (List α))
    (h : ∀ c ∈ cs, c.length = size) : wholeBlocks cs.flatten size = cs := by
  unfold wholeBlocks
  induction cs with
  | nil => simp
  | cons c cs ih =>
      obtain ⟨hc, hcs⟩ := List.forall_mem_cons.mp h
      have hcount : (c ++ cs.flatten).length / size = cs.flatten.length / size + 1 := by
        rw [List.length_append, hc, Nat.add_comm, Nat.add_div_right _ hsize]
      have hblock : ∀ i, (c ++ cs.flatten).drop ((i + 1) * size) = cs.flatten.drop (i * size) := by
        intro i
        have hskip : (i + 1) * size = c.length + i * size := by
          rw [hc, Nat.succ_mul, Nat.add_comm]
        rw [hskip, ← List.drop_drop, List.drop_left]
      rw [List.flatten_cons, hcount, List.range_succ_eq_map, List.map_cons, List.map_map]
      congr 1
      · rw [Nat.zero_mul, List.drop_zero, ← hc, List.take_left]
      · calc (List.range (cs.flatten.length / size)).map
              ((fun i => ((c ++ cs.flatten).drop (i * size)).take size) ∘ Nat.succ)
            = (List.range (cs.flatten.length / size)).map
                (fun i => (cs.flatten.drop (i * size)).take size) := by
              refine List.map_congr_left fun i _ => ?_
              show ((c ++ cs.flatten).drop ((i + 1) * size)).take size = _
              rw [hblock]
          _ = cs := ih hcs

/-! ## Blocks of equal length

A list for each start and length, in which what stands behind each other is put together, is the
list of its blocks.
-/

/-- A list of `n` elements from `start` on, for each `start` and `n`. -/
structure Additive (f : Nat → Nat → List α) : Prop where
  zero : ∀ start, f start 0 = []
  add : ∀ start m n, f start (m + n) = f start m ++ f (start + m) n

theorem flatMap_equalBlocks {f : Nat → Nat → List α} (hf : Additive f) (start n : Nat) :
    ((List.range n).flatMap fun i => f (start + size * i) size) = f start (n * size) := by
  induction n with
  | zero => rw [Nat.zero_mul, hf.zero, List.range_zero, List.flatMap_nil]
  | succ n ih =>
      rw [List.range_succ, List.flatMap_append, ih, Nat.succ_mul, hf.add, Nat.mul_comm n size]
      simp

theorem additive_range' : Additive fun start n => List.range' start n where
  zero _ := rfl
  add start m n := by rw [List.range'_append_1]

theorem additive_slice (data : List α) : Additive fun start n => (data.drop start).take n where
  zero start := List.take_zero
  add start m n := by rw [List.take_add, List.drop_drop]

/-- Pieces of the same lengths make up the same list just when they are equal. -/
theorem flatMap_eq_flatMap_iff {β : Type} {f g : α → List β} {l : List α}
    (h : ∀ x ∈ l, (f x).length = (g x).length) :
    l.flatMap f = l.flatMap g ↔ ∀ x ∈ l, f x = g x := by
  induction l with
  | nil => simp
  | cons x l ih =>
      obtain ⟨hx, hl⟩ := List.forall_mem_cons.mp h
      rw [List.flatMap_cons, List.flatMap_cons, List.forall_mem_cons, ← ih hl]
      exact ⟨fun heq => List.append_inj heq hx, fun ⟨hhead, htail⟩ => hhead ▸ htail ▸ rfl⟩

end Chunks
