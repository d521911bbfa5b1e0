import Fediux.Basic.OrderedMap

set_option autoImplicit false

/-! # Maps in the order of their insertion

`put` replaces the value of a key where it stands or puts a new entry at the end. Where every
value depends on its key alone, putting entries is appending the new keys (`table`).
-/

namespace Dict

open OrderedMap

variable {κ α : Type} [DecidableEq κ]

/-- Give the key `k` the value `v`. -/
def put : Entries κ α → κ → α → Entries κ α
  | [], k, v => [(k, v)]
  | (k', v') :: m, k, v => if k = k' then (k', v) :: m else (k', v') :: put m k v

def keys (m : Entries κ α) : List κ := m.map Prod.fst

@[simp] theorem find?_put (m : Entries κ α) (k k' : κ) (v : α) :
    find? (put m k v) k' = if k' = k then some v else find? m k' := by
  induction m with
  | nil => rfl
  | cons e m ih =>
      obtain ⟨k₀, v₀⟩ := e
      by_cases hk : k = k₀
      · subst hk
        by_cases hk' : k' = k <;> simp [put, find?, hk']
      · by_cases hk₀ : k' = k₀
        · subst hk₀
          have hne : k' ≠ k := fun h => hk h.symm
          simp [put, find?, hk, hne]
        · simp [put, find?, hk, hk₀, ih]

theorem put_of_notMem {m : Entries κ α} {k : κ} (hk : k ∉ keys m) (v : α) :
    put m k v = m ++ [(k, v)] := by
  induction m with
  | nil => rfl
  | cons e m ih =>
      obtain ⟨hne, hk⟩ := not_or.mp fun h => hk (List.mem_cons.mpr h)
      show (if k = e.1 then _ else (e.1, e.2) :: put m k v) = _
      rw [if_neg hne, ih hk]
      rfl

/-- Entries with new keys, where the value that is put may depend on the one before it. -/
theorem foldl_put_new {γ : Type} (g : Option α → γ → α) (l : List (κ × γ)) (m : Entries κ α)
    (hnodup : (keys m ++ l.map Prod.fst).Nodup) :
    l.foldl (fun m e => put m e.1 (g (find? m e.1) e.2)) m =
      m ++ l.map fun e => (e.1, g none e.2) := by
  induction l generalizing m with
  | nil => exact (List.append_nil m).symm
  | cons e l ih =>
      have he : e.1 ∉ keys m := fun h =>
        (List.nodup_append.mp hnodup).2.2 e.1 h e.1 List.mem_cons_self rfl
      have hkeys : keys (m ++ [(e.1, g none e.2)]) ++ l.map Prod.fst =
          keys m ++ (e :: l).map Prod.fst := by simp [keys]
      rw [List.foldl_cons, find?_eq_none_iff.mpr he, put_of_notMem he, ih _ (hkeys ▸ hnodup)]
      simp

/-! ## Lists of values -/

/-- `x` is put behind the values of the key. -/
def append {β : Type} (m : Entries κ (List β)) (k : κ) (x : β) : Entries κ (List β) :=
  put m k ((find? m k).getD [] ++ [x])

/-- The values that a list has for a key. -/
def valuesOf (l : List (κ × α)) (k : κ) : List α := (l.filter fun e => e.1 = k).map Prod.snd

theorem valuesOf_cons (e : κ × α) (l : List (κ × α)) (k : κ) :
    valuesOf (e :: l) k = if e.1 = k then e.2 :: valuesOf l k else valuesOf l k := by
  by_cases hk : e.1 = k <;> simp [valuesOf, hk]

/-- A key has its values in their order, once it has one. -/
theorem find?_foldl_append (l : List (κ × α)) (m : Entries κ (List α)) (k : κ) :
    find? (l.foldl (fun m e => append m e.1 e.2) m) k =
      if valuesOf l k = [] then find? m k
      else some ((find? m k).getD [] ++ valuesOf l k) := by
  induction l generalizing m with
  | nil => rfl
  | cons e l ih =>
      rw [List.foldl_cons, ih, append, find?_put, valuesOf_cons]
      by_cases hk : e.1 = k
      · subst hk
        by_cases hl : valuesOf l e.1 = [] <;> simp [hl]
      · have hk' : ¬ k = e.1 := fun h => hk h.symm
        simp [hk, hk']

/-! ## Tables of a function -/

/-- The keys `ks` with the values of `f`. -/
def table (f : κ → α) (ks : List κ) : Entries κ α := ks.map fun k => (k, f k)

omit [DecidableEq κ] in
@[simp] theorem keys_table (f : κ → α) (ks : List κ) : keys (table f ks) = ks := by
  rw [keys, table, List.map_map]
  exact List.map_id ks

theorem find?_table (f : κ → α) (ks : List κ) (k : κ) :
    find? (table f ks) k = if k ∈ ks then some (f k) else none := by
  induction ks with
  | nil => rfl
  | cons k₀ ks ih =>
      show (if k = k₀ then some (f k₀) else find? (table f ks) k) = _
      by_cases hk : k = k₀
      · subst hk
        simp
      · simp [hk, ih]

/-- Entries for some of the keys. -/
theorem find?_filterMap {f : κ → Option (κ × α)} (hkey : ∀ k e, f k = some e → e.1 = k)
    (ks : List κ) (k : κ) :
    find? (ks.filterMap f) k = if k ∈ ks then (f k).map Prod.snd else none := by
  induction ks with
  | nil => rfl
  | cons k₀ ks ih =>
      rw [List.filterMap_cons]
      cases hf : f k₀ with
      | none =>
          simp only [ih, List.mem_cons]
          by_cases hk : k = k₀
          · subst hk
            simp [hf]
          · simp [hk]
      | some e =>
          obtain ⟨k', v⟩ := e
          obtain rfl : k' = k₀ := hkey k₀ _ hf
          show (if k = k' then some v else find? (ks.filterMap f) k) = _
          rw [ih]
          by_cases hk : k = k'
          · subst hk
            simp [hf]
          · simp [hk]

theorem put_table_of_notMem {f : κ → α} {ks : List κ} {k : κ} (hk : k ∉ ks) :
    put (table f ks) k (f k) = table f (ks ++ [k]) := by
  induction ks with
  | nil => rfl
  | cons k₀ ks ih =>
      obtain ⟨hne, hk⟩ := not_or.mp fun h => hk (List.mem_cons.mpr h)
      show (if k = k₀ then _ else (k₀, f k₀) :: put (table f ks) k (f k)) = _
      rw [if_neg hne, ih hk]
      rfl

/-- Putting a value is changing the function. -/
theorem put_table_of_mem {f : κ → α} {ks : List κ} {k : κ} (hnodup : ks.Nodup) (hk : k ∈ ks)
    (v : α) : put (table f ks) k v = table (Function.update f k v) ks := by
  induction ks with
  | nil => cases hk
  | cons k₀ ks ih =>
      obtain ⟨hnot, hnodup⟩ := List.nodup_cons.mp hnodup
      show (if k = k₀ then (k₀, v) :: table f ks else (k₀, f k₀) :: put (table f ks) k v) = _
      by_cases hk₀ : k = k₀
      · subst hk₀
        have hrest : table f ks = table (Function.update f k v) ks := by
          refine List.map_congr_left fun x hx => ?_
          have hne : x ≠ k := fun h => hnot (h ▸ hx)
          rw [Function.update_of_ne hne]
        rw [if_pos rfl, hrest]
        simp [table]
      · rw [if_neg hk₀, ih hnodup ((List.mem_cons.mp hk).resolve_left hk₀)]
        simp [table, Function.update_of_ne (Ne.symm hk₀)]

/-- New keys with one value. -/
theorem foldl_put_const (c : α) (l ks : List κ) (hnodup : (ks ++ l).Nodup) :
    l.foldl (fun m k => put m k c) (table (fun _ => c) ks) = table (fun _ => c) (ks ++ l) := by
  induction l generalizing ks with
  | nil => rw [List.foldl_nil, List.append_nil]
  | cons k l ih =>
      have hk : k ∉ ks := fun h =>
        (List.nodup_append.mp hnodup).2.2 k h k List.mem_cons_self rfl
      have happend : ks ++ k :: l = ks ++ [k] ++ l := by simp
      rw [happend] at hnodup ⊢
      rw [List.foldl_cons, put_table_of_notMem (f := fun _ => c) hk, ih (ks ++ [k]) hnodup]

/-- New keys with their values, keys that are there left alone. -/
theorem foldl_put_table {f g : κ → α} (l ks : List κ) (hnodup : ks.Nodup)
    (hfg : ∀ k ∈ l, k ∉ ks → g k = f k) : ∃ ks',
      l.foldl (fun m k => if (find? m k).isSome then m else put m k (g k)) (table f ks) = table f ks' ∧
        ks'.Nodup ∧ ∀ k, k ∈ ks' ↔ k ∈ ks ∨ k ∈ l := by
  induction l generalizing ks with
  | nil => exact ⟨ks, rfl, hnodup, by simp⟩
  | cons k₀ l ih =>
      by_cases hk : k₀ ∈ ks
      · obtain ⟨ks', hfold, hnodup', hmem⟩ :=
          ih ks hnodup fun k hk => hfg k (List.mem_cons_of_mem k₀ hk)
        refine ⟨ks', ?_, hnodup', ?_⟩
        · rw [List.foldl_cons, find?_table, if_pos hk, Option.isSome_some, if_pos rfl, hfold]
        · intro k
          rw [hmem, List.mem_cons]
          constructor
          · exact Or.imp_right Or.inr
          · rintro (h | rfl | h)
            · exact Or.inl h
            · exact Or.inl hk
            · exact Or.inr h
      · have hnodup₀ : (ks ++ [k₀]).Nodup := by
          refine List.nodup_append.mpr ⟨hnodup, List.nodup_singleton k₀, ?_⟩
          intro x hx y hy hxy
          subst hxy
          exact hk (List.mem_singleton.mp hy ▸ hx)
        obtain ⟨ks', hfold, hnodup', hmem⟩ := ih (ks ++ [k₀]) hnodup₀ fun k hk' hnot =>
          hfg k (List.mem_cons_of_mem k₀ hk') fun h => hnot (List.mem_append_left _ h)
        refine ⟨ks', ?_, hnodup', ?_⟩
        · rw [List.foldl_cons, find?_table, if_neg hk, Option.isSome_none,
            if_neg Bool.false_ne_true, hfg k₀ List.mem_cons_self hk, put_table_of_notMem hk, hfold]
        · intro k
          rw [hmem, List.mem_append, List.mem_singleton, List.mem_cons, or_assoc]

end Dict
