import Mathlib

set_option autoImplicit false

/-! # Maps as lists of entries in the order of their keys

A map is a list of key-value pairs. `assign` replaces the value of a key or puts a new entry
in the order of the keys; `emplace` leaves a key that has a value alone; `erase` drops a key.
The lookup laws hold for every list of entries, sorted or not.
-/

namespace OrderedMap

variable {κ α : Type} [DecidableEq κ]

abbrev Entries (κ α : Type) := List (κ × α)

def find? : Entries κ α → κ → Option α
  | [], _ => none
  | (k', v) :: m, k => if k = k' then some v else find? m k

/-- Give the key `k` the value `v`. -/
def assign [LT κ] [DecidableLT κ] : Entries κ α → κ → α → Entries κ α
  | [], k, v => [(k, v)]
  | (k', v') :: m, k, v =>
      if k = k' then (k, v) :: m
      else if k < k' then (k, v) :: (k', v') :: m
      else (k', v') :: assign m k v

/-- Give the key `k` the value `v` unless it has a value. -/
def emplace [LT κ] [DecidableLT κ] (m : Entries κ α) (k : κ) (v : α) : Entries κ α :=
  if (find? m k).isSome then m else assign m k v

/-- Remove the key `k`. -/
def erase : Entries κ α → κ → Entries κ α
  | [], _ => []
  | (k', v) :: m, k => if k = k' then erase m k else (k', v) :: erase m k

@[simp] theorem find?_nil (k : κ) : find? ([] : Entries κ α) k = none := rfl

@[simp] theorem find?_assign [LT κ] [DecidableLT κ] (m : Entries κ α) (k k' : κ) (v : α) :
    find? (assign m k v) k' = if k' = k then some v else find? m k' := by
  induction m with
  | nil => rfl
  | cons e m ih =>
      obtain ⟨k₀, v₀⟩ := e
      -- `k` replaces the first entry, goes before it, or goes into the rest
      by_cases hk : k = k₀
      · subst hk
        by_cases hk' : k' = k <;> simp [assign, find?, hk']
      · by_cases hlt : k < k₀
        · by_cases hk' : k' = k <;> simp [assign, find?, hk, hlt, hk']
        · by_cases hk₀ : k' = k₀
          · subst hk₀
            have hne : k' ≠ k := fun h => hk h.symm
            simp [assign, find?, hk, hlt, hne]
          · simp [assign, find?, hk, hlt, hk₀, ih]

@[simp] theorem find?_emplace [LT κ] [DecidableLT κ] (m : Entries κ α) (k k' : κ) (v : α) :
    find? (emplace m k v) k' = if k' = k then some ((find? m k).getD v) else find? m k' := by
  unfold emplace
  by_cases h : (find? m k).isSome = true
  · obtain ⟨w, hw⟩ := Option.isSome_iff_exists.mp h
    by_cases hk : k' = k
    · subst hk
      simp [hw]
    · simp [hw, hk]
  · have hnone : find? m k = none := by simpa using h
    simp [hnone]

@[simp] theorem find?_erase (m : Entries κ α) (k k' : κ) :
    find? (erase m k) k' = if k' = k then none else find? m k' := by
  induction m with
  | nil => simp [erase]
  | cons e m ih =>
      obtain ⟨k₀, v₀⟩ := e
      by_cases h₀ : k = k₀
      · subst h₀
        rw [erase, if_pos rfl, ih]
        by_cases hk : k' = k <;> simp [find?, hk]
      · by_cases hk : k' = k₀
        · subst hk
          have hne : k' ≠ k := fun h => h₀ h.symm
          simp [erase, find?, h₀, hne]
        · simp [erase, find?, h₀, hk, ih]

theorem find?_foldl_erase_of_notMem {ks : List κ} {k : κ} (h : k ∉ ks) (m : Entries κ α) :
    find? (ks.foldl erase m) k = find? m k := by
  induction ks generalizing m with
  | nil => rfl
  | cons k₁ ks ih =>
      rw [List.mem_cons, not_or] at h
      rw [List.foldl_cons, ih h.2, find?_erase, if_neg h.1]

theorem find?_foldl_erase_of_mem {ks : List κ} {k : κ} (h : k ∈ ks) (m : Entries κ α) :
    find? (ks.foldl erase m) k = none := by
  induction ks generalizing m with
  | nil => cases h
  | cons k₁ ks ih =>
      rw [List.foldl_cons]
      by_cases hk : k ∈ ks
      · exact ih hk _
      · have hk₁ : k = k₁ := (List.mem_cons.mp h).resolve_right hk
        rw [find?_foldl_erase_of_notMem hk, find?_erase, if_pos hk₁]

theorem mem_erase {m : Entries κ α} {k : κ} {e : κ × α} (h : e ∈ erase m k) :
    e ∈ m ∧ e.1 ≠ k := by
  induction m with
  | nil => cases h
  | cons e₀ m ih =>
      obtain ⟨k₀, v₀⟩ := e₀
      rw [erase] at h
      split at h
      · obtain ⟨hmem, hne⟩ := ih h
        exact ⟨List.mem_cons_of_mem _ hmem, hne⟩
      · rename_i hk
        rcases List.mem_cons.mp h with rfl | h
        · exact ⟨List.mem_cons_self .., fun heq => hk heq.symm⟩
        · obtain ⟨hmem, hne⟩ := ih h
          exact ⟨List.mem_cons_of_mem _ hmem, hne⟩

theorem mem_of_mem_foldl_erase {ks : List κ} {m : Entries κ α} {e : κ × α}
    (h : e ∈ ks.foldl erase m) : e ∈ m ∧ e.1 ∉ ks := by
  induction ks generalizing m with
  | nil => exact ⟨h, List.not_mem_nil⟩
  | cons k ks ih =>
      obtain ⟨hmem, hks⟩ := ih h
      obtain ⟨hm, hne⟩ := mem_erase hmem
      exact ⟨hm, fun hin => (List.mem_cons.mp hin).elim hne hks⟩

/-- A function applied to every value. -/
theorem find?_map_values {β : Type} (m : Entries κ α) (f : α → β) (k : κ) :
    find? (m.map fun e => (e.1, f e.2)) k = (find? m k).map f := by
  induction m with
  | nil => rfl
  | cons e m ih =>
      obtain ⟨k₀, v₀⟩ := e
      rw [List.map_cons, find?, find?, ih]
      split_ifs <;> rfl

theorem erase_of_find?_eq_none {m : Entries κ α} {k : κ} (h : find? m k = none) :
    erase m k = m := by
  induction m with
  | nil => rfl
  | cons e m ih =>
      obtain ⟨k₀, v₀⟩ := e
      by_cases h₀ : k = k₀
      · simp [find?, h₀] at h
      · rw [find?, if_neg h₀] at h
        rw [erase, if_neg h₀, ih h]

theorem length_assign [LT κ] [DecidableLT κ] (m : Entries κ α) {k : κ} (v : α)
    (h : find? m k = none) : (assign m k v).length = m.length + 1 := by
  induction m with
  | nil => rfl
  | cons e m ih =>
      obtain ⟨k₀, v₀⟩ := e
      by_cases hk : k = k₀
      · simp [find?, hk] at h
      · rw [find?, if_neg hk] at h
        by_cases hlt : k < k₀
        · simp [assign, hk, hlt]
        · simp [assign, hk, hlt, ih h]

theorem length_assign_le [LT κ] [DecidableLT κ] (m : Entries κ α) (k : κ) (v : α) :
    (assign m k v).length ≤ m.length + 1 := by
  induction m with
  | nil => exact Nat.le_refl _
  | cons e m ih =>
      obtain ⟨k₀, v₀⟩ := e
      by_cases hk : k = k₀
      · simp [assign, hk]
      · by_cases hlt : k < k₀
        · simp [assign, hk, hlt]
        · simpa [assign, hk, hlt] using ih

theorem length_assign_pos [LT κ] [DecidableLT κ] (m : Entries κ α) (k : κ) (v : α) :
    0 < (assign m k v).length := by
  cases m with
  | nil => exact Nat.one_pos
  | cons e m =>
      rw [assign]
      split_ifs <;> exact Nat.succ_pos _

theorem find?_eq_none_iff {m : Entries κ α} {k : κ} :
    find? m k = none ↔ k ∉ m.map Prod.fst := by
  induction m with
  | nil => simp
  | cons e m ih =>
      obtain ⟨k₀, v₀⟩ := e
      by_cases hk : k = k₀ <;> simp [find?, hk, ih]

theorem mem_of_find?_eq_some {m : Entries κ α} {k : κ} {v : α} (h : find? m k = some v) :
    (k, v) ∈ m := by
  induction m with
  | nil => cases h
  | cons e m ih =>
      obtain ⟨k₀, v₀⟩ := e
      by_cases hk : k = k₀
      · subst hk
        rw [find?, if_pos rfl] at h
        cases h
        exact List.mem_cons_self
      · rw [find?, if_neg hk] at h
        exact List.mem_cons_of_mem _ (ih h)

theorem find?_eq_some_of_mem {m : Entries κ α} (hnodup : (m.map Prod.fst).Nodup) {e : κ × α}
    (h : e ∈ m) : find? m e.1 = some e.2 := by
  induction m with
  | nil => cases h
  | cons e₀ m ih =>
      obtain ⟨k₀, v₀⟩ := e₀
      obtain ⟨hhead, htail⟩ := List.nodup_cons.mp hnodup
      rcases List.mem_cons.mp h with rfl | h
      · exact if_pos rfl
      · have hne : e.1 ≠ k₀ := fun heq => hhead (List.mem_map.mpr ⟨e, h, heq⟩)
        rw [find?, if_neg hne, ih htail h]

theorem mem_keys_assign [LT κ] [DecidableLT κ] (m : Entries κ α) (k k' : κ) (v : α) :
    k' ∈ (assign m k v).map Prod.fst ↔ k' = k ∨ k' ∈ m.map Prod.fst := by
  rw [← not_iff_not, ← find?_eq_none_iff, find?_assign, not_or, ← find?_eq_none_iff]
  by_cases hk : k' = k <;> simp [hk]

/-! ## Keys in order -/

section Sorted

variable [LT κ] [IsStrictTotalOrder κ (· < ·)]

/-- The keys are in strictly increasing order. -/
def Sorted (m : Entries κ α) : Prop := (m.map Prod.fst).Pairwise (· < ·)

omit [DecidableEq κ] in
theorem Sorted.nodup_keys {m : Entries κ α} (h : Sorted m) : (m.map Prod.fst).Nodup :=
  List.Pairwise.imp ne_of_irrefl h

variable [DecidableLT κ]

theorem sorted_assign {m : Entries κ α} (h : Sorted m) (k : κ) (v : α) :
    Sorted (assign m k v) := by
  induction m with
  | nil => exact List.pairwise_singleton _ _
  | cons e m ih =>
      obtain ⟨k₀, v₀⟩ := e
      obtain ⟨hhead, htail⟩ := List.pairwise_cons.mp h
      rw [assign]
      split_ifs with hk hlt
      · subst hk
        exact h
      · refine List.pairwise_cons.mpr ⟨?_, h⟩
        intro k' hk'
        rcases List.mem_cons.mp hk' with rfl | hk'
        · exact hlt
        · exact trans_of (· < ·) hlt (hhead k' hk')
      · refine List.pairwise_cons.mpr ⟨?_, ih htail⟩
        intro k' hk'
        -- `k` is neither the first key nor before it
        rcases (mem_keys_assign m k k' v).mp hk' with rfl | hk'
        · rcases trichotomous_of (· < ·) k' k₀ with h | h | h
          · exact absurd h hlt
          · exact absurd h hk
          · exact h
        · exact hhead k' hk'

end Sorted

/-! ## Maps from lists -/

/-- Insert the entries of a list one after the other. -/
def insertAll [LT κ] [DecidableLT κ] (m : Entries κ α) (l : List (κ × α)) : Entries κ α :=
  l.foldl (fun m e => emplace m e.1 e.2) m

theorem find?_insertAll [LT κ] [DecidableLT κ] (l : List (κ × α)) (m : Entries κ α) (k : κ) :
    find? (insertAll m l) k = (find? m k).or (find? l k) := by
  induction l generalizing m with
  | nil => simp [insertAll]
  | cons e l ih =>
      obtain ⟨k₀, v₀⟩ := e
      show find? (insertAll (emplace m k₀ v₀) l) k = _
      rw [ih, find?_emplace]
      by_cases hk : k = k₀
      · subst hk
        cases h : find? m k <;> simp [find?]
      · simp [find?, hk]

theorem length_insertAll [LT κ] [DecidableLT κ] (l : List (κ × α)) (m : Entries κ α)
    (hnodup : (l.map Prod.fst).Nodup) (hm : ∀ e ∈ l, find? m e.1 = none) :
    (insertAll m l).length = m.length + l.length := by
  induction l generalizing m with
  | nil => rfl
  | cons e l ih =>
      obtain ⟨hnot, hnodup⟩ := List.nodup_cons.mp hnodup
      have he : find? m e.1 = none := hm e (by simp)
      -- the keys of the rest are still new
      have hm' : ∀ x ∈ l, find? (emplace m e.1 e.2) x.1 = none := by
        intro x hx
        have hne : x.1 ≠ e.1 := fun h => hnot (h ▸ List.mem_map_of_mem hx)
        rw [find?_emplace, if_neg hne]
        exact hm x (by simp [hx])
      show (insertAll (emplace m e.1 e.2) l).length = _
      rw [ih _ hnodup hm', emplace, he, Option.isSome_none, if_neg Bool.false_ne_true,
        length_assign m e.2 he, List.length_cons]
      omega

theorem insertAll_append [LT κ] [DecidableLT κ] (m : Entries κ α) (l l' : List (κ × α)) :
    insertAll m (l ++ l') = insertAll (insertAll m l) l' := by
  unfold insertAll
  rw [List.foldl_append]

theorem mem_assign [LT κ] [DecidableLT κ] {m : Entries κ α} {k : κ} {v : α} {e : κ × α}
    (h : e ∈ assign m k v) : e = (k, v) ∨ e ∈ m := by
  induction m with
  | nil => exact Or.inl (List.mem_singleton.mp h)
  | cons e₀ m ih =>
      obtain ⟨k₀, v₀⟩ := e₀
      rw [assign] at h
      split at h
      · exact (List.mem_cons.mp h).imp_right (List.mem_cons_of_mem _)
      · split at h
        · exact List.mem_cons.mp h
        · rcases List.mem_cons.mp h with rfl | h
          · exact Or.inr List.mem_cons_self
          · exact (ih h).imp_right (List.mem_cons_of_mem _)

theorem mem_insertAll [LT κ] [DecidableLT κ] {l : List (κ × α)} {m : Entries κ α} {e : κ × α}
    (h : e ∈ insertAll m l) : e ∈ m ∨ e ∈ l := by
  induction l generalizing m with
  | nil => exact Or.inl h
  | cons e₀ l ih =>
      have h' : e ∈ insertAll (emplace m e₀.1 e₀.2) l := h
      rcases ih h' with hm | hl
      · unfold emplace at hm
        split at hm
        · exact Or.inl hm
        · rcases mem_assign hm with rfl | hm
          · exact Or.inr List.mem_cons_self
          · exact Or.inl hm
      · exact Or.inr (List.mem_cons_of_mem _ hl)

theorem find?_of_mem {m : Entries κ α} {k : κ} {v : α} (hnodup : (m.map Prod.fst).Nodup)
    (h : (k, v) ∈ m) : find? m k = some v := by
  induction m with
  | nil => simp at h
  | cons e m ih =>
      obtain ⟨k₀, v₀⟩ := e
      obtain ⟨hnot, hnodup⟩ := List.nodup_cons.mp hnodup
      rcases List.mem_cons.mp h with heq | hmem
      · cases heq
        simp [find?]
      · have hkey : k ∈ m.map Prod.fst := List.mem_map.mpr ⟨(k, v), hmem, rfl⟩
        have hne : k ≠ k₀ := fun h => hnot (by rwa [h] at hkey)
        rw [find?, if_neg hne]
        exact ih hnodup hmem

theorem find?_append (m m' : Entries κ α) (k : κ) :
    find? (m ++ m') k = (find? m k).or (find? m' k) := by
  induction m with
  | nil => rfl
  | cons e m ih =>
      obtain ⟨k₀, v₀⟩ := e
      show find? ((k₀, v₀) :: (m ++ m')) k = _
      by_cases hk : k = k₀
      · simp [find?, hk]
      · simp [find?, hk, ih]

/-! ## Maps from assignments -/

/-- Assign the entries of a list one after the other; the last one of a key stays. -/
def assignAll [LT κ] [DecidableLT κ] (m : Entries κ α) (l : List (κ × α)) : Entries κ α :=
  l.foldl (fun m e => assign m e.1 e.2) m

theorem find?_assignAll [LT κ] [DecidableLT κ] (l : List (κ × α)) (m : Entries κ α) (k : κ) :
    find? (assignAll m l) k = (find? l.reverse k).or (find? m k) := by
  induction l generalizing m with
  | nil => rfl
  | cons e l ih =>
      obtain ⟨k₀, v₀⟩ := e
      show find? (assignAll (assign m k₀ v₀) l) k = _
      rw [ih, find?_assign, List.reverse_cons, find?_append, Option.or_assoc]
      by_cases hk : k = k₀ <;> simp [find?, hk]

theorem mem_assignAll [LT κ] [DecidableLT κ] {l : List (κ × α)} {m : Entries κ α} {e : κ × α}
    (h : e ∈ assignAll m l) : e ∈ m ∨ e ∈ l := by
  induction l generalizing m with
  | nil => exact Or.inl h
  | cons e₀ l ih =>
      have h' : e ∈ assignAll (assign m e₀.1 e₀.2) l := h
      rcases ih h' with hm | hl
      · rcases mem_assign hm with rfl | hm
        · exact Or.inr List.mem_cons_self
        · exact Or.inl hm
      · exact Or.inr (List.mem_cons_of_mem _ hl)

section Sorted

variable [LT κ] [IsStrictTotalOrder κ (· < ·)] [DecidableLT κ]

theorem sorted_assignAll {m : Entries κ α} (h : Sorted m) (l : List (κ × α)) :
    Sorted (assignAll m l) := by
  induction l generalizing m with
  | nil => exact h
  | cons e l ih => exact ih (sorted_assign h e.1 e.2)

/-- A key after all others is assigned at the end. -/
theorem assign_of_lt {m : Entries κ α} {k : κ} (v : α) (h : ∀ e ∈ m, e.1 < k) :
    assign m k v = m ++ [(k, v)] := by
  induction m with
  | nil => rfl
  | cons e m ih =>
      have he : e.1 < k := h e List.mem_cons_self
      have hne : k ≠ e.1 := (ne_of_irrefl he).symm
      have hlt : ¬ k < e.1 := fun hk => irrefl_of (· < ·) k (trans_of (· < ·) hk he)
      rw [assign, if_neg hne, if_neg hlt, ih fun x hx => h x (List.mem_cons_of_mem _ hx)]
      rfl

/-- Entries in order are assigned one behind the other. -/
theorem assignAll_of_sorted {m l : Entries κ α} (h : Sorted (m ++ l)) :
    assignAll m l = m ++ l := by
  induction l generalizing m with
  | nil => exact (List.append_nil m).symm
  | cons e l ih =>
      have hbefore : ∀ x ∈ m, x.1 < e.1 := by
        intro x hx
        have hpair := (List.pairwise_append.mp (List.pairwise_map.mp h)).2.2
        exact hpair x hx e List.mem_cons_self
      show assignAll (assign m e.1 e.2) l = m ++ e :: l
      rw [assign_of_lt e.2 hbefore, ih (by rwa [List.append_assoc]), List.append_assoc]
      rfl

end Sorted

end OrderedMap
