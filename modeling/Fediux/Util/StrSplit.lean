import Fediux.Basic.Separator

set_option autoImplicit false

/-! # Splitting strings

The two functions `str_split` of `util/util.cc` and the way the columns of a row are joined with
`DATA_RECORD_SEP`. The overload for a character keeps every piece. The one for a pattern drops an
empty last piece and cuts at the leftmost occurrence; `str_split_joinRow_iff` says which rows it
gives back.
-/

namespace Fediux.Util

abbrev Str : Type := List Char

/-- `str_split` for a single character: one piece for each `getline`. -/
def str_split_char (delimiter : Char) : Str → List Str
  | [] => [[]]
  | c :: str =>
      if c = delimiter then [] :: str_split_char delimiter str
      else (str_split_char delimiter str).modifyHead (c :: ·)

/-- `str_split` for a pattern. -/
def str_split (pattern : {s : Str // s ≠ []}) (str : Str) : List Str :=
  match _hcut : Separator.cut pattern.1 str with
  | none => if str = [] then [] else [str]
  | some (piece, rest) => piece :: str_split pattern rest
termination_by str.length
decreasing_by exact Separator.cut_length_lt pattern.2 _hcut

/-- `DATA_RECORD_SEP`. -/
def DATA_RECORD_SEP : {s : Str // s ≠ []} := ⟨['#', '#', '#', '#'], List.cons_ne_nil _ _⟩

/-- The values of a row: the first is assigned, the others are appended with the separator. -/
def joinRow : List Str → Str
  | [] => []
  | v :: vs => vs.foldl (fun row w => row ++ DATA_RECORD_SEP.1 ++ w) v

/-! ## The overload for a character -/

theorem str_split_char_eq (delimiter : Char) (str : Str) :
    str_split_char delimiter str = str.splitOn delimiter := by
  induction str with
  | nil => rfl
  | cons c str ih =>
      rw [List.splitOn_cons_eq_if_modifyHead, ← ih, str_split_char]
      by_cases h : c = delimiter
      · rw [if_pos h, if_pos (beq_iff_eq.mpr h)]
      · rw [if_neg h, if_neg (by rwa [beq_iff_eq])]

/-- Pieces without the delimiter are given back, empty ones included. -/
theorem str_split_char_intercalate {delimiter : Char} {vs : List Str} (hne : vs ≠ [])
    (h : ∀ v ∈ vs, delimiter ∉ v) :
    str_split_char delimiter (List.intercalate [delimiter] vs) = vs := by
  rw [str_split_char_eq, List.splitOn_intercalate delimiter h hne]

/-! ## The overload for a pattern -/

section Pattern

variable {pattern : {s : Str // s ≠ []}} {str : Str}

theorem str_split_nil (pattern : {s : Str // s ≠ []}) : str_split pattern [] = [] := by
  rw [str_split]
  rfl

/-- An empty piece at the end is dropped. -/
theorem pieces_eq (pattern : {s : Str // s ≠ []}) (str : Str) :
    Separator.pieces pattern str =
      str_split pattern str ++ if (Separator.pieces pattern str).getLast? = some [] then [[]]
        else [] := by
  induction hn : str.length using Nat.strong_induction_on generalizing str with
  | _ n ih =>
      rw [str_split]
      split
      · rename_i hcut
        rw [Separator.pieces_of_none hcut]
        by_cases hnil : str = []
        · rw [hnil]
          rfl
        · rw [if_neg hnil, if_neg (by rwa [List.getLast?_singleton, Option.some.injEq]),
            List.append_nil]
      · rename_i piece rest hcut
        have hlt := Separator.cut_length_lt pattern.2 hcut
        have hrest := ih rest.length (by omega) rest rfl
        have hlast : (piece :: Separator.pieces pattern rest).getLast? =
            (Separator.pieces pattern rest).getLast? :=
          List.getLast?_cons_of_ne_nil (Separator.pieces_ne_nil pattern rest)
        rw [Separator.pieces_of_some hcut, hlast, List.cons_append, ← hrest]

/-- **When joined values are split back into them.** -/
theorem str_split_intercalate_iff {vs : List Str} {v : Str} :
    str_split pattern (List.intercalate pattern.1 (vs ++ [v])) = vs ++ [v] ↔
      (∀ w ∈ vs, Separator.Clean pattern.1 w) ∧ ¬ pattern.1 <:+: v ∧ v ≠ [] := by
  have heq := pieces_eq pattern (List.intercalate pattern.1 (vs ++ [v]))
  rw [← and_assoc, ← Separator.pieces_intercalate_iff]
  constructor
  · intro h
    rw [h] at heq
    by_cases hlast : (Separator.pieces pattern
        (List.intercalate pattern.1 (vs ++ [v]))).getLast? = some []
    · -- the pieces would be the values and an empty one behind them
      rw [if_pos hlast] at heq
      have hjoin := Separator.intercalate_pieces pattern
        (List.intercalate pattern.1 (vs ++ [v]))
      rw [heq] at hjoin
      rw [Separator.intercalate_concat (List.append_ne_nil_of_right_ne_nil vs
        (List.cons_ne_nil v [])), List.append_nil] at hjoin
      exact absurd (List.append_right_eq_self.mp hjoin) pattern.2
    · rw [if_neg hlast, List.append_nil] at heq
      refine ⟨heq, ?_⟩
      rintro rfl
      apply hlast
      rw [heq, List.getLast?_concat]
  · rintro ⟨h, hne⟩
    rw [h, List.getLast?_concat, if_neg (by rwa [Option.some.injEq]), List.append_nil] at heq
    exact heq.symm

end Pattern

/-! ## Rows -/

theorem joinRow_eq (vs : List Str) : joinRow vs = List.intercalate DATA_RECORD_SEP.1 vs := by
  cases vs with
  | nil => rfl
  | cons v vs =>
      show vs.foldl (fun row w => row ++ DATA_RECORD_SEP.1 ++ w) v = _
      induction vs generalizing v with
      | nil => rw [List.intercalate_singleton, List.foldl_nil]
      | cons w vs ih =>
          rw [List.foldl_cons, ih, List.intercalate_cons_cons]
          by_cases hne : vs = []
          · rw [hne, List.intercalate_singleton, List.intercalate_singleton]
          · rw [Separator.intercalate_cons_of_ne_nil hne, Separator.intercalate_cons_of_ne_nil hne]
            simp only [List.append_assoc]

/-- The last value is not empty, and no other value ends with the character of the separator. -/
def SplitsBack (vs : List Str) : Prop :=
  vs.getLast? ≠ some [] ∧ ∀ v ∈ vs.dropLast, v.getLast? ≠ some '#'

instance decidableSplitsBack (vs : List Str) : Decidable (SplitsBack vs) :=
  inferInstanceAs (Decidable (_ ∧ _))

theorem clean_record_iff {v : Str} :
    Separator.Clean DATA_RECORD_SEP.1 v ↔
      ¬ DATA_RECORD_SEP.1 <:+: v ∧ v.getLast? ≠ some '#' :=
  Separator.clean_replicate_iff (n := 3)

/-- When a row is given back. -/
theorem str_split_joinRow_iff {vs : List Str} (hne : vs ≠ [])
    (hno : ∀ v ∈ vs, ¬ DATA_RECORD_SEP.1 <:+: v) :
    str_split DATA_RECORD_SEP (joinRow vs) = vs ↔ SplitsBack vs := by
  obtain ⟨ws, w, rfl⟩ : ∃ ws w, vs = ws ++ [w] :=
    ⟨vs.dropLast, vs.getLast hne, (List.dropLast_append_getLast hne).symm⟩
  rw [joinRow_eq, str_split_intercalate_iff]
  unfold SplitsBack
  rw [List.getLast?_concat, List.dropLast_concat]
  have hw := hno w (by simp)
  constructor
  · rintro ⟨hclean, _, hlast⟩
    exact ⟨by simpa using hlast, fun v hv => (clean_record_iff.mp (hclean v hv)).2⟩
  · rintro ⟨hlast, hends⟩
    refine ⟨fun v hv => clean_record_iff.mpr ⟨hno v (by simp [hv]), hends v hv⟩, hw, ?_⟩
    simpa using hlast

end Fediux.Util
