import Mathlib

set_option autoImplicit false

/-! # Joining and splitting with a separator

`pieces sep s` cuts a list at the first occurrence of `sep`, behind it again, and so on. It
inverts `List.intercalate sep` on the lists whose parts are `Clean`: the separator behind a part
is the first occurrence in it. `pieces_intercalate_iff` says that these are all, and
`length_le_length_pieces` that splitting never gives fewer pieces than were joined.
-/

namespace Separator

variable {α : Type}

theorem intercalate_cons_of_ne_nil {sep v : List α} {vs : List (List α)} (h : vs ≠ []) :
    List.intercalate sep (v :: vs) = v ++ sep ++ List.intercalate sep vs := by
  cases vs with
  | nil => exact absurd rfl h
  | cons w ws => exact List.intercalate_cons_cons

theorem intercalate_concat {sep v : List α} {vs : List (List α)} (h : vs ≠ []) :
    List.intercalate sep (vs ++ [v]) = List.intercalate sep vs ++ sep ++ v := by
  induction vs with
  | nil => exact absurd rfl h
  | cons w vs ih =>
      by_cases hvs : vs = []
      · rw [hvs, List.intercalate_singleton]
        show List.intercalate sep [w, v] = _
        rw [List.intercalate_cons_cons, List.intercalate_singleton]
      · rw [List.cons_append, intercalate_cons_of_ne_nil (List.append_ne_nil_of_left_ne_nil hvs _),
          intercalate_cons_of_ne_nil hvs, ih hvs]
        simp only [List.append_assoc]

/-- When lists with an element between two parts are equal: the parts are, or the element stands
in one of the parts too. -/
theorem append_cons_eq_append_cons_iff {a b a' b' : List α} {c : α} :
    a ++ c :: b = a' ++ c :: b' ↔ (a = a' ∧ b = b') ∨
      (∃ x, a' = a ++ c :: x ∧ b = x ++ c :: b') ∨ ∃ x, a = a' ++ c :: x ∧ b' = x ++ c :: b := by
  constructor
  · intro h
    rcases List.append_eq_append_iff.mp h with ⟨x, rfl, hx⟩ | ⟨x, rfl, hx⟩
    · cases x with
      | nil =>
          injection hx with _ hb
          exact Or.inl ⟨(List.append_nil a).symm, hb⟩
      | cons d x =>
          injection hx with hd hb
          exact Or.inr (Or.inl ⟨x, by rw [hd], hb⟩)
    · cases x with
      | nil =>
          injection hx with _ hb
          exact Or.inl ⟨List.append_nil a', hb.symm⟩
      | cons d x =>
          injection hx with hd hb
          exact Or.inr (Or.inr ⟨x, by rw [hd], hb⟩)
  · rintro (⟨rfl, rfl⟩ | ⟨x, rfl, rfl⟩ | ⟨x, rfl, rfl⟩)
    · rfl
    · rw [List.append_assoc, List.cons_append]
    · rw [List.append_assoc, List.cons_append]

/-- Joined parts are followed by what follows the last part. -/
theorem intercalate_concat_append (sep v rest : List α) (vs : List (List α)) :
    List.intercalate sep (vs ++ [v ++ rest]) = List.intercalate sep (vs ++ [v]) ++ rest := by
  by_cases hvs : vs = []
  · rw [hvs, List.nil_append, List.nil_append, List.intercalate_singleton,
      List.intercalate_singleton]
  · rw [intercalate_concat hvs, intercalate_concat hvs]
    simp only [List.append_assoc]

/-- An occurrence does not reach over an element that is not in `sep`. -/
theorem infix_append_cons_iff {sep a b : List α} {c : α} (hsep : sep ≠ []) (hc : c ∉ sep) :
    sep <:+: a ++ c :: b ↔ sep <:+: a ∨ sep <:+: b := by
  rw [List.infix_append_iff, List.infix_cons_iff]
  constructor
  · rintro (h | (⟨t, ht⟩ | h) | ⟨l, r, rfl, hl, ⟨t, ht⟩⟩)
    · exact Or.inl h
    · cases sep with
      | nil => exact absurd rfl hsep
      | cons d sep =>
          injection ht with hd _
          exact absurd (hd ▸ List.mem_cons_self) hc
    · exact Or.inr h
    · cases r with
      | nil =>
          rw [List.append_nil]
          exact Or.inl hl.isInfix
      | cons d r =>
          injection ht with hd _
          exact absurd (List.mem_append_right l (hd ▸ List.mem_cons_self)) hc
  · rintro (h | h)
    · exact Or.inl h
    · exact Or.inr (Or.inl (Or.inr h))

theorem infix_append_replicate_iff {sep a : List α} {c : α} {n : ℕ} (hsep : sep ≠ [])
    (hc : c ∉ sep) : sep <:+: a ++ List.replicate n c ↔ sep <:+: a := by
  induction n with
  | zero => rw [List.replicate_zero, List.append_nil]
  | succ n ih =>
      rw [List.replicate_succ, infix_append_cons_iff hsep hc, or_iff_left]
      intro h
      cases sep with
      | nil => exact hsep rfl
      | cons d sep =>
          have hd := List.eq_of_mem_replicate (h.subset List.mem_cons_self)
          exact hc (hd ▸ List.mem_cons_self)

/-- A separator occurs in parts joined with an element that it does not have when it occurs in a
part. -/
theorem infix_intercalate_iff {sep : List α} {c : α} {vs : List (List α)} (hsep : sep ≠ [])
    (hc : c ∉ sep) : sep <:+: List.intercalate [c] vs ↔ ∃ v ∈ vs, sep <:+: v := by
  induction vs with
  | nil =>
      show sep <:+: [] ↔ _
      rw [List.infix_nil]
      constructor
      · intro h
        exact absurd h hsep
      · rintro ⟨v, hv, _⟩
        exact absurd hv List.not_mem_nil
  | cons v vs ih =>
      rw [List.exists_mem_cons_iff]
      by_cases hvs : vs = []
      · rw [hvs, List.intercalate_singleton]
        simp
      · rw [intercalate_cons_of_ne_nil hvs, List.append_assoc, List.singleton_append,
          infix_append_cons_iff hsep hc, ih]

theorem intercalate_cons_eq (c : α) (v : List α) (vs : List (List α)) :
    List.intercalate [c] (v :: vs) = v ++ vs.flatMap (c :: ·) := by
  induction vs generalizing v with
  | nil => rw [List.intercalate_singleton, List.flatMap_nil, List.append_nil]
  | cons w vs ih =>
      rw [List.intercalate_cons_cons, ih, List.flatMap_cons, List.append_assoc,
        List.singleton_append, List.cons_append]

theorem mem_intercalate_iff {sep : List α} {x : α} {vs : List (List α)} (hx : x ∉ sep) :
    x ∈ List.intercalate sep vs ↔ ∃ v ∈ vs, x ∈ v := by
  induction vs with
  | nil =>
      show x ∈ [] ↔ _
      simp
  | cons v vs ih =>
      rw [List.exists_mem_cons_iff]
      by_cases hvs : vs = []
      · rw [hvs, List.intercalate_singleton]
        simp
      · rw [intercalate_cons_of_ne_nil hvs, List.mem_append, List.mem_append, ih,
          or_iff_left hx]

variable [DecidableEq α]

/-- The pieces at a single element do not contain it. -/
theorem not_mem_of_mem_splitOn {c : α} {s piece : List α} (h : piece ∈ s.splitOn c) :
    c ∉ piece := by
  induction s generalizing piece with
  | nil =>
      rw [List.splitOn_nil, List.mem_singleton] at h
      rw [h]
      exact List.not_mem_nil
  | cons d s ih =>
      rw [List.splitOn_cons_eq_if_modifyHead] at h
      split_ifs at h with hd
      · rcases List.mem_cons.mp h with rfl | h
        · exact List.not_mem_nil
        · exact ih h
      · cases hs : s.splitOn c with
        | nil => exact absurd hs (List.splitOn_ne_nil c s)
        | cons p ps =>
            rw [hs, List.modifyHead_cons] at h
            rw [hs] at ih
            rcases List.mem_cons.mp h with rfl | h
            · rw [List.mem_cons, not_or]
              exact ⟨fun hc => hd (beq_iff_eq.mpr hc.symm), ih List.mem_cons_self⟩
            · exact ih (List.mem_cons_of_mem p h)

/-- Splitting at a single element gives the joined parts back when none contains it. -/
theorem splitOn_intercalate_iff {c : α} {vs : List (List α)} (hne : vs ≠ []) :
    (List.intercalate [c] vs).splitOn c = vs ↔ ∀ v ∈ vs, c ∉ v := by
  constructor
  · intro h v hv
    rw [← h] at hv
    exact not_mem_of_mem_splitOn hv
  · intro h
    exact List.splitOn_intercalate c h hne

/-! ## Words behind an element -/

/-- Words that each stand behind an element which none of them has. -/
theorem flatMap_cons_inj {c : α} {vs ws : List (List α)} (hvs : ∀ v ∈ vs, c ∉ v)
    (hws : ∀ w ∈ ws, c ∉ w) (h : vs.flatMap (c :: ·) = ws.flatMap (c :: ·)) : vs = ws := by
  have hsplit : ∀ us : List (List α), (∀ u ∈ us, c ∉ u) →
      (us.flatMap (c :: ·)).splitOn c = [] :: us := by
    intro us hus
    have hclean : ∀ u ∈ [] :: us, c ∉ u := by
      intro u hu
      rcases List.mem_cons.mp hu with rfl | hu
      · exact List.not_mem_nil
      · exact hus u hu
    have hback := List.splitOn_intercalate c hclean (List.cons_ne_nil [] us)
    rwa [intercalate_cons_eq, List.nil_append] at hback
  have heq := hsplit vs hvs
  rw [h, hsplit ws hws] at heq
  exact (List.cons.inj heq).2.symm

/-- Where the words end with other words, these are the last of them. -/
theorem flatMap_cons_eq_append {c : α} {vs ws : List (List α)} {x : List α}
    (hvs : ∀ v ∈ vs, c ∉ v) (hws : ∀ w ∈ ws, c ∉ w)
    (h : vs.flatMap (c :: ·) = x ++ ws.flatMap (c :: ·)) :
    ∃ us, x = us.flatMap (c :: ·) ∧ vs = us ++ ws := by
  induction vs generalizing x with
  | nil =>
      obtain ⟨rfl, hnil⟩ := List.append_eq_nil_iff.mp h.symm
      exact ⟨[], rfl, flatMap_cons_inj (fun _ hv => (by cases hv)) hws hnil.symm⟩
  | cons v vs ih =>
      cases x with
      | nil => exact ⟨[], rfl, flatMap_cons_inj hvs hws h⟩
      | cons d x =>
          rw [List.flatMap_cons, List.cons_append, List.cons_append] at h
          injection h with hd h
          have hvs' : ∀ u ∈ vs, c ∉ u := fun u hu => hvs u (List.mem_cons_of_mem v hu)
          rcases List.append_eq_append_iff.mp h with ⟨y, rfl, hy⟩ | ⟨y, hv, hy⟩
          · obtain ⟨us, rfl, rfl⟩ := ih hvs' hy
            exact ⟨v :: us, by rw [List.flatMap_cons, List.cons_append, hd], rfl⟩
          · cases y with
            | nil =>
                rw [List.append_nil] at hv
                have hrest := flatMap_cons_inj hvs' hws hy.symm
                exact ⟨[v], by rw [List.flatMap_singleton, hv, hd], by rw [hrest]; rfl⟩
            | cons e y =>
                -- the element would be in the word
                cases ws with
                | nil => cases hy
                | cons w ws =>
                    injection hy with he _
                    refine absurd ?_ (hvs v List.mem_cons_self)
                    rw [hv, he]
                    exact List.mem_append_right x List.mem_cons_self

/-- What stands before and behind the first occurrence of `sep`. -/
def cut (sep : List α) : List α → Option (List α × List α)
  | [] => none
  | c :: s =>
      if sep <+: c :: s then some ([], (c :: s).drop sep.length)
      else (cut sep s).map fun p => (c :: p.1, p.2)

section Cut

variable {sep s a b : List α}

theorem cut_eq_append (h : cut sep s = some (a, b)) : s = a ++ sep ++ b := by
  induction s generalizing a b with
  | nil => cases h
  | cons c s ih =>
      unfold cut at h
      split_ifs at h with hpre
      · obtain ⟨t, ht⟩ := hpre
        rw [← ht, List.drop_left] at h
        cases h
        exact ht.symm
      · obtain ⟨⟨a', b'⟩, hcut, heq⟩ := Option.map_eq_some_iff.mp h
        cases heq
        rw [ih hcut]
        rfl

/-- No other occurrence is further left. -/
theorem cut_minimal (h : cut sep s = some (a, b)) {a' b' : List α} (hs : s = a' ++ sep ++ b') :
    a.length ≤ a'.length := by
  induction s generalizing a b a' with
  | nil => cases h
  | cons c s ih =>
      unfold cut at h
      split_ifs at h with hpre
      · cases h
        exact Nat.zero_le _
      · obtain ⟨⟨a₁, b₁⟩, hcut, heq⟩ := Option.map_eq_some_iff.mp h
        cases heq
        cases a' with
        | nil => exact absurd ⟨b', hs.symm⟩ hpre
        | cons d a' =>
            injection hs with _ hs
            exact Nat.succ_le_succ (ih hcut hs)

/-- An occurrence is found. -/
theorem cut_isSome (hsep : sep ≠ []) (hs : s = a ++ sep ++ b) :
    ∃ a' b', cut sep s = some (a', b') := by
  induction s generalizing a with
  | nil =>
      rw [eq_comm, List.append_eq_nil_iff, List.append_eq_nil_iff] at hs
      exact absurd hs.1.2 hsep
  | cons c s ih =>
      unfold cut
      split_ifs with hpre
      · exact ⟨_, _, rfl⟩
      · cases a with
        | nil => exact absurd ⟨b, hs.symm⟩ hpre
        | cons d a =>
            injection hs with _ hs
            obtain ⟨a', b', hcut⟩ := ih hs
            rw [hcut]
            exact ⟨_, _, rfl⟩

theorem cut_eq_none_iff (hsep : sep ≠ []) : cut sep s = none ↔ ¬ sep <:+: s := by
  constructor
  · rintro h ⟨a, b, hs⟩
    obtain ⟨a', b', hcut⟩ := cut_isSome hsep hs.symm
    rw [h] at hcut
    cases hcut
  · intro h
    cases hcut : cut sep s with
    | none => rfl
    | some p => exact absurd ⟨p.1, p.2, (cut_eq_append hcut).symm⟩ h

theorem cut_eq_some_iff (hsep : sep ≠ []) :
    cut sep s = some (a, b) ↔
      s = a ++ sep ++ b ∧ ∀ a' b', s = a' ++ sep ++ b' → a.length ≤ a'.length := by
  constructor
  · intro h
    exact ⟨cut_eq_append h, fun a' b' => cut_minimal h⟩
  · rintro ⟨hs, hmin⟩
    obtain ⟨a', b', hcut⟩ := cut_isSome hsep hs
    have hs' := cut_eq_append hcut
    have hlen : a.length = a'.length := le_antisymm (hmin a' b' hs') (cut_minimal hcut hs)
    rw [hs, List.append_assoc, List.append_assoc] at hs'
    obtain ⟨rfl, htail⟩ := List.append_inj hs' hlen
    rw [List.append_cancel_left htail]
    exact hcut

theorem cut_length_lt (hsep : sep ≠ []) (h : cut sep s = some (a, b)) : b.length < s.length := by
  have hpos : 0 < sep.length := List.length_pos_iff.mpr hsep
  rw [cut_eq_append h, List.length_append, List.length_append]
  omega

end Cut

/-- The first separator in `part ++ sep` is the one that was appended. -/
def Clean (sep part : List α) : Prop := cut sep (part ++ sep) = some (part, [])

instance decidableClean (sep part : List α) : Decidable (Clean sep part) :=
  inferInstanceAs (Decidable (_ = _))

section Clean

variable {sep part rest : List α}

/-- What follows the separator does not matter. -/
theorem cut_append_iff (hsep : sep ≠ []) :
    cut sep (part ++ sep ++ rest) = some (part, rest) ↔ Clean sep part := by
  unfold Clean
  rw [cut_eq_some_iff hsep, cut_eq_some_iff hsep, List.append_nil]
  constructor
  · rintro ⟨_, hmin⟩
    refine ⟨rfl, fun a' b' h => hmin a' (b' ++ rest) ?_⟩
    rw [h, List.append_assoc (a' ++ sep)]
  · rintro ⟨_, hmin⟩
    refine ⟨rfl, fun a' b' h => ?_⟩
    by_contra hlt
    -- an occurrence further left lies within `part ++ sep`
    have hpre : a' ++ sep <+: part ++ sep := by
      refine List.prefix_of_prefix_length_le ⟨b', h.symm⟩ ⟨rest, rfl⟩ ?_
      rw [List.length_append, List.length_append]
      omega
    obtain ⟨t, ht⟩ := hpre
    exact hlt (hmin a' t ht.symm)

/-- For a separator of one repeated element, a part is clean that neither contains the separator
nor ends with this element. -/
theorem clean_replicate_iff {n : ℕ} {c : α} :
    Clean (List.replicate (n + 1) c) part ↔
      ¬ List.replicate (n + 1) c <:+: part ∧ part.getLast? ≠ some c := by
  have hsep : List.replicate (n + 1) c ≠ [] := by
    rw [List.replicate_succ]
    exact List.cons_ne_nil _ _
  unfold Clean
  rw [cut_eq_some_iff hsep, List.append_nil]
  constructor
  · rintro ⟨_, hmin⟩
    constructor
    · rintro ⟨a, b, hpart⟩
      have hle := hmin a (b ++ List.replicate (n + 1) c) (by rw [← hpart, List.append_assoc])
      rw [← hpart, List.length_append, List.length_append, List.length_replicate] at hle
      omega
    · intro hlast
      obtain ⟨a, rfl⟩ := List.getLast?_eq_some_iff.mp hlast
      have hshift : a ++ [c] ++ List.replicate (n + 1) c =
          a ++ List.replicate (n + 1) c ++ [c] := by
        rw [List.append_assoc, List.append_assoc, List.singleton_append, ← List.replicate_succ,
          List.replicate_succ']
      have hle := hmin a [c] hshift
      rw [List.length_append, List.length_singleton] at hle
      omega
  · rintro ⟨hnot, hlast⟩
    refine ⟨rfl, fun a b h => ?_⟩
    by_contra hlt
    rw [List.append_assoc] at h
    -- the part is longer than `a`, so it goes on with elements of the separator
    obtain ⟨t, ht⟩ : a <+: part := by
      refine List.prefix_of_prefix_length_le ⟨_, h.symm⟩ ⟨_, rfl⟩ (by omega)
    have htne : t ≠ [] := by
      rintro rfl
      rw [← ht, List.append_nil] at hlt
      exact hlt le_rfl
    rw [← ht, List.append_assoc] at h
    have htail := List.append_cancel_left h
    rcases le_or_gt t.length (n + 1) with hshort | hlong
    · have hpre : t <+: List.replicate (n + 1) c :=
        List.prefix_of_prefix_length_le ⟨_, htail⟩ ⟨_, rfl⟩ (by rwa [List.length_replicate])
      have hall : ∀ x ∈ t, x = c := fun x hx => List.eq_of_mem_replicate (hpre.subset hx)
      apply hlast
      rw [← ht, List.getLast?_append_of_ne_nil _ htne, List.getLast?_eq_some_getLast htne,
        hall _ (List.getLast_mem htne)]
    · have hpre : List.replicate (n + 1) c <+: t :=
        List.prefix_of_prefix_length_le ⟨_, rfl⟩ ⟨_, htail⟩
          (by rw [List.length_replicate]; omega)
      apply hnot
      rw [← ht]
      exact hpre.isInfix.trans (List.suffix_append a t).isInfix

end Clean

/-- The parts between the separators. -/
def pieces (sep : {s : List α // s ≠ []}) (s : List α) : List (List α) :=
  match _hcut : cut sep.1 s with
  | none => [s]
  | some (a, b) => a :: pieces sep b
termination_by s.length
decreasing_by exact cut_length_lt sep.2 _hcut

section Pieces

variable {sep : {s : List α // s ≠ []}} {s a b : List α}

theorem pieces_of_none (h : cut sep.1 s = none) : pieces sep s = [s] := by
  unfold pieces
  split
  · rfl
  · rename_i hcut
    rw [h] at hcut
    cases hcut

theorem pieces_of_some (h : cut sep.1 s = some (a, b)) : pieces sep s = a :: pieces sep b := by
  rw [pieces]
  split
  · rename_i hcut
    rw [h] at hcut
    cases hcut
  · rename_i hcut
    rw [h] at hcut
    cases hcut
    rfl

theorem pieces_ne_nil (sep : {s : List α // s ≠ []}) (s : List α) : pieces sep s ≠ [] := by
  cases hcut : cut sep.1 s with
  | none =>
      rw [pieces_of_none hcut]
      exact List.cons_ne_nil _ _
  | some p =>
      rw [pieces_of_some hcut]
      exact List.cons_ne_nil _ _

/-- Joining the pieces gives the list back. -/
theorem intercalate_pieces (sep : {s : List α // s ≠ []}) (s : List α) :
    List.intercalate sep.1 (pieces sep s) = s := by
  induction hn : s.length using Nat.strong_induction_on generalizing s with
  | _ n ih =>
      cases hcut : cut sep.1 s with
      | none => rw [pieces_of_none hcut, List.intercalate_singleton]
      | some p =>
          obtain ⟨a, b⟩ := p
          have hlt := cut_length_lt sep.2 hcut
          rw [pieces_of_some hcut, intercalate_cons_of_ne_nil (pieces_ne_nil sep b),
            ih b.length (by omega) b rfl]
          exact (cut_eq_append hcut).symm

/-- **When the pieces of joined parts are the parts.** -/
theorem pieces_intercalate_iff {vs : List (List α)} {v : List α} :
    pieces sep (List.intercalate sep.1 (vs ++ [v])) = vs ++ [v] ↔
      (∀ w ∈ vs, Clean sep.1 w) ∧ ¬ sep.1 <:+: v := by
  induction vs with
  | nil =>
      rw [List.nil_append, List.intercalate_singleton, ← cut_eq_none_iff sep.2]
      constructor
      · intro h
        refine ⟨fun w hw => absurd hw List.not_mem_nil, ?_⟩
        cases hcut : cut sep.1 v with
        | none => rfl
        | some p =>
            rw [pieces_of_some hcut] at h
            injection h with _ h
            exact absurd h (pieces_ne_nil sep p.2)
      · rintro ⟨_, h⟩
        exact pieces_of_none h
  | cons w vs ih =>
      have hne : vs ++ [v] ≠ [] := List.append_ne_nil_of_right_ne_nil _ (List.cons_ne_nil _ _)
      have hcutw : cut sep.1 (w ++ sep.1 ++ List.intercalate sep.1 (vs ++ [v])) =
          some (w, List.intercalate sep.1 (vs ++ [v])) ↔ Clean sep.1 w := cut_append_iff sep.2
      rw [List.cons_append, intercalate_cons_of_ne_nil hne, List.forall_mem_cons, and_assoc, ← ih,
        ← hcutw]
      constructor
      · intro h
        obtain ⟨a, b, hcut⟩ := cut_isSome (a := w) sep.2 (Eq.refl
          (w ++ sep.1 ++ List.intercalate sep.1 (vs ++ [v])))
        rw [pieces_of_some hcut] at h
        injection h with ha hb
        subst ha
        have hrest := List.append_cancel_left (cut_eq_append hcut)
        rw [← hrest] at hcut hb
        exact ⟨hcut, hb⟩
      · rintro ⟨hcut, hrest⟩
        rw [pieces_of_some hcut, hrest]

/-- The first occurrence in a suffix lies behind the first occurrence. -/
theorem cut_suffix (hb : b <:+ s) {x y : List α} (hcut : cut sep.1 b = some (x, y)) :
    ∃ x' y', cut sep.1 s = some (x', y') ∧ y <:+ y' := by
  obtain ⟨t, rfl⟩ := hb
  have hs : t ++ b = t ++ x ++ sep.1 ++ y := by
    rw [cut_eq_append hcut]
    simp only [List.append_assoc]
  obtain ⟨x', y', hcut'⟩ := cut_isSome sep.2 hs
  refine ⟨x', y', hcut', ?_⟩
  have hle := cut_minimal hcut' hs
  have hs' := cut_eq_append hcut'
  refine List.suffix_of_suffix_length_le ⟨_, hs.symm⟩ ⟨_, hs'.symm⟩ ?_
  have hlen := congrArg List.length (hs.symm.trans hs')
  rw [List.length_append, List.length_append, List.length_append, List.length_append] at hlen
  rw [List.length_append] at hle hlen
  omega

/-- A suffix has no more pieces. -/
theorem length_pieces_suffix (hb : b <:+ s) :
    (pieces sep b).length ≤ (pieces sep s).length := by
  induction hn : b.length using Nat.strong_induction_on generalizing b s with
  | _ n ih =>
      cases hcut : cut sep.1 b with
      | none =>
          rw [pieces_of_none hcut]
          exact List.length_pos_iff.mpr (pieces_ne_nil sep s)
      | some p =>
          obtain ⟨x', y', hcut', hy⟩ := cut_suffix hb hcut
          have hlt := cut_length_lt sep.2 hcut
          rw [pieces_of_some hcut, pieces_of_some hcut', List.length_cons, List.length_cons]
          exact Nat.succ_le_succ (ih p.2.length (by omega) hy rfl)

/-- **Splitting gives at least as many pieces as were joined.** -/
theorem length_le_length_pieces {vs : List (List α)} :
    vs.length ≤ (pieces sep (List.intercalate sep.1 vs)).length := by
  induction vs with
  | nil => exact Nat.zero_le _
  | cons v vs ih =>
      by_cases hne : vs = []
      · rw [hne]
        exact List.length_pos_iff.mpr (pieces_ne_nil sep _)
      · rw [intercalate_cons_of_ne_nil hne]
        obtain ⟨x, y, hcut⟩ := cut_isSome (a := v) sep.2
          (Eq.refl (v ++ sep.1 ++ List.intercalate sep.1 vs))
        have hsuffix : List.intercalate sep.1 vs <:+ y := by
          have hle := cut_minimal hcut rfl
          have hs := cut_eq_append hcut
          refine List.suffix_of_suffix_length_le ⟨_, rfl⟩ ⟨_, hs.symm⟩ ?_
          have hlen := congrArg List.length hs
          rw [List.length_append, List.length_append, List.length_append, List.length_append]
            at hlen
          omega
        rw [pieces_of_some hcut, List.length_cons, List.length_cons]
        exact Nat.succ_le_succ (le_trans ih (length_pieces_suffix hsuffix))

end Pieces

end Separator
