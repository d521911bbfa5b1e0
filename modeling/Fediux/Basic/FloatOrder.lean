import Mathlib

set_option autoImplicit false

/-! # The order of floating-point numbers

`rank` gives every number of Lean's model of `double` a place in a linear order and none to NaN.
The comparisons of the numbers are those of their ranks (`lt_iff`, `beq_iff`), with the two zeros
at one place. `maxOf` is a running maximum that starts with the first number: a NaN behind it
changes nothing, and a NaN at the front stays. `firstMax` is the first of the items that reach it,
and `Leads` says of an item, without the loop, that it is the one. A scan that starts from a bound
and keeps what is above the largest so far finds it too (`foldl_keepAbove`).
-/

namespace FloatOrder

open Float.Model (UnpackedFloat)

/-! ## Ranks -/

/-- The infinities and the signs first, then the exponents, then the mantissas. -/
abbrev Rank : Type := ℤ ×ₗ ℤ ×ₗ ℤ

def unpackedRank : UnpackedFloat → Option Rank
  | .notANumber => none
  | .infinity .negative => some (toLex (-2, toLex (0, 0)))
  | .finite .negative m e _ => some (toLex (-1, toLex (-e, -(m : ℤ))))
  | .zero _ => some (toLex (0, toLex (0, 0)))
  | .finite .positive m e _ => some (toLex (1, toLex (e, (m : ℤ))))
  | .infinity .positive => some (toLex (2, toLex (0, 0)))

theorem compare_toLex {α β : Type} [LinearOrder α] [LinearOrder β] (a c : α) (b d : β) :
    compare (toLex (a, b)) (toLex (c, d)) = (compare a c).then (compare b d) := by
  rw [Prod.Lex.compare_def]
  rfl

theorem compare_neg (a b : ℤ) : compare (-a) (-b) = (compare a b).swap := by
  simp only [compare, compareOfLessAndEq]
  split_ifs <;> first | rfl | omega

theorem compare_natCast (a b : ℕ) : compare (a : ℤ) (b : ℤ) = compare a b := by
  simp only [compare, compareOfLessAndEq]
  split_ifs <;> first | rfl | omega

/-- The comparison goes through the ranks. -/
theorem compare_eq (a b : UnpackedFloat) :
    a.compare b = (unpackedRank a).bind fun p => (unpackedRank b).map (compare p) := by
  cases a with
  | notANumber => cases b <;> rfl
  | infinity s =>
      cases s <;> cases b with
      | notANumber => rfl
      | infinity t => cases t <;> rfl
      | zero t => rfl
      | finite t m e h => cases t <;> rfl
  | zero s =>
      cases b with
      | notANumber => rfl
      | infinity t => cases t <;> rfl
      | zero t => rfl
      | finite t m e h => cases t <;> rfl
  | finite s m e h =>
      cases s <;> cases b with
      | notANumber => rfl
      | infinity t => cases t <;> rfl
      | zero t => rfl
      | finite t m' e' h' =>
          -- of one sign, the exponents and the mantissas decide
          cases t <;>
            first
            | rfl
            | simp [UnpackedFloat.compare, unpackedRank, compare_toLex, compare_neg,
                compare_natCast, Ordering.swap_then]

/-- The place of a number, none of NaN. -/
def rank (x : Float.Model) : Option Rank := unpackedRank x.unpack

theorem lt_iff {x y : Float.Model} :
    x < y ↔ ∃ p q, rank x = some p ∧ rank y = some q ∧ p < q := by
  show (x.unpack.compare y.unpack == some .lt) = true ↔ _
  rw [compare_eq, beq_iff_eq, Option.bind_eq_some_iff]
  simp only [Option.map_eq_some_iff, compare_lt_iff_lt]
  constructor
  · rintro ⟨p, hp, q, hq, hpq⟩
    exact ⟨p, q, hp, hq, hpq⟩
  · rintro ⟨p, q, hp, hq, hpq⟩
    exact ⟨p, hp, q, hq, hpq⟩

theorem le_iff {x y : Float.Model} :
    x ≤ y ↔ ∃ p q, rank x = some p ∧ rank y = some q ∧ p ≤ q := by
  show x.unpack.le y.unpack = true ↔ _
  have hle : x.unpack.le y.unpack = true ↔
      x.unpack.compare y.unpack = some .lt ∨ x.unpack.compare y.unpack = some .eq := by
    unfold UnpackedFloat.le
    cases x.unpack.compare y.unpack with
    | none => simp
    | some o => cases o <;> simp
  rw [hle, compare_eq, Option.bind_eq_some_iff, Option.bind_eq_some_iff]
  simp only [Option.map_eq_some_iff, compare_lt_iff_lt, compare_eq_iff_eq]
  constructor
  · rintro (⟨p, hp, q, hq, hpq⟩ | ⟨p, hp, q, hq, rfl⟩)
    · exact ⟨p, q, hp, hq, hpq.le⟩
    · exact ⟨p, p, hp, hq, le_rfl⟩
  · rintro ⟨p, q, hp, hq, hpq⟩
    rcases hpq.lt_or_eq with hlt | rfl
    · exact Or.inl ⟨p, hp, q, hq, hlt⟩
    · exact Or.inr ⟨p, hp, p, hq, rfl⟩

theorem beq_iff {x y : Float.Model} : (x == y) = true ↔ ∃ p, rank x = some p ∧ rank y = some p := by
  show (x.unpack.compare y.unpack == some .eq) = true ↔ _
  rw [compare_eq, beq_iff_eq, Option.bind_eq_some_iff]
  simp only [Option.map_eq_some_iff, compare_eq_iff_eq]
  constructor
  · rintro ⟨p, hp, q, hq, rfl⟩
    exact ⟨p, hp, hq⟩
  · rintro ⟨p, hp, hq⟩
    exact ⟨p, hp, p, hq, rfl⟩

theorem beq_comm {x y : Float.Model} : (x == y) = true ↔ (y == x) = true := by
  simp only [beq_iff, and_comm]

theorem le_iff_lt_or_beq {x y : Float.Model} : x ≤ y ↔ x < y ∨ (x == y) = true := by
  rw [le_iff, lt_iff, beq_iff]
  constructor
  · rintro ⟨p, q, hp, hq, hle⟩
    rcases hle.lt_or_eq with hlt | rfl
    · exact Or.inl ⟨p, q, hp, hq, hlt⟩
    · exact Or.inr ⟨p, hp, hq⟩
  · rintro (⟨p, q, hp, hq, hlt⟩ | ⟨p, hp, hq⟩)
    · exact ⟨p, q, hp, hq, hlt.le⟩
    · exact ⟨p, p, hp, hq, le_rfl⟩

theorem isNaN_iff {x : Float.Model} : x.isNaN = true ↔ rank x = none := by
  show x.unpack.isNaN = true ↔ unpackedRank x.unpack = none
  cases x.unpack with
  | notANumber => exact ⟨fun _ => rfl, fun _ => rfl⟩
  | infinity s => cases s <;> simp [UnpackedFloat.isNaN, unpackedRank]
  | zero s => simp [UnpackedFloat.isNaN, unpackedRank]
  | finite s m e h => cases s <;> simp [UnpackedFloat.isNaN, unpackedRank]

theorem exists_rank {x : Float.Model} (h : x.isNaN = false) : ∃ p, rank x = some p := by
  refine Option.ne_none_iff_exists'.mp fun hnone => ?_
  rw [isNaN_iff.mpr hnone] at h
  cases h

theorem isNaN_of_rank {x : Float.Model} {p : Rank} (h : rank x = some p) : x.isNaN = false := by
  rw [Bool.eq_false_iff, ne_eq, isNaN_iff, h]
  exact Option.some_ne_none p

theorem le_trans {x y z : Float.Model} (hxy : x ≤ y) (hyz : y ≤ z) : x ≤ z := by
  obtain ⟨p, q, hp, hq, hpq⟩ := le_iff.mp hxy
  obtain ⟨q', r, hq', hr, hqr⟩ := le_iff.mp hyz
  obtain rfl : q' = q := Option.some.inj (hq'.symm.trans hq)
  exact le_iff.mpr ⟨p, r, hp, hr, hpq.trans hqr⟩

theorem isNaN_left_of_le {x y : Float.Model} (h : x ≤ y) : x.isNaN = false := by
  obtain ⟨p, q, hp, -, -⟩ := le_iff.mp h
  exact isNaN_of_rank hp

theorem not_lt_iff {x y : Float.Model} {p q : Rank} (hx : rank x = some p) (hy : rank y = some q) :
    ¬ x < y ↔ q ≤ p := by
  rw [lt_iff, ← not_lt]
  simp [hx, hy]

theorem le_of_not_lt {x y : Float.Model} (hx : rank x ≠ none) (hy : rank y ≠ none)
    (h : ¬ y < x) : x ≤ y := by
  obtain ⟨p, hp⟩ := Option.ne_none_iff_exists'.mp hx
  obtain ⟨q, hq⟩ := Option.ne_none_iff_exists'.mp hy
  exact le_iff.mpr ⟨p, q, hp, hq, (not_lt_iff hq hp).mp h⟩

theorem lt_trans {x y z : Float.Model} (hxy : x < y) (hyz : y < z) : x < z := by
  obtain ⟨p, q, hp, hq, hpq⟩ := lt_iff.mp hxy
  obtain ⟨q', r, hq', hr, hqr⟩ := lt_iff.mp hyz
  obtain rfl : q' = q := Option.some.inj (hq'.symm.trans hq)
  exact lt_iff.mpr ⟨p, r, hp, hr, hpq.trans hqr⟩

/-- Without NaN in the middle, what is not below is ordered. -/
theorem not_lt_trans {x y z : Float.Model} (hy : rank y ≠ none) (hxy : ¬ x < y)
    (hyz : ¬ y < z) : ¬ x < z := by
  intro hxz
  obtain ⟨p, r, hp, hr, hpr⟩ := lt_iff.mp hxz
  obtain ⟨q, hq⟩ := Option.ne_none_iff_exists'.mp hy
  rw [not_lt_iff hp hq] at hxy
  rw [not_lt_iff hq hr] at hyz
  exact absurd hpr (not_lt.mpr (hyz.trans hxy))

theorem not_lt_of_rank_eq {x y : Float.Model} (h : rank x = rank y) : ¬ x < y := by
  intro hlt
  obtain ⟨p, q, hp, hq, hpq⟩ := lt_iff.mp hlt
  rw [h, hq, Option.some.injEq] at hp
  exact absurd hpq (hp ▸ lt_irrefl p)

/-! ## The running maximum -/

/-- `max` over a list that starts with `x`. -/
def maxOf (x : Float.Model) (xs : List Float.Model) : Float.Model :=
  xs.foldl (fun m y => if m < y then y else m) x

theorem maxOf_cons (x y : Float.Model) (xs : List Float.Model) :
    maxOf x (y :: xs) = maxOf (if x < y then y else x) xs := rfl

theorem maxOf_mem (x : Float.Model) (xs : List Float.Model) : maxOf x xs ∈ x :: xs := by
  induction xs generalizing x with
  | nil => exact List.mem_cons_self ..
  | cons y xs ih =>
      rw [maxOf_cons]
      have h := ih (if x < y then y else x)
      rw [List.mem_cons] at h
      rw [List.mem_cons, List.mem_cons]
      split_ifs at h ⊢ <;> tauto

/-- NaN at the front stays. -/
theorem maxOf_of_rank_eq_none {x : Float.Model} (hx : rank x = none) (xs : List Float.Model) :
    maxOf x xs = x := by
  induction xs with
  | nil => rfl
  | cons y xs ih =>
      have hlt : ¬ x < y := by simp [lt_iff, hx]
      rw [maxOf_cons, if_neg hlt, ih]

/-- A running choice of the better number, where better is a greater rank in some order `L`. -/
theorem rank_foldl_better {L : Type} [LinearOrder L] (key : Rank → L)
    (better : Float.Model → Float.Model → Prop) [∀ x y, Decidable (better x y)]
    (hbetter : ∀ {x y}, better x y ↔ ∃ p q, rank x = some p ∧ rank y = some q ∧ key p < key q)
    {x : Float.Model} {p : Rank} (hx : rank x = some p) (xs : List Float.Model) :
    ∃ q, rank (xs.foldl (fun m y => if better m y then y else m) x) = some q ∧
      ∀ y ∈ x :: xs, ∀ r, rank y = some r → key r ≤ key q := by
  induction xs generalizing x p with
  | nil =>
      refine ⟨p, hx, ?_⟩
      intro y hy r hr
      rw [List.mem_singleton.mp hy, hx] at hr
      rw [Option.some.inj hr]
  | cons y xs ih =>
      rw [List.foldl_cons]
      by_cases hlt : better x y
      · obtain ⟨p', r', hp', hr', hpr⟩ := hbetter.mp hlt
        obtain rfl : p' = p := Option.some.inj (hp'.symm.trans hx)
        obtain ⟨q, hq, hbound⟩ := ih hr'
        rw [if_pos hlt]
        refine ⟨q, hq, ?_⟩
        intro z hz r hr
        rcases List.mem_cons.mp hz with rfl | hz
        · obtain rfl : r = p' := Option.some.inj (hr.symm.trans hx)
          exact hpr.le.trans (hbound y (List.mem_cons_self ..) r' hr')
        · exact hbound z hz r hr
      · obtain ⟨q, hq, hbound⟩ := ih hx
        rw [if_neg hlt]
        refine ⟨q, hq, ?_⟩
        intro z hz r hr
        rcases List.mem_cons.mp hz with rfl | hz
        · exact hbound z (List.mem_cons_self ..) r hr
        rcases List.mem_cons.mp hz with rfl | hz
        · have hle : key r ≤ key p := le_of_not_gt fun h => hlt (hbetter.mpr ⟨p, r, hx, hr, h⟩)
          exact hle.trans (hbound x (List.mem_cons_self ..) p hx)
        · exact hbound z (List.mem_cons_of_mem _ hz) r hr

/-- From a number on, the maximum is a number that none of the list exceeds. -/
theorem rank_maxOf {x : Float.Model} {p : Rank} (hx : rank x = some p) (xs : List Float.Model) :
    ∃ q, rank (maxOf x xs) = some q ∧ ∀ y ∈ x :: xs, ∀ r, rank y = some r → r ≤ q :=
  rank_foldl_better id (· < ·) lt_iff hx xs

/-! ## The running minimum -/

/-- `min` over a list that starts with `x`. -/
def minOf (x : Float.Model) (xs : List Float.Model) : Float.Model :=
  xs.foldl (fun m y => if y < m then y else m) x

theorem minOf_mem (x : Float.Model) (xs : List Float.Model) : minOf x xs ∈ x :: xs := by
  induction xs generalizing x with
  | nil => exact List.mem_cons_self ..
  | cons y xs ih =>
      have hcons : minOf x (y :: xs) = minOf (if y < x then y else x) xs := rfl
      have h := ih (if y < x then y else x)
      rw [List.mem_cons] at h
      rw [hcons, List.mem_cons, List.mem_cons]
      split_ifs at h ⊢ <;> tauto

theorem rank_minOf {x : Float.Model} {p : Rank} (hx : rank x = some p) (xs : List Float.Model) :
    ∃ q, rank (minOf x xs) = some q ∧ ∀ y ∈ x :: xs, ∀ r, rank y = some r → q ≤ r := by
  refine rank_foldl_better OrderDual.toDual (fun m y => y < m) ?_ hx xs
  intro x y
  rw [lt_iff]
  constructor
  · rintro ⟨p, q, hp, hq, hpq⟩
    exact ⟨q, p, hq, hp, hpq⟩
  · rintro ⟨p, q, hp, hq, hpq⟩
    exact ⟨q, p, hq, hp, hpq⟩

/-! ## The first of the largest -/

section First

variable {α : Type} (key : α → Float.Model)

/-- The first item whose key equals the maximum; `none` when no item does, since it is NaN. -/
def firstMax (c : α) (cs : List α) : Option α :=
  (c :: cs).find? fun c' => key c' == maxOf (key c) (cs.map key)

/-- The item has a number, which no item exceeds and no item before it reaches. -/
def Leads (items : List α) (c : α) : Prop :=
  ∃ before after, items = before ++ c :: after ∧ rank (key c) ≠ none ∧
    (∀ c' ∈ items, ¬ key c < key c') ∧ ∀ c' ∈ before, ¬ (key c' == key c) = true

variable {key}

theorem Leads.mem {items : List α} {c : α} (h : Leads key items c) : c ∈ items := by
  obtain ⟨before, after, rfl, -⟩ := h
  exact List.mem_append_right _ (List.mem_cons_self ..)

theorem Leads.rank_ne_none {items : List α} {c : α} (h : Leads key items c) :
    rank (key c) ≠ none := by
  obtain ⟨_, _, _, hrank, _⟩ := h
  exact hrank

theorem Leads.not_lt {items : List α} {c c' : α} (h : Leads key items c) (hc' : c' ∈ items) :
    ¬ key c < key c' := by
  obtain ⟨_, _, _, _, hmax, _⟩ := h
  exact hmax c' hc'

theorem firstMax_eq_none {c : α} (hc : rank (key c) = none) (cs : List α) :
    firstMax key c cs = none := by
  rw [firstMax, maxOf_of_rank_eq_none hc, List.find?_eq_none]
  intro c' _
  simp [beq_iff, hc]

/-- The item that is found leads, and its key is the maximum. -/
theorem firstMax_eq_some {c : α} {p : Rank} (hc : rank (key c) = some p) (cs : List α) :
    ∃ top, firstMax key c cs = some top ∧ Leads key (c :: cs) top ∧
      rank (key top) = rank (maxOf (key c) (cs.map key)) := by
  obtain ⟨q, hq, hbound⟩ := rank_maxOf hc (cs.map key)
  have hmem : maxOf (key c) (cs.map key) ∈ (c :: cs).map key := maxOf_mem _ _
  obtain ⟨best, hbest, hkey⟩ := List.mem_map.mp hmem
  have hsome : (firstMax key c cs).isSome := by
    rw [firstMax, List.find?_isSome]
    exact ⟨best, hbest, beq_iff.mpr ⟨q, by rw [hkey, hq], hq⟩⟩
  obtain ⟨top, htop⟩ := Option.isSome_iff_exists.mp hsome
  obtain ⟨hbeq, before, after, hitems, hbefore⟩ := List.find?_eq_some_iff_append.mp htop
  obtain ⟨q', hq', hq''⟩ := beq_iff.mp hbeq
  obtain rfl : q' = q := Option.some.inj (hq''.symm.trans hq)
  refine ⟨top, htop, ⟨before, after, hitems, by simp [hq'], ?_, ?_⟩, hq'.trans hq.symm⟩
  · intro c' hc' hlt
    obtain ⟨r, r', hr, hr', hrr⟩ := lt_iff.mp hlt
    obtain rfl : r = q' := Option.some.inj (hr.symm.trans hq')
    exact absurd (hbound (key c') (List.mem_map_of_mem hc') r' hr') (not_le.mpr hrr)
  · intro c' hc' hsame
    obtain ⟨r, hr, hr'⟩ := beq_iff.mp hsame
    have hnot := hbefore c' hc'
    rw [Bool.not_eq_true', ← Bool.not_eq_true] at hnot
    exact hnot (beq_iff.mpr ⟨r, hr, by rw [hq, ← hq', hr']⟩)

/-- The item that leads is before a given place, or no item before it reaches its key and at the
place there is the item itself or one that does not reach it. -/
theorem Leads.before_or {items before after : List α} {c d : α} (h : Leads key items c)
    (hitems : items = before ++ d :: after) :
    c ∈ before ∨ (∀ c' ∈ before, ¬ (key c' == key c) = true) ∧
      (c = d ∨ ¬ (key d == key c) = true) := by
  obtain ⟨before', after', hitems', _, _, hbefore⟩ := h
  rw [hitems] at hitems'
  rcases List.append_eq_append_iff.mp hitems' with ⟨mid, hmid, hrest⟩ | ⟨mid, hmid, hrest⟩
  · have hpart : ∀ c' ∈ before, ¬ (key c' == key c) = true := fun c' hc' =>
      hbefore c' (by rw [hmid]; exact List.mem_append_left _ hc')
    refine Or.inr ⟨hpart, ?_⟩
    cases mid with
    | nil => exact Or.inl (List.cons.inj hrest).1.symm
    | cons e mid =>
        obtain ⟨rfl, -⟩ := List.cons.inj hrest
        refine Or.inr (hbefore d ?_)
        rw [hmid]
        exact List.mem_append_right _ (List.mem_cons_self ..)
  · cases mid with
    | nil =>
        have hsame : before = before' := by simpa using hmid
        refine Or.inr ⟨?_, Or.inl (List.cons.inj hrest).1⟩
        rw [hsame]
        exact hbefore
    | cons e mid =>
        obtain ⟨rfl, -⟩ := List.cons.inj hrest
        refine Or.inl ?_
        rw [hmid]
        exact List.mem_append_right _ (List.mem_cons_self ..)

/-- Only one place leads. -/
theorem Leads.unique {items : List α} {c c' : α} (h : Leads key items c)
    (h' : Leads key items c') : c = c' := by
  have hsame : (key c == key c') = true := by
    have hle := h.not_lt h'.mem
    have hle' := h'.not_lt h.mem
    obtain ⟨p, hp⟩ := Option.ne_none_iff_exists'.mp h.rank_ne_none
    obtain ⟨q, hq⟩ := Option.ne_none_iff_exists'.mp h'.rank_ne_none
    rw [not_lt_iff hp hq] at hle
    rw [not_lt_iff hq hp] at hle'
    exact beq_iff.mpr ⟨p, hp, by rw [hq, le_antisymm hle hle']⟩
  have hsame' : (key c' == key c) = true := beq_comm.mp hsame
  obtain ⟨before, after, hitems, _, _, hbefore⟩ := h'
  rcases h.before_or hitems with hc | ⟨-, hc | hnot⟩
  · exact absurd hsame (hbefore c hc)
  · exact hc
  · exact absurd hsame' hnot

/-- An item above a bound that no earlier item exceeds leads. -/
theorem leads_append_of_lt {items : List α} {m : Float.Model} {c : α}
    (hm : ∀ c' ∈ items, ¬ m < key c') (h : m < key c) : Leads key (items ++ [c]) c := by
  obtain ⟨p, q, hp, hq, hpq⟩ := lt_iff.mp h
  refine ⟨items, [], rfl, by simp [hq], ?_, ?_⟩
  · intro c' hc'
    rcases List.mem_append.mp hc' with hc' | hc'
    · intro hlt
      exact hm c' hc' (lt_trans h hlt)
    · obtain rfl := List.mem_singleton.mp hc'
      exact not_lt_of_rank_eq rfl
  · intro c' hc' hsame
    obtain ⟨r, hr, hr'⟩ := beq_iff.mp hsame
    obtain rfl : q = r := Option.some.inj (hq.symm.trans hr')
    exact hm c' hc' (lt_iff.mpr ⟨p, q, hp, hr, hpq⟩)

theorem Leads.append {items : List α} {c c' : α} (h : Leads key items c)
    (hnot : ¬ key c < key c') : Leads key (items ++ [c']) c := by
  obtain ⟨before, after, hitems, hrank, hmax, hbefore⟩ := h
  refine ⟨before, after ++ [c'], by simp [hitems], hrank, ?_, hbefore⟩
  intro d hd
  rcases List.mem_append.mp hd with hd | hd
  · exact hmax d hd
  · obtain rfl := List.mem_singleton.mp hd
    exact hnot

variable (key) in
/-- The step of a scan that keeps an item whose key is above the largest so far. -/
def keepAbove (best : Float.Model × Option α) (c : α) : Float.Model × Option α :=
  if best.1 < key c then (key c, some c) else best

/-- The scan from a bound keeps nothing, or the item that leads. -/
theorem foldl_keepAbove (b : Float.Model) (items : List α) :
    (items.foldl (keepAbove key) (b, none) = (b, none) ∧ ∀ c ∈ items, ¬ b < key c) ∨
      ∃ top, items.foldl (keepAbove key) (b, none) = (key top, some top) ∧
        Leads key items top := by
  induction items using List.reverseRecOn with
  | nil => exact Or.inl ⟨rfl, fun c hc => absurd hc List.not_mem_nil⟩
  | append_singleton items c ih =>
      rw [List.foldl_append, List.foldl_cons, List.foldl_nil]
      rcases ih with ⟨hfold, hnone⟩ | ⟨top, hfold, hleads⟩
      · rw [hfold]
        by_cases h : b < key c
        · exact Or.inr ⟨c, if_pos h, leads_append_of_lt hnone h⟩
        · refine Or.inl ⟨if_neg h, ?_⟩
          simpa [or_imp, forall_and] using ⟨hnone, h⟩
      · rw [hfold]
        by_cases h : key top < key c
        · exact Or.inr ⟨c, if_pos h, leads_append_of_lt (fun c' => hleads.not_lt) h⟩
        · exact Or.inr ⟨top, if_neg h, hleads.append h⟩

end First

end FloatOrder
