import Mathlib

set_option autoImplicit false

/-! # Values that may be missing

Lists in which some values are missing (`none`). `IsExtreme` says which value is the least or the
greatest one that is there; the extreme value of the extreme values of several lists is the one of
all of them (`IsExtreme.flatten`), also where some of the lists have no value at all.
-/

namespace Missing

variable {α : Type}

/-- `o` is the value that stands before all others, or nothing where all are missing. -/
def IsExtreme (R : α → α → Prop) (l : List (Option α)) : Option α → Prop
  | none => ∀ x, some x ∉ l
  | some m => some m ∈ l ∧ ∀ x, some x ∈ l → R m x

namespace IsExtreme

variable {R : α → α → Prop} {l : List (Option α)} {o o' : Option α}

theorem unique (hanti : ∀ a b, R a b → R b a → a = b) (h : IsExtreme R l o)
    (h' : IsExtreme R l o') : o = o' := by
  match o, o', h, h' with
  | none, none, _, _ => rfl
  | none, some m, h, h' => exact absurd h'.1 (h m)
  | some m, none, h, h' => exact absurd h.1 (h' m)
  | some m, some m', h, h' =>
      exact congrArg some (hanti m m' (h.2 m' h'.1) (h'.2 m h.1))

/-- Where there is a value, there is an extreme one. -/
theorem isSome (h : IsExtreme R l o) {x : α} (hx : some x ∈ l) : o.isSome = true := by
  cases o with
  | none => exact absurd hx (h x)
  | some m => rfl

/-- **The extreme value of the extreme values.** -/
theorem flatten {β : Type} {ls : List β} {values : β → List (Option α)} {f : β → Option α}
    (htrans : ∀ a b c, R a b → R b c → R a c) (hf : ∀ b ∈ ls, IsExtreme R (values b) (f b))
    (ho : IsExtreme R (ls.map f) o) : IsExtreme R (ls.flatMap values) o := by
  cases o with
  | none =>
      intro x hx
      obtain ⟨b, hb, hx⟩ := List.mem_flatMap.mp hx
      have hb' := hf b hb
      cases hfb : f b with
      | none =>
          rw [hfb] at hb'
          exact hb' x hx
      | some m => exact ho m (List.mem_map.mpr ⟨b, hb, hfb⟩)
  | some m =>
      obtain ⟨hm, hall⟩ := ho
      constructor
      · obtain ⟨b, hb, hfb⟩ := List.mem_map.mp hm
        have hb' := hf b hb
        rw [hfb] at hb'
        exact List.mem_flatMap.mpr ⟨b, hb, hb'.1⟩
      · intro x hx
        obtain ⟨b, hb, hx⟩ := List.mem_flatMap.mp hx
        have hb' := hf b hb
        cases hfb : f b with
        | none =>
            rw [hfb] at hb'
            exact absurd hx (hb' x)
        | some m' =>
            rw [hfb] at hb'
            exact htrans m m' x (hall m' (List.mem_map.mpr ⟨b, hb, hfb⟩)) (hb'.2 x hx)

end IsExtreme

/-! ## The least and the greatest value -/

section Order

variable [LinearOrder α]

/-- The least value that is there. -/
def nanmin (l : List (Option α)) : Option α := l.reduceOption.min?

/-- The greatest value that is there. -/
def nanmax (l : List (Option α)) : Option α := l.reduceOption.max?

theorem isExtreme_nanmin (l : List (Option α)) : IsExtreme (· ≤ ·) l (nanmin l) := by
  cases hmin : nanmin l with
  | none =>
      intro x hx
      rw [nanmin, List.min?_eq_none_iff] at hmin
      exact List.not_mem_nil (hmin ▸ List.reduceOption_mem_iff.mpr hx)
  | some m =>
      obtain ⟨hm, hall⟩ := List.min?_eq_some_iff.mp hmin
      exact ⟨List.reduceOption_mem_iff.mp hm,
        fun x hx => hall x (List.reduceOption_mem_iff.mpr hx)⟩

theorem isExtreme_nanmax (l : List (Option α)) : IsExtreme (· ≥ ·) l (nanmax l) := by
  cases hmax : nanmax l with
  | none =>
      intro x hx
      rw [nanmax, List.max?_eq_none_iff] at hmax
      exact List.not_mem_nil (hmax ▸ List.reduceOption_mem_iff.mpr hx)
  | some m =>
      obtain ⟨hm, hall⟩ := List.max?_eq_some_iff.mp hmax
      exact ⟨List.reduceOption_mem_iff.mp hm,
        fun x hx => hall x (List.reduceOption_mem_iff.mpr hx)⟩

end Order

/-! ## The sum -/

/-- The sum of the values that are there. -/
def nansum [AddMonoid α] (l : List (Option α)) : Option α := some l.reduceOption.sum

/-! ## Lists without missing values -/

/-- No value is missing. -/
def Complete (l : List (Option α)) : Bool := l.all Option.isSome

/-- `f`, or nothing where a value is missing that may not be ignored. -/
def guarded (f : List (Option α) → Option α) (ignore : Bool) (l : List (Option α)) : Option α :=
  if ignore || Complete l then f l else none

theorem guarded_of_complete (f : List (Option α) → Option α) {ignore : Bool}
    {l : List (Option α)} (h : ignore = false → Complete l = true) : guarded f ignore l = f l := by
  unfold guarded
  cases ignore with
  | true => rfl
  | false => rw [h rfl, Bool.false_or, if_pos rfl]

@[simp] theorem complete_map_some (l : List α) : Complete (l.map some) = true := by
  simp [Complete]

@[simp] theorem reduceOption_map_some (l : List α) : (l.map some).reduceOption = l := by
  simp [List.reduceOption]

theorem reduceOption_flatMap {β : Type} (bs : List β) (f : β → List (Option α)) :
    (bs.flatMap f).reduceOption = bs.flatMap fun b => (f b).reduceOption := by
  unfold List.reduceOption
  exact List.filterMap_flatMap

/-- What is not missing is there. -/
theorem length_sub_missing (l : List (Option α)) :
    l.length - l.countP Option.isNone = l.reduceOption.length := by
  have hsplit := List.length_eq_reduceOption_length_add_filter_none (l := l)
  rw [List.countP_eq_length_filter]
  omega

theorem reduceOption_of_complete {l : List (Option α)} (h : Complete l = true) :
    l.reduceOption.length = l.length :=
  List.reduceOption_length_eq_iff.mpr (List.all_eq_true.mp h)

theorem map_some_reduceOption {l : List (Option α)} (h : Complete l = true) :
    l.reduceOption.map some = l := by
  induction l with
  | nil => rfl
  | cons o l ih =>
      obtain ⟨ho, hl⟩ := (Bool.and_eq_true _ _).mp (List.all_cons.symm.trans h)
      obtain ⟨x, rfl⟩ := Option.isSome_iff_exists.mp ho
      rw [List.reduceOption_cons_of_some, List.map_cons, ih hl]

section Guarded

variable {R : α → α → Prop} {f : List (Option α) → Option α} {ignore : Bool}

theorem isExtreme_guarded (hf : ∀ l, IsExtreme R l (f l)) {l : List (Option α)}
    (h : ignore = false → Complete l = true) : IsExtreme R l (guarded f ignore l) := by
  rw [guarded_of_complete f h]
  exact hf l

/-- The extreme value of a list is there if the list is complete and not empty. -/
theorem isSome_guarded (hf : ∀ l, IsExtreme R l (f l)) {l : List (Option α)} (hne : l ≠ [])
    (h : Complete l = true) : (guarded f ignore l).isSome = true := by
  obtain ⟨o, l', rfl⟩ := List.exists_cons_of_ne_nil hne
  obtain ⟨x, rfl⟩ : ∃ x, o = some x :=
    Option.isSome_iff_exists.mp (List.all_eq_true.mp h o List.mem_cons_self)
  exact (isExtreme_guarded hf fun _ => h).isSome List.mem_cons_self

/-- The extreme value of the extreme values, where no value is missing that may not be ignored. -/
theorem isExtreme_guarded_map (htrans : ∀ a b c, R a b → R b c → R a c)
    (hf : ∀ l, IsExtreme R l (f l)) {β : Type} {ls : List β} {values : β → List (Option α)}
    (hne : ∀ b ∈ ls, values b ≠ [])
    (hcomplete : ignore = false → ∀ b ∈ ls, Complete (values b) = true) :
    IsExtreme R (ls.flatMap values)
      (guarded f ignore (ls.map fun b => guarded f ignore (values b))) := by
  refine IsExtreme.flatten htrans
    (fun b hb => isExtreme_guarded hf fun hignore => hcomplete hignore b hb) ?_
  refine isExtreme_guarded hf fun hignore => List.all_eq_true.mpr fun o ho => ?_
  obtain ⟨b, hb, rfl⟩ := List.mem_map.mp ho
  exact isSome_guarded hf (hne b hb) (hcomplete hignore b hb)

end Guarded

theorem isSome_mapM {α β : Type} (f : α → Option β) (l : List α) :
    (l.mapM f).isSome ↔ ∀ a ∈ l, (f a).isSome := by
  induction l with
  | nil => simp
  | cons a l ih =>
      rw [List.mapM_cons, List.forall_mem_cons, ← ih]
      cases f a with
      | none => simp
      | some b => cases l.mapM f <;> simp

theorem mapM_of_some {β γ : Type} {f : β → Option γ} {g : β → γ} {l : List β}
    (h : ∀ b ∈ l, f b = some (g b)) : l.mapM f = some (l.map g) := by
  induction l with
  | nil => rfl
  | cons b l ih =>
      rw [List.mapM_cons, h b (List.mem_cons_self ..),
        ih fun b' hb' => h b' (List.mem_cons_of_mem b hb')]
      rfl

theorem length_of_mapM {β γ : Type} {f : β → Option γ} {l : List β} {cs : List γ}
    (h : l.mapM f = some cs) : cs.length = l.length := by
  induction l generalizing cs with
  | nil =>
      cases h
      rfl
  | cons b l ih =>
      rw [List.mapM_cons] at h
      obtain ⟨c, _, h⟩ := Option.bind_eq_some_iff.mp h
      obtain ⟨cs', hcs', h⟩ := Option.bind_eq_some_iff.mp h
      cases h
      rw [List.length_cons, List.length_cons, ih hcs']

/-- Values that are all there, each with the property. -/
theorem mapM_forall {β γ : Type} {f : β → Option γ} {p : γ → Prop} {l : List β}
    (h : ∀ b ∈ l, ∃ c, f b = some c ∧ p c) : ∃ cs, l.mapM f = some cs ∧ ∀ c ∈ cs, p c := by
  induction l with
  | nil => exact ⟨[], rfl, fun c hc => absurd hc List.not_mem_nil⟩
  | cons b l ih =>
      obtain ⟨c, hc, hpc⟩ := h b (List.mem_cons_self ..)
      obtain ⟨cs, hcs, hpcs⟩ := ih fun b' hb' => h b' (List.mem_cons_of_mem b hb')
      refine ⟨c :: cs, ?_, List.forall_mem_cons.mpr ⟨hpc, hpcs⟩⟩
      rw [List.mapM_cons, hc, hcs]
      rfl

end Missing
