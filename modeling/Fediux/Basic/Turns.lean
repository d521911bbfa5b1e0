import Fediux.Basic.Run

set_option autoImplicit false

/-! # Operations that take turns at a log

Several operations, numbered in the order in which they were issued, take elements of one log,
each for itself. An operation has a number of places to fill and may end before they are full.
`InOrder` says that each operation has the elements at its own positions of the log: behind the
elements of the operations before it. When an operation calls for an element only after the
operations before it have ended their calls (`Serial`), the elements are in order.
-/

namespace Turns

/-- The part of an operation: the number of its places, the elements it has, and whether it
takes no more. -/
structure Turn (α : Type) where
  width : Nat
  items : List α
  closed : Bool

variable {ω α : Type} (turn : ω → Turn α) (calling : ω → Prop)

/-- How many elements an operation takes altogether, as far as it is known. -/
def Turn.claim (t : Turn α) : Nat := if t.closed then t.items.length else t.width

/-- The position of the first element of the operation `k`. -/
def offset (ops : List ω) (k : Nat) : Nat := ((ops.take k).map fun a => (turn a).claim).sum

/-- Every operation has the elements at its own positions. -/
def InOrder (ops : List ω) (log : List α) : Prop :=
  ∀ (k : Nat) (a : ω), ops[k]? = some a → ∀ (b : Nat) (x : α), (turn a).items[b]? = some x →
    log[offset turn ops k + b]? = some x

/-- The operations take turns: one has elements, or calls for one, only when those before it
are closed. -/
structure Serial (ops : List ω) (log : List α) : Prop where
  log_eq : log = (ops.map fun a => (turn a).items).flatten
  earlier : ∀ (i j : Nat) (a b : ω), i < j → ops[i]? = some a → ops[j]? = some b →
    (turn b).items ≠ [] → (turn a).closed = true
  calls : ∀ (i : Nat) (a : ω), ops[i]? = some a → calling a → (turn a).closed = false ∧
    ∀ j < i, ∀ b, ops[j]? = some b → (turn b).closed = true

variable {turn calling} {ops : List ω} {log : List α}

/-- The operations before and after one of them. -/
theorem split_at {k : Nat} {a : ω} (h : ops[k]? = some a) :
    ops = ops.take k ++ a :: ops.drop (k + 1) := by
  obtain ⟨hlt, rfl⟩ := List.getElem?_eq_some_iff.mp h
  rw [← List.drop_eq_getElem_cons hlt, List.take_append_drop]

/-- **Operations that take turns take their elements in order.** -/
theorem Serial.inOrder (h : Serial turn calling ops log) : InOrder turn ops log := by
  intro k a ha b x hx
  have hne : (turn a).items ≠ [] := by
    intro hnil
    rw [hnil] at hx
    cases hx
  -- an operation with an element has only closed operations before it
  have hclaim : ∀ c ∈ ops.take k, (turn c).claim = (turn c).items.length := by
    intro c hc
    obtain ⟨i, hi⟩ := List.mem_iff_getElem?.mp hc
    rw [List.getElem?_take] at hi
    split_ifs at hi with hik
    rw [Turn.claim, if_pos (h.earlier i k c a hik hi ha hne)]
  set before := ((ops.take k).map fun c => (turn c).items).flatten with hbefore
  set behind := ((ops.drop (k + 1)).map fun c => (turn c).items).flatten with hbehind
  have hoffset : offset turn ops k = before.length := by
    rw [offset, List.map_congr_left hclaim, hbefore, List.length_flatten, List.map_map]
    rfl
  have hlog : log = before ++ ((turn a).items ++ behind) := by
    rw [h.log_eq]
    nth_rewrite 1 [split_at ha]
    rw [List.map_append, List.flatten_append, List.map_cons, List.flatten_cons]
  obtain ⟨hlt, _⟩ := List.getElem?_eq_some_iff.mp hx
  calc log[offset turn ops k + b]?
      = (before ++ ((turn a).items ++ behind))[before.length + b]? := by rw [hoffset, ← hlog]
    _ = ((turn a).items ++ behind)[b]? := by
        rw [List.getElem?_append_right (Nat.le_add_right _ _), Nat.add_sub_cancel_left]
    _ = (turn a).items[b]? := List.getElem?_append_left hlt
    _ = some x := hx

/-! ## Steps -/

open Transition (getElem?_modify_eq_some getElem?_modify_of_some getElem?_concat_eq_some)

theorem serial_nil : Serial turn calling [] [] := by
  refine ⟨rfl, ?_, ?_⟩
  · intro i j a b _ ha
    cases ha
  · intro i a ha
    cases ha

/-- A new operation. -/
theorem Serial.issue (h : Serial turn calling ops log) {new : ω} (hitems : (turn new).items = [])
    (hcalling : ¬ calling new) : Serial turn calling (ops ++ [new]) log := by
  refine ⟨?_, ?_, ?_⟩
  · rw [h.log_eq, List.map_append, List.flatten_append, List.map_singleton,
      List.flatten_singleton, hitems, List.append_nil]
  · intro i j a b hij ha hb hne
    rcases getElem?_concat_eq_some hb with hb | ⟨_, rfl⟩
    · rcases getElem?_concat_eq_some ha with ha | ⟨hi, _⟩
      · exact h.earlier i j a b hij ha hb hne
      · obtain ⟨hlt, _⟩ := List.getElem?_eq_some_iff.mp hb
        omega
    · exact absurd hitems hne
  · intro i a ha hcall
    rcases getElem?_concat_eq_some ha with ha | ⟨_, rfl⟩
    · refine ⟨(h.calls i a ha hcall).1, ?_⟩
      intro j hj b hb
      rcases getElem?_concat_eq_some hb with hb | ⟨hlast, _⟩
      · exact (h.calls i a ha hcall).2 j hj b hb
      · obtain ⟨hlt, _⟩ := List.getElem?_eq_some_iff.mp ha
        omega
    · exact absurd hcall hcalling

/-- A step of one operation that takes no element; when it calls for one it is its turn. -/
theorem Serial.modify (h : Serial turn calling ops log) {i : Nat} {f : ω → ω}
    (hf : ∀ a, ops[i]? = some a → (turn (f a)).items = (turn a).items ∧
      ((turn a).closed = true → (turn (f a)).closed = true) ∧
      (calling (f a) → (turn (f a)).closed = false ∧
        ∀ j < i, ∀ b, ops[j]? = some b → (turn b).closed = true)) :
    Serial turn calling (ops.modify i f) log := by
  have hitems : (ops.modify i f).map (fun a => (turn a).items) =
      ops.map fun a => (turn a).items := by
    refine List.ext_getElem? fun j => ?_
    rw [List.getElem?_map, List.getElem?_map, List.getElem?_modify]
    cases hj : ops[j]? with
    | none => rfl
    | some a =>
        show some (turn (if i = j then f a else a)).items = some (turn a).items
        by_cases hij : i = j
        · subst hij
          rw [if_pos rfl, (hf a hj).1]
        · rw [if_neg hij]
  have hclosed : ∀ {j : Nat} {a : ω}, ops[j]? = some a → (turn a).closed = true →
      (turn (if i = j then f a else a)).closed = true := by
    intro j a ha hc
    by_cases hij : i = j
    · subst hij
      rw [if_pos rfl]
      exact (hf a ha).2.1 hc
    · rwa [if_neg hij]
  refine ⟨?_, ?_, ?_⟩
  · rw [hitems, h.log_eq]
  · intro k j a' b' hkj ha' hb' hne
    obtain ⟨a, ha, rfl⟩ := getElem?_modify_eq_some ha'
    obtain ⟨b, hb, rfl⟩ := getElem?_modify_eq_some hb'
    refine hclosed ha (h.earlier k j a b hkj ha hb ?_)
    by_cases hij : i = j
    · subst hij
      rwa [if_pos rfl, (hf b hb).1] at hne
    · rwa [if_neg hij] at hne
  · intro k a' ha' hcall
    obtain ⟨a, ha, rfl⟩ := getElem?_modify_eq_some ha'
    have hturn : (turn (if i = k then f a else a)).closed = false ∧
        ∀ j < k, ∀ b, ops[j]? = some b → (turn b).closed = true := by
      by_cases hik : i = k
      · subst hik
        rw [if_pos rfl] at hcall ⊢
        exact (hf a ha).2.2 hcall
      · rw [if_neg hik] at hcall ⊢
        exact h.calls k a ha hcall
    refine ⟨hturn.1, ?_⟩
    intro j hj b' hb'
    obtain ⟨b, hb, rfl⟩ := getElem?_modify_eq_some hb'
    exact hclosed hb (hturn.2 j hj b hb)

/-- A step of one operation that takes no element and calls for none. -/
theorem Serial.pass (h : Serial turn calling ops log) {i : Nat} {f : ω → ω}
    (hf : ∀ a, ops[i]? = some a → (turn (f a)).items = (turn a).items ∧
      ((turn a).closed = true → (turn (f a)).closed = true) ∧ ¬ calling (f a)) :
    Serial turn calling (ops.modify i f) log :=
  h.modify fun a ha => ⟨(hf a ha).1, (hf a ha).2.1, fun hcall => absurd hcall (hf a ha).2.2⟩

/-- The operation that has called takes the next element. -/
theorem Serial.take (h : Serial turn calling ops log) {i : Nat} {a : ω} {x : α} {f : ω → ω}
    (ha : ops[i]? = some a) (hcall : calling a)
    (hitems : (turn (f a)).items = (turn a).items ++ [x]) (hdone : ¬ calling (f a)) :
    Serial turn calling (ops.modify i f) (log ++ [x]) := by
  obtain ⟨hopen, hbefore⟩ := h.calls i a ha hcall
  have hlater : ∀ (j : Nat) (b : ω), i < j → ops[j]? = some b → (turn b).items = [] := by
    intro j b hij hb
    by_contra hne
    rw [h.earlier i j a b hij ha hb hne] at hopen
    cases hopen
  -- so the elements of the caller are the last of the log
  have hrest : ((ops.drop (i + 1)).map fun b => (turn b).items).flatten = [] := by
    rw [List.flatten_eq_nil_iff]
    intro l hl
    obtain ⟨b, hb, rfl⟩ := List.mem_map.mp hl
    obtain ⟨j, hj⟩ := List.mem_iff_getElem?.mp hb
    rw [List.getElem?_drop] at hj
    exact hlater (i + 1 + j) b (by omega) hj
  refine ⟨?_, ?_, ?_⟩
  · obtain ⟨hlt, hget⟩ := List.getElem?_eq_some_iff.mp ha
    rw [List.modify_eq_take_cons_drop hlt, hget, h.log_eq]
    nth_rewrite 1 [split_at ha]
    rw [List.map_append, List.map_append, List.flatten_append, List.flatten_append, List.map_cons,
      List.map_cons, List.flatten_cons, List.flatten_cons, hitems, hrest, List.append_nil,
      List.append_nil, List.append_assoc]
  · intro k j c' d' hkj hc' hd' hne
    obtain ⟨c, hc, rfl⟩ := getElem?_modify_eq_some hc'
    obtain ⟨d, hd, rfl⟩ := getElem?_modify_eq_some hd'
    have hik : i ≠ k := by
      intro hik
      subst hik
      rw [if_neg (by omega)] at hne
      exact hne (hlater j d hkj hd)
    rw [if_neg hik]
    by_cases hij : i = j
    · subst hij
      exact hbefore k hkj c hc
    · rw [if_neg hij] at hne
      exact h.earlier k j c d hkj hc hd hne
  · intro k c' hc' hcall'
    obtain ⟨c, hc, rfl⟩ := getElem?_modify_eq_some hc'
    exfalso
    by_cases hik : i = k
    · subst hik
      rw [ha] at hc
      cases hc
      rw [if_pos rfl] at hcall'
      exact hdone hcall'
    · -- two operations cannot call at the same time: the earlier one would be closed
      rw [if_neg hik] at hcall'
      obtain ⟨hopen', hbefore'⟩ := h.calls k c hc hcall'
      rcases Nat.lt_or_gt_of_ne hik with hlt | hgt
      · rw [hbefore' i hlt a ha] at hopen
        cases hopen
      · rw [hbefore k hgt c hc] at hopen'
        cases hopen'

end Turns
