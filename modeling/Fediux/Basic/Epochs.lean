import Mathlib

set_option autoImplicit false

/-! # Drawing without replacement

A sequence of draws goes through its base in epochs when it is the beginning of permutations of
the base, one behind the other. Then every element is drawn once in each full epoch and at most
once more (`InEpochs.count_bounds`).
-/

namespace Epochs

variable {α : Type}

/-- The draws are the beginning of permutations of the base. -/
def InEpochs (base drawn : List α) : Prop :=
  ∃ epochs : List (List α), (∀ e ∈ epochs, e.Perm base) ∧ drawn <+: epochs.flatten

variable {base drawn : List α}

theorem InEpochs.mem (h : InEpochs base drawn) {x : α} (hx : x ∈ drawn) : x ∈ base := by
  obtain ⟨epochs, hperm, hpre⟩ := h
  obtain ⟨e, he, hxe⟩ := List.mem_flatten.mp (hpre.subset hx)
  exact (hperm e he).mem_iff.mp hxe

/-- The first epoch is over, or all draws are in it. -/
theorem prefix_cons {e rest : List α} (h : drawn <+: e ++ rest) :
    (drawn.length < e.length ∧ drawn <+: e) ∨ ∃ later, drawn = e ++ later ∧ later <+: rest := by
  by_cases hlt : drawn.length < e.length
  · exact Or.inl ⟨hlt, List.prefix_of_prefix_length_le h (List.prefix_append e rest) hlt.le⟩
  · obtain ⟨later, rfl⟩ := List.prefix_of_prefix_length_le (List.prefix_append e rest) h
      (not_lt.mp hlt)
    exact Or.inr ⟨later, rfl, (List.prefix_append_right_inj e).mp h⟩

variable [DecidableEq α]

/-- **The draws are spread evenly**: each element of the base is drawn once in each full epoch,
and at most once more. -/
theorem InEpochs.count_bounds (h : InEpochs base drawn) (hbase : base.Nodup) {x : α}
    (hx : x ∈ base) : drawn.length / base.length ≤ drawn.count x ∧
      drawn.count x ≤ drawn.length / base.length + 1 := by
  obtain ⟨epochs, hperm, hpre⟩ := h
  have hpos : 0 < base.length := List.length_pos_of_mem hx
  induction epochs generalizing drawn with
  | nil =>
      obtain rfl : drawn = [] := List.prefix_nil.mp hpre
      simp
  | cons e epochs ih =>
      have he : e.Perm base := hperm e List.mem_cons_self
      rw [List.flatten_cons] at hpre
      rcases prefix_cons hpre with ⟨hlt, hin⟩ | ⟨later, rfl, hlater⟩
      · -- less than one epoch
        rw [he.length_eq] at hlt
        have hone : drawn.count x ≤ 1 :=
          (hin.sublist.count_le x).trans (List.nodup_iff_count_le_one.mp (he.nodup_iff.mpr hbase) x)
        rw [Nat.div_eq_of_lt hlt]
        omega
      · have hrest := ih (fun e' he' => hperm e' (List.mem_cons_of_mem _ he')) hlater
        have hcount : e.count x = 1 :=
          List.count_eq_one_of_mem (he.nodup_iff.mpr hbase) (he.mem_iff.mpr hx)
        have hdiv : (e ++ later).length / base.length = later.length / base.length + 1 := by
          rw [List.length_append, he.length_eq, Nat.add_div_left _ hpos]
        rw [List.count_append, hcount, hdiv]
        omega

end Epochs
