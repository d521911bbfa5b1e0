import Mathlib

set_option autoImplicit false

/-! # Programs that report failures by return codes

A program performs steps whose outcomes are given and returns a code; the callers check the code
or drop it. `Keeps` says of a program which steps decide its code (`checked`) and which are
performed without any effect on it (`lost`). The rules below follow the code: a check, a dropped
code, a loop of either kind.
-/

namespace ReturnCodes

variable {S D E ρ α β : Type}

/-- The steps performed so far and the data that the functions share. -/
structure State (S D : Type) where
  steps : List S
  data : D
  deriving DecidableEq, Repr

structure Run (S D α : Type) where
  run : State S D → α × State S D

namespace Run

instance : Monad (Run S D) where
  pure a := ⟨fun s => (a, s)⟩
  bind m k := ⟨fun s => (k (m.run s).1).run (m.run s).2⟩

/-- A step, whose outcome is `out`. -/
def perform (out : S → ρ) (step : S) : Run S D ρ :=
  ⟨fun s => (out step, { s with steps := s.steps ++ [step] })⟩

def modify (f : D → D) : Run S D Unit := ⟨fun s => ((), { s with data := f s.data })⟩

def get : Run S D D := ⟨fun s => (s.data, s)⟩

/-- `m` on a part of the data. -/
def focus (part : E → D) (put : E → D → E) (m : Run S D α) : Run S E α := ⟨fun s =>
  let (a, s') := m.run ⟨s.steps, part s.data⟩
  (a, ⟨s'.steps, put s.data s'.data⟩)⟩

/-- `r` is returned if `m` ends with a code that fails, and `k` follows otherwise. -/
def check (fails : α → Bool) (r : β) (m : Run S D α) (k : Run S D β) : Run S D β :=
  m >>= fun code => if fails code then pure r else k

end Run

open Run

/-- Some step of a list fails. -/
def AnyFails (failing : S → Prop) (steps : List S) : Prop := ∃ step ∈ steps, failing step

instance (failing : S → Prop) [DecidablePred failing] (steps : List S) :
    Decidable (AnyFails failing steps) :=
  inferInstanceAs (Decidable (∃ step ∈ steps, failing step))

/-- The code of `m` fails just when a step of `checked` does, and a step that fails is performed
just when one of `checked` or `lost` fails. -/
def Keeps (failing : S → Prop) (fails : α → Bool) (m : Run S D α) (checked lost : List S) : Prop :=
  ∀ s, (fails (m.run s).1 = true ↔ AnyFails failing checked) ∧
    (AnyFails failing (m.run s).2.steps ↔
      AnyFails failing s.steps ∨ AnyFails failing checked ∨ AnyFails failing lost)

variable {failing : S → Prop} {fails : α → Bool} {fails' : β → Bool}

@[simp] theorem anyFails_nil : ¬ AnyFails failing [] := fun ⟨_, h, _⟩ => List.not_mem_nil h

@[simp] theorem anyFails_append (l l' : List S) :
    AnyFails failing (l ++ l') ↔ AnyFails failing l ∨ AnyFails failing l' := by
  constructor
  · rintro ⟨step, hstep, h⟩
    rcases List.mem_append.mp hstep with hl | hl
    · exact Or.inl ⟨step, hl, h⟩
    · exact Or.inr ⟨step, hl, h⟩
  · rintro (⟨step, hl, h⟩ | ⟨step, hl, h⟩)
    · exact ⟨step, List.mem_append_left l' hl, h⟩
    · exact ⟨step, List.mem_append_right l hl, h⟩

@[simp] theorem anyFails_cons (step : S) (l : List S) :
    AnyFails failing (step :: l) ↔ failing step ∨ AnyFails failing l := by
  simp [AnyFails]

@[simp] theorem anyFails_flatMap {γ : Type} (xs : List γ) (steps : γ → List S) :
    AnyFails failing (xs.flatMap steps) ↔ ∃ x ∈ xs, AnyFails failing (steps x) := by
  constructor
  · rintro ⟨step, hstep, h⟩
    obtain ⟨x, hx, hstep⟩ := List.mem_flatMap.mp hstep
    exact ⟨x, hx, step, hstep, h⟩
  · rintro ⟨x, hx, step, hstep, h⟩
    exact ⟨step, List.mem_flatMap.mpr ⟨x, hx, hstep⟩, h⟩

theorem Keeps.pure {a : α} (h : fails a = false) :
    Keeps failing fails (pure a : Run S D α) [] [] := by
  intro s
  show (fails a = true ↔ _) ∧ (AnyFails failing s.steps ↔ _)
  simp [h]

theorem Keeps.perform {out : S → α} {step : S} (h : fails (out step) = true ↔ failing step) :
    Keeps failing fails (perform out step : Run S D α) [step] [] := by
  intro s
  show (fails (out step) = true ↔ _) ∧ (AnyFails failing (s.steps ++ [step]) ↔ _)
  simp [h]

theorem run_check (r : β) (m : Run S D α) (k : Run S D β) (s : State S D) :
    (Run.check fails r m k).run s =
      if fails (m.run s).1 then (r, (m.run s).2) else k.run (m.run s).2 := by
  show (if fails (m.run s).1 then (Pure.pure r : Run S D β) else k).run (m.run s).2 = _
  split <;> rfl

theorem Keeps.check {m : Run S D α} {k : Run S D β} {r : β} {c l c' l' : List S}
    (hm : Keeps failing fails m c l) (hr : fails' r = true) (hk : Keeps failing fails' k c' l') :
    Keeps failing fails' (Run.check fails r m k) (c ++ c') (l ++ l') := by
  intro s
  obtain ⟨hcode, hsteps⟩ := hm s
  rw [run_check]
  simp only [anyFails_append]
  by_cases hfail : fails (m.run s).1 = true
  · rw [if_pos hfail]
    have hc := hcode.mp hfail
    simp [hr, hc, hsteps]
  · rw [if_neg hfail]
    have hc : ¬ AnyFails failing c := fun h => hfail (hcode.mpr h)
    obtain ⟨hcode', hsteps'⟩ := hk (m.run s).2
    refine ⟨?_, ?_⟩
    · simp [hcode', hc]
    · rw [hsteps', hsteps]
      simp only [hc, false_or, or_assoc, or_left_comm]

/-- A failure after which the function returns a code that does not fail. -/
theorem Keeps.leave {m : Run S D α} {k : Run S D β} {r : β} {c l l' : List S}
    (hm : Keeps failing fails m c l) (hr : fails' r = false) (hk : Keeps failing fails' k [] l') :
    Keeps failing fails' (Run.check fails r m k) [] (c ++ l ++ l') := by
  intro s
  obtain ⟨hcode, hsteps⟩ := hm s
  rw [run_check]
  simp only [anyFails_append]
  by_cases hfail : fails (m.run s).1 = true
  · rw [if_pos hfail]
    simp [hr, hcode.mp hfail, hsteps]
  · rw [if_neg hfail]
    have hc : ¬ AnyFails failing c := fun h => hfail (hcode.mpr h)
    obtain ⟨hcode', hsteps'⟩ := hk (m.run s).2
    refine ⟨hcode', ?_⟩
    rw [hsteps', hsteps]
    simp only [anyFails_nil, hc, false_or, or_assoc]

/-- A code that nobody looks at. -/
theorem Keeps.drop {m : Run S D α} {k : Run S D β} {c l c' l' : List S}
    (hm : Keeps failing fails m c l) (hk : Keeps failing fails' k c' l') :
    Keeps failing fails' (m >>= fun _ => k) c' (c ++ l ++ l') := by
  intro s
  obtain ⟨-, hsteps⟩ := hm s
  obtain ⟨hcode', hsteps'⟩ := hk (m.run s).2
  refine ⟨hcode', ?_⟩
  show AnyFails failing (k.run (m.run s).2).2.steps ↔ _
  rw [hsteps', hsteps]
  simp only [anyFails_append, or_assoc, or_left_comm]

/-- A change of the data before the rest of a program. -/
theorem Keeps.modify {f : D → D} {k : Run S D β} {c l : List S}
    (hk : Keeps failing fails' k c l) :
    Keeps failing fails' (Run.modify f >>= fun _ => k) c l :=
  fun s => hk ⟨s.steps, f s.data⟩

theorem Keeps.get {k : D → Run S D β} {c l : List S} (hk : ∀ d, Keeps failing fails' (k d) c l) :
    Keeps failing fails' (Run.get >>= k) c l :=
  fun s => hk s.data s

theorem Keeps.focus {m : Run S D α} {c l : List S} (part : E → D) (put : E → D → E)
    (hm : Keeps failing fails m c l) : Keeps failing fails (Run.focus part put m) c l :=
  fun s => hm ⟨s.steps, part s.data⟩

/-- A list of steps has another list's failures. -/
theorem Keeps.congr {m : Run S D α} {c l c' l' : List S} (hm : Keeps failing fails m c l)
    (hc : AnyFails failing c ↔ AnyFails failing c')
    (hl : AnyFails failing l ↔ AnyFails failing l') : Keeps failing fails m c' l' := by
  intro s
  obtain ⟨hcode, hsteps⟩ := hm s
  exact ⟨hcode.trans hc, by rw [hsteps, hc, hl]⟩

/-- A loop whose body is checked. -/
theorem Keeps.checkAll {γ : Type} {body : γ → Run S D α} {k : Run S D β} {r : β}
    {c l : γ → List S} {c' l' : List S} (hbody : ∀ x, Keeps failing fails (body x) (c x) (l x))
    (hr : fails' r = true) (hk : Keeps failing fails' k c' l') (xs : List γ) :
    Keeps failing fails' (xs.foldr (fun x k => Run.check fails r (body x) k) k)
      (xs.flatMap c ++ c') (xs.flatMap l ++ l') := by
  induction xs with
  | nil => exact hk
  | cons x xs ih =>
      rw [List.foldr_cons, List.flatMap_cons, List.flatMap_cons, List.append_assoc,
        List.append_assoc]
      exact (hbody x).check hr ih

/-- A loop whose body is not checked. -/
theorem Keeps.dropAll {γ : Type} {body : γ → Run S D α} {k : Run S D β}
    {c l : γ → List S} {c' l' : List S} (hbody : ∀ x, Keeps failing fails (body x) (c x) (l x))
    (hk : Keeps failing fails' k c' l') (xs : List γ) :
    Keeps failing fails' (xs.foldr (fun x k => body x >>= fun _ => k) k)
      c' (xs.flatMap (fun x => c x ++ l x) ++ l') := by
  induction xs with
  | nil => exact hk
  | cons x xs ih =>
      rw [List.foldr_cons, List.flatMap_cons, List.append_assoc]
      exact (hbody x).drop ih

/-! ## Programs that do not fail -/

/-- `m` ends with a code that does not fail, and changes the data by `f`. -/
def Passes (fails : α → Bool) (m : Run S D α) (f : D → D) : Prop :=
  ∀ s, fails (m.run s).1 = false ∧ (m.run s).2.data = f s.data

variable {f g : D → D}

theorem Passes.pure {a : α} (h : fails a = false) : Passes fails (pure a : Run S D α) id :=
  fun _ => ⟨h, rfl⟩

theorem Passes.perform {out : S → α} {step : S} (h : fails (out step) = false) :
    Passes fails (perform out step : Run S D α) id :=
  fun _ => ⟨h, rfl⟩

theorem Passes.check {m : Run S D α} {k : Run S D β} {r : β} (hm : Passes fails m f)
    (hk : Passes fails' k g) : Passes fails' (Run.check fails r m k) (g ∘ f) := by
  intro s
  obtain ⟨hcode, hdata⟩ := hm s
  rw [run_check, hcode]
  refine ⟨(hk (m.run s).2).1, ?_⟩
  show (k.run (m.run s).2).2.data = _
  rw [(hk (m.run s).2).2, hdata]
  rfl

theorem Passes.drop {m : Run S D α} {k : Run S D β} (hm : Passes fails m f)
    (hk : Passes fails' k g) : Passes fails' (m >>= fun _ => k) (g ∘ f) := by
  intro s
  refine ⟨(hk (m.run s).2).1, ?_⟩
  show (k.run (m.run s).2).2.data = _
  rw [(hk (m.run s).2).2, (hm s).2]
  rfl

theorem Passes.modify {k : Run S D β} (hk : Passes fails' k g) :
    Passes fails' (Run.modify f >>= fun _ => k) (g ∘ f) :=
  fun s => hk ⟨s.steps, f s.data⟩

end ReturnCodes
