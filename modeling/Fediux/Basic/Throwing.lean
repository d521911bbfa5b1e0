import Mathlib

set_option autoImplicit false

/-! # Programs with a state that may throw

A program changes a state and ends with a value or an exception; what it did to the state before
an exception stays. A call of code that does not touch the state is a value or an exception.
-/

namespace Throwing

variable {σ ε α β : Type}

structure Program (σ ε α : Type) where
  run : σ → Except ε α × σ

namespace Program

instance : Monad (Program σ ε) where
  pure a := ⟨fun s => (.ok a, s)⟩
  bind m k := ⟨fun s =>
    match m.run s with
    | (.ok a, s) => (k a).run s
    | (.error e, s) => (.error e, s)⟩

/-- A call that does not touch the state. -/
def call (x : Except ε α) : Program σ ε α := ⟨fun s => (x, s)⟩

def modify (f : σ → σ) : Program σ ε Unit := ⟨fun s => (.ok (), f s)⟩

/-- `try m catch e => handler e`. -/
def tryCatch (m : Program σ ε α) (handler : ε → Program σ ε α) : Program σ ε α := ⟨fun s =>
  match m.run s with
  | (.ok a, s) => (.ok a, s)
  | (.error e, s) => (handler e).run s⟩

theorem run_bind_of_ok {m : Program σ ε α} {k : α → Program σ ε β} {s s' : σ} {a : α}
    (h : m.run s = (.ok a, s')) : (m >>= k).run s = (k a).run s' := by
  show (match m.run s with | (.ok a, s) => (k a).run s | (.error e, s) => (.error e, s)) = _
  rw [h]

@[simp] theorem run_pure (a : α) (s : σ) : (pure a : Program σ ε α).run s = (.ok a, s) := rfl

@[simp] theorem run_call (x : Except ε α) (s : σ) : (call x).run s = (x, s) := rfl

@[simp] theorem run_call_ok_bind (a : α) (k : α → Program σ ε β) (s : σ) :
    (call (.ok a) >>= k).run s = (k a).run s := rfl

@[simp] theorem run_call_error_bind (e : ε) (k : α → Program σ ε β) (s : σ) :
    (call (.error e) >>= k).run s = (.error e, s) := rfl

@[simp] theorem run_modify_bind (f : σ → σ) (k : Unit → Program σ ε β) (s : σ) :
    (modify f >>= k).run s = (k ()).run (f s) := rfl

end Program

end Throwing
