import Fediux.Basic.Json

set_option autoImplicit false

/-! # Reading integers from text

`readInt` reads an integer as `strtol` does: white space, a sign and decimal digits, and what
stands behind them is left over. `stoInt` is the family of `stoi`, which also checks the range.
-/

namespace Strto

open Json (dumpInt Stops)

/-- `isspace` of the C locale. -/
def isSpace (c : Char) : Bool := c = ' ' || (9 ≤ c.toNat && c.toNat ≤ 13)

/-- Whether there is a minus sign, and what stands behind the sign. -/
def takeSign : List Char → Bool × List Char
  | '-' :: s => (true, s)
  | '+' :: s => (false, s)
  | s => (false, s)

def applySign (neg : Bool) (n : ℕ) : ℤ := if neg then -n else n

/-- The integer at the start of the text, and the rest. -/
def readInt (s : List Char) : Option (ℤ × List Char) :=
  let t := takeSign (s.dropWhile isSpace)
  let n := Json.parseNat t.2
  if (t.2.takeWhile Char.isDigit).isEmpty then none else some (applySign t.1 n.1, n.2)

inductive StoError where
  | invalid_argument
  | out_of_range
  deriving DecidableEq, Repr

/-- `stoi` and its family, for integers of so many bits. -/
def stoInt (bits : ℕ) (s : List Char) : Except StoError (ℤ × List Char) :=
  match readInt s with
  | none => .error .invalid_argument
  | some (n, rest) =>
      if -2 ^ (bits - 1) ≤ n ∧ n < 2 ^ (bits - 1) then .ok (n, rest) else .error .out_of_range

theorem stoInt_of_readInt {bits : ℕ} {s rest : List Char} {n : ℤ}
    (h : readInt s = some (n, rest)) : stoInt bits s =
      if -2 ^ (bits - 1) ≤ n ∧ n < 2 ^ (bits - 1) then .ok (n, rest)
      else .error .out_of_range := by
  rw [stoInt, h]

/-! ## What is written is read back -/

theorem isSpace_of_isDigit {c : Char} (h : c.isDigit = true) : isSpace c = false := by
  rw [Char.isDigit, Bool.and_eq_true, decide_eq_true_eq, decide_eq_true_eq] at h
  have hlow : 48 ≤ c.toNat := h.1
  have hne : c ≠ ' ' := by
    rintro rfl
    exact absurd hlow (by decide)
  have hhigh : ¬ c.toNat ≤ 13 := by omega
  simp [isSpace, hne, hhigh]

theorem takeSign_of_isDigit {c : Char} (h : c.isDigit = true) (s : List Char) :
    takeSign (c :: s) = (false, c :: s) := by
  have hminus : c ≠ '-' := by
    rintro rfl
    cases h
  have hplus : c ≠ '+' := by
    rintro rfl
    cases h
  unfold takeSign
  split
  · rename_i heq
    exact absurd (List.cons.inj heq).1 hminus
  · rename_i heq
    exact absurd (List.cons.inj heq).1 hplus
  · rfl

theorem readInt_dumpInt (n : ℤ) {r : List Char} (hr : Stops r) :
    readInt (dumpInt n ++ r) = some (n, r) := by
  have hdigits : ∀ m : ℕ, ∃ c cs, Nat.toDigits 10 m = c :: cs ∧ c.isDigit = true := by
    intro m
    obtain ⟨c, cs, h⟩ := List.exists_cons_of_ne_nil (Nat.toDigits_ne_nil (b := 10) (n := m))
    exact ⟨c, cs, h, Nat.isDigit_of_mem_toDigits (b := 10) (n := m) (by decide) (by decide)
      (h ▸ List.mem_cons_self)⟩
  have hread : ∀ m : ℕ, ((Nat.toDigits 10 m ++ r).takeWhile Char.isDigit).isEmpty = false := by
    intro m
    obtain ⟨c, cs, h, hc⟩ := hdigits m
    rw [h, List.cons_append, List.takeWhile_cons_of_pos hc]
    rfl
  cases n with
  | ofNat m =>
      obtain ⟨c, cs, h, hc⟩ := hdigits m
      have hskip : takeSign ((Nat.toDigits 10 m ++ r).dropWhile isSpace) =
          (false, Nat.toDigits 10 m ++ r) := by
        rw [h, List.cons_append, List.dropWhile_cons_of_neg (by rw [isSpace_of_isDigit hc]; simp),
          takeSign_of_isDigit hc]
      show readInt (Nat.toDigits 10 m ++ r) = _
      simp only [readInt, hskip, hread, Json.parseNat_toDigits m hr]
      rfl
  | negSucc m =>
      have hskip : takeSign (('-' :: Nat.toDigits 10 (m + 1) ++ r).dropWhile isSpace) =
          (true, Nat.toDigits 10 (m + 1) ++ r) := rfl
      show readInt ('-' :: Nat.toDigits 10 (m + 1) ++ r) = _
      simp only [readInt, hskip, hread, Json.parseNat_toDigits (m + 1) hr]
      rfl

end Strto
