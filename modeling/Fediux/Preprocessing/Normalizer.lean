import Fediux.Stats.RowNorm

set_option autoImplicit false

/-! # The vertical normalizer

`Normalizer.transform` of `python/fediux/FL/preprocessing/scaler.py` on the columns of the host and
of the guests. `tiny` is ten times the machine epsilon of the norms, below which
`_handle_zeros_in_scale` takes a norm for zero.
-/

namespace Fediux.Preprocessing.Normalizer

open Session Session.Prog Messaging Vfl Stats

section Transform

variable {N rows cols : ℕ} {K : Type} [Field K] [LinearOrder K]

def handle_zeros_in_scale (tiny : K) (scale : Arr rows K) : Arr rows K :=
  mapArr (fun s => if s < tiny then 1 else s) scale

/-- `X /= norms[:, np.newaxis]` -/
def divideRows (X : Matrix rows cols K) (norms : Arr rows K) : Matrix rows cols K :=
  fun r c => Option.map₂ (fun x s => x / s) (X r c) (norms r)

/-- What follows `row_norm`. -/
def scaleRows (tiny : K) (X : Matrix rows cols K) (norms : Option (Arr rows K)) :
    Net N (Arr rows K) (Matrix rows cols K) :=
  (ofOption .TypeError norms).bind fun norms =>
  .ret (divideRows X (handle_zeros_in_scale tiny norms))

variable (sqrt : K → K) (tiny : K) (norm : Norm)

def transformHost (X : Matrix rows cols K) : Net N (Arr rows K) (Matrix rows cols K) :=
  check_array false X <| (row_norm_host sqrt norm false X true true).bind (scaleRows tiny X)

def transformGuest (X : Matrix rows cols K) : Net N (Arr rows K) (Matrix rows cols K) :=
  check_array false X <| (row_norm_guest sqrt norm false X true true).bind (scaleRows tiny X)

end Transform

/-- The parties' tables and the parameters of the normalizer. -/
structure Setup (K : Type) [Field K] [LinearOrder K] extends Tables K where
  norm : Norm
  sqrt : K → K
  tiny : K
  tiny_pos : 0 < tiny

namespace Setup

variable {K : Type} [Field K] [LinearOrder K] (S : Setup K)

def host : Net S.N (Arr S.rows K) (Matrix S.rows (S.cols none) K) :=
  transformHost S.sqrt S.tiny S.norm (S.X none)

def guest (j : Fin S.N) : Net S.N (Arr S.rows K) (Matrix S.rows (S.cols (some j)) K) :=
  transformGuest S.sqrt S.tiny S.norm (S.X (some j))

/-- The norm of the joined row. -/
def rowNorm (r : Fin S.rows) : K := Tables.normOf S.sqrt S.norm (S.joined r)

/-- A party's columns of the joined table, each value divided by the norm of its row; `replace`
says what stands for a norm. -/
def normalized (replace : K → K) (i : Party S.N) : Matrix S.rows (S.cols i) K :=
  fun r c => some (S.x i r c / replace (S.rowNorm r))

/-- In any order of the steps the parties come to their columns of the normalized table. -/
def Yields (replace : K → K) : Prop :=
  RunsTogether id (together S.host S.guest)
    (both (S.normalized replace none) fun j => S.normalized replace (some j))

theorem plays_transform :
    Plays (together S.host S.guest)
      (both (S.normalized (fun s => if s < S.tiny then 1 else s) none)
        fun j => S.normalized (fun s => if s < S.tiny then 1 else s) (some j)) := by
  have hchecked : ∀ (i : Party S.N) {α : Type} (k : Net S.N (Arr S.rows K) α),
      check_array false (S.X i) k = k := fun i _ k =>
    check_array_of_accepted S.rows_pos (S.cols_pos i) (fun _ _ _ => rfl) k
  unfold host guest transformHost transformGuest
  simp only [hchecked]
  exact plays_bind (S.plays_norm S.sqrt S.norm) (plays_ret _ _)

end Setup

/-- **Each party gets its columns of the table in which each value is divided by the norm of the
whole row, where a tiny norm counts as one.** -/
theorem transform_normalizes {K : Type} [Field K] [LinearOrder K] (S : Setup K) :
    S.Yields fun s => if s < S.tiny then 1 else s :=
  S.plays_transform.runsTogether

/-- A row of the host with one tiny value. -/
def tinyRow : Setup ℚ where
  N := 0
  rows := 1
  rows_pos := Nat.one_pos
  cols := fun _ => 1
  cols_pos := fun _ => Nat.one_pos
  x := fun _ _ _ => 1 / 10 ^ 20
  norm := .l1
  sqrt := id
  tiny := 10 / 2 ^ 52
  tiny_pos := by norm_num

/-- The value stays as it is, where one would be the value divided by the norm. -/
theorem not_yields_tinyRow : ¬ tinyRow.Yields fun s => if s = 0 then 1 else s := by
  intro h
  have heq := congrFun (congrFun (congrFun (h.eq_of_plays tinyRow.plays_transform) none)
    ⟨0, Nat.one_pos⟩) ⟨0, Nat.one_pos⟩
  have hnorm : tinyRow.rowNorm ⟨0, Nat.one_pos⟩ = 1 / 10 ^ 20 := by
    show (List.map (fun x : ℚ => |x|) [1 / 10 ^ 20]).sum = _
    simp
  have hvalue : (1 / 10 ^ 20 : ℚ) / (if (1 / 10 ^ 20 : ℚ) = 0 then 1 else 1 / 10 ^ 20) =
      (1 / 10 ^ 20 : ℚ) / (if (1 / 10 ^ 20 : ℚ) < 10 / 2 ^ 52 then 1 else 1 / 10 ^ 20) := by
    have hsome := Option.some.inj heq
    rw [hnorm] at hsome
    exact hsome
  norm_num at hvalue

end Fediux.Preprocessing.Normalizer
