import Mathlib.Data.Matrix.Mul
import Mathlib.Algebra.BigOperators.Fin

set_option autoImplicit false

/-! # Encrypted vectors with levels

The vectors of `ts.ckks_vector` and the operations on them that `python/fediux/FL` uses. A fresh
vector allows as many multiplications as its context was made for, and each one uses up a level.
`Exact` says what the operations do as long as there are levels left, in exact arithmetic. `Yields`
follows a computation through its operations, the numbers and the levels at once.
-/

namespace Fediux.Vfl

/-- The library. What raises there is `none` here. -/
structure TenSEAL (K : Type) where
  Context : Type
  Vector : Type
  /-- `ts.context`, for so many multiplications. -/
  context : ℕ → Context
  /-- `first_context_data().chain_index()`. -/
  multiply_depth : Context → ℕ
  ckks_vector : Context → List K → Option Vector
  decrypt : Vector → List K
  /-- The multiplications a vector still allows. -/
  level : Vector → ℕ
  /-- The product with a plain matrix. -/
  mm : {m n : ℕ} → Vector → Matrix (Fin m) (Fin n) K → Option Vector
  add : Vector → Vector → Option Vector
  add_number : Vector → K → Option Vector
  sub_plain : Vector → List K → Option Vector
  mul_number : Vector → K → Option Vector
  /-- `** 2`. -/
  square : Vector → Option Vector
  sum : Vector → Option Vector

namespace TenSEAL

variable {K : Type} (T : TenSEAL K) {n : ℕ}

/-- The vector is an encryption of `a` that allows `l` multiplications. -/
structure Holds (v : T.Vector) (a : Fin n → K) (l : ℕ) : Prop where
  decrypt : T.decrypt v = List.ofFn a
  level : l ≤ T.level v

/-- The operation does not raise, and the vector it returns holds `a`. -/
def Yields (o : Option T.Vector) (a : Fin n → K) (l : ℕ) : Prop := ∃ v, o = some v ∧ T.Holds v a l

variable {T} {v : T.Vector} {a b : Fin n → K} {l k : ℕ}

theorem Holds.mono (h : T.Holds v a l) (hkl : k ≤ l) : T.Holds v a k :=
  ⟨h.decrypt, hkl.trans h.level⟩

theorem Holds.congr (h : T.Holds v a l) (hab : a = b) : T.Holds v b l := hab ▸ h

theorem Holds.yields (h : T.Holds v a l) : T.Yields (some v) a l := ⟨v, rfl, h⟩

theorem Yields.congr {o : Option T.Vector} (h : T.Yields o a l) (hab : a = b) : T.Yields o b l :=
  hab ▸ h

/-- One operation after the other. -/
theorem Yields.bind {m : ℕ} {o : Option T.Vector} {f : T.Vector → Option T.Vector}
    {c : Fin m → K} (h : T.Yields o a l) (hf : ∀ v, T.Holds v a l → T.Yields (f v) c k) :
    T.Yields (o >>= f) c k := by
  obtain ⟨v, rfl, hv⟩ := h
  exact hf v hv

/-! ## The operations -/

variable [CommRing K]

variable (T) in
/-- What the library does in exact arithmetic. Numbers in a vector of length 1 are added to all
numbers of a longer one. -/
structure Exact : Prop where
  multiply_depth : ∀ depth, T.multiply_depth (T.context depth) = depth
  ckks_vector : ∀ {n : ℕ} (context : T.Context) (a : Fin n → K), 0 < n →
    T.Yields (T.ckks_vector context (List.ofFn a)) a (T.multiply_depth context)
  mm : ∀ {m n : ℕ} {v : T.Vector} {a : Fin m → K} {l : ℕ} (M : Matrix (Fin m) (Fin n) K), 0 < n →
    T.Holds v a (l + 1) → T.Yields (T.mm v M) (Matrix.vecMul a M) l
  add : ∀ {n : ℕ} {v w : T.Vector} {a b : Fin n → K} {l : ℕ},
    T.Holds v a l → T.Holds w b l → T.Yields (T.add v w) (a + b) l
  add_single : ∀ {n : ℕ} {v w : T.Vector} {a : Fin n → K} {b : K} {l : ℕ},
    T.Holds v a l → T.Holds w (fun _ : Fin 1 => b) l →
      T.Yields (T.add v w) (fun i => a i + b) l
  add_number : ∀ {n : ℕ} {v : T.Vector} {a : Fin n → K} {l : ℕ} (b : K),
    T.Holds v a l → T.Yields (T.add_number v b) (fun i => a i + b) l
  sub_plain : ∀ {n : ℕ} {v : T.Vector} {a : Fin n → K} {l : ℕ} (b : Fin n → K),
    T.Holds v a l → T.Yields (T.sub_plain v (List.ofFn b)) (a - b) l
  mul_number : ∀ {n : ℕ} {v : T.Vector} {a : Fin n → K} {l : ℕ} (b : K),
    T.Holds v a (l + 1) → T.Yields (T.mul_number v b) (b • a) l
  square : ∀ {n : ℕ} {v : T.Vector} {a : Fin n → K} {l : ℕ},
    T.Holds v a (l + 1) → T.Yields (T.square v) (a ^ 2) l
  sum : ∀ {n : ℕ} {v : T.Vector} {a : Fin n → K} {l : ℕ},
    T.Holds v a l → T.Yields (T.sum v) (fun _ : Fin 1 => ∑ i, a i) l

/-! ## The sum of several vectors -/

variable (T) in
/-- `z += sum(vs)`. The sum of Python begins with the number 0. -/
def add_sum (z : T.Vector) : List T.Vector → Option T.Vector
  | [] => T.add_number z 0
  | v :: vs => do
      let s ← T.add_number v 0
      let s ← vs.foldlM T.add s
      T.add z s

theorem Exact.foldlM_add (hT : T.Exact) {β : Type} {vs : β → T.Vector} {bs : β → Fin n → K}
    (js : List β) (hv : T.Holds v a l) (hvs : ∀ j ∈ js, T.Holds (vs j) (bs j) l) :
    T.Yields ((js.map vs).foldlM T.add v) (a + (js.map bs).sum) l := by
  induction js generalizing v a with
  | nil => simpa using hv.yields
  | cons j js ih =>
      rw [List.map_cons, List.foldlM_cons, List.map_cons, List.sum_cons, ← add_assoc]
      exact (hT.add hv (hvs j (by simp))).bind fun w hw => ih hw fun i hi => hvs i (by simp [hi])

theorem Exact.add_sum (hT : T.Exact) {β : Type} {vs : β → T.Vector} {bs : β → Fin n → K}
    (js : List β) (hv : T.Holds v a l) (hvs : ∀ j ∈ js, T.Holds (vs j) (bs j) l) :
    T.Yields (T.add_sum v (js.map vs)) (a + (js.map bs).sum) l := by
  cases js with
  | nil => exact (hT.add_number 0 hv).congr (by ext i; simp)
  | cons j js =>
      refine (hT.add_number 0 (hvs j (by simp))).bind fun w hw => ?_
      have hw' : T.Holds w (bs j) l := hw.congr (by ext i; simp)
      exact (hT.foldlM_add js hw' fun i hi => hvs i (by simp [hi])).bind fun s hs =>
        by simpa using hT.add hv hs

/-! ## Plain arrays -/

/-- The numbers of an array of length `n`. -/
def array? (n : ℕ) (l : List K) : Option (Fin n → K) :=
  if h : l.length = n then some fun i => l.get (i.cast h.symm) else none

omit [CommRing K] in
@[simp] theorem array?_ofFn (a : Fin n → K) : array? n (List.ofFn a) = some a := by
  simp only [array?, List.length_ofFn, dite_true, Option.some.injEq]
  funext i
  simp

/-! ## An exact library -/

/-- A vector as its numbers and its level. -/
def levelled (K : Type) [CommRing K] : TenSEAL K where
  Context := ℕ
  Vector := List K × ℕ
  context := id
  multiply_depth := id
  ckks_vector context a := if a.isEmpty then none else some (a, context)
  decrypt := Prod.fst
  level := Prod.snd
  mm {m _} v M :=
    if 0 < v.2 then (array? m v.1).map fun a => (List.ofFn (Matrix.vecMul a M), v.2 - 1) else none
  add v w :=
    if v.1.length = w.1.length then some (List.zipWith (· + ·) v.1 w.1, min v.2 w.2)
    else match w.1 with
      | [b] => some (v.1.map (· + b), min v.2 w.2)
      | _ => none
  add_number v b := some (v.1.map (· + b), v.2)
  sub_plain v b :=
    if v.1.length = b.length then some (List.zipWith (· - ·) v.1 b, v.2) else none
  mul_number v b := if 0 < v.2 then some (v.1.map (b * ·), v.2 - 1) else none
  square v := if 0 < v.2 then some (v.1.map (· ^ 2), v.2 - 1) else none
  sum v := some ([v.1.sum], v.2)

omit [CommRing K] in
theorem zipWith_ofFn (f : K → K → K) (a b : Fin n → K) :
    List.zipWith f (List.ofFn a) (List.ofFn b) = List.ofFn fun i => f (a i) (b i) :=
  List.ext_getElem (by simp) (by simp)

/-- A vector that has lost a level. -/
theorem yields_levelled {a : Fin n → K} {l t : ℕ} {o : Option (List K × ℕ)} (hl : l + 1 ≤ t)
    (ho : o = some (List.ofFn a, t - 1)) : (levelled K).Yields o a l := by
  refine ⟨(List.ofFn a, t - 1), ho, rfl, ?_⟩
  change l ≤ t - 1
  omega

theorem exact_levelled : (levelled K).Exact where
  multiply_depth _ := rfl
  ckks_vector := by
    intro n context a hn
    have hne : (List.ofFn a).isEmpty = false := by simp [hn.ne']
    exact ⟨(List.ofFn a, context), by simp [levelled, hne], rfl, le_rfl⟩
  mm := by
    rintro m n ⟨xs, t⟩ a l M _ ⟨rfl, hl⟩
    have ht : 0 < t := Nat.lt_of_lt_of_le (Nat.succ_pos l) hl
    exact yields_levelled hl (by simp [levelled, ht])
  add := by
    rintro n ⟨xs, t⟩ ⟨ys, u⟩ a b l ⟨rfl, hl⟩ ⟨rfl, hl'⟩
    exact ⟨(List.ofFn (a + b), min t u), by simp [levelled, zipWith_ofFn, Pi.add_def], rfl,
      le_min hl hl'⟩
  add_single := by
    rintro n ⟨xs, t⟩ ⟨ys, u⟩ a b l ⟨rfl, hl⟩ ⟨rfl, hl'⟩
    refine ⟨(List.ofFn fun i => a i + b, min t u), ?_, rfl, le_min hl hl'⟩
    by_cases hn : n = 1
    · subst hn
      simp [levelled]
    · simp [levelled, hn, List.map_ofFn, Function.comp_def]
  add_number := by
    rintro n ⟨xs, t⟩ a l b ⟨rfl, hl⟩
    exact ⟨(List.ofFn fun i => a i + b, t),
      by simp [levelled, List.map_ofFn, Function.comp_def], rfl, hl⟩
  sub_plain := by
    rintro n ⟨xs, t⟩ a l b ⟨rfl, hl⟩
    exact ⟨(List.ofFn (a - b), t), by simp [levelled, zipWith_ofFn, Pi.sub_def], rfl, hl⟩
  mul_number := by
    rintro n ⟨xs, t⟩ a l b ⟨rfl, hl⟩
    have ht : 0 < t := Nat.lt_of_lt_of_le (Nat.succ_pos l) hl
    exact yields_levelled hl
      (by simp [levelled, ht, List.map_ofFn, Function.comp_def, Pi.smul_def])
  square := by
    rintro n ⟨xs, t⟩ a l ⟨rfl, hl⟩
    have ht : 0 < t := Nat.lt_of_lt_of_le (Nat.succ_pos l) hl
    exact yields_levelled hl
      (by simp [levelled, ht, List.map_ofFn, Function.comp_def, Pi.pow_def])
  sum := by
    rintro n ⟨xs, t⟩ a l ⟨rfl, hl⟩
    exact ⟨([∑ i, a i], t), by simp [levelled, List.sum_ofFn], by simp [levelled], hl⟩

end TenSEAL

end Fediux.Vfl
