import Mathlib

set_option autoImplicit false

/-! # Replicated secret sharing of a ring element among three parties

An element `x` is split into three summands; party `p` holds the `p`-th one and the one of
the party before it. A shared vector is a vector of shares at every party. The lemmas say
which local operations act on sharings as an operation on the shared values.
-/

namespace Replicated

variable {R : Type} [CommRing R]

abbrev Party := Fin 3

instance neZero_three : NeZero (3 : Nat) := ⟨by decide⟩

/-- What one party holds of a shared element: its own summand and the previous party's. -/
structure Share (R : Type) where
  cur : R
  prev : R
  deriving DecidableEq, Repr

/-- The shares at the three parties are consistent and their summands add up to `x`. -/
def IsSharing (s : Party → Share R) (x : R) : Prop :=
  (∀ p, (s (p + 1)).prev = (s p).cur) ∧ (s 0).cur + (s 1).cur + (s 2).cur = x

/-- The matrices at the three parties share the vector `xs`, row by row. -/
def Shares (m : Party → List (Share R)) (xs : List R) : Prop :=
  ∃ rows : List (Party → Share R),
    (∀ p, m p = rows.map fun s => s p) ∧ List.Forall₂ IsSharing rows xs

/-! ## Operations on one element -/

namespace Share

def add (s t : Share R) : Share R := ⟨s.cur + t.cur, s.prev + t.prev⟩

def sub (s t : Share R) : Share R := ⟨s.cur - t.cur, s.prev - t.prev⟩

def neg (s : Share R) : Share R := ⟨-s.cur, -s.prev⟩

/-- The summand of the product that a party computes from its shares of the factors. -/
def mul (s t : Share R) : R := s.cur * t.cur + s.cur * t.prev + s.prev * t.cur

/-- Add `c` to the summand of party 0, at the two parties that hold it. -/
def addConst (c : R) (p : Party) (s : Share R) : Share R :=
  if p = 0 then { s with cur := s.cur + c }
  else if p = 1 then { s with prev := s.prev + c }
  else s

end Share

namespace IsSharing

variable {s t : Party → Share R} {x y : R}

theorem add (hs : IsSharing s x) (ht : IsSharing t y) :
    IsSharing (fun p => (s p).add (t p)) (x + y) := by
  refine ⟨fun p => congrArg₂ (· + ·) (hs.1 p) (ht.1 p), ?_⟩
  rw [← hs.2, ← ht.2]
  simp only [Share.add]
  ring

theorem sub (hs : IsSharing s x) (ht : IsSharing t y) :
    IsSharing (fun p => (s p).sub (t p)) (x - y) := by
  refine ⟨fun p => congrArg₂ (· - ·) (hs.1 p) (ht.1 p), ?_⟩
  rw [← hs.2, ← ht.2]
  simp only [Share.sub]
  ring

theorem neg (hs : IsSharing s x) : IsSharing (fun p => (s p).neg) (-x) := by
  refine ⟨fun p => congrArg (-·) (hs.1 p), ?_⟩
  rw [← hs.2]
  simp only [Share.neg]
  ring

theorem addConst (hs : IsSharing s x) (c : R) :
    IsSharing (fun p => (s p).addConst c p) (x + c) := by
  refine ⟨fun p => ?_, ?_⟩
  · have h := hs.1 p
    fin_cases p <;> simpa [Share.addConst] using h
  · rw [← hs.2]
    simp only [Share.addConst, Fin.isValue, if_true, one_ne_zero, if_false,
      show (2 : Party) ≠ 0 by decide, show (2 : Party) ≠ 1 by decide]
    ring

/-- A party that receives the summand of the next party knows the value. -/
theorem opens (hs : IsSharing s x) (p : Party) :
    (s p).cur + (s p).prev + (s (p + 1)).cur = x := by
  have h0 : (s 1).prev = (s 0).cur := hs.1 0
  have h1 : (s 2).prev = (s 1).cur := hs.1 1
  have h2 : (s 0).prev = (s 2).cur := hs.1 2
  have hsum := hs.2
  fin_cases p
  · show (s 0).cur + (s 0).prev + (s 1).cur = x
    rw [h2, ← hsum]
    ring
  · show (s 1).cur + (s 1).prev + (s 2).cur = x
    rw [h0, ← hsum]
    ring
  · show (s 2).cur + (s 2).prev + (s 0).cur = x
    rw [h1, ← hsum]
    ring

/-- The local products, sent on to the next party, share the product. -/
theorem mul (hs : IsSharing s x) (ht : IsSharing t y) :
    IsSharing (fun p => ⟨(s p).mul (t p), (s (p + 2)).mul (t (p + 2))⟩) (x * y) := by
  have hback : ∀ p : Party, p + 1 + 2 = p := by decide
  refine ⟨fun p => by simp only [hback p], ?_⟩
  have hs0 : (s 1).prev = (s 0).cur := hs.1 0
  have hs1 : (s 2).prev = (s 1).cur := hs.1 1
  have hs2 : (s 0).prev = (s 2).cur := hs.1 2
  have ht0 : (t 1).prev = (t 0).cur := ht.1 0
  have ht1 : (t 2).prev = (t 1).cur := ht.1 1
  have ht2 : (t 0).prev = (t 2).cur := ht.1 2
  -- every product of a summand of `x` and one of `y` is computed by exactly one party
  rw [← hs.2, ← ht.2]
  simp only [Share.mul, hs0, hs1, hs2, ht0, ht1, ht2]
  ring

end IsSharing

/-! ## Operations on vectors -/

namespace Shares

variable {m m' : Party → List (Share R)} {xs ys : List R}

theorem length_eq (h : Shares m xs) (p : Party) : (m p).length = xs.length := by
  obtain ⟨rows, hm, hrows⟩ := h
  rw [hm p, List.length_map, hrows.length_eq]

/-- A local operation that acts on sharings acts on shared vectors. -/
theorem map (f : Party → Share R → Share R) (g : R → R)
    (hf : ∀ s x, IsSharing s x → IsSharing (fun p => f p (s p)) (g x)) (h : Shares m xs) :
    Shares (fun p => (m p).map (f p)) (xs.map g) := by
  obtain ⟨rows, hm, hrows⟩ := h
  refine ⟨rows.map fun s p => f p (s p), fun p => ?_, ?_⟩
  · simp only [hm p, List.map_map]
    rfl
  · rw [List.forall₂_map_left_iff, List.forall₂_map_right_iff]
    exact hrows.imp hf

theorem forall₂_zipWith {α β γ δ ζ η : Type} {P : α → β → Prop} {Q : γ → δ → Prop}
    {S : ζ → η → Prop} {f : α → γ → ζ} {g : β → δ → η}
    (hf : ∀ a b c d, P a b → Q c d → S (f a c) (g b d)) {as : List α} {bs : List β}
    {cs : List γ} {ds : List δ} (h : List.Forall₂ P as bs) (h' : List.Forall₂ Q cs ds) :
    List.Forall₂ S (List.zipWith f as cs) (List.zipWith g bs ds) := by
  induction h generalizing cs ds with
  | nil => exact .nil
  | cons hab _ ih =>
      cases h' with
      | nil => exact .nil
      | cons hcd h' => exact .cons (hf _ _ _ _ hab hcd) (ih h')

/-- A binary operation of the parties that acts on sharings acts on shared vectors. -/
theorem zipWith_joint (F : (Party → Share R) → (Party → Share R) → Party → Share R)
    (g : R → R → R)
    (hF : ∀ s t x y, IsSharing s x → IsSharing t y → IsSharing (F s t) (g x y))
    {rows rows' : List (Party → Share R)} (h : List.Forall₂ IsSharing rows xs)
    (h' : List.Forall₂ IsSharing rows' ys) :
    Shares (fun p => List.zipWith (fun s t => F s t p) rows rows') (List.zipWith g xs ys) :=
  ⟨List.zipWith F rows rows', fun p => by rw [List.map_zipWith],
    forall₂_zipWith (fun s x t y => hF s t x y) h h'⟩

/-- A local binary operation that acts on sharings acts on shared vectors. -/
theorem zipWith (f : Party → Share R → Share R → Share R) (g : R → R → R)
    (hf : ∀ s t x y, IsSharing s x → IsSharing t y →
      IsSharing (fun p => f p (s p) (t p)) (g x y))
    (h : Shares m xs) (h' : Shares m' ys) :
    Shares (fun p => List.zipWith (f p) (m p) (m' p)) (List.zipWith g xs ys) := by
  obtain ⟨rows, hm, hrows⟩ := h
  obtain ⟨rows', hm', hrows'⟩ := h'
  simp only [hm, hm', List.zipWith_map]
  exact zipWith_joint (fun s t p => f p (s p) (t p)) g hf hrows hrows'

theorem add (h : Shares m xs) (h' : Shares m' ys) :
    Shares (fun p => List.zipWith Share.add (m p) (m' p)) (List.zipWith (· + ·) xs ys) :=
  h.zipWith (fun _ => Share.add) (· + ·) (fun _ _ _ _ => IsSharing.add) h'

theorem sub (h : Shares m xs) (h' : Shares m' ys) :
    Shares (fun p => List.zipWith Share.sub (m p) (m' p)) (List.zipWith (· - ·) xs ys) :=
  h.zipWith (fun _ => Share.sub) (· - ·) (fun _ _ _ _ => IsSharing.sub) h'

theorem neg (h : Shares m xs) : Shares (fun p => (m p).map Share.neg) (xs.map (-·)) :=
  h.map (fun _ => Share.neg) (-·) (fun _ _ => IsSharing.neg)

end Shares

/-! ## Sharing and opening in the clear -/

/-- The share of party `q` of an element that party `p` provides, without masks. -/
def owned (p : Party) (x : R) (q : Party) : Share R :=
  ⟨if q = p then x else 0, if q + 2 = p then x else 0⟩

theorem isSharing_owned (p : Party) (x : R) : IsSharing (owned p x) x := by
  have hback : ∀ q : Party, q + 1 + 2 = q := by decide
  refine ⟨fun q => by simp only [owned, hback q], ?_⟩
  fin_cases p <;> simp [owned]

theorem shares_owned (p : Party) (xs : List R) :
    Shares (fun q => xs.map fun x => owned p x q) xs := by
  refine ⟨xs.map (owned p), fun q => by rw [List.map_map]; rfl, ?_⟩
  rw [List.forall₂_map_left_iff, List.forall₂_same]
  exact fun x _ => isSharing_owned p x

/-- The vector that party `p` opens with what the next party sends. -/
def openRows (p : Party) (m : Party → List (Share R)) : List R :=
  List.zipWith (fun s t => s.cur + s.prev + t.cur) (m p) (m (p + 1))

theorem Shares.openRows {m : Party → List (Share R)} {xs : List R} (h : Shares m xs)
    (p : Party) : openRows p m = xs := by
  obtain ⟨rows, hrows, h⟩ := h
  unfold Replicated.openRows
  rw [hrows, hrows, List.zipWith_map, List.zipWith_self]
  clear hrows
  induction h with
  | nil => rfl
  | @cons s x _ _ h _ ih => rw [List.map_cons, ih, h.opens p]

end Replicated
