import Mathlib

set_option autoImplicit false

/-! # Scalars and matrices

A value with its shape. The elements of a matrix stand row by row; the number of elements is
the one that the shape says, by construction.
-/

namespace Shaped

inductive Shape where
  | scalar
  | matrix (rows cols : Nat)
  deriving DecidableEq, Repr

def Shape.size : Shape → Nat
  | .scalar => 1
  | .matrix rows cols => rows * cols

/-- A scalar or a matrix over `α`. -/
structure Elements (α : Type) where
  shape : Shape
  data : List α
  size_eq : data.length = shape.size
  deriving DecidableEq

namespace Elements

variable {α β γ : Type}

def scalar (a : α) : Elements α := ⟨.scalar, [a], rfl⟩

def map (f : α → β) (m : Elements α) : Elements β :=
  ⟨m.shape, m.data.map f, by rw [List.length_map, m.size_eq]⟩

/-- Element by element, on operands of one shape. -/
def zipWith (f : α → β → γ) (a : Elements α) (b : Elements β) (h : a.shape = b.shape) :
    Elements γ :=
  ⟨a.shape, List.zipWith f a.data b.data, by
    rw [List.length_zipWith, a.size_eq, b.size_eq, h, Nat.min_self]⟩

@[simp] theorem map_shape (f : α → β) (m : Elements α) : (m.map f).shape = m.shape := rfl

@[simp] theorem map_data (f : α → β) (m : Elements α) : (m.map f).data = m.data.map f := rfl

@[simp] theorem zipWith_shape (f : α → β → γ) (a : Elements α) (b : Elements β)
    (h : a.shape = b.shape) : (a.zipWith f b h).shape = a.shape := rfl

@[simp] theorem zipWith_data (f : α → β → γ) (a : Elements α) (b : Elements β)
    (h : a.shape = b.shape) : (a.zipWith f b h).data = List.zipWith f a.data b.data := rfl

theorem ext_data {a b : Elements α} (hshape : a.shape = b.shape) (hdata : a.data = b.data) :
    a = b := by
  cases a
  cases b
  subst hshape hdata
  rfl

theorem zipWith_map_right (f : α → γ → α) (g : β → γ) (a : Elements α) (b : Elements β)
    (h : a.shape = b.shape) :
    a.zipWith f (b.map g) h = a.zipWith (fun x y => f x (g y)) b h := by
  refine ext_data rfl ?_
  show List.zipWith f a.data (b.data.map g) = _
  rw [List.zipWith_map_right]
  rfl

@[simp] theorem zipWith_left (a : Elements α) (b : Elements β) (h : a.shape = b.shape) :
    a.zipWith (fun x _ => x) b h = a := by
  have hlen : a.data.length = b.data.length := by rw [a.size_eq, b.size_eq, h]
  refine ext_data rfl (List.ext_getElem ?_ fun i hi hi' => ?_)
  · rw [zipWith_data, List.length_zipWith]
    omega
  · simp only [zipWith_data, List.getElem_zipWith]

@[simp] theorem map_map (f : α → β) (g : β → γ) (m : Elements α) :
    (m.map f).map g = m.map (g ∘ f) := by
  simp only [map, List.map_map]

end Elements

end Shaped
