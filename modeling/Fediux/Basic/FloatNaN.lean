import Mathlib

set_option autoImplicit false

/-! # Where the arithmetic of doubles gives NaN

For Lean's model of `double`: a sum is NaN only for a NaN or two opposite infinities, a difference
only for a NaN or one infinity twice, and a positive finite factor changes neither NaN nor the
infinities. `isNaN_interpolate_iff` says what follows for a point between two numbers.
-/

namespace FloatNaN

open Float.Model (Format UnpackedFloat)
open Float.Model.UnpackedFloat (Sign)

/-! ## Packing -/

theorem isNaN_iff {x : Float.Model} : x.isNaN = true ↔ x.unpack = .notANumber := by
  show x.unpack.isNaN = true ↔ _
  cases x.unpack <;> simp [UnpackedFloat.isNaN]

theorem isInf_iff {x : Float.Model} : x.isInf = true ↔ ∃ s, x.unpack = .infinity s := by
  show x.unpack.isInf = true ↔ _
  cases x.unpack <;> simp [UnpackedFloat.isInf]

theorem unpack_pack_infinity (s : Sign) :
    (Float.Model.pack (.infinity s)).unpack = .infinity s := by
  cases s <;> rfl

/-- What is unpacked from an exponent that is not the greatest one is a number. -/
theorem unpack_ne_notANumber {b : BitVec Format.binary64.numBits}
    (h : UnpackedFloat.unpackExponent b ≠ (-1#_)) :
    UnpackedFloat.unpack Format.binary64 b ≠ .notANumber := by
  unfold UnpackedFloat.unpack
  simp only [h, if_false]
  split_ifs <;> simp

theorem unpack_pack_finite_ne (s : Sign) (m : ℕ) (e : ℤ) (h : 0 < m) :
    (Float.Model.pack (.finite s m e h)).unpack ≠ .notANumber := by
  show UnpackedFloat.unpack Format.binary64
    (UnpackedFloat.pack Format.binary64 (.finite s m e h)) ≠ .notANumber
  unfold UnpackedFloat.pack
  simp only
  split_ifs with hlarge hnormal
  · cases s <;> exact fun heq => by cases heq
  · apply unpack_ne_notANumber
    rw [UnpackedFloat.unpackExponent_packComponents]
    intro heq
    have hnat := congrArg BitVec.toNat heq
    rw [BitVec.toNat_ofNat] at hnat
    have hbits : (2 : ℕ) ^ Format.binary64.exponentBits = 2048 := rfl
    have hall : (-BitVec.ofNat Format.binary64.exponentBits 1).toNat = 2047 := rfl
    rw [hbits] at hlarge hnat
    omega
  · apply unpack_ne_notANumber
    rw [UnpackedFloat.unpackExponent_packComponents]
    decide

theorem isNaN_pack (u : UnpackedFloat) :
    (Float.Model.pack u).isNaN = true ↔ u = .notANumber := by
  rw [isNaN_iff]
  cases u with
  | notANumber => exact iff_of_true rfl rfl
  | infinity s => simp [unpack_pack_infinity]
  | zero s => cases s <;> exact iff_of_false (fun h => by cases h) (fun h => by cases h)
  | finite s m e h => simp [unpack_pack_finite_ne]

/-! ## Rounding -/

theorem roundWithAccuracy_ne (s : Sign) (m : ℕ) (e : ℤ) (acc : UnpackedFloat.Accuracy) :
    UnpackedFloat.roundWithAccuracy Format.binary64 s m e acc ≠ .notANumber := by
  unfold UnpackedFloat.roundWithAccuracy
  simp only
  split_ifs <;> simp

theorem normalize_ne (m e : ℤ) (s : Sign) :
    UnpackedFloat.normalize Format.binary64 m e s ≠ .notANumber := by
  unfold UnpackedFloat.normalize
  split
  · exact roundWithAccuracy_ne _ _ _ _
  · simp
  · exact roundWithAccuracy_ne _ _ _ _

/-! ## Sums and differences -/

@[simp] theorem neg_positive : -Sign.positive = .negative := rfl

@[simp] theorem neg_negative : -Sign.negative = .positive := rfl

variable {x y : Float.Model}

theorem isNaN_add_iff : (x + y).isNaN = true ↔ x.isNaN = true ∨ y.isNaN = true ∨
    ∃ s, x.unpack = .infinity s ∧ y.unpack = .infinity (-s) := by
  show (Float.Model.pack (UnpackedFloat.add Format.binary64 x.unpack y.unpack)).isNaN = true ↔ _
  rw [isNaN_pack, isNaN_iff, isNaN_iff]
  cases x.unpack with
  | notANumber => simp [UnpackedFloat.add]
  | infinity s =>
      cases y.unpack with
      | infinity t => cases s <;> cases t <;> simp [UnpackedFloat.add]
      | _ => simp [UnpackedFloat.add]
  | zero s =>
      cases y.unpack with
      | zero t => cases s <;> cases t <;> simp [UnpackedFloat.add]
      | _ => simp [UnpackedFloat.add]
  | finite s m e h =>
      cases y.unpack with
      | finite t n f h' => simp [UnpackedFloat.add, normalize_ne]
      | _ => simp [UnpackedFloat.add]

theorem isNaN_sub_iff : (x - y).isNaN = true ↔ x.isNaN = true ∨ y.isNaN = true ∨
    ∃ s, x.unpack = .infinity s ∧ y.unpack = .infinity s := by
  show (Float.Model.pack (UnpackedFloat.sub Format.binary64 x.unpack y.unpack)).isNaN = true ↔ _
  rw [isNaN_pack, isNaN_iff, isNaN_iff]
  cases x.unpack with
  | notANumber => simp [UnpackedFloat.sub]
  | infinity s =>
      cases y.unpack with
      | infinity t => cases s <;> cases t <;> simp [UnpackedFloat.sub]
      | _ => simp [UnpackedFloat.sub]
  | zero s =>
      cases y.unpack with
      | zero t => cases s <;> cases t <;> simp [UnpackedFloat.sub]
      | _ => simp [UnpackedFloat.sub]
  | finite s m e h =>
      cases y.unpack with
      | finite t n f h' => simp [UnpackedFloat.sub, normalize_ne]
      | _ => simp [UnpackedFloat.sub]

/-- From any other number, an infinity leads to the opposite one. -/
theorem unpack_sub_infinity {s : Sign} (hx : x.isNaN = false) (hne : x.unpack ≠ .infinity s)
    (hy : y.unpack = .infinity s) : (x - y).unpack = .infinity (-s) := by
  have hx' : x.unpack ≠ .notANumber := fun h => by
    rw [isNaN_iff.mpr h] at hx
    cases hx
  have hsub : UnpackedFloat.sub Format.binary64 x.unpack y.unpack = .infinity (-s) := by
    rw [hy]
    cases hu : x.unpack with
    | notANumber => exact absurd hu hx'
    | infinity t =>
        rw [hu] at hne
        cases s <;> cases t <;> simp_all [UnpackedFloat.sub]
    | zero t => rfl
    | finite t m e h => rfl
  show (Float.Model.pack (UnpackedFloat.sub Format.binary64 x.unpack y.unpack)).unpack = _
  rw [hsub, unpack_pack_infinity]

/-! ## Positive factors -/

/-- A positive number that is not infinite. -/
def IsPositive (r : Float.Model) : Prop := ∃ m e h, r.unpack = .finite .positive m e h

variable {r : Float.Model}

theorem IsPositive.isNaN_mul_iff (hr : IsPositive r) : (r * y).isNaN = true ↔ y.isNaN = true := by
  obtain ⟨m, e, h, hr⟩ := hr
  show (Float.Model.pack (UnpackedFloat.mul Format.binary64 r.unpack y.unpack)).isNaN = true ↔ _
  rw [isNaN_pack, isNaN_iff, hr]
  cases y.unpack <;> simp [UnpackedFloat.mul, roundWithAccuracy_ne]

theorem IsPositive.unpack_mul_infinity (hr : IsPositive r) {s : Sign}
    (hy : y.unpack = .infinity s) : (r * y).unpack = .infinity s := by
  obtain ⟨m, e, h, hr⟩ := hr
  have hsign : Sign.positive * s = s := by cases s <;> rfl
  show (Float.Model.pack (UnpackedFloat.mul Format.binary64 r.unpack y.unpack)).unpack = _
  rw [hr, hy]
  show (Float.Model.pack (.infinity (Sign.positive * s))).unpack = _
  rw [hsign, unpack_pack_infinity]

/-- **Between two numbers** the linear interpolation is NaN exactly when it starts at an
infinity. -/
theorem isNaN_interpolate_iff (hr : IsPositive r) (hx : x.isNaN = false) (hy : y.isNaN = false) :
    (x + r * (y - x)).isNaN = true ↔ x.isInf = true := by
  rw [isNaN_add_iff, hr.isNaN_mul_iff, isNaN_sub_iff, hx, hy]
  simp only [Bool.false_eq_true, false_or]
  rw [isInf_iff]
  constructor
  · rintro (⟨s, -, hs⟩ | ⟨s, hs, -⟩)
    · exact ⟨s, hs⟩
    · exact ⟨s, hs⟩
  · rintro ⟨s, hs⟩
    by_cases hys : y.unpack = .infinity s
    · exact Or.inl ⟨s, hys, hs⟩
    · exact Or.inr ⟨s, hs, hr.unpack_mul_infinity (unpack_sub_infinity hy hys hs)⟩

end FloatNaN
