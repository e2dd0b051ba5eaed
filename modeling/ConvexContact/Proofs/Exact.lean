import Mathlib
import ConvexContact.Scalar

/-!
# Exact arithmetic

Real numbers are scalars: all operations are exact, every format keeps every number, and every
number can be computed with.  A definition of this library, read over the real numbers, is the
mathematical meaning of what its evaluation over machine numbers approximates.

**Threshold.**  The least positive normal number depends on the format of the operands, and no
statement about exact arithmetic depends on more than its sign.  It is a parameter, the class
`Threshold`, with one instance for each format.

**Results.**  The operations of the class `Scalar` are those of the real numbers, and the derived
operations are the usual ones (`larger_eq_max`, `atMost_eq_min`, `abs_eq_abs`).
-/

namespace ConvexContact

/-- The positive number up to which a squared length counts as negligible. -/
class Threshold where
  value : ℝ
  value_pos : 0 < value

/-- The least positive normal number of a format. -/
@[reducible] noncomputable def Threshold.ofFormat :
    Format → Threshold
  | .single => ⟨1 / 2 ^ 126, by positivity⟩
  | .double => ⟨1 / 2 ^ 1022, by positivity⟩

theorem Threshold.value_ofFormat_le
    (format : Format) :
    (Threshold.ofFormat format).value ≤ 1 / 2 ^ 126 := by
  have hle : ∀ n : ℕ, 126 ≤ n → (1 : ℝ) / 2 ^ n ≤ 1 / 2 ^ 126 := fun n hn =>
    one_div_pow_le_one_div_pow_of_le one_le_two hn
  cases format
  · exact le_rfl
  · exact hle 1022 (by norm_num)

/-- Scalars that every format keeps as they are. -/
class Unrounded (α : Type) [Scalar α] : Prop where
  round_eq : ∀ (format : Format) (x : α), Scalar.round format x = x

@[simp] theorem Unrounded.round_eq_id
    {α : Type} [Scalar α] [Unrounded α]
    (format : Format) :
    (Scalar.round format : α → α) = id :=
  funext (Unrounded.round_eq format)

namespace Exact

section Operations

variable [Threshold]

noncomputable instance scalar : Scalar ℝ where
  add x y := x + y
  sub x y := x - y
  mul x y := x * y
  div x y := x / y
  neg x := -x
  lt x y := x < y
  le x y := x ≤ y
  -- Texts of numbers occur in reasons to refuse an input only.
  toString _ := "real"
  ofNat n := n
  pi := Real.pi
  inverse x := x⁻¹
  sqrt := Real.sqrt
  exp := Real.exp
  sin := Real.sin
  cos := Real.cos
  tan := Real.tan
  atan := Real.arctan
  atan2 y x := Complex.arg ⟨x, y⟩
  operand := .ok
  round _ x := x
  tiny _ := Threshold.value
  epsilon
    | .single => 1 / 8388608
    | .double => 1 / 4503599627370496
  decidableLT x y := inferInstanceAs (Decidable (x < y))
  decidableLE x y := inferInstanceAs (Decidable (x ≤ y))

@[simp] theorem ofNat_zero :
    (@OfNat.ofNat ℝ 0 (Scalar.instOfNat 0)) = 0 :=
  Nat.cast_zero

@[simp] theorem ofNat_one :
    (@OfNat.ofNat ℝ 1 (Scalar.instOfNat 1)) = 1 :=
  Nat.cast_one

@[simp] theorem ofNat_ofNat
    (n : ℕ) [n.AtLeastTwo] :
    (@OfNat.ofNat ℝ n (Scalar.instOfNat n)) = OfNat.ofNat n :=
  rfl

theorem one_mul_eq (x : ℝ) :
    @OfNat.ofNat ℝ 1 (Scalar.instOfNat 1) * x = x := by
  rw [ofNat_one, one_mul]

@[simp] theorem scalar_ofNat (n : ℕ) :
    (Scalar.ofNat n : ℝ) = n :=
  rfl

@[simp] theorem pi_eq : (Scalar.pi : ℝ) = Real.pi :=
  rfl

@[simp] theorem inverse_eq (x : ℝ) :
    Scalar.inverse x = x⁻¹ :=
  rfl

@[simp] theorem sqrt_eq (x : ℝ) :
    Scalar.sqrt x = Real.sqrt x :=
  rfl

@[simp] theorem exp_eq (x : ℝ) :
    Scalar.exp x = Real.exp x :=
  rfl

@[simp] theorem sin_eq (x : ℝ) :
    Scalar.sin x = Real.sin x :=
  rfl

@[simp] theorem cos_eq (x : ℝ) :
    Scalar.cos x = Real.cos x :=
  rfl

@[simp] theorem tan_eq (x : ℝ) :
    Scalar.tan x = Real.tan x :=
  rfl

@[simp] theorem atan_eq (x : ℝ) :
    Scalar.atan x = Real.arctan x :=
  rfl

@[simp] theorem atan2_eq (x y : ℝ) :
    Scalar.atan2 y x = Complex.arg ⟨x, y⟩ :=
  rfl

@[simp] theorem operand_eq (x : ℝ) :
    Scalar.operand x = .ok x :=
  rfl

instance unrounded : Unrounded ℝ :=
  ⟨fun _ _ => rfl⟩

@[simp] theorem tiny_eq (x : ℝ) :
    Scalar.tiny x = Threshold.value :=
  rfl

end Operations

section Derived

variable [Threshold]

@[simp] theorem half_eq : (Scalar.half : ℝ) = 1 / 2 := by
  simp [Scalar.half]

@[simp] theorem square_eq (x : ℝ) :
    Scalar.square x = x ^ 2 := by
  rw [pow_two]
  rfl

@[simp] theorem cube_eq (x : ℝ) :
    Scalar.cube x = x ^ 3 := by
  rw [pow_three']
  rfl

@[simp] theorem isZero_iff (x : ℝ) :
    Scalar.IsZero x ↔ x = 0 := by
  simp [Scalar.IsZero, le_antisymm_iff]

@[simp] theorem abs_eq_abs (x : ℝ) :
    Scalar.abs x = |x| := by
  unfold Scalar.abs
  split_ifs with h
  · simp only [ofNat_zero] at h
    rw [abs_of_neg h]
  · simp only [ofNat_zero, not_lt] at h
    rw [abs_of_nonneg h]

@[simp] theorem larger_eq_max (x y : ℝ) :
    Scalar.larger x y = max x y := by
  unfold Scalar.larger
  split_ifs with h₁ h₂
  · rw [max_eq_left h₁]
  · rw [max_eq_right h₂]
  · exact absurd (le_of_lt (not_le.1 h₁)) h₂

@[simp] theorem atMost_eq_min (bound x : ℝ) :
    Scalar.atMost bound x = min bound x := by
  unfold Scalar.atMost
  split_ifs with h
  · rw [min_eq_left (le_of_lt h)]
  · rw [min_eq_right (not_lt.1 h)]

end Derived

end Exact

end ConvexContact
