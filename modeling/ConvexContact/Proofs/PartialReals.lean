import Mathlib
import ConvexContact.Proofs.Exact

/-!
# Real numbers with undefined results

**Domains.**  A quotient by zero, a square root of a negative number and a tangent outside the
interval from `-π/2` to `π/2` have no result.  Everything that is computed from an undefined
operand is undefined, and a comparison with an undefined operand does not hold.

**Use.**  These numbers are scalars.  A definition of this library, read over them at defined
operands, gives the defined result `PartialReal.of x` only if no operation on the way to it was
outside its domain.  So that a definition commutes with `PartialReal.of` means that it divides by no
zero and takes no tangent of a right angle.

**Results.**  Each operation on defined operands in its domain is the operation on real numbers
(`of_add`, `of_div`, `of_tan`, …).
-/

namespace ConvexContact

/-- A real number, or the result of an operation outside its domain. -/
structure PartialReal where
  value? : Option ℝ

namespace PartialReal

/-- A real number as a defined result. -/
def of (x : ℝ) : PartialReal :=
  ⟨some x⟩

section Lifting

open Classical in
/-- A function of one number that is undefined outside its domain. -/
noncomputable def lift (domain : ℝ → Prop) (f : ℝ → ℝ) (x : PartialReal) : PartialReal :=
  ⟨x.value?.bind fun a => if domain a then some (f a) else none⟩

open Classical in
/-- A function of two numbers that is undefined outside its domain. -/
noncomputable def lift₂ (domain : ℝ → ℝ → Prop) (f : ℝ → ℝ → ℝ) (x y : PartialReal) :
    PartialReal :=
  ⟨x.value?.bind fun a => y.value?.bind fun b => if domain a b then some (f a b) else none⟩

variable {domain : ℝ → Prop} {domain₂ : ℝ → ℝ → Prop} {f : ℝ → ℝ} {g : ℝ → ℝ → ℝ}
variable {x y : PartialReal} {a b c : ℝ}

/-- A function has a defined result exactly at the defined numbers in its domain. -/
theorem lift_eq_of_iff :
    lift domain f x = of c ↔ ∃ a, x = of a ∧ domain a ∧ f a = c := by
  obtain ⟨value?⟩ := x
  cases value? <;> simp [lift, of]

theorem lift₂_eq_of_iff :
    lift₂ domain₂ g x y = of c ↔
      ∃ a b, x = of a ∧ y = of b ∧ domain₂ a b ∧ g a b = c := by
  obtain ⟨value?⟩ := x
  obtain ⟨other?⟩ := y
  cases value? <;> cases other? <;> simp [lift₂, of]

theorem lift_of
    (h : domain a) :
    lift domain f (of a) = of (f a) :=
  lift_eq_of_iff.2 ⟨a, rfl, h, rfl⟩

theorem lift₂_of
    (h : domain₂ a b) :
    lift₂ domain₂ g (of a) (of b) = of (g a b) :=
  lift₂_eq_of_iff.2 ⟨a, b, rfl, rfl, h, rfl⟩

end Lifting

variable [Threshold]

noncomputable instance scalar : Scalar PartialReal where
  add := lift₂ (fun _ _ => True) (· + ·)
  sub := lift₂ (fun _ _ => True) (· - ·)
  mul := lift₂ (fun _ _ => True) (· * ·)
  div := lift₂ (fun _ b => b ≠ 0) (· / ·)
  neg := lift (fun _ => True) (- ·)
  lt x y := ∃ a ∈ x.value?, ∃ b ∈ y.value?, a < b
  le x y := ∃ a ∈ x.value?, ∃ b ∈ y.value?, a ≤ b
  toString _ := "real"
  ofNat n := of n
  pi := of Real.pi
  inverse := lift (· ≠ 0) (·⁻¹)
  sqrt := lift (0 ≤ ·) Real.sqrt
  exp := lift (fun _ => True) Real.exp
  sin := lift (fun _ => True) Real.sin
  cos := lift (fun _ => True) Real.cos
  tan := lift (fun a => a + a ∈ Set.Ioo (-Real.pi) Real.pi) Real.tan
  atan := lift (fun _ => True) Real.arctan
  atan2 := lift₂ (fun _ _ => True) fun y x => Complex.arg ⟨x, y⟩
  operand := .ok
  round _ x := x
  tiny := lift (fun _ => True) fun _ => Threshold.value
  epsilon format := of (Scalar.epsilon format)
  decidableLT _ _ := Classical.propDecidable _
  decidableLE _ _ := Classical.propDecidable _

instance unrounded : Unrounded PartialReal :=
  ⟨fun _ _ => rfl⟩

section Operations

variable (a b : ℝ)

@[simp] theorem of_zero : (0 : PartialReal) = of 0 :=
  congrArg of Nat.cast_zero

@[simp] theorem of_one : (1 : PartialReal) = of 1 :=
  congrArg of Nat.cast_one

theorem of_ofNat
    (n : ℕ) [n.AtLeastTwo] :
    (ofNat(n) : PartialReal) = of (OfNat.ofNat n) :=
  rfl

@[simp] theorem of_pi : (Scalar.pi : PartialReal) = of Real.pi :=
  rfl

@[simp] theorem of_add :
    of a + of b = of (a + b) :=
  lift₂_of trivial

@[simp] theorem of_sub :
    of a - of b = of (a - b) :=
  lift₂_of trivial

@[simp] theorem of_mul :
    of a * of b = of (a * b) :=
  lift₂_of trivial

@[simp] theorem of_neg :
    -of a = of (-a) :=
  lift_of trivial

@[simp] theorem of_exp :
    Scalar.exp (of a) = of (Real.exp a) :=
  lift_of trivial

@[simp] theorem of_sin :
    Scalar.sin (of a) = of (Real.sin a) :=
  lift_of trivial

@[simp] theorem of_cos :
    Scalar.cos (of a) = of (Real.cos a) :=
  lift_of trivial

@[simp] theorem of_atan :
    Scalar.atan (of a) = of (Real.arctan a) :=
  lift_of trivial

@[simp] theorem of_atan2 :
    Scalar.atan2 (of a) (of b) = of (Complex.arg ⟨b, a⟩) :=
  lift₂_of (g := fun y x => Complex.arg ⟨x, y⟩) trivial

@[simp] theorem of_tiny :
    Scalar.tiny (of a) = of Threshold.value :=
  lift_of trivial

@[simp] theorem of_lt :
    of a < of b ↔ a < b := by
  change (∃ a' ∈ (of a).value?, ∃ b' ∈ (of b).value?, a' < b') ↔ _
  simp [of]

@[simp] theorem of_le :
    of a ≤ of b ↔ a ≤ b := by
  change (∃ a' ∈ (of a).value?, ∃ b' ∈ (of b).value?, a' ≤ b') ↔ _
  simp [of]

variable {a b} {x y : PartialReal} {c : ℝ}

/-- A defined quotient has a divisor other than zero. -/
theorem div_eq_of_iff :
    x / y = of c ↔ ∃ a b, x = of a ∧ y = of b ∧ b ≠ 0 ∧ a / b = c :=
  lift₂_eq_of_iff

/-- A defined tangent is that of an angle between two right angles. -/
theorem tan_eq_of_iff :
    Scalar.tan x = of c ↔
      ∃ a, x = of a ∧ a ∈ Set.Ioo (-(Real.pi / 2)) (Real.pi / 2) ∧ Real.tan a = c := by
  have hdomain : ∀ a : ℝ,
      a ∈ Set.Ioo (-(Real.pi / 2)) (Real.pi / 2) ↔ a + a ∈ Set.Ioo (-Real.pi) Real.pi := by
    intro a
    simp only [Set.mem_Ioo]
    constructor
    · rintro ⟨hleft, hright⟩
      exact ⟨by linarith, by linarith⟩
    · rintro ⟨hleft, hright⟩
      exact ⟨by linarith, by linarith⟩
  simp only [hdomain]
  exact lift_eq_of_iff

theorem of_div
    (h : b ≠ 0) :
    of a / of b = of (a / b) :=
  div_eq_of_iff.2 ⟨a, b, rfl, rfl, h, rfl⟩

theorem of_sqrt
    (h : 0 ≤ a) :
    Scalar.sqrt (of a) = of √a :=
  lift_of h

theorem of_tan
    (h : a ∈ Set.Ioo (-(Real.pi / 2)) (Real.pi / 2)) :
    Scalar.tan (of a) = of (Real.tan a) :=
  tan_eq_of_iff.2 ⟨a, rfl, h, rfl⟩

end Operations

section Derived

variable (a b : ℝ)

@[simp] theorem of_half : (Scalar.half : PartialReal) = of (1 / 2) := by
  unfold Scalar.half
  rw [of_one, of_ofNat, of_div two_ne_zero]

@[simp] theorem of_square :
    Scalar.square (of a) = of (a ^ 2) := by
  rw [Scalar.square, of_mul, pow_two]

@[simp] theorem of_cube :
    Scalar.cube (of a) = of (a ^ 3) := by
  rw [Scalar.cube, of_mul, of_mul, pow_three']

@[simp] theorem of_atMost :
    Scalar.atMost (of a) (of b) = of (min a b) := by
  rw [← Exact.atMost_eq_min]
  unfold Scalar.atMost
  rw [apply_ite of]
  exact if_congr (of_lt a b) rfl rfl

@[simp] theorem isZero_of :
    Scalar.IsZero (of a) ↔ Scalar.IsZero a := by
  unfold Scalar.IsZero
  rw [of_zero, of_le, of_le, Exact.ofNat_zero]

theorem one_mul_eq
    (x : PartialReal) :
    1 * x = x := by
  obtain ⟨value?⟩ := x
  rw [of_one]
  cases value? with
  | none =>
      rfl
  | some a =>
      change of 1 * of a = of a
      rw [of_mul, one_mul]

end Derived

end PartialReal

end ConvexContact
