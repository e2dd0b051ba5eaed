import Mathlib
import ConvexContact.Proofs.Cone.Curvature

/-!
# Turning the tangential directions of a contact

An orthogonal matrix turns or reflects the two tangential coordinates of a contact and leaves the
normal one (`ContactVector.turned`, as a matrix `contactTurn`, for coordinates and rows in a list
`Vec.turned` and `Vec.turnedRows`).  If both tangential directions have the same regularization,
this commutes with the passage to scaled coordinates.

**Invariants.**  The lengths of an impulse, its regime, its polar quantities and the value of the
potential do not change.

**Results.**
* `ConeParameters.cost_turned`, `ConeParameters.impulse_turned`: the contact has the same cost, and
  its impulse is turned.
* `ConeParameters.dot_mulVec_blockAt_turned`: its block in the second derivative is the same
  bilinear form on turned velocities.
-/

namespace ConvexContact

/-- The tangential coordinates turned by a matrix. -/
def ContactVector.turned (Q : Matrix (Fin 2) (Fin 2) ℝ) (z : ContactVector ℝ) : ContactVector ℝ :=
  ⟨Q 0 0 * z.t₁ + Q 0 1 * z.t₂, Q 1 0 * z.t₁ + Q 1 1 * z.t₂, z.n⟩

/-- The matrix that turns the tangential coordinates of a contact and keeps the normal one. -/
def contactTurn (Q : Matrix (Fin 2) (Fin 2) ℝ) : Matrix (Fin 3) (Fin 3) ℝ :=
  !![Q 0 0, Q 0 1, 0; Q 1 0, Q 1 1, 0; 0, 0, 1]

namespace Vec

/-- The first two coordinates turned by a matrix. -/
def turned (Q : Matrix (Fin 2) (Fin 2) ℝ) : List ℝ → List ℝ
  | s :: t :: rest => (Q 0 0 * s + Q 0 1 * t) :: (Q 1 0 * s + Q 1 1 * t) :: rest
  | x => x

/-- The first two of several rows turned by a matrix. -/
def turnedRows (Q : Matrix (Fin 2) (Fin 2) ℝ) : List (List ℝ) → List (List ℝ)
  | x :: y :: rest => combine (Q 0 0) (Q 0 1) x y :: combine (Q 1 0) (Q 1 1) x y :: rest
  | rows => rows

end Vec

section Orthogonal

variable {Q : Matrix (Fin 2) (Fin 2) ℝ}

/-- The columns of an orthogonal matrix are perpendicular unit vectors. -/
theorem orthonormal_columns
    (hQ : Q ∈ Matrix.orthogonalGroup (Fin 2) ℝ) :
    Q 0 0 * Q 0 0 + Q 1 0 * Q 1 0 = 1 ∧ Q 0 1 * Q 0 1 + Q 1 1 * Q 1 1 = 1 ∧
      Q 0 0 * Q 0 1 + Q 1 0 * Q 1 1 = 0 := by
  have hentry : ∀ i j, Q 0 i * Q 0 j + Q 1 i * Q 1 j = (1 : Matrix (Fin 2) (Fin 2) ℝ) i j := by
    intro i j
    have hproduct := congrFun (congrFun ((Matrix.mem_orthogonalGroup_iff' _ _).1 hQ) i) j
    rwa [Matrix.mul_apply, Fin.sum_univ_two] at hproduct
  exact ⟨hentry 0 0, hentry 1 1, hentry 0 1⟩

/-- Inner products of tangential parts do not change. -/
theorem tangential_inner_turned
    (hQ : Q ∈ Matrix.orthogonalGroup (Fin 2) ℝ)
    (a b c d : ℝ) :
    (Q 0 0 * a + Q 0 1 * b) * (Q 0 0 * c + Q 0 1 * d) +
        (Q 1 0 * a + Q 1 1 * b) * (Q 1 0 * c + Q 1 1 * d) =
      a * c + b * d := by
  obtain ⟨hfirst, hsecond, hmixed⟩ := orthonormal_columns hQ
  linear_combination (a * c) * hfirst + (b * d) * hsecond + (a * d + b * c) * hmixed

end Orthogonal

variable [Threshold]
variable {Q : Matrix (Fin 2) (Fin 2) ℝ} (hQ : Q ∈ Matrix.orthogonalGroup (Fin 2) ℝ)

namespace ContactVector

section Scaling

variable {R : ContactVector ℝ}

omit [Threshold] in
theorem scaled_turned
    (hR : R.t₁ = R.t₂)
    (z : ContactVector ℝ) :
    (z.turned Q).scaled R = (z.scaled R).turned Q := by
  simp only [turned, scaled, hR, ContactVector.mk.injEq, and_true]
  constructor <;> ring

omit [Threshold] in
theorem unscaled_turned
    (hR : R.t₁ = R.t₂)
    (z : ContactVector ℝ) :
    (z.turned Q).unscaled R = (z.unscaled R).turned Q := by
  simp only [turned, unscaled, hR, ContactVector.mk.injEq, and_true]
  constructor <;> ring

end Scaling

include hQ

omit [Threshold] in
theorem inner_turned
    (c d : ContactVector ℝ) :
    (c.turned Q).inner (d.turned Q) = c.inner d := by
  simp only [inner, turned]
  rw [tangential_inner_turned hQ]

theorem tangentialNorm_turned
    (z : ContactVector ℝ) :
    (z.turned Q).tangentialNorm = z.tangentialNorm := by
  have hsquares := tangential_inner_turned hQ z.t₁ z.t₂ z.t₁ z.t₂
  rw [tangentialNorm_eq, tangentialNorm_eq]
  simp only [turned, sq]
  rw [hsquares]

theorem normSquared_turned
    (z : ContactVector ℝ) :
    (z.turned Q).normSquared = z.normSquared := by
  rw [normSquared_eq, normSquared_eq, tangentialNorm_turned hQ]
  rfl

end ContactVector

namespace Regime

variable {p : ConeParameters ℝ} {ratio phi lower upper : ℝ}

/-- The product with the second derivative of the potential of a sliding impulse. -/
theorem hessian_slide_apply
    (z d : ContactVector ℝ) :
    let q := polar (Profile.between phi lower upper) z
    (hessian z (.slide phi lower upper)).apply d =
      ⟨q.across * d.t₁ + ((q.rr - q.across) * along z d + q.rn * d.n) / z.tangentialNorm * z.t₁,
        q.across * d.t₂ + ((q.rr - q.across) * along z d + q.rn * d.n) / z.tangentialNorm * z.t₂,
        q.rn * along z d + q.nn * d.n⟩ := by
  simp only [hessian, ContactMatrix.apply, along, ContactVector.mk.injEq]
  refine ⟨?_, ?_, ?_⟩ <;> ring

include hQ

/-- The regime of an impulse depends on its lengths alone. -/
theorem ofImpulse_turned
    (z : ContactVector ℝ) :
    ofImpulse p ratio (z.turned Q) = ofImpulse p ratio z := by
  have hnegligible : Negligible (z.turned Q) ↔ Negligible z := by
    unfold Negligible
    rw [z.normSquared_turned hQ]
  refine ofImpulse_congr hnegligible Iff.rfl ?_
  unfold angle
  rw [z.tangentialNorm_turned hQ]
  rfl

theorem polar_turned
    (M : Jet ℝ) (z : ContactVector ℝ) :
    polar M (z.turned Q) = polar M z := by
  unfold polar
  rw [z.normSquared_turned hQ, z.tangentialNorm_turned hQ]
  rfl

theorem along_turned
    (z d : ContactVector ℝ) :
    along (z.turned Q) (d.turned Q) = along z d := by
  have hinner := tangential_inner_turned hQ z.t₁ z.t₂ d.t₁ d.t₂
  unfold along
  rw [z.tangentialNorm_turned hQ, div_mul_eq_mul_div, div_mul_eq_mul_div, ← add_div,
    div_mul_eq_mul_div, div_mul_eq_mul_div, ← add_div]
  exact congrArg (· / z.tangentialNorm) hinner

/-- The potential does not depend on the tangential direction. -/
theorem cost_turned
    (r : Regime ℝ) (z : ContactVector ℝ) :
    r.cost (z.turned Q) = r.cost z := by
  cases r <;> simp only [cost, z.normSquared_turned hQ]
  · rfl

/-- The gradient of the potential turns with the impulse. -/
theorem gradient_turned
    (r : Regime ℝ) (z : ContactVector ℝ) :
    r.gradient (z.turned Q) = (r.gradient z).turned Q := by
  cases r with
  | stick =>
      rfl
  | slide phi lower upper =>
      simp only [gradient, polar_turned hQ, z.normSquared_turned hQ]
      simp only [ContactVector.turned, ContactVector.mk.injEq, and_true]
      constructor <;> ring
  | compressed =>
      simp only [gradient, ContactVector.turned, Exact.ofNat_zero, zero_mul, mul_zero, add_zero]
  | _ =>
      simp only [gradient, ContactVector.smul, ContactVector.turned, Exact.ofNat_zero, zero_mul,
        mul_zero, add_zero]

/-- The second derivative of the potential turns with the impulse. -/
theorem hessian_turned
    (r : Regime ℝ) (z d : ContactVector ℝ) :
    (r.hessian (z.turned Q)).apply (d.turned Q) = ((r.hessian z).apply d).turned Q := by
  cases r with
  | slide phi lower upper =>
      rw [hessian_slide_apply, hessian_slide_apply]
      simp only [polar_turned hQ, along_turned hQ, z.tangentialNorm_turned hQ]
      simp only [ContactVector.turned, ContactVector.mk.injEq, and_true]
      constructor <;> ring
  | stick =>
      simp [hessian, ContactMatrix.apply, ContactMatrix.identity, ContactVector.turned]
  | compressed =>
      simp [hessian, ContactMatrix.apply, ContactMatrix.normalOnly, ContactVector.turned]
  | _ =>
      simp [hessian, ContactMatrix.apply, ContactMatrix.zero, ContactVector.turned]

end Regime

namespace ConeParameters

variable {p : ConeParameters ℝ} {R : ContactVector ℝ} (hR : R.t₁ = R.t₂)
include hQ hR

theorem regimeAt_turned
    (y : ContactVector ℝ) :
    p.regimeAt R (y.turned Q) = p.regimeAt R y := by
  unfold regimeAt
  rw [ContactVector.scaled_turned hR, Regime.ofImpulse_turned hQ]

/-- The cost of a contact does not depend on the tangential direction. -/
theorem cost_turned
    (y : ContactVector ℝ) :
    (p.regimeAt R (y.turned Q)).cost ((y.turned Q).scaled R) =
      (p.regimeAt R y).cost (y.scaled R) := by
  rw [regimeAt_turned hQ hR, ContactVector.scaled_turned hR, Regime.cost_turned hQ]

/-- The impulse of a contact turns with the impulse before the projection. -/
theorem impulse_turned
    (y : ContactVector ℝ) :
    ((p.regimeAt R (y.turned Q)).gradient ((y.turned Q).scaled R)).unscaled R =
      (((p.regimeAt R y).gradient (y.scaled R)).unscaled R).turned Q := by
  rw [regimeAt_turned hQ hR, ContactVector.scaled_turned hR, Regime.gradient_turned hQ,
    ContactVector.unscaled_turned hR]

/-- The block of a contact in the second derivative turns with the impulse before the projection. -/
theorem dot_mulVec_blockAt_turned
    (format : Format) (y c d : ContactVector ℝ) :
    Vec.dot (c.turned Q).toList ((p.blockAt format R (y.turned Q)).mulVec (d.turned Q).toList) =
      Vec.dot c.toList ((p.blockAt format R y).mulVec d.toList) := by
  rw [inner_mulVec_blockAt, inner_mulVec_blockAt, regimeAt_turned hQ hR,
    ContactVector.scaled_turned hR, ContactVector.unscaled_turned hR,
    ContactVector.unscaled_turned hR, Regime.hessian_turned hQ, ContactVector.inner_turned hQ]

end ConeParameters
end ConvexContact
