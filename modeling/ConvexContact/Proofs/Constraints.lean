import Mathlib
import ConvexContact.Proofs.Problems

/-!
# Evaluating a constraint in exact arithmetic

A constraint that passed its checks is never refused when it is evaluated on vectors with one entry
for each of its equations.  This module says so for the regularization, the impulse with its
derivative, and the cost, and records the sizes of the results.
-/

namespace ConvexContact

namespace ContactVector

/-- Three coordinates are those of a contact. -/
theorem exists_toList
    {y : List ℝ}
    (h : y.length = 3) :
    ∃ z : ContactVector ℝ, y = z.toList := by
  match y, h with
  | [a, b, c], _ => exact ⟨⟨a, b, c⟩, rfl⟩

end ContactVector

namespace Constraint

variable [Threshold]
variable {c : Constraint ℝ} {timeStep w : ℝ} {y R : List ℝ}

/-- The diagonal regularization, for an inertia felt at the constraint. -/
noncomputable def diagonalAt (c : Constraint ℝ) (timeStep w : ℝ) : List ℝ :=
  match c.law with
  | .frictionCone parameters _ =>
      let d := parameters.diagonal timeStep w
      [d.1, d.1, d.2]
  | .unrestricted => List.replicate c.numEquations w

namespace Proper

theorem hardness_pos
    {parameters : ConeParameters ℝ}
    (h : parameters.flaw? = none)
    (htime : 0 < timeStep) :
    0 < parameters.hardness timeStep := by
  obtain ⟨-, hstiffness, hdissipation, -⟩ := parameters.flaw?_eq_none_iff.1 h
  have hsum : 0 < timeStep + parameters.dissipation := by
    linarith
  exact mul_pos (mul_pos htime hstiffness) hsum

/-- The regularization is not refused. -/
theorem regularization_eq
    (hc : c.Proper)
    (htime : 0 < timeStep)
    (w : ℝ) :
    c.regularization timeStep w = .ok (c.diagonalAt timeStep w) := by
  unfold regularization diagonalAt
  cases hlaw : c.law with
  | frictionCone parameters gap =>
      have hhardness := hardness_pos (hc.flaw?_eq_none parameters gap hlaw) htime
      have hregularization :
          parameters.regularization timeStep w = .ok (parameters.diagonal timeStep w) := by
        unfold ConeParameters.regularization
        simp only [Exact.operand_eq, Outcome.ok_bind, Exact.isZero_iff]
        rw [if_neg hhardness.ne']
      dsimp only
      rw [hregularization]
      rfl
  | unrestricted =>
      rfl

theorem length_diagonalAt
    (hc : c.Proper)
    (timeStep w : ℝ) :
    (c.diagonalAt timeStep w).length = c.numEquations := by
  unfold diagonalAt
  cases hlaw : c.law with
  | frictionCone parameters gap =>
      exact (hc.numEquations_eq parameters gap hlaw).symm
  | unrestricted =>
      exact List.length_replicate

theorem length_bias
    (hc : c.Proper)
    (timeStep : ℝ) :
    (c.bias timeStep).length = c.numEquations := by
  unfold bias
  cases hlaw : c.law with
  | frictionCone parameters gap =>
      exact (hc.numEquations_eq parameters gap hlaw).symm
  | unrestricted =>
      exact Vec.length_zero _

/-- The projection is not refused. -/
theorem project_eq_ok
    (hc : c.Proper)
    (format : Format)
    (hy : y.length = c.numEquations)
    (hR : R.length = c.numEquations) :
    ∃ γ D, c.project format y R = .ok (γ, D) ∧ c.impulse y R = .ok γ ∧
      γ.length = c.numEquations ∧ D.numRows = c.numEquations ∧ D.numCols = c.numEquations := by
  unfold project impulse
  cases hlaw : c.law with
  | frictionCone parameters gap =>
      have hthree := hc.numEquations_eq parameters gap hlaw
      rw [hthree] at hy hR ⊢
      obtain ⟨y, rfl⟩ := ContactVector.exists_toList hy
      obtain ⟨R, rfl⟩ := ContactVector.exists_toList hR
      exact ⟨_, _, parameters.project_eq format y R, parameters.impulse_eq y R, rfl,
        DenseMatrix.numRows_tabulate _ _ _ _, rfl⟩
  | unrestricted =>
      refine ⟨y, _, rfl, rfl, hy, ?_, hy⟩
      rw [DenseMatrix.identity, DenseMatrix.numRows_tabulate, hy]

theorem impulse_eq_ok
    (hc : c.Proper)
    (hy : y.length = c.numEquations)
    (hR : R.length = c.numEquations) :
    ∃ γ, c.impulse y R = .ok γ ∧ γ.length = c.numEquations := by
  obtain ⟨γ, -, -, himpulse, hlength, -⟩ := hc.project_eq_ok .double hy hR
  exact ⟨γ, himpulse, hlength⟩

/-- The cost is not refused. -/
theorem cost_eq_ok
    (hc : c.Proper)
    (hy : y.length = c.numEquations)
    (hR : R.length = c.numEquations) :
    ∃ a, c.cost y R = .ok a := by
  unfold cost
  cases hlaw : c.law with
  | frictionCone parameters gap =>
      have hthree := hc.numEquations_eq parameters gap hlaw
      rw [hthree] at hy hR
      obtain ⟨y, rfl⟩ := ContactVector.exists_toList hy
      obtain ⟨R, rfl⟩ := ContactVector.exists_toList hR
      exact ⟨_, parameters.cost_eq y R⟩
  | unrestricted =>
      refine ⟨Scalar.half * Vec.dot y (List.zipWith (· * ·) R y), ?_⟩
      dsimp only
      unfold exactCost
      rw [Vec.broadcast_of_length_eq _ (hR.trans hy.symm), Outcome.ok_bind, Vec.dot?, if_pos]
      · rfl
      · rw [List.length_zipWith, hR, hy, Nat.min_self]

end Proper

end Constraint
end ConvexContact
