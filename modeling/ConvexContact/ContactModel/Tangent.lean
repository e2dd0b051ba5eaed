import ConvexContact.Constraint.Tangent
import ConvexContact.ContactModel.Evaluation

/-!
# Directional derivatives of a model

The cost of a model is evaluated at velocities that vary in a direction; the tangents of the cost,
of its gradient and of the impulses are read off.
-/

namespace ConvexContact

/-- Tangents of an evaluation. -/
structure CostTangent (α : Type) where
  cost : α
  gradient : List α
  impulses : List α

namespace ContactModel

variable {α : Type} [Scalar α]

/-- Tangents of the evaluation at `v` in direction `dv`. -/
def tangent (m : ContactModel α) (v dv : Tensor α) : Except Error (CostTangent α) := do
  let x ← v.dual (some dv)
  let e ← (m.map Dual.const).evaluateTensor x true
  .ok ⟨e.cost.tangent, e.gradient.map Dual.tangent, e.impulses.map Dual.tangent⟩

end ContactModel
end ConvexContact
