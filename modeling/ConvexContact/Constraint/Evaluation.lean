import ConvexContact.Constraint

/-!
# Evaluating a single constraint

The evaluations of a constraint for tensors as operands.  The regularization is brought to the
format of the impulse, and operands with other than one size are refused, except that a tensor
without sizes stands for all coordinates.
-/

namespace ConvexContact
namespace Constraint

variable {α : Type} [Scalar α]

/-- Impulse and regularization as lists, if their scaled product is a vector. -/
def coneOperands (y R : Tensor α) : Except Error (List α × List α) := do
  let R := R.cast y.format
  let z ← Tensor.zipWith (· * ·) R y
  match z.shape with
  | [] => .error .position
  | [_] => .ok (y.entries, R.entries)
  | n :: _ => if n < 3 then .error .position else .error .operands

/-- The projected impulse and its derivative. -/
def projectTensor (c : Constraint α) (y R : Tensor α) :
    Except Error (Tensor α × Tensor α) := do
  match c.law with
  | .frictionCone parameters _ => do
      let (ys, Rs) ← coneOperands y R
      let (gamma, derivative) ← parameters.project y.format ys Rs
      if R.shape.isEmpty then .error .position
      else .ok (Tensor.ofVec y.format gamma, Tensor.ofMatrix derivative)
  | .unrestricted => do
      let n ← y.leadingSize
      .ok (y, Tensor.ofMatrix (DenseMatrix.identity y.format n))

/-- The projected impulse. -/
def impulseTensor (c : Constraint α) (y R : Tensor α) : Except Error (Tensor α) := do
  match c.law with
  | .frictionCone parameters _ => do
      let (ys, Rs) ← coneOperands y R
      let gamma ← parameters.impulse ys Rs
      .ok (Tensor.ofVec y.format gamma)
  | .unrestricted => do
      let _ ← y.leadingSize
      .ok y

/-- Half the squared length of the projected impulse in the norm of the regularization. -/
def exactCostTensor (c : Constraint α) (y R : Tensor α) : Except Error (Tensor α) := do
  let (gamma, _) ← c.projectTensor y R
  let scaled ← Tensor.zipWith (· * ·) R gamma
  match gamma.vector?, scaled.vector? with
  | some g, some s =>
      if scaled.format ≠ gamma.format then .error .operands
      else do
        let squared ← Vec.dot? g s
        .ok (Tensor.ofScalar gamma.format (Scalar.half * squared))
  | _, _ => .error .operands

/-- The contribution to the cost. -/
def costTensor (c : Constraint α) (y R : Tensor α) : Except Error (Tensor α) := do
  match c.law with
  | .frictionCone parameters _ => do
      let (ys, Rs) ← coneOperands y R
      let cost ← parameters.cost ys Rs
      .ok (Tensor.ofScalar y.format cost)
  | .unrestricted => c.exactCostTensor y R

/-- The velocity to which the constraint is driven. -/
def biasTensor (c : Constraint α) (timeStep : α) : Tensor α :=
  Tensor.ofVec c.format (c.bias timeStep)

/-- The diagonal regularization of a frictional contact for the inertias in a tensor. -/
def diagonalTensor (format : Format) (p : ConeParameters α) (timeStep : α) (w : Tensor α) :
    Tensor α :=
  let pairs := (w.cast format).entries.map (p.diagonal timeStep)
  let tangential := pairs.map (·.1)
  Tensor.ofEntries format (3 :: w.shape) (tangential ++ tangential ++ pairs.map (·.2))

/-- The diagonal regularization for the inertias in a tensor. -/
def regularizationTensor (c : Constraint α) (timeStep : α) (w : Tensor α) :
    Except Error (Tensor α) := do
  match c.law with
  | .frictionCone parameters _ => do
      -- Whether the regularization is refused does not depend on the inertias.
      let _ ← parameters.regularization timeStep 0
      .ok (diagonalTensor c.format parameters timeStep w)
  | .unrestricted =>
      Tensor.zipWith (· * ·) w (Tensor.ofVec c.format (List.replicate c.numEquations 1))

end Constraint
end ConvexContact
