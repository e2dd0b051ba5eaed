import ConvexContact.ConstraintBundle.Evaluation
import ConvexContact.ContactModel
import ConvexContact.PartialPermutation.Rows

/-!
# Evaluating a model for tensors

The evaluations of a contact model for tensors as operands.  All numbers of the model are brought
to the format of the operand.  Each evaluation refuses velocities of the wrong size in its own
words; the difference to the free motion is taken first where it is needed, with a single velocity
standing for all of them.
-/

namespace ConvexContact
namespace ContactModel

variable {α : Type} [Scalar α]

/-- The free motion of the participating velocities. -/
def freeVelocityTensor (m : ContactModel α) : Tensor α :=
  Tensor.ofVec m.format m.freeVelocity

/-- `A v`. -/
def dynamicsTimesTensor (m : ContactModel α) (v : Tensor α) : Except Error (Tensor α) := do
  let n ← v.leadingSize
  if n ≠ m.numVelocities then .error (.velocityCountMismatch m.numVelocities n)
  else
    let m := m.cast v.format
    match v.vector? with
    | some xs => .ok (Tensor.ofVec v.format (m.dynamicsTimes xs))
    | none => do
        let starts := blockStarts 0 (m.dynamics.map (·.numRows))
        let parts ← (m.dynamics.zip starts).mapM fun (A, start) =>
          Tensor.matMul A (v.interval start A.numRows)
        if parts.isEmpty then .ok (Tensor.ofVec v.format []) else Tensor.concat parts

/-- The difference to the free motion. -/
def motionTensor (m : ContactModel α) (v : Tensor α) : Except Error (Tensor α) :=
  Tensor.zipWith (· - ·) v (m.freeVelocityTensor.cast v.format)

/-- `A (v - v*)`. -/
def momentumGainTensor (m : ContactModel α) (v : Tensor α) : Except Error (Tensor α) := do
  let motion ← m.motionTensor v
  m.dynamicsTimesTensor motion

/-- `½ (v - v*)ᵀ A (v - v*)`. -/
def momentumCostTensor (m : ContactModel α) (v : Tensor α) : Except Error (Tensor α) := do
  let motion ← m.motionTensor v
  let gain ← m.dynamicsTimesTensor motion
  match motion.vector?, gain.vector? with
  | some d, some g => do
      let squared ← Vec.dot? d g
      .ok (Tensor.ofScalar v.format (Scalar.half * squared))
  | _, _ => .error .operands

/-- The free motion `A v*` as momentum. -/
def freeMomentumTensor (m : ContactModel α) : Except Error (Tensor α) :=
  m.dynamicsTimesTensor m.freeVelocityTensor

/-- The participating velocities among all velocities. -/
def participatingTensor (m : ContactModel α) (v : Tensor α) : Except Error (Tensor α) :=
  m.velocitiesPermutation.apply v

/-- All velocities, where cliques that do not participate move freely. -/
def expandTensor (m : ContactModel α) (v : Tensor α) : Except Error (Tensor α) :=
  m.velocitiesPermutation.applyInverse v (some (Tensor.ofVec v.format m.fullFreeVelocity))

/-- `J v`. -/
def constraintVelocitiesTensor (m : ContactModel α) (v : Tensor α) : Except Error (Tensor α) :=
  m.bundle.jacobian.multiply v

/-- Projected impulses in edge order. -/
def edgeImpulsesTensor (m : ContactModel α) (v : Tensor α) : Except Error (Tensor α) := do
  let velocities ← m.constraintVelocitiesTensor v
  let y ← m.bundle.unprojectedTensor velocities
  m.bundle.impulsesTensor y

/-- Projected impulses in the order of the problem. -/
def impulsesTensor (m : ContactModel α) (v : Tensor α) : Except Error (Tensor α) := do
  let gamma ← m.edgeImpulsesTensor v
  m.bundle.equationsPermutation.applyInverse gamma none

/-- `Jᵀ γ` for the projected impulses. -/
def generalizedImpulsesTensor (m : ContactModel α) (v : Tensor α) : Except Error (Tensor α) := do
  let gamma ← m.edgeImpulsesTensor v
  m.bundle.jacobian.multiplyTranspose gamma

/-- The coordinates of participating velocities. -/
def velocityOperand (m : ContactModel α) (v : Tensor α) : Except Error (List α) := do
  let n ← v.leadingSize
  if n ≠ m.numVelocities then .error (.velocityCountMismatch m.numVelocities n)
  else match v.vector? with
    | some xs => .ok xs
    | none => .error .operands

/-- The cost and its gradient. -/
def evaluateTensor (m : ContactModel α) (v : Tensor α) (withDerivatives : Bool) :
    Except Error (CostEvaluation α) := do
  let xs ← m.velocityOperand v
  (m.cast v.format).evaluate xs withDerivatives

/-- The second derivative of the cost.  An evaluation with derivatives of the projections is taken
as it is; the velocities are looked at only without one. -/
def hessianTensor (m : ContactModel α) (v : Tensor α)
    (evaluation? : Option (CostEvaluation α)) : Except Error (DenseMatrix α) :=
  match evaluation?.bind (·.derivatives?) with
  | some derivatives => .ok ((m.cast v.format).hessianOf derivatives)
  | none => do
      let xs ← m.velocityOperand v
      (m.cast v.format).hessian xs none

end ContactModel
end ConvexContact
