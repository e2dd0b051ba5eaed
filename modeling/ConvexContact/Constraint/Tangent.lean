import ConvexContact.Constraint.Evaluation
import ConvexContact.Scalar.Dual

/-!
# Directional derivatives of a contact

The evaluations of a frictional contact are repeated with dual numbers: every operand is given
with a tangent, and the tangents of the results are read off.  The tangent of a tensor is zero if
it is not given, and has the shape of the tensor otherwise; a parameter without one is constant.
-/

namespace ConvexContact

namespace Tensor

variable {α : Type} [Scalar α]

/-- A tensor that varies in the direction of a second one. -/
def varying (x dx : Tensor α) : Tensor (Dual α) :=
  Tensor.ofEntries x.format x.shape
    (List.zipWith (fun a b => ⟨a, some b⟩) x.entries (dx.cast x.format).entries)

/-- A tensor with the direction in which it varies, if that is of the same shape. -/
def dual (x : Tensor α) (dx? : Option (Tensor α)) : Except Error (Tensor (Dual α)) :=
  match dx? with
  | none => .ok (x.varying (x.map fun _ => 0))
  | some dx => if dx.shape = x.shape then .ok (x.varying dx) else .error .operands

/-- The direction in which a tensor varies. -/
def tangent (x : Tensor (Dual α)) : Tensor α :=
  x.map Dual.tangent

end Tensor

namespace Constraint

variable {α : Type} [Scalar α]

/-- Tangents of the numbers that fix a contact; those that are not given do not vary. -/
structure Tangents (α : Type) where
  friction? : Option α
  stiffness? : Option α
  dissipation? : Option α
  gap? : Option α

/-- The constraint with varying parameters. -/
def vary (c : Constraint α) (d : Tangents α) : Constraint (Dual α) :=
  let fixed := c.map Dual.const
  match c.law with
  | .frictionCone p gap =>
      { fixed with
        law := .frictionCone
          { p.map Dual.const with
            friction := ⟨p.friction, d.friction?⟩
            stiffness := ⟨p.stiffness, d.stiffness?⟩
            dissipation := ⟨p.dissipation, d.dissipation?⟩ }
          ⟨gap, d.gap?⟩ }
  | .unrestricted => fixed

/-- Tangents of the projected impulse and of the cost. -/
def projectionTangent (c : Constraint α) (friction? : Option α) (y R : Tensor α)
    (dy? dR? : Option (Tensor α)) : Except Error (Tensor α × Tensor α) := do
  let c := c.vary ⟨friction?, none, none, none⟩
  let y ← y.dual dy?
  let R ← R.dual dR?
  let (gamma, _) ← c.projectTensor y R
  let cost ← c.costTensor y R
  .ok (gamma.tangent, cost.tangent)

/-- The varying regularization.  Where the compliance of a contact varies it is an entry of a
tensor, so that a contact which is infinitely compliant is not refused. -/
def varyingRegularization (c : Constraint (Dual α)) (varies : Bool) (timeStep : Dual α)
    (w : Tensor (Dual α)) : Except Error (Tensor (Dual α)) :=
  match c.law, varies with
  | .frictionCone p _, true => .ok (diagonalTensor c.format p timeStep w)
  | _, _ => c.regularizationTensor timeStep w

/-- Tangents of the bias and of the regularization. -/
def setupTangent (c : Constraint α) (d : Tangents α) (timeStep : α) (w : Tensor α)
    (dw? : Option (Tensor α)) : Except Error (Tensor α × Tensor α) := do
  let c := c.vary d
  let timeStep := Dual.const timeStep
  let varies := d.stiffness?.isSome || d.dissipation?.isSome
  let w ← w.dual dw?
  let R ← varyingRegularization c varies timeStep w
  .ok ((c.biasTensor timeStep).tangent, R.tangent)

end Constraint
end ConvexContact
