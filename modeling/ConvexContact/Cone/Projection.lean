import ConvexContact.Cone.Potential
import ConvexContact.Linear.DenseMatrix

/-!
# Projection onto a friction cone

**Input.**  An unprojected impulse `y` and the diagonal regularization `R`, as lists of equal size
or with a single entry that stands for all.

**Results.**  With `z = R^(1/2) y` and the potential of `z`: the projected impulse
`R^(-1/2) gradient`, its derivative `R^(-1/2) hessian R^(1/2)` by `y`, and the value of the
potential, whose gradient along the contact velocity is the negative impulse.
-/

namespace ConvexContact
namespace ConeParameters

variable {α : Type} [Scalar α]

/-- An impulse on its way to the cone: the square roots of the regularization, the scaled impulse
in full and in contact coordinates, and its regime. -/
structure Scaled (α : Type) where
  roots : List α
  full : List α
  contact : ContactVector α
  regime : Regime α

/-- The regime of a scaled impulse; the entries of the regularization are looked at only where the
opening of the cone is needed. -/
def regimeOf (p : ConeParameters α) (R : List α) (z : ContactVector α) :
    Except Error (Regime α) :=
  if Regime.Negligible z then .ok .negligible
  else if Scalar.IsZero p.friction then .ok (Regime.ofSide z)
  else do
    let _ ← Scalar.operand p.friction
    match R with
    | tangential :: _ :: normal :: _ => do
        let _ ← Scalar.operand p.width
        .ok (Regime.ofAngle p (tangential / normal) z)
    | _ => .error .position

/-- The scaled impulse with its regime. -/
def scale (p : ConeParameters α) (y R : List α) : Except Error (Scaled α) := do
  let roots := R.map Scalar.sqrt
  let full ← Vec.broadcast (· * ·) roots y
  match full with
  | t₁ :: t₂ :: n :: _ => do
      let contact : ContactVector α := ⟨t₁, t₂, n⟩
      let regime ← p.regimeOf R contact
      .ok ⟨roots, full, contact, regime⟩
  | _ => .error .position

/-- The gradient of the potential as a list. -/
def Scaled.gradient (s : Scaled α) : List α :=
  match s.regime.factor? with
  | some c => s.full.map (c * ·)
  | none => (s.regime.gradient s.contact).toList

/-- The projected impulse. -/
def Scaled.impulse (s : Scaled α) : Except Error (List α) :=
  Vec.broadcast (· / ·) s.gradient s.roots

/-- The derivative of the projected impulse. -/
def Scaled.derivative (s : Scaled α) (format : Format) : Except Error (DenseMatrix α) :=
  let H := (s.regime.hessian s.contact).rows
  let entry (i j : Nat) : α := (H.getD i []).getD j 0
  match s.roots with
  | [r] => .ok (DenseMatrix.tabulate format 3 3 fun i j => entry i j * r / r)
  | [r₀, r₁, r₂] =>
      let root (i : Nat) : α := [r₀, r₁, r₂].getD i 0
      .ok (DenseMatrix.tabulate format 3 3 fun i j => entry i j * root j / root i)
  | _ => .error .operands

/-- The projected impulse of `y`. -/
def impulse (p : ConeParameters α) (y R : List α) : Except Error (List α) := do
  let s ← p.scale y R
  s.impulse

/-- The projected impulse of `y` and its derivative. -/
def project (p : ConeParameters α) (format : Format) (y R : List α) :
    Except Error (List α × DenseMatrix α) := do
  let s ← p.scale y R
  let gamma ← s.impulse
  let derivative ← s.derivative format
  .ok (gamma, derivative)

/-- The value of the potential at `y`. -/
def cost (p : ConeParameters α) (y R : List α) : Except Error α := do
  let s ← p.scale y R
  .ok (s.regime.cost s.contact)

end ConeParameters
end ConvexContact
