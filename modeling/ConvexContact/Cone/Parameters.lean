import ConvexContact.Error
import ConvexContact.Scalar

/-!
# Parameters of a friction cone

The impulse of a frictional contact lies in the cone of those vectors whose tangential part is at
most `friction` times the normal part.  Beside the opening of the cone, a contact has a stiffness
and a dissipation time that fix its compliance, two factors that bound the regularization by the
inertia felt at the contact, and the angular width over which the boundaries between the regimes
of the projection are smoothed.
-/

namespace ConvexContact

/-- Parameters of a frictional contact. -/
structure ConeParameters (α : Type) where
  friction : α
  stiffness : α
  /-- Time scale of the dissipation. -/
  dissipation : α
  /-- Factor of the least normal regularization. -/
  beta : α
  /-- Factor of the tangential regularization. -/
  sigma : α
  /-- Width of the smoothed angular bands; zero stands for the exact projection. -/
  width : α

namespace ConeParameters

variable {α β : Type}

/-- Every parameter changed. -/
def map (f : α → β) (p : ConeParameters α) : ConeParameters β :=
  ⟨f p.friction, f p.stiffness, f p.dissipation, f p.beta, f p.sigma, f p.width⟩

variable [Scalar α]

/-- Parameters of a contact of which only the material is given. -/
def ofMaterial (friction stiffness dissipation : α) : ConeParameters α :=
  ⟨friction, stiffness, dissipation, 1, 1 / 1000, 1 / 50⟩

/-- The first parameter that is out of its range, with its value. -/
def flaw? (p : ConeParameters α) : Option (ParameterFlaw × α) :=
  if p.friction < 0 then some (.negativeFriction, p.friction)
  else if p.stiffness ≤ 0 then some (.stiffnessNotPositive, p.stiffness)
  else if p.dissipation < 0 then some (.negativeDissipation, p.dissipation)
  else if p.beta ≤ 0 then some (.betaNotPositive, p.beta)
  else if p.sigma ≤ 0 then some (.sigmaNotPositive, p.sigma)
  else if 0 ≤ p.width ∧ p.width < Scalar.pi / 8 then none
  else some (.widthOutOfRange, p.width)

/-- The parameters themselves, if all of them are in their ranges. -/
def validate (p : ConeParameters α) : Except Error (ConeParameters α) :=
  match p.flaw? with
  | some (flaw, value) => .error (.parameter flaw (toString value))
  | none => .ok p

/-- The reciprocal of the regularization by the compliance of the contact. -/
def hardness (p : ConeParameters α) (timeStep : α) : α :=
  timeStep * p.stiffness * (timeStep + p.dissipation)

/-- Tangential and normal regularization for an inertia `w` felt at the contact: the tangential
one is proportional to it, and the normal one is that of the compliance but at least the one of a
nearly rigid contact. -/
def diagonal (p : ConeParameters α) (timeStep w : α) : α × α :=
  let rigid := p.beta * p.beta / (4 * Scalar.pi * Scalar.pi) * w
  (p.sigma * w, Scalar.larger rigid (Scalar.inverse (p.hardness timeStep)))

/-- The regularization, if its parameters can be computed with and the contact is not infinitely
compliant. -/
def regularization (p : ConeParameters α) (timeStep w : α) : Except Error (α × α) := do
  let _ ← Scalar.operand p.beta
  let _ ← Scalar.operand timeStep
  let _ ← Scalar.operand p.stiffness
  let _ ← Scalar.operand p.dissipation
  if Scalar.IsZero (p.hardness timeStep) then .error .zeroDivision
  else do
    let _ ← Scalar.operand p.sigma
    .ok (p.diagonal timeStep w)

/-- Normal velocity towards which a contact with the given gap is driven. -/
def normalBias (p : ConeParameters α) (timeStep gap : α) : α :=
  -gap / (timeStep + p.dissipation)

end ConeParameters

end ConvexContact
