import ConvexContact.Cone.Parameters
import ConvexContact.Cone.Profile

/-!
# Potential of the projection onto a friction cone

**Input.**  An impulse in scaled coordinates, in which the distance to be minimised is the
Euclidean one, and the quotient of tangential and normal regularization, which fixes the opening
of the cone in these coordinates.

**Regimes.**  The impulse is negligible; or there is no friction and the contact is compressed or
released; or the impulse sticks (it lies in the cone), slides (it is moved to the cone), or is
separated (it lies in the polar cone).

**Results.**  The value of the potential, its gradient, which is the projected impulse, and its
second derivative.  The gradient of a sliding impulse is computed in the plane that it spans with
the normal.
-/

namespace ConvexContact

open Scalar

/-- Coordinates of a contact: two tangential ones and the normal one. -/
structure ContactVector (α : Type) where
  t₁ : α
  t₂ : α
  n : α

namespace ContactVector

variable {α : Type}

/-- The coordinates as a list. -/
def toList (z : ContactVector α) : List α :=
  [z.t₁, z.t₂, z.n]

variable [Scalar α]

/-- Length of the tangential part. -/
def tangentialNorm (z : ContactVector α) : α :=
  let squared := z.t₁ * z.t₁ + z.t₂ * z.t₂
  if 0 < squared then sqrt squared else squared

/-- Squared length. -/
def normSquared (z : ContactVector α) : α :=
  z.tangentialNorm * z.tangentialNorm + z.n * z.n

def smul (c : α) (z : ContactVector α) : ContactVector α :=
  ⟨c * z.t₁, c * z.t₂, c * z.n⟩

end ContactVector

/-- A symmetric matrix in the coordinates of a contact. -/
structure ContactMatrix (α : Type) where
  t₁t₁ : α
  t₁t₂ : α
  t₂t₂ : α
  t₁n : α
  t₂n : α
  nn : α

namespace ContactMatrix

variable {α : Type}

/-- The rows of the matrix. -/
def rows (H : ContactMatrix α) : List (List α) :=
  [[H.t₁t₁, H.t₁t₂, H.t₁n], [H.t₁t₂, H.t₂t₂, H.t₂n], [H.t₁n, H.t₂n, H.nn]]

variable [Scalar α]

def zero : ContactMatrix α :=
  ⟨0, 0, 0, 0, 0, 0⟩

def identity : ContactMatrix α :=
  ⟨1, 0, 1, 0, 0, 1⟩

/-- The projection to the normal coordinate. -/
def normalOnly : ContactMatrix α :=
  ⟨0, 0, 0, 0, 0, 1⟩

end ContactMatrix

/-- Regimes of a contact; a sliding one has the angle outside the cone and the widths of the two
smoothed bands. -/
inductive Regime (α : Type)
  | negligible
  | compressed
  | released
  | stick
  | slide (phi lower upper : α)
  | separated

namespace Regime

variable {α : Type} [Scalar α]

/-- Whether an impulse is too short for its direction to be used. -/
def Negligible (z : ContactVector α) : Prop :=
  z.normSquared ≤ tiny z.normSquared

instance (z : ContactVector α) : Decidable (Negligible z) :=
  inferInstanceAs (Decidable (_ ≤ _))

/-- Half the opening angle of the cone in scaled coordinates. -/
def openingAngle (p : ConeParameters α) (ratio : α) : α :=
  atan (p.friction * sqrt ratio)

/-- The regime of an impulse on a contact with friction. -/
def ofAngle (p : ConeParameters α) (ratio : α) (z : ContactVector α) : Regime α :=
  let alpha := openingAngle p ratio
  let lower := atMost p.width (half * alpha)
  let upper := atMost p.width alpha
  let phi := atan2 z.tangentialNorm z.n - alpha
  if phi ≤ -lower then stick
  else if half * pi ≤ phi then separated
  else slide phi lower upper

/-- The regime of an impulse on a contact without friction. -/
def ofSide (z : ContactVector α) : Regime α :=
  if 0 < z.n then compressed else released

/-- The regime of an impulse, where `ratio` is the quotient of tangential and normal
regularization. -/
def ofImpulse (p : ConeParameters α) (ratio : α) (z : ContactVector α) : Regime α :=
  if Negligible z then negligible
  else if IsZero p.friction then ofSide z
  else ofAngle p ratio z

/-- Quantities of a sliding impulse `z` in the plane of its tangential direction and the normal:
the gradient in polar form and the second derivative. -/
structure Polar (α : Type) where
  /-- Tangential part of the gradient of a unit impulse. -/
  g : α
  /-- Normal part of the gradient of a unit impulse. -/
  h : α
  /-- Factor of the tangential part of the impulse in the gradient. -/
  across : α
  rr : α
  rn : α
  nn : α

/-- The polar quantities of an impulse, given the profile at its angle. -/
def polar (M : Jet α) (z : ContactVector α) : Polar α :=
  let rho := sqrt z.normSquared
  let sinT := z.tangentialNorm / rho
  let cosT := z.n / rho
  let g := M.value * sinT + half * M.slope * cosT
  let h := M.value * cosT - half * M.slope * sinT
  let dg := half * M.slope * sinT + M.value * cosT + half * M.curvature * cosT
  let dh := half * M.slope * cosT - M.value * sinT - half * M.curvature * sinT
  { g := g
    h := h
    across := M.value + half * M.slope * cosT / sinT
    rr := sinT * g + cosT * dg
    rn := cosT * g - sinT * dg
    nn := cosT * h - sinT * dh }

/-- The value of the potential. -/
def cost (z : ContactVector α) : Regime α → α
  | negligible | released | separated => 0 * z.normSquared
  | compressed => half * z.n * z.n
  | stick => half * z.normSquared
  | slide phi lower upper => half * z.normSquared * (Profile.between phi lower upper).value

/-- The gradient of the potential. -/
def gradient (z : ContactVector α) : Regime α → ContactVector α
  | negligible | released | separated => z.smul 0
  | compressed => ⟨0 * z.t₁, 0 * z.t₂, z.n⟩
  | stick => z
  | slide phi lower upper =>
      let q := polar (Profile.between phi lower upper) z
      ⟨q.across * z.t₁, q.across * z.t₂, sqrt z.normSquared * q.h⟩

/-- The second derivative of the potential. -/
def hessian (z : ContactVector α) : Regime α → ContactMatrix α
  | negligible | released | separated => .zero
  | compressed => .normalOnly
  | stick => .identity
  | slide phi lower upper =>
      let q := polar (Profile.between phi lower upper) z
      let u₁ := z.t₁ / z.tangentialNorm
      let u₂ := z.t₂ / z.tangentialNorm
      { t₁t₁ := q.across + (q.rr - q.across) * (u₁ * u₁)
        t₁t₂ := (q.rr - q.across) * (u₁ * u₂)
        t₂t₂ := q.across + (q.rr - q.across) * (u₂ * u₂)
        t₁n := q.rn * u₁
        t₂n := q.rn * u₂
        nn := q.nn }

/-- Whether the gradient is a multiple of the impulse in every coordinate, further ones included:
then its factor. -/
def factor? : Regime α → Option α
  | negligible | released | separated => some 0
  | stick => some 1
  | compressed | slide .. => none

end Regime

end ConvexContact
