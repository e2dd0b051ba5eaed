import ConvexContact.ContactFrame
import ConvexContact.ContactProblem

/-!
# Scenes

This module puts bodies and point contacts into contact problems.  All tensors are brought to the
format of the scene.

**Bodies.**  The mass of a body is a single number, the diagonal of its dynamics matrix, or the
matrix itself.

**Point contacts.**  The velocity of a contact is that of the second body relative to the first
one, in the frame of the normal, which points from the first body to the second.  A contact with a
single body takes that body as the second one.

**The colliding pair.**  Two bodies with one velocity each move along a common normal and meet in
one contact.
-/

namespace ConvexContact

/-- A contact at a point of one or two bodies. -/
structure PointContact (α : Type) where
  clique : Int
  /-- Velocity of the contact point in world coordinates, by the velocities of the body. -/
  jacobian : Tensor α
  normal : Tensor α
  gap : Tensor α
  second? : Option Int
  secondJacobian? : Option (Tensor α)

/-- A body with its free motion. -/
structure Body (α : Type) where
  mass : Tensor α
  freeVelocity : Tensor α

/-- Two bodies that move along a normal.  A description of them is read step by step, when the
bodies and the gap are needed. -/
structure CollidingPair (α : Type) where
  body : Nat → Except Error (Body α)
  gap : Except Error (Tensor α)

namespace CollidingPair

/-- The pair whose bodies are the first ones of two lists. -/
def ofLists {α : Type} (masses freeVelocities : List (Tensor α)) (gap : Tensor α) :
    CollidingPair α where
  body i := do
    let mass ← entryAt? masses i
    let velocity ← entryAt? freeVelocities i
    .ok ⟨mass, velocity⟩
  gap := .ok gap

end CollidingPair

namespace Scene

variable {α : Type} [Scalar α]

/-- The dynamics matrix of a body. -/
def dynamicsOfMass (format : Format) (mass : Tensor α) : Tensor α :=
  let mass := mass.cast format
  match mass.shape with
  | [] => Tensor.ofEntries format [1, 1] mass.entries
  | [_] => Tensor.ofMatrix (DenseMatrix.diagonal format mass.entries)
  | _ => mass

/-- Adds a body to a problem; the result has its position. -/
def addBody (format : Format) (p : ContactProblem α) (mass freeVelocity : Tensor α) :
    Except Error (Nat × ContactProblem α) :=
  p.addClique (dynamicsOfMass format mass)
    (Tensor.ofVec format (freeVelocity.cast format).entries)

/-- The constraint of a point contact. -/
def contactConstraint (format : Format) (parameters : ConeParameters α)
    (contact : PointContact α) : Except Error (Constraint α) := do
  let R ← ContactFrame.ofNormal (contact.normal.cast format)
  let gap := contact.gap.cast format
  let J ← ContactFrame.jacobian R contact.jacobian
  match contact.second?, contact.secondJacobian? with
  | none, _ => Constraint.ofContact parameters gap contact.clique (Tensor.ofMatrix J) none none
  | some _, none => .error .wrongType
  | some second, some J' => do
      let J' ← ContactFrame.jacobian R J'
      Constraint.ofContact parameters gap contact.clique (Tensor.ofMatrix J.neg)
        (some second) (some (Tensor.ofMatrix J'))

/-- The contact of a colliding pair. -/
def pairContact (format : Format) (first second : Nat) (gap : Tensor α) : PointContact α where
  clique := first
  jacobian := Tensor.ofEntries format [3, 1] [0, 0, 1]
  normal := Tensor.ofVec format [0, 0, 1]
  gap := gap
  second? := some second
  secondJacobian? := some (Tensor.ofEntries format [3, 1] [0, 0, 1])

/-- Adds a body of a colliding pair. -/
def addPairBody (format : Format) (pair : CollidingPair α) (i : Nat) (p : ContactProblem α) :
    Except Error (Nat × ContactProblem α) := do
  let b ← pair.body i
  addBody format p b.mass b.freeVelocity

/-- The problem of a colliding pair; the parameters of its contact are needed after the bodies.
The contact is held under the given handle. -/
def collidingPair (format : Format) (timeStep : α) (parameters : Except Error (ConeParameters α))
    (pair : CollidingPair α) (ids : IdTable) (handle : Nat) :
    Except Error (ContactProblem α × IdTable) := do
  let p ← ContactProblem.ofTimeStep timeStep
  let (first, p) ← addPairBody format pair 0 p
  let (second, p) ← addPairBody format pair 1 p
  let parameters ← parameters
  let gap ← pair.gap
  let c ← contactConstraint format parameters (pairContact format first second gap)
  let (_, p, ids) ← p.addConstraint ids ⟨handle, c⟩
  .ok (p, ids)

end Scene
end ConvexContact
