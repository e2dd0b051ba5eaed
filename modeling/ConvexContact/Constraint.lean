import ConvexContact.Cone.Projection
import ConvexContact.Tensor

/-!
# Constraints

A constraint acts on one or two cliques.  Each clique contributes a Jacobian block, and the
constraint velocity is the sum of the products of the blocks with the clique velocities.

**Laws.**  A frictional contact projects its impulse onto a friction cone and is regularized
according to its parameters.  An unrestricted constraint leaves its impulse as it is; its
regularization is the inertia felt at the constraint.

**Evaluation.**  Velocity bias, diagonal regularization, projected impulse, its derivative, and
the contribution to the cost.
-/

namespace ConvexContact

/-- What distinguishes the kinds of constraints. -/
inductive Law (α : Type)
  | frictionCone (parameters : ConeParameters α) (gap : α)
  | unrestricted

/-- A constraint on one or two cliques, with the values of its constraint function. -/
structure Constraint (α : Type) where
  law : Law α
  clique : Nat
  jacobian : DenseMatrix α
  second? : Option (Nat × DenseMatrix α)
  function : List α
  /-- Format of the values of the constraint function. -/
  format : Format

namespace Law

variable {α β : Type}

/-- Every number changed. -/
def map (f : α → β) : Law α → Law β
  | frictionCone parameters gap => frictionCone (parameters.map f) (f gap)
  | unrestricted => unrestricted

/-- The name of a kind of constraint. -/
def typeName? : Law α → Option String
  | frictionCone .. => some "FRICTION_CONE"
  | unrestricted => none

/-- The name of the constraints of a kind. -/
def name : Law α → String
  | frictionCone .. => "SapFrictionConeConstraint"
  | unrestricted => "EchoConstraint"

end Law

namespace Constraint

variable {α β : Type}

/-- Number of equations. -/
def numEquations (c : Constraint α) : Nat :=
  c.function.length

/-- Number of cliques. -/
def numCliques (c : Constraint α) : Nat :=
  if c.second?.isSome then 2 else 1

/-- The second clique, if there is one. -/
def secondClique? (c : Constraint α) : Option Nat :=
  c.second?.map (·.1)

/-- The cliques with their Jacobian blocks. -/
def sides (c : Constraint α) : List (Nat × DenseMatrix α) :=
  (c.clique, c.jacobian) :: c.second?.toList

theorem first_mem_sides (c : Constraint α) : (c.clique, c.jacobian) ∈ c.sides :=
  List.mem_cons_self

theorem second_mem_sides {c : Constraint α} {side : Nat × DenseMatrix α}
    (h : c.second? = some side) : side ∈ c.sides := by
  rw [sides, h]
  exact List.mem_cons_of_mem _ List.mem_cons_self

/-- Every number changed. -/
def map (f : α → β) (c : Constraint α) : Constraint β where
  law := c.law.map f
  clique := c.clique
  jacobian := c.jacobian.map f
  second? := c.second?.map fun (k, J) => (k, J.map f)
  function := c.function.map f
  format := c.format

/-- The text that describes a constraint. -/
def text (c : Constraint α) : String :=
  s!"{c.law.name}(cliques=" ++ parenthesized (c.sides.map fun s => toString s.1) ++
    s!", num_equations={c.numEquations})"

variable [Scalar α]

/-- The matrix in a tensor, which needs one row for each equation. -/
def checkJacobian (side : Side) (equations : Nat) (J : Tensor α) :
    Except Error (DenseMatrix α) :=
  match J.matrix? with
  | none => .error (.jacobianNotMatrix side J.shape)
  | some A =>
      if A.numRows ≠ equations then .error (.jacobianRowMismatch side A.numRows equations)
      else .ok A

/-- The second clique with its block, which are given together or not at all. -/
def checkSecond (first : Int) (equations : Nat) :
    Option Int → Option (Tensor α) → Except Error (Option (Nat × DenseMatrix α))
  | none, none => .ok none
  | some second, some J =>
      if second < 0 then .error (.negativeClique second)
      else if second = first then .error (.sameCliqueTwice first)
      else (checkJacobian .second equations J).map fun A => some (second.toNat, A)
  | _, _ => .error .secondCliqueIncomplete

/-- A constraint with the given law and constraint function. -/
def ofParts (law : Law α) (g : Tensor α) (clique : Int) (J : Tensor α)
    (second? : Option Int) (secondJacobian? : Option (Tensor α)) :
    Except Error (Constraint α) := do
  match g.vector? with
  | none => .error (.constraintFunctionNotVector g.shape)
  | some [] => .error .noEquations
  | some values => do
      let jacobian ← checkJacobian .first values.length J
      if clique < 0 then .error (.negativeClique clique)
      else do
        let other ← checkSecond clique values.length second? secondJacobian?
        .ok ⟨law, clique.toNat, jacobian, other, values, g.format⟩

/-- An unrestricted constraint. -/
def ofUnrestricted (g : Tensor α) (clique : Int) (J : Tensor α)
    (second? : Option Int) (secondJacobian? : Option (Tensor α)) :
    Except Error (Constraint α) :=
  ofParts .unrestricted g clique J second? secondJacobian?

/-- A frictional contact with the given gap. -/
def ofContact (parameters : ConeParameters α) (gap : Tensor α) (clique : Int) (J : Tensor α)
    (second? : Option Int) (secondJacobian? : Option (Tensor α)) :
    Except Error (Constraint α) :=
  let gap := gap.cast J.format
  match gap.shape, gap.entries with
  | [], [phi] =>
      match J.shape with
      | [3, _] => do
          let g := Tensor.ofVec J.format [0, 0, phi]
          let c ← ofParts (.frictionCone parameters phi) g clique J second? secondJacobian?
          let _ ← parameters.validate
          .ok c
      | shape => .error (.contactJacobianShape shape)
  | shape, _ => .error (.gapNotScalar shape)

/-- The constraint velocity for given clique velocities. -/
def velocity (c : Constraint α) (v : Tensor α) (w? : Option (Tensor α)) :
    Except Error (Tensor α) := do
  let first ← Tensor.matMul c.jacobian v
  match c.second?, w? with
  | none, _ => .ok first
  | some _, none => .error .missingSecondVelocity
  | some (_, J), some w => do
      let second ← Tensor.matMul J w
      first.add second

/-- The velocity to which the constraint is driven. -/
def bias (c : Constraint α) (timeStep : α) : List α :=
  match c.law with
  | .frictionCone parameters gap => [0, 0, parameters.normalBias timeStep gap]
  | .unrestricted => Vec.zero c.numEquations

/-- The diagonal regularization for an inertia `w` felt at the constraint. -/
def regularization (c : Constraint α) (timeStep w : α) : Except Error (List α) :=
  match c.law with
  | .frictionCone parameters _ =>
      (parameters.regularization timeStep w).map fun (tangential, normal) =>
        [tangential, tangential, normal]
  | .unrestricted => .ok (List.replicate c.numEquations w)

/-- The projected impulse. -/
def impulse (c : Constraint α) (y R : List α) : Except Error (List α) :=
  match c.law with
  | .frictionCone parameters _ => parameters.impulse y R
  | .unrestricted => .ok y

/-- The projected impulse and its derivative. -/
def project (c : Constraint α) (format : Format) (y R : List α) :
    Except Error (List α × DenseMatrix α) :=
  match c.law with
  | .frictionCone parameters _ => parameters.project format y R
  | .unrestricted => .ok (y, DenseMatrix.identity format y.length)

/-- Half the squared length of a projected impulse in the norm of the regularization. -/
def exactCost (gamma R : List α) : Except Error α := do
  let scaled ← Vec.broadcast (· * ·) R gamma
  let squared ← Vec.dot? gamma scaled
  .ok (Scalar.half * squared)

/-- The contribution to the cost. -/
def cost (c : Constraint α) (y R : List α) : Except Error α :=
  match c.law with
  | .frictionCone parameters _ => parameters.cost y R
  | .unrestricted => exactCost y R

end Constraint

end ConvexContact
