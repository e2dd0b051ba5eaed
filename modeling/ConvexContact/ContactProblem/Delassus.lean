import ConvexContact.ContactProblem
import ConvexContact.Linear.Cholesky

/-!
# Inertia felt at the constraints

**Input.**  A contact problem whose constrained cliques have positive definite dynamics matrices.

**Result.**  For each constraint, the Frobenius norm of the sum of `J A⁻¹ Jᵀ` over its cliques,
divided by its number of equations.

**Memory.**  The constraints are visited in their order.  The factor of a dynamics matrix is
computed when a constraint first needs it, and remembered for the constraints after that one
(`ContactProblem.visit`).  The definitions without memory, such as `ContactProblem.meanInertia`, say
what a visit gives.
-/

namespace ConvexContact
namespace ContactProblem

variable {α : Type} [Scalar α]

/-- `J A⁻¹ Jᵀ` for a factor of `A`, in a format. -/
def factoredInertia (factor : CholeskyFactor α) (format : Format) (J : DenseMatrix α) :
    DenseMatrix α :=
  let J := J.cast format
  let columns := factor.solveRows J
  DenseMatrix.tabulate format J.numRows J.numRows fun i j =>
    Vec.dot (J.rows.getD i []) (columns.getD j [])

@[simp] theorem numRows_factoredInertia (factor : CholeskyFactor α) (format : Format)
    (J : DenseMatrix α) : (factoredInertia factor format J).numRows = J.numRows :=
  (DenseMatrix.numRows_tabulate _ _ _ _).trans (List.length_map _)

@[simp] theorem numCols_factoredInertia (factor : CholeskyFactor α) (format : Format)
    (J : DenseMatrix α) : (factoredInertia factor format J).numCols = J.numRows :=
  (DenseMatrix.numCols_tabulate _ _ _ _).trans (List.length_map _)

/-- `J A⁻¹ Jᵀ`, in the format of `A`. -/
def inverseInertia (A J : DenseMatrix α) : Except Error (DenseMatrix α) := do
  let factor ← CholeskyFactor.ofMatrix A
  .ok (factoredInertia factor A.format J)

/-- The inverse inertia felt on one side of a constraint. -/
def sideInertia (p : ContactProblem α) (side : Nat × DenseMatrix α) :
    Except Error (DenseMatrix α) :=
  match p.cliques[side.1]? with
  | some c => inverseInertia c.dynamics side.2
  | none => .error .position

/-- The inverse inertia felt at a constraint. -/
def constraintInertia (p : ContactProblem α) (c : Constraint α) :
    Except Error (DenseMatrix α) := do
  let W ← p.sideInertia (c.clique, c.jacobian)
  match c.second? with
  | none => .ok W
  | some side => do
      let W' ← p.sideInertia side
      .ok (W.add W')

/-- The mean inverse inertia of the equations of a constraint, with its format. -/
def meanInertia (p : ContactProblem α) (c : Constraint α) : Except Error (Format × α) := do
  let W ← p.constraintInertia c
  .ok (W.format, W.frobeniusNorm / Scalar.ofNat c.numEquations)

/-- Factors of dynamics matrices, by clique. -/
abbrev Factors (α : Type) :=
  List (Nat × CholeskyFactor α)

/-- A computation that remembers factors. -/
abbrev Remembering (α β : Type) :=
  StateT (Factors α) (Except Error) β

/-- The factor of the dynamics matrix of a clique, which is computed unless it is remembered. -/
def factorOf (k : Nat) (c : Clique α) : Remembering α (CholeskyFactor α) := do
  match (← get).lookup k with
  | some factor => return factor
  | none => do
      let factor ← StateT.lift (CholeskyFactor.ofMatrix c.dynamics)
      modify ((k, factor) :: ·)
      return factor

/-- The inverse inertia felt on one side of a constraint. -/
def visitSide (p : ContactProblem α) (side : Nat × DenseMatrix α) :
    Remembering α (DenseMatrix α) :=
  match p.cliques[side.1]? with
  | some c => do
      let factor ← factorOf side.1 c
      return factoredInertia factor c.dynamics.format side.2
  | none => throw .position

/-- The inverse inertia felt at a constraint. -/
def visitConstraint (p : ContactProblem α) (c : Constraint α) : Remembering α (DenseMatrix α) := do
  let W ← p.visitSide (c.clique, c.jacobian)
  match c.second? with
  | none => return W
  | some side => do
      let W' ← p.visitSide side
      return W.add W'

/-- The mean inverse inertia of the equations of a constraint, with its format. -/
def visit (p : ContactProblem α) (c : Constraint α) : Remembering α (Format × α) := do
  let W ← p.visitConstraint c
  return (W.format, W.frobeniusNorm / Scalar.ofNat c.numEquations)

/-- The mean inverse inertias of all constraints. -/
def delassusDiagonal (p : ContactProblem α) : Except Error (Tensor α) := do
  let (entries, _) ← (p.constraints.mapM p.visit).run []
  let format := (entries.map (·.1)).foldl Format.join .single
  .ok (Tensor.ofVec format (entries.map (·.2)))

end ContactProblem
end ConvexContact
