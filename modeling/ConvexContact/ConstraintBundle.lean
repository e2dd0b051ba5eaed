import ConvexContact.BlockSparseMatrix
import ConvexContact.ContactProblem

/-!
# Constraint bundles

This module packs the constraints of a contact problem in the order of the edges of its graph and
evaluates all of them at once.

**Layout.**  The scalar equations of the constraints are stacked in edge order.  The Jacobian is
block-sparse, with a block row for each edge and a block column for each participating clique.
Regularization and bias of a constraint are those for the inertia at its position in the problem.

**Evaluation.**  For constraint velocities `v`, the unprojected impulses are
`-R⁻¹ (v - bias)`; they are projected constraint by constraint.  The derivative blocks of the
projection times `R⁻¹` are the blocks `G` of the Hessian contribution `Jᵀ G J`.
-/

namespace ConvexContact

/-- The constraints of a problem in the order of the edges. -/
structure ConstraintBundle (α : Type) where
  held : List (HeldConstraint α)
  constraintsPermutation : PartialPermutation
  equationsPermutation : PartialPermutation
  /-- Numbers of constraints on the edges. -/
  edgeSizes : List Nat
  jacobian : BlockSparseMatrix α
  /-- Format of regularization and bias. -/
  format : Format
  regularization : List α
  inverseRegularization : List α
  bias : List α

namespace ConstraintBundle

variable {α β : Type}

/-- The constraints in edge order. -/
def constraints (b : ConstraintBundle α) : List (Constraint α) :=
  b.held.map (·.constraint)

def numConstraints (b : ConstraintBundle α) : Nat :=
  b.held.length

/-- Numbers of equations of the constraints. -/
def equationCounts (b : ConstraintBundle α) : List Nat :=
  b.constraints.map Constraint.numEquations

def numEquations (b : ConstraintBundle α) : Nat :=
  totalSize b.equationCounts

/-- The text that describes a bundle. -/
def text (b : ConstraintBundle α) : String :=
  s!"SapConstraintBundle(num_constraints={b.numConstraints}, " ++
    s!"num_equations={b.numEquations}, J=" ++ b.jacobian.text ++ ")"

/-- Every number changed. -/
def map (f : α → β) (b : ConstraintBundle α) : ConstraintBundle β where
  held := b.held.map fun h => ⟨h.handle, h.constraint.map f⟩
  constraintsPermutation := b.constraintsPermutation
  equationsPermutation := b.equationsPermutation
  edgeSizes := b.edgeSizes
  jacobian := b.jacobian.map f
  format := b.format
  regularization := b.regularization.map f
  inverseRegularization := b.inverseRegularization.map f
  bias := b.bias.map f

/-- The rows of an edge in the block column of a clique: the blocks that its constraints have for
that clique. -/
def cliqueJacobian [Scalar α] (members : List (Constraint α)) (clique : Nat) : DenseMatrix α :=
  let blocks := members.map fun c =>
    if c.clique = clique then c.jacobian
    else match c.second? with
      | some (_, J) => J
      | none => c.jacobian
  DenseMatrix.vertical .single ((blocks.head?.map (·.numCols)).getD 0) blocks

variable [Scalar α]

/-- Adds the blocks of an edge to the Jacobian. -/
def addEdge (cliques : PartialPermutation) (J : BlockSparseMatrix α) (row : Nat) (e : Edge)
    (members : List (Constraint α)) : Except Error (BlockSparseMatrix α) :=
  (if e.isSelfPair then [e.first] else [e.first, e.second]).foldlM
    (fun J c => do
      let col ← cliques.permutedIndex c
      J.addBlock row col (Tensor.ofMatrix (cliqueJacobian members c.toNat)))
    J

/-- The Jacobian of constraints in edge order. -/
def assembleJacobian (p : ContactProblem α) (cliques : PartialPermutation)
    (constraints : List (Constraint α)) : Except Error (BlockSparseMatrix α) := do
  let edges := p.graph.edges
  let cols ← cliques.inverse.mapM fun (c : Nat) => p.cliqueSize c
  let J ← BlockSparseMatrix.ofSizes (edges.map Edge.equations)
    (cols.map fun (n : Nat) => (n : Int))
  let groups := Vec.split (edges.map Edge.numConstraints) constraints
  ((edges.zip groups).zipIdx).foldlM
    (fun J entry => addEdge cliques J entry.2 entry.1.1 entry.1.2) J

/-- Regularization and bias of a constraint, in the format of the constraint. -/
def setup (timeStep : α) (w : α) (c : Constraint α) : Except Error (List α × List α) := do
  let R ← c.regularization timeStep (Scalar.round c.format w)
  .ok (R.map (Scalar.round c.format), (c.bias timeStep).map (Scalar.round c.format))

/-- The bundle of a problem.  A permutation of the cliques places the block columns; without one
the participating cliques are placed by their first occurrence on an edge. -/
def build (p : ContactProblem α) (delassus : Tensor α) (cliques? : Option PartialPermutation) :
    Except Error (ConstraintBundle α) := do
  let graph := p.graph
  let cliques ← match cliques? with
    | some q => .ok q
    | none => graph.cliquesPermutation
  if cliques.domainSize ≠ p.numCliques then
    .error (.cliquesPermutationMismatch cliques.domainSize p.numCliques)
  else if delassus.shape ≠ [p.numConstraints] then
    .error (.delassusShape p.numConstraints delassus.shape)
  else do
    let constraintsPermutation ← graph.constraintsPermutation
    let equationsPermutation ← graph.equationsPermutation
      (p.equationCounts.map fun (n : Nat) => (n : Int))
    let held := constraintsPermutation.gather p.held
    let constraints := held.map (·.constraint)
    let jacobian ← assembleJacobian p cliques constraints
    let inertias := constraintsPermutation.gather delassus.entries
    let parts ← (inertias.zip constraints).mapM fun (w, c) => setup p.timeStep w c
    let format := if constraints.isEmpty then delassus.format
      else (constraints.map (·.format)).foldl Format.join .single
    let R := (parts.flatMap (·.1)).map (Scalar.round format)
    let bundle : ConstraintBundle α :=
      { held := held
        constraintsPermutation := constraintsPermutation
        equationsPermutation := equationsPermutation
        edgeSizes := graph.edges.map Edge.numConstraints
        jacobian := jacobian
        format := format
        regularization := R
        inverseRegularization := R.map (1 / ·)
        bias := (parts.flatMap (·.2)).map (Scalar.round format) }
    if R.any (fun r => decide (r ≤ 0)) then .error .regularizationNotPositive else .ok bundle

/-- The bundle with the numbers of its evaluations in a format. -/
def cast (format : Format) (b : ConstraintBundle α) : ConstraintBundle α :=
  { b with
    jacobian := b.jacobian.cast format
    format := format
    regularization := b.regularization.map (Scalar.round format)
    inverseRegularization := b.inverseRegularization.map (Scalar.round format)
    bias := b.bias.map (Scalar.round format) }

/-- Impulses before the projection, for given constraint velocities. -/
def unprojectedImpulses (b : ConstraintBundle α) (velocities : List α) :
    Except Error (List α) := do
  let difference ← Vec.broadcast (· - ·) velocities b.bias
  Vec.broadcast (· * ·) (Vec.neg b.inverseRegularization) difference

/-- The constraints with their parts of an impulse and of the regularization. -/
def parts (b : ConstraintBundle α) (y : List α) :
    List (Constraint α × List α × List α) :=
  b.constraints.zip
    ((Vec.split b.equationCounts y).zip (Vec.split b.equationCounts b.regularization))

/-- Projected impulses. -/
def impulses (b : ConstraintBundle α) (y : List α) : Except Error (List α) := do
  let gamma ← (b.parts y).mapM fun (c, yᵢ, Rᵢ) => c.impulse yᵢ Rᵢ
  .ok gamma.flatten

/-- Projected impulses and the derivative blocks of the projections. -/
def project (b : ConstraintBundle α) (y : List α) :
    Except Error (List α × List (DenseMatrix α)) := do
  let results ← (b.parts y).mapM fun (c, yᵢ, Rᵢ) => c.project b.format yᵢ Rᵢ
  .ok (results.flatMap (·.1), results.map (·.2))

/-- Sum of the cost contributions of the constraints. -/
def regularizerCost (b : ConstraintBundle α) (y : List α) : Except Error α := do
  let costs ← (b.parts y).mapM fun (c, yᵢ, Rᵢ) => c.cost yᵢ Rᵢ
  .ok (Vec.sum costs)

/-- A derivative block with its columns divided by the regularization. -/
def hessianBlock (derivative : DenseMatrix α) (inverse : List α) : DenseMatrix α :=
  DenseMatrix.tabulate derivative.format derivative.numRows derivative.numCols fun i j =>
    derivative.get i j * inverse.getD j 0

/-- The blocks `G` for the derivative blocks of the projections. -/
def hessianBlocks (b : ConstraintBundle α) (derivatives : List (DenseMatrix α)) :
    List (DenseMatrix α) :=
  List.zipWith hessianBlock derivatives (Vec.split b.equationCounts b.inverseRegularization)

/-- Adds the products of all pairs of blocks of an edge to a matrix. -/
def addEdgeContribution (J : BlockSparseMatrix α) (H : DenseMatrix α) (row : Nat)
    (G : DenseMatrix α) : DenseMatrix α :=
  (J.rowBlocks row).foldl (fun H a =>
    let GJ := G.mul a.matrix
    (J.rowBlocks row).foldl (fun H c =>
      H.addBlock (J.colStarts.getD c.col 0) (J.colStarts.getD a.col 0)
        (c.matrix.transpose.mul GJ)) H) H

/-- `Jᵀ G J`, for the blocks of `G` in edge order. -/
def hessianContribution (b : ConstraintBundle α) (G : List (DenseMatrix α)) : DenseMatrix α :=
  let groups := Vec.split b.edgeSizes G
  (groups.zipIdx).foldl
    (fun H entry =>
      addEdgeContribution b.jacobian H entry.2 (DenseMatrix.blockDiagonal .single entry.1))
    (DenseMatrix.zero b.format b.jacobian.numCols b.jacobian.numCols)

end ConstraintBundle

end ConvexContact
