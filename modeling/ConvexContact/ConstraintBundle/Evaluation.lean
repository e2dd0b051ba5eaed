import ConvexContact.Constraint.Evaluation
import ConvexContact.ConstraintBundle

/-!
# Evaluating a bundle for tensors

The evaluations of a constraint bundle for tensors as operands.  All numbers of the bundle are
brought to the format of the operand.
-/

namespace ConvexContact
namespace ConstraintBundle

variable {α : Type} [Scalar α]

/-- Impulses before the projection. -/
def unprojectedTensor (b : ConstraintBundle α) (velocities : Tensor α) :
    Except Error (Tensor α) := do
  let b := b.cast velocities.format
  let difference ← Tensor.zipWith (· - ·) velocities (Tensor.ofVec b.format b.bias)
  Tensor.zipWith (· * ·) (Tensor.ofVec b.format (Vec.neg b.inverseRegularization)) difference

/-- The constraints with their parts of an impulse and of the regularization, both in the format
of the impulse. -/
def tensorParts (b : ConstraintBundle α) (y : Tensor α) :
    Except Error (List (Constraint α × Tensor α × Tensor α)) :=
  if y.shape.isEmpty ∧ ¬ b.constraints.isEmpty then .error .position
  else
    let b := b.cast y.format
    let starts := blockStarts 0 b.equationCounts
    .ok ((b.constraints.zip (starts.zip (Vec.split b.equationCounts b.regularization))).map
      fun (c, start, R) => (c, y.interval start c.numEquations, Tensor.ofVec b.format R))

/-- Parts of the constraints one after the other; no parts give an empty vector. -/
def stack (format : Format) (parts : List (Tensor α)) : Except Error (Tensor α) :=
  if parts.isEmpty then .ok (Tensor.ofVec format []) else Tensor.concat parts

/-- Projected impulses. -/
def impulsesTensor (b : ConstraintBundle α) (y : Tensor α) : Except Error (Tensor α) :=
  match y.vector? with
  | some ys => ((b.cast y.format).impulses ys).map (Tensor.ofVec y.format)
  | none => do
      let parts ← b.tensorParts y
      let gamma ← parts.mapM fun (c, yᵢ, Rᵢ) => c.impulseTensor yᵢ Rᵢ
      stack y.format gamma

/-- Projected impulses and the derivative blocks of the projections. -/
def projectTensor (b : ConstraintBundle α) (y : Tensor α) :
    Except Error (Tensor α × List (Tensor α)) :=
  match y.vector? with
  | some ys => do
      let (gamma, derivatives) ← (b.cast y.format).project ys
      .ok (Tensor.ofVec y.format gamma, derivatives.map Tensor.ofMatrix)
  | none => do
      let parts ← b.tensorParts y
      let results ← parts.mapM fun (c, yᵢ, Rᵢ) => c.projectTensor yᵢ Rᵢ
      let gamma ← stack y.format (results.map (·.1))
      .ok (gamma, results.map (·.2))

/-- Sum of the cost contributions of the constraints. -/
def regularizerCostTensor (b : ConstraintBundle α) (y : Tensor α) : Except Error (Tensor α) :=
  match y.vector? with
  | some ys => ((b.cast y.format).regularizerCost ys).map (Tensor.ofScalar y.format)
  | none => do
      let parts ← b.tensorParts y
      parts.foldlM (fun total (c, yᵢ, Rᵢ) => do
          let cost ← c.costTensor yᵢ Rᵢ
          total.add cost)
        (Tensor.ofScalar y.format 0)

/-- The blocks `G` for tensors in place of the derivative blocks; the shorter list decides. -/
def hessianBlocksTensor (b : ConstraintBundle α) (derivatives : List (Tensor α)) :
    Except Error (List (Tensor α)) :=
  (derivatives.zip (Vec.split b.equationCounts b.inverseRegularization)).mapM
    fun (D, inverse) =>
      Tensor.zipWith (· * ·) D (Tensor.ofEntries D.format [1, inverse.length] inverse)

/-- A tensor with at most two sizes as a matrix; a vector is a row. -/
def diagonalBlock (t : Tensor α) : Except Error (DenseMatrix α) :=
  match t.shape with
  | [] => .ok (DenseMatrix.tabulate t.format 1 1 fun _ _ => t.entries.getD 0 0)
  | [n] => .ok (DenseMatrix.tabulate t.format 1 n fun _ j => t.entries.getD j 0)
  | _ => match t.matrix? with
    | some A => .ok A
    | none => .error .operands

/-- The blocks of an edge can stand between the Jacobian and its transpose. -/
def checkEdgeBlocks (format : Format) (rows members : Nat) (group : List (Tensor α)) :
    Except Error Unit := do
  if group.length < members then .error .position
  else do
    let blocks ← group.mapM diagonalBlock
    let G := DenseMatrix.blockDiagonal (α := α) .single blocks
    let widest := (blocks.map (·.format)).foldl Format.join .single
    if G.numRows = rows ∧ G.numCols = rows ∧ widest = format then .ok ()
    else .error .operands

/-- `Jᵀ G J` for tensors as blocks, in the format of the first block. -/
def hessianContributionTensor (b : ConstraintBundle α) (G : List (Tensor α)) :
    Except Error (DenseMatrix α) := do
  let format := (G.head?.map (·.format)).getD b.format
  let groups := Vec.split b.edgeSizes G
  ((groups.zip b.edgeSizes).zip b.jacobian.blockRows).forM
    fun ((group, members), rows) => checkEdgeBlocks format rows members group
  let blocks ← G.mapM diagonalBlock
  .ok ((b.cast format).hessianContribution blocks)

end ConstraintBundle
end ConvexContact
