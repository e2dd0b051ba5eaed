import ConvexContact.Linear.DenseMatrix

/-!
# Cholesky factorization

**Input.**  A symmetric matrix, of which only the diagonal and the entries below it are read.

**Algorithm.**  The first pivot has to be positive; its square root is the first diagonal entry of
the factor, the first column divided by it is the rest of the first column, and the outer product
of that column is subtracted from the remaining matrix.

**Result.**  The factor as a list of its columns, each given by its diagonal entry and the entries
below.  Triangular systems with the factor and its transpose are solved by recursion on that list.
-/

namespace ConvexContact

/-- Lower triangular factor, column by column: the diagonal entry and the entries below it. -/
abbrev CholeskyFactor (α : Type) :=
  List (α × List α)

namespace CholeskyFactor

variable {α : Type} [Scalar α]

/-- What remains of the rows below a pivot. -/
def remainder (column : List α) (rows : List (List α)) : List (List α) :=
  List.zipWith (fun row c => List.zipWith (fun x d => x - c * d) row.tail column) rows column

/-- The factor of a positive definite matrix, given by its rows. -/
def ofRows? : List (List α) → Option (CholeskyFactor α)
  | [] => some []
  | row :: rows =>
      let pivot := row.headD 0
      if 0 < pivot then
        let diagonal := Scalar.sqrt pivot
        let column := rows.map fun r => r.headD 0 / diagonal
        (ofRows? (remainder column rows)).map ((diagonal, column) :: ·)
      else none
  termination_by rows => rows.length
  decreasing_by
    simp [remainder, List.length_zipWith]

/-- The factor of a positive definite matrix. -/
def ofMatrix (A : DenseMatrix α) : Except Error (CholeskyFactor α) :=
  match ofRows? A.rows with
  | some factor => .ok factor
  | none => .error .notPositiveDefinite

/-- Solves `L z = b`. -/
def solveLower : CholeskyFactor α → List α → List α
  | [], _ => []
  | (diagonal, column) :: factor, b =>
      let z := b.headD 0 / diagonal
      z :: solveLower factor (List.zipWith (fun x c => x - c * z) b.tail column)

/-- Solves `Lᵀ x = z`. -/
def solveUpper : CholeskyFactor α → List α → List α
  | [], _ => []
  | (diagonal, column) :: factor, z =>
      let x := solveUpper factor z.tail
      ((z.headD 0 - Vec.dot column x) / diagonal) :: x

/-- Solves `L Lᵀ x = b`. -/
def solve (factor : CholeskyFactor α) (b : List α) : List α :=
  solveUpper factor (solveLower factor b)

/-- Solves `L Lᵀ X = Bᵀ`, where the columns of the right-hand side are the rows of `B`; the
result has the solutions as rows. -/
def solveRows (factor : CholeskyFactor α) (B : DenseMatrix α) : List (List α) :=
  B.rows.map (solve factor)

end CholeskyFactor

end ConvexContact
