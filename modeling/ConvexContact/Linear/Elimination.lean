import ConvexContact.Linear.DenseMatrix

/-!
# Linear systems

**Input.**  A square matrix and a right-hand side.

**Algorithm.**  Gaussian elimination on the rows with their right-hand sides.  In every step the
row with the largest leading entry is taken as pivot row, multiples of it are subtracted from the
other rows, and the smaller system is solved first.

**Result.**  The solution, or `none` if some pivot is zero.
-/

namespace ConvexContact
namespace Elimination

variable {α : Type} [Scalar α]

/-- An equation: coefficients and right-hand side. -/
abbrev Equation (α : Type) :=
  List α × α

/-- Leading coefficient of an equation. -/
def leading (e : Equation α) : α :=
  e.1.headD 0

/-- Takes the equation with the largest leading coefficient out of a list, the first of equal
ones; the first equation of the list fills its place. -/
def takePivot (best : Equation α) : List (Equation α) → Equation α × List (Equation α)
  | [] => (best, [])
  | e :: rest =>
      if Scalar.abs (leading best) < Scalar.abs (leading e) then
        let (pivot, others) := takePivot e rest
        (pivot, best :: others)
      else
        let (pivot, others) := takePivot best rest
        (pivot, e :: others)

theorem length_takePivot (best : Equation α) (rest : List (Equation α)) :
    (takePivot best rest).2.length = rest.length := by
  induction rest generalizing best with
  | nil => rfl
  | cons e rest ih =>
      unfold takePivot
      split <;> simp [ih]

/-- An equation with its leading unknown removed by means of the pivot equation. -/
def eliminate (pivot : Equation α) (e : Equation α) : Equation α :=
  let factor := leading e / leading pivot
  (List.zipWith (fun x p => x - factor * p) e.1.tail pivot.1.tail, e.2 - factor * pivot.2)

/-- Solves a system with as many unknowns as equations. -/
def solve? : List (Equation α) → Option (List α)
  | [] => some []
  | first :: rest =>
      let pivot := (takePivot first rest).1
      if Scalar.IsZero (leading pivot) then none
      else
        match solve? ((takePivot first rest).2.map (eliminate pivot)) with
        | none => none
        | some x => some ((pivot.2 - Vec.dot pivot.1.tail x) / leading pivot :: x)
  termination_by equations => equations.length
  decreasing_by simp [length_takePivot]

/-- Solves `A x = b`. -/
def solve (A : DenseMatrix α) (b : List α) : Except Error (List α) :=
  match solve? (A.rows.zip b) with
  | some x => .ok x
  | none => .error .singular

end Elimination
end ConvexContact
