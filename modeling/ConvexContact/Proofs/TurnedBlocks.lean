import Mathlib
import ConvexContact.Proofs.Cone.Turning
import ConvexContact.Proofs.Inertia

/-!
# Jacobian blocks with turned tangential rows

The first two rows of a Jacobian block of a contact belong to the tangential directions.  If they
are turned by a matrix (`DenseMatrix.turned`), the products of the block with velocities are turned
(`DenseMatrix.mulVec_turned`).

**Inertia.**  What a factor solves is linear in the right-hand side, so the inertia felt at the
contact is a bilinear form of the rows of the block, and turning the rows multiplies it from both
sides by a matrix (`ContactProblem.toMatrix_factoredInertia_turned`).  If that matrix is orthogonal,
the Frobenius norm stays the same.

**Result.**  `ContactProblem.meanInertia_turned`: turning the blocks of a contact changes neither
the mean inertia of its equations nor the reason why it is refused.
-/

namespace ConvexContact

open Matrix
open scoped Matrix.Norms.Frobenius

namespace Vec

theorem length_of_mem_turnedRows
    {Q : Matrix (Fin 2) (Fin 2) ℝ} {rows : List (List ℝ)} {n : ℕ}
    (h : ∀ row ∈ rows, row.length = n) :
    ∀ row ∈ turnedRows Q rows, row.length = n := by
  match rows, h with
  | [], h => exact h
  | [x], h => exact h
  | x :: y :: rest, h =>
      obtain ⟨hx, h⟩ := List.forall_mem_cons.1 h
      obtain ⟨hy, h⟩ := List.forall_mem_cons.1 h
      have hcombine : ∀ a b : ℝ, (combine a b x y).length = n := fun a b =>
        (length_combine a b (hx.trans hy.symm)).trans hx
      exact List.forall_mem_cons.2 ⟨hcombine _ _, List.forall_mem_cons.2 ⟨hcombine _ _, h⟩⟩

end Vec

theorem contactTurn_orthogonal
    {Q : Matrix (Fin 2) (Fin 2) ℝ}
    (hQ : Q ∈ Matrix.orthogonalGroup (Fin 2) ℝ) :
    (contactTurn Q)ᵀ * contactTurn Q = 1 := by
  obtain ⟨hfirst, hsecond, hmixed⟩ := orthonormal_columns hQ
  ext i j
  rw [Matrix.mul_apply, Fin.sum_univ_three]
  fin_cases i <;> fin_cases j <;>
    simp [contactTurn, hfirst, hsecond, hmixed, mul_comm (Q 0 1) (Q 0 0), mul_comm (Q 1 1) (Q 1 0)]

namespace DenseMatrix

variable {Q : Matrix (Fin 2) (Fin 2) ℝ} {J : DenseMatrix ℝ}

/-- The first two rows turned by a matrix. -/
def turned (Q : Matrix (Fin 2) (Fin 2) ℝ) (J : DenseMatrix ℝ) : DenseMatrix ℝ where
  format := J.format
  numCols := J.numCols
  rows := Vec.turnedRows Q J.rows
  length_row := Vec.length_of_mem_turnedRows J.length_row

theorem rows_turned
    (Q : Matrix (Fin 2) (Fin 2) ℝ) (J : DenseMatrix ℝ) :
    (J.turned Q).rows = Vec.turnedRows Q J.rows :=
  rfl

@[simp] theorem numRows_turned
    (Q : Matrix (Fin 2) (Fin 2) ℝ) (J : DenseMatrix ℝ) :
    (J.turned Q).numRows = J.numRows := by
  unfold numRows
  rw [rows_turned, Vec.turnedRows.eq_def]
  split
  · rename_i heq
    rw [heq]
    rfl
  · rfl

/-- A linear function of a turned row, by the rows of the matrix. -/
theorem row_turned
    (hJ : J.numRows = 3)
    {f : List ℝ → ℝ}
    (hf : ∀ a b x y, x.length = J.numCols → y.length = J.numCols →
      f (Vec.combine a b x y) = a * f x + b * f y)
    (i : Fin 3) :
    f ((J.turned Q).rows.getD i []) = ∑ k, contactTurn Q i k * f (J.rows.getD k []) := by
  obtain ⟨x, y, z, hrows⟩ := List.length_eq_three.1 hJ
  have hx : x.length = J.numCols :=
    J.length_row x (by simp [hrows])
  have hy : y.length = J.numCols :=
    J.length_row y (by simp [hrows])
  have hturned : (J.turned Q).rows =
      [Vec.combine (Q 0 0) (Q 0 1) x y, Vec.combine (Q 1 0) (Q 1 1) x y, z] := by
    rw [rows_turned, hrows]
    rfl
  rw [hturned, hrows, Fin.sum_univ_three]
  fin_cases i <;> simp [contactTurn, hf, hx, hy]

/-- Turning the rows of a matrix turns its products. -/
theorem mulVec_turned
    [Threshold]
    (hJ : J.numRows = 3)
    (x : List ℝ) :
    (J.turned Q).mulVec x = Vec.turned Q (J.mulVec x) := by
  obtain ⟨r, s, t, hrows⟩ := List.length_eq_three.1 hJ
  have hsize : r.length = s.length :=
    (J.length_row r (by simp [hrows])).trans (J.length_row s (by simp [hrows])).symm
  unfold mulVec
  rw [rows_turned, hrows]
  simp only [Vec.turnedRows, Vec.turned, List.map_cons, List.map_nil,
    Vec.dot_combine_left _ _ hsize]

end DenseMatrix

section Norm

variable {n : ℕ} {T : Matrix (Fin n) (Fin n) ℝ}

/-- Multiplying by an orthogonal matrix does not change the Frobenius norm. -/
theorem norm_orthogonal_mul
    (hT : Tᵀ * T = 1)
    (W : Matrix (Fin n) (Fin n) ℝ) :
    ‖T * W‖ = ‖W‖ := by
  have hsquares : ∀ A : Matrix (Fin n) (Fin n) ℝ,
      ∑ i, ∑ j, ‖A i j‖ ^ (2 : ℝ) = (Aᵀ * A).trace := by
    intro A
    rw [Finset.sum_comm]
    simp [Matrix.trace, Matrix.mul_apply, sq]
  rw [frobenius_norm_def, frobenius_norm_def, hsquares, hsquares, Matrix.transpose_mul,
    Matrix.mul_assoc, ← Matrix.mul_assoc Tᵀ, hT, Matrix.one_mul]

theorem norm_orthogonal_conj
    (hT : Tᵀ * T = 1)
    (W : Matrix (Fin n) (Fin n) ℝ) :
    ‖T * W * Tᵀ‖ = ‖W‖ := by
  rw [← frobenius_norm_transpose, Matrix.transpose_mul, Matrix.transpose_transpose,
    norm_orthogonal_mul hT, frobenius_norm_transpose, norm_orthogonal_mul hT]

end Norm

namespace Constraint

/-- The first two rows of the Jacobian blocks turned by a matrix. -/
def turned (Q : Matrix (Fin 2) (Fin 2) ℝ) (c : Constraint ℝ) : Constraint ℝ :=
  { c with
    jacobian := c.jacobian.turned Q
    second? := c.second?.map fun side => (side.1, side.2.turned Q) }

theorem sides_turned
    (Q : Matrix (Fin 2) (Fin 2) ℝ) (c : Constraint ℝ) :
    (c.turned Q).sides = c.sides.map fun side => (side.1, side.2.turned Q) := by
  unfold sides turned
  cases c.second? <;> rfl

/-- The graph does not see how the blocks are turned. -/
theorem memberOf_turned
    (Q : Matrix (Fin 2) (Fin 2) ℝ) (c : Constraint ℝ) :
    ContactProblem.memberOf (c.turned Q) = ContactProblem.memberOf c := by
  have hsecond : (c.turned Q).secondClique? = c.secondClique? := by
    unfold secondClique? turned
    rw [Option.map_map]
    rfl
  unfold ContactProblem.memberOf
  rw [hsecond]
  rfl

end Constraint

section Inertia

variable [Threshold]
variable {Q : Matrix (Fin 2) (Fin 2) ℝ}

/-- The second matrix is the first one, multiplied from both sides by the turn of a contact. -/
structure DenseMatrix.Turns (Q : Matrix (Fin 2) (Fin 2) ℝ) (W W' : DenseMatrix ℝ) : Prop where
  format : W'.format = W.format
  shape : W.numRows = 3 ∧ W.numCols = 3
  shape' : W'.numRows = 3 ∧ W'.numCols = 3
  toMatrix : W'.toMatrix 3 3 = contactTurn Q * W.toMatrix 3 3 * (contactTurn Q)ᵀ

namespace DenseMatrix.Turns

variable {W W' U U' : DenseMatrix ℝ}

theorem add
    (h : Turns Q W W')
    (hU : Turns Q U U') :
    Turns Q (W.add U) (W'.add U') where
  format := congrArg₂ Format.join h.format hU.format
  shape := ⟨(numRows_tabulate _ _ _ _).trans h.shape.1, h.shape.2⟩
  shape' := ⟨(numRows_tabulate _ _ _ _).trans h.shape'.1, h.shape'.2⟩
  toMatrix := by
    rw [toMatrix_add h.shape'.1 h.shape'.2, toMatrix_add h.shape.1 h.shape.2, h.toMatrix,
      hU.toMatrix, Matrix.mul_add, Matrix.add_mul]

/-- Orthogonal turns keep the Frobenius norm. -/
theorem frobeniusNorm_eq
    (hQ : Q ∈ Matrix.orthogonalGroup (Fin 2) ℝ)
    (h : Turns Q W W') :
    W'.frobeniusNorm = W.frobeniusNorm := by
  rw [DenseMatrix.frobeniusNorm_eq h.shape'.1 h.shape'.2,
    DenseMatrix.frobeniusNorm_eq h.shape.1 h.shape.2, h.toMatrix,
    norm_orthogonal_conj (contactTurn_orthogonal hQ)]

end DenseMatrix.Turns

namespace ContactProblem

variable {p : ContactProblem ℝ} {c : Constraint ℝ}

/-- Turning the rows of a Jacobian block turns the inertia on both sides: the inertia is bilinear in
the rows. -/
theorem toMatrix_factoredInertia_turned
    {J : DenseMatrix ℝ}
    (hJ : J.numRows = 3)
    (factor : CholeskyFactor ℝ) (format : Format) :
    (factoredInertia factor format (J.turned Q)).toMatrix 3 3 =
      contactTurn Q * (factoredInertia factor format J).toMatrix 3 3 * (contactTurn Q)ᵀ := by
  have hentry : ∀ K : DenseMatrix ℝ, K.numRows = 3 → ∀ i j : Fin 3,
      (factoredInertia factor format K).toMatrix 3 3 i j =
        Vec.dot (K.rows.getD i []) (factor.solve (K.rows.getD j [])) := by
    intro K hK i j
    exact get_factoredInertia factor format (hK.symm ▸ i.2) (hK.symm ▸ j.2)
  have hleft : ∀ (z : List ℝ) (i : Fin 3), Vec.dot ((J.turned Q).rows.getD i []) z =
      ∑ k, contactTurn Q i k * Vec.dot (J.rows.getD k []) z := by
    intro z
    apply DenseMatrix.row_turned hJ (f := (Vec.dot · z))
    intro a b x y hx hy
    exact Vec.dot_combine_left a b (hx.trans hy.symm) z
  have hright : ∀ (z : List ℝ) (j : Fin 3),
      Vec.dot z (factor.solve ((J.turned Q).rows.getD j [])) =
        ∑ l, contactTurn Q j l * Vec.dot z (factor.solve (J.rows.getD l [])) := by
    intro z
    apply DenseMatrix.row_turned hJ (f := fun x => Vec.dot z (factor.solve x))
    intro a b x y hx hy
    rw [factor.solve_combine a b (hx.trans hy.symm)]
    exact Vec.dot_combine_right a b (by simp) z
  ext i j
  rw [hentry _ (by rw [DenseMatrix.numRows_turned, hJ]), hleft, Matrix.mul_assoc, Matrix.mul_apply]
  refine Finset.sum_congr rfl fun k _ => congrArg _ ?_
  rw [hright, Matrix.mul_apply]
  refine Finset.sum_congr rfl fun l _ => ?_
  rw [Matrix.transpose_apply, hentry J hJ, mul_comm]

theorem sideInertia_turned
    (Q : Matrix (Fin 2) (Fin 2) ℝ) {side : ℕ × DenseMatrix ℝ}
    (hside : side.2.numRows = 3) :
    Outcome.Related (DenseMatrix.Turns Q) (p.sideInertia side)
      (p.sideInertia (side.1, side.2.turned Q)) := by
  unfold sideInertia
  dsimp only
  cases p.cliques[side.1]? with
  | none =>
      exact .error _
  | some k =>
      change Outcome.Related _ (inverseInertia _ _) (inverseInertia _ _)
      unfold inverseInertia
      cases CholeskyFactor.ofMatrix k.dynamics with
      | error e =>
          exact .error e
      | ok factor =>
          exact .ok
            { format := rfl
              shape := by simp [hside]
              shape' := by simp [hside]
              toMatrix := toMatrix_factoredInertia_turned hside factor _ }

theorem constraintInertia_turned
    (Q : Matrix (Fin 2) (Fin 2) ℝ)
    (hsides : ∀ side ∈ c.sides, side.2.numRows = 3) :
    Outcome.Related (DenseMatrix.Turns Q) (p.constraintInertia c)
      (p.constraintInertia (c.turned Q)) := by
  unfold constraintInertia
  have hfirst := hsides _ c.first_mem_sides
  refine (sideInertia_turned Q hfirst).bind fun W W' hW => ?_
  unfold Constraint.turned
  cases hsecond : c.second? with
  | none =>
      exact .ok hW
  | some side =>
      have hside := hsides side (Constraint.second_mem_sides hsecond)
      exact (sideInertia_turned Q hside).bind fun U U' hU => .ok (hW.add hU)

/-- **Turning the tangential directions does not change the mean inertia.** -/
theorem meanInertia_turned
    (hQ : Q ∈ Matrix.orthogonalGroup (Fin 2) ℝ)
    (hsides : ∀ side ∈ c.sides, side.2.numRows = 3) :
    p.meanInertia (c.turned Q) = p.meanInertia c := by
  apply Outcome.Related.eq
  refine (constraintInertia_turned Q hsides).bind fun W W' hW => .ok ?_
  rw [hW.format, hW.frobeniusNorm_eq hQ]
  rfl

end ContactProblem

end Inertia
end ConvexContact
