import Mathlib
import ConvexContact.Proofs.Cholesky
import ConvexContact.Proofs.Factors
import ConvexContact.Proofs.Problems

/-!
# Inertia felt at a constraint, as a matrix

**Matrices.**  A side of a constraint contributes `J A⁻¹ Jᵀ` with the inverse of its dynamics matrix
(`ContactProblem.sideMatrix`), and a constraint feels the sum over its sides
(`ContactProblem.inertiaMatrix`).  Both are what is computed with factors, if the dynamics matrices
are positive definite.

**Results.**
* `ContactProblem.meanInertia_eq_ok`: the mean inertia is the Frobenius norm of the matrix, divided
  by the number of equations.
* `ContactProblem.inertiaMatrix_eq_zero_iff`: it vanishes if and only if all Jacobian blocks do.
-/

namespace ConvexContact

open Matrix
open scoped Matrix.Norms.Frobenius

variable [Threshold]

theorem Vec.norm_eq_sqrt
    (x : List ℝ) :
    Vec.norm x = √(Vec.dot x x) := by
  unfold Vec.norm
  split
  · rw [Exact.abs_eq_abs, Vec.dot_cons, Vec.dot_nil_left, add_zero, Real.sqrt_mul_self_eq_abs]
  · exact Exact.sqrt_eq _

namespace DenseMatrix

variable {m n : ℕ}

/-- A row of a matrix as a function. -/
theorem coordinates_row
    (A : DenseMatrix ℝ) (i : Fin m) :
    Vec.coordinates n (A.rows.getD i []) = A.toMatrix m n i := by
  funext j
  simp [Vec.coordinates, toMatrix, get]

theorem toMatrix_add
    {W W' : DenseMatrix ℝ}
    (hrows : W.numRows = m)
    (hcols : W.numCols = n) :
    (W.add W').toMatrix m n = W.toMatrix m n + W'.toMatrix m n := by
  subst hrows hcols
  ext i j
  exact get_tabulate _ _ _ _ i.2 j.2

theorem toMatrix_eq_zero
    {A : DenseMatrix ℝ}
    (h : ∀ a ∈ A.entries, a = 0) :
    A.toMatrix m n = 0 := by
  ext i j
  change A.get i j = 0
  unfold get
  rw [Exact.ofNat_zero]
  by_cases hi : (i : ℕ) < A.rows.length
  · rw [List.getD_eq_getElem _ _ hi]
    by_cases hj : (j : ℕ) < A.rows[(i : ℕ)].length
    · rw [List.getD_eq_getElem _ _ hj]
      exact h _ (List.mem_flatten.2 ⟨_, List.getElem_mem hi, List.getElem_mem hj⟩)
    · rw [List.getD_eq_default _ _ (not_lt.1 hj)]
  · rw [List.getD_eq_default _ _ (not_lt.1 hi)]
    rfl

/-- The Frobenius norm is that of the matrix of entries. -/
theorem frobeniusNorm_eq
    {W : DenseMatrix ℝ}
    (hrows : W.numRows = m)
    (hcols : W.numCols = n) :
    W.frobeniusNorm = ‖W.toMatrix m n‖ := by
  subst hrows hcols
  have hrow : ∀ i : Fin W.numRows, Vec.dot (W.rows.getD i []) (W.rows.getD i []) =
      ∑ j, W.toMatrix W.numRows W.numCols i j ^ 2 := by
    intro i
    have hlength : (W.rows.getD i []).length = W.numCols :=
      length_row_getD i.2
    rw [Vec.dot_eq_dotProduct hlength hlength, coordinates_row]
    exact Finset.sum_congr rfl fun j _ => (sq _).symm
  have hsquares : Vec.dot W.entries W.entries =
      ∑ i, ∑ j, W.toMatrix W.numRows W.numCols i j ^ 2 := by
    rw [entries, Vec.dot_flatten rfl, List.zipWith_self, ← Fin.sum_univ_fun_getElem]
    refine Finset.sum_congr rfl fun i _ => ?_
    have hi := hrow i
    rw [List.getD_eq_getElem _ _ i.2] at hi
    exact hi
  rw [frobeniusNorm, Vec.norm_eq_sqrt, hsquares, frobenius_norm_def, ← Real.sqrt_eq_rpow]
  simp

end DenseMatrix

/-- All entries of the Jacobian blocks of a constraint are zero. -/
def Constraint.Detached (c : Constraint ℝ) : Prop :=
  ∀ side ∈ c.sides, ∀ a ∈ side.2.entries, a = 0

namespace ContactProblem

variable {p : ContactProblem ℝ} {m n : ℕ}

/-- The entries of an inertia are computed from two rows of the Jacobian block. -/
theorem get_factoredInertia
    (factor : CholeskyFactor ℝ) (format : Format)
    {J : DenseMatrix ℝ} {i j : ℕ}
    (hi : i < J.numRows)
    (hj : j < J.numRows) :
    (factoredInertia factor format J).get i j =
      Vec.dot (J.rows.getD i []) (factor.solve (J.rows.getD j [])) := by
  have hcolumn : (factor.solveRows (J.cast format)).getD j [] =
      factor.solve (J.rows.getD j []) := by
    have hj' : j < J.rows.length :=
      hj
    rw [CholeskyFactor.solveRows, DenseMatrix.rows_cast,
      List.getD_eq_getElem _ _ (by simpa using hj'), List.getElem_map,
      List.getD_eq_getElem _ _ hj']
  unfold factoredInertia
  dsimp only
  rw [DenseMatrix.get_tabulate _ _ _ _ (by simpa using hi) (by simpa using hj), hcolumn,
    DenseMatrix.rows_cast]

/-- What is computed with a factor is the product with the inverse matrix. -/
theorem toMatrix_factoredInertia
    {A J : DenseMatrix ℝ} {factor : CholeskyFactor ℝ}
    (hfactor : ∀ b : List ℝ, b.length = n → (factor.solve b).length = n ∧
      Vec.coordinates n (factor.solve b) = (A.toMatrix n n)⁻¹ *ᵥ Vec.coordinates n b)
    (hrows : J.numRows = m)
    (hcols : J.numCols = n)
    (format : Format) :
    (factoredInertia factor format J).toMatrix m m =
      J.toMatrix m n * (A.toMatrix n n)⁻¹ * (J.toMatrix m n)ᵀ := by
  subst hrows
  ext i j
  have hlength : ∀ k : Fin J.numRows, (J.rows.getD k []).length = n := fun k =>
    (DenseMatrix.length_row_getD k.2).trans hcols
  obtain ⟨hsize, hsolved⟩ := hfactor _ (hlength j)
  change (factoredInertia factor format J).get i j = _
  rw [get_factoredInertia factor format i.2 j.2, Vec.dot_eq_dotProduct (hlength i) hsize, hsolved,
    DenseMatrix.coordinates_row, DenseMatrix.coordinates_row, Matrix.mul_assoc, Matrix.mul_apply']
  rfl

/-- `J A⁻¹ Jᵀ` for a side of a constraint. -/
noncomputable def sideMatrix (p : ContactProblem ℝ) (m : ℕ) (side : ℕ × DenseMatrix ℝ) :
    Matrix (Fin m) (Fin m) ℝ :=
  match p.cliques[side.1]? with
  | some c =>
      side.2.toMatrix m c.size * (c.dynamics.toMatrix c.size c.size)⁻¹ *
        (side.2.toMatrix m c.size)ᵀ
  | none => 0

/-- The inertia felt at a constraint, as a sum over its sides. -/
noncomputable def inertiaMatrix (p : ContactProblem ℝ) (m : ℕ) (c : Constraint ℝ) :
    Matrix (Fin m) (Fin m) ℝ :=
  (c.sides.map (p.sideMatrix m)).sum

theorem sum_apply
    (sides : List (ℕ × DenseMatrix ℝ)) (i : Fin m) :
    (sides.map (p.sideMatrix m)).sum i i = (sides.map fun s => p.sideMatrix m s i i).sum := by
  induction sides with
  | nil =>
      rfl
  | cons side sides ih =>
      rw [List.map_cons, List.sum_cons, List.map_cons, List.sum_cons, Matrix.add_apply, ih]

/-- The cliques that a constraint acts on have positive definite dynamics matrices. -/
def DefiniteAt (p : ContactProblem ℝ) (c : Constraint ℝ) : Prop :=
  ∀ side ∈ c.sides, ∀ k, p.cliques[side.1]? = some k →
    (k.dynamics.toMatrix k.size k.size).PosDef

section Sides

variable {c : Constraint ℝ} {side : ℕ × DenseMatrix ℝ}

/-- The inverse inertia felt on a side of a constraint is computed. -/
theorem sideInertia_eq_ok
    (hp : p.WellFormed)
    (hc : c ∈ p.constraints)
    (hdefinite : p.DefiniteAt c)
    (hside : side ∈ c.sides) :
    ∃ W, p.sideInertia side = .ok W ∧ W.numRows = c.numEquations ∧ W.numCols = c.numEquations ∧
      W.toMatrix c.numEquations c.numEquations = p.sideMatrix c.numEquations side := by
  obtain ⟨k, hk, hcols⟩ := hp.fits c hc side hside
  have hsquare : k.dynamics.numCols = k.size :=
    (hp.square k (List.mem_of_getElem? hk)).symm
  obtain ⟨factor, hfactor, hsolve⟩ :=
    CholeskyFactor.exists_ofMatrix rfl hsquare (hdefinite side hside k hk)
  have hrows := (hp.proper c hc).numRows_eq side hside
  refine ⟨factoredInertia factor k.dynamics.format side.2, ?_, ?_, ?_, ?_⟩
  · unfold sideInertia inverseInertia
    rw [hk]
    dsimp only
    rw [hfactor]
    rfl
  · rw [numRows_factoredInertia, hrows]
  · rw [numCols_factoredInertia, hrows]
  · rw [toMatrix_factoredInertia hsolve hrows hcols, sideMatrix, hk]
    rfl

/-- The inverse inertia felt at a constraint is computed. -/
theorem constraintInertia_eq_ok
    (hp : p.WellFormed)
    (hc : c ∈ p.constraints)
    (hdefinite : p.DefiniteAt c) :
    ∃ W, p.constraintInertia c = .ok W ∧ W.numRows = c.numEquations ∧
      W.numCols = c.numEquations ∧
      W.toMatrix c.numEquations c.numEquations = p.inertiaMatrix c.numEquations c := by
  obtain ⟨W, hW, hrows, hcols, hmatrix⟩ := sideInertia_eq_ok hp hc hdefinite c.first_mem_sides
  unfold constraintInertia inertiaMatrix Constraint.sides
  rw [hW, Outcome.ok_bind]
  cases hsecond : c.second? with
  | none =>
      refine ⟨W, rfl, hrows, hcols, ?_⟩
      rw [hmatrix]
      simp
  | some side =>
      obtain ⟨W', hW', -, -, hmatrix'⟩ :=
        sideInertia_eq_ok hp hc hdefinite (Constraint.second_mem_sides hsecond)
      refine ⟨W.add W', ?_, ?_, ?_, ?_⟩
      · dsimp only
        rw [hW']
        rfl
      · simpa [DenseMatrix.add] using hrows
      · simpa [DenseMatrix.add] using hcols
      · rw [DenseMatrix.toMatrix_add hrows hcols, hmatrix, hmatrix']
        simp

/-- **The mean inertia of a constraint** is the norm of its inertia divided by the number of its
equations. -/
theorem meanInertia_eq_ok
    (hp : p.WellFormed)
    (hc : c ∈ p.constraints)
    (hdefinite : p.DefiniteAt c) :
    ∃ format, p.meanInertia c =
      .ok (format, ‖p.inertiaMatrix c.numEquations c‖ / c.numEquations) := by
  obtain ⟨W, hW, hrows, hcols, hmatrix⟩ := constraintInertia_eq_ok hp hc hdefinite
  refine ⟨W.format, ?_⟩
  unfold meanInertia
  rw [hW, Outcome.ok_bind, DenseMatrix.frobeniusNorm_eq hrows hcols, hmatrix]
  rfl

/-- The diagonal entries of `J A⁻¹ Jᵀ` are not negative, and vanish only with the rows of `J`. -/
theorem sideMatrix_diagonal
    (hp : p.WellFormed)
    (hc : c ∈ p.constraints)
    (hdefinite : p.DefiniteAt c)
    (hside : side ∈ c.sides)
    (i : Fin m) :
    0 ≤ p.sideMatrix m side i i ∧
      (p.sideMatrix m side i i = 0 → side.2.toMatrix m side.2.numCols i = 0) := by
  obtain ⟨k, hk, hcols⟩ := hp.fits c hc side hside
  have hinverse := (hdefinite side hside k hk).inv
  have hentry : p.sideMatrix m side i i =
      side.2.toMatrix m k.size i ⬝ᵥ
        (k.dynamics.toMatrix k.size k.size)⁻¹ *ᵥ side.2.toMatrix m k.size i := by
    rw [sideMatrix, hk]
    dsimp only
    rw [Matrix.mul_assoc, Matrix.mul_apply']
    rfl
  rw [hentry, hcols]
  constructor
  · exact hinverse.posSemidef.dotProduct_mulVec_nonneg _
  · intro hzero
    by_contra hne
    exact (hinverse.dotProduct_mulVec_pos hne).ne' hzero

end Sides

section Vanishing

variable {c : Constraint ℝ}

/-- **The inertia vanishes exactly for detached constraints**: the diagonal entries of the sides
cannot cancel. -/
theorem inertiaMatrix_eq_zero_iff
    (hp : p.WellFormed)
    (hc : c ∈ p.constraints)
    (hdefinite : p.DefiniteAt c) :
    p.inertiaMatrix c.numEquations c = 0 ↔ c.Detached := by
  constructor
  · intro hzero side hside a ha
    obtain ⟨row, hrow, ha⟩ := List.mem_flatten.1 ha
    obtain ⟨i, hi, rfl⟩ := List.getElem_of_mem hrow
    have hi' : i < c.numEquations :=
      (hp.proper c hc).numRows_eq side hside ▸ hi
    have hsum : (c.sides.map fun s => p.sideMatrix c.numEquations s ⟨i, hi'⟩ ⟨i, hi'⟩).sum = 0 := by
      rw [← sum_apply, ← inertiaMatrix, hzero]
      rfl
    have hdiagonal := List.all_zero_of_le_zero_le_of_sum_eq_zero (by
      intro x hx
      obtain ⟨s, hs, rfl⟩ := List.mem_map.1 hx
      exact (sideMatrix_diagonal hp hc hdefinite hs _).1) hsum (List.mem_map_of_mem hside)
    have hrow := (sideMatrix_diagonal hp hc hdefinite hside _).2 hdiagonal
    rw [← DenseMatrix.coordinates_row, List.getD_eq_getElem _ _ hi,
      Vec.coordinates_eq_zero_iff (side.2.length_row _ (List.getElem_mem hi))] at hrow
    exact hrow a ha
  · intro hdetached
    apply List.sum_eq_zero
    intro W hW
    obtain ⟨side, hside, rfl⟩ := List.mem_map.1 hW
    unfold sideMatrix
    split
    · rw [DenseMatrix.toMatrix_eq_zero (hdetached side hside), Matrix.zero_mul, Matrix.zero_mul]
    · rfl

end Vanishing

end ContactProblem
end ConvexContact
