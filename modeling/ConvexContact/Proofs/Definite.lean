import Mathlib
import ConvexContact.Proofs.BlockSparse

/-!
# Positive definite matrices

A matrix that is given by its rows is read as a function of positions (`DenseMatrix.toMatrix`), so
that it can be symmetric and positive definite in the usual sense (`Matrix.PosDef`).  Its products
with lists are those with functions (`DenseMatrix.coordinates_mulVec`), and its quadratic form is
not negative.

**Result.**  `DenseMatrix.dot_diagonalTimes_nonneg`: positive definite matrices along the diagonal
have a nonnegative quadratic form.
-/

namespace ConvexContact

open Matrix

namespace Vec

/-- The first coordinates of a list as a function. -/
def coordinates (n : ℕ) (x : List ℝ) : Fin n → ℝ :=
  fun i => x.getD i 0

theorem ofFn_coordinates
    {n : ℕ} {x : List ℝ} (hx : x.length = n) :
    List.ofFn (coordinates n x) = x := by
  apply List.ext_getElem
  · rw [List.length_ofFn, hx]
  · intro i h₁ h₂
    simp [coordinates, h₂]

theorem coordinates_eq_zero_iff
    {n : ℕ} {x : List ℝ} (hx : x.length = n) :
    coordinates n x = 0 ↔ ∀ a ∈ x, a = 0 := by
  constructor
  · intro h a ha
    rw [← ofFn_coordinates hx, h] at ha
    obtain ⟨i, hi⟩ := (List.mem_ofFn' _ _).1 ha
    exact hi.symm
  · intro h
    funext i
    have hi : (i : ℕ) < x.length := by
      rw [hx]
      exact i.2
    simp only [coordinates, Pi.zero_apply]
    rw [List.getD_eq_getElem _ _ hi]
    exact h _ (List.getElem_mem hi)

theorem dot_eq_dotProduct
    [Threshold]
    {n : ℕ} {x y : List ℝ}
    (hx : x.length = n)
    (hy : y.length = n) :
    dot x y = coordinates n x ⬝ᵥ coordinates n y := by
  rw [dot_eq_sum hx hy, dotProduct, Finset.sum_range]
  rfl

end Vec

namespace DenseMatrix

variable [Threshold]

/-- The entries of a matrix as a function of positions. -/
noncomputable def toMatrix (A : DenseMatrix ℝ) (m n : ℕ) : Matrix (Fin m) (Fin n) ℝ :=
  fun i j => A.get i j

theorem coordinates_mulVec
    {A : DenseMatrix ℝ} {m n : ℕ} {x : List ℝ}
    (hrows : A.numRows = m)
    (hcols : A.numCols = n)
    (hx : x.length = n) :
    Vec.coordinates m (A.mulVec x) = A.toMatrix m n *ᵥ Vec.coordinates n x := by
  subst hrows hcols
  funext i
  have hrow : (A.rows.getD i []).length = A.numCols :=
    length_row_getD i.2
  change (A.mulVec x).getD i 0 = ∑ j : Fin A.numCols, A.get i j * x.getD j 0
  rw [getD_mulVec, Vec.dot_eq_sum hrow hx, Finset.sum_range]
  simp only [get, Exact.ofNat_zero]

/-- The quadratic form of a positive definite matrix is not negative. -/
theorem dot_mulVec_nonneg
    {A : DenseMatrix ℝ} {n : ℕ} {x : List ℝ}
    (hrows : A.numRows = n)
    (hcols : A.numCols = n)
    (hA : (A.toMatrix n n).PosDef)
    (hx : x.length = n) :
    0 ≤ Vec.dot x (A.mulVec x) := by
  rw [Vec.dot_eq_dotProduct hx (by rw [length_mulVec, hrows]), coordinates_mulVec hrows hcols hx]
  exact hA.posSemidef.dotProduct_mulVec_nonneg (Vec.coordinates n x)

/-- Positive definite matrices along the diagonal have a nonnegative quadratic form. -/
theorem dot_diagonalTimes_nonneg
    {blocks : List (DenseMatrix ℝ)} {x : List ℝ}
    (hblocks : ∀ A ∈ blocks, A.numRows = A.numCols ∧ (A.toMatrix A.numCols A.numCols).PosDef)
    (hx : x.length = totalSize (blocks.map (·.numCols))) :
    0 ≤ Vec.dot x (diagonalTimes blocks x) := by
  induction blocks generalizing x with
  | nil =>
      exact (Vec.dot_nil_right x).ge
  | cons A blocks ih =>
      obtain ⟨hsquare, hpositive⟩ := hblocks A List.mem_cons_self
      have hcons : diagonalTimes (A :: blocks) x =
          A.mulVec (x.take A.numCols) ++ diagonalTimes blocks (x.drop A.numCols) :=
        rfl
      rw [List.map_cons, totalSize_cons] at hx
      have htake : (x.take A.numCols).length = A.numCols := by
        rw [List.length_take]
        omega
      have hdrop : (x.drop A.numCols).length = totalSize (blocks.map (·.numCols)) := by
        rw [List.length_drop]
        omega
      have hhead := dot_mulVec_nonneg hsquare rfl hpositive htake
      have htail := ih (fun B hB => hblocks B (List.mem_cons_of_mem A hB)) hdrop
      rw [hcons]
      conv_rhs =>
        arg 1
        rw [← List.take_append_drop A.numCols x]
      rw [Vec.dot_append (by rw [htake, length_mulVec, hsquare])]
      exact add_nonneg hhead htail

end DenseMatrix
end ConvexContact
