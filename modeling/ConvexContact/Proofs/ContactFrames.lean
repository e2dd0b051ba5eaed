import Mathlib
import ConvexContact.ContactFrame
import ConvexContact.Proofs.Definite

/-!
# Frames of contact normals

**Vectors.**  In exact arithmetic, normalising divides a vector by its length, or by `10⁻¹²` if it
is shorter than that (`WorldVector.norm_normalize`).  Crossing a unit vector with the coordinate
axis in which it is smallest leaves at least two thirds of its squared length, so that the first
tangent is normalised to length one (`WorldVector.norm_normalize_orthogonal`).

**Frames.**  The matrix of a frame is a rotation exactly if the normal is at least `10⁻¹²` long
(`ContactFrame.toMatrix_mem_iff`).  A shorter normal gives a third row that is shorter than one.
-/

namespace ConvexContact

open Matrix

section Frames

variable [Threshold]

namespace WorldVector

/-- Inner product. -/
noncomputable def dot (v w : WorldVector ℝ) : ℝ :=
  v.x * w.x + v.y * w.y + v.z * w.z

theorem norm_eq_sqrt
    (v : WorldVector ℝ) :
    v.norm = √(v.dot v) :=
  rfl

omit [Threshold] in
theorem dot_self_nonneg
    (v : WorldVector ℝ) :
    0 ≤ v.dot v := by
  unfold dot
  nlinarith [mul_self_nonneg v.x, mul_self_nonneg v.y, mul_self_nonneg v.z]

theorem norm_eq_one_iff
    {v : WorldVector ℝ} :
    v.norm = 1 ↔ v.dot v = 1 := by
  rw [norm_eq_sqrt, Real.sqrt_eq_one]

/-- Only the zero vector has length zero. -/
theorem norm_eq_zero_iff
    {v : WorldVector ℝ} :
    v.norm = 0 ↔ v = ⟨0, 0, 0⟩ := by
  obtain ⟨x, y, z⟩ := v
  rw [norm_eq_sqrt, Real.sqrt_eq_zero (dot_self_nonneg _), mk.injEq]
  unfold dot
  constructor
  · intro h
    refine ⟨?_, ?_, ?_⟩ <;> nlinarith [mul_self_nonneg x, mul_self_nonneg y, mul_self_nonneg z]
  · rintro ⟨rfl, rfl, rfl⟩
    norm_num

omit [Threshold] in
theorem dot_comm
    (v w : WorldVector ℝ) :
    v.dot w = w.dot v := by
  unfold dot
  ring

/-- The squared length of a cross product. -/
theorem dot_cross_self
    (v w : WorldVector ℝ) :
    (v.cross w).dot (v.cross w) = v.dot v * w.dot w - v.dot w ^ 2 := by
  change (v.y * w.z - v.z * w.y) * (v.y * w.z - v.z * w.y) +
    (v.z * w.x - v.x * w.z) * (v.z * w.x - v.x * w.z) +
    (v.x * w.y - v.y * w.x) * (v.x * w.y - v.y * w.x) = _
  unfold dot
  ring

theorem dot_cross_left
    (v w : WorldVector ℝ) :
    (v.cross w).dot v = 0 := by
  change (v.y * w.z - v.z * w.y) * v.x + (v.z * w.x - v.x * w.z) * v.y +
    (v.x * w.y - v.y * w.x) * v.z = 0
  ring

theorem dot_cross_right
    (v w : WorldVector ℝ) :
    (v.cross w).dot w = 0 := by
  change (v.y * w.z - v.z * w.y) * w.x + (v.z * w.x - v.x * w.z) * w.y +
    (v.x * w.y - v.y * w.x) * w.z = 0
  ring

/-- The number by which a vector is divided when it is normalised. -/
noncomputable def divisor (v : WorldVector ℝ) : ℝ :=
  max v.norm shortest

theorem divisor_eq
    (v : WorldVector ℝ) :
    v.divisor = max v.norm (1 / 10 ^ 12) := by
  rw [divisor]
  congr 1
  simp only [shortest, Exact.ofNat_one, Exact.ofNat_ofNat]
  norm_num

theorem divisor_pos
    (v : WorldVector ℝ) :
    0 < v.divisor := by
  rw [divisor_eq]
  exact lt_max_of_lt_right (by norm_num)

theorem divisor_of_le
    {v : WorldVector ℝ}
    (h : 1 / 10 ^ 12 ≤ v.norm) :
    v.divisor = v.norm := by
  rw [divisor_eq, max_eq_left h]

theorem normalize_eq
    (v : WorldVector ℝ) :
    v.normalize = ⟨v.x / v.divisor, v.y / v.divisor, v.z / v.divisor⟩ := by
  unfold normalize
  rw [Exact.larger_eq_max]
  rfl

theorem dot_normalize_left
    (v w : WorldVector ℝ) :
    v.normalize.dot w = v.dot w / v.divisor := by
  rw [normalize_eq]
  unfold dot
  ring

theorem dot_normalize_self
    (v : WorldVector ℝ) :
    v.normalize.dot v.normalize = v.dot v / v.divisor ^ 2 := by
  rw [normalize_eq]
  unfold dot
  ring

/-- The length of a normalised vector. -/
theorem norm_normalize
    (v : WorldVector ℝ) :
    v.normalize.norm = v.norm / v.divisor := by
  rw [norm_eq_sqrt, dot_normalize_self, Real.sqrt_div v.dot_self_nonneg,
    Real.sqrt_sq v.divisor_pos.le, norm_eq_sqrt]

/-- A normalised vector has length one exactly if the vector is long enough. -/
theorem norm_normalize_eq_one_iff
    {v : WorldVector ℝ} :
    v.normalize.norm = 1 ↔ 1 / 10 ^ 12 ≤ v.norm := by
  rw [norm_normalize, div_eq_one_iff_eq v.divisor_pos.ne', divisor_eq, eq_comm, max_eq_left_iff]

/-- The squared length that is left by crossing a vector with the axis in which it is smallest. -/
theorem le_dot_orthogonal
    (v : WorldVector ℝ) :
    2 / 3 * v.dot v ≤ v.orthogonal.dot v.orthogonal := by
  have hself : ∀ a : ℝ, a ≤ a := fun a => le_rfl
  have hsquare : ∀ {a b : ℝ}, |a| ≤ |b| → a * a ≤ b * b := fun h => abs_le_iff_mul_self_le.1 h
  unfold orthogonal
  rw [dot_cross_self]
  unfold smallestAxis
  simp only [Precedes, Exact.abs_eq_abs, hself, not_true_eq_false, false_and, or_false]
  split_ifs with hba hcb hca
  all_goals
    simp only [not_lt, Exact.ofNat_zero, Exact.ofNat_one] at *
    unfold dot
  · nlinarith [hsquare hba.le, hsquare hcb.le]
  · nlinarith [hsquare hba.le, hsquare hcb]
  · nlinarith [hsquare hba, hsquare hca.le]
  · nlinarith [hsquare hba, hsquare hca]

theorem dot_orthogonal
    (v : WorldVector ℝ) :
    v.orthogonal.dot v = 0 :=
  dot_cross_right _ _

/-- A vector orthogonal to a unit vector is long enough to be normalised. -/
theorem norm_normalize_orthogonal
    {v : WorldVector ℝ}
    (h : v.norm = 1) :
    v.orthogonal.normalize.norm = 1 := by
  have hinner := v.le_dot_orthogonal
  rw [norm_eq_one_iff.1 h] at hinner
  rw [norm_normalize_eq_one_iff, norm_eq_sqrt]
  apply Real.le_sqrt_of_sq_le
  calc (1 / 10 ^ 12 : ℝ) ^ 2 ≤ 2 / 3 * 1 := by norm_num
    _ ≤ _ := hinner

end WorldVector

namespace ContactFrame

open WorldVector

/-- Three unit vectors, each the cross product of the other two. -/
structure Orthonormal (F : ContactFrame ℝ) : Prop where
  dot_tangent₁ : F.tangent₁.dot F.tangent₁ = 1
  dot_normal : F.normal.dot F.normal = 1
  dot_tangent₁_normal : F.tangent₁.dot F.normal = 0
  tangent₂_eq : F.tangent₂ = F.normal.cross F.tangent₁

/-- The frame of a direction is orthonormal if the direction is long enough. -/
theorem orthonormal_ofDirection
    {v : WorldVector ℝ}
    (h : 1 / 10 ^ 12 ≤ v.norm) :
    (ofDirection v).Orthonormal where
  dot_tangent₁ := norm_eq_one_iff.1 (norm_normalize_orthogonal (norm_normalize_eq_one_iff.2 h))
  dot_normal := norm_eq_one_iff.1 (norm_normalize_eq_one_iff.2 h)
  dot_tangent₁_normal := by
    change v.normalize.orthogonal.normalize.dot v.normalize = 0
    rw [dot_normalize_left, dot_orthogonal, zero_div]
  tangent₂_eq := rfl

/-- The rows of a frame as a matrix. -/
theorem toMatrix_toMatrix
    (F : ContactFrame ℝ) (format : Format) :
    (F.toMatrix format).toMatrix 3 3 =
      !![F.tangent₁.x, F.tangent₁.y, F.tangent₁.z;
        F.tangent₂.x, F.tangent₂.y, F.tangent₂.z;
        F.normal.x, F.normal.y, F.normal.z] := by
  ext i j
  change (F.toMatrix format).get i j = _
  unfold toMatrix
  rw [DenseMatrix.get_tabulate _ _ _ _ i.2 j.2]
  fin_cases i <;> fin_cases j <;> rfl

theorem det_toMatrix
    {F : ContactFrame ℝ}
    (h : F.tangent₂ = F.normal.cross F.tangent₁)
    (format : Format) :
    ((F.toMatrix format).toMatrix 3 3).det =
      F.normal.dot F.normal * F.tangent₁.dot F.tangent₁ -
        F.tangent₁.dot F.normal ^ 2 := by
  have hx : F.tangent₂.x = F.normal.y * F.tangent₁.z - F.normal.z * F.tangent₁.y :=
    congrArg WorldVector.x h
  have hy : F.tangent₂.y = F.normal.z * F.tangent₁.x - F.normal.x * F.tangent₁.z :=
    congrArg WorldVector.y h
  have hz : F.tangent₂.z = F.normal.x * F.tangent₁.y - F.normal.y * F.tangent₁.x :=
    congrArg WorldVector.z h
  rw [toMatrix_toMatrix, det_fin_three]
  simp only [of_apply, cons_val', cons_val_zero, cons_val_one, cons_val, hx, hy, hz]
  unfold dot
  ring

/-- The dot products of the rows of a frame. -/
theorem toMatrix_mul_transpose
    (F : ContactFrame ℝ) (format : Format) :
    (F.toMatrix format).toMatrix 3 3 * ((F.toMatrix format).toMatrix 3 3)ᵀ =
      !![F.tangent₁.dot F.tangent₁, F.tangent₁.dot F.tangent₂, F.tangent₁.dot F.normal;
        F.tangent₂.dot F.tangent₁, F.tangent₂.dot F.tangent₂, F.tangent₂.dot F.normal;
        F.normal.dot F.tangent₁, F.normal.dot F.tangent₂, F.normal.dot F.normal] := by
  rw [toMatrix_toMatrix]
  ext i j
  fin_cases i <;> fin_cases j <;> simp [mul_apply, Fin.sum_univ_three, dot]

/-- An orthonormal frame has the matrix of a rotation. -/
theorem Orthonormal.toMatrix_mem
    {F : ContactFrame ℝ}
    (hF : F.Orthonormal)
    (format : Format) :
    (F.toMatrix format).toMatrix 3 3 ∈ specialOrthogonalGroup (Fin 3) ℝ := by
  have hsecond : F.tangent₂.dot F.tangent₂ = 1 := by
    rw [hF.tangent₂_eq, dot_cross_self, hF.dot_normal, hF.dot_tangent₁, dot_comm,
      hF.dot_tangent₁_normal]
    norm_num
  have hfirst : F.tangent₂.dot F.tangent₁ = 0 := by
    rw [hF.tangent₂_eq, dot_cross_right]
  have hnormal : F.tangent₂.dot F.normal = 0 := by
    rw [hF.tangent₂_eq, dot_cross_left]
  rw [mem_specialOrthogonalGroup_iff, mem_orthogonalGroup_iff]
  constructor
  · change _ * ((F.toMatrix format).toMatrix 3 3)ᵀ = 1
    rw [toMatrix_mul_transpose, hF.dot_tangent₁, hF.dot_normal, hsecond, hfirst, hnormal,
      hF.dot_tangent₁_normal, dot_comm F.tangent₁, hfirst, dot_comm F.normal,
      hF.dot_tangent₁_normal, dot_comm F.normal, hnormal, one_fin_three]
  · rw [det_toMatrix hF.tangent₂_eq, hF.dot_normal, hF.dot_tangent₁, hF.dot_tangent₁_normal]
    norm_num

/-- **Frames of long normals are rotations**, and no others are. -/
theorem toMatrix_mem_iff
    {v : WorldVector ℝ}
    (format : Format) :
    ((ofDirection v).toMatrix format).toMatrix 3 3 ∈ specialOrthogonalGroup (Fin 3) ℝ ↔
      1 / 10 ^ 12 ≤ v.norm := by
  constructor
  · intro h
    have hproduct := (mem_orthogonalGroup_iff _ _).1 (mem_specialOrthogonalGroup_iff.1 h).1
    have hentry : (ofDirection v).normal.dot (ofDirection v).normal = 1 := by
      have hlast := congrFun (congrFun hproduct 2) 2
      change (((ofDirection v).toMatrix format).toMatrix 3 3 *
        (((ofDirection v).toMatrix format).toMatrix 3 3)ᵀ) 2 2 = 1 at hlast
      rwa [toMatrix_mul_transpose] at hlast
    exact norm_normalize_eq_one_iff.1 (norm_eq_one_iff.2 hentry)
  · intro h
    exact (orthonormal_ofDirection h).toMatrix_mem format

end ContactFrame

end Frames

end ConvexContact
