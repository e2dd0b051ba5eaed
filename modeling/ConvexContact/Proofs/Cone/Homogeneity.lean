import Mathlib
import ConvexContact.Proofs.Cone.NearestPoint
import ConvexContact.Proofs.Cone.Rescaling

/-!
# Units of the projection

Multiplying an impulse by a positive number does not turn it.  The regime of an impulse and its
polar quantities depend on its direction alone, as long as neither of the two impulses counts as
negligible: the threshold is the only absolute quantity in the projection.

**Degrees.**  In each regime the potential is homogeneous of degree two, its gradient of degree one
and its second derivative of degree zero.  A multiple `s` of the regularization multiplies the
impulse in scaled coordinates by `√s` and does not change the opening of the cone.

**Result.**  `Constraint.project_homogeneous`: how the evaluations of a contact follow the units of
the impulse and of the regularization.
-/

namespace ConvexContact

section Multiples

variable [Threshold]

namespace ContactVector

variable {k : ℝ}

theorem tangentialNorm_smul
    (hk : 0 ≤ k)
    (z : ContactVector ℝ) :
    (z.smul k).tangentialNorm = k * z.tangentialNorm := by
  rw [tangentialNorm_eq, tangentialNorm_eq]
  exact sqrt_smul hk z.t₁ z.t₂

theorem normSquared_smul
    (hk : 0 ≤ k)
    (z : ContactVector ℝ) :
    (z.smul k).normSquared = k ^ 2 * z.normSquared := by
  rw [normSquared_eq, normSquared_eq, tangentialNorm_smul hk, mul_add, mul_pow]
  congr 1
  exact mul_pow k z.n 2

theorem sqrt_normSquared_smul
    (hk : 0 ≤ k)
    (z : ContactVector ℝ) :
    √(z.smul k).normSquared = k * √z.normSquared := by
  rw [normSquared_smul hk, Real.sqrt_mul (sq_nonneg k), Real.sqrt_sq hk]

theorem scaled_smul
    (k : ℝ) (y R : ContactVector ℝ) :
    (y.smul k).scaled R = (y.scaled R).smul k := by
  simp only [scaled, smul, mul_left_comm]

/-- A multiple of the regularization stretches the scaled coordinates. -/
theorem scaled_smul_right
    {s : ℝ}
    (hs : 0 ≤ s)
    (y R : ContactVector ℝ) :
    y.scaled (R.smul s) = (y.scaled R).smul √s := by
  simp only [scaled, smul, Real.sqrt_mul hs, mul_assoc]

theorem unscaled_smul_right
    {s : ℝ}
    (hs : 0 < s)
    (x R : ContactVector ℝ) :
    (x.smul √s).unscaled (R.smul s) = x.unscaled R := by
  have hroot : √s ≠ 0 :=
    (Real.sqrt_pos.2 hs).ne'
  simp only [unscaled, smul, Real.sqrt_mul hs.le, mul_div_mul_left _ _ hroot]

end ContactVector

namespace Regime

variable {k : ℝ}

/-- The regime of an impulse depends on its direction alone. -/
theorem ofImpulse_smul
    (p : ConeParameters ℝ) (ratio : ℝ) {z : ContactVector ℝ}
    (hk : 0 < k)
    (hlong : Threshold.value < z.normSquared)
    (hlong' : Threshold.value < (z.smul k).normSquared) :
    ofImpulse p ratio (z.smul k) = ofImpulse p ratio z := by
  have harg : Complex.arg ⟨(z.smul k).n, (z.smul k).tangentialNorm⟩ =
      Complex.arg ⟨z.n, z.tangentialNorm⟩ := by
    rw [ContactVector.tangentialNorm_smul hk.le, ← Complex.arg_real_mul ⟨z.n, z.tangentialNorm⟩ hk]
    congr 1
    apply Complex.ext <;> simp [ContactVector.smul]
  refine ofImpulse_congr (iff_of_false (not_le.2 hlong') (not_le.2 hlong))
    (mul_pos_iff_of_pos_left hk) ?_
  unfold angle
  rw [harg]

/-- The polar quantities depend on the direction alone. -/
theorem polar_smul
    (hk : 0 < k)
    (M : Jet ℝ) (z : ContactVector ℝ) :
    polar M (z.smul k) = polar M z := by
  have hsine : (z.smul k).tangentialNorm / √(z.smul k).normSquared =
      z.tangentialNorm / √z.normSquared := by
    rw [ContactVector.tangentialNorm_smul hk.le, ContactVector.sqrt_normSquared_smul hk.le,
      mul_div_mul_left _ _ hk.ne']
  have hcosine : (z.smul k).n / √(z.smul k).normSquared = z.n / √z.normSquared := by
    rw [ContactVector.sqrt_normSquared_smul hk.le]
    exact mul_div_mul_left _ _ hk.ne'
  unfold polar
  simp only [Exact.sqrt_eq, hsine, hcosine]

/-- The potential is homogeneous of degree two. -/
theorem cost_smul
    (hk : 0 < k)
    (r : Regime ℝ) (z : ContactVector ℝ) :
    r.cost (z.smul k) = k ^ 2 * r.cost z := by
  cases r with
  | compressed =>
      simp only [cost, ContactVector.smul]
      ring
  | _ =>
      simp only [cost, ContactVector.normSquared_smul hk.le]
      ring

/-- The gradient of the potential is homogeneous of degree one. -/
theorem gradient_smul
    (hk : 0 < k)
    (r : Regime ℝ) (z : ContactVector ℝ) :
    r.gradient (z.smul k) = (r.gradient z).smul k := by
  cases r with
  | stick =>
      rfl
  | slide phi lower upper =>
      simp only [gradient, polar_smul hk, Exact.sqrt_eq, ContactVector.sqrt_normSquared_smul hk.le]
      simp only [ContactVector.smul, mul_left_comm, mul_assoc]
  | _ =>
      simp only [gradient, ContactVector.smul, mul_left_comm]

/-- The second derivative of the potential depends on the direction alone. -/
theorem hessian_smul
    (hk : 0 < k)
    (r : Regime ℝ) (z : ContactVector ℝ) :
    r.hessian (z.smul k) = r.hessian z := by
  cases r with
  | slide phi lower upper =>
      have hdirection : ∀ t : ℝ, k * t / (k * z.tangentialNorm) = t / z.tangentialNorm :=
        fun t => mul_div_mul_left _ _ hk.ne'
      simp only [hessian, polar_smul hk, ContactVector.tangentialNorm_smul hk.le]
      simp only [ContactVector.smul, hdirection]
  | _ =>
      rfl

end Regime

namespace ConeParameters

variable {p : ConeParameters ℝ} {R y : ContactVector ℝ} {k s : ℝ}

/-- Potential, impulse and derivative of the projection at a multiple of an impulse. -/
theorem projection_smul
    (format : Format)
    (hk : 0 < k)
    (hlong : Threshold.value < (y.scaled R).normSquared)
    (hlong' : Threshold.value < ((y.smul k).scaled R).normSquared) :
    ((p.regimeAt R (y.smul k)).gradient ((y.smul k).scaled R)).unscaled R =
        (((p.regimeAt R y).gradient (y.scaled R)).unscaled R).smul k ∧
      p.derivativeAt format R (y.smul k) = p.derivativeAt format R y ∧
      (p.regimeAt R (y.smul k)).cost ((y.smul k).scaled R) =
        k ^ 2 * (p.regimeAt R y).cost (y.scaled R) := by
  rw [ContactVector.scaled_smul] at hlong' ⊢
  have hregime : p.regimeAt R (y.smul k) = p.regimeAt R y := by
    unfold regimeAt
    rw [ContactVector.scaled_smul]
    exact Regime.ofImpulse_smul p _ hk hlong hlong'
  refine ⟨?_, ?_, ?_⟩
  · rw [hregime, Regime.gradient_smul hk, ContactVector.unscaled_smul]
  · unfold derivativeAt
    rw [hregime, ContactVector.scaled_smul, Regime.hessian_smul hk]
  · rw [hregime, Regime.cost_smul hk]

/-- Potential, impulse and derivative of the projection for a multiple of the regularization. -/
theorem projection_smul_right
    (format : Format)
    (hs : 0 < s)
    (hlong : Threshold.value < (y.scaled R).normSquared)
    (hlong' : Threshold.value < (y.scaled (R.smul s)).normSquared) :
    ((p.regimeAt (R.smul s) y).gradient (y.scaled (R.smul s))).unscaled (R.smul s) =
        ((p.regimeAt R y).gradient (y.scaled R)).unscaled R ∧
      p.derivativeAt format (R.smul s) y = p.derivativeAt format R y ∧
      (p.regimeAt (R.smul s) y).cost (y.scaled (R.smul s)) =
        s * (p.regimeAt R y).cost (y.scaled R) := by
  have hroot : 0 < √s :=
    Real.sqrt_pos.2 hs
  rw [ContactVector.scaled_smul_right hs.le] at hlong' ⊢
  have hratio : (R.smul s).t₁ / (R.smul s).n = R.t₁ / R.n :=
    mul_div_mul_left _ _ hs.ne'
  have hregime : p.regimeAt (R.smul s) y = p.regimeAt R y := by
    unfold regimeAt
    rw [hratio, ContactVector.scaled_smul_right hs.le]
    exact Regime.ofImpulse_smul p _ hroot hlong hlong'
  refine ⟨?_, ?_, ?_⟩
  · rw [hregime, Regime.gradient_smul hroot, ContactVector.unscaled_smul_right hs]
  · -- The roots of the regularization stand on both sides of the second derivative.
    have hroots : [√(R.smul s).t₁, √(R.smul s).t₂, √(R.smul s).n] =
        [√R.t₁, √R.t₂, √R.n].map (√s * ·) := by
      simp only [ContactVector.smul, Real.sqrt_mul hs.le, List.map_cons, List.map_nil]
    have hentry : ∀ i : ℕ, ([√R.t₁, √R.t₂, √R.n].map (√s * ·)).getD i 0 =
        √s * [√R.t₁, √R.t₂, √R.n].getD i 0 := by
      intro i
      rw [← mul_zero √s, List.getD_map]
      simp
    unfold derivativeAt
    rw [hregime, ContactVector.scaled_smul_right hs.le, Regime.hessian_smul hroot, hroots]
    congr 1
    funext i j
    rw [hentry, hentry, mul_left_comm, mul_div_mul_left _ _ hroot.ne']
  · rw [hregime, Regime.cost_smul hroot, Real.sq_sqrt hs.le]

end ConeParameters

end Multiples

namespace Constraint

/-- **The projection has no units of its own.**  Let an impulse and its multiple by `k > 0` exceed
the threshold in the norm of the regularization.  Then the multiple has `k` times the projected
impulse, the same derivative and `k ^ 2` times the cost.  With `s > 0` times the regularization, if
the impulse still exceeds the threshold, the projected impulse and its derivative are the same and
the cost is `s` times that before. -/
theorem project_homogeneous
    [Threshold]
    {c : Constraint ℝ} {p : ConeParameters ℝ} {gap : ℝ} (hlaw : c.law = .frictionCone p gap)
    (format : Format)
    (y₁ y₂ yₙ : ℝ)
    {R₁ R₂ Rₙ : ℝ} (hR₁ : 0 < R₁) (hR₂ : 0 < R₂) (hRₙ : 0 < Rₙ)
    {k s : ℝ} (hk : 0 < k) (hs : 0 < s)
    (hlong : Threshold.value < R₁ * y₁ ^ 2 + R₂ * y₂ ^ 2 + Rₙ * yₙ ^ 2)
    (hlongₖ : Threshold.value < k ^ 2 * (R₁ * y₁ ^ 2 + R₂ * y₂ ^ 2 + Rₙ * yₙ ^ 2))
    (hlongₛ : Threshold.value < s * (R₁ * y₁ ^ 2 + R₂ * y₂ ^ 2 + Rₙ * yₙ ^ 2)) :
    let y : Tensor ℝ := Tensor.ofVec format [y₁, y₂, yₙ]
    let R : Tensor ℝ := Tensor.ofVec format [R₁, R₂, Rₙ]
    ∃ γ D a,
      (c.projectTensor y R = .ok (γ, D) ∧ c.costTensor y R = .ok a) ∧
      (c.projectTensor (y.map (k * ·)) R = .ok (γ.map (k * ·), D) ∧
        c.costTensor (y.map (k * ·)) R = .ok (a.map (k ^ 2 * ·))) ∧
      (c.projectTensor y (R.map (s * ·)) = .ok (γ, D) ∧
        c.costTensor y (R.map (s * ·)) = .ok (a.map (s * ·))) := by
  intro y R
  let y' : ContactVector ℝ := ⟨y₁, y₂, yₙ⟩
  let R' : ContactVector ℝ := ⟨R₁, R₂, Rₙ⟩
  have hnonneg : 0 ≤ R'.t₁ ∧ 0 ≤ R'.t₂ ∧ 0 ≤ R'.n :=
    ⟨hR₁.le, hR₂.le, hRₙ.le⟩
  have hnorm : (y'.scaled R').normSquared = R₁ * y₁ ^ 2 + R₂ * y₂ ^ 2 + Rₙ * yₙ ^ 2 :=
    ContactVector.normSquared_scaled hnonneg y'
  have hnormₖ : ((y'.smul k).scaled R').normSquared =
      k ^ 2 * (R₁ * y₁ ^ 2 + R₂ * y₂ ^ 2 + Rₙ * yₙ ^ 2) := by
    rw [ContactVector.scaled_smul, ContactVector.normSquared_smul hk.le, hnorm]
  have hnormₛ : (y'.scaled (R'.smul s)).normSquared =
      s * (R₁ * y₁ ^ 2 + R₂ * y₂ ^ 2 + Rₙ * yₙ ^ 2) := by
    rw [ContactVector.scaled_smul_right hs.le, ContactVector.normSquared_smul (Real.sqrt_nonneg s),
      hnorm, Real.sq_sqrt hs.le]
  rw [← hnorm] at hlong
  obtain ⟨hγₖ, hDₖ, haₖ⟩ :=
    ConeParameters.projection_smul (p := p) format hk hlong (hnormₖ ▸ hlongₖ)
  obtain ⟨hγₛ, hDₛ, haₛ⟩ :=
    ConeParameters.projection_smul_right (p := p) format hs hlong (hnormₛ ▸ hlongₛ)
  have hyₖ : y.map (k * ·) = Tensor.ofVec format (y'.smul k).toList :=
    Tensor.map_ofVec _ format y'.toList
  have hRₛ : R.map (s * ·) = Tensor.ofVec format (R'.smul s).toList :=
    Tensor.map_ofVec _ format R'.toList
  refine ⟨_, _, _, ⟨projectTensor_ofVec hlaw format y' R', costTensor_ofVec hlaw format y' R'⟩,
    ⟨?_, ?_⟩, ?_, ?_⟩
  · rw [hyₖ, Tensor.map_ofVec]
    refine (projectTensor_ofVec hlaw format (y'.smul k) R').trans ?_
    rw [hγₖ, hDₖ]
    rfl
  · rw [hyₖ, Tensor.map_ofScalar, ← haₖ]
    exact costTensor_ofVec hlaw format (y'.smul k) R'
  · rw [hRₛ, ← hγₛ, ← hDₛ]
    exact projectTensor_ofVec hlaw format y' (R'.smul s)
  · rw [hRₛ, Tensor.map_ofScalar, ← haₛ]
    exact costTensor_ofVec hlaw format y' (R'.smul s)

/-- A contact that slides, at twice the impulse and with three times the regularization. -/
theorem project_homogeneous_sliding :
    letI := Threshold.ofFormat .double
    let p := ConeParameters.ofMaterial (1 / 2 : ℝ) 1 0
    let c := Constraint.contact p 0 0 (DenseMatrix.identity .double 3) none
    let y : Tensor ℝ := Tensor.ofVec .double [3, 0, 1]
    let R : Tensor ℝ := Tensor.ofVec .double [1, 1, 2]
    (c.law = .frictionCone p 0 ∧ (0 : ℝ) < 1 ∧ (0 : ℝ) < 2 ∧ (0 : ℝ) < 3) ∧
      (Threshold.value < 1 * (3 : ℝ) ^ 2 + 1 * (0 : ℝ) ^ 2 + 2 * (1 : ℝ) ^ 2 ∧
        Threshold.value < 2 ^ 2 * (1 * (3 : ℝ) ^ 2 + 1 * (0 : ℝ) ^ 2 + 2 * (1 : ℝ) ^ 2) ∧
        Threshold.value < 3 * (1 * (3 : ℝ) ^ 2 + 1 * (0 : ℝ) ^ 2 + 2 * (1 : ℝ) ^ 2)) ∧
      ∃ γ D a,
        (c.projectTensor y R = .ok (γ, D) ∧ c.costTensor y R = .ok a) ∧
        (c.projectTensor (y.map (2 * ·)) R = .ok (γ.map (2 * ·), D) ∧
          c.costTensor (y.map (2 * ·)) R = .ok (a.map (2 ^ 2 * ·))) ∧
        (c.projectTensor y (R.map (3 * ·)) = .ok (γ, D) ∧
          c.costTensor y (R.map (3 * ·)) = .ok (a.map (3 * ·))) := by
  let _ := Threshold.ofFormat .double
  intro p c y R
  have hlaw : c.law = .frictionCone p 0 :=
    rfl
  have hsmall : Threshold.value ≤ 1 / 2 ^ 126 :=
    Threshold.value_ofFormat_le .double
  have hlong : Threshold.value < 1 * (3 : ℝ) ^ 2 + 1 * (0 : ℝ) ^ 2 + 2 * (1 : ℝ) ^ 2 :=
    hsmall.trans_lt (by norm_num)
  have hlongₖ : Threshold.value <
      2 ^ 2 * (1 * (3 : ℝ) ^ 2 + 1 * (0 : ℝ) ^ 2 + 2 * (1 : ℝ) ^ 2) :=
    hsmall.trans_lt (by norm_num)
  have hlongₛ : Threshold.value <
      3 * (1 * (3 : ℝ) ^ 2 + 1 * (0 : ℝ) ^ 2 + 2 * (1 : ℝ) ^ 2) :=
    hsmall.trans_lt (by norm_num)
  exact ⟨⟨hlaw, one_pos, two_pos, three_pos⟩, ⟨hlong, hlongₖ, hlongₛ⟩,
    project_homogeneous hlaw .double 3 0 1 one_pos one_pos two_pos two_pos three_pos hlong hlongₖ
      hlongₛ⟩

end Constraint
end ConvexContact
