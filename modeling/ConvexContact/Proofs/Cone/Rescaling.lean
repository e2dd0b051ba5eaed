import Mathlib
import ConvexContact.Proofs.Cone.Continuity

/-!
# What the smoothed bands change

The bands of a contact are compared with bands of no width.  Outside the bands the two profiles
differ by a constant factor, `Profile.slideScale` of the lower width: one where the impulse sticks,
the factor itself where it slides, and both profiles are zero where it is separated.

**Results.**
* `Profile.slideScale_mem`: the factor is at most one, and short of it by at most the square of the
  width.
* `Constraint.project_rescaled`: impulse and cost of the two contacts outside the bands, and
  everywhere on a contact without friction.
-/

namespace ConvexContact

namespace Profile

section Scale

variable [Threshold]
variable {phi lower upper : ℝ}

/-- Twice the integral of the cubic offset over its band is at least the squared tangent. -/
theorem tan_sq_le_bandIntegral
    (hpos : 0 < lower)
    (hsmall : lower < Real.pi / 8) :
    Real.tan lower ^ 2 ≤ 2 * bandIntegral lower := by
  have hcos := cos_pos_of_lt_pi_div_eight hpos.le hsmall
  have hhalf := lt_half_of_lt_pi_div_eight hsmall
  have hsin₀ : 0 ≤ Real.sin lower :=
    Real.sin_nonneg_of_nonneg_of_le_pi hpos.le (by linarith [Real.pi_pos])
  have hsin : Real.sin lower ^ 2 ≤ lower ^ 2 :=
    pow_le_pow_left₀ hsin₀ (Real.sin_le hpos.le) 2
  have hdouble : 2 * lower - (2 * lower) ^ 3 / 6 ≤ 2 * Real.sin lower * Real.cos lower := by
    rw [← Real.sin_two_mul]
    exact (Real.sin_gt_sub_cube (by linarith)).le
  have hproduct := mul_le_mul_of_nonneg_left hdouble hpos.le
  have hfourth : lower ^ 2 * lower ^ 2 ≤ 1 / 4 * lower ^ 2 := by
    gcongr
    nlinarith
  have hsines : Real.sin lower ^ 2 ≤
      2 * (lower * Real.sin lower * Real.cos lower - lower ^ 2 / 3) := by
    linarith
  rw [bandIntegral_eq hpos.ne', one_add_tan_sq hcos.ne', Real.tan_eq_sin_div_cos, div_pow,
    div_le_iff₀ (by positivity)]
  calc Real.sin lower ^ 2
      ≤ 2 * (lower * Real.sin lower * Real.cos lower - lower ^ 2 / 3) :=
        hsines
    _ = _ := by
        field_simp

/-- An upper bound of the integral of the cubic offset over its band. -/
theorem bandIntegral_le
    (hpos : 0 < lower)
    (hsmall : lower < Real.pi / 8) :
    2 * bandIntegral lower ≤ 1 - (1 - lower ^ 2) * Real.cos lower ^ 2 := by
  have hcos := cos_pos_of_lt_pi_div_eight hpos.le hsmall
  have hsin₀ : 0 ≤ Real.sin lower :=
    Real.sin_nonneg_of_nonneg_of_le_pi hpos.le (by linarith [Real.pi_pos])
  have hunit := Real.sin_sq_add_cos_sq lower
  have hsq : lower ^ 2 ≤ 1 / 4 := by
    nlinarith [lt_half_of_lt_pi_div_eight hsmall]
  have hcube : 3 * Real.sin lower ^ 3 * Real.cos lower ≤ lower :=
    calc 3 * Real.sin lower ^ 3 * Real.cos lower
        ≤ 3 * lower ^ 3 * 1 := by
          gcongr
          · exact Real.sin_le hpos.le
          · exact Real.cos_le_one _
      _ ≤ lower := by
          nlinarith [mul_le_mul_of_nonneg_right hsq hpos.le]
  have hmean : 2 * (Real.sin lower * Real.cos lower) * (lower * Real.cos lower ^ 2) ≤
      (Real.sin lower * Real.cos lower) ^ 2 + (lower * Real.cos lower ^ 2) ^ 2 :=
    two_mul_le_add_sq _ _
  have hsines : 2 * (lower * Real.sin lower * Real.cos lower - lower ^ 2 / 3) ≤
      (1 - (1 - lower ^ 2) * Real.cos lower ^ 2) * Real.cos lower ^ 2 :=
    calc 2 * (lower * Real.sin lower * Real.cos lower - lower ^ 2 / 3)
        = 2 * (Real.sin lower * Real.cos lower) * (lower * Real.cos lower ^ 2) +
            2 / 3 * lower * (3 * Real.sin lower ^ 3 * Real.cos lower - lower) := by
          linear_combination (-2 * lower * Real.sin lower * Real.cos lower) * hunit
      _ ≤ (Real.sin lower * Real.cos lower) ^ 2 + (lower * Real.cos lower ^ 2) ^ 2 :=
          add_le_of_le_of_nonpos hmean
            (mul_nonpos_of_nonneg_of_nonpos (by positivity) (sub_nonpos.2 hcube))
      _ = (1 - (1 - lower ^ 2) * Real.cos lower ^ 2) * Real.cos lower ^ 2 := by
          linear_combination Real.cos lower ^ 2 * hunit
  rw [bandIntegral_eq hpos.ne', one_add_tan_sq hcos.ne', Real.tan_eq_sin_div_cos]
  refine le_of_mul_le_mul_right ?_ (pow_pos hcos 2)
  calc _ = 2 * (lower * Real.sin lower * Real.cos lower - lower ^ 2 / 3) := by
        field_simp
    _ ≤ (1 - (1 - lower ^ 2) * Real.cos lower ^ 2) * Real.cos lower ^ 2 :=
        hsines

/-- **The factor of the profile behind the lower band.** -/
theorem slideScale_mem
    (hnonneg : 0 ≤ lower)
    (hsmall : lower < Real.pi / 8) :
    1 - lower ^ 2 ≤ slideScale lower ∧ slideScale lower ≤ 1 := by
  rcases hnonneg.eq_or_lt with rfl | hpos
  · rw [slideScale_zero]
    norm_num
  · have hcos := cos_pos_of_lt_pi_div_eight hpos.le hsmall
    rw [slideScale_eq hpos]
    constructor
    · rw [le_div_iff₀ (by positivity)]
      have hexp := Real.add_one_le_exp (-2 * bandIntegral lower)
      linarith [bandIntegral_le hpos hsmall]
    · have hexp := Real.add_one_le_exp (2 * bandIntegral lower)
      have hsec := one_add_tan_sq hcos.ne'
      rw [one_div] at hsec
      rw [neg_mul, Real.exp_neg, div_le_one (by positivity),
        inv_le_comm₀ (by positivity) (by positivity)]
      linarith [tan_sq_le_bandIntegral hpos hsmall]

/-- From the lower band to the upper one, both ends included, value and slope of the profile are
those of the squared cosine times the factor. -/
theorem whole_eq_slide
    (hlower : 0 ≤ lower)
    (hupper : 0 ≤ upper)
    (hleft : lower ≤ phi)
    (hright : phi ≤ Real.pi / 2 - upper) :
    (whole lower upper phi).value = (slide phi (slideScale lower)).value ∧
      (whole lower upper phi).slope = (slide phi (slideScale lower)).slope := by
  rw [whole_eq]
  split_ifs with hstick hseparated
  · -- Only bands of no width let an impulse on the surface of the cone stick.
    obtain rfl : lower = 0 := by
      linarith
    obtain rfl : phi = 0 := by
      linarith
    simp [value_slide, slope_slide, slideScale_zero]
  · obtain rfl : phi = Real.pi / 2 := by
      linarith
    simp [value_slide, slope_slide]
  · rw [between_eq, if_neg hleft.not_gt, if_pos hright]
    exact ⟨rfl, rfl⟩

/-- Value and slope of the profile, compared with bands of no width. -/
theorem whole_eq_mul
    (hlower : 0 ≤ lower)
    (hupper : 0 ≤ upper)
    (hleft : lower ≤ phi)
    (hright : phi ≤ Real.pi / 2 - upper) :
    (whole lower upper phi).value = slideScale lower * (whole 0 0 phi).value ∧
      (whole lower upper phi).slope = slideScale lower * (whole 0 0 phi).slope := by
  obtain ⟨hvalue, hslope⟩ := whole_eq_slide hlower hupper hleft hright
  obtain ⟨hvalue₀, hslope₀⟩ :=
    whole_eq_slide le_rfl le_rfl (hlower.trans hleft) (by linarith : phi ≤ Real.pi / 2 - 0)
  rw [hvalue, hvalue₀, hslope, hslope₀, slideScale_zero]
  simp only [value_slide, slope_slide]
  constructor
  · ring
  · ring

end Scale

end Profile

namespace ContactVector

theorem unscaled_smul
    [Threshold]
    (K : ℝ) (x R : ContactVector ℝ) :
    (x.smul K).unscaled R = (x.unscaled R).smul K := by
  simp only [unscaled, smul, mul_div_assoc]

end ContactVector

namespace ConeParameters

/-- The same cone with bands of no width. -/
def unsmoothed (p : ConeParameters ℝ) : ConeParameters ℝ :=
  { p with width := 0 }

end ConeParameters

namespace Regime

section Compared

variable [Threshold]
variable {p : ConeParameters ℝ} {ratio : ℝ} {z : ContactVector ℝ}

/-- The gradient in polar form is linear in value and slope of the profile. -/
theorem polarGradient_eq_smul
    {M N : Jet ℝ} {K : ℝ}
    (hvalue : M.value = K * N.value)
    (hslope : M.slope = K * N.slope)
    (z : ContactVector ℝ) :
    polarGradient M z = (polarGradient N z).smul K := by
  simp only [polarGradient, polar, ContactVector.smul, hvalue, hslope, ContactVector.mk.injEq]
  refine ⟨?_, ?_, ?_⟩
  · ring
  · ring
  · ring

/-- Without friction the width of the bands does not matter. -/
theorem ofImpulse_unsmoothed
    (ratio : ℝ) (z : ContactVector ℝ)
    (hfriction : p.friction = 0) :
    ofImpulse p.unsmoothed ratio z = ofImpulse p ratio z := by
  rcases le_or_gt z.normSquared Threshold.value with hshort | hlong
  · rw [ofImpulse_of_short p ratio hshort, ofImpulse_of_short p.unsmoothed ratio hshort]
  · rw [ofImpulse_of_frictionless ratio hfriction hlong,
      ofImpulse_of_frictionless (p := p.unsmoothed) ratio hfriction hlong]

/-- The profile at the angle of an impulse, without bands. -/
theorem profileAt_unsmoothed
    (hfriction : 0 < p.friction)
    (hratio : 0 < ratio)
    (z : ContactVector ℝ) :
    profileAt p.unsmoothed ratio z = Profile.whole 0 0 (angle p ratio z) := by
  obtain ⟨hlower, hupper⟩ :=
    widths_of_width_eq_zero (p := p.unsmoothed) rfl hfriction hratio
  rw [profileAt, hlower, hupper]
  rfl

/-- An impulse that sticks before the lower band sticks without it. -/
theorem ofImpulse_stick
    (hfriction : 0 < p.friction)
    (hwidth : 0 ≤ p.width)
    (hratio : 0 < ratio)
    (hlong : Threshold.value < z.normSquared)
    (hstick : angle p ratio z ≤ -lowerWidth p ratio) :
    ofImpulse p ratio z = .stick ∧ ofImpulse p.unsmoothed ratio z = .stick := by
  obtain ⟨hlower, -⟩ := widths_nonneg hfriction hwidth hratio
  obtain ⟨hlower₀, -⟩ := widths_of_width_eq_zero (p := p.unsmoothed) rfl hfriction hratio
  constructor
  · rw [ofImpulse_of_friction ratio hfriction hlong, if_pos hstick]
  · rw [ofImpulse_of_friction (p := p.unsmoothed) ratio hfriction hlong, hlower₀, if_pos]
    change angle p ratio z ≤ -0
    linarith

/-- An impulse in the polar cone is separated for every width of the bands. -/
theorem ofImpulse_separated
    (hfriction : 0 < p.friction)
    (hwidth : 0 ≤ p.width)
    (hratio : 0 < ratio)
    (hlong : Threshold.value < z.normSquared)
    (hseparated : Real.pi / 2 ≤ angle p ratio z) :
    ofImpulse p ratio z = .separated := by
  obtain ⟨hlower, -⟩ := widths_nonneg hfriction hwidth hratio
  have hright : -lowerWidth p ratio < angle p ratio z := by
    linarith [Real.pi_pos]
  rw [ofImpulse_of_friction ratio hfriction hlong, if_neg hright.not_ge, if_pos hseparated]

/-- Between the bands gradient and potential differ by the factor of the profile. -/
theorem ofImpulse_between
    (hfriction : 0 < p.friction)
    (hwidth : 0 ≤ p.width)
    (hratio : 0 < ratio)
    (hlong : Threshold.value < z.normSquared)
    (hleft : lowerWidth p ratio ≤ angle p ratio z)
    (hright : angle p ratio z ≤ Real.pi / 2 - upperWidth p ratio) :
    let K := Profile.slideScale (lowerWidth p ratio)
    gradient z (ofImpulse p ratio z) = (gradient z (ofImpulse p.unsmoothed ratio z)).smul K ∧
      cost z (ofImpulse p ratio z) = K * cost z (ofImpulse p.unsmoothed ratio z) := by
  intro K
  obtain ⟨hlower, hupper⟩ := widths_nonneg hfriction hwidth hratio
  obtain ⟨hvalue, hslope⟩ := Profile.whole_eq_mul hlower hupper hleft hright
  have hprofile := profileAt_unsmoothed hfriction hratio z
  rw [gradient_eq_profileAt hfriction hlong, cost_eq_profileAt hfriction hlong,
    gradient_eq_profileAt (p := p.unsmoothed) hfriction hlong,
    cost_eq_profileAt (p := p.unsmoothed) hfriction hlong, hprofile]
  constructor
  · exact polarGradient_eq_smul hvalue hslope z
  · rw [profileAt, hvalue]
    ring

end Compared

end Regime

namespace ConeParameters

variable [Threshold]
variable {p : ConeParameters ℝ} {R y : ContactVector ℝ}

/-- Projected impulse and potential with and without bands, at an impulse outside the bands. -/
theorem rescaled_impulse
    (hfriction : 0 < p.friction)
    (hwidth : 0 ≤ p.width)
    (hsmall : p.width < Real.pi / 8)
    (hR : 0 < R.t₁ ∧ 0 < R.t₂ ∧ 0 < R.n)
    (hlong : Threshold.value < (y.scaled R).normSquared) :
    let lower := Regime.lowerWidth p (R.t₁ / R.n)
    let upper := Regime.upperWidth p (R.t₁ / R.n)
    let phi := Regime.angle p (R.t₁ / R.n) (y.scaled R)
    let K := Profile.slideScale lower
    let γ := ((p.regimeAt R y).gradient (y.scaled R)).unscaled R
    let a := (p.regimeAt R y).cost (y.scaled R)
    let γ₀ := ((p.unsmoothed.regimeAt R y).gradient (y.scaled R)).unscaled R
    let a₀ := (p.unsmoothed.regimeAt R y).cost (y.scaled R)
    (phi ≤ -lower → γ = y ∧ γ₀ = y ∧ a = a₀) ∧
      (lower ≤ phi → phi ≤ Real.pi / 2 - upper →
        γ = γ₀.smul K ∧ a = K * a₀ ∧ 1 - lower ^ 2 ≤ K ∧ K ≤ 1) ∧
      (Real.pi / 2 ≤ phi → (γ = ⟨0, 0, 0⟩ ∧ γ₀ = ⟨0, 0, 0⟩) ∧ a = 0 ∧ a₀ = 0) := by
  intro lower upper phi K γ a γ₀ a₀
  have hratio : 0 < R.t₁ / R.n :=
    div_pos hR.1 hR.2.2
  refine ⟨?_, ?_, ?_⟩
  · intro hstick
    obtain ⟨h, h₀⟩ : p.regimeAt R y = .stick ∧ p.unsmoothed.regimeAt R y = .stick :=
      Regime.ofImpulse_stick hfriction hwidth hratio hlong hstick
    have hkept : ((Regime.stick : Regime ℝ).gradient (y.scaled R)).unscaled R = y :=
      ContactVector.unscaled_scaled hR y
    simp only [γ, γ₀, a, a₀, h, h₀]
    exact ⟨hkept, hkept, trivial⟩
  · intro hleft hright
    obtain ⟨hgradient, hcost⟩ :=
      Regime.ofImpulse_between hfriction hwidth hratio hlong hleft hright
    obtain ⟨hlower, -⟩ := Regime.widths_nonneg hfriction hwidth hratio
    refine ⟨?_, hcost, Profile.slideScale_mem hlower ((min_le_left _ _).trans_lt hsmall)⟩
    rw [← ContactVector.unscaled_smul]
    exact congrArg (fun x => ContactVector.unscaled x R) hgradient
  · intro hseparated
    have h : p.regimeAt R y = .separated :=
      Regime.ofImpulse_separated hfriction hwidth hratio hlong hseparated
    have h₀ : p.unsmoothed.regimeAt R y = .separated :=
      Regime.ofImpulse_separated hfriction le_rfl hratio hlong hseparated
    simp [γ, γ₀, a, a₀, h, h₀, Regime.gradient, Regime.cost, ContactVector.smul,
      ContactVector.unscaled]

end ConeParameters

namespace Constraint

/-- **Smoothing outside the bands only rescales.**  A contact `c` with valid parameters is compared
with a contact `c₀` without bands.  On a contact with friction and at an impulse that is not
negligible: both keep the impulse before the lower band; between the bands impulse and cost differ
by a factor that is at most one, and short of it by at most the square of the lower width; in the
polar cone both give zero.  Without friction both contacts agree at every impulse. -/
theorem project_rescaled
    [Threshold]
    {c c₀ : Constraint ℝ} {p : ConeParameters ℝ} {gap gap₀ : ℝ}
    (hlaw : c.law = .frictionCone p gap) (hlaw₀ : c₀.law = .frictionCone p.unsmoothed gap₀)
    (hvalid : p.validate = .ok p)
    (format : Format)
    (y₁ y₂ yₙ : ℝ)
    {Rₜ Rₙ : ℝ} (hRₜ : 0 < Rₜ) (hRₙ : 0 < Rₙ) :
    let y : Tensor ℝ := Tensor.ofVec format [y₁, y₂, yₙ]
    let R : Tensor ℝ := Tensor.ofVec format [Rₜ, Rₜ, Rₙ]
    let lower := Regime.lowerWidth p (Rₜ / Rₙ)
    let upper := Regime.upperWidth p (Rₜ / Rₙ)
    let phi := Regime.angle p (Rₜ / Rₙ) ⟨√Rₜ * y₁, √Rₜ * y₂, √Rₙ * yₙ⟩
    let K := Profile.slideScale lower
    ∃ γ D a γ₀ D₀ a₀,
      (c.projectTensor y R = .ok (Tensor.ofVec format γ, Tensor.ofMatrix D) ∧
        c.costTensor y R = .ok (Tensor.ofScalar format a)) ∧
      (c₀.projectTensor y R = .ok (Tensor.ofVec format γ₀, Tensor.ofMatrix D₀) ∧
        c₀.costTensor y R = .ok (Tensor.ofScalar format a₀)) ∧
      (0 < p.friction → Threshold.value < Rₜ * y₁ ^ 2 + Rₜ * y₂ ^ 2 + Rₙ * yₙ ^ 2 →
        (phi ≤ -lower → γ = [y₁, y₂, yₙ] ∧ γ₀ = [y₁, y₂, yₙ] ∧ a = a₀) ∧
        (lower ≤ phi → phi ≤ Real.pi / 2 - upper →
          γ = γ₀.map (K * ·) ∧ a = K * a₀ ∧ 1 - lower ^ 2 ≤ K ∧ K ≤ 1) ∧
        (Real.pi / 2 ≤ phi → (γ = [0, 0, 0] ∧ γ₀ = [0, 0, 0]) ∧ a = 0 ∧ a₀ = 0)) ∧
      (p.friction = 0 → γ = γ₀ ∧ D = D₀ ∧ a = a₀) := by
  intro y R lower upper phi K
  let y' : ContactVector ℝ := ⟨y₁, y₂, yₙ⟩
  let R' : ContactVector ℝ := ⟨Rₜ, Rₜ, Rₙ⟩
  obtain ⟨-, -, -, -, -, hwidth, hsmall⟩ :=
    p.flaw?_eq_none_iff.1 (ConeParameters.flaw?_of_validate hvalid)
  refine ⟨_, _, _, _, _, _,
    ⟨projectTensor_ofVec hlaw format y' R', costTensor_ofVec hlaw format y' R'⟩,
    ⟨projectTensor_ofVec hlaw₀ format y' R', costTensor_ofVec hlaw₀ format y' R'⟩, ?_, ?_⟩
  · intro hfriction hlong
    have hlong' : Threshold.value < (y'.scaled R').normSquared := by
      rwa [ContactVector.normSquared_scaled ⟨hRₜ.le, hRₜ.le, hRₙ.le⟩]
    obtain ⟨hstick, hbetween, hseparated⟩ :=
      ConeParameters.rescaled_impulse hfriction hwidth hsmall ⟨hRₜ, hRₜ, hRₙ⟩ hlong'
    refine ⟨?_, ?_, ?_⟩
    · intro h
      obtain ⟨hγ, hγ₀, ha⟩ := hstick h
      exact ⟨congrArg ContactVector.toList hγ, congrArg ContactVector.toList hγ₀, ha⟩
    · intro hleft hright
      obtain ⟨hγ, hrest⟩ := hbetween hleft hright
      exact ⟨congrArg ContactVector.toList hγ, hrest⟩
    · intro h
      obtain ⟨⟨hγ, hγ₀⟩, ha⟩ := hseparated h
      exact ⟨⟨congrArg ContactVector.toList hγ, congrArg ContactVector.toList hγ₀⟩, ha⟩
  · intro hfriction
    have hregime : p.unsmoothed.regimeAt R' y' = p.regimeAt R' y' :=
      Regime.ofImpulse_unsmoothed _ _ hfriction
    unfold ConeParameters.derivativeAt
    rw [hregime]
    exact ⟨rfl, rfl, rfl⟩

/-- The angle of a tangential impulse on a cone with a right opening angle. -/
theorem angle_tangential
    [Threshold]
    {p : ConeParameters ℝ}
    (hfriction : p.friction = 1) :
    Regime.angle p (1 / 1) ⟨√1 * 1, √1 * 0, √1 * 0⟩ = Real.pi / 4 := by
  have hnorm : ContactVector.tangentialNorm (⟨√1 * 1, √1 * 0, √1 * 0⟩ : ContactVector ℝ) = 1 := by
    rw [ContactVector.tangentialNorm_eq]
    simp
  have harg : Complex.arg ⟨√1 * 0, 1⟩ = Real.pi / 2 := by
    rw [mul_zero]
    exact Complex.arg_I
  unfold Regime.angle
  rw [hnorm, harg, ConeParameters.openingAngle_of_friction_eq_one hfriction]
  ring

/-- A tangential impulse, whose angle lies between the bands. -/
theorem project_rescaled_tangential :
    letI := Threshold.ofFormat .double
    let p := ConeParameters.ofMaterial (1 : ℝ) 1 0
    let c := Constraint.contact p 0 0 (DenseMatrix.identity .double 3) none
    let c₀ := Constraint.contact p.unsmoothed 0 0 (DenseMatrix.identity .double 3) none
    let y : Tensor ℝ := Tensor.ofVec .double [1, 0, 0]
    let R : Tensor ℝ := Tensor.ofVec .double [1, 1, 1]
    let lower := Regime.lowerWidth p (1 / 1)
    let upper := Regime.upperWidth p (1 / 1)
    let phi := Regime.angle p (1 / 1) ⟨√1 * 1, √1 * 0, √1 * 0⟩
    let K := Profile.slideScale lower
    (c.law = .frictionCone p 0 ∧ c₀.law = .frictionCone p.unsmoothed 0 ∧ p.validate = .ok p) ∧
      ((0 : ℝ) < 1 ∧ 0 < p.friction ∧
        Threshold.value < 1 * (1 : ℝ) ^ 2 + 1 * (0 : ℝ) ^ 2 + 1 * (0 : ℝ) ^ 2) ∧
      (lower ≤ phi ∧ phi ≤ Real.pi / 2 - upper) ∧
      ∃ γ D a γ₀ D₀ a₀,
        (c.projectTensor y R = .ok (Tensor.ofVec .double γ, Tensor.ofMatrix D) ∧
          c.costTensor y R = .ok (Tensor.ofScalar .double a)) ∧
        (c₀.projectTensor y R = .ok (Tensor.ofVec .double γ₀, Tensor.ofMatrix D₀) ∧
          c₀.costTensor y R = .ok (Tensor.ofScalar .double a₀)) ∧
        (0 < p.friction →
          Threshold.value < 1 * (1 : ℝ) ^ 2 + 1 * (0 : ℝ) ^ 2 + 1 * (0 : ℝ) ^ 2 →
          (phi ≤ -lower → γ = [1, 0, 0] ∧ γ₀ = [1, 0, 0] ∧ a = a₀) ∧
          (lower ≤ phi → phi ≤ Real.pi / 2 - upper →
            γ = γ₀.map (K * ·) ∧ a = K * a₀ ∧ 1 - lower ^ 2 ≤ K ∧ K ≤ 1) ∧
          (Real.pi / 2 ≤ phi → (γ = [0, 0, 0] ∧ γ₀ = [0, 0, 0]) ∧ a = 0 ∧ a₀ = 0)) ∧
        (p.friction = 0 → γ = γ₀ ∧ D = D₀ ∧ a = a₀) := by
  let _ := Threshold.ofFormat .double
  intro p c c₀ y R lower upper phi K
  have hlaw : c.law = .frictionCone p 0 :=
    rfl
  have hlaw₀ : c₀.law = .frictionCone p.unsmoothed 0 :=
    rfl
  have hvalid : p.validate = .ok p :=
    ConeParameters.validate_of_flaw?_eq_none
      (ConeParameters.flaw?_ofMaterial zero_le_one one_pos le_rfl)
  have hlong : Threshold.value < 1 * (1 : ℝ) ^ 2 + 1 * (0 : ℝ) ^ 2 + 1 * (0 : ℝ) ^ 2 :=
    lt_of_le_of_lt (Threshold.value_ofFormat_le .double) (by norm_num)
  have hangle : phi = Real.pi / 4 :=
    angle_tangential rfl
  have hopening : Regime.openingAngle p (1 / 1) = Real.pi / 4 :=
    ConeParameters.openingAngle_of_friction_eq_one rfl
  have hlower : lower ≤ Regime.openingAngle p (1 / 1) / 2 :=
    Regime.lowerWidth_le p (1 / 1)
  have hupper : upper ≤ Regime.openingAngle p (1 / 1) :=
    min_le_right _ _
  have hbetween : lower ≤ phi ∧ phi ≤ Real.pi / 2 - upper := by
    rw [hopening] at hlower hupper
    constructor
    · linarith [Real.pi_pos]
    · linarith
  exact ⟨⟨hlaw, hlaw₀, hvalid⟩, ⟨one_pos, one_pos, hlong⟩, hbetween,
    project_rescaled hlaw hlaw₀ hvalid .double 1 0 0 one_pos one_pos⟩

end Constraint
end ConvexContact
