import Mathlib
import ConvexContact.ConstraintBundle
import ConvexContact.Proofs.Cone.Bands
import ConvexContact.Proofs.Cone.Tangents

/-!
# Curvature of the cone potential

**Polar form.**  In the plane of the tangential direction and the normal, the second derivative of
the potential of a sliding impulse with profile `M` is, by radius and angle, the symmetric matrix
with the entries `M`, `M'/2` and `M + M''/2`; across the plane it is a nonnegative factor.  It is
therefore positive semidefinite exactly where `Jet.discriminant`, four times the determinant, is not
negative.

**Bands.**  The discriminant is nonnegative in the band around the surface of the cone and zero
behind it.  In the band before the polar cone it has the sign of a difference of two terms, and it
is negative where the attenuation sets in (`Profile.OverAttenuated`).

**Results.**
* `Profile.discriminant_between_nonneg_iff`: the sign of the discriminant at every angle of a
  sliding impulse.
* `ConeParameters.hessianBlock_semidefinite_iff`: the block of a contact in the second derivative is
  symmetric, and positive semidefinite unless the impulse is over-attenuated.
* `ConeParameters.hessianBlock_indefinite_at_attenuation`: an impulse whose block is not.
-/

namespace ConvexContact

/-- Four times the determinant of the second derivative of the potential by radius and angle. -/
noncomputable def Jet.discriminant (M : Jet ℝ) : ℝ :=
  (M.value + M.value) * (M.value + M.value + M.curvature) - M.slope ^ 2

theorem Jet.discriminant_eq
    (M : Jet ℝ) :
    M.discriminant = 4 * M.value * (M.value + M.curvature / 2) - M.slope ^ 2 := by
  rw [discriminant]
  ring

namespace Profile

/-- The distance from the inner end of the band before the polar cone, relative to the band. -/
noncomputable def penetration (phi upper : ℝ) : ℝ :=
  1 - (Real.pi - (phi + phi)) / (upper + upper)

theorem penetration_eq
    (phi upper : ℝ) :
    penetration phi upper = 1 - (Real.pi / 2 - phi) / upper := by
  have hdouble : Real.pi - (phi + phi) = 2 * (Real.pi / 2 - phi) := by
    ring
  rw [penetration, hdouble, ← two_mul, mul_div_mul_left _ _ two_ne_zero]

/-- The angle lies in the band before the polar cone, where the attenuation bends the profile more
than the potential can bear without losing its convexity. -/
structure OverAttenuated (phi upper : ℝ) : Prop where
  behind : Real.pi / 2 - upper < phi
  bent : 4 * upper * Real.sin phi * penetration phi upper * (1 - penetration phi upper ^ 3) <
    Real.cos phi * (4 - penetration phi upper ^ 3)

theorem penetration_mem
    {phi upper : ℝ}
    (hleft : Real.pi / 2 - upper < phi)
    (hright : phi < Real.pi / 2) :
    0 < penetration phi upper ∧ penetration phi upper < 1 := by
  have hupper : 0 < upper := by
    linarith
  have hlt : (Real.pi / 2 - phi) / upper < 1 := by
    rw [div_lt_one hupper]
    linarith
  have hpos : 0 < (Real.pi / 2 - phi) / upper :=
    div_pos (by linarith) hupper
  constructor
  · rw [penetration_eq]
    linarith
  · rw [penetration_eq]
    linarith

/-- The squared tangent of an angle in a band is at most a third. -/
theorem three_mul_tan_sq_le
    {x : ℝ}
    (hnonneg : 0 ≤ x)
    (hsmall : x < Real.pi / 8) :
    3 * Real.tan x ^ 2 ≤ 1 := by
  have hcos := cos_pos_of_lt_pi_div_eight hnonneg hsmall
  have hx := lt_half_of_lt_pi_div_eight hsmall
  have hsin : Real.sin x ≤ x :=
    Real.sin_le hnonneg
  have hsin₀ : 0 ≤ Real.sin x :=
    Real.sin_nonneg_of_nonneg_of_le_pi hnonneg (by linarith [Real.pi_pos])
  have hunit := Real.sin_sq_add_cos_sq x
  have hsq : Real.sin x ^ 2 ≤ 1 / 4 := by
    nlinarith
  rw [Real.tan_eq_sin_div_cos, div_pow, mul_div_assoc', div_le_one (by positivity)]
  linarith

/-- Every band has over-attenuated angles: one is a quarter of the band behind its inner end. -/
theorem overAttenuated_quarter
    {upper : ℝ}
    (hpos : 0 < upper)
    (hsmall : upper < Real.pi / 8) :
    OverAttenuated (Real.pi / 2 - 3 / 4 * upper) upper := by
  have hpi := Real.pi_pos
  have hcos : 0 < Real.cos (3 / 4 * upper) :=
    Real.cos_pos_of_mem_Ioo ⟨by linarith, by linarith⟩
  have htan : 3 / 4 * upper < Real.sin (3 / 4 * upper) / Real.cos (3 / 4 * upper) := by
    rw [← Real.tan_eq_sin_div_cos]
    exact Real.lt_tan (by linarith) (by linarith)
  rw [lt_div_iff₀ hcos] at htan
  have hquarter : penetration (Real.pi / 2 - 3 / 4 * upper) upper = 1 / 4 := by
    rw [penetration_eq]
    field_simp
    ring
  refine ⟨by linarith, ?_⟩
  rw [hquarter, Real.sin_pi_div_two_sub, Real.cos_pi_div_two_sub]
  have hproduct : 0 < upper * Real.cos (3 / 4 * upper) :=
    mul_pos hpos hcos
  linarith

section Bands

variable [Threshold]
variable {phi lower upper alpha : ℝ}

theorem slideScale_pos
    (hsmall : lower < Real.pi / 8) :
    0 < slideScale lower := by
  unfold slideScale
  simp only [Exact.ofNat_zero, Exact.ofNat_one, Exact.exp_eq, Exact.cos_eq, Exact.square_eq]
  split_ifs with hlower
  · exact one_pos
  · have hcos := cos_pos_of_lt_pi_div_eight (not_le.1 hlower).le hsmall
    positivity

/-- The derivative of the cubic offset. -/
theorem offset_slope_eq
    (phi lower : ℝ) :
    (hermiteOffset phi lower).2.1 =
      (1 - place phi lower) *
        (6 * place phi lower * (lower * (1 + Real.tan lower ^ 2) - Real.tan lower) -
          2 * (lower * (1 + Real.tan lower ^ 2))) / (2 * lower) := by
  simp only [hermiteOffset, place, Exact.tan_eq, Exact.ofNat_one, Exact.ofNat_ofNat]
  ring

/-- The cubic offset falls. -/
theorem offset_slope_nonpos
    (hleft : -lower < phi)
    (hright : phi < lower)
    (hsmall : lower < Real.pi / 8) :
    (hermiteOffset phi lower).2.1 ≤ 0 := by
  obtain ⟨hs₀, hs₁⟩ := place_mem hleft hright
  have hpos : 0 < lower := by
    linarith
  have hcos := cos_pos_of_lt_pi_div_eight hpos.le hsmall
  have hupper := mul_sec_sq_le_tan hpos (lt_half_of_lt_pi_div_eight hsmall).le hcos
  have hlower := tan_le_mul_sec_sq hpos.le hcos
  rw [offset_slope_eq]
  refine div_nonpos_of_nonpos_of_nonneg (mul_nonpos_of_nonneg_of_nonpos (by linarith) ?_)
    (by linarith)
  nlinarith

/-- Inside the cone the cubic offset falls faster than the tangent bends. -/
theorem offset_slope_le
    (hleft : -lower < phi)
    (hright : phi < 0)
    (hsmall : lower < Real.pi / 8) :
    (hermiteOffset phi lower).2.1 ≤ -(Real.tan lower ^ 2) := by
  have hpos : 0 < lower := by
    linarith
  obtain ⟨hs₀, -⟩ := place_mem hleft (hright.trans hpos)
  have hs₁ : place phi lower ≤ 1 / 2 := by
    rw [place, div_le_iff₀ (by linarith)]
    linarith
  have hcos := cos_pos_of_lt_pi_div_eight hpos.le hsmall
  have hupper := mul_sec_sq_le_tan hpos (lt_half_of_lt_pi_div_eight hsmall).le hcos
  have hlower := tan_le_mul_sec_sq hpos.le hcos
  have htan := three_mul_tan_sq_le hpos.le hsmall
  set T := Real.tan lower
  set s := place phi lower with hs
  have hfactor : 6 * s * (lower * (1 + T ^ 2) - T) - 2 * (lower * (1 + T ^ 2)) ≤
      -(lower * (1 + T ^ 2)) := by
    nlinarith
  have hbound : (1 - s) * (6 * s * (lower * (1 + T ^ 2) - T) - 2 * (lower * (1 + T ^ 2))) ≤
      -(1 / 2 * (lower * (1 + T ^ 2))) := by
    have hsec : 0 ≤ lower * (1 + T ^ 2) := by
      positivity
    nlinarith
  rw [offset_slope_eq, div_le_iff₀ (by linarith)]
  nlinarith

/-- The quotient `q = -M'/(2 M)` of the profile around the surface of the cone satisfies
`q' ≤ 1 + q²`. -/
theorem offset_slope_le_square
    (hleft : -lower < phi)
    (hright : phi < lower)
    (hsmall : lower < Real.pi / 8) :
    (hermiteOffset phi lower).2.1 ≤
      2 * Real.tan phi * (hermiteOffset phi lower).1 + (hermiteOffset phi lower).1 ^ 2 := by
  have hoffset := offset_nonneg hleft hright hsmall
  have hpos : 0 < lower := by
    linarith
  have hpi := Real.pi_pos
  rcases le_or_gt 0 phi with hphi | hphi
  · have htan : 0 ≤ Real.tan phi :=
      Real.tan_nonneg_of_nonneg_of_le_pi_div_two hphi (by linarith)
    have hslope := offset_slope_nonpos hleft hright hsmall
    have hproduct := mul_nonneg htan hoffset
    nlinarith
  · -- Inside the cone the tangent is negative, but the offset falls at a definite rate.
    have hslope := offset_slope_le hleft hphi hsmall
    have htan : Real.tan phi < 0 :=
      Real.tan_neg_of_neg_of_pi_div_two_lt hphi (by linarith)
    have hge : -Real.tan lower < Real.tan phi := by
      rw [← Real.tan_neg]
      exact Real.strictMonoOn_tan ⟨by linarith, by linarith⟩ ⟨by linarith, by linarith⟩ hleft
    nlinarith [sq_nonneg (Real.tan phi + (hermiteOffset phi lower).1)]

theorem discriminant_lowerBand
    (phi lower : ℝ) :
    (lowerBand phi lower).discriminant =
      4 * (lowerBand phi lower).value ^ 2 *
        (2 * Real.tan phi * (hermiteOffset phi lower).1 + (hermiteOffset phi lower).1 ^ 2 -
          (hermiteOffset phi lower).2.1) := by
  simp only [Jet.discriminant_eq, lowerBand, Exact.tan_eq, Exact.square_eq, Exact.ofNat_one,
    Exact.ofNat_ofNat]
  ring

theorem discriminant_slide
    (phi scale : ℝ) :
    (slide phi scale).discriminant = 0 := by
  have hunit := Real.sin_sq_add_cos_sq phi
  simp only [Jet.discriminant_eq, slide, Exact.sin_eq, Exact.cos_eq, Exact.square_eq,
    Exact.ofNat_ofNat, Real.sin_two_mul, Real.cos_two_mul]
  linear_combination (-4 * scale ^ 2 * Real.cos phi ^ 2) * hunit

theorem discriminant_upperBand
    (phi scale : ℝ) {upper : ℝ} (hupper : upper ≠ 0) :
    (upperBand phi scale upper).discriminant =
      3 * scale ^ 2 * Real.cos phi ^ 3 * penetration phi upper / upper ^ 2 *
        (4 * upper * Real.sin phi * penetration phi upper * (1 - penetration phi upper ^ 3) -
          Real.cos phi * (4 - penetration phi upper ^ 3)) := by
  have hunit := Real.sin_sq_add_cos_sq phi
  have hplace : 1 - (1 / 2 * Real.pi - phi) / upper = penetration phi upper := by
    rw [penetration_eq]
    ring
  simp only [Jet.discriminant_eq, upperBand, Exact.sin_eq, Exact.cos_eq, Exact.square_eq,
    Exact.cube_eq, Exact.half_eq, Exact.pi_eq, Exact.ofNat_one, Exact.ofNat_ofNat,
    Real.sin_two_mul, Real.cos_two_mul, hplace]
  field_simp
  linear_combination
    (-8 * scale ^ 2 * Real.cos phi ^ 2 * (1 - penetration phi upper ^ 3) ^ 2 * upper ^ 2) * hunit

/-- Where the attenuation acts, the discriminant has the sign of a difference. -/
theorem discriminant_upperBand_nonneg_iff
    {scale : ℝ}
    (hscale : 0 < scale)
    (hleft : Real.pi / 2 - upper < phi)
    (hright : phi < Real.pi / 2)
    (hupper : upper < Real.pi / 8) :
    0 ≤ (upperBand phi scale upper).discriminant ↔ ¬ OverAttenuated phi upper := by
  obtain ⟨hu, -⟩ := penetration_mem hleft hright
  have hpos : 0 < upper := by
    linarith
  have hcos : 0 < Real.cos phi :=
    Real.cos_pos_of_mem_Ioo ⟨by linarith [Real.pi_pos], hright⟩
  have hfactor :
      0 < 3 * scale ^ 2 * Real.cos phi ^ 3 * penetration phi upper / upper ^ 2 := by
    positivity
  rw [discriminant_upperBand phi scale hpos.ne', mul_nonneg_iff_of_pos_left hfactor, sub_nonneg,
    ← not_lt]
  exact not_congr ⟨fun h => ⟨hleft, h⟩, OverAttenuated.bent⟩

theorem value_upperBand_pos
    {scale : ℝ}
    (hscale : 0 < scale)
    (hleft : Real.pi / 2 - upper < phi)
    (hright : phi < Real.pi / 2)
    (hupper : upper < Real.pi / 8) :
    0 < (upperBand phi scale upper).value := by
  obtain ⟨hu₀, hu₁⟩ := penetration_mem hleft hright
  have hcos : 0 < Real.cos phi :=
    Real.cos_pos_of_mem_Ioo ⟨by linarith [Real.pi_pos], hright⟩
  have hcube : penetration phi upper ^ 3 < 1 :=
    pow_lt_one₀ hu₀.le hu₁ three_ne_zero
  have hattenuation :
      (attenuation (Real.pi / 2 - phi) upper).1 = 1 - penetration phi upper ^ 3 := by
    rw [penetration_eq]
    rfl
  rw [value_upperBand, hattenuation]
  have hchi : 0 < 1 - penetration phi upper ^ 3 := by
    linarith
  positivity

/-- The profile at the angle of a sliding impulse is positive, and its discriminant is nonnegative
unless the angle is over-attenuated. -/
theorem discriminant_between_nonneg_iff
    (hlower : lower < Real.pi / 8)
    (hupper : upper < Real.pi / 8)
    (hleft : -lower < phi)
    (hright : phi < Real.pi / 2) :
    0 < (between phi lower upper).value ∧
      (0 ≤ (between phi lower upper).discriminant ↔ ¬ OverAttenuated phi upper) := by
  have hpi := Real.pi_pos
  have hscale := slideScale_pos hlower
  rw [between_eq]
  split_ifs with hband hmiddle
  · have hcos : 0 < Real.cos phi :=
      Real.cos_pos_of_mem_Ioo ⟨by linarith, hright⟩
    have hcos' : 0 < Real.cos lower :=
      cos_pos_of_lt_pi_div_eight (by linarith) hlower
    have hbound := offset_slope_le_square hleft hband hlower
    have hbelow : ¬ OverAttenuated phi upper := by
      rintro ⟨h, -⟩
      linarith
    constructor
    · rw [value_lowerBand]
      positivity
    · rw [discriminant_lowerBand]
      have hnonneg : 0 ≤ 2 * Real.tan phi * (hermiteOffset phi lower).1 +
          (hermiteOffset phi lower).1 ^ 2 - (hermiteOffset phi lower).2.1 :=
        sub_nonneg.2 hbound
      exact ⟨fun _ => hbelow, fun _ => mul_nonneg (by positivity) hnonneg⟩
  · have hcos : 0 < Real.cos phi :=
      Real.cos_pos_of_mem_Ioo ⟨by linarith, hright⟩
    have hbelow : ¬ OverAttenuated phi upper := by
      rintro ⟨h, -⟩
      linarith
    constructor
    · rw [value_slide]
      positivity
    · rw [discriminant_slide]
      exact ⟨fun _ => hbelow, fun _ => le_rfl⟩
  · have hleft' : Real.pi / 2 - upper < phi :=
      not_le.1 hmiddle
    exact ⟨value_upperBand_pos hscale hleft' hright hupper,
      discriminant_upperBand_nonneg_iff hscale hleft' hright hupper⟩

end Bands
end Profile

/-- A binary form is nonnegative exactly if its discriminant is not positive. -/
theorem binary_form_nonneg_iff
    {a : ℝ}
    (ha : 0 < a)
    (b c : ℝ) :
    (∀ r s : ℝ, 0 ≤ a * r ^ 2 + b * (r * s) + c * s ^ 2) ↔ 0 ≤ 4 * a * c - b ^ 2 := by
  constructor
  · intro h
    have hvertex : a * (-b / (2 * a)) ^ 2 + b * (-b / (2 * a) * 1) + c * 1 ^ 2 =
        (4 * a * c - b ^ 2) / (4 * a) := by
      field_simp
      ring
    have hquotient := h (-b / (2 * a)) 1
    rwa [hvertex, le_div_iff₀ (by positivity), zero_mul] at hquotient
  · intro h r s
    have hsquare : a * r ^ 2 + b * (r * s) + c * s ^ 2 =
        ((2 * a * r + b * s) ^ 2 + (4 * a * c - b ^ 2) * s ^ 2) / (4 * a) := by
      field_simp
      ring
    rw [hsquare]
    positivity

/-- The quadratic form of a matrix in the coordinates of a contact. -/
def ContactMatrix.form (H : ContactMatrix ℝ) (d : ContactVector ℝ) : ℝ :=
  d.inner (H.apply d)

namespace Regime

/-- A sliding impulse at an over-attenuated angle. -/
def OverAttenuated : Regime ℝ → Prop
  | slide phi _ upper => Profile.OverAttenuated phi upper
  | _ => False

section Forms

variable [Threshold]
variable {p : ConeParameters ℝ} {ratio : ℝ} {z : ContactVector ℝ} {phi lower upper : ℝ}

/-- The part of a vector along the tangential direction of `z`. -/
noncomputable def along (z d : ContactVector ℝ) : ℝ :=
  z.t₁ / z.tangentialNorm * d.t₁ + z.t₂ / z.tangentialNorm * d.t₂

/-- The part of a vector perpendicular to the tangential direction of `z` and the normal. -/
noncomputable def aside (z d : ContactVector ℝ) : ℝ :=
  z.t₁ / z.tangentialNorm * d.t₂ - z.t₂ / z.tangentialNorm * d.t₁

theorem direction_sq
    (hnorm : 0 < z.tangentialNorm) :
    (z.t₁ / z.tangentialNorm) ^ 2 + (z.t₂ / z.tangentialNorm) ^ 2 = 1 := by
  have hsq : z.tangentialNorm ^ 2 = z.t₁ ^ 2 + z.t₂ ^ 2 := by
    rw [z.tangentialNorm_eq]
    exact Real.sq_sqrt (by positivity)
  rw [div_pow, div_pow, ← add_div, ← hsq, div_self (by positivity)]

/-- The second derivative of the potential of a sliding impulse, by the parts of a vector along the
radius, along the angle, and aside. -/
theorem form_hessian_slide
    (hnorm : 0 < z.tangentialNorm)
    (d : ContactVector ℝ) :
    let M := Profile.between phi lower upper
    let r := z.sine * along z d + z.cosine * d.n
    let s := z.cosine * along z d - z.sine * d.n
    (hessian z (.slide phi lower upper)).form d =
      (polar M z).across * aside z d ^ 2 +
        (M.value * r ^ 2 + M.slope * (r * s) + (M.value + M.curvature / 2) * s ^ 2) := by
  intro M r s
  have hdirection := direction_sq hnorm
  have hsquares : aside z d ^ 2 + along z d ^ 2 = d.t₁ ^ 2 + d.t₂ ^ 2 := by
    simp only [aside, along]
    linear_combination (d.t₁ ^ 2 + d.t₂ ^ 2) * hdirection
  have hform : (hessian z (.slide phi lower upper)).form d =
      (polar M z).across * (d.t₁ ^ 2 + d.t₂ ^ 2 - along z d ^ 2) +
        ((polar M z).rr * along z d ^ 2 + 2 * (polar M z).rn * (along z d * d.n) +
          (polar M z).nn * d.n ^ 2) := by
    simp only [ContactMatrix.form, ContactVector.inner, ContactMatrix.apply, hessian, along, M]
    ring
  have hrr : (polar M z).rr =
      M.value * z.sine ^ 2 + M.slope * (z.sine * z.cosine) +
        (M.value + M.curvature / 2) * z.cosine ^ 2 := by
    simp only [polar, Exact.half_eq, Exact.sqrt_eq, ContactVector.sine, ContactVector.cosine]
    ring
  have hrn : 2 * (polar M z).rn =
      2 * M.value * (z.sine * z.cosine) + M.slope * (z.cosine ^ 2 - z.sine ^ 2) -
        2 * (M.value + M.curvature / 2) * (z.sine * z.cosine) := by
    simp only [polar, Exact.half_eq, Exact.sqrt_eq, ContactVector.sine, ContactVector.cosine]
    ring
  have hnn : (polar M z).nn =
      M.value * z.cosine ^ 2 - M.slope * (z.sine * z.cosine) +
        (M.value + M.curvature / 2) * z.sine ^ 2 := by
    simp only [polar, Exact.half_eq, Exact.sqrt_eq, ContactVector.sine, ContactVector.cosine]
    ring
  rw [hform, hrr, hrn, hnn, ← hsquares]
  simp only [r, s]
  ring

/-- A vector with given parts along the radius and along the angle of `z`. -/
theorem exists_of_polar_parts
    (hpos : 0 < z.normSquared)
    (hnorm : 0 < z.tangentialNorm)
    (r s : ℝ) :
    ∃ d, z.sine * along z d + z.cosine * d.n = r ∧ z.cosine * along z d - z.sine * d.n = s ∧
      aside z d = 0 := by
  have hunit := ContactVector.sine_sq_add_cosine_sq hpos
  have hdirection := direction_sq hnorm
  let a := z.sine * r + z.cosine * s
  let d : ContactVector ℝ :=
    ⟨z.t₁ / z.tangentialNorm * a, z.t₂ / z.tangentialNorm * a, z.cosine * r - z.sine * s⟩
  have halong : along z d = a := by
    simp only [along, d]
    linear_combination a * hdirection
  refine ⟨d, ?_, ?_, ?_⟩
  · rw [halong]
    linear_combination r * hunit
  · rw [halong]
    linear_combination s * hunit
  · simp only [aside, d]
    ring

/-- The second derivative of the potential of a sliding impulse is positive semidefinite unless the
angle is over-attenuated. -/
theorem form_hessian_slide_nonneg_iff
    (hvalid : p.flaw? = none)
    (hratio : 0 < ratio)
    (h : Sliding p ratio z phi lower upper) :
    (∀ d, 0 ≤ (hessian z (.slide phi lower upper)).form d) ↔
      ¬ Profile.OverAttenuated phi upper := by
  obtain ⟨-, -, -, -, -, -, hwidth⟩ := p.flaw?_eq_none_iff.1 hvalid
  obtain ⟨halpha₀, halpha⟩ := openingAngle_mem h.friction_pos hratio
  have hnorm := h.tangentialNorm_pos hratio
  have hpos : 0 < z.normSquared :=
    Real.sqrt_pos.1 h.rho_pos
  have hlower : lower < Real.pi / 8 := by
    rw [h.lower_eq]
    exact lt_of_le_of_lt (min_le_left _ _) hwidth
  have hupper : upper < Real.pi / 8 := by
    rw [h.upper_eq]
    exact lt_of_le_of_lt (min_le_left _ _) hwidth
  obtain ⟨hvalue, hdiscriminant⟩ :=
    Profile.discriminant_between_nonneg_iff hlower hupper h.neg_lower_lt h.lt_pi_div_two
  have hacross : 0 ≤ (polar (Profile.between phi lower upper) z).across := by
    have hinward :
        Profile.PointsInward (Profile.between phi lower upper) phi (openingAngle p ratio) := by
      have hleft := h.neg_lower_lt
      rw [h.lower_eq] at hleft
      rw [h.lower_eq, h.upper_eq]
      exact Profile.pointsInward_between hwidth halpha₀ halpha hleft h.lt_pi_div_two
    rw [h.across_eq hratio]
    exact div_nonneg hinward.tangential_nonneg (h.sin_pos hratio).le
  rw [← hdiscriminant, Jet.discriminant_eq, ← binary_form_nonneg_iff hvalue]
  constructor
  · intro hform r s
    obtain ⟨d, rfl, rfl, haside⟩ := exists_of_polar_parts hpos hnorm r s
    have := hform d
    rw [form_hessian_slide hnorm, haside] at this
    simpa using this
  · intro hbinary d
    rw [form_hessian_slide hnorm]
    exact add_nonneg (mul_nonneg hacross (sq_nonneg _)) (hbinary _ _)

/-- **The potential is convex but for over-attenuated impulses**: in every regime the second
derivative is positive semidefinite exactly if the impulse is not over-attenuated. -/
theorem form_hessian_nonneg_iff
    (hvalid : p.flaw? = none)
    (hratio : 0 < ratio)
    (z : ContactVector ℝ) :
    (∀ d, 0 ≤ (hessian z (ofImpulse p ratio z)).form d) ↔
      ¬ (ofImpulse p ratio z).OverAttenuated := by
  have hzero : ∀ d, 0 ≤ ContactMatrix.form (ContactMatrix.zero : ContactMatrix ℝ) d := by
    intro d
    simp [ContactMatrix.form, ContactMatrix.zero, ContactMatrix.apply, ContactVector.inner]
  cases hregime : ofImpulse p ratio z with
  | negligible =>
      exact ⟨fun _ => not_false, fun _ => hzero⟩
  | released =>
      exact ⟨fun _ => not_false, fun _ => hzero⟩
  | separated =>
      exact ⟨fun _ => not_false, fun _ => hzero⟩
  | compressed =>
      refine ⟨fun _ => not_false, fun _ d => ?_⟩
      simp [hessian, ContactMatrix.form, ContactMatrix.normalOnly, ContactMatrix.apply,
        ContactVector.inner, mul_self_nonneg]
  | stick =>
      refine ⟨fun _ => not_false, fun _ d => ?_⟩
      simp only [hessian, ContactMatrix.form, ContactMatrix.identity, ContactMatrix.apply,
        ContactVector.inner, Exact.ofNat_one, Exact.ofNat_zero]
      nlinarith [mul_self_nonneg d.t₁, mul_self_nonneg d.t₂, mul_self_nonneg d.n]
  | slide phi lower upper =>
      obtain ⟨hfriction, -⟩ := p.flaw?_eq_none_iff.1 hvalid
      exact form_hessian_slide_nonneg_iff hvalid hratio (sliding_of_ofImpulse hfriction hregime)

/-- The regime of an impulse with friction that is given in polar coordinates. -/
theorem ofImpulse_eq_slide
    {rho theta : ℝ}
    (hfriction : 0 < p.friction)
    (hrho : 0 < rho)
    (hlong : Threshold.value < rho ^ 2)
    (htheta : 0 ≤ theta ∧ theta ≤ Real.pi)
    (htangential : z.tangentialNorm = rho * Real.sin theta)
    (hnormal : z.n = rho * Real.cos theta)
    (hleft : -min p.width (openingAngle p ratio / 2) < theta - openingAngle p ratio)
    (hright : theta - openingAngle p ratio < Real.pi / 2) :
    ofImpulse p ratio z =
      .slide (theta - openingAngle p ratio) (min p.width (openingAngle p ratio / 2))
        (min p.width (openingAngle p ratio)) := by
  have hlong' : Threshold.value < z.normSquared := by
    have hsq : z.normSquared = rho ^ 2 := by
      rw [z.normSquared_eq, htangential, hnormal]
      linear_combination rho ^ 2 * Real.sin_sq_add_cos_sq theta
    rwa [hsq]
  have hangle : angle p ratio z = theta - openingAngle p ratio := by
    have hpolar : (⟨z.n, z.tangentialNorm⟩ : ℂ) =
        (rho : ℂ) * (Complex.cos theta + Complex.sin theta * Complex.I) := by
      apply Complex.ext
      · simp [hnormal, Complex.cos_ofReal_re]
      · simp [htangential, Complex.sin_ofReal_re]
    unfold angle
    rw [hpolar, Complex.arg_mul_cos_add_sin_mul_I hrho ⟨by linarith [Real.pi_pos], htheta.2⟩]
  rw [← lowerWidth_eq] at hleft ⊢
  rw [ofImpulse_of_friction ratio hfriction hlong', hangle, if_neg hleft.not_ge,
    if_neg hright.not_ge]
  rfl

end Forms
end Regime

namespace ContactVector

variable {R : ContactVector ℝ}

theorem roots_ne_zero
    (hR : 0 < R.t₁ ∧ 0 < R.t₂ ∧ 0 < R.n) :
    √R.t₁ ≠ 0 ∧ √R.t₂ ≠ 0 ∧ √R.n ≠ 0 :=
  ⟨(Real.sqrt_pos.2 hR.1).ne', (Real.sqrt_pos.2 hR.2.1).ne', (Real.sqrt_pos.2 hR.2.2).ne'⟩

theorem unscaled_scaled
    (hR : 0 < R.t₁ ∧ 0 < R.t₂ ∧ 0 < R.n)
    (d : ContactVector ℝ) :
    (d.scaled R).unscaled R = d := by
  obtain ⟨h₁, h₂, hₙ⟩ := roots_ne_zero hR
  simp only [scaled, unscaled, mul_div_cancel_left₀ _ h₁, mul_div_cancel_left₀ _ h₂,
    mul_div_cancel_left₀ _ hₙ]

theorem scaled_unscaled
    (hR : 0 < R.t₁ ∧ 0 < R.t₂ ∧ 0 < R.n)
    (z : ContactVector ℝ) :
    (z.unscaled R).scaled R = z := by
  obtain ⟨h₁, h₂, hₙ⟩ := roots_ne_zero hR
  simp only [scaled, unscaled, mul_div_cancel₀ _ h₁, mul_div_cancel₀ _ h₂, mul_div_cancel₀ _ hₙ]

end ContactVector

namespace ConeParameters

section Blocks

variable [Threshold]
variable {p : ConeParameters ℝ} {format : Format} {R y : ContactVector ℝ}

/-- The block of a contact in the second derivative: the derivative of the projection with the
columns divided by the regularization. -/
noncomputable def blockAt (p : ConeParameters ℝ) (format : Format) (R y : ContactVector ℝ) :
    DenseMatrix ℝ :=
  ConstraintBundle.hessianBlock (p.derivativeAt format R y) (R.toList.map (1 / ·))

theorem shape_blockAt
    (p : ConeParameters ℝ) (format : Format) (R y : ContactVector ℝ) :
    (p.blockAt format R y).numRows = 3 ∧ (p.blockAt format R y).numCols = 3 := by
  unfold blockAt ConstraintBundle.hessianBlock derivativeAt
  simp

/-- The entries of a block are those of the second derivative of the potential, in the coordinates
of the impulse. -/
theorem get_blockAt
    {i j : ℕ} (hi : i < 3) (hj : j < 3) :
    (p.blockAt format R y).get i j =
      ((p.regimeAt R y).hessian (y.scaled R)).entry i j / (√(R.entry i) * √(R.entry j)) := by
  unfold blockAt ConstraintBundle.hessianBlock derivativeAt
  rw [DenseMatrix.get_tabulate _ _ _ _ (by simpa using hi) (by simpa using hj),
    DenseMatrix.get_tabulate _ _ _ _ hi hj]
  have hroot : ∀ k < 3, [√R.t₁, √R.t₂, √R.n].getD k 0 = √(R.entry k) := by
    intro k hk
    interval_cases k <;> rfl
  have hinverse : (R.toList.map (1 / ·)).getD j 0 = 1 / R.entry j := by
    interval_cases j <;> rfl
  have hquotient : √(R.entry j) / R.entry j = 1 / √(R.entry j) :=
    Real.sqrt_div_self'
  rw [Exact.ofNat_zero]
  calc _ * [√R.t₁, √R.t₂, √R.n].getD j 0 / [√R.t₁, √R.t₂, √R.n].getD i 0 *
        (R.toList.map (1 / ·)).getD j 0
      = ((p.regimeAt R y).hessian (y.scaled R)).entry i j * √(R.entry j) / √(R.entry i) *
          (1 / R.entry j) := by
        rw [hroot i hi, hroot j hj, hinverse]
    _ = ((p.regimeAt R y).hessian (y.scaled R)).entry i j / √(R.entry i) *
          (√(R.entry j) / R.entry j) := by
        ring
    _ = _ := by
        rw [hquotient, div_mul_div_comm, mul_one]

/-- The bilinear form of a block is that of the potential in scaled coordinates. -/
theorem inner_mulVec_blockAt
    (c d : ContactVector ℝ) :
    Vec.dot c.toList ((p.blockAt format R y).mulVec d.toList) =
      (c.unscaled R).inner (((p.regimeAt R y).hessian (y.scaled R)).apply (d.unscaled R)) := by
  obtain ⟨hrows, hcols⟩ := p.shape_blockAt format R y
  rw [DenseMatrix.dot_mulVec (by rw [hrows]; rfl) (by rw [hcols]; rfl), hrows, hcols]
  have hentries : ∀ i ∈ Finset.range 3, ∀ j ∈ Finset.range 3,
      c.toList.getD i 0 * (p.blockAt format R y).get i j * d.toList.getD j 0 =
        c.entry i / √(R.entry i) * ((p.regimeAt R y).hessian (y.scaled R)).entry i j *
          (d.entry j / √(R.entry j)) := by
    intro i hi j hj
    rw [get_blockAt (Finset.mem_range.1 hi) (Finset.mem_range.1 hj)]
    simp only [ContactVector.entry]
    ring
  rw [Finset.sum_congr rfl fun i hi => Finset.sum_congr rfl (hentries i hi)]
  simp only [Finset.sum_range_succ, Finset.sum_range_zero, ContactVector.entry,
    ContactVector.toList, ContactMatrix.entry, ContactMatrix.rows, List.getD_cons_zero,
    List.getD_cons_succ, ContactVector.inner, ContactMatrix.apply, ContactVector.unscaled]
  ring

/-- The quadratic form of a block is that of the potential in scaled coordinates. -/
theorem dot_mulVec_blockAt
    (d : ContactVector ℝ) :
    Vec.dot d.toList ((p.blockAt format R y).mulVec d.toList) =
      ((p.regimeAt R y).hessian (y.scaled R)).form (d.unscaled R) :=
  inner_mulVec_blockAt d d

/-- A block is positive semidefinite unless the impulse is over-attenuated. -/
theorem dot_mulVec_blockAt_nonneg_iff
    (hvalid : p.flaw? = none)
    (hR : 0 < R.t₁ ∧ 0 < R.t₂ ∧ 0 < R.n) :
    (∀ d : ContactVector ℝ, 0 ≤ Vec.dot d.toList ((p.blockAt format R y).mulVec d.toList)) ↔
      ¬ (p.regimeAt R y).OverAttenuated := by
  rw [regimeAt, ← Regime.form_hessian_nonneg_iff hvalid (div_pos hR.1 hR.2.2)]
  constructor
  · intro h d
    have := h (d.scaled R)
    rwa [dot_mulVec_blockAt, ContactVector.unscaled_scaled hR] at this
  · intro h d
    rw [dot_mulVec_blockAt]
    exact h _

/-- **The block of a contact in the second derivative.**  For parameters without a flaw and any
regularization that is the same in both tangential directions, the projection is not refused, and
the block of its derivative is symmetric.  It is positive semidefinite unless the impulse slides so
near to the polar cone that the attenuation of the profile bends the potential downwards. -/
theorem hessianBlock_semidefinite_iff
    (p : ConeParameters ℝ) (hvalid : p.validate = .ok p)
    (format : Format)
    (y₁ y₂ yₙ : ℝ)
    {Rₜ Rₙ : ℝ} (hRₜ : 0 < Rₜ) (hRₙ : 0 < Rₙ) :
    ∃ γ D,
      p.project format [y₁, y₂, yₙ] [Rₜ, Rₜ, Rₙ] = .ok (γ, D) ∧
        let G := ConstraintBundle.hessianBlock D ([Rₜ, Rₜ, Rₙ].map (1 / ·))
        (G.numRows = 3 ∧ G.numCols = 3) ∧
          (∀ i < 3, ∀ j < 3, G.get i j = G.get j i) ∧
          ((∀ x₁ x₂ xₙ, 0 ≤ Vec.dot [x₁, x₂, xₙ] (G.mulVec [x₁, x₂, xₙ])) ↔
            ¬ (p.regimeAt ⟨Rₜ, Rₜ, Rₙ⟩ ⟨y₁, y₂, yₙ⟩).OverAttenuated) := by
  let y : ContactVector ℝ := ⟨y₁, y₂, yₙ⟩
  let R : ContactVector ℝ := ⟨Rₜ, Rₜ, Rₙ⟩
  refine ⟨_, p.derivativeAt format R y, p.project_eq format y R, p.shape_blockAt format R y,
    ?_, ?_⟩
  · intro i hi j hj
    change (p.blockAt format R y).get i j = (p.blockAt format R y).get j i
    rw [get_blockAt hi hj, get_blockAt hj hi, mul_comm (√(R.entry j))]
    congr 1
    interval_cases i <;> interval_cases j <;> rfl
  · rw [← dot_mulVec_blockAt_nonneg_iff (flaw?_of_validate hvalid) ⟨hRₜ, hRₜ, hRₙ⟩]
    exact ⟨fun h d => h d.t₁ d.t₂ d.n, fun h x₁ x₂ xₙ => h ⟨x₁, x₂, xₙ⟩⟩

/-- Every smoothed cone with friction has impulses at which its potential is not convex. -/
theorem exists_overAttenuated
    (hvalid : p.flaw? = none)
    (hfriction : 0 < p.friction)
    (hwidth : 0 < p.width)
    (hR : 0 < R.t₁ ∧ 0 < R.t₂ ∧ 0 < R.n) :
    ∃ y, (p.regimeAt R y).OverAttenuated := by
  obtain ⟨-, -, -, -, -, -, hsmall⟩ := p.flaw?_eq_none_iff.1 hvalid
  obtain ⟨halpha₀, halpha⟩ := Regime.openingAngle_mem hfriction (div_pos hR.1 hR.2.2)
  set alpha := Regime.openingAngle p (R.t₁ / R.n) with halpha_eq
  set upper := min p.width alpha with hupper
  have hupper₀ : 0 < upper :=
    lt_min hwidth halpha₀
  have hupper₁ : upper < Real.pi / 8 :=
    lt_of_le_of_lt (min_le_left _ _) hsmall
  have hupper₂ : upper ≤ alpha :=
    min_le_right _ _
  have hlower : 0 < min p.width (alpha / 2) :=
    lt_min hwidth (half_pos halpha₀)
  set theta := Real.pi / 2 - 3 / 4 * upper + alpha with htheta
  set rho := √(Threshold.value + 1) with hrho
  have hlong : rho ^ 2 = Threshold.value + 1 :=
    Real.sq_sqrt (by linarith [Threshold.value_pos])
  have hrho₀ : 0 < rho :=
    Real.sqrt_pos.2 (by linarith [Threshold.value_pos])
  have hsin : 0 ≤ Real.sin theta :=
    Real.sin_nonneg_of_nonneg_of_le_pi (by linarith) (by linarith)
  let z : ContactVector ℝ := ⟨rho * Real.sin theta, 0, rho * Real.cos theta⟩
  have hroots : (z.unscaled R).scaled R = z :=
    ContactVector.scaled_unscaled hR z
  have htangential : z.tangentialNorm = rho * Real.sin theta := by
    rw [z.tangentialNorm_eq]
    simp only [z]
    rw [zero_pow two_ne_zero, add_zero, Real.sqrt_sq (mul_nonneg hrho₀.le hsin)]
  refine ⟨z.unscaled R, ?_⟩
  rw [regimeAt, hroots,
    Regime.ofImpulse_eq_slide hfriction hrho₀ (by linarith) ⟨by linarith, by linarith⟩ htangential
      rfl (by linarith) (by linarith)]
  change Profile.OverAttenuated (theta - alpha) upper
  rw [htheta, add_sub_cancel_right]
  exact Profile.overAttenuated_quarter hupper₀ hupper₁

end Blocks

/-- The block of an impulse that slides on a cone with the default bands. -/
theorem hessianBlock_semidefinite_iff_of_sliding :
    letI := Threshold.ofFormat .double
    (ofMaterial (1 / 2 : ℝ) 1 0).validate = .ok (ofMaterial (1 / 2) 1 0) ∧
      ((0 : ℝ) < 1 ∧ (0 : ℝ) < 2) ∧
      ∃ γ D,
        (ofMaterial (1 / 2 : ℝ) 1 0).project .double [3, 0, 1] [1, 1, 2] = .ok (γ, D) ∧
          let G := ConstraintBundle.hessianBlock D ([1, 1, 2].map (1 / ·))
          (G.numRows = 3 ∧ G.numCols = 3) ∧
            (∀ i < 3, ∀ j < 3, G.get i j = G.get j i) ∧
            ((∀ x₁ x₂ xₙ, 0 ≤ Vec.dot [x₁, x₂, xₙ] (G.mulVec [x₁, x₂, xₙ])) ↔
              ¬ ((ofMaterial (1 / 2 : ℝ) 1 0).regimeAt ⟨1, 1, 2⟩ ⟨3, 0, 1⟩).OverAttenuated) := by
  let _ := Threshold.ofFormat .double
  have hvalid : (ofMaterial (1 / 2 : ℝ) 1 0).validate = .ok (ofMaterial (1 / 2) 1 0) :=
    validate_of_flaw?_eq_none (flaw?_ofMaterial one_half_pos.le one_pos le_rfl)
  exact ⟨hvalid, ⟨one_pos, two_pos⟩,
    hessianBlock_semidefinite_iff _ hvalid .double 3 0 1 one_pos two_pos⟩

/-- A cone with a right opening angle and wide bands. -/
noncomputable def rightAngled : ConeParameters ℝ :=
  ⟨1, 1, 0, 1, 1 / 1000, 1 / 5⟩

theorem overAttenuated_arctan :
    Profile.OverAttenuated (Real.pi / 2 - Real.arctan (1 / 8)) (1 / 5) := by
  set delta := Real.arctan (1 / 8) with hdelta
  have htan : Real.tan delta = 1 / 8 :=
    Real.tan_arctan _
  have hpos : 0 < delta :=
    Real.arctan_pos.2 (by norm_num)
  have hright : delta < Real.pi / 2 :=
    Real.arctan_lt_pi_div_two _
  have hlt : delta < 1 / 8 := by
    rw [← htan]
    exact Real.lt_tan hpos hright
  have hcos := Real.one_sub_sq_div_two_le_cos (x := delta)
  have hcos₀ : 127 / 128 ≤ Real.cos delta := by
    nlinarith
  have hsin : Real.sin delta = 1 / 8 * Real.cos delta := by
    rw [← htan, Real.tan_mul_cos (by linarith)]
  have hge : 127 / 1024 ≤ delta := by
    have := Real.sin_le hpos.le
    linarith
  have hu : Profile.penetration (Real.pi / 2 - delta) (1 / 5) = 1 - 5 * delta := by
    rw [Profile.penetration_eq]
    ring
  refine ⟨by linarith, ?_⟩
  rw [hu, Real.sin_pi_div_two_sub, Real.cos_pi_div_two_sub, hsin]
  have hu₀ : 0 ≤ 1 - 5 * delta := by
    linarith
  have hcube : 0 ≤ (1 - 5 * delta) ^ 3 ∧ (1 - 5 * delta) ^ 3 ≤ 1 :=
    ⟨pow_nonneg hu₀ 3, pow_le_one₀ hu₀ (by linarith)⟩
  have hinner : 4 / 5 * ((1 - 5 * delta) * (1 - (1 - 5 * delta) ^ 3)) <
      1 / 8 * (4 - (1 - 5 * delta) ^ 3) := by
    nlinarith
  have := mul_lt_mul_of_pos_left hinner (by linarith : 0 < Real.cos delta)
  linarith

theorem openingAngle_of_friction_eq_one
    [Threshold]
    {p : ConeParameters ℝ}
    (hfriction : p.friction = 1) :
    Regime.openingAngle p (1 / 1) = Real.pi / 4 := by
  simp only [Regime.openingAngle, Exact.sqrt_eq, Exact.atan_eq]
  rw [hfriction, div_one, Real.sqrt_one, mul_one, Real.arctan_one]

/-- The impulse `(9, 0, -7)` by its length and its angle. -/
theorem polar_coordinates_nine_seven :
    (9 : ℝ) = √130 * Real.sin (3 * Real.pi / 4 - Real.arctan (1 / 8)) ∧
      (-7 : ℝ) = √130 * Real.cos (3 * Real.pi / 4 - Real.arctan (1 / 8)) := by
  have hthree : 3 * Real.pi / 4 = Real.pi - Real.pi / 4 := by
    ring
  have hroot : √(1 + (1 / 8 : ℝ) ^ 2) = √65 / 8 := by
    rw [show (1 : ℝ) + (1 / 8) ^ 2 = 65 / 8 ^ 2 by norm_num, Real.sqrt_div (by norm_num),
      Real.sqrt_sq (by norm_num)]
  have hlength : √130 = √65 * √2 := by
    rw [← Real.sqrt_mul (by norm_num)]
    norm_num
  have htwo : √2 * √2 = (2 : ℝ) :=
    Real.mul_self_sqrt (by norm_num)
  have hne : √(65 : ℝ) ≠ 0 :=
    (Real.sqrt_pos.2 (by norm_num)).ne'
  rw [Real.sin_sub, Real.cos_sub, hthree, Real.sin_pi_sub, Real.cos_pi_sub, Real.sin_pi_div_four,
    Real.cos_pi_div_four, Real.sin_arctan, Real.cos_arctan, hroot, hlength]
  constructor
  · field_simp
    linarith
  · field_simp
    linarith

theorem overAttenuated_rightAngled :
    letI := Threshold.ofFormat .double
    (rightAngled.regimeAt ⟨1, 1, 1⟩ ⟨9, 0, -7⟩).OverAttenuated := by
  let _ := Threshold.ofFormat .double
  obtain ⟨hsin, hcos⟩ := polar_coordinates_nine_seven
  obtain ⟨hband, -⟩ := overAttenuated_arctan
  have hpi := Real.pi_gt_three
  have hdelta : 0 < Real.arctan (1 / 8) :=
    Real.arctan_pos.2 (by norm_num)
  set theta := 3 * Real.pi / 4 - Real.arctan (1 / 8) with htheta
  have hscaled : ContactVector.scaled ⟨9, 0, -7⟩ ⟨1, 1, 1⟩ = ⟨9, 0, -7⟩ := by
    simp [ContactVector.scaled]
  have htangential : (⟨9, 0, -7⟩ : ContactVector ℝ).tangentialNorm = √130 * Real.sin theta := by
    rw [← hsin, ContactVector.tangentialNorm_eq, zero_pow two_ne_zero, add_zero]
    exact Real.sqrt_sq (by norm_num)
  have hlong : Threshold.value < √(130 : ℝ) ^ 2 := by
    rw [Real.sq_sqrt (by norm_num)]
    exact lt_of_le_of_lt (Threshold.value_ofFormat_le .double) (by norm_num)
  have halpha := openingAngle_of_friction_eq_one (p := rightAngled) rfl
  have hfriction : 0 < rightAngled.friction :=
    one_pos
  have hwidth : rightAngled.width = 1 / 5 :=
    rfl
  unfold regimeAt
  rw [hscaled, Regime.ofImpulse_eq_slide hfriction (Real.sqrt_pos.2 (by norm_num)) hlong
    ⟨by linarith, by linarith⟩ htangential hcos]
  · change Profile.OverAttenuated (theta - Regime.openingAngle rightAngled (1 / 1))
      (min rightAngled.width (Regime.openingAngle rightAngled (1 / 1)))
    rw [halpha, hwidth, min_eq_left (by linarith)]
    convert overAttenuated_arctan using 1
    rw [htheta]
    ring
  · rw [halpha, hwidth, min_eq_left (by linarith)]
    linarith
  · rw [halpha]
    linarith

/-- **Not every block is positive semidefinite**: an impulse that nearly separates. -/
theorem hessianBlock_indefinite_at_attenuation :
    letI := Threshold.ofFormat .double
    rightAngled.validate = .ok rightAngled ∧
      ∃ γ D,
        rightAngled.project .double [9, 0, -7] [1, 1, 1] = .ok (γ, D) ∧
          let G := ConstraintBundle.hessianBlock D ([1, 1, 1].map (1 / ·))
          ∃ x₁ x₂ xₙ, Vec.dot [x₁, x₂, xₙ] (G.mulVec [x₁, x₂, xₙ]) < 0 := by
  let _ := Threshold.ofFormat .double
  have hvalid : rightAngled.flaw? = none := by
    rw [flaw?_eq_none_iff]
    have := Real.pi_gt_three
    refine ⟨?_, ?_, ?_, ?_, ?_, ?_, ?_⟩ <;> simp only [rightAngled] <;> linarith
  let y : ContactVector ℝ := ⟨9, 0, -7⟩
  let R : ContactVector ℝ := ⟨1, 1, 1⟩
  have hR : 0 < R.t₁ ∧ 0 < R.t₂ ∧ 0 < R.n :=
    ⟨one_pos, one_pos, one_pos⟩
  have hindefinite :
      ¬ ∀ d : ContactVector ℝ,
        0 ≤ Vec.dot d.toList ((rightAngled.blockAt .double R y).mulVec d.toList) := by
    rw [dot_mulVec_blockAt_nonneg_iff hvalid hR, not_not]
    exact overAttenuated_rightAngled
  obtain ⟨d, hd⟩ := not_forall.1 hindefinite
  exact ⟨validate_of_flaw?_eq_none hvalid, _, _, rightAngled.project_eq .double y R, d.t₁, d.t₂,
    d.n, not_le.1 hd⟩

end ConeParameters
end ConvexContact
