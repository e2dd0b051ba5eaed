import Mathlib
import ConvexContact.Cone.Profile
import ConvexContact.Proofs.Exact

/-!
# Bounds of the angular profile

Let an impulse slide at the angle `phi` outside a cone of half opening angle `alpha`.  In the plane
of its tangential direction and the normal, the gradient of its potential points into the cone if
the profile `M` satisfies `M sin phi + M'/2 cos phi ≤ 0`, and it stays in the half plane of the
impulse if `0 ≤ M sin (phi + alpha) + M'/2 cos (phi + alpha)`.

**Results.**  `Profile.pointsInward_between`: both hold in the two bands and between them, for
every width of the bands below `π/8`.  In the band around the surface of the cone they amount to
the bounds `0 ≤ p ≤ tan lower` of the cubic offset `p`.
-/

namespace ConvexContact
namespace Profile

section Trigonometry

/-- Angles of bands are small. -/
theorem lt_half_of_lt_pi_div_eight
    {x : ℝ}
    (h : x < Real.pi / 8) :
    x < 1 / 2 := by
  have := Real.pi_lt_four
  linarith

theorem cos_pos_of_lt_pi_div_eight
    {x : ℝ}
    (hnonneg : 0 ≤ x)
    (h : x < Real.pi / 8) :
    0 < Real.cos x := by
  have := Real.pi_pos
  exact Real.cos_pos_of_mem_Ioo ⟨by linarith, by linarith⟩

/-- The squared secant in terms of the tangent. -/
theorem one_add_tan_sq
    {x : ℝ}
    (hcos : Real.cos x ≠ 0) :
    1 + Real.tan x ^ 2 = 1 / Real.cos x ^ 2 := by
  rw [Real.tan_eq_sin_div_cos]
  field_simp
  rw [Real.cos_sq_add_sin_sq]

/-- An upper bound of the tangent. -/
theorem tan_le_mul_sec_sq
    {x : ℝ}
    (hnonneg : 0 ≤ x)
    (hcos : 0 < Real.cos x) :
    Real.tan x ≤ x * (1 + Real.tan x ^ 2) := by
  have hsin : Real.sin (2 * x) ≤ 2 * x :=
    Real.sin_le (by linarith)
  rw [Real.sin_two_mul] at hsin
  rw [one_add_tan_sq hcos.ne', Real.tan_eq_sin_div_cos, mul_one_div,
    div_le_div_iff₀ hcos (by positivity)]
  nlinarith

/-- A lower bound of the tangent of small angles. -/
theorem mul_sec_sq_le_tan
    {x : ℝ}
    (hpos : 0 < x)
    (hsmall : x ≤ 1 / 2)
    (hcos : 0 < Real.cos x) :
    2 * x * (1 + Real.tan x ^ 2) ≤ 3 * Real.tan x := by
  have hsin : 2 * x - (2 * x) ^ 3 / 6 < Real.sin (2 * x) :=
    Real.sin_gt_sub_cube (by linarith)
  have hcube : (2 * x) ^ 3 / 6 ≤ 2 * x / 6 := by
    have hsq : (2 * x) ^ 2 ≤ 1 := by
      nlinarith
    nlinarith
  rw [Real.sin_two_mul] at hsin
  rw [one_add_tan_sq hcos.ne', Real.tan_eq_sin_div_cos, mul_one_div, ← mul_div_assoc,
    div_le_div_iff₀ (by positivity) hcos]
  nlinarith

/-- The tangent of an angle is at most the sine of an angle at least twice as wide. -/
theorem tan_le_sin
    {x alpha : ℝ}
    (hnonneg : 0 ≤ x)
    (hsmall : x < Real.pi / 8)
    (hle : 2 * x ≤ alpha)
    (halpha : alpha < Real.pi / 2) :
    Real.tan x ≤ Real.sin alpha := by
  have hcos : 0 < Real.cos x :=
    cos_pos_of_lt_pi_div_eight hnonneg hsmall
  have hsin : 0 ≤ Real.sin x :=
    Real.sin_nonneg_of_nonneg_of_le_pi hnonneg (by linarith [Real.pi_pos])
  have hdouble : 0 ≤ Real.cos (2 * x) :=
    Real.cos_nonneg_of_mem_Icc ⟨by linarith [Real.pi_pos], by linarith [Real.pi_pos]⟩
  rw [Real.cos_two_mul] at hdouble
  calc Real.tan x
      ≤ 2 * Real.sin x * Real.cos x := by
        rw [Real.tan_eq_sin_div_cos, div_le_iff₀ hcos]
        nlinarith
    _ = Real.sin (2 * x) :=
        (Real.sin_two_mul x).symm
    _ ≤ Real.sin alpha :=
        Real.sin_le_sin_of_le_of_le_pi_div_two (by linarith [Real.pi_pos]) halpha.le hle

/-- The component across the surface of the cone, by the addition theorems. -/
theorem sin_mul_cos_sub
    (phi alpha : ℝ) :
    Real.sin (phi + alpha) * Real.cos phi - Real.sin phi * Real.cos (phi + alpha) =
      Real.sin alpha := by
  have h := Real.sin_sub (phi + alpha) phi
  rw [add_sub_cancel_left] at h
  rw [h]
  ring

end Trigonometry

/-- The place in the band around the surface of the cone, from zero at its left end to one at its
right end. -/
noncomputable def place (phi lower : ℝ) : ℝ :=
  (phi + lower) / (lower + lower)

theorem place_mem
    {phi lower : ℝ}
    (hleft : -lower < phi)
    (hright : phi < lower) :
    0 < place phi lower ∧ place phi lower < 1 := by
  have hlower : 0 < lower + lower := by
    linarith
  constructor
  · exact div_pos (by linarith) hlower
  · rw [place, div_lt_one hlower]
    linarith

/-- The attenuation at a distance from the polar cone, and its derivative in the angle. -/
noncomputable def attenuation (distance upper : ℝ) : ℝ × ℝ :=
  (1 - (1 - distance / upper) ^ 3, -(3 • (1 - distance / upper) ^ 2) / upper)

/-- Before the polar cone the attenuation is nonnegative and decreases. -/
theorem attenuation_signs
    {distance upper : ℝ}
    (hpos : 0 < distance)
    (hlt : distance < upper) :
    0 ≤ (attenuation distance upper).1 ∧ (attenuation distance upper).2 ≤ 0 := by
  have hupper : 0 < upper :=
    hpos.trans hlt
  have ht₀ : 0 < distance / upper :=
    div_pos hpos hupper
  have ht₁ : distance / upper < 1 := by
    rwa [div_lt_one hupper]
  constructor
  · have hle : (1 - distance / upper) ^ 3 ≤ 1 :=
      pow_le_one₀ (by linarith) (by linarith)
    simp only [attenuation]
    linarith
  · have hsquare : 0 ≤ 3 • (1 - distance / upper) ^ 2 :=
      nsmul_nonneg (sq_nonneg _) 3
    simp only [attenuation]
    exact div_nonpos_of_nonpos_of_nonneg (neg_nonpos.2 hsquare) hupper.le

section Offset

variable [Threshold]
variable {phi lower : ℝ}

/-- The cubic offset as a square times a linear function of the place in the band. -/
theorem offset_eq
    (phi lower : ℝ) :
    (hermiteOffset phi lower).1 =
      (1 - place phi lower) ^ 2 *
        (Real.tan lower * (1 + 2 * place phi lower) -
          2 * lower * (1 + Real.tan lower ^ 2) * place phi lower) := by
  simp only [hermiteOffset, place, Exact.tan_eq, Exact.square_eq, Exact.ofNat_one,
    Exact.ofNat_ofNat]
  ring

/-- The cubic offset is nonnegative. -/
theorem offset_nonneg
    (hleft : -lower < phi)
    (hright : phi < lower)
    (hsmall : lower < Real.pi / 8) :
    0 ≤ (hermiteOffset phi lower).1 := by
  obtain ⟨hs₀, hs₁⟩ := place_mem hleft hright
  have hpos : 0 < lower := by
    linarith
  have hbound :=
    mul_sec_sq_le_tan hpos (lt_half_of_lt_pi_div_eight hsmall).le
      (cos_pos_of_lt_pi_div_eight hpos.le hsmall)
  have hslope : 0 ≤ 2 * lower * (1 + Real.tan lower ^ 2) := by
    positivity
  have htan : 0 ≤ Real.tan lower := by
    linarith
  rw [offset_eq]
  refine mul_nonneg (sq_nonneg _) ?_
  -- The second factor is linear in the place, and nonnegative at both ends of the band.
  nlinarith

/-- The cubic offset is at most its value at the left end of the band. -/
theorem offset_le_tan
    (hleft : -lower < phi)
    (hright : phi < lower)
    (hsmall : lower < Real.pi / 8) :
    (hermiteOffset phi lower).1 ≤ Real.tan lower := by
  obtain ⟨hs₀, hs₁⟩ := place_mem hleft hright
  have hpos : 0 < lower := by
    linarith
  have hbound :=
    tan_le_mul_sec_sq hpos.le (cos_pos_of_lt_pi_div_eight hpos.le hsmall)
  have htan : 0 ≤ Real.tan lower :=
    Real.tan_nonneg_of_nonneg_of_le_pi_div_two hpos.le (by linarith [Real.pi_pos])
  have hfactor :
      Real.tan lower * (1 + 2 * place phi lower) -
        2 * lower * (1 + Real.tan lower ^ 2) * place phi lower ≤ Real.tan lower := by
    nlinarith
  have hsquare : (1 - place phi lower) ^ 2 ≤ 1 := by
    nlinarith
  rw [offset_eq]
  calc (1 - place phi lower) ^ 2 *
        (Real.tan lower * (1 + 2 * place phi lower) -
          2 * lower * (1 + Real.tan lower ^ 2) * place phi lower)
      ≤ (1 - place phi lower) ^ 2 * Real.tan lower :=
        mul_le_mul_of_nonneg_left hfactor (sq_nonneg _)
    _ ≤ 1 * Real.tan lower :=
        mul_le_mul_of_nonneg_right hsquare htan
    _ = Real.tan lower :=
        one_mul _

end Offset

/-- The gradient of a potential with profile `M` at the angle `phi` points into the cone of half
opening angle `alpha`, and stays in the half plane of the impulse. -/
structure PointsInward (M : Jet ℝ) (phi alpha : ℝ) : Prop where
  value_nonneg : 0 ≤ M.value
  outward_nonpos : M.value * Real.sin phi + M.slope / 2 * Real.cos phi ≤ 0
  tangential_nonneg :
    0 ≤ M.value * Real.sin (phi + alpha) + M.slope / 2 * Real.cos (phi + alpha)

section Bands

variable [Threshold]
variable {phi lower upper alpha : ℝ}

theorem slideScale_nonneg
    (lower : ℝ) :
    0 ≤ slideScale lower := by
  unfold slideScale
  split_ifs
  · simp
  · simp only [Exact.exp_eq, Exact.cos_eq, Exact.square_eq]
    exact div_nonneg (Real.exp_pos _).le (sq_nonneg _)

theorem slideScale_zero :
    slideScale (0 : ℝ) = 1 := by
  unfold slideScale
  rw [if_pos (by simp), Exact.ofNat_one]

/-- The three formulas of the profile and the angles between them. -/
theorem between_eq
    (phi lower upper : ℝ) :
    between phi lower upper =
      if phi < lower then lowerBand phi lower
      else if phi ≤ Real.pi / 2 - upper then slide phi (slideScale lower)
      else upperBand phi (slideScale lower) upper := by
  have hhalf : (Scalar.half * Scalar.pi - upper : ℝ) = Real.pi / 2 - upper := by
    rw [Exact.half_eq, Exact.pi_eq]
    ring
  unfold between
  rw [hhalf]

theorem value_lowerBand
    (phi lower : ℝ) :
    (lowerBand phi lower).value =
      Real.cos phi ^ 2 / Real.cos lower ^ 2 *
        Real.exp (-2 * (hermiteOffset phi lower).2.2) := by
  simp only [lowerBand, Exact.exp_eq, Exact.cos_eq, Exact.square_eq, Exact.ofNat_ofNat]

theorem slope_lowerBand
    (phi lower : ℝ) :
    (lowerBand phi lower).slope =
      -2 * (Real.tan phi + (hermiteOffset phi lower).1) * (lowerBand phi lower).value := by
  simp only [lowerBand, Exact.tan_eq, Exact.ofNat_ofNat]

theorem value_slide
    (phi scale : ℝ) :
    (slide phi scale).value = scale * Real.cos phi ^ 2 := by
  simp only [slide, Exact.cos_eq, Exact.square_eq]

theorem slope_slide
    (phi scale : ℝ) :
    (slide phi scale).slope = -2 * scale * Real.sin phi * Real.cos phi := by
  simp only [slide, Exact.sin_eq, Exact.ofNat_ofNat, Real.sin_two_mul]
  ring

theorem value_upperBand
    (phi scale upper : ℝ) :
    (upperBand phi scale upper).value =
      scale * Real.cos phi ^ 2 * (attenuation (Real.pi / 2 - phi) upper).1 := by
  simp only [upperBand, attenuation, Exact.cos_eq, Exact.square_eq, Exact.cube_eq, Exact.half_eq,
    Exact.pi_eq, Exact.ofNat_one]
  ring

theorem slope_upperBand
    (phi scale upper : ℝ) :
    (upperBand phi scale upper).slope =
      scale * (-2 * Real.sin phi * Real.cos phi * (attenuation (Real.pi / 2 - phi) upper).1 +
        Real.cos phi ^ 2 * (attenuation (Real.pi / 2 - phi) upper).2) := by
  simp only [upperBand, attenuation, Exact.cos_eq, Exact.sin_eq, Exact.square_eq, Exact.cube_eq,
    Exact.half_eq, Exact.pi_eq, Exact.ofNat_one, Exact.ofNat_ofNat, Real.sin_two_mul]
  ring

theorem pointsInward_lowerBand
    (hleft : -lower < phi)
    (hright : phi < lower)
    (hsmall : lower < Real.pi / 8)
    (hle : 2 * lower ≤ alpha)
    (halpha : alpha < Real.pi / 2) :
    PointsInward (lowerBand phi lower) phi alpha := by
  have hpos : 0 < lower := by
    linarith
  have hcos : 0 < Real.cos phi :=
    Real.cos_pos_of_mem_Ioo ⟨by linarith [Real.pi_pos], by linarith [Real.pi_pos]⟩
  have hvalue : 0 ≤ (lowerBand phi lower).value := by
    rw [value_lowerBand]
    positivity
  have hoffset := offset_nonneg hleft hright hsmall
  have htan : Real.tan phi * Real.cos phi = Real.sin phi :=
    Real.tan_mul_cos hcos.ne'
  set p := (hermiteOffset phi lower).1 with hp
  set M := (lowerBand phi lower).value with hM
  refine ⟨hvalue, ?_, ?_⟩
  · rw [slope_lowerBand, ← hp, ← hM, ← htan]
    have hnonneg : 0 ≤ M * (p * Real.cos phi) :=
      mul_nonneg hvalue (mul_nonneg hoffset hcos.le)
    linarith
  · rw [slope_lowerBand, ← hp, ← hM]
    have hgap : p * Real.cos (phi + alpha) * Real.cos phi ≤ Real.sin alpha := by
      have hbound : p ≤ Real.sin alpha :=
        le_trans (offset_le_tan hleft hright hsmall) (tan_le_sin hpos.le hsmall hle halpha)
      have hcosines : Real.cos (phi + alpha) * Real.cos phi ≤ 1 :=
        mul_le_one₀ (Real.cos_le_one _) hcos.le (Real.cos_le_one _)
      nlinarith
    have hfactor :
        0 ≤ (Real.sin (phi + alpha) - (Real.tan phi + p) * Real.cos (phi + alpha)) *
          Real.cos phi := by
      have := sin_mul_cos_sub phi alpha
      rw [← htan] at this
      linarith
    have := nonneg_of_mul_nonneg_left hfactor hcos
    have hproduct := mul_nonneg hvalue this
    linarith

theorem pointsInward_slide
    {scale : ℝ}
    (hscale : 0 ≤ scale)
    (hcos : 0 ≤ Real.cos phi)
    (hsin : 0 ≤ Real.sin alpha) :
    PointsInward (slide phi scale) phi alpha := by
  refine ⟨?_, ?_, ?_⟩
  · rw [value_slide]
    positivity
  · rw [value_slide, slope_slide]
    apply le_of_eq
    ring
  · rw [value_slide, slope_slide]
    have heq :
        scale * Real.cos phi ^ 2 * Real.sin (phi + alpha) +
          -2 * scale * Real.sin phi * Real.cos phi / 2 * Real.cos (phi + alpha) =
        scale * Real.cos phi * Real.sin alpha := by
      rw [← sin_mul_cos_sub phi alpha]
      ring
    rw [heq]
    positivity

theorem pointsInward_upperBand
    {scale : ℝ}
    (hscale : 0 ≤ scale)
    (hleft : Real.pi / 2 - upper < phi)
    (hright : phi < Real.pi / 2)
    (hle : upper ≤ alpha)
    (halpha₀ : 0 < alpha)
    (halpha : alpha < Real.pi / 2) :
    PointsInward (upperBand phi scale upper) phi alpha := by
  have hcos : 0 ≤ Real.cos phi :=
    Real.cos_nonneg_of_mem_Icc ⟨by linarith, by linarith⟩
  have hsin : 0 ≤ Real.sin alpha :=
    Real.sin_nonneg_of_nonneg_of_le_pi halpha₀.le (by linarith)
  have hobtuse : Real.cos (phi + alpha) ≤ 0 :=
    Real.cos_nonpos_of_pi_div_two_le_of_le (by linarith) (by linarith)
  obtain ⟨hchi, hdchi⟩ := attenuation_signs (sub_pos.2 hright) (sub_lt_comm.1 hleft)
  refine ⟨?_, ?_, ?_⟩
  · rw [value_upperBand]
    positivity
  · rw [value_upperBand, slope_upperBand]
    have hsign : 0 ≤ scale * Real.cos phi ^ 2 * Real.cos phi := by
      positivity
    nlinarith [mul_nonneg hsign (neg_nonneg.2 hdchi)]
  · rw [value_upperBand, slope_upperBand]
    have hsame :
        0 ≤ scale * Real.cos phi * (attenuation (Real.pi / 2 - phi) upper).1 * Real.sin alpha := by
      positivity
    have hturned :
        0 ≤ scale * Real.cos phi ^ 2 *
          (-(attenuation (Real.pi / 2 - phi) upper).2 * -Real.cos (phi + alpha)) := by
      have := mul_nonneg (neg_nonneg.2 hdchi) (neg_nonneg.2 hobtuse)
      positivity
    rw [← sin_mul_cos_sub phi alpha] at hsame
    linarith

/-- The profile points inward at every angle at which an impulse slides. -/
theorem pointsInward_between
    {width : ℝ}
    (hwidth : width < Real.pi / 8)
    (halpha₀ : 0 < alpha)
    (halpha : alpha < Real.pi / 2)
    (hleft : -min width (alpha / 2) < phi)
    (hright : phi < Real.pi / 2) :
    PointsInward (between phi (min width (alpha / 2)) (min width alpha)) phi alpha := by
  have hlower : 2 * min width (alpha / 2) ≤ alpha := by
    linarith [min_le_right width (alpha / 2)]
  have hscale := slideScale_nonneg (min width (alpha / 2))
  rw [between_eq]
  split_ifs with hband hmiddle
  · exact
      pointsInward_lowerBand hleft hband (lt_of_le_of_lt (min_le_left _ _) hwidth) hlower halpha
  · have hcos : 0 ≤ Real.cos phi := by
      apply Real.cos_nonneg_of_mem_Icc
      constructor
      · linarith [min_le_right width (alpha / 2)]
      · exact hright.le
    exact
      pointsInward_slide hscale hcos
        (Real.sin_nonneg_of_nonneg_of_le_pi halpha₀.le (by linarith))
  · exact
      pointsInward_upperBand hscale (not_le.1 hmiddle) hright (min_le_right _ _) halpha₀ halpha

end Bands

end Profile
end ConvexContact
