import Mathlib
import ConvexContact.Proofs.Cone.Regimes
import ConvexContact.Proofs.DualNumbers

/-!
# Derivatives of the angular profile

The profile comes with its first two derivatives, coded by hand for each of its branches.  Evaluated
at an angle that varies, the tangents of value and slope are the coded slope and curvature times the
rate of the angle (`Jet.Follows`), on both bands and between them.
-/

namespace ConvexContact

variable [Threshold]

/-- A varying jet at a point where the angle varies at the given rate: its tangents are those that
the jet itself states. -/
structure Jet.Follows (J : Jet (Dual ℝ)) (M : Jet ℝ) (rate : ℝ) : Prop where
  value : J.value.value = M.value
  slope : J.slope.value = M.slope
  curvature : J.curvature.value = M.curvature
  tangent_value : J.value.tangent = M.slope * rate
  tangent_slope : J.slope.tangent = M.curvature * rate

namespace Profile

variable {phi : Dual ℝ} {lower upper scale : ℝ}

section Offset

/-- The offset is the rate of its integral, and the coded derivative is its rate. -/
theorem tangent_hermiteOffset
    (phi : Dual ℝ)
    (hlower : lower ≠ 0) :
    (hermiteOffset phi (Dual.const lower)).1.tangent =
        (hermiteOffset phi (Dual.const lower)).2.1.value * phi.tangent ∧
      (hermiteOffset phi (Dual.const lower)).2.2.tangent =
        (hermiteOffset phi (Dual.const lower)).1.value * phi.tangent := by
  constructor
  · simp only [hermiteOffset, Dual.tangent_add, Dual.tangent_sub, Dual.tangent_mul,
      Dual.tangent_div, Dual.tangent_square, Dual.tangent_const, Dual.tangent_ofNat,
      Dual.tangent_one, Dual.tangent_tan, Dual.value_add, Dual.value_sub, Dual.value_mul,
      Dual.value_div, Dual.value_square, Dual.value_const, Dual.value_ofNat, Dual.value_one,
      Dual.value_tan]
    field_simp
    ring
  · simp only [hermiteOffset, Dual.tangent_add, Dual.tangent_sub, Dual.tangent_mul,
      Dual.tangent_div, Dual.tangent_square, Dual.tangent_cube, Dual.tangent_const,
      Dual.tangent_ofNat, Dual.tangent_one, Dual.tangent_half, Dual.tangent_tan, Dual.value_add,
      Dual.value_sub, Dual.value_mul, Dual.value_div, Dual.value_square, Dual.value_cube,
      Dual.value_const, Dual.value_ofNat, Dual.value_one, Dual.value_half, Dual.value_tan]
    field_simp
    ring

end Offset

section Bands

/-- The band around the surface of the cone. -/
theorem follows_lowerBand
    (hlower : lower ≠ 0)
    (hcos : Real.cos phi.value ≠ 0) :
    (lowerBand phi (Dual.const lower)).Follows (lowerBand phi.value lower) phi.tangent := by
  obtain ⟨hoffset, hintegral⟩ := tangent_hermiteOffset phi hlower
  have hvalue : (lowerBand phi (Dual.const lower)).value.tangent =
      (lowerBand phi (Dual.const lower)).slope.value * phi.tangent := by
    simp only [lowerBand, Dual.tangent_mul, Dual.tangent_div, Dual.tangent_square,
      Dual.tangent_cos, Dual.tangent_exp, Dual.tangent_neg, Dual.tangent_ofNat,
      Dual.tangent_const, Dual.value_add, Dual.value_mul, Dual.value_div, Dual.value_square,
      Dual.value_cos, Dual.value_exp, Dual.value_neg, Dual.value_ofNat, Dual.value_const,
      Dual.value_tan, hintegral]
    rw [Real.tan_eq_sin_div_cos]
    field_simp
    ring
  refine
    { value := rfl
      slope := rfl
      curvature := rfl
      tangent_value := hvalue
      tangent_slope := ?_ }
  change _ = (lowerBand phi (Dual.const lower)).curvature.value * phi.tangent
  have hslope : (lowerBand phi (Dual.const lower)).slope =
      -2 * (Scalar.tan phi + (hermiteOffset phi (Dual.const lower)).1) *
        (lowerBand phi (Dual.const lower)).value :=
    rfl
  have hcurvature : (lowerBand phi (Dual.const lower)).curvature.value =
      (4 * (Real.tan phi.value + (hermiteOffset phi (Dual.const lower)).1.value) *
          (Real.tan phi.value + (hermiteOffset phi (Dual.const lower)).1.value) -
        2 * (1 + Real.tan phi.value ^ 2 + (hermiteOffset phi (Dual.const lower)).2.1.value)) *
        (lowerBand phi (Dual.const lower)).value.value := by
    simp only [lowerBand, Dual.value_add, Dual.value_sub, Dual.value_mul, Dual.value_square,
      Dual.value_ofNat, Dual.value_one, Dual.value_tan]
  rw [hcurvature, hslope, Dual.tangent_mul, hvalue, hslope]
  simp only [Dual.tangent_mul, Dual.tangent_add, Dual.tangent_neg, Dual.tangent_ofNat,
    Dual.tangent_tan, Dual.value_mul, Dual.value_add, Dual.value_neg, Dual.value_ofNat,
    Dual.value_tan, hoffset]
  ring

/-- Between the bands. -/
theorem follows_slide
    (phi : Dual ℝ) (scale : ℝ) :
    (slide phi (Dual.const scale)).Follows (slide phi.value scale) phi.tangent where
  value := rfl
  slope := rfl
  curvature := rfl
  tangent_value := by
    change _ = (slide phi (Dual.const scale)).slope.value * _
    simp only [slide, Dual.tangent_mul, Dual.tangent_square, Dual.tangent_cos, Dual.tangent_const,
      Dual.value_mul, Dual.value_neg, Dual.value_sin, Dual.value_cos, Dual.value_square,
      Dual.value_const, Dual.value_ofNat, Real.sin_two_mul]
    ring
  tangent_slope := by
    change _ = (slide phi (Dual.const scale)).curvature.value * _
    simp only [slide, Dual.tangent_mul, Dual.tangent_neg, Dual.tangent_sin, Dual.tangent_ofNat,
      Dual.tangent_const, Dual.value_mul, Dual.value_neg, Dual.value_cos, Dual.value_const,
      Dual.value_ofNat]
    ring

/-- The band before the polar cone. -/
theorem follows_upperBand
    (hupper : upper ≠ 0) :
    (upperBand phi (Dual.const scale) (Dual.const upper)).Follows
      (upperBand phi.value scale upper) phi.tangent where
  value := rfl
  slope := rfl
  curvature := rfl
  tangent_value := by
    change _ = (upperBand phi (Dual.const scale) (Dual.const upper)).slope.value * _
    simp only [upperBand, Dual.tangent_mul, Dual.tangent_sub, Dual.tangent_div,
      Dual.tangent_square, Dual.tangent_cube, Dual.tangent_cos, Dual.tangent_const,
      Dual.tangent_one, Dual.tangent_half, Dual.tangent_pi, Dual.value_add, Dual.value_mul,
      Dual.value_sub, Dual.value_div, Dual.value_neg, Dual.value_square, Dual.value_cube,
      Dual.value_sin, Dual.value_cos, Dual.value_const, Dual.value_one, Dual.value_ofNat,
      Dual.value_half, Dual.value_pi, Real.sin_two_mul]
    field_simp
    ring
  tangent_slope := by
    change _ = (upperBand phi (Dual.const scale) (Dual.const upper)).curvature.value * _
    simp only [upperBand, Dual.tangent_add, Dual.tangent_mul, Dual.tangent_sub, Dual.tangent_div,
      Dual.tangent_neg, Dual.tangent_square, Dual.tangent_cube, Dual.tangent_sin,
      Dual.tangent_cos, Dual.tangent_const, Dual.tangent_one, Dual.tangent_ofNat,
      Dual.tangent_half, Dual.tangent_pi, Dual.value_add, Dual.value_mul, Dual.value_sub,
      Dual.value_div, Dual.value_neg, Dual.value_square, Dual.value_cube, Dual.value_sin,
      Dual.value_cos, Dual.value_const, Dual.value_one, Dual.value_ofNat, Dual.value_half,
      Dual.value_pi, Real.sin_two_mul]
    field_simp
    ring

/-- The constant behind a band of constant width does not vary. -/
theorem slideScale_const
    (lower : ℝ) :
    slideScale (Dual.const lower) = Dual.const (slideScale lower) := by
  unfold slideScale
  by_cases hlower : lower ≤ 0
  · have hdual : Dual.const lower ≤ 0 := by
      rw [Dual.le_iff, Dual.value_zero]
      exact hlower
    rw [if_pos hdual, if_pos (by rwa [Exact.ofNat_zero])]
    rfl
  · have hdual : ¬ Dual.const lower ≤ 0 := by
      rw [Dual.le_iff, Dual.value_zero]
      exact hlower
    rw [if_neg hdual, if_neg (by rwa [Exact.ofNat_zero])]
    rfl

/-- **The coded derivatives of the profile** are its derivatives, on every branch. -/
theorem follows_between
    (hlower : lower < Real.pi / 2)
    (hleft : -lower < phi.value)
    (hright : phi.value < Real.pi / 2) :
    (between phi (Dual.const lower) (Dual.const upper)).Follows
      (between phi.value lower upper) phi.tangent := by
  have hhalf : (Scalar.half * Scalar.pi - upper : ℝ) = Real.pi / 2 - upper := by
    rw [Exact.half_eq, Exact.pi_eq]
    ring
  unfold between
  rw [slideScale_const]
  by_cases hband : phi.value < lower
  · rw [if_pos (show phi < Dual.const lower from hband), if_pos hband]
    have hpos : 0 < lower := by
      linarith
    have hsmall : -(Real.pi / 2) < phi.value := by
      linarith
    exact follows_lowerBand hpos.ne' (Real.cos_pos_of_mem_Ioo ⟨hsmall, hright⟩).ne'
  · rw [if_neg (show ¬ phi < Dual.const lower from hband), if_neg hband]
    by_cases hslide : phi.value ≤ Scalar.half * Scalar.pi - upper
    · rw [if_pos (show phi ≤ Scalar.half * Scalar.pi - Dual.const upper from hslide),
        if_pos hslide]
      exact follows_slide phi _
    · rw [if_neg (show ¬ phi ≤ Scalar.half * Scalar.pi - Dual.const upper from hslide),
        if_neg hslide]
      apply follows_upperBand
      rw [hhalf, not_le] at hslide
      linarith

end Bands

end Profile
end ConvexContact
