import Mathlib
import ConvexContact.Proofs.Cone.Curvature

/-!
# The smoothed profile on the whole line

Before the band around the surface of the cone the profile is one, and behind the band before the
polar cone it is zero.  Together with the three formulas between them (`Profile.whole`) it has five
pieces, which meet at four angles with value, slope and curvature.

**Results.**
* `Profile.smoothAt_whole`: at every angle the coded slope and curvature are the derivatives of
  value and slope, and the curvature is continuous.
* `Profile.antitone_whole`: the profile falls.  Inside the cone this needs a bound of the cubic
  offset (`Profile.tan_add_offset_nonneg`).
-/

namespace ConvexContact

section Gluing

variable {f g : ℝ → ℝ} {a x : ℝ}

theorem eqOn_glue
    (hvalue : f a = g a) :
    Set.EqOn (fun t => if t < a then f t else g t) f (Set.Iic a) ∧
      Set.EqOn (fun t => if t < a then f t else g t) g (Set.Ici a) := by
  constructor
  · intro t ht
    rcases (Set.mem_Iic.1 ht).lt_or_eq with hlt | rfl
    · exact if_pos hlt
    · exact (if_neg (lt_irrefl t)).trans hvalue.symm
  · intro t ht
    exact if_neg (not_lt.2 ht)

/-- Two functions that meet with their slopes. -/
theorem hasDerivAt_glue
    (f' g' : ℝ → ℝ)
    (hf : x ≤ a → HasDerivAt f (f' x) x)
    (hg : a ≤ x → HasDerivAt g (g' x) x)
    (hvalue : f a = g a)
    (hslope : f' a = g' a) :
    HasDerivAt (fun t => if t < a then f t else g t) (if x < a then f' x else g' x) x := by
  obtain ⟨hbefore, hbehind⟩ := eqOn_glue hvalue
  rcases lt_trichotomy x a with hlt | rfl | hgt
  · rw [if_pos hlt]
    exact (hf hlt.le).congr_of_eventuallyEq (hbefore.eventuallyEq_of_mem (Iic_mem_nhds hlt))
  · have hleft : HasDerivWithinAt f (g' x) (Set.Iic x) x := by
      rw [← hslope]
      exact (hf le_rfl).hasDerivWithinAt
    have hright : HasDerivWithinAt g (g' x) (Set.Ici x) x :=
      (hg le_rfl).hasDerivWithinAt
    rw [if_neg (lt_irrefl x), ← hasDerivWithinAt_univ, ← Set.Iic_union_Ici (a := x)]
    exact (hleft.congr hbefore (hbefore Set.self_mem_Iic)).union
      (hright.congr hbehind (hbehind Set.self_mem_Ici))
  · rw [if_neg hgt.not_gt]
    exact (hg hgt.le).congr_of_eventuallyEq (hbehind.eventuallyEq_of_mem (Ici_mem_nhds hgt))

/-- Two continuous functions that meet. -/
theorem continuousAt_glue
    (hf : x ≤ a → ContinuousAt f x)
    (hg : a ≤ x → ContinuousAt g x)
    (hvalue : f a = g a) :
    ContinuousAt (fun t => if t < a then f t else g t) x := by
  obtain ⟨hbefore, hbehind⟩ := eqOn_glue hvalue
  rcases lt_trichotomy x a with hlt | rfl | hgt
  · exact (hf hlt.le).congr (hbefore.eventuallyEq_of_mem (Iic_mem_nhds hlt)).symm
  · rw [← continuousWithinAt_univ, ← Set.Iic_union_Ici (a := x)]
    exact ((hf le_rfl).continuousWithinAt.congr hbefore (hbefore Set.self_mem_Iic)).union
      ((hg le_rfl).continuousWithinAt.congr hbehind (hbehind Set.self_mem_Ici))
  · exact (hg hgt.le).congr (hbehind.eventuallyEq_of_mem (Ici_mem_nhds hgt)).symm

end Gluing

attribute [ext] Jet

namespace Jet

/-- At the point `phi`, slope and curvature of a family of jets are the derivatives of value and
slope, and the curvature is continuous. -/
structure SmoothAt (J : ℝ → Jet ℝ) (phi : ℝ) : Prop where
  value : HasDerivAt (fun t => (J t).value) (J phi).slope phi
  slope : HasDerivAt (fun t => (J t).slope) (J phi).curvature phi
  curvature : ContinuousAt (fun t => (J t).curvature) phi

/-- A constant function. -/
theorem smoothAt_const
    (c phi : ℝ) :
    SmoothAt (fun _ => ⟨c, 0, 0⟩) phi where
  value := hasDerivAt_const phi c
  slope := hasDerivAt_const phi 0
  curvature := continuousAt_const

/-- Two families that meet in a jet. -/
theorem SmoothAt.glue
    {J₁ J₂ : ℝ → Jet ℝ} {a x : ℝ}
    (hbefore : x ≤ a → SmoothAt J₁ x)
    (hbehind : a ≤ x → SmoothAt J₂ x)
    (hmeet : J₁ a = J₂ a) :
    SmoothAt (fun t => if t < a then J₁ t else J₂ t) x where
  value := by
    simp only [apply_ite Jet.value, apply_ite Jet.slope]
    exact hasDerivAt_glue (fun t => (J₁ t).slope) (fun t => (J₂ t).slope)
      (fun h => (hbefore h).value) (fun h => (hbehind h).value) (congrArg Jet.value hmeet)
      (congrArg Jet.slope hmeet)
  slope := by
    simp only [apply_ite Jet.slope, apply_ite Jet.curvature]
    exact hasDerivAt_glue (fun t => (J₁ t).curvature) (fun t => (J₂ t).curvature)
      (fun h => (hbefore h).slope) (fun h => (hbehind h).slope) (congrArg Jet.slope hmeet)
      (congrArg Jet.curvature hmeet)
  curvature := by
    simp only [apply_ite Jet.curvature]
    exact continuousAt_glue (fun h => (hbefore h).curvature) (fun h => (hbehind h).curvature)
      (congrArg Jet.curvature hmeet)

/-- The values of smooth jets are twice continuously differentiable. -/
theorem contDiff_of_smoothAt
    {J : ℝ → Jet ℝ}
    (h : ∀ phi, SmoothAt J phi) :
    ContDiff ℝ 2 fun t => (J t).value := by
  have hvalue : deriv (fun t => (J t).value) = fun t => (J t).slope :=
    funext fun t => (h t).value.deriv
  have hslope : deriv (fun t => (J t).slope) = fun t => (J t).curvature :=
    funext fun t => (h t).slope.deriv
  have hfirst : ContDiff ℝ 1 fun t => (J t).slope := by
    rw [contDiff_one_iff_deriv, hslope]
    exact ⟨fun t => (h t).slope.differentiableAt,
      continuous_iff_continuousAt.2 fun t => (h t).curvature⟩
  have htwo : (2 : WithTop ℕ∞) = 1 + 1 := by
    norm_num
  rw [htwo, contDiff_succ_iff_deriv, hvalue]
  exact ⟨fun t => (h t).value.differentiableAt, by simp, hfirst⟩

end Jet

namespace Profile

theorem place_self
    {lower : ℝ}
    (hlower : lower ≠ 0) :
    place lower lower = 1 := by
  rw [place, ← two_mul]
  exact div_self (mul_ne_zero two_ne_zero hlower)

theorem hasDerivAt_place
    (phi lower : ℝ) :
    HasDerivAt (fun t => place t lower) (1 / (lower + lower)) phi :=
  ((hasDerivAt_id phi).add_const lower).div_const (lower + lower)

/-- The second derivative of the attenuation in the angle. -/
noncomputable def attenuationCurvature (distance upper : ℝ) : ℝ :=
  -(6 • (1 - distance / upper)) / upper ^ 2

/-- The attenuation, by the angle. -/
theorem hasDerivAt_attenuation
    (phi upper : ℝ) :
    HasDerivAt (fun t => (attenuation (Real.pi / 2 - t) upper).1)
        (attenuation (Real.pi / 2 - phi) upper).2 phi ∧
      HasDerivAt (fun t => (attenuation (Real.pi / 2 - t) upper).2)
        (attenuationCurvature (Real.pi / 2 - phi) upper) phi := by
  have hrest := (((hasDerivAt_id phi).const_sub (Real.pi / 2)).div_const upper).const_sub 1
  constructor
  · refine ((hrest.fun_pow 3).const_sub 1).congr_deriv ?_
    simp only [attenuation, id]
    ring
  · refine (((hrest.fun_pow 2).const_smul 3).fun_neg.div_const upper).congr_deriv ?_
    simp only [attenuationCurvature, id]
    ring

section Pieces

variable [Threshold]
variable {phi lower upper scale : ℝ}

/-- The integral of the cubic offset in terms of the place in the band. -/
theorem offset_integral_eq
    (phi lower : ℝ) :
    (hermiteOffset phi lower).2.2 =
      2 * lower *
        (Real.tan lower * (place phi lower ^ 4 / 2 - place phi lower ^ 3 + place phi lower) -
          2 * lower * (1 + Real.tan lower ^ 2) *
            (place phi lower ^ 4 / 4 - 2 * place phi lower ^ 3 / 3 + place phi lower ^ 2 / 2)) := by
  simp only [hermiteOffset, place, Exact.tan_eq, Exact.square_eq, Exact.cube_eq, Exact.half_eq,
    Exact.ofNat_one, Exact.ofNat_ofNat]
  ring

/-- The coded derivative of the cubic offset. -/
theorem hasDerivAt_offset
    (hlower : lower ≠ 0)
    (phi : ℝ) :
    HasDerivAt (fun t => (hermiteOffset t lower).1) (hermiteOffset phi lower).2.1 phi := by
  have hplace := hasDerivAt_place phi lower
  have hsquare := (hplace.const_sub 1).fun_pow 2
  have hline := (((hplace.const_mul 2).const_add 1).const_mul (Real.tan lower)).fun_sub
    (hplace.const_mul (2 * lower * (1 + Real.tan lower ^ 2)))
  simp only [offset_eq]
  refine (hsquare.fun_mul hline).congr_deriv ?_
  rw [offset_slope_eq]
  field_simp
  ring

/-- The offset is the derivative of its integral. -/
theorem hasDerivAt_offset_integral
    (hlower : lower ≠ 0)
    (phi : ℝ) :
    HasDerivAt (fun t => (hermiteOffset t lower).2.2) (hermiteOffset phi lower).1 phi := by
  have hplace := hasDerivAt_place phi lower
  have hfirst := ((((hplace.fun_pow 4).div_const 2).fun_sub (hplace.fun_pow 3)).fun_add
    hplace).const_mul (Real.tan lower)
  have hsecond := ((((hplace.fun_pow 4).div_const 4).fun_sub
    (((hplace.fun_pow 3).const_mul 2).div_const 3)).fun_add
      ((hplace.fun_pow 2).div_const 2)).const_mul (2 * lower * (1 + Real.tan lower ^ 2))
  simp only [offset_integral_eq]
  refine ((hfirst.fun_sub hsecond).const_mul (2 * lower)).congr_deriv ?_
  rw [offset_eq]
  field_simp
  ring

theorem curvature_lowerBand
    (phi lower : ℝ) :
    (lowerBand phi lower).curvature =
      (4 * (Real.tan phi + (hermiteOffset phi lower).1) ^ 2 -
        2 * (1 + Real.tan phi ^ 2 + (hermiteOffset phi lower).2.1)) *
        (lowerBand phi lower).value := by
  simp only [lowerBand, Exact.tan_eq, Exact.square_eq, Exact.ofNat_one, Exact.ofNat_ofNat]
  ring

theorem curvature_slide
    (phi scale : ℝ) :
    (slide phi scale).curvature = -2 * scale * (Real.cos phi ^ 2 - Real.sin phi ^ 2) := by
  simp only [slide, Exact.cos_eq, Exact.ofNat_ofNat, Real.cos_two_mul']
  ring

theorem curvature_upperBand
    (phi scale upper : ℝ) :
    (upperBand phi scale upper).curvature =
      scale *
        (-2 * (Real.cos phi ^ 2 - Real.sin phi ^ 2) *
            (attenuation (Real.pi / 2 - phi) upper).1 +
          2 * (-2 * Real.sin phi * Real.cos phi) * (attenuation (Real.pi / 2 - phi) upper).2 +
          Real.cos phi ^ 2 * attenuationCurvature (Real.pi / 2 - phi) upper) := by
  simp only [upperBand, attenuation, attenuationCurvature, Exact.cos_eq, Exact.sin_eq,
    Exact.square_eq, Exact.cube_eq, Exact.half_eq, Exact.pi_eq, Exact.ofNat_one,
    Exact.ofNat_ofNat, Real.sin_two_mul, Real.cos_two_mul']
  ring

/-- The band around the surface of the cone. -/
theorem smoothAt_lowerBand
    (hlower : lower ≠ 0)
    (hcos : Real.cos phi ≠ 0) :
    Jet.SmoothAt (fun t => lowerBand t lower) phi := by
  have hoffset := hasDerivAt_offset hlower phi
  have htan := Real.hasDerivAt_tan hcos
  have hvalue :
      HasDerivAt (fun t => (lowerBand t lower).value) (lowerBand phi lower).slope phi := by
    have hcosine := ((Real.hasDerivAt_cos phi).fun_pow 2).div_const (Real.cos lower ^ 2)
    have hexp := ((hasDerivAt_offset_integral hlower phi).const_mul (-2)).exp
    simp only [value_lowerBand]
    refine (hcosine.fun_mul hexp).congr_deriv ?_
    rw [slope_lowerBand, value_lowerBand, Real.tan_eq_sin_div_cos]
    field_simp
    ring
  refine ⟨hvalue, ?_, ?_⟩
  · simp only [slope_lowerBand]
    refine (((htan.fun_add hoffset).const_mul (-2)).fun_mul hvalue).congr_deriv ?_
    rw [curvature_lowerBand, slope_lowerBand, one_add_tan_sq hcos]
    ring
  · have hslope : ContinuousAt (fun t => (hermiteOffset t lower).2.1) phi := by
      simp only [offset_slope_eq, place]
      fun_prop
    have htan' := htan.continuousAt
    have hoffset' := hoffset.continuousAt
    have hvalue' := hvalue.continuousAt
    simp only [curvature_lowerBand]
    fun_prop

/-- Between the bands. -/
theorem smoothAt_slide
    (phi scale : ℝ) :
    Jet.SmoothAt (fun t => slide t scale) phi := by
  have hsin := Real.hasDerivAt_sin phi
  have hcos := Real.hasDerivAt_cos phi
  refine ⟨?_, ?_, ?_⟩
  · simp only [value_slide]
    refine ((hcos.fun_pow 2).const_mul scale).congr_deriv ?_
    rw [slope_slide]
    ring
  · simp only [slope_slide]
    refine ((hsin.const_mul (-2 * scale)).fun_mul hcos).congr_deriv ?_
    rw [curvature_slide]
    ring
  · simp only [curvature_slide]
    fun_prop

/-- The band before the polar cone. -/
theorem smoothAt_upperBand
    (phi scale upper : ℝ) :
    Jet.SmoothAt (fun t => upperBand t scale upper) phi := by
  have hsin := Real.hasDerivAt_sin phi
  have hcos := Real.hasDerivAt_cos phi
  obtain ⟨hchi, hdchi⟩ := hasDerivAt_attenuation phi upper
  refine ⟨?_, ?_, ?_⟩
  · simp only [value_upperBand]
    refine (((hcos.fun_pow 2).const_mul scale).fun_mul hchi).congr_deriv ?_
    rw [slope_upperBand]
    ring
  · simp only [slope_upperBand]
    refine (((((hsin.const_mul (-2)).fun_mul hcos).fun_mul hchi).fun_add
      ((hcos.fun_pow 2).fun_mul hdchi)).const_mul scale).congr_deriv ?_
    rw [curvature_upperBand]
    ring
  · simp only [curvature_upperBand, attenuation, attenuationCurvature]
    fun_prop

end Pieces

section Junctions

variable [Threshold]
variable {lower upper : ℝ}

/-- The profile sets out from one. -/
theorem lowerBand_left
    (hpos : 0 < lower)
    (hsmall : lower < Real.pi / 8) :
    lowerBand (-lower) lower = ⟨1, 0, 0⟩ := by
  have hcos : Real.cos lower ≠ 0 :=
    (cos_pos_of_lt_pi_div_eight hpos.le hsmall).ne'
  have hplace : place (-lower) lower = 0 := by
    rw [place, neg_add_cancel, zero_div]
  have hvalue : (lowerBand (-lower) lower).value = 1 := by
    rw [value_lowerBand, offset_integral_eq, hplace, Real.cos_neg]
    simp [hcos]
  have hquotient : Real.tan (-lower) + (hermiteOffset (-lower) lower).1 = 0 := by
    rw [offset_eq, hplace, Real.tan_neg]
    ring
  apply Jet.ext
  · exact hvalue
  · rw [slope_lowerBand, hquotient]
    ring
  · rw [curvature_lowerBand, hquotient, offset_slope_eq, hplace, Real.tan_neg]
    field_simp
    ring

/-- The integral of the cubic offset over its band. -/
noncomputable def bandIntegral (lower : ℝ) : ℝ :=
  (hermiteOffset lower lower).2.2

theorem bandIntegral_eq
    (hlower : lower ≠ 0) :
    bandIntegral lower =
      lower * Real.tan lower - lower ^ 2 * (1 + Real.tan lower ^ 2) / 3 := by
  rw [bandIntegral, offset_integral_eq, place_self hlower]
  ring

/-- The coded factor behind the lower band uses the integral of the offset. -/
theorem slideScale_eq
    (hpos : 0 < lower) :
    slideScale lower = Real.exp (-2 * bandIntegral lower) / Real.cos lower ^ 2 := by
  unfold slideScale
  simp only [Exact.ofNat_zero, Exact.ofNat_one, Exact.ofNat_ofNat, Exact.exp_eq, Exact.cos_eq,
    Exact.tan_eq, Exact.square_eq]
  rw [if_neg (not_le.2 hpos), bandIntegral_eq hpos.ne', ← sq, ← sq]

/-- Behind the band around the surface of the cone the profile is a squared cosine. -/
theorem lowerBand_right
    (hpos : 0 < lower)
    (hsmall : lower < Real.pi / 8) :
    lowerBand lower lower = slide lower (slideScale lower) := by
  have hcos : Real.cos lower ≠ 0 :=
    (cos_pos_of_lt_pi_div_eight hpos.le hsmall).ne'
  have hplace := place_self hpos.ne'
  have hvalue : (lowerBand lower lower).value = slideScale lower * Real.cos lower ^ 2 := by
    rw [value_lowerBand, div_self (pow_ne_zero 2 hcos), one_mul, slideScale_eq hpos,
      div_mul_cancel₀ _ (pow_ne_zero 2 hcos), bandIntegral]
  have hoffset : (hermiteOffset lower lower).1 = 0 := by
    rw [offset_eq, hplace]
    ring
  have hslope : (hermiteOffset lower lower).2.1 = 0 := by
    rw [offset_slope_eq, hplace]
    ring
  apply Jet.ext
  · rw [hvalue, value_slide]
  · rw [slope_lowerBand, slope_slide, hvalue, hoffset, Real.tan_eq_sin_div_cos]
    field_simp
    ring
  · rw [curvature_lowerBand, curvature_slide, hvalue, hoffset, hslope, Real.tan_eq_sin_div_cos]
    field_simp
    ring

/-- At the inner end of the band before the polar cone the attenuation is one. -/
theorem upperBand_left
    (scale : ℝ)
    (hupper : upper ≠ 0) :
    slide (Real.pi / 2 - upper) scale = upperBand (Real.pi / 2 - upper) scale upper := by
  have hfull : attenuation (Real.pi / 2 - (Real.pi / 2 - upper)) upper = (1, 0) := by
    rw [sub_sub_cancel, attenuation, div_self hupper]
    simp
  have hcurvature : attenuationCurvature (Real.pi / 2 - (Real.pi / 2 - upper)) upper = 0 := by
    rw [sub_sub_cancel, attenuationCurvature, div_self hupper]
    simp
  apply Jet.ext
  · rw [value_slide, value_upperBand, hfull]
    ring
  · rw [slope_slide, slope_upperBand, hfull]
    ring
  · rw [curvature_slide, curvature_upperBand, hfull, hcurvature]
    ring

/-- At the polar cone the profile has come down to zero. -/
theorem upperBand_right
    (scale upper : ℝ) :
    upperBand (Real.pi / 2) scale upper = ⟨0, 0, 0⟩ := by
  have hnone : (attenuation (Real.pi / 2 - Real.pi / 2) upper).1 = 0 := by
    simp [attenuation]
  apply Jet.ext
  · rw [value_upperBand, hnone, mul_zero]
  · rw [slope_upperBand, hnone, Real.cos_pi_div_two]
    ring
  · rw [curvature_upperBand, hnone, Real.cos_pi_div_two]
    ring

end Junctions

section Tangents

variable {lower : ℝ}

/-- The product of the width of a band and its tangent is small. -/
theorem four_mul_mul_tan_le_one
    (hnonneg : 0 ≤ lower)
    (hsmall : lower < Real.pi / 8) :
    4 * (lower * Real.tan lower) ≤ 1 := by
  have htan : Real.tan lower ^ 2 ≤ 1 / 3 := by
    linarith [three_mul_tan_sq_le hnonneg hsmall]
  have hwidth : lower ≤ 2 / 5 := by
    linarith [Real.pi_lt_d2]
  have hsquare : (4 * (lower * Real.tan lower)) ^ 2 ≤ 1 :=
    calc (4 * (lower * Real.tan lower)) ^ 2
        = 16 * (lower ^ 2 * Real.tan lower ^ 2) := by
          ring
      _ ≤ 16 * ((2 / 5) ^ 2 * (1 / 3)) := by
          gcongr
      _ ≤ 1 := by
          norm_num
  exact (abs_le_one_iff_mul_self_le_one.2 (by rwa [← sq])).trans' (le_abs_self _)

/-- The sum of two tangents, by the addition theorem of the sine. -/
theorem tan_sub_add_tan
    {delta : ℝ}
    (hcos : Real.cos lower ≠ 0)
    (hcos' : Real.cos (delta - lower) ≠ 0) :
    Real.tan (delta - lower) + Real.tan lower =
      Real.sin delta / (Real.cos (delta - lower) * Real.cos lower) := by
  have hangle := Real.sin_add (delta - lower) lower
  rw [sub_add_cancel] at hangle
  rw [hangle, Real.tan_eq_sin_div_cos, Real.tan_eq_sin_div_cos]
  field_simp

/-- A lower bound of the sine by a slope `T` that is not too steep. -/
theorem chord_le_sin
    {delta T : ℝ}
    (hdelta₀ : 0 ≤ delta)
    (hdelta : delta < Real.pi / 8)
    (hT : T * delta ≤ 1) :
    delta * (1 - T * delta) * (Real.cos delta + T * Real.sin delta) ≤ Real.sin delta := by
  have hcos := cos_pos_of_lt_pi_div_eight hdelta₀ hdelta
  have hsin₀ : 0 ≤ Real.sin delta :=
    Real.sin_nonneg_of_nonneg_of_le_pi hdelta₀ (by linarith [Real.pi_pos])
  have hsin : delta * Real.cos delta ≤ Real.sin delta := by
    have htan := Real.le_tan hdelta₀ (by linarith)
    rwa [Real.tan_eq_sin_div_cos, le_div_iff₀ hcos] at htan
  have hfactor : 0 ≤ 1 - T * delta :=
    sub_nonneg.2 hT
  calc delta * (1 - T * delta) * (Real.cos delta + T * Real.sin delta)
      = (1 - T * delta) * (delta * Real.cos delta + T * delta * Real.sin delta) := by
        ring
    _ ≤ (1 - T * delta) * (Real.sin delta + T * delta * Real.sin delta) := by
        gcongr
    _ = Real.sin delta - (T * delta) ^ 2 * Real.sin delta := by
        ring
    _ ≤ Real.sin delta :=
        sub_le_self _ (mul_nonneg (sq_nonneg _) hsin₀)

/-- At the distance `delta` from the left end of the band, the tangent is above a parabola. -/
theorem parabola_le_tan
    {delta : ℝ}
    (hdelta₀ : 0 ≤ delta)
    (hdelta : delta ≤ lower)
    (hsmall : lower < Real.pi / 8) :
    (1 + Real.tan lower ^ 2) * delta * (1 - Real.tan lower * delta) - Real.tan lower ≤
      Real.tan (delta - lower) := by
  have hpi := Real.pi_pos
  have hcos := cos_pos_of_lt_pi_div_eight (hdelta₀.trans hdelta) hsmall
  have hcos' : 0 < Real.cos (delta - lower) :=
    Real.cos_pos_of_mem_Ioo ⟨by linarith, by linarith⟩
  have htan : 0 ≤ Real.tan lower :=
    Real.tan_nonneg_of_nonneg_of_le_pi_div_two (hdelta₀.trans hdelta) (by linarith)
  have hsteep : Real.tan lower * delta ≤ 1 := by
    nlinarith [four_mul_mul_tan_le_one (hdelta₀.trans hdelta) hsmall]
  have hcosine : Real.cos (delta - lower) =
      Real.cos lower * (Real.cos delta + Real.tan lower * Real.sin delta) := by
    rw [Real.cos_sub, mul_add, ← mul_assoc, mul_comm (Real.cos lower) (Real.tan lower),
      Real.tan_mul_cos hcos.ne']
    ring
  rw [sub_le_iff_le_add, tan_sub_add_tan hcos.ne' hcos'.ne', le_div_iff₀ (mul_pos hcos' hcos),
    one_add_tan_sq hcos.ne', hcosine]
  calc 1 / Real.cos lower ^ 2 * delta * (1 - Real.tan lower * delta) *
        (Real.cos lower * (Real.cos delta + Real.tan lower * Real.sin delta) * Real.cos lower)
      = delta * (1 - Real.tan lower * delta) *
          (Real.cos delta + Real.tan lower * Real.sin delta) := by
        field_simp
    _ ≤ Real.sin delta :=
        chord_le_sin hdelta₀ (hdelta.trans_lt hsmall) hsteep

end Tangents

section Falling

variable [Threshold]
variable {phi lower upper scale : ℝ}

/-- The quotient `-M'/(2 M)` of the profile around the surface of the cone is nonnegative. -/
theorem tan_add_offset_nonneg
    (hleft : -lower < phi)
    (hright : phi < lower)
    (hsmall : lower < Real.pi / 8) :
    0 ≤ Real.tan phi + (hermiteOffset phi lower).1 := by
  have hpos : 0 < lower := by
    linarith
  rcases le_or_gt 0 phi with hphi | hphi
  · have htan : 0 ≤ Real.tan phi :=
      Real.tan_nonneg_of_nonneg_of_le_pi_div_two hphi (by linarith [Real.pi_pos])
    exact add_nonneg htan (offset_nonneg hleft hright hsmall)
  · -- Inside the cone the parabola below the tangent leaves a multiple of the squared place.
    obtain ⟨hs, -⟩ := place_mem hleft hright
    have hcos := cos_pos_of_lt_pi_div_eight hpos.le hsmall
    have hsec := tan_le_mul_sec_sq hpos.le hcos
    have hproduct := four_mul_mul_tan_le_one hpos.le hsmall
    have hdelta : phi = 2 * lower * place phi lower - lower := by
      rw [place]
      field_simp
      ring
    have hdistance : 0 ≤ 2 * lower * place phi lower := by
      positivity
    have htan := parabola_le_tan hdistance (by linarith) hsmall
    rw [← hdelta] at htan
    rw [offset_eq]
    set T := Real.tan lower
    set s := place phi lower
    set W := lower * (1 + T ^ 2) with hW
    have hW₀ : 0 ≤ W := by
      positivity
    have hs₁ : 0 ≤ 3 - 2 * s := by
      nlinarith
    have hrest : 0 ≤ 2 * W * (2 - s - 2 * (lower * T)) - T * (3 - 2 * s) :=
      calc 0
          ≤ W * (1 - 4 * (lower * T)) :=
            mul_nonneg hW₀ (by linarith)
        _ = 2 * W * (2 - s - 2 * (lower * T)) - W * (3 - 2 * s) := by
            ring
        _ ≤ 2 * W * (2 - s - 2 * (lower * T)) - T * (3 - 2 * s) := by
            gcongr
    have hsquare := mul_nonneg (sq_nonneg s) hrest
    rw [hW] at hsquare
    linarith

/-- The profile falls in the band around the surface of the cone. -/
theorem slope_lowerBand_nonpos
    (hleft : -lower < phi)
    (hright : phi < lower)
    (hsmall : lower < Real.pi / 8) :
    (lowerBand phi lower).slope ≤ 0 := by
  have hquotient := tan_add_offset_nonneg hleft hright hsmall
  have hvalue : 0 ≤ (lowerBand phi lower).value := by
    rw [value_lowerBand]
    positivity
  rw [slope_lowerBand]
  nlinarith [mul_nonneg hquotient hvalue]

/-- The profile falls between the bands. -/
theorem slope_slide_nonpos
    (hscale : 0 ≤ scale)
    (hleft : 0 ≤ phi)
    (hright : phi ≤ Real.pi / 2) :
    (slide phi scale).slope ≤ 0 := by
  have hsin := Real.sin_nonneg_of_nonneg_of_le_pi hleft (by linarith [Real.pi_pos])
  have hcos := Real.cos_nonneg_of_mem_Icc ⟨by linarith, hright⟩
  have hproduct : 0 ≤ scale * (Real.sin phi * Real.cos phi) := by
    positivity
  rw [slope_slide]
  linarith

/-- The profile falls in the band before the polar cone. -/
theorem slope_upperBand_nonpos
    (hscale : 0 ≤ scale)
    (hnonneg : 0 ≤ phi)
    (hleft : Real.pi / 2 - upper < phi)
    (hright : phi < Real.pi / 2) :
    (upperBand phi scale upper).slope ≤ 0 := by
  have hsin := Real.sin_nonneg_of_nonneg_of_le_pi hnonneg (by linarith)
  have hcos := Real.cos_nonneg_of_mem_Icc ⟨by linarith, hright.le⟩
  obtain ⟨hchi, hdchi⟩ := attenuation_signs (sub_pos.2 hright) (sub_lt_comm.1 hleft)
  rw [slope_upperBand]
  apply mul_nonpos_of_nonneg_of_nonpos hscale
  have hturned : 0 ≤ Real.sin phi * Real.cos phi * (attenuation (Real.pi / 2 - phi) upper).1 := by
    positivity
  have hattenuated := mul_nonpos_of_nonneg_of_nonpos (sq_nonneg (Real.cos phi)) hdchi
  linarith

end Falling

section Whole

variable [Threshold]
variable {phi lower upper : ℝ}

/-- The profile at every angle, for bands of the given widths: the identity of the regimes in which
the impulse sticks or is separated, and the profile of a sliding impulse between them. -/
noncomputable def whole (lower upper phi : ℝ) : Jet ℝ :=
  if phi ≤ -lower then ⟨1, 0, 0⟩
  else if Scalar.half * Scalar.pi ≤ phi then ⟨0, 0, 0⟩
  else between phi lower upper

theorem whole_eq
    (lower upper phi : ℝ) :
    whole lower upper phi =
      if phi ≤ -lower then ⟨1, 0, 0⟩
      else if Real.pi / 2 ≤ phi then ⟨0, 0, 0⟩
      else between phi lower upper := by
  rw [whole, Exact.half_eq, Exact.pi_eq, one_div_mul_eq_div]

theorem whole_of_le
    (upper : ℝ)
    (h : phi ≤ -lower) :
    whole lower upper phi = ⟨1, 0, 0⟩ :=
  if_pos h

theorem whole_of_ge
    (hlower : 0 ≤ lower)
    (h : Real.pi / 2 ≤ phi) :
    whole lower upper phi = ⟨0, 0, 0⟩ := by
  have hpi := Real.pi_pos
  rw [whole_eq, if_neg (by linarith), if_pos h]

/-- Bands of positive width that do not meet. -/
structure Narrow (lower upper : ℝ) : Prop where
  lower_pos : 0 < lower
  lower_lt : lower < Real.pi / 8
  upper_pos : 0 < upper
  upper_lt : upper < Real.pi / 8

/-- The pieces of the profile from left to right. -/
theorem whole_eq_pieces
    (h : Narrow lower upper) :
    whole lower upper = fun t =>
      if t < -lower then ⟨1, 0, 0⟩
      else if t < lower then lowerBand t lower
      else if t < Real.pi / 2 - upper then slide t (slideScale lower)
      else if t < Real.pi / 2 then upperBand t (slideScale lower) upper
      else ⟨0, 0, 0⟩ := by
  obtain ⟨hlower₀, hlower, hupper₀, -⟩ := h
  have hpi := Real.pi_pos
  funext t
  rw [whole_eq, between_eq]
  rcases lt_trichotomy t (-lower) with hlt | rfl | hgt
  · rw [if_pos hlt.le, if_pos hlt]
  · rw [if_pos le_rfl, if_neg (lt_irrefl _), if_pos (by linarith), lowerBand_left hlower₀ hlower]
  · rw [if_neg (not_le.2 hgt), if_neg hgt.not_gt]
    rcases lt_or_ge t lower with hband | hband
    · rw [if_neg (by linarith), if_pos hband, if_pos hband]
    · rw [if_neg hband.not_gt, if_neg hband.not_gt]
      rcases lt_trichotomy t (Real.pi / 2 - upper) with hslide | rfl | hbehind
      · rw [if_neg (by linarith), if_pos hslide.le, if_pos hslide]
      · rw [if_neg (by linarith), if_pos le_rfl, if_neg (lt_irrefl _), if_pos (by linarith),
          upperBand_left _ hupper₀.ne']
      · rw [if_neg hbehind.not_ge, if_neg hbehind.not_gt]
        rcases lt_or_ge t (Real.pi / 2) with hright | hright
        · rw [if_neg hright.not_ge, if_pos hright]
        · rw [if_pos hright, if_neg hright.not_gt]

/-- **The profile is twice continuously differentiable**, and the coded slope and curvature are its
derivatives. -/
theorem smoothAt_whole
    (h : Narrow lower upper)
    (phi : ℝ) :
    Jet.SmoothAt (whole lower upper) phi := by
  rw [whole_eq_pieces h]
  obtain ⟨hlower₀, hlower, hupper₀, hupper⟩ := h
  have hpi := Real.pi_pos
  -- One step for each of the four angles at which two pieces meet, from left to right.
  refine Jet.SmoothAt.glue (fun _ => Jet.smoothAt_const 1 phi) (fun hleft => ?_) ?_
  · refine Jet.SmoothAt.glue (fun hright => ?_) (fun _ => ?_) ?_
    · apply smoothAt_lowerBand hlower₀.ne'
      exact (Real.cos_pos_of_mem_Ioo ⟨by linarith, by linarith⟩).ne'
    · refine Jet.SmoothAt.glue (fun _ => smoothAt_slide phi _) (fun _ => ?_) ?_
      · exact Jet.SmoothAt.glue (fun _ => smoothAt_upperBand phi _ _)
          (fun _ => Jet.smoothAt_const 0 phi) (upperBand_right _ _)
      · rw [if_pos (by linarith)]
        exact upperBand_left _ hupper₀.ne'
    · rw [if_pos (by linarith)]
      exact lowerBand_right hlower₀ hlower
  · rw [if_pos (by linarith)]
    exact (lowerBand_left hlower₀ hlower).symm

theorem slope_whole_nonpos
    (h : Narrow lower upper)
    (phi : ℝ) :
    (whole lower upper phi).slope ≤ 0 := by
  rw [whole_eq_pieces h]
  obtain ⟨hlower₀, hlower, hupper₀, -⟩ := h
  have hscale := slideScale_nonneg lower
  dsimp only
  split_ifs with hstick hband hslide hright
  · exact le_rfl
  · rcases (not_lt.1 hstick).eq_or_lt with rfl | hleft
    · rw [lowerBand_left hlower₀ hlower]
    · exact slope_lowerBand_nonpos hleft hband hlower
  · exact slope_slide_nonpos hscale (hlower₀.le.trans (not_lt.1 hband)) (by linarith)
  · rcases (not_lt.1 hslide).eq_or_lt with rfl | hleft
    · rw [← upperBand_left _ hupper₀.ne']
      exact slope_slide_nonpos hscale (hlower₀.le.trans (not_lt.1 hband)) (by linarith)
    · exact slope_upperBand_nonpos hscale (hlower₀.le.trans (not_lt.1 hband)) hleft hright
  · exact le_rfl

/-- **The profile falls** from one to zero. -/
theorem antitone_whole
    (h : Narrow lower upper) :
    Antitone fun t => (whole lower upper t).value := by
  have hsmooth := smoothAt_whole h
  apply antitone_of_deriv_nonpos
  · exact fun t => (hsmooth t).value.differentiableAt
  · intro t
    rw [(hsmooth t).value.deriv]
    exact slope_whole_nonpos h t

theorem value_whole_mem
    (h : Narrow lower upper)
    (phi : ℝ) :
    0 ≤ (whole lower upper phi).value ∧ (whole lower upper phi).value ≤ 1 := by
  have hfalls := antitone_whole h
  constructor
  · have hend := hfalls (le_max_left phi (Real.pi / 2))
    dsimp only at hend
    rwa [whole_of_ge h.lower_pos.le (le_max_right _ _)] at hend
  · have hend := hfalls (min_le_left phi (-lower))
    dsimp only at hend
    rwa [whole_of_le upper (min_le_right _ _)] at hend

end Whole

end Profile
end ConvexContact
