import Mathlib
import ConvexContact.Proofs.Cone.Jets

/-!
# Derivatives of the cone potential

**Polar coordinates.**  A varying impulse has a length, and the sine and cosine of its angle to the
normal; the rate of the angle fixes how they vary (`ContactVector.rate`).

**Regimes.**  The regime of a varying impulse is that of its values, and the angle of a sliding one
varies at the rate of the impulse (`Regime.follows_ofImpulse`).

**Results.**  In every regime the coded gradient is the derivative of the coded potential, and the
coded second derivative that of the gradient (`Regime.tangents_ofImpulse`).  Hence impulse and cost
of a contact vary as its projection states (`ConeParameters.tangents_project`).
-/

namespace ConvexContact

variable [Threshold]

namespace ContactVector

/-- The values of a varying impulse. -/
def values (Z : ContactVector (Dual ℝ)) : ContactVector ℝ :=
  ⟨Z.t₁.value, Z.t₂.value, Z.n.value⟩

/-- The direction in which an impulse varies. -/
noncomputable def tangents (Z : ContactVector (Dual ℝ)) : ContactVector ℝ :=
  ⟨Z.t₁.tangent, Z.t₂.tangent, Z.n.tangent⟩

/-- Inner product of contact coordinates. -/
def inner (x y : ContactVector ℝ) : ℝ :=
  x.t₁ * y.t₁ + x.t₂ * y.t₂ + x.n * y.n

end ContactVector

/-- The product of a matrix with contact coordinates. -/
def ContactMatrix.apply (H : ContactMatrix ℝ) (d : ContactVector ℝ) : ContactVector ℝ :=
  ⟨H.t₁t₁ * d.t₁ + H.t₁t₂ * d.t₂ + H.t₁n * d.n, H.t₁t₂ * d.t₁ + H.t₂t₂ * d.t₂ + H.t₂n * d.n,
    H.t₁n * d.t₁ + H.t₂n * d.t₂ + H.nn * d.n⟩

namespace ContactVector

section Length

variable (Z : ContactVector (Dual ℝ))

theorem value_tangentialNorm :
    Z.tangentialNorm.value = Z.values.tangentialNorm := by
  unfold tangentialNorm
  dsimp only
  by_cases h : 0 < Z.values.t₁ * Z.values.t₁ + Z.values.t₂ * Z.values.t₂
  · rw [if_pos ((Dual.pos_iff _).2 h), if_pos (by rwa [Exact.ofNat_zero])]
    rfl
  · rw [if_neg fun hdual => h ((Dual.pos_iff _).1 hdual), if_neg (by rwa [Exact.ofNat_zero])]
    rfl

/-- The tangential length varies along the tangential part. -/
theorem tangent_tangentialNorm :
    Z.values.tangentialNorm * Z.tangentialNorm.tangent =
      Z.values.t₁ * Z.tangents.t₁ + Z.values.t₂ * Z.tangents.t₂ := by
  rw [← value_tangentialNorm]
  unfold tangentialNorm
  dsimp only
  by_cases h : 0 < Z.values.t₁ * Z.values.t₁ + Z.values.t₂ * Z.values.t₂
  · have hroot : √(Z.values.t₁ * Z.values.t₁ + Z.values.t₂ * Z.values.t₂) ≠ 0 :=
      (Real.sqrt_pos.2 h).ne'
    rw [if_pos ((Dual.pos_iff _).2 h)]
    simp only [values] at hroot
    simp only [Dual.value_sqrt, Dual.tangent_sqrt, Dual.value_add, Dual.tangent_add,
      Dual.value_mul, Dual.tangent_mul, values, tangents]
    generalize √(Z.t₁.value * Z.t₁.value + Z.t₂.value * Z.t₂.value) = root at hroot ⊢
    field_simp
    ring
  · have hzero : Z.values.t₁ = 0 ∧ Z.values.t₂ = 0 := by
      constructor <;> nlinarith [mul_self_nonneg Z.values.t₁, mul_self_nonneg Z.values.t₂]
    have hvalue : (Z.t₁ * Z.t₁ + Z.t₂ * Z.t₂).value = 0 := by
      change Z.values.t₁ * Z.values.t₁ + Z.values.t₂ * Z.values.t₂ = 0
      rw [hzero.1, hzero.2]
      ring
    rw [if_neg fun hdual => h ((Dual.pos_iff _).1 hdual), hvalue, hzero.1, hzero.2]
    ring

theorem value_normSquared :
    Z.normSquared.value = Z.values.normSquared := by
  unfold normSquared
  rw [Dual.value_add, Dual.value_mul, Dual.value_mul, value_tangentialNorm]
  rfl

theorem tangent_normSquared :
    Z.normSquared.tangent =
      2 * (Z.values.tangentialNorm * Z.tangentialNorm.tangent +
        Z.values.n * Z.tangents.n) := by
  unfold normSquared
  rw [Dual.tangent_add, Dual.tangent_mul, Dual.tangent_mul, value_tangentialNorm]
  change _ = 2 * (_ + Z.n.value * Z.n.tangent)
  ring

end Length

section Angle

variable {Z : ContactVector (Dual ℝ)}

/-- The sine of the angle to the normal. -/
noncomputable def sine (z : ContactVector ℝ) : ℝ :=
  z.tangentialNorm / √z.normSquared

/-- The cosine of the angle to the normal. -/
noncomputable def cosine (z : ContactVector ℝ) : ℝ :=
  z.n / √z.normSquared

/-- The rate of the angle of a varying impulse. -/
noncomputable def rate (Z : ContactVector (Dual ℝ)) : ℝ :=
  (Z.values.cosine * Z.tangentialNorm.tangent - Z.values.sine * Z.tangents.n) /
    √Z.values.normSquared

theorem value_sine :
    (Z.tangentialNorm / Scalar.sqrt Z.normSquared).value = Z.values.sine := by
  rw [Dual.value_div, Dual.value_sqrt, value_normSquared, value_tangentialNorm, sine]

theorem value_cosine :
    (Z.n / Scalar.sqrt Z.normSquared).value = Z.values.cosine := by
  rw [Dual.value_div, Dual.value_sqrt, value_normSquared, cosine]
  rfl

theorem sine_sq_add_cosine_sq
    {z : ContactVector ℝ}
    (hpos : 0 < z.normSquared) :
    z.sine ^ 2 + z.cosine ^ 2 = 1 := by
  unfold sine cosine
  rw [div_pow, div_pow, Real.sq_sqrt hpos.le, ← add_div, ← normSquared_eq, div_self hpos.ne']

theorem tangentialNorm_eq_mul_sine
    {z : ContactVector ℝ}
    (hpos : 0 < z.normSquared) :
    z.tangentialNorm = √z.normSquared * z.sine := by
  have hroot : √z.normSquared ≠ 0 :=
    (Real.sqrt_pos.2 hpos).ne'
  rw [sine]
  field_simp

theorem n_eq_mul_cosine
    {z : ContactVector ℝ}
    (hpos : 0 < z.normSquared) :
    z.n = √z.normSquared * z.cosine := by
  have hroot : √z.normSquared ≠ 0 :=
    (Real.sqrt_pos.2 hpos).ne'
  rw [cosine]
  field_simp

theorem mul_rate
    (hpos : 0 < Z.values.normSquared) :
    √Z.values.normSquared * Z.rate =
      Z.values.cosine * Z.tangentialNorm.tangent - Z.values.sine * Z.tangents.n := by
  have hroot : √Z.values.normSquared ≠ 0 :=
    (Real.sqrt_pos.2 hpos).ne'
  rw [rate]
  field_simp

theorem tangent_radius
    (hpos : 0 < Z.values.normSquared) :
    (Scalar.sqrt Z.normSquared).tangent =
      Z.values.sine * Z.tangentialNorm.tangent + Z.values.cosine * Z.tangents.n := by
  have hroot : √Z.values.normSquared ≠ 0 :=
    (Real.sqrt_pos.2 hpos).ne'
  rw [Dual.tangent_sqrt, value_normSquared, tangent_normSquared, sine, cosine]
  field_simp

theorem tangent_sine
    (hpos : 0 < Z.values.normSquared) :
    (Z.tangentialNorm / Scalar.sqrt Z.normSquared).tangent = Z.values.cosine * Z.rate := by
  have hunit := sine_sq_add_cosine_sq hpos
  rw [Dual.tangent_div, ← Dual.value_div, value_sine, tangent_radius hpos, Dual.value_sqrt,
    value_normSquared, rate, ← mul_div_assoc]
  congr 1
  linear_combination (-Z.tangentialNorm.tangent) * hunit

theorem tangent_cosine
    (hpos : 0 < Z.values.normSquared) :
    (Z.n / Scalar.sqrt Z.normSquared).tangent = -(Z.values.sine * Z.rate) := by
  have hunit := sine_sq_add_cosine_sq hpos
  rw [Dual.tangent_div, ← Dual.value_div, value_cosine, tangent_radius hpos, Dual.value_sqrt,
    value_normSquared, rate, ← mul_div_assoc, ← neg_div]
  congr 1
  change Z.tangents.n - _ = _
  linear_combination (-Z.tangents.n) * hunit

theorem tangent_angle
    (hpos : 0 < Z.values.normSquared) :
    (Scalar.atan2 Z.tangentialNorm Z.n).tangent = Z.rate := by
  have hroot : √Z.values.normSquared ≠ 0 :=
    (Real.sqrt_pos.2 hpos).ne'
  have hnorm : Z.values.tangentialNorm ^ 2 + Z.values.n ^ 2 = √Z.values.normSquared ^ 2 := by
    rw [Real.sq_sqrt hpos.le, normSquared_eq]
  rw [Dual.tangent_atan2, value_tangentialNorm]
  change (Z.values.n * _ - _ * Z.tangents.n) / (_ + Z.values.n ^ 2) = _
  rw [hnorm, rate, sine, cosine]
  field_simp

end Angle

end ContactVector

namespace Regime

section Polar

variable {Z : ContactVector (Dual ℝ)} {J : Jet (Dual ℝ)} {M : Jet ℝ}

open ContactVector

/-- The values of the polar quantities. -/
theorem value_polar
    (hJ : J.Follows M Z.rate) :
    (polar J Z).across.value = (polar M Z.values).across ∧
      (polar J Z).h.value = (polar M Z.values).h := by
  simp only [polar, Dual.value_add, Dual.value_sub, Dual.value_mul, Dual.value_div,
    Dual.value_half, Dual.value_sqrt, hJ.value, hJ.slope, value_tangentialNorm,
    value_normSquared, Exact.half_eq, Exact.sqrt_eq]
  exact ⟨rfl, rfl⟩

/-- The normal part of the gradient. -/
theorem tangent_normal
    (hpos : 0 < Z.values.normSquared)
    (hJ : J.Follows M Z.rate) :
    (Scalar.sqrt Z.normSquared * (polar J Z).h).tangent =
      (polar M Z.values).rn * Z.tangentialNorm.tangent +
        (polar M Z.values).nn * Z.tangents.n := by
  have hrate := mul_rate hpos
  have hvalue : (polar J Z).h.value =
      M.value * Z.values.cosine - 1 / 2 * M.slope * Z.values.sine := by
    rw [(value_polar hJ).2]
    simp only [polar, Exact.half_eq, Exact.sqrt_eq]
    rfl
  have htangent : (polar J Z).h.tangent =
      (1 / 2 * M.slope * Z.values.cosine - M.value * Z.values.sine -
        1 / 2 * M.curvature * Z.values.sine) * Z.rate := by
    have hh : (polar J Z).h =
        J.value * (Z.n / Scalar.sqrt Z.normSquared) -
          Scalar.half * J.slope * (Z.tangentialNorm / Scalar.sqrt Z.normSquared) :=
      rfl
    rw [hh]
    simp only [Dual.tangent_sub, Dual.tangent_mul, Dual.tangent_half, Dual.value_mul,
      Dual.value_half, tangent_sine hpos, tangent_cosine hpos, hJ.value, hJ.slope,
      hJ.tangent_value, hJ.tangent_slope, value_sine, value_cosine]
    ring
  rw [Dual.tangent_mul, tangent_radius hpos, Dual.value_sqrt, value_normSquared, hvalue, htangent]
  simp only [polar, Exact.half_eq, Exact.sqrt_eq]
  change _ =
    (Z.values.cosine * (M.value * Z.values.sine + 1 / 2 * M.slope * Z.values.cosine) -
      Z.values.sine * (1 / 2 * M.slope * Z.values.sine + M.value * Z.values.cosine +
        1 / 2 * M.curvature * Z.values.cosine)) * Z.tangentialNorm.tangent +
    (Z.values.cosine * (M.value * Z.values.cosine - 1 / 2 * M.slope * Z.values.sine) -
      Z.values.sine * (1 / 2 * M.slope * Z.values.cosine - M.value * Z.values.sine -
        1 / 2 * M.curvature * Z.values.sine)) * Z.tangents.n
  linear_combination
    (1 / 2 * M.slope * Z.values.cosine - M.value * Z.values.sine -
      1 / 2 * M.curvature * Z.values.sine) * hrate

/-- The factor of the tangential part of the gradient. -/
theorem tangent_across
    (hpos : 0 < Z.values.normSquared)
    (hsine : Z.values.sine ≠ 0)
    (hJ : J.Follows M Z.rate) :
    Z.values.tangentialNorm * (polar J Z).across.tangent =
      ((polar M Z.values).rr - (polar M Z.values).across) * Z.tangentialNorm.tangent +
        (polar M Z.values).rn * Z.tangents.n := by
  have hunit := sine_sq_add_cosine_sq hpos
  have hrate := mul_rate hpos
  have hnorm := tangentialNorm_eq_mul_sine hpos
  have htangent : (polar J Z).across.tangent =
      (M.slope + 1 / 2 * M.curvature * Z.values.cosine / Z.values.sine -
        1 / 2 * M.slope / Z.values.sine ^ 2) * Z.rate := by
    have hacross : (polar J Z).across =
        J.value + Scalar.half * J.slope * (Z.n / Scalar.sqrt Z.normSquared) /
          (Z.tangentialNorm / Scalar.sqrt Z.normSquared) :=
      rfl
    rw [hacross]
    -- The quotients of sine and cosine stay closed, so that their own tangents can be used.
    simp only [Dual.tangent_add, Dual.tangent_div (_ * _), Dual.tangent_mul, Dual.tangent_half,
      Dual.value_mul, Dual.value_half, tangent_sine hpos, tangent_cosine hpos, hJ.slope,
      hJ.tangent_value, hJ.tangent_slope, value_sine, value_cosine]
    field_simp
    linear_combination (-(M.slope * Z.rate)) * hunit
  have hfactor : Z.values.sine *
      (M.slope + 1 / 2 * M.curvature * Z.values.cosine / Z.values.sine -
        1 / 2 * M.slope / Z.values.sine ^ 2) =
      M.slope * Z.values.sine + 1 / 2 * M.curvature * Z.values.cosine -
        1 / 2 * M.slope / Z.values.sine := by
    field_simp
  have hquotient : Z.values.sine * (1 / 2 * M.slope / Z.values.sine) = 1 / 2 * M.slope := by
    field_simp
  rw [hnorm, htangent]
  simp only [polar, Exact.half_eq, Exact.sqrt_eq]
  change _ =
    (Z.values.sine * (M.value * Z.values.sine + 1 / 2 * M.slope * Z.values.cosine) +
      Z.values.cosine * (1 / 2 * M.slope * Z.values.sine + M.value * Z.values.cosine +
        1 / 2 * M.curvature * Z.values.cosine) -
      (M.value + 1 / 2 * M.slope * Z.values.cosine / Z.values.sine)) *
        Z.tangentialNorm.tangent +
    (Z.values.cosine * (M.value * Z.values.sine + 1 / 2 * M.slope * Z.values.cosine) -
      Z.values.sine * (1 / 2 * M.slope * Z.values.sine + M.value * Z.values.cosine +
        1 / 2 * M.curvature * Z.values.cosine)) * Z.tangents.n
  linear_combination
    (√Z.values.normSquared * Z.rate) * hfactor +
      (M.slope * Z.values.sine + 1 / 2 * M.curvature * Z.values.cosine -
        1 / 2 * M.slope / Z.values.sine) * hrate +
      Z.tangents.n * hquotient -
      (M.value * Z.tangentialNorm.tangent + 1 / 2 * M.slope * Z.tangents.n) * hunit

end Polar

/-- A varying regime is that of the values, where the angle of a sliding impulse varies at the given
rate and its bands are constant. -/
inductive Follows (rate : ℝ) : Regime (Dual ℝ) → Regime ℝ → Prop
  | negligible : Follows rate .negligible .negligible
  | compressed : Follows rate .compressed .compressed
  | released : Follows rate .released .released
  | stick : Follows rate .stick .stick
  | separated : Follows rate .separated .separated
  | slide {phi : Dual ℝ} {lower upper : ℝ} (h : phi.tangent = rate) :
      Follows rate (.slide phi (.const lower) (.const upper)) (.slide phi.value lower upper)

section Branches

variable {p : ConeParameters ℝ} {ratio : ℝ} {Z : ContactVector (Dual ℝ)}

theorem atMost_const
    (a b : ℝ) :
    Scalar.atMost (Dual.const a) (Dual.const b) = Dual.const (Scalar.atMost a b) := by
  unfold Scalar.atMost
  by_cases h : a < b
  · rw [if_pos (show Dual.const a < Dual.const b from h), if_pos h]
  · rw [if_neg (show ¬ Dual.const a < Dual.const b from h), if_neg h]

theorem negligible_iff
    (Z : ContactVector (Dual ℝ)) :
    Negligible Z ↔ Negligible Z.values := by
  unfold Negligible
  rw [Dual.le_iff, ContactVector.value_normSquared]
  rfl

theorem normSquared_pos
    (h : ¬ Negligible Z.values) :
    0 < Z.values.normSquared := by
  unfold Negligible at h
  exact lt_trans Threshold.value_pos (not_le.1 h)

/-- The regime on a contact with friction. -/
theorem follows_ofAngle
    (hpos : 0 < Z.values.normSquared) :
    Follows Z.rate (ofAngle (p.map Dual.const) (Dual.const ratio) Z)
      (ofAngle p ratio Z.values) := by
  set phi := Scalar.atan2 Z.tangentialNorm Z.n - Dual.const (openingAngle p ratio) with hphi
  have hangle : Scalar.atan2 Z.values.tangentialNorm Z.values.n - openingAngle p ratio =
      phi.value := by
    rw [hphi, Dual.value_sub, ← ContactVector.value_tangentialNorm]
    rfl
  have hrate : phi.tangent = Z.rate := by
    rw [hphi, Dual.tangent_sub, ContactVector.tangent_angle hpos, Dual.tangent_const, sub_zero]
  have hlower : Scalar.atMost (p.map Dual.const).width
        (Scalar.half * openingAngle (p.map Dual.const) (Dual.const ratio)) =
      Dual.const (Scalar.atMost p.width (Scalar.half * openingAngle p ratio)) :=
    atMost_const p.width (Scalar.half * openingAngle p ratio)
  have hupper : Scalar.atMost (p.map Dual.const).width
        (openingAngle (p.map Dual.const) (Dual.const ratio)) =
      Dual.const (Scalar.atMost p.width (openingAngle p ratio)) :=
    atMost_const p.width (openingAngle p ratio)
  unfold ofAngle
  dsimp only
  rw [hangle, hlower, hupper]
  change Follows Z.rate (if phi ≤ -Dual.const _ then _ else if Scalar.half * Scalar.pi ≤ phi then _
    else Regime.slide phi _ _) _
  generalize Scalar.atMost p.width (Scalar.half * openingAngle p ratio) = lower
  generalize Scalar.atMost p.width (openingAngle p ratio) = upper
  by_cases hstick : phi.value ≤ -lower
  · rw [if_pos hstick, if_pos (show phi ≤ -Dual.const lower from hstick)]
    exact Follows.stick
  · rw [if_neg hstick, if_neg (show ¬ phi ≤ -Dual.const lower from hstick)]
    by_cases hseparated : Scalar.half * Scalar.pi ≤ phi.value
    · rw [if_pos hseparated, if_pos (show Scalar.half * Scalar.pi ≤ phi from hseparated)]
      exact Follows.separated
    · rw [if_neg hseparated, if_neg (show ¬ Scalar.half * Scalar.pi ≤ phi from hseparated)]
      exact Follows.slide hrate

/-- **The branch of a varying impulse** is that of its values. -/
theorem follows_ofImpulse
    (p : ConeParameters ℝ) (ratio : ℝ) (Z : ContactVector (Dual ℝ)) :
    Follows Z.rate (ofImpulse (p.map Dual.const) (Dual.const ratio) Z)
      (ofImpulse p ratio Z.values) := by
  unfold ofImpulse
  by_cases hnegligible : Negligible Z.values
  · rw [if_pos hnegligible, if_pos ((negligible_iff Z).2 hnegligible)]
    exact Follows.negligible
  · rw [if_neg hnegligible, if_neg fun h => hnegligible ((negligible_iff Z).1 h)]
    by_cases hzero : Scalar.IsZero p.friction
    · rw [if_pos hzero, if_pos (show Scalar.IsZero (p.map Dual.const).friction from hzero)]
      unfold ofSide
      by_cases hside : 0 < Z.values.n
      · rw [if_pos (Z.n.pos_iff.2 hside), if_pos (by rwa [Exact.ofNat_zero])]
        exact Follows.compressed
      · rw [if_neg fun h => hside (Z.n.pos_iff.1 h), if_neg (by rwa [Exact.ofNat_zero])]
        exact Follows.released
    · rw [if_neg hzero, if_neg (show ¬ Scalar.IsZero (p.map Dual.const).friction from hzero)]
      exact follows_ofAngle (normSquared_pos hnegligible)

end Branches

section Derivatives

variable {p : ConeParameters ℝ} {ratio : ℝ} {Z : ContactVector (Dual ℝ)}
variable {phi : Dual ℝ} {lower upper : ℝ}

/-- While an impulse slides, its profile varies as coded. -/
theorem follows_profile
    (hvalid : p.flaw? = none)
    (hratio : 0 < ratio)
    (hphi : phi.tangent = Z.rate)
    (h : ofImpulse p ratio Z.values = .slide phi.value lower upper) :
    (Profile.between phi (Dual.const lower) (Dual.const upper)).Follows
        (Profile.between phi.value lower upper) Z.rate ∧
      0 < Z.values.normSquared ∧ 0 < Z.values.tangentialNorm := by
  obtain ⟨hfriction, -, -, -, -, -, hwidth⟩ := p.flaw?_eq_none_iff.1 hvalid
  have hslide := sliding_of_ofImpulse hfriction h
  have hlower : lower < Real.pi / 2 := by
    have hle : lower ≤ p.width := by
      rw [hslide.lower_eq]
      exact min_le_left _ _
    linarith [Real.pi_pos]
  have hpos : 0 < Z.values.normSquared :=
    Real.sqrt_pos.1 hslide.rho_pos
  refine ⟨?_, hpos, hslide.tangentialNorm_pos hratio⟩
  rw [← hphi]
  exact Profile.follows_between hlower hslide.neg_lower_lt hslide.lt_pi_div_two

/-- The rate of the tangential length, along the tangential direction. -/
theorem tangent_tangentialNorm_eq
    (hnorm : 0 < Z.values.tangentialNorm) :
    Z.tangentialNorm.tangent =
      Z.values.t₁ / Z.values.tangentialNorm * Z.tangents.t₁ +
        Z.values.t₂ / Z.values.tangentialNorm * Z.tangents.t₂ := by
  have h := Z.tangent_tangentialNorm
  field_simp
  linarith

/-- The gradient of a sliding impulse varies by the coded second derivative. -/
theorem tangents_gradient_slide
    (hJ : (Profile.between phi (Dual.const lower) (Dual.const upper)).Follows
      (Profile.between phi.value lower upper) Z.rate)
    (hpos : 0 < Z.values.normSquared)
    (hnorm : 0 < Z.values.tangentialNorm) :
    (gradient Z (.slide phi (Dual.const lower) (Dual.const upper))).tangents =
      (hessian Z.values (.slide phi.value lower upper)).apply Z.tangents := by
  have hsine : Z.values.sine ≠ 0 :=
    (div_pos hnorm (Real.sqrt_pos.2 hpos)).ne'
  obtain ⟨hacross, -⟩ := value_polar hJ
  have hrate := tangent_tangentialNorm_eq hnorm
  have hvaries := tangent_across hpos hsine hJ
  have hnormal := tangent_normal hpos hJ
  set q := polar (Profile.between phi.value lower upper) Z.values with hq
  set Q := polar (Profile.between phi (Dual.const lower) (Dual.const upper)) Z with hQ
  have htangential : ∀ t dt : ℝ,
      Q.across.tangent * t + Q.across.value * dt =
        t / Z.values.tangentialNorm *
          ((q.rr - q.across) * Z.tangentialNorm.tangent + q.rn * Z.tangents.n) +
        q.across * dt := by
    intro t dt
    rw [← hvaries, hacross]
    field_simp
  have h₁ : (Q.across * Z.t₁).tangent = _ :=
    (Dual.tangent_mul Q.across Z.t₁).trans (htangential Z.values.t₁ Z.tangents.t₁)
  have h₂ : (Q.across * Z.t₂).tangent = _ :=
    (Dual.tangent_mul Q.across Z.t₂).trans (htangential Z.values.t₂ Z.tangents.t₂)
  unfold gradient hessian ContactMatrix.apply ContactVector.tangents
  dsimp only
  rw [h₁, h₂, hnormal, hrate]
  simp only [ContactVector.mk.injEq, ContactVector.tangents]
  refine ⟨?_, ?_, ?_⟩ <;> ring

/-- The potential of a sliding impulse varies along its gradient. -/
theorem tangent_cost_slide
    (hJ : (Profile.between phi (Dual.const lower) (Dual.const upper)).Follows
      (Profile.between phi.value lower upper) Z.rate)
    (hpos : 0 < Z.values.normSquared)
    (hnorm : 0 < Z.values.tangentialNorm) :
    (cost Z (.slide phi (Dual.const lower) (Dual.const upper))).tangent =
      (gradient Z.values (.slide phi.value lower upper)).inner Z.tangents := by
  have hsine : Z.values.sine ≠ 0 :=
    (div_pos hnorm (Real.sqrt_pos.2 hpos)).ne'
  set M := Profile.between phi.value lower upper with hM
  have hrate := ContactVector.mul_rate hpos
  have htangential := ContactVector.tangentialNorm_eq_mul_sine hpos
  have hnormal := ContactVector.n_eq_mul_cosine hpos
  have hsquare : √Z.values.normSquared * √Z.values.normSquared = Z.values.normSquared :=
    Real.mul_self_sqrt hpos.le
  have hcotangent : 1 / 2 * M.slope * Z.values.cosine / Z.values.sine * Z.values.tangentialNorm =
      1 / 2 * M.slope * (√Z.values.normSquared * Z.values.cosine) := by
    rw [htangential]
    field_simp
  have hcost : (cost Z (.slide phi (Dual.const lower) (Dual.const upper))).tangent =
      (Z.values.tangentialNorm * Z.tangentialNorm.tangent + Z.values.n * Z.tangents.n) * M.value +
        1 / 2 * Z.values.normSquared * (M.slope * Z.rate) := by
    simp only [cost, Dual.tangent_mul, Dual.tangent_half, Dual.value_mul, Dual.value_half,
      ContactVector.value_normSquared, ContactVector.tangent_normSquared, hJ.value,
      hJ.tangent_value]
    ring
  have hgradient : (gradient Z.values (.slide phi.value lower upper)).inner Z.tangents =
      (M.value + 1 / 2 * M.slope * Z.values.cosine / Z.values.sine) *
          (Z.values.t₁ * Z.tangents.t₁ + Z.values.t₂ * Z.tangents.t₂) +
        √Z.values.normSquared * (M.value * Z.values.cosine - 1 / 2 * M.slope * Z.values.sine) *
          Z.tangents.n := by
    simp only [gradient, ContactVector.inner, polar, Exact.half_eq, Exact.sqrt_eq,
      ContactVector.sine, ContactVector.cosine, ← hM]
    ring
  rw [hcost, hgradient, ← Z.tangent_tangentialNorm]
  linear_combination
    (Z.tangents.n * M.value) * hnormal - (1 / 2 * M.slope * Z.rate) * hsquare +
      (1 / 2 * M.slope * √Z.values.normSquared) * hrate - Z.tangentialNorm.tangent * hcotangent

/-- Where the potential vanishes, so do its derivatives; released and separated impulses are
evaluated as negligible ones. -/
theorem tangents_negligible
    (Z : ContactVector (Dual ℝ)) :
    (gradient Z .negligible).values = gradient Z.values .negligible ∧
      (gradient Z .negligible).tangents = (hessian Z.values .negligible).apply Z.tangents ∧
      (cost Z .negligible).value = cost Z.values .negligible ∧
      (cost Z .negligible).tangent = (gradient Z.values .negligible).inner Z.tangents := by
  refine ⟨rfl, ?_, ?_, ?_⟩
  · simp [gradient, hessian, ContactVector.smul, ContactVector.tangents, ContactMatrix.zero,
      ContactMatrix.apply]
  · simp [cost]
  · simp [cost, gradient, ContactVector.smul, ContactVector.inner]

/-- **The coded derivatives of the potential** of a varying impulse, in every regime. -/
theorem tangents_ofImpulse
    (hvalid : p.flaw? = none)
    (hratio : 0 < ratio)
    (Z : ContactVector (Dual ℝ)) :
    ((ofImpulse (p.map Dual.const) (Dual.const ratio) Z).gradient Z).values =
        (ofImpulse p ratio Z.values).gradient Z.values ∧
      ((ofImpulse (p.map Dual.const) (Dual.const ratio) Z).gradient Z).tangents =
        ((ofImpulse p ratio Z.values).hessian Z.values).apply Z.tangents ∧
      ((ofImpulse (p.map Dual.const) (Dual.const ratio) Z).cost Z).value =
        (ofImpulse p ratio Z.values).cost Z.values ∧
      ((ofImpulse (p.map Dual.const) (Dual.const ratio) Z).cost Z).tangent =
        ((ofImpulse p ratio Z.values).gradient Z.values).inner Z.tangents := by
  have hfollows := follows_ofImpulse p ratio Z
  have hprofile : ∀ (phi : Dual ℝ) (lower upper : ℝ), phi.tangent = Z.rate →
      ofImpulse p ratio Z.values = .slide phi.value lower upper →
        (Profile.between phi (Dual.const lower) (Dual.const upper)).Follows
            (Profile.between phi.value lower upper) Z.rate ∧
          0 < Z.values.normSquared ∧ 0 < Z.values.tangentialNorm :=
    fun _ _ _ hphi h => follows_profile hvalid hratio hphi h
  generalize ofImpulse (p.map Dual.const) (Dual.const ratio) Z = R at hfollows ⊢
  generalize ofImpulse p ratio Z.values = r at hfollows hprofile ⊢
  cases hfollows with
  | negligible =>
      exact tangents_negligible Z
  | released =>
      exact tangents_negligible Z
  | separated =>
      exact tangents_negligible Z
  | compressed =>
      refine ⟨rfl, ?_, ?_, ?_⟩
      · simp [gradient, hessian, ContactVector.tangents, ContactMatrix.apply,
          ContactMatrix.normalOnly]
      · simp [cost, ContactVector.values]
      · simp only [cost, gradient, ContactVector.inner, ContactVector.values,
          ContactVector.tangents, Dual.tangent_mul, Dual.tangent_half, Dual.value_mul,
          Dual.value_half, Exact.ofNat_zero]
        ring
  | stick =>
      refine ⟨rfl, ?_, ?_, ?_⟩
      · simp [gradient, hessian, ContactVector.tangents, ContactMatrix.apply,
          ContactMatrix.identity]
      · simp [cost, ContactVector.value_normSquared]
      · simp only [cost, gradient, ContactVector.inner, Dual.tangent_mul, Dual.tangent_half,
          Dual.value_half, ContactVector.tangent_normSquared, Z.tangent_tangentialNorm]
        ring
  | slide hphi =>
      obtain ⟨hJ, hpos, hnorm⟩ := hprofile _ _ _ hphi rfl
      refine ⟨?_, tangents_gradient_slide hJ hpos hnorm, ?_, tangent_cost_slide hJ hpos hnorm⟩
      · obtain ⟨hacross, hh⟩ := value_polar hJ
        simp only [gradient, ContactVector.values, Dual.value_mul, Dual.value_sqrt,
          ContactVector.value_normSquared, Exact.sqrt_eq, hacross, hh]
      · simp only [cost, Dual.value_mul, Dual.value_half, ContactVector.value_normSquared,
          Exact.half_eq, hJ.value]

end Derivatives

end Regime

namespace ConeParameters

variable {p : ConeParameters ℝ} {Y : List (Dual ℝ)} {y dy R : ContactVector ℝ}

/-- The derivative of the projected impulse acts in scaled coordinates. -/
theorem mulVec_derivativeAt
    (p : ConeParameters ℝ) (format : Format) (R y dy : ContactVector ℝ) :
    (p.derivativeAt format R y).mulVec dy.toList =
      ((((p.regimeAt R y).hessian (y.scaled R)).apply (dy.scaled R)).unscaled R).toList := by
  generalize hH : (p.regimeAt R y).hessian (y.scaled R) = H
  unfold derivativeAt
  rw [hH]
  simp only [DenseMatrix.mulVec, DenseMatrix.tabulate, ContactVector.toList, ContactMatrix.entry,
    ContactMatrix.rows, ContactMatrix.apply, ContactVector.scaled, ContactVector.unscaled,
    List.range_succ, List.range_zero, List.nil_append, List.cons_append, List.map_cons,
    List.map_nil, List.getD_cons_zero, List.getD_cons_succ, Vec.dot_cons, Vec.dot_nil_left,
    List.cons.injEq, and_true]
  refine ⟨?_, ?_, ?_⟩ <;> ring

/-- A varying list with three coordinates. -/
theorem exists_of_varies
    (hY : Varies Y y.toList dy.toList) :
    ∃ a b c : Dual ℝ, Y = [a, b, c] ∧
      (a.value = y.t₁ ∧ b.value = y.t₂ ∧ c.value = y.n) ∧
      (a.tangent = dy.t₁ ∧ b.tangent = dy.t₂ ∧ c.tangent = dy.n) := by
  obtain ⟨hvalue, htangent⟩ := hY
  have hlength : Y.length = 3 := by
    have h := congrArg List.length hvalue
    rwa [List.length_map] at h
  match Y, hlength with
  | [a, b, c], _ =>
      simp only [List.map_cons, List.map_nil, ContactVector.toList, List.cons.injEq,
        and_true] at hvalue htangent
      exact ⟨a, b, c, rfl, hvalue, htangent⟩

/-- The inner product in the norm of the regularization is that of scaled coordinates. -/
theorem dot_unscaled
    (hR : 0 < R.t₁ ∧ 0 < R.t₂ ∧ 0 < R.n)
    (x d : ContactVector ℝ) :
    Vec.dot (List.zipWith (· * ·) R.toList (x.unscaled R).toList) d.toList =
      x.inner (d.scaled R) := by
  have hroot : ∀ r a b : ℝ, 0 < r → r * (a / √r) * b = a * (√r * b) := by
    intro r a b hr
    have hsqrt : √r ≠ 0 :=
      (Real.sqrt_pos.2 hr).ne'
    field_simp
    rw [Real.sq_sqrt hr.le]
    ring
  simp only [ContactVector.inner, ContactVector.scaled, ContactVector.unscaled,
    ContactVector.toList, List.zipWith_cons_cons, List.zipWith_nil_left, Vec.dot_cons,
    Vec.dot_nil_left]
  rw [hroot _ _ _ hR.1, hroot _ _ _ hR.2.1, hroot _ _ _ hR.2.2]
  ring

/-- **A contact varies as its projection states.**  The tangent of the projected impulse is the
coded derivative times the direction, and the cost varies along the impulse in the norm of the
regularization. -/
theorem tangents_project
    (hvalid : p.flaw? = none)
    (hR : 0 < R.t₁ ∧ 0 < R.t₂ ∧ 0 < R.n)
    (format : Format)
    (hY : Varies Y y.toList dy.toList) :
    ∃ Γ D C,
      (p.map Dual.const).project format Y (R.toList.map Dual.const) = .ok (Γ, D) ∧
        (p.map Dual.const).impulse Y (R.toList.map Dual.const) = .ok Γ ∧
        (p.map Dual.const).cost Y (R.toList.map Dual.const) = .ok C ∧
        Varies Γ (((p.regimeAt R y).gradient (y.scaled R)).unscaled R).toList
          ((p.derivativeAt format R y).mulVec dy.toList) ∧
        C.value = (p.regimeAt R y).cost (y.scaled R) ∧
        C.tangent = Vec.dot
          (List.zipWith (· * ·) R.toList
            (((p.regimeAt R y).gradient (y.scaled R)).unscaled R).toList) dy.toList := by
  obtain ⟨a, b, c, rfl, ⟨ha, hb, hc⟩, hda, hdb, hdc⟩ := exists_of_varies hY
  set Z : ContactVector (Dual ℝ) :=
    ⟨Dual.const √R.t₁ * a, Dual.const √R.t₂ * b, Dual.const √R.n * c⟩ with hZ
  have hvalues : Z.values = y.scaled R := by
    simp [hZ, ContactVector.values, ContactVector.scaled, ha, hb, hc]
  have htangents : Z.tangents = dy.scaled R := by
    simp [hZ, ContactVector.tangents, ContactVector.scaled, hda, hdb, hdc]
  obtain ⟨hgradient, hhessian, hcost, hrate⟩ :=
    Regime.tangents_ofImpulse hvalid (div_pos hR.1 hR.2.2) Z
  rw [hvalues] at hgradient hhessian hcost hrate
  rw [htangents] at hhessian hrate
  set G := (Regime.ofImpulse (p.map Dual.const) (Dual.const (R.t₁ / R.n)) Z).gradient Z with hG
  have hoperand : ∀ x : Dual ℝ, Scalar.operand x = .ok x :=
    fun _ => rfl
  let Y : ContactVector (Dual ℝ) := ⟨a, b, c⟩
  let R' : ContactVector (Dual ℝ) := ⟨Dual.const R.t₁, Dual.const R.t₂, Dual.const R.n⟩
  refine ⟨[G.t₁ / Dual.const √R.t₁, G.t₂ / Dual.const √R.t₂, G.n / Dual.const √R.n], _, _,
    project_toList hoperand Dual.one_mul_eq (p.map Dual.const) Y R' format,
    impulse_toList hoperand Dual.one_mul_eq (p.map Dual.const) Y R',
    cost_toList hoperand (p.map Dual.const) Y R', ?_, hcost, hrate.trans ?_⟩
  · rw [mulVec_derivativeAt]
    unfold regimeAt
    rw [← hgradient, ← hhessian]
    constructor
    · simp [ContactVector.unscaled, ContactVector.values, ContactVector.toList]
    · simp [ContactVector.unscaled, ContactVector.tangents, ContactVector.toList]
  · exact (dot_unscaled hR _ dy).symm

end ConeParameters
end ConvexContact
