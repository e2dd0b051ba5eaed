import Mathlib
import ConvexContact.Proofs.Cone.Curvature
import ConvexContact.Proofs.Cone.Membership
import ConvexContact.Proofs.Contacts

/-!
# The exact projection onto the friction cone

Without smoothed bands, the projected impulse is the point of the friction cone that is nearest to
the unprojected one in the norm of the regularization.

**Scaled coordinates.**  There the norm is the Euclidean one.  The gradient of the potential splits
an impulse (`Regime.Splits`): it lies in the cone, and what remains of the impulse is perpendicular
to it and lies in the polar cone.  The value of the potential is half the squared length of the
gradient.

**Result.**  `Constraint.project_nearest`: the variational inequality of the nearest point, at every
impulse that is not negligible, and the value of the cost.
-/

namespace ConvexContact

namespace ContactVector

variable {x y z : ContactVector ℝ} {slope : ℝ}

def sub (x y : ContactVector ℝ) : ContactVector ℝ :=
  ⟨x.t₁ - y.t₁, x.t₂ - y.t₂, x.n - y.n⟩

/-- The cone of those vectors whose tangential part is at most `slope` times the normal part. -/
def frictionCone (slope : ℝ) : Set (ContactVector ℝ) :=
  {x | 0 ≤ x.n ∧ √(x.t₁ ^ 2 + x.t₂ ^ 2) ≤ slope * x.n}

theorem inner_sub
    (x y z : ContactVector ℝ) :
    x.inner (y.sub z) = x.inner y - x.inner z := by
  simp only [inner, sub]
  ring

/-- The inner product of tangential parts is at most the product of their lengths. -/
theorem tangential_inner_le
    (x y : ContactVector ℝ) :
    x.t₁ * y.t₁ + x.t₂ * y.t₂ ≤ √(x.t₁ ^ 2 + x.t₂ ^ 2) * √(y.t₁ ^ 2 + y.t₂ ^ 2) := by
  rw [← Real.sqrt_mul (by positivity)]
  apply Real.le_sqrt_of_sq_le
  nlinarith [sq_nonneg (x.t₁ * y.t₂ - x.t₂ * y.t₁)]

/-- A vector of the polar cone: its normal part is negative enough for its tangential part. -/
theorem inner_nonpos
    (hpolar : √(x.t₁ ^ 2 + x.t₂ ^ 2) * slope ≤ -x.n)
    (hy : y ∈ frictionCone slope) :
    x.inner y ≤ 0 := by
  obtain ⟨hnormal, htangential⟩ := hy
  have htangents := tangential_inner_le x y
  have hlength : 0 ≤ √(x.t₁ ^ 2 + x.t₂ ^ 2) :=
    Real.sqrt_nonneg _
  have hbound : √(x.t₁ ^ 2 + x.t₂ ^ 2) * √(y.t₁ ^ 2 + y.t₂ ^ 2) ≤ -x.n * y.n :=
    calc √(x.t₁ ^ 2 + x.t₂ ^ 2) * √(y.t₁ ^ 2 + y.t₂ ^ 2)
        ≤ √(x.t₁ ^ 2 + x.t₂ ^ 2) * (slope * y.n) :=
          mul_le_mul_of_nonneg_left htangential hlength
      _ = √(x.t₁ ^ 2 + x.t₂ ^ 2) * slope * y.n := by
          ring
      _ ≤ -x.n * y.n :=
          mul_le_mul_of_nonneg_right hpolar hnormal
  unfold inner
  linarith

/-- The tangential length of a vector whose tangential part is a multiple of another one. -/
theorem sqrt_smul
    {c : ℝ}
    (hc : 0 ≤ c)
    (s t : ℝ) :
    √((c * s) ^ 2 + (c * t) ^ 2) = c * √(s ^ 2 + t ^ 2) := by
  rw [show (c * s) ^ 2 + (c * t) ^ 2 = c ^ 2 * (s ^ 2 + t ^ 2) by ring,
    Real.sqrt_mul (sq_nonneg c), Real.sqrt_sq hc]

section Scaling

variable {R : ContactVector ℝ}

/-- The inner product of scaled vectors is the product with the regularization between them. -/
theorem inner_scaled
    (hR : 0 ≤ R.t₁ ∧ 0 ≤ R.t₂ ∧ 0 ≤ R.n)
    (x y : ContactVector ℝ) :
    (x.scaled R).inner (y.scaled R) =
      R.t₁ * (x.t₁ * y.t₁) + R.t₂ * (x.t₂ * y.t₂) + R.n * (x.n * y.n) := by
  have h₁ := Real.mul_self_sqrt hR.1
  have h₂ := Real.mul_self_sqrt hR.2.1
  have hₙ := Real.mul_self_sqrt hR.2.2
  simp only [inner, scaled]
  linear_combination (x.t₁ * y.t₁) * h₁ + (x.t₂ * y.t₂) * h₂ + (x.n * y.n) * hₙ

theorem sub_scaled
    (x y R : ContactVector ℝ) :
    (x.sub y).scaled R = (x.scaled R).sub (y.scaled R) := by
  simp only [sub, scaled, mul_sub]

/-- Scaling takes the friction cone to a cone whose opening depends on the quotient of tangential
and normal regularization. -/
theorem scaled_mem_frictionCone_iff
    (hR : 0 < R.t₁ ∧ 0 < R.n)
    (hsame : R.t₁ = R.t₂)
    (slope : ℝ) (x : ContactVector ℝ) :
    x.scaled R ∈ frictionCone (slope * √(R.t₁ / R.n)) ↔ x ∈ frictionCone slope := by
  have hrootₜ : 0 < √R.t₁ :=
    Real.sqrt_pos.2 hR.1
  have hrootₙ : 0 < √R.n :=
    Real.sqrt_pos.2 hR.2
  have hlength : √((x.scaled R).t₁ ^ 2 + (x.scaled R).t₂ ^ 2) =
      √R.t₁ * √(x.t₁ ^ 2 + x.t₂ ^ 2) := by
    simp only [scaled, ← hsame]
    exact sqrt_smul hrootₜ.le x.t₁ x.t₂
  have hslope : slope * √(R.t₁ / R.n) * (x.scaled R).n = √R.t₁ * (slope * x.n) := by
    rw [Real.sqrt_div hR.1.le]
    simp only [scaled]
    field_simp
  constructor
  · rintro ⟨hnormal, htangential⟩
    rw [hlength, hslope] at htangential
    exact ⟨nonneg_of_mul_nonneg_right hnormal hrootₙ,
      le_of_mul_le_mul_left htangential hrootₜ⟩
  · rintro ⟨hnormal, htangential⟩
    refine ⟨mul_nonneg hrootₙ.le hnormal, ?_⟩
    rw [hlength, hslope]
    exact mul_le_mul_of_nonneg_left htangential hrootₜ.le

end Scaling

end ContactVector

namespace Regime

open ContactVector

/-- A point of the cone splits an impulse: the rest of the impulse is perpendicular to the point and
lies in the polar cone. -/
structure Splits (slope : ℝ) (z x : ContactVector ℝ) : Prop where
  mem : x ∈ frictionCone slope
  perpendicular : (z.sub x).inner x = 0
  polar : ∀ y ∈ frictionCone slope, (z.sub x).inner y ≤ 0

/-- The point that splits an impulse is the nearest one. -/
theorem Splits.variational
    {slope : ℝ} {x y z : ContactVector ℝ}
    (h : Splits slope z x)
    (hy : y ∈ frictionCone slope) :
    (z.sub x).inner (y.sub x) ≤ 0 := by
  rw [inner_sub, h.perpendicular, sub_zero]
  exact h.polar y hy

/-- An impulse in the cone is split by itself. -/
theorem splits_self
    {slope : ℝ} {z : ContactVector ℝ}
    (hz : z ∈ frictionCone slope) :
    Splits slope z z where
  mem := hz
  perpendicular := by
    simp [ContactVector.inner, ContactVector.sub]
  polar y _ := by
    simp [ContactVector.inner, ContactVector.sub]

/-- An impulse in the polar cone is split by zero. -/
theorem splits_zero
    {slope : ℝ} {z : ContactVector ℝ}
    (hz : √(z.t₁ ^ 2 + z.t₂ ^ 2) * slope ≤ -z.n) :
    Splits slope z ⟨0, 0, 0⟩ where
  mem := by
    simp [frictionCone]
  perpendicular := by
    simp [ContactVector.inner]
  polar y hy := by
    have hrest : z.sub ⟨0, 0, 0⟩ = z := by
      simp [ContactVector.sub]
    rw [hrest]
    exact inner_nonpos hz hy

/-- An impulse outside both cones is split by a point on the surface of the cone.  The tangential
part of the point is the share `c` of that of the impulse, and `k` is the share of the rest. -/
theorem splits_of_shares
    {slope c k m s : ℝ} {z : ContactVector ℝ}
    (hc : 0 ≤ c)
    (hk : 0 ≤ k)
    (hshares : c + k = 1)
    (hm : 0 ≤ m)
    (hnormal : z.n = m - s)
    (hcone : c * √(z.t₁ ^ 2 + z.t₂ ^ 2) = slope * m)
    (hpolar : k * √(z.t₁ ^ 2 + z.t₂ ^ 2) * slope = s) :
    Splits slope z ⟨c * z.t₁, c * z.t₂, m⟩ := by
  have hrest : z.sub ⟨c * z.t₁, c * z.t₂, m⟩ = ⟨k * z.t₁, k * z.t₂, -s⟩ := by
    simp only [ContactVector.sub, ContactVector.mk.injEq]
    refine ⟨?_, ?_, ?_⟩
    · linear_combination (-z.t₁) * hshares
    · linear_combination (-z.t₂) * hshares
    · linear_combination hnormal
  have hsquare : √(z.t₁ ^ 2 + z.t₂ ^ 2) ^ 2 = z.t₁ ^ 2 + z.t₂ ^ 2 :=
    Real.sq_sqrt (by positivity)
  refine ⟨⟨hm, ?_⟩, ?_, ?_⟩
  · rw [sqrt_smul hc, hcone]
  · rw [hrest]
    simp only [ContactVector.inner]
    linear_combination (-(k * c)) * hsquare +
      k * √(z.t₁ ^ 2 + z.t₂ ^ 2) * hcone + m * hpolar
  · intro y hy
    rw [hrest]
    refine inner_nonpos ?_ hy
    rw [sqrt_smul hk, hpolar, neg_neg]

section Exact

variable [Threshold]
variable {p : ConeParameters ℝ} {ratio : ℝ} {z : ContactVector ℝ}

theorem mem_frictionCone_of_inCone
    {slope : ℝ} {x : ContactVector ℝ}
    (h : InCone slope z x) :
    x ∈ frictionCone slope := by
  obtain ⟨c, hc, h₁, h₂, hbound⟩ := h.exists_factor
  refine ⟨h.normal_nonneg, ?_⟩
  rw [h₁, h₂, sqrt_smul hc, ← z.tangentialNorm_eq]
  exact hbound

/-- Without bands the profile of a sliding impulse is the squared cosine. -/
theorem between_exact
    {phi : ℝ}
    (hleft : 0 < phi)
    (hright : phi < Real.pi / 2) :
    Profile.between phi 0 0 = Profile.slide phi 1 := by
  rw [Profile.between_eq, if_neg hleft.not_gt, sub_zero, if_pos hright.le, Profile.slideScale_zero]

/-- The gradient of a sliding impulse without bands, in polar coordinates. -/
theorem gradient_slide_exact
    (hratio : 0 < ratio)
    {phi : ℝ} (hphi : 0 < phi)
    (h : Sliding p ratio z phi 0 0) :
    gradient z (.slide phi 0 0) =
      ⟨Real.cos phi * Real.sin (openingAngle p ratio) / Real.sin (phi + openingAngle p ratio) *
          z.t₁,
        Real.cos phi * Real.sin (openingAngle p ratio) / Real.sin (phi + openingAngle p ratio) *
          z.t₂,
        √z.normSquared * (Real.cos phi * Real.cos (openingAngle p ratio))⟩ := by
  have hsin := Profile.sin_mul_cos_sub phi (openingAngle p ratio)
  have hcos := Real.cos_sub (phi + openingAngle p ratio) phi
  rw [add_sub_cancel_left] at hcos
  have hacross : (polar (Profile.slide phi 1) z).across =
      Real.cos phi * Real.sin (openingAngle p ratio) / Real.sin (phi + openingAngle p ratio) := by
    rw [h.across_eq hratio, Profile.value_slide, Profile.slope_slide, ← hsin]
    ring
  have hnormal : (polar (Profile.slide phi 1) z).h =
      Real.cos phi * Real.cos (openingAngle p ratio) := by
    rw [h.h_eq, Profile.value_slide, Profile.slope_slide, hcos]
    ring
  unfold gradient
  dsimp only
  rw [between_exact hphi h.lt_pi_div_two, hacross, hnormal]
  rfl

/-- A sliding impulse is split by its gradient. -/
theorem splits_slide
    (hratio : 0 < ratio)
    {phi : ℝ} (hphi : 0 < phi)
    (h : Sliding p ratio z phi 0 0) :
    Splits (p.friction * √ratio) z (gradient z (.slide phi 0 0)) := by
  obtain ⟨halpha₀, halpha⟩ := openingAngle_mem h.friction_pos hratio
  have hpi := Real.pi_pos
  have hright := h.lt_pi_div_two
  have hsum := h.sin_pos hratio
  have hsinAlpha : 0 < Real.sin (openingAngle p ratio) :=
    Real.sin_pos_of_pos_of_lt_pi halpha₀ (by linarith)
  have hcosAlpha : 0 < Real.cos (openingAngle p ratio) :=
    Real.cos_pos_of_mem_Ioo ⟨by linarith, halpha⟩
  have hsinPhi : 0 < Real.sin phi :=
    Real.sin_pos_of_pos_of_lt_pi hphi (by linarith)
  have hcosPhi : 0 < Real.cos phi :=
    Real.cos_pos_of_mem_Ioo ⟨by linarith, hright⟩
  have hslope : p.friction * √ratio * Real.cos (openingAngle p ratio) =
      Real.sin (openingAngle p ratio) := by
    rw [← tan_openingAngle, Real.tan_mul_cos hcosAlpha.ne']
  have hlength : √(z.t₁ ^ 2 + z.t₂ ^ 2) =
      √z.normSquared * Real.sin (phi + openingAngle p ratio) := by
    rw [← z.tangentialNorm_eq, h.tangentialNorm_eq]
  have hrho := h.rho_pos
  rw [gradient_slide_exact hratio hphi h]
  refine splits_of_shares
    (k := Real.sin phi * Real.cos (openingAngle p ratio) / Real.sin (phi + openingAngle p ratio))
    (s := √z.normSquared * (Real.sin phi * Real.sin (openingAngle p ratio)))
    (by positivity) (by positivity) ?_ (by positivity) ?_ ?_ ?_
  · rw [← add_div, div_eq_one_iff_eq hsum.ne', Real.sin_add]
    ring
  · rw [h.normal_eq, Real.cos_add]
    ring
  · rw [hlength, ← hslope]
    field_simp
  · rw [hlength, ← hslope]
    field_simp

/-- A separated impulse lies in the polar cone. -/
theorem splits_separated
    (hfriction : 0 < p.friction)
    (hratio : 0 < ratio)
    (hpos : 0 < z.normSquared)
    (hangle : Real.pi / 2 ≤ angle p ratio z) :
    Splits (p.friction * √ratio) z ⟨0, 0, 0⟩ := by
  obtain ⟨halpha₀, halpha⟩ := openingAngle_mem hfriction hratio
  obtain ⟨hsin, hcos⟩ := polar_coordinates hpos
  have hle : Complex.arg ⟨z.n, z.tangentialNorm⟩ ≤ Real.pi :=
    Complex.arg_le_pi _
  have hrho : 0 < √z.normSquared :=
    Real.sqrt_pos.2 hpos
  unfold angle at hangle
  set theta := Complex.arg ⟨z.n, z.tangentialNorm⟩
  have hcosAlpha : 0 < Real.cos (openingAngle p ratio) :=
    Real.cos_pos_of_mem_Ioo ⟨by linarith [Real.pi_pos], halpha⟩
  have hobtuse : Real.cos (theta - openingAngle p ratio) ≤ 0 :=
    Real.cos_nonpos_of_pi_div_two_le_of_le hangle (by linarith [Real.pi_pos])
  rw [Real.cos_sub] at hobtuse
  apply splits_zero
  rw [← z.tangentialNorm_eq, ← tan_openingAngle, Real.tan_eq_sin_div_cos, mul_div_assoc',
    div_le_iff₀ hcosAlpha, hsin, hcos]
  nlinarith

/-- The potential is homogeneous of degree two: its derivative along a sliding impulse is twice its
value. -/
theorem gradient_inner_slide
    {phi lower upper : ℝ}
    (hratio : 0 < ratio)
    (h : Sliding p ratio z phi lower upper) :
    (gradient z (.slide phi lower upper)).inner z = 2 * cost z (.slide phi lower upper) := by
  have hsin := (h.sin_pos hratio).ne'
  have hsquare : √z.normSquared ^ 2 = z.normSquared :=
    Real.sq_sqrt (Real.sqrt_pos.1 h.rho_pos).le
  have htangential : z.t₁ * z.t₁ + z.t₂ * z.t₂ =
      (√z.normSquared * Real.sin (phi + openingAngle p ratio)) ^ 2 := by
    rw [← h.tangentialNorm_eq, z.tangentialNorm_eq, Real.sq_sqrt (by positivity)]
    ring
  have hunit := Real.sin_sq_add_cos_sq (phi + openingAngle p ratio)
  have hnormal := h.normal_eq
  simp only [gradient, cost, ContactVector.inner, Exact.half_eq, Exact.sqrt_eq]
  rw [h.across_eq hratio, h.h_eq]
  set M := Profile.between phi lower upper
  set theta := phi + openingAngle p ratio
  set rho := √z.normSquared
  have hacross : (M.value * Real.sin theta + M.slope / 2 * Real.cos theta) / Real.sin theta *
      (rho * Real.sin theta) ^ 2 =
      (M.value * Real.sin theta + M.slope / 2 * Real.cos theta) * (rho ^ 2 * Real.sin theta) := by
    field_simp
  rw [← htangential] at hacross
  rw [← hsquare]
  linear_combination hacross +
    rho * (M.value * Real.cos theta - M.slope / 2 * Real.sin theta) * hnormal +
    rho ^ 2 * M.value * hunit

/-- The derivative of the potential along the impulse is twice its value, in every regime. -/
theorem gradient_inner_ofImpulse
    (hfriction : 0 ≤ p.friction)
    (hratio : 0 < ratio)
    (z : ContactVector ℝ) :
    (gradient z (ofImpulse p ratio z)).inner z = 2 * cost z (ofImpulse p ratio z) := by
  cases hregime : ofImpulse p ratio z with
  | negligible =>
      simp [gradient, cost, ContactVector.inner, ContactVector.smul]
  | released =>
      simp [gradient, cost, ContactVector.inner, ContactVector.smul]
  | separated =>
      simp [gradient, cost, ContactVector.inner, ContactVector.smul]
  | compressed =>
      simp only [gradient, cost, ContactVector.inner, Exact.ofNat_zero, Exact.half_eq]
      ring
  | stick =>
      have hsquare : z.tangentialNorm ^ 2 = z.t₁ ^ 2 + z.t₂ ^ 2 := by
        rw [z.tangentialNorm_eq, Real.sq_sqrt (by positivity)]
      simp only [gradient, cost, ContactVector.inner, Exact.half_eq, z.normSquared_eq, hsquare]
      ring
  | slide phi lower upper =>
      exact gradient_inner_slide hratio (sliding_of_ofImpulse hfriction hregime)

/-- Without bands, the gradient of the potential splits an impulse on a contact with friction. -/
theorem splits_of_friction
    (hfriction : 0 < p.friction)
    (hwidth : p.width = 0)
    (hratio : 0 < ratio)
    (hlong : Threshold.value < z.normSquared) :
    Splits (p.friction * √ratio) z (gradient z (ofImpulse p ratio z)) := by
  have hpos : 0 < z.normSquared :=
    Threshold.value_pos.trans hlong
  obtain ⟨hlower, hupper⟩ := widths_of_width_eq_zero hwidth hfriction hratio
  rw [ofImpulse_of_friction ratio hfriction hlong, hlower, hupper, neg_zero]
  split_ifs with hstick hseparated
  · have hangle : Complex.arg ⟨z.n, z.tangentialNorm⟩ ≤ openingAngle p ratio :=
      sub_nonpos.1 hstick
    exact splits_self (mem_frictionCone_of_inCone (inCone_of_stick hfriction hratio hpos hangle))
  · simpa [gradient, ContactVector.smul] using
      splits_separated hfriction hratio hpos hseparated
  · have hsliding : Sliding p ratio z (angle p ratio z) (lowerWidth p ratio)
        (upperWidth p ratio) := by
      apply sliding_of_angle hfriction hlong
      · rw [hlower, neg_zero]
        exact not_le.1 hstick
      · exact not_le.1 hseparated
    rw [hlower, hupper] at hsliding
    exact splits_slide hratio (not_le.1 hstick) hsliding

/-- The gradient of the potential splits an impulse on a contact without friction. -/
theorem splits_of_frictionless
    (hfriction : p.friction = 0)
    (hlong : Threshold.value < z.normSquared) :
    Splits (p.friction * √ratio) z (gradient z (ofImpulse p ratio z)) := by
  rw [ofImpulse_of_frictionless ratio hfriction hlong, hfriction, zero_mul]
  split_ifs with hside
  · have hpressed : Splits 0 z ⟨0 * z.t₁, 0 * z.t₂, z.n⟩ :=
      splits_of_shares (k := 1) (s := 0) le_rfl zero_le_one (zero_add 1) hside.le
        (sub_zero z.n).symm (by simp) (by simp)
    simpa [gradient] using hpressed
  · have hnormal : z.n ≤ 0 :=
      not_lt.1 hside
    have hseparated : Splits 0 z ⟨0, 0, 0⟩ :=
      splits_zero (by simpa)
    simpa [gradient, ContactVector.smul] using hseparated

/-- **The gradient of the exact potential splits the impulse**, and the value of the potential is
half its squared length. -/
theorem splits_ofImpulse
    (hfriction : 0 ≤ p.friction)
    (hwidth : p.width = 0)
    (hratio : 0 < ratio)
    (hlong : Threshold.value < z.normSquared) :
    let x := gradient z (ofImpulse p ratio z)
    Splits (p.friction * √ratio) z x ∧
      cost z (ofImpulse p ratio z) = 1 / 2 * x.inner x := by
  intro x
  have hsplits : Splits (p.friction * √ratio) z x := by
    rcases hfriction.eq_or_lt with hzero | hpos
    · exact splits_of_frictionless hzero.symm hlong
    · exact splits_of_friction hpos hwidth hratio hlong
  have hhomogeneous : x.inner z = 2 * cost z (ofImpulse p ratio z) :=
    gradient_inner_ofImpulse hfriction hratio z
  have hperpendicular := hsplits.perpendicular
  refine ⟨hsplits, ?_⟩
  simp only [ContactVector.inner, ContactVector.sub] at hhomogeneous hperpendicular ⊢
  linear_combination (-1 / 2 : ℝ) * hhomogeneous + 1 / 2 * hperpendicular

end Exact
end Regime

namespace ConeParameters

variable [Threshold]
variable {p : ConeParameters ℝ} {R y : ContactVector ℝ}

/-- The projected impulse without bands. -/
theorem nearest_impulse
    (hfriction : 0 ≤ p.friction)
    (hwidth : p.width = 0)
    (hR : 0 < R.t₁ ∧ 0 < R.t₂ ∧ 0 < R.n)
    (hsame : R.t₁ = R.t₂)
    (hlong : Threshold.value < (y.scaled R).normSquared) :
    let γ := ((p.regimeAt R y).gradient (y.scaled R)).unscaled R
    γ ∈ ContactVector.frictionCone p.friction ∧
      (∀ η ∈ ContactVector.frictionCone p.friction,
        ((y.sub γ).scaled R).inner ((η.sub γ).scaled R) ≤ 0) ∧
      (p.regimeAt R y).cost (y.scaled R) = 1 / 2 * (γ.scaled R).inner (γ.scaled R) := by
  intro γ
  have hscaled : γ.scaled R = (p.regimeAt R y).gradient (y.scaled R) :=
    ContactVector.scaled_unscaled hR _
  obtain ⟨hsplits, hcost⟩ :=
    Regime.splits_ofImpulse hfriction hwidth (div_pos hR.1 hR.2.2) hlong
  change Regime.Splits _ _ ((p.regimeAt R y).gradient (y.scaled R)) at hsplits
  rw [← hscaled] at hsplits
  refine ⟨?_, ?_, ?_⟩
  · exact (ContactVector.scaled_mem_frictionCone_iff ⟨hR.1, hR.2.2⟩ hsame _ _).1 hsplits.mem
  · intro η hη
    rw [ContactVector.sub_scaled, ContactVector.sub_scaled]
    apply hsplits.variational
    exact (ContactVector.scaled_mem_frictionCone_iff ⟨hR.1, hR.2.2⟩ hsame _ _).2 hη
  · rw [hscaled]
    exact hcost

end ConeParameters

namespace Constraint

/-- **The projected impulse is the nearest point of the friction cone**, in the norm of the
regularization, if the bands have no width and the impulse is not negligible.  It satisfies the
variational inequality of the nearest point against every vector of the cone.  The cost is half its
squared length, and so is the cost by which a constraint without a potential of its own is
evaluated. -/
theorem project_nearest
    [Threshold]
    {c : Constraint ℝ} {p : ConeParameters ℝ} {gap : ℝ} (hlaw : c.law = .frictionCone p gap)
    (hfriction : 0 ≤ p.friction) (hwidth : p.width = 0)
    (format : Format)
    (y₁ y₂ yₙ : ℝ)
    {Rₜ Rₙ : ℝ} (hRₜ : 0 < Rₜ) (hRₙ : 0 < Rₙ)
    (hlong : Threshold.value < Rₜ * y₁ ^ 2 + Rₜ * y₂ ^ 2 + Rₙ * yₙ ^ 2) :
    let y : Tensor ℝ := Tensor.ofVec format [y₁, y₂, yₙ]
    let R : Tensor ℝ := Tensor.ofVec format [Rₜ, Rₜ, Rₙ]
    ∃ γ₁ γ₂ γₙ D,
      c.projectTensor y R = .ok (Tensor.ofVec format [γ₁, γ₂, γₙ], D) ∧
        (0 ≤ γₙ ∧ √(γ₁ ^ 2 + γ₂ ^ 2) ≤ p.friction * γₙ) ∧
        (∀ η₁ η₂ ηₙ, 0 ≤ ηₙ → √(η₁ ^ 2 + η₂ ^ 2) ≤ p.friction * ηₙ →
          Rₜ * ((y₁ - γ₁) * (η₁ - γ₁)) + Rₜ * ((y₂ - γ₂) * (η₂ - γ₂)) +
            Rₙ * ((yₙ - γₙ) * (ηₙ - γₙ)) ≤ 0) ∧
        c.costTensor y R =
          .ok (Tensor.ofScalar format (1 / 2 * (Rₜ * γ₁ ^ 2 + Rₜ * γ₂ ^ 2 + Rₙ * γₙ ^ 2))) ∧
        c.exactCostTensor y R = c.costTensor y R := by
  intro y R
  let y' : ContactVector ℝ := ⟨y₁, y₂, yₙ⟩
  let R' : ContactVector ℝ := ⟨Rₜ, Rₜ, Rₙ⟩
  have hR' : 0 < R'.t₁ ∧ 0 < R'.t₂ ∧ 0 < R'.n :=
    ⟨hRₜ, hRₜ, hRₙ⟩
  have hnonneg : 0 ≤ R'.t₁ ∧ 0 ≤ R'.t₂ ∧ 0 ≤ R'.n :=
    ⟨hRₜ.le, hRₜ.le, hRₙ.le⟩
  obtain ⟨hmem, hvariational, hcost⟩ :=
    ConeParameters.nearest_impulse (y := y') hfriction hwidth hR' rfl
      (by rwa [ContactVector.normSquared_scaled hnonneg])
  set γ := ((p.regimeAt R' y').gradient (y'.scaled R')).unscaled R' with hγ
  have hproject : c.projectTensor y R =
      .ok (Tensor.ofVec format γ.toList, Tensor.ofMatrix (p.derivativeAt format R' y')) :=
    projectTensor_ofVec hlaw format y' R'
  have hvalue : 1 / 2 * (γ.scaled R').inner (γ.scaled R') =
      1 / 2 * (Rₜ * γ.t₁ ^ 2 + Rₜ * γ.t₂ ^ 2 + Rₙ * γ.n ^ 2) := by
    rw [ContactVector.inner_scaled hnonneg, sq, sq, sq]
  have hcost' : c.costTensor y R =
      .ok (Tensor.ofScalar format (1 / 2 * (Rₜ * γ.t₁ ^ 2 + Rₜ * γ.t₂ ^ 2 + Rₙ * γ.n ^ 2))) := by
    rw [← hvalue, ← hcost]
    exact costTensor_ofVec hlaw format y' R'
  have hexact : Scalar.half * Vec.dot γ.toList (List.zipWith (· * ·) R.entries γ.toList) =
      1 / 2 * (Rₜ * γ.t₁ ^ 2 + Rₜ * γ.t₂ ^ 2 + Rₙ * γ.n ^ 2) := by
    rw [Tensor.entries_ofVec, Exact.half_eq]
    simp only [ContactVector.toList, List.zipWith_cons_cons, List.zipWith_nil_left, Vec.dot_cons,
      Vec.dot_nil_left]
    ring
  refine ⟨γ.t₁, γ.t₂, γ.n, _, hproject, hmem, ?_, hcost', ?_⟩
  · intro η₁ η₂ ηₙ hnormal htangential
    have h := hvariational ⟨η₁, η₂, ηₙ⟩ ⟨hnormal, htangential⟩
    rwa [ContactVector.inner_scaled hnonneg] at h
  · rw [exactCostTensor_of_shape rfl (Tensor.format_ofVec _ _) rfl hproject, hexact, hcost']

/-- An impulse that slides on a cone without bands. -/
theorem project_nearest_sliding :
    letI := Threshold.ofFormat .double
    let p : ConeParameters ℝ := { ConeParameters.ofMaterial (1 / 2) 1 0 with width := 0 }
    let c := Constraint.contact p 0 0 (DenseMatrix.identity .double 3) none
    let y : Tensor ℝ := Tensor.ofVec .double [3, 0, 1]
    let R : Tensor ℝ := Tensor.ofVec .double [1, 1, 2]
    (c.law = .frictionCone p 0 ∧ 0 ≤ p.friction ∧ p.width = 0) ∧
      ((0 : ℝ) < 1 ∧ (0 : ℝ) < 2 ∧
        Threshold.value < 1 * (3 : ℝ) ^ 2 + 1 * (0 : ℝ) ^ 2 + 2 * (1 : ℝ) ^ 2) ∧
      ∃ γ₁ γ₂ γₙ D,
        c.projectTensor y R = .ok (Tensor.ofVec .double [γ₁, γ₂, γₙ], D) ∧
          (0 ≤ γₙ ∧ √(γ₁ ^ 2 + γ₂ ^ 2) ≤ p.friction * γₙ) ∧
          (∀ η₁ η₂ ηₙ, 0 ≤ ηₙ → √(η₁ ^ 2 + η₂ ^ 2) ≤ p.friction * ηₙ →
            1 * ((3 - γ₁) * (η₁ - γ₁)) + 1 * ((0 - γ₂) * (η₂ - γ₂)) +
              2 * ((1 - γₙ) * (ηₙ - γₙ)) ≤ 0) ∧
          c.costTensor y R =
            .ok (Tensor.ofScalar .double (1 / 2 * (1 * γ₁ ^ 2 + 1 * γ₂ ^ 2 + 2 * γₙ ^ 2))) ∧
          c.exactCostTensor y R = c.costTensor y R := by
  let _ := Threshold.ofFormat .double
  intro p c y R
  have hfriction : 0 ≤ p.friction :=
    one_half_pos.le
  have hlong : Threshold.value < 1 * (3 : ℝ) ^ 2 + 1 * (0 : ℝ) ^ 2 + 2 * (1 : ℝ) ^ 2 :=
    lt_of_le_of_lt (Threshold.value_ofFormat_le .double) (by norm_num)
  exact ⟨⟨rfl, hfriction, rfl⟩, ⟨one_pos, two_pos, hlong⟩,
    project_nearest (c := c) rfl hfriction rfl .double 3 0 1 one_pos two_pos hlong⟩

end Constraint
end ConvexContact
