import Mathlib
import ConvexContact.Cone.Projection
import ConvexContact.Proofs.Exact
import ConvexContact.Proofs.Outcomes

/-!
# Regimes of a contact in exact arithmetic

An impulse slides if it is neither negligible nor in the cone nor in its polar cone.  This module
says what the regime of an impulse tells about its polar coordinates, and reduces the evaluation
of a contact on three coordinates to the potential of the scaled impulse.

**Results.**
* `Regime.ofImpulse_cases`: length, side and angle of an impulse decide its regime.
* `Regime.sliding_of_ofImpulse`: angle, bands and polar coordinates of a sliding impulse.
* `ConeParameters.impulse_eq`, `ConeParameters.project_eq`, `ConeParameters.cost_eq`: no
  evaluation on three coordinates is refused, and each is that of the potential.
-/

namespace ConvexContact

section Coordinates

namespace ConeParameters

variable {α : Type} [Scalar α]
variable (hoperand : ∀ x : α, Scalar.operand x = .ok x) (hone : ∀ x : α, 1 * x = x)
variable (p : ConeParameters α) (y R : ContactVector α)

section Scaling

include hoperand

/-- Where every number can be computed with, no impulse with three coordinates is refused. -/
theorem scale_toList :
    let z : ContactVector α :=
      ⟨Scalar.sqrt R.t₁ * y.t₁, Scalar.sqrt R.t₂ * y.t₂, Scalar.sqrt R.n * y.n⟩
    p.scale y.toList R.toList =
      .ok ⟨(R.toList.map Scalar.sqrt), z.toList, z, Regime.ofImpulse p (R.t₁ / R.n) z⟩ := by
  intro z
  have hregime : p.regimeOf R.toList z = .ok (Regime.ofImpulse p (R.t₁ / R.n) z) := by
    unfold regimeOf Regime.ofImpulse
    split_ifs with hnegligible hfrictionless
    · rfl
    · rfl
    · rw [hoperand, Outcome.ok_bind]
      change (Scalar.operand p.width >>= _) = _
      rw [hoperand, Outcome.ok_bind]
  unfold scale
  dsimp only
  rw [Vec.broadcast_of_length_eq _ (by rfl), Outcome.ok_bind]
  change (p.regimeOf R.toList z >>= _) = _
  rw [hregime, Outcome.ok_bind]
  rfl

theorem cost_toList :
    let z : ContactVector α :=
      ⟨Scalar.sqrt R.t₁ * y.t₁, Scalar.sqrt R.t₂ * y.t₂, Scalar.sqrt R.n * y.n⟩
    p.cost y.toList R.toList = .ok ((Regime.ofImpulse p (R.t₁ / R.n) z).cost z) := by
  intro z
  unfold cost
  rw [scale_toList hoperand, Outcome.ok_bind]

end Scaling

include hone

/-- The gradient as a list has the coordinates of the gradient. -/
theorem gradient_toList
    (roots : List α) (z : ContactVector α) (regime : Regime α) :
    Scaled.gradient ⟨roots, z.toList, z, regime⟩ = (regime.gradient z).toList := by
  cases regime <;>
    simp [Scaled.gradient, Regime.factor?, Regime.gradient, ContactVector.toList,
      ContactVector.smul, hone]

include hoperand

theorem impulse_toList :
    let z : ContactVector α :=
      ⟨Scalar.sqrt R.t₁ * y.t₁, Scalar.sqrt R.t₂ * y.t₂, Scalar.sqrt R.n * y.n⟩
    let g := (Regime.ofImpulse p (R.t₁ / R.n) z).gradient z
    p.impulse y.toList R.toList =
      .ok [g.t₁ / Scalar.sqrt R.t₁, g.t₂ / Scalar.sqrt R.t₂, g.n / Scalar.sqrt R.n] := by
  intro z g
  unfold impulse
  rw [scale_toList hoperand, Outcome.ok_bind]
  unfold Scaled.impulse
  rw [gradient_toList hone]
  exact Vec.broadcast_of_length_eq _ (by rfl)

theorem project_toList
    (format : Format) :
    let z : ContactVector α :=
      ⟨Scalar.sqrt R.t₁ * y.t₁, Scalar.sqrt R.t₂ * y.t₂, Scalar.sqrt R.n * y.n⟩
    let r := Regime.ofImpulse p (R.t₁ / R.n) z
    let g := r.gradient z
    let root (i : ℕ) : α := (R.toList.map Scalar.sqrt).getD i 0
    p.project format y.toList R.toList =
      .ok ([g.t₁ / Scalar.sqrt R.t₁, g.t₂ / Scalar.sqrt R.t₂, g.n / Scalar.sqrt R.n],
        DenseMatrix.tabulate format 3 3 fun i j =>
          ((r.hessian z).rows.getD i []).getD j 0 * root j / root i) := by
  intro z r g root
  have himpulse := impulse_toList hoperand hone p y R
  unfold impulse at himpulse
  unfold project
  rw [scale_toList hoperand, Outcome.ok_bind] at himpulse ⊢
  rw [himpulse, Outcome.ok_bind]
  rfl

end ConeParameters

end Coordinates

section Regimes

variable [Threshold]

namespace ConeParameters

/-- Parameters without a flaw are those in their ranges. -/
theorem flaw?_eq_none_iff
    (p : ConeParameters ℝ) :
    p.flaw? = none ↔
      0 ≤ p.friction ∧ 0 < p.stiffness ∧ 0 ≤ p.dissipation ∧ 0 < p.beta ∧ 0 < p.sigma ∧
        0 ≤ p.width ∧ p.width < Real.pi / 8 := by
  unfold flaw?
  split_ifs <;> simp_all

theorem validate_of_flaw?_eq_none
    {p : ConeParameters ℝ}
    (h : p.flaw? = none) :
    p.validate = .ok p := by
  unfold validate
  rw [h]

/-- A contact of which only the material is given has no flaw if the material has none. -/
theorem flaw?_ofMaterial
    {friction stiffness dissipation : ℝ}
    (hfriction : 0 ≤ friction)
    (hstiffness : 0 < stiffness)
    (hdissipation : 0 ≤ dissipation) :
    (ofMaterial friction stiffness dissipation).flaw? = none := by
  have hpi := Real.pi_gt_three
  rw [flaw?_eq_none_iff]
  simp only [ofMaterial, Exact.ofNat_one, Exact.ofNat_ofNat]
  exact ⟨hfriction, hstiffness, hdissipation, by norm_num, by norm_num, by norm_num, by linarith⟩

/-- Accepted parameters have no flaw. -/
theorem flaw?_of_validate
    {p q : ConeParameters ℝ}
    (h : p.validate = .ok q) :
    p.flaw? = none := by
  unfold validate at h
  split at h
  · cases h
  · assumption

end ConeParameters

namespace ContactVector

theorem tangentialNorm_eq
    (z : ContactVector ℝ) :
    z.tangentialNorm = √(z.t₁ ^ 2 + z.t₂ ^ 2) := by
  have hsq : z.t₁ * z.t₁ + z.t₂ * z.t₂ = z.t₁ ^ 2 + z.t₂ ^ 2 := by
    ring
  unfold tangentialNorm
  simp only [Exact.ofNat_zero, Exact.sqrt_eq]
  split_ifs with h
  · exact congrArg Real.sqrt hsq
  · have hnonneg : 0 ≤ z.t₁ * z.t₁ + z.t₂ * z.t₂ :=
      add_nonneg (mul_self_nonneg _) (mul_self_nonneg _)
    have hzero : z.t₁ ^ 2 + z.t₂ ^ 2 = 0 := by
      rw [← hsq]
      exact le_antisymm (not_lt.1 h) hnonneg
    rw [hzero, Real.sqrt_zero, ← hzero]
    exact hsq

theorem tangentialNorm_nonneg
    (z : ContactVector ℝ) :
    0 ≤ z.tangentialNorm := by
  rw [tangentialNorm_eq]
  exact Real.sqrt_nonneg _

theorem normSquared_eq
    (z : ContactVector ℝ) :
    z.normSquared = z.tangentialNorm ^ 2 + z.n ^ 2 := by
  rw [pow_two, pow_two]
  rfl

end ContactVector

namespace Regime

/-- Half the opening angle of a cone with friction is acute. -/
theorem openingAngle_mem
    {p : ConeParameters ℝ} {ratio : ℝ}
    (hfriction : 0 < p.friction)
    (hratio : 0 < ratio) :
    0 < openingAngle p ratio ∧ openingAngle p ratio < Real.pi / 2 := by
  have hpos : 0 < p.friction * √ratio :=
    mul_pos hfriction (Real.sqrt_pos.2 hratio)
  exact ⟨Real.arctan_pos.2 hpos, Real.arctan_lt_pi_div_two _⟩

theorem tan_openingAngle
    (p : ConeParameters ℝ) (ratio : ℝ) :
    Real.tan (openingAngle p ratio) = p.friction * √ratio :=
  Real.tan_arctan _

/-- The angle of an impulse outside the cone. -/
noncomputable def angle (p : ConeParameters ℝ) (ratio : ℝ) (z : ContactVector ℝ) : ℝ :=
  Complex.arg ⟨z.n, z.tangentialNorm⟩ - openingAngle p ratio

/-- Half the width of the band around the surface of the cone. -/
noncomputable def lowerWidth (p : ConeParameters ℝ) (ratio : ℝ) : ℝ :=
  min p.width (Scalar.half * openingAngle p ratio)

/-- The width of the band before the polar cone. -/
noncomputable def upperWidth (p : ConeParameters ℝ) (ratio : ℝ) : ℝ :=
  min p.width (openingAngle p ratio)

theorem lowerWidth_eq
    (p : ConeParameters ℝ) (ratio : ℝ) :
    lowerWidth p ratio = min p.width (openingAngle p ratio / 2) := by
  rw [lowerWidth, Exact.half_eq, one_div_mul_eq_div]

theorem lowerWidth_le
    (p : ConeParameters ℝ) (ratio : ℝ) :
    lowerWidth p ratio ≤ openingAngle p ratio / 2 := by
  rw [lowerWidth_eq]
  exact min_le_right _ _

theorem widths_of_width_eq_zero
    {p : ConeParameters ℝ} {ratio : ℝ}
    (hwidth : p.width = 0)
    (hfriction : 0 < p.friction)
    (hratio : 0 < ratio) :
    lowerWidth p ratio = 0 ∧ upperWidth p ratio = 0 := by
  obtain ⟨halpha, -⟩ := openingAngle_mem hfriction hratio
  rw [lowerWidth_eq, upperWidth, hwidth]
  exact ⟨min_eq_left (half_pos halpha).le, min_eq_left halpha.le⟩

theorem widths_nonneg
    {p : ConeParameters ℝ} {ratio : ℝ}
    (hfriction : 0 < p.friction)
    (hwidth : 0 ≤ p.width)
    (hratio : 0 < ratio) :
    0 ≤ lowerWidth p ratio ∧ 0 ≤ upperWidth p ratio := by
  obtain ⟨halpha, -⟩ := openingAngle_mem hfriction hratio
  rw [lowerWidth_eq]
  exact ⟨le_min hwidth (half_pos halpha).le, le_min hwidth halpha.le⟩

/-- The regime with friction, by the angle outside the cone and the widths of the two bands. -/
theorem ofAngle_eq
    (p : ConeParameters ℝ) (ratio : ℝ) (z : ContactVector ℝ) :
    ofAngle p ratio z =
      if angle p ratio z ≤ -lowerWidth p ratio then .stick
      else if Real.pi / 2 ≤ angle p ratio z then .separated
      else .slide (angle p ratio z) (lowerWidth p ratio) (upperWidth p ratio) := by
  unfold ofAngle
  simp only [Exact.pi_eq, Exact.half_eq, Exact.atMost_eq_min, Exact.atan2_eq, lowerWidth_eq,
    one_div_mul_eq_div]
  rfl

theorem ofImpulse_of_short
    (p : ConeParameters ℝ) (ratio : ℝ) {z : ContactVector ℝ}
    (hshort : z.normSquared ≤ Threshold.value) :
    ofImpulse p ratio z = .negligible := by
  have hnegligible : Negligible z :=
    hshort
  unfold ofImpulse
  rw [if_pos hnegligible]

/-- Without friction the sign of the normal part fixes the regime of a long impulse. -/
theorem ofImpulse_of_frictionless
    {p : ConeParameters ℝ} (ratio : ℝ) {z : ContactVector ℝ}
    (hfriction : p.friction = 0)
    (hlong : Threshold.value < z.normSquared) :
    ofImpulse p ratio z = if 0 < z.n then .compressed else .released := by
  have hnegligible : ¬ Negligible z :=
    not_le.2 hlong
  unfold ofImpulse ofSide
  rw [if_neg hnegligible, if_pos ((Exact.isZero_iff _).2 hfriction), Exact.ofNat_zero]

/-- With friction the angle outside the cone fixes the regime of a long impulse. -/
theorem ofImpulse_of_friction
    {p : ConeParameters ℝ} (ratio : ℝ) {z : ContactVector ℝ}
    (hfriction : 0 < p.friction)
    (hlong : Threshold.value < z.normSquared) :
    ofImpulse p ratio z =
      if angle p ratio z ≤ -lowerWidth p ratio then .stick
      else if Real.pi / 2 ≤ angle p ratio z then .separated
      else .slide (angle p ratio z) (lowerWidth p ratio) (upperWidth p ratio) := by
  have hnegligible : ¬ Negligible z :=
    not_le.2 hlong
  unfold ofImpulse
  rw [if_neg hnegligible, if_neg (mt (Exact.isZero_iff _).1 hfriction.ne'), ofAngle_eq]

/-- The regime depends on the squared length, the sign of the normal part and the angle alone. -/
theorem ofImpulse_congr
    {p : ConeParameters ℝ} {ratio : ℝ} {z z' : ContactVector ℝ}
    (hnegligible : Negligible z' ↔ Negligible z)
    (hside : 0 < z'.n ↔ 0 < z.n)
    (hangle : angle p ratio z' = angle p ratio z) :
    ofImpulse p ratio z' = ofImpulse p ratio z := by
  have hfrictionless : ofSide z' = ofSide z := by
    unfold ofSide
    simp only [Exact.ofNat_zero, hside]
  have hfriction : ofAngle p ratio z' = ofAngle p ratio z := by
    rw [ofAngle_eq, ofAngle_eq, hangle]
  unfold ofImpulse
  rw [hfrictionless, hfriction]
  exact if_congr hnegligible rfl rfl

/-- **What decides the regime of an impulse**: its length, without friction its side, with friction
its angle. -/
theorem ofImpulse_cases
    {p : ConeParameters ℝ} (ratio : ℝ) (z : ContactVector ℝ)
    (hfriction : 0 ≤ p.friction) :
    (z.normSquared ≤ Threshold.value ∧ ofImpulse p ratio z = .negligible) ∨
      (Threshold.value < z.normSquared ∧ p.friction = 0 ∧
        ofImpulse p ratio z = if 0 < z.n then .compressed else .released) ∨
      (Threshold.value < z.normSquared ∧ 0 < p.friction ∧
        ofImpulse p ratio z =
          if angle p ratio z ≤ -lowerWidth p ratio then .stick
          else if Real.pi / 2 ≤ angle p ratio z then .separated
          else .slide (angle p ratio z) (lowerWidth p ratio) (upperWidth p ratio)) := by
  rcases le_or_gt z.normSquared Threshold.value with hshort | hlong
  · exact .inl ⟨hshort, ofImpulse_of_short p ratio hshort⟩
  · right
    rcases hfriction.eq_or_lt with hzero | hpos
    · exact .inl ⟨hlong, hzero.symm, ofImpulse_of_frictionless ratio hzero.symm hlong⟩
    · exact .inr ⟨hlong, hpos, ofImpulse_of_friction ratio hpos hlong⟩

/-- What is known of an impulse that slides at the angle `phi` outside the cone, with bands of the
widths `lower` and `upper`. -/
structure Sliding
    (p : ConeParameters ℝ) (ratio : ℝ) (z : ContactVector ℝ) (phi lower upper : ℝ) : Prop where
  friction_pos : 0 < p.friction
  lower_eq : lower = min p.width (openingAngle p ratio / 2)
  upper_eq : upper = min p.width (openingAngle p ratio)
  neg_lower_lt : -lower < phi
  lt_pi_div_two : phi < Real.pi / 2
  rho_pos : 0 < √z.normSquared
  tangentialNorm_eq : z.tangentialNorm = √z.normSquared * Real.sin (phi + openingAngle p ratio)
  normal_eq : z.n = √z.normSquared * Real.cos (phi + openingAngle p ratio)

/-- Polar coordinates in the plane of tangential direction and normal. -/
theorem polar_coordinates
    {z : ContactVector ℝ}
    (hpos : 0 < z.normSquared) :
    z.tangentialNorm = √z.normSquared * Real.sin (Complex.arg ⟨z.n, z.tangentialNorm⟩) ∧
      z.n = √z.normSquared * Real.cos (Complex.arg ⟨z.n, z.tangentialNorm⟩) := by
  have hnorm : ‖(⟨z.n, z.tangentialNorm⟩ : ℂ)‖ = √z.normSquared := by
    rw [Complex.norm_def, Complex.normSq_mk, z.normSquared_eq]
    congr 1
    ring
  have hrho : 0 < √z.normSquared :=
    Real.sqrt_pos.2 hpos
  have hne : (⟨z.n, z.tangentialNorm⟩ : ℂ) ≠ 0 := by
    rw [← norm_pos_iff, hnorm]
    exact hrho
  constructor
  · rw [Complex.sin_arg, hnorm]
    field_simp
  · rw [Complex.cos_arg hne, hnorm]
    field_simp

/-- A long impulse between the band around the surface of the cone and the polar cone slides. -/
theorem sliding_of_angle
    {p : ConeParameters ℝ} {ratio : ℝ} {z : ContactVector ℝ}
    (hfriction : 0 < p.friction)
    (hlong : Threshold.value < z.normSquared)
    (hleft : -lowerWidth p ratio < angle p ratio z)
    (hright : angle p ratio z < Real.pi / 2) :
    Sliding p ratio z (angle p ratio z) (lowerWidth p ratio) (upperWidth p ratio) := by
  have hpos : 0 < z.normSquared :=
    Threshold.value_pos.trans hlong
  have hangle : angle p ratio z + openingAngle p ratio =
      Complex.arg ⟨z.n, z.tangentialNorm⟩ :=
    sub_add_cancel _ _
  obtain ⟨hsin, hcos⟩ := polar_coordinates hpos
  rw [← hangle] at hsin hcos
  exact
    { friction_pos := hfriction
      lower_eq := lowerWidth_eq p ratio
      upper_eq := rfl
      neg_lower_lt := hleft
      lt_pi_div_two := hright
      rho_pos := Real.sqrt_pos.2 hpos
      tangentialNorm_eq := hsin
      normal_eq := hcos }

/-- The regime of an impulse that slides determines its angle, its bands and its place. -/
theorem sliding_of_ofImpulse
    {p : ConeParameters ℝ} {ratio : ℝ} {z : ContactVector ℝ} {phi lower upper : ℝ}
    (hfriction : 0 ≤ p.friction)
    (h : ofImpulse p ratio z = .slide phi lower upper) :
    Sliding p ratio z phi lower upper := by
  obtain ⟨-, hregime⟩ | ⟨-, -, hregime⟩ | ⟨hlong, hpos, hregime⟩ := ofImpulse_cases ratio z hfriction
  · cases hregime.symm.trans h
  · rw [hregime] at h
    split_ifs at h
  · rw [hregime] at h
    split_ifs at h with hstick hseparated
    cases h
    exact sliding_of_angle hpos hlong (not_le.1 hstick) (not_le.1 hseparated)

/-- An impulse that sticks is not negligible, and its angle is at most that of the cone. -/
theorem arg_le_of_ofImpulse_eq_stick
    {p : ConeParameters ℝ} {ratio : ℝ} {z : ContactVector ℝ}
    (hvalid : p.flaw? = none)
    (h : ofImpulse p ratio z = .stick) :
    0 < p.friction ∧ 0 < z.normSquared ∧
      Complex.arg ⟨z.n, z.tangentialNorm⟩ ≤
        openingAngle p ratio - min p.width (openingAngle p ratio / 2) := by
  obtain ⟨hfriction, -⟩ := p.flaw?_eq_none_iff.1 hvalid
  obtain ⟨-, hregime⟩ | ⟨-, -, hregime⟩ | ⟨hlong, hpos, hregime⟩ := ofImpulse_cases ratio z hfriction
  · cases hregime.symm.trans h
  · rw [hregime] at h
    split_ifs at h
  · rw [hregime] at h
    split_ifs at h with hstick
    refine ⟨hpos, Threshold.value_pos.trans hlong, ?_⟩
    rw [lowerWidth_eq] at hstick
    unfold angle at hstick
    linarith

/-- An impulse on a contact without friction is compressed if its normal part is positive. -/
theorem normal_pos_of_ofImpulse_eq_compressed
    {p : ConeParameters ℝ} {ratio : ℝ} {z : ContactVector ℝ}
    (hvalid : p.flaw? = none)
    (h : ofImpulse p ratio z = .compressed) :
    p.friction = 0 ∧ 0 < z.n := by
  obtain ⟨hfriction, -⟩ := p.flaw?_eq_none_iff.1 hvalid
  obtain ⟨-, hregime⟩ | ⟨-, hzero, hregime⟩ | ⟨-, -, hregime⟩ := ofImpulse_cases ratio z hfriction
  · cases hregime.symm.trans h
  · rw [hregime] at h
    split_ifs at h with hside
    exact ⟨hzero, hside⟩
  · rw [hregime] at h
    split_ifs at h

namespace Sliding

variable {p : ConeParameters ℝ} {ratio : ℝ} {z : ContactVector ℝ} {phi lower upper : ℝ}

/-- A sliding impulse is neither normal nor opposite to the normal. -/
theorem sin_pos
    (hratio : 0 < ratio)
    (h : Sliding p ratio z phi lower upper) :
    0 < Real.sin (phi + openingAngle p ratio) := by
  obtain ⟨halpha₀, halpha⟩ := openingAngle_mem h.friction_pos hratio
  have hlower : lower ≤ openingAngle p ratio / 2 := by
    rw [h.lower_eq]
    exact min_le_right _ _
  have hleft := h.neg_lower_lt
  have hright := h.lt_pi_div_two
  exact Real.sin_pos_of_pos_of_lt_pi (by linarith) (by linarith)

theorem tangentialNorm_pos
    (hratio : 0 < ratio)
    (h : Sliding p ratio z phi lower upper) :
    0 < z.tangentialNorm := by
  rw [h.tangentialNorm_eq]
  exact mul_pos h.rho_pos (h.sin_pos hratio)

theorem sin_eq
    (h : Sliding p ratio z phi lower upper) :
    z.tangentialNorm / √z.normSquared = Real.sin (phi + openingAngle p ratio) := by
  rw [div_eq_iff h.rho_pos.ne', mul_comm]
  exact h.tangentialNorm_eq

theorem cos_eq
    (h : Sliding p ratio z phi lower upper) :
    z.n / √z.normSquared = Real.cos (phi + openingAngle p ratio) := by
  rw [div_eq_iff h.rho_pos.ne', mul_comm]
  exact h.normal_eq

/-- The factor of the tangential part of the gradient, for a profile `M`. -/
theorem across_eq
    (hratio : 0 < ratio)
    (h : Sliding p ratio z phi lower upper)
    (M : Jet ℝ) :
    (polar M z).across =
      (M.value * Real.sin (phi + openingAngle p ratio) +
        M.slope / 2 * Real.cos (phi + openingAngle p ratio)) /
          Real.sin (phi + openingAngle p ratio) := by
  have hsin := h.sin_pos hratio
  simp only [polar, Exact.half_eq, Exact.sqrt_eq, h.sin_eq, h.cos_eq]
  field_simp

/-- The normal part of the gradient of a unit impulse, for a profile `M`. -/
theorem h_eq
    (h : Sliding p ratio z phi lower upper)
    (M : Jet ℝ) :
    (polar M z).h =
      M.value * Real.cos (phi + openingAngle p ratio) -
        M.slope / 2 * Real.sin (phi + openingAngle p ratio) := by
  simp only [polar, Exact.half_eq, Exact.sqrt_eq, h.sin_eq, h.cos_eq]
  ring

end Sliding

end Regime

namespace ContactVector

/-- An impulse in scaled coordinates, for the diagonal regularization `R`. -/
noncomputable def scaled (y R : ContactVector ℝ) : ContactVector ℝ :=
  ⟨√R.t₁ * y.t₁, √R.t₂ * y.t₂, √R.n * y.n⟩

/-- The impulse with the given scaled coordinates. -/
noncomputable def unscaled (x R : ContactVector ℝ) : ContactVector ℝ :=
  ⟨x.t₁ / √R.t₁, x.t₂ / √R.t₂, x.n / √R.n⟩

/-- The squared length of a scaled impulse is that of the impulse in the norm of `R`. -/
theorem normSquared_scaled
    {R : ContactVector ℝ}
    (hR : 0 ≤ R.t₁ ∧ 0 ≤ R.t₂ ∧ 0 ≤ R.n)
    (y : ContactVector ℝ) :
    (y.scaled R).normSquared = R.t₁ * y.t₁ ^ 2 + R.t₂ * y.t₂ ^ 2 + R.n * y.n ^ 2 := by
  rw [normSquared_eq, tangentialNorm_eq, Real.sq_sqrt (by positivity)]
  simp only [scaled, mul_pow, Real.sq_sqrt hR.1, Real.sq_sqrt hR.2.1, Real.sq_sqrt hR.2.2]

/-- The coordinate at a position. -/
def entry (z : ContactVector ℝ) (i : ℕ) : ℝ :=
  z.toList.getD i 0

end ContactVector

/-- The entry of a matrix in the coordinates of a contact. -/
def ContactMatrix.entry (H : ContactMatrix ℝ) (i j : ℕ) : ℝ :=
  (H.rows.getD i []).getD j 0

namespace ConeParameters

/-- The regime of an impulse for the diagonal regularization `R`. -/
noncomputable def regimeAt (p : ConeParameters ℝ) (R y : ContactVector ℝ) : Regime ℝ :=
  Regime.ofImpulse p (R.t₁ / R.n) (y.scaled R)

/-- No impulse with three coordinates is refused in exact arithmetic. -/
theorem scale_eq
    (p : ConeParameters ℝ) (y R : ContactVector ℝ) :
    p.scale y.toList R.toList =
      .ok ⟨[√R.t₁, √R.t₂, √R.n], (y.scaled R).toList, y.scaled R, p.regimeAt R y⟩ :=
  scale_toList (fun _ => rfl) p y R

/-- The projected impulse is the gradient of the potential. -/
theorem impulse_eq
    (p : ConeParameters ℝ) (y R : ContactVector ℝ) :
    p.impulse y.toList R.toList =
      .ok (((p.regimeAt R y).gradient (y.scaled R)).unscaled R).toList :=
  impulse_toList (fun _ => rfl) Exact.one_mul_eq p y R

/-- The value of the potential. -/
theorem cost_eq
    (p : ConeParameters ℝ) (y R : ContactVector ℝ) :
    p.cost y.toList R.toList = .ok ((p.regimeAt R y).cost (y.scaled R)) :=
  cost_toList (fun _ => rfl) p y R

/-- The derivative of the projected impulse. -/
noncomputable def derivativeAt (p : ConeParameters ℝ) (format : Format)
    (R y : ContactVector ℝ) : DenseMatrix ℝ :=
  DenseMatrix.tabulate format 3 3 fun i j =>
    ((p.regimeAt R y).hessian (y.scaled R)).entry i j *
      [√R.t₁, √R.t₂, √R.n].getD j 0 / [√R.t₁, √R.t₂, √R.n].getD i 0

/-- The projection gives the impulse together with its derivative. -/
theorem project_eq
    (p : ConeParameters ℝ) (format : Format) (y R : ContactVector ℝ) :
    p.project format y.toList R.toList =
      .ok ((((p.regimeAt R y).gradient (y.scaled R)).unscaled R).toList,
        p.derivativeAt format R y) := by
  rw [project_toList (fun _ => rfl) Exact.one_mul_eq]
  unfold derivativeAt ContactMatrix.entry
  simp only [Exact.ofNat_zero]
  rfl

end ConeParameters

end Regimes

end ConvexContact
