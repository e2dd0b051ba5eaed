import Mathlib
import ConvexContact.Proofs.Cone.Bands
import ConvexContact.Proofs.Cone.Regimes

/-!
# Projected impulses lie in the friction cone

**Result.**  `ConeParameters.project_mem_cone`: for parameters without a flaw, the projected
impulse has a nonnegative normal part, a tangential part of at most the friction coefficient times
the normal part, and the tangential direction of the unprojected impulse.

**Proof.**  In the regimes without a band the gradient of the potential is known outright.  For a
sliding impulse the bounds of the profile are turned by the opening angle of the cone.
-/

namespace ConvexContact

section Membership

variable [Threshold]

namespace Regime

/-- A gradient lies in the cone whose tangential part is at most `slope` times the normal part, on
the side of the impulse `z`. -/
structure InCone (slope : ℝ) (z x : ContactVector ℝ) : Prop where
  normal_nonneg : 0 ≤ x.n
  exists_factor :
    ∃ c, 0 ≤ c ∧ x.t₁ = c * z.t₁ ∧ x.t₂ = c * z.t₂ ∧ c * z.tangentialNorm ≤ slope * x.n

theorem inCone_zero
    (slope : ℝ) (z : ContactVector ℝ) :
    InCone slope z ⟨0, 0, 0⟩ :=
  ⟨le_rfl, 0, le_rfl, by simp, by simp, by simp⟩

/-- An impulse inside the band around the surface of its cone lies in the cone. -/
theorem inCone_of_stick
    {p : ConeParameters ℝ} {ratio : ℝ} {z : ContactVector ℝ}
    (hfriction : 0 < p.friction)
    (hratio : 0 < ratio)
    (hpos : 0 < z.normSquared)
    (hangle : Complex.arg ⟨z.n, z.tangentialNorm⟩ ≤ openingAngle p ratio) :
    InCone (p.friction * √ratio) z z := by
  obtain ⟨halpha₀, halpha⟩ := openingAngle_mem hfriction hratio
  obtain ⟨hsin, hcos⟩ := polar_coordinates hpos
  have htheta₀ : 0 ≤ Complex.arg ⟨z.n, z.tangentialNorm⟩ :=
    Complex.arg_nonneg_iff.2 z.tangentialNorm_nonneg
  have hrho : 0 < √z.normSquared :=
    Real.sqrt_pos.2 hpos
  set theta := Complex.arg ⟨z.n, z.tangentialNorm⟩
  have hcosine : 0 < Real.cos theta :=
    Real.cos_pos_of_mem_Ioo ⟨by linarith [Real.pi_pos], by linarith⟩
  have htan : Real.tan theta ≤ p.friction * √ratio := by
    rw [← tan_openingAngle]
    exact Real.strictMonoOn_tan.monotoneOn ⟨by linarith [Real.pi_pos], by linarith⟩
      ⟨by linarith [Real.pi_pos], by linarith⟩ hangle
  refine ⟨?_, 1, zero_le_one, by ring, by ring, ?_⟩
  · rw [hcos]
    positivity
  · rw [hsin, hcos, ← Real.tan_mul_cos hcosine.ne']
    have hpositive : 0 < √z.normSquared * Real.cos theta :=
      mul_pos hrho hcosine
    nlinarith

/-- A gradient that points into the cone has at most the tangential part that friction allows. -/
theorem tangential_le_of_pointsInward
    {p : ConeParameters ℝ} {ratio phi : ℝ} {M : Jet ℝ}
    (hfriction : 0 < p.friction)
    (hratio : 0 < ratio)
    (h : Profile.PointsInward M phi (openingAngle p ratio)) :
    M.value * Real.sin (phi + openingAngle p ratio) +
        M.slope / 2 * Real.cos (phi + openingAngle p ratio) ≤
      p.friction * √ratio * (M.value * Real.cos (phi + openingAngle p ratio) -
        M.slope / 2 * Real.sin (phi + openingAngle p ratio)) := by
  obtain ⟨halpha₀, halpha⟩ := openingAngle_mem hfriction hratio
  have hcosine : 0 < Real.cos (openingAngle p ratio) :=
    Real.cos_pos_of_mem_Ioo ⟨by linarith, halpha⟩
  set theta := phi + openingAngle p ratio with htheta
  have hphi : phi = theta - openingAngle p ratio := by
    rw [htheta, add_sub_cancel_right]
  have houtward := h.outward_nonpos
  rw [hphi, Real.sin_sub, Real.cos_sub] at houtward
  rw [← tan_openingAngle, Real.tan_eq_sin_div_cos, div_mul_eq_mul_div (Real.sin _),
    le_div_iff₀ hcosine]
  linarith

/-- The gradient of a sliding impulse lies in the cone. -/
theorem inCone_of_sliding
    {p : ConeParameters ℝ} {ratio : ℝ} {z : ContactVector ℝ} {phi lower upper : ℝ}
    (hvalid : p.flaw? = none)
    (hratio : 0 < ratio)
    (h : Sliding p ratio z phi lower upper) :
    InCone (p.friction * √ratio) z (gradient z (.slide phi lower upper)) := by
  obtain ⟨-, -, -, -, -, -, hwidth⟩ := p.flaw?_eq_none_iff.1 hvalid
  obtain ⟨halpha₀, halpha⟩ := openingAngle_mem h.friction_pos hratio
  have hinward :
      Profile.PointsInward (Profile.between phi lower upper) phi (openingAngle p ratio) := by
    rw [h.lower_eq, h.upper_eq]
    apply Profile.pointsInward_between hwidth halpha₀ halpha
    · rw [← h.lower_eq]
      exact h.neg_lower_lt
    · exact h.lt_pi_div_two
  set M := Profile.between phi lower upper
  set theta := phi + openingAngle p ratio
  have hsin : 0 < Real.sin theta :=
    h.sin_pos hratio
  -- The gradient in polar form, its tangential part `g` and its normal part `k`.
  set g := M.value * Real.sin theta + M.slope / 2 * Real.cos theta
  set k := M.value * Real.cos theta - M.slope / 2 * Real.sin theta
  have hacross : (polar M z).across = g / Real.sin theta :=
    h.across_eq hratio M
  have hnormal : (polar M z).h = k :=
    h.h_eq M
  have hg₀ : 0 ≤ g :=
    hinward.tangential_nonneg
  have hbound : g ≤ p.friction * √ratio * k :=
    tangential_le_of_pointsInward h.friction_pos hratio hinward
  have hk₀ : 0 ≤ k := by
    have hslope : 0 < p.friction * √ratio :=
      mul_pos h.friction_pos (Real.sqrt_pos.2 hratio)
    exact nonneg_of_mul_nonneg_right (le_trans hg₀ hbound) hslope
  refine ⟨?_, (polar M z).across, ?_, rfl, rfl, ?_⟩
  · change 0 ≤ √z.normSquared * (polar M z).h
    rw [hnormal]
    exact mul_nonneg h.rho_pos.le hk₀
  · rw [hacross]
    exact div_nonneg hg₀ hsin.le
  · change _ ≤ p.friction * √ratio * (√z.normSquared * (polar M z).h)
    rw [hacross, hnormal, h.tangentialNorm_eq]
    have hcancel : g / Real.sin theta * (√z.normSquared * Real.sin theta) = √z.normSquared * g := by
      field_simp
    rw [hcancel]
    nlinarith [mul_le_mul_of_nonneg_left hbound h.rho_pos.le]

/-- The gradient of the potential lies in the cone in every regime. -/
theorem inCone_ofImpulse
    {p : ConeParameters ℝ} {ratio : ℝ}
    (hvalid : p.flaw? = none)
    (hratio : 0 < ratio)
    (z : ContactVector ℝ) :
    InCone (p.friction * √ratio) z (gradient z (ofImpulse p ratio z)) := by
  cases hregime : ofImpulse p ratio z with
  | negligible =>
      simpa [gradient, ContactVector.smul] using inCone_zero _ z
  | released =>
      simpa [gradient, ContactVector.smul] using inCone_zero _ z
  | separated =>
      simpa [gradient, ContactVector.smul] using inCone_zero _ z
  | compressed =>
      obtain ⟨hfriction, hnormal⟩ := normal_pos_of_ofImpulse_eq_compressed hvalid hregime
      refine ⟨hnormal.le, 0, le_rfl, ?_, ?_, ?_⟩
      · simp [gradient]
      · simp [gradient]
      · simp [hfriction]
  | stick =>
      obtain ⟨hfriction, hpos, hangle⟩ := arg_le_of_ofImpulse_eq_stick hvalid hregime
      obtain ⟨-, -, -, -, -, hwidth, -⟩ := p.flaw?_eq_none_iff.1 hvalid
      have hlower : 0 ≤ min p.width (openingAngle p ratio / 2) :=
        le_min hwidth (half_pos (openingAngle_mem hfriction hratio).1).le
      exact inCone_of_stick hfriction hratio hpos (by linarith)
  | slide phi lower upper =>
      obtain ⟨hfriction, -⟩ := p.flaw?_eq_none_iff.1 hvalid
      exact inCone_of_sliding hvalid hratio (sliding_of_ofImpulse hfriction hregime)

end Regime

namespace ConeParameters

/-- **The projected impulse lies in the friction cone.**  For parameters without a flaw and any
regularization that is the same in both tangential directions, the projection is not refused; its
normal part is nonnegative, its tangential part is at most the friction coefficient times the
normal part, and a nonnegative multiple of the tangential part of the unprojected impulse. -/
theorem project_mem_cone
    (p : ConeParameters ℝ) (hvalid : p.validate = .ok p)
    (format : Format)
    (y₁ y₂ yₙ : ℝ)
    {Rₜ Rₙ : ℝ} (hRₜ : 0 < Rₜ) (hRₙ : 0 < Rₙ) :
    ∃ γ₁ γ₂ γₙ D,
      p.project format [y₁, y₂, yₙ] [Rₜ, Rₜ, Rₙ] = .ok ([γ₁, γ₂, γₙ], D) ∧
        0 ≤ γₙ ∧
        √(γ₁ ^ 2 + γ₂ ^ 2) ≤ p.friction * γₙ ∧
        ∃ c, 0 ≤ c ∧ γ₁ = c * y₁ ∧ γ₂ = c * y₂ := by
  let y : ContactVector ℝ := ⟨y₁, y₂, yₙ⟩
  let R : ContactVector ℝ := ⟨Rₜ, Rₜ, Rₙ⟩
  have hratio : 0 < Rₜ / Rₙ :=
    div_pos hRₜ hRₙ
  obtain ⟨hnormal, c, hc, h₁, h₂, hbound⟩ :=
    Regime.inCone_ofImpulse (flaw?_of_validate hvalid) hratio (y.scaled R)
  set x := Regime.gradient (y.scaled R) (Regime.ofImpulse p (Rₜ / Rₙ) (y.scaled R)) with hx
  have hrootₜ : 0 < √Rₜ :=
    Real.sqrt_pos.2 hRₜ
  have hrootₙ : 0 < √Rₙ :=
    Real.sqrt_pos.2 hRₙ
  have hγ₁ : x.t₁ / √Rₜ = c * y₁ := by
    rw [h₁, show (y.scaled R).t₁ = √Rₜ * y₁ from rfl]
    field_simp
  have hγ₂ : x.t₂ / √Rₜ = c * y₂ := by
    rw [h₂, show (y.scaled R).t₂ = √Rₜ * y₂ from rfl]
    field_simp
  refine
    ⟨x.t₁ / √Rₜ, x.t₂ / √Rₜ, x.n / √Rₙ, p.derivativeAt format R y, p.project_eq format y R,
      div_nonneg hnormal hrootₙ.le, ?_, c, hc, hγ₁, hγ₂⟩
  have hnorm : (y.scaled R).tangentialNorm = √Rₜ * √(y₁ ^ 2 + y₂ ^ 2) := by
    rw [ContactVector.tangentialNorm_eq, ← Real.sqrt_mul hRₜ.le]
    congr 1
    change (√Rₜ * y₁) ^ 2 + (√Rₜ * y₂) ^ 2 = _
    rw [mul_pow, mul_pow, Real.sq_sqrt hRₜ.le]
    ring
  have htangential :
      √((x.t₁ / √Rₜ) ^ 2 + (x.t₂ / √Rₜ) ^ 2) = c * √(y₁ ^ 2 + y₂ ^ 2) := by
    rw [hγ₁, hγ₂, ← Real.sqrt_sq hc, ← Real.sqrt_mul (sq_nonneg c), Real.sqrt_sq hc]
    congr 1
    ring
  rw [htangential]
  rw [hnorm, Real.sqrt_div hRₜ.le] at hbound
  have hcancel : p.friction * (√Rₜ / √Rₙ) * x.n = √Rₜ * (p.friction * (x.n / √Rₙ)) := by
    field_simp
  rw [hcancel] at hbound
  have hscaled : √Rₜ * (c * √(y₁ ^ 2 + y₂ ^ 2)) ≤ √Rₜ * (p.friction * (x.n / √Rₙ)) := by
    linarith
  exact le_of_mul_le_mul_left hscaled hrootₜ

end ConeParameters

end Membership

namespace ConeParameters

/-- An impulse that slides on a cone with the default bands. -/
theorem project_mem_cone_of_sliding :
    letI := Threshold.ofFormat .double
    (ofMaterial (1 / 2 : ℝ) 1 0).validate = .ok (ofMaterial (1 / 2) 1 0) ∧
      ∃ γ₁ γ₂ γₙ D,
        (ofMaterial (1 / 2 : ℝ) 1 0).project .double [3, 0, 1] [1, 1, 2] =
            .ok ([γ₁, γ₂, γₙ], D) ∧
          0 ≤ γₙ ∧
          √(γ₁ ^ 2 + γ₂ ^ 2) ≤ (ofMaterial (1 / 2 : ℝ) 1 0).friction * γₙ ∧
          ∃ c, 0 ≤ c ∧ γ₁ = c * 3 ∧ γ₂ = c * 0 := by
  let _ := Threshold.ofFormat .double
  have hvalid : (ofMaterial (1 / 2 : ℝ) 1 0).validate = .ok (ofMaterial (1 / 2) 1 0) :=
    validate_of_flaw?_eq_none (flaw?_ofMaterial one_half_pos.le one_pos le_rfl)
  exact ⟨hvalid, project_mem_cone _ hvalid .double 3 0 1 one_pos two_pos⟩

end ConeParameters

end ConvexContact
