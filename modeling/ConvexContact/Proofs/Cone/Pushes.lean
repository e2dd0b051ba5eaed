import Mathlib
import ConvexContact.Proofs.Cone.Curvature

/-!
# Impulses along the normal

An impulse without tangential part never slides.  If it pulls it lies in the polar cone and is
dropped; if it pushes it lies in the cone and is kept, unless it is negligible.

**Results.**
* `Regime.ofImpulse_normal`: the regime of such an impulse.
* `ConeParameters.blockAt_normal`: its block in the second derivative, on normal velocities.
-/

namespace ConvexContact

variable [Threshold]

/-- An impulse along the normal. -/
def ContactVector.normal (s : ℝ) : ContactVector ℝ :=
  ⟨0, 0, s⟩

namespace ContactVector

theorem tangentialNorm_normal
    (s : ℝ) :
    (normal s).tangentialNorm = 0 := by
  rw [tangentialNorm_eq]
  simp [normal]

theorem normSquared_normal
    (s : ℝ) :
    (normal s).normSquared = s ^ 2 := by
  rw [normSquared_eq, tangentialNorm_normal]
  simp [normal]

omit [Threshold] in
theorem scaled_normal
    (s : ℝ) (R : ContactVector ℝ) :
    (normal s).scaled R = normal (√R.n * s) := by
  simp [scaled, normal]

omit [Threshold] in
theorem unscaled_normal
    (s : ℝ) (R : ContactVector ℝ) :
    (normal s).unscaled R = normal (s / √R.n) := by
  simp [unscaled, normal]

end ContactVector

namespace Regime

variable {p : ConeParameters ℝ} {r : Regime ℝ} {ratio s : ℝ}

/-- Regimes in which an impulse is dropped. -/
def Idle : Regime ℝ → Prop
  | negligible | released | separated => True
  | compressed | stick | slide _ _ _ => False

/-- Regimes in which an impulse along the normal is kept. -/
def Pressed : Regime ℝ → Prop
  | compressed | stick => True
  | negligible | released | separated | slide _ _ _ => False

/-- An impulse that is dropped contributes nothing. -/
theorem Idle.contribution
    (h : r.Idle)
    (z : ContactVector ℝ) :
    r.cost z = 0 ∧ r.gradient z = .normal 0 ∧ r.hessian z = .zero := by
  cases r <;> simp [Idle] at h <;>
    simp [cost, gradient, hessian, ContactVector.smul, ContactVector.normal]

/-- An impulse along the normal that is kept contributes half its square. -/
theorem Pressed.contribution
    (h : r.Pressed)
    (s : ℝ) :
    r.cost (.normal s) = 1 / 2 * s ^ 2 ∧ r.gradient (.normal s) = .normal s ∧
      ∀ x, (r.hessian (.normal s)).apply (.normal x) = .normal x := by
  cases r with
  | compressed =>
      refine ⟨?_, ?_, ?_⟩
      · simp only [cost, ContactVector.normal, Exact.half_eq]
        ring
      · simp [gradient, ContactVector.normal]
      · intro x
        simp [hessian, ContactMatrix.apply, ContactMatrix.normalOnly, ContactVector.normal]
  | stick =>
      refine ⟨?_, rfl, ?_⟩
      · simp only [cost, ContactVector.normSquared_normal, Exact.half_eq]
      · intro x
        simp [hessian, ContactMatrix.apply, ContactMatrix.identity, ContactVector.normal]
  | negligible => cases h
  | released => cases h
  | separated => cases h
  | slide => cases h

/-- A push along the normal is on the axis of the cone. -/
theorem angle_normal_of_nonneg
    (p : ConeParameters ℝ) (ratio : ℝ) {s : ℝ}
    (hs : 0 ≤ s) :
    angle p ratio (.normal s) = -openingAngle p ratio := by
  have harg : Complex.arg ⟨(ContactVector.normal s).n, 0⟩ = 0 :=
    Complex.arg_ofReal_of_nonneg hs
  rw [angle, ContactVector.tangentialNorm_normal, harg, zero_sub]

theorem angle_normal_of_neg
    (p : ConeParameters ℝ) (ratio : ℝ) {s : ℝ}
    (hs : s < 0) :
    angle p ratio (.normal s) = Real.pi - openingAngle p ratio := by
  have harg : Complex.arg ⟨(ContactVector.normal s).n, 0⟩ = Real.pi :=
    Complex.arg_ofReal_of_neg hs
  rw [angle, ContactVector.tangentialNorm_normal, harg]

/-- **The regime of an impulse along the normal.** -/
theorem ofImpulse_normal
    (hvalid : p.flaw? = none)
    (hratio : 0 < ratio)
    (s : ℝ) :
    (s ≤ 0 → (ofImpulse p ratio (.normal s)).Idle) ∧
      (0 < s → Threshold.value < s ^ 2 → (ofImpulse p ratio (.normal s)).Pressed) ∧
      ((ofImpulse p ratio (.normal s)).Idle ∨ (ofImpulse p ratio (.normal s)).Pressed) := by
  obtain ⟨hfriction, -, -, -, -, hwidth, -⟩ := p.flaw?_eq_none_iff.1 hvalid
  have hlength := ContactVector.normSquared_normal s
  obtain ⟨hshort, hregime⟩ | ⟨-, -, hregime⟩ | ⟨hlong, hpositive, hregime⟩ :=
    ofImpulse_cases ratio (.normal s) hfriction
  · rw [hregime]
    rw [hlength] at hshort
    exact ⟨fun _ => trivial, fun _ h => absurd h (not_lt.2 hshort), .inl trivial⟩
  · -- Without friction the sign of the normal part decides.
    rw [hregime]
    split_ifs with hs
    · exact ⟨fun h => absurd hs (not_lt.2 h), fun _ _ => trivial, .inr trivial⟩
    · exact ⟨fun _ => trivial, fun h => absurd h hs, .inl trivial⟩
  · -- With friction the angle to the normal is zero or two right angles.
    obtain ⟨halpha₀, halpha⟩ := openingAngle_mem hpositive hratio
    have hlower := lowerWidth_le p ratio
    obtain ⟨hlower₀, -⟩ := widths_nonneg hpositive hwidth hratio
    rw [hregime]
    rcases le_or_gt 0 s with hs | hs
    · rw [angle_normal_of_nonneg p ratio hs, if_pos (by linarith)]
      refine ⟨fun h => ?_, fun _ _ => trivial, .inr trivial⟩
      have hnil : s = 0 :=
        le_antisymm h hs
      rw [hlength, hnil, zero_pow two_ne_zero] at hlong
      exact absurd Threshold.value_pos hlong.not_gt
    · rw [angle_normal_of_neg p ratio hs, if_neg (by linarith), if_pos (by linarith)]
      exact ⟨fun _ => trivial, fun h => absurd h (not_lt.2 hs.le), .inl trivial⟩

end Regime

namespace ConeParameters

variable {p : ConeParameters ℝ} {R : ContactVector ℝ}

theorem regimeAt_normal
    (hvalid : p.flaw? = none)
    (hR : 0 < R.t₁ ∧ 0 < R.n)
    (s : ℝ) :
    (s ≤ 0 → (p.regimeAt R (.normal s)).Idle) ∧
      (0 < s → Threshold.value < R.n * s ^ 2 → (p.regimeAt R (.normal s)).Pressed) ∧
      ((p.regimeAt R (.normal s)).Idle ∨ (p.regimeAt R (.normal s)).Pressed) := by
  have hroot : 0 < √R.n :=
    Real.sqrt_pos.2 hR.2
  have hsquare : (√R.n * s) ^ 2 = R.n * s ^ 2 := by
    rw [mul_pow, Real.sq_sqrt hR.2.le]
  unfold regimeAt
  rw [ContactVector.scaled_normal]
  obtain ⟨hidle, hpressed, heither⟩ :=
    Regime.ofImpulse_normal hvalid (div_pos hR.1 hR.2) (√R.n * s)
  rw [hsquare] at hpressed
  exact ⟨fun h => hidle (mul_nonpos_of_nonneg_of_nonpos hroot.le h),
    fun h => hpressed (mul_pos hroot h), heither⟩

/-- A pull along the normal is dropped. -/
theorem contribution_pull
    (hvalid : p.flaw? = none)
    (hR : 0 < R.t₁ ∧ 0 < R.n)
    {s : ℝ} (hs : s ≤ 0) :
    (p.regimeAt R (.normal s)).cost ((ContactVector.normal s).scaled R) = 0 ∧
      ((p.regimeAt R (.normal s)).gradient ((ContactVector.normal s).scaled R)).unscaled R =
        .normal 0 := by
  obtain ⟨hcost, hgradient, -⟩ :=
    ((regimeAt_normal hvalid hR s).1 hs).contribution ((ContactVector.normal s).scaled R)
  rw [hcost, hgradient, ContactVector.unscaled_normal, zero_div]
  exact ⟨rfl, rfl⟩

/-- A push along the normal is kept. -/
theorem contribution_push
    (hvalid : p.flaw? = none)
    (hR : 0 < R.t₁ ∧ 0 < R.n)
    {s : ℝ} (hs : 0 < s)
    (hlong : Threshold.value < R.n * s ^ 2) :
    (p.regimeAt R (.normal s)).cost ((ContactVector.normal s).scaled R) =
        1 / 2 * (R.n * s ^ 2) ∧
      ((p.regimeAt R (.normal s)).gradient ((ContactVector.normal s).scaled R)).unscaled R =
        .normal s := by
  have hroot : √R.n ≠ 0 :=
    (Real.sqrt_pos.2 hR.2).ne'
  obtain ⟨hcost, hgradient, -⟩ :=
    ((regimeAt_normal hvalid hR s).2.1 hs hlong).contribution (√R.n * s)
  rw [ContactVector.scaled_normal, hcost, hgradient, ContactVector.unscaled_normal, mul_pow,
    Real.sq_sqrt hR.2.le, mul_div_cancel_left₀ _ hroot]
  exact ⟨rfl, rfl⟩

/-- The block of an impulse along the normal, on normal velocities: that of a spring, or zero. -/
theorem blockAt_normal
    (hvalid : p.flaw? = none)
    (hR : 0 < R.t₁ ∧ 0 < R.n)
    (format : Format) (s : ℝ) :
    ∃ h : ℝ, 0 ≤ h ∧ (0 < s → Threshold.value < R.n * s ^ 2 → h = 1) ∧
      ∀ x y : ℝ, Vec.dot (ContactVector.normal x).toList
        ((p.blockAt format R (.normal s)).mulVec (ContactVector.normal y).toList) =
          h * (x * y / R.n) := by
  have hsquare : √R.n * √R.n = R.n :=
    Real.mul_self_sqrt hR.2.le
  have hform : ∀ x y : ℝ, (ContactVector.normal (x / √R.n)).inner (.normal (y / √R.n)) =
      x * y / R.n := by
    intro x y
    simp only [ContactVector.inner, ContactVector.normal, mul_zero, zero_add]
    rw [div_mul_div_comm, hsquare]
  obtain ⟨-, hpressed, heither⟩ := regimeAt_normal hvalid hR s
  by_cases hkept : (p.regimeAt R (.normal s)).Pressed
  · refine ⟨1, zero_le_one, fun _ _ => rfl, fun x y => ?_⟩
    rw [inner_mulVec_blockAt, ContactVector.unscaled_normal, ContactVector.unscaled_normal,
      ContactVector.scaled_normal, (hkept.contribution _).2.2, hform, one_mul]
  · refine ⟨0, le_rfl, fun hs hlong => absurd (hpressed hs hlong) hkept, fun x y => ?_⟩
    obtain ⟨-, -, hhessian⟩ :=
      (heither.resolve_right hkept).contribution ((ContactVector.normal s).scaled R)
    rw [inner_mulVec_blockAt, hhessian]
    simp [ContactMatrix.zero, ContactMatrix.apply, ContactVector.inner]

end ConeParameters

end ConvexContact
