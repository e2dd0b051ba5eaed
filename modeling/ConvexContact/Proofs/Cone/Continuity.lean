import Mathlib
import ConvexContact.Proofs.Contacts
import ConvexContact.Proofs.Cone.Smoothness

/-!
# Continuity of the projection

An impulse that is not negligible has an angle, and the angle depends continuously on the impulse.
With the profile on the whole line (`Regime.profileAt`), one formula gives the gradient of the
potential in all regimes of a contact with friction, and one its second derivative.  Both are
continuous except at impulses along the normal; near these the regime does not change
(`Regime.eventually_regime`).

**Result.**  `Constraint.profile_smooth`: the profile is twice continuously differentiable and falls
from one to zero, the cost is at most half the squared length of the impulse, and the projected
impulse and its derivative are continuous.
-/

namespace ConvexContact

open Filter Topology

section Varying

variable {X : Type} [TopologicalSpace X]

/-- The coordinates of a family of vectors are continuous at `x`. -/
structure ContactVector.VariesContinuously (z : X → ContactVector ℝ) (x : X) : Prop where
  t₁ : ContinuousAt (fun w => (z w).t₁) x
  t₂ : ContinuousAt (fun w => (z w).t₂) x
  n : ContinuousAt (fun w => (z w).n) x

/-- The entries of a family of matrices are continuous at `x`. -/
structure ContactMatrix.VariesContinuously (H : X → ContactMatrix ℝ) (x : X) : Prop where
  t₁t₁ : ContinuousAt (fun w => (H w).t₁t₁) x
  t₁t₂ : ContinuousAt (fun w => (H w).t₁t₂) x
  t₂t₂ : ContinuousAt (fun w => (H w).t₂t₂) x
  t₁n : ContinuousAt (fun w => (H w).t₁n) x
  t₂n : ContinuousAt (fun w => (H w).t₂n) x
  nn : ContinuousAt (fun w => (H w).nn) x

/-- The parts of a family of jets are continuous at `x`. -/
structure Jet.VariesContinuously (M : X → Jet ℝ) (x : X) : Prop where
  value : ContinuousAt (fun w => (M w).value) x
  slope : ContinuousAt (fun w => (M w).slope) x
  curvature : ContinuousAt (fun w => (M w).curvature) x

/-- The polar quantities that gradient and second derivative are made of are continuous at `x`. -/
structure Regime.Polar.VariesContinuously (q : X → Regime.Polar ℝ) (x : X) : Prop where
  across : ContinuousAt (fun w => (q w).across) x
  h : ContinuousAt (fun w => (q w).h) x
  rr : ContinuousAt (fun w => (q w).rr) x
  rn : ContinuousAt (fun w => (q w).rn) x
  nn : ContinuousAt (fun w => (q w).nn) x

variable {x : X}

theorem ContactVector.VariesContinuously.congr
    {y z : X → ContactVector ℝ}
    (hz : VariesContinuously z x)
    (h : ∀ᶠ w in 𝓝 x, y w = z w) :
    VariesContinuously y x where
  t₁ := hz.t₁.congr (h.mono fun _ hw => congrArg ContactVector.t₁ hw.symm)
  t₂ := hz.t₂.congr (h.mono fun _ hw => congrArg ContactVector.t₂ hw.symm)
  n := hz.n.congr (h.mono fun _ hw => congrArg ContactVector.n hw.symm)

theorem ContactMatrix.VariesContinuously.congr
    {G H : X → ContactMatrix ℝ}
    (hH : VariesContinuously H x)
    (h : ∀ᶠ w in 𝓝 x, G w = H w) :
    VariesContinuously G x where
  t₁t₁ := hH.t₁t₁.congr (h.mono fun _ hw => congrArg ContactMatrix.t₁t₁ hw.symm)
  t₁t₂ := hH.t₁t₂.congr (h.mono fun _ hw => congrArg ContactMatrix.t₁t₂ hw.symm)
  t₂t₂ := hH.t₂t₂.congr (h.mono fun _ hw => congrArg ContactMatrix.t₂t₂ hw.symm)
  t₁n := hH.t₁n.congr (h.mono fun _ hw => congrArg ContactMatrix.t₁n hw.symm)
  t₂n := hH.t₂n.congr (h.mono fun _ hw => congrArg ContactMatrix.t₂n hw.symm)
  nn := hH.nn.congr (h.mono fun _ hw => congrArg ContactMatrix.nn hw.symm)

theorem ContactMatrix.variesContinuously_const
    (H : ContactMatrix ℝ) (x : X) :
    VariesContinuously (fun _ => H) x :=
  ⟨continuousAt_const, continuousAt_const, continuousAt_const, continuousAt_const,
    continuousAt_const, continuousAt_const⟩

/-- Smooth jets at an angle that varies continuously. -/
theorem Jet.SmoothAt.variesContinuously
    {J : ℝ → Jet ℝ} {phi : X → ℝ}
    (hJ : SmoothAt J (phi x))
    (hphi : ContinuousAt phi x) :
    Jet.VariesContinuously (fun w => J (phi w)) x where
  value := hJ.value.continuousAt.comp hphi
  slope := hJ.slope.continuousAt.comp hphi
  curvature := hJ.curvature.comp hphi

end Varying

namespace Regime

variable [Threshold]

section Polar

variable {p : ConeParameters ℝ} {ratio : ℝ} {z : ContactVector ℝ}

/-- The gradient of the potential with the profile `M`. -/
noncomputable def polarGradient (M : Jet ℝ) (z : ContactVector ℝ) : ContactVector ℝ :=
  ⟨(polar M z).across * z.t₁, (polar M z).across * z.t₂, √z.normSquared * (polar M z).h⟩

/-- The second derivative of the potential with the profile `M`. -/
noncomputable def polarHessian (M : Jet ℝ) (z : ContactVector ℝ) : ContactMatrix ℝ :=
  let q := polar M z
  let u₁ := z.t₁ / z.tangentialNorm
  let u₂ := z.t₂ / z.tangentialNorm
  { t₁t₁ := q.across + (q.rr - q.across) * (u₁ * u₁)
    t₁t₂ := (q.rr - q.across) * (u₁ * u₂)
    t₂t₂ := q.across + (q.rr - q.across) * (u₂ * u₂)
    t₁n := q.rn * u₁
    t₂n := q.rn * u₂
    nn := q.nn }

/-- The polar quantities of the profile one. -/
theorem polar_one
    (hpos : 0 < z.normSquared) :
    (polar ⟨1, 0, 0⟩ z).across = 1 ∧ √z.normSquared * (polar ⟨1, 0, 0⟩ z).h = z.n ∧
      (polar ⟨1, 0, 0⟩ z).rr = 1 ∧ (polar ⟨1, 0, 0⟩ z).rn = 0 ∧ (polar ⟨1, 0, 0⟩ z).nn = 1 := by
  have hrho : √z.normSquared ≠ 0 :=
    (Real.sqrt_pos.2 hpos).ne'
  have hsquare : √z.normSquared ^ 2 = z.tangentialNorm ^ 2 + z.n ^ 2 := by
    rw [Real.sq_sqrt hpos.le, z.normSquared_eq]
  simp only [polar, Exact.half_eq, Exact.sqrt_eq]
  refine ⟨?_, ?_, ?_, ?_, ?_⟩
  · ring
  · field_simp
    ring
  · field_simp
    linarith
  · ring
  · field_simp
    linarith

/-- The polar quantities of the profile zero. -/
theorem polar_zero
    (z : ContactVector ℝ) :
    polar ⟨0, 0, 0⟩ z = ⟨0, 0, 0, 0, 0, 0⟩ := by
  simp [polar]

theorem narrow_widths
    (hfriction : 0 < p.friction)
    (hwidth₀ : 0 < p.width)
    (hwidth : p.width < Real.pi / 8)
    (hratio : 0 < ratio) :
    Profile.Narrow (lowerWidth p ratio) (upperWidth p ratio) := by
  obtain ⟨halpha, -⟩ := openingAngle_mem hfriction hratio
  exact
    { lower_pos := by
        rw [lowerWidth_eq]
        exact lt_min hwidth₀ (half_pos halpha)
      lower_lt := (min_le_left _ _).trans_lt hwidth
      upper_pos := lt_min hwidth₀ halpha
      upper_lt := (min_le_left _ _).trans_lt hwidth }

/-- The profile at the angle of an impulse. -/
noncomputable def profileAt (p : ConeParameters ℝ) (ratio : ℝ) (z : ContactVector ℝ) : Jet ℝ :=
  Profile.whole (lowerWidth p ratio) (upperWidth p ratio) (angle p ratio z)

theorem cost_eq_profileAt
    (hfriction : 0 < p.friction)
    (hlong : Threshold.value < z.normSquared) :
    cost z (ofImpulse p ratio z) = 1 / 2 * z.normSquared * (profileAt p ratio z).value := by
  rw [ofImpulse_of_friction ratio hfriction hlong, profileAt, Profile.whole_eq]
  split_ifs with hstick hseparated
  · simp [cost]
  · simp [cost]
  · simp [cost]

theorem gradient_eq_profileAt
    (hfriction : 0 < p.friction)
    (hlong : Threshold.value < z.normSquared) :
    gradient z (ofImpulse p ratio z) = polarGradient (profileAt p ratio z) z := by
  rw [ofImpulse_of_friction ratio hfriction hlong, profileAt, Profile.whole_eq]
  split_ifs with hstick hseparated
  · obtain ⟨hacross, hnormal, -⟩ := polar_one (Threshold.value_pos.trans hlong)
    rw [polarGradient, hacross, hnormal, one_mul, one_mul]
    rfl
  · rw [polarGradient, polar_zero]
    simp [gradient, ContactVector.smul]
  · rfl

theorem hessian_eq_profileAt
    (hfriction : 0 < p.friction)
    (hlong : Threshold.value < z.normSquared) :
    hessian z (ofImpulse p ratio z) = polarHessian (profileAt p ratio z) z := by
  rw [ofImpulse_of_friction ratio hfriction hlong, profileAt, Profile.whole_eq]
  split_ifs with hstick hseparated
  · obtain ⟨hacross, -, hrr, hrn, hnn⟩ := polar_one (Threshold.value_pos.trans hlong)
    simp only [polarHessian, hacross, hrr, hrn, hnn]
    simp [hessian, ContactMatrix.identity]
  · simp [polarHessian, polar_zero, hessian, ContactMatrix.zero]
  · rfl

/-- The value of the potential is between zero and half the squared length of the impulse. -/
theorem cost_mem
    (hfriction : 0 < p.friction)
    (hwidth₀ : 0 < p.width)
    (hwidth : p.width < Real.pi / 8)
    (hratio : 0 < ratio)
    (z : ContactVector ℝ) :
    0 ≤ cost z (ofImpulse p ratio z) ∧ cost z (ofImpulse p ratio z) ≤ 1 / 2 * z.normSquared := by
  have hsquare : 0 ≤ z.normSquared := by
    rw [z.normSquared_eq]
    positivity
  rcases le_or_gt z.normSquared Threshold.value with hshort | hlong
  · rw [ofImpulse_of_short p ratio hshort]
    simpa [cost] using hsquare
  · obtain ⟨hvalue₀, hvalue⟩ :=
      Profile.value_whole_mem (narrow_widths hfriction hwidth₀ hwidth hratio) (angle p ratio z)
    rw [cost_eq_profileAt hfriction hlong]
    exact ⟨mul_nonneg (by positivity) hvalue₀, mul_le_of_le_one_right (by positivity) hvalue⟩

/-- Off the band around the surface of the cone and the polar cone an impulse is not normal. -/
theorem tangentialNorm_pos_of_angle
    (hfriction : 0 < p.friction)
    (hratio : 0 < ratio)
    (hpos : 0 < z.normSquared)
    (hleft : -lowerWidth p ratio ≤ angle p ratio z)
    (hright : angle p ratio z ≤ Real.pi / 2) :
    0 < z.tangentialNorm := by
  obtain ⟨halpha₀, halpha⟩ := openingAngle_mem hfriction hratio
  obtain ⟨hsin, -⟩ := polar_coordinates hpos
  have hlower := lowerWidth_le p ratio
  unfold angle at hleft hright
  rw [hsin]
  apply mul_pos (Real.sqrt_pos.2 hpos)
  exact Real.sin_pos_of_pos_of_lt_pi (by linarith) (by linarith)

end Polar

section Continuous

variable {X : Type} [TopologicalSpace X] {z : X → ContactVector ℝ} {x : X}
variable {p : ConeParameters ℝ} {ratio : ℝ}

open ContactVector (VariesContinuously)

theorem continuousAt_tangentialNorm
    (hz : VariesContinuously z x) :
    ContinuousAt (fun w => (z w).tangentialNorm) x := by
  have h₁ := hz.t₁
  have h₂ := hz.t₂
  simp only [ContactVector.tangentialNorm_eq]
  fun_prop

theorem continuousAt_normSquared
    (hz : VariesContinuously z x) :
    ContinuousAt (fun w => (z w).normSquared) x := by
  have hnorm := continuousAt_tangentialNorm hz
  have hn := hz.n
  simp only [ContactVector.normSquared_eq]
  fun_prop

/-- The angle of an impulse varies continuously: the plane of the tangential length and the normal
part is cut along its lower half, where the tangential length would be negative. -/
theorem continuousAt_angle
    (p : ConeParameters ℝ) (ratio : ℝ)
    (hz : VariesContinuously z x)
    (hpos : 0 < (z x).normSquared) :
    ContinuousAt (fun w => angle p ratio (z w)) x := by
  have hplane : ContinuousAt (fun w => (⟨(z w).n, (z w).tangentialNorm⟩ : ℂ)) x :=
    Complex.equivRealProdCLM.symm.continuous.continuousAt.comp
      (hz.n.prodMk (continuousAt_tangentialNorm hz))
  have hupper : ∀ w, (⟨(z w).n, (z w).tangentialNorm⟩ : ℂ) ∈ {c : ℂ | 0 ≤ c.im} := fun w =>
    (z w).tangentialNorm_nonneg
  have harg : ContinuousWithinAt Complex.arg {c : ℂ | 0 ≤ c.im}
      ⟨(z x).n, (z x).tangentialNorm⟩ := by
    by_cases hslit : (⟨(z x).n, (z x).tangentialNorm⟩ : ℂ) ∈ Complex.slitPlane
    · exact (Complex.continuousAt_arg hslit).continuousWithinAt
    · rw [Complex.mem_slitPlane_iff, not_or, not_lt, not_not] at hslit
      obtain ⟨hn, htangential⟩ := hslit
      have hn' : (z x).n ≠ 0 := by
        intro hzero
        dsimp only at htangential
        rw [ContactVector.normSquared_eq, htangential, hzero] at hpos
        simp at hpos
      exact Complex.continuousWithinAt_arg_of_re_neg_of_im_zero (lt_of_le_of_ne hn hn') htangential
  unfold angle
  exact (harg.tendsto.comp
    (tendsto_nhdsWithin_iff.2 ⟨hplane, Eventually.of_forall hupper⟩)).sub_const _

/-- The polar quantities of an impulse with a tangential part vary continuously with the profile and
the impulse. -/
theorem variesContinuously_polar
    {M : X → Jet ℝ}
    (hM : Jet.VariesContinuously M x)
    (hz : VariesContinuously z x)
    (htangential : 0 < (z x).tangentialNorm) :
    Polar.VariesContinuously (fun w => polar (M w) (z w)) x := by
  have hlength : 0 < (z x).normSquared := by
    rw [ContactVector.normSquared_eq]
    positivity
  obtain ⟨hvalue, hslope, hcurvature⟩ := hM
  have hrho : ContinuousAt (fun w => √(z w).normSquared) x :=
    (continuousAt_normSquared hz).sqrt
  have hrho₀ : √(z x).normSquared ≠ 0 :=
    (Real.sqrt_pos.2 hlength).ne'
  have hsin : ContinuousAt (fun w => (z w).tangentialNorm / √(z w).normSquared) x :=
    (continuousAt_tangentialNorm hz).div hrho hrho₀
  have hsin₀ : (z x).tangentialNorm / √(z x).normSquared ≠ 0 :=
    div_ne_zero htangential.ne' hrho₀
  have hcos : ContinuousAt (fun w => (z w).n / √(z w).normSquared) x :=
    hz.n.div hrho hrho₀
  constructor <;> simp only [polar, Exact.half_eq, Exact.sqrt_eq]
  case across =>
    exact hvalue.add (((continuousAt_const.mul hslope).mul hcos).div hsin hsin₀)
  all_goals fun_prop

/-- The polar form of the gradient and of the second derivative varies continuously with the profile
and the impulse. -/
theorem variesContinuously_polarForm
    {M : X → Jet ℝ}
    (hM : Jet.VariesContinuously M x)
    (hz : VariesContinuously z x)
    (htangential : 0 < (z x).tangentialNorm) :
    VariesContinuously (fun w => polarGradient (M w) (z w)) x ∧
      ContactMatrix.VariesContinuously (fun w => polarHessian (M w) (z w)) x := by
  obtain ⟨hacross, hnormal, hrr, hrn, hnn⟩ := variesContinuously_polar hM hz htangential
  have hrho : ContinuousAt (fun w => √(z w).normSquared) x :=
    (continuousAt_normSquared hz).sqrt
  have hu₁ : ContinuousAt (fun w => (z w).t₁ / (z w).tangentialNorm) x :=
    hz.t₁.div (continuousAt_tangentialNorm hz) htangential.ne'
  have hu₂ : ContinuousAt (fun w => (z w).t₂ / (z w).tangentialNorm) x :=
    hz.t₂.div (continuousAt_tangentialNorm hz) htangential.ne'
  constructor
  · exact ⟨hacross.mul hz.t₁, hacross.mul hz.t₂, hrho.mul hnormal⟩
  · exact
      { t₁t₁ := hacross.add ((hrr.sub hacross).mul (hu₁.mul hu₁))
        t₁t₂ := (hrr.sub hacross).mul (hu₁.mul hu₂)
        t₂t₂ := hacross.add ((hrr.sub hacross).mul (hu₂.mul hu₂))
        t₁n := hrn.mul hu₁
        t₂n := hrn.mul hu₂
        nn := hnn }

/-- Near a long impulse the regime stays the same, or the impulse has a tangential part. -/
theorem eventually_regime
    (hfriction : 0 < p.friction)
    (hwidth₀ : 0 < p.width)
    (hwidth : p.width < Real.pi / 8)
    (hratio : 0 < ratio)
    (hz : VariesContinuously z x)
    (hlong : ∀ᶠ w in 𝓝 x, Threshold.value < (z w).normSquared) :
    (∀ᶠ w in 𝓝 x, ofImpulse p ratio (z w) = .stick) ∨
      (∀ᶠ w in 𝓝 x, ofImpulse p ratio (z w) = .separated) ∨
      0 < (z x).tangentialNorm := by
  have hpos : 0 < (z x).normSquared :=
    Threshold.value_pos.trans hlong.self_of_nhds
  have hangle := continuousAt_angle p ratio hz hpos
  have hlower := (narrow_widths hfriction hwidth₀ hwidth hratio).lower_pos
  rcases lt_or_ge (angle p ratio (z x)) (-lowerWidth p ratio) with hstick | hleft
  · left
    filter_upwards [hlong, hangle.eventually_lt_const hstick] with w hw hside
    rw [ofImpulse_of_friction ratio hfriction hw, if_pos (le_of_lt hside)]
  · rcases lt_or_ge (Real.pi / 2) (angle p ratio (z x)) with hseparated | hright
    · right
      left
      filter_upwards [hlong, hangle.eventually_const_lt hseparated] with w hw hside
      have hright : -lowerWidth p ratio < angle p ratio (z w) := by
        linarith [Real.pi_pos]
      rw [ofImpulse_of_friction ratio hfriction hw, if_neg hright.not_ge, if_pos (le_of_lt hside)]
    · right
      right
      exact tangentialNorm_pos_of_angle hfriction hratio hpos hleft hright

/-- **Gradient and second derivative of the potential are continuous** at a long impulse on a
contact with friction and smoothed bands. -/
theorem variesContinuously_ofImpulse
    (hfriction : 0 < p.friction)
    (hwidth₀ : 0 < p.width)
    (hwidth : p.width < Real.pi / 8)
    (hratio : 0 < ratio)
    (hz : VariesContinuously z x)
    (hlong : Threshold.value < (z x).normSquared) :
    VariesContinuously (fun w => gradient (z w) (ofImpulse p ratio (z w))) x ∧
      ContactMatrix.VariesContinuously (fun w => hessian (z w) (ofImpulse p ratio (z w))) x := by
  have hlong' : ∀ᶠ w in 𝓝 x, Threshold.value < (z w).normSquared :=
    (continuousAt_normSquared hz).eventually_const_lt hlong
  rcases eventually_regime hfriction hwidth₀ hwidth hratio hz hlong' with
    hstick | hseparated | htangential
  · have hgradient : ∀ᶠ w in 𝓝 x, gradient (z w) (ofImpulse p ratio (z w)) = z w := by
      filter_upwards [hstick] with w hw
      rw [hw]
      rfl
    have hhessian : ∀ᶠ w in 𝓝 x, hessian (z w) (ofImpulse p ratio (z w)) = .identity := by
      filter_upwards [hstick] with w hw
      rw [hw]
      rfl
    exact ⟨hz.congr hgradient,
      (ContactMatrix.variesContinuously_const .identity x).congr hhessian⟩
  · have hgradient : ∀ᶠ w in 𝓝 x, gradient (z w) (ofImpulse p ratio (z w)) = (z w).smul 0 := by
      filter_upwards [hseparated] with w hw
      rw [hw, gradient, Exact.ofNat_zero]
    have hhessian : ∀ᶠ w in 𝓝 x, hessian (z w) (ofImpulse p ratio (z w)) = .zero := by
      filter_upwards [hseparated] with w hw
      rw [hw]
      rfl
    have hzero : VariesContinuously (fun w => (z w).smul 0) x :=
      ⟨continuousAt_const.mul hz.t₁, continuousAt_const.mul hz.t₂, continuousAt_const.mul hz.n⟩
    exact ⟨hzero.congr hgradient,
      (ContactMatrix.variesContinuously_const .zero x).congr hhessian⟩
  · have hM : Jet.VariesContinuously (fun w => profileAt p ratio (z w)) x :=
      (Profile.smoothAt_whole (narrow_widths hfriction hwidth₀ hwidth hratio) _).variesContinuously
        (continuousAt_angle p ratio hz (Threshold.value_pos.trans hlong))
    obtain ⟨hgradient, hhessian⟩ := variesContinuously_polarForm hM hz htangential
    exact ⟨hgradient.congr (hlong'.mono fun w hw => gradient_eq_profileAt hfriction hw),
      hhessian.congr (hlong'.mono fun w hw => hessian_eq_profileAt hfriction hw)⟩

end Continuous

end Regime

namespace ContactVector

/-- Three numbers as the coordinates of a contact. -/
def ofFn (y : Fin 3 → ℝ) : ContactVector ℝ :=
  ⟨y 0, y 1, y 2⟩

theorem toList_ofFn
    (y : Fin 3 → ℝ) :
    (ofFn y).toList = List.ofFn y := by
  simp [ofFn, toList, List.ofFn_succ]

/-- The scaled impulse varies continuously with the impulse. -/
theorem variesContinuously_scaled
    (R : ContactVector ℝ) (y : Fin 3 → ℝ) :
    VariesContinuously (fun y => (ofFn y).scaled R) y where
  t₁ := continuousAt_const.mul (continuous_apply 0).continuousAt
  t₂ := continuousAt_const.mul (continuous_apply 1).continuousAt
  n := continuousAt_const.mul (continuous_apply 2).continuousAt

/-- The impulse varies continuously with the scaled impulse. -/
theorem VariesContinuously.coordinates_unscaled
    {X : Type} [TopologicalSpace X] {z : X → ContactVector ℝ} {x : X}
    (hz : VariesContinuously z x)
    (R : ContactVector ℝ) :
    ContinuousAt (fun w => Vec.coordinates 3 ((z w).unscaled R).toList) x := by
  rw [continuousAt_pi]
  intro i
  fin_cases i
  · exact hz.t₁.div_const _
  · exact hz.t₂.div_const _
  · exact hz.n.div_const _

end ContactVector

/-- The single entries of a matrix that varies continuously. -/
theorem ContactMatrix.VariesContinuously.entry
    {X : Type} [TopologicalSpace X] {H : X → ContactMatrix ℝ} {x : X}
    (hH : VariesContinuously H x)
    {i j : ℕ} (hi : i < 3) (hj : j < 3) :
    ContinuousAt (fun w => (H w).entry i j) x := by
  interval_cases i <;> interval_cases j
  exacts [hH.t₁t₁, hH.t₁t₂, hH.t₁n, hH.t₁t₂, hH.t₂t₂, hH.t₂n, hH.t₁n, hH.t₂n, hH.nn]

namespace Constraint

/-- **The smoothed projection.**  On a contact with friction and bands of positive width below
`π/8`, the profile is twice continuously differentiable with the coded derivatives, and it falls
from one to zero.  The cost is not negative and at most half the squared length of the impulse; if
the impulse is not negligible, it is that times the profile at the angle of the impulse.  Projected
impulse and derivative are continuous in the impulse where this is not negligible. -/
theorem profile_smooth
    [Threshold]
    {c : Constraint ℝ} {p : ConeParameters ℝ} {gap : ℝ} (hlaw : c.law = .frictionCone p gap)
    (hfriction : 0 < p.friction) (hwidth₀ : 0 < p.width) (hwidth : p.width < Real.pi / 8)
    (format : Format)
    {Rₜ Rₙ : ℝ} (hRₜ : 0 < Rₜ) (hRₙ : 0 < Rₙ) :
    let R : Tensor ℝ := Tensor.ofVec format [Rₜ, Rₜ, Rₙ]
    let lower := Regime.lowerWidth p (Rₜ / Rₙ)
    let upper := Regime.upperWidth p (Rₜ / Rₙ)
    let M := Profile.whole lower upper
    let phi := fun y : Fin 3 → ℝ =>
      Regime.angle p (Rₜ / Rₙ) ⟨√Rₜ * y 0, √Rₜ * y 1, √Rₙ * y 2⟩
    let square := fun y : Fin 3 → ℝ => Rₜ * y 0 ^ 2 + Rₜ * y 1 ^ 2 + Rₙ * y 2 ^ 2
    ContDiff ℝ 2 (fun t => (M t).value) ∧
      (∀ t, HasDerivAt (fun t => (M t).value) (M t).slope t ∧
        HasDerivAt (fun t => (M t).slope) (M t).curvature t) ∧
      (Antitone (fun t => (M t).value) ∧ (∀ t ≤ -lower, (M t).value = 1) ∧
        ∀ t, Real.pi / 2 ≤ t → (M t).value = 0) ∧
      (∀ y, ∃ a,
        c.costTensor (Tensor.ofVec format (List.ofFn y)) R = .ok (Tensor.ofScalar format a) ∧
          (0 ≤ a ∧ a ≤ 1 / 2 * square y) ∧
          (Threshold.value < square y → a = 1 / 2 * square y * (M (phi y)).value)) ∧
      ∃ γ : (Fin 3 → ℝ) → Fin 3 → ℝ, ∃ D : (Fin 3 → ℝ) → DenseMatrix ℝ,
        (∀ y, c.projectTensor (Tensor.ofVec format (List.ofFn y)) R =
          .ok (Tensor.ofVec format (List.ofFn (γ y)), Tensor.ofMatrix (D y))) ∧
          ContinuousOn γ {y | Threshold.value < square y} ∧
          ∀ i < 3, ∀ j < 3,
            ContinuousOn (fun y => (D y).get i j) {y | Threshold.value < square y} := by
  intro R lower upper M phi square
  let R' : ContactVector ℝ := ⟨Rₜ, Rₜ, Rₙ⟩
  have hratio : 0 < Rₜ / Rₙ :=
    div_pos hRₜ hRₙ
  have hsquare : ∀ y, ((ContactVector.ofFn y).scaled R').normSquared = square y := fun y =>
    ContactVector.normSquared_scaled ⟨hRₜ.le, hRₜ.le, hRₙ.le⟩ _
  have hnarrow : Profile.Narrow lower upper :=
    Regime.narrow_widths hfriction hwidth₀ hwidth hratio
  have hsmooth : ∀ t, Jet.SmoothAt M t :=
    Profile.smoothAt_whole hnarrow
  refine ⟨Jet.contDiff_of_smoothAt hsmooth, fun t => ⟨(hsmooth t).value, (hsmooth t).slope⟩,
    ⟨Profile.antitone_whole hnarrow, ?_, ?_⟩, ?_, ?_⟩
  · intro t ht
    exact congrArg Jet.value (Profile.whole_of_le upper ht)
  · intro t ht
    exact congrArg Jet.value (Profile.whole_of_ge hnarrow.lower_pos.le ht)
  · intro y
    refine ⟨(p.regimeAt R' (ContactVector.ofFn y)).cost ((ContactVector.ofFn y).scaled R'),
      ?_, ?_, ?_⟩
    · rw [← ContactVector.toList_ofFn]
      exact costTensor_ofVec hlaw format _ R'
    · rw [← hsquare]
      exact Regime.cost_mem hfriction hwidth₀ hwidth hratio _
    · intro hlong
      rw [← hsquare] at hlong ⊢
      exact Regime.cost_eq_profileAt hfriction hlong
  · have hcontinuous : ∀ y, Threshold.value < square y →
        ContactVector.VariesContinuously (fun y => (p.regimeAt R' (ContactVector.ofFn y)).gradient
          ((ContactVector.ofFn y).scaled R')) y ∧
        ContactMatrix.VariesContinuously (fun y => (p.regimeAt R' (ContactVector.ofFn y)).hessian
          ((ContactVector.ofFn y).scaled R')) y := by
      intro y hlong
      rw [← hsquare] at hlong
      exact Regime.variesContinuously_ofImpulse hfriction hwidth₀ hwidth hratio
        (ContactVector.variesContinuously_scaled R' y) hlong
    refine ⟨fun y => Vec.coordinates 3 (((p.regimeAt R' (ContactVector.ofFn y)).gradient
      ((ContactVector.ofFn y).scaled R')).unscaled R').toList,
      fun y => p.derivativeAt format R' (ContactVector.ofFn y), ?_, ?_, ?_⟩
    · intro y
      rw [← ContactVector.toList_ofFn, Vec.ofFn_coordinates (n := 3) rfl]
      exact projectTensor_ofVec hlaw format _ R'
    · intro y hlong
      exact ((hcontinuous y hlong).1.coordinates_unscaled R').continuousWithinAt
    · intro i hi j hj y hlong
      have hentry := (hcontinuous y hlong).2.entry hi hj
      simp only [ConeParameters.derivativeAt, DenseMatrix.get_tabulate _ _ _ _ hi hj]
      exact ((hentry.mul_const _).div_const _).continuousWithinAt

/-- The default bands. -/
theorem profile_smooth_ofMaterial :
    letI := Threshold.ofFormat .double
    let p := ConeParameters.ofMaterial (1 / 2 : ℝ) 1 0
    let c := Constraint.contact p 0 0 (DenseMatrix.identity .double 3) none
    let R : Tensor ℝ := Tensor.ofVec .double [1, 1, 2]
    let lower := Regime.lowerWidth p (1 / 2)
    let upper := Regime.upperWidth p (1 / 2)
    let M := Profile.whole lower upper
    let phi := fun y : Fin 3 → ℝ =>
      Regime.angle p (1 / 2) ⟨√1 * y 0, √1 * y 1, √2 * y 2⟩
    let square := fun y : Fin 3 → ℝ => 1 * y 0 ^ 2 + 1 * y 1 ^ 2 + 2 * y 2 ^ 2
    (c.law = .frictionCone p 0 ∧ 0 < p.friction ∧ 0 < p.width ∧ p.width < Real.pi / 8) ∧
      ((0 : ℝ) < 1 ∧ (0 : ℝ) < 2) ∧
      ContDiff ℝ 2 (fun t => (M t).value) ∧
      (∀ t, HasDerivAt (fun t => (M t).value) (M t).slope t ∧
        HasDerivAt (fun t => (M t).slope) (M t).curvature t) ∧
      (Antitone (fun t => (M t).value) ∧ (∀ t ≤ -lower, (M t).value = 1) ∧
        ∀ t, Real.pi / 2 ≤ t → (M t).value = 0) ∧
      (∀ y, ∃ a,
        c.costTensor (Tensor.ofVec .double (List.ofFn y)) R = .ok (Tensor.ofScalar .double a) ∧
          (0 ≤ a ∧ a ≤ 1 / 2 * square y) ∧
          (Threshold.value < square y → a = 1 / 2 * square y * (M (phi y)).value)) ∧
      ∃ γ : (Fin 3 → ℝ) → Fin 3 → ℝ, ∃ D : (Fin 3 → ℝ) → DenseMatrix ℝ,
        (∀ y, c.projectTensor (Tensor.ofVec .double (List.ofFn y)) R =
          .ok (Tensor.ofVec .double (List.ofFn (γ y)), Tensor.ofMatrix (D y))) ∧
          ContinuousOn γ {y | Threshold.value < square y} ∧
          ∀ i < 3, ∀ j < 3,
            ContinuousOn (fun y => (D y).get i j) {y | Threshold.value < square y} := by
  let _ := Threshold.ofFormat .double
  intro p c R lower upper M phi square
  have hfriction : 0 < p.friction :=
    one_half_pos
  obtain ⟨hwidth₀, hwidth⟩ : 0 < p.width ∧ p.width < Real.pi / 8 := by
    have hpi := Real.pi_gt_three
    simp only [p, ConeParameters.ofMaterial, Exact.ofNat_one, Exact.ofNat_ofNat]
    constructor
    · norm_num
    · linarith
  exact ⟨⟨rfl, hfriction, hwidth₀, hwidth⟩, ⟨one_pos, two_pos⟩,
    profile_smooth (c := c) rfl hfriction hwidth₀ hwidth .double one_pos two_pos⟩

end Constraint
end ConvexContact
