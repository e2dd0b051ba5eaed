import Mathlib
import ConvexContact.Proofs.Collision
import ConvexContact.Proofs.Cone.Pushes
import ConvexContact.Proofs.Convexity
import ConvexContact.Proofs.Newton

/-!
# The impulse of a collision

**Evaluations.**  At velocities `x` and `y` of the bodies the contact is pushed along its normal by
`(bias - (y - x)) / R` (`Collision.push`).  A pull is dropped and a push is kept, so that gradient
and second derivative are those of two masses with a spring between them, or without one.

**Newton's method.**  The second derivative is nonsingular at all velocities.  From the free motion
the first step goes to the velocities after the impact; it decreases the cost by half of what the
slope promises, so that it is taken in full, and the gradient vanishes there.

**Result.**  `Collision.newton_solves`: the method returns the velocities after the impact.
-/

namespace ConvexContact

/-- Masses and time step are positive, and the parameters of the contact are in their ranges. -/
structure Collision.Valid [Threshold] (c : Collision) : Prop where
  firstMass_pos : 0 < c.firstMass
  secondMass_pos : 0 < c.secondMass
  timeStep_pos : 0 < c.timeStep
  flaw?_eq_none : c.parameters.flaw? = none

namespace Collision

/-- The relative velocity towards which the contact is driven. -/
noncomputable def bias (c : Collision) : ℝ :=
  -c.gap / (c.timeStep + c.parameters.dissipation)

/-- The inertia felt at the contact, for each of its three equations. -/
noncomputable def meanInertia (c : Collision) : ℝ :=
  c.inverseMass / (3 : ℕ)

/-- The normal regularization of the contact. -/
noncomputable def normalRegularization (c : Collision) : ℝ :=
  max (c.parameters.beta ^ 2 / ((4 : ℕ) * Real.pi ^ 2) * c.meanInertia)
    (1 / (c.timeStep * c.parameters.stiffness * (c.timeStep + c.parameters.dissipation)))

/-- The impulse between the bodies. -/
noncomputable def impulse (c : Collision) : ℝ :=
  max 0 (c.bias - (c.secondVelocity - c.firstVelocity)) / (c.inverseMass + c.normalRegularization)

/-- The velocities after the impact. -/
noncomputable def outcome (c : Collision) : List ℝ :=
  [c.firstVelocity - c.impulse / c.firstMass, c.secondVelocity + c.impulse / c.secondMass]

/-- How hard the contact is pushed at velocities of the bodies. -/
noncomputable def push (c : Collision) (x y : ℝ) : ℝ :=
  (c.bias - (y - x)) / c.normalRegularization

/-- The regularization of the contact. -/
noncomputable def compliance (c : Collision) : ContactVector ℝ :=
  ⟨c.parameters.sigma * c.meanInertia, c.parameters.sigma * c.meanInertia,
    c.normalRegularization⟩

/-- The contact with the inertia felt at it. -/
noncomputable def load (c : Collision) : Load :=
  ⟨c.contact, c.meanInertia⟩

section Evaluation

variable [Threshold] {c : Collision} {handle : ℕ}

theorem Valid.inverseMass_pos
    (hc : c.Valid) :
    0 < c.inverseMass :=
  Collision.inverseMass_pos hc.firstMass_pos hc.secondMass_pos

theorem Valid.normalRegularization_pos
    (hc : c.Valid) :
    0 < c.normalRegularization := by
  obtain ⟨-, hstiffness, hdissipation, -⟩ := c.parameters.flaw?_eq_none_iff.1 hc.flaw?_eq_none
  have htime := hc.timeStep_pos
  exact lt_max_of_lt_right (by positivity)

theorem Valid.compliance_pos
    (hc : c.Valid) :
    0 < c.compliance.t₁ ∧ 0 < c.compliance.n := by
  obtain ⟨-, -, -, -, hsigma, -⟩ := c.parameters.flaw?_eq_none_iff.1 hc.flaw?_eq_none
  exact ⟨mul_pos hsigma (div_pos hc.inverseMass_pos three_pos), hc.normalRegularization_pos⟩

theorem regularization_load
    (c : Collision) :
    c.load.regularization c.timeStep = c.compliance.toList := by
  have hrigid : c.parameters.beta * c.parameters.beta / (4 * Real.pi * Real.pi) =
      c.parameters.beta ^ 2 / ((4 : ℕ) * Real.pi ^ 2) := by
    rw [sq, sq, mul_assoc, Nat.cast_ofNat]
  unfold Load.regularization Constraint.diagonalAt
  simp only [load, contact, Constraint.contact, ConeParameters.diagonal, ConeParameters.hardness,
    Exact.larger_eq_max, Exact.inverse_eq, Exact.pi_eq, Exact.ofNat_ofNat, inv_eq_one_div, hrigid]
  rfl

/-- The impulse before the projection is along the normal. -/
theorem unprojected_load
    (c : Collision) (handle : ℕ) (x y : ℝ) :
    c.load.unprojected c.timeStep ((c.problem handle).localVelocity [x, y] c.contact) =
      (ContactVector.normal (c.push x y)).toList := by
  have hbias : c.load.bias c.timeStep = [0, 0, c.bias] := by
    change [_, _, _] = _
    rw [Exact.ofNat_zero]
    rfl
  unfold Load.unprojected
  rw [localVelocity_eq, hbias, regularization_load]
  simp only [Vec.sub, compliance, push, ContactVector.normal, ContactVector.toList,
    List.zipWith_cons_cons, List.zipWith_nil_left, List.cons.injEq, and_true]
  refine ⟨by simp, by simp, ?_⟩
  rw [neg_sub]

/-- What the contact contributes when it is pulled. -/
theorem contribution_pull
    (hc : c.Valid)
    (handle : ℕ)
    {x y : ℝ} (hpull : c.push x y ≤ 0) :
    (c.problem handle).costAt [x, y] c.load = 0 ∧
      (c.problem handle).impulseAt [x, y] c.load = [0, 0, 0] := by
  obtain ⟨hcost, himpulse, -⟩ := Load.contact_eq (x := c.load) rfl
    (c.unprojected_load handle x y) c.regularization_load .double
  obtain ⟨hcost', himpulse'⟩ :=
    ConeParameters.contribution_pull hc.flaw?_eq_none hc.compliance_pos hpull
  rw [himpulse'] at himpulse
  exact ⟨hcost.trans hcost', himpulse⟩

/-- What the contact contributes when it is pushed. -/
theorem contribution_push
    (hc : c.Valid)
    (handle : ℕ)
    {x y : ℝ} (hpush : 0 < c.push x y)
    (hlong : Threshold.value < c.normalRegularization * c.push x y ^ 2) :
    (c.problem handle).costAt [x, y] c.load =
        1 / 2 * (c.normalRegularization * c.push x y ^ 2) ∧
      (c.problem handle).impulseAt [x, y] c.load = [0, 0, c.push x y] := by
  obtain ⟨hcost, himpulse, -⟩ := Load.contact_eq (x := c.load) rfl
    (c.unprojected_load handle x y) c.regularization_load .double
  obtain ⟨hcost', himpulse'⟩ :=
    ConeParameters.contribution_push hc.flaw?_eq_none hc.compliance_pos hpush hlong
  rw [himpulse'] at himpulse
  exact ⟨hcost.trans hcost', himpulse⟩

open ContactModel

variable {m : ContactModel ℝ}

/-- The free motion of the bodies as a tensor. -/
theorem freeVelocityTensor_spec
    {w : List ℝ}
    (d : m.Describes (c.problem handle) w) :
    m.freeVelocityTensor.shape = [m.numVelocities] ∧ m.freeVelocityTensor.format = m.format ∧
      m.freeVelocityTensor.entries = [c.firstVelocity, c.secondVelocity] := by
  unfold freeVelocityTensor
  rw [freeVelocity_eq d, numVelocities_eq d, Tensor.shape_ofVec, Tensor.entries_ofVec]
  exact ⟨rfl, Tensor.format_ofVec _ _, rfl⟩

theorem momentumGain_eq
    {w : List ℝ}
    (d : m.Describes (c.problem handle) w)
    (x y : ℝ) :
    m.momentumGain [x, y] =
      [c.firstMass * (x - c.firstVelocity), c.secondMass * (y - c.secondVelocity)] := by
  unfold momentumGain
  rw [freeVelocity_eq d]
  exact dynamicsTimes_eq d _ _

/-- The generalized impulses are opposite. -/
theorem transposeMulVec_eq
    (d : m.Describes (c.problem handle) [c.inverseMass / 3])
    {x y γ : ℝ} (hγ : (c.problem handle).impulseAt [x, y] c.load = [0, 0, γ]) :
    m.bundle.jacobian.transposeMulVec
        ((m.edgeLoads (c.problem handle) [c.inverseMass / 3]).flatMap
          ((c.problem handle).impulseAt [x, y])) = [-γ, γ] := by
  apply Vec.eq_of_dot_eq (n := 2)
  · rw [d.regular_jacobian.length_transposeMulVec, d.numCols_jacobian]
    exact numVelocities_eq d
  · rfl
  · intro u hu
    obtain ⟨a, b, rfl⟩ := List.length_eq_two.1 hu
    have hdot := d.dot_transposeMulVec (W := [a, b]) (f := (c.problem handle).impulseAt [x, y])
      (fun l hl => d.length_impulseAt hl) rfl
    rw [gather_eq d] at hdot
    rw [hdot]
    change ([Vec.dot ((c.problem handle).localVelocity [a, b] c.contact)
      ((c.problem handle).impulseAt [x, y] c.load)]).sum = _
    rw [localVelocity_eq, hγ, List.sum_singleton]
    simp only [Vec.dot_cons, Vec.dot_nil_left]
    ring

/-- The cost of the model and its gradient, given those of the contact. -/
theorem evaluate_eq
    (d : m.Describes (c.problem handle) [c.inverseMass / 3])
    {x y γ : ℝ} (hγ : (c.problem handle).impulseAt [x, y] c.load = [0, 0, γ])
    (withDerivatives : Bool) :
    ∃ e, m.evaluate [x, y] withDerivatives = .ok e ∧
      e.cost = 1 / 2 * (c.firstMass * (x - c.firstVelocity) ^ 2 +
        c.secondMass * (y - c.secondVelocity) ^ 2) + (c.problem handle).costAt [x, y] c.load ∧
      e.gradient = [c.firstMass * (x - c.firstVelocity) + γ,
        c.secondMass * (y - c.secondVelocity) - γ] := by
  have hevaluate := d.evaluate_eq (V := [x, y]) rfl withDerivatives
  rw [gather_eq d, transposeMulVec_eq d hγ, momentumGain_eq d] at hevaluate
  refine ⟨_, hevaluate, ?_, ?_⟩
  · unfold CostEvaluation.cost momentumCost
    dsimp only
    rw [momentumGain_eq d, freeVelocity_eq d, Exact.half_eq]
    change 1 / 2 * Vec.dot [x - c.firstVelocity, y - c.secondVelocity] _ +
      ([(c.problem handle).costAt [x, y] c.load]).sum = _
    rw [List.sum_singleton]
    simp only [Vec.dot_cons, Vec.dot_nil_left]
    ring
  · simp only [Vec.sub, List.zipWith_cons_cons, List.zipWith_nil_left, sub_neg_eq_add]

/-- **The second derivative** is that of two masses with a spring between them, or without one. -/
theorem exists_hessian
    (hc : c.Valid)
    (d : m.Describes (c.problem handle) [c.inverseMass / 3])
    (x y : ℝ) :
    ∃ H, m.hessian [x, y] none = .ok H ∧ H.numRows = 2 ∧ ∃ h : ℝ, 0 ≤ h ∧
      (0 < c.push x y → Threshold.value < c.normalRegularization * c.push x y ^ 2 → h = 1) ∧
      ∀ a b a' b' : ℝ, Vec.dot [a, b] (H.mulVec [a', b']) =
        c.firstMass * (a * a') + c.secondMass * (b * b') +
          h * ((b - a) * (b' - a') / c.normalRegularization) := by
  have hv : [x, y].length = m.numVelocities :=
    (numVelocities_eq d).symm
  obtain ⟨V, hV, hgather, hhessian, -⟩ := d.hessian_eq hv
  obtain ⟨x', y', rfl⟩ := List.length_eq_two.1 (show V.length = 2 from hV)
  rw [gather_eq d] at hgather
  cases hgather
  have hrows := (d.shape_hessian hv hhessian).1
  rw [numVelocities_eq d] at hrows
  obtain ⟨h, hnonneg, hone, hblock⟩ := ConeParameters.blockAt_normal hc.flaw?_eq_none
    hc.compliance_pos m.bundle.format (c.push x y)
  refine ⟨_, hhessian, hrows, h, hnonneg, hone, ?_⟩
  intro a b a' b'
  have hform := d.dot_mulVec_hessianOf (V := [x, y]) m.bundle.format
    (show [a, b].length = (c.problem handle).numVelocities from rfl)
    (show [a', b'].length = (c.problem handle).numVelocities from rfl)
  rw [gather_eq d, gather_eq d, dynamicsTimes_eq d] at hform
  rw [hform]
  change _ + ([Vec.dot ((c.problem handle).localVelocity [a, b] c.contact)
    (((c.problem handle).hessianBlockAt m.bundle.format [x, y] c.load).mulVec
      ((c.problem handle).localVelocity [a', b'] c.contact))]).sum = _
  have hload : (c.problem handle).hessianBlockAt m.bundle.format [x, y] c.load =
      c.parameters.blockAt m.bundle.format c.compliance (.normal (c.push x y)) :=
    Load.hessianBlock_contact rfl (c.unprojected_load handle x y) c.regularization_load _
  rw [List.sum_singleton, hload, localVelocity_eq, localVelocity_eq]
  have hlocal := hblock (b - a) (b' - a')
  change Vec.dot [0, 0, b - a] (DenseMatrix.mulVec _ [0, 0, b' - a']) = _ at hlocal
  rw [hlocal]
  simp only [Vec.dot_cons, Vec.dot_nil_left, compliance]
  ring

/-- The second derivative is nonsingular everywhere. -/
theorem nonsingular_hessian
    (hc : c.Valid)
    (d : m.Describes (c.problem handle) [c.inverseMass / 3])
    {u : List ℝ} (hu : u.length = m.numVelocities)
    {H : DenseMatrix ℝ} (hH : m.hessian u none = .ok H) :
    H.Nonsingular := by
  rw [numVelocities_eq d] at hu
  obtain ⟨x, y, rfl⟩ := List.length_eq_two.1 hu
  obtain ⟨H', hH', hrows, h, hnonneg, -, hform⟩ := exists_hessian hc d x y
  cases hH.symm.trans hH'
  intro z hz hzero
  rw [hrows] at hz
  obtain ⟨a, b, rfl⟩ := List.length_eq_two.1 hz
  have hquadratic := hform a b a b
  rw [Vec.dot_comm, Vec.dot_eq_zero_of_forall hzero] at hquadratic
  have hfirst : 0 ≤ c.firstMass * (a * a) :=
    mul_nonneg hc.firstMass_pos.le (mul_self_nonneg a)
  have hsecond : 0 ≤ c.secondMass * (b * b) :=
    mul_nonneg hc.secondMass_pos.le (mul_self_nonneg b)
  have hspring : 0 ≤ h * ((b - a) * (b - a) / c.normalRegularization) :=
    mul_nonneg hnonneg (div_nonneg (mul_self_nonneg _) hc.normalRegularization_pos.le)
  have ha : c.firstMass * (a * a) = 0 := by
    linarith
  have hb : c.secondMass * (b * b) = 0 := by
    linarith
  rw [mul_eq_zero_iff_left hc.firstMass_pos.ne', mul_self_eq_zero] at ha
  rw [mul_eq_zero_iff_left hc.secondMass_pos.ne', mul_self_eq_zero] at hb
  simp [ha, hb]

end Evaluation

section Impact

variable [Threshold] {c : Collision} {handle : ℕ}

theorem Valid.totalMass_pos
    (hc : c.Valid) :
    0 < c.inverseMass + c.normalRegularization :=
  add_pos hc.inverseMass_pos hc.normalRegularization_pos

theorem Valid.impulse_nonneg
    (hc : c.Valid) :
    0 ≤ c.impulse :=
  div_nonneg (le_max_left _ _) hc.totalMass_pos.le

/-- The velocity that the impulse takes away from the approach, and the one that is left. -/
theorem Valid.approach_eq
    (hc : c.Valid)
    (hpos : 0 < c.impulse) :
    c.bias - (c.secondVelocity - c.firstVelocity) =
      c.impulse * (c.inverseMass + c.normalRegularization) := by
  have hsum := hc.totalMass_pos
  have hmax : 0 < max 0 (c.bias - (c.secondVelocity - c.firstVelocity)) :=
    (div_pos_iff_of_pos_right hsum).1 hpos
  rw [impulse, div_mul_cancel₀ _ hsum.ne', max_eq_right]
  exact (lt_max_iff.1 hmax).resolve_left (lt_irrefl 0) |>.le

/-- Without an impulse the free motion does not push the contact. -/
theorem Valid.push_free_nonpos
    (hc : c.Valid)
    (hzero : c.impulse = 0) :
    c.push c.firstVelocity c.secondVelocity ≤ 0 := by
  have hmax : max 0 (c.bias - (c.secondVelocity - c.firstVelocity)) = 0 :=
    (div_eq_zero_iff.1 hzero).resolve_right hc.totalMass_pos.ne'
  exact div_nonpos_of_nonpos_of_nonneg (max_eq_left_iff.1 hmax) hc.normalRegularization_pos.le

theorem Valid.push_free_eq
    (hc : c.Valid)
    (hpos : 0 < c.impulse) :
    c.push c.firstVelocity c.secondVelocity =
      c.impulse + c.impulse * c.inverseMass / c.normalRegularization := by
  have hregularization := hc.normalRegularization_pos.ne'
  rw [push, hc.approach_eq hpos]
  field_simp
  ring

/-- The free motion pushes the contact at least as hard as the impulse. -/
theorem Valid.push_free_long
    (hc : c.Valid)
    (hpos : 0 < c.impulse)
    (hlong : Threshold.value < c.normalRegularization * c.impulse ^ 2) :
    c.impulse ≤ c.push c.firstVelocity c.secondVelocity ∧
      Threshold.value <
        c.normalRegularization * c.push c.firstVelocity c.secondVelocity ^ 2 := by
  have hstronger : c.impulse ≤ c.push c.firstVelocity c.secondVelocity := by
    rw [hc.push_free_eq hpos]
    exact le_add_of_nonneg_right (div_nonneg (mul_nonneg hpos.le hc.inverseMass_pos.le)
      hc.normalRegularization_pos.le)
  exact ⟨hstronger, hlong.trans_le (mul_le_mul_of_nonneg_left
    (pow_le_pow_left₀ hpos.le hstronger 2) hc.normalRegularization_pos.le)⟩

/-- After the impact the contact is pushed as hard as the impulse. -/
theorem Valid.push_outcome
    (hc : c.Valid)
    (hpos : 0 < c.impulse) :
    c.push (c.firstVelocity - c.impulse / c.firstMass)
      (c.secondVelocity + c.impulse / c.secondMass) = c.impulse := by
  have happroach := hc.approach_eq hpos
  have hrelative : c.bias - (c.secondVelocity + c.impulse / c.secondMass -
      (c.firstVelocity - c.impulse / c.firstMass)) = c.impulse * c.normalRegularization := by
    rw [inverseMass] at happroach
    linear_combination happroach
  rw [push, hrelative, mul_div_cancel_right₀ _ hc.normalRegularization_pos.ne']

/-- The step from the free motion to the velocities after the impact. -/
noncomputable def step (c : Collision) : Descent :=
  ⟨[c.firstVelocity, c.secondVelocity], [-(c.impulse / c.firstMass), c.impulse / c.secondMass], 0⟩

theorem trial_step
    (c : Collision) :
    c.step.trial 0 = c.outcome := by
  rw [Descent.trial_eq, pow_zero]
  change [c.firstVelocity + 1 * -(c.impulse / c.firstMass),
    c.secondVelocity + 1 * (c.impulse / c.secondMass)] = _
  rw [one_mul, one_mul, ← sub_eq_add_neg]
  rfl

open ContactModel

variable {m : ContactModel ℝ}

/-- Cost and gradient at the free motion. -/
theorem evaluate_free
    (hc : c.Valid)
    (d : m.Describes (c.problem handle) [c.inverseMass / 3])
    (hpos : 0 < c.impulse)
    (hlong : Threshold.value < c.normalRegularization * c.impulse ^ 2)
    (withDerivatives : Bool) :
    let y := c.push c.firstVelocity c.secondVelocity
    ∃ e, m.evaluate [c.firstVelocity, c.secondVelocity] withDerivatives = .ok e ∧
      e.cost = 1 / 2 * (c.normalRegularization * y ^ 2) ∧ e.gradient = [y, -y] := by
  intro y
  obtain ⟨hstronger, hlonger⟩ := hc.push_free_long hpos hlong
  obtain ⟨hcost, himpulse⟩ :=
    contribution_push hc handle (hpos.trans_le hstronger) hlonger
  obtain ⟨e, he, hecost, hgradient⟩ := evaluate_eq d himpulse withDerivatives
  refine ⟨e, he, ?_, ?_⟩
  · rw [hecost, hcost, sub_self, sub_self]
    ring
  · rw [hgradient, sub_self, sub_self, mul_zero, mul_zero, zero_add, zero_sub]

/-- What the contact contributes after the impact. -/
theorem contribution_outcome
    (hc : c.Valid)
    (handle : ℕ)
    (hlong : 0 < c.impulse → Threshold.value < c.normalRegularization * c.impulse ^ 2) :
    (c.problem handle).costAt c.outcome c.load =
        1 / 2 * (c.normalRegularization * c.impulse ^ 2) ∧
      (c.problem handle).impulseAt c.outcome c.load = [0, 0, c.impulse] := by
  rcases hc.impulse_nonneg.eq_or_lt with hzero | hpos
  · have hfree : c.outcome = [c.firstVelocity, c.secondVelocity] := by
      rw [outcome, ← hzero, zero_div, zero_div, sub_zero, add_zero]
    obtain ⟨hcost, himpulse⟩ :=
      contribution_pull hc handle (hc.push_free_nonpos hzero.symm)
    rw [hfree, hcost, himpulse, ← hzero]
    exact ⟨by ring, rfl⟩
  · have hpush := hc.push_outcome hpos
    obtain ⟨hcost, himpulse⟩ := contribution_push hc handle
      (x := c.firstVelocity - c.impulse / c.firstMass)
      (y := c.secondVelocity + c.impulse / c.secondMass)
      (by rwa [hpush]) (by rw [hpush]; exact hlong hpos)
    rw [hpush] at hcost himpulse
    exact ⟨hcost, himpulse⟩

/-- Cost and gradient after the impact. -/
theorem evaluate_outcome
    (hc : c.Valid)
    (d : m.Describes (c.problem handle) [c.inverseMass / 3])
    (hlong : 0 < c.impulse → Threshold.value < c.normalRegularization * c.impulse ^ 2)
    (withDerivatives : Bool) :
    ∃ e, m.evaluate c.outcome withDerivatives = .ok e ∧
      e.cost = 1 / 2 * (c.impulse ^ 2 * (c.inverseMass + c.normalRegularization)) ∧
      e.gradient = [0, 0] := by
  have hfirst := hc.firstMass_pos.ne'
  have hsecond := hc.secondMass_pos.ne'
  obtain ⟨hcost, himpulse⟩ := contribution_outcome hc handle hlong
  obtain ⟨e, he, hecost, hgradient⟩ := evaluate_eq d himpulse withDerivatives
  refine ⟨e, he, ?_, ?_⟩
  · rw [hecost]
    change _ + (c.problem handle).costAt c.outcome c.load = _
    rw [hcost, inverseMass]
    field_simp
    ring
  · have hfirst' : c.firstMass * (c.firstVelocity - c.impulse / c.firstMass - c.firstVelocity) +
        c.impulse = 0 := by
      field_simp
      ring
    have hsecond' : c.secondMass *
        (c.secondVelocity + c.impulse / c.secondMass - c.secondVelocity) - c.impulse = 0 := by
      field_simp
      ring
    rw [hgradient, hfirst', hsecond']

/-- The gradient at the free motion is the push that it would give. -/
theorem gradientAt_free
    (hc : c.Valid)
    (d : m.Describes (c.problem handle) [c.inverseMass / 3])
    (hpos : 0 < c.impulse)
    (hlong : Threshold.value < c.normalRegularization * c.impulse ^ 2) :
    m.gradientAt c.step.start =
      [c.push c.firstVelocity c.secondVelocity, -c.push c.firstVelocity c.secondVelocity] := by
  obtain ⟨e, he, -, hgradient⟩ := evaluate_free hc d hpos hlong false
  change m.gradientAt [c.firstVelocity, c.secondVelocity] = _
  rw [gradientAt, he]
  exact hgradient

/-- The direction of the step solves the equation of Newton's method. -/
theorem newton_step
    (hc : c.Valid)
    (d : m.Describes (c.problem handle) [c.inverseMass / 3])
    (hpos : 0 < c.impulse)
    (hlong : Threshold.value < c.normalRegularization * c.impulse ^ 2) :
    ∃ H, m.hessian c.step.start none = .ok H ∧
      H.mulVec c.step.direction = Vec.neg (m.gradientAt c.step.start) := by
  have hfirst := hc.firstMass_pos.ne'
  have hsecond := hc.secondMass_pos.ne'
  have hregularization := hc.normalRegularization_pos
  have hpush := hc.push_free_eq hpos
  obtain ⟨hstronger, hlonger⟩ := hc.push_free_long hpos hlong
  obtain ⟨H, hH, hrows, h, -, hone, hform⟩ :=
    exists_hessian hc d c.firstVelocity c.secondVelocity
  have hspring : h = 1 :=
    hone (hpos.trans_le hstronger) hlonger
  refine ⟨H, hH, ?_⟩
  rw [gradientAt_free hc d hpos hlong]
  apply Vec.eq_of_dot_eq (n := 2)
  · rw [DenseMatrix.length_mulVec, hrows]
  · rfl
  · intro u hu
    obtain ⟨a, b, rfl⟩ := List.length_eq_two.1 hu
    set y := c.push c.firstVelocity c.secondVelocity
    change Vec.dot [a, b] (H.mulVec [-(c.impulse / c.firstMass), c.impulse / c.secondMass]) =
      Vec.dot [a, b] [-y, - -y]
    rw [hform, hspring, hpush, inverseMass]
    simp only [Vec.dot_cons, Vec.dot_nil_left]
    field_simp
    ring

theorem slope_step
    (hc : c.Valid)
    (d : m.Describes (c.problem handle) [c.inverseMass / 3])
    (hpos : 0 < c.impulse)
    (hlong : Threshold.value < c.normalRegularization * c.impulse ^ 2) :
    m.slope c.step =
      -(c.push c.firstVelocity c.secondVelocity * c.impulse * c.inverseMass) := by
  rw [ContactModel.slope, gradientAt_free hc d hpos hlong]
  set y := c.push c.firstVelocity c.secondVelocity
  change Vec.dot [y, -y] [-(c.impulse / c.firstMass), c.impulse / c.secondMass] = _
  simp only [Vec.dot_cons, Vec.dot_nil_left, inverseMass]
  ring

/-- Over the whole step the cost falls by half of what the slope promises. -/
theorem decreases_step
    (hc : c.Valid)
    (d : m.Describes (c.problem handle) [c.inverseMass / 3])
    (hpos : 0 < c.impulse)
    (hlong : Threshold.value < c.normalRegularization * c.impulse ^ 2) :
    m.Decreases c.step 0 := by
  have hregularization := hc.normalRegularization_pos
  have hpush := hc.push_free_eq hpos
  obtain ⟨hstronger, -⟩ := hc.push_free_long hpos hlong
  obtain ⟨e, he, hcost, -⟩ := evaluate_free hc d hpos hlong false
  obtain ⟨e', he', hcost', -⟩ := evaluate_outcome hc d (fun _ => hlong) false
  have hslope := slope_step hc d hpos hlong
  set y := c.push c.firstVelocity c.secondVelocity
  have hstart : m.totalCost c.step.start = 1 / 2 * (c.normalRegularization * y ^ 2) :=
    (ContactModel.totalCost_eq he).trans hcost
  have hfall : 1 / 2 * (c.impulse ^ 2 * (c.inverseMass + c.normalRegularization)) =
      1 / 2 * (c.normalRegularization * y ^ 2) - 1 / 2 * (y * c.impulse * c.inverseMass) := by
    rw [hpush]
    field_simp
    ring
  have hnonneg : 0 ≤ y * c.impulse * c.inverseMass :=
    mul_nonneg (mul_nonneg (hpos.le.trans hstronger) hpos.le) hc.inverseMass_pos.le
  change m.totalCost (c.step.trial 0) ≤ _ + 1 / 10000 * Scalar.half ^ 0 * _
  rw [trial_step, ContactModel.totalCost_eq he', hcost', hstart, hslope, hfall, pow_zero]
  linarith

/-- **The step from the free motion is a Newton step.** -/
theorem takes_step
    (hc : c.Valid)
    (d : m.Describes (c.problem handle) [c.inverseMass / 3])
    (hpos : 0 < c.impulse)
    (hlong : Threshold.value < c.normalRegularization * c.impulse ^ 2) :
    m.Takes c.step where
  length_direction := rfl
  newton := newton_step hc d hpos hlong
  halvings_le := Nat.zero_le _
  rejected k hk := absurd hk (Nat.not_lt_zero k)
  accepted _ := decreases_step hc d hpos hlong

/-- The free motion is not a minimum if there is an impulse. -/
theorem norm_gradient_free_pos
    (hc : c.Valid)
    (hpos : 0 < c.impulse)
    (hlong : Threshold.value < c.normalRegularization * c.impulse ^ 2)
    {ids ids' : IdTable} {p : ContactProblem ℝ} (hbuild : c.build ids handle = .ok (p, ids'))
    (hm : (ofProblem p).1 = .ok m)
    {e : CostEvaluation ℝ} (he : m.evaluateTensor m.freeVelocityTensor false = .ok e) :
    0 < Vec.norm e.gradient := by
  obtain ⟨-, -, rfl, -⟩ := c.build_eq_ok_iff.1 hbuild
  obtain ⟨m', hm', d⟩ := c.exists_model hc.timeStep_pos hc.flaw?_eq_none hc.firstMass_pos
    hc.secondMass_pos handle
  cases hm.symm.trans hm'
  obtain ⟨e', he', -, hgradient⟩ := evaluate_free hc (d.cast m.format) hpos hlong false
  obtain ⟨hshape, hformat, hentries⟩ := freeVelocityTensor_spec d
  rw [evaluateTensor_of_shape hshape, hformat, hentries] at he
  cases he.symm.trans he'
  have hpush := hpos.trans_le (hc.push_free_long hpos hlong).1
  rw [hgradient, Vec.norm_eq_sqrt]
  apply Real.sqrt_pos.2
  simp only [Vec.dot_cons, Vec.dot_nil_left]
  nlinarith

section Runs

variable {tolerance : ℝ}

/-- After the impact the method stops. -/
theorem iterate_outcome
    (hc : c.Valid)
    (d : m.Describes (c.problem handle) [c.inverseMass / 3])
    (hlong : 0 < c.impulse → Threshold.value < c.normalRegularization * c.impulse ^ 2)
    (htolerance : 0 ≤ tolerance)
    (k : ℕ) :
    ∃ entry, m.iterate tolerance c.outcome (k + 1) = .ok (c.outcome, [entry]) := by
  obtain ⟨e, he, -, hgradient⟩ := evaluate_outcome hc d hlong true
  have hsmall : Vec.norm e.gradient ≤ tolerance := by
    rw [hgradient, Vec.norm_eq_sqrt]
    simpa using htolerance
  exact ⟨_, iterate_of_small he hsmall k⟩

/-- The method goes from the free motion to the velocities after the impact. -/
theorem iterate_free
    (hc : c.Valid)
    (d : m.Describes (c.problem handle) [c.inverseMass / 3])
    (hlong : 0 < c.impulse → Threshold.value < c.normalRegularization * c.impulse ^ 2)
    (htolerance : 0 ≤ tolerance)
    (hunmet : 0 < c.impulse →
      ∀ e, m.evaluate [c.firstVelocity, c.secondVelocity] false = .ok e →
        tolerance < Vec.norm e.gradient)
    (k : ℕ) :
    ∃ history, m.iterate tolerance [c.firstVelocity, c.secondVelocity] (k + 2) =
        .ok (c.outcome, history) ∧
      history.length = if 0 < c.impulse then 2 else 1 := by
  rcases hc.impulse_nonneg.eq_or_lt with hzero | hpos
  · have hfree : c.outcome = [c.firstVelocity, c.secondVelocity] := by
      rw [outcome, ← hzero, zero_div, zero_div, sub_zero, add_zero]
    obtain ⟨entry, hstop⟩ := iterate_outcome hc d hlong htolerance (k + 1)
    refine ⟨[entry], ?_, ?_⟩
    · rwa [← hfree]
    · rw [← hzero, if_neg (lt_irrefl 0)]
      rfl
  · have hstart : c.step.start.length = m.numVelocities :=
      (numVelocities_eq d).symm
    obtain ⟨e, he, -, hgradient⟩ := evaluate_free hc d hpos (hlong hpos) true
    obtain ⟨e', he', -, hgradient'⟩ := evaluate_free hc d hpos (hlong hpos) false
    have hlarge : tolerance < Vec.norm e.gradient := by
      rw [hgradient, ← hgradient']
      exact hunmet hpos e' he'
    have hnext : m.newtonStep [c.firstVelocity, c.secondVelocity] e = .ok c.outcome := by
      rw [← trial_step]
      exact d.newtonStep_eq_ok hstart he (takes_step hc d hpos (hlong hpos))
        fun H hH => nonsingular_hessian hc d hstart hH
    obtain ⟨entry, hstop⟩ := iterate_outcome hc d hlong htolerance k
    refine ⟨[recordOf e, entry], ?_, ?_⟩
    · rw [iterate_of_large he hlarge, hnext, Outcome.ok_bind, hstop]
      rfl
    · rw [if_pos hpos]
      rfl

end Runs

open ContactModel in
/-- **The impact of two bodies.**  Building a collision gives a model, and Newton's method from the
free motion returns the velocities after the impact exactly, if the impulse vanishes or is not
negligible.  The contact then carries the impulse along its normal, and the method has evaluated the
velocities before and after the impact, or the free motion alone if there is no impulse. -/
theorem newton_solves
    (hc : c.Valid)
    (hlong : c.normalRegularization * c.impulse ^ 2 = 0 ∨
      Threshold.value < c.normalRegularization * c.impulse ^ 2)
    (ids : IdTable) (handle : ℕ) :
    ∃ p ids' m, c.build ids handle = .ok (p, ids') ∧ (ofProblem p).1 = .ok m ∧
      ∀ (maxIterations : ℤ) (tolerance : ℝ), 2 ≤ maxIterations → 0 ≤ tolerance →
        (0 < c.impulse → ∀ e, m.evaluateTensor m.freeVelocityTensor false = .ok e →
          tolerance < Vec.norm e.gradient) →
        ∃ result history γ,
          m.newton m.freeVelocityTensor maxIterations tolerance = .ok (result, history) ∧
            result.entries = [c.firstVelocity - c.impulse / c.firstMass,
              c.secondVelocity + c.impulse / c.secondMass] ∧
            m.impulsesTensor result = .ok γ ∧ γ.entries = [0, 0, c.impulse] ∧
            history.length = if 0 < c.impulse then 2 else 1 := by
  obtain ⟨m, hm, d⟩ := c.exists_model hc.timeStep_pos hc.flaw?_eq_none hc.firstMass_pos
    hc.secondMass_pos handle
  have hstrong : 0 < c.impulse → Threshold.value < c.normalRegularization * c.impulse ^ 2 :=
    fun hpos => hlong.resolve_left
      (mul_pos hc.normalRegularization_pos (pow_pos hpos 2)).ne'
  refine ⟨c.problem handle, _, m,
    c.build_eq_ok_iff.2 ⟨hc.timeStep_pos, hc.flaw?_eq_none, rfl, rfl⟩, hm, ?_⟩
  intro maxIterations tolerance hmax htolerance hunmet
  have dk := d.cast m.format
  obtain ⟨hshape, hformat, hentries⟩ := freeVelocityTensor_spec d
  obtain ⟨k, hk⟩ : ∃ k : ℕ, maxIterations.toNat = k + 2 :=
    ⟨maxIterations.toNat - 2, by omega⟩
  obtain ⟨history, hrun, hcount⟩ := iterate_free hc dk hstrong htolerance (by
    intro hpos e he
    apply hunmet hpos e
    rw [evaluateTensor_of_shape hshape, hformat, hentries]
    exact he) k
  refine ⟨Tensor.ofVec m.format c.outcome, history, _, ?_, ?_,
    d.impulsesTensor_eq (V := c.outcome) ?_ rfl ?_, ?_, hcount⟩
  · rw [newton_eq hshape, if_neg (by omega), hformat, hentries, hk, hrun]
    rfl
  · exact Tensor.entries_ofVec _ _
  · rw [Tensor.shape_ofVec, numVelocities_eq d]
    rfl
  · rw [Tensor.entries_ofVec]
    exact gather_eq d _ _
  · rw [Tensor.entries_ofVec]
    change (c.problem handle).impulseAt c.outcome c.load ++ [] = _
    rw [List.append_nil, (contribution_outcome hc handle hstrong).2]

/-- Two bodies of unit mass that meet at unit speeds. -/
noncomputable def headOn : Collision :=
  ⟨.double, 1, .ofMaterial 1 1 0, 1, 1, 1, -1, 0⟩

theorem valid_headOn :
    headOn.Valid where
  firstMass_pos := one_pos
  secondMass_pos := one_pos
  timeStep_pos := one_pos
  flaw?_eq_none := ConeParameters.flaw?_ofMaterial zero_le_one one_pos le_rfl

theorem inverseMass_headOn :
    headOn.inverseMass = 2 := by
  norm_num [inverseMass, headOn]

theorem normalRegularization_headOn :
    headOn.normalRegularization = 1 := by
  have hpi : 3 < Real.pi :=
    Real.pi_gt_three
  have hrigid : 1 / (4 * Real.pi ^ 2) * (2 / 3) ≤ (1 : ℝ) := by
    rw [div_mul_div_comm, div_le_one (by positivity)]
    nlinarith
  unfold normalRegularization meanInertia
  rw [inverseMass_headOn, Nat.cast_ofNat, Nat.cast_ofNat]
  simp only [headOn, ConeParameters.ofMaterial, Exact.ofNat_one, one_pow, add_zero, mul_one,
    div_one]
  exact max_eq_right hrigid

theorem impulse_headOn :
    headOn.impulse = 2 / 3 := by
  unfold impulse
  rw [normalRegularization_headOn, inverseMass_headOn]
  norm_num [bias, headOn]

end Impact

/-- Two equal bodies that meet head-on, solved in two iterations. -/
theorem newton_solves_headOn :
    letI := Threshold.ofFormat .double
    headOn.Valid ∧ Threshold.value < headOn.normalRegularization * headOn.impulse ^ 2 ∧
      ∃ p ids m, headOn.build .empty 0 = .ok (p, ids) ∧ (ContactModel.ofProblem p).1 = .ok m ∧
        ∃ result history γ, m.newton m.freeVelocityTensor 2 0 = .ok (result, history) ∧
          result.entries = [1 / 3, -1 / 3] ∧ m.impulsesTensor result = .ok γ ∧
          γ.entries = [0, 0, 2 / 3] ∧ history.length = 2 := by
  let _ := Threshold.ofFormat .double
  have hlong : Threshold.value < headOn.normalRegularization * headOn.impulse ^ 2 := by
    rw [normalRegularization_headOn, impulse_headOn]
    exact lt_of_le_of_lt (Threshold.value_ofFormat_le .double) (by norm_num)
  have hpos : 0 < headOn.impulse := by
    rw [impulse_headOn]
    norm_num
  obtain ⟨p, ids, m, hbuild, hm, hrun⟩ := newton_solves valid_headOn (.inr hlong) .empty 0
  obtain ⟨result, history, γ, hnewton, hresult, hγ, himpulse, hcount⟩ :=
    hrun 2 0 le_rfl le_rfl fun _ e he => norm_gradient_free_pos valid_headOn hpos hlong hbuild hm he
  refine ⟨valid_headOn, hlong, p, ids, m, hbuild, hm, result, history, γ, hnewton, ?_, hγ, ?_, ?_⟩
  · rw [hresult, impulse_headOn]
    norm_num [headOn]
  · rw [himpulse, impulse_headOn]
  · rw [hcount, if_pos hpos]

end Collision

end ConvexContact
