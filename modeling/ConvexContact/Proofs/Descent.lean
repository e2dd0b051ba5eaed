import Mathlib
import ConvexContact.Proofs.Cone.Pushes
import ConvexContact.Proofs.Construction
import ConvexContact.Proofs.Convexity
import ConvexContact.Proofs.Newton

/-!
# Descent of Newton's method

A step of the method goes downhill where the second derivative is positive, which is where no
contact is over-attenuated, and its length is found by halving.

**Results.**
* `ContactModel.newton_descends`: steps from velocities at which no contact is over-attenuated do
  not point uphill, and the costs of a run in which no step points uphill and none exhausts the
  halvings never increase.
* `ContactModel.newton_ascends_anvil`: a run whose cost increases, since a step is taken untested.
-/

namespace ConvexContact

section Descents

variable [Threshold]

namespace ContactModel

section Costs

variable {m : ContactModel ℝ} {p : ContactProblem ℝ} {w v result : List ℝ} {s : Descent}

/-- Where no contact is over-attenuated the direction of a step does not point uphill. -/
theorem Describes.slope_nonpos
    (d : m.Describes p w)
    (hpos : ∀ r ∈ m.bundle.regularization, 0 < r)
    (hdynamics : ∀ c ∈ p.cliques, (c.dynamics.toMatrix c.size c.size).PosDef)
    (hstart : s.start.length = m.numVelocities)
    (hs : m.Takes s)
    (hconvex : ¬ m.OverAttenuatedAt s.start) :
    m.slope s ≤ 0 := by
  obtain ⟨H, hH, hnewton⟩ := hs.newton
  obtain ⟨V, hV, hgather, hhessian, -⟩ := d.hessian_eq hstart
  cases hhessian.symm.trans hH
  rw [← hgather] at hconvex
  have hnonneg := d.dot_mulVec_hessianOf_nonneg hpos hdynamics m.bundle.format hV hconvex
    (hs.length_direction.trans hstart)
  rw [hnewton, Vec.dot_neg_right, Vec.dot_comm] at hnonneg
  exact neg_nonneg.1 hnonneg

/-- The cost does not increase in a step that was accepted and does not point uphill. -/
theorem Takes.totalCost_finish_le
    (hs : m.Takes s)
    (haccepted : s.halvings < maxTrials)
    (hslope : m.slope s ≤ 0) :
    m.totalCost s.finish ≤ m.totalCost s.start := by
  have hdecreases := hs.accepted haccepted
  have hproduct : 1 / 10000 * (1 / 2) ^ s.halvings * m.slope s ≤ 0 :=
    mul_nonpos_of_nonneg_of_nonpos (by positivity) hslope
  rw [Decreases, Exact.half_eq] at hdecreases
  change m.totalCost (s.trial s.halvings) ≤ _
  linarith

/-- The costs along a chain of steps that do not increase it. -/
theorem pairwise_totalCost
    {steps : List Descent}
    (hlead : Descent.Lead v steps result)
    (hsteps : ∀ s ∈ steps, m.totalCost s.finish ≤ m.totalCost s.start) :
    (steps.map (m.totalCost ·.start) ++ [m.totalCost result]).Pairwise (· ≥ ·) ∧
      ∀ a ∈ steps.map (m.totalCost ·.start) ++ [m.totalCost result], a ≤ m.totalCost v := by
  induction steps generalizing v with
  | nil =>
      cases hlead
      simp
  | cons s steps ih =>
      obtain ⟨rfl, hlead⟩ := hlead
      obtain ⟨hpairwise, hbound⟩ := ih hlead fun t ht => hsteps t (List.mem_cons_of_mem s ht)
      have hstep := hsteps s List.mem_cons_self
      rw [List.map_cons, List.cons_append]
      refine ⟨List.pairwise_cons.2 ⟨fun a ha => (hbound a ha).trans hstep, hpairwise⟩, ?_⟩
      rintro a (_ | ⟨_, ha⟩)
      · exact le_rfl
      · exact (hbound a ha).trans hstep

end Costs

/-- **Newton's method descends.**  For a problem that can be built, has a model and positive
definite dynamics, every run of the method is a chain of steps whose directions solve the Newton
equation and whose lengths are found by halving; a step is taken untested only after all halvings.
A step from velocities at which no contact is over-attenuated does not point uphill.  If no step
points uphill and none exhausts the halvings, the recorded costs never increase, and the cost of the
result is at most each of them. -/
theorem newton_descends
    {p : ContactProblem ℝ} (hp : p.Reachable)
    (hdynamics : ∀ c ∈ p.cliques, (c.dynamics.toMatrix c.size c.size).PosDef)
    {m : ContactModel ℝ} (hm : (ofProblem p).1 = .ok m)
    {v : Tensor ℝ} {maxIterations : ℤ} {tolerance : ℝ}
    {result : Tensor ℝ} {entries : List (NewtonRecord ℝ)}
    (hrun : m.newton v maxIterations tolerance = .ok (result, entries)) :
    let k := m.cast v.format
    ∃ steps : List Descent, Descent.Lead v.entries steps result.entries ∧
      (entries.map (·.cost) = steps.map (k.totalCost ·.start) ∨
        entries.map (·.cost) = steps.map (k.totalCost ·.start) ++ [k.totalCost result.entries]) ∧
      (∀ s ∈ steps, k.Takes s ∧ (¬ k.OverAttenuatedAt s.start → k.slope s ≤ 0)) ∧
      ((∀ s ∈ steps, s.halvings < maxTrials ∧ k.slope s ≤ 0) →
        (entries.map (·.cost)).Pairwise (· ≥ ·) ∧
          ∀ a ∈ entries.map (·.cost), k.totalCost result.entries ≤ a) := by
  intro k
  obtain ⟨delassus, -, d, hpos⟩ := describes_of_ofProblem hp hm
  have dk : k.Describes p delassus.entries :=
    d.cast v.format
  have hposk : ∀ r ∈ k.bundle.regularization, 0 < r := by
    change ∀ r ∈ (m.bundle.cast v.format).regularization, 0 < r
    rwa [ConstraintBundle.regularization_cast]
  obtain ⟨steps, hlead, hsteps, hcosts⟩ := d.exists_descents_newton hrun
  refine ⟨steps, hlead, hcosts, ?_, ?_⟩
  · intro s hs
    obtain ⟨hstart, htakes⟩ := hsteps s hs
    exact ⟨htakes, dk.slope_nonpos hposk hdynamics hstart htakes⟩
  · intro hgood
    have hfalls : ∀ s ∈ steps, k.totalCost s.finish ≤ k.totalCost s.start := by
      intro s hs
      obtain ⟨haccepted, hslope⟩ := hgood s hs
      exact (hsteps s hs).2.totalCost_finish_le haccepted hslope
    obtain ⟨hpairwise, -⟩ := pairwise_totalCost hlead hfalls
    rcases hcosts with hcosts | hcosts
    · rw [hcosts]
      rw [List.pairwise_append] at hpairwise
      exact ⟨hpairwise.1, fun a ha => hpairwise.2.2 a ha _ List.mem_cons_self⟩
    · rw [hcosts]
      refine ⟨hpairwise, fun a ha => ?_⟩
      rcases List.mem_append.1 ha with ha | ha
      · exact (List.pairwise_append.1 hpairwise).2.2 a ha _ List.mem_cons_self
      · rw [List.mem_singleton.1 ha]

/-! A body of unit mass above nearly rigid ground.  Its cost is flat above the ground and rises
steeply below, so that the line search from the ground downwards exhausts its halvings. -/

namespace Anvil

/-- A contact without friction whose compliance is at its least. -/
noncomputable def rigid : ConeParameters ℝ :=
  { ConeParameters.ofMaterial 0 (10 ^ 12) 0 with beta := 1 / 10 ^ 6 }

noncomputable def ground : Constraint ℝ :=
  .contact rigid 0 0 (Stack.alongNormal 1) none

noncomputable def problem : ContactProblem ℝ :=
  ⟨1, [Stack.body], [⟨0, ground⟩], none⟩

/-- The ground with the inertia felt at it. -/
noncomputable def load : Load :=
  ⟨ground, 1 / 3⟩

/-- The regularization of the ground. -/
noncomputable def compliance : ContactVector ℝ :=
  ⟨1 / 3000, 1 / 3000, 1 / 10 ^ 12⟩

/-- The impulse before the projection, at a velocity of the body. -/
noncomputable def push (x : ℝ) : ContactVector ℝ :=
  ⟨0, 0, -(10 ^ 12 * x)⟩

theorem flaw?_rigid :
    rigid.flaw? = none := by
  rw [ConeParameters.flaw?_eq_none_iff]
  have := Real.pi_gt_three
  refine ⟨?_, ?_, ?_, ?_, ?_, ?_, ?_⟩ <;>
    simp only [rigid, ConeParameters.ofMaterial, Exact.ofNat_one, Exact.ofNat_ofNat] <;> linarith

theorem built_ground :
    ground.Built :=
  Constraint.built_contact flaw?_rigid (DenseMatrix.numRows_tabulate _ _ _ _) (by simp)

theorem reachable :
    problem.Reachable := by
  apply ContactProblem.reachable_of_parts one_pos
  · intro c hc
    rw [List.mem_singleton.1 hc]
    exact ⟨_, _, Clique.ofTensors_eq_ok one_pos rfl Stack.symmetric_body rfl⟩
  · intro c hc
    rw [List.mem_singleton.1 hc]
    exact built_ground
  · intro c hc side hside
    rw [List.mem_singleton.1 hc] at hside
    rw [List.mem_singleton.1 hside]
    exact ⟨Stack.body, rfl, rfl⟩

theorem delassusDiagonal_eq :
    problem.delassusDiagonal = .ok (Tensor.ofVec .double [1 / 3]) := by
  have hinertia : problem.constraintInertia ground = .ok (Stack.normalInertia 1) := by
    unfold ContactProblem.constraintInertia
    change (ContactProblem.inverseInertia Stack.body.dynamics (Stack.alongNormal 1) >>= _) = _
    rw [Stack.inverseInertia_body, Outcome.ok_bind, one_mul]
    rfl
  have hmean : problem.meanInertia ground = .ok (.double, 1 / 3) := by
    unfold ContactProblem.meanInertia
    rw [hinertia, Outcome.ok_bind, Stack.frobeniusNorm_normalInertia zero_le_one]
    rfl
  rw [ContactProblem.delassusDiagonal_eq_mapM]
  change ([ground].mapM problem.meanInertia).map _ = _
  rw [List.mapM_cons, hmean]
  rfl

theorem regularization_load :
    load.regularization 1 = compliance.toList := by
  have hpi : 3 < Real.pi :=
    Real.pi_gt_three
  have hnormal : max (1 / 10 ^ 6 * (1 / 10 ^ 6) / (4 * Real.pi * Real.pi) * (1 / 3))
      (1 * 10 ^ 12 * (1 + 0) : ℝ)⁻¹ = 1 / 10 ^ 12 := by
    have hle : 1 / 10 ^ 6 * (1 / 10 ^ 6) / (4 * Real.pi * Real.pi) * (1 / 3) ≤
        (1 / 10 ^ 12 : ℝ) := by
      have hdiv : 1 / 10 ^ 6 * (1 / 10 ^ 6) / (4 * Real.pi * Real.pi) ≤ (1 / 10 ^ 12 : ℝ) := by
        rw [div_le_iff₀ (by positivity)]
        nlinarith
      linarith
    rw [max_eq_right (by linarith)]
    norm_num
  have htangential : (1 / 1000 * (1 / 3) : ℝ) = 1 / 3000 := by
    norm_num
  unfold Load.regularization Constraint.diagonalAt
  simp only [load, ground, Constraint.contact, ConeParameters.diagonal, ConeParameters.hardness,
    rigid, ConeParameters.ofMaterial, Exact.larger_eq_max, Exact.inverse_eq, Exact.pi_eq,
    Exact.ofNat_one, Exact.ofNat_ofNat]
  rw [htangential, hnormal]
  rfl

theorem localVelocity_eq
    (x : ℝ) :
    problem.localVelocity [x] ground = [0, 0, x] := by
  change (Stack.alongNormal 1).mulVec (Vec.part [1] [x] 0) = _
  simp [Stack.alongNormal, DenseMatrix.mulVec, DenseMatrix.tabulate, List.range_succ, Vec.part,
    Vec.split]

theorem unprojectedAt_eq
    (x : ℝ) :
    problem.unprojectedAt [x] load = (push x).toList := by
  have hbias : load.bias 1 = [0, 0, 0] := by
    simp [Load.bias, Constraint.bias, load, ground, Constraint.contact,
      ConeParameters.normalBias]
  unfold ContactProblem.unprojectedAt Load.unprojected
  change List.zipWith _ (Vec.sub (problem.localVelocity [x] ground) (load.bias 1))
    (load.regularization 1) = _
  rw [localVelocity_eq, hbias, regularization_load]
  simp only [Vec.sub, compliance, push, ContactVector.toList, List.zipWith_cons_cons,
    List.zipWith_nil_left, List.cons.injEq, and_true]
  refine ⟨by ring, by ring, by ring⟩

omit [Threshold] in
theorem compliance_pos :
    0 < compliance.t₁ ∧ 0 < compliance.n := by
  constructor <;> norm_num [compliance]

/-- What the load contributes to an evaluation is that of the potential. -/
theorem contribution_eq
    (format : Format) (x : ℝ) :
    problem.costAt [x] load =
        (rigid.regimeAt compliance (push x)).cost ((push x).scaled compliance) ∧
      problem.impulseAt [x] load =
        (((rigid.regimeAt compliance (push x)).gradient ((push x).scaled compliance)).unscaled
          compliance).toList ∧
      problem.derivativeAt format [x] load = rigid.derivativeAt format compliance (push x) :=
  Load.contact_eq rfl (unprojectedAt_eq x) regularization_load format

section Model

variable {m : ContactModel ℝ}

theorem exists_model :
    ∃ m, (ofProblem problem).1 = .ok m ∧ m.Describes problem [1 / 3] := by
  have hentries : (Tensor.ofVec .double [(1 / 3 : ℝ)]).entries = [1 / 3] :=
    Tensor.entries_ofVec _ _
  rw [← hentries]
  apply exists_ofProblem reachable delassusDiagonal_eq
  intro x hx
  rw [hentries] at hx
  rw [List.mem_singleton.1 hx]
  exact Load.regularization_pos built_ground.proper one_pos (by norm_num [load])

theorem cliquesPermutation_graph :
    problem.graph.cliquesPermutation = .ok ⟨1, [0], by decide, by decide⟩ :=
  rfl

theorem cliquesPermutation_eq
    (d : m.Describes problem [1 / 3]) :
    m.cliquesPermutation = ⟨1, [0], by decide, by decide⟩ :=
  d.cliquesPermutation_of_order cliquesPermutation_graph

/-- The velocity of the body is that of the model. -/
theorem gather_eq
    (d : m.Describes problem [1 / 3])
    (x : ℝ) :
    m.velocitiesPermutation.gather [x] = [x] :=
  d.gather_of_order cliquesPermutation_graph [[x]] rfl

theorem numVelocities_eq
    (d : m.Describes problem [1 / 3]) :
    m.numVelocities = 1 :=
  d.numVelocities_of_order cliquesPermutation_graph

theorem dynamicsTimes_eq
    (d : m.Describes problem [1 / 3])
    (x : ℝ) :
    m.dynamicsTimes [x] = [x] := by
  rw [d.dynamicsTimes_eq, cliquesPermutation_eq d]
  change (DenseMatrix.identity .double 1).mulVec [x] ++ [] = [x]
  rw [List.append_nil]
  exact DenseMatrix.mulVec_identity .double [x]

theorem momentumGain_eq
    (d : m.Describes problem [1 / 3])
    (x : ℝ) :
    m.momentumGain [x] = [x + 1] := by
  have hfree : m.freeVelocity = [-1] := by
    rw [d.freeVelocity]
    exact gather_eq d (-1)
  unfold momentumGain
  rw [hfree]
  change m.dynamicsTimes [x - -1] = _
  rw [dynamicsTimes_eq d, sub_neg_eq_add]

theorem momentumCost_eq
    (d : m.Describes problem [1 / 3])
    (x : ℝ) :
    m.momentumCost [x] = 1 / 2 * (x + 1) ^ 2 := by
  have hfree : m.freeVelocity = [-1] := by
    rw [d.freeVelocity]
    exact gather_eq d (-1)
  unfold momentumCost
  rw [momentumGain_eq d, hfree, Exact.half_eq]
  change 1 / 2 * Vec.dot [x - -1] [x + 1] = _
  rw [Vec.dot_cons, Vec.dot_nil_left]
  ring

/-- The cost of the model, by the part of the ground. -/
theorem exists_evaluation
    (d : m.Describes problem [1 / 3])
    (x : ℝ) (withDerivatives : Bool) :
    ∃ e, m.evaluate [x] withDerivatives = .ok e ∧
      e.cost = 1 / 2 * (x + 1) ^ 2 + problem.costAt [x] load := by
  have hevaluate := d.evaluate_eq (show [x].length = _ from rfl) withDerivatives
  rw [gather_eq d] at hevaluate
  refine ⟨_, hevaluate, ?_⟩
  unfold CostEvaluation.cost
  dsimp only
  rw [momentumCost_eq d]
  change _ + ([problem.costAt [x] load].sum) = _
  rw [List.sum_singleton]

/-- Above the ground the contact contributes nothing. -/
theorem contribution_airborne
    {x : ℝ} (hx : 0 ≤ x) :
    problem.costAt [x] load = 0 ∧ problem.impulseAt [x] load = [0, 0, 0] := by
  obtain ⟨hcost, himpulse, -⟩ := contribution_eq .double x
  have hpull : -(10 ^ 12 * x) ≤ 0 := by
    linarith
  obtain ⟨hzero, hnil⟩ := ConeParameters.contribution_pull flaw?_rigid compliance_pos hpull
  exact ⟨hcost.trans hzero, himpulse.trans (congrArg ContactVector.toList hnil)⟩

theorem costAt_airborne
    {x : ℝ} (hx : 0 ≤ x) :
    problem.costAt [x] load = 0 :=
  (contribution_airborne hx).1

/-- Below the ground the contact is a stiff spring. -/
theorem costAt_pressed
    {x : ℝ} (hx : x < 0)
    (hlong : Threshold.value < 10 ^ 12 * x ^ 2) :
    problem.costAt [x] load = 1 / 2 * (10 ^ 12 * x ^ 2) := by
  obtain ⟨hcost, -⟩ := contribution_eq .double x
  have henergy : compliance.n * (-(10 ^ 12 * x)) ^ 2 = 10 ^ 12 * x ^ 2 := by
    simp only [compliance]
    ring
  have hpush : 0 < -(10 ^ 12 * x) := by
    linarith
  rw [← henergy] at hlong ⊢
  exact hcost.trans (ConeParameters.contribution_push flaw?_rigid compliance_pos hpush hlong).1

/-- Above the ground the gradient is that of the momentum. -/
theorem gradientAt_airborne
    (d : m.Describes problem [1 / 3])
    {x : ℝ} (hx : 0 ≤ x) :
    m.gradientAt [x] = [x + 1] := by
  have hevaluate := d.evaluate_eq (show [x].length = _ from rfl) false
  rw [gather_eq d] at hevaluate
  have hrest : m.bundle.jacobian.transposeMulVec
      ((m.edgeLoads problem [1 / 3]).flatMap (problem.impulseAt [x])) = Vec.zero 1 := by
    apply Vec.eq_of_dot_eq
    · rw [d.regular_jacobian.length_transposeMulVec, d.numCols_jacobian]
    · exact (Vec.length_zero 1).trans (numVelocities_eq d).symm
    · intro y hy
      obtain ⟨W, hW, rfl⟩ := d.exists_gather hy
      rw [d.dot_transposeMulVec (fun l hl => d.length_impulseAt hl) hW, Vec.dot_zero_right]
      change ([Vec.dot _ (problem.impulseAt [x] load)]).sum = 0
      have hzero : ([0, 0, 0] : List ℝ) = Vec.zero 3 := by
        simp [Vec.zero, List.replicate_succ]
      rw [List.sum_singleton, (contribution_airborne hx).2, hzero, Vec.dot_zero_right]
  rw [gradientAt, hevaluate]
  dsimp only
  rw [momentumGain_eq d, hrest]
  exact Vec.sub_zero_right [x + 1]

/-- Above the ground the contact does not contribute to the second derivative. -/
theorem dot_mulVec_airborne
    (format : Format)
    {x : ℝ} (hx : 0 ≤ x) :
    Vec.dot (problem.localVelocity [1] ground)
      ((problem.hessianBlockAt format [x] load).mulVec (problem.localVelocity [1] ground)) = 0 := by
  have heq : problem.hessianBlockAt format [x] load = rigid.blockAt format compliance (push x) :=
    Load.hessianBlock_contact rfl (unprojectedAt_eq x) regularization_load format
  have hidle : (rigid.regimeAt compliance (push x)).Idle := by
    apply (ConeParameters.regimeAt_normal flaw?_rigid compliance_pos _).1
    linarith
  rw [heq, localVelocity_eq]
  refine (ConeParameters.dot_mulVec_blockAt ⟨0, 0, 1⟩).trans ?_
  rw [(hidle.contribution _).2.2]
  simp [ContactMatrix.form, ContactMatrix.zero, ContactMatrix.apply, ContactVector.inner]

/-- Above the ground the second derivative is that of the momentum. -/
theorem exists_hessian_airborne
    (d : m.Describes problem [1 / 3])
    {x : ℝ} (hx : 0 ≤ x) :
    ∃ H, m.hessian [x] none = .ok H ∧ H.rows = [[1]] := by
  have hone : [x].length = m.numVelocities :=
    (numVelocities_eq d).symm
  obtain ⟨V, hV, hgather, hH, -⟩ := d.hessian_eq hone
  obtain ⟨hrows, hcols⟩ := d.shape_hessian hone hH
  obtain ⟨y, rfl⟩ := List.length_eq_one_iff.1 hV
  rw [gather_eq d, List.singleton_inj] at hgather
  subst hgather
  have hform := d.dot_mulVec_hessianOf (V := [y]) m.bundle.format
    (show [(1 : ℝ)].length = problem.numVelocities from rfl)
    (show [(1 : ℝ)].length = problem.numVelocities from rfl)
  have hright : ((problem.loads [1 / 3]).map fun l =>
      Vec.dot (problem.localVelocity [1] l.constraint)
        ((problem.hessianBlockAt m.bundle.format [y] l).mulVec
          (problem.localVelocity [1] l.constraint))).sum = 0 := by
    change ([Vec.dot _ _]).sum = 0
    rw [List.sum_singleton]
    exact dot_mulVec_airborne m.bundle.format hx
  rw [gather_eq d, dynamicsTimes_eq d, hright] at hform
  refine ⟨_, hH, ?_⟩
  generalize m.hessianOf _ = H at hrows hcols hform ⊢
  -- A matrix with one row and one column is given by its only entry.
  rw [← hone] at hrows hcols
  obtain ⟨row, hrow⟩ := List.length_eq_one_iff.1 hrows
  obtain ⟨a, rfl⟩ := List.length_eq_one_iff.1
    ((H.length_row row (by rw [hrow]; exact List.mem_cons_self)).trans hcols)
  rw [DenseMatrix.mulVec, hrow] at hform
  simp only [List.map_cons, List.map_nil, Vec.dot_cons, Vec.dot_nil_left] at hform
  rw [hrow]
  congr 2
  linarith

theorem totalCost_eq
    (d : m.Describes problem [1 / 3])
    (x : ℝ) :
    m.totalCost [x] = 1 / 2 * (x + 1) ^ 2 + problem.costAt [x] load := by
  obtain ⟨e, he, hcost⟩ := exists_evaluation d x false
  rw [ContactModel.totalCost_eq he, hcost]

/-- The step from above the ground towards the free motion. -/
noncomputable def step (x : ℝ) (k : ℕ) : Descent :=
  ⟨[x], [-(x + 1)], k⟩

theorem trial_step
    (x : ℝ) (k j : ℕ) :
    (step x k).trial j = [x - (1 / 2) ^ j * (x + 1)] := by
  rw [Descent.trial_eq]
  change [x + (1 / 2) ^ j * -(x + 1)] = _
  rw [mul_neg, ← sub_eq_add_neg]

/-- Such a step is taken if it is the longest one that decreases the cost enough. -/
theorem takes_airborne
    (d : m.Describes problem [1 / 3])
    {x : ℝ} (hx : 0 ≤ x)
    {k : ℕ} (hk : k ≤ maxTrials)
    (hrejected : ∀ j < k, m.totalCost [x] - 1 / 10000 * (1 / 2) ^ j * (x + 1) ^ 2 <
      m.totalCost [x - (1 / 2) ^ j * (x + 1)])
    (hend : k = maxTrials ∨ m.totalCost [x - (1 / 2) ^ k * (x + 1)] ≤
      m.totalCost [x] - 1 / 10000 * (1 / 2) ^ k * (x + 1) ^ 2) :
    m.Takes (step x k) := by
  obtain ⟨H, hH, hrows⟩ := exists_hessian_airborne d hx
  have hslope : m.slope (step x k) = -(x + 1) ^ 2 := by
    rw [slope, step, gradientAt_airborne d hx, Vec.dot_cons, Vec.dot_nil_left]
    ring
  have hdecreases : ∀ j, m.Decreases (step x k) j ↔ m.totalCost [x - (1 / 2) ^ j * (x + 1)] ≤
      m.totalCost [x] - 1 / 10000 * (1 / 2) ^ j * (x + 1) ^ 2 := by
    intro j
    rw [Decreases, trial_step, hslope, Exact.half_eq, mul_neg, ← sub_eq_add_neg]
    rfl
  refine
    { length_direction := rfl
      newton := ⟨H, hH, ?_⟩
      halvings_le := hk
      rejected := fun j hj => ?_
      accepted := fun hlt => ?_ }
  · change H.mulVec [-(x + 1)] = Vec.neg (m.gradientAt [x])
    rw [gradientAt_airborne d hx, DenseMatrix.mulVec, hrows]
    simp [Vec.neg]
  · rw [hdecreases, not_le]
    exact hrejected j hj
  · rw [hdecreases]
    exact hend.resolve_left hlt.ne

/-- One iteration from above the ground. -/
theorem newton_airborne
    (d : m.Describes problem [1 / 3])
    {x : ℝ} (hx : 0 ≤ x)
    {k : ℕ} (hk : k ≤ maxTrials)
    (hrejected : ∀ j < k,
      (m.cast .double).totalCost [x] - 1 / 10000 * (1 / 2) ^ j * (x + 1) ^ 2 <
        (m.cast .double).totalCost [x - (1 / 2) ^ j * (x + 1)])
    (hend : k = maxTrials ∨ (m.cast .double).totalCost [x - (1 / 2) ^ k * (x + 1)] ≤
      (m.cast .double).totalCost [x] - 1 / 10000 * (1 / 2) ^ k * (x + 1) ^ 2) :
    ∃ entry, m.newton (Tensor.ofVec .double [x]) 1 0 =
        .ok (Tensor.ofVec .double [x - (1 / 2) ^ k * (x + 1)], [entry]) ∧
      entry.cost = (m.cast .double).totalCost [x] := by
  have dk := d.cast .double
  have hlength : [x].length = (m.cast .double).numVelocities :=
    (numVelocities_eq dk).symm
  obtain ⟨V, e, -, -, he, hcost, hgradient, -, -⟩ := dk.exists_evaluation hlength
  have hregular : ∀ H, (m.cast .double).hessian [x] none = .ok H → H.Nonsingular := by
    intro H hH
    obtain ⟨H', hH', hrows⟩ := exists_hessian_airborne dk hx
    cases hH.symm.trans hH'
    intro y hy hzero
    rw [DenseMatrix.numRows, hrows] at hy
    obtain ⟨a, rfl⟩ := List.length_eq_one_iff.1 hy
    simpa [DenseMatrix.mulVec, hrows] using hzero
  have hstep : (m.cast .double).newtonStep [x] e = .ok (step x k).finish :=
    dk.newtonStep_eq_ok (s := step x k) hlength he
      (takes_airborne dk hx hk hrejected hend) hregular
  have hlarge : 0 < Vec.norm e.gradient := by
    rw [hgradient, gradientAt_airborne dk hx, Vec.norm, Exact.abs_eq_abs]
    exact abs_pos.2 (by linarith)
  have hshape : (Tensor.ofVec .double [x]).shape = [m.numVelocities] := by
    rw [Tensor.shape_ofVec, numVelocities_eq d]
    rfl
  refine ⟨recordOf e, ?_, hcost⟩
  unfold newton
  rw [if_neg (by norm_num), velocityOperand_of_shape hshape, Outcome.ok_bind,
    Tensor.entries_ofVec, Tensor.format_ofVec]
  change ((m.cast .double).iterate 0 [x] (0 + 1) >>= _) = _
  rw [iterate_of_large he hlarge, hstep, Outcome.ok_bind, iterate, Descent.finish, trial_step]
  rfl

end Model

theorem posDef_cliques :
    ∀ c ∈ problem.cliques, (c.dynamics.toMatrix c.size c.size).PosDef := by
  intro c hc
  rw [List.mem_singleton.1 hc]
  exact Stack.posDef_body

end Anvil

end ContactModel

end Descents

/-- One iteration of a body that is lifted above the ground; the first trial ends below the ground,
and the second one on it. -/
theorem ContactModel.Anvil.newton_one :
    letI := Threshold.ofFormat .double
    ∀ {m : ContactModel ℝ}, m.Describes problem [1 / 3] →
      ∃ entry, m.newton (Tensor.ofVec .double [1]) 1 0 =
        .ok (Tensor.ofVec .double [1 - (1 / 2) ^ 1 * (1 + 1)], [entry]) := by
  let _ := Threshold.ofFormat .double
  intro m d
  have hcosts : ∀ x, (m.cast .double).totalCost [x] = _ := totalCost_eq (d.cast .double)
  have hlong : Threshold.value < 10 ^ 12 * (-1 : ℝ) ^ 2 :=
    lt_of_le_of_lt (Threshold.value_ofFormat_le .double) (by norm_num)
  obtain ⟨entry, hrun, -⟩ := newton_airborne d zero_le_one (show 1 ≤ maxTrials by decide)
    (by
      intro j hj
      rw [Nat.lt_one_iff.1 hj, hcosts, hcosts, costAt_airborne zero_le_one,
        show (1 : ℝ) - (1 / 2) ^ 0 * (1 + 1) = -1 by norm_num,
        costAt_pressed (by norm_num) hlong]
      norm_num)
    (.inr (by
      rw [hcosts, hcosts, costAt_airborne zero_le_one,
        show (1 : ℝ) - (1 / 2) ^ 1 * (1 + 1) = 0 by norm_num, costAt_airborne le_rfl]
      norm_num))
  exact ⟨entry, hrun⟩

namespace ContactModel

/-- A run from above the ground, whose step is halved once and ends on the ground. -/
theorem newton_descends_anvil :
    letI := Threshold.ofFormat .double
    Anvil.problem.Reachable ∧
      (∀ c ∈ Anvil.problem.cliques, (c.dynamics.toMatrix c.size c.size).PosDef) ∧
      ∃ m, (ofProblem Anvil.problem).1 = .ok m ∧
        ∃ result entries, m.newton (Tensor.ofVec .double [1]) 1 0 = .ok (result, entries) ∧
          let k := m.cast (Tensor.ofVec .double [(1 : ℝ)]).format
          ∃ steps : List Descent,
            Descent.Lead (Tensor.ofVec .double [(1 : ℝ)]).entries steps result.entries ∧
            (entries.map (·.cost) = steps.map (k.totalCost ·.start) ∨
              entries.map (·.cost) =
                steps.map (k.totalCost ·.start) ++ [k.totalCost result.entries]) ∧
            (∀ s ∈ steps, k.Takes s ∧ (¬ k.OverAttenuatedAt s.start → k.slope s ≤ 0)) ∧
            ((∀ s ∈ steps, s.halvings < maxTrials ∧ k.slope s ≤ 0) →
              (entries.map (·.cost)).Pairwise (· ≥ ·) ∧
                ∀ a ∈ entries.map (·.cost), k.totalCost result.entries ≤ a) := by
  let _ := Threshold.ofFormat .double
  obtain ⟨m, hm, d⟩ := Anvil.exists_model
  obtain ⟨entry, hrun⟩ := Anvil.newton_one d
  exact ⟨Anvil.reachable, Anvil.posDef_cliques, m, hm, _, _, hrun,
    newton_descends Anvil.reachable Anvil.posDef_cliques hm hrun⟩

/-- **Newton's method can ascend**: from the ground downwards no halving finds a smaller cost, and
the last step is taken untested. -/
theorem newton_ascends_anvil :
    letI := Threshold.ofFormat .double
    Anvil.problem.Reachable ∧
      (∀ c ∈ Anvil.problem.cliques, (c.dynamics.toMatrix c.size c.size).PosDef) ∧
      (∀ c ∈ Anvil.problem.constraints, ∃ parameters gap,
        c.law = .frictionCone parameters gap) ∧
      ∃ m, (ofProblem Anvil.problem).1 = .ok m ∧
        ∃ result entries, m.newton (Tensor.ofVec .double [0]) 1 0 = .ok (result, entries) ∧
          ∃ entry ∈ entries, entry.cost < (m.cast .double).totalCost result.entries := by
  let _ := Threshold.ofFormat .double
  obtain ⟨m, hm, d⟩ := Anvil.exists_model
  have hstart : (m.cast .double).totalCost [0] = 1 / 2 := by
    rw [Anvil.totalCost_eq (d.cast .double), Anvil.costAt_airborne le_rfl]
    norm_num
  have hrises : ∀ j ≤ 27, 1 / 2 < (m.cast .double).totalCost [0 - (1 / 2) ^ j * (0 + 1)] := by
    intro j hj
    have hpos : (0 : ℝ) < (1 / 2) ^ j := by
      positivity
    have hge : (1 / 2 : ℝ) ^ 27 ≤ (1 / 2) ^ j :=
      pow_le_pow_of_le_one (by norm_num) (by norm_num) hj
    have hstep : (0 : ℝ) - (1 / 2) ^ j * (0 + 1) = -(1 / 2) ^ j := by
      ring
    have hsteep : (1 : ℝ) < 10 ^ 12 / 2 * (1 / 2) ^ j := by
      have : (1 : ℝ) < 10 ^ 12 / 2 * (1 / 2) ^ 27 := by
        norm_num
      nlinarith
    have hlong : Threshold.value < 10 ^ 12 * (-(1 / 2 : ℝ) ^ j) ^ 2 := by
      have hsq : ((1 / 2 : ℝ) ^ 27) ^ 2 ≤ ((1 / 2) ^ j) ^ 2 :=
        pow_le_pow_left₀ (by positivity) hge 2
      have hthreshold := Threshold.value_ofFormat_le .double
      have : (1 : ℝ) / 2 ^ 126 < 10 ^ 12 * ((1 / 2) ^ 27) ^ 2 := by
        norm_num
      rw [neg_sq]
      exact lt_of_le_of_lt hthreshold (by linarith)
    rw [Anvil.totalCost_eq (d.cast .double), hstep,
      Anvil.costAt_pressed (neg_lt_zero.2 hpos) hlong]
    nlinarith
  obtain ⟨entry, hrun, hentry⟩ := Anvil.newton_airborne d le_rfl (le_refl maxTrials)
    (by
      intro j hj
      have := hrises j hj.le
      have hdecrease : (0 : ℝ) ≤ 1 / 10000 * (1 / 2) ^ j * (0 + 1) ^ 2 := by
        positivity
      rw [hstart]
      linarith)
    (.inl rfl)
  refine ⟨Anvil.reachable, Anvil.posDef_cliques, ?_, m, hm, _, _, hrun, entry,
    List.mem_cons_self, ?_⟩
  · intro c hc
    rw [List.mem_singleton.1 hc]
    exact ⟨Anvil.rigid, 0, rfl⟩
  · rw [hentry, hstart, Tensor.entries_ofVec]
    exact hrises 27 le_rfl

end ContactModel
end ConvexContact
