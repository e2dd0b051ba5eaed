import Mathlib
import ConvexContact.Proofs.Models
import ConvexContact.Proofs.Operands

/-!
# Evaluating a model load by load

A model that describes a problem is evaluated at velocities that are gathered from velocities `V`
of all cliques.  Each list that occurs on the way has a part for each load, in the order of the
edges, and the part of a load depends on the load and on `V` alone.

**Results.**
* `Describes.unprojected_eq`, `Describes.impulses_eq`, `Describes.regularizerCost_eq`: the steps of
  the evaluation of the bundle.
* `Describes.evaluate_eq`: the evaluation of the model is not refused, and what it gives.
* `Describes.dot_dynamicsTimes`, `Describes.dot_transposeMulVec`: the two terms of the gradient, in
  inner products with velocities of all cliques.
-/

namespace ConvexContact

variable [Threshold]

namespace Load

variable {x : Load} {timeStep : ℝ} {u : List ℝ} {format : Format}

/-- The projected impulse at a constraint velocity. -/
noncomputable def impulse (x : Load) (timeStep : ℝ) (u : List ℝ) : List ℝ :=
  Outcome.getD
    (x.constraint.impulse (x.unprojected timeStep u) (x.regularization timeStep)) []

/-- The derivative of the projected impulse. -/
noncomputable def derivative (x : Load) (timeStep : ℝ) (format : Format) (u : List ℝ) :
    DenseMatrix ℝ :=
  (Outcome.getD
    (x.constraint.project format (x.unprojected timeStep u) (x.regularization timeStep))
    ([], DenseMatrix.zero format 0 0)).2

/-- The contribution to the cost at a constraint velocity. -/
noncomputable def cost (x : Load) (timeStep : ℝ) (u : List ℝ) : ℝ :=
  Outcome.getD (x.constraint.cost (x.unprojected timeStep u) (x.regularization timeStep)) 0

theorem impulse_eq
    (hx : x.constraint.Proper)
    (hu : u.length = x.constraint.numEquations) :
    x.constraint.impulse (x.unprojected timeStep u) (x.regularization timeStep) =
      .ok (x.impulse timeStep u) := by
  obtain ⟨γ, hγ, -⟩ :=
    hx.impulse_eq_ok (length_unprojected hx hu) (length_regularization hx)
  exact Outcome.eq_ok_getD _ ⟨γ, hγ⟩

theorem length_impulse
    (hx : x.constraint.Proper)
    (hu : u.length = x.constraint.numEquations) :
    (x.impulse timeStep u).length = x.constraint.numEquations := by
  obtain ⟨γ, hγ, hlength⟩ :=
    hx.impulse_eq_ok (length_unprojected hx hu) (length_regularization hx)
  rw [impulse_eq hx hu] at hγ
  cases hγ
  exact hlength

theorem project_eq
    (hx : x.constraint.Proper)
    (hu : u.length = x.constraint.numEquations) :
    x.constraint.project format (x.unprojected timeStep u) (x.regularization timeStep) =
        .ok (x.impulse timeStep u, x.derivative timeStep format u) ∧
      (x.derivative timeStep format u).numRows = x.constraint.numEquations ∧
      (x.derivative timeStep format u).numCols = x.constraint.numEquations := by
  obtain ⟨γ, D, hproject, hγ, -, hrows, hcols⟩ :=
    hx.project_eq_ok format (length_unprojected hx hu) (length_regularization hx)
  rw [impulse_eq hx hu] at hγ
  cases hγ
  unfold derivative
  rw [hproject]
  exact ⟨rfl, hrows, hcols⟩

theorem cost_eq
    (hx : x.constraint.Proper)
    (hu : u.length = x.constraint.numEquations) :
    x.constraint.cost (x.unprojected timeStep u) (x.regularization timeStep) =
      .ok (x.cost timeStep u) :=
  Outcome.eq_ok_getD _
    (hx.cost_eq_ok (length_unprojected hx hu) (length_regularization hx))

/-- The derivative with its columns divided by the regularization. -/
noncomputable def hessianBlock (x : Load) (timeStep : ℝ) (format : Format) (u : List ℝ) :
    DenseMatrix ℝ :=
  ConstraintBundle.hessianBlock (x.derivative timeStep format u)
    ((x.regularization timeStep).map (1 / ·))

end Load

namespace DenseMatrix

variable {blocks : List (DenseMatrix ℝ)} {x : List ℝ}

/-- Matrices of matching sizes along the diagonal act on gathered blocks as on all blocks. -/
theorem gather_diagonalTimes
    {q velocities : PartialPermutation} {sizes : List ℕ}
    (hvelocities : q.Expands sizes velocities)
    (hrows : blocks.map (·.numRows) = sizes)
    (hcols : blocks.map (·.numCols) = sizes)
    (hx : x.length = totalSize sizes) :
    velocities.gather (diagonalTimes blocks x) =
      diagonalTimes (q.gather blocks) (velocities.gather x) := by
  have hparts : (Vec.split sizes x).map List.length = sizes :=
    Vec.map_length_split hx
  have hblocks : blocks.length = q.domainSize := by
    rw [← hvelocities.length_sizes, ← hrows, List.length_map]
  have hsplit : (Vec.split sizes x).length = q.domainSize := by
    rw [Vec.length_split, hvelocities.length_sizes]
  have hgather : velocities.gather x = (q.gather (Vec.split sizes x)).flatten := by
    rw [← hvelocities.gather_flatten hparts, Vec.flatten_split hx]
  have hsizes : (List.zipWith mulVec blocks (Vec.split sizes x)).map List.length = sizes := by
    rw [List.map_zipWith]
    simp only [length_mulVec]
    rw [← hrows]
    apply List.ext_getElem
    · simp
    · intro i h₁ h₂
      simp
  unfold diagonalTimes
  rw [hcols, hvelocities.gather_flatten hsizes,
    PartialPermutation.gather_zipWith _ hblocks hsplit, ← PartialPermutation.gather_map, hcols,
    hgather, Vec.split_flatten_of_sizes]
  rw [← PartialPermutation.gather_map, hparts]

end DenseMatrix

namespace ContactProblem

/-- The impulse before the projection at a load, given the velocities of all cliques. -/
noncomputable def unprojectedAt (p : ContactProblem ℝ) (V : List ℝ) (x : Load) : List ℝ :=
  x.unprojected p.timeStep (p.localVelocity V x.constraint)

noncomputable def impulseAt (p : ContactProblem ℝ) (V : List ℝ) (x : Load) : List ℝ :=
  x.impulse p.timeStep (p.localVelocity V x.constraint)

noncomputable def derivativeAt (p : ContactProblem ℝ) (format : Format) (V : List ℝ)
    (x : Load) : DenseMatrix ℝ :=
  x.derivative p.timeStep format (p.localVelocity V x.constraint)

noncomputable def costAt (p : ContactProblem ℝ) (V : List ℝ) (x : Load) : ℝ :=
  x.cost p.timeStep (p.localVelocity V x.constraint)

/-- `A x`, for all cliques. -/
def dynamicsTimes {α : Type} [Scalar α] (p : ContactProblem α) (x : List α) : List α :=
  DenseMatrix.diagonalTimes (p.cliques.map (·.dynamics)) x

end ContactProblem

namespace ContactModel

/-- The loads of a problem in the order of the edges. -/
def edgeLoads (m : ContactModel ℝ) (p : ContactProblem ℝ) (w : List ℝ) : List Load :=
  m.bundle.constraintsPermutation.gather (p.loads w)

namespace Describes

variable {m : ContactModel ℝ} {p : ContactProblem ℝ} {w V W U : List ℝ}

/-- A model in another format describes the same problem. -/
theorem cast
    (d : m.Describes p w)
    (format : Format) :
    (m.cast format).Describes p w where
  wellFormed := d.wellFormed
  length_inertias := d.length_inertias
  cliques := d.cliques
  velocities := d.velocities
  order := d.order
  equations := d.equations
  edgeSizes := d.edgeSizes
  held := d.held
  jacobian := (BlockSparseMatrix.cast_cast _ _ _).trans d.jacobian
  regularization := by
    simpa [ContactModel.cast, ConstraintBundle.cast] using d.regularization
  inverse := by
    simpa [ContactModel.cast, ConstraintBundle.cast] using d.inverse
  bias := by
    simpa [ContactModel.cast, ConstraintBundle.cast] using d.bias
  dynamics := by
    refine Eq.trans ?_ d.dynamics
    rw [ContactModel.cast, List.map_map]
    apply List.map_congr_left
    intro A _
    exact DenseMatrix.cast_cast _ _ _
  freeVelocity := by
    simpa [ContactModel.cast] using d.freeVelocity
  fullFreeVelocity := by
    simpa [ContactModel.cast] using d.fullFreeVelocity

section Order

theorem order_spec
    (d : m.Describes p w) :
    m.bundle.constraintsPermutation.domainSize = p.numConstraints ∧
      m.bundle.constraintsPermutation.IsTotal ∧
      m.bundle.constraintsPermutation.inverse = p.graph.edges.flatMap fun e =>
        ContactGraph.indicesOn (p.constraints.map ContactProblem.memberOf) e.cliques := by
  obtain ⟨o, ho, hspec⟩ := d.wellFormed.exists_constraintsPermutation
  rw [d.order] at ho
  cases ho
  exact hspec

theorem perm_edgeLoads
    (d : m.Describes p w) :
    (m.edgeLoads p w).Perm (p.loads w) := by
  obtain ⟨hdomain, htotal, -⟩ := d.order_spec
  apply htotal.gather_perm
  rw [ContactProblem.length_loads d.length_inertias, hdomain]

theorem mem_loads
    (d : m.Describes p w)
    {x : Load}
    (hx : x ∈ m.edgeLoads p w) :
    x ∈ p.loads w :=
  d.perm_edgeLoads.mem_iff.1 hx

theorem proper
    (d : m.Describes p w)
    {x : Load}
    (hx : x ∈ m.edgeLoads p w) :
    x.constraint.Proper :=
  d.wellFormed.proper_of_mem_loads d.length_inertias (d.mem_loads hx)

theorem length_localVelocity
    (d : m.Describes p w)
    {x : Load}
    (hx : x ∈ m.edgeLoads p w) :
    (p.localVelocity V x.constraint).length = x.constraint.numEquations :=
  d.wellFormed.length_localVelocity
    (ContactProblem.mem_constraints_of_mem_loads d.length_inertias (d.mem_loads hx))

theorem map_constraint_edgeLoads
    (d : m.Describes p w) :
    (m.edgeLoads p w).map Load.constraint =
      m.bundle.constraintsPermutation.gather p.constraints := by
  rw [edgeLoads, ← PartialPermutation.gather_map,
    ContactProblem.map_constraint_loads d.length_inertias]

theorem constraints_eq
    (d : m.Describes p w) :
    m.bundle.constraints = (m.edgeLoads p w).map Load.constraint := by
  rw [d.map_constraint_edgeLoads, ConstraintBundle.constraints, d.held,
    ← PartialPermutation.gather_map]
  rfl

theorem equationCounts_eq
    (d : m.Describes p w) :
    m.bundle.equationCounts = (m.edgeLoads p w).map fun x => x.constraint.numEquations := by
  rw [ConstraintBundle.equationCounts, d.constraints_eq, List.map_map]
  rfl

end Order

section Jacobian

theorem covers
    (d : m.Describes p w) :
    p.Covers m.cliquesPermutation :=
  (d.wellFormed.selects d.cliques).covers

theorem length_cliques
    (d : m.Describes p w) :
    m.velocitiesPermutation.domainSize = p.numVelocities :=
  d.velocities.domainSize_eq

theorem regular_jacobian
    (d : m.Describes p w) :
    m.bundle.jacobian.Regular := by
  have hregular := d.wellFormed.regular_assembled d.covers
  rw [← BlockSparseMatrix.regular_cast .double, ← d.jacobian,
    BlockSparseMatrix.regular_cast] at hregular
  exact hregular

theorem numCols_jacobian
    (d : m.Describes p w) :
    m.bundle.jacobian.numCols = m.velocitiesPermutation.permutedSize := by
  have hcols : m.bundle.jacobian.blockCols = m.cliquesPermutation.gather p.cliqueSizes :=
    congrArg BlockSparseMatrix.blockCols d.jacobian
  rw [BlockSparseMatrix.numCols, hcols, d.velocities.permutedSize_eq]

theorem blockRows_jacobian
    (d : m.Describes p w) :
    m.bundle.jacobian.blockRows = p.graph.edges.map fun e => e.equations.toNat :=
  congrArg BlockSparseMatrix.blockRows d.jacobian

/-- The constraint velocities, load by load. -/
theorem mulVec_jacobian
    (d : m.Describes p w)
    (hV : V.length = p.numVelocities) :
    m.bundle.jacobian.mulVec (m.velocitiesPermutation.gather V) =
      (m.edgeLoads p w).flatMap fun x => p.localVelocity V x.constraint := by
  obtain ⟨-, -, hinverse⟩ := d.order_spec
  have hproduct := d.wellFormed.mulVec_assembled d.covers d.velocities hinverse hV
  rw [← BlockSparseMatrix.mulVec_cast .double, d.jacobian, BlockSparseMatrix.mulVec_cast,
    hproduct, ← d.map_constraint_edgeLoads, List.flatMap_map]

theorem length_gather
    (d : m.Describes p w)
    (hV : V.length = p.numVelocities) :
    (m.velocitiesPermutation.gather V).length = m.bundle.jacobian.numCols := by
  rw [PartialPermutation.length_gather (hV.trans d.length_cliques.symm), d.numCols_jacobian]

/-- Participating velocities are gathered from velocities of all cliques. -/
theorem exists_gather
    (d : m.Describes p w)
    {x : List ℝ}
    (hx : x.length = m.velocitiesPermutation.permutedSize) :
    ∃ V : List ℝ, V.length = p.numVelocities ∧ m.velocitiesPermutation.gather V = x := by
  refine ⟨m.velocitiesPermutation.scatter x (Vec.zero p.numVelocities), ?_, ?_⟩
  · rw [PartialPermutation.length_scatter, Vec.length_zero]
  · apply PartialPermutation.gather_scatter hx
    rw [Vec.length_zero, d.length_cliques]

theorem numRows_jacobian
    (d : m.Describes p w) :
    m.bundle.jacobian.numRows =
      totalSize ((m.edgeLoads p w).map fun x => x.constraint.numEquations) := by
  have hzero : (Vec.zero p.numVelocities : List ℝ).length = p.numVelocities :=
    Vec.length_zero _
  rw [← d.regular_jacobian.length_mulVec
    (m.velocitiesPermutation.gather (Vec.zero p.numVelocities)), d.mulVec_jacobian hzero,
    List.flatMap_def, ← Vec.totalSize_map_length, List.map_map]
  congr 1
  apply List.map_congr_left
  intro x hx
  exact d.length_localVelocity hx

/-- Parts for all loads have together as many entries as there are equations. -/
theorem length_flatMap
    (d : m.Describes p w)
    {f : Load → List ℝ}
    (hf : ∀ x ∈ m.edgeLoads p w, (f x).length = x.constraint.numEquations) :
    ((m.edgeLoads p w).flatMap f).length = m.bundle.jacobian.numRows := by
  rw [List.length_flatMap, List.map_congr_left hf, d.numRows_jacobian, Vec.totalSize_eq_sum]

/-- The generalized impulses, in inner products with velocities of all cliques. -/
theorem dot_transposeMulVec
    (d : m.Describes p w)
    {f : Load → List ℝ}
    (hf : ∀ x ∈ m.edgeLoads p w, (f x).length = x.constraint.numEquations)
    (hW : W.length = p.numVelocities) :
    Vec.dot (m.velocitiesPermutation.gather W)
        (m.bundle.jacobian.transposeMulVec ((m.edgeLoads p w).flatMap f)) =
      ((p.loads w).map fun x => Vec.dot (p.localVelocity W x.constraint) (f x)).sum := by
  rw [d.regular_jacobian.dot_transposeMulVec (d.length_gather hW) (d.length_flatMap hf),
    d.mulVec_jacobian hW, Vec.dot_comm, Vec.dot_flatMap]
  · exact (d.perm_edgeLoads.map _).sum_eq
  · intro x hx
    rw [d.length_localVelocity hx, hf x hx]

end Jacobian

section Bundle

theorem length_bias
    (d : m.Describes p w) :
    m.bundle.bias.length = m.bundle.jacobian.numRows := by
  rw [d.bias]
  exact d.length_flatMap fun x hx => Load.length_bias (d.proper hx)

theorem length_inverse
    (d : m.Describes p w) :
    m.bundle.inverseRegularization.length = m.bundle.jacobian.numRows := by
  rw [d.inverse, List.length_map, d.regularization]
  exact d.length_flatMap fun x hx => Load.length_regularization (d.proper hx)

/-- Products with the negative inverse regularization, load by load. -/
theorem zipWith_neg_inverse
    (d : m.Describes p w)
    {f : Load → List ℝ}
    (hf : ∀ x ∈ m.edgeLoads p w, (f x).length = x.constraint.numEquations) :
    List.zipWith (· * ·) (Vec.neg m.bundle.inverseRegularization)
        ((m.edgeLoads p w).flatMap f) =
      (m.edgeLoads p w).flatMap fun x =>
        List.zipWith (fun d r => -d / r) (f x) (x.regularization p.timeStep) := by
  have hregularization : ∀ x ∈ m.edgeLoads p w,
      ((x.regularization p.timeStep).map fun r : ℝ => -(1 / r)).length = (f x).length := by
    intro x hx
    rw [List.length_map, Load.length_regularization (d.proper hx), hf x hx]
  have hnegative : Vec.neg m.bundle.inverseRegularization =
      (m.edgeLoads p w).flatMap fun x =>
        (x.regularization p.timeStep).map fun r : ℝ => -(1 / r) := by
    rw [d.inverse, d.regularization, Vec.neg, List.map_map, List.map_flatMap]
    rfl
  rw [hnegative]
  change List.zipWith (fun a b : ℝ => a * b) _ _ = _
  rw [Vec.zipWith_flatMap _ hregularization]
  apply List.flatMap_congr
  intro x _
  rw [List.zipWith_map_left, List.zipWith_comm]
  congr 1
  funext a r
  rw [neg_mul, one_div_mul_eq_div, neg_div]

/-- The impulses before the projection, load by load. -/
theorem unprojected_eq
    (d : m.Describes p w)
    (hV : V.length = p.numVelocities) :
    m.unprojected (m.velocitiesPermutation.gather V) =
      .ok ((m.edgeLoads p w).flatMap (p.unprojectedAt V)) := by
  have hvelocity : ∀ x ∈ m.edgeLoads p w,
      (p.localVelocity V x.constraint).length = (x.bias p.timeStep).length := by
    intro x hx
    rw [d.length_localVelocity hx, Load.length_bias (d.proper hx)]
  have hvelocities := d.length_flatMap (f := fun x => p.localVelocity V x.constraint)
    fun x hx => d.length_localVelocity hx
  have hlength : ∀ x ∈ m.edgeLoads p w,
      (Vec.sub (p.localVelocity V x.constraint) (x.bias p.timeStep)).length =
        x.constraint.numEquations := by
    intro x hx
    rw [Vec.length_sub, ← hvelocity x hx, Nat.min_self, d.length_localVelocity hx]
  have hdifference : Vec.sub ((m.edgeLoads p w).flatMap fun x => p.localVelocity V x.constraint)
        m.bundle.bias =
      (m.edgeLoads p w).flatMap fun x =>
        Vec.sub (p.localVelocity V x.constraint) (x.bias p.timeStep) := by
    rw [d.bias]
    exact Vec.zipWith_flatMap _ hvelocity
  unfold unprojected
  rw [d.mulVec_jacobian hV,
    ConstraintBundle.unprojectedImpulses_eq (hvelocities.trans d.length_bias.symm)
      (d.length_inverse.trans hvelocities.symm), hdifference, d.zipWith_neg_inverse hlength]
  rfl

/-- Splitting by constraints gives the parts of the loads. -/
theorem split_equationCounts
    (d : m.Describes p w)
    {f : Load → List ℝ}
    (hf : ∀ x ∈ m.edgeLoads p w, (f x).length = x.constraint.numEquations) :
    Vec.split m.bundle.equationCounts ((m.edgeLoads p w).flatMap f) =
      (m.edgeLoads p w).map f := by
  rw [List.flatMap_def, d.equationCounts_eq]
  apply Vec.split_flatten_of_sizes
  rw [List.map_map]
  exact List.map_congr_left hf

/-- The parts of the constraints, load by load. -/
theorem parts_eq
    (d : m.Describes p w)
    {f : Load → List ℝ}
    (hf : ∀ x ∈ m.edgeLoads p w, (f x).length = x.constraint.numEquations) :
    m.bundle.parts ((m.edgeLoads p w).flatMap f) =
      (m.edgeLoads p w).map fun x => (x.constraint, f x, x.regularization p.timeStep) := by
  have hregularization : ∀ x ∈ m.edgeLoads p w,
      (x.regularization p.timeStep).length = x.constraint.numEquations :=
    fun x hx => Load.length_regularization (d.proper hx)
  unfold ConstraintBundle.parts
  rw [d.split_equationCounts hf, d.regularization, ← edgeLoads,
    d.split_equationCounts hregularization, d.constraints_eq, List.zip_map', List.zip_map']

theorem length_unprojectedAt
    (d : m.Describes p w)
    {x : Load}
    (hx : x ∈ m.edgeLoads p w) :
    (p.unprojectedAt V x).length = x.constraint.numEquations :=
  Load.length_unprojected (d.proper hx) (d.length_localVelocity hx)

theorem length_impulseAt
    (d : m.Describes p w)
    {x : Load}
    (hx : x ∈ m.edgeLoads p w) :
    (p.impulseAt V x).length = x.constraint.numEquations :=
  Load.length_impulse (d.proper hx) (d.length_localVelocity hx)

/-- What is computed of all constraints at their unprojected impulses, load by load. -/
theorem mapM_parts_eq
    (d : m.Describes p w)
    {β : Type} {f : Constraint ℝ → List ℝ → List ℝ → Except Error β} {g : Load → β}
    (h : ∀ x ∈ m.edgeLoads p w,
      f x.constraint (p.unprojectedAt V x) (x.regularization p.timeStep) = .ok (g x)) :
    ((m.bundle.parts ((m.edgeLoads p w).flatMap (p.unprojectedAt V))).mapM
      fun (c, yᵢ, Rᵢ) => f c yᵢ Rᵢ) = .ok ((m.edgeLoads p w).map g) := by
  rw [d.parts_eq fun x hx => d.length_unprojectedAt hx, List.mapM_map]
  exact Outcome.mapM_eq_ok_map h

/-- The projected impulses, load by load. -/
theorem impulses_eq
    (d : m.Describes p w) :
    m.bundle.impulses ((m.edgeLoads p w).flatMap (p.unprojectedAt V)) =
      .ok ((m.edgeLoads p w).flatMap (p.impulseAt V)) := by
  have hresults := d.mapM_parts_eq (f := Constraint.impulse) (g := p.impulseAt V) fun x hx =>
    Load.impulse_eq (d.proper hx) (d.length_localVelocity hx)
  unfold ConstraintBundle.impulses
  rw [hresults, Outcome.ok_bind, List.flatMap_def]

/-- The projected impulses with the derivatives of the projections, load by load. -/
theorem project_eq
    (d : m.Describes p w) :
    m.bundle.project ((m.edgeLoads p w).flatMap (p.unprojectedAt V)) =
      .ok ((m.edgeLoads p w).flatMap (p.impulseAt V),
        (m.edgeLoads p w).map (p.derivativeAt m.bundle.format V)) := by
  have hresults := d.mapM_parts_eq (f := fun c => c.project m.bundle.format)
    (g := fun x => (p.impulseAt V x, p.derivativeAt m.bundle.format V x)) fun x hx =>
      (Load.project_eq (d.proper hx) (d.length_localVelocity hx)).1
  unfold ConstraintBundle.project
  rw [hresults, Outcome.ok_bind, List.flatMap_map, List.map_map]
  rfl

/-- The cost contributions, load by load. -/
theorem regularizerCost_eq
    (d : m.Describes p w) :
    m.bundle.regularizerCost ((m.edgeLoads p w).flatMap (p.unprojectedAt V)) =
      .ok ((p.loads w).map (p.costAt V)).sum := by
  have hresults := d.mapM_parts_eq (f := Constraint.cost) (g := p.costAt V) fun x hx =>
    Load.cost_eq (d.proper hx) (d.length_localVelocity hx)
  unfold ConstraintBundle.regularizerCost
  rw [hresults, Outcome.ok_bind, Vec.sum_eq]
  exact congrArg Except.ok (d.perm_edgeLoads.map _).sum_eq

end Bundle

/-- **The evaluation of a model**, load by load.  It is not refused. -/
theorem evaluate_eq
    (d : m.Describes p w)
    (hV : V.length = p.numVelocities)
    (withDerivatives : Bool) :
    m.evaluate (m.velocitiesPermutation.gather V) withDerivatives =
      .ok
        { momentumCost := m.momentumCost (m.velocitiesPermutation.gather V)
          regularizerCost := ((p.loads w).map (p.costAt V)).sum
          gradient := Vec.sub (m.momentumGain (m.velocitiesPermutation.gather V))
            (m.bundle.jacobian.transposeMulVec ((m.edgeLoads p w).flatMap (p.impulseAt V)))
          constraintVelocities :=
            (m.edgeLoads p w).flatMap fun x => p.localVelocity V x.constraint
          unprojected := (m.edgeLoads p w).flatMap (p.unprojectedAt V)
          impulses := (m.edgeLoads p w).flatMap (p.impulseAt V)
          derivatives? :=
            if withDerivatives then
              some ((m.edgeLoads p w).map (p.derivativeAt m.bundle.format V))
            else none } := by
  have hunprojected := d.unprojected_eq hV
  unfold unprojected at hunprojected
  unfold evaluate
  dsimp only
  rw [hunprojected, Outcome.ok_bind, d.impulses_eq, d.project_eq, d.regularizerCost_eq,
    d.mulVec_jacobian hV]
  cases withDerivatives <;> rfl

section Operands

variable {v : Tensor ℝ}

/-- The evaluation of a model for a vector of velocities. -/
theorem evaluateTensor_eq
    (d : m.Describes p w)
    (hv : v.shape = [m.numVelocities])
    (hV : V.length = p.numVelocities)
    (hgather : m.velocitiesPermutation.gather V = v.entries)
    (withDerivatives : Bool) :
    m.evaluateTensor v withDerivatives =
      .ok
        { momentumCost := (m.cast v.format).momentumCost v.entries
          regularizerCost := ((p.loads w).map (p.costAt V)).sum
          gradient := Vec.sub ((m.cast v.format).momentumGain v.entries)
            ((m.cast v.format).bundle.jacobian.transposeMulVec
              ((m.edgeLoads p w).flatMap (p.impulseAt V)))
          constraintVelocities :=
            (m.edgeLoads p w).flatMap fun x => p.localVelocity V x.constraint
          unprojected := (m.edgeLoads p w).flatMap (p.unprojectedAt V)
          impulses := (m.edgeLoads p w).flatMap (p.impulseAt V)
          derivatives? :=
            if withDerivatives then
              some ((m.edgeLoads p w).map (p.derivativeAt v.format V))
            else none } := by
  have hevaluate := (d.cast v.format).evaluate_eq hV withDerivatives
  rw [show (m.cast v.format).velocitiesPermutation = m.velocitiesPermutation from rfl, hgather]
    at hevaluate
  exact (evaluateTensor_of_shape hv withDerivatives).trans hevaluate

/-- The second derivative of a model at a vector of velocities. -/
theorem hessianTensor_eq
    (d : m.Describes p w)
    (hv : v.shape = [m.numVelocities])
    (hV : V.length = p.numVelocities)
    (hgather : m.velocitiesPermutation.gather V = v.entries) :
    m.hessianTensor v none =
      .ok ((m.cast v.format).hessianOf
        ((m.edgeLoads p w).map (p.derivativeAt v.format V))) := by
  have hevaluate := (evaluateTensor_of_shape hv true).symm.trans
    (d.evaluateTensor_eq hv hV hgather true)
  rw [hessianTensor_of_shape hv]
  unfold hessian
  change ((m.cast v.format).evaluate v.entries true >>= _) = _
  rw [hevaluate]
  rfl

/-- The numbers of equations of the constraints are those of their loads. -/
theorem map_length_loads
    (d : m.Describes p w)
    {f : Load → List ℝ}
    (hf : ∀ x ∈ p.loads w, (f x).length = x.constraint.numEquations) :
    (p.loads w).map (fun x => (f x).length) = p.equationCounts := by
  rw [List.map_congr_left hf, ContactProblem.equationCounts,
    ← ContactProblem.map_constraint_loads d.length_inertias, List.map_map]
  rfl

/-- The impulses of the problem, constraint by constraint. -/
theorem split_impulses
    (d : m.Describes p w)
    (V : List ℝ) :
    Vec.split p.equationCounts ((p.loads w).flatMap (p.impulseAt V)) =
      (p.loads w).map (p.impulseAt V) := by
  rw [List.flatMap_def, Vec.split_flatten_of_sizes]
  rw [List.map_map]
  exact d.map_length_loads fun x hx => d.length_impulseAt (d.perm_edgeLoads.mem_iff.2 hx)

/-- Scattering by the order of the edges restores the order of the problem. -/
theorem scatter_equations
    (d : m.Describes p w)
    {f : Load → List ℝ}
    (hf : ∀ x ∈ p.loads w, (f x).length = x.constraint.numEquations) :
    ((m.edgeLoads p w).flatMap f).length = m.bundle.equationsPermutation.permutedSize ∧
      m.bundle.equationsPermutation.scatter ((m.edgeLoads p w).flatMap f)
          (Vec.zero m.bundle.equationsPermutation.domainSize) =
        (p.loads w).flatMap f := by
  obtain ⟨-, htotal, -⟩ := d.order_spec
  have hsizes := d.map_length_loads hf
  have hlength : ((p.loads w).flatMap f).length =
      m.bundle.equationsPermutation.domainSize := by
    rw [List.length_flatMap, hsizes, d.equations.domainSize_eq, Vec.totalSize_eq_sum]
  have hgather : (m.edgeLoads p w).flatMap f =
      m.bundle.equationsPermutation.gather ((p.loads w).flatMap f) :=
    (d.equations.gather_flatMap hsizes).symm
  rw [hgather]
  refine ⟨PartialPermutation.length_gather hlength, ?_⟩
  exact (d.equations.isTotal htotal).scatter_gather hlength (Vec.length_zero _)

/-- The impulses of a vector of velocities, in the order of the problem. -/
theorem impulsesTensor_eq
    (d : m.Describes p w)
    (hv : v.shape = [m.numVelocities])
    (hV : V.length = p.numVelocities)
    (hgather : m.velocitiesPermutation.gather V = v.entries) :
    m.impulsesTensor v = .ok (Tensor.ofVec v.format ((p.loads w).flatMap (p.impulseAt V))) := by
  obtain ⟨hsize, hscatter⟩ := d.scatter_equations (f := p.impulseAt V) fun x hx =>
    d.length_impulseAt (d.perm_edgeLoads.mem_iff.2 hx)
  rw [impulsesTensor_of_shape (y := (m.edgeLoads p w).flatMap (p.unprojectedAt V)) _ _
    d.length_bias d.length_inverse _ d.impulses_eq hsize, hscatter]
  · rw [hv, d.numCols_jacobian]
    rfl
  · exact d.regular_jacobian.length_mulVec _
  · rw [← hgather]
    exact d.unprojected_eq hV

end Operands

section Dynamics

variable {v x : List ℝ}

theorem length_freeVelocity
    (d : m.Describes p w) :
    p.freeVelocity.length = p.numVelocities := by
  unfold ContactProblem.freeVelocity ContactProblem.numVelocities ContactProblem.cliqueSizes
  rw [List.length_flatMap, Vec.totalSize_eq_sum]
  congr 1
  exact List.map_congr_left d.wellFormed.length_freeVelocity

/-- The sizes of the dynamics matrices of all cliques. -/
theorem map_size_dynamics
    (d : m.Describes p w) :
    (p.cliques.map (·.dynamics)).map (·.numRows) = p.cliqueSizes ∧
      (p.cliques.map (·.dynamics)).map (·.numCols) = p.cliqueSizes := by
  unfold ContactProblem.cliqueSizes
  rw [List.map_map, List.map_map]
  refine ⟨rfl, ?_⟩
  apply List.map_congr_left
  intro c hc
  exact (d.wellFormed.square c hc).symm

theorem map_size_gathered
    (d : m.Describes p w) :
    (m.cliquesPermutation.gather (p.cliques.map (·.dynamics))).map (·.numRows) =
        m.cliquesPermutation.gather p.cliqueSizes ∧
      (m.cliquesPermutation.gather (p.cliques.map (·.dynamics))).map (·.numCols) =
        m.cliquesPermutation.gather p.cliqueSizes := by
  obtain ⟨hrows, hcols⟩ := d.map_size_dynamics
  rw [← PartialPermutation.gather_map, ← PartialPermutation.gather_map, hrows, hcols]
  exact ⟨rfl, rfl⟩

/-- The dynamics matrices that the model holds, up to their formats. -/
theorem dynamics_eq
    (d : m.Describes p w) :
    m.dynamics.map (DenseMatrix.cast .double) =
      (m.cliquesPermutation.gather (p.cliques.map (·.dynamics))).map
        (DenseMatrix.cast .double) := by
  rw [d.dynamics, PartialPermutation.gather_map, List.map_map]
  rfl

/-- The sizes of the dynamics matrices that the model holds. -/
theorem map_size_held
    (d : m.Describes p w) :
    m.dynamics.map (·.numRows) = m.cliquesPermutation.gather p.cliqueSizes ∧
      m.dynamics.map (·.numCols) = m.cliquesPermutation.gather p.cliqueSizes := by
  have hrows := congrArg (List.map DenseMatrix.numRows) d.dynamics_eq
  have hcols := congrArg (List.map DenseMatrix.numCols) d.dynamics_eq
  rw [List.map_map, List.map_map] at hrows hcols
  simp only [Function.comp_def, DenseMatrix.numRows_cast, DenseMatrix.numCols_cast] at hrows hcols
  obtain ⟨hrows', hcols'⟩ := d.map_size_gathered
  exact ⟨hrows.trans hrows', hcols.trans hcols'⟩

/-- The dynamics of the model are those of the participating cliques. -/
theorem dynamicsTimes_eq
    (d : m.Describes p w)
    (x : List ℝ) :
    m.dynamicsTimes x =
      DenseMatrix.diagonalTimes
        (m.cliquesPermutation.gather (p.cliques.map (·.dynamics))) x := by
  have htimes : ∀ (As : List (DenseMatrix ℝ)) (xs : List (List ℝ)),
      List.zipWith DenseMatrix.mulVec As xs =
        List.zipWith DenseMatrix.mulVec (As.map (DenseMatrix.cast .double)) xs := by
    intro As xs
    rw [List.zipWith_map_left]
    simp only [DenseMatrix.mulVec_cast]
  unfold dynamicsTimes DenseMatrix.diagonalTimes
  rw [htimes, d.dynamics_eq, ← htimes, d.map_size_held.1, d.map_size_gathered.2]

theorem length_dynamicsTimes
    (d : m.Describes p w)
    (x : List ℝ) :
    (m.dynamicsTimes x).length = m.velocitiesPermutation.permutedSize := by
  rw [d.dynamicsTimes_eq, DenseMatrix.length_diagonalTimes, d.map_size_gathered.1,
    d.velocities.permutedSize_eq]

/-- Cliques at rest do not contribute to the momentum. -/
theorem dot_dynamicsTimes
    (d : m.Describes p w)
    (hW : W.length = p.numVelocities)
    (hx : x.length = m.velocitiesPermutation.permutedSize) :
    Vec.dot W (p.dynamicsTimes (m.velocitiesPermutation.scatter x (Vec.zero p.numVelocities))) =
      Vec.dot (m.velocitiesPermutation.gather W) (m.dynamicsTimes x) := by
  obtain ⟨hrows, hcols⟩ := d.map_size_dynamics
  have hW' : W.length = m.velocitiesPermutation.domainSize :=
    hW.trans d.length_cliques.symm
  have htransposed : ((p.cliques.map (·.dynamics)).map DenseMatrix.transpose).map (·.numRows) =
        p.cliqueSizes ∧
      ((p.cliques.map (·.dynamics)).map DenseMatrix.transpose).map (·.numCols) =
        p.cliqueSizes := by
    constructor
    · rw [← hcols, List.map_map]
      exact List.map_congr_left fun A _ => DenseMatrix.numRows_transpose A
    · rw [← hrows, List.map_map]
      exact List.map_congr_left fun A _ => DenseMatrix.numCols_transpose A
  have hscattered :
      (m.velocitiesPermutation.scatter x (Vec.zero p.numVelocities) : List ℝ).length =
        p.numVelocities := by
    rw [PartialPermutation.length_scatter, Vec.length_zero]
  have hlength : (DenseMatrix.diagonalTimes
      ((p.cliques.map (·.dynamics)).map DenseMatrix.transpose) W).length =
        m.velocitiesPermutation.domainSize := by
    rw [DenseMatrix.length_diagonalTimes, htransposed.1, d.velocities.domainSize_eq]
  unfold ContactProblem.dynamicsTimes
  rw [DenseMatrix.dot_diagonalTimes (by rw [hrows]; exact hW) (by rw [hcols]; exact hscattered),
    ← d.length_cliques, PartialPermutation.dot_scatter hlength hx,
    DenseMatrix.gather_diagonalTimes d.velocities htransposed.1 htransposed.2 hW,
    d.dynamicsTimes_eq, DenseMatrix.dot_diagonalTimes, PartialPermutation.gather_map]
  · rw [PartialPermutation.length_gather hW', d.map_size_gathered.1, d.velocities.permutedSize_eq]
  · rw [hx, d.map_size_gathered.2, d.velocities.permutedSize_eq]

/-- Velocities that differ from the free motion in the participating cliques alone. -/
theorem sub_freeVelocity
    (d : m.Describes p w)
    (hv : v.length = m.velocitiesPermutation.permutedSize) :
    Vec.sub (m.velocitiesPermutation.scatter v p.freeVelocity) p.freeVelocity =
      m.velocitiesPermutation.scatter (Vec.sub v m.freeVelocity) (Vec.zero p.numVelocities) := by
  rw [PartialPermutation.sub_scatter hv (d.length_freeVelocity.trans d.length_cliques.symm),
    d.freeVelocity, d.length_cliques]

theorem length_held_freeVelocity
    (d : m.Describes p w) :
    m.freeVelocity.length = m.velocitiesPermutation.permutedSize := by
  rw [d.freeVelocity,
    PartialPermutation.length_gather (d.length_freeVelocity.trans d.length_cliques.symm)]

theorem length_motion
    (d : m.Describes p w)
    (hv : v.length = m.velocitiesPermutation.permutedSize) :
    (Vec.sub v m.freeVelocity).length = m.velocitiesPermutation.permutedSize := by
  rw [Vec.length_sub, hv, d.length_held_freeVelocity, Nat.min_self]

/-- Participating velocities among all velocities, where the other cliques move freely. -/
theorem expandTensor_eq
    (d : m.Describes p w)
    {v : Tensor ℝ}
    (hv : v.shape = [m.numVelocities]) :
    ∃ V : List ℝ,
      V = m.velocitiesPermutation.scatter v.entries p.freeVelocity ∧
        V.length = p.numVelocities ∧
        m.velocitiesPermutation.gather V = v.entries ∧
        m.expandTensor v = .ok (Tensor.ofVec v.format V) := by
  have hdomain : p.freeVelocity.length = m.velocitiesPermutation.domainSize :=
    d.length_freeVelocity.trans d.length_cliques.symm
  refine ⟨_, rfl, ?_, ?_, ?_⟩
  · rw [PartialPermutation.length_scatter, d.length_freeVelocity]
  · exact PartialPermutation.gather_scatter (Tensor.length_entries_of_shape hv) hdomain
  · rw [expandTensor_of_shape hv (by rw [d.fullFreeVelocity, hdomain]), d.fullFreeVelocity]

end Dynamics

end Describes

end ContactModel
end ConvexContact
