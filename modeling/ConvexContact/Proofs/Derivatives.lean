import Mathlib
import ConvexContact.ContactModel.Tangent
import ConvexContact.Proofs.Hessian
import ConvexContact.Proofs.Refinement
import ConvexContact.Proofs.Tangents

/-!
# Derivatives of a model

**Evaluation.**  A model whose numbers do not vary is evaluated at velocities that vary in a
direction.  Load by load, the unprojected impulses, the projected ones and the costs vary as the
coded derivatives state (`Describes.evaluate_varying`).

**Result.**  With symmetric dynamics, the tangent of the cost is the gradient in that direction, the
tangent of the gradient the second derivative times the direction, and the tangent of the impulses,
constraint by constraint, the derivative of the projection times `-R⁻¹ J dv`
(`derivatives_consistent`).
-/

namespace ConvexContact

section Reference

variable {α : Type} [Scalar α]

namespace ContactProblem

/-- The derivative of the projection of a constraint times `-R⁻¹ J dv`, at the velocities `V` of all
cliques in the direction `dV`. -/
def impulseTangent (p : ContactProblem α) (format : Format) (V dV : List α) (c : Constraint α)
    (w : α) : Except Error (List α) := do
  let u ← p.constraintVelocity V c
  let du ← p.constraintVelocity dV c
  let R ← c.regularization p.timeStep w
  let y := List.zipWith (fun d r => -d / r) (Vec.sub u (c.bias p.timeStep)) R
  let (_, D) ← c.project format y R
  .ok (D.mulVec (List.zipWith (fun d r => -d / r) du R))

/-- The tangents of the impulses, in the order of the problem. -/
def impulseTangents (p : ContactProblem α) (format : Format) (V dV : List α) :
    Except Error (List (List α)) := do
  let delassus ← p.delassusDiagonal
  (p.constraints.zip delassus.entries).mapM fun (c, w) => p.impulseTangent format V dV c w

end ContactProblem

end Reference

section Derivatives

variable [Threshold]

section Constants

theorem BlockSparseMatrix.cast_map_const
    (format : Format) (B : BlockSparseMatrix ℝ) :
    (B.map Dual.const).cast format = (B.cast format).map Dual.const := by
  unfold cast map
  rw [List.map_map, List.map_map]
  congr 1
  apply List.map_congr_left
  intro b _
  exact congrArg (Block.mk b.row b.col) (DenseMatrix.cast_map_const format b.matrix)

/-- Numbers that do not vary stay so in another format. -/
theorem ContactModel.cast_map_const
    (format : Format) (m : ContactModel ℝ) :
    (m.map Dual.const).cast format = (m.cast format).map Dual.const := by
  have hlist : ∀ x : List ℝ,
      (x.map Dual.const).map (Scalar.round format) =
        (x.map (Scalar.round format)).map Dual.const := by
    intro x
    rw [Unrounded.round_eq_id, Unrounded.round_eq_id, List.map_id, List.map_id]
  have hbundle : (m.bundle.map Dual.const).cast format = (m.bundle.cast format).map Dual.const := by
    unfold ConstraintBundle.cast ConstraintBundle.map
    dsimp only
    rw [hlist, hlist, hlist, BlockSparseMatrix.cast_map_const]
  have hdynamics : (m.dynamics.map (DenseMatrix.map Dual.const)).map (DenseMatrix.cast format) =
      (m.dynamics.map (DenseMatrix.cast format)).map (DenseMatrix.map Dual.const) := by
    rw [List.map_map, List.map_map]
    exact List.map_congr_left fun A _ => DenseMatrix.cast_map_const format A
  unfold cast map
  dsimp only
  rw [hbundle, hdynamics, hlist, hlist]

/-- A tensor that varies in the direction of another one of its shape. -/
theorem Tensor.dual_eq_ok
    {v dv : Tensor ℝ} {n : ℕ}
    (hv : v.shape = [n])
    (hdv : dv.shape = [n]) :
    ∃ x, v.dual (some dv) = .ok x ∧ x.shape = [n] ∧ x.format = v.format ∧
      Varies x.entries v.entries dv.entries := by
  have hlength : v.entries.length = dv.entries.length :=
    (length_entries_of_shape hv).trans (length_entries_of_shape hdv).symm
  have hsize : (List.zipWith (fun a b => (⟨a, some b⟩ : Dual ℝ)) v.entries dv.entries).length =
      size v.shape := by
    rw [List.length_zipWith, hlength, Nat.min_self, length_entries_of_shape hdv, hv]
    simp [size]
  refine ⟨v.varying dv, ?_, ?_, ?_, ?_⟩
  · unfold dual
    dsimp only
    rw [if_pos (hdv.trans hv.symm)]
  · rw [varying, shape_ofEntries, hv]
  · rw [varying, format_ofEntries]
  · rw [varying, entries_cast, entries_ofEntries _ hsize]
    constructor
    · apply List.ext_getElem
      · simp [hlength]
      · intro i h₁ h₂
        simp
    · apply List.ext_getElem
      · simp [hlength]
      · intro i h₁ h₂
        simp [Dual.tangent_eq]

end Constants

namespace ContactProblem

/-- The direction in which the unprojected impulse at a load varies. -/
noncomputable def unprojectedTangentAt (p : ContactProblem ℝ) (dV : List ℝ) (x : Load) : List ℝ :=
  x.unprojectedTangent p.timeStep (p.localVelocity dV x.constraint)

/-- The direction in which the impulse at a load varies. -/
noncomputable def impulseTangentAt (p : ContactProblem ℝ) (format : Format) (V dV : List ℝ)
    (x : Load) : List ℝ :=
  x.impulseTangent p.timeStep format (p.localVelocity V x.constraint)
    (p.localVelocity dV x.constraint)

/-- The tangent of the impulse of a constraint is that of its load. -/
theorem WellFormed.impulseTangent_eq
    {p : ContactProblem ℝ} {V dV : List ℝ}
    (hp : p.WellFormed)
    (format : Format)
    (hV : V.length = p.numVelocities)
    (hdV : dV.length = p.numVelocities)
    {x : Load}
    (hx : x.constraint ∈ p.constraints) :
    p.impulseTangent format V dV x.constraint x.inertia =
      .ok (p.impulseTangentAt format V dV x) := by
  have hproper := hp.proper _ hx
  have hproject :
      x.constraint.project format
          (x.unprojected p.timeStep (p.localVelocity V x.constraint))
          (x.regularization p.timeStep) =
        .ok (p.impulseAt V x, p.derivativeAt format V x) :=
    (Load.project_eq hproper (hp.length_localVelocity hx)).1
  unfold impulseTangent
  rw [hp.constraintVelocity_eq hV hx, Outcome.ok_bind, hp.constraintVelocity_eq hdV hx,
    Outcome.ok_bind, hproper.regularization_eq hp.timeStep_pos, Outcome.ok_bind]
  change (x.constraint.project format
    (x.unprojected p.timeStep (p.localVelocity V x.constraint))
    (x.regularization p.timeStep) >>= _) = _
  rw [hproject]
  rfl

end ContactProblem

namespace ContactModel

variable {m : ContactModel ℝ} {p : ContactProblem ℝ} {w V dV : List ℝ} {X : List (Dual ℝ)}

namespace Describes

/-- The tangents of the impulses, load by load. -/
theorem impulseTangents_eq
    (d : m.Describes p w)
    {delassus : Tensor ℝ}
    (hdelassus : p.delassusDiagonal = .ok delassus)
    (hw : delassus.entries = w)
    (format : Format)
    (hV : V.length = p.numVelocities)
    (hdV : dV.length = p.numVelocities) :
    p.impulseTangents format V dV = .ok ((p.loads w).map (p.impulseTangentAt format V dV)) := by
  unfold ContactProblem.impulseTangents
  rw [hdelassus, Outcome.ok_bind, hw, d.zip_constraints, List.mapM_map]
  exact Outcome.mapM_eq_ok_map fun x hx =>
    d.wellFormed.impulseTangent_eq format hV hdV
      (ContactProblem.mem_constraints_of_mem_loads d.length_inertias hx)

section Lengths

theorem length_unprojectedTangentAt
    (d : m.Describes p w)
    {x : Load}
    (hx : x ∈ m.edgeLoads p w) :
    (p.unprojectedTangentAt dV x).length = x.constraint.numEquations :=
  Load.length_unprojectedTangent (d.proper hx) (d.length_localVelocity hx)

theorem length_impulseTangentAt
    (d : m.Describes p w)
    {format : Format} {x : Load}
    (hx : x ∈ m.edgeLoads p w) :
    (p.impulseTangentAt format V dV x).length = x.constraint.numEquations :=
  Load.length_impulseTangent (d.proper hx) (d.length_localVelocity hx)

end Lengths

section Bundle

/-- The unprojected impulses of varying velocities, load by load. -/
theorem unprojected_varying
    (d : m.Describes p w)
    (hV : V.length = p.numVelocities)
    (hdV : dV.length = p.numVelocities)
    (hX : Varies X (m.velocitiesPermutation.gather V) (m.velocitiesPermutation.gather dV)) :
    ∃ Y, (m.map Dual.const).unprojected X = .ok Y ∧
      Varies Y ((m.edgeLoads p w).flatMap (p.unprojectedAt V))
        ((m.edgeLoads p w).flatMap (p.unprojectedTangentAt dV)) := by
  have hvelocities := hX.blockMulVec m.bundle.jacobian
  have hrows : (m.bundle.jacobian.mulVec (m.velocitiesPermutation.gather V)).length =
      m.bundle.jacobian.numRows :=
    d.regular_jacobian.length_mulVec _
  have hlength : ((m.bundle.jacobian.map Dual.const).mulVec X).length =
      m.bundle.jacobian.numRows := by
    rw [hvelocities.length_eq.1, hrows]
  have hvaries := (hvelocities.sub_const (d.length_bias.trans hrows.symm)).mul_const
    (Vec.neg m.bundle.inverseRegularization)
  have hvalue := d.unprojected_eq hV
  unfold unprojected at hvalue
  rw [ConstraintBundle.unprojectedImpulses_eq (hrows.trans d.length_bias.symm)
    (d.length_inverse.trans hrows.symm)] at hvalue
  have htangent := d.zipWith_neg_inverse (f := fun x => p.localVelocity dV x.constraint)
    fun x hx => d.length_localVelocity hx
  rw [Except.ok.inj hvalue, d.mulVec_jacobian hdV, htangent] at hvaries
  refine ⟨_, ?_, hvaries⟩
  refine (ConstraintBundle.unprojectedImpulses_eq (b := m.bundle.map Dual.const) ?_ ?_).trans ?_
  · exact hlength.trans (d.length_bias.symm.trans (List.length_map _).symm)
  · exact (List.length_map _).trans (d.length_inverse.trans hlength.symm)
  · refine congrArg Except.ok ?_
    change List.zipWith _ (Vec.neg (m.bundle.inverseRegularization.map Dual.const)) _ =
      List.zipWith _ ((Vec.neg m.bundle.inverseRegularization).map Dual.const) _
    rw [Vec.neg, Vec.neg, List.map_map, List.map_map]
    rfl

theorem regularization_pos
    (d : m.Describes p w)
    (hpos : ∀ r ∈ m.bundle.regularization, 0 < r)
    {x : Load}
    (hx : x ∈ m.edgeLoads p w) :
    ∀ r ∈ x.regularization p.timeStep, 0 < r := by
  intro r hr
  apply hpos
  rw [d.regularization]
  exact List.mem_flatMap.2 ⟨x, hx, hr⟩

/-- The parts of the constraints, where impulses vary and the constraints do not. -/
theorem parts_map_const
    (d : m.Describes p w)
    (Y : List (Dual ℝ)) :
    (m.bundle.map Dual.const).parts Y =
      ((m.edgeLoads p w).map fun x => x.constraint.map Dual.const).zip
        ((Vec.split ((m.edgeLoads p w).map fun x => x.constraint.numEquations) Y).zip
          ((m.edgeLoads p w).map fun x => (x.regularization p.timeStep).map Dual.const)) := by
  have hconstraints : (m.bundle.map Dual.const).constraints =
      (m.edgeLoads p w).map fun x => x.constraint.map Dual.const := by
    have hmap : (m.bundle.map Dual.const).constraints =
        m.bundle.constraints.map (Constraint.map Dual.const) := by
      unfold ConstraintBundle.constraints ConstraintBundle.map
      rw [List.map_map, List.map_map]
      rfl
    rw [hmap, d.constraints_eq, List.map_map]
    rfl
  have hcounts : (m.bundle.map Dual.const).equationCounts =
      (m.edgeLoads p w).map fun x => x.constraint.numEquations := by
    unfold ConstraintBundle.equationCounts
    rw [hconstraints, List.map_map]
    apply List.map_congr_left
    intro x _
    exact List.length_map _
  have hregularization : Vec.split ((m.edgeLoads p w).map fun x => x.constraint.numEquations)
        (m.bundle.map Dual.const).regularization =
      (m.edgeLoads p w).map fun x => (x.regularization p.timeStep).map Dual.const := by
    change Vec.split _ (m.bundle.regularization.map Dual.const) = _
    rw [d.regularization, List.map_flatMap, List.flatMap_def]
    apply Vec.split_flatten_of_sizes
    rw [List.map_map]
    apply List.map_congr_left
    intro x hx
    exact (List.length_map _).trans (Load.length_regularization (d.proper hx))
  unfold ConstraintBundle.parts
  rw [hconstraints, hcounts, hregularization]

/-- The evaluations of the loads at their parts of varying impulses. -/
theorem parts_varying
    (d : m.Describes p w)
    (hpos : ∀ r ∈ m.bundle.regularization, 0 < r)
    (format : Format)
    {Y : List (Dual ℝ)}
    (hY : Varies Y ((m.edgeLoads p w).flatMap (p.unprojectedAt V))
      ((m.edgeLoads p w).flatMap (p.unprojectedTangentAt dV))) :
    List.Forall₂
      (fun x part =>
        ∃ Γ D C,
          part.1.project format part.2.1 part.2.2 = .ok (Γ, D) ∧
            part.1.impulse part.2.1 part.2.2 = .ok Γ ∧
            part.1.cost part.2.1 part.2.2 = .ok C ∧
            Varies Γ (p.impulseAt V x) (p.impulseTangentAt format V dV x) ∧
            C.value = p.costAt V x ∧
            C.tangent = -Vec.dot (p.localVelocity dV x.constraint) (p.impulseAt V x))
      (m.edgeLoads p w) ((m.bundle.map Dual.const).parts Y) := by
  have hsplit := hY.split (fun x hx => d.length_unprojectedAt hx)
    fun x hx => d.length_unprojectedTangentAt hx
  have hparts := forall₂_zip_map (fun x : Load => x.constraint.map Dual.const)
    (fun x => (x.regularization p.timeStep).map Dual.const) hsplit
  rw [d.parts_map_const]
  refine ((List.forall₂_and_left _ _).2 ⟨fun x hx => hx, hparts⟩).imp ?_
  rintro x part ⟨hx, hconstraint, hvaries, hregularization⟩
  have hproper := d.proper hx
  have hpositive := d.regularization_pos hpos hx
  have hsize : (x.regularization p.timeStep).length =
      (p.localVelocity dV x.constraint).length := by
    rw [Load.length_regularization hproper, d.length_localVelocity hx]
  obtain ⟨Γ, D, C, hproject, himpulse, hcost, hΓ, hvalue, htangent⟩ :=
    Load.varying hproper format hpositive (d.length_localVelocity hx) hvaries
  rw [hconstraint, hregularization]
  refine ⟨Γ, D, C, hproject, himpulse, hcost, hΓ, hvalue, htangent.trans ?_⟩
  exact Load.dot_unprojectedTangent hpositive hsize

theorem project_varying
    (d : m.Describes p w)
    (hpos : ∀ r ∈ m.bundle.regularization, 0 < r)
    {Y : List (Dual ℝ)}
    (hY : Varies Y ((m.edgeLoads p w).flatMap (p.unprojectedAt V))
      ((m.edgeLoads p w).flatMap (p.unprojectedTangentAt dV))) :
    ∃ Γ D, (m.bundle.map Dual.const).project Y = .ok (Γ, D) ∧
      Varies Γ ((m.edgeLoads p w).flatMap (p.impulseAt V))
        ((m.edgeLoads p w).flatMap (p.impulseTangentAt m.bundle.format V dV)) := by
  have hparts := d.parts_varying hpos m.bundle.format hY
  have hresults :
      List.Forall₂
        (fun x part => ∃ result : List (Dual ℝ) × DenseMatrix (Dual ℝ),
          part.1.project m.bundle.format part.2.1 part.2.2 = .ok result ∧
            Varies result.1 (p.impulseAt V x) (p.impulseTangentAt m.bundle.format V dV x))
        (m.edgeLoads p w) ((m.bundle.map Dual.const).parts Y) := by
    refine hparts.imp ?_
    rintro x part ⟨Γ, D, -, hproject, -, -, hΓ, -⟩
    exact ⟨(Γ, D), hproject, hΓ⟩
  obtain ⟨results, hmapM, hall⟩ := Outcome.exists_mapM_eq_ok hresults
  refine ⟨results.flatMap (·.1), results.map (·.2), ?_, Varies.flatMap_forall₂ hall⟩
  unfold ConstraintBundle.project
  exact congrArg (fun outcome => outcome >>= fun results =>
    .ok (results.flatMap (·.1), results.map (·.2))) hmapM

theorem impulses_varying
    (d : m.Describes p w)
    (hpos : ∀ r ∈ m.bundle.regularization, 0 < r)
    (format : Format)
    {Y : List (Dual ℝ)}
    (hY : Varies Y ((m.edgeLoads p w).flatMap (p.unprojectedAt V))
      ((m.edgeLoads p w).flatMap (p.unprojectedTangentAt dV))) :
    ∃ Γ, (m.bundle.map Dual.const).impulses Y = .ok Γ ∧
      Varies Γ ((m.edgeLoads p w).flatMap (p.impulseAt V))
        ((m.edgeLoads p w).flatMap (p.impulseTangentAt format V dV)) := by
  have hparts := d.parts_varying hpos format hY
  have hresults :
      List.Forall₂
        (fun x part => ∃ Γ : List (Dual ℝ),
          part.1.impulse part.2.1 part.2.2 = .ok Γ ∧
            Varies Γ (p.impulseAt V x) (p.impulseTangentAt format V dV x))
        (m.edgeLoads p w) ((m.bundle.map Dual.const).parts Y) := by
    refine hparts.imp ?_
    rintro x part ⟨Γ, -, -, -, himpulse, -, hΓ, -⟩
    exact ⟨Γ, himpulse, hΓ⟩
  obtain ⟨results, hmapM, hall⟩ := Outcome.exists_mapM_eq_ok hresults
  have hvaries := Varies.flatMap_forall₂ hall
  rw [List.flatMap_id'] at hvaries
  refine ⟨results.flatten, ?_, hvaries⟩
  unfold ConstraintBundle.impulses
  exact congrArg (fun outcome => outcome >>= fun gamma => .ok gamma.flatten) hmapM

/-- The cost of the constraints varies along their impulses. -/
theorem regularizerCost_varying
    (d : m.Describes p w)
    (hpos : ∀ r ∈ m.bundle.regularization, 0 < r)
    {Y : List (Dual ℝ)}
    (hY : Varies Y ((m.edgeLoads p w).flatMap (p.unprojectedAt V))
      ((m.edgeLoads p w).flatMap (p.unprojectedTangentAt dV))) :
    ∃ C, (m.bundle.map Dual.const).regularizerCost Y = .ok C ∧
      C.tangent = -((p.loads w).map fun x =>
        Vec.dot (p.localVelocity dV x.constraint) (p.impulseAt V x)).sum := by
  have hparts := d.parts_varying hpos m.bundle.format hY
  have hresults :
      List.Forall₂
        (fun x part => ∃ C : Dual ℝ,
          part.1.cost part.2.1 part.2.2 = .ok C ∧
            C.tangent = -Vec.dot (p.localVelocity dV x.constraint) (p.impulseAt V x))
        (m.edgeLoads p w) ((m.bundle.map Dual.const).parts Y) := by
    refine hparts.imp ?_
    rintro x part ⟨-, -, C, -, -, hcost, -, -, htangent⟩
    exact ⟨C, hcost, htangent⟩
  obtain ⟨costs, hmapM, hall⟩ := Outcome.exists_mapM_eq_ok hresults
  have hcosts : costs.map Dual.tangent = (m.edgeLoads p w).map fun x =>
      -Vec.dot (p.localVelocity dV x.constraint) (p.impulseAt V x) :=
    map_eq_of_forall₂ hall fun _ _ h => h
  refine ⟨Vec.sum costs, ?_, ?_⟩
  · unfold ConstraintBundle.regularizerCost
    exact congrArg (fun outcome => outcome >>= fun costs => .ok (Vec.sum costs)) hmapM
  · rw [(Varies.sum_value costs).2, hcosts, (d.perm_edgeLoads.map _).sum_eq, List.sum_neg,
      List.map_map]
    rfl

end Bundle

section Momentum

variable {v dv x y : List ℝ}

theorem momentumGain_varying
    (d : m.Describes p w)
    (hv : v.length = m.velocitiesPermutation.permutedSize)
    (hX : Varies X v dv) :
    Varies ((m.map Dual.const).momentumGain X) (m.momentumGain v) (m.dynamicsTimes dv) := by
  have hfree : m.freeVelocity.length = v.length :=
    d.length_held_freeVelocity.trans hv.symm
  have hrows : (m.map Dual.const).dynamics.map (·.numRows) = m.dynamics.map (·.numRows) := by
    change (m.dynamics.map (DenseMatrix.map Dual.const)).map _ = _
    rw [List.map_map]
    apply List.map_congr_left
    intro A _
    exact DenseMatrix.numRows_map_const A
  unfold momentumGain dynamicsTimes
  rw [hrows]
  exact (hX.sub_const hfree).blocks m.dynamics (m.dynamics.map (·.numRows))

/-- Symmetric dynamics are self-adjoint. -/
theorem dot_dynamicsTimes_comm
    (d : m.Describes p w)
    (hsymmetric : ∀ c ∈ p.cliques, ∀ i j, c.dynamics.get i j = c.dynamics.get j i)
    (hx : x.length = m.velocitiesPermutation.permutedSize)
    (hy : y.length = m.velocitiesPermutation.permutedSize) :
    Vec.dot x (m.dynamicsTimes y) = Vec.dot (m.dynamicsTimes x) y := by
  obtain ⟨hrows, hcols⟩ := d.map_size_gathered
  have htranspose :
      (m.cliquesPermutation.gather (p.cliques.map (·.dynamics))).map DenseMatrix.transpose =
        m.cliquesPermutation.gather (p.cliques.map (·.dynamics)) := by
    rw [← PartialPermutation.gather_map, List.map_map]
    congr 1
    apply List.map_congr_left
    intro c hc
    exact DenseMatrix.transpose_eq (d.wellFormed.square c hc) (hsymmetric c hc)
  rw [d.dynamicsTimes_eq, d.dynamicsTimes_eq, DenseMatrix.dot_diagonalTimes, htranspose]
  · rw [hx, hrows, d.velocities.permutedSize_eq]
  · rw [hy, hcols, d.velocities.permutedSize_eq]

/-- The momentum cost varies along the momentum. -/
theorem momentumCost_varying
    (d : m.Describes p w)
    (hsymmetric : ∀ c ∈ p.cliques, ∀ i j, c.dynamics.get i j = c.dynamics.get j i)
    (hv : v.length = m.velocitiesPermutation.permutedSize)
    (hX : Varies X v dv) :
    ((m.map Dual.const).momentumCost X).tangent = Vec.dot dv (m.momentumGain v) := by
  have hfree : m.freeVelocity.length = v.length :=
    d.length_held_freeVelocity.trans hv.symm
  have hmotion := d.length_motion hv
  have hdv : dv.length = m.velocitiesPermutation.permutedSize := by
    rw [hX.length_eq.2, hv]
  obtain ⟨-, htangent⟩ := (hX.sub_const hfree).dot (d.momentumGain_varying hv hX)
  unfold momentumCost
  rw [Dual.tangent_mul, Dual.tangent_half, Dual.value_half]
  change 0 * _ + 1 / 2 * (Vec.dot (Vec.sub X (m.freeVelocity.map Dual.const))
    ((m.map Dual.const).momentumGain X)).tangent = _
  have hgain : m.momentumGain v = m.dynamicsTimes (Vec.sub v m.freeVelocity) :=
    rfl
  rw [htangent, d.dot_dynamicsTimes_comm hsymmetric hmotion hdv, hgain,
    Vec.dot_comm (m.dynamicsTimes _) dv]
  ring

end Momentum

section Evaluation

/-- **The evaluation of a model at varying velocities.**  It is not refused; the cost varies along
the gradient, and the gradient as the impulses do. -/
theorem evaluate_varying
    (d : m.Describes p w)
    (hpos : ∀ r ∈ m.bundle.regularization, 0 < r)
    (hsymmetric : ∀ c ∈ p.cliques, ∀ i j, c.dynamics.get i j = c.dynamics.get j i)
    (hV : V.length = p.numVelocities)
    (hdV : dV.length = p.numVelocities)
    (hX : Varies X (m.velocitiesPermutation.gather V) (m.velocitiesPermutation.gather dV)) :
    ∃ e, (m.map Dual.const).evaluate X true = .ok e ∧
      e.cost.tangent = Vec.dot (m.velocitiesPermutation.gather dV)
        (Vec.sub (m.momentumGain (m.velocitiesPermutation.gather V))
          (m.bundle.jacobian.transposeMulVec ((m.edgeLoads p w).flatMap (p.impulseAt V)))) ∧
      e.gradient.map Dual.tangent =
        Vec.sub (m.dynamicsTimes (m.velocitiesPermutation.gather dV))
          (m.bundle.jacobian.transposeMulVec
            ((m.edgeLoads p w).flatMap (p.impulseTangentAt m.bundle.format V dV))) := by
  have hv : (m.velocitiesPermutation.gather V).length = m.velocitiesPermutation.permutedSize :=
    PartialPermutation.length_gather (hV.trans d.length_cliques.symm)
  obtain ⟨Y, hY, hunprojected⟩ := d.unprojected_varying hV hdV hX
  obtain ⟨Γ, D, hproject, hΓ⟩ := d.project_varying hpos hunprojected
  obtain ⟨C, hcost, htangent⟩ := d.regularizerCost_varying hpos hunprojected
  have hgain := d.momentumGain_varying hv hX
  have hgradient := hgain.sub (hΓ.blockTransposeMulVec m.bundle.jacobian)
  have hsizes : (m.momentumGain (m.velocitiesPermutation.gather V)).length =
      (m.bundle.jacobian.transposeMulVec
        ((m.edgeLoads p w).flatMap (p.impulseAt V))).length := by
    rw [momentumGain, d.length_dynamicsTimes, d.regular_jacobian.length_transposeMulVec,
      d.numCols_jacobian]
  refine
    ⟨{ momentumCost := (m.map Dual.const).momentumCost X
       regularizerCost := C
       gradient := Vec.sub ((m.map Dual.const).momentumGain X)
         ((m.bundle.jacobian.map Dual.const).transposeMulVec Γ)
       constraintVelocities := (m.map Dual.const).bundle.jacobian.mulVec X
       unprojected := Y
       impulses := Γ
       derivatives? := some D }, ?_, ?_, hgradient.tangent⟩
  · unfold unprojected at hY
    unfold evaluate
    dsimp only
    rw [hY, Outcome.ok_bind]
    change ((((m.bundle.map Dual.const).project Y).map fun result =>
      (result.1, some result.2)) >>= _) = _
    rw [hproject]
    change ((m.bundle.map Dual.const).regularizerCost Y >>= _) = _
    rw [hcost]
    rfl
  · unfold CostEvaluation.cost
    rw [Dual.tangent_add, d.momentumCost_varying hsymmetric hv hX, htangent,
      Vec.dot_sub_right _ hsizes,
      d.dot_transposeMulVec (fun x hx => d.length_impulseAt hx) hdV, sub_eq_add_neg]

/-- The second derivative times a direction. -/
theorem mulVec_hessianOf
    (d : m.Describes p w)
    (format : Format)
    (hdV : dV.length = p.numVelocities) :
    (m.hessianOf ((m.edgeLoads p w).map (p.derivativeAt format V))).mulVec
        (m.velocitiesPermutation.gather dV) =
      Vec.sub (m.dynamicsTimes (m.velocitiesPermutation.gather dV))
        (m.bundle.jacobian.transposeMulVec
          ((m.edgeLoads p w).flatMap (p.impulseTangentAt format V dV))) := by
  have hgain := d.length_dynamicsTimes (m.velocitiesPermutation.gather dV)
  have htransposed :
      (m.bundle.jacobian.transposeMulVec
        ((m.edgeLoads p w).flatMap (p.impulseTangentAt format V dV))).length =
        m.velocitiesPermutation.permutedSize := by
    rw [d.regular_jacobian.length_transposeMulVec, d.numCols_jacobian]
  apply Vec.eq_of_dot_eq (n := m.velocitiesPermutation.permutedSize)
  · rw [DenseMatrix.length_mulVec, (d.shape_hessianOf _).1]
  · rw [Vec.length_sub, hgain, htransposed, Nat.min_self]
  · intro y hy
    obtain ⟨W, hW, rfl⟩ := d.exists_gather hy
    have hblock : ∀ x ∈ p.loads w,
        Vec.dot (p.localVelocity W x.constraint)
            ((p.hessianBlockAt format V x).mulVec (p.localVelocity dV x.constraint)) =
          -Vec.dot (p.localVelocity W x.constraint) (p.impulseTangentAt format V dV x) := by
      intro x hx
      have hx' := d.perm_edgeLoads.mem_iff.2 hx
      rw [← Vec.dot_neg_right]
      exact congrArg (Vec.dot (p.localVelocity W x.constraint))
        (Load.mulVec_hessianBlock (d.proper hx') (d.length_localVelocity hx')
          (d.length_localVelocity hx'))
    rw [d.dot_mulVec_hessianOf format hW hdV, Vec.dot_sub_right _ (hgain.trans htransposed.symm),
      d.dot_transposeMulVec (fun x hx => d.length_impulseTangentAt hx) hW,
      List.map_congr_left hblock, sub_eq_add_neg, List.sum_neg, List.map_map]
    rfl

/-- The impulses of varying velocities, in the order of the problem. -/
theorem impulsesTensor_varying
    (d : m.Describes p w)
    (hpos : ∀ r ∈ m.bundle.regularization, 0 < r)
    (format : Format)
    (hV : V.length = p.numVelocities)
    (hdV : dV.length = p.numVelocities)
    {x : Tensor (Dual ℝ)}
    (hshape : x.shape = [m.numVelocities])
    (hx : Varies x.entries (m.velocitiesPermutation.gather V)
      (m.velocitiesPermutation.gather dV)) :
    ∃ γ, (m.map Dual.const).impulsesTensor x = .ok γ ∧
      γ.tangent.entries = ((p.loads w).map (p.impulseTangentAt format V dV)).flatten := by
  obtain ⟨Y, hY, hunprojected⟩ := d.unprojected_varying hV hdV hx
  obtain ⟨Γ, himpulses, hΓ⟩ := d.impulses_varying hpos format hunprojected
  have hmember : ∀ y ∈ p.loads w,
      (p.impulseTangentAt format V dV y).length = y.constraint.numEquations :=
    fun y hy => d.length_impulseTangentAt (d.perm_edgeLoads.mem_iff.2 hy)
  obtain ⟨hsize, hscatter⟩ := d.scatter_equations hmember
  have hvelocities := hx.blockMulVec m.bundle.jacobian
  have hlength : ((m.bundle.jacobian.map Dual.const).mulVec x.entries).length =
      m.bundle.jacobian.numRows := by
    rw [hvelocities.length_eq.1, d.regular_jacobian.length_mulVec]
  have hcount : Γ.length = m.bundle.equationsPermutation.permutedSize := by
    rw [← hsize, ← hΓ.tangent, List.length_map]
  refine ⟨_, impulsesTensor_of_shape (m := m.map Dual.const) ?_ hlength
    ((List.length_map _).trans d.length_bias) ((List.length_map _).trans d.length_inverse)
    hY himpulses hcount, ?_⟩
  · rw [hshape, numVelocities, ← d.numCols_jacobian]
    rfl
  · change (Tensor.ofVec x.format (m.bundle.equationsPermutation.scatter Γ _)).entries.map
      Dual.tangent = _
    rw [Tensor.entries_ofVec, ← PartialPermutation.scatter_map, hΓ.tangent,
      (Varies.zero _).tangent, ← List.flatMap_def]
    exact hscatter

end Evaluation

end Describes

/-- **The derivatives of a model are consistent.**  For a problem that can be built, has a model and
symmetric dynamics, the evaluations at velocities that vary in a direction are not refused.  The
tangent of the cost is the inner product of the gradient with the direction, the tangent of the
gradient is the second derivative times the direction, and the tangents of the impulses are those
of the projections, constraint by constraint in the order of the problem. -/
theorem derivatives_consistent
    {p : ContactProblem ℝ} (hp : p.Reachable)
    {m : ContactModel ℝ} (hm : (ofProblem p).1 = .ok m)
    (hsymmetric : ∀ c ∈ p.cliques, ∀ i j, c.dynamics.get i j = c.dynamics.get j i)
    {v dv : Tensor ℝ} (hv : v.shape = [m.numVelocities]) (hdv : dv.shape = [m.numVelocities]) :
    ∃ V dV e H t x γ tangents,
      m.expandTensor v = .ok V ∧
        m.velocitiesPermutation.applyInverse dv none = .ok dV ∧
        m.evaluateTensor v true = .ok e ∧
        m.hessianTensor v none = .ok H ∧
        m.tangent v dv = .ok t ∧
        v.dual (some dv) = .ok x ∧
        (m.map Dual.const).impulsesTensor x = .ok γ ∧
        p.impulseTangents v.format V.entries dV.entries = .ok tangents ∧
        t.cost = Vec.dot e.gradient dv.entries ∧
        t.gradient = H.mulVec dv.entries ∧
        γ.tangent.entries = tangents.flatten := by
  obtain ⟨delassus, hdelassus, d, hpos⟩ := describes_of_ofProblem hp hm
  set w := delassus.entries with hw
  obtain ⟨V, -, hV, hgather, hexpand⟩ := d.expandTensor_eq hv
  set dV := m.velocitiesPermutation.scatter dv.entries
    (Vec.zero m.velocitiesPermutation.domainSize) with hdVdef
  have hdV : dV.length = p.numVelocities := by
    rw [hdVdef, PartialPermutation.length_scatter, Vec.length_zero, d.length_cliques]
  have hdgather : m.velocitiesPermutation.gather dV = dv.entries :=
    PartialPermutation.gather_scatter (Tensor.length_entries_of_shape hdv) (Vec.length_zero _)
  obtain ⟨x, hx, hshape, hformat, hvaries⟩ := Tensor.dual_eq_ok hv hdv
  rw [← hgather, ← hdgather] at hvaries
  have hpos' : ∀ r ∈ (m.cast v.format).bundle.regularization, 0 < r := by
    rw [cast, ConstraintBundle.regularization_cast]
    exact hpos
  obtain ⟨e', hevaluate, hcost, hgradient⟩ :=
    (d.cast v.format).evaluate_varying hpos' hsymmetric hV hdV hvaries
  have hdual : (m.map Dual.const).evaluateTensor x true = .ok e' := by
    rw [evaluateTensor_of_shape (m := m.map Dual.const) hshape, hformat, cast_map_const]
    exact hevaluate
  have htangent : m.tangent v dv =
      .ok ⟨e'.cost.tangent, e'.gradient.map Dual.tangent, e'.impulses.map Dual.tangent⟩ := by
    unfold tangent
    rw [hx, Outcome.ok_bind, hdual]
    rfl
  obtain ⟨γ, himpulses, hγ⟩ := d.impulsesTensor_varying hpos v.format hV hdV hshape hvaries
  refine ⟨_, _, _, _, _, x, γ, _, hexpand, PartialPermutation.applyInverse_none hdv,
    d.evaluateTensor_eq hv hV hgather true, d.hessianTensor_eq hv hV hgather, htangent, hx,
    himpulses, ?_, ?_, ?_, hγ⟩
  · rw [Tensor.entries_ofVec, Tensor.entries_ofVec]
    exact d.impulseTangents_eq hdelassus rfl v.format hV hdV
  · rw [← hgather, ← hdgather, Vec.dot_comm]
    exact hcost
  · rw [← hdgather]
    exact hgradient.trans ((d.cast v.format).mulVec_hessianOf v.format hdV).symm

end ContactModel

end Derivatives

namespace ContactModel

/-- A stack of bodies whose last one moves up, while the first one is accelerated. -/
theorem derivatives_consistent_stack :
    letI := Threshold.ofFormat .double
    (Stack.problem [Stack.onGround, Stack.onBody]).Reachable ∧
      (∀ c ∈ (Stack.problem [Stack.onGround, Stack.onBody]).cliques,
        ∀ i j, c.dynamics.get i j = c.dynamics.get j i) ∧
      ∃ m : ContactModel ℝ,
        (ofProblem (Stack.problem [Stack.onGround, Stack.onBody])).1 = .ok m ∧
          (Tensor.ofVec .double [1, -2] : Tensor ℝ).shape = [m.numVelocities] ∧
          (Tensor.ofVec .double [3, 0] : Tensor ℝ).shape = [m.numVelocities] ∧
          ∃ V dV e H t x γ tangents,
            m.expandTensor (Tensor.ofVec .double [1, -2]) = .ok V ∧
              m.velocitiesPermutation.applyInverse (Tensor.ofVec .double [3, 0]) none = .ok dV ∧
              m.evaluateTensor (Tensor.ofVec .double [1, -2]) true = .ok e ∧
              m.hessianTensor (Tensor.ofVec .double [1, -2]) none = .ok H ∧
              m.tangent (Tensor.ofVec .double [1, -2]) (Tensor.ofVec .double [3, 0]) = .ok t ∧
              (Tensor.ofVec .double [1, -2] : Tensor ℝ).dual
                (some (Tensor.ofVec .double [3, 0])) = .ok x ∧
              (m.map Dual.const).impulsesTensor x = .ok γ ∧
              (Stack.problem [Stack.onGround, Stack.onBody]).impulseTangents
                (Tensor.ofVec .double [1, -2] : Tensor ℝ).format V.entries dV.entries =
                  .ok tangents ∧
              t.cost = Vec.dot e.gradient (Tensor.ofVec .double [3, 0] : Tensor ℝ).entries ∧
              t.gradient = H.mulVec (Tensor.ofVec .double [3, 0] : Tensor ℝ).entries ∧
              γ.tangent.entries = tangents.flatten := by
  let _ := Threshold.ofFormat .double
  have hacts : ∀ c ∈ [Stack.onGround, Stack.onBody], Stack.Acts c := by
    simp [Stack.acts_onGround, Stack.acts_onBody]
  have hp := Stack.reachable hacts
  have hsymmetric : ∀ c ∈ (Stack.problem [Stack.onGround, Stack.onBody]).cliques,
      ∀ i j, c.dynamics.get i j = c.dynamics.get j i := by
    intro c hc
    simp only [Stack.problem, List.mem_cons, List.not_mem_nil, or_false, or_self] at hc
    rw [hc]
    exact Stack.symmetric_body
  obtain ⟨m, w, hm, d⟩ := Stack.exists_model hacts
  have hv : ∀ a b : ℝ, (Tensor.ofVec .double [a, b]).shape = [m.numVelocities] := by
    intro a b
    rw [Tensor.shape_ofVec, Stack.numVelocities_eq d]
    rfl
  exact ⟨hp, hsymmetric, m, hm, hv 1 (-2), hv 3 0,
    derivatives_consistent hp hm hsymmetric (hv 1 (-2)) (hv 3 0)⟩

end ContactModel

end ConvexContact
