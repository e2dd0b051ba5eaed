import Mathlib
import ConvexContact.Proofs.Construction
import ConvexContact.Proofs.Evaluations

/-!
# The compressed model refines the full problem

**Reference.**  A problem can be evaluated at velocities `V` of all cliques without graph, index
maps or bundle: constraint by constraint, in the order of the problem (`evaluateFull`).

**Result.**  What a model computes at participating velocities is what the problem gives at these
velocities together with the free motion of all other cliques (`evaluation_refines`).
-/

namespace ConvexContact

section Reference

variable {α : Type} [Scalar α]

/-- What a single constraint contributes to an evaluation. -/
structure Contribution (α : Type) where
  impulse : List α
  cost : α

/-- The evaluation of a problem at the velocities of all cliques. -/
structure FullEvaluation (α : Type) where
  momentumCost : α
  regularizerCost : α
  gradient : List α
  impulses : List α

namespace ContactProblem

/-- The velocities of a clique, read in a format. -/
def cliqueVelocity (p : ContactProblem α) (V : List α) (format : Format) (k : ℕ) :
    Except Error (Tensor α) := do
  let start ← p.velocityStart k
  let size ← p.cliqueSize k
  .ok (Tensor.ofVec format (Vec.slice start size V))

/-- The velocity of a constraint. -/
def constraintVelocity (p : ContactProblem α) (V : List α) (c : Constraint α) :
    Except Error (List α) := do
  let v ← p.cliqueVelocity V c.jacobian.format c.clique
  match c.second? with
  | none => do
      let u ← c.velocity v none
      .ok u.entries
  | some (k, J) => do
      let w ← p.cliqueVelocity V J.format k
      let u ← c.velocity v (some w)
      .ok u.entries

/-- The impulse of a constraint at which the inertia `w` is felt, and its cost. -/
def contribution (p : ContactProblem α) (V : List α) (c : Constraint α) (w : α) :
    Except Error (Contribution α) := do
  let u ← p.constraintVelocity V c
  let R ← c.regularization p.timeStep w
  let y := List.zipWith (fun d r => -d / r) (Vec.sub u (c.bias p.timeStep)) R
  let impulse ← c.impulse y R
  let cost ← c.cost y R
  .ok ⟨impulse, cost⟩

/-- A vector over all velocities with the given part at a clique and zero elsewhere. -/
def embed (p : ContactProblem α) (k : ℕ) (x : List α) : List α :=
  p.cliqueSizes.zipIdx.flatMap fun (size, i) => if i = k then x else Vec.zero size

/-- The sum of `Jᵀ γ` over all constraints and their sides. -/
def generalizedImpulses (p : ContactProblem α) (pairs : List (Constraint α × List α)) :
    List α :=
  pairs.foldl (fun total pair =>
    pair.1.sides.foldl (fun total side =>
      Vec.add total (p.embed side.1 (side.2.transpose.mulVec pair.2))) total)
    (Vec.zero p.numVelocities)

/-- The evaluation of a problem, constraint by constraint. -/
def evaluateFull (p : ContactProblem α) (V : List α) : Except Error (FullEvaluation α) := do
  let delassus ← p.delassusDiagonal
  let contributions ← (p.constraints.zip delassus.entries).mapM fun (c, w) =>
    p.contribution V c w
  let motion := Vec.sub V p.freeVelocity
  let gain := p.dynamicsTimes motion
  .ok
    { momentumCost := Scalar.half * Vec.dot motion gain
      regularizerCost := Vec.sum (contributions.map (·.cost))
      gradient := Vec.sub gain
        (p.generalizedImpulses (p.constraints.zip (contributions.map (·.impulse))))
      impulses := contributions.flatMap (·.impulse) }

end ContactProblem

end Reference

section Refinement

variable [Threshold]

namespace ContactProblem

variable {p : ContactProblem ℝ} {V W : List ℝ} {c : Constraint ℝ}

namespace WellFormed

/-- The slice of a clique that a constraint acts on is the part of the clique. -/
theorem cliqueVelocity_eq
    (hp : p.WellFormed)
    (hc : c ∈ p.constraints)
    {side : ℕ × DenseMatrix ℝ}
    (hside : side ∈ c.sides)
    (format : Format) :
    p.cliqueVelocity V format side.1 = .ok (Tensor.ofVec format (p.cliquePart V side.1)) := by
  have hlt := hp.clique_lt hc hside
  have hlt' : side.1 < (blockStarts 0 p.cliqueSizes).length := by
    simpa [cliqueSizes, numCliques] using hlt
  have hstart : p.velocityStart (side.1 : ℤ) =
      .ok ((blockStarts 0 p.cliqueSizes).getD side.1 0) := by
    rw [List.getD_eq_getElem _ _ hlt']
    exact entryAt?_natCast (List.getElem?_eq_getElem hlt')
  unfold cliqueVelocity
  rw [hstart, Outcome.ok_bind, cliqueSize_eq_ok hlt, Outcome.ok_bind, Vec.slice_blockStarts]
  rfl

theorem length_cliquePart
    (hp : p.WellFormed)
    (hV : V.length = p.numVelocities)
    (hc : c ∈ p.constraints)
    {side : ℕ × DenseMatrix ℝ}
    (hside : side ∈ c.sides) :
    (p.cliquePart V side.1).length = side.2.numCols := by
  rw [cliquePart, Vec.length_part hV, hp.numCols_eq hc hside]

/-- A Jacobian block times the velocities of its clique. -/
theorem matMul_cliquePart
    (hp : p.WellFormed)
    (hV : V.length = p.numVelocities)
    (hc : c ∈ p.constraints)
    {side : ℕ × DenseMatrix ℝ}
    (hside : side ∈ c.sides) :
    Tensor.matMul side.2 (Tensor.ofVec side.2.format (p.cliquePart V side.1)) =
      .ok (Tensor.ofVec side.2.format (p.sideVelocity V side)) := by
  rw [Tensor.matMul_of_shape (Tensor.format_ofVec _ _).symm, Tensor.format_ofVec,
    Tensor.entries_ofVec, sideVelocity]
  rw [Tensor.shape_ofVec, hp.length_cliquePart hV hc hside]

/-- The velocity of a constraint is computed from the slices of its cliques. -/
theorem constraintVelocity_eq
    (hp : p.WellFormed)
    (hV : V.length = p.numVelocities)
    (hc : c ∈ p.constraints) :
    p.constraintVelocity V c = .ok (p.localVelocity V c) := by
  have hfirst := c.first_mem_sides
  have hslice := hp.cliqueVelocity_eq (V := V) hc hfirst c.jacobian.format
  have hproduct := hp.matMul_cliquePart hV hc hfirst
  dsimp only at hslice hproduct
  unfold constraintVelocity localVelocity Constraint.velocity
  rw [hslice, Outcome.ok_bind, hproduct]
  cases hsecond : c.second? with
  | none =>
      exact congrArg Except.ok (Tensor.entries_ofVec _ _)
  | some side =>
      have hother := Constraint.second_mem_sides hsecond
      have hslice' := hp.cliqueVelocity_eq (V := V) hc hother side.2.format
      have hproduct' := hp.matMul_cliquePart hV hc hother
      dsimp only
      rw [hslice', Outcome.ok_bind, Outcome.ok_bind, hproduct', Outcome.ok_bind, Tensor.add,
        Tensor.zipWith_of_shape (n := c.numEquations) _
          (by rw [Tensor.shape_ofVec, hp.length_sideVelocity hc hfirst])
          (by rw [Tensor.shape_ofVec, hp.length_sideVelocity hc hother]), Outcome.ok_bind, Tensor.entries_ofVec,
        Tensor.entries_ofVec, Tensor.entries_ofVec]
      rfl

/-- The contribution of a constraint is that of its load. -/
theorem contribution_eq
    (hp : p.WellFormed)
    (hV : V.length = p.numVelocities)
    {x : Load}
    (hx : x.constraint ∈ p.constraints) :
    p.contribution V x.constraint x.inertia = .ok ⟨p.impulseAt V x, p.costAt V x⟩ := by
  have hproper := hp.proper _ hx
  have hlength := hp.length_localVelocity (V := V) hx
  have himpulse :
      x.constraint.impulse (x.unprojected p.timeStep (p.localVelocity V x.constraint))
        (x.regularization p.timeStep) = .ok (p.impulseAt V x) :=
    Load.impulse_eq hproper hlength
  have hcost :
      x.constraint.cost (x.unprojected p.timeStep (p.localVelocity V x.constraint))
        (x.regularization p.timeStep) = .ok (p.costAt V x) :=
    Load.cost_eq hproper hlength
  unfold contribution
  rw [hp.constraintVelocity_eq hV hx, Outcome.ok_bind,
    hproper.regularization_eq hp.timeStep_pos, Outcome.ok_bind]
  change (x.constraint.impulse (x.unprojected p.timeStep (p.localVelocity V x.constraint))
    (x.regularization p.timeStep) >>= _) = _
  rw [himpulse, Outcome.ok_bind]
  change (x.constraint.cost (x.unprojected p.timeStep (p.localVelocity V x.constraint))
    (x.regularization p.timeStep) >>= _) = _
  rw [hcost]
  rfl

theorem length_embed
    {k : ℕ} {x : List ℝ}
    (hx : x.length = p.cliqueSizes.getD k 0) :
    (p.embed k x).length = p.numVelocities := by
  unfold embed
  rw [BlockSparseMatrix.flatMap_zipIdx p.cliqueSizes fun size i =>
    if i = k then x else Vec.zero size]
  apply BlockSparseMatrix.length_flatMap_range
  intro i
  split_ifs with hi
  · rw [hi, hx]
  · exact Vec.length_zero _

/-- The inner product with an embedded vector looks at one clique. -/
theorem dot_embed
    (hW : W.length = p.numVelocities)
    {k : ℕ} {x : List ℝ}
    (hk : k < p.numCliques)
    (hx : x.length = p.cliqueSizes.getD k 0) :
    Vec.dot W (p.embed k x) = Vec.dot (p.cliquePart W k) x := by
  have hparts : (List.range p.cliqueSizes.length).flatMap (Vec.part p.cliqueSizes W) = W :=
    Vec.flatMap_part hW
  unfold embed
  rw [BlockSparseMatrix.flatMap_zipIdx p.cliqueSizes fun size i =>
    if i = k then x else Vec.zero size]
  conv_lhs =>
    rw [← hparts]
  rw [Vec.dot_flatMap]
  · have hterm : ∀ i ∈ Finset.range p.cliqueSizes.length,
        Vec.dot (Vec.part p.cliqueSizes W i)
            (if i = k then x else Vec.zero (p.cliqueSizes.getD i 0)) =
          if i = k then Vec.dot (p.cliquePart W k) x else 0 := by
      intro i _
      split_ifs with hi
      · rw [hi, cliquePart]
      · exact Vec.dot_zero_right _ _
    rw [← Vec.sum_eq, ← Vec.sumRange, DenseMatrix.sumRange_eq, Finset.sum_congr rfl hterm,
      Finset.sum_ite_eq' (Finset.range p.cliqueSizes.length) k, if_pos]
    rw [length_cliqueSizes]
    exact Finset.mem_range.2 hk
  · intro i _
    rw [Vec.length_part hW]
    split_ifs with hi
    · rw [hi, hx]
    · rw [Vec.length_zero]

/-- An impulse acts on the clique of a side as it is seen from there. -/
theorem dot_embed_side
    (hp : p.WellFormed)
    (hW : W.length = p.numVelocities)
    {c : Constraint ℝ}
    (hc : c ∈ p.constraints)
    {γ : List ℝ}
    (hγ : γ.length = c.numEquations)
    {side : ℕ × DenseMatrix ℝ}
    (hside : side ∈ c.sides) :
    (p.embed side.1 (side.2.transpose.mulVec γ)).length = p.numVelocities ∧
      Vec.dot W (p.embed side.1 (side.2.transpose.mulVec γ)) =
        Vec.dot (p.sideVelocity W side) γ := by
  have hsize : (side.2.transpose.mulVec γ).length = p.cliqueSizes.getD side.1 0 := by
    rw [DenseMatrix.length_mulVec, DenseMatrix.numRows_transpose, hp.numCols_eq hc hside]
  refine ⟨length_embed hsize, ?_⟩
  rw [dot_embed hW (hp.clique_lt hc hside) hsize, DenseMatrix.dot_mulVec_transpose]
  · rfl
  · rw [hγ, (hp.proper _ hc).numRows_eq side hside]
  · exact hp.length_cliquePart hW hc hside

/-- Each impulse adds its work to that of a total. -/
theorem dot_addImpulses
    (hp : p.WellFormed)
    (hW : W.length = p.numVelocities)
    {pairs : List (Constraint ℝ × List ℝ)}
    (hpairs : ∀ pair ∈ pairs,
      pair.1 ∈ p.constraints ∧ pair.2.length = pair.1.numEquations)
    (total : List ℝ)
    (htotal : total.length = p.numVelocities) :
    let result := pairs.foldl (fun total pair =>
      pair.1.sides.foldl (fun total side =>
        Vec.add total (p.embed side.1 (side.2.transpose.mulVec pair.2))) total) total
    result.length = p.numVelocities ∧
      Vec.dot W result = Vec.dot W total +
        (pairs.map fun pair => Vec.dot (p.localVelocity W pair.1) pair.2).sum := by
  induction pairs generalizing total with
  | nil => exact ⟨htotal, by simp⟩
  | cons pair pairs ih =>
      obtain ⟨hc, hγ⟩ := hpairs pair List.mem_cons_self
      have hside := fun side (hs : side ∈ pair.1.sides) => hp.dot_embed_side hW hc hγ hs
      have hnext := Vec.length_foldl_add total htotal fun side hs => (hside side hs).1
      obtain ⟨hlength, hdot⟩ :=
        ih (fun q hq => hpairs q (List.mem_cons_of_mem pair hq)) _ hnext
      refine ⟨hlength, hdot.trans ?_⟩
      rw [Vec.dot_foldl_add W total htotal fun side hs => (hside side hs).1,
        List.map_congr_left fun side hs => (hside side hs).2, hp.sum_dot_sideVelocity hc,
        List.map_cons, List.sum_cons, add_assoc]

/-- The generalized impulses are adjoint to the velocities of the constraints. -/
theorem dot_generalizedImpulses
    (hp : p.WellFormed)
    (hW : W.length = p.numVelocities)
    {pairs : List (Constraint ℝ × List ℝ)}
    (hpairs : ∀ pair ∈ pairs,
      pair.1 ∈ p.constraints ∧ pair.2.length = pair.1.numEquations) :
    (p.generalizedImpulses pairs).length = p.numVelocities ∧
      Vec.dot W (p.generalizedImpulses pairs) =
        (pairs.map fun pair => Vec.dot (p.localVelocity W pair.1) pair.2).sum := by
  obtain ⟨hlength, hdot⟩ :=
    hp.dot_addImpulses hW hpairs (Vec.zero p.numVelocities) (Vec.length_zero _)
  refine ⟨hlength, hdot.trans ?_⟩
  rw [Vec.dot_zero_right, zero_add]

end WellFormed

end ContactProblem

namespace ContactModel

variable {m : ContactModel ℝ} {p : ContactProblem ℝ} {w V : List ℝ}

namespace Describes

/-- The constraints with their inertias are the loads. -/
theorem zip_constraints
    (d : m.Describes p w) :
    p.constraints.zip w = (p.loads w).map fun x => (x.constraint, x.inertia) := by
  conv_lhs =>
    rw [← ContactProblem.map_constraint_loads d.length_inertias]
    arg 2
    rw [← ContactProblem.map_inertia_loads d.length_inertias]
  rw [List.zip_map']

/-- The evaluation of the problem, load by load. -/
theorem evaluateFull_eq
    (d : m.Describes p w)
    {delassus : Tensor ℝ}
    (hdelassus : p.delassusDiagonal = .ok delassus)
    (hw : delassus.entries = w)
    (hV : V.length = p.numVelocities) :
    p.evaluateFull V =
      .ok
        { momentumCost := Scalar.half *
            Vec.dot (Vec.sub V p.freeVelocity) (p.dynamicsTimes (Vec.sub V p.freeVelocity))
          regularizerCost := ((p.loads w).map (p.costAt V)).sum
          gradient := Vec.sub (p.dynamicsTimes (Vec.sub V p.freeVelocity))
            (p.generalizedImpulses
              ((p.loads w).map fun x => (x.constraint, p.impulseAt V x)))
          impulses := (p.loads w).flatMap (p.impulseAt V) } := by
  have hcontributions :
      ((p.constraints.zip w).mapM fun (c, w) => p.contribution V c w) =
        .ok ((p.loads w).map fun x => ⟨p.impulseAt V x, p.costAt V x⟩) := by
    rw [d.zip_constraints, List.mapM_map]
    exact Outcome.mapM_eq_ok_map fun x hx =>
      d.wellFormed.contribution_eq hV
        (ContactProblem.mem_constraints_of_mem_loads d.length_inertias hx)
  have himpulses : p.constraints.zip ((p.loads w).map (p.impulseAt V)) =
      (p.loads w).map fun x => (x.constraint, p.impulseAt V x) := by
    conv_lhs =>
      rw [← ContactProblem.map_constraint_loads d.length_inertias]
    rw [List.zip_map']
  unfold ContactProblem.evaluateFull
  rw [hdelassus, Outcome.ok_bind, hw, hcontributions, Outcome.ok_bind]
  simp only [List.map_map, List.flatMap_map, Vec.sum_eq]
  rw [← himpulses]
  rfl

/-- The momentum cost of the participating cliques is that of all cliques. -/
theorem momentumCost_eq
    (d : m.Describes p w)
    {v : List ℝ}
    (hv : v.length = m.velocitiesPermutation.permutedSize) :
    m.momentumCost v =
      Scalar.half *
        Vec.dot
          (Vec.sub (m.velocitiesPermutation.scatter v p.freeVelocity) p.freeVelocity)
          (p.dynamicsTimes
            (Vec.sub (m.velocitiesPermutation.scatter v p.freeVelocity) p.freeVelocity)) := by
  have hmotion := d.length_motion hv
  have hscattered :
      (m.velocitiesPermutation.scatter (Vec.sub v m.freeVelocity)
        (Vec.zero p.numVelocities)).length = p.numVelocities := by
    rw [PartialPermutation.length_scatter, Vec.length_zero]
  rw [d.sub_freeVelocity hv, d.dot_dynamicsTimes hscattered hmotion,
    PartialPermutation.gather_scatter hmotion]
  · rfl
  · rw [Vec.length_zero, d.length_cliques]

/-- The gradient, scattered over all velocities. -/
theorem scatter_gradient
    (d : m.Describes p w)
    {v : List ℝ}
    (hv : v.length = m.velocitiesPermutation.permutedSize)
    {f : Load → List ℝ}
    (hf : ∀ x ∈ p.loads w, (f x).length = x.constraint.numEquations) :
    m.velocitiesPermutation.scatter
        (Vec.sub (m.momentumGain v)
          (m.bundle.jacobian.transposeMulVec ((m.edgeLoads p w).flatMap f)))
        (Vec.zero p.numVelocities) =
      Vec.sub
        (p.dynamicsTimes
          (Vec.sub (m.velocitiesPermutation.scatter v p.freeVelocity) p.freeVelocity))
        (p.generalizedImpulses ((p.loads w).map fun x => (x.constraint, f x))) := by
  have hgain : (m.momentumGain v).length = m.velocitiesPermutation.permutedSize :=
    d.length_dynamicsTimes _
  have htransposed :
      (m.bundle.jacobian.transposeMulVec ((m.edgeLoads p w).flatMap f)).length =
        m.velocitiesPermutation.permutedSize := by
    rw [d.regular_jacobian.length_transposeMulVec, d.numCols_jacobian]
  have hgradient :
      (Vec.sub (m.momentumGain v)
        (m.bundle.jacobian.transposeMulVec ((m.edgeLoads p w).flatMap f))).length =
        m.velocitiesPermutation.permutedSize := by
    rw [Vec.length_sub, hgain, htransposed, Nat.min_self]
  have hpairs : ∀ pair ∈ (p.loads w).map fun x => (x.constraint, f x),
      pair.1 ∈ p.constraints ∧ pair.2.length = pair.1.numEquations := by
    intro pair hpair
    obtain ⟨x, hx, rfl⟩ := List.mem_map.1 hpair
    exact ⟨ContactProblem.mem_constraints_of_mem_loads d.length_inertias hx, hf x hx⟩
  have htimes :
      (p.dynamicsTimes
        (Vec.sub (m.velocitiesPermutation.scatter v p.freeVelocity) p.freeVelocity)).length =
        p.numVelocities := by
    rw [ContactProblem.dynamicsTimes, DenseMatrix.length_diagonalTimes, d.map_size_dynamics.1]
    rfl
  have hzero : (Vec.zero p.numVelocities : List ℝ).length = p.numVelocities :=
    Vec.length_zero _
  have hgeneralized := (d.wellFormed.dot_generalizedImpulses hzero hpairs).1
  apply Vec.eq_of_dot_eq (n := p.numVelocities)
  · rw [PartialPermutation.length_scatter, hzero]
  · rw [Vec.length_sub, htimes, hgeneralized, Nat.min_self]
  · intro W hW
    have hdot : Vec.dot W
        (m.velocitiesPermutation.scatter
          (Vec.sub (m.momentumGain v)
            (m.bundle.jacobian.transposeMulVec ((m.edgeLoads p w).flatMap f)))
          (Vec.zero p.numVelocities)) =
        Vec.dot (m.velocitiesPermutation.gather W) (m.momentumGain v) -
          Vec.dot (m.velocitiesPermutation.gather W)
            (m.bundle.jacobian.transposeMulVec ((m.edgeLoads p w).flatMap f)) := by
      rw [← d.length_cliques, PartialPermutation.dot_scatter (hW.trans d.length_cliques.symm)
        hgradient, Vec.dot_sub_right _ (hgain.trans htransposed.symm)]
    rw [hdot, Vec.dot_sub_right _ (htimes.trans hgeneralized.symm),
      (d.wellFormed.dot_generalizedImpulses hW hpairs).2, d.sub_freeVelocity hv,
      d.dot_dynamicsTimes hW (d.length_motion hv),
      d.dot_transposeMulVec (fun x hx => hf x (d.mem_loads hx)) hW, List.map_map]
    rfl

end Describes

/-- **The compressed model refines the full problem.**  For every problem that can be built and
has a model, the evaluations of the model at participating velocities are those of the problem at
the velocities of all cliques, of which the others move freely: the impulses in the order of the
problem, both parts of the cost, and the gradient, which is zero at the cliques that do not
participate. -/
theorem evaluation_refines
    {p : ContactProblem ℝ} (hp : p.Reachable)
    {m : ContactModel ℝ} (hm : (ofProblem p).1 = .ok m)
    {v : Tensor ℝ} (hv : v.shape = [m.numVelocities])
    (withDerivatives : Bool) :
    ∃ V reference e γ,
      m.expandTensor v = .ok V ∧
        p.evaluateFull V.entries = .ok reference ∧
        m.evaluateTensor v withDerivatives = .ok e ∧
        m.impulsesTensor v = .ok γ ∧
        γ.shape = [p.numEquations] ∧
        γ.entries = reference.impulses ∧
        e.regularizerCost = reference.regularizerCost ∧
        e.momentumCost = reference.momentumCost ∧
        m.velocitiesPermutation.scatter e.gradient (Vec.zero p.numVelocities) =
          reference.gradient := by
  obtain ⟨delassus, hdelassus, d, -⟩ := describes_of_ofProblem hp hm
  set w := delassus.entries with hw
  have hxs : v.entries.length = m.velocitiesPermutation.permutedSize :=
    Tensor.length_entries_of_shape hv
  obtain ⟨V, hscattered, hV, hgather, hexpand⟩ := d.expandTensor_eq hv
  have hmember : ∀ x ∈ p.loads w, (p.impulseAt V x).length = x.constraint.numEquations :=
    fun x hx => d.length_impulseAt (d.perm_edgeLoads.mem_iff.2 hx)
  obtain ⟨hsize, hscatter⟩ := d.scatter_equations hmember
  have himpulses := d.impulsesTensor_eq hv hV hgather
  have hcount : ((p.loads w).flatMap (p.impulseAt V)).length = p.numEquations := by
    rw [← hscatter, PartialPermutation.length_scatter, Vec.length_zero, d.equations.domainSize_eq]
    rfl
  refine
    ⟨_, _, _, _, hexpand, d.evaluateFull_eq hdelassus rfl (by rwa [Tensor.entries_ofVec]),
      d.evaluateTensor_eq hv hV hgather withDerivatives, himpulses, ?_⟩
  rw [Tensor.entries_ofVec, Tensor.entries_ofVec, Tensor.shape_ofVec, hcount]
  have hmomentum := (d.cast v.format).momentumCost_eq hxs
  have hgradient := (d.cast v.format).scatter_gradient hxs (hscattered ▸ hmember)
  rw [velocitiesPermutation_cast, ← hscattered] at hmomentum hgradient
  exact ⟨rfl, rfl, rfl, hmomentum, hgradient⟩

end ContactModel

end Refinement

namespace ContactModel

/-- A stack of bodies, of which one falls freely. -/
theorem evaluation_refines_stack :
    letI := Threshold.ofFormat .double
    (Stack.problem [Stack.onGround, Stack.onBody]).Reachable ∧
      ∃ m : ContactModel ℝ,
        (ofProblem (Stack.problem [Stack.onGround, Stack.onBody])).1 = .ok m ∧
          (Tensor.ofVec .double [1, -2] : Tensor ℝ).shape = [m.numVelocities] ∧
          ∃ V reference e γ,
            m.expandTensor (Tensor.ofVec .double [1, -2]) = .ok V ∧
              (Stack.problem [Stack.onGround, Stack.onBody]).evaluateFull V.entries =
                .ok reference ∧
              m.evaluateTensor (Tensor.ofVec .double [1, -2]) false = .ok e ∧
              m.impulsesTensor (Tensor.ofVec .double [1, -2]) = .ok γ ∧
              γ.shape = [(Stack.problem [Stack.onGround, Stack.onBody]).numEquations] ∧
              γ.entries = reference.impulses ∧
              e.regularizerCost = reference.regularizerCost ∧
              e.momentumCost = reference.momentumCost ∧
              m.velocitiesPermutation.scatter e.gradient
                  (Vec.zero (Stack.problem [Stack.onGround, Stack.onBody]).numVelocities) =
                reference.gradient := by
  let _ := Threshold.ofFormat .double
  have hacts : ∀ c ∈ [Stack.onGround, Stack.onBody], Stack.Acts c := by
    simp [Stack.acts_onGround, Stack.acts_onBody]
  have hp := Stack.reachable hacts
  obtain ⟨m, w, hm, d⟩ := Stack.exists_model hacts
  have hv : (Tensor.ofVec .double [1, -2] : Tensor ℝ).shape = [m.numVelocities] := by
    rw [Tensor.shape_ofVec, Stack.numVelocities_eq d]
    rfl
  exact ⟨hp, m, hm, hv, evaluation_refines hp hm hv false⟩

end ContactModel

end ConvexContact
