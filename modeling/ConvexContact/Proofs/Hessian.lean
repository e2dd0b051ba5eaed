import Mathlib
import ConvexContact.Proofs.Evaluations

/-!
# The second derivative of a model

**Blocks.**  The block of a constraint in `G` is the derivative of its projection with the columns
divided by the regularization.  The blocks of a bundle come in the order of the edges, and those
of an edge have together as many rows as the edge has equations.

**Result.**  As a bilinear form on velocities of all cliques, the second derivative is that of the
momentum plus a term for each constraint (`Describes.dot_mulVec_hessianOf`).
-/

namespace ConvexContact

variable [Threshold]

namespace Load

variable {x : Load} {timeStep : ℝ} {u z : List ℝ} {format : Format}

theorem shape_hessianBlock
    (hx : x.constraint.Proper)
    (hu : u.length = x.constraint.numEquations) :
    (x.hessianBlock timeStep format u).numRows = x.constraint.numEquations ∧
      (x.hessianBlock timeStep format u).numCols = x.constraint.numEquations := by
  have hderivative : (x.derivative timeStep format u).numRows = x.constraint.numEquations ∧
      (x.derivative timeStep format u).numCols = x.constraint.numEquations :=
    (project_eq hx hu).2
  unfold hessianBlock ConstraintBundle.hessianBlock
  rw [DenseMatrix.numRows_tabulate, DenseMatrix.numCols_tabulate]
  exact hderivative

end Load

namespace ContactProblem

/-- The block of a load in the second derivative. -/
noncomputable def hessianBlockAt (p : ContactProblem ℝ) (format : Format) (V : List ℝ)
    (x : Load) : DenseMatrix ℝ :=
  x.hessianBlock p.timeStep format (p.localVelocity V x.constraint)

/-- The loads on an edge. -/
def loadsOn (p : ContactProblem ℝ) (w : List ℝ) (e : Edge) : List Load :=
  onPair (fun x => memberOf x.constraint) (p.loads w) e.cliques

end ContactProblem

namespace ContactModel

/-- The format of the second derivative does not depend on the blocks. -/
theorem format_hessianOf
    (m : ContactModel ℝ) (derivatives : List (DenseMatrix ℝ)) :
    (m.hessianOf derivatives).format =
      if m.dynamics.isEmpty then m.bundle.format
      else m.bundle.format.join (DenseMatrix.blockDiagonal .single m.dynamics).format := by
  obtain ⟨-, -, hformat⟩ :=
    m.bundle.shape_hessianContribution (m.bundle.hessianBlocks derivatives)
  unfold hessianOf
  dsimp only
  split_ifs
  · exact hformat
  · rw [← hformat]
    rfl

namespace Describes

variable {m : ContactModel ℝ} {p : ContactProblem ℝ} {w V W U : List ℝ}

/-- The blocks of a bundle, load by load. -/
theorem hessianBlocks_eq
    (d : m.Describes p w)
    (format : Format) :
    m.bundle.hessianBlocks ((m.edgeLoads p w).map (p.derivativeAt format V)) =
      (m.edgeLoads p w).map (p.hessianBlockAt format V) := by
  have hinverse : m.bundle.inverseRegularization =
      (m.edgeLoads p w).flatMap fun x => (x.regularization p.timeStep).map (1 / ·) := by
    rw [d.inverse, d.regularization, List.map_flatMap]
    rfl
  have hlength : ∀ x ∈ m.edgeLoads p w,
      ((x.regularization p.timeStep).map (1 / ·)).length = x.constraint.numEquations := by
    intro x hx
    rw [List.length_map, Load.length_regularization (d.proper hx)]
  unfold ConstraintBundle.hessianBlocks
  rw [hinverse, d.split_equationCounts hlength, List.zipWith_map, List.zipWith_self]
  rfl

/-- The order of the edges, and the numbers of loads on them. -/
theorem edgeLoads_eq_flatMap
    (d : m.Describes p w) :
    m.edgeLoads p w = p.graph.edges.flatMap (p.loadsOn w) ∧
      m.bundle.edgeSizes = p.graph.edges.map fun e => (p.loadsOn w e).length := by
  obtain ⟨-, -, hinverse⟩ := d.order_spec
  have hmembers : (p.loads w).map (fun x => ContactProblem.memberOf x.constraint) =
      p.constraints.map ContactProblem.memberOf := by
    conv_rhs =>
      rw [← ContactProblem.map_constraint_loads d.length_inertias]
    rw [List.map_map]
    rfl
  constructor
  · rw [← hmembers] at hinverse
    exact gather_eq_flatMap hinverse
  · rw [d.edgeSizes]
    apply List.map_congr_left
    intro e he
    exact d.wellFormed.numConstraints_eq he hmembers

/-- The loads on an edge follow each other in the order of the edges. -/
theorem split_edgeSizes
    (d : m.Describes p w)
    {β : Type} (f : Load → β) :
    Vec.split m.bundle.edgeSizes ((m.edgeLoads p w).map f) =
      p.graph.edges.map fun e => (p.loadsOn w e).map f := by
  obtain ⟨hloads, hsizes⟩ := d.edgeLoads_eq_flatMap
  rw [hloads, hsizes, List.map_flatMap, List.flatMap_def]
  apply Vec.split_flatten_of_sizes
  rw [List.map_map]
  apply List.map_congr_left
  intro e _
  exact List.length_map _

theorem length_edgeLoads
    (d : m.Describes p w) :
    (m.edgeLoads p w).length = totalSize m.bundle.edgeSizes := by
  obtain ⟨hloads, hsizes⟩ := d.edgeLoads_eq_flatMap
  rw [hloads, hsizes, List.length_flatMap, Vec.totalSize_eq_sum]

/-- The blocks of an edge have the rows of its constraints. -/
theorem map_totalSize_split
    (d : m.Describes p w)
    {β : Type} {f : Load → β} {size : β → ℕ}
    (hsize : ∀ x ∈ p.loads w, size (f x) = x.constraint.numEquations) :
    (Vec.split m.bundle.edgeSizes ((m.edgeLoads p w).map f)).map
        (fun group => totalSize (group.map size)) =
      m.bundle.jacobian.blockRows := by
  rw [d.split_edgeSizes, d.blockRows_jacobian, List.map_map]
  apply List.map_congr_left
  intro e he
  have hconstraints : (p.loadsOn w e).map Load.constraint = p.onEdge e := by
    rw [ContactProblem.loadsOn, map_onPair, ContactProblem.map_constraint_loads d.length_inertias,
      ContactProblem.onEdge]
  have hcounts : (p.loadsOn w e).map (fun x => size (f x)) =
      (p.onEdge e).map Constraint.numEquations := by
    rw [← hconstraints, List.map_map]
    apply List.map_congr_left
    intro x hx
    exact hsize x (List.mem_filter.1 hx).1
  rw [Function.comp_apply, List.map_map, d.wellFormed.equations_eq he, Int.toNat_natCast,
    ← hcounts]
  rfl

/-- The contribution of the constraints as a bilinear form. -/
theorem dot_mulVec_hessianContribution
    (d : m.Describes p w)
    {G : Load → DenseMatrix ℝ}
    (hG : ∀ x ∈ p.loads w,
      (G x).numRows = x.constraint.numEquations ∧ (G x).numCols = x.constraint.numEquations)
    (hW : W.length = p.numVelocities)
    (hU : U.length = p.numVelocities) :
    Vec.dot (m.velocitiesPermutation.gather W)
        ((m.bundle.hessianContribution ((m.edgeLoads p w).map G)).mulVec
          (m.velocitiesPermutation.gather U)) =
      ((p.loads w).map fun x =>
        Vec.dot (p.localVelocity W x.constraint)
          ((G x).mulVec (p.localVelocity U x.constraint))).sum := by
  have hcount : ((m.edgeLoads p w).map G).length = totalSize m.bundle.edgeSizes := by
    rw [List.length_map, d.length_edgeLoads]
  rw [ConstraintBundle.dot_mulVec_hessianContribution d.regular_jacobian hcount
      (d.map_totalSize_split fun x hx => (hG x hx).1)
      (d.map_totalSize_split fun x hx => (hG x hx).2)
      (d.length_gather hW) (d.length_gather hU),
    d.mulVec_jacobian hW, d.mulVec_jacobian hU, DenseMatrix.diagonalTimes_map, Vec.dot_flatMap]
  · exact (d.perm_edgeLoads.map _).sum_eq
  · intro x hx
    rw [d.length_localVelocity hx, DenseMatrix.length_mulVec, (hG x (d.mem_loads hx)).1]
  · intro x hx
    rw [d.length_localVelocity hx, (hG x (d.mem_loads hx)).2]

/-- The dynamics as one matrix. -/
theorem mulVec_blockDiagonal
    (d : m.Describes p w)
    (format : Format)
    (hU : U.length = p.numVelocities) :
    (DenseMatrix.blockDiagonal format m.dynamics).mulVec (m.velocitiesPermutation.gather U) =
      m.dynamicsTimes (m.velocitiesPermutation.gather U) := by
  obtain ⟨hrows, hcols⟩ := d.map_size_held
  have hlength : (m.velocitiesPermutation.gather U).length =
      totalSize (m.dynamics.map (·.numCols)) := by
    rw [d.length_gather hU, d.numCols_jacobian, hcols, d.velocities.permutedSize_eq]
  rw [DenseMatrix.mulVec_blockDiagonal format hlength, hcols, ← hrows]
  rfl

theorem shape_hessianOf
    (d : m.Describes p w)
    (derivatives : List (DenseMatrix ℝ)) :
    (m.hessianOf derivatives).numRows = m.velocitiesPermutation.permutedSize ∧
      (m.hessianOf derivatives).numCols = m.velocitiesPermutation.permutedSize := by
  obtain ⟨hrows, hcols, -⟩ :=
    m.bundle.shape_hessianContribution (m.bundle.hessianBlocks derivatives)
  rw [d.numCols_jacobian] at hrows hcols
  unfold hessianOf
  dsimp only
  split_ifs
  · exact ⟨hrows, hcols⟩
  · rw [DenseMatrix.add, DenseMatrix.numRows_tabulate, DenseMatrix.numCols_tabulate]
    exact ⟨hrows, hcols⟩

/-- **The second derivative as a bilinear form** on velocities of all cliques. -/
theorem dot_mulVec_hessianOf
    (d : m.Describes p w)
    (format : Format)
    (hW : W.length = p.numVelocities)
    (hU : U.length = p.numVelocities) :
    Vec.dot (m.velocitiesPermutation.gather W)
        ((m.hessianOf ((m.edgeLoads p w).map (p.derivativeAt format V))).mulVec
          (m.velocitiesPermutation.gather U)) =
      Vec.dot (m.velocitiesPermutation.gather W)
          (m.dynamicsTimes (m.velocitiesPermutation.gather U)) +
        ((p.loads w).map fun x =>
          Vec.dot (p.localVelocity W x.constraint)
            ((p.hessianBlockAt format V x).mulVec (p.localVelocity U x.constraint))).sum := by
  have hblocks : ∀ x ∈ p.loads w,
      (p.hessianBlockAt format V x).numRows = x.constraint.numEquations ∧
        (p.hessianBlockAt format V x).numCols = x.constraint.numEquations := by
    intro x hx
    have hx' := d.perm_edgeLoads.mem_iff.2 hx
    exact Load.shape_hessianBlock (d.proper hx') (d.length_localVelocity hx')
  have hcontribution := d.dot_mulVec_hessianContribution hblocks hW hU
  obtain ⟨hrows, hcols, -⟩ :=
    m.bundle.shape_hessianContribution ((m.edgeLoads p w).map (p.hessianBlockAt format V))
  unfold hessianOf
  rw [d.hessianBlocks_eq]
  dsimp only
  split_ifs with hempty
  · have hrest : m.dynamicsTimes (m.velocitiesPermutation.gather U) = [] := by
      rw [List.isEmpty_iff] at hempty
      unfold dynamicsTimes
      rw [hempty]
      rfl
    rw [hcontribution, hrest, Vec.dot_nil_right, zero_add]
  · obtain ⟨hrows', hcols'⟩ := d.map_size_held
    rw [DenseMatrix.dot_mulVec_add, hcontribution, d.mulVec_blockDiagonal .single hU, add_comm]
    · rw [hrows, d.numCols_jacobian, DenseMatrix.numRows_blockDiagonal, hrows',
        d.velocities.permutedSize_eq]
    · rw [hcols, d.numCols_jacobian, DenseMatrix.numCols_blockDiagonal, hcols',
        d.velocities.permutedSize_eq]
    · rw [d.length_gather hW, hrows]
    · rw [d.length_gather hU, hcols]

end Describes
end ContactModel
end ConvexContact
