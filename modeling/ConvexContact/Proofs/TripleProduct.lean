import Mathlib
import ConvexContact.Proofs.Hessian
import ConvexContact.Proofs.Layout

/-!
# Sparse products and dense ones

**Input.**  A bundle that was built for a problem, with any order of its cliques, and a square block
for each constraint.

**Alignment.**  A block row of the Jacobian has the equations of the constraints on one edge, and
these constraints follow each other (`ConstraintBundle.Aligned`).  This is all that the sparse
products need.

**Result.**  `ContactProblem.sparse_products_eq_dense`: with the Jacobian `J` written out, the
products that visit stored blocks only are `Jᵀ G J` and `Jᵀ γ`, and the second derivative of a
model is `A + Jᵀ G J`, however much of an evaluation is passed on to it.
-/

namespace ConvexContact

namespace BlockSparseMatrix

variable [Threshold]
variable {B : BlockSparseMatrix ℝ}

/-- The product of the transpose with a vector, written out in any format. -/
theorem multiplyTranspose_eq
    (hB : B.Regular)
    (hplaces : (B.blocks.map Block.place).Nodup)
    {y : Tensor ℝ}
    (hy : y.shape = [B.numRows])
    (format : Format) :
    B.multiplyTranspose y =
      .ok (Tensor.ofVec y.format ((B.toDense format).transpose.mulVec y.entries)) := by
  have hcast : ((B.cast y.format).blocks.map Block.place).Nodup := by
    rwa [places_cast]
  have hproduct := ((regular_cast y.format B).2 hB).mulVec_transpose_toDense hcast format
    (Tensor.length_entries_of_shape hy)
  rw [multiplyTranspose, Tensor.leadingSize_of_shape hy, Outcome.ok_bind, if_neg (not_not.2 rfl),
    Tensor.vector?_of_shape hy]
  dsimp only
  rw [← hproduct, toDense_cast]

end BlockSparseMatrix

namespace ConstraintBundle

variable {b : ConstraintBundle ℝ} {G : List (DenseMatrix ℝ)} {format : Format}

/-- The edges are the block rows of the Jacobian: the constraints of a bundle, cut edge by edge,
have together the equations of the block rows. -/
structure Aligned (b : ConstraintBundle ℝ) : Prop where
  regular : b.jacobian.Regular
  nodup_places : (b.jacobian.blocks.map Block.place).Nodup
  members_pos : ∀ n ∈ b.edgeSizes, 0 < n
  totalSize_edgeSizes : totalSize b.edgeSizes = b.equationCounts.length
  blockRows_eq : (Vec.split b.edgeSizes b.equationCounts).map totalSize = b.jacobian.blockRows

namespace Aligned

/-- Square blocks for the constraints have, edge by edge, the sizes of the block rows. -/
theorem map_totalSize_split
    (h : b.Aligned)
    {size : DenseMatrix ℝ → ℕ}
    (hsize : G.map size = b.equationCounts) :
    (Vec.split b.edgeSizes G).map (fun group => totalSize (group.map size)) =
      b.jacobian.blockRows := by
  rw [← h.blockRows_eq, ← hsize, Vec.split_map, List.map_map]
  rfl

theorem length_blocks
    (h : b.Aligned)
    {size : DenseMatrix ℝ → ℕ}
    (hsize : G.map size = b.equationCounts) :
    G.length = totalSize b.edgeSizes := by
  rw [h.totalSize_edgeSizes, ← hsize, List.length_map]

theorem numRows_jacobian
    (h : b.Aligned) :
    b.jacobian.numRows = b.numEquations := by
  rw [BlockSparseMatrix.numRows, ← h.blockRows_eq,
    Vec.totalSize_map_totalSize_split h.totalSize_edgeSizes.symm, numEquations]

end Aligned

variable [Threshold]

/-- `Jᵀ G J`, with all entries of the Jacobian and of the blocks along the diagonal. -/
noncomputable def tripleProduct (b : ConstraintBundle ℝ) (format : Format)
    (G : List (DenseMatrix ℝ)) : DenseMatrix ℝ :=
  (b.jacobian.toDense format).transpose.mul
    ((DenseMatrix.blockDiagonal format G).mul (b.jacobian.toDense format))

theorem shape_tripleProduct
    (b : ConstraintBundle ℝ) (format : Format) (G : List (DenseMatrix ℝ)) :
    (b.tripleProduct format G).numRows = b.jacobian.numCols ∧
      (b.tripleProduct format G).numCols = b.jacobian.numCols ∧
      (b.tripleProduct format G).format = format := by
  obtain ⟨-, hcols, hformat⟩ := BlockSparseMatrix.shape_toDense format b.jacobian
  refine ⟨?_, hcols, ?_⟩
  · rw [tripleProduct, DenseMatrix.numRows_mul, DenseMatrix.numRows_transpose, hcols]
  · change (b.jacobian.toDense format).format.join
      ((DenseMatrix.blockDiagonal format G).format.join (b.jacobian.toDense format).format) = format
    rw [hformat, DenseMatrix.format_blockDiagonal, Format.join_self, Format.join_self]

/-- **The sparse contribution is the dense triple product.**  Both are compared as bilinear forms,
where the stored blocks act as the matrix that is written out. -/
theorem Aligned.hessianContribution_eq
    (h : b.Aligned)
    (hrows : G.map (·.numRows) = b.equationCounts)
    (hcols : G.map (·.numCols) = b.equationCounts)
    (format : Format) :
    (b.cast format).hessianContribution G = b.tripleProduct format G := by
  obtain ⟨hheight, hwidth, hformat⟩ := (b.cast format).shape_hessianContribution G
  obtain ⟨hheight', hwidth', hformat'⟩ := b.shape_tripleProduct format G
  obtain ⟨hdense, hdense', -⟩ := BlockSparseMatrix.shape_toDense format b.jacobian
  have htotal : b.jacobian.numRows = totalSize (G.map (·.numCols)) := by
    rw [h.numRows_jacobian, hcols, numEquations]
  apply DenseMatrix.eq_of_dot_mulVec_eq (hformat.trans hformat'.symm)
    (hheight.trans hheight'.symm) (hwidth.trans hwidth'.symm)
  intro w u hw hu
  have hw' : w.length = b.jacobian.numCols :=
    hw.trans hheight
  have hu' : u.length = b.jacobian.numCols :=
    hu.trans hwidth
  have hvelocity := h.regular.mulVec_toDense h.nodup_places format hu'
  have hregular := (BlockSparseMatrix.regular_cast format b.jacobian).2 h.regular
  have hsparse : Vec.dot w (((b.cast format).hessianContribution G).mulVec u) =
      Vec.dot ((b.jacobian.cast format).mulVec w)
        (DenseMatrix.diagonalTimes G ((b.jacobian.cast format).mulVec u)) :=
    dot_mulVec_hessianContribution hregular (h.length_blocks hrows)
      (h.map_totalSize_split hrows) (h.map_totalSize_split hcols) hw' hu'
  rw [BlockSparseMatrix.mulVec_cast, BlockSparseMatrix.mulVec_cast] at hsparse
  have hmiddle : (DenseMatrix.blockDiagonal format G).numCols =
      (b.jacobian.toDense format).numRows := by
    rw [DenseMatrix.numCols_blockDiagonal, hdense, htotal]
  have houter : (b.jacobian.toDense format).transpose.numCols =
      ((DenseMatrix.blockDiagonal format G).mul (b.jacobian.toDense format)).numRows := by
    rw [DenseMatrix.numCols_transpose, DenseMatrix.numRows_mul,
      DenseMatrix.numRows_blockDiagonal, hdense, h.numRows_jacobian, hrows, numEquations]
  have hdiagonal : (DenseMatrix.blockDiagonal format G).mulVec (b.jacobian.mulVec u) =
      DenseMatrix.diagonalTimes G (b.jacobian.mulVec u) :=
    DenseMatrix.mulVec_blockDiagonal format ((h.regular.length_mulVec u).trans htotal)
  rw [hsparse, tripleProduct, DenseMatrix.mulVec_mul houter (hu'.trans hdense'.symm),
    DenseMatrix.mulVec_mul hmiddle (hu'.trans hdense'.symm), hvelocity, hdiagonal,
    DenseMatrix.dot_mulVec_transpose _ (hw'.trans hdense'.symm),
    h.regular.mulVec_toDense h.nodup_places format hw']
  rw [DenseMatrix.length_diagonalTimes, hdense, h.numRows_jacobian, hrows, numEquations]

section Checks

theorem diagonalBlock_ofMatrix
    (A : DenseMatrix ℝ) :
    diagonalBlock (Tensor.ofMatrix A) = .ok A := by
  have hshape : (Tensor.ofMatrix A).shape = [A.numRows, A.numCols] :=
    Tensor.shape_ofEntries _ _ _
  rw [diagonalBlock, hshape]
  dsimp only
  rw [Tensor.matrix?_ofMatrix]

theorem mapM_diagonalBlock
    (G : List (DenseMatrix ℝ)) :
    (G.map Tensor.ofMatrix).mapM diagonalBlock = .ok G := by
  have hblocks : G.mapM (diagonalBlock ∘ Tensor.ofMatrix) = .ok (G.map id) :=
    Outcome.mapM_eq_ok_map fun A _ => diagonalBlock_ofMatrix A
  rw [List.mapM_map, hblocks, List.map_id]

/-- Blocks of the right sizes and of one format pass the checks of an edge. -/
theorem checkEdgeBlocks_eq_ok
    {rows members : ℕ}
    (hmembers : G.length = members)
    (hpos : 0 < members)
    (hformat : ∀ A ∈ G, A.format = format)
    (hrows : totalSize (G.map (·.numRows)) = rows)
    (hcols : totalSize (G.map (·.numCols)) = rows) :
    checkEdgeBlocks format rows members (G.map Tensor.ofMatrix) = .ok () := by
  have hne : G.map (·.format) ≠ [] := by
    rw [ne_eq, List.map_eq_nil_iff, ← List.length_eq_zero_iff]
    omega
  have hwidest : (G.map (·.format)).foldl Format.join .single = format := by
    refine Format.foldl_join_eq hne ?_
    intro f hf
    obtain ⟨A, hA, rfl⟩ := List.mem_map.1 hf
    exact hformat A hA
  rw [checkEdgeBlocks, List.length_map, if_neg (by omega), mapM_diagonalBlock, Outcome.ok_bind]
  exact if_pos ⟨(DenseMatrix.numRows_blockDiagonal _ _).trans hrows,
    (DenseMatrix.numCols_blockDiagonal _ _).trans hcols, hwidest⟩

/-- **The contribution for tensors**: square blocks of one format for the constraints are accepted,
and the result is the dense triple product in that format. -/
theorem Aligned.hessianContributionTensor_eq
    (h : b.Aligned)
    (hrows : G.map (·.numRows) = b.equationCounts)
    (hcols : G.map (·.numCols) = b.equationCounts)
    (hformat : format = (G.head?.map (·.format)).getD b.format)
    (hformats : ∀ A ∈ G, A.format = format) :
    b.hessianContributionTensor (G.map Tensor.ofMatrix) = .ok (b.tripleProduct format G) := by
  have hhead : ((G.map Tensor.ofMatrix).head?.map (·.format)).getD b.format = format := by
    rw [hformat, List.head?_map, Option.map_map]
    congr 2
    funext A
    exact Tensor.format_ofEntries _ _ _
  have hlengths := Vec.map_length_split (h.length_blocks hrows)
  have hheights := h.map_totalSize_split hrows
  have hwidths := h.map_totalSize_split hcols
  have hchecks : (((Vec.split b.edgeSizes (G.map Tensor.ofMatrix)).zip b.edgeSizes).zip
      b.jacobian.blockRows).forM
        (fun ((group, members), rows) => checkEdgeBlocks format rows members group) =
      (.ok () : Except Error Unit) := by
    refine Outcome.forM_eq_ok ?_
    rintro ⟨⟨group, members⟩, rows⟩ hentry
    obtain ⟨i, hi, hentry⟩ := List.mem_iff_getElem.1 hentry
    simp only [Vec.split_map, List.getElem_zip, List.getElem_map, Prod.mk.injEq] at hentry
    obtain ⟨⟨rfl, rfl⟩, rfl⟩ := hentry
    simp only [List.length_zip, Vec.length_split] at hi
    have hgroup : i < (Vec.split b.edgeSizes G).length := by
      rw [Vec.length_split]
      omega
    refine checkEdgeBlocks_eq_ok ?_ (h.members_pos _ (List.getElem_mem _)) ?_ ?_ ?_
    · have hlength := List.getElem_of_eq hlengths (i := i) (by simpa using hgroup)
      simpa using hlength
    · intro A hA
      refine hformats A ?_
      rw [← Vec.flatten_split (h.length_blocks hrows)]
      exact List.mem_flatten_of_mem (List.getElem_mem hgroup) hA
    · have hheight := List.getElem_of_eq hheights (i := i) (by simpa using hgroup)
      simpa using hheight
    · have hwidth := List.getElem_of_eq hwidths (i := i) (by simpa using hgroup)
      simpa using hwidth
  rw [hessianContributionTensor, hhead]
  dsimp only
  rw [hchecks, Outcome.ok_bind, mapM_diagonalBlock, Outcome.ok_bind,
    h.hessianContribution_eq hrows hcols]

end Checks

section Blocks

theorem hessianBlocks_cast
    (format : Format) (b : ConstraintBundle ℝ) (D : List (DenseMatrix ℝ)) :
    (b.cast format).hessianBlocks D = b.hessianBlocks D := by
  rw [hessianBlocks, inverseRegularization_cast]
  rfl

/-- The blocks `G` for matrices in tensors. -/
theorem hessianBlocksTensor_eq
    {D : List (DenseMatrix ℝ)}
    (hcols : D.map (·.numCols) = b.equationCounts)
    (hinverse : b.inverseRegularization.length = b.numEquations) :
    b.hessianBlocksTensor (D.map Tensor.ofMatrix) =
      .ok ((b.hessianBlocks D).map Tensor.ofMatrix) := by
  have hlengths := Vec.map_length_split hinverse
  have hpair : ∀ pair ∈ D.zip (Vec.split b.equationCounts b.inverseRegularization),
      Tensor.zipWith (· * ·) (Tensor.ofMatrix pair.1)
          (Tensor.ofEntries (Tensor.ofMatrix pair.1).format [1, pair.2.length] pair.2) =
        .ok (Tensor.ofMatrix (hessianBlock pair.1 pair.2)) := by
    intro pair hpair
    obtain ⟨i, hi, rfl⟩ := List.mem_iff_getElem.1 hpair
    simp only [List.length_zip, Vec.length_split] at hi
    have hwidth := List.getElem_of_eq hcols (i := i) (by simp; omega)
    have hlength := List.getElem_of_eq hlengths (i := i) (by simp [Vec.length_split]; omega)
    simp only [List.getElem_map] at hwidth hlength
    simp only [List.getElem_zip]
    rw [show (Tensor.ofMatrix D[i]).format = D[i].format from Tensor.format_ofEntries _ _ _]
    exact Tensor.zipWith_row _ (hlength.trans hwidth.symm)
  have hmapped := Outcome.mapM_eq_ok_map hpair
  rw [hessianBlocksTensor, List.zip_map_left, List.mapM_map]
  refine Eq.trans hmapped (congrArg Except.ok ?_)
  rw [hessianBlocks, ← List.map_uncurry_zip_eq_zipWith, List.map_map]
  rfl

end Blocks

section Built

variable {p : ContactProblem ℝ} {q : PartialPermutation} {delassus : Tensor ℝ}

/-- A bundle that holds the constraints in the order of the edges is aligned with them. -/
theorem aligned_of_order
    (hp : p.WellFormed)
    (hq : p.Covers q)
    (horder : p.graph.constraintsPermutation = .ok b.constraintsPermutation)
    (hedges : b.edgeSizes = p.graph.edges.map Edge.numConstraints)
    (hheld : b.held = b.constraintsPermutation.gather p.held)
    (hjacobian : b.jacobian.cast .double = (p.assembled q).cast .double) :
    b.Aligned := by
  obtain ⟨o, ho, -, -, hinverse⟩ := hp.exists_constraintsPermutation
  obtain rfl : o = b.constraintsPermutation :=
    Except.ok.inj (ho.symm.trans horder)
  have hconstraints : b.constraints = b.constraintsPermutation.gather p.constraints := by
    rw [constraints, hheld, ← PartialPermutation.gather_map]
    rfl
  have hcounts : b.equationCounts =
      (b.constraintsPermutation.gather p.constraints).map Constraint.numEquations := by
    rw [equationCounts, hconstraints]
  have hgroups := hp.split_gather_constraints hinverse
  have hnumber : ∀ e ∈ p.graph.edges, e.numConstraints = (p.onEdge e).length :=
    fun e he => hp.numConstraints_eq he rfl
  have hregular := hp.regular_assembled hq
  have hplaces := hp.nodup_places_assembled hq
  rw [← BlockSparseMatrix.regular_cast .double, ← hjacobian,
    BlockSparseMatrix.regular_cast] at hregular
  rw [← BlockSparseMatrix.places_cast .double, ← hjacobian,
    BlockSparseMatrix.places_cast] at hplaces
  refine
    { regular := hregular
      nodup_places := hplaces
      members_pos := ?_
      totalSize_edgeSizes := ?_
      blockRows_eq := ?_ }
  · intro n hn
    rw [hedges] at hn
    obtain ⟨e, he, rfl⟩ := List.mem_map.1 hn
    rw [hnumber e he]
    exact List.length_pos_iff.2 (hp.onEdge_ne_nil he)
  · rw [hedges, List.map_congr_left hnumber, hcounts, List.length_map, gather_eq_flatMap hinverse,
      List.length_flatMap, Vec.totalSize_eq_sum]
    rfl
  · have hrows : b.jacobian.blockRows = p.graph.edges.map fun e => e.equations.toNat :=
      congrArg BlockSparseMatrix.blockRows hjacobian
    rw [hedges, hcounts, Vec.split_map, hgroups, List.map_map, List.map_map, hrows]
    apply List.map_congr_left
    intro e he
    rw [hp.equations_eq he, Int.toNat_natCast]
    rfl

/-- A bundle that was built is the bundle of the problem for some order of its cliques. -/
theorem aligned_of_build
    (hp : p.WellFormed)
    {cliques? : Option PartialPermutation}
    (hb : build p delassus cliques? = .ok b) :
    b.Aligned := by
  obtain ⟨q, hsome⟩ : ∃ q, build p delassus (some q) = .ok b := by
    cases cliques? with
    | some q =>
        exact ⟨q, hb⟩
    | none =>
        obtain ⟨own, hown, -⟩ := hp.exists_cliquesPermutation
        refine ⟨own, ?_⟩
        rw [← hb, build, build, hown]
  have hchecks : q.domainSize = p.numCliques ∧ delassus.shape = [p.numConstraints] := by
    have hpassed := hsome
    rw [build, Outcome.ok_bind] at hpassed
    dsimp only at hpassed
    split_ifs at hpassed with hdomain hshape
    exact ⟨not_not.1 hdomain, not_not.1 hshape⟩
  obtain ⟨hdomain, hshape⟩ := hchecks
  obtain ⟨o, equations, ho, -, -, hbuild⟩ := hp.build_bundle_eq_bind hshape hdomain
  obtain ⟨o', ho', -, -, hinverse⟩ := hp.exists_constraintsPermutation
  obtain rfl : o = o' := Except.ok.inj (ho.symm.trans ho')
  rw [hsome] at hbuild
  by_cases hq : p.Covers q
  · rw [hp.assembleJacobian_eq_ok hq hinverse, Outcome.ok_bind] at hbuild
    split_ifs at hbuild
    cases hbuild
    exact aligned_of_order hp hq ho rfl rfl rfl
  · obtain ⟨c, -, side, -, -, herror⟩ := hp.assembleJacobian_eq_error hdomain hq hinverse
    rw [herror] at hbuild
    cases hbuild

end Built

end ConstraintBundle

namespace ContactModel

/-- The dynamics of the participating cliques. -/
def participatingDynamics (m : ContactModel ℝ) (p : ContactProblem ℝ) : List (DenseMatrix ℝ) :=
  (m.cliquesPermutation.gather p.cliques).map (·.dynamics)

namespace Describes

variable [Threshold]
variable {m : ContactModel ℝ} {p : ContactProblem ℝ} {w V : List ℝ}

theorem aligned
    (d : m.Describes p w) :
    m.bundle.Aligned :=
  ConstraintBundle.aligned_of_order d.wellFormed d.covers d.order d.edgeSizes d.held d.jacobian

/-- The blocks `G` have the sizes of their constraints. -/
theorem map_size_hessianBlocks
    (d : m.Describes p w)
    (format : Format) (V : List ℝ) :
    (m.bundle.hessianBlocks ((m.edgeLoads p w).map (p.derivativeAt format V))).map (·.numRows) =
        m.bundle.equationCounts ∧
      (m.bundle.hessianBlocks ((m.edgeLoads p w).map (p.derivativeAt format V))).map (·.numCols) =
        m.bundle.equationCounts := by
  have hshape : ∀ x ∈ m.edgeLoads p w,
      let block := x.hessianBlock p.timeStep format (p.localVelocity V x.constraint)
      block.numRows = x.constraint.numEquations ∧ block.numCols = x.constraint.numEquations := by
    intro x hx
    exact Load.shape_hessianBlock (d.proper hx) (d.length_localVelocity (V := V) hx)
  rw [d.hessianBlocks_eq, d.equationCounts_eq, List.map_map, List.map_map]
  exact ⟨List.map_congr_left fun x hx => (hshape x hx).1,
    List.map_congr_left fun x hx => (hshape x hx).2⟩

/-- The dynamics of the participating cliques along the diagonal act clique by clique. -/
theorem mulVec_participatingDynamics
    (d : m.Describes p w)
    (format : Format)
    {u : List ℝ}
    (hu : u.length = m.velocitiesPermutation.permutedSize) :
    (DenseMatrix.blockDiagonal format (m.participatingDynamics p)).mulVec u =
      m.dynamicsTimes u := by
  obtain ⟨-, hcols⟩ := d.map_size_gathered
  rw [PartialPermutation.gather_map] at hcols
  have hlength : u.length = totalSize ((m.participatingDynamics p).map (·.numCols)) := by
    rw [hu, d.velocities.permutedSize_eq, ← hcols]
    rfl
  rw [DenseMatrix.mulVec_blockDiagonal format hlength, d.dynamicsTimes_eq,
    PartialPermutation.gather_map]
  rfl

theorem shape_participatingDynamics
    (d : m.Describes p w)
    (format : Format) :
    (DenseMatrix.blockDiagonal format (m.participatingDynamics p)).numRows =
        m.bundle.jacobian.numCols ∧
      (DenseMatrix.blockDiagonal format (m.participatingDynamics p)).numCols =
        m.bundle.jacobian.numCols := by
  obtain ⟨hrows, hcols⟩ := d.map_size_gathered
  rw [PartialPermutation.gather_map] at hrows hcols
  rw [d.numCols_jacobian, d.velocities.permutedSize_eq, DenseMatrix.numRows_blockDiagonal,
    DenseMatrix.numCols_blockDiagonal, ← hrows]
  refine ⟨rfl, ?_⟩
  rw [hrows, ← hcols]
  rfl

/-- In inner products the second derivative is the triple product plus the dynamics. -/
theorem dot_mulVec_hessianOf_cast
    (d : m.Describes p w)
    {D : List (DenseMatrix ℝ)} {x u : List ℝ}
    (hrows : (m.bundle.hessianBlocks D).map (·.numRows) = m.bundle.equationCounts)
    (hcols : (m.bundle.hessianBlocks D).map (·.numCols) = m.bundle.equationCounts)
    (format : Format)
    (hx : x.length = m.bundle.jacobian.numCols)
    (hu : u.length = m.bundle.jacobian.numCols) :
    Vec.dot x (((m.cast format).hessianOf D).mulVec u) =
      Vec.dot x ((m.bundle.tripleProduct format (m.bundle.hessianBlocks D)).mulVec u) +
        Vec.dot x ((m.cast format).dynamicsTimes u) := by
  have dcast := d.cast format
  have hcontribution : (m.cast format).bundle.hessianContribution
      ((m.cast format).bundle.hessianBlocks D) =
        m.bundle.tripleProduct format (m.bundle.hessianBlocks D) := by
    have hblocks : (m.cast format).bundle.hessianBlocks D = m.bundle.hessianBlocks D :=
      ConstraintBundle.hessianBlocks_cast format m.bundle D
    rw [hblocks]
    exact d.aligned.hessianContribution_eq hrows hcols format
  obtain ⟨hheight, hwidth, -⟩ := m.bundle.shape_tripleProduct format (m.bundle.hessianBlocks D)
  unfold hessianOf
  rw [hcontribution]
  dsimp only
  split_ifs with hempty
  · have hrest : (m.cast format).dynamicsTimes u = [] := by
      rw [List.isEmpty_iff] at hempty
      rw [dynamicsTimes, hempty]
      rfl
    rw [hrest, Vec.dot_nil_right, add_zero]
  · have hsize : m.bundle.jacobian.numCols = (m.cast format).velocitiesPermutation.permutedSize :=
      d.numCols_jacobian
    obtain ⟨U, hU, rfl⟩ := dcast.exists_gather (hu.trans hsize)
    obtain ⟨hheld, hheld'⟩ := dcast.map_size_held
    rw [DenseMatrix.dot_mulVec_add _ _ (hx.trans hheight.symm) (hu.trans hwidth.symm),
      dcast.mulVec_blockDiagonal .single hU]
    · rw [hheight, hsize, DenseMatrix.numRows_blockDiagonal, hheld,
        dcast.velocities.permutedSize_eq]
    · rw [hwidth, hsize, DenseMatrix.numCols_blockDiagonal, hheld',
        dcast.velocities.permutedSize_eq]

/-- **The second derivative, written out,** is the triple product plus the dynamics of the
participating cliques along the diagonal. -/
theorem hessianOf_cast_eq
    (d : m.Describes p w)
    {D : List (DenseMatrix ℝ)}
    (hrows : (m.bundle.hessianBlocks D).map (·.numRows) = m.bundle.equationCounts)
    (hcols : (m.bundle.hessianBlocks D).map (·.numCols) = m.bundle.equationCounts)
    (format : Format) :
    (m.cast format).hessianOf D =
      (m.bundle.tripleProduct format (m.bundle.hessianBlocks D)).add
        (DenseMatrix.blockDiagonal format (m.participatingDynamics p)) := by
  have dcast := d.cast format
  set product := m.bundle.tripleProduct format (m.bundle.hessianBlocks D)
  set dynamics := DenseMatrix.blockDiagonal format (m.participatingDynamics p) with hdynamics
  obtain ⟨hheight, hwidth, hformat⟩ :=
    m.bundle.shape_tripleProduct format (m.bundle.hessianBlocks D)
  obtain ⟨hheight', hwidth'⟩ := d.shape_participatingDynamics format
  obtain ⟨hsquare, hsquare'⟩ := dcast.shape_hessianOf D
  have hsize : m.bundle.jacobian.numCols = (m.cast format).velocitiesPermutation.permutedSize :=
    d.numCols_jacobian
  apply DenseMatrix.eq_of_dot_mulVec_eq
  · have hjoin : (product.add dynamics).format = format := by
      change product.format.join dynamics.format = format
      rw [hformat, hdynamics, DenseMatrix.format_blockDiagonal, Format.join_self]
    rw [hjoin, format_hessianOf, DenseMatrix.format_blockDiagonal]
    split_ifs
    · rfl
    · exact Format.join_comm format .single
  · rw [hsquare, DenseMatrix.add, DenseMatrix.numRows_tabulate, hheight, hsize]
  · rw [hsquare', DenseMatrix.add, DenseMatrix.numCols_tabulate, hwidth, hsize]
  intro x u hx hu
  rw [hsquare, ← hsize] at hx
  rw [hsquare'] at hu
  have htimes : dynamics.mulVec u = (m.cast format).dynamicsTimes u :=
    dcast.mulVec_participatingDynamics format hu
  rw [← hsize] at hu
  rw [d.dot_mulVec_hessianOf_cast hrows hcols format hx hu,
    DenseMatrix.dot_mulVec_add (hheight.trans hheight'.symm) (hwidth.trans hwidth'.symm)
      (hx.trans hheight.symm) (hu.trans hwidth.symm), htimes]

end Describes

end ContactModel

namespace ContactProblem

variable [Threshold]

/-- **Sparse products are dense ones.**  Take any bundle that was built for a problem, for any order
of the cliques and any inertias, and let `J` be its Jacobian written out.  For square blocks `G` of
one format with the equations of the constraints, the Hessian contribution is `Jᵀ G J`; for an
impulse with the equations of the bundle, the generalized impulse is `Jᵀ γ`.  The second derivative
of a model at any velocities is `A + Jᵀ G J` for the blocks `G` of its evaluation there, whether no
evaluation is passed on or one at these velocities, with the derivatives of the projections or
without. -/
theorem sparse_products_eq_dense
    {p : ContactProblem ℝ}
    (hp : p.Reachable) :
    (∀ (delassus : Tensor ℝ) (cliques? : Option PartialPermutation) (b : ConstraintBundle ℝ),
      ConstraintBundle.build p delassus cliques? = .ok b →
        (∀ (G : List (DenseMatrix ℝ)) (format : Format),
          G.map (·.numRows) = b.equationCounts → G.map (·.numCols) = b.equationCounts →
          format = (G.head?.map (·.format)).getD b.format → (∀ A ∈ G, A.format = format) →
            b.hessianContributionTensor (G.map Tensor.ofMatrix) = .ok (b.tripleProduct format G)) ∧
        ∀ (γ : Tensor ℝ) (format : Format), γ.shape = [b.numEquations] →
          b.jacobian.multiplyTranspose γ =
            .ok (Tensor.ofVec γ.format
              ((b.jacobian.toDense format).transpose.mulVec γ.entries))) ∧
    ∀ m : ContactModel ℝ, (ContactModel.ofProblem p).1 = .ok m →
      ∀ v : Tensor ℝ, v.shape = [m.numVelocities] →
        ∃ plain full D G,
          m.evaluateTensor v false = .ok plain ∧ plain.derivatives? = none ∧
          m.evaluateTensor v true = .ok full ∧ full.derivatives? = some D ∧
          m.bundle.hessianBlocksTensor (D.map Tensor.ofMatrix) = .ok (G.map Tensor.ofMatrix) ∧
          G.map (·.numRows) = m.bundle.equationCounts ∧
          G.map (·.numCols) = m.bundle.equationCounts ∧
          ∀ evaluation? : Option (CostEvaluation ℝ),
            evaluation? = none ∨ evaluation? = some plain ∨ evaluation? = some full →
              m.hessianTensor v evaluation? =
                .ok ((m.bundle.tripleProduct v.format G).add
                  (DenseMatrix.blockDiagonal v.format (m.participatingDynamics p))) := by
  refine ⟨?_, ?_⟩
  · intro delassus cliques? b hb
    have h := ConstraintBundle.aligned_of_build hp.wellFormed hb
    refine ⟨?_, ?_⟩
    · intro G format hrows hcols hformat hformats
      exact h.hessianContributionTensor_eq hrows hcols hformat hformats
    · intro γ format hγ
      rw [← h.numRows_jacobian] at hγ
      exact BlockSparseMatrix.multiplyTranspose_eq h.regular h.nodup_places hγ format
  · intro m hm v hv
    obtain ⟨delassus, -, d, -⟩ := ContactModel.describes_of_ofProblem hp hm
    obtain ⟨V, hV, hgather⟩ := d.exists_gather (Tensor.length_entries_of_shape hv)
    have hevaluate := d.evaluateTensor_eq hv hV hgather
    set D := (m.edgeLoads p delassus.entries).map (p.derivativeAt v.format V) with hD
    obtain ⟨hrows, hcols⟩ := d.map_size_hessianBlocks v.format V
    have hhessian := (d.hessianTensor_eq hv hV hgather).trans
      (congrArg Except.ok (d.hessianOf_cast_eq hrows hcols v.format))
    have hwidths : D.map (·.numCols) = m.bundle.equationCounts := by
      rw [hD, d.equationCounts_eq, List.map_map]
      apply List.map_congr_left
      intro x hx
      exact (Load.project_eq (d.proper hx) (d.length_localVelocity hx)).2.2
    have hinverse : m.bundle.inverseRegularization.length = m.bundle.numEquations :=
      d.length_inverse.trans d.aligned.numRows_jacobian
    refine ⟨_, _, D, m.bundle.hessianBlocks D, hevaluate false, rfl, hevaluate true, rfl,
      ConstraintBundle.hessianBlocksTensor_eq hwidths hinverse, hrows, hcols, ?_⟩
    rintro evaluation? (rfl | rfl | rfl)
    · exact hhessian
    · -- without derivatives the projections are computed again
      refine Eq.trans ?_ hhessian
      rw [ContactModel.hessianTensor_of_shape hv, ContactModel.hessianTensor_of_shape hv]
      rfl
    · refine Eq.trans ?_ hhessian
      rw [d.hessianTensor_eq hv hV hgather, ContactModel.hessianTensor_of_shape hv]
      rfl

end ContactProblem

namespace Stack

/-- A block that is not symmetric. -/
noncomputable def skewBlock : DenseMatrix ℝ :=
  DenseMatrix.tabulate .double 3 3 fun i j => if i < j then 1 else 0

/-- Two bodies that share an edge with each other, one of which shares one with the ground. -/
theorem sparse_products_eq_dense_stack :
    letI := Threshold.ofFormat .double
    (problem [onGround, onBody]).Reachable ∧
      ∃ (m : ContactModel ℝ) (G : List (DenseMatrix ℝ)),
        (ContactModel.ofProblem (problem [onGround, onBody])).1 = .ok m ∧
          m.bundle.hessianContributionTensor ([skewBlock, skewBlock].map Tensor.ofMatrix) =
            .ok (m.bundle.tripleProduct .double [skewBlock, skewBlock]) ∧
          m.hessianTensor (Tensor.ofVec .double [1, 2]) none =
            .ok ((m.bundle.tripleProduct .double G).add (DenseMatrix.blockDiagonal .double
              (m.participatingDynamics (problem [onGround, onBody])))) := by
  let _ := Threshold.ofFormat .double
  have hacts : ∀ c ∈ [onGround, onBody], Acts c := by
    simp [acts_onGround, acts_onBody]
  have hp := reachable hacts
  obtain ⟨m, w, hm, d⟩ := exists_model hacts
  obtain ⟨hbundles, hmodels⟩ := ContactProblem.sparse_products_eq_dense hp
  have hshape : (Tensor.ofVec .double [1, 2] : Tensor ℝ).shape = [m.numVelocities] := by
    rw [Tensor.shape_ofVec, numVelocities_eq d]
    rfl
  obtain ⟨plain, full, D, G, -, -, -, -, -, -, -, hhessian⟩ := hmodels m hm _ hshape
  obtain ⟨hcontribution, -⟩ :=
    hbundles _ _ _ (ContactModel.build_bundle_of_ofProblem hm)
  have hcounts : m.bundle.equationCounts = [3, 3] := by
    have hperm := d.perm_edgeLoads.map fun x => x.constraint.numEquations
    have hloads : ((problem [onGround, onBody]).loads w).map
        (fun x => x.constraint.numEquations) = List.replicate 2 3 := by
      have hconstraints := ContactProblem.map_constraint_loads d.length_inertias
      rw [constraints_problem] at hconstraints
      have hequations := congrArg (List.map Constraint.numEquations) hconstraints
      rw [List.map_map] at hequations
      exact hequations
    rw [hloads, List.perm_replicate] at hperm
    rw [d.equationCounts_eq, hperm]
    rfl
  have hheight : [skewBlock, skewBlock].map (·.numRows) = m.bundle.equationCounts := by
    rw [hcounts]
    simp [skewBlock]
  have hwidth : [skewBlock, skewBlock].map (·.numCols) = m.bundle.equationCounts := by
    rw [hcounts]
    simp [skewBlock]
  have hformat : ∀ A ∈ [skewBlock, skewBlock], A.format = .double := by
    simp [skewBlock, DenseMatrix.tabulate]
  refine ⟨hp, m, G, hm, hcontribution _ .double hheight hwidth rfl hformat, ?_⟩
  rw [hhessian none (Or.inl rfl), Tensor.format_ofVec]

end Stack

end ConvexContact
