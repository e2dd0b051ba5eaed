import Mathlib
import ConvexContact.Proofs.Construction

/-!
# The layout of a bundle

**Full Jacobian.**  The blocks of a constraint, each written at the velocities of its clique, give
its rows in the Jacobian of all constraints with respect to the velocities of all cliques
(`ContactProblem.fullJacobian`).  Applied to velocities it gives the constraint velocities, in the
order of the problem.

**Rows and columns.**  The block-sparse Jacobian of a bundle, written out, is the full one with its
rows in the order of the equations and its columns in the order of the participating velocities
(`toDense_assembled`).  Both sides act alike on gathered velocities, so no entry has to be traced.

**Result.**  A bundle is built for exactly those orders of the cliques in which every clique with a
constraint takes part, and then it is laid out in this way (`ConstraintBundle.build_layout`).
-/

namespace ConvexContact

namespace DenseMatrix

variable [Threshold]

/-- Some rows and some columns of a matrix, in the orders of two permutations. -/
noncomputable def select (A : DenseMatrix ℝ) (format : Format) (rows cols : PartialPermutation) :
    DenseMatrix ℝ where
  format := format
  numCols := cols.permutedSize
  rows := rows.inverse.map fun i => cols.inverse.map fun j => A.get i j
  length_row := by
    intro row hrow
    obtain ⟨i, -, rfl⟩ := List.mem_map.1 hrow
    exact List.length_map _

variable {A : DenseMatrix ℝ} {rows cols : PartialPermutation} {x : List ℝ}

/-- A selected part acts on velocities that are zero elsewhere, and its product is gathered. -/
theorem mulVec_select
    (hrows : A.numRows = rows.domainSize)
    (hcols : A.numCols = cols.domainSize)
    (format : Format)
    (hx : x.length = cols.permutedSize) :
    (A.select format rows cols).mulVec x =
      rows.gather (A.mulVec (cols.scatter x (Vec.zero cols.domainSize))) := by
  have hrow : ∀ i ∈ rows.inverse, (A.rows.getD i []).length = cols.domainSize := by
    intro i hi
    rw [← hcols]
    refine length_row_getD ?_
    rw [hrows]
    exact rows.lt_domainSize i hi
  rw [PartialPermutation.gather_eq_map ((length_mulVec _ _).trans hrows) 0]
  unfold mulVec select
  rw [List.map_map]
  apply List.map_congr_left
  intro i hi
  have hentry : ((A.rows.map (Vec.dot · (cols.scatter x (Vec.zero cols.domainSize)))).getD i 0) =
      Vec.dot (A.rows.getD i []) (cols.scatter x (Vec.zero cols.domainSize)) :=
    getD_mulVec A _ i
  rw [hentry, PartialPermutation.dot_scatter (hrow i hi) hx,
    PartialPermutation.gather_eq_map (hrow i hi) 0]
  simp only [Function.comp_apply, get, Exact.ofNat_zero]

end DenseMatrix

namespace ContactProblem

variable [Threshold]
variable {p : ContactProblem ℝ} {q o : PartialPermutation}

/-- The rows of a constraint: its blocks, each at the velocities of its clique. -/
noncomputable def fullRows (p : ContactProblem ℝ) (c : Constraint ℝ) : DenseMatrix ℝ :=
  c.sides.foldl
    (fun A side => A.setBlock 0 ((blockStarts 0 p.cliqueSizes).getD side.1 0) side.2)
    (DenseMatrix.zero .single c.numEquations p.numVelocities)

/-- The Jacobian of all constraints with respect to the velocities of all cliques. -/
noncomputable def fullJacobian (p : ContactProblem ℝ) : DenseMatrix ℝ :=
  DenseMatrix.vertical .single p.numVelocities (p.constraints.map p.fullRows)

namespace WellFormed

section Full

variable {c : Constraint ℝ} {V : List ℝ}

theorem clique_lt_length
    (hp : p.WellFormed)
    (hc : c ∈ p.constraints)
    {side : ℕ × DenseMatrix ℝ}
    (hside : side ∈ c.sides) :
    side.1 < p.cliqueSizes.length := by
  rw [length_cliqueSizes]
  exact hp.clique_lt hc hside

theorem shape_fullRows
    (p : ContactProblem ℝ) (c : Constraint ℝ) :
    (p.fullRows c).numRows = c.numEquations ∧ (p.fullRows c).numCols = p.numVelocities := by
  obtain ⟨hrows, hcols, -⟩ := DenseMatrix.shape_foldl_setBlock c.sides (fun _ => 0)
    (fun side => (blockStarts 0 p.cliqueSizes).getD side.1 0) (fun side => side.2)
    (DenseMatrix.zero .single c.numEquations p.numVelocities)
  exact ⟨hrows.trans (DenseMatrix.numRows_tabulate _ _ _ _), hcols⟩

/-- The two blocks of a constraint are in different columns. -/
theorem pairwise_sides
    (hp : p.WellFormed)
    (hc : c ∈ p.constraints) :
    c.sides.Pairwise fun a b =>
      Vec.Apart 0 a.2.numRows 0 b.2.numRows ∨
        Vec.Apart ((blockStarts 0 p.cliqueSizes).getD a.1 0) a.2.numCols
          ((blockStarts 0 p.cliqueSizes).getD b.1 0) b.2.numCols := by
  have hlt : ∀ side ∈ c.sides, side.1 < p.cliqueSizes.length :=
    fun _ => hp.clique_lt_length hc
  have hcols : ∀ side ∈ c.sides, side.2.numCols = p.cliqueSizes.getD side.1 0 :=
    fun _ => hp.numCols_eq hc
  have hne := (hp.proper c hc).second_ne
  unfold Constraint.sides at hlt hcols ⊢
  cases hsecond : c.second? with
  | none =>
      exact List.pairwise_singleton _ _
  | some side =>
      rw [hsecond, Option.toList_some] at hlt hcols
      refine List.pairwise_pair.2 (Or.inr ?_)
      rw [hcols _ List.mem_cons_self, hcols side (by simp)]
      exact Vec.apart_blockStarts (hlt _ List.mem_cons_self) (hlt side (by simp))
        (hne side hsecond).symm

/-- The rows of a constraint give its velocity. -/
theorem mulVec_fullRows
    (hp : p.WellFormed)
    (hc : c ∈ p.constraints)
    (hV : V.length = p.numVelocities) :
    (p.fullRows c).mulVec V = p.localVelocity V c := by
  have hlocal := hp.length_localVelocity (V := V) hc
  have hshape := shape_fullRows p c
  have hside : ∀ side ∈ c.sides, side.2.numRows = c.numEquations :=
    (hp.proper c hc).numRows_eq
  apply Vec.eq_of_dot_eq ((DenseMatrix.length_mulVec _ _).trans hshape.1) hlocal
  intro w hw
  have hterm : ∀ side ∈ c.sides,
      Vec.dot (Vec.slice 0 side.2.numRows w)
          (side.2.mulVec (Vec.slice ((blockStarts 0 p.cliqueSizes).getD side.1 0)
            side.2.numCols V)) = Vec.dot (p.sideVelocity V side) w := by
    intro side hs
    have hall : Vec.slice 0 side.2.numRows w = w := by
      rw [Vec.slice, List.drop_zero, List.take_of_length_le]
      rw [hw, hside side hs]
    rw [hall, hp.numCols_eq hc hs, Vec.slice_blockStarts, Vec.dot_comm]
    rfl
  unfold fullRows
  rw [DenseMatrix.dot_mulVec_foldl_setBlock (hp.pairwise_sides hc),
    DenseMatrix.mulVec_zero_matrix, zero_add, List.map_congr_left hterm,
    hp.sum_dot_sideVelocity hc, Vec.dot_comm]
  · intro side hs
    rw [hp.numCols_eq hc hs, hside side hs, Nat.zero_add]
    exact ⟨(DenseMatrix.numRows_tabulate _ _ _ _).symm.le,
      Vec.blockStarts_add_le_totalSize (hp.clique_lt_length hc hs)⟩
  · intro side _ i j _ _ _ _
    exact DenseMatrix.get_tabulate_eq_zero Exact.ofNat_zero
  · exact hw.trans (DenseMatrix.numRows_tabulate _ _ _ _).symm
  · exact hV

/-- The full Jacobian gives the constraint velocities in the order of the problem. -/
theorem mulVec_fullJacobian
    (hp : p.WellFormed)
    (hV : V.length = p.numVelocities) :
    p.fullJacobian.mulVec V = p.constraints.flatMap (p.localVelocity V) := by
  unfold fullJacobian
  rw [DenseMatrix.mulVec_vertical, List.flatMap_map]
  · exact List.flatMap_congr fun c hc => hp.mulVec_fullRows hc hV
  · intro A hA
    obtain ⟨c, -, rfl⟩ := List.mem_map.1 hA
    exact (shape_fullRows p c).2

theorem numRows_fullJacobian
    (hp : p.WellFormed) :
    p.fullJacobian.numRows = totalSize p.equationCounts := by
  have hzero : (Vec.zero p.numVelocities : List ℝ).length = p.numVelocities :=
    Vec.length_zero _
  rw [← DenseMatrix.length_mulVec p.fullJacobian (Vec.zero p.numVelocities),
    hp.mulVec_fullJacobian hzero, List.length_flatMap, Vec.totalSize_eq_sum, equationCounts]
  congr 1
  exact List.map_congr_left fun c hc => hp.length_localVelocity hc

end Full

section Written

variable {velocities equations : PartialPermutation} {V : List ℝ}

/-- No two stored blocks of the Jacobian have one place. -/
theorem nodup_places_assembled
    (hp : p.WellFormed)
    (hq : p.Covers q) :
    ((p.assembled q).blocks.map Block.place).Nodup := by
  have hrows : p.graph.edges.zipIdx.Pairwise fun a b => a.2 ≠ b.2 := by
    refine List.pairwise_map.1 (?_ : (p.graph.edges.zipIdx.map Prod.snd).Nodup)
    rw [List.zipIdx_map_snd]
    exact List.nodup_range'
  unfold assembled
  rw [List.map_flatMap, List.nodup_flatMap]
  constructor
  · -- within an edge the columns differ
    intro entry hentry
    have he : entry.1 ∈ p.graph.edges :=
      List.mem_of_getElem? (List.mem_zipIdx_iff_getElem?.1 hentry)
    unfold edgeBlocks
    rw [List.map_map]
    refine (nodup_edgeCliques entry.1).map_on ?_
    intro y hy z hz heq
    obtain ⟨j, hj, -, hy', -⟩ :=
      hp.exists_place hq.domainSize_eq he hy (hp.coversEdge hq he y hy)
    obtain ⟨k, hk, -, hz', -⟩ :=
      hp.exists_place hq.domainSize_eq he hz (hp.coversEdge hq he z hz)
    simp only [Function.comp_apply, Block.place, Prod.mk.injEq, true_and,
      PartialPermutation.place?_eq_some_iff.2 hj, PartialPermutation.place?_eq_some_iff.2 hk,
      Option.getD_some] at heq
    rw [heq, hk, Option.some_inj] at hj
    omega
  · -- blocks of different edges are in different rows
    refine hrows.imp ?_
    intro a b hne place ha hb
    obtain ⟨s, hs, rfl⟩ := List.mem_map.1 ha
    obtain ⟨t, ht, heq⟩ := List.mem_map.1 hb
    apply hne
    rw [← row_of_mem_edgeBlocks hs, ← row_of_mem_edgeBlocks ht]
    exact congrArg Prod.fst heq.symm

/-- **The Jacobian, written out,** has the rows and columns of the full one in their orders. -/
theorem toDense_assembled
    (hp : p.WellFormed)
    (hq : p.Covers q)
    (hvelocities : q.Expands p.cliqueSizes velocities)
    (ho : o.inverse = p.graph.edges.flatMap fun e =>
      ContactGraph.indicesOn (p.constraints.map memberOf) e.cliques)
    (hequations : o.Expands p.equationCounts equations)
    (format : Format) :
    (p.assembled q).toDense format = p.fullJacobian.select format equations velocities := by
  have hregular := hp.regular_assembled hq
  obtain ⟨-, hcols, hformat⟩ := BlockSparseMatrix.shape_toDense format (p.assembled q)
  have hwidth : (p.assembled q).numCols = velocities.permutedSize :=
    hvelocities.permutedSize_eq.symm
  have hrows : p.fullJacobian.numRows = equations.domainSize :=
    hp.numRows_fullJacobian.trans hequations.domainSize_eq.symm
  have hall : p.fullJacobian.numCols = velocities.domainSize :=
    hvelocities.domainSize_eq.symm
  refine DenseMatrix.eq_of_rows_eq hformat (hcols.trans hwidth)
    (DenseMatrix.rows_eq_of_dot_eq ((p.assembled q).toDense format).length_row
      (fun row hrow => ?_) fun x hx => ?_)
  · rw [hcols, hwidth]
    exact (p.fullJacobian.select format equations velocities).length_row row hrow
  rw [hcols] at hx
  have hx' : x.length = velocities.permutedSize :=
    hx.trans hwidth
  -- the selected velocities are those of all cliques at rest but for the participating ones
  set V := velocities.scatter x (Vec.zero velocities.domainSize) with hV
  have hlength : V.length = p.numVelocities := by
    rw [hV, PartialPermutation.length_scatter, Vec.length_zero, hvelocities.domainSize_eq]
    rfl
  have hgather : velocities.gather V = x :=
    PartialPermutation.gather_scatter hx' (Vec.length_zero _)
  have hcounts : p.constraints.map (fun c => (p.localVelocity V c).length) = p.equationCounts :=
    List.map_congr_left fun c hc => hp.length_localVelocity hc
  change ((p.assembled q).toDense format).mulVec x =
    (p.fullJacobian.select format equations velocities).mulVec x
  rw [hregular.mulVec_toDense (hp.nodup_places_assembled hq) format hx,
    DenseMatrix.mulVec_select hrows hall format hx', ← hV, hp.mulVec_fullJacobian hlength,
    hequations.gather_flatMap hcounts, ← hp.mulVec_assembled hq hvelocities ho hlength, hgather]

end Written

end WellFormed
end ContactProblem

namespace ConstraintBundle

section Built

variable [Threshold]
variable {p : ContactProblem ℝ} {q : PartialPermutation} {delassus : Tensor ℝ}

/-- The bundle holds the constraints of a problem in the order of the edges.  Its Jacobian, written
out, is the full one with rows in the order of the equations and columns in that of the
participating velocities; every constraint has the regularization and the bias for the inertia at
its place in the problem, whatever its handle is. -/
structure LaysOut (b : ConstraintBundle ℝ) (p : ContactProblem ℝ) (w : List ℝ)
    (q : PartialPermutation) : Prop where
  order : p.graph.constraintsPermutation = .ok b.constraintsPermutation
  total : b.constraintsPermutation.IsTotal
  equations :
    p.graph.equationsPermutation (p.equationCounts.map fun (n : ℕ) => (n : ℤ)) =
      .ok b.equationsPermutation
  jacobian : ∀ velocities,
    q.expand (p.cliqueSizes.map fun (n : ℕ) => (n : ℤ)) = .ok velocities →
      ∀ format, b.jacobian.toDense format =
        p.fullJacobian.select format b.equationsPermutation velocities
  member : ∀ k i : ℕ, b.constraintsPermutation.inverse[k]? = some i →
    ∃ h a R, p.held[i]? = some h ∧ w[i]? = some a ∧ b.held[k]? = some h ∧
      h.constraint.regularization p.timeStep a = .ok R ∧
      (Vec.split b.equationCounts b.regularization)[k]? = some R ∧
      (Vec.split b.equationCounts b.bias)[k]? = some (h.constraint.bias p.timeStep)

/-- A part for each load is found again by cutting at the equations of the constraints. -/
theorem split_bundleOf
    (hw : delassus.entries.length = p.numConstraints)
    {o equations : PartialPermutation} {J : BlockSparseMatrix ℝ} {f : Load → List ℝ}
    (hf : ∀ x ∈ p.loads delassus.entries, (f x).length = x.constraint.numEquations) :
    Vec.split (p.bundleOf delassus o equations J).equationCounts
        ((o.gather (p.loads delassus.entries)).flatMap f) =
      (o.gather (p.loads delassus.entries)).map f := by
  have hconstraints : (p.bundleOf delassus o equations J).constraints =
      (o.gather (p.loads delassus.entries)).map Load.constraint := by
    rw [← PartialPermutation.gather_map, ContactProblem.map_constraint_loads hw, constraints,
      ContactProblem.bundleOf, ← PartialPermutation.gather_map]
    rfl
  rw [List.flatMap_def, equationCounts, hconstraints]
  apply Vec.split_flatten_of_sizes
  rw [List.map_map, List.map_map]
  exact List.map_congr_left fun x hx => hf x (PartialPermutation.mem_of_mem_gather hx)

/-- The bundle of a problem is laid out as the problem says. -/
theorem laysOut_bundleOf
    (hp : p.WellFormed)
    (hshape : delassus.shape = [p.numConstraints])
    (hq : p.Covers q)
    {o equations : PartialPermutation}
    (ho : p.graph.constraintsPermutation = .ok o)
    (hequations : p.graph.equationsPermutation (p.equationCounts.map fun (n : ℕ) => (n : ℤ)) =
      .ok equations)
    (hexpands : o.Expands p.equationCounts equations) :
    (p.bundleOf delassus o equations (p.assembled q)).LaysOut p delassus.entries q := by
  have hw : delassus.entries.length = p.numConstraints :=
    Tensor.length_entries_of_shape hshape
  obtain ⟨o', ho', hdomain, htotal, hinverse⟩ := hp.exists_constraintsPermutation
  obtain rfl : o = o' := Except.ok.inj (ho.symm.trans ho')
  have hsizes : p.cliqueSizes.length = q.domainSize :=
    p.length_cliqueSizes.trans hq.domainSize_eq.symm
  have hloads : (p.loads delassus.entries).length = o.domainSize :=
    (ContactProblem.length_loads hw).trans hdomain.symm
  have hproper : ∀ x ∈ p.loads delassus.entries, x.constraint.Proper :=
    fun x hx => hp.proper_of_mem_loads hw hx
  refine ⟨ho, htotal, hequations, ?_, ?_⟩
  · intro velocities hvelocities format
    obtain ⟨velocities', hvelocities', hcolumns⟩ := PartialPermutation.expand_eq_ok hsizes
    obtain rfl : velocities = velocities' :=
      Except.ok.inj (hvelocities.symm.trans hvelocities')
    exact hp.toDense_assembled hq hcolumns hinverse hexpands format
  · intro k i hk
    have hi : i < p.held.length := by
      change i < p.numConstraints
      rw [← hdomain]
      exact o.lt_domainSize i (List.mem_of_getElem? hk)
    have hi' : i < delassus.entries.length := by
      rw [hw]
      exact hi
    set x : Load := ⟨p.held[i].constraint, delassus.entries[i]⟩ with hx
    have hload : (p.loads delassus.entries)[i]? = some x := by
      unfold ContactProblem.loads ContactProblem.constraints
      rw [List.getElem?_zipWith, List.getElem?_map, List.getElem?_eq_getElem hi,
        List.getElem?_eq_getElem hi']
      rfl
    have hmem := List.mem_of_getElem? hload
    have hpart : ∀ f : Load → List ℝ,
        (∀ y ∈ p.loads delassus.entries, (f y).length = y.constraint.numEquations) →
        (Vec.split (p.bundleOf delassus o equations (p.assembled q)).equationCounts
          ((o.gather (p.loads delassus.entries)).flatMap f))[k]? = some (f x) := by
      intro f hf
      rw [split_bundleOf hw hf, List.getElem?_map,
        PartialPermutation.getElem?_gather hloads hk, hload]
      rfl
    refine ⟨p.held[i], delassus.entries[i], x.regularization p.timeStep,
      List.getElem?_eq_getElem hi, List.getElem?_eq_getElem hi', ?_, ?_, ?_, ?_⟩
    · exact (PartialPermutation.getElem?_gather hdomain.symm hk).trans
        (List.getElem?_eq_getElem hi)
    · exact (hproper x hmem).regularization_eq hp.timeStep_pos x.inertia
    · exact hpart (Load.regularization · p.timeStep)
        fun y hy => Load.length_regularization (hproper y hy)
    · exact hpart (Load.bias · p.timeStep) fun y hy => Load.length_bias (hproper y hy)

/-- **The layout of a bundle.**  For an order of the cliques and inertias that make every
regularization positive, the bundle is built if and only if all cliques with constraints take part,
and is refused as an unacceptable value otherwise.  What is built is laid out as the problem says.
Without a given order the one of the graph is taken, which covers the problem. -/
theorem build_layout
    (hp : p.Reachable)
    (hshape : delassus.shape = [p.numConstraints])
    (hpositive : ∀ pair ∈ p.constraints.zip delassus.entries,
      ∀ R, pair.1.regularization p.timeStep pair.2 = .ok R → ∀ r ∈ R, 0 < r)
    (hdomain : q.domainSize = p.numCliques) :
    ((∃ b, build p delassus (some q) = .ok b) ↔
        ∀ c ∈ p.constraints, ∀ side ∈ c.sides, side.1 ∈ q.inverse) ∧
      (∀ e, build p delassus (some q) = .error e →
        e.kind = .value ∧
          ∃ c ∈ p.constraints, ∃ side ∈ c.sides,
            side.1 ∉ q.inverse ∧ e = .notParticipating side.1) ∧
      (∀ b, build p delassus (some q) = .ok b → b.LaysOut p delassus.entries q) ∧
      ∃ own, p.graph.cliquesPermutation = .ok own ∧ own.domainSize = p.numCliques ∧
        (∀ c ∈ p.constraints, ∀ side ∈ c.sides, side.1 ∈ own.inverse) ∧
        build p delassus none = build p delassus (some own) := by
  have hwell := hp.wellFormed
  have hw : delassus.entries.length = p.numConstraints :=
    Tensor.length_entries_of_shape hshape
  obtain ⟨o, equations, ho, hequations, hexpands, hbuild⟩ :=
    hwell.build_bundle_eq_bind hshape hdomain
  obtain ⟨o', ho', -, -, hinverse⟩ := hwell.exists_constraintsPermutation
  obtain rfl : o = o' := Except.ok.inj (ho.symm.trans ho')
  have hcovered : p.Covers q →
      build p delassus (some q) = .ok (p.bundleOf delassus o equations (p.assembled q)) := by
    intro hq
    rw [hbuild, hwell.assembleJacobian_eq_ok hq hinverse, Outcome.ok_bind, if_neg]
    intro hany
    obtain ⟨r, hr, hnonpos⟩ := List.any_eq_true.1 hany
    obtain ⟨x, hx, hr⟩ := List.mem_flatMap.1 hr
    have hload := PartialPermutation.mem_of_mem_gather hx
    have hpos := hpositive _ (ContactProblem.mem_zip_of_mem_loads hload) _
      ((hwell.proper_of_mem_loads hw hload).regularization_eq hwell.timeStep_pos x.inertia) r hr
    exact absurd (of_decide_eq_true hnonpos) (not_le.2 hpos)
  have huncovered : ¬ p.Covers q →
      ∃ c ∈ p.constraints, ∃ side ∈ c.sides,
        side.1 ∉ q.inverse ∧ build p delassus (some q) = .error (.notParticipating side.1) := by
    intro hq
    obtain ⟨c, hc, side, hside, hnot, herror⟩ :=
      hwell.assembleJacobian_eq_error hdomain hq hinverse
    refine ⟨c, hc, side, hside, hnot, ?_⟩
    rw [hbuild, herror]
    rfl
  refine ⟨⟨?_, ?_⟩, ?_, ?_, ?_⟩
  · rintro ⟨b, hb⟩
    by_contra hnot
    obtain ⟨c, hc, side, hside, -, herror⟩ := huncovered fun hq => hnot hq.mem_inverse
    rw [hb] at herror
    cases herror
  · intro hall
    exact ⟨_, hcovered ⟨hdomain, hall⟩⟩
  · intro e he
    by_cases hq : p.Covers q
    · rw [hcovered hq] at he
      cases he
    · obtain ⟨c, hc, side, hside, hnot, herror⟩ := huncovered hq
      rw [he] at herror
      cases herror
      exact ⟨rfl, c, hc, side, hside, hnot, rfl⟩
  · intro b hb
    by_cases hq : p.Covers q
    · rw [hcovered hq] at hb
      cases hb
      exact laysOut_bundleOf hwell hshape hq ho hequations hexpands
    · obtain ⟨c, hc, side, hside, -, herror⟩ := huncovered hq
      rw [hb] at herror
      cases herror
  · obtain ⟨own, hown, -⟩ := hwell.exists_cliquesPermutation
    have hq := (hwell.selects hown).covers
    refine ⟨own, hown, hq.domainSize_eq, hq.mem_inverse, ?_⟩
    unfold build
    dsimp only
    rw [hown]

end Built

/-- A bundle with a block column for a body that no contact acts on. -/
theorem build_layout_stack :
    letI := Threshold.ofFormat .double
    (Stack.problem [Stack.onGround, Stack.onBody]).Reachable ∧
      (Tensor.ofVec .double [1, 2] : Tensor ℝ).shape =
        [(Stack.problem [Stack.onGround, Stack.onBody]).numConstraints] ∧
      Stack.fallingFirst.domainSize =
        (Stack.problem [Stack.onGround, Stack.onBody]).numCliques ∧
      ∃ b, build (Stack.problem [Stack.onGround, Stack.onBody]) (Tensor.ofVec .double [1, 2])
          (some Stack.fallingFirst) = .ok b ∧
        b.LaysOut (Stack.problem [Stack.onGround, Stack.onBody]) [1, 2] Stack.fallingFirst := by
  let _ := Threshold.ofFormat .double
  have hacts : ∀ c ∈ [Stack.onGround, Stack.onBody], Stack.Acts c := by
    simp [Stack.acts_onGround, Stack.acts_onBody]
  have hp := Stack.reachable hacts
  have hshape : (Tensor.ofVec .double [1, 2] : Tensor ℝ).shape =
      [(Stack.problem [Stack.onGround, Stack.onBody]).numConstraints] :=
    Tensor.shape_ofVec _ _
  have hpositive : ∀ pair ∈ (Stack.problem [Stack.onGround, Stack.onBody]).constraints.zip
      (Tensor.ofVec .double [1, 2] : Tensor ℝ).entries,
      ∀ R, pair.1.regularization (Stack.problem [Stack.onGround, Stack.onBody]).timeStep
        pair.2 = .ok R → ∀ r ∈ R, 0 < r := by
    intro pair hpair R hR
    have hproper := hp.wellFormed.proper pair.1 (List.of_mem_zip hpair).1
    rw [hproper.regularization_eq hp.wellFormed.timeStep_pos pair.2] at hR
    cases hR
    have hentry := (List.of_mem_zip hpair).2
    rw [Tensor.entries_ofVec] at hentry
    refine Load.regularization_pos (x := ⟨pair.1, pair.2⟩) hproper hp.wellFormed.timeStep_pos ?_
    simp only [List.mem_cons, List.not_mem_nil, or_false] at hentry
    rcases hentry with h | h <;> rw [h] <;> norm_num
  obtain ⟨hbuilt, -, hlaid, -⟩ :=
    build_layout (q := Stack.fallingFirst) hp hshape hpositive rfl
  have hcovers : ∀ c ∈ (Stack.problem [Stack.onGround, Stack.onBody]).constraints,
      ∀ side ∈ c.sides, side.1 ∈ Stack.fallingFirst.inverse := by
    rw [Stack.constraints_problem]
    intro c hc side hside
    obtain ⟨k, hk, -⟩ := hp.wellFormed.fits c (by rwa [Stack.constraints_problem]) side hside
    have hlt : side.1 < 3 :=
      (List.getElem?_eq_some_iff.1 hk).1
    interval_cases side.1 <;> decide
  obtain ⟨b, hb⟩ := hbuilt.2 hcovers
  have hlaidOut := hlaid b hb
  rw [Tensor.entries_ofVec] at hlaidOut
  exact ⟨hp, hshape, rfl, b, hb, hlaidOut⟩

end ConstraintBundle
end ConvexContact
