import Mathlib
import ConvexContact.ContactModel
import ConvexContact.Proofs.Assembly
import ConvexContact.Proofs.Constraints
import ConvexContact.Proofs.Factors

/-!
# What a model holds of its problem

**Loads.**  A constraint together with the inverse inertia felt at it determines everything that is
evaluated at a single constraint.  The loads of a problem are listed in its order; the bundle holds
them in the order of the edges.

**Description.**  A model describes a problem if its index maps are those of the graph and every
list in it is the gathered list of the problem (`ContactModel.Describes`).  Formats are left out,
so a description stays true if the model is brought to another format.

**Result.**  If the inertias can be computed, a model is built that describes the problem, unless
some regularization is not positive (`build_eq`).
-/

namespace ConvexContact

/-- A constraint with the inverse inertia felt at it. -/
structure Load where
  constraint : Constraint ℝ
  inertia : ℝ

namespace ContactProblem

variable {p : ContactProblem ℝ} {w : List ℝ}

/-- The constraints with the inertias felt at them. -/
def loads (p : ContactProblem ℝ) (w : List ℝ) : List Load :=
  List.zipWith Load.mk p.constraints w

theorem map_constraint_loads
    (hw : w.length = p.numConstraints) :
    (p.loads w).map Load.constraint = p.constraints := by
  unfold loads
  rw [List.map_zipWith]
  apply List.ext_getElem
  · simp [hw, length_constraints]
  · intro i h₁ h₂
    simp

theorem map_inertia_loads
    (hw : w.length = p.numConstraints) :
    (p.loads w).map Load.inertia = w := by
  unfold loads
  rw [List.map_zipWith]
  apply List.ext_getElem
  · simp [hw, length_constraints]
  · intro i h₁ h₂
    simp

theorem mem_constraints_of_mem_loads
    {x : Load}
    (hw : w.length = p.numConstraints)
    (hx : x ∈ p.loads w) :
    x.constraint ∈ p.constraints := by
  rw [← map_constraint_loads hw]
  exact List.mem_map_of_mem hx

theorem mem_zip_of_mem_loads
    {x : Load}
    (hx : x ∈ p.loads w) :
    (x.constraint, x.inertia) ∈ p.constraints.zip w := by
  unfold loads at hx
  rw [← List.map_uncurry_zip_eq_zipWith] at hx
  obtain ⟨pair, hpair, rfl⟩ := List.mem_map.1 hx
  exact hpair

theorem length_loads
    (hw : w.length = p.numConstraints) :
    (p.loads w).length = p.numConstraints := by
  rw [← List.length_map, map_constraint_loads hw, length_constraints]

/-- The inertias and the constraints in the order of a permutation are those of the loads. -/
theorem zip_gather_loads
    (hw : w.length = p.numConstraints)
    {o : PartialPermutation}
    (hdomain : o.domainSize = p.numConstraints) :
    (o.gather w).zip (o.gather p.constraints) =
      (o.gather (p.loads w)).map fun x => (x.inertia, x.constraint) := by
  rw [← PartialPermutation.gather_zip, ← PartialPermutation.gather_map]
  · congr 1
    conv_lhs =>
      rw [← map_constraint_loads hw]
      arg 1
      rw [← map_inertia_loads hw]
    rw [List.zip_map']
  · rw [hw, hdomain]
  · rw [length_constraints, hdomain]

end ContactProblem

variable [Threshold]

namespace Load

variable {x : Load} {timeStep : ℝ} {u : List ℝ}

noncomputable def regularization (x : Load) (timeStep : ℝ) : List ℝ :=
  x.constraint.diagonalAt timeStep x.inertia

noncomputable def bias (x : Load) (timeStep : ℝ) : List ℝ :=
  x.constraint.bias timeStep

/-- The impulse before the projection, at a constraint velocity. -/
noncomputable def unprojected (x : Load) (timeStep : ℝ) (u : List ℝ) : List ℝ :=
  List.zipWith (fun d r => -d / r) (Vec.sub u (x.bias timeStep)) (x.regularization timeStep)

theorem length_regularization
    (hx : x.constraint.Proper) :
    (x.regularization timeStep).length = x.constraint.numEquations :=
  hx.length_diagonalAt _ _

theorem length_bias
    (hx : x.constraint.Proper) :
    (x.bias timeStep).length = x.constraint.numEquations :=
  hx.length_bias _

theorem length_unprojected
    (hx : x.constraint.Proper)
    (hu : u.length = x.constraint.numEquations) :
    (x.unprojected timeStep u).length = x.constraint.numEquations := by
  unfold unprojected
  rw [List.length_zipWith, Vec.length_sub, hu, length_bias hx, length_regularization hx,
    Nat.min_self, Nat.min_self]

end Load

/-- The bundle of a problem whose constraints and equations are put in the given orders. -/
noncomputable def ContactProblem.bundleOf (p : ContactProblem ℝ) (delassus : Tensor ℝ)
    (o oₑ : PartialPermutation) (J : BlockSparseMatrix ℝ) : ConstraintBundle ℝ where
  held := o.gather p.held
  constraintsPermutation := o
  equationsPermutation := oₑ
  edgeSizes := p.graph.edges.map Edge.numConstraints
  jacobian := J
  format := if (o.gather p.constraints).isEmpty then delassus.format
    else ((o.gather p.constraints).map (·.format)).foldl Format.join .single
  regularization := (o.gather (p.loads delassus.entries)).flatMap
    (Load.regularization · p.timeStep)
  inverseRegularization := ((o.gather (p.loads delassus.entries)).flatMap
    (Load.regularization · p.timeStep)).map (1 / ·)
  bias := (o.gather (p.loads delassus.entries)).flatMap (Load.bias · p.timeStep)

namespace ContactModel

/-- The model holds the problem with the given inertias, up to the formats of its numbers. -/
structure Describes (m : ContactModel ℝ) (p : ContactProblem ℝ) (w : List ℝ) : Prop where
  wellFormed : p.WellFormed
  length_inertias : w.length = p.numConstraints
  cliques : p.graph.cliquesPermutation = .ok m.cliquesPermutation
  velocities : m.cliquesPermutation.Expands p.cliqueSizes m.velocitiesPermutation
  order : p.graph.constraintsPermutation = .ok m.bundle.constraintsPermutation
  equations :
    m.bundle.constraintsPermutation.Expands p.equationCounts m.bundle.equationsPermutation
  edgeSizes : m.bundle.edgeSizes = p.graph.edges.map Edge.numConstraints
  held : m.bundle.held = m.bundle.constraintsPermutation.gather p.held
  jacobian :
    m.bundle.jacobian.cast .double = (p.assembled m.cliquesPermutation).cast .double
  regularization :
    m.bundle.regularization =
      (m.bundle.constraintsPermutation.gather (p.loads w)).flatMap
        (Load.regularization · p.timeStep)
  inverse : m.bundle.inverseRegularization = m.bundle.regularization.map (1 / ·)
  bias :
    m.bundle.bias =
      (m.bundle.constraintsPermutation.gather (p.loads w)).flatMap (Load.bias · p.timeStep)
  dynamics :
    m.dynamics.map (DenseMatrix.cast .double) =
      (m.cliquesPermutation.gather p.cliques).map fun c => c.dynamics.cast .double
  freeVelocity : m.freeVelocity = m.velocitiesPermutation.gather p.freeVelocity
  fullFreeVelocity : m.fullFreeVelocity = p.freeVelocity

end ContactModel

namespace ContactProblem
namespace WellFormed

variable {p : ContactProblem ℝ} {w : List ℝ}

/-- The order of the edges as a permutation of the constraints. -/
theorem exists_constraintsPermutation
    (hp : p.WellFormed) :
    ∃ o, p.graph.constraintsPermutation = .ok o ∧ o.domainSize = p.numConstraints ∧ o.IsTotal ∧
      o.inverse = p.graph.edges.flatMap fun e =>
        ContactGraph.indicesOn (p.constraints.map memberOf) e.cliques := by
  rw [hp.graph_eq]
  obtain ⟨o, ho, hdomain, htotal, hinverse⟩ :=
    ContactGraph.constraintsPermutation_eq_ok p.numCliques (p.constraints.map memberOf)
  refine ⟨o, ho, ?_, htotal, hinverse⟩
  rw [hdomain, List.length_map, length_constraints]

theorem proper_of_mem_loads
    (hp : p.WellFormed)
    (hw : w.length = p.numConstraints)
    {x : Load}
    (hx : x ∈ p.loads w) :
    x.constraint.Proper :=
  hp.proper _ (mem_constraints_of_mem_loads hw hx)

theorem setup_eq
    (hp : p.WellFormed)
    (hw : w.length = p.numConstraints)
    {x : Load}
    (hx : x ∈ p.loads w) :
    ConstraintBundle.setup p.timeStep x.inertia x.constraint =
      .ok (x.regularization p.timeStep, x.bias p.timeStep) := by
  have hproper := hp.proper_of_mem_loads hw hx
  unfold ConstraintBundle.setup
  rw [Unrounded.round_eq, hproper.regularization_eq hp.timeStep_pos, Outcome.ok_bind]
  simp only [Unrounded.round_eq_id, List.map_id]
  rfl

/-- The regularizations and biases, in the order of a permutation. -/
theorem setups_eq_ok
    (hp : p.WellFormed)
    (hw : w.length = p.numConstraints)
    {o : PartialPermutation}
    (hdomain : o.domainSize = p.numConstraints) :
    (((o.gather w).zip (o.gather p.constraints)).mapM fun (w, c) =>
        ConstraintBundle.setup p.timeStep w c) =
      .ok ((o.gather (p.loads w)).map fun x =>
        (x.regularization p.timeStep, x.bias p.timeStep)) := by
  rw [zip_gather_loads hw hdomain, List.mapM_map]
  apply Outcome.mapM_eq_ok_map
  intro x hx
  exact hp.setup_eq hw (PartialPermutation.mem_of_mem_gather hx)

/-- The bundle of a problem is built once its Jacobian is assembled. -/
theorem build_bundle_eq_bind
    (hp : p.WellFormed)
    {delassus : Tensor ℝ}
    (hshape : delassus.shape = [p.numConstraints])
    {q : PartialPermutation}
    (hdomain : q.domainSize = p.numCliques) :
    ∃ o oₑ, p.graph.constraintsPermutation = .ok o ∧
      p.graph.equationsPermutation (p.equationCounts.map fun (n : ℕ) => (n : ℤ)) = .ok oₑ ∧
      o.Expands p.equationCounts oₑ ∧
      ConstraintBundle.build p delassus (some q) =
        (ConstraintBundle.assembleJacobian p q (o.gather p.constraints) >>= fun J =>
          if (p.bundleOf delassus o oₑ J).regularization.any (fun r => decide (r ≤ 0)) then
            .error .regularizationNotPositive else .ok (p.bundleOf delassus o oₑ J)) := by
  have hw : delassus.entries.length = p.numConstraints :=
    Tensor.length_entries_of_shape hshape
  obtain ⟨o, ho, hsize, -, -⟩ := hp.exists_constraintsPermutation
  have hcounts : p.equationCounts.length = o.domainSize := by
    rw [hsize]
    simp [equationCounts, length_constraints]
  obtain ⟨oₑ, hoₑ, hexpands⟩ := PartialPermutation.expand_eq_ok hcounts
  have hequations :
      p.graph.equationsPermutation (p.equationCounts.map fun (n : ℕ) => (n : ℤ)) = .ok oₑ := by
    unfold ContactGraph.equationsPermutation
    rw [ho, Outcome.ok_bind]
    exact hoₑ
  have hconstraints :
      (o.gather p.held).map (·.constraint) = o.gather p.constraints := by
    rw [← PartialPermutation.gather_map]
    rfl
  refine ⟨o, oₑ, ho, hequations, hexpands, ?_⟩
  unfold ConstraintBundle.build
  dsimp only
  rw [Outcome.ok_bind, if_neg (not_not.2 hdomain), if_neg (not_not.2 hshape), ho,
    Outcome.ok_bind, hequations, Outcome.ok_bind, hconstraints, hp.setups_eq_ok hw hsize]
  simp only [Outcome.ok_bind, Unrounded.round_eq_id, List.map_id, List.flatMap_map,
    Exact.ofNat_zero, Exact.ofNat_one]
  rfl

/-- The bundle of a problem, unless some regularization is not positive. -/
theorem build_bundle_eq
    (hp : p.WellFormed)
    {delassus : Tensor ℝ}
    (hshape : delassus.shape = [p.numConstraints])
    {q : PartialPermutation}
    (hq : p.Covers q) :
    ∃ b : ConstraintBundle ℝ,
      ConstraintBundle.build p delassus (some q) =
          (if b.regularization.any (fun r => decide (r ≤ 0)) then
            .error .regularizationNotPositive else .ok b) ∧
        p.graph.constraintsPermutation = .ok b.constraintsPermutation ∧
        b.constraintsPermutation.Expands p.equationCounts b.equationsPermutation ∧
        b.edgeSizes = p.graph.edges.map Edge.numConstraints ∧
        b.held = b.constraintsPermutation.gather p.held ∧
        b.jacobian = p.assembled q ∧
        b.regularization =
          (b.constraintsPermutation.gather (p.loads delassus.entries)).flatMap
            (Load.regularization · p.timeStep) ∧
        b.inverseRegularization = b.regularization.map (1 / ·) ∧
        b.bias =
          (b.constraintsPermutation.gather (p.loads delassus.entries)).flatMap
            (Load.bias · p.timeStep) := by
  obtain ⟨o, oₑ, ho, -, hexpands, hbuild⟩ := hp.build_bundle_eq_bind hshape hq.domainSize_eq
  obtain ⟨o', ho', -, -, hinverse⟩ := hp.exists_constraintsPermutation
  obtain rfl : o = o' := Except.ok.inj (ho.symm.trans ho')
  rw [hp.assembleJacobian_eq_ok hq hinverse, Outcome.ok_bind] at hbuild
  exact ⟨_, hbuild, ho, hexpands, rfl, rfl, rfl, rfl, rfl, rfl⟩

end WellFormed

/-- The inertias of a problem are as many as its constraints. -/
theorem shape_delassusDiagonal
    {p : ContactProblem ℝ} {delassus : Tensor ℝ}
    (h : p.delassusDiagonal = .ok delassus) :
    delassus.shape = [p.numConstraints] := by
  rw [delassusDiagonal_eq_mapM, Outcome.map_eq_ok] at h
  obtain ⟨entries, hentries, rfl⟩ := h
  rw [Tensor.shape_ofVec, List.length_map, ← (Outcome.mapM_eq_ok.1 hentries).length_eq,
    length_constraints]

end ContactProblem

namespace ContactModel

variable {p : ContactProblem ℝ}

/-- **The model of a problem.**  If the inertias can be computed, the model describes the problem;
it is refused only if some regularization is not positive. -/
theorem build_eq
    (hp : p.WellFormed)
    {delassus : Tensor ℝ}
    (hdelassus : p.delassusDiagonal = .ok delassus) :
    ∃ m : ContactModel ℝ, m.Describes p delassus.entries ∧
      build p =
        if m.bundle.regularization.any (fun r => decide (r ≤ 0)) then
          .error .regularizationNotPositive else .ok m := by
  have hshape := ContactProblem.shape_delassusDiagonal hdelassus
  obtain ⟨q, hq, hdomain, -⟩ := hp.exists_cliquesPermutation
  have hsizes : p.cliqueSizes.length = q.domainSize :=
    (ContactProblem.length_cliqueSizes p).trans hdomain.symm
  obtain ⟨velocities, hvelocities, hexpands⟩ := PartialPermutation.expand_eq_ok hsizes
  obtain ⟨b, hb, ho, hequations, hedges, hheld, hjacobian, hregularization, hinverse, hbias⟩ :=
    hp.build_bundle_eq hshape (hp.selects hq).covers
  refine
    ⟨{ timeStep := p.timeStep
       numCliques := p.numCliques
       cliquesPermutation := q
       velocitiesPermutation := velocities
       delassus := delassus
       bundle := b
       dynamics := (q.gather p.cliques).map (·.dynamics)
       format := p.velocityFormat
       freeVelocity := velocities.gather p.freeVelocity
       fullFreeVelocity := p.freeVelocity }, ?_, ?_⟩
  · exact
      { wellFormed := hp
        length_inertias := Tensor.length_entries_of_shape hshape
        cliques := hq
        velocities := hexpands
        order := ho
        equations := hequations
        edgeSizes := hedges
        held := hheld
        jacobian := by rw [hjacobian]
        regularization := hregularization
        inverse := hinverse
        bias := hbias
        dynamics := List.map_map
        freeVelocity := rfl
        fullFreeVelocity := rfl }
  · unfold build
    rw [hq, Outcome.ok_bind, hvelocities, Outcome.ok_bind, hdelassus, Outcome.ok_bind, hb]
    simp only [Unrounded.round_eq_id, List.map_id]
    split_ifs <;> rfl

/-- A model that was built describes its problem. -/
theorem describes_of_build
    (hp : p.WellFormed)
    {m : ContactModel ℝ}
    (h : build p = .ok m) :
    ∃ delassus, p.delassusDiagonal = .ok delassus ∧ m.Describes p delassus.entries ∧
      ∀ r ∈ m.bundle.regularization, 0 < r := by
  obtain ⟨q, -, h'⟩ := Outcome.bind_eq_ok.1 h
  obtain ⟨velocities, -, h'⟩ := Outcome.bind_eq_ok.1 h'
  obtain ⟨delassus, hdelassus, -⟩ := Outcome.bind_eq_ok.1 h'
  obtain ⟨m', hdescribes, hbuild⟩ := build_eq hp hdelassus
  rw [h] at hbuild
  split_ifs at hbuild with hany
  cases hbuild
  refine ⟨delassus, hdelassus, hdescribes, ?_⟩
  intro r hr
  by_contra hnonpos
  apply hany
  rw [List.any_eq_true]
  exact ⟨r, hr, by simpa using hnonpos⟩

/-- The model of a problem is that of the finalized problem. -/
theorem ofProblem_eq
    (p : ContactProblem ℝ) :
    (ofProblem p).1 = build p.finalize.1 := by
  unfold ofProblem
  dsimp only
  cases build p.finalize.1 <;> rfl

/-- A model that describes the finalized problem describes the problem. -/
theorem Describes.of_finalize
    {m : ContactModel ℝ} {w : List ℝ}
    (hp : p.WellFormed)
    (d : m.Describes p.finalize.1 w) :
    m.Describes p w := by
  rw [ContactProblem.finalize_eq] at d
  exact
    { wellFormed := hp
      length_inertias := d.length_inertias
      cliques := d.cliques
      velocities := d.velocities
      order := d.order
      equations := d.equations
      edgeSizes := d.edgeSizes
      held := d.held
      jacobian := d.jacobian
      regularization := d.regularization
      inverse := d.inverse
      bias := d.bias
      dynamics := d.dynamics
      freeVelocity := d.freeVelocity
      fullFreeVelocity := d.fullFreeVelocity }

/-- The model of a problem that can be built describes it. -/
theorem describes_of_ofProblem
    (hp : p.Reachable)
    {m : ContactModel ℝ}
    (hm : (ofProblem p).1 = .ok m) :
    ∃ delassus, p.delassusDiagonal = .ok delassus ∧ m.Describes p delassus.entries ∧
      ∀ r ∈ m.bundle.regularization, 0 < r := by
  rw [ofProblem_eq] at hm
  obtain ⟨delassus, hdelassus, d, hpositive⟩ := describes_of_build hp.finalize.wellFormed hm
  refine ⟨delassus, ?_, d.of_finalize hp.wellFormed, hpositive⟩
  rw [ContactProblem.finalize_eq] at hdelassus
  exact hdelassus

section Order

variable {m : ContactModel ℝ} {w : List ℝ} {q : PartialPermutation}

/-- The cliques that take part are those the graph selects. -/
theorem Describes.cliquesPermutation_of_order
    (d : m.Describes p w)
    (hq : p.graph.cliquesPermutation = .ok q) :
    m.cliquesPermutation = q :=
  Except.ok.inj (d.cliques.symm.trans hq)

theorem Describes.numVelocities_of_order
    (d : m.Describes p w)
    (hq : p.graph.cliquesPermutation = .ok q) :
    m.numVelocities = totalSize (q.gather p.cliqueSizes) := by
  rw [numVelocities, d.velocities.permutedSize_eq, d.cliquesPermutation_of_order hq]

/-- The velocities of the model are those of the cliques that take part. -/
theorem Describes.gather_of_order
    (d : m.Describes p w)
    (hq : p.graph.cliquesPermutation = .ok q)
    (parts : List (List ℝ)) (hparts : parts.map List.length = p.cliqueSizes) :
    m.velocitiesPermutation.gather parts.flatten = (q.gather parts).flatten := by
  rw [d.velocities.gather_flatten hparts, d.cliquesPermutation_of_order hq]

end Order

/-- The inertias and the bundle that a model holds are those of its problem. -/
theorem parts_of_ofProblem
    {m : ContactModel ℝ}
    (hm : (ofProblem p).1 = .ok m) :
    p.delassusDiagonal = .ok m.delassus ∧
      ConstraintBundle.build p m.delassus (some m.cliquesPermutation) = .ok m.bundle := by
  rw [ofProblem_eq, ContactProblem.finalize_eq] at hm
  obtain ⟨q, -, hm⟩ := Outcome.bind_eq_ok.1 hm
  obtain ⟨velocities, -, hm⟩ := Outcome.bind_eq_ok.1 hm
  obtain ⟨delassus, hdelassus, hm⟩ := Outcome.bind_eq_ok.1 hm
  obtain ⟨b, hbundle, hm⟩ := Outcome.bind_eq_ok.1 hm
  cases hm
  exact ⟨hdelassus, hbundle⟩

theorem delassusDiagonal_of_ofProblem
    {m : ContactModel ℝ}
    (hm : (ofProblem p).1 = .ok m) :
    p.delassusDiagonal = .ok m.delassus :=
  (parts_of_ofProblem hm).1

theorem build_bundle_of_ofProblem
    {m : ContactModel ℝ}
    (hm : (ofProblem p).1 = .ok m) :
    ConstraintBundle.build p m.delassus (some m.cliquesPermutation) = .ok m.bundle :=
  (parts_of_ofProblem hm).2

/-- A problem whose inertias can be computed has a model unless a regularization is not positive. -/
theorem ofProblem_eq_ite
    (hp : p.Reachable)
    {delassus : Tensor ℝ}
    (hdelassus : p.delassusDiagonal = .ok delassus) :
    ∃ m : ContactModel ℝ, m.Describes p delassus.entries ∧
      (ofProblem p).1 =
        if m.bundle.regularization.any (fun r => decide (r ≤ 0)) then
          .error .regularizationNotPositive else .ok m := by
  have hfinalized : p.finalize.1.delassusDiagonal = .ok delassus := by
    rw [ContactProblem.finalize_eq]
    exact hdelassus
  obtain ⟨m, d, hbuild⟩ := build_eq hp.finalize.wellFormed hfinalized
  exact ⟨m, d.of_finalize hp.wellFormed, (ofProblem_eq p).trans hbuild⟩

/-- A problem has a model if its inertias can be computed and make all regularizations positive. -/
theorem exists_ofProblem
    (hp : p.Reachable)
    {delassus : Tensor ℝ}
    (hdelassus : p.delassusDiagonal = .ok delassus)
    (hpositive : ∀ x ∈ p.loads delassus.entries, ∀ r ∈ x.regularization p.timeStep, 0 < r) :
    ∃ m, (ofProblem p).1 = .ok m ∧ m.Describes p delassus.entries := by
  obtain ⟨m, d, hm⟩ := ofProblem_eq_ite hp hdelassus
  refine ⟨m, ?_, d⟩
  rw [hm, if_neg]
  intro hany
  obtain ⟨r, hr, hnonpos⟩ := List.any_eq_true.1 hany
  rw [d.regularization, List.mem_flatMap] at hr
  obtain ⟨x, hx, hr⟩ := hr
  have hpos := hpositive x (PartialPermutation.mem_of_mem_gather hx) r hr
  exact absurd (of_decide_eq_true hnonpos) (not_le.2 hpos)

/-- A problem whose inertias are refused is refused for the same reason. -/
theorem ofProblem_eq_error_of_delassusDiagonal
    (hp : p.Reachable)
    {e : Error}
    (he : p.delassusDiagonal = .error e) :
    (ofProblem p).1 = .error e := by
  obtain ⟨q, hq, hdomain, -⟩ := hp.wellFormed.exists_cliquesPermutation
  have hsizes : p.cliqueSizes.length = q.domainSize :=
    (ContactProblem.length_cliqueSizes p).trans hdomain.symm
  obtain ⟨velocities, hvelocities, -⟩ := PartialPermutation.expand_eq_ok hsizes
  rw [ofProblem_eq, ContactProblem.finalize_eq]
  change (p.graph.cliquesPermutation >>= _) = _
  rw [hq, Outcome.ok_bind]
  change (q.expand (p.cliqueSizes.map fun (n : ℕ) => (n : ℤ)) >>= _) = _
  rw [hvelocities, Outcome.ok_bind]
  change (p.delassusDiagonal >>= _) = _
  rw [he]
  rfl

end ContactModel
end ConvexContact
