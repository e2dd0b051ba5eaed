import Mathlib
import ConvexContact.Scene
import ConvexContact.Proofs.Solvability

/-!
# Collisions of two bodies

Two bodies with one velocity each move along a vertical line and meet in one contact.

**Building.**  The frame of the vertical direction does not change vertical velocities, so that the
blocks of the two bodies are those of normal velocities with opposite signs.  Building is refused
only for the time step and for the parameters of the contact (`Collision.build_eq_ok_iff`).

**Inertia.**  The contact feels a third of the sum of the inverse masses
(`Collision.inertiaNorm_contact`), and a collision of two positive masses has a model
(`Collision.exists_model`).

**Models.**  Both bodies take part, in their order; the dynamics multiply each velocity by its mass,
and the contact sees their difference (`Collision.dynamicsTimes_eq`, `Collision.localVelocity_eq`).
-/

namespace ConvexContact

/-- Two bodies that meet in a contact: their masses and free velocities, the gap between them, and
how the contact is treated. -/
structure Collision where
  format : Format
  timeStep : ℝ
  parameters : ConeParameters ℝ
  firstMass : ℝ
  secondMass : ℝ
  firstVelocity : ℝ
  secondVelocity : ℝ
  gap : ℝ

namespace Collision

/-- The inverse mass felt at the contact. -/
noncomputable def inverseMass (c : Collision) : ℝ :=
  1 / c.firstMass + 1 / c.secondMass

theorem inverseMass_pos
    {c : Collision}
    (hfirst : 0 < c.firstMass)
    (hsecond : 0 < c.secondMass) :
    0 < c.inverseMass := by
  unfold inverseMass
  positivity

end Collision

section Collisions

variable [Threshold]

namespace ContactFrame

/-- A unit vector is not changed by normalisation. -/
theorem normalize_of_norm_eq_one
    {v : WorldVector ℝ}
    (h : v.norm = 1) :
    v.normalize = v := by
  have hlength : Scalar.larger v.norm (WorldVector.shortest : ℝ) = 1 := by
    rw [h, Exact.larger_eq_max]
    apply max_eq_left
    simp only [WorldVector.shortest, Exact.ofNat_one, Exact.ofNat_ofNat]
    norm_num
  unfold WorldVector.normalize
  rw [hlength]
  dsimp only
  rw [div_one, div_one, div_one]

/-- The frame of the vertical direction. -/
def vertical : ContactFrame ℝ :=
  ⟨⟨0, -1, 0⟩, ⟨1, 0, 0⟩, ⟨0, 0, 1⟩⟩

theorem ofDirection_vertical :
    ofDirection ⟨0, 0, (1 : ℝ)⟩ = vertical := by
  have hnormal : (⟨0, 0, 1⟩ : WorldVector ℝ).normalize = ⟨0, 0, 1⟩ :=
    normalize_of_norm_eq_one (by simp [WorldVector.norm])
  have htangent : (⟨0, -1, 0⟩ : WorldVector ℝ).normalize = ⟨0, -1, 0⟩ :=
    normalize_of_norm_eq_one (by simp [WorldVector.norm])
  have haxis : (⟨0, 0, 1⟩ : WorldVector ℝ).smallestAxis = ⟨1, 0, 0⟩ := by
    have hone : ¬ (1 : ℝ) < 0 := by
      norm_num
    simp [WorldVector.smallestAxis, WorldVector.Precedes, hone]
  have horthogonal : (⟨0, 0, 1⟩ : WorldVector ℝ).orthogonal = ⟨0, -1, 0⟩ := by
    rw [WorldVector.orthogonal, haxis]
    simp [WorldVector.cross]
  unfold ofDirection vertical
  dsimp only
  rw [hnormal, horthogonal, htangent]
  simp [WorldVector.cross]

theorem ofNormal_vertical
    (format : Format) :
    ofNormal ((Tensor.ofVec format [0, 0, (1 : ℝ)]).cast format) =
      .ok (vertical.toMatrix format) := by
  have hvector : worldVector? ((Tensor.ofVec format [0, 0, (1 : ℝ)]).cast format) =
      some ⟨0, 0, 1⟩ :=
    rfl
  unfold ofNormal
  rw [hvector]
  dsimp only
  rw [if_neg, ofDirection_vertical]
  · rfl
  · simp [WorldVector.norm]

end ContactFrame

namespace DenseMatrix

/-- The block of a body whose normal velocity is `a` times its velocity. -/
noncomputable def alongNormal (format : Format) (a : ℝ) : DenseMatrix ℝ :=
  tabulate format 3 1 fun i _ => if i = 2 then a else 0

/-- A mass as dynamics matrix. -/
noncomputable def ofMass (format : Format) (m : ℝ) : DenseMatrix ℝ :=
  tabulate format 1 1 fun _ _ => m

theorem symmetric_ofMass
    (format : Format) (m : ℝ) (i j : ℕ) :
    (ofMass format m).get i j = (ofMass format m).get j i := by
  cases i <;> cases j <;> simp [ofMass, get, tabulate]

theorem neg_alongNormal
    (format : Format) (a : ℝ) :
    (alongNormal format a).neg = alongNormal format (-a) := by
  refine eq_of_rows_eq rfl rfl ?_
  simp [alongNormal, neg, map, tabulate, List.range_succ]

end DenseMatrix

/-- A vertical velocity in the coordinates of a vertical contact. -/
theorem ContactFrame.jacobian_vertical
    (format : Format) :
    jacobian (vertical.toMatrix format) (Tensor.ofEntries format [3, 1] [0, 0, 1]) =
      .ok (DenseMatrix.alongNormal format 1) := by
  have hworld : worldJacobian format (Tensor.ofEntries format [3, 1] [0, 0, (1 : ℝ)]) =
      .ok (DenseMatrix.alongNormal format 1) := by
    have hmatrix : ((Tensor.ofEntries format [3, 1] [0, 0, (1 : ℝ)]).cast format).matrix? =
        some (DenseMatrix.alongNormal format 1) := by
      unfold Tensor.matrix?
      refine congrArg some (DenseMatrix.eq_of_rows_eq rfl rfl ?_)
      simp [DenseMatrix.alongNormal, DenseMatrix.tabulate, List.range_succ, Tensor.cast,
        Tensor.ofEntries, Tensor.size, Vec.split]
    unfold worldJacobian
    rw [hmatrix]
    rfl
  have hproduct : (vertical.toMatrix format).mul (DenseMatrix.alongNormal format 1) =
      DenseMatrix.alongNormal format 1 := by
    refine DenseMatrix.eq_of_rows_eq ?_ rfl ?_
    · cases format <;> rfl
    · simp [DenseMatrix.mul, DenseMatrix.alongNormal, DenseMatrix.tabulate, List.range_succ,
        DenseMatrix.numRows, toMatrix, vertical, WorldVector.toList, DenseMatrix.get, Vec.sumRange,
        Vec.sum_eq]
  unfold jacobian
  change (worldJacobian format _ >>= _) = _
  rw [hworld, Outcome.ok_bind, if_neg (by simp [toMatrix]), hproduct]

namespace Collision

variable (c : Collision)

/-- The bodies and the gap. -/
noncomputable def pair : CollidingPair ℝ :=
  .ofLists [Tensor.ofScalar .double c.firstMass, Tensor.ofScalar .double c.secondMass]
    [Tensor.ofVec .double [c.firstVelocity], Tensor.ofVec .double [c.secondVelocity]]
    (Tensor.ofScalar .double c.gap)

/-- Building the problem of the collision, with the contact under a handle. -/
noncomputable def build (ids : IdTable) (handle : ℕ) :
    Except Error (ContactProblem ℝ × IdTable) :=
  Scene.collidingPair c.format c.timeStep (.ok c.parameters) c.pair ids handle

noncomputable def body (m v : ℝ) : Clique ℝ :=
  ⟨.ofMass c.format m, [v]⟩

noncomputable def contact : Constraint ℝ :=
  .contact c.parameters c.gap 0 (.alongNormal c.format (-1)) (some (1, .alongNormal c.format 1))

noncomputable def first : Clique ℝ :=
  c.body c.firstMass c.firstVelocity

noncomputable def second : Clique ℝ :=
  c.body c.secondMass c.secondVelocity

/-- The problem of a collision. -/
noncomputable def problem (handle : ℕ) : ContactProblem ℝ :=
  ⟨c.timeStep, [c.first, c.second], [⟨handle, c.contact⟩], none⟩

theorem addBody_eq_ok
    {p : ContactProblem ℝ} (hp : ¬ p.isFinalized)
    (m v : ℝ) :
    Scene.addBody c.format p (Tensor.ofScalar .double m) (Tensor.ofVec .double [v]) =
      .ok (p.numCliques, { p with cliques := p.cliques ++ [c.body m v] }) := by
  unfold Scene.addBody ContactProblem.addClique
  rw [if_neg hp]
  have hclique : Clique.ofTensors
      (Scene.dynamicsOfMass c.format (Tensor.ofScalar .double m))
      (Tensor.ofVec c.format ((Tensor.ofVec .double [v]).cast c.format).entries) =
      .ok (c.body m v) := by
    exact Clique.ofTensors_eq_ok (A := .ofMass c.format m) (v := [v]) one_pos rfl
      (DenseMatrix.symmetric_ofMass c.format m) rfl
  rw [hclique]
  rfl

/-- The contact of a collision is refused only for its parameters. -/
theorem contactConstraint_eq_ok
    (hvalid : c.parameters.flaw? = none) :
    Scene.contactConstraint c.format c.parameters
      (Scene.pairContact c.format 0 1 (Tensor.ofScalar .double c.gap)) = .ok c.contact := by
  unfold Scene.contactConstraint Scene.pairContact
  dsimp only
  rw [Exact.ofNat_zero, Exact.ofNat_one, ContactFrame.ofNormal_vertical, Outcome.ok_bind,
    ContactFrame.jacobian_vertical, Outcome.ok_bind, Outcome.ok_bind, DenseMatrix.neg_alongNormal]
  have hsecond : ∀ side ∈ some (1, DenseMatrix.alongNormal c.format 1),
      side.1 ≠ 0 ∧ side.2.numRows = 3 := by
    simp [DenseMatrix.alongNormal]
  exact Constraint.ofContact_eq_ok hvalid rfl rfl (DenseMatrix.numRows_tabulate _ _ _ _) hsecond

/-- A contact with parameters out of their ranges is refused. -/
theorem flaw?_of_contactConstraint
    {contact : Constraint ℝ}
    (h : Scene.contactConstraint c.format c.parameters
      (Scene.pairContact c.format 0 1 (Tensor.ofScalar .double c.gap)) = .ok contact) :
    c.parameters.flaw? = none := by
  unfold Scene.contactConstraint Scene.pairContact at h
  dsimp only at h
  rw [Exact.ofNat_zero, Exact.ofNat_one, ContactFrame.ofNormal_vertical, Outcome.ok_bind,
    ContactFrame.jacobian_vertical, Outcome.ok_bind, Outcome.ok_bind] at h
  exact (Constraint.of_ofContact h).1

theorem addPairBody_eq_ok
    {p : ContactProblem ℝ} (hp : ¬ p.isFinalized) :
    Scene.addPairBody c.format c.pair 0 p =
        .ok (p.numCliques, { p with cliques := p.cliques ++ [c.first] }) ∧
      Scene.addPairBody c.format c.pair 1 p =
        .ok (p.numCliques, { p with cliques := p.cliques ++ [c.second] }) :=
  ⟨c.addBody_eq_ok hp c.firstMass c.firstVelocity, c.addBody_eq_ok hp c.secondMass c.secondVelocity⟩

omit [Threshold] in
/-- The contact fits the bodies. -/
theorem fitsSide
    {held : List (HeldConstraint ℝ)} :
    ∀ side ∈ c.contact.sides,
      ContactProblem.FitsSide ⟨c.timeStep, [c.first, c.second], held, none⟩ side := by
  rintro side (_ | ⟨_, _ | ⟨_, ⟨⟩⟩⟩)
  · exact ⟨c.first, rfl, rfl⟩
  · exact ⟨c.second, rfl, rfl⟩

/-- **Building a collision.**  It is refused only for its time step and for the parameters of its
contact, and it gives the problem of the two bodies with their contact. -/
theorem build_eq_ok_iff
    {ids ids' : IdTable} {handle : ℕ} {p : ContactProblem ℝ} :
    c.build ids handle = .ok (p, ids') ↔
      0 < c.timeStep ∧ c.parameters.flaw? = none ∧
        p = c.problem handle ∧ ids' = ids.set handle (some 0) := by
  unfold build Scene.collidingPair ContactProblem.ofTimeStep
  rw [Exact.ofNat_zero]
  by_cases htime : c.timeStep ≤ 0
  · rw [if_pos htime]
    constructor
    · intro h
      cases h
    · intro h
      exact absurd h.1 (not_lt.2 htime)
  · rw [if_neg htime, Outcome.ok_bind,
      (c.addPairBody_eq_ok (by simp [ContactProblem.isFinalized])).1, Outcome.ok_bind]
    dsimp only
    rw [(c.addPairBody_eq_ok (by simp [ContactProblem.isFinalized])).2, Outcome.ok_bind]
    change (Scene.contactConstraint c.format c.parameters
      (Scene.pairContact c.format 0 1 (Tensor.ofScalar .double c.gap)) >>= _) = _ ↔ _
    cases hcontact : Scene.contactConstraint c.format c.parameters
        (Scene.pairContact c.format 0 1 (Tensor.ofScalar .double c.gap)) with
    | error e =>
        constructor
        · intro h
          cases h
        · intro h
          rw [c.contactConstraint_eq_ok h.2.1] at hcontact
          cases hcontact
    | ok contact =>
        have hvalid := c.flaw?_of_contactConstraint hcontact
        cases hcontact.symm.trans (c.contactConstraint_eq_ok hvalid)
        have hadded : ContactProblem.addConstraint ⟨c.timeStep, [c.first, c.second], [], none⟩ ids
            ⟨handle, c.contact⟩ = .ok (0, c.problem handle, ids.set handle (some 0)) :=
          ContactProblem.addConstraint_eq_ok_iff.2 ⟨rfl, c.fitsSide, rfl, rfl, rfl⟩
        rw [Outcome.ok_bind]
        change (ContactProblem.addConstraint ⟨c.timeStep, [c.first, c.second], [], none⟩ ids
          ⟨handle, c.contact⟩ >>= fun r => .ok (r.2.1, r.2.2)) = _ ↔ _
        rw [hadded]
        constructor
        · intro h
          cases h
          exact ⟨not_le.1 htime, hvalid, rfl, rfl⟩
        · rintro ⟨-, -, rfl, rfl⟩
          rfl

theorem reachable
    (htime : 0 < c.timeStep)
    (hvalid : c.parameters.flaw? = none)
    (handle : ℕ) :
    (c.problem handle).Reachable := by
  have hbody : ∀ m v, ∃ A w, Clique.ofTensors A w = .ok (c.body m v) := fun m v =>
    ⟨_, _, Clique.ofTensors_eq_ok one_pos rfl (DenseMatrix.symmetric_ofMass c.format m) rfl⟩
  apply ContactProblem.reachable_of_parts htime
  · rintro k (_ | ⟨_, _ | ⟨_, ⟨⟩⟩⟩)
    · exact hbody c.firstMass c.firstVelocity
    · exact hbody c.secondMass c.secondVelocity
  · intro h hh
    rw [List.mem_singleton.1 hh]
    exact Constraint.built_contact hvalid (DenseMatrix.numRows_tabulate _ _ _ _)
      (by simp [DenseMatrix.alongNormal])
  · intro h hh
    rw [List.mem_singleton.1 hh]
    exact c.fitsSide

section Inertia

open scoped Matrix.Norms.Frobenius

theorem toMatrix_ofMass
    (format : Format) (m : ℝ) :
    (DenseMatrix.ofMass format m).toMatrix 1 1 = Matrix.diagonal fun _ => m := by
  ext i j
  fin_cases i
  fin_cases j
  rfl

theorem posDef_ofMass
    (format : Format) {m : ℝ} (hm : 0 < m) :
    ((DenseMatrix.ofMass format m).toMatrix 1 1).PosDef := by
  rw [toMatrix_ofMass]
  exact Matrix.PosDef.diagonal fun _ => hm

/-- What a body contributes to the inertia felt at the contact. -/
theorem inertia_alongNormal
    {m : ℝ} (hm : 0 < m)
    (format : Format) {a : ℝ} (ha : a * a = 1) :
    (DenseMatrix.alongNormal format a).toMatrix 3 1 *
        ((DenseMatrix.ofMass format m).toMatrix 1 1)⁻¹ *
        ((DenseMatrix.alongNormal format a).toMatrix 3 1).transpose =
      Matrix.diagonal ![0, 0, 1 / m] := by
  have hinverse : ((DenseMatrix.ofMass format m).toMatrix 1 1)⁻¹ =
      Matrix.diagonal fun _ => 1 / m := by
    apply Matrix.inv_eq_right_inv
    rw [toMatrix_ofMass, Matrix.diagonal_mul_diagonal, mul_one_div_cancel hm.ne']
    exact Matrix.diagonal_one
  have hentry : ∀ i : Fin 3, (DenseMatrix.alongNormal format a).toMatrix 3 1 i 0 =
      if i = 2 then a else 0 := by
    intro i
    fin_cases i <;> rfl
  rw [hinverse]
  ext i j
  rw [Matrix.mul_apply, Fin.sum_univ_one, Matrix.mul_diagonal, Matrix.transpose_apply, hentry,
    hentry]
  have hsign : a * m⁻¹ * a = m⁻¹ := by
    rw [mul_right_comm, ha, one_mul]
  fin_cases i <;> fin_cases j <;> simp [hsign]

theorem inertiaNorm_contact
    (hfirst : 0 < c.firstMass)
    (hsecond : 0 < c.secondMass)
    (handle : ℕ) :
    (c.problem handle).inertiaNorm c.contact = c.inverseMass / 3 := by
  have hone : (-1 : ℝ) * -1 = 1 := by
    norm_num
  have hmatrix : (c.problem handle).inertiaMatrix 3 c.contact =
      Matrix.diagonal ![0, 0, c.inverseMass] := by
    change _ + (_ + 0) = _
    change (DenseMatrix.alongNormal c.format (-1)).toMatrix 3 1 *
        ((DenseMatrix.ofMass c.format c.firstMass).toMatrix 1 1)⁻¹ *
        ((DenseMatrix.alongNormal c.format (-1)).toMatrix 3 1).transpose +
      ((DenseMatrix.alongNormal c.format 1).toMatrix 3 1 *
        ((DenseMatrix.ofMass c.format c.secondMass).toMatrix 1 1)⁻¹ *
        ((DenseMatrix.alongNormal c.format 1).toMatrix 3 1).transpose + 0) = _
    rw [inertia_alongNormal hfirst c.format hone, inertia_alongNormal hsecond c.format (one_mul 1),
      add_zero, Matrix.diagonal_add]
    congr 1
    funext i
    fin_cases i <;> simp [inverseMass]
  have hpos := inverseMass_pos hfirst hsecond
  have hcount : c.contact.numEquations = 3 :=
    rfl
  unfold ContactProblem.inertiaNorm
  rw [hcount, hmatrix, Matrix.frobenius_norm_diagonal, EuclideanSpace.norm_eq]
  simp [Fin.sum_univ_three, hpos.le]

end Inertia

section Model

open ContactModel

variable {handle : ℕ}

/-- **A collision of two masses has a model.** -/
theorem exists_model
    (htime : 0 < c.timeStep)
    (hvalid : c.parameters.flaw? = none)
    (hfirst : 0 < c.firstMass)
    (hsecond : 0 < c.secondMass)
    (handle : ℕ) :
    ∃ m, (ofProblem (c.problem handle)).1 = .ok m ∧
      m.Describes (c.problem handle) [c.inverseMass / 3] := by
  have hreachable := c.reachable htime hvalid handle
  have hdefinite : ∀ k ∈ (c.problem handle).constraints, (c.problem handle).DefiniteAt k := by
    intro k hk
    rw [List.mem_singleton.1 hk]
    rintro side (_ | ⟨_, _ | ⟨_, ⟨⟩⟩⟩) k hk
    · cases hk
      exact posDef_ofMass c.format hfirst
    · cases hk
      exact posDef_ofMass c.format hsecond
  obtain ⟨delassus, hdelassus, hentries⟩ :=
    ContactProblem.delassusDiagonal_eq_ok hreachable.wellFormed hdefinite
  have hinertia : delassus.entries = [c.inverseMass / 3] := by
    rw [hentries]
    change [(c.problem handle).inertiaNorm c.contact] = _
    rw [c.inertiaNorm_contact hfirst hsecond]
  rw [← hinertia]
  apply exists_ofProblem hreachable hdelassus
  intro x hx
  rw [hinertia] at hx
  rw [List.mem_singleton.1 hx]
  apply Load.regularization_pos _ htime (div_pos (inverseMass_pos hfirst hsecond) three_pos)
  exact hreachable.wellFormed.proper _ List.mem_cons_self

variable {c} {m : ContactModel ℝ} {w : List ℝ}

omit [Threshold] in
/-- Both bodies take part, in their order. -/
theorem cliquesPermutation_graph
    (c : Collision) (handle : ℕ) :
    (c.problem handle).graph.cliquesPermutation = .ok ⟨2, [0, 1], by decide, by decide⟩ :=
  rfl

theorem cliquesPermutation_eq
    (d : m.Describes (c.problem handle) w) :
    m.cliquesPermutation = ⟨2, [0, 1], by decide, by decide⟩ :=
  d.cliquesPermutation_of_order (cliquesPermutation_graph c handle)

/-- The velocities of the bodies are those of the model. -/
theorem gather_eq
    (d : m.Describes (c.problem handle) w)
    (x y : ℝ) :
    m.velocitiesPermutation.gather [x, y] = [x, y] :=
  d.gather_of_order (cliquesPermutation_graph c handle) [[x], [y]] rfl

theorem numVelocities_eq
    (d : m.Describes (c.problem handle) w) :
    m.numVelocities = 2 :=
  d.numVelocities_of_order (cliquesPermutation_graph c handle)

theorem freeVelocity_eq
    (d : m.Describes (c.problem handle) w) :
    m.freeVelocity = [c.firstVelocity, c.secondVelocity] := by
  rw [d.freeVelocity]
  exact gather_eq d c.firstVelocity c.secondVelocity

theorem dynamicsTimes_eq
    (d : m.Describes (c.problem handle) w)
    (x y : ℝ) :
    m.dynamicsTimes [x, y] = [c.firstMass * x, c.secondMass * y] := by
  rw [d.dynamicsTimes_eq, cliquesPermutation_eq d]
  change (DenseMatrix.ofMass c.format c.firstMass).mulVec [x] ++
    ((DenseMatrix.ofMass c.format c.secondMass).mulVec [y] ++ []) = _
  simp [DenseMatrix.mulVec, DenseMatrix.ofMass, DenseMatrix.tabulate]

/-- The velocity of the contact is that of the second body relative to the first one. -/
theorem localVelocity_eq
    (x y : ℝ) :
    (c.problem handle).localVelocity [x, y] c.contact = [0, 0, y - x] := by
  change Vec.add ((DenseMatrix.alongNormal c.format (-1)).mulVec (Vec.part [1, 1] [x, y] 0))
    ((DenseMatrix.alongNormal c.format 1).mulVec (Vec.part [1, 1] [x, y] 1)) = _
  simp [DenseMatrix.alongNormal, DenseMatrix.mulVec, DenseMatrix.tabulate, List.range_succ,
    Vec.part, Vec.split, Vec.add]
  ring

end Model

end Collision

end Collisions
end ConvexContact
