import Mathlib
import ConvexContact.Proofs.Cone.Curvature
import ConvexContact.Proofs.Definite
import ConvexContact.Proofs.Derivatives

/-!
# Convexity of the cost

**Constraints.**  The block of a constraint in the second derivative is positive semidefinite unless
the constraint is a frictional contact whose impulse is over-attenuated.

**Result.**  `Describes.dot_mulVec_hessianOf_nonneg`: the second derivative of the cost of a model
with positive definite dynamics is positive semidefinite at all velocities at which no contact is
over-attenuated.
-/

namespace ConvexContact

variable [Threshold]

namespace Constraint

/-- The constraint is a contact whose impulse slides so near to the polar cone that its potential is
not convex there. -/
def OverAttenuated (c : Constraint ℝ) (y R : List ℝ) : Prop :=
  ∃ parameters gap s, c.law = .frictionCone parameters gap ∧ parameters.scale y R = .ok s ∧
    s.regime.OverAttenuated

end Constraint

/-- Dividing by positive numbers keeps a square positive. -/
theorem Vec.dot_zipWith_inverse_nonneg
    {R x : List ℝ}
    (hpos : ∀ r ∈ R, 0 < r) :
    0 ≤ Vec.dot x (List.zipWith (· * ·) (R.map (1 / ·)) x) := by
  induction R generalizing x with
  | nil =>
      exact (Vec.dot_nil_right x).ge
  | cons r R ih =>
      cases x with
      | nil =>
          exact (Vec.dot_nil_left _).ge
      | cons a x =>
          have hr : 0 < r :=
            hpos r List.mem_cons_self
          have hrest := ih (x := x) fun s hs => hpos s (List.mem_cons_of_mem r hs)
          rw [List.map_cons, List.zipWith_cons_cons, Vec.dot_cons]
          have hsquare : 0 ≤ a * (1 / r * a) := by
            have : a * (1 / r * a) = a ^ 2 / r := by
              ring
            rw [this]
            positivity
          exact add_nonneg hsquare hrest

namespace Load

variable {x : Load} {timeStep : ℝ} {format : Format} {u du : List ℝ}

/-- The evaluations of a frictional contact are those of its potential. -/
theorem contact_eq
    {parameters : ConeParameters ℝ} {gap : ℝ} {y R : ContactVector ℝ}
    (hlaw : x.constraint.law = .frictionCone parameters gap)
    (hy : x.unprojected timeStep u = y.toList)
    (hR : x.regularization timeStep = R.toList)
    (format : Format) :
    x.cost timeStep u = (parameters.regimeAt R y).cost (y.scaled R) ∧
      x.impulse timeStep u =
        (((parameters.regimeAt R y).gradient (y.scaled R)).unscaled R).toList ∧
      x.derivative timeStep format u = parameters.derivativeAt format R y := by
  unfold cost impulse derivative Constraint.cost Constraint.impulse Constraint.project
  rw [hlaw, hy, hR]
  dsimp only
  rw [parameters.cost_eq, parameters.impulse_eq, parameters.project_eq]
  exact ⟨rfl, rfl, rfl⟩

/-- The block of a frictional contact in the second derivative is that of its potential. -/
theorem hessianBlock_contact
    {parameters : ConeParameters ℝ} {gap : ℝ} {y R : ContactVector ℝ}
    (hlaw : x.constraint.law = .frictionCone parameters gap)
    (hy : x.unprojected timeStep u = y.toList)
    (hR : x.regularization timeStep = R.toList)
    (format : Format) :
    x.hessianBlock timeStep format u = parameters.blockAt format R y := by
  obtain ⟨-, -, hderivative⟩ := contact_eq hlaw hy hR format
  unfold hessianBlock ConeParameters.blockAt
  rw [hderivative, hR]

/-- The block of a load is positive semidefinite unless its impulse is over-attenuated. -/
theorem dot_mulVec_hessianBlock_nonneg
    (hx : x.constraint.Proper)
    (hpos : ∀ r ∈ x.regularization timeStep, 0 < r)
    (hu : u.length = x.constraint.numEquations)
    (hdu : du.length = x.constraint.numEquations)
    (hconvex : ¬ x.constraint.OverAttenuated (x.unprojected timeStep u)
      (x.regularization timeStep)) :
    0 ≤ Vec.dot du ((x.hessianBlock timeStep format u).mulVec du) := by
  obtain ⟨hproject, -, hcols⟩ :
      x.constraint.project format (x.unprojected timeStep u) (x.regularization timeStep) =
        .ok (x.impulse timeStep u, x.derivative timeStep format u) ∧ _ ∧ _ :=
    project_eq hx hu
  have hR : (x.regularization timeStep).length = x.constraint.numEquations :=
    length_regularization hx
  have hy : (x.unprojected timeStep u).length = x.constraint.numEquations :=
    length_unprojected hx hu
  cases hlaw : x.constraint.law with
  | frictionCone parameters gap =>
      have hthree := hx.numEquations_eq parameters gap hlaw
      obtain ⟨R, hReq⟩ := ContactVector.exists_toList (hR.trans hthree)
      obtain ⟨y, hyeq⟩ := ContactVector.exists_toList (hy.trans hthree)
      obtain ⟨d, rfl⟩ := ContactVector.exists_toList (hdu.trans hthree)
      rw [hReq] at hpos
      simp only [ContactVector.toList, List.mem_cons, List.not_mem_nil, or_false, forall_eq_or_imp,
        forall_eq] at hpos
      have hregime : ¬ (parameters.regimeAt R y).OverAttenuated := fun h =>
        hconvex ⟨parameters, gap, _, hlaw, by rw [hReq, hyeq]; exact parameters.scale_eq y R, h⟩
      have hblock : x.hessianBlock timeStep format u = parameters.blockAt format R y := by
        obtain ⟨-, -, hderivative⟩ := contact_eq hlaw hyeq hReq format
        rw [hessianBlock, hderivative, hReq]
        rfl
      rw [hblock]
      exact (ConeParameters.dot_mulVec_blockAt_nonneg_iff
        (hx.flaw?_eq_none parameters gap hlaw) hpos).2 hregime d
  | unrestricted =>
      have hderivative : x.derivative timeStep format u =
          DenseMatrix.identity format x.constraint.numEquations := by
        unfold Constraint.project at hproject
        rw [hlaw] at hproject
        rw [← hy]
        exact (Prod.mk.inj (Except.ok.inj hproject)).2.symm
      have hscaled : (List.zipWith (· * ·) ((x.regularization timeStep).map (1 / ·)) du).length =
          x.constraint.numEquations := by
        rw [List.length_zipWith, List.length_map, hR, hdu, Nat.min_self]
      rw [hessianBlock, DenseMatrix.mulVec_hessianBlock (by rw [List.length_map, hR, hcols])
        (by rw [hdu, hcols]), hderivative, ← hscaled, DenseMatrix.mulVec_identity]
      exact Vec.dot_zipWith_inverse_nonneg hpos

end Load

namespace ContactModel

/-- Some contact of the model is over-attenuated at the given velocities. -/
def OverAttenuatedAt (m : ContactModel ℝ) (v : List ℝ) : Prop :=
  ∃ y, m.unprojected v = .ok y ∧
    ∃ part ∈ m.bundle.parts y, part.1.OverAttenuated part.2.1 part.2.2

namespace Describes

variable {m : ContactModel ℝ} {p : ContactProblem ℝ} {w V U x : List ℝ}

/-- Positive definite dynamics have a nonnegative quadratic form. -/
theorem dot_dynamicsTimes_nonneg
    (d : m.Describes p w)
    (hdynamics : ∀ c ∈ p.cliques, (c.dynamics.toMatrix c.size c.size).PosDef)
    (hx : x.length = m.velocitiesPermutation.permutedSize) :
    0 ≤ Vec.dot x (m.dynamicsTimes x) := by
  rw [d.dynamicsTimes_eq]
  apply DenseMatrix.dot_diagonalTimes_nonneg
  · intro A hA
    obtain ⟨c, hc, rfl⟩ := List.mem_map.1 (PartialPermutation.mem_of_mem_gather hA)
    have hsquare := d.wellFormed.square c hc
    refine ⟨hsquare, ?_⟩
    rw [← hsquare]
    exact hdynamics c hc
  · rw [hx, d.map_size_gathered.2, d.velocities.permutedSize_eq]

/-- No load is over-attenuated at velocities at which no contact of the model is. -/
theorem not_overAttenuated
    (d : m.Describes p w)
    (hV : V.length = p.numVelocities)
    (hconvex : ¬ m.OverAttenuatedAt (m.velocitiesPermutation.gather V))
    {l : Load} (hl : l ∈ m.edgeLoads p w) :
    ¬ l.constraint.OverAttenuated (p.unprojectedAt V l) (l.regularization p.timeStep) := by
  intro h
  apply hconvex
  refine ⟨_, d.unprojected_eq hV, (l.constraint, p.unprojectedAt V l, l.regularization p.timeStep),
    ?_, h⟩
  rw [d.parts_eq fun x hx => d.length_unprojectedAt hx]
  exact List.mem_map.2 ⟨l, hl, rfl⟩

/-- **The second derivative is positive semidefinite** where no contact is over-attenuated. -/
theorem dot_mulVec_hessianOf_nonneg
    (d : m.Describes p w)
    (hpos : ∀ r ∈ m.bundle.regularization, 0 < r)
    (hdynamics : ∀ c ∈ p.cliques, (c.dynamics.toMatrix c.size c.size).PosDef)
    (format : Format)
    (hV : V.length = p.numVelocities)
    (hconvex : ¬ m.OverAttenuatedAt (m.velocitiesPermutation.gather V))
    (hx : x.length = m.velocitiesPermutation.permutedSize) :
    0 ≤ Vec.dot x
      ((m.hessianOf ((m.edgeLoads p w).map (p.derivativeAt format V))).mulVec x) := by
  obtain ⟨U, hU, rfl⟩ := d.exists_gather hx
  rw [d.dot_mulVec_hessianOf format hU hU]
  refine add_nonneg (d.dot_dynamicsTimes_nonneg hdynamics hx) (List.sum_nonneg ?_)
  intro a ha
  obtain ⟨l, hl, rfl⟩ := List.mem_map.1 ha
  have hl' := d.perm_edgeLoads.mem_iff.2 hl
  exact Load.dot_mulVec_hessianBlock_nonneg (d.proper hl') (d.regularization_pos hpos hl')
    (d.length_localVelocity hl') (d.length_localVelocity hl') (d.not_overAttenuated hV hconvex hl')

end Describes

end ContactModel
end ConvexContact
