import Mathlib
import ConvexContact.Proofs.Evaluations

/-!
# The roles of the cliques of a constraint

A constraint on two cliques names one of them first.  Two constraints mirror each other if they
have the same law, the same constraint function and the same sides, in any order
(`Constraint.Mirrors`).

**Result.**  Mirrored constraints stand on the same edge, feel the same inertia and have the same
velocity, so their loads are evaluated alike.
-/

namespace ConvexContact

namespace Constraint

variable {α : Type} {c c' : Constraint α}

/-- The same constraint, up to the order of its sides. -/
structure Mirrors (c c' : Constraint α) : Prop where
  law : c'.law = c.law
  function : c'.function = c.function
  sides : c'.sides.Perm c.sides

namespace Mirrors

theorem numEquations_eq
    (h : c.Mirrors c') :
    c'.numEquations = c.numEquations := by
  rw [numEquations, numEquations, h.function]

/-- Either the roles are the same, or those of two cliques are swapped. -/
theorem cases_sides
    (h : c.Mirrors c') :
    (c'.clique = c.clique ∧ c'.jacobian = c.jacobian ∧ c'.second? = c.second?) ∨
      ∃ side, c.second? = some side ∧ c'.clique = side.1 ∧ c'.jacobian = side.2 ∧
        c'.second? = some (c.clique, c.jacobian) := by
  have hsides := h.sides
  have hlength := hsides.length_eq
  unfold Constraint.sides at hsides hlength
  cases hsecond : c.second? with
  | none =>
      cases hsecond' : c'.second? with
      | none =>
          left
          rw [hsecond, hsecond', Option.toList_none, List.perm_singleton] at hsides
          simpa using hsides
      | some side' =>
          simp [hsecond, hsecond'] at hlength
  | some side =>
      cases hsecond' : c'.second? with
      | none =>
          simp [hsecond, hsecond'] at hlength
      | some side' =>
          rw [hsecond, hsecond', Option.toList_some, Option.toList_some] at hsides
          have hmem : (c'.clique, c'.jacobian) ∈ [(c.clique, c.jacobian), side] :=
            hsides.mem_iff.1 List.mem_cons_self
          rcases List.mem_cons.1 hmem with hfirst | hfirst
          · left
            rw [hfirst] at hsides
            have hrest := List.perm_singleton.1 hsides.cons_inv
            simp only [List.cons.injEq, and_true] at hrest
            simp only [Prod.mk.injEq] at hfirst
            exact ⟨hfirst.1, hfirst.2, congrArg some hrest⟩
          · right
            rw [List.mem_singleton] at hfirst
            rw [hfirst] at hsides
            have hrest := List.perm_singleton.1
              (hsides.trans (List.Perm.swap side (c.clique, c.jacobian) [])).cons_inv
            simp only [List.cons.injEq, and_true] at hrest
            refine ⟨side, rfl, ?_, ?_, congrArg some hrest⟩
            · rw [← hfirst]
            · rw [← hfirst]

/-- Mirrored constraints act on the same pair of cliques. -/
theorem pair_eq
    (h : c.Mirrors c') :
    (ContactProblem.memberOf c').pair = (ContactProblem.memberOf c).pair := by
  unfold ContactProblem.memberOf Member.pair Member.secondOrFirst secondClique?
  rcases h.cases_sides with ⟨hclique, -, hsecond⟩ | ⟨side, hsecond, hclique, -, hsecond'⟩
  · rw [hclique, hsecond]
  · rw [hclique, hsecond, hsecond']
    simp only [Option.map_some, Option.getD_some]
    split_ifs with h₁ h₂ h₂
    · rw [Prod.mk.injEq]
      omega
    · rfl
    · rfl
    · omega

theorem member_eq
    (h : c.Mirrors c') :
    ((ContactProblem.memberOf c').pair, (ContactProblem.memberOf c').equations) =
      ((ContactProblem.memberOf c).pair, (ContactProblem.memberOf c).equations) := by
  rw [h.pair_eq]
  simp [ContactProblem.memberOf, h.numEquations_eq]

end Mirrors

end Constraint

variable [Threshold]

section Inertia

namespace DenseMatrix

/-- Matrices of one shape can be added in any order. -/
theorem add_comm_of_shape
    {A B : DenseMatrix ℝ}
    (hrows : A.numRows = B.numRows)
    (hcols : A.numCols = B.numCols) :
    A.add B = B.add A := by
  unfold add
  rw [Format.join_comm, hrows, hcols]
  congr 1
  funext i j
  ring

end DenseMatrix

namespace ContactProblem

variable {p : ContactProblem ℝ} {c c' : Constraint ℝ} {side : ℕ × DenseMatrix ℝ}

theorem shape_sideInertia
    {W : DenseMatrix ℝ}
    (h : p.sideInertia side = .ok W) :
    W.numRows = side.2.numRows ∧ W.numCols = side.2.numRows := by
  unfold sideInertia at h
  split at h
  · obtain ⟨factor, -, h⟩ := Outcome.bind_eq_ok.1 h
    cases h
    exact ⟨numRows_factoredInertia _ _ _, numCols_factoredInertia _ _ _⟩
  · cases h

/-- Mirrored constraints feel the same inertia. -/
theorem meanInertia_of_mirrors
    (hc : c.Proper)
    (h : c.Mirrors c')
    {result : Format × ℝ}
    (hresult : p.meanInertia c = .ok result) :
    p.meanInertia c' = .ok result := by
  obtain ⟨W, hW, hresult⟩ := Outcome.bind_eq_ok.1 hresult
  suffices hinertia : p.constraintInertia c' = .ok W by
    unfold meanInertia
    rw [hinertia, Outcome.ok_bind, h.numEquations_eq]
    exact hresult
  obtain ⟨W₁, hW₁, hW⟩ := Outcome.bind_eq_ok.1 hW
  unfold constraintInertia
  rcases h.cases_sides with
    ⟨hclique, hjacobian, hsecond⟩ | ⟨side, hsecond, hclique, hjacobian, hsecond'⟩
  · rw [hclique, hjacobian, hsecond, hW₁]
    exact hW
  · rw [hsecond] at hW
    obtain ⟨W₂, hW₂, hW⟩ := Outcome.bind_eq_ok.1 hW
    cases hW
    obtain ⟨hrows₁, hcols₁⟩ := shape_sideInertia hW₁
    obtain ⟨hrows₂, hcols₂⟩ := shape_sideInertia hW₂
    have hrows := hc.numRows_eq _ c.first_mem_sides
    have hrows' := hc.numRows_eq _ (Constraint.second_mem_sides hsecond)
    dsimp only at hrows₁ hcols₁ hrows
    rw [hclique, hjacobian, hW₂, hsecond', Outcome.ok_bind]
    dsimp only
    rw [hW₁, Outcome.ok_bind, DenseMatrix.add_comm_of_shape]
    · rw [hrows₂, hrows₁, hrows, hrows']
    · rw [hcols₂, hcols₁, hrows, hrows']

/-- Mirrored constraints have the same velocity. -/
theorem localVelocity_of_mirrors
    (h : c.Mirrors c')
    (V : List ℝ) :
    p.localVelocity V c' = p.localVelocity V c := by
  unfold localVelocity
  rcases h.cases_sides with
    ⟨hclique, hjacobian, hsecond⟩ | ⟨side, hsecond, hclique, hjacobian, hsecond'⟩
  · rw [hclique, hjacobian, hsecond]
  · rw [hsecond, hsecond', hclique, hjacobian]
    exact Vec.add_swap _ _

end ContactProblem

end Inertia

namespace Load

/-- Loads on mirrored constraints with the same inertia. -/
structure Mirrors (x x' : Load) : Prop where
  constraint : x.constraint.Mirrors x'.constraint
  inertia : x'.inertia = x.inertia

namespace Mirrors

variable {x x' : Load}

theorem regularization_eq
    (h : x.Mirrors x')
    (timeStep : ℝ) :
    x'.regularization timeStep = x.regularization timeStep := by
  unfold regularization Constraint.diagonalAt
  rw [h.constraint.law, h.inertia, h.constraint.numEquations_eq]

theorem unprojected_eq
    (h : x.Mirrors x')
    (timeStep : ℝ) (u : List ℝ) :
    x'.unprojected timeStep u = x.unprojected timeStep u := by
  unfold unprojected bias Constraint.bias
  rw [h.regularization_eq, h.constraint.law, h.constraint.numEquations_eq]

theorem impulse_eq
    (h : x.Mirrors x')
    (timeStep : ℝ) (u : List ℝ) :
    x'.impulse timeStep u = x.impulse timeStep u := by
  unfold impulse Constraint.impulse
  rw [h.unprojected_eq, h.regularization_eq, h.constraint.law]

theorem cost_eq
    (h : x.Mirrors x')
    (timeStep : ℝ) (u : List ℝ) :
    x'.cost timeStep u = x.cost timeStep u := by
  unfold cost Constraint.cost
  rw [h.unprojected_eq, h.regularization_eq, h.constraint.law]

theorem hessianBlock_eq
    (h : x.Mirrors x')
    (timeStep : ℝ) (format : Format) (u : List ℝ) :
    x'.hessianBlock timeStep format u = x.hessianBlock timeStep format u := by
  unfold hessianBlock derivative Constraint.project
  rw [h.unprojected_eq, h.regularization_eq, h.constraint.law]

end Mirrors

end Load
end ConvexContact
