import Mathlib
import ConvexContact.Proofs.Construction
import ConvexContact.Proofs.Evaluations
import ConvexContact.Proofs.Inertia

/-!
# Which contact problems have a model

**Inertias.**  If the cliques that take part have positive definite dynamics matrices, the inertias
of all constraints are computed (`ContactProblem.delassusDiagonal_eq_ok`), and they are positive
exactly for the constraints that are not detached.

**Result.**  `ContactModel.solvable_iff_attached`: a problem of frictional contacts has a model,
with a positive regularization, if and only if no contact is detached; otherwise the regularization
is refused.
-/

namespace ConvexContact

open scoped Matrix.Norms.Frobenius

section Solvability

variable [Threshold]

namespace ContactProblem

variable {p : ContactProblem ℝ} {c : Constraint ℝ}

/-- The inertia of a constraint as a number. -/
noncomputable def inertiaNorm (p : ContactProblem ℝ) (c : Constraint ℝ) : ℝ :=
  ‖p.inertiaMatrix c.numEquations c‖ / c.numEquations

/-- The inertias of all constraints are computed. -/
theorem delassusDiagonal_eq_ok
    (hp : p.WellFormed)
    (hdefinite : ∀ c ∈ p.constraints, p.DefiniteAt c) :
    ∃ delassus, p.delassusDiagonal = .ok delassus ∧
      delassus.entries = p.constraints.map p.inertiaNorm := by
  have hmean : ∀ c ∈ p.constraints, ∃ format, p.meanInertia c = .ok (format, p.inertiaNorm c) :=
    fun c hc => meanInertia_eq_ok hp hc (hdefinite c hc)
  choose! format hformat using hmean
  rw [delassusDiagonal_eq_mapM, Outcome.mapM_eq_ok_map hformat]
  refine ⟨_, rfl, ?_⟩
  rw [Tensor.entries_ofVec, List.map_map]
  rfl

/-- The inertia of a constraint vanishes if and only if the constraint is detached. -/
theorem inertiaNorm_eq_zero_iff
    (hp : p.WellFormed)
    (hc : c ∈ p.constraints)
    (hdefinite : p.DefiniteAt c) :
    p.inertiaNorm c = 0 ↔ c.Detached := by
  have hcount : (c.numEquations : ℝ) ≠ 0 :=
    Nat.cast_ne_zero.2 (hp.proper c hc).numEquations_pos.ne'
  rw [inertiaNorm, div_eq_zero_iff, or_iff_left hcount, norm_eq_zero,
    inertiaMatrix_eq_zero_iff hp hc hdefinite]

theorem inertiaNorm_nonneg
    (p : ContactProblem ℝ) (c : Constraint ℝ) :
    0 ≤ p.inertiaNorm c :=
  div_nonneg (norm_nonneg _) (Nat.cast_nonneg _)

end ContactProblem

/-- The tangential regularization of a contact without inertia vanishes. -/
theorem Load.zero_mem_regularization
    {x : Load} {parameters : ConeParameters ℝ} {gap : ℝ}
    (hlaw : x.constraint.law = .frictionCone parameters gap)
    (hinertia : x.inertia = 0)
    (timeStep : ℝ) :
    (0 : ℝ) ∈ x.regularization timeStep := by
  unfold regularization Constraint.diagonalAt
  rw [hlaw, hinertia]
  simp [ConeParameters.diagonal]

namespace ContactModel

variable {p : ContactProblem ℝ}

/-- A problem in which a regularization vanishes has no model. -/
theorem ofProblem_eq_error
    (hp : p.Reachable)
    {delassus : Tensor ℝ}
    (hdelassus : p.delassusDiagonal = .ok delassus)
    {x : Load}
    (hx : x ∈ p.loads delassus.entries)
    (hzero : (0 : ℝ) ∈ x.regularization p.timeStep) :
    (ofProblem p).1 = .error .regularizationNotPositive := by
  obtain ⟨m, d, hm⟩ := ofProblem_eq_ite hp hdelassus
  have hmem : (0 : ℝ) ∈ m.bundle.regularization := by
    rw [d.regularization]
    exact List.mem_flatMap.2 ⟨x, d.perm_edgeLoads.mem_iff.2 hx, hzero⟩
  rw [hm, if_pos]
  exact List.any_eq_true.2 ⟨0, hmem, by simp⟩

open ContactProblem in
/-- A problem on positive definite cliques has a model if none of its constraints is detached. -/
theorem exists_ofProblem_of_attached
    (hp : p.Reachable)
    (hdefinite : ∀ c ∈ p.constraints, p.DefiniteAt c)
    (hattached : ∀ c ∈ p.constraints, ¬ c.Detached) :
    ∃ m w, (ofProblem p).1 = .ok m ∧ m.Describes p w := by
  apply exists_ofProblem_of_pos hp
  intro c hc
  obtain ⟨format, hmean⟩ := meanInertia_eq_ok hp.wellFormed hc (hdefinite c hc)
  refine ⟨format, p.inertiaNorm c, hmean, (p.inertiaNorm_nonneg c).lt_of_ne' ?_⟩
  exact (inertiaNorm_eq_zero_iff hp.wellFormed hc (hdefinite c hc)).not.2 (hattached c hc)

open ContactProblem in
/-- **Solvability.**  The inertias of a problem of frictional contacts on positive definite cliques
are computed and not negative, and vanish exactly for detached contacts.  The problem has a model,
with a positive regularization, if and only if no contact is detached; otherwise its
regularization is refused. -/
theorem solvable_iff_attached
    (hp : p.Reachable)
    (hlaw : ∀ c ∈ p.constraints, ∃ parameters gap, c.law = .frictionCone parameters gap)
    (hdefinite : ∀ c ∈ p.constraints, p.DefiniteAt c) :
    (∃ delassus, p.delassusDiagonal = .ok delassus ∧
      delassus.entries = p.constraints.map fun c => ‖p.inertiaMatrix 3 c‖ / 3) ∧
      (∀ c ∈ p.constraints, 0 ≤ ‖p.inertiaMatrix 3 c‖ / 3 ∧
        (‖p.inertiaMatrix 3 c‖ / 3 = 0 ↔ c.Detached)) ∧
      ((∃ m, (ofProblem p).1 = .ok m ∧ ∀ r ∈ m.bundle.regularization, 0 < r) ↔
        ∀ c ∈ p.constraints, ¬ c.Detached) ∧
      ((∃ c ∈ p.constraints, c.Detached) → ∃ e, (ofProblem p).1 = .error e ∧ e.kind = .value ∧
        e.message? = some "Constraint regularization must be strictly positive.") := by
  have hwell := hp.wellFormed
  have hnorm : ∀ c ∈ p.constraints, ‖p.inertiaMatrix 3 c‖ / 3 = p.inertiaNorm c := by
    intro c hc
    obtain ⟨parameters, gap, hcone⟩ := hlaw c hc
    rw [inertiaNorm, (hwell.proper c hc).numEquations_eq parameters gap hcone]
    norm_num
  obtain ⟨delassus, hdelassus, hentries⟩ := delassusDiagonal_eq_ok hwell hdefinite
  have hrefused : (∃ c ∈ p.constraints, c.Detached) →
      (ofProblem p).1 = .error .regularizationNotPositive := by
    rintro ⟨c, hc, hdetached⟩
    obtain ⟨parameters, gap, hcone⟩ := hlaw c hc
    have hload : (⟨c, p.inertiaNorm c⟩ : Load) ∈ p.loads delassus.entries := by
      rw [loads, hentries, List.zipWith_map_right, List.zipWith_self]
      exact List.mem_map_of_mem hc
    exact ofProblem_eq_error hp hdelassus hload (Load.zero_mem_regularization hcone
      ((inertiaNorm_eq_zero_iff hwell hc (hdefinite c hc)).2 hdetached) _)
  refine ⟨⟨delassus, hdelassus, ?_⟩, ?_, ⟨?_, ?_⟩, fun h => ⟨_, hrefused h, rfl, rfl⟩⟩
  · rw [hentries]
    exact List.map_congr_left fun c hc => (hnorm c hc).symm
  · intro c hc
    rw [hnorm c hc]
    exact ⟨p.inertiaNorm_nonneg c, inertiaNorm_eq_zero_iff hwell hc (hdefinite c hc)⟩
  · rintro ⟨m, hm, -⟩ c hc hdetached
    rw [hrefused ⟨c, hc, hdetached⟩] at hm
    cases hm
  · intro hattached
    have hpos : ∀ c ∈ p.constraints, ∃ format w, p.meanInertia c = .ok (format, w) ∧ 0 < w := by
      intro c hc
      obtain ⟨format, hmean⟩ := meanInertia_eq_ok hwell hc (hdefinite c hc)
      refine ⟨format, p.inertiaNorm c, hmean, (p.inertiaNorm_nonneg c).lt_of_ne' ?_⟩
      exact (inertiaNorm_eq_zero_iff hwell hc (hdefinite c hc)).not.2 (hattached c hc)
    obtain ⟨m, -, hm, -⟩ := exists_ofProblem_of_pos hp hpos
    obtain ⟨-, -, -, hpositive⟩ := describes_of_ofProblem hp hm
    exact ⟨m, hm, hpositive⟩

end ContactModel

/-- The bodies of a stack are positive definite. -/
theorem Stack.definiteAt
    (contacts : List (Constraint ℝ)) (c : Constraint ℝ) :
    (Stack.problem contacts).DefiniteAt c := by
  intro side _ k hk
  have hmem : k ∈ [Stack.body, Stack.body, Stack.body] :=
    List.mem_of_getElem? hk
  simp only [List.mem_cons, List.not_mem_nil, or_false, or_self] at hmem
  rw [hmem]
  exact Stack.posDef_body

end Solvability

namespace ContactModel

/-- Two contacts of one body share its factor, and none is detached. -/
theorem solvable_iff_attached_stack :
    letI := Threshold.ofFormat .double
    (Stack.problem [Stack.onGround, Stack.onBody]).Reachable ∧
      (∀ c ∈ (Stack.problem [Stack.onGround, Stack.onBody]).constraints,
        ∃ parameters gap, c.law = .frictionCone parameters gap) ∧
      (∀ c ∈ (Stack.problem [Stack.onGround, Stack.onBody]).constraints,
        (Stack.problem [Stack.onGround, Stack.onBody]).DefiniteAt c) ∧
      ∃ m, (ofProblem (Stack.problem [Stack.onGround, Stack.onBody])).1 = .ok m ∧
        ∀ r ∈ m.bundle.regularization, 0 < r := by
  let _ := Threshold.ofFormat .double
  have hacts : ∀ c ∈ [Stack.onGround, Stack.onBody], Stack.Acts c := by
    simp [Stack.acts_onGround, Stack.acts_onBody]
  have hp := Stack.reachable hacts
  rw [Stack.constraints_problem]
  have hlaw : ∀ c ∈ [Stack.onGround, Stack.onBody],
      ∃ parameters gap, c.law = .frictionCone parameters gap := by
    intro c hc
    obtain ⟨k, a, second?, rfl, -⟩ := hacts c hc
    exact ⟨_, _, rfl⟩
  have hdefinite : ∀ c ∈ [Stack.onGround, Stack.onBody],
      (Stack.problem [Stack.onGround, Stack.onBody]).DefiniteAt c := by
    intro c _ side _ k hk
    have hmem : k ∈ [Stack.body, Stack.body, Stack.body] :=
      List.mem_of_getElem? hk
    simp only [List.mem_cons, List.not_mem_nil, or_false, or_self] at hmem
    rw [hmem]
    exact Stack.posDef_body
  obtain ⟨-, -, hsolvable, -⟩ := solvable_iff_attached hp
    (by rwa [Stack.constraints_problem]) (by rwa [Stack.constraints_problem])
  refine ⟨hp, hlaw, hdefinite, hsolvable.2 ?_⟩
  rw [Stack.constraints_problem]
  intro c hc hdetached
  obtain ⟨k, a, second?, rfl, -, ha, -⟩ := hacts c hc
  refine ha (hdetached (k, Stack.alongNormal a) List.mem_cons_self a ?_)
  simp [Stack.alongNormal, DenseMatrix.entries, DenseMatrix.tabulate, List.range_succ]

end ContactModel
end ConvexContact
