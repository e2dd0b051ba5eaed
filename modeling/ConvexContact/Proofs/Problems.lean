import Mathlib
import ConvexContact.ContactProblem
import ConvexContact.Proofs.Cone.Regimes
import ConvexContact.Proofs.Graphs

/-!
# Problems that can be built

A problem is reachable if it is made from a time step by adding cliques and constraints and by
finalizing.  Every step keeps what the checks of the single calls promise (`WellFormed`): a
positive time step, square dynamics matrices with free motions of their sizes, constraints whose
Jacobian blocks fit their equations and their cliques, and a graph that is the one of the
constraints.
-/

namespace ConvexContact

section Checks

variable {α : Type}

namespace ContactProblem

/-- A side of a constraint acts on a clique with as many velocities as its block has columns. -/
def FitsSide (p : ContactProblem α) (side : ℕ × DenseMatrix α) : Prop :=
  ∃ k, p.cliques[side.1]? = some k ∧ side.2.numCols = k.size

theorem length_constraints
    (p : ContactProblem α) :
    p.constraints.length = p.numConstraints := by
  simp [constraints, numConstraints]

theorem checkSide_eq_ok_iff
    {p : ContactProblem α} {side : ℕ × DenseMatrix α} :
    p.checkSide side = .ok () ↔ p.FitsSide side := by
  unfold checkSide
  constructor
  · intro h
    split at h
    · cases h
    · rename_i k hk
      split_ifs at h with hcols
      exact ⟨k, hk, not_not.1 hcols⟩
  · rintro ⟨k, hk, hcols⟩
    rw [hk]
    exact if_neg (not_not.2 hcols)

/-- The sides of a constraint are accepted if each of them fits. -/
theorem forM_checkSide_eq_ok_iff
    {p : ContactProblem α} {sides : List (ℕ × DenseMatrix α)} :
    sides.forM p.checkSide = .ok () ↔ ∀ side ∈ sides, p.FitsSide side := by
  induction sides with
  | nil =>
      exact ⟨fun _ => by simp, fun _ => rfl⟩
  | cons side sides ih =>
      change (p.checkSide side >>= fun _ => sides.forM p.checkSide) = _ ↔ _
      rw [Outcome.bind_eq_ok, List.forall_mem_cons, ← ih, ← checkSide_eq_ok_iff]
      constructor
      · rintro ⟨_, hside, h⟩
        exact ⟨hside, h⟩
      · rintro ⟨hside, h⟩
        exact ⟨(), hside, h⟩

theorem graph_of_not_finalized
    {p : ContactProblem α}
    (h : p.graph? = none) :
    p.graph = ContactGraph.ofMembers p.numCliques (p.constraints.map memberOf) := by
  unfold graph
  rw [h]
  rfl

theorem not_isFinalized_iff
    {p : ContactProblem α} :
    ¬ p.isFinalized = true ↔ p.graph? = none := by
  unfold isFinalized
  simp

/-- Finalizing changes neither the cliques nor the constraints. -/
theorem finalize_eq
    (p : ContactProblem α) :
    p.finalize.1 = { p with graph? := some p.graph } := by
  unfold finalize
  split
  · rename_i g hg
    cases p
    simp only at hg
    subst hg
    rfl
  · rfl

end ContactProblem

variable [Scalar α]

/-- An accepted clique is square, and its free motion has its size. -/
theorem Clique.of_ofTensors
    {A v : Tensor α} {c : Clique α}
    (h : ofTensors A v = .ok c) :
    c.dynamics.numRows = c.dynamics.numCols ∧ c.freeVelocity.length = c.size := by
  unfold ofTensors at h
  split at h
  · cases h
  · rename_i dynamics hmatrix
    split_ifs at h with hsquare hempty hshape hsymmetric
    cases h
    refine ⟨not_not.1 hsquare, ?_⟩
    change (v.entries.map _).length = _
    rw [List.length_map]
    exact Tensor.length_entries_of_shape (not_not.1 hshape)

namespace ContactProblem

variable {p p' : ContactProblem α}

/-- What it means to add a clique. -/
theorem addClique_eq_ok_iff
    {A v : Tensor α} {i : ℕ} :
    p.addClique A v = .ok (i, p') ↔
      p.graph? = none ∧ i = p.numCliques ∧
        ∃ c, Clique.ofTensors A v = .ok c ∧ p' = { p with cliques := p.cliques ++ [c] } := by
  unfold addClique
  rw [← not_isFinalized_iff]
  constructor
  · intro h
    split_ifs at h with hfinal
    obtain ⟨c, hc, heq⟩ := Outcome.map_eq_ok.1 h
    cases heq
    exact ⟨hfinal, rfl, c, hc, rfl⟩
  · rintro ⟨hfinal, rfl, c, hc, rfl⟩
    rw [if_neg hfinal, hc]
    rfl

omit [Scalar α] in
/-- What it means to add a constraint. -/
theorem addConstraint_eq_ok_iff
    {ids ids' : IdTable} {c : HeldConstraint α} {i : ℕ} :
    p.addConstraint ids c = .ok (i, p', ids') ↔
      p.graph? = none ∧ (∀ side ∈ c.constraint.sides, p.FitsSide side) ∧ i = p.numConstraints ∧
        p' = { p with held := p.held ++ [c] } ∧ ids' = ids.set c.handle (some i) := by
  unfold addConstraint
  rw [← not_isFinalized_iff, ← forM_checkSide_eq_ok_iff]
  constructor
  · intro h
    split_ifs at h with hfinal
    obtain ⟨_, hsides, h⟩ := Outcome.bind_eq_ok.1 h
    cases h
    exact ⟨hfinal, hsides, rfl, rfl, rfl⟩
  · rintro ⟨hfinal, hsides, rfl, rfl, rfl⟩
    rw [if_neg hfinal, hsides]
    rfl

end ContactProblem

end Checks

variable [Threshold]

namespace Constraint

/-- What is checked of a constraint when it is made. -/
structure Proper (c : Constraint ℝ) : Prop where
  numEquations_pos : 0 < c.numEquations
  numRows_eq : ∀ side ∈ c.sides, side.2.numRows = c.numEquations
  second_ne : ∀ side, c.second? = some side → side.1 ≠ c.clique
  numEquations_eq : ∀ p gap, c.law = .frictionCone p gap → c.numEquations = 3
  flaw?_eq_none : ∀ p gap, c.law = .frictionCone p gap → p.flaw? = none

/-- A constraint that one of the two ways to make constraints gives. -/
inductive Built : Constraint ℝ → Prop
  | contact
      {parameters : ConeParameters ℝ} {gap : Tensor ℝ} {clique : ℤ} {J : Tensor ℝ}
      {second? : Option ℤ} {secondJacobian? : Option (Tensor ℝ)} {c : Constraint ℝ}
      (h : ofContact parameters gap clique J second? secondJacobian? = .ok c) :
      Built c
  | unrestricted
      {g : Tensor ℝ} {clique : ℤ} {J : Tensor ℝ}
      {second? : Option ℤ} {secondJacobian? : Option (Tensor ℝ)} {c : Constraint ℝ}
      (h : ofUnrestricted g clique J second? secondJacobian? = .ok c) :
      Built c

theorem of_checkJacobian
    {side : Side} {n : ℕ} {J : Tensor ℝ} {A : DenseMatrix ℝ}
    (h : checkJacobian side n J = .ok A) :
    A.numRows = n ∧ A.format = J.format := by
  unfold checkJacobian at h
  split at h
  · cases h
  · rename_i B hmatrix
    split_ifs at h with hrows
    cases h
    refine ⟨not_not.1 hrows, ?_⟩
    unfold Tensor.matrix? at hmatrix
    split at hmatrix
    · cases hmatrix
      rfl
    · cases hmatrix

theorem of_checkSecond
    {first : ℤ} {n : ℕ} {second? : Option ℤ} {J? : Option (Tensor ℝ)}
    {other : Option (ℕ × DenseMatrix ℝ)}
    (hfirst : 0 ≤ first)
    (h : checkSecond first n second? J? = .ok other) :
    ∀ side, other = some side → side.1 ≠ first.toNat ∧ side.2.numRows = n := by
  intro side hside
  unfold checkSecond at h
  split at h
  · cases h
    cases hside
  · split_ifs at h with hnegative hsame
    obtain ⟨A, hA, rfl⟩ := Outcome.map_eq_ok.1 h
    cases hside
    refine ⟨?_, (of_checkJacobian hA).1⟩
    intro heq
    have : (first.toNat : ℤ) = first :=
      Int.toNat_of_nonneg hfirst
    dsimp only at heq
    omega
  · cases h

/-- The parts of a constraint fit each other. -/
theorem of_ofParts
    {law : Law ℝ} {g : Tensor ℝ} {clique : ℤ} {J : Tensor ℝ}
    {second? : Option ℤ} {J? : Option (Tensor ℝ)} {c : Constraint ℝ}
    (h : ofParts law g clique J second? J? = .ok c) :
    c.law = law ∧ g.vector? = some c.function ∧ 0 < c.numEquations ∧
      (∀ side ∈ c.sides, side.2.numRows = c.numEquations) ∧
      ∀ side, c.second? = some side → side.1 ≠ c.clique := by
  unfold ofParts at h
  split at h
  · cases h
  · cases h
  · rename_i values hne hvector
    obtain ⟨A, hA, h⟩ := Outcome.bind_eq_ok.1 h
    split_ifs at h with hnegative
    obtain ⟨other, hother, h⟩ := Outcome.bind_eq_ok.1 h
    cases h
    have hsecond := of_checkSecond (not_lt.1 hnegative) hother
    refine ⟨rfl, hvector, ?_, ?_, ?_⟩
    · exact List.length_pos_iff.2 fun hnil => hne hnil
    · intro side hside
      rcases List.mem_cons.1 hside with rfl | hside
      · exact (of_checkJacobian hA).1
      · exact (hsecond side (Option.mem_toList.1 hside)).2
    · intro side hside
      exact (hsecond side hside).1

theorem format_of_ofParts
    {law : Law ℝ} {g : Tensor ℝ} {clique : ℤ} {J : Tensor ℝ}
    {second? : Option ℤ} {J? : Option (Tensor ℝ)} {c : Constraint ℝ}
    (h : ofParts law g clique J second? J? = .ok c) :
    c.format = g.format ∧ c.jacobian.format = J.format := by
  unfold ofParts at h
  split at h
  · cases h
  · cases h
  · obtain ⟨A, hA, h⟩ := Outcome.bind_eq_ok.1 h
    split_ifs at h
    obtain ⟨other, -, h⟩ := Outcome.bind_eq_ok.1 h
    cases h
    exact ⟨rfl, (of_checkJacobian hA).2⟩

/-- A contact is made of its parts and of parameters in their ranges. -/
theorem of_ofContact
    {parameters : ConeParameters ℝ} {gap : Tensor ℝ} {clique : ℤ} {J : Tensor ℝ}
    {second? : Option ℤ} {J? : Option (Tensor ℝ)} {c : Constraint ℝ}
    (h : ofContact parameters gap clique J second? J? = .ok c) :
    parameters.flaw? = none ∧
      ∃ phi, ofParts (.frictionCone parameters phi) (Tensor.ofVec J.format [0, 0, phi]) clique J
        second? J? = .ok c := by
  unfold ofContact at h
  dsimp only at h
  split at h
  · rename_i phi _ _
    split at h
    · obtain ⟨c', hparts, h⟩ := Outcome.bind_eq_ok.1 h
      obtain ⟨q, hvalid, h⟩ := Outcome.bind_eq_ok.1 h
      cases h
      rw [Exact.ofNat_zero] at hparts
      exact ⟨ConeParameters.flaw?_of_validate hvalid, phi, hparts⟩
    · cases h
  · cases h

/-- A constraint that was made passed its checks. -/
theorem Built.proper
    {c : Constraint ℝ}
    (h : Built c) :
    c.Proper := by
  cases h with
  | @contact parameters gap clique J second? J? _ h =>
      obtain ⟨hvalid, phi, hparts⟩ := of_ofContact h
      obtain ⟨hlaw, hvector, hpos, hrows, hsecond⟩ := of_ofParts hparts
      refine ⟨hpos, hrows, hsecond, ?_, ?_⟩
      · intro p gap' _
        rw [Tensor.vector?_ofVec, Tensor.entries_ofVec, Option.some_inj] at hvector
        rw [numEquations, ← hvector]
        rfl
      · intro p gap' hp
        rw [hlaw] at hp
        cases hp
        exact hvalid
  | unrestricted h =>
      obtain ⟨hlaw, -, hpos, hrows, hsecond⟩ := of_ofParts h
      refine ⟨hpos, hrows, hsecond, ?_, ?_⟩
      · intro p gap hp
        rw [hlaw] at hp
        cases hp
      · intro p gap hp
        rw [hlaw] at hp
        cases hp

end Constraint

namespace ContactProblem

/-- Problems that come from a time step by adding cliques and constraints and by finalizing. -/
inductive Reachable : ContactProblem ℝ → Prop
  | ofTimeStep
      {timeStep : ℝ} {p : ContactProblem ℝ}
      (h : ofTimeStep timeStep = .ok p) :
      Reachable p
  | addClique
      {p p' : ContactProblem ℝ} {A v : Tensor ℝ} {i : ℕ}
      (hp : Reachable p)
      (h : p.addClique A v = .ok (i, p')) :
      Reachable p'
  | addConstraint
      {p p' : ContactProblem ℝ} {ids ids' : IdTable} {c : HeldConstraint ℝ} {i : ℕ}
      (hp : Reachable p)
      (hc : c.constraint.Built)
      (h : p.addConstraint ids c = .ok (i, p', ids')) :
      Reachable p'
  | finalize
      {p : ContactProblem ℝ}
      (hp : Reachable p) :
      Reachable p.finalize.1

/-- What the checks of the single calls promise of a problem. -/
structure WellFormed (p : ContactProblem ℝ) : Prop where
  timeStep_pos : 0 < p.timeStep
  square : ∀ c ∈ p.cliques, c.dynamics.numRows = c.dynamics.numCols
  length_freeVelocity : ∀ c ∈ p.cliques, c.freeVelocity.length = c.size
  proper : ∀ c ∈ p.constraints, c.Proper
  fits : ∀ c ∈ p.constraints, ∀ side ∈ c.sides, p.FitsSide side
  graph_eq : p.graph = ContactGraph.ofMembers p.numCliques (p.constraints.map memberOf)

namespace WellFormed

variable {p p' : ContactProblem ℝ}

theorem ofTimeStep
    {timeStep : ℝ}
    (h : ContactProblem.ofTimeStep timeStep = .ok p) :
    p.WellFormed := by
  unfold ContactProblem.ofTimeStep at h
  split_ifs at h with hpos
  cases h
  refine ⟨?_, ?_, ?_, ?_, ?_, rfl⟩
  · simpa using hpos
  all_goals simp [constraints]

/-- Adding a clique keeps a problem well-formed. -/
theorem addClique
    {A v : Tensor ℝ} {i : ℕ}
    (hp : p.WellFormed)
    (h : p.addClique A v = .ok (i, p')) :
    p'.WellFormed := by
  obtain ⟨hopen, -, c, hc, rfl⟩ := addClique_eq_ok_iff.1 h
  obtain ⟨hsquare, hfree⟩ := Clique.of_ofTensors hc
  refine ⟨hp.timeStep_pos, ?_, ?_, hp.proper, ?_, ?_⟩
  · intro k hk
    rcases List.mem_append.1 hk with hk | hk
    · exact hp.square k hk
    · rw [List.mem_singleton.1 hk]
      exact hsquare
  · intro k hk
    rcases List.mem_append.1 hk with hk | hk
    · exact hp.length_freeVelocity k hk
    · rw [List.mem_singleton.1 hk]
      exact hfree
  · intro k hk side hside
    obtain ⟨clique, hclique, hcols⟩ := hp.fits k hk side hside
    refine ⟨clique, ?_, hcols⟩
    have hlt : side.1 < p.cliques.length :=
      (List.getElem?_eq_some_iff.1 hclique).1
    rwa [List.getElem?_append_left hlt]
  · exact graph_of_not_finalized hopen

/-- Adding a constraint that was made keeps a problem well-formed. -/
theorem addConstraint
    {ids ids' : IdTable} {c : HeldConstraint ℝ} {i : ℕ}
    (hp : p.WellFormed)
    (hc : c.constraint.Built)
    (h : p.addConstraint ids c = .ok (i, p', ids')) :
    p'.WellFormed := by
  obtain ⟨hopen, hsides, -, rfl, -⟩ := addConstraint_eq_ok_iff.1 h
  have hmem : ∀ k ∈ (p.held ++ [c]).map (·.constraint),
      k ∈ p.constraints ∨ k = c.constraint := by
    intro k hk
    rw [List.map_append, List.mem_append] at hk
    rcases hk with hk | hk
    · exact Or.inl hk
    · exact Or.inr (by simpa using hk)
  refine ⟨hp.timeStep_pos, hp.square, hp.length_freeVelocity, ?_, ?_, ?_⟩
  · intro k hk
    rcases hmem k hk with hk | rfl
    · exact hp.proper k hk
    · exact hc.proper
  · intro k hk side hside
    rcases hmem k hk with hk | rfl
    · exact hp.fits k hk side hside
    · exact hsides side hside
  · exact graph_of_not_finalized hopen

/-- Finalizing keeps a problem well-formed. -/
theorem finalize
    (hp : p.WellFormed) :
    p.finalize.1.WellFormed := by
  unfold ContactProblem.finalize
  split
  · exact hp
  · exact ⟨hp.timeStep_pos, hp.square, hp.length_freeVelocity, hp.proper, hp.fits, hp.graph_eq⟩

end WellFormed

/-- Every problem that can be built is well-formed. -/
theorem Reachable.wellFormed
    {p : ContactProblem ℝ}
    (h : Reachable p) :
    p.WellFormed := by
  induction h with
  | ofTimeStep h =>
      exact WellFormed.ofTimeStep h
  | addClique _ h ih =>
      exact ih.addClique h
  | addConstraint _ hc h ih =>
      exact ih.addConstraint hc h
  | finalize _ ih =>
      exact ih.finalize

end ContactProblem
end ConvexContact
