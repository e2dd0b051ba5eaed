import Mathlib
import ConvexContact.Proofs.Agreement
import ConvexContact.Proofs.Construction
import ConvexContact.Proofs.Convexity
import ConvexContact.Proofs.Solvability
import ConvexContact.Proofs.TurnedBlocks

/-!
# The choice of tangential directions

A contact problem is turned if in each contact the two tangential rows of its Jacobian blocks are
turned or reflected by an orthogonal matrix of its own (`ContactProblem.turned`).  This is what
happens if other tangential directions are chosen for the contacts.

**Loads.**  A turned load has the same regularization and bias.  Its constraint velocity and its
impulse before the projection are turned, so it has the same cost, a turned impulse, and a second
derivative that is the same bilinear form (`Load.contribution_turned`).

**Result.**  Turning changes neither the inertias nor the index maps, regularization, cost, gradient
and second derivative of the model, and it turns the impulses (`evaluation_turned`).
-/

namespace ConvexContact

/-- A list whose members are changed by position is related to the changed list. -/
theorem forall₂_mapIdx
    {α β : Type} {R : α → β → Prop} {f : ℕ → α → β} {l : List α}
    (h : ∀ i, ∀ x ∈ l, R x (f i x)) :
    List.Forall₂ R l (l.mapIdx f) := by
  rw [List.forall₂_iff_get]
  refine ⟨List.length_mapIdx.symm, ?_⟩
  intro i h₁ h₂
  rw [List.get_eq_getElem, List.get_eq_getElem, List.getElem_mapIdx]
  exact h i _ (List.getElem_mem h₁)

namespace Constraint

variable [Threshold]
variable {c : Constraint ℝ} {parameters : ConeParameters ℝ} {gap : ℝ}

/-- A contact that was made consists of its blocks, its gap and its parameters. -/
theorem Built.eq_contact
    (h : c.Built)
    (hlaw : c.law = .frictionCone parameters gap) :
    c = Constraint.contact parameters gap c.clique c.jacobian c.second? := by
  cases h with
  | @contact _ _ _ J _ _ _ h =>
      obtain ⟨-, phi, hparts⟩ := of_ofContact h
      obtain ⟨hlaw', hfunction, -⟩ := of_ofParts hparts
      obtain ⟨hformat, hjacobian⟩ := format_of_ofParts hparts
      rw [Tensor.vector?_ofVec, Tensor.entries_ofVec, Option.some_inj] at hfunction
      rw [Tensor.format_ofVec, ← hjacobian] at hformat
      rw [hlaw, Law.frictionCone.injEq] at hlaw'
      obtain ⟨-, hphi⟩ := hlaw'
      cases c
      simp only [Constraint.contact] at hlaw hfunction hformat ⊢
      rw [hlaw, ← hfunction, hformat, hphi]
  | unrestricted h =>
      obtain ⟨hlaw', -⟩ := of_ofParts h
      rw [hlaw] at hlaw'
      cases hlaw'

/-- A contact can be made with turned blocks. -/
theorem Built.turned
    (h : c.Built)
    (hlaw : c.law = .frictionCone parameters gap)
    (Q : Matrix (Fin 2) (Fin 2) ℝ) :
    (c.turned Q).Built := by
  have hproper := h.proper
  have hthree := hproper.numEquations_eq parameters gap hlaw
  rw [h.eq_contact hlaw]
  apply built_contact (hproper.flaw?_eq_none parameters gap hlaw)
  · rw [DenseMatrix.numRows_turned, ← hthree]
    exact hproper.numRows_eq (c.clique, c.jacobian) List.mem_cons_self
  · intro side hside
    obtain ⟨s, hs, rfl⟩ := Option.map_eq_some_iff.1 hside
    refine ⟨hproper.second_ne s hs, ?_⟩
    rw [DenseMatrix.numRows_turned, ← hthree]
    exact hproper.numRows_eq s (List.mem_cons_of_mem _ (Option.mem_toList.2 hs))

end Constraint

namespace ContactProblem

variable {p : ContactProblem ℝ}

/-- The problem in which the tangential rows of each constraint are turned by a matrix. -/
def turned (Q : ℕ → Matrix (Fin 2) (Fin 2) ℝ) (p : ContactProblem ℝ) : ContactProblem ℝ :=
  { p with held := p.held.mapIdx fun i h => ⟨h.handle, h.constraint.turned (Q i)⟩ }

section Construction

variable (Q : ℕ → Matrix (Fin 2) (Fin 2) ℝ)

theorem constraints_turned
    (p : ContactProblem ℝ) :
    (p.turned Q).constraints = p.constraints.mapIdx fun i c => c.turned (Q i) := by
  apply List.ext_getElem
  · simp [constraints, turned]
  · intro i h₁ h₂
    simp [constraints, turned]

theorem numConstraints_turned
    (p : ContactProblem ℝ) :
    (p.turned Q).numConstraints = p.numConstraints :=
  List.length_mapIdx

/-- Turning does not change the graph. -/
theorem graph_turned
    (p : ContactProblem ℝ) :
    (p.turned Q).graph = p.graph := by
  have hmembers : (p.turned Q).constraints.map memberOf = p.constraints.map memberOf := by
    rw [constraints_turned]
    apply List.ext_getElem
    · simp
    · intro i h₁ h₂
      simp [Constraint.memberOf_turned]
  unfold graph
  rw [hmembers]
  rfl

/-- A constraint that can be added can be added with other tangential directions. -/
theorem addConstraint_turned
    {ids ids' : IdTable} {c : HeldConstraint ℝ} {i : ℕ} {p' : ContactProblem ℝ}
    (h : p.addConstraint ids c = .ok (i, p', ids')) :
    (p.turned Q).addConstraint ids
      ⟨c.handle, c.constraint.turned (Q p.numConstraints)⟩ = .ok (i, p'.turned Q, ids') := by
  obtain ⟨hopen, hfits, rfl, rfl, rfl⟩ := addConstraint_eq_ok_iff.1 h
  have hlast : ({ p with held := p.held ++ [c] } : ContactProblem ℝ).turned Q =
      { p.turned Q with
        held := (p.turned Q).held ++
          [⟨c.handle, c.constraint.turned (Q p.numConstraints)⟩] } := by
    unfold ContactProblem.turned
    rw [List.mapIdx_concat]
    rfl
  have hsides : ∀ side ∈ (c.constraint.turned (Q p.numConstraints)).sides,
      (p.turned Q).FitsSide side := by
    intro side hside
    rw [Constraint.sides_turned] at hside
    obtain ⟨s, hs, rfl⟩ := List.mem_map.1 hside
    exact hfits s hs
  exact addConstraint_eq_ok_iff.2 ⟨hopen, hsides, (numConstraints_turned Q p).symm, hlast, rfl⟩

variable [Threshold]

/-- A problem of frictional contacts can be built with other tangential directions. -/
theorem Reachable.turned
    (hp : p.Reachable)
    (hfrictional : ∀ c ∈ p.constraints, ∃ parameters gap, c.law = .frictionCone parameters gap) :
    (p.turned Q).Reachable := by
  induction hp with
  | @ofTimeStep timeStep p h =>
      have hsame : p.turned Q = p := by
        unfold ContactProblem.ofTimeStep at h
        split_ifs at h
        cases h
        rfl
      rw [hsame]
      exact .ofTimeStep h
  | addClique hp h ih =>
      obtain ⟨hopen, rfl, c, hc, rfl⟩ := addClique_eq_ok_iff.1 h
      exact (ih hfrictional).addClique (addClique_eq_ok_iff.2 ⟨hopen, rfl, c, hc, rfl⟩)
  | @addConstraint p p' ids ids' c i hp hc h ih =>
      obtain ⟨-, -, -, hp', -⟩ := addConstraint_eq_ok_iff.1 h
      have hmem : ∀ k, k = c.constraint ∨ k ∈ p.constraints →
          ∃ parameters gap, k.law = .frictionCone parameters gap := by
        intro k hk
        apply hfrictional
        rw [hp', constraints, List.map_append, List.mem_append]
        exact hk.symm.imp_right fun hk => by simp [hk]
      obtain ⟨parameters, gap, hlaw⟩ := hmem _ (.inl rfl)
      exact (ih fun k hk => hmem k (.inr hk)).addConstraint
        (hc.turned hlaw (Q p.numConstraints)) (addConstraint_turned Q h)
  | @finalize p hp ih =>
      have hcommute : p.finalize.1.turned Q = (p.turned Q).finalize.1 := by
        rw [finalize_eq, finalize_eq, graph_turned]
        rfl
      rw [hcommute]
      apply Reachable.finalize
      apply ih
      rw [finalize_eq] at hfrictional
      exact hfrictional

end Construction

end ContactProblem

section

variable [Threshold]

section Loads

theorem Vec.turned_add
    (Q : Matrix (Fin 2) (Fin 2) ℝ) {x y : List ℝ}
    (h : x.length = y.length) :
    turned Q (add x y) = add (turned Q x) (turned Q y) := by
  match x, y, h with
  | [], [], _ => rfl
  | [a], [b], _ => rfl
  | a :: b :: x, c :: d :: y, _ =>
      simp only [turned, add, List.zipWith_cons_cons, List.cons.injEq, and_true]
      constructor <;> ring

/-- Orthogonal matrices keep the inner products of contact vectors. -/
theorem Vec.dot_turned
    {Q : Matrix (Fin 2) (Fin 2) ℝ} (hQ : Q ∈ Matrix.orthogonalGroup (Fin 2) ℝ)
    {x y : List ℝ}
    (hx : x.length = 3)
    (hy : y.length = 3) :
    dot (turned Q x) (turned Q y) = dot x y := by
  obtain ⟨c, rfl⟩ := ContactVector.exists_toList hx
  obtain ⟨d, rfl⟩ := ContactVector.exists_toList hy
  have hdot : ∀ c d : ContactVector ℝ, dot c.toList d.toList = c.inner d := by
    intro c d
    simp [ContactVector.toList, ContactVector.inner, add_assoc]
  exact (hdot (c.turned Q) (d.turned Q)).trans ((c.inner_turned hQ d).trans (hdot c d).symm)

namespace Load

/-- The load with its Jacobian blocks turned. -/
def turned (Q : Matrix (Fin 2) (Fin 2) ℝ) (x : Load) : Load :=
  { x with constraint := x.constraint.turned Q }

variable {Q : Matrix (Fin 2) (Fin 2) ℝ} {x : Load} {parameters : ConeParameters ℝ} {gap : ℝ}
variable {u : List ℝ}

/-- Both tangential directions have the same regularization and no bias. -/
theorem exists_contact_vectors
    (hlaw : x.constraint.law = .frictionCone parameters gap)
    (Q : Matrix (Fin 2) (Fin 2) ℝ) (timeStep : ℝ)
    (hu : u.length = 3) :
    ∃ y R : ContactVector ℝ, R.t₁ = R.t₂ ∧ x.regularization timeStep = R.toList ∧
      x.unprojected timeStep u = y.toList ∧
      (x.turned Q).unprojected timeStep (Vec.turned Q u) = (y.turned Q).toList := by
  obtain ⟨u, rfl⟩ := ContactVector.exists_toList hu
  set d := parameters.diagonal timeStep x.inertia with hd
  set b := parameters.normalBias timeStep gap with hb
  have hregularization : x.regularization timeStep = [d.1, d.1, d.2] := by
    unfold regularization Constraint.diagonalAt
    rw [hlaw]
  have hbias : x.bias timeStep = [0, 0, b] := by
    unfold bias Constraint.bias
    rw [hlaw, Exact.ofNat_zero]
  refine ⟨⟨-(u.t₁ - 0) / d.1, -(u.t₂ - 0) / d.1, -(u.n - b) / d.2⟩, ⟨d.1, d.1, d.2⟩, rfl,
    hregularization, ?_, ?_⟩
  · unfold unprojected
    rw [hregularization, hbias]
    rfl
  · change List.zipWith _ (Vec.sub _ (x.bias timeStep)) (x.regularization timeStep) = _
    rw [hregularization, hbias]
    simp only [Vec.turned, ContactVector.toList, ContactVector.turned, Vec.sub,
      List.zipWith_cons_cons, List.zipWith_nil_left, List.cons.injEq, and_true]
    constructor <;> ring

/-- What a turned load contributes at a turned constraint velocity. -/
theorem contribution_turned
    (hQ : Q ∈ Matrix.orthogonalGroup (Fin 2) ℝ)
    (hlaw : x.constraint.law = .frictionCone parameters gap)
    (timeStep : ℝ)
    (hu : u.length = 3) :
    (x.turned Q).cost timeStep (Vec.turned Q u) = x.cost timeStep u ∧
      (x.turned Q).impulse timeStep (Vec.turned Q u) = Vec.turned Q (x.impulse timeStep u) ∧
      ∀ format {c d : List ℝ}, c.length = 3 → d.length = 3 →
        Vec.dot (Vec.turned Q c)
            (((x.turned Q).hessianBlock timeStep format (Vec.turned Q u)).mulVec
              (Vec.turned Q d)) =
          Vec.dot c ((x.hessianBlock timeStep format u).mulVec d) := by
  obtain ⟨y, R, hR, hregularization, hy, hy'⟩ := exists_contact_vectors hlaw Q timeStep hu
  obtain ⟨hcost, himpulse, -⟩ := contact_eq hlaw hy hregularization .double
  obtain ⟨hcost', himpulse', -⟩ :=
    contact_eq (x := x.turned Q) hlaw hy' hregularization .double
  refine ⟨?_, ?_, ?_⟩
  · rw [hcost', hcost, ConeParameters.cost_turned hQ hR]
  · rw [himpulse', himpulse, ConeParameters.impulse_turned hQ hR]
    rfl
  · intro format c d hc hd
    obtain ⟨c, rfl⟩ := ContactVector.exists_toList hc
    obtain ⟨d, rfl⟩ := ContactVector.exists_toList hd
    rw [hessianBlock_contact hlaw hy hregularization,
      hessianBlock_contact (x := x.turned Q) hlaw hy' hregularization]
    exact ConeParameters.dot_mulVec_blockAt_turned hQ hR format y c d

end Load

namespace ContactProblem

variable {p : ContactProblem ℝ} {Q : ℕ → Matrix (Fin 2) (Fin 2) ℝ} {w : List ℝ}

omit [Threshold] in
theorem loads_turned
    (Q : ℕ → Matrix (Fin 2) (Fin 2) ℝ) (p : ContactProblem ℝ) (w : List ℝ) :
    (p.turned Q).loads w = (p.loads w).mapIdx fun i x => x.turned (Q i) := by
  unfold loads
  rw [constraints_turned]
  apply List.ext_getElem
  · simp
  · intro i h₁ h₂
    simp [Load.turned]

omit [Threshold] in
/-- What turned loads contribute alike is listed alike. -/
theorem map_loads_turned
    {α : Type} {f g : Load → α}
    (hfg : ∀ i, ∀ x ∈ p.loads w, g (x.turned (Q i)) = f x) :
    ((p.turned Q).loads w).map g = (p.loads w).map f := by
  rw [loads_turned]
  apply List.ext_getElem
  · simp
  · intro i h₁ h₂
    simpa using hfg i _ (List.getElem_mem _)

section Contacts

variable (hp : p.WellFormed) (hw : w.length = p.numConstraints)
variable (hfrictional : ∀ c ∈ p.constraints, ∃ parameters gap, c.law = .frictionCone parameters gap)
include hp hfrictional

theorem numEquations_of_frictional
    {c : Constraint ℝ}
    (hc : c ∈ p.constraints) :
    c.numEquations = 3 := by
  obtain ⟨parameters, gap, hlaw⟩ := hfrictional c hc
  exact (hp.proper c hc).numEquations_eq parameters gap hlaw

theorem numRows_of_frictional
    {c : Constraint ℝ}
    (hc : c ∈ p.constraints) :
    ∀ side ∈ c.sides, side.2.numRows = 3 := by
  intro side hside
  rw [(hp.proper c hc).numRows_eq side hside, numEquations_of_frictional hp hfrictional hc]

/-- The velocity of a turned contact. -/
theorem localVelocity_turned
    (Q : Matrix (Fin 2) (Fin 2) ℝ) (V : List ℝ)
    {c : Constraint ℝ}
    (hc : c ∈ p.constraints) :
    p.localVelocity V (c.turned Q) = Vec.turned Q (p.localVelocity V c) := by
  have hrows := numRows_of_frictional hp hfrictional hc
  have hside : ∀ side ∈ c.sides, p.sideVelocity V (side.1, side.2.turned Q) =
      Vec.turned Q (p.sideVelocity V side) := fun side hside =>
    DenseMatrix.mulVec_turned (hrows side hside) _
  have hfirst := c.first_mem_sides
  unfold localVelocity Constraint.turned
  cases hsecond : c.second? with
  | none =>
      exact hside _ hfirst
  | some side =>
      have hmem := Constraint.second_mem_sides hsecond
      have hsizes : (p.sideVelocity V (c.clique, c.jacobian)).length =
          (p.sideVelocity V side).length := by
        unfold sideVelocity
        rw [DenseMatrix.length_mulVec, DenseMatrix.length_mulVec, hrows _ hfirst, hrows _ hmem]
      change Vec.add (p.sideVelocity V (c.clique, c.jacobian.turned Q))
        (p.sideVelocity V (side.1, side.2.turned Q)) = _
      rw [hside _ hfirst, hside _ hmem, Vec.turned_add Q hsizes]

/-- The inertias do not depend on the tangential directions, and neither does the reason why they
are refused. -/
theorem delassusDiagonal_turned
    (hQ : ∀ i, Q i ∈ Matrix.orthogonalGroup (Fin 2) ℝ) :
    (p.turned Q).delassusDiagonal = p.delassusDiagonal := by
  have hturned : List.Forall₂ (fun c c' => c ∈ p.constraints ∧ ∃ i, c' = c.turned (Q i))
      p.constraints (p.turned Q).constraints := by
    rw [constraints_turned]
    exact forall₂_mapIdx fun i c hc => ⟨hc, i, rfl⟩
  rw [delassusDiagonal_eq_mapM, delassusDiagonal_eq_mapM, Outcome.mapM_eq_of_forall₂ hturned]
  rintro c c' ⟨hc, i, rfl⟩
  exact meanInertia_turned (hQ i) (numRows_of_frictional hp hfrictional hc)

include hw

theorem length_localVelocity_of_frictional
    (V : List ℝ)
    {x : Load}
    (hx : x ∈ p.loads w) :
    (p.localVelocity V x.constraint).length = 3 := by
  have hc := mem_constraints_of_mem_loads hw hx
  rw [hp.length_localVelocity hc, numEquations_of_frictional hp hfrictional hc]

theorem length_impulseAt_of_frictional
    (V : List ℝ)
    {x : Load}
    (hx : x ∈ p.loads w) :
    (p.impulseAt V x).length = 3 := by
  have hc := mem_constraints_of_mem_loads hw hx
  rw [impulseAt, Load.length_impulse (hp.proper _ hc) (hp.length_localVelocity hc),
    numEquations_of_frictional hp hfrictional hc]

/-- What a load of the turned problem contributes. -/
theorem contributionAt_turned
    {Q : Matrix (Fin 2) (Fin 2) ℝ} (hQ : Q ∈ Matrix.orthogonalGroup (Fin 2) ℝ)
    (V : List ℝ)
    {x : Load}
    (hx : x ∈ p.loads w) :
    p.costAt V (x.turned Q) = p.costAt V x ∧
      p.impulseAt V (x.turned Q) = Vec.turned Q (p.impulseAt V x) ∧
      ∀ format W U,
        Vec.dot (p.localVelocity W (x.turned Q).constraint)
            ((p.hessianBlockAt format V (x.turned Q)).mulVec
              (p.localVelocity U (x.turned Q).constraint)) =
          Vec.dot (p.localVelocity W x.constraint)
            ((p.hessianBlockAt format V x).mulVec (p.localVelocity U x.constraint)) := by
  have hc := mem_constraints_of_mem_loads hw hx
  obtain ⟨parameters, gap, hlaw⟩ := hfrictional _ hc
  have hlength := fun V => length_localVelocity_of_frictional hp hw hfrictional V hx
  have hvelocity : ∀ V, p.localVelocity V (x.turned Q).constraint =
      Vec.turned Q (p.localVelocity V x.constraint) := fun V =>
    localVelocity_turned hp hfrictional Q V hc
  obtain ⟨hcost, himpulse, hblock⟩ :=
    Load.contribution_turned hQ hlaw p.timeStep (hlength V)
  refine ⟨?_, ?_, ?_⟩
  · rw [costAt, hvelocity, hcost, costAt]
  · rw [impulseAt, hvelocity, himpulse, impulseAt]
  · intro format W U
    rw [hessianBlockAt, hvelocity, hvelocity, hvelocity, hblock format (hlength W) (hlength U),
      hessianBlockAt]

/-- A problem agrees with the turned one. -/
theorem agrees_turned
    (hQ : ∀ i, Q i ∈ Matrix.orthogonalGroup (Fin 2) ℝ) :
    p.Agrees (p.turned Q) w w where
  cliques := rfl
  cliquesPermutation := by
    rw [graph_turned]
  cost V := by
    refine congrArg List.sum (map_loads_turned fun i x hx => ?_)
    exact (contributionAt_turned hp hw hfrictional (hQ i) V hx).1
  impulse V W := by
    refine congrArg List.sum (map_loads_turned fun i x hx => ?_)
    have hc := mem_constraints_of_mem_loads hw hx
    change Vec.dot (p.localVelocity W (x.turned (Q i)).constraint)
      (p.impulseAt V (x.turned (Q i))) = _
    rw [(contributionAt_turned hp hw hfrictional (hQ i) V hx).2.1]
    change Vec.dot (p.localVelocity W (x.constraint.turned (Q i))) _ = _
    rw [localVelocity_turned hp hfrictional (Q i) W hc]
    exact Vec.dot_turned (hQ i) (length_localVelocity_of_frictional hp hw hfrictional W hx)
      (length_impulseAt_of_frictional hp hw hfrictional V hx)
  hessianBlock format V W U := by
    refine congrArg List.sum (map_loads_turned fun i x hx => ?_)
    exact (contributionAt_turned hp hw hfrictional (hQ i) V hx).2.2 format W U

end Contacts

end ContactProblem

end Loads

namespace ContactModel

open ContactProblem

variable {m m' : ContactModel ℝ} {p : ContactProblem ℝ} {Q : ℕ → Matrix (Fin 2) (Fin 2) ℝ}
variable {w : List ℝ}

namespace Describes

/-- The models of a problem and of the turned one have the same regularization. -/
theorem regularization_turned
    (d : m.Describes p w)
    (d' : m'.Describes (p.turned Q) w) :
    m'.bundle.regularization = m.bundle.regularization := by
  have horder : m'.bundle.constraintsPermutation = m.bundle.constraintsPermutation := by
    have heq := d'.order
    rw [graph_turned, d.order] at heq
    exact (Except.ok.inj heq).symm
  have hloads : ((p.turned Q).loads w).map (Load.regularization · p.timeStep) =
      (p.loads w).map (Load.regularization · p.timeStep) := by
    apply map_loads_turned
    intro i x hx
    rfl
  rw [d'.regularization, d.regularization, horder, List.flatMap_def, List.flatMap_def,
    ← PartialPermutation.gather_map, ← PartialPermutation.gather_map]
  exact congrArg (fun parts => (PartialPermutation.gather _ parts).flatten) hloads

/-- The impulses of the turned problem. -/
theorem flatMap_impulseAt_turned
    (d : m.Describes p w)
    (hfrictional : ∀ c ∈ p.constraints, ∃ parameters gap, c.law = .frictionCone parameters gap)
    (hQ : ∀ i, Q i ∈ Matrix.orthogonalGroup (Fin 2) ℝ)
    (V : List ℝ) :
    ((p.turned Q).loads w).flatMap ((p.turned Q).impulseAt V) =
      ((Vec.split p.equationCounts ((p.loads w).flatMap (p.impulseAt V))).mapIdx fun i =>
        Vec.turned (Q i)).flatten := by
  rw [d.split_impulses, List.flatMap_def, loads_turned]
  congr 1
  apply List.ext_getElem
  · simp
  · intro i h₁ h₂
    simp only [List.getElem_map, List.getElem_mapIdx]
    exact (contributionAt_turned d.wellFormed d.length_inertias hfrictional (hQ i) V
      (List.getElem_mem _)).2.1

end Describes

/-- A problem and the turned one are refused for the same reason, or both have a model. -/
theorem related_ofProblem_turned
    (hp : p.Reachable)
    (hfrictional : ∀ c ∈ p.constraints, ∃ parameters gap, c.law = .frictionCone parameters gap)
    (hQ : ∀ i, Q i ∈ Matrix.orthogonalGroup (Fin 2) ℝ) :
    Outcome.Related (fun m m' => ∃ w, m.Describes p w ∧ m'.Describes (p.turned Q) w)
      (ofProblem p).1 (ofProblem (p.turned Q)).1 := by
  have hp' := hp.turned Q hfrictional
  have hsame := delassusDiagonal_turned hp.wellFormed hfrictional hQ
  cases hdelassus : p.delassusDiagonal with
  | error e =>
      rw [ofProblem_eq_error_of_delassusDiagonal hp hdelassus,
        ofProblem_eq_error_of_delassusDiagonal hp' (hsame.trans hdelassus)]
      exact .error e
  | ok delassus =>
      obtain ⟨m, d, hm⟩ := ofProblem_eq_ite hp hdelassus
      obtain ⟨m', d', hm'⟩ := ofProblem_eq_ite hp' (hsame.trans hdelassus)
      rw [hm, hm', d.regularization_turned d']
      split_ifs
      · exact .error _
      · exact .ok ⟨_, d, d'⟩

/-- **The choice of tangential directions does not matter.**  If the tangential rows of each contact
are turned or reflected by an orthogonal matrix of its own, the inertias are the same, and the
problem is refused for the same reason, or has a model with the same inertias, regularization and
index maps.  At all velocities this model has the same cost, gradient and second derivative; the
tangential impulses of each contact are turned by its matrix. -/
theorem evaluation_turned
    (hp : p.Reachable)
    (hfrictional : ∀ c ∈ p.constraints, ∃ parameters gap, c.law = .frictionCone parameters gap)
    (hQ : ∀ i, Q i ∈ Matrix.orthogonalGroup (Fin 2) ℝ) :
    (p.turned Q).Reachable ∧
      (p.turned Q).delassusDiagonal = p.delassusDiagonal ∧
      (∀ e, (ofProblem p).1 = .error e → (ofProblem (p.turned Q)).1 = .error e) ∧
      ∀ m, (ofProblem p).1 = .ok m →
        ∃ m', (ofProblem (p.turned Q)).1 = .ok m' ∧
          m'.delassus = m.delassus ∧
          m'.bundle.regularization = m.bundle.regularization ∧
          m'.cliquesPermutation = m.cliquesPermutation ∧
          m'.velocitiesPermutation = m.velocitiesPermutation ∧
          ∀ v : Tensor ℝ, v.shape = [m.numVelocities] →
            ∀ withDerivatives, ∃ e e' H γ,
              m.evaluateTensor v withDerivatives = .ok e ∧
                m'.evaluateTensor v withDerivatives = .ok e' ∧
                e'.cost = e.cost ∧
                e'.gradient = e.gradient ∧
                m.hessianTensor v none = .ok H ∧
                m'.hessianTensor v none = .ok H ∧
                m.impulsesTensor v = .ok (Tensor.ofVec v.format γ) ∧
                m'.impulsesTensor v = .ok (Tensor.ofVec v.format
                  ((Vec.split p.equationCounts γ).mapIdx fun i =>
                    Vec.turned (Q i)).flatten) := by
  have hsame := delassusDiagonal_turned hp.wellFormed hfrictional hQ
  have hrelated := related_ofProblem_turned hp hfrictional hQ
  refine ⟨hp.turned Q hfrictional, hsame, ?_, ?_⟩
  · intro e he
    rw [he] at hrelated
    exact hrelated.eq_error
  · intro m hm
    rw [hm] at hrelated
    obtain ⟨m', hm', w, d, d'⟩ := hrelated.exists_ok
    have hagrees := agrees_turned d.wellFormed d.length_inertias hfrictional hQ
    obtain ⟨hcliques, hvelocities⟩ := hagrees.permutations_eq d d'
    have hdelassus : m'.delassus = m.delassus := by
      apply Except.ok.inj
      rw [← delassusDiagonal_of_ofProblem hm', hsame, delassusDiagonal_of_ofProblem hm]
    refine ⟨m', hm', hdelassus, d.regularization_turned d', hcliques, hvelocities, ?_⟩
    intro v hv withDerivatives
    obtain ⟨V, -, e, e', H, he, he', hcost, hgradient, hH, hH', hγ, hγ'⟩ :=
      hagrees.evaluation_eq d d' hv withDerivatives
    rw [d.flatMap_impulseAt_turned hfrictional hQ V] at hγ'
    exact ⟨e, e', H, _, he, he', hcost, hgradient, hH, hH', hγ, hγ'⟩

end ContactModel

end

section Slope

variable [Threshold]

namespace Stack

/-- The block of a body whose contact velocity is its velocity times `(s, t, n)`. -/
noncomputable def along (s t n : ℝ) : DenseMatrix ℝ :=
  DenseMatrix.tabulate .double 3 1 fun i _ => if i = 0 then s else if i = 1 then t else n

/-- The contact of the last body with the first one on a slope. -/
noncomputable def onSlope (s t : ℝ) : Constraint ℝ :=
  .contact (.ofMaterial 1 1 0) 0 2 (along s t 1) (some (0, along (-s) (-t) (-1)))

/-- The reflection whose first row is a direction. -/
def reflection (s t : ℝ) : Matrix (Fin 2) (Fin 2) ℝ :=
  !![s, t; t, -s]

omit [Threshold] in
theorem reflection_orthogonal
    {s t : ℝ}
    (h : s * s + t * t = 1) :
    reflection s t ∈ Matrix.orthogonalGroup (Fin 2) ℝ := by
  rw [Matrix.mem_orthogonalGroup_iff]
  ext i j
  rw [Matrix.mul_apply, Fin.sum_univ_two]
  fin_cases i <;> fin_cases j <;>
    simp [reflection, h, add_comm (t * t), mul_comm t s]

theorem fits_onSlope
    (s t : ℝ) :
    Fits (onSlope s t) := by
  refine ⟨2, along s t 1, _, rfl, ?_, ?_⟩
  · rintro side ⟨⟩
    exact Nat.zero_ne_add_one 1
  · rintro side (_ | ⟨_, _ | ⟨_, ⟨⟩⟩⟩)
    · exact ⟨Nat.lt_succ_self 2, DenseMatrix.numRows_tabulate _ _ _ _, rfl⟩
    · exact ⟨Nat.succ_pos 2, DenseMatrix.numRows_tabulate _ _ _ _, rfl⟩

theorem attached_onSlope
    (s t : ℝ) :
    ¬ (onSlope s t).Detached := by
  intro hdetached
  have hone := hdetached (2, along s t 1) List.mem_cons_self 1 (by
    simp [along, DenseMatrix.entries, DenseMatrix.tabulate, List.range_succ])
  exact one_ne_zero hone

end Stack

end Slope

namespace ContactModel

/-- A contact on a slope, seen in directions along and across the slope. -/
theorem evaluation_turned_onSlope :
    letI := Threshold.ofFormat .double
    let Q : ℕ → Matrix (Fin 2) (Fin 2) ℝ := fun _ => Stack.reflection (3 / 5) (4 / 5)
    (Stack.problem [Stack.onSlope 3 4]).Reachable ∧
      (∀ c ∈ (Stack.problem [Stack.onSlope 3 4]).constraints,
        ∃ parameters gap, c.law = .frictionCone parameters gap) ∧
      (∀ i, Q i ∈ Matrix.orthogonalGroup (Fin 2) ℝ) ∧
      ((Stack.problem [Stack.onSlope 3 4]).turned Q).delassusDiagonal =
        (Stack.problem [Stack.onSlope 3 4]).delassusDiagonal ∧
      ∃ m m' : ContactModel ℝ,
        (ofProblem (Stack.problem [Stack.onSlope 3 4])).1 = .ok m ∧
          (ofProblem ((Stack.problem [Stack.onSlope 3 4]).turned Q)).1 = .ok m' ∧
          m'.delassus = m.delassus ∧
          m'.bundle.regularization = m.bundle.regularization ∧
          ∃ e e' H γ,
            m.evaluateTensor (Tensor.ofVec .double [1, -2]) true = .ok e ∧
              m'.evaluateTensor (Tensor.ofVec .double [1, -2]) true = .ok e' ∧
              e'.cost = e.cost ∧
              e'.gradient = e.gradient ∧
              m.hessianTensor (Tensor.ofVec .double [1, -2]) none = .ok H ∧
              m'.hessianTensor (Tensor.ofVec .double [1, -2]) none = .ok H ∧
              m.impulsesTensor (Tensor.ofVec .double [1, -2]) = .ok (Tensor.ofVec .double γ) ∧
              m'.impulsesTensor (Tensor.ofVec .double [1, -2]) = .ok (Tensor.ofVec .double
                ((Vec.split (Stack.problem [Stack.onSlope 3 4]).equationCounts γ).mapIdx fun i =>
                  Vec.turned (Q i)).flatten) := by
  let _ := Threshold.ofFormat .double
  intro Q
  have hp : (Stack.problem [Stack.onSlope 3 4]).Reachable :=
    Stack.reachable_of_fits (by simp [Stack.fits_onSlope])
  have hfrictional : ∀ c ∈ (Stack.problem [Stack.onSlope 3 4]).constraints,
      ∃ parameters gap, c.law = .frictionCone parameters gap := by
    rw [Stack.constraints_problem]
    intro c hc
    rw [List.mem_singleton.1 hc]
    exact ⟨_, _, rfl⟩
  have hQ : ∀ i, Q i ∈ Matrix.orthogonalGroup (Fin 2) ℝ := fun _ =>
    Stack.reflection_orthogonal (by norm_num)
  obtain ⟨m, w, hm, d⟩ := exists_ofProblem_of_attached hp
    (fun c _ => Stack.definiteAt _ c) (by
      rw [Stack.constraints_problem]
      simp [Stack.attached_onSlope])
  have hv : (Tensor.ofVec .double [1, -2] : Tensor ℝ).shape = [m.numVelocities] := by
    rw [Tensor.shape_ofVec,
      d.numVelocities_of_order (q := ⟨3, [0, 2], by decide, by decide⟩) rfl]
    rfl
  obtain ⟨-, hdelassus, -, hmodels⟩ := evaluation_turned hp hfrictional hQ
  obtain ⟨m', hm', hinertias, hregularization, -, -, hevaluations⟩ := hmodels m hm
  exact ⟨hp, hfrictional, hQ, hdelassus, m, m', hm, hm', hinertias, hregularization,
    hevaluations _ hv true⟩

end ContactModel

end ConvexContact
