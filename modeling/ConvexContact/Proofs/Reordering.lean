import Mathlib
import ConvexContact.Proofs.Agreement
import ConvexContact.Proofs.Construction
import ConvexContact.Proofs.Roles

/-!
# The order of the constraints

A problem reorders another one if it has the same cliques and the same constraints in another
order, where each constraint may name its cliques in another order too (`Reorders`).

**Loads.**  The loads of the reordered problem mirror those of the original one, in the new order;
sums over all loads are therefore the same (`Reorders.sum_loads`).

**Result.**  Both problems have the same edges and the same index maps of cliques and velocities.
Their models agree in cost, gradient and second derivative, and the impulses differ by the order of
the constraints alone (`evaluation_reorders`).
-/

namespace ConvexContact

namespace ContactProblem

/-- The same cliques, and mirrored constraints in the order of a permutation. -/
structure Reorders {α : Type} (p q : ContactProblem α) (order : PartialPermutation) : Prop where
  timeStep : q.timeStep = p.timeStep
  cliques : q.cliques = p.cliques
  domainSize : order.domainSize = p.numConstraints
  isTotal : order.IsTotal
  constraints : List.Forall₂ Constraint.Mirrors (order.gather p.constraints) q.constraints

variable {p q : ContactProblem ℝ} {order : PartialPermutation} {w : List ℝ}

namespace Reorders

theorem numVelocities_eq
    (h : p.Reorders q order) :
    q.numVelocities = p.numVelocities := by
  rw [numVelocities, numVelocities, cliqueSizes, cliqueSizes, h.cliques]

section Sums

/-- The loads of the reordered problem mirror those of the original one. -/
theorem loads_mirror
    (h : p.Reorders q order)
    (hw : w.length = p.numConstraints) :
    List.Forall₂ Load.Mirrors (order.gather (p.loads w)) (q.loads (order.gather w)) := by
  have hzip : ∀ {cs cs' : List (Constraint ℝ)} (ws : List ℝ),
      List.Forall₂ Constraint.Mirrors cs cs' →
      List.Forall₂ Load.Mirrors (List.zipWith Load.mk cs ws) (List.zipWith Load.mk cs' ws) := by
    intro cs cs' ws hcs
    induction hcs generalizing ws with
    | nil =>
        exact List.Forall₂.nil
    | cons hc _ ih =>
        cases ws with
        | nil =>
            exact List.Forall₂.nil
        | cons w ws =>
            exact List.Forall₂.cons ⟨hc, rfl⟩ (ih ws)
  unfold loads
  rw [PartialPermutation.gather_zipWith Load.mk ((length_constraints p).trans h.domainSize.symm)
    (hw.trans h.domainSize.symm)]
  exact hzip _ h.constraints

/-- Every load of the reordered problem mirrors a load of the original one. -/
theorem exists_mirrored
    (h : p.Reorders q order)
    (hw : w.length = p.numConstraints)
    {x' : Load}
    (hx' : x' ∈ q.loads (order.gather w)) :
    ∃ x ∈ p.loads w, x.Mirrors x' := by
  have hmirror := h.loads_mirror hw
  obtain ⟨i, hi, rfl⟩ := List.mem_iff_getElem.1 hx'
  have hi' : i < (order.gather (p.loads w)).length := by
    rw [hmirror.length_eq]
    exact hi
  exact ⟨_, PartialPermutation.mem_of_mem_gather (List.getElem_mem hi'), hmirror.get hi' hi⟩

/-- Sums over all loads do not depend on the order. -/
theorem sum_loads
    (h : p.Reorders q order)
    (hw : w.length = p.numConstraints)
    {f g : Load → ℝ}
    (hfg : ∀ x x', x.Mirrors x' → g x' = f x) :
    ((q.loads (order.gather w)).map g).sum = ((p.loads w).map f).sum := by
  have hperm : (order.gather (p.loads w)).Perm (p.loads w) :=
    h.isTotal.gather_perm ((length_loads hw).trans h.domainSize.symm)
  rw [map_eq_of_forall₂ (h.loads_mirror hw) hfg]
  exact (hperm.map f).sum_eq

end Sums

variable [Threshold]

section Graph

/-- The edges do not depend on the order. -/
theorem edges_eq
    (h : p.Reorders q order)
    (hp : p.WellFormed)
    (hq : q.WellFormed) :
    q.graph.edges.map Edge.cliques = p.graph.edges.map Edge.cliques ∧
      q.graph.edges.map Edge.equations = p.graph.edges.map Edge.equations := by
  have hmirrored :
      (q.constraints.map memberOf).map (fun m => (m.pair, m.equations)) =
        ((order.gather p.constraints).map memberOf).map fun m => (m.pair, m.equations) := by
    rw [List.map_map, List.map_map]
    exact map_eq_of_forall₂ h.constraints fun c c' hc => hc.member_eq
  have hperm : (order.gather p.constraints).Perm p.constraints :=
    h.isTotal.gather_perm ((length_constraints p).trans h.domainSize.symm)
  apply hq.collects.equations_eq_of_perm hp.collects
  rw [hmirrored]
  exact (hperm.map memberOf).map _

theorem cliquesPermutation_eq
    (h : p.Reorders q order)
    (hp : p.WellFormed)
    (hq : q.WellFormed) :
    q.graph.cliquesPermutation = p.graph.cliquesPermutation := by
  apply ContactGraph.cliquesPermutation_eq _ (h.edges_eq hp hq).1
  rw [hp.graph_eq, hq.graph_eq]
  change q.numCliques = p.numCliques
  rw [numCliques, numCliques, h.cliques]

end Graph

section Loads

theorem localVelocity_eq
    (h : p.Reorders q order)
    (V : List ℝ) (c : Constraint ℝ) :
    q.localVelocity V c = p.localVelocity V c := by
  unfold localVelocity sideVelocity cliquePart cliqueSizes
  rw [h.cliques]

theorem meanInertia_eq
    (h : p.Reorders q order)
    (c : Constraint ℝ) :
    q.meanInertia c = p.meanInertia c := by
  unfold meanInertia constraintInertia sideInertia
  rw [h.cliques]

/-- The inertias of the reordered problem. -/
theorem delassusDiagonal_eq
    (h : p.Reorders q order)
    (hp : p.WellFormed)
    {delassus : Tensor ℝ}
    (hdelassus : p.delassusDiagonal = .ok delassus) :
    ∃ delassus', q.delassusDiagonal = .ok delassus' ∧
      delassus'.entries = order.gather delassus.entries := by
  rw [delassusDiagonal_eq_mapM, Outcome.map_eq_ok] at hdelassus
  obtain ⟨results, hresults, rfl⟩ := hdelassus
  obtain ⟨hknown, rfl⟩ := Outcome.eq_map_of_mapM_eq_ok (.single, (0 : ℝ)) hresults
  set inertia := fun c => Outcome.getD (p.meanInertia c) (.single, (0 : ℝ)) with hinertia
  have hmem : List.Forall₂ (fun c c' => c ∈ p.constraints ∧ c.Mirrors c')
      (order.gather p.constraints) q.constraints :=
    (List.forall₂_and_left _ _).2 ⟨fun _ => PartialPermutation.mem_of_mem_gather, h.constraints⟩
  have hresults' : q.constraints.mapM q.meanInertia =
      .ok ((order.gather p.constraints).map inertia) := by
    rw [Outcome.mapM_eq_ok, List.forall₂_map_right_iff]
    apply List.Forall₂.flip
    apply hmem.imp
    rintro c c' ⟨hc, hmirrors⟩
    change q.meanInertia c' = _
    rw [h.meanInertia_eq]
    exact meanInertia_of_mirrors (hp.proper c hc) hmirrors (hknown c hc)
  refine ⟨_, by rw [delassusDiagonal_eq_mapM, hresults']; rfl, ?_⟩
  rw [Tensor.entries_ofVec, Tensor.entries_ofVec, List.map_map, List.map_map,
    PartialPermutation.gather_map]

variable {x x' : Load}

theorem localVelocity_of_mirrors
    (h : p.Reorders q order)
    (hx : x.Mirrors x')
    (V : List ℝ) :
    q.localVelocity V x'.constraint = p.localVelocity V x.constraint := by
  rw [h.localVelocity_eq, ContactProblem.localVelocity_of_mirrors hx.constraint]

theorem impulseAt_of_mirrors
    (h : p.Reorders q order)
    (hx : x.Mirrors x')
    (V : List ℝ) :
    q.impulseAt V x' = p.impulseAt V x := by
  rw [impulseAt, impulseAt, h.localVelocity_of_mirrors hx, h.timeStep, hx.impulse_eq]

theorem costAt_of_mirrors
    (h : p.Reorders q order)
    (hx : x.Mirrors x')
    (V : List ℝ) :
    q.costAt V x' = p.costAt V x := by
  rw [costAt, costAt, h.localVelocity_of_mirrors hx, h.timeStep, hx.cost_eq]

theorem hessianBlockAt_of_mirrors
    (h : p.Reorders q order)
    (hx : x.Mirrors x')
    (format : Format) (V : List ℝ) :
    q.hessianBlockAt format V x' = p.hessianBlockAt format V x := by
  rw [hessianBlockAt, hessianBlockAt, h.localVelocity_of_mirrors hx, h.timeStep,
    hx.hessianBlock_eq]

/-- Reordered problems agree. -/
theorem agrees
    (h : p.Reorders q order)
    (hp : p.WellFormed)
    (hq : q.WellFormed)
    (hw : w.length = p.numConstraints) :
    p.Agrees q w (order.gather w) where
  cliques := h.cliques
  cliquesPermutation := h.cliquesPermutation_eq hp hq
  cost V := h.sum_loads hw fun _ _ hmirrors => h.costAt_of_mirrors hmirrors V
  impulse V W := h.sum_loads hw fun _ _ hmirrors => by
    rw [h.localVelocity_of_mirrors hmirrors, h.impulseAt_of_mirrors hmirrors]
  hessianBlock format V W U := h.sum_loads hw fun _ _ hmirrors => by
    rw [h.localVelocity_of_mirrors hmirrors, h.localVelocity_of_mirrors hmirrors,
      h.hessianBlockAt_of_mirrors hmirrors]

end Loads

end Reorders
end ContactProblem

namespace ContactModel

open ContactProblem

variable [Threshold]
variable {m m' : ContactModel ℝ} {p q : ContactProblem ℝ} {order : PartialPermutation}
variable {w V : List ℝ}

namespace Describes

section Reordered

variable (h : p.Reorders q order) (d : m.Describes p w) (d' : m'.Describes q (order.gather w))
include h d d'

/-- Models of reordered problems have the same index maps of cliques and velocities. -/
theorem permutations_eq :
    m'.cliquesPermutation = m.cliquesPermutation ∧
      m'.velocitiesPermutation = m.velocitiesPermutation :=
  (h.agrees d.wellFormed d'.wellFormed d.length_inertias).permutations_eq d d'

/-- In one format, the models hold the same dynamics matrices. -/
theorem cast_dynamics_eq
    (format : Format) :
    (m'.cast format).dynamics = (m.cast format).dynamics :=
  (h.agrees d.wellFormed d'.wellFormed d.length_inertias).cast_dynamics_eq d d' format

/-- The momentum does not depend on the order. -/
theorem momentum_eq
    (x : List ℝ) :
    m'.momentumGain x = m.momentumGain x ∧ m'.momentumCost x = m.momentumCost x :=
  (h.agrees d.wellFormed d'.wellFormed d.length_inertias).momentum_eq d d' x

/-- Generalized impulses do not depend on the order. -/
theorem transposeMulVec_eq
    (V : List ℝ) :
    m'.bundle.jacobian.transposeMulVec
        ((m'.edgeLoads q (order.gather w)).flatMap (q.impulseAt V)) =
      m.bundle.jacobian.transposeMulVec ((m.edgeLoads p w).flatMap (p.impulseAt V)) :=
  (h.agrees d.wellFormed d'.wellFormed d.length_inertias).transposeMulVec_eq d d' V

/-- The second derivative does not depend on the order. -/
theorem hessianOf_eq
    (hformat : m'.bundle.format = m.bundle.format)
    (hdynamics : m'.dynamics = m.dynamics)
    (format : Format) (V : List ℝ) :
    m'.hessianOf ((m'.edgeLoads q (order.gather w)).map (q.derivativeAt format V)) =
      m.hessianOf ((m.edgeLoads p w).map (p.derivativeAt format V)) :=
  (h.agrees d.wellFormed d'.wellFormed d.length_inertias).hessianOf_eq d d' hformat hdynamics
    format V

end Reordered

/-- The impulses follow the order of the constraints. -/
theorem flatMap_impulseAt_eq
    (h : p.Reorders q order)
    (d : m.Describes p w)
    (V : List ℝ) :
    (q.loads (order.gather w)).flatMap (q.impulseAt V) =
      (order.gather
        (Vec.split p.equationCounts ((p.loads w).flatMap (p.impulseAt V)))).flatten := by
  have hmirrored : (q.loads (order.gather w)).map (q.impulseAt V) =
      (order.gather (p.loads w)).map (p.impulseAt V) :=
    map_eq_of_forall₂ (h.loads_mirror d.length_inertias)
      fun _ _ hmirrors => h.impulseAt_of_mirrors hmirrors V
  rw [d.split_impulses, List.flatMap_def, hmirrored, PartialPermutation.gather_map]

end Describes

/-- A reordered problem has a model if the original one has. -/
theorem exists_ofProblem_of_reorders
    (hp : p.Reachable)
    (hq : q.Reachable)
    (h : p.Reorders q order)
    (hm : (ofProblem p).1 = .ok m) :
    ∃ delassus m', p.delassusDiagonal = .ok delassus ∧ m.Describes p delassus.entries ∧
      (ofProblem q).1 = .ok m' ∧ m'.Describes q (order.gather delassus.entries) := by
  obtain ⟨delassus, hdelassus, d, hpositive⟩ := describes_of_ofProblem hp hm
  obtain ⟨delassus', hdelassus', hentries⟩ := h.delassusDiagonal_eq hp.wellFormed hdelassus
  obtain ⟨m', hm', d'⟩ := exists_ofProblem hq hdelassus' (by
    intro x' hx' r hr
    rw [hentries] at hx'
    obtain ⟨x, hx, hmirrors⟩ := h.exists_mirrored d.length_inertias hx'
    apply hpositive
    rw [h.timeStep, hmirrors.regularization_eq] at hr
    rw [d.regularization]
    exact List.mem_flatMap.2 ⟨x, d.perm_edgeLoads.mem_iff.2 hx, hr⟩)
  rw [hentries] at d'
  exact ⟨delassus, m', hdelassus, d, hm', d'⟩

/-- **Insertion order and clique roles do not matter.**  If a problem has the cliques of another
one and its constraints in another order, where the sides of each constraint may be swapped, both
graphs have the same edges with the same numbers of equations.  If one of them has a model, so has
the other; the models select the same cliques and velocities and agree in cost, gradient and second
derivative at all velocities, and the impulses of the constraints follow the order. -/
theorem evaluation_reorders
    {p q : ContactProblem ℝ} (hp : p.Reachable) (hq : q.Reachable)
    {order : PartialPermutation} (h : p.Reorders q order) :
    q.graph.edges.map Edge.cliques = p.graph.edges.map Edge.cliques ∧
      q.graph.edges.map Edge.equations = p.graph.edges.map Edge.equations ∧
      ∀ m, (ofProblem p).1 = .ok m →
        ∃ m', (ofProblem q).1 = .ok m' ∧
          m'.cliquesPermutation = m.cliquesPermutation ∧
          m'.velocitiesPermutation = m.velocitiesPermutation ∧
          ∀ v : Tensor ℝ, v.shape = [m.numVelocities] →
            ∀ withDerivatives, ∃ e e' H γ γ',
              m.evaluateTensor v withDerivatives = .ok e ∧
                m'.evaluateTensor v withDerivatives = .ok e' ∧
                m.hessianTensor v none = .ok H ∧
                m'.hessianTensor v none = .ok H ∧
                m.impulsesTensor v = .ok γ ∧
                m'.impulsesTensor v = .ok γ' ∧
                e'.cost = e.cost ∧
                e'.gradient = e.gradient ∧
                γ'.entries =
                  (order.gather (Vec.split p.equationCounts γ.entries)).flatten := by
  obtain ⟨hcliques, hequations⟩ := h.edges_eq hp.wellFormed hq.wellFormed
  refine ⟨hcliques, hequations, ?_⟩
  intro m hm
  obtain ⟨delassus, m', -, d, hm', d'⟩ := exists_ofProblem_of_reorders hp hq h hm
  set w := delassus.entries with hw
  obtain ⟨hclique, hvelocities⟩ := Describes.permutations_eq h d d'
  refine ⟨m', hm', hclique, hvelocities, ?_⟩
  intro v hv withDerivatives
  have hv' : v.shape = [m'.numVelocities] := by
    rw [hv, numVelocities, numVelocities, hvelocities]
  obtain ⟨V, hV, hgather⟩ := d.exists_gather (Tensor.length_entries_of_shape hv)
  have hV' : V.length = q.numVelocities :=
    hV.trans h.numVelocities_eq.symm
  have hgather' : m'.velocitiesPermutation.gather V = v.entries := by
    rw [hvelocities, hgather]
  have hevaluate := d.evaluateTensor_eq hv hV hgather withDerivatives
  have hevaluate' := d'.evaluateTensor_eq hv' hV' hgather' withDerivatives
  refine ⟨_, _, _, _, _, hevaluate, hevaluate', d.hessianTensor_eq hv hV hgather, ?_,
    d.impulsesTensor_eq hv hV hgather, d'.impulsesTensor_eq hv' hV' hgather', ?_, ?_, ?_⟩
  · rw [d'.hessianTensor_eq hv' hV' hgather']
    congr 1
    exact Describes.hessianOf_eq h (d.cast v.format) (d'.cast v.format) rfl
      (Describes.cast_dynamics_eq h d d' v.format) v.format V
  · change (m'.cast v.format).momentumCost v.entries + _ =
      (m.cast v.format).momentumCost v.entries + _
    rw [(Describes.momentum_eq h (d.cast v.format) (d'.cast v.format) v.entries).2,
      h.sum_loads d.length_inertias fun x x' hmirrors => h.costAt_of_mirrors hmirrors V]
  · dsimp only
    rw [(Describes.momentum_eq h (d.cast v.format) (d'.cast v.format) v.entries).1]
    exact congrArg _ (Describes.transposeMulVec_eq h (d.cast v.format) (d'.cast v.format) V)
  · rw [Tensor.entries_ofVec, Tensor.entries_ofVec]
    exact Describes.flatMap_impulseAt_eq h d V

end ContactModel

namespace ContactModel

/-- A stack of bodies whose contacts are added the other way round, one of them with its bodies
swapped. -/
theorem evaluation_reorders_stack :
    letI := Threshold.ofFormat .double
    let order : PartialPermutation := ⟨2, [1, 0], by decide, by decide⟩
    (Stack.problem [Stack.onGround, Stack.onBody]).Reachable ∧
      (Stack.problem [Stack.underBody, Stack.onGround]).Reachable ∧
      (Stack.problem [Stack.onGround, Stack.onBody]).Reorders
        (Stack.problem [Stack.underBody, Stack.onGround]) order ∧
      (Stack.problem [Stack.underBody, Stack.onGround]).graph.edges.map Edge.cliques =
        (Stack.problem [Stack.onGround, Stack.onBody]).graph.edges.map Edge.cliques ∧
      (Stack.problem [Stack.underBody, Stack.onGround]).graph.edges.map Edge.equations =
        (Stack.problem [Stack.onGround, Stack.onBody]).graph.edges.map Edge.equations ∧
      ∃ m m' : ContactModel ℝ,
        (ofProblem (Stack.problem [Stack.onGround, Stack.onBody])).1 = .ok m ∧
          (ofProblem (Stack.problem [Stack.underBody, Stack.onGround])).1 = .ok m' ∧
          m'.cliquesPermutation = m.cliquesPermutation ∧
          m'.velocitiesPermutation = m.velocitiesPermutation ∧
          ∃ e e' H γ γ',
            m.evaluateTensor (Tensor.ofVec .double [1, -2]) true = .ok e ∧
              m'.evaluateTensor (Tensor.ofVec .double [1, -2]) true = .ok e' ∧
              m.hessianTensor (Tensor.ofVec .double [1, -2]) none = .ok H ∧
              m'.hessianTensor (Tensor.ofVec .double [1, -2]) none = .ok H ∧
              m.impulsesTensor (Tensor.ofVec .double [1, -2]) = .ok γ ∧
              m'.impulsesTensor (Tensor.ofVec .double [1, -2]) = .ok γ' ∧
              e'.cost = e.cost ∧
              e'.gradient = e.gradient ∧
              γ'.entries = (order.gather (Vec.split
                (Stack.problem [Stack.onGround, Stack.onBody]).equationCounts
                γ.entries)).flatten := by
  let _ := Threshold.ofFormat .double
  intro order
  have hacts : ∀ c ∈ [Stack.onGround, Stack.onBody], Stack.Acts c := by
    simp [Stack.acts_onGround, Stack.acts_onBody]
  have hp := Stack.reachable hacts
  have hq : (Stack.problem [Stack.underBody, Stack.onGround]).Reachable :=
    Stack.reachable (by simp [Stack.acts_onGround, Stack.acts_underBody])
  have h : (Stack.problem [Stack.onGround, Stack.onBody]).Reorders
      (Stack.problem [Stack.underBody, Stack.onGround]) order := by
    refine
      { timeStep := rfl
        cliques := rfl
        domainSize := rfl
        isTotal := ?_
        constraints := ?_ }
    · exact List.Perm.swap 0 1 []
    · change List.Forall₂ _ [Stack.onBody, Stack.onGround] [Stack.underBody, Stack.onGround]
      refine List.Forall₂.cons ?_ (List.Forall₂.cons ?_ List.Forall₂.nil)
      · exact ⟨rfl, rfl, List.Perm.swap _ _ _⟩
      · exact ⟨rfl, rfl, List.Perm.refl _⟩
  obtain ⟨m, w, hm, d⟩ := Stack.exists_model hacts
  have hv : (Tensor.ofVec .double [1, -2] : Tensor ℝ).shape = [m.numVelocities] := by
    rw [Tensor.shape_ofVec, Stack.numVelocities_eq d]
    rfl
  obtain ⟨hcliques, hequations, hmodels⟩ := evaluation_reorders hp hq h
  obtain ⟨m', hm', hclique, hvelocities, hevaluations⟩ := hmodels m hm
  exact ⟨hp, hq, h, hcliques, hequations, m, m', hm, hm', hclique, hvelocities,
    hevaluations _ hv true⟩

end ContactModel

end ConvexContact
