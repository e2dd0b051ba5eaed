import Mathlib
import ConvexContact.Proofs.Hessian

/-!
# Problems that are evaluated alike

The evaluation of a model depends on its cliques and, through three sums, on its loads.  Two
problems agree if they have the same cliques, select the same ones of them, and if these sums over
their loads are equal: the costs, the work of the impulses, and the second derivatives as bilinear
forms (`ContactProblem.Agrees`).  How many loads there are and how each of them looks is left open.

**Result.**  Models of problems that agree have the same index maps of cliques and velocities, and
the same cost, gradient and second derivative at all velocities (`Agrees.evaluation_eq`).
-/

namespace ConvexContact

variable [Threshold]

/-- The same cliques, and loads that contribute alike at all velocities. -/
structure ContactProblem.Agrees (p q : ContactProblem ℝ) (w w' : List ℝ) : Prop where
  cliques : q.cliques = p.cliques
  cliquesPermutation : q.graph.cliquesPermutation = p.graph.cliquesPermutation
  cost : ∀ V, ((q.loads w').map (q.costAt V)).sum = ((p.loads w).map (p.costAt V)).sum
  impulse : ∀ V W,
    ((q.loads w').map fun x => Vec.dot (q.localVelocity W x.constraint) (q.impulseAt V x)).sum =
      ((p.loads w).map fun x => Vec.dot (p.localVelocity W x.constraint) (p.impulseAt V x)).sum
  hessianBlock : ∀ format V W U,
    ((q.loads w').map fun x => Vec.dot (q.localVelocity W x.constraint)
        ((q.hessianBlockAt format V x).mulVec (q.localVelocity U x.constraint))).sum =
      ((p.loads w).map fun x => Vec.dot (p.localVelocity W x.constraint)
        ((p.hessianBlockAt format V x).mulVec (p.localVelocity U x.constraint))).sum

namespace ContactProblem.Agrees

open ContactModel

variable {m m' : ContactModel ℝ} {p q : ContactProblem ℝ} {w w' : List ℝ}

theorem numVelocities_eq
    (h : p.Agrees q w w') :
    q.numVelocities = p.numVelocities := by
  rw [numVelocities, numVelocities, cliqueSizes, cliqueSizes, h.cliques]

section Models

variable (h : p.Agrees q w w') (d : m.Describes p w) (d' : m'.Describes q w')
include h d d'

/-- The models have the same index maps of cliques and velocities. -/
theorem permutations_eq :
    m'.cliquesPermutation = m.cliquesPermutation ∧
      m'.velocitiesPermutation = m.velocitiesPermutation := by
  have hcliques : m'.cliquesPermutation = m.cliquesPermutation := by
    have heq := h.cliquesPermutation
    rw [d.cliques, d'.cliques] at heq
    exact Except.ok.inj heq
  refine ⟨hcliques, ?_⟩
  have hexpands := d'.velocities
  rw [hcliques, cliqueSizes, h.cliques] at hexpands
  exact hexpands.unique d.velocities

theorem dynamicsTimes_eq
    (x : List ℝ) :
    m'.dynamicsTimes x = m.dynamicsTimes x := by
  rw [d.dynamicsTimes_eq, d'.dynamicsTimes_eq, (permutations_eq h d d').1, h.cliques]

theorem freeVelocity_eq :
    m'.freeVelocity = m.freeVelocity := by
  rw [d.freeVelocity, d'.freeVelocity, (permutations_eq h d d').2, ContactProblem.freeVelocity,
    ContactProblem.freeVelocity, h.cliques]

/-- In one format, the models hold the same dynamics matrices. -/
theorem cast_dynamics_eq
    (format : Format) :
    (m'.cast format).dynamics = (m.cast format).dynamics := by
  have hcast : ∀ As : List (DenseMatrix ℝ), As.map (DenseMatrix.cast format) =
      (As.map (DenseMatrix.cast .double)).map (DenseMatrix.cast format) := by
    intro As
    rw [List.map_map]
    exact List.map_congr_left fun A _ => (DenseMatrix.cast_cast .double format A).symm
  change m'.dynamics.map (DenseMatrix.cast format) = m.dynamics.map (DenseMatrix.cast format)
  rw [hcast m'.dynamics, hcast m.dynamics, d.dynamics_eq, d'.dynamics_eq,
    (permutations_eq h d d').1, h.cliques]

/-- The models have the same momentum. -/
theorem momentum_eq
    (x : List ℝ) :
    m'.momentumGain x = m.momentumGain x ∧ m'.momentumCost x = m.momentumCost x := by
  have hgain : m'.momentumGain x = m.momentumGain x := by
    unfold momentumGain
    rw [freeVelocity_eq h d d', dynamicsTimes_eq h d d']
  refine ⟨hgain, ?_⟩
  unfold momentumCost
  rw [hgain, freeVelocity_eq h d d']

/-- The models have the same generalized impulses. -/
theorem transposeMulVec_eq
    (V : List ℝ) :
    m'.bundle.jacobian.transposeMulVec ((m'.edgeLoads q w').flatMap (q.impulseAt V)) =
      m.bundle.jacobian.transposeMulVec ((m.edgeLoads p w).flatMap (p.impulseAt V)) := by
  obtain ⟨-, hvelocities⟩ := permutations_eq h d d'
  apply Vec.eq_of_dot_eq (n := m.velocitiesPermutation.permutedSize)
  · rw [d'.regular_jacobian.length_transposeMulVec, d'.numCols_jacobian, hvelocities]
  · rw [d.regular_jacobian.length_transposeMulVec, d.numCols_jacobian]
  · intro x hx
    obtain ⟨W, hW, rfl⟩ := d.exists_gather hx
    rw [d.dot_transposeMulVec (fun x hx => d.length_impulseAt hx) hW, ← hvelocities,
      d'.dot_transposeMulVec (fun x hx => d'.length_impulseAt hx)
        (hW.trans h.numVelocities_eq.symm)]
    exact h.impulse V W

/-- The models have the same second derivative. -/
theorem hessianOf_eq
    (hformat : m'.bundle.format = m.bundle.format)
    (hdynamics : m'.dynamics = m.dynamics)
    (format : Format) (V : List ℝ) :
    m'.hessianOf ((m'.edgeLoads q w').map (q.derivativeAt format V)) =
      m.hessianOf ((m.edgeLoads p w).map (p.derivativeAt format V)) := by
  obtain ⟨-, hvelocities⟩ := permutations_eq h d d'
  obtain ⟨hrows, hcols⟩ := d.shape_hessianOf ((m.edgeLoads p w).map (p.derivativeAt format V))
  obtain ⟨hrows', hcols'⟩ :=
    d'.shape_hessianOf ((m'.edgeLoads q w').map (q.derivativeAt format V))
  apply DenseMatrix.eq_of_dot_mulVec_eq
  · rw [format_hessianOf, format_hessianOf, hformat, hdynamics]
  · rw [hrows', hrows, hvelocities]
  · rw [hcols', hcols, hvelocities]
  · intro x y hx hy
    rw [hrows', hvelocities] at hx
    rw [hcols', hvelocities] at hy
    obtain ⟨W, hW, rfl⟩ := d.exists_gather hx
    obtain ⟨U, hU, rfl⟩ := d.exists_gather hy
    rw [d.dot_mulVec_hessianOf format hW hU, ← hvelocities,
      d'.dot_mulVec_hessianOf format (hW.trans h.numVelocities_eq.symm)
        (hU.trans h.numVelocities_eq.symm), hvelocities, dynamicsTimes_eq h d d',
      h.hessianBlock format V W U]

/-- **Models of problems that agree are evaluated alike**, and each of them gives the impulses of
the loads of its problem. -/
theorem evaluation_eq
    {v : Tensor ℝ}
    (hv : v.shape = [m.numVelocities])
    (withDerivatives : Bool) :
    ∃ V : List ℝ, V.length = p.numVelocities ∧
      ∃ e e' H, m.evaluateTensor v withDerivatives = .ok e ∧
        m'.evaluateTensor v withDerivatives = .ok e' ∧
        e'.cost = e.cost ∧
        e'.gradient = e.gradient ∧
        m.hessianTensor v none = .ok H ∧
        m'.hessianTensor v none = .ok H ∧
        m.impulsesTensor v = .ok (Tensor.ofVec v.format ((p.loads w).flatMap (p.impulseAt V))) ∧
        m'.impulsesTensor v =
          .ok (Tensor.ofVec v.format ((q.loads w').flatMap (q.impulseAt V))) := by
  obtain ⟨-, hvelocities⟩ := permutations_eq h d d'
  have hv' : v.shape = [m'.numVelocities] := by
    rw [hv, ContactModel.numVelocities, ContactModel.numVelocities, hvelocities]
  obtain ⟨V, hV, hgather⟩ := d.exists_gather (Tensor.length_entries_of_shape hv)
  have hV' : V.length = q.numVelocities :=
    hV.trans h.numVelocities_eq.symm
  have hgather' : m'.velocitiesPermutation.gather V = v.entries := by
    rw [hvelocities, hgather]
  have dcast := d.cast v.format
  have dcast' := d'.cast v.format
  refine ⟨V, hV, _, _, _, d.evaluateTensor_eq hv hV hgather withDerivatives,
    d'.evaluateTensor_eq hv' hV' hgather' withDerivatives, ?_, ?_,
    d.hessianTensor_eq hv hV hgather, ?_, d.impulsesTensor_eq hv hV hgather,
    d'.impulsesTensor_eq hv' hV' hgather'⟩
  · change (m'.cast v.format).momentumCost v.entries + _ =
      (m.cast v.format).momentumCost v.entries + _
    rw [(momentum_eq h dcast dcast' v.entries).2, h.cost V]
  · dsimp only
    rw [(momentum_eq h dcast dcast' v.entries).1]
    exact congrArg _ (transposeMulVec_eq h dcast dcast' V)
  · rw [d'.hessianTensor_eq hv' hV' hgather']
    exact congrArg Except.ok
      (hessianOf_eq h dcast dcast' rfl (cast_dynamics_eq h d d' v.format) v.format V)

end Models

end ContactProblem.Agrees
end ConvexContact
