import Mathlib
import ConvexContact.Proofs.Impact

/-!
# Momentum along unconstrained directions

**Steps.**  In a direction that no constraint feels, the second derivative is that of the dynamics
alone, and the gradient is the momentum gained since the free motion.  A step of length `α`
therefore takes the part `α` of that momentum away.

**Runs.**  A run from the free motion has gained no momentum in such a direction, and no step of it
gains any, by induction on the chain of its steps.

**Result.**  `ContactModel.newton_keeps_momentum`: momentum in directions that no constraint feels,
for any model, and the total momentum of two bodies that collide.
-/

namespace ConvexContact

section Momentum

variable [Threshold]

namespace ContactModel

/-- A direction of the participating velocities that no constraint feels. -/
structure Unfelt (m : ContactModel ℝ) (u : List ℝ) : Prop where
  length_eq : u.length = m.numVelocities
  mulVec_eq_zero : ∀ a ∈ m.bundle.jacobian.mulVec u, a = 0

variable {m : ContactModel ℝ} {p : ContactProblem ℝ} {w u v : List ℝ} {s : Descent}

theorem Unfelt.cast
    (hu : m.Unfelt u)
    (format : Format) :
    (m.cast format).Unfelt u where
  length_eq := hu.length_eq
  mulVec_eq_zero := by
    change ∀ a ∈ (m.bundle.jacobian.cast format).mulVec u, a = 0
    rw [BlockSparseMatrix.mulVec_cast]
    exact hu.mulVec_eq_zero

namespace Describes

/-- Velocities of all cliques whose participating part no constraint feels move no constraint. -/
theorem exists_unfelt
    (d : m.Describes p w)
    (hu : m.Unfelt u) :
    ∃ U, U.length = p.numVelocities ∧ m.velocitiesPermutation.gather U = u ∧
      ∀ x ∈ p.loads w, ∀ a ∈ p.localVelocity U x.constraint, a = 0 := by
  obtain ⟨U, hU, rfl⟩ := d.exists_gather hu.length_eq
  refine ⟨U, hU, rfl, ?_⟩
  intro x hx a ha
  apply hu.mulVec_eq_zero
  rw [d.mulVec_jacobian hU]
  exact List.mem_flatMap.2 ⟨x, d.perm_edgeLoads.mem_iff.2 hx, ha⟩

/-- Velocities that move no constraint do no work on impulses of the constraints. -/
theorem sum_dot_localVelocity_eq_zero
    {U : List ℝ}
    (h : ∀ x ∈ p.loads w, ∀ a ∈ p.localVelocity U x.constraint, a = 0)
    (f : Load → List ℝ) :
    ((p.loads w).map fun x => Vec.dot (p.localVelocity U x.constraint) (f x)).sum = 0 := by
  apply List.sum_eq_zero
  intro a ha
  obtain ⟨x, hx, rfl⟩ := List.mem_map.1 ha
  exact Vec.dot_eq_zero_of_forall (h x hx) _

/-- Along an unfelt direction the constraints do not contribute to the gradient. -/
theorem dot_gradientAt
    (d : m.Describes p w)
    (hu : m.Unfelt u)
    (hv : v.length = m.numVelocities) :
    Vec.dot u (m.gradientAt v) = Vec.dot u (m.momentumGain v) := by
  obtain ⟨U, hU, rfl, hrest⟩ := d.exists_unfelt hu
  obtain ⟨V, hV, rfl⟩ := d.exists_gather hv
  have himpulses := d.dot_transposeMulVec (f := p.impulseAt V)
    (fun x hx => d.length_impulseAt hx) hU
  rw [gradientAt, d.evaluate_eq hV]
  dsimp only
  rw [Vec.dot_sub_right, himpulses, sum_dot_localVelocity_eq_zero hrest, sub_zero]
  rw [momentumGain, d.length_dynamicsTimes, d.regular_jacobian.length_transposeMulVec,
    d.numCols_jacobian]

/-- Along an unfelt direction the constraints do not contribute to the second derivative. -/
theorem dot_mulVec_hessian
    (d : m.Describes p w)
    (hu : m.Unfelt u)
    (hv : v.length = m.numVelocities)
    {z : List ℝ} (hz : z.length = m.numVelocities)
    {H : DenseMatrix ℝ} (hH : m.hessian v none = .ok H) :
    Vec.dot u (H.mulVec z) = Vec.dot u (m.dynamicsTimes z) := by
  obtain ⟨U, hU, rfl, hrest⟩ := d.exists_unfelt hu
  obtain ⟨Z, hZ, rfl⟩ := d.exists_gather hz
  obtain ⟨V, -, -, hhessian, -⟩ := d.hessian_eq hv
  cases hhessian.symm.trans hH
  rw [d.dot_mulVec_hessianOf m.bundle.format hU hZ, sum_dot_localVelocity_eq_zero hrest, add_zero]

/-- The dynamics act linearly: in an inner product they can be moved to the other side. -/
theorem exists_dot_dynamicsTimes
    (d : m.Describes p w)
    (hu : u.length = m.numVelocities) :
    ∃ a : List ℝ, ∀ x : List ℝ, x.length = m.numVelocities →
      Vec.dot u (m.dynamicsTimes x) = Vec.dot a x := by
  obtain ⟨hrows, hcols⟩ := d.map_size_gathered
  refine ⟨DenseMatrix.diagonalTimes
    ((m.cliquesPermutation.gather (p.cliques.map (·.dynamics))).map DenseMatrix.transpose) u, ?_⟩
  intro x hx
  rw [d.dynamicsTimes_eq, DenseMatrix.dot_diagonalTimes]
  · rw [hrows, ← d.velocities.permutedSize_eq]
    exact hu
  · rw [hcols, ← d.velocities.permutedSize_eq]
    exact hx

theorem dynamicsTimes_cast
    (d : m.Describes p w)
    (format : Format) (x : List ℝ) :
    (m.cast format).dynamicsTimes x = m.dynamicsTimes x := by
  rw [(d.cast format).dynamicsTimes_eq, d.dynamicsTimes_eq]
  rfl

theorem momentumGain_cast
    (d : m.Describes p w)
    (format : Format) (x : List ℝ) :
    (m.cast format).momentumGain x = m.momentumGain x := by
  have hfree : (m.cast format).freeVelocity = m.freeVelocity := by
    rw [d.freeVelocity, (d.cast format).freeVelocity]
    rfl
  rw [momentumGain, momentumGain, hfree, d.dynamicsTimes_cast]

/-- The momentum of the free motion. -/
theorem freeMomentumTensor_eq
    (d : m.Describes p w) :
    m.freeMomentumTensor = .ok (Tensor.ofVec m.format (m.dynamicsTimes m.freeVelocity)) := by
  have hshape : m.freeVelocityTensor.shape = [m.numVelocities] := by
    rw [freeVelocityTensor, Tensor.shape_ofVec, d.length_held_freeVelocity]
    rfl
  unfold freeMomentumTensor dynamicsTimesTensor
  rw [Tensor.leadingSize_of_shape hshape, Outcome.ok_bind, if_neg (not_not.2 rfl),
    Tensor.vector?_of_shape hshape, freeVelocityTensor, Tensor.entries_ofVec, Tensor.format_ofVec]
  dsimp only
  rw [d.dynamicsTimes_cast]

/-- The momentum gained, in an inner product. -/
theorem dot_momentumGain
    (d : m.Describes p w)
    (hu : u.length = m.numVelocities)
    (hv : v.length = m.numVelocities) :
    Vec.dot u (m.momentumGain v) =
      Vec.dot u (m.dynamicsTimes v) - Vec.dot u (m.dynamicsTimes m.freeVelocity) := by
  have hfree : m.freeVelocity.length = m.numVelocities :=
    d.length_held_freeVelocity
  obtain ⟨a, ha⟩ := d.exists_dot_dynamicsTimes hu
  rw [momentumGain, ha _ (d.length_motion hv), ha v hv, ha _ hfree,
    Vec.dot_sub_right a (hv.trans hfree.symm)]

/-- **A step of length `α` takes the part `α` of the momentum gained away.** -/
theorem dot_momentumGain_finish
    (d : m.Describes p w)
    (hu : m.Unfelt u)
    (hstart : s.start.length = m.numVelocities)
    (hs : m.Takes s) :
    Vec.dot u (m.momentumGain s.finish) =
      (1 - (1 / 2) ^ s.halvings) * Vec.dot u (m.momentumGain s.start) := by
  obtain ⟨H, hH, hnewton⟩ := hs.newton
  obtain ⟨a, ha⟩ := d.exists_dot_dynamicsTimes hu.length_eq
  have hdirection : s.direction.length = m.numVelocities :=
    hs.length_direction.trans hstart
  have hfinish : s.finish.length = m.numVelocities :=
    (hs.length_trial s.halvings).trans hstart
  have hchange : Vec.dot a s.direction = -Vec.dot u (m.momentumGain s.start) := by
    rw [← ha _ hdirection, ← d.dot_mulVec_hessian hu hstart hdirection hH, hnewton,
      Vec.dot_neg_right, d.dot_gradientAt hu hstart]
  have hadvance : Vec.dot a s.finish =
      Vec.dot a s.start + (1 / 2) ^ s.halvings * Vec.dot a s.direction := by
    rw [Descent.finish, s.trial_eq, advance, Vec.dot_add_right, Vec.dot_smul_right]
    rw [Vec.length_smul, hs.length_direction]
  have hgain := d.dot_momentumGain hu.length_eq hfinish
  rw [ha _ hfinish, hadvance, hchange] at hgain
  have hgain' := d.dot_momentumGain hu.length_eq hstart
  rw [ha _ hstart] at hgain'
  rw [hgain]
  linear_combination -hgain'

end Describes

/-- **Runs.**  Every step takes a part of the momentum gained away, so that a run from the free
motion gains none. -/
theorem Describes.exists_descents_momentum
    (d : m.Describes p w)
    (hu : m.Unfelt u)
    {x result : Tensor ℝ} {maxIterations : ℤ} {tolerance : ℝ} {entries : List (NewtonRecord ℝ)}
    (hrun : m.newton x maxIterations tolerance = .ok (result, entries)) :
    ∃ steps, Descent.Lead x.entries steps result.entries ∧
      (entries.map (·.cost) = steps.map ((m.cast x.format).totalCost ·.start) ∨
        entries.map (·.cost) = steps.map ((m.cast x.format).totalCost ·.start) ++
          [(m.cast x.format).totalCost result.entries]) ∧
      (∀ s ∈ steps, (m.cast x.format).Takes s ∧ ∃ α : ℝ, 0 < α ∧ α ≤ 1 ∧
        s.finish = advance s.start α s.direction ∧
        Vec.dot u (m.momentumGain s.finish) = (1 - α) * Vec.dot u (m.momentumGain s.start)) ∧
      (x.entries = m.freeVelocity →
        (∀ s ∈ steps, s.start.length = m.numVelocities ∧
          Vec.dot u (m.dynamicsTimes s.start) = Vec.dot u (m.dynamicsTimes m.freeVelocity)) ∧
        result.entries.length = m.numVelocities ∧
        Vec.dot u (m.dynamicsTimes result.entries) =
          Vec.dot u (m.dynamicsTimes m.freeVelocity)) := by
  have dk := d.cast x.format
  have hfree : m.freeVelocity.length = m.numVelocities :=
    d.length_held_freeVelocity
  obtain ⟨steps, hlead, hsteps, hcosts⟩ := d.exists_descents_newton hrun
  have hstep : ∀ s ∈ steps, Vec.dot u (m.momentumGain s.finish) =
      (1 - (1 / 2) ^ s.halvings) * Vec.dot u (m.momentumGain s.start) := by
    intro s hs
    obtain ⟨hstart, htakes⟩ := hsteps s hs
    have hfinish := dk.dot_momentumGain_finish (hu.cast x.format) hstart htakes
    rwa [d.momentumGain_cast, d.momentumGain_cast] at hfinish
  refine ⟨steps, hlead, hcosts, ?_, ?_⟩
  · intro s hs
    exact ⟨(hsteps s hs).2, (1 / 2) ^ s.halvings, by positivity,
      pow_le_one₀ (by norm_num) (by norm_num), s.trial_eq s.halvings, hstep s hs⟩
  · intro hstart
    have hgain : Vec.dot u (m.momentumGain x.entries) = 0 := by
      rw [d.dot_momentumGain hu.length_eq (by rw [hstart, hfree]), hstart, sub_self]
    obtain ⟨hstarts, hresult⟩ := hlead.invariant
      (fun v => v.length = m.numVelocities ∧ Vec.dot u (m.momentumGain v) = 0)
      (fun s hs ⟨hlength, hzero⟩ =>
        ⟨((hsteps s hs).2.length_trial s.halvings).trans hlength, by
          rw [hstep s hs, hzero, mul_zero]⟩)
      ⟨by rw [hstart, hfree], hgain⟩
    have hkept : ∀ v : List ℝ, v.length = m.numVelocities ∧ Vec.dot u (m.momentumGain v) = 0 →
        v.length = m.numVelocities ∧
          Vec.dot u (m.dynamicsTimes v) = Vec.dot u (m.dynamicsTimes m.freeVelocity) := by
      rintro v ⟨hlength, hzero⟩
      refine ⟨hlength, ?_⟩
      rw [d.dot_momentumGain hu.length_eq hlength] at hzero
      exact sub_eq_zero.1 hzero
    exact ⟨fun s hs => hkept _ (hstarts s hs), hkept _ hresult⟩

end ContactModel

namespace Collision

open ContactModel

variable {c : Collision} {handle : ℕ} {m : ContactModel ℝ} {w : List ℝ}

/-- No contact feels the common motion of both bodies. -/
theorem unfelt_common
    (d : m.Describes (c.problem handle) w) :
    m.Unfelt [1, 1] where
  length_eq := (numVelocities_eq d).symm
  mulVec_eq_zero := by
    have hproduct := d.mulVec_jacobian (V := [1, 1]) rfl
    rw [gather_eq d] at hproduct
    intro a ha
    rw [hproduct] at ha
    obtain ⟨x, hx, ha⟩ := List.mem_flatMap.1 ha
    have hcontact : x.constraint = c.contact :=
      List.mem_singleton.1
        (ContactProblem.mem_constraints_of_mem_loads d.length_inertias (d.mem_loads hx))
    rw [hcontact, localVelocity_eq, sub_self] at ha
    simpa using ha

/-- The momentum along the common motion is the total momentum. -/
theorem dot_dynamicsTimes_common
    (d : m.Describes (c.problem handle) w)
    (x y : ℝ) :
    Vec.dot [1, 1] (m.dynamicsTimes [x, y]) = c.firstMass * x + c.secondMass * y := by
  rw [dynamicsTimes_eq d]
  simp only [Vec.dot_cons, Vec.dot_nil_left]
  ring

end Collision

namespace ContactModel

/-- **Momentum along unconstrained directions.**  In a direction that no constraint feels, each step
of a run of Newton's method, of some length `α`, turns the momentum gained since the free motion
into `1 - α` times it, so that all iterates of a run from the free motion, and its result, have the
momentum of the free motion; a run is refused only for a singular Newton equation.  In particular
the total momentum of two bodies that collide is conserved, and for positive masses no run is
refused. -/
theorem newton_keeps_momentum :
    (∀ {p : ContactProblem ℝ}, p.Reachable → ∀ {m : ContactModel ℝ}, (ofProblem p).1 = .ok m →
      ∀ {u : List ℝ}, m.Unfelt u →
        ∀ (v : Tensor ℝ) (maxIterations : ℤ) (tolerance : ℝ),
          (v.shape = [m.numVelocities] →
            ∀ error, m.newton v maxIterations tolerance = .error error → error = .singular) ∧
          ∀ result entries, m.newton v maxIterations tolerance = .ok (result, entries) →
            ∃ steps, Descent.Lead v.entries steps result.entries ∧
              (entries.map (·.cost) = steps.map ((m.cast v.format).totalCost ·.start) ∨
                entries.map (·.cost) = steps.map ((m.cast v.format).totalCost ·.start) ++
                  [(m.cast v.format).totalCost result.entries]) ∧
              (∀ s ∈ steps, (m.cast v.format).Takes s ∧ ∃ α : ℝ, 0 < α ∧ α ≤ 1 ∧
                s.finish = advance s.start α s.direction ∧
                Vec.dot u (m.momentumGain s.finish) =
                  (1 - α) * Vec.dot u (m.momentumGain s.start)) ∧
              (v.entries = m.freeVelocity →
                ∃ momentum, m.freeMomentumTensor = .ok momentum ∧
                  (∀ s ∈ steps,
                    Vec.dot u (m.dynamicsTimes s.start) = Vec.dot u momentum.entries) ∧
                  Vec.dot u (m.dynamicsTimes result.entries) = Vec.dot u momentum.entries)) ∧
      (∀ (c : Collision) {ids ids' : IdTable} {handle : ℕ} {p : ContactProblem ℝ},
        c.build ids handle = .ok (p, ids') → ∀ {m : ContactModel ℝ}, (ofProblem p).1 = .ok m →
          ∀ (maxIterations : ℤ) (tolerance : ℝ) result entries,
            m.newton m.freeVelocityTensor maxIterations tolerance = .ok (result, entries) →
              ∃ v₀ v₁, result.entries = [v₀, v₁] ∧
                c.firstMass * v₀ + c.secondMass * v₁ =
                  c.firstMass * c.firstVelocity + c.secondMass * c.secondVelocity) ∧
      ∀ (c : Collision), c.Valid → ∀ (ids : IdTable) (handle : ℕ), ∃ p ids' m,
        c.build ids handle = .ok (p, ids') ∧ (ofProblem p).1 = .ok m ∧
          ∀ (maxIterations : ℤ) (tolerance : ℝ),
            ∃ r, m.newton m.freeVelocityTensor maxIterations tolerance = .ok r := by
  refine ⟨?_, ?_, ?_⟩
  · intro p hp m hm u hu v maxIterations tolerance
    obtain ⟨delassus, -, d, -⟩ := describes_of_ofProblem hp hm
    refine ⟨fun hv error herror => (d.newton_eq_error hv herror).1, ?_⟩
    intro result entries hrun
    obtain ⟨steps, hlead, hcosts, hsteps, hfree⟩ := d.exists_descents_momentum hu hrun
    refine ⟨steps, hlead, hcosts, hsteps, fun hstart => ⟨_, d.freeMomentumTensor_eq, ?_, ?_⟩⟩
    · intro s hs
      rw [Tensor.entries_ofVec]
      exact ((hfree hstart).1 s hs).2
    · rw [Tensor.entries_ofVec]
      exact (hfree hstart).2.2
  · intro c ids ids' handle p hbuild m hm maxIterations tolerance result entries hrun
    obtain ⟨htime, hvalid, rfl, -⟩ := c.build_eq_ok_iff.1 hbuild
    obtain ⟨delassus, -, d, -⟩ := describes_of_ofProblem (c.reachable htime hvalid handle) hm
    obtain ⟨-, -, hentries⟩ := Collision.freeVelocityTensor_spec d
    obtain ⟨steps, -, -, -, hfree⟩ := d.exists_descents_momentum (Collision.unfelt_common d) hrun
    obtain ⟨-, hlength, hmomentum⟩ := hfree (hentries.trans (Collision.freeVelocity_eq d).symm)
    rw [Collision.numVelocities_eq d] at hlength
    obtain ⟨v₀, v₁, hresult⟩ := List.length_eq_two.1 hlength
    rw [hresult, Collision.freeVelocity_eq d, Collision.dot_dynamicsTimes_common d,
      Collision.dot_dynamicsTimes_common d] at hmomentum
    exact ⟨v₀, v₁, hresult, hmomentum⟩
  · intro c hc ids handle
    obtain ⟨m, hm, d⟩ := c.exists_model hc.timeStep_pos hc.flaw?_eq_none hc.firstMass_pos
      hc.secondMass_pos handle
    refine ⟨c.problem handle, _, m,
      c.build_eq_ok_iff.2 ⟨hc.timeStep_pos, hc.flaw?_eq_none, rfl, rfl⟩, hm, ?_⟩
    exact d.exists_newton (Collision.freeVelocityTensor_spec d).1
      fun u hu H hH => Collision.nonsingular_hessian hc (d.cast _) hu hH

end ContactModel

end Momentum

namespace ContactModel

/-- Two equal bodies that meet head-on: their momenta cancel before and after. -/
theorem newton_keeps_momentum_headOn :
    letI := Threshold.ofFormat .double
    Collision.headOn.Valid ∧ ∃ p ids m, Collision.headOn.build .empty 0 = .ok (p, ids) ∧
      p.Reachable ∧ (ofProblem p).1 = .ok m ∧ m.Unfelt [1, 1] ∧
      ∃ result entries, m.newton m.freeVelocityTensor 2 0 = .ok (result, entries) ∧
        (∃ v₀ v₁, result.entries = [v₀, v₁] ∧ v₀ + v₁ = 0) ∧
        ∃ momentum, m.freeMomentumTensor = .ok momentum ∧
          Vec.dot [1, 1] (m.dynamicsTimes result.entries) = Vec.dot [1, 1] momentum.entries := by
  let _ := Threshold.ofFormat .double
  obtain ⟨hgeneral, htotal, hexists⟩ := newton_keeps_momentum
  obtain ⟨p, ids, m, hbuild, hm, hrun⟩ := hexists _ Collision.valid_headOn .empty 0
  obtain ⟨⟨result, entries⟩, hresult⟩ := hrun 2 0
  obtain ⟨htime, hvalid, rfl, -⟩ := Collision.headOn.build_eq_ok_iff.1 hbuild
  have hp := Collision.headOn.reachable htime hvalid 0
  obtain ⟨delassus, -, d, -⟩ := describes_of_ofProblem hp hm
  have hu := Collision.unfelt_common d
  have hfree := (Collision.freeVelocityTensor_spec d).2.2.trans (Collision.freeVelocity_eq d).symm
  obtain ⟨v₀, v₁, hentries, hmomentum⟩ := htotal _ hbuild hm 2 0 result entries hresult
  obtain ⟨steps, -, -, -, hkept⟩ :=
    (hgeneral hp hm hu m.freeVelocityTensor 2 0).2 result entries hresult
  obtain ⟨momentum, hstart, -, hend⟩ := hkept hfree
  refine ⟨Collision.valid_headOn, _, ids, m, hbuild, hp, hm, hu, result, entries, hresult,
    ⟨v₀, v₁, hentries, ?_⟩, momentum, hstart, hend⟩
  simpa [Collision.headOn] using hmomentum

end ContactModel

end ConvexContact
