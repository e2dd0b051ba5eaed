import Mathlib
import ConvexContact.ContactModel.Newton
import ConvexContact.Proofs.Hessian
import ConvexContact.Proofs.LinearSystems

/-!
# Steps and runs of Newton's method

**Steps.**  A step of the method has a start, a direction, and a length that is a power of one half
(`Descent`).  The direction solves the Newton equation, every longer step was tried and did not
decrease the cost enough, and the step itself does, unless the halvings were exhausted
(`ContactModel.Takes`).

**Loops.**  The length of a step is found by a loop without a bound (`ContactModel.Halves`).  It has
one result, and the line search computes it (`ContactModel.halves_of_lineSearch`).

**Runs.**  A run is a chain of such steps from iterates with a large gradient, which are recorded;
so is the result if the run ended because the gradient was small there.

**Results.**
* `Describes.newtonStep_spec`, `Describes.newtonStep_eq_ok`: what a step does, and that there is no
  other one where the second derivative is nonsingular.
* `Describes.exists_steps_iterate`: what a run does, by induction on the bound of the iterations;
  `Describes.exists_descents_newton`: the costs that it records.
* `Describes.newton_eq_error`, `Describes.exists_newton`: a run is refused only for a singular
  Newton equation.
-/

namespace ConvexContact

/-- A step of Newton's method: where it starts, its direction, and how often its length was
halved. -/
structure Descent where
  start : List ℝ
  direction : List ℝ
  halvings : ℕ

section Descents

variable [Threshold]

namespace Descent

/-- The velocities after `k` halvings of the step. -/
noncomputable def trial (s : Descent) (k : ℕ) : List ℝ :=
  ContactModel.advance s.start (Scalar.half ^ k) s.direction

theorem trial_eq
    (s : Descent) (k : ℕ) :
    s.trial k = ContactModel.advance s.start ((1 / 2) ^ k) s.direction := by
  rw [trial, Exact.half_eq]

/-- The velocities after the step. -/
noncomputable def finish (s : Descent) : List ℝ :=
  s.trial s.halvings

/-- A list of steps leads from velocities to others. -/
def Lead : List ℝ → List Descent → List ℝ → Prop
  | v, [], w => v = w
  | v, s :: steps, w => s.start = v ∧ Lead s.finish steps w

/-- What every step keeps holds at the start of every step and at the end. -/
theorem Lead.invariant
    {v w : List ℝ} {steps : List Descent}
    (hlead : Lead v steps w)
    (holds : List ℝ → Prop)
    (hsteps : ∀ s ∈ steps, holds s.start → holds s.finish)
    (hv : holds v) :
    (∀ s ∈ steps, holds s.start) ∧ holds w := by
  induction steps generalizing v with
  | nil =>
      cases hlead
      exact ⟨by simp, hv⟩
  | cons s steps ih =>
      obtain ⟨rfl, hlead⟩ := hlead
      obtain ⟨hrest, hend⟩ := ih hlead (fun t ht => hsteps t (List.mem_cons_of_mem s ht))
        (hsteps s List.mem_cons_self hv)
      refine ⟨?_, hend⟩
      rintro t (_ | ⟨_, ht⟩)
      · exact hv
      · exact hrest t ht

end Descent

namespace ContactModel

/-- The cost at some velocities. -/
noncomputable def totalCost (m : ContactModel ℝ) (v : List ℝ) : ℝ :=
  match m.evaluate v false with
  | .ok e => e.cost
  | .error _ => 0

/-- The gradient of the cost at some velocities. -/
noncomputable def gradientAt (m : ContactModel ℝ) (v : List ℝ) : List ℝ :=
  match m.evaluate v false with
  | .ok e => e.gradient
  | .error _ => []

/-- The slope of the cost at the start of a step. -/
noncomputable def slope (m : ContactModel ℝ) (s : Descent) : ℝ :=
  Vec.dot (m.gradientAt s.start) s.direction

/-- After `k` halvings the cost decreases by a part of what the slope promises. -/
def Decreases (m : ContactModel ℝ) (s : Descent) (k : ℕ) : Prop :=
  m.totalCost (s.trial k) ≤ m.totalCost s.start + 1 / 10000 * Scalar.half ^ k * m.slope s

/-- A step that Newton's method takes. -/
structure Takes (m : ContactModel ℝ) (s : Descent) : Prop where
  length_direction : s.direction.length = s.start.length
  newton : ∃ H, m.hessian s.start none = .ok H ∧
    H.mulVec s.direction = Vec.neg (m.gradientAt s.start)
  halvings_le : s.halvings ≤ maxTrials
  rejected : ∀ k < s.halvings, ¬ m.Decreases s k
  accepted : s.halvings < maxTrials → m.Decreases s s.halvings

section Search

variable {m : ContactModel ℝ} {v direction : List ℝ} {cost slope step length : ℝ} {trials : ℕ}

theorem mul_half_mul_pow
    (step : ℝ) (k : ℕ) :
    step * Scalar.half * (1 / 2) ^ k = step * (1 / 2) ^ (k + 1) := by
  rw [Exact.half_eq, pow_succ]
  ring

theorem decreaseFactor_eq :
    (decreaseFactor : ℝ) = 1 / 10000 := by
  simp [decreaseFactor]

/-- The step is long enough to be tried unless it was halved as often as there are trials. -/
theorem not_shortest_of_lt
    {k : ℕ} (hk : k < maxTrials) :
    (shortestStep : ℝ) < (1 / 2) ^ k := by
  have hle : (1 / 2 : ℝ) ^ 26 ≤ (1 / 2) ^ k :=
    pow_le_pow_of_le_one (by norm_num) (by norm_num) (Nat.le_of_lt_succ hk)
  have hlt : (shortestStep : ℝ) < (1 / 2) ^ 26 := by
    simp only [shortestStep, Exact.ofNat_one, Exact.ofNat_ofNat]
    norm_num
  exact hlt.trans_le hle

theorem shortest_of_maxTrials :
    (1 * (1 / 2) ^ maxTrials : ℝ) ≤ shortestStep := by
  simp only [shortestStep, maxTrials, Exact.ofNat_one, Exact.ofNat_ofNat]
  norm_num

/-- The loop that halves a step until the cost has decreased enough after it, or it is no longer
than the shortest step.  The evaluations of the cost are counted; nothing bounds their number. -/
inductive Halves (m : ContactModel ℝ) (v direction : List ℝ) (cost slope : ℝ) :
    ℝ → ℕ → ℝ → Prop
  | short
      {step : ℝ}
      (hshort : ¬shortestStep < step) :
      Halves m v direction cost slope step 0 step
  | accepted
      {step : ℝ} {e : CostEvaluation ℝ}
      (hlong : shortestStep < step)
      (he : m.evaluate (advance v step direction) false = .ok e)
      (hdecreases : e.cost ≤ cost + decreaseFactor * step * slope) :
      Halves m v direction cost slope step 1 step
  | rejected
      {step length : ℝ} {trials : ℕ} {e : CostEvaluation ℝ}
      (hlong : shortestStep < step)
      (he : m.evaluate (advance v step direction) false = .ok e)
      (hrises : ¬e.cost ≤ cost + decreaseFactor * step * slope)
      (hrest : Halves m v direction cost slope (step * Scalar.half) trials length) :
      Halves m v direction cost slope step (trials + 1) length

/-- The loop has one result and one number of trials. -/
theorem Halves.unique
    {trials' : ℕ} {length' : ℝ}
    (h : m.Halves v direction cost slope step trials length)
    (h' : m.Halves v direction cost slope step trials' length') :
    trials' = trials ∧ length' = length := by
  induction h generalizing trials' with
  | short hshort =>
      cases h' with
      | short => exact ⟨rfl, rfl⟩
      | accepted hlong => exact absurd hlong hshort
      | rejected hlong => exact absurd hlong hshort
  | accepted hlong he hdecreases =>
      cases h' with
      | short hshort => exact absurd hlong hshort
      | accepted => exact ⟨rfl, rfl⟩
      | rejected _ he' hrises =>
          cases he.symm.trans he'
          exact absurd hdecreases hrises
  | rejected hlong he hrises _ ih =>
      cases h' with
      | short hshort => exact absurd hlong hshort
      | accepted _ he' hdecreases =>
          cases he.symm.trans he'
          exact absurd hdecreases hrises
      | rejected _ _ _ hrest' =>
          obtain ⟨rfl, rfl⟩ := ih hrest'
          exact ⟨rfl, rfl⟩

/-- **The line search** is the loop, if its trials are enough to halve the step to the shortest
one. -/
theorem halves_of_lineSearch
    (hshort : step * (1 / 2) ^ trials ≤ shortestStep)
    (h : m.lineSearch v direction cost slope step trials = .ok length) :
    ∃ n ≤ trials, m.Halves v direction cost slope step n length := by
  induction trials generalizing step with
  | zero =>
      cases h
      rw [pow_zero, mul_one] at hshort
      exact ⟨0, le_rfl, .short (not_lt.2 hshort)⟩
  | succ trials ih =>
      rw [lineSearch] at h
      split_ifs at h with hlong
      · obtain ⟨e, he, h⟩ := Outcome.bind_eq_ok.1 h
        split_ifs at h with hdecreases
        · cases h
          exact ⟨1, Nat.le_add_left 1 trials, .accepted hlong he hdecreases⟩
        · rw [← mul_half_mul_pow] at hshort
          obtain ⟨n, hn, hrest⟩ := ih hshort h
          exact ⟨n + 1, Nat.succ_le_succ hn, .rejected hlong he hdecreases hrest⟩
      · cases h
        exact ⟨0, Nat.zero_le _, .short hlong⟩

/-- What the loop finds is the step halved some number of times; all longer steps were tried and
rejected, and it was accepted or is too short to be tried. -/
theorem Halves.spec
    (h : m.Halves v direction cost slope step trials length) :
    ∃ k ≤ trials, length = step * (1 / 2) ^ k ∧
      (∀ j < k, ∃ e, m.evaluate (advance v (step * (1 / 2) ^ j) direction) false = .ok e ∧
        ¬ e.cost ≤ cost + decreaseFactor * (step * (1 / 2) ^ j) * slope) ∧
      (step * (1 / 2) ^ k ≤ shortestStep ∨
        ∃ e, m.evaluate (advance v (step * (1 / 2) ^ k) direction) false = .ok e ∧
          e.cost ≤ cost + decreaseFactor * (step * (1 / 2) ^ k) * slope) := by
  induction h with
  | short hshort =>
      refine ⟨0, le_rfl, by ring, by simp, .inl ?_⟩
      rw [pow_zero, mul_one]
      exact not_lt.1 hshort
  | @accepted _ e _ he hdecreases =>
      refine ⟨0, Nat.zero_le _, by ring, by simp, .inr ⟨e, ?_, ?_⟩⟩
      · rwa [pow_zero, mul_one]
      · rwa [pow_zero, mul_one]
  | rejected hlong he hrises _ ih =>
      obtain ⟨k, hk, hlength, hrejected, hend⟩ := ih
      simp only [mul_half_mul_pow] at hlength hrejected hend
      refine ⟨k + 1, Nat.succ_le_succ hk, hlength, ?_, hend⟩
      intro j hj
      cases j with
      | zero =>
          rw [pow_zero, mul_one]
          exact ⟨_, he, hrises⟩
      | succ j =>
          exact hrejected j (Nat.lt_of_succ_lt_succ hj)

end Search

/-- The loop finds the length of a step, in no more than the allowed number of trials. -/
def Searches (m : ContactModel ℝ) (s : Descent) : Prop :=
  ∃ trials ≤ maxTrials,
    m.Halves s.start s.direction (m.totalCost s.start) (m.slope s) 1 trials
      (Scalar.half ^ s.halvings)

section Steps

variable {m : ContactModel ℝ} {p : ContactProblem ℝ} {w v result : List ℝ} {s : Descent}

/-- The evaluation at velocities of the right size gives cost and gradient, and the derivatives of
the projections. -/
theorem Describes.exists_evaluation
    (d : m.Describes p w)
    (hv : v.length = m.numVelocities) :
    ∃ V e, V.length = p.numVelocities ∧ m.velocitiesPermutation.gather V = v ∧
      m.evaluate v true = .ok e ∧ e.cost = m.totalCost v ∧ e.gradient = m.gradientAt v ∧
      e.gradient.length = m.numVelocities ∧
      e.derivatives? = some ((m.edgeLoads p w).map (p.derivativeAt m.bundle.format V)) := by
  obtain ⟨V, hV, hgather⟩ := d.exists_gather hv
  have hfull := d.evaluate_eq hV true
  have hplain := d.evaluate_eq hV false
  rw [hgather] at hfull hplain
  refine ⟨V, _, hV, hgather, hfull, ?_, ?_, ?_, rfl⟩
  · rw [totalCost, hplain]
    rfl
  · rw [gradientAt, hplain]
  · dsimp only
    rw [Vec.length_sub, momentumGain, d.length_dynamicsTimes,
      d.regular_jacobian.length_transposeMulVec, d.numCols_jacobian, Nat.min_self]
    rfl

/-- The second derivative at velocities of the right size, which is also that of an evaluation
there. -/
theorem Describes.hessian_eq
    (d : m.Describes p w)
    (hv : v.length = m.numVelocities) :
    ∃ V, V.length = p.numVelocities ∧ m.velocitiesPermutation.gather V = v ∧
      m.hessian v none =
        .ok (m.hessianOf ((m.edgeLoads p w).map (p.derivativeAt m.bundle.format V))) ∧
      ∀ e, m.evaluate v true = .ok e → m.hessian v (some e) = m.hessian v none := by
  obtain ⟨V, e, hV, hgather, he, -, -, -, hderivatives⟩ := d.exists_evaluation hv
  have hplain : m.hessian v none =
      .ok (m.hessianOf ((m.edgeLoads p w).map (p.derivativeAt m.bundle.format V))) := by
    unfold hessian
    change (m.evaluate v true >>= fun e => .ok (m.hessianOf (e.derivatives?.getD []))) = _
    rw [he, Outcome.ok_bind, hderivatives, Option.getD_some]
  refine ⟨V, hV, hgather, hplain, ?_⟩
  intro e' he'
  cases he.symm.trans he'
  rw [hplain]
  unfold hessian
  rw [Option.bind_some, hderivatives]

/-- The second derivative is a square matrix of the size of the velocities. -/
theorem Describes.shape_hessian
    (d : m.Describes p w)
    (hv : v.length = m.numVelocities)
    {H : DenseMatrix ℝ} (hH : m.hessian v none = .ok H) :
    H.numRows = m.numVelocities ∧ H.numCols = m.numVelocities := by
  obtain ⟨V, -, -, hhessian, -⟩ := d.hessian_eq hv
  cases hhessian.symm.trans hH
  exact d.shape_hessianOf _

theorem Describes.exists_plain_evaluation
    (d : m.Describes p w)
    (hv : v.length = m.numVelocities) :
    ∃ e, m.evaluate v false = .ok e := by
  obtain ⟨V, hV, rfl⟩ := d.exists_gather hv
  exact ⟨_, d.evaluate_eq hV false⟩

theorem totalCost_eq
    {e : CostEvaluation ℝ} (h : m.evaluate v false = .ok e) :
    m.totalCost v = e.cost := by
  rw [totalCost, h]

theorem decreases_iff
    {k : ℕ} {e : CostEvaluation ℝ}
    (h : m.evaluate (advance s.start ((1 / 2) ^ k) s.direction) false = .ok e) :
    m.Decreases s k ↔
      e.cost ≤ m.totalCost s.start + decreaseFactor * (1 / 2) ^ k * m.slope s := by
  rw [Decreases, Descent.trial_eq, totalCost_eq h, decreaseFactor_eq, Exact.half_eq]

/-- **What a Newton step does.** -/
theorem Describes.newtonStep_spec
    (d : m.Describes p w)
    (hv : v.length = m.numVelocities)
    {e : CostEvaluation ℝ} (he : m.evaluate v true = .ok e)
    (h : m.newtonStep v e = .ok result) :
    result.length = m.numVelocities ∧
      ∃ s : Descent, s.start = v ∧ s.finish = result ∧ m.Takes s ∧ m.Searches s := by
  obtain ⟨-, e', -, -, he', hcost, hgradient, hlength, -⟩ := d.exists_evaluation hv
  cases he.symm.trans he'
  obtain ⟨V, -, -, hhessian, hsame⟩ := d.hessian_eq hv
  set H := m.hessianOf _
  obtain ⟨hrows, hcols⟩ := d.shape_hessian hv hhessian
  unfold newtonStep at h
  rw [hsame e he, hhessian, Outcome.ok_bind] at h
  obtain ⟨x, hx, h⟩ := Outcome.bind_eq_ok.1 h
  obtain ⟨step, hstep, h⟩ := Outcome.bind_eq_ok.1 h
  cases h
  obtain ⟨hxlength, hsolves⟩ :=
    Elimination.solve_sound (hrows.trans hcols.symm) (hlength.trans hrows.symm) hx
  rw [Exact.ofNat_one, hcost, hgradient] at hstep
  obtain ⟨trials, htrials, hhalves⟩ := halves_of_lineSearch shortest_of_maxTrials hstep
  obtain ⟨k, hk, rfl, hrejected, hend⟩ := hhalves.spec
  simp only [one_mul] at hhalves hrejected hend ⊢
  let s : Descent := ⟨v, Vec.neg x, k⟩
  have hdecreases : ∀ (j : ℕ) (trial : CostEvaluation ℝ),
      m.evaluate (advance v ((1 / 2) ^ j) (Vec.neg x)) false = .ok trial →
        (m.Decreases s j ↔ trial.cost ≤ m.totalCost v +
          decreaseFactor * (1 / 2) ^ j * Vec.dot (m.gradientAt v) (Vec.neg x)) :=
    fun j trial htrial => decreases_iff (s := s) htrial
  have hsearch : m.Searches s :=
    ⟨trials, htrials, by rwa [Exact.half_eq]⟩
  refine ⟨?_, s, rfl, s.trial_eq k, ?_, hsearch⟩
  · rw [advance, Vec.length_add, Vec.length_smul, Vec.length_neg, hxlength, hrows, hv]
    exact Nat.min_self _
  · refine
      { length_direction := ?_
        newton := ⟨H, hhessian, ?_⟩
        halvings_le := hk.trans htrials
        rejected := ?_
        accepted := ?_ }
    · rw [Vec.length_neg, hxlength, hrows, hv]
    · rw [DenseMatrix.mulVec_neg, hsolves, hgradient]
    · intro j hj h
      obtain ⟨trial, htrial, hnot⟩ := hrejected j hj
      exact hnot ((hdecreases j trial htrial).1 h)
    · intro hlt
      rcases hend with hend | ⟨trial, htrial, hle⟩
      · exact absurd (not_shortest_of_lt hlt) (not_lt.2 hend)
      · exact (hdecreases k trial htrial).2 hle

/-- The length of the velocities after a step. -/
theorem Takes.length_trial
    (hs : m.Takes s)
    (k : ℕ) :
    (s.trial k).length = s.start.length := by
  rw [Descent.trial, advance, Vec.length_add, Vec.length_smul, hs.length_direction, Nat.min_self]

/-- The line search is not refused. -/
theorem Describes.exists_lineSearch
    (d : m.Describes p w)
    {direction : List ℝ}
    (hv : v.length = m.numVelocities)
    (hdirection : direction.length = m.numVelocities)
    (cost slope step : ℝ) (trials : ℕ) :
    ∃ length, m.lineSearch v direction cost slope step trials = .ok length := by
  induction trials generalizing step with
  | zero =>
      exact ⟨step, rfl⟩
  | succ trials ih =>
      have htrial : (advance v step direction).length = m.numVelocities := by
        rw [advance, Vec.length_add, Vec.length_smul, hv, hdirection, Nat.min_self]
      obtain ⟨e, he⟩ := d.exists_plain_evaluation htrial
      rw [lineSearch]
      split_ifs with hshort
      · rw [he, Outcome.ok_bind]
        split_ifs with haccept
        · exact ⟨step, rfl⟩
        · exact ih _
      · exact ⟨step, rfl⟩

/-- A step is refused only for a singular Newton equation. -/
theorem Describes.newtonStep_eq_error
    (d : m.Describes p w)
    (hv : v.length = m.numVelocities)
    {e : CostEvaluation ℝ} (he : m.evaluate v true = .ok e)
    {error : Error} (h : m.newtonStep v e = .error error) :
    error = .singular ∧ ∃ H, m.hessian v none = .ok H ∧ ¬ H.Nonsingular := by
  obtain ⟨V, e', -, -, he', -, -, hlength, -⟩ := d.exists_evaluation hv
  cases he.symm.trans he'
  obtain ⟨V, -, -, hhessian, hsame⟩ := d.hessian_eq hv
  obtain ⟨hrows, hcols⟩ := d.shape_hessian hv hhessian
  unfold newtonStep at h
  rw [hsame e he, hhessian, Outcome.ok_bind] at h
  cases hsolve : Elimination.solve _ e.gradient with
  | error error' =>
      rw [hsolve] at h
      cases h
      refine ⟨Elimination.solve_eq_error hsolve, _, hhessian, ?_⟩
      intro hregular
      obtain ⟨x, hx⟩ :=
        Elimination.exists_solve (hrows.trans hcols.symm) (hlength.trans hrows.symm) hregular
      rw [hsolve] at hx
      cases hx
  | ok x =>
      have hx := (Elimination.solve_sound (hrows.trans hcols.symm) (hlength.trans hrows.symm)
        hsolve).1
      have hdirection : (Vec.neg x).length = m.numVelocities := by
        rw [Vec.length_neg, hx, hrows]
      obtain ⟨step, hstep⟩ :=
        d.exists_lineSearch hv hdirection e.cost (Vec.dot e.gradient (Vec.neg x)) 1 maxTrials
      rw [hsolve, Outcome.ok_bind] at h
      dsimp only at h
      rw [Exact.ofNat_one, hstep] at h
      cases h

/-- Where the second derivative is nonsingular, the step is determined by its start. -/
theorem Takes.eq_of_nonsingular
    {t : Descent}
    (hs : m.Takes s)
    (ht : m.Takes t)
    (hstart : t.start = s.start)
    {H : DenseMatrix ℝ} (hH : m.hessian s.start none = .ok H)
    (hrows : H.numRows = s.start.length)
    (hregular : H.Nonsingular) :
    t = s := by
  obtain ⟨start, direction, k⟩ := s
  obtain ⟨start', direction', l⟩ := t
  cases hstart
  obtain ⟨Hs, hHs, hnewton⟩ := hs.newton
  obtain ⟨Ht, hHt, hnewton'⟩ := ht.newton
  cases hH.symm.trans hHs
  cases hH.symm.trans hHt
  have hdirection : direction' = direction :=
    hregular.mulVec_injective (ht.length_direction.trans hrows.symm)
      (hs.length_direction.trans hrows.symm) (hnewton'.trans hnewton.symm)
  cases hdirection
  have hhalvings : l = k := by
    rcases lt_trichotomy l k with hlt | heq | hgt
    · exact absurd (ht.accepted (hlt.trans_le hs.halvings_le)) (hs.rejected l hlt)
    · exact heq
    · exact absurd (hs.accepted (hgt.trans_le ht.halvings_le)) (ht.rejected k hgt)
  rw [hhalvings]

/-- **The only Newton step.** -/
theorem Describes.newtonStep_eq_ok
    (d : m.Describes p w)
    (hstart : s.start.length = m.numVelocities)
    {e : CostEvaluation ℝ} (he : m.evaluate s.start true = .ok e)
    (hs : m.Takes s)
    (hregular : ∀ H, m.hessian s.start none = .ok H → H.Nonsingular) :
    m.newtonStep s.start e = .ok s.finish := by
  cases h : m.newtonStep s.start e with
  | error error =>
      obtain ⟨-, H, hH, hsingular⟩ := d.newtonStep_eq_error hstart he h
      exact absurd (hregular H hH) hsingular
  | ok result =>
      obtain ⟨-, t, hsame, rfl, ht, -⟩ := d.newtonStep_spec hstart he h
      obtain ⟨V, -, -, hH, -⟩ := d.hessian_eq hstart
      rw [hs.eq_of_nonsingular ht hsame hH ((d.shape_hessian hstart hH).1.trans hstart.symm)
        (hregular _ hH)]

end Steps

section Runs

variable {m : ContactModel ℝ} {p : ContactProblem ℝ} {w v result : List ℝ}
variable {tolerance : ℝ} {iterations : ℕ} {entries : List (NewtonRecord ℝ)}

/-- The record of an evaluated iterate. -/
noncomputable def recordOf (e : CostEvaluation ℝ) : NewtonRecord ℝ :=
  ⟨e.momentumCost, e.regularizerCost, e.cost, Vec.norm e.gradient⟩

/-- A run stops where the gradient is small. -/
theorem iterate_of_small
    {e : CostEvaluation ℝ} (he : m.evaluate v true = .ok e)
    (hsmall : Vec.norm e.gradient ≤ tolerance)
    (iterations : ℕ) :
    m.iterate tolerance v (iterations + 1) = .ok (v, [recordOf e]) := by
  rw [iterate, he, Outcome.ok_bind]
  exact if_pos hsmall

/-- A run goes on with a step where the gradient is large. -/
theorem iterate_of_large
    {e : CostEvaluation ℝ} (he : m.evaluate v true = .ok e)
    (hlarge : tolerance < Vec.norm e.gradient)
    (iterations : ℕ) :
    m.iterate tolerance v (iterations + 1) =
      m.newtonStep v e >>= fun u => (m.iterate tolerance u iterations).map fun r =>
        (r.1, recordOf e :: r.2) := by
  rw [iterate, he, Outcome.ok_bind]
  exact if_neg (not_le.2 hlarge)

/-- The record is that of the evaluation at some velocities. -/
def Records (m : ContactModel ℝ) (v : List ℝ) (entry : NewtonRecord ℝ) : Prop :=
  ∃ e, m.evaluate v true = .ok e ∧ entry = recordOf e

theorem Describes.cost_of_records
    {entry : NewtonRecord ℝ}
    (d : m.Describes p w)
    (hv : v.length = m.numVelocities)
    (h : m.Records v entry) :
    entry.cost = m.totalCost v := by
  obtain ⟨e, he, rfl⟩ := h
  obtain ⟨-, e', -, -, he', hcost, -⟩ := d.exists_evaluation hv
  cases he.symm.trans he'
  exact hcost

/-- **A run of Newton's method** is a chain of steps from iterates with a large gradient, each of
which is recorded.  It has as many steps as are allowed, or it ends earlier at an iterate with a
small gradient, which is recorded too. -/
theorem Describes.exists_steps_iterate
    (d : m.Describes p w)
    (hv : v.length = m.numVelocities)
    (h : m.iterate tolerance v iterations = .ok (result, entries)) :
    ∃ (steps : List Descent) (large : List (NewtonRecord ℝ)),
      Descent.Lead v steps result ∧
      (∀ s ∈ steps, s.start.length = m.numVelocities ∧ m.Takes s ∧ m.Searches s) ∧
      List.Forall₂ m.Records (steps.map (·.start)) large ∧
      (∀ a ∈ large, tolerance < a.gradientNorm) ∧
      (steps.length = iterations ∧ entries = large ∨
        steps.length < iterations ∧
          ∃ a, m.Records result a ∧ a.gradientNorm ≤ tolerance ∧ entries = large ++ [a]) := by
  induction iterations generalizing v result entries with
  | zero =>
      cases h
      exact ⟨[], [], rfl, by simp, .nil, by simp, .inl ⟨rfl, rfl⟩⟩
  | succ iterations ih =>
      obtain ⟨-, e, -, -, he, -⟩ := d.exists_evaluation hv
      rcases le_or_gt (Vec.norm e.gradient) tolerance with hsmall | hlarge
      · rw [iterate_of_small he hsmall] at h
        cases h
        exact ⟨[], [], rfl, by simp, .nil, by simp,
          .inr ⟨Nat.succ_pos _, recordOf e, ⟨e, he, rfl⟩, hsmall, rfl⟩⟩
      · rw [iterate_of_large he hlarge] at h
        obtain ⟨next, hnext, h⟩ := Outcome.bind_eq_ok.1 h
        obtain ⟨⟨last, rest⟩, hrest, heq⟩ := Outcome.map_eq_ok.1 h
        cases heq
        obtain ⟨hlength, s, rfl, hfinish, hs, hsearch⟩ := d.newtonStep_spec hv he hnext
        obtain ⟨steps, large, hlead, htakes, hrecords, hlarges, hend⟩ := ih hlength hrest
        refine ⟨s :: steps, recordOf e :: large, ⟨rfl, by rwa [hfinish]⟩,
          List.forall_mem_cons.2 ⟨⟨hv, hs, hsearch⟩, htakes⟩, .cons ⟨e, he, rfl⟩ hrecords,
          List.forall_mem_cons.2 ⟨hlarge, hlarges⟩, ?_⟩
        rcases hend with ⟨hlast, rfl⟩ | ⟨hlast, a, ha, hsmall, rfl⟩
        · exact .inl ⟨congrArg Nat.succ hlast, rfl⟩
        · exact .inr ⟨Nat.succ_lt_succ hlast, a, ha, hsmall, rfl⟩

/-- The records of a run are the costs at the starts of its steps, followed by the cost of the
result if the gradient was small there. -/
theorem Describes.exists_descents_iterate
    (d : m.Describes p w)
    (hv : v.length = m.numVelocities)
    (h : m.iterate tolerance v iterations = .ok (result, entries)) :
    ∃ steps : List Descent, Descent.Lead v steps result ∧
      (∀ s ∈ steps, s.start.length = m.numVelocities ∧ m.Takes s) ∧
      (entries.map (·.cost) = steps.map (m.totalCost ·.start) ∨
        entries.map (·.cost) = steps.map (m.totalCost ·.start) ++ [m.totalCost result]) := by
  obtain ⟨steps, large, hlead, hsteps, hrecords, -, hend⟩ := d.exists_steps_iterate hv h
  have hcosts : steps.map (m.totalCost ·.start) = large.map (·.cost) := by
    rw [List.forall₂_map_left_iff] at hrecords
    rw [← List.forall₂_eq_eq_eq, List.forall₂_map_left_iff, List.forall₂_map_right_iff]
    refine ((List.forall₂_and_left _ _).2 ⟨fun s hs => (hsteps s hs).1, hrecords⟩).imp ?_
    rintro s a ⟨hstart, ha⟩
    exact (d.cost_of_records hstart ha).symm
  refine ⟨steps, hlead, fun s hs => ⟨(hsteps s hs).1, (hsteps s hs).2.1⟩, ?_⟩
  rcases hend with ⟨-, rfl⟩ | ⟨-, a, ha, -, rfl⟩
  · exact .inl hcosts.symm
  · have hresult : result.length = m.numVelocities :=
      (hlead.invariant (fun u => u.length = m.numVelocities)
        (fun s hs hstart => ((hsteps s hs).2.1.length_trial _).trans hstart) hv).2
    right
    rw [List.map_append, ← hcosts, List.map_singleton, d.cost_of_records hresult ha]

/-- A run that is refused met a singular Newton equation. -/
theorem Describes.iterate_eq_error
    (d : m.Describes p w)
    (hv : v.length = m.numVelocities)
    {error : Error} (h : m.iterate tolerance v iterations = .error error) :
    error = .singular ∧
      ∃ u : List ℝ, u.length = m.numVelocities ∧
        ∃ H, m.hessian u none = .ok H ∧ ¬ H.Nonsingular := by
  induction iterations generalizing v with
  | zero =>
      cases h
  | succ iterations ih =>
      obtain ⟨V, e, -, -, he, -, -, -, -⟩ := d.exists_evaluation hv
      rcases le_or_gt (Vec.norm e.gradient) tolerance with hsmall | hlarge
      · rw [iterate_of_small he hsmall] at h
        cases h
      · rw [iterate_of_large he hlarge] at h
        cases hnext : m.newtonStep v e with
        | error error' =>
            rw [hnext] at h
            cases h
            obtain ⟨hsingular, hH⟩ := d.newtonStep_eq_error hv he hnext
            exact ⟨hsingular, v, hv, hH⟩
        | ok next =>
            obtain ⟨hlength, -⟩ := d.newtonStep_spec hv he hnext
            rw [hnext, Outcome.ok_bind] at h
            exact ih hlength (Outcome.map_eq_error.1 h)

end Runs

section Tensors

variable {m : ContactModel ℝ} {p : ContactProblem ℝ} {w : List ℝ} {v result : Tensor ℝ}
variable {tolerance : ℝ} {maxIterations : ℤ} {entries : List (NewtonRecord ℝ)}

/-- A run from the velocities in a tensor. -/
theorem newton_eq
    (hv : v.shape = [m.numVelocities]) :
    m.newton v maxIterations tolerance =
      if maxIterations ≤ 0 then .ok (v, [])
      else ((m.cast v.format).iterate tolerance v.entries maxIterations.toNat).map
        fun r => (Tensor.ofVec v.format r.1, r.2) := by
  unfold newton
  rw [velocityOperand_of_shape hv]
  rfl

/-- A run from the velocities in a tensor is a chain of steps. -/
theorem Describes.exists_descents_newton
    (d : m.Describes p w)
    (h : m.newton v maxIterations tolerance = .ok (result, entries)) :
    ∃ steps : List Descent, Descent.Lead v.entries steps result.entries ∧
      (∀ s ∈ steps, s.start.length = m.numVelocities ∧ (m.cast v.format).Takes s) ∧
      (entries.map (·.cost) = steps.map ((m.cast v.format).totalCost ·.start) ∨
        entries.map (·.cost) = steps.map ((m.cast v.format).totalCost ·.start) ++
          [(m.cast v.format).totalCost result.entries]) := by
  unfold newton at h
  split_ifs at h with hbound
  · cases h
    exact ⟨[], rfl, by simp, .inl rfl⟩
  · obtain ⟨xs, hxs, h⟩ := Outcome.bind_eq_ok.1 h
    obtain ⟨⟨last, records⟩, hiterate, h⟩ := Outcome.bind_eq_ok.1 h
    cases h
    obtain ⟨rfl, hlength⟩ := velocityOperand_eq_ok hxs
    rw [Tensor.entries_ofVec]
    exact (d.cast v.format).exists_descents_iterate hlength hiterate

/-- **Refusals.**  A run from velocities of the right shape is refused only for a singular Newton
equation. -/
theorem Describes.newton_eq_error
    (d : m.Describes p w)
    (hv : v.shape = [m.numVelocities])
    {error : Error} (h : m.newton v maxIterations tolerance = .error error) :
    error = .singular ∧
      ∃ u : List ℝ, u.length = m.numVelocities ∧
        ∃ H, (m.cast v.format).hessian u none = .ok H ∧ ¬ H.Nonsingular := by
  rw [newton_eq hv] at h
  split_ifs at h with hbound
  cases hiterate : (m.cast v.format).iterate tolerance v.entries maxIterations.toNat with
  | error error' =>
      rw [hiterate] at h
      cases h
      exact (d.cast v.format).iterate_eq_error (Tensor.length_entries_of_shape hv) hiterate
  | ok r =>
      rw [hiterate] at h
      cases h

/-- A run is not refused if no Newton equation is singular. -/
theorem Describes.exists_newton
    (d : m.Describes p w)
    (hv : v.shape = [m.numVelocities])
    (hregular : ∀ u : List ℝ, u.length = m.numVelocities →
      ∀ H, (m.cast v.format).hessian u none = .ok H → H.Nonsingular)
    (maxIterations : ℤ) (tolerance : ℝ) :
    ∃ r, m.newton v maxIterations tolerance = .ok r := by
  cases h : m.newton v maxIterations tolerance with
  | error error =>
      obtain ⟨-, u, hu, H, hH, hsingular⟩ := d.newton_eq_error hv h
      exact absurd (hregular u hu H hH) hsingular
  | ok r =>
      exact ⟨r, rfl⟩

end Tensors

end ContactModel

end Descents

end ConvexContact
