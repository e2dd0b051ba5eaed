import ConvexContact.ContactModel.Evaluation
import ConvexContact.Linear.Elimination

/-!
# Newton's method

**Input.**  A contact model, velocities to start from, a bound on the number of iterations and a
tolerance for the norm of the gradient.

**Algorithm.**  An iteration evaluates the cost and stops if the norm of its gradient is within the
tolerance.  Otherwise it solves for the Newton direction and halves the step, starting from one,
until the cost has decreased by `10⁻⁴` times what the slope promises.

**Results.**  The last velocities, and a record of every evaluated iterate.  The halving ends after
at most 27 trials, since then the step is below `10⁻⁸`; a step that small is taken without trial.
-/

namespace ConvexContact

/-- Record of an iteration. -/
structure NewtonRecord (α : Type) where
  momentumCost : α
  regularizerCost : α
  cost : α
  gradientNorm : α

namespace ContactModel

variable {α : Type} [Scalar α]

/-- Length below which a step is taken without trial. -/
def shortestStep : α :=
  1 / 100000000

/-- Part of the promised decrease that a step has to reach. -/
def decreaseFactor : α :=
  1 / 10000

/-- The velocities after a step. -/
def advance (v : List α) (step : α) (direction : List α) : List α :=
  Vec.add v (Vec.smul step direction)

/-- The length of the step, by halving; `trials` bounds the number of evaluations. -/
def lineSearch (m : ContactModel α) (v direction : List α) (cost slope : α) (step : α) :
    (trials : Nat) → Except Error α
  | 0 => .ok step
  | trials + 1 =>
      if shortestStep < step then do
        let trial ← m.evaluate (advance v step direction) false
        if trial.cost ≤ cost + decreaseFactor * step * slope then .ok step
        else m.lineSearch v direction cost slope (step * Scalar.half) trials
      else .ok step

/-- The number of halvings of one after which a step is below the shortest one. -/
def maxTrials : Nat :=
  27

/-- The velocities after a Newton step from an evaluated iterate. -/
def newtonStep (m : ContactModel α) (v : List α) (e : CostEvaluation α) :
    Except Error (List α) := do
  let H ← m.hessian v (some e)
  let solution ← Elimination.solve H e.gradient
  let direction := Vec.neg solution
  let slope := Vec.dot e.gradient direction
  let step ← m.lineSearch v direction e.cost slope 1 maxTrials
  .ok (advance v step direction)

/-- Newton's method from `v`, with the records of the iterations. -/
def iterate (m : ContactModel α) (tolerance : α) (v : List α) :
    (iterations : Nat) → Except Error (List α × List (NewtonRecord α))
  | 0 => .ok (v, [])
  | iterations + 1 => do
      let e ← m.evaluate v true
      let entry : NewtonRecord α :=
        ⟨e.momentumCost, e.regularizerCost, e.cost, Vec.norm e.gradient⟩
      if entry.gradientNorm ≤ tolerance then .ok (v, [entry])
      else do
        let w ← m.newtonStep v e
        let (result, entries) ← m.iterate tolerance w iterations
        .ok (result, entry :: entries)

/-- Newton's method from the velocities in a tensor. -/
def newton (m : ContactModel α) (v : Tensor α) (maxIterations : Int) (tolerance : α) :
    Except Error (Tensor α × List (NewtonRecord α)) := do
  if maxIterations ≤ 0 then .ok (v, [])
  else do
    let xs ← m.velocityOperand v
    let (result, entries) ← (m.cast v.format).iterate tolerance xs maxIterations.toNat
    .ok (Tensor.ofVec v.format result, entries)

end ContactModel
end ConvexContact
