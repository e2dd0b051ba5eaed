import ConvexContact.ConstraintBundle
import ConvexContact.ContactProblem.Delassus

/-!
# Contact models

A contact model is what a solver sees of a contact problem: only the cliques that take part in
some constraint, in the order of their first occurrence on an edge of the graph, with their
velocities `v`, and the bundle of the constraints over these cliques.

**Cost.**  With the free motion `v*` and the dynamics matrix `A`, the cost of `v` is
`½ (v - v*)ᵀ A (v - v*)` plus the cost contributions of the constraints.  Its gradient is
`A (v - v*) - Jᵀ γ` for the projected impulses `γ`, and its second derivative `A + Jᵀ G J`.
-/

namespace ConvexContact

/-- The participating part of a contact problem. -/
structure ContactModel (α : Type) where
  timeStep : α
  /-- Number of all cliques of the problem. -/
  numCliques : Nat
  cliquesPermutation : PartialPermutation
  velocitiesPermutation : PartialPermutation
  delassus : Tensor α
  bundle : ConstraintBundle α
  dynamics : List (DenseMatrix α)
  /-- Format of the free motion. -/
  format : Format
  freeVelocity : List α
  /-- Free motion of all cliques of the problem. -/
  fullFreeVelocity : List α

/-- The cost at some velocities, with all that was computed on the way. -/
structure CostEvaluation (α : Type) where
  momentumCost : α
  regularizerCost : α
  gradient : List α
  constraintVelocities : List α
  unprojected : List α
  impulses : List α
  derivatives? : Option (List (DenseMatrix α))

namespace CostEvaluation

variable {α : Type} [Scalar α]

/-- The total cost. -/
def cost (e : CostEvaluation α) : α :=
  e.momentumCost + e.regularizerCost

end CostEvaluation

namespace ContactModel

variable {α β : Type}

/-- Number of participating cliques. -/
def numParticipatingCliques (m : ContactModel α) : Nat :=
  m.cliquesPermutation.permutedSize

/-- Number of participating velocities. -/
def numVelocities (m : ContactModel α) : Nat :=
  m.velocitiesPermutation.permutedSize

/-- The text that describes a model. -/
def text (m : ContactModel α) : String :=
  s!"SapModel(num_velocities={m.numVelocities}, " ++
    s!"num_constraints={m.bundle.numConstraints})"

/-- The line that reports a model. -/
def summary (m : ContactModel α) : String :=
  s!"SapModel: {m.numParticipatingCliques}/{m.numCliques} participating cliques, " ++
    s!"{m.numVelocities} velocities, {m.bundle.numConstraints} constraints, " ++
    s!"{m.bundle.numEquations} equations, " ++
    s!"{m.bundle.jacobian.blocks.length} Jacobian blocks."

/-- Every number changed. -/
def map (f : α → β) (m : ContactModel α) : ContactModel β where
  timeStep := f m.timeStep
  numCliques := m.numCliques
  cliquesPermutation := m.cliquesPermutation
  velocitiesPermutation := m.velocitiesPermutation
  delassus := m.delassus.map f
  bundle := m.bundle.map f
  dynamics := m.dynamics.map (DenseMatrix.map f)
  format := m.format
  freeVelocity := m.freeVelocity.map f
  fullFreeVelocity := m.fullFreeVelocity.map f

variable [Scalar α]

/-- The model of a problem. -/
def build (p : ContactProblem α) : Except Error (ContactModel α) := do
  let cliques ← p.graph.cliquesPermutation
  let velocities ← cliques.expand (p.cliqueSizes.map fun (n : Nat) => (n : Int))
  let delassus ← p.delassusDiagonal
  let bundle ← ConstraintBundle.build p delassus (some cliques)
  let full := p.freeVelocity.map (Scalar.round p.velocityFormat)
  .ok
    { timeStep := p.timeStep
      numCliques := p.numCliques
      cliquesPermutation := cliques
      velocitiesPermutation := velocities
      delassus := delassus
      bundle := bundle
      dynamics := (cliques.gather p.cliques).map (·.dynamics)
      format := p.velocityFormat
      freeVelocity := velocities.gather full
      fullFreeVelocity := full }

/-- Finalizes a problem and builds its model, with the lines to be reported on the way; the problem
stays finalized if there is no model. -/
def ofProblem (p : ContactProblem α) :
    Except Error (ContactModel α) × ContactProblem α × List String :=
  let (p, line?) := p.finalize
  match build p with
  | .ok m => (.ok m, p, line?.toList ++ [m.summary])
  | .error e => (.error e, p, line?.toList)

/-- The model with the numbers of its evaluations in a format. -/
def cast (format : Format) (m : ContactModel α) : ContactModel α :=
  { m with
    bundle := m.bundle.cast format
    dynamics := m.dynamics.map (DenseMatrix.cast format)
    format := format
    freeVelocity := m.freeVelocity.map (Scalar.round format)
    fullFreeVelocity := m.fullFreeVelocity.map (Scalar.round format) }

/-- `A v`, clique by clique. -/
def dynamicsTimes (m : ContactModel α) (v : List α) : List α :=
  (List.zipWith DenseMatrix.mulVec m.dynamics
    (Vec.split (m.dynamics.map (·.numRows)) v)).flatten

/-- `A (v - v*)`. -/
def momentumGain (m : ContactModel α) (v : List α) : List α :=
  m.dynamicsTimes (Vec.sub v m.freeVelocity)

/-- `½ (v - v*)ᵀ A (v - v*)`. -/
def momentumCost (m : ContactModel α) (v : List α) : α :=
  Scalar.half * Vec.dot (Vec.sub v m.freeVelocity) (m.momentumGain v)

/-- Impulses before the projection at participating velocities. -/
def unprojected (m : ContactModel α) (v : List α) : Except Error (List α) :=
  m.bundle.unprojectedImpulses (m.bundle.jacobian.mulVec v)

/-- The cost and its gradient, for participating velocities of the right size; the derivatives of
the projections are computed on request. -/
def evaluate (m : ContactModel α) (v : List α) (withDerivatives : Bool) :
    Except Error (CostEvaluation α) := do
  let gain := m.momentumGain v
  let velocities := m.bundle.jacobian.mulVec v
  let y ← m.bundle.unprojectedImpulses velocities
  let (gamma, derivatives?) ←
    if withDerivatives then (m.bundle.project y).map fun (gamma, D) => (gamma, some D)
    else (m.bundle.impulses y).map fun gamma => (gamma, none)
  let regularizerCost ← m.bundle.regularizerCost y
  .ok
    { momentumCost := m.momentumCost v
      regularizerCost := regularizerCost
      gradient := Vec.sub gain (m.bundle.jacobian.transposeMulVec gamma)
      constraintVelocities := velocities
      unprojected := y
      impulses := gamma
      derivatives? := derivatives? }

/-- `A + Jᵀ G J` for the derivative blocks of the projections. -/
def hessianOf (m : ContactModel α) (derivatives : List (DenseMatrix α)) : DenseMatrix α :=
  let H := m.bundle.hessianContribution (m.bundle.hessianBlocks derivatives)
  if m.dynamics.isEmpty then H
  else H.add (DenseMatrix.blockDiagonal .single m.dynamics)

/-- The second derivative of the cost.  An evaluation at the same velocities saves the projections,
provided that it has their derivatives. -/
def hessian (m : ContactModel α) (v : List α) (evaluation? : Option (CostEvaluation α)) :
    Except Error (DenseMatrix α) := do
  match evaluation?.bind (·.derivatives?) with
  | some D => .ok (m.hessianOf D)
  | none => do
      let e ← m.evaluate v true
      .ok (m.hessianOf (e.derivatives?.getD []))

end ContactModel

end ConvexContact
