import ConvexContact.Constraint
import ConvexContact.ContactGraph

/-!
# Contact problems

A contact problem has a time step, a list of cliques, each with a symmetric dynamics matrix and a
free-motion velocity, and a list of constraints on the cliques.

**Life cycle.**  Cliques and constraints are added one at a time.  Finalizing the problem builds
its graph; from then on nothing can be added.  A call that is refused gives no new problem.

**Identity numbers.**  A constraint can be held by several problems and several times by one.
Taking a constraint in sets its identity number to its position in the problem.  These numbers are
kept in a table of their own, under the handle of the constraint.
-/

namespace ConvexContact

/-- Identity numbers of constraints by handle. -/
structure IdTable where
  ids : List (Nat × Option Int)
  deriving Repr

namespace IdTable

def empty : IdTable :=
  ⟨[]⟩

/-- The identity number of a constraint, if it has one. -/
def get (t : IdTable) (handle : Nat) : Option Int :=
  (t.ids.lookup handle).join

/-- Sets the identity number of a constraint. -/
def set (t : IdTable) (handle : Nat) (id : Option Int) : IdTable :=
  ⟨(handle, id) :: t.ids.filter (·.1 ≠ handle)⟩

@[simp] theorem get_set_self (t : IdTable) (handle : Nat) (id : Option Int) :
    (t.set handle id).get handle = id := by
  simp [get, set]

end IdTable

/-- A group of velocities with its dynamics matrix and its free motion. -/
structure Clique (α : Type) where
  dynamics : DenseMatrix α
  freeVelocity : List α

namespace Clique

variable {α β : Type}

/-- Number of velocities. -/
def size (c : Clique α) : Nat :=
  c.dynamics.numRows

/-- Every number changed. -/
def map (f : α → β) (c : Clique α) : Clique β :=
  ⟨c.dynamics.map f, c.freeVelocity.map f⟩

variable [Scalar α]

/-- Largest difference of opposite entries that counts as rounding. -/
def symmetryTolerance (A : DenseMatrix α) : α :=
  let largest := Scalar.round .double A.largestEntry
  1000 * Scalar.epsilon A.format * (if largest < 1 then 1 else largest)

/-- Opposite entries are equal up to rounding. -/
def NearlySymmetric (A : DenseMatrix α) : Prop :=
  ¬ symmetryTolerance A < Scalar.round .double (A.sub A.transpose).largestEntry

instance (A : DenseMatrix α) : Decidable (NearlySymmetric A) :=
  inferInstanceAs (Decidable (¬ _))

/-- The clique with the given dynamics matrix and free-motion velocity. -/
def ofTensors (A v : Tensor α) : Except Error (Clique α) :=
  match A.matrix? with
  | none => .error (.dynamicsNotSquare A.shape)
  | some dynamics =>
      if dynamics.numRows ≠ dynamics.numCols then .error (.dynamicsNotSquare A.shape)
      else if dynamics.numRows = 0 then .error .emptyClique
      else if v.shape ≠ [dynamics.numRows] then
        .error (.freeVelocityShape dynamics.numRows v.shape)
      else if NearlySymmetric dynamics then .ok ⟨dynamics, (v.cast A.format).entries⟩
      else .error .dynamicsNotSymmetric

end Clique

/-- A constraint together with the handle of its identity number. -/
structure HeldConstraint (α : Type) where
  handle : Nat
  constraint : Constraint α

/-- Cliques, constraints, and the graph once the problem is finalized. -/
structure ContactProblem (α : Type) where
  timeStep : α
  cliques : List (Clique α)
  held : List (HeldConstraint α)
  graph? : Option ContactGraph

/-- Free-motion velocities of several cliques: one after the other, or one for each clique. -/
inductive FreeVelocities (α : Type)
  | whole (v : Tensor α)
  | each (vs : List (Tensor α))

namespace ContactProblem

variable {α : Type}

/-- The constraints in the order in which they were added. -/
def constraints (p : ContactProblem α) : List (Constraint α) :=
  p.held.map (·.constraint)

def isFinalized (p : ContactProblem α) : Bool :=
  p.graph?.isSome

def numCliques (p : ContactProblem α) : Nat :=
  p.cliques.length

/-- Numbers of velocities of the cliques. -/
def cliqueSizes (p : ContactProblem α) : List Nat :=
  p.cliques.map Clique.size

/-- Number of all velocities. -/
def numVelocities (p : ContactProblem α) : Nat :=
  totalSize p.cliqueSizes

def numConstraints (p : ContactProblem α) : Nat :=
  p.held.length

/-- Numbers of equations of the constraints. -/
def equationCounts (p : ContactProblem α) : List Nat :=
  p.constraints.map Constraint.numEquations

def numEquations (p : ContactProblem α) : Nat :=
  totalSize p.equationCounts

/-- Number of velocities of the clique at a position. -/
def cliqueSize (p : ContactProblem α) (i : Int) : Except Error Nat :=
  entryAt? p.cliqueSizes i

/-- Position of the first velocity of a clique. -/
def velocityStart (p : ContactProblem α) (i : Int) : Except Error Nat :=
  entryAt? (blockStarts 0 p.cliqueSizes) i

/-- The constraint at a position. -/
def constraintAt (p : ContactProblem α) (i : Int) : Except Error (HeldConstraint α) :=
  entryAt? p.held i

/-- What a constraint contributes to the graph. -/
def memberOf (c : Constraint α) : Member where
  first := c.clique
  second? := c.secondClique?.map fun (k : Nat) => (k : Int)
  equations := c.numEquations

/-- The graph of the cliques and constraints. -/
def graph (p : ContactProblem α) : ContactGraph :=
  p.graph?.getD (ContactGraph.ofMembers p.numCliques (p.constraints.map memberOf))

/-- The line that reports a finalized problem. -/
def summary (p : ContactProblem α) : String :=
  s!"SapContactProblem: {p.numCliques} cliques, {p.numVelocities} velocities, " ++
    s!"{p.numConstraints} constraints, {p.numEquations} equations, " ++
    s!"{p.graph.numEdges} graph edges."

/-- The finalized problem, with the line to be reported if it was not finalized before. -/
def finalize (p : ContactProblem α) : ContactProblem α × Option String :=
  match p.graph? with
  | some _ => (p, none)
  | none => ({ p with graph? := some p.graph }, some p.summary)

variable [Scalar α]

/-- A problem without cliques. -/
def ofTimeStep (timeStep : α) : Except Error (ContactProblem α) :=
  if timeStep ≤ 0 then .error (.timeStepNotPositive (toString timeStep))
  else .ok ⟨timeStep, [], [], none⟩

/-- Adds a clique; the result has its position. -/
def addClique (p : ContactProblem α) (A v : Tensor α) :
    Except Error (Nat × ContactProblem α) :=
  if p.isFinalized then .error .frozen
  else (Clique.ofTensors A v).map fun c => (p.numCliques, { p with cliques := p.cliques ++ [c] })

/-- Adds a list of cliques. -/
def addCliques (p : ContactProblem α) : List (Tensor α × Tensor α) →
    Except Error (ContactProblem α)
  | [] => .ok p
  | (A, v) :: rest => do
      let (_, p) ← p.addClique A v
      p.addCliques rest

/-- The velocities of the single cliques. -/
def splitVelocities (A : List (Tensor α)) : FreeVelocities α → Except Error (List (Tensor α))
  | .each vs => .ok vs
  | .whole v =>
      match v.shape with
      | [] => .error .noLength
      | [n] => do
          let sizes ← A.mapM Tensor.leadingSize
          if totalSize sizes ≠ n then .error (.velocityTotalMismatch n (totalSize sizes))
          else .ok ((Vec.split sizes v.entries).map (Tensor.ofVec v.format))
      | _ :: rest => .ok (v.slices.map (Tensor.ofEntries v.format rest))

/-- A problem with given cliques. -/
def ofCliques (timeStep : α) (A? : Option (List (Tensor α)))
    (v? : Option (FreeVelocities α)) : Except Error (ContactProblem α) := do
  let p ← ofTimeStep timeStep
  match A?, v? with
  | none, none => .ok p
  | some A, some v => do
      let vs ← splitVelocities A v
      if A.length ≠ vs.length then .error (.cliqueListMismatch A.length vs.length)
      else p.addCliques (A.zip vs)
  | _, _ => .error .dynamicsWithoutVelocities

/-- A side of a constraint fits the problem: its clique exists and has as many velocities as the
Jacobian block has columns. -/
def checkSide (p : ContactProblem α) (side : Nat × DenseMatrix α) : Except Error Unit :=
  match p.cliques[side.1]? with
  | none => .error (.constraintCliqueMissing side.1 p.numCliques)
  | some c =>
      if side.2.numCols ≠ c.size then
        .error (.jacobianColumnMismatch side.1 side.2.numCols c.size)
      else .ok ()

/-- Adds a constraint, whose identity number becomes its position. -/
def addConstraint (p : ContactProblem α) (ids : IdTable) (c : HeldConstraint α) :
    Except Error (Nat × ContactProblem α × IdTable) :=
  if p.isFinalized then .error .frozen
  else do
    c.constraint.sides.forM p.checkSide
    let id := p.numConstraints
    .ok (id, { p with held := p.held ++ [c] }, ids.set c.handle (some id))

/-- The free-motion velocities of all cliques, one after the other. -/
def freeVelocity (p : ContactProblem α) : List α :=
  p.cliques.flatMap (·.freeVelocity)

/-- The format of the velocities of all cliques. -/
def velocityFormat (p : ContactProblem α) : Format :=
  (p.cliques.map (·.dynamics.format)).foldl Format.join .single

/-- The free-motion velocity of the clique at a position. -/
def cliqueFreeVelocity (p : ContactProblem α) (i : Int) : Except Error (Tensor α) :=
  (entryAt? p.cliques i).map fun c => Tensor.ofVec c.dynamics.format c.freeVelocity

end ContactProblem

end ConvexContact
