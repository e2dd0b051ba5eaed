import ConvexContact.ContactProblem

/-!
# Sessions on a contact problem

A session is a sequence of calls on one contact problem.  The calls update the records of the
problem in place: the matrices and the free motions of the cliques, the positions of their
velocities, the number of all velocities, the constraints, the graph, and the mark that the problem
is finalized.

**Failure.**  A call can fail in its midst; what it has recorded until then remains.

**Contents.**  `LiveProblem.contents` is the contact problem that the records describe.
-/

namespace ConvexContact

/-- The records of a contact problem. -/
structure LiveProblem (α : Type) where
  timeStep : α
  dynamics : List (DenseMatrix α)
  freeVelocities : List (List α)
  velocityStarts : List Nat
  numVelocities : Nat
  held : List (HeldConstraint α)
  graph? : Option ContactGraph
  finalized : Bool

namespace LiveProblem

variable {α : Type}

def numCliques (p : LiveProblem α) : Nat :=
  p.dynamics.length

/-- Numbers of velocities of the cliques. -/
def cliqueSizes (p : LiveProblem α) : List Nat :=
  p.dynamics.map (·.numRows)

/-- Number of velocities of the clique at a position. -/
def cliqueSize (p : LiveProblem α) (i : Int) : Except Error Nat :=
  (entryAt? p.dynamics i).map (·.numRows)

/-- Position of the first velocity of a clique. -/
def velocityStart (p : LiveProblem α) (i : Int) : Except Error Nat :=
  entryAt? p.velocityStarts i

/-- The free-motion velocities of all cliques, one after the other. -/
def freeVelocity (p : LiveProblem α) : List α :=
  p.freeVelocities.flatten

/-- The free-motion velocity of the clique at a position. -/
def cliqueFreeVelocity (p : LiveProblem α) (i : Int) : Except Error (List α) :=
  entryAt? p.freeVelocities i

/-- The constraints in the order in which they were added. -/
def constraints (p : LiveProblem α) : List (Constraint α) :=
  p.held.map (·.constraint)

/-- What the constraints contribute to the graph. -/
def members (p : LiveProblem α) : List Member :=
  p.constraints.map ContactProblem.memberOf

/-- The contact problem that the records describe. -/
def contents (p : LiveProblem α) : ContactProblem α :=
  ⟨p.timeStep, (p.dynamics.zip p.freeVelocities).map fun (A, v) => ⟨A, v⟩, p.held, p.graph?⟩

/-- The line that reports that the graph has been built. -/
def summary (p : LiveProblem α) (g : ContactGraph) : String :=
  s!"SapContactProblem: {p.numCliques} cliques, {p.numVelocities} velocities, " ++
    s!"{p.held.length} constraints, {totalSize (p.constraints.map Constraint.numEquations)} " ++
    s!"equations, {g.numEdges} graph edges."

end LiveProblem

/-- A problem in use, with the identity numbers of the constraints and the lines reported. -/
structure Session (α : Type) where
  problem : LiveProblem α
  ids : IdTable
  log : List String

namespace Session

variable {α : Type}

/-- What a call does to a session. -/
abbrev Action (α β : Type) : Type :=
  ExceptT Error (StateM (Session α)) β

/-- The outcome of an action, with the session after it. -/
def outcome (s : Session α) {β : Type} (x : Action α β) : Except Error β × Session α :=
  x.run s

/-- An action is followed by the next one unless it fails. -/
theorem outcome_bind (s : Session α) {β γ : Type} (x : Action α β) (f : β → Action α γ) :
    s.outcome (x >>= f) =
      match s.outcome x with
      | (.ok b, t) => t.outcome (f b)
      | (.error e, t) => (.error e, t) := by
  change ExceptT.bindCont f (x.run s).1 (x.run s).2 = _
  unfold outcome
  rcases x.run s with ⟨_ | _, _⟩ <;> rfl

@[simp] theorem outcome_pure (s : Session α) {β : Type} (b : β) :
    s.outcome (pure b) = (.ok b, s) :=
  rfl

@[simp] theorem outcome_throw (s : Session α) {β : Type} (e : Error) :
    s.outcome (throw e : Action α β) = (.error e, s) :=
  rfl

/-- The records of the problem. -/
def records : Action α (LiveProblem α) := do
  return (← get).problem

@[simp] theorem outcome_records (s : Session α) :
    s.outcome records = (.ok s.problem, s) :=
  rfl

/-- Changes the records of the problem. -/
def update (f : LiveProblem α → LiveProblem α) : Action α Unit :=
  modify fun s => { s with problem := f s.problem }

@[simp] theorem outcome_update (s : Session α) (f : LiveProblem α → LiveProblem α) :
    s.outcome (update f) = (.ok (), { s with problem := f s.problem }) :=
  rfl

/-- Sets the identity number of a constraint. -/
def setId (handle : Nat) (id : Int) : Action α Unit :=
  modify fun s => { s with ids := s.ids.set handle (some id) }

@[simp] theorem outcome_setId (s : Session α) (handle : Nat) (id : Int) :
    s.outcome (setId handle id) = (.ok (), { s with ids := s.ids.set handle (some id) }) :=
  rfl

/-- Reports a line. -/
def report (line : String) : Action α Unit :=
  modify fun s => { s with log := s.log ++ [line] }

@[simp] theorem outcome_report (s : Session α) (line : String) :
    s.outcome (report line) = (.ok (), { s with log := s.log ++ [line] }) :=
  rfl

/-- Goes on with a result, or fails. -/
def accept {β : Type} : Except Error β → Action α β
  | .ok b => pure b
  | .error e => throw e

@[simp] theorem outcome_accept (s : Session α) {β : Type} (x : Except Error β) :
    s.outcome (accept x) = (x, s) := by
  cases x <;> rfl

/-- Fails if the problem is finalized. -/
def checkMutable : Action α Unit := do
  if (← records).finalized then throw .frozen

theorem outcome_checkMutable (s : Session α) :
    s.outcome checkMutable = (if s.problem.finalized then .error .frozen else .ok (), s) := by
  by_cases h : s.problem.finalized <;> simp [checkMutable, outcome_bind, h]

/-- Fails if a side of a constraint does not fit the problem: its clique has to exist and to have as
many velocities as the Jacobian block has columns. -/
def checkSide (side : Nat × DenseMatrix α) : Action α Unit := do
  let p ← records
  match p.dynamics[side.1]? with
  | none => throw (.constraintCliqueMissing side.1 p.numCliques)
  | some A =>
      if side.2.numCols ≠ A.numRows then
        throw (.jacobianColumnMismatch side.1 side.2.numCols A.numRows)

/-- Checks sides of a constraint until one fails. -/
def checkSides : List (Nat × DenseMatrix α) → Action α Unit
  | [] => pure ()
  | side :: sides => do
      checkSide side
      checkSides sides

/-- Adds a constraint, whose identity number becomes its position. -/
def addConstraint (c : HeldConstraint α) : Action α Nat := do
  checkMutable
  checkSides c.constraint.sides
  let id := (← records).held.length
  setId c.handle id
  update fun p => { p with held := p.held ++ [c] }
  return id

/-- Builds the graph, unless this has been done.  The problem is marked as finalized before. -/
def finalize : Action α Unit := do
  if (← records).graph?.isNone then
    update fun p => { p with finalized := true }
    let p ← records
    let g ← accept (ContactGraph.build p.numCliques p.members)
    update fun p => { p with graph? := some g }
    report (p.summary g)

/-- The graph that has been built. -/
def graph : Action α (Option ContactGraph) := do
  finalize
  return (← records).graph?

variable [Scalar α]

/-- Adds a clique; the result is its position. -/
def addClique (A v : Tensor α) : Action α Nat := do
  checkMutable
  let c ← accept (Clique.ofTensors A v)
  let index := (← records).numCliques
  update fun p => { p with dynamics := p.dynamics ++ [c.dynamics] }
  update fun p => { p with freeVelocities := p.freeVelocities ++ [c.freeVelocity] }
  update fun p => { p with velocityStarts := p.velocityStarts ++ [p.numVelocities] }
  update fun p => { p with numVelocities := p.numVelocities + c.size }
  return index

/-- Adds a list of cliques. -/
def addCliques : List (Tensor α × Tensor α) → Action α Unit
  | [] => pure ()
  | (A, v) :: rest => do
      let _ ← addClique A v
      addCliques rest

/-- A session on a problem without cliques. -/
def ofTimeStep (ids : IdTable) (timeStep : α) : Except Error (Session α) :=
  if timeStep ≤ 0 then .error (.timeStepNotPositive (toString timeStep))
  else .ok ⟨⟨timeStep, [], [], [], 0, [], none, false⟩, ids, []⟩

/-- A session on a problem with given cliques. -/
def ofCliques (ids : IdTable) (timeStep : α) (A? : Option (List (Tensor α)))
    (v? : Option (FreeVelocities α)) : Except Error (Session α) := do
  let s ← ofTimeStep ids timeStep
  match A?, v? with
  | none, none => .ok s
  | some A, some v => do
      let vs ← ContactProblem.splitVelocities A v
      if A.length ≠ vs.length then .error (.cliqueListMismatch A.length vs.length)
      else match s.outcome (addCliques (A.zip vs)) with
        | (.ok _, s) => .ok s
        | (.error e, _) => .error e
  | _, _ => .error .dynamicsWithoutVelocities

/-- The calls that change a problem. -/
inductive Call (α : Type)
  | addClique (A v : Tensor α)
  | addConstraint (c : HeldConstraint α)
  | finalize
  | graph

/-- What a call answers. -/
inductive Answer
  | position (i : Nat)
  | done
  | graph (g? : Option ContactGraph)
  deriving DecidableEq, Repr

/-- Performs a call. -/
def perform : Call α → Action α Answer
  | .addClique A v => return .position (← addClique A v)
  | .addConstraint c => return .position (← addConstraint c)
  | .finalize => do
      finalize
      return .done
  | .graph => return .graph (← graph)

/-- The session after a sequence of calls, some of which may fail. -/
def after (s : Session α) : List (Call α) → Session α
  | [] => s
  | call :: calls => after (s.outcome (perform call)).2 calls

end Session

end ConvexContact
