import Mathlib
import ConvexContact.ContactProblem.Session
import ConvexContact.Proofs.Assembly

/-!
# Steps of a contact problem in use

**Invariant.**  The records of a problem are consistent: the free motions have the sizes of the
cliques, the positions and the number of the velocities are those of the sizes, the constraints fit
the cliques, and a problem is finalized exactly if it has a graph, which is the one of its cliques
and constraints (`LiveProblem.Consistent`).

**Steps.**  A call on consistent records either fails and leaves the session as it is, or adds one
clique or one constraint, or seals the problem (`Session.Step`, `Session.step_perform`).  Each step
keeps the invariant (`Session.Step.consistent`), hence so does every sequence of calls
(`Session.consistent_after`).

**Start.**  A problem that is made with cliques is one without cliques to which they were added
(`Session.exists_after_of_ofCliques`).

**Result.**  `Session.reachable_contents`: the contents of a session are a reachable problem.
-/

namespace ConvexContact

section Records

variable {α : Type}

namespace LiveProblem

/-- The records with a clique added. -/
def withClique (p : LiveProblem α) (c : Clique α) : LiveProblem α :=
  { p with
    dynamics := p.dynamics ++ [c.dynamics]
    freeVelocities := p.freeVelocities ++ [c.freeVelocity]
    velocityStarts := p.velocityStarts ++ [p.numVelocities]
    numVelocities := p.numVelocities + c.size }

/-- The records with a constraint added. -/
def withConstraint (p : LiveProblem α) (c : HeldConstraint α) : LiveProblem α :=
  { p with held := p.held ++ [c] }

/-- The records with a graph. -/
def withGraph (p : LiveProblem α) (g : ContactGraph) : LiveProblem α :=
  { p with graph? := some g, finalized := true }

/-- What the calls keep of the records of a problem. -/
structure Consistent (p : LiveProblem α) : Prop where
  sizes_eq : p.freeVelocities.map List.length = p.cliqueSizes
  starts_eq : p.velocityStarts = blockStarts 0 p.cliqueSizes
  count_eq : p.numVelocities = totalSize p.cliqueSizes
  fits : ∀ c ∈ p.constraints, ∀ side ∈ c.sides, p.contents.FitsSide side
  finalized_eq : p.finalized = p.graph?.isSome
  graph_eq : ∀ g, p.graph? = some g → ContactGraph.build p.numCliques p.members = .ok g

theorem cliqueSizes_withClique
    (p : LiveProblem α) (c : Clique α) :
    (p.withClique c).cliqueSizes = p.cliqueSizes ++ [c.size] := by
  simp [withClique, cliqueSizes, Clique.size]

theorem constraints_withConstraint
    (p : LiveProblem α) (c : HeldConstraint α) :
    (p.withConstraint c).constraints = p.constraints ++ [c.constraint] := by
  simp [withConstraint, constraints]

theorem contents_withGraph
    (p : LiveProblem α) (g : ContactGraph) :
    (p.withGraph g).contents = { p.contents with graph? := some g } :=
  rfl

namespace Consistent

variable {p : LiveProblem α}

theorem length_freeVelocities
    (h : p.Consistent) :
    p.freeVelocities.length = p.dynamics.length := by
  have hlength := congrArg List.length h.sizes_eq
  rwa [List.length_map, cliqueSizes, List.length_map] at hlength

theorem map_dynamics
    (h : p.Consistent) :
    p.contents.cliques.map (·.dynamics) = p.dynamics := by
  rw [contents, List.map_map]
  exact List.map_fst_zip h.length_freeVelocities.ge

theorem map_freeVelocity
    (h : p.Consistent) :
    p.contents.cliques.map (·.freeVelocity) = p.freeVelocities := by
  rw [contents, List.map_map]
  exact List.map_snd_zip h.length_freeVelocities.le

theorem map_size
    (h : p.Consistent) :
    p.contents.cliques.map Clique.size = p.cliqueSizes := by
  rw [cliqueSizes, ← h.map_dynamics, List.map_map]
  rfl

theorem numCliques_contents
    (h : p.Consistent) :
    p.contents.numCliques = p.numCliques := by
  rw [numCliques, ← h.map_dynamics, List.length_map]
  rfl

theorem contents_withClique
    (h : p.Consistent)
    (c : Clique α) :
    (p.withClique c).contents = { p.contents with cliques := p.contents.cliques ++ [c] } := by
  unfold contents withClique
  dsimp only
  rw [List.zip_append h.length_freeVelocities.symm, List.map_append]
  rfl

/-- The graph of consistent records can be built. -/
theorem build_eq_ok
    (h : p.Consistent) :
    ContactGraph.build p.numCliques p.members =
      .ok (ContactGraph.ofMembers p.numCliques p.members) := by
  have hlt : ∀ c ∈ p.contents.constraints, ∀ side ∈ c.sides, side.1 < p.contents.numCliques := by
    intro c hc side hside
    obtain ⟨k, hk, -⟩ := h.fits c hc side hside
    exact (List.getElem?_eq_some_iff.1 hk).1
  have hmembers := ContactProblem.members_inRange hlt
  rw [h.numCliques_contents] at hmembers
  exact ContactGraph.build_eq_ok hmembers

theorem graph?_eq_none
    (h : p.Consistent)
    (hopen : p.finalized = false) :
    p.graph? = none := by
  rw [h.finalized_eq] at hopen
  simpa using hopen

/-- Records without cliques and constraints are consistent. -/
theorem empty
    (timeStep : α) :
    Consistent ⟨timeStep, [], [], [], 0, [], none, false⟩ where
  sizes_eq := rfl
  starts_eq := rfl
  count_eq := rfl
  fits := by simp [constraints]
  finalized_eq := rfl
  graph_eq := by simp

/-- Adding a clique keeps records consistent, unless there is a graph. -/
theorem withClique
    (h : p.Consistent)
    (hopen : p.finalized = false)
    {c : Clique α}
    (hc : c.freeVelocity.length = c.size) :
    (p.withClique c).Consistent := by
  have hgraph : (p.withClique c).graph? = none := h.graph?_eq_none hopen
  refine ⟨?_, ?_, ?_, ?_, h.finalized_eq, ?_⟩
  · rw [cliqueSizes_withClique, ← h.sizes_eq, ← hc]
    simp [LiveProblem.withClique]
  · rw [cliqueSizes_withClique, blockStarts_append, ← h.starts_eq, Nat.zero_add, ← h.count_eq]
    rfl
  · rw [cliqueSizes_withClique, totalSize_append, ← h.count_eq]
    rfl
  · intro k hk side hside
    obtain ⟨clique, hclique, hcols⟩ := h.fits k hk side hside
    refine ⟨clique, ?_, hcols⟩
    rw [h.contents_withClique]
    have hlt : side.1 < p.contents.cliques.length :=
      (List.getElem?_eq_some_iff.1 hclique).1
    rwa [List.getElem?_append_left hlt]
  · intro g hg
    rw [hgraph] at hg
    cases hg

/-- Adding a constraint that fits keeps records consistent, unless there is a graph. -/
theorem withConstraint
    (h : p.Consistent)
    (hopen : p.finalized = false)
    {c : HeldConstraint α}
    (hc : ∀ side ∈ c.constraint.sides, p.contents.FitsSide side) :
    (p.withConstraint c).Consistent := by
  have hgraph : (p.withConstraint c).graph? = none := h.graph?_eq_none hopen
  refine ⟨h.sizes_eq, h.starts_eq, h.count_eq, ?_, h.finalized_eq, ?_⟩
  · intro k hk
    rw [constraints_withConstraint, List.mem_append, List.mem_singleton] at hk
    rcases hk with hk | rfl
    · exact h.fits k hk
    · exact hc
  · intro g hg
    rw [hgraph] at hg
    cases hg

/-- Adding the graph keeps records consistent. -/
theorem withGraph
    (h : p.Consistent)
    {g : ContactGraph}
    (hg : ContactGraph.build p.numCliques p.members = .ok g) :
    (p.withGraph g).Consistent := by
  refine ⟨h.sizes_eq, h.starts_eq, h.count_eq, h.fits, rfl, ?_⟩
  intro g' hg'
  cases hg'
  exact hg

/-- The records of a clique are those of its own matrix and free motion, and its velocities are
behind those of the cliques before it. -/
theorem clique_records
    (h : p.Consistent)
    {k : ℕ} {c : Clique α}
    (hk : p.contents.cliques[k]? = some c) :
    p.cliqueSize k = .ok c.size ∧ p.cliqueFreeVelocity k = .ok c.freeVelocity ∧
      p.velocityStart k = .ok (totalSize (p.cliqueSizes.take k)) ∧
      Vec.slice (totalSize (p.cliqueSizes.take k)) c.size p.freeVelocity = c.freeVelocity := by
  have hdynamics : p.dynamics[k]? = some c.dynamics := by
    rw [← h.map_dynamics, List.getElem?_map, hk]
    rfl
  have hfree : p.freeVelocities[k]? = some c.freeVelocity := by
    rw [← h.map_freeVelocity, List.getElem?_map, hk]
    rfl
  have hsize : p.cliqueSizes[k]? = some c.size := by
    rw [cliqueSizes, List.getElem?_map, hdynamics]
    rfl
  refine ⟨?_, entryAt?_natCast hfree, ?_, ?_⟩
  · rw [cliqueSize, entryAt?_natCast hdynamics]
    rfl
  · apply entryAt?_natCast
    rw [h.starts_eq, Vec.blockStarts_getElem?, if_pos (List.getElem?_eq_some_iff.1 hsize).1,
      Nat.zero_add]
  · have hpart := Vec.part_flatten h.sizes_eq k
    rwa [Vec.part_eq_slice, List.getD_eq_getElem?_getD, List.getD_eq_getElem?_getD, hsize, hfree]
      at hpart

end Consistent

end LiveProblem

end Records

namespace Session

section Calls

variable {α : Type} {s : Session α}

/-- Checking a side of a constraint changes nothing and has the outcome that it has for the
contents. -/
theorem outcome_checkSide
    (hs : s.problem.Consistent)
    (side : ℕ × DenseMatrix α) :
    s.outcome (checkSide side) = (s.problem.contents.checkSide side, s) := by
  unfold checkSide ContactProblem.checkSide
  rw [outcome_bind, outcome_records]
  dsimp only
  rw [← hs.map_dynamics, List.getElem?_map, hs.numCliques_contents]
  cases s.problem.contents.cliques[side.1]? with
  | none =>
      rfl
  | some c =>
      by_cases hcols : side.2.numCols = c.dynamics.numRows <;> simp [Clique.size, hcols]

theorem outcome_checkSides
    (hs : s.problem.Consistent)
    (sides : List (ℕ × DenseMatrix α)) :
    s.outcome (checkSides sides) = (sides.forM s.problem.contents.checkSide, s) := by
  induction sides with
  | nil =>
      rfl
  | cons side sides ih =>
      rw [checkSides, outcome_bind, outcome_checkSide hs]
      change _ = (s.problem.contents.checkSide side >>= fun _ => _, s)
      cases s.problem.contents.checkSide side with
      | error e =>
          rfl
      | ok _ =>
          exact ih

/-- A constraint is added if the problem is not finalized and the constraint fits. -/
theorem outcome_addConstraint
    (hs : s.problem.Consistent)
    (c : HeldConstraint α) :
    s.outcome (addConstraint c) =
      if s.problem.finalized then (.error .frozen, s)
      else match c.constraint.sides.forM s.problem.contents.checkSide with
        | .error e => (.error e, s)
        | .ok _ =>
            (.ok s.problem.held.length,
              { s with
                problem := s.problem.withConstraint c
                ids := s.ids.set c.handle (some (s.problem.held.length : ℤ)) }) := by
  unfold addConstraint
  rw [outcome_bind, outcome_checkMutable]
  split_ifs with hfinal
  · rfl
  · dsimp only
    rw [outcome_bind, outcome_checkSides hs]
    cases c.constraint.sides.forM s.problem.contents.checkSide with
    | error e =>
        rfl
    | ok _ =>
        simp only [outcome_bind, outcome_records, outcome_setId, outcome_update, outcome_pure]
        rfl

/-- The session with the graph of the problem built. -/
def sealed (s : Session α) : Session α :=
  match s.problem.graph? with
  | some _ => s
  | none =>
      let g := ContactGraph.ofMembers s.problem.numCliques s.problem.members
      { s with problem := s.problem.withGraph g, log := s.log ++ [s.problem.summary g] }

/-- Finalizing builds the graph and does not fail. -/
theorem outcome_finalize
    (hs : s.problem.Consistent) :
    s.outcome finalize = (.ok (), s.sealed) := by
  unfold finalize sealed
  rw [outcome_bind, outcome_records]
  dsimp only
  cases hgraph : s.problem.graph? with
  | some g =>
      rfl
  | none =>
      have hbuild :
          ContactGraph.build (LiveProblem.numCliques { s.problem with finalized := true })
            (LiveProblem.members { s.problem with finalized := true }) =
          .ok (ContactGraph.ofMembers s.problem.numCliques s.problem.members) :=
        hs.build_eq_ok
      simp only [Option.isNone_none, if_true, outcome_bind, outcome_update, outcome_records,
        outcome_accept, hbuild, outcome_report]
      rfl

/-- The problem of a sealed session has the graph of its cliques and constraints. -/
theorem exists_problem_sealed
    (hs : s.problem.Consistent) :
    ∃ g, s.sealed.problem = s.problem.withGraph g ∧
      ContactGraph.build s.problem.numCliques s.problem.members = .ok g := by
  unfold sealed
  cases hgraph : s.problem.graph? with
  | none =>
      exact ⟨_, rfl, hs.build_eq_ok⟩
  | some g =>
      refine ⟨g, ?_, hs.graph_eq g hgraph⟩
      have hfinal : s.problem.finalized = true := by
        rw [hs.finalized_eq, hgraph]
        rfl
      obtain ⟨⟨timeStep, dynamics, free, starts, count, held, graph?, finalized⟩, ids, log⟩ := s
      cases hgraph
      cases hfinal
      rfl

theorem consistent_sealed
    (hs : s.problem.Consistent) :
    s.sealed.problem.Consistent := by
  obtain ⟨g, hsealed, hg⟩ := exists_problem_sealed hs
  rw [hsealed]
  exact hs.withGraph hg

theorem sealed_of_finalized
    (hs : s.problem.Consistent)
    (hfinal : s.problem.finalized = true) :
    s.sealed = s := by
  rw [hs.finalized_eq, Option.isSome_iff_exists] at hfinal
  obtain ⟨g, hg⟩ := hfinal
  unfold sealed
  rw [hg]

/-- The graph is that of the sealed session. -/
theorem outcome_graph
    (hs : s.problem.Consistent) :
    s.outcome graph = (.ok s.sealed.problem.graph?, s.sealed) := by
  unfold graph
  rw [outcome_bind, outcome_finalize hs]
  rfl

variable [Scalar α]

/-- A clique is added if the problem is not finalized and the clique passes its checks. -/
theorem outcome_addClique
    (s : Session α) (A v : Tensor α) :
    s.outcome (addClique A v) =
      if s.problem.finalized then (.error .frozen, s)
      else match Clique.ofTensors A v with
        | .error e => (.error e, s)
        | .ok c => (.ok s.problem.numCliques, { s with problem := s.problem.withClique c }) := by
  unfold addClique
  rw [outcome_bind, outcome_checkMutable]
  split_ifs with hfinal
  · rfl
  · dsimp only
    rw [outcome_bind, outcome_accept]
    cases Clique.ofTensors A v with
    | error e =>
        rfl
    | ok c =>
        simp only [outcome_bind, outcome_records, outcome_update, outcome_pure]
        rfl

/-- What a call does to a session with consistent records. -/
inductive Step (s : Session α) : Call α → Except Error Answer → Session α → Prop
  | refused
      {call : Call α} {e : Error} :
      Step s call (.error e) s
  | clique
      {A v : Tensor α} {c : Clique α}
      (hopen : s.problem.finalized = false)
      (hc : Clique.ofTensors A v = .ok c) :
      Step s (.addClique A v) (.ok (.position s.problem.numCliques))
        { s with problem := s.problem.withClique c }
  | constraint
      {c : HeldConstraint α}
      (hopen : s.problem.finalized = false)
      (hc : c.constraint.sides.forM s.problem.contents.checkSide = .ok ()) :
      Step s (.addConstraint c) (.ok (.position s.problem.held.length))
        { s with
          problem := s.problem.withConstraint c
          ids := s.ids.set c.handle (some (s.problem.held.length : ℤ)) }
  | finalize :
      Step s .finalize (.ok .done) s.sealed
  | graph :
      Step s .graph (.ok (.graph s.sealed.problem.graph?)) s.sealed

/-- Every call on consistent records is a step. -/
theorem step_perform
    (hs : s.problem.Consistent)
    (call : Call α) :
    s.Step call (s.outcome (perform call)).1 (s.outcome (perform call)).2 := by
  cases call with
  | addClique A v =>
      rw [perform, outcome_bind, outcome_addClique]
      split_ifs with hfinal
      · exact .refused
      · cases hc : Clique.ofTensors A v with
        | error e =>
            exact .refused
        | ok c =>
            exact .clique (Bool.not_eq_true _ ▸ hfinal) hc
  | addConstraint c =>
      rw [perform, outcome_bind, outcome_addConstraint hs]
      split_ifs with hfinal
      · exact .refused
      · cases hc : c.constraint.sides.forM s.problem.contents.checkSide with
        | error e =>
            exact .refused
        | ok _ =>
            exact .constraint (Bool.not_eq_true _ ▸ hfinal) hc
  | finalize =>
      rw [perform, outcome_bind, outcome_finalize hs]
      exact .finalize
  | graph =>
      rw [perform, outcome_bind, outcome_graph hs]
      exact .graph

namespace Step

variable {call : Call α} {answer : Except Error Answer} {t : Session α}

/-- A step keeps the records consistent. -/
theorem consistent
    (h : s.Step call answer t)
    (hs : s.problem.Consistent) :
    t.problem.Consistent := by
  cases h with
  | refused =>
      exact hs
  | clique hopen hc =>
      exact hs.withClique hopen (Clique.of_ofTensors hc).2
  | constraint hopen hc =>
      exact hs.withConstraint hopen (ContactProblem.forM_checkSide_eq_ok_iff.1 hc)
  | finalize =>
      exact consistent_sealed hs
  | graph =>
      exact consistent_sealed hs

/-- A step that fails leaves the session as it is. -/
theorem eq_of_error
    {e : Error}
    (h : s.Step call (.error e) t) :
    t = s := by
  cases h
  rfl

/-- A step of a session whose problem is finalized leaves it as it is. -/
theorem eq_of_finalized
    (h : s.Step call answer t)
    (hs : s.problem.Consistent)
    (hfinal : s.problem.finalized = true) :
    t = s := by
  cases h with
  | refused =>
      rfl
  | clique hopen =>
      rw [hfinal] at hopen
      cases hopen
  | constraint hopen =>
      rw [hfinal] at hopen
      cases hopen
  | finalize =>
      exact sealed_of_finalized hs hfinal
  | graph =>
      exact sealed_of_finalized hs hfinal

end Step

/-- Sequences of calls keep the records consistent. -/
theorem consistent_after
    (hs : s.problem.Consistent)
    (calls : List (Call α)) :
    (s.after calls).problem.Consistent := by
  induction calls generalizing s with
  | nil =>
      exact hs
  | cons call calls ih =>
      exact ih ((step_perform hs call).consistent hs)

/-- Sequences of calls leave a session as it is once its problem is finalized. -/
theorem after_of_finalized
    (hs : s.problem.Consistent)
    (hfinal : s.problem.finalized = true)
    (calls : List (Call α)) :
    s.after calls = s := by
  induction calls with
  | nil =>
      rfl
  | cons call calls ih =>
      rw [after, (step_perform hs call).eq_of_finalized hs hfinal, ih]

theorem after_append
    (s : Session α) (calls later : List (Call α)) :
    s.after (calls ++ later) = (s.after calls).after later := by
  induction calls generalizing s with
  | nil =>
      rfl
  | cons call calls ih =>
      exact ih _

/-- The calls of a sequence that do not fail. -/
def accepted (s : Session α) : List (Call α) → List (Call α)
  | [] => []
  | call :: calls =>
      match s.outcome (perform call) with
      | (.ok _, t) => call :: t.accepted calls
      | (.error _, t) => t.accepted calls

theorem accepted_append
    (s : Session α) (calls later : List (Call α)) :
    s.accepted (calls ++ later) = s.accepted calls ++ (s.after calls).accepted later := by
  induction calls generalizing s with
  | nil =>
      rfl
  | cons call calls ih =>
      rw [List.cons_append, accepted, accepted, after]
      rcases s.outcome (perform call) with ⟨_ | _, t⟩
      · exact ih t
      · exact congrArg (call :: ·) (ih t)

/-- Adding a list of cliques is a sequence of calls, none of which fails. -/
theorem eq_after_of_addCliques
    {cliques : List (Tensor α × Tensor α)} {t : Session α}
    (h : s.outcome (addCliques cliques) = (.ok (), t)) :
    let calls := cliques.map fun clique => .addClique clique.1 clique.2
    t = s.after calls ∧ s.accepted calls = calls := by
  induction cliques generalizing s with
  | nil =>
      cases h
      exact ⟨rfl, rfl⟩
  | cons clique cliques ih =>
      obtain ⟨A, v⟩ := clique
      rw [addCliques, outcome_bind] at h
      dsimp only
      rw [List.map_cons, after, accepted, perform, outcome_bind]
      rcases hadd : s.outcome (addClique A v) with ⟨_ | i, s'⟩ <;> rw [hadd] at h
      · cases h
      · obtain ⟨hafter, haccepted⟩ := ih h
        refine ⟨hafter, ?_⟩
        change Call.addClique A v :: s'.accepted _ = _
        rw [haccepted]

/-- The tensors of the cliques with which a problem is made. -/
def startingCliques (A? : Option (List (Tensor α))) (v? : Option (FreeVelocities α)) :
    List (Tensor α × Tensor α) :=
  match A?, v? with
  | some A, some v => A.zip ((ContactProblem.splitVelocities A v).toOption.getD [])
  | _, _ => []

/-- A session on a problem with given cliques comes from one without cliques by adding them. -/
theorem exists_after_of_ofCliques
    {ids : IdTable} {timeStep : α} {A? : Option (List (Tensor α))} {v? : Option (FreeVelocities α)}
    (h : ofCliques ids timeStep A? v? = .ok s) :
    ∃ s₀, ofTimeStep ids timeStep = .ok s₀ ∧
      let calls := (startingCliques A? v?).map fun clique => .addClique clique.1 clique.2
      s = s₀.after calls ∧ s₀.accepted calls = calls := by
  obtain ⟨s₀, hstart, h⟩ := Outcome.bind_eq_ok.1 h
  refine ⟨s₀, hstart, ?_⟩
  split at h
  · cases h
    exact ⟨rfl, rfl⟩
  · rename_i A v _
    obtain ⟨vs, hsplit, h⟩ := Outcome.bind_eq_ok.1 h
    have hcliques : startingCliques (some A) (some v) = A.zip vs := by
      rw [startingCliques, hsplit]
      rfl
    rw [hcliques]
    split_ifs at h
    split at h
    · rename_i t hadd
      cases h
      exact eq_after_of_addCliques hadd
    · cases h
  · cases h

theorem consistent_of_ofTimeStep
    {ids : IdTable} {timeStep : α}
    (h : ofTimeStep ids timeStep = .ok s) :
    s.problem.Consistent := by
  unfold ofTimeStep at h
  split_ifs at h
  cases h
  exact LiveProblem.Consistent.empty timeStep

end Calls

section Contents

/-- Sealing a session finalizes its contents. -/
theorem contents_sealed
    {α : Type} {s : Session α}
    (hs : s.problem.Consistent) :
    s.sealed.problem.contents = s.problem.contents.finalize.1 := by
  obtain ⟨g, hsealed, hg⟩ := exists_problem_sealed hs
  have hgraph : s.problem.contents.graph = g := by
    cases hgraph? : s.problem.graph? with
    | some g' =>
        have hcontents : s.problem.contents.graph = g' := by
          rw [ContactProblem.graph, LiveProblem.contents, hgraph?]
          rfl
        rw [hs.graph_eq g' hgraph?] at hg
        cases hg
        exact hcontents
    | none =>
        have hcontents := ContactProblem.graph_of_not_finalized
          (show s.problem.contents.graph? = none from hgraph?)
        rw [hs.build_eq_ok] at hg
        cases hg
        rw [hcontents, hs.numCliques_contents]
        rfl
  rw [hsealed, ContactProblem.finalize_eq, LiveProblem.contents_withGraph, hgraph]

variable [Threshold]
variable {s t : Session ℝ}

/-- A step does to the contents what one of the operations on contact problems does. -/
theorem Step.reachable_contents
    {call : Call ℝ} {answer : Except Error Answer}
    (h : s.Step call answer t)
    (hs : s.problem.Consistent)
    (hbuilt : ∀ c, call = .addConstraint c → c.constraint.Built)
    (hreach : s.problem.contents.Reachable) :
    t.problem.contents.Reachable := by
  have hfinal : s.problem.finalized = false → ¬ s.problem.contents.isFinalized = true := by
    intro hopen
    rw [ContactProblem.isFinalized, LiveProblem.contents, hs.graph?_eq_none hopen]
    simp
  cases h with
  | refused =>
      exact hreach
  | @clique A v c hopen hc =>
      rw [hs.contents_withClique]
      apply hreach.addClique
      rw [ContactProblem.addClique, if_neg (hfinal hopen), hc]
      rfl
  | @constraint c hopen hc =>
      have hadd : ∃ i ids, s.problem.contents.addConstraint s.ids c =
          .ok (i, { s.problem.contents with held := s.problem.contents.held ++ [c] }, ids) := by
        rw [ContactProblem.addConstraint, if_neg (hfinal hopen), hc]
        exact ⟨_, _, rfl⟩
      obtain ⟨i, ids, hadd⟩ := hadd
      exact hreach.addConstraint (hbuilt c rfl) hadd
  | finalize =>
      rw [contents_sealed hs]
      exact hreach.finalize
  | graph =>
      rw [contents_sealed hs]
      exact hreach.finalize

theorem reachable_after
    (hs : s.problem.Consistent)
    (hreach : s.problem.contents.Reachable)
    {calls : List (Call ℝ)}
    (hbuilt : ∀ c, .addConstraint c ∈ calls → c.constraint.Built) :
    (s.after calls).problem.contents.Reachable := by
  induction calls generalizing s with
  | nil =>
      exact hreach
  | cons call calls ih =>
      have hstep := step_perform hs call
      apply ih (hstep.consistent hs)
      · apply hstep.reachable_contents hs _ hreach
        rintro c rfl
        exact hbuilt c List.mem_cons_self
      · intro c hc
        exact hbuilt c (List.mem_cons_of_mem _ hc)

/-- **The contents of a session are a reachable problem**, if the constraints were made by one of
the two ways to make them. -/
theorem reachable_contents
    {ids : IdTable} {timeStep : ℝ} {A? : Option (List (Tensor ℝ))} {v? : Option (FreeVelocities ℝ)}
    (h : ofCliques ids timeStep A? v? = .ok s)
    {calls : List (Call ℝ)}
    (hbuilt : ∀ c, .addConstraint c ∈ calls → c.constraint.Built) :
    (s.after calls).problem.contents.Reachable := by
  obtain ⟨s₀, hstart, rfl, -⟩ := exists_after_of_ofCliques h
  have hempty : ContactProblem.ofTimeStep timeStep = .ok s₀.problem.contents := by
    unfold ofTimeStep at hstart
    unfold ContactProblem.ofTimeStep
    split_ifs at hstart ⊢
    cases hstart
    rfl
  rw [← after_append]
  apply reachable_after (consistent_of_ofTimeStep hstart) (.ofTimeStep hempty)
  intro c hc
  rcases List.mem_append.1 hc with hc | hc
  · simp at hc
  · exact hbuilt c hc

end Contents

end Session

end ConvexContact
