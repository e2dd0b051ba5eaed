import Mathlib
import ConvexContact.Proofs.Construction
import ConvexContact.Proofs.Sessions

/-!
# The life of a contact problem

**Input.**  A problem that could be made, and any sequence of calls on it.  Some of the calls fail;
the others are the accepted ones (`Session.accepted`).

**Contents.**  Each accepted clique consists of the matrix and the free motion that were offered
(`Clique.GivenBy`).  A session contains cliques and constraints if they are those of its records and
each constraint has its position as its identity number (`Session.Contains`).  A step that does not
fail adds to the contents what it offers (`Session.Step.exists_contains`), hence a sequence of calls
adds what its accepted calls offer (`Session.exists_contains_after`).

**Result.**  `Session.orderly_after`: what holds after every sequence of calls, said by the cliques
and constraints that were accepted (`Session.Orderly`).
-/

namespace ConvexContact

section Offers

variable {α : Type}

namespace Clique

variable [Scalar α]

/-- A clique consists of offered tensors: a square matrix with at least one row that is symmetric up
to rounding, and a free motion of its size, which is taken over in the format of the matrix. -/
structure GivenBy (c : Clique α) (A v : Tensor α) : Prop where
  matrix_eq : A.matrix? = some c.dynamics
  square : c.dynamics.numRows = c.dynamics.numCols
  size_pos : 0 < c.size
  symmetric : NearlySymmetric c.dynamics
  shape_eq : v.shape = [c.size]
  freeVelocity_eq : c.freeVelocity = (v.cast A.format).entries

theorem ofTensors_eq_ok_iff
    {A v : Tensor α} {c : Clique α} :
    ofTensors A v = .ok c ↔ c.GivenBy A v := by
  unfold ofTensors
  constructor
  · intro h
    split at h
    · cases h
    · rename_i dynamics hmatrix
      split_ifs at h with hsquare hempty hshape hsymmetric
      cases h
      exact ⟨hmatrix, not_not.1 hsquare, Nat.pos_of_ne_zero hempty, hsymmetric, not_not.1 hshape, rfl⟩
  · rintro ⟨hmatrix, hsquare, hpos, hsymmetric, hshape, hfree⟩
    have hrows : c.dynamics.numRows ≠ 0 :=
      hpos.ne'
    have hshape' : v.shape = [c.dynamics.numRows] :=
      hshape
    rw [hmatrix]
    dsimp only
    rw [if_neg (not_not.2 hsquare), if_neg hrows, if_neg (not_not.2 hshape'), if_pos hsymmetric,
      ← hfree]

end Clique

/-- A constraint fits cliques: each of its sides acts on one of them, with as many columns as it has
velocities. -/
def Constraint.FitsCliques (c : Constraint α) (cliques : List (Clique α)) : Prop :=
  ∀ side ∈ c.sides, ∃ k, cliques[side.1]? = some k ∧ side.2.numCols = k.size

namespace Session

/-- The tensors that a call offers as a clique. -/
def Call.clique? : Call α → Option (Tensor α × Tensor α)
  | .addClique A v => some (A, v)
  | _ => none

/-- The constraint that a call offers. -/
def Call.constraint? : Call α → Option (HeldConstraint α)
  | .addConstraint c => some c
  | _ => none

/-- What the first call offers stands before what the others offer. -/
theorem filterMap_cons_eq_append
    {β : Type}
    (f : Call α → Option β) (call : Call α) (calls : List (Call α)) :
    (call :: calls).filterMap f = (f call).toList ++ calls.filterMap f := by
  cases hf : f call <;> simp [hf]

/-- The identity numbers after the constraints of a list got their positions, one after the
other. -/
def numbered (ids : IdTable) (held : List (HeldConstraint α)) : IdTable :=
  held.zipIdx.foldl (fun t e => t.set e.1.handle (some (e.2 : ℤ))) ids

theorem numbered_concat
    (ids : IdTable) (held : List (HeldConstraint α)) (c : HeldConstraint α) :
    numbered ids (held ++ [c]) =
      (numbered ids held).set c.handle (some (held.length : ℤ)) := by
  rw [numbered, List.zipIdx_append, List.foldl_append]
  simp [numbered]

end Session

end Offers

namespace Session

section Records

variable {α : Type} {s : Session α}

/-- The cliques and constraints of the records of a session, whose identity numbers were set in a
table. -/
structure Contains (s : Session α) (cliques : List (Clique α)) (held : List (HeldConstraint α))
    (ids : IdTable) : Prop where
  cliques_eq : s.problem.contents.cliques = cliques
  held_eq : s.problem.held = held
  ids_eq : s.ids = numbered ids held

variable {cliques : List (Clique α)} {held : List (HeldConstraint α)} {ids : IdTable}

theorem ids_sealed
    (s : Session α) :
    s.sealed.ids = s.ids := by
  unfold sealed
  split <;> rfl

/-- Sealing a session keeps its contents. -/
theorem Contains.sealed
    (h : s.Contains cliques held ids)
    (hs : s.problem.Consistent) :
    s.sealed.Contains cliques held ids := by
  obtain ⟨g, hsealed, -⟩ := exists_problem_sealed hs
  refine ⟨?_, ?_, s.ids_sealed.trans h.ids_eq⟩
  · rw [hsealed]
    exact h.cliques_eq
  · rw [hsealed]
    exact h.held_eq

variable [Scalar α]

/-- A step that does not fail adds what is offered to the contents. -/
theorem Step.exists_contains
    {call : Call α} {answer : Answer} {t : Session α}
    (hstep : s.Step call (.ok answer) t)
    (hs : s.problem.Consistent)
    (h : s.Contains cliques held ids) :
    ∃ added : List (Clique α),
      List.Forall₂ (fun offer c => c.GivenBy offer.1 offer.2) call.clique?.toList added ∧
        t.Contains (cliques ++ added) (held ++ call.constraint?.toList) ids := by
  cases hstep with
  | @clique A v c hopen hc =>
      refine ⟨[c], .cons (Clique.ofTensors_eq_ok_iff.1 hc) .nil, ?_, ?_, ?_⟩
      · rw [hs.contents_withClique, h.cliques_eq]
      · exact h.held_eq.trans (List.append_nil held).symm
      · simpa [Call.constraint?] using h.ids_eq
  | @constraint c hopen hc =>
      refine ⟨[], .nil, ?_, ?_, ?_⟩
      · exact h.cliques_eq.trans (List.append_nil cliques).symm
      · exact congrArg (· ++ [c]) h.held_eq
      · change s.ids.set c.handle _ = numbered ids (held ++ [c])
        rw [numbered_concat, h.ids_eq, h.held_eq]
  | finalize =>
      refine ⟨[], .nil, ?_⟩
      simpa [Call.constraint?] using h.sealed hs
  | graph =>
      refine ⟨[], .nil, ?_⟩
      simpa [Call.constraint?] using h.sealed hs

/-- A sequence of calls adds what its accepted calls offer to the contents. -/
theorem exists_contains_after
    (hs : s.problem.Consistent)
    (h : s.Contains cliques held ids)
    (calls : List (Call α)) :
    ∃ added : List (Clique α),
      List.Forall₂ (fun offer c => c.GivenBy offer.1 offer.2)
          ((s.accepted calls).filterMap Call.clique?) added ∧
        (s.after calls).Contains (cliques ++ added)
          (held ++ (s.accepted calls).filterMap Call.constraint?) ids := by
  induction calls generalizing s cliques held with
  | nil =>
      refine ⟨[], .nil, ?_⟩
      simpa [accepted, after] using h
  | cons call calls ih =>
      have hstep := step_perform hs call
      rw [after, accepted]
      rcases hcall : s.outcome (perform call) with ⟨e | answer, t⟩ <;> rw [hcall] at hstep
      · obtain rfl : t = s :=
          hstep.eq_of_error
        exact ih hs h
      · obtain ⟨first, hfirst, ht⟩ := hstep.exists_contains hs h
        obtain ⟨rest, hrest, hafter⟩ := ih (hstep.consistent hs) ht
        refine ⟨first ++ rest, ?_, ?_⟩
        · rw [filterMap_cons_eq_append]
          exact List.rel_append hfirst hrest
        · rw [filterMap_cons_eq_append, ← List.append_assoc, ← List.append_assoc]
          exact hafter

end Records

section Acceptance

variable {α : Type} {s t : Session α} {i : ℕ}

theorem addConstraint_eq_ok_iff
    (hs : s.problem.Consistent)
    {c : HeldConstraint α} :
    s.outcome (addConstraint c) = (.ok i, t) ↔
      s.problem.finalized = false ∧ i = s.problem.held.length ∧
        c.constraint.FitsCliques s.problem.contents.cliques ∧
        t = { s with
          problem := s.problem.withConstraint c
          ids := s.ids.set c.handle (some (i : ℤ)) } := by
  have hfits : c.constraint.FitsCliques s.problem.contents.cliques ↔
      c.constraint.sides.forM s.problem.contents.checkSide = .ok () :=
    ContactProblem.forM_checkSide_eq_ok_iff.symm
  rw [outcome_addConstraint hs, hfits]
  cases hfinal : s.problem.finalized with
  | true =>
      simp
  | false =>
      cases hc : c.constraint.sides.forM s.problem.contents.checkSide with
      | error e =>
          simp
      | ok _ =>
          constructor
          · intro h
            cases h
            exact ⟨rfl, rfl, rfl, rfl⟩
          · rintro ⟨-, rfl, -, rfl⟩
            rfl

variable [Scalar α]

theorem addClique_eq_ok_iff
    {A v : Tensor α} :
    s.outcome (addClique A v) = (.ok i, t) ↔
      s.problem.finalized = false ∧ i = s.problem.numCliques ∧
        ∃ c : Clique α, c.GivenBy A v ∧ t = { s with problem := s.problem.withClique c } := by
  simp only [← Clique.ofTensors_eq_ok_iff]
  rw [outcome_addClique]
  cases hfinal : s.problem.finalized with
  | true =>
      simp
  | false =>
      cases hc : Clique.ofTensors A v with
      | error e =>
          simp
      | ok c =>
          simp [eq_comm]

end Acceptance

section Lives

variable {α : Type} [Scalar α]

/-- A problem has its graph for good: whatever is called, the session stays as it is, and cliques
and constraints are refused. -/
structure Frozen (s : Session α) (g : ContactGraph) : Prop where
  build_eq : ContactGraph.build s.problem.numCliques s.problem.members = .ok g
  finalize_eq : s.outcome finalize = (.ok (), s)
  graph_eq : s.outcome graph = (.ok (some g), s)
  addClique_eq : ∀ A v, ∃ e, s.outcome (addClique A v) = (.error e, s) ∧ e.kind = .operation
  addConstraint_eq : ∀ c, ∃ e, s.outcome (addConstraint c) = (.error e, s) ∧ e.kind = .operation
  after_eq : ∀ calls, s.after calls = s

/-- What holds at every moment of the life of a problem to which cliques and constraints were
added. -/
structure Orderly (s : Session α) (cliques : List (Clique α))
    (held : List (HeldConstraint α)) (ids : IdTable) : Prop where
  /-- The records are those of the cliques and constraints, and nothing else has set an identity
  number. -/
  dynamics_eq : s.problem.dynamics = cliques.map (·.dynamics)
  freeVelocities_eq : s.problem.freeVelocities = cliques.map (·.freeVelocity)
  held_eq : s.problem.held = held
  ids_eq : s.ids = numbered ids held
  /-- A clique is added if the problem is not finalized and the clique is sound.  It is then the last
  one, and the answer is its position. -/
  addClique_iff : ∀ A v i t, s.outcome (addClique A v) = (.ok i, t) ↔
    s.problem.finalized = false ∧ i = cliques.length ∧
      ∃ c : Clique α, c.GivenBy A v ∧ t = { s with problem := s.problem.withClique c }
  /-- A constraint is added if the problem is not finalized and the constraint fits.  It is then the
  last one, and its position is the answer and its identity number. -/
  addConstraint_iff : ∀ c i t, s.outcome (addConstraint c) = (.ok i, t) ↔
    s.problem.finalized = false ∧ i = held.length ∧ c.constraint.FitsCliques cliques ∧
      t = { s with
        problem := s.problem.withConstraint c
        ids := s.ids.set c.handle (some (i : ℤ)) }
  /-- A call that fails changes nothing. -/
  unchanged : ∀ call e t, s.outcome (perform call) = (.error e, t) → t = s
  numVelocities_eq : s.problem.numVelocities = totalSize (cliques.map Clique.size)
  /-- The velocities of a clique start where those of the cliques before it end, and its part of the
  free motion of the problem is its own free motion. -/
  interval : ∀ (k : ℕ) (c : Clique α), cliques[k]? = some c →
    s.problem.cliqueSize k = .ok c.size ∧ s.problem.cliqueFreeVelocity k = .ok c.freeVelocity ∧
      s.problem.velocityStart k = .ok (totalSize ((cliques.take k).map Clique.size)) ∧
      Vec.slice (totalSize ((cliques.take k).map Clique.size)) c.size s.problem.freeVelocity =
        c.freeVelocity
  /-- The constraints act on existing cliques, with as many columns as these have velocities. -/
  fits : ∀ c ∈ held, c.constraint.FitsCliques cliques
  /-- The graph can be asked for, which adds it to the records and freezes the problem. -/
  freeze : ∃ g t, s.outcome finalize = (.ok (), t) ∧ s.outcome graph = (.ok (some g), t) ∧
    t.problem = s.problem.withGraph g ∧ t.ids = s.ids ∧ t.Frozen g
  finalized_iff : s.problem.finalized = true ↔ ∃ g, s.problem.graph? = some g

variable {s : Session α} {cliques : List (Clique α)} {held : List (HeldConstraint α)}
variable {ids : IdTable}

/-- A session with a graph is frozen. -/
theorem frozen_of_graph
    (hs : s.problem.Consistent)
    {g : ContactGraph}
    (hg : s.problem.graph? = some g) :
    s.Frozen g := by
  have hfinal : s.problem.finalized = true := by
    rw [hs.finalized_eq, hg]
    rfl
  have hsealed := sealed_of_finalized hs hfinal
  refine ⟨hs.graph_eq g hg, ?_, ?_, ?_, ?_, after_of_finalized hs hfinal⟩
  · rw [outcome_finalize hs, hsealed]
  · rw [outcome_graph hs, hsealed, hg]
  · intro A v
    refine ⟨.frozen, ?_, rfl⟩
    rw [outcome_addClique, if_pos hfinal]
  · intro c
    refine ⟨.frozen, ?_, rfl⟩
    rw [outcome_addConstraint hs, if_pos hfinal]

/-- A session with consistent records is orderly. -/
theorem orderly_of_consistent
    (hs : s.problem.Consistent)
    (h : s.Contains cliques held ids) :
    s.Orderly cliques held ids := by
  obtain ⟨rfl, rfl, hids⟩ := h
  refine
    { dynamics_eq := hs.map_dynamics.symm
      freeVelocities_eq := hs.map_freeVelocity.symm
      held_eq := rfl
      ids_eq := hids
      addClique_iff := ?_
      addConstraint_iff := fun c i t => addConstraint_eq_ok_iff hs
      unchanged := ?_
      numVelocities_eq := ?_
      interval := ?_
      fits := ?_
      freeze := ?_
      finalized_iff := ?_ }
  · intro A v i t
    rw [addClique_eq_ok_iff, ← hs.numCliques_contents]
    rfl
  · intro call e t h
    have hstep := step_perform hs call
    rw [h] at hstep
    exact hstep.eq_of_error
  · rw [hs.map_size]
    exact hs.count_eq
  · intro k c hk
    rw [List.map_take, hs.map_size]
    exact hs.clique_records hk
  · intro c hc
    exact hs.fits c.constraint (List.mem_map_of_mem hc)
  · obtain ⟨g, hsealed, -⟩ := exists_problem_sealed hs
    have hg : s.sealed.problem.graph? = some g := by
      rw [hsealed]
      rfl
    refine ⟨g, s.sealed, outcome_finalize hs, ?_, hsealed, s.ids_sealed,
      frozen_of_graph (consistent_sealed hs) hg⟩
    rw [outcome_graph hs, hg]
  · rw [hs.finalized_eq, Option.isSome_iff_exists]

theorem contains_of_ofTimeStep
    {timeStep : α}
    (h : ofTimeStep ids timeStep = .ok s) :
    s.Contains [] [] ids := by
  unfold ofTimeStep at h
  split_ifs at h
  cases h
  exact ⟨rfl, rfl, rfl⟩

/-- **The life of a problem is orderly**, whatever is called: its cliques are those with which it was
made and those of the accepted calls, its constraints are those of the accepted calls, each in their
order. -/
theorem orderly_after
    {timeStep : α} {A? : Option (List (Tensor α))} {v? : Option (FreeVelocities α)}
    (h : ofCliques ids timeStep A? v? = .ok s)
    (calls : List (Call α)) :
    ∃ cliques : List (Clique α),
      List.Forall₂ (fun offer c => c.GivenBy offer.1 offer.2)
          (startingCliques A? v? ++ (s.accepted calls).filterMap Call.clique?) cliques ∧
        (s.after calls).Orderly cliques ((s.accepted calls).filterMap Call.constraint?) ids := by
  obtain ⟨s₀, hstart, hs, haccepted⟩ := exists_after_of_ofCliques h
  have hconsistent := consistent_of_ofTimeStep hstart
  obtain ⟨cliques, hcliques, hcontains⟩ :=
    exists_contains_after hconsistent (contains_of_ofTimeStep hstart)
      ((startingCliques A? v?).map (fun clique => .addClique clique.1 clique.2) ++ calls)
  have hstarting : ((startingCliques A? v?).map fun clique : Tensor α × Tensor α =>
      Call.addClique clique.1 clique.2).filterMap Call.clique? = startingCliques A? v? := by
    simp [List.filterMap_map, Function.comp_def, Call.clique?]
  have hnone : ((startingCliques A? v?).map fun clique : Tensor α × Tensor α =>
      Call.addClique clique.1 clique.2).filterMap Call.constraint? = [] := by
    simp [List.filterMap_map, Function.comp_def, Call.constraint?]
  rw [accepted_append, haccepted, ← hs, List.filterMap_append] at hcliques hcontains
  rw [hstarting] at hcliques
  rw [hnone, after_append, ← hs] at hcontains
  refine ⟨cliques, hcliques, orderly_of_consistent ?_ hcontains⟩
  rw [hs]
  exact consistent_after (consistent_after hconsistent _) calls

end Lives

/-! Two bodies of different sizes and a contact between them, which is offered before the second
body is there and once more behind it.  The problem is finalized, and a further body is offered. -/

namespace Pair

variable [Threshold]

noncomputable def cart : Clique ℝ :=
  ⟨DenseMatrix.identity .double 2, [1, 0]⟩

noncomputable def ball : Clique ℝ :=
  ⟨DenseMatrix.identity .double 1, [-1]⟩

/-- The call that offers a body. -/
noncomputable def offer (c : Clique ℝ) : Call ℝ :=
  .addClique (Tensor.ofMatrix c.dynamics) (Tensor.ofVec c.dynamics.format c.freeVelocity)

noncomputable def contact : HeldConstraint ℝ :=
  ⟨7, .contact (.ofMaterial 1 1 0) 0 0
    (.tabulate .double 3 2 fun i j => if i = 2 ∧ j = 0 then 1 else 0)
    (some (1, Stack.alongNormal (-1)))⟩

noncomputable def calls : List (Call ℝ) :=
  [offer cart, .addConstraint contact, offer ball, .addConstraint contact, .finalize, offer ball]

noncomputable def start : Session ℝ :=
  ⟨⟨1, [], [], [], 0, [], none, false⟩, IdTable.empty, []⟩

theorem ofCliques_start :
    ofCliques IdTable.empty (1 : ℝ) none none = .ok start := by
  unfold ofCliques ofTimeStep
  rw [if_neg (by simp)]
  rfl

theorem symmetric_identity
    (n i j : ℕ) :
    (DenseMatrix.identity .double n : DenseMatrix ℝ).get i j =
      (DenseMatrix.identity .double n).get j i := by
  by_cases hi : i < n <;> by_cases hj : j < n <;>
    simp [DenseMatrix.identity, DenseMatrix.get, DenseMatrix.tabulate, List.getD_eq_getElem?_getD,
      hi, hj, eq_comm]

/-- Unless the problem is finalized, a body that is offered is added. -/
theorem outcome_offer
    {s : Session ℝ}
    (hopen : s.problem.finalized = false)
    {n : ℕ} {v : List ℝ}
    (hn : 0 < n)
    (hv : v.length = n) :
    s.outcome (perform (offer ⟨DenseMatrix.identity .double n, v⟩)) =
      (.ok (.position s.problem.numCliques),
        { s with problem := s.problem.withClique ⟨DenseMatrix.identity .double n, v⟩ }) := by
  have hrows : (DenseMatrix.identity .double n : DenseMatrix ℝ).numRows = n :=
    DenseMatrix.numRows_tabulate _ _ _ _
  have hclique := Clique.ofTensors_eq_ok (A := .identity .double n) (v := v) (hrows.symm ▸ hn)
    hrows (symmetric_identity n) (hv.trans hrows.symm)
  rw [offer, perform, outcome_bind, outcome_addClique, hopen, hclique]
  rfl

/-- The session with the cart. -/
noncomputable def loaded : Session ℝ :=
  { start with problem := start.problem.withClique cart }

/-- The session with both bodies. -/
noncomputable def coupled : Session ℝ :=
  { loaded with problem := loaded.problem.withClique ball }

/-- The session with the contact. -/
noncomputable def touching : Session ℝ :=
  { coupled with
    problem := coupled.problem.withConstraint contact
    ids := coupled.ids.set 7 (some 0) }

theorem consistent_touching :
    touching.problem.Consistent := by
  have hloaded : loaded.problem.Consistent :=
    (LiveProblem.Consistent.empty 1).withClique rfl rfl
  have hcoupled : coupled.problem.Consistent :=
    hloaded.withClique rfl rfl
  exact hcoupled.withConstraint rfl (ContactProblem.forM_checkSide_eq_ok_iff.1 rfl)

theorem outcome_contact_loaded :
    loaded.outcome (perform (.addConstraint contact)) =
      (.error (.constraintCliqueMissing 1 1), loaded) :=
  rfl

theorem outcome_contact_coupled :
    coupled.outcome (perform (.addConstraint contact)) = (.ok (.position 0), touching) :=
  rfl

theorem outcome_finalize_touching :
    touching.outcome (perform .finalize) = (.ok .done, touching.sealed) := by
  rw [perform, outcome_bind, outcome_finalize consistent_touching]
  rfl

theorem outcome_offer_sealed
    (c : Clique ℝ) :
    touching.sealed.outcome (perform (offer c)) = (.error .frozen, touching.sealed) := by
  obtain ⟨g, hsealed, -⟩ := exists_problem_sealed consistent_touching
  rw [offer, perform, outcome_bind, outcome_addClique, hsealed]
  rfl

/-- The contact is refused before the second body is there, and a body behind the graph. -/
theorem accepted_calls :
    start.accepted calls = [offer cart, offer ball, .addConstraint contact, .finalize] := by
  have hcart : start.outcome (perform (offer cart)) = (.ok (.position 0), loaded) :=
    outcome_offer rfl two_pos rfl
  have hball : loaded.outcome (perform (offer ball)) = (.ok (.position 1), coupled) :=
    outcome_offer rfl one_pos rfl
  simp only [calls, accepted, hcart, outcome_contact_loaded, hball, outcome_contact_coupled,
    outcome_finalize_touching, outcome_offer_sealed]

end Pair

/-- The life of a problem on two bodies with a contact between them. -/
theorem orderly_after_pair :
    letI := Threshold.ofFormat .double
    ofCliques IdTable.empty 1 none none = .ok Pair.start ∧
      Pair.start.accepted Pair.calls =
        [Pair.offer Pair.cart, Pair.offer Pair.ball, .addConstraint Pair.contact, .finalize] ∧
      ∃ cliques : List (Clique ℝ),
        List.Forall₂ (fun offer c => c.GivenBy offer.1 offer.2)
            (startingCliques none none ++
              (Pair.start.accepted Pair.calls).filterMap Call.clique?) cliques ∧
          (Pair.start.after Pair.calls).Orderly cliques
            ((Pair.start.accepted Pair.calls).filterMap Call.constraint?) IdTable.empty := by
  let _ := Threshold.ofFormat .double
  exact ⟨Pair.ofCliques_start, Pair.accepted_calls, orderly_after Pair.ofCliques_start Pair.calls⟩

end Session
end ConvexContact
