import Mathlib
import ConvexContact.Proofs.Descent

/-!
# Histories of Newton's method

A run of the method returns velocities and a history with a record for every evaluated iterate.  The
run can end in three ways: no iteration is allowed, the gradient is small at an iterate, or the
allowed iterations are used up.  Only in the last case the velocities that are returned are not the
last recorded iterate, but one more step away from it.

**Steps.**  An iterate follows another one by a step along a solution of the Newton equation whose
length is found by halving (`ContactModel.Follows`).  The loop that halves the step is taken as it
stands, without a bound on its trials (`ContactModel.Halves`), and ends after at most 27 of them.

**Result.**  `ContactModel.newton_keeps_history`: a run that meets no singular Newton equation
returns, and its history is as described.
-/

namespace ConvexContact

section Histories

variable [Threshold]

namespace Descent

variable {v w : List ℝ} {steps : List Descent}

theorem Lead.head?_starts
    (h : Lead v steps w) :
    (steps.map (·.start) ++ [w]).head? = some v := by
  cases steps with
  | nil =>
      exact congrArg some h.symm
  | cons s steps =>
      exact congrArg some h.1

/-- The starts of a chain of steps, and its end, are related as the two ends of each step are. -/
theorem Lead.isChain_starts
    {R : List ℝ → List ℝ → Prop}
    (h : Lead v steps w)
    (hR : ∀ s ∈ steps, R s.start s.finish) :
    (steps.map (·.start) ++ [w]).IsChain R := by
  induction steps generalizing v with
  | nil =>
      exact List.isChain_singleton _
  | cons s steps ih =>
      obtain ⟨-, hrest⟩ := h
      rw [List.map_cons, List.cons_append, List.isChain_cons]
      refine ⟨?_, ih hrest fun t ht => hR t (List.mem_cons_of_mem s ht)⟩
      intro y hy
      rw [hrest.head?_starts, Option.mem_some_iff] at hy
      exact hy ▸ hR s List.mem_cons_self

end Descent

namespace ContactModel

/-- An iteration leads from `x` to `y`: along a solution of the Newton equation, by a power of one
half that the loop of the line search finds in at most 27 trials. -/
def Follows (m : ContactModel ℝ) (x y : List ℝ) : Prop :=
  ∃ H direction trials, ∃ j ≤ 27, m.hessian x none = .ok H ∧
    H.mulVec direction = Vec.neg (m.gradientAt x) ∧
    m.Halves x direction (m.totalCost x) (Vec.dot (m.gradientAt x) direction) 1 trials
      (Scalar.half ^ j) ∧
    trials ≤ 27 ∧ y = advance x (Scalar.half ^ j) direction

theorem follows_of_takes
    {m : ContactModel ℝ} {s : Descent}
    (hs : m.Takes s)
    (hsearch : m.Searches s) :
    m.Follows s.start s.finish := by
  obtain ⟨H, hH, hnewton⟩ := hs.newton
  obtain ⟨trials, htrials, hhalves⟩ := hsearch
  exact ⟨H, s.direction, trials, s.halvings, hs.halvings_le, hH, hnewton, hhalves, htrials, rfl⟩

/-- The history of a run of at most `n` iterations from `v`, which returns `result`; `iterates` are
the velocities at which the cost was evaluated. -/
structure History (m : ContactModel ℝ) (v : Tensor ℝ) (n : ℕ) (tolerance : ℝ)
    (result : Tensor ℝ) (entries : List (NewtonRecord ℝ)) (iterates : List (List ℝ)) : Prop where
  /-- Every record is that of the evaluation at its iterate. -/
  recorded : List.Forall₂ (m.cast v.format).Records iterates entries
  length_le : entries.length ≤ n
  head : 0 < n → iterates.head? = some v.entries
  chain : iterates.IsChain (m.cast v.format).Follows
  /-- The gradient is large at every iterate but perhaps the last one. -/
  large : ∀ a ∈ entries.dropLast, tolerance < a.gradientNorm
  /-- A run that ends early, or with a small gradient, returns the last iterate. -/
  converged : ∀ x a, iterates.getLast? = some x → entries.getLast? = some a →
    entries.length < n ∨ a.gradientNorm ≤ tolerance →
    result = Tensor.ofVec v.format x ∧ a.gradientNorm ≤ tolerance
  /-- Any other run returns what follows the last iterate. -/
  stopped : ∀ x a, iterates.getLast? = some x → entries.getLast? = some a →
    ¬(entries.length < n ∨ a.gradientNorm ≤ tolerance) →
    ∃ y, (m.cast v.format).Follows x y ∧ result = Tensor.ofVec v.format y
  /-- Without iterations there is nothing to record. -/
  none : n = 0 → result = v ∧ entries = []

section Runs

variable {m : ContactModel ℝ} {p : ContactProblem ℝ} {w : List ℝ}
variable {v : Tensor ℝ} {tolerance : ℝ} {n : ℕ}

theorem history_zero
    (m : ContactModel ℝ) (v : Tensor ℝ) (tolerance : ℝ) :
    m.History v 0 tolerance v [] [] where
  recorded := .nil
  length_le := le_rfl
  head := fun h => absurd h (lt_irrefl 0)
  chain := .nil
  large := by simp
  converged := by simp
  stopped := by simp
  none := fun _ => ⟨rfl, rfl⟩

/-- The history of a run of the iteration. -/
theorem Describes.exists_history_iterate
    (d : m.Describes p w)
    (hv : v.shape = [m.numVelocities])
    (hn : 0 < n)
    {result : List ℝ} {entries : List (NewtonRecord ℝ)}
    (h : (m.cast v.format).iterate tolerance v.entries n = .ok (result, entries)) :
    ∃ iterates,
      m.History v n tolerance (Tensor.ofVec v.format result) entries iterates := by
  obtain ⟨steps, large, hlead, hsteps, hrecords, hlarge, hend⟩ :=
    (d.cast v.format).exists_steps_iterate (Tensor.length_entries_of_shape hv) h
  have hchain := hlead.isChain_starts fun s hs =>
    follows_of_takes (hsteps s hs).2.1 (hsteps s hs).2.2
  have hlength : large.length = steps.length := by
    rw [← hrecords.length_eq, List.length_map]
  rcases hend with ⟨hfull, rfl⟩ | ⟨hearly, a, ha, hsmall, rfl⟩
  · obtain ⟨hstarts, -, hlast⟩ := List.isChain_append.1 hchain
    refine ⟨steps.map (·.start),
      { recorded := hrecords
        length_le := (hlength.trans hfull).le
        head := fun _ => ?_
        chain := hstarts
        large := fun a ha => hlarge a (List.mem_of_mem_dropLast ha)
        converged := ?_
        stopped := ?_
        none := fun h => absurd h hn.ne' }⟩
    · rw [← hlead.head?_starts, List.head?_append_of_ne_nil]
      rw [← hfull] at hn
      simpa using List.ne_nil_of_length_pos hn
    · intro x a _ ha hend
      have := hlarge a (List.mem_of_getLast? ha)
      rcases hend with hshort | hsmall
      · omega
      · linarith
    · intro x a hx _ _
      exact ⟨result, hlast x hx result rfl, rfl⟩
  · have hcount : (large ++ [a]).length = steps.length + 1 := by
      rw [List.length_append, List.length_singleton, hlength]
    refine ⟨steps.map (·.start) ++ [result],
      { recorded := ?_
        length_le := hcount.trans_le hearly
        head := fun _ => hlead.head?_starts
        chain := hchain
        large := ?_
        converged := ?_
        stopped := ?_
        none := fun h => absurd h hn.ne' }⟩
    · exact List.rel_append hrecords (.cons ha .nil)
    · rwa [List.dropLast_concat]
    · intro x b hx hb _
      rw [List.getLast?_concat, Option.some_inj] at hx hb
      exact hx ▸ hb ▸ ⟨rfl, hsmall⟩
    · intro x b _ hb hlate
      rw [List.getLast?_concat, Option.some_inj] at hb
      exact absurd (.inr (hb ▸ hsmall)) hlate

end Runs

/-- **Histories.**  For a problem that can be built and has a model, a run of Newton's method from
velocities of the model, in at most `n` iterations, in which no Newton equation is found singular,
returns velocities and a history.  The history has at most `n` records, which are those of the
iterates; every iterate follows the one before by a step along a solution of the Newton equation,
whose length is found in at most 27 trials.  All recorded gradients but perhaps the last one exceed
the tolerance.  If there are less than `n` records, or the last gradient is within the tolerance,
it is within the tolerance and the run returns the last recorded iterate; otherwise the run returns
what follows that iterate. -/
theorem newton_keeps_history
    {p : ContactProblem ℝ} (hp : p.Reachable)
    {m : ContactModel ℝ} (hm : (ofProblem p).1 = .ok m)
    {v : Tensor ℝ} {n : ℕ} {tolerance : ℝ}
    (hv : 0 < n → v.shape = [m.numVelocities])
    (hsolves : m.newton v n tolerance ≠ .error .singular) :
    ∃ result entries iterates, m.newton v n tolerance = .ok (result, entries) ∧
      m.History v n tolerance result entries iterates := by
  obtain ⟨delassus, -, d, -⟩ := describes_of_ofProblem hp hm
  rcases Nat.eq_zero_or_pos n with rfl | hn
  · exact ⟨v, [], [], rfl, history_zero m v tolerance⟩
  · have hshape := hv hn
    cases hrun : m.newton v n tolerance with
    | error e =>
        obtain ⟨rfl, -⟩ := d.newton_eq_error hshape hrun
        exact absurd hrun hsolves
    | ok r =>
        rw [newton_eq hshape, if_neg (by omega), Int.toNat_natCast] at hrun
        obtain ⟨⟨last, entries⟩, hiterate, rfl⟩ := Outcome.map_eq_ok.1 hrun
        obtain ⟨iterates, hhistory⟩ := d.exists_history_iterate hshape hn hiterate
        exact ⟨_, entries, iterates, rfl, hhistory⟩

end ContactModel

end Histories

namespace ContactModel

/-- A run of one iteration, whose step is halved once. -/
theorem newton_keeps_history_anvil :
    letI := Threshold.ofFormat .double
    Anvil.problem.Reachable ∧ ∃ m, (ofProblem Anvil.problem).1 = .ok m ∧
      (Tensor.ofVec .double [(1 : ℝ)]).shape = [m.numVelocities] ∧
      m.newton (Tensor.ofVec .double [1]) (1 : ℕ) 0 ≠ .error .singular ∧
      ∃ result entries iterates,
        m.newton (Tensor.ofVec .double [1]) (1 : ℕ) 0 = .ok (result, entries) ∧
        m.History (Tensor.ofVec .double [1]) 1 0 result entries iterates := by
  let _ := Threshold.ofFormat .double
  obtain ⟨m, hm, d⟩ := Anvil.exists_model
  obtain ⟨entry, hrun⟩ := Anvil.newton_one d
  have hshape : (Tensor.ofVec .double [(1 : ℝ)]).shape = [m.numVelocities] := by
    rw [Tensor.shape_ofVec, Anvil.numVelocities_eq d]
    rfl
  have hsolves : m.newton (Tensor.ofVec .double [1]) (1 : ℕ) 0 ≠ .error .singular := by
    rw [Nat.cast_one, hrun]
    intro h
    cases h
  exact ⟨Anvil.reachable, m, hm, hshape, hsolves,
    newton_keeps_history Anvil.reachable hm (fun _ => hshape) hsolves⟩

end ContactModel
end ConvexContact
