import Mathlib
import ConvexContact.ContactProblem.Delassus

/-!
# Remembered factors

The visits of the constraints share the factors of the dynamics matrices.  A list of factors is
right if each of them is the factor of the matrix of its clique (`ContactProblem.Remembers`).

**Steps.**  A computation that starts from right factors gives what is computed without memory, be
it a result or a failure, and leaves right factors (`ContactProblem.Recalls`).  This holds of the
factors themselves (`recalls_factorOf`), of sequences of computations, and so of the visit of a
constraint (`recalls_visit`) and of all constraints (`Recalls.mapM`).

**Result.**  `ContactProblem.delassusDiagonal_eq_mapM`: it makes no difference which constraints
share a factor.
-/

namespace ConvexContact
namespace ContactProblem

variable {α β γ : Type} [Scalar α] {p : ContactProblem α}

/-- The factors are those of the dynamics matrices. -/
def Remembers (p : ContactProblem α) (factors : Factors α) : Prop :=
  ∀ k factor, factors.lookup k = some factor →
    ∃ c, p.cliques[k]? = some c ∧ CholeskyFactor.ofMatrix c.dynamics = .ok factor

/-- From right factors a computation has the given outcome, and it leaves right factors. -/
def Recalls (p : ContactProblem α) (x : Remembering α β) (y : Except Error β) : Prop :=
  ∀ factors, p.Remembers factors →
    match y with
    | .ok b => ∃ factors', x.run factors = .ok (b, factors') ∧ p.Remembers factors'
    | .error e => x.run factors = .error e

theorem remembers_nil
    (p : ContactProblem α) :
    p.Remembers [] := by
  intro k factor h
  cases h

theorem Remembers.cons
    {factors : Factors α} {k : ℕ} {c : Clique α} {factor : CholeskyFactor α}
    (h : p.Remembers factors)
    (hk : p.cliques[k]? = some c)
    (hfactor : CholeskyFactor.ofMatrix c.dynamics = .ok factor) :
    p.Remembers ((k, factor) :: factors) := by
  intro k' factor' hlookup
  rw [List.lookup_cons] at hlookup
  by_cases hkk : k' = k
  · subst hkk
    rw [beq_self_eq_true] at hlookup
    cases hlookup
    exact ⟨c, hk, hfactor⟩
  · rw [beq_false_of_ne hkk] at hlookup
    exact h k' factor' hlookup

namespace Recalls

theorem pure
    (p : ContactProblem α) (b : β) :
    p.Recalls (Pure.pure b) (.ok b) := by
  intro factors h
  exact ⟨factors, rfl, h⟩

theorem bind
    {x : Remembering α β} {y : Except Error β} {f : β → Remembering α γ} {g : β → Except Error γ}
    (hx : p.Recalls x y)
    (hf : ∀ b, p.Recalls (f b) (g b)) :
    p.Recalls (x >>= f) (y >>= g) := by
  intro factors h
  have hstart := hx factors h
  cases y with
  | error e =>
      change (x.run factors >>= fun r => (f r.1).run r.2) = _
      rw [hstart]
      rfl
  | ok b =>
      obtain ⟨factors', hrun, h'⟩ := hstart
      have hnext : (x >>= f).run factors = (f b).run factors' := by
        change (x.run factors >>= fun r => (f r.1).run r.2) = _
        rw [hrun]
        rfl
      rw [hnext]
      exact hf b factors' h'

/-- Computations for all members of a list have the outcomes of their sequence. -/
theorem mapM
    {ι : Type} {f : ι → Remembering α β} {g : ι → Except Error β}
    (h : ∀ i, p.Recalls (f i) (g i))
    (l : List ι) :
    p.Recalls (l.mapM f) (l.mapM g) := by
  induction l with
  | nil =>
      exact pure p []
  | cons i l ih =>
      rw [List.mapM_cons, List.mapM_cons]
      exact (h i).bind fun b => ih.bind fun bs => pure p (b :: bs)

end Recalls

/-- A remembered factor is looked up. -/
theorem run_factorOf_of_some
    {factors : Factors α} {k : ℕ} {factor : CholeskyFactor α}
    (c : Clique α)
    (h : factors.lookup k = some factor) :
    (factorOf k c).run factors = .ok (factor, factors) := by
  simp only [factorOf, StateT.run_bind, StateT.run_get, pure_bind, h]
  rfl

/-- A factor that is not remembered is computed. -/
theorem run_factorOf_of_none
    {factors : Factors α} {k : ℕ}
    (c : Clique α)
    (h : factors.lookup k = none) :
    (factorOf k c).run factors =
      (CholeskyFactor.ofMatrix c.dynamics).map fun factor => (factor, (k, factor) :: factors) := by
  simp only [factorOf, StateT.run_bind, StateT.run_get, pure_bind, h]
  cases CholeskyFactor.ofMatrix c.dynamics <;> rfl

/-- A remembered factor is the one that would be computed. -/
theorem recalls_factorOf
    {k : ℕ} {c : Clique α}
    (hk : p.cliques[k]? = some c) :
    p.Recalls (factorOf k c) (CholeskyFactor.ofMatrix c.dynamics) := by
  intro factors h
  cases hlookup : factors.lookup k with
  | some factor =>
      obtain ⟨c', hk', hfactor⟩ := h k factor hlookup
      rw [hk] at hk'
      cases hk'
      rw [hfactor]
      exact ⟨factors, run_factorOf_of_some c hlookup, h⟩
  | none =>
      have hrun := run_factorOf_of_none c hlookup
      cases hfactor : CholeskyFactor.ofMatrix c.dynamics with
      | error e =>
          rw [hfactor] at hrun
          exact hrun
      | ok factor =>
          rw [hfactor] at hrun
          exact ⟨_, hrun, h.cons hk hfactor⟩

theorem recalls_visitSide
    (p : ContactProblem α) (side : ℕ × DenseMatrix α) :
    p.Recalls (p.visitSide side) (p.sideInertia side) := by
  unfold visitSide sideInertia
  cases hk : p.cliques[side.1]? with
  | none =>
      intro factors _
      rfl
  | some c =>
      exact (recalls_factorOf hk).bind fun factor => Recalls.pure p _

theorem recalls_visitConstraint
    (p : ContactProblem α) (c : Constraint α) :
    p.Recalls (p.visitConstraint c) (p.constraintInertia c) := by
  unfold visitConstraint constraintInertia
  apply (p.recalls_visitSide _).bind
  intro W
  cases c.second? with
  | none =>
      exact Recalls.pure p W
  | some side =>
      exact (p.recalls_visitSide side).bind fun W' => Recalls.pure p _

/-- The visit of a constraint gives its mean inertia. -/
theorem recalls_visit
    (p : ContactProblem α) (c : Constraint α) :
    p.Recalls (p.visit c) (p.meanInertia c) :=
  (p.recalls_visitConstraint c).bind fun _ => Recalls.pure p _

/-- **The mean inertias do not depend on what the visits remember.** -/
theorem delassusDiagonal_eq_mapM
    (p : ContactProblem α) :
    p.delassusDiagonal =
      (p.constraints.mapM p.meanInertia).map fun entries =>
        Tensor.ofVec ((entries.map (·.1)).foldl Format.join .single) (entries.map (·.2)) := by
  have hvisits := Recalls.mapM p.recalls_visit p.constraints [] p.remembers_nil
  unfold delassusDiagonal
  cases hmean : p.constraints.mapM p.meanInertia with
  | error e =>
      rw [hmean] at hvisits
      rw [show (p.constraints.mapM p.visit).run [] = .error e from hvisits]
      rfl
  | ok entries =>
      rw [hmean] at hvisits
      obtain ⟨factors, hrun, -⟩ := hvisits
      rw [hrun]
      rfl

end ContactProblem
end ConvexContact
