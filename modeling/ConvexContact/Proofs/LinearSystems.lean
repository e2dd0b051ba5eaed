import Mathlib
import ConvexContact.Linear.Elimination
import ConvexContact.Proofs.Matrices

/-!
# Linear systems in exact arithmetic

**Elimination.**  Taking out the pivot equation permutes a system, and a solution of the equations
with their leading unknown removed extends to one of the equations themselves.

**Pivots.**  The pivot equation has the largest leading coefficient.  If it is zero, the system has
a solution with zeros on the right whose first unknown is one.

**Results.**
* `Elimination.solve_sound`: what the elimination returns for a square matrix and a right-hand side
  of its size solves the system.
* `Elimination.exists_solve`: a nonsingular system is not refused.
-/

namespace ConvexContact

variable [Threshold]

namespace Vec

/-- A multiple of a vector subtracted from another one, in inner products. -/
theorem dot_zipWith_sub_mul
    (c : ℝ) {a p : List ℝ} (h : a.length = p.length)
    (x : List ℝ) :
    dot (List.zipWith (fun a p => a - c * p) a p) x = dot a x - c * dot p x := by
  induction a generalizing p x with
  | nil =>
      rw [List.length_nil, eq_comm, List.length_eq_zero_iff] at h
      simp [h]
  | cons a as ih =>
      cases p with
      | nil =>
          cases h
      | cons p ps =>
          cases x with
          | nil =>
              simp
          | cons x xs =>
              rw [List.zipWith_cons_cons, dot_cons, dot_cons, dot_cons,
                ih (Nat.succ.inj h)]
              ring

end Vec

/-- Only zero is taken to zero. -/
def DenseMatrix.Nonsingular (A : DenseMatrix ℝ) : Prop :=
  ∀ x : List ℝ, x.length = A.numRows → (∀ a ∈ A.mulVec x, a = 0) → ∀ a ∈ x, a = 0

/-- A nonsingular matrix acts injectively. -/
theorem DenseMatrix.Nonsingular.mulVec_injective
    {A : DenseMatrix ℝ} {x y : List ℝ}
    (h : A.Nonsingular)
    (hx : x.length = A.numRows)
    (hy : y.length = A.numRows)
    (heq : A.mulVec x = A.mulVec y) :
    x = y := by
  apply Vec.eq_of_forall_sub_eq_zero (hx.trans hy.symm)
  apply h
  · rw [Vec.length_sub, hx, hy, Nat.min_self]
  · intro a ha
    rw [mulVec_sub A (hx.trans hy.symm), heq, Vec.sub, List.zipWith_self] at ha
    obtain ⟨b, -, rfl⟩ := List.mem_map.1 ha
    exact sub_self b

namespace Elimination

/-- The unknowns satisfy an equation. -/
def Solves (x : List ℝ) (e : Equation ℝ) : Prop :=
  Vec.dot e.1 x = e.2

/-- Taking out the pivot permutes the equations. -/
theorem perm_takePivot
    (best : Equation ℝ) (rest : List (Equation ℝ)) :
    ((takePivot best rest).1 :: (takePivot best rest).2).Perm (best :: rest) := by
  induction rest generalizing best with
  | nil =>
      exact List.Perm.refl _
  | cons e rest ih =>
      unfold takePivot
      split_ifs
      · exact (List.Perm.swap _ _ _).trans ((ih e).cons best)
      · exact (List.Perm.swap _ _ _).trans (((ih best).cons e).trans (List.Perm.swap _ _ _))

/-- A solution of the equations without their leading unknown extends to the equations. -/
theorem solves_of_eliminate
    {pivot e : Equation ℝ} {x : List ℝ}
    (hpivot : leading pivot ≠ 0)
    (hcount : pivot.1.length = x.length + 1)
    (hlength : e.1.length = x.length + 1)
    (h : Solves x (eliminate pivot e)) :
    Solves ((pivot.2 - Vec.dot pivot.1.tail x) / leading pivot :: x) e := by
  obtain ⟨coefficients, b⟩ := e
  obtain ⟨pivots, c⟩ := pivot
  match coefficients, pivots, hlength, hcount with
  | a :: as, p :: ps, hlength, hcount =>
      have hsize : as.length = ps.length :=
        (Nat.succ.inj hlength).trans (Nat.succ.inj hcount).symm
      change p ≠ 0 at hpivot
      change Vec.dot (List.zipWith (fun x q => x - a / p * q) as ps) x = b - a / p * c at h
      change Vec.dot (a :: as) ((c - Vec.dot ps x) / p :: x) = b
      rw [Vec.dot_zipWith_sub_mul _ hsize] at h
      rw [Vec.dot_cons]
      field_simp at h ⊢
      linarith

/-- The pivot equation determines the leading unknown. -/
theorem solves_pivot
    {pivot : Equation ℝ} {x : List ℝ}
    (hpivot : leading pivot ≠ 0)
    (hcount : pivot.1.length = x.length + 1) :
    Solves ((pivot.2 - Vec.dot pivot.1.tail x) / leading pivot :: x) pivot := by
  obtain ⟨pivots, c⟩ := pivot
  match pivots, hcount with
  | p :: ps, _ =>
      change p ≠ 0 at hpivot
      change Vec.dot (p :: ps) ((c - Vec.dot ps x) / p :: x) = c
      rw [Vec.dot_cons]
      field_simp
      ring

/-- The equations without their leading unknown have one coefficient less. -/
theorem length_eliminated
    {first : Equation ℝ} {rest : List (Equation ℝ)}
    (hsizes : ∀ e ∈ first :: rest, e.1.length = rest.length + 1) :
    ∀ e ∈ (takePivot first rest).2.map (eliminate (takePivot first rest).1),
      e.1.length = ((takePivot first rest).2.map (eliminate (takePivot first rest).1)).length := by
  have hperm := perm_takePivot first rest
  intro e he
  obtain ⟨f, hf, rfl⟩ := List.mem_map.1 he
  have hpivot := hsizes _ (hperm.mem_iff.1 List.mem_cons_self)
  have hlength := hsizes f (hperm.mem_iff.1 (List.mem_cons_of_mem _ hf))
  change (List.zipWith _ f.1.tail (takePivot first rest).1.1.tail).length = _
  simp only [List.length_zipWith, List.length_tail, List.length_map, length_takePivot]
  omega

/-- What the elimination returns solves all equations. -/
theorem solve?_sound
    {equations : List (Equation ℝ)} {x : List ℝ}
    (hsizes : ∀ e ∈ equations, e.1.length = equations.length)
    (h : solve? equations = some x) :
    x.length = equations.length ∧ ∀ e ∈ equations, Solves x e := by
  fun_induction solve? equations generalizing x with
  | case1 =>
      cases h
      simp
  | case2 =>
      cases h
  | case3 =>
      cases h
  | case4 first rest pivot hzero y hsome =>
      rename_i ih
      have hperm := perm_takePivot first rest
      have hothers : (takePivot first rest).2.length = rest.length :=
        length_takePivot first rest
      have hpivots : ∀ e ∈ (takePivot first rest).1 :: (takePivot first rest).2,
          e.1.length = rest.length + 1 :=
        fun e he => hsizes e (hperm.mem_iff.1 he)
      have hpivot : pivot.1.length = rest.length + 1 :=
        hpivots _ List.mem_cons_self
      obtain ⟨hlength, hsolves⟩ := ih (length_eliminated hsizes) hsome
      rw [List.length_map, hothers] at hlength
      have hleading : leading pivot ≠ 0 := by
        simpa using hzero
      cases h
      refine ⟨by simp [hlength], fun e he => ?_⟩
      rcases List.mem_cons.1 (hperm.mem_iff.2 he) with rfl | he'
      · exact solves_pivot hleading (by rw [hpivot, hlength])
      · refine solves_of_eliminate hleading (by rw [hpivot, hlength]) ?_
          (hsolves _ (List.mem_map_of_mem he'))
        rw [hpivots e (List.mem_cons_of_mem _ he'), hlength]

/-- **What the elimination returns solves the system.** -/
theorem solve_sound
    {A : DenseMatrix ℝ} {b x : List ℝ}
    (hsquare : A.numRows = A.numCols)
    (hb : b.length = A.numRows)
    (h : solve A b = .ok x) :
    x.length = A.numRows ∧ A.mulVec x = b := by
  have hsolution : solve? (A.rows.zip b) = some x := by
    unfold solve at h
    split at h
    · cases h
      assumption
    · cases h
  have hcount : (A.rows.zip b).length = A.numRows := by
    rw [List.length_zip, hb, DenseMatrix.numRows, Nat.min_self]
  have hsizes : ∀ e ∈ A.rows.zip b, e.1.length = (A.rows.zip b).length := by
    intro e he
    rw [hcount, hsquare]
    exact A.length_row _ (List.of_mem_zip he).1
  obtain ⟨hlength, hsolves⟩ := solve?_sound hsizes hsolution
  refine ⟨hlength.trans hcount, ?_⟩
  unfold DenseMatrix.mulVec
  have hrows : A.rows = (A.rows.zip b).map Prod.fst :=
    (List.map_fst_zip (by rw [hb]; exact le_rfl)).symm
  have hright : b = (A.rows.zip b).map Prod.snd :=
    (List.map_snd_zip (by rw [hb]; exact le_rfl)).symm
  conv_lhs =>
    rw [hrows]
  conv_rhs =>
    rw [hright]
  rw [List.map_map]
  exact List.map_congr_left hsolves

/-- The pivot equation has the largest leading coefficient. -/
theorem abs_leading_le_takePivot
    (best : Equation ℝ) (rest : List (Equation ℝ)) :
    ∀ e ∈ best :: rest, |leading e| ≤ |leading (takePivot best rest).1| := by
  induction rest generalizing best with
  | nil =>
      intro e he
      rw [List.mem_singleton.1 he]
      exact le_rfl
  | cons f rest ih =>
      unfold takePivot
      simp only [Exact.abs_eq_abs]
      split_ifs with hless
      · rintro e (_ | ⟨_, he⟩)
        · exact hless.le.trans (ih f f List.mem_cons_self)
        · exact ih f e he
      · have hle := not_lt.1 hless
        rintro e (_ | ⟨_, _ | ⟨_, he⟩⟩)
        · exact ih best best List.mem_cons_self
        · exact hle.trans (ih best best List.mem_cons_self)
        · exact ih best e (List.mem_cons_of_mem best he)

/-- With zeros on the right, only zero solves the equations. -/
def Independent (equations : List (Equation ℝ)) : Prop :=
  ∀ x : List ℝ, x.length = equations.length → (∀ e ∈ equations, Vec.dot e.1 x = 0) →
    ∀ a ∈ x, a = 0

/-- The equations without their leading unknown are independent if the equations are. -/
theorem Independent.eliminate
    {first : Equation ℝ} {rest : List (Equation ℝ)}
    (hsizes : ∀ e ∈ first :: rest, e.1.length = rest.length + 1)
    (h : Independent (first :: rest))
    (hpivot : leading (takePivot first rest).1 ≠ 0) :
    Independent ((takePivot first rest).2.map (eliminate (takePivot first rest).1)) := by
  have hperm := perm_takePivot first rest
  set pivot := (takePivot first rest).1
  intro x hx hzero
  rw [List.length_map, length_takePivot] at hx
  have hsizes' : ∀ e ∈ pivot :: (takePivot first rest).2, e.1.length = x.length + 1 := by
    intro e he
    rw [hx]
    exact hsizes e (hperm.mem_iff.1 he)
  have hleading : leading ((pivot.1, 0) : Equation ℝ) ≠ 0 :=
    hpivot
  -- A solution of the smaller system extends to one of the equations with zeros on the right.
  have hextends : ∀ e ∈ first :: rest,
      Vec.dot e.1 ((0 - Vec.dot pivot.1.tail x) / leading pivot :: x) = 0 := by
    intro e he
    rcases List.mem_cons.1 (hperm.mem_iff.2 he) with rfl | he
    · exact solves_pivot hleading (hsizes' pivot List.mem_cons_self)
    · change Solves _ (e.1, 0)
      refine solves_of_eliminate hleading (hsizes' pivot List.mem_cons_self)
        (hsizes' e (List.mem_cons_of_mem pivot he)) ?_
      refine (hzero _ (List.mem_map_of_mem he)).trans ?_
      change (0 : ℝ) = 0 - _ * 0
      ring
  intro a ha
  exact h _ (by simp [hx]) hextends a (List.mem_cons_of_mem _ ha)

/-- If all leading coefficients are zero the equations are not independent. -/
theorem Independent.leading_ne_zero
    {first : Equation ℝ} {rest : List (Equation ℝ)}
    (hsizes : ∀ e ∈ first :: rest, e.1.length = rest.length + 1)
    (h : Independent (first :: rest)) :
    leading (takePivot first rest).1 ≠ 0 := by
  intro hpivot
  have hleading : ∀ e ∈ first :: rest, leading e = 0 := by
    intro e he
    have hle := abs_leading_le_takePivot first rest e he
    rw [hpivot, abs_zero] at hle
    exact abs_nonpos_iff.1 hle
  have hunit : ∀ e ∈ first :: rest, Vec.dot e.1 (1 :: Vec.zero rest.length) = 0 := by
    intro e he
    obtain ⟨a, as, has⟩ := List.exists_cons_of_length_eq_add_one (hsizes e he)
    have ha : a = 0 := by
      have := hleading e he
      rwa [leading, has] at this
    rw [has, ha, Vec.dot_cons, Vec.dot_zero_right, zero_mul, add_zero]
  exact one_ne_zero (h _ (by simp) hunit 1 List.mem_cons_self)

/-- Independent equations have a solution that is found. -/
theorem exists_solve?
    {equations : List (Equation ℝ)}
    (hsizes : ∀ e ∈ equations, e.1.length = equations.length)
    (h : Independent equations) :
    ∃ x, solve? equations = some x := by
  fun_induction solve? equations with
  | case1 =>
      exact ⟨[], rfl⟩
  | case2 first rest pivot hzero =>
      exact absurd ((Exact.isZero_iff _).1 hzero) (h.leading_ne_zero hsizes)
  | case3 first rest pivot hzero hnone ih =>
      have hpivot := h.leading_ne_zero hsizes
      obtain ⟨x, hx⟩ := ih (length_eliminated hsizes) (h.eliminate hsizes hpivot)
      rw [hnone] at hx
      cases hx
  | case4 first rest pivot hzero x hsome ih =>
      exact ⟨_, rfl⟩

/-- **A nonsingular system is not refused.** -/
theorem exists_solve
    {A : DenseMatrix ℝ} {b : List ℝ}
    (hsquare : A.numRows = A.numCols)
    (hb : b.length = A.numRows)
    (h : A.Nonsingular) :
    ∃ x, solve A b = .ok x := by
  have hcount : (A.rows.zip b).length = A.numRows := by
    rw [List.length_zip, hb, DenseMatrix.numRows, Nat.min_self]
  have hrows : (A.rows.zip b).map Prod.fst = A.rows :=
    List.map_fst_zip (by rw [hb]; exact le_rfl)
  obtain ⟨x, hx⟩ : ∃ x, solve? (A.rows.zip b) = some x := exists_solve?
    (fun e he => by
      rw [hcount, hsquare]
      exact A.length_row _ (List.of_mem_zip he).1)
    (by
      intro x hx hzero
      apply h x (hx.trans hcount)
      intro a ha
      rw [DenseMatrix.mulVec, ← hrows, List.map_map] at ha
      obtain ⟨e, he, rfl⟩ := List.mem_map.1 ha
      exact hzero e he)
  refine ⟨x, ?_⟩
  unfold solve
  rw [hx]

/-- The only refusal is that of a singular system. -/
theorem solve_eq_error
    {A : DenseMatrix ℝ} {b : List ℝ} {error : Error}
    (h : solve A b = .error error) :
    error = .singular := by
  unfold solve at h
  split at h
  · cases h
  · cases h
    rfl

end Elimination
end ConvexContact
