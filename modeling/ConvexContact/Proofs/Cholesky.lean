import Mathlib
import ConvexContact.Linear.Cholesky
import ConvexContact.Proofs.Definite
import ConvexContact.Proofs.LinearSystems

/-!
# Cholesky factorization in exact arithmetic

A symmetric matrix given by its rows is a pivot, a column that stands also to the right of the
pivot, and a symmetric matrix of the remaining rows (`CholeskyFactor.Symmetric`).

**One column.**  The remainder after the first column of a factor is symmetric
(`Symmetric.deflated`), and the quadratic form of the matrix is that of the remainder plus a square
(`dot_times_pivot`).  So the remainder of a positive definite matrix is positive definite, and its
pivot is positive.

**Results.**
* `CholeskyFactor.exists_ofRows?`: a positive definite matrix has a factor.
* `CholeskyFactor.times_solve`: what is solved with a factor solves the system of the matrix.
* `CholeskyFactor.solve_combine`: what is solved with a factor is linear in the right-hand side.
* `CholeskyFactor.exists_ofMatrix`: both for matrices that are positive definite in the usual sense,
  where the solution is the product with the inverse matrix.
-/

namespace ConvexContact

open Matrix

namespace CholeskyFactor

section Symmetry

/-- Rows less the products of the coordinates of a column. -/
def deflated (column : List ℝ) (rows : List (List ℝ)) : List (List ℝ) :=
  List.zipWith (fun row c => List.zipWith (fun x d => x - c * d) row column) rows column

/-- The rows of a symmetric matrix: each column stands also in the row of its pivot. -/
inductive Symmetric : List (List ℝ) → Prop
  | nil :
      Symmetric []
  | cons
      {a : ℝ} {column : List ℝ} {rows : List (List ℝ)}
      (hlength : column.length = rows.length)
      (h : Symmetric rows) :
      Symmetric ((a :: column) :: List.zipWith List.cons column rows)

variable {column : List ℝ} {rows : List (List ℝ)}

namespace Symmetric

theorem length_row
    (h : Symmetric rows) :
    ∀ row ∈ rows, row.length = rows.length := by
  induction h with
  | nil =>
      simp
  | @cons a column rows hlength h ih =>
      have hcount : (List.zipWith List.cons column rows).length = rows.length := by
        rw [List.length_zipWith, hlength, Nat.min_self]
      intro row hrow
      rw [List.length_cons, hcount]
      rcases List.mem_cons.1 hrow with rfl | hrow
      · rw [List.length_cons, hlength]
      · obtain ⟨i, hi, rfl⟩ := List.getElem_of_mem hrow
        rw [List.getElem_zipWith, List.length_cons, ih _ (List.getElem_mem _)]

/-- The products of the coordinates of a column make a symmetric matrix. -/
theorem deflated
    (h : Symmetric rows)
    (hcolumn : column.length = rows.length) :
    Symmetric (CholeskyFactor.deflated column rows) := by
  induction h generalizing column with
  | nil =>
      rw [List.length_nil, List.length_eq_zero_iff] at hcolumn
      rw [hcolumn]
      exact .nil
  | @cons a b rows hlength h ih =>
      have hcount : (List.zipWith List.cons b rows).length = rows.length := by
        rw [List.length_zipWith, hlength, Nat.min_self]
      cases column with
      | nil =>
          cases hcolumn
      | cons c cs =>
          rw [List.length_cons, List.length_cons, hcount, Nat.add_right_cancel_iff] at hcolumn
          have hborder : ∀ (b ds : List ℝ) (rows : List (List ℝ)),
              List.zipWith (fun row d => List.zipWith (fun x e => x - d * e) row (c :: cs))
                  (List.zipWith List.cons b rows) ds =
                List.zipWith List.cons (List.zipWith (fun x d => x - c * d) b ds)
                  (List.zipWith (fun row d => List.zipWith (fun x e => x - d * e) row cs)
                    rows ds) := by
            intro b
            induction b with
            | nil =>
                simp
            | cons h b ih =>
                intro ds rows
                cases rows with
                | nil =>
                    simp
                | cons row rows =>
                    cases ds with
                    | nil =>
                        rfl
                    | cons d ds =>
                        simp [ih, mul_comm]
          have hrest := ih hcolumn
          have hsize : (List.zipWith (fun x d => x - c * d) b cs).length =
              (CholeskyFactor.deflated cs rows).length := by
            simp [CholeskyFactor.deflated, hlength, hcolumn]
          have hcons := Symmetric.cons hsize hrest (a := a - c * c)
          rw [CholeskyFactor.deflated, ← hborder] at hcons
          exact hcons

end Symmetric

end Symmetry

variable [Threshold]

/-- The products of rows with a vector. -/
noncomputable def times (rows : List (List ℝ)) (x : List ℝ) : List ℝ :=
  rows.map (Vec.dot · x)

section Columns

variable {column b : List ℝ} {rows : List (List ℝ)} {x : List ℝ}

theorem length_times
    (rows : List (List ℝ)) (x : List ℝ) :
    (times rows x).length = rows.length :=
  List.length_map _

theorem times_border
    (b : List ℝ) (rows : List (List ℝ)) (a : ℝ) (x : List ℝ) :
    times (List.zipWith List.cons b rows) (a :: x) =
      List.zipWith (fun h t => h * a + t) b (times rows x) := by
  induction b generalizing rows with
  | nil =>
      rfl
  | cons h b ih =>
      cases rows with
      | nil =>
          rfl
      | cons row rows =>
          change Vec.dot (h :: row) (a :: x) :: times (List.zipWith List.cons b rows) (a :: x) = _
          rw [Vec.dot_cons, ih]
          rfl

/-- The products of deflated rows. -/
theorem times_deflated
    (hrows : ∀ row ∈ rows, row.length = column.length) :
    times (deflated column rows) x =
      List.zipWith (fun t c => t - c * Vec.dot column x) (times rows x) column := by
  have hany : ∀ cs : List ℝ,
      times (List.zipWith (fun row c => List.zipWith (fun x d => x - c * d) row column) rows cs) x =
        List.zipWith (fun t c => t - c * Vec.dot column x) (times rows x) cs := by
    intro cs
    induction rows generalizing cs with
    | nil =>
        rfl
    | cons row rows ih =>
        cases cs with
        | nil =>
            rfl
        | cons c cs =>
            have hrow := Vec.dot_zipWith_sub_mul c (hrows row List.mem_cons_self) x
            have hrest := ih (fun r hr => hrows r (List.mem_cons_of_mem row hr)) cs
            exact congrArg₂ List.cons hrow hrest
  exact hany column

/-- The remainder of bordered rows does not depend on the border. -/
theorem remainder_border
    (hb : b.length = rows.length) :
    remainder column (List.zipWith List.cons b rows) = deflated column rows := by
  have hany : ∀ cs : List ℝ,
      List.zipWith (fun row c => List.zipWith (fun x d => x - c * d) row.tail column)
          (List.zipWith List.cons b rows) cs =
        List.zipWith (fun row c => List.zipWith (fun x d => x - c * d) row column) rows cs := by
    intro cs
    induction b generalizing rows cs with
    | nil =>
        rw [List.length_nil, eq_comm, List.length_eq_zero_iff] at hb
        rw [hb]
        rfl
    | cons h b ih =>
        cases rows with
        | nil =>
            cases hb
        | cons row rows =>
            cases cs with
            | nil =>
                rfl
            | cons c cs =>
                exact congrArg (List.cons _) (ih (Nat.succ.inj hb) cs)
  exact hany column

end Columns

section Pivots

variable {d : ℝ} {column : List ℝ} {rows : List (List ℝ)}

/-- A pivot that is a square, with its column and row, before the remaining rows. -/
def pivoted (d : ℝ) (column : List ℝ) (rows : List (List ℝ)) : List (List ℝ) :=
  (d * d :: column.map (d * ·)) :: List.zipWith List.cons (column.map (d * ·)) rows

omit [Threshold] in
/-- A positive pivot is a square, and its column a multiple of the column of the factor. -/
theorem eq_pivoted
    {a : ℝ} {b : List ℝ}
    (ha : 0 < a) :
    (a :: b) :: List.zipWith List.cons b rows = pivoted (√a) (b.map (· / √a)) rows := by
  have hroot : √a ≠ 0 :=
    (Real.sqrt_pos.2 ha).ne'
  have hcolumn : (b.map (· / √a)).map (√a * ·) = b := by
    rw [List.map_map]
    refine (List.map_congr_left fun h _ => ?_).trans (List.map_id b)
    exact mul_div_cancel₀ h hroot
  rw [pivoted, hcolumn, Real.mul_self_sqrt ha.le]

/-- The factor begins with the root of the pivot and the column below it. -/
theorem ofRows?_cons
    {a : ℝ} {b : List ℝ}
    (ha : 0 < a)
    (hb : b.length = rows.length) :
    ofRows? ((a :: b) :: List.zipWith List.cons b rows) =
      (ofRows? (deflated (b.map (· / √a)) rows)).map ((√a, b.map (· / √a)) :: ·) := by
  have hcolumn : (List.zipWith List.cons b rows).map (fun r => r.headD 0 / √a) =
      b.map (· / √a) := by
    apply List.ext_getElem
    · simp [hb]
    · intro i h₁ h₂
      simp
  rw [ofRows?]
  simp only [Exact.ofNat_zero, Exact.sqrt_eq, List.headD_cons]
  rw [if_pos ha, hcolumn, remainder_border hb]

theorem dot_map_mul
    (d : ℝ) (column x : List ℝ) :
    Vec.dot (column.map (d * ·)) x = d * Vec.dot column x := by
  induction column generalizing x with
  | nil =>
      simp
  | cons c column ih =>
      cases x with
      | nil =>
          simp
      | cons x xs =>
          rw [List.map_cons, Vec.dot_cons, Vec.dot_cons, ih]
          ring

/-- The products of rows with a pivot. -/
theorem times_pivoted
    (d a : ℝ) (column x : List ℝ) (rows : List (List ℝ)) :
    times (pivoted d column rows) (a :: x) =
      d * (d * a + Vec.dot column x) ::
        List.zipWith (fun c t => d * a * c + t) column (times rows x) := by
  have hfirst : Vec.dot (d * d :: column.map (d * ·)) (a :: x) =
      d * (d * a + Vec.dot column x) := by
    rw [Vec.dot_cons, dot_map_mul]
    ring
  have hrest : times (List.zipWith List.cons (column.map (d * ·)) rows) (a :: x) =
      List.zipWith (fun c t => d * a * c + t) column (times rows x) := by
    rw [times_border, List.zipWith_map_left]
    congr 1
    funext c t
    ring
  exact congrArg₂ List.cons hfirst hrest

/-- **Completing the square**: the quadratic form of rows with a pivot is a square plus that of the
remainder. -/
theorem dot_times_pivoted
    (hrows : ∀ row ∈ rows, row.length = column.length)
    (hcolumn : column.length = rows.length)
    (a : ℝ) (x : List ℝ) :
    Vec.dot (a :: x) (times (pivoted d column rows) (a :: x)) =
      (d * a + Vec.dot column x) ^ 2 + Vec.dot x (times (deflated column rows) x) := by
  have hsize : (times rows x).length = column.length := by
    rw [length_times, hcolumn]
  have hupper : Vec.dot x (List.zipWith (fun c t => d * a * c + t) column (times rows x)) =
      Vec.dot x (times rows x) + d * a * Vec.dot column x := by
    have hsub := Vec.dot_zipWith_sub_mul (-(d * a)) hsize x
    rw [List.zipWith_comm, Vec.dot_comm]
    simpa [add_comm, Vec.dot_comm x] using hsub
  have hlower : Vec.dot x (times (deflated column rows) x) =
      Vec.dot x (times rows x) - Vec.dot column x * Vec.dot column x := by
    have hsub := Vec.dot_zipWith_sub_mul (Vec.dot column x) hsize x
    rw [times_deflated hrows, Vec.dot_comm]
    simpa [mul_comm, Vec.dot_comm x] using hsub
  rw [times_pivoted, Vec.dot_cons, hupper, hlower]
  ring

end Pivots

section Factors

variable {rows : List (List ℝ)} {factor : CholeskyFactor ℝ} {b : List ℝ}

/-- The quadratic form of the rows is positive on vectors with an entry other than zero. -/
def Definite (rows : List (List ℝ)) : Prop :=
  ∀ x : List ℝ, x.length = rows.length → (∃ a ∈ x, a ≠ 0) → 0 < Vec.dot x (times rows x)

/-- The pivot of positive definite rows is positive. -/
theorem Definite.pivot_pos
    {a : ℝ} {column : List ℝ}
    (hlength : column.length = rows.length)
    (h : Definite ((a :: column) :: List.zipWith List.cons column rows)) :
    0 < a := by
  have hcount : (List.zipWith List.cons column rows).length = rows.length := by
    rw [List.length_zipWith, hlength, Nat.min_self]
  have hform := h (1 :: Vec.zero rows.length) (by simp [Vec.zero, hcount])
    ⟨1, List.mem_cons_self, one_ne_zero⟩
  change 0 < Vec.dot (1 :: Vec.zero rows.length)
    (Vec.dot (a :: column) (1 :: Vec.zero rows.length) :: _) at hform
  rw [Vec.dot_cons, Vec.dot_cons, Vec.dot_comm (Vec.zero _), Vec.dot_zero_right,
    Vec.dot_zero_right] at hform
  simpa using hform

/-- The remainder of positive definite rows is positive definite: a vector extends to one for which
the square vanishes. -/
theorem Definite.deflated
    {d : ℝ} {column : List ℝ}
    (hd : d ≠ 0)
    (hrows : ∀ row ∈ rows, row.length = column.length)
    (hcolumn : column.length = rows.length)
    (h : Definite (pivoted d column rows)) :
    Definite (CholeskyFactor.deflated column rows) := by
  have hcount : (CholeskyFactor.deflated column rows).length = rows.length := by
    rw [CholeskyFactor.deflated, List.length_zipWith, hcolumn, Nat.min_self]
  intro x hx hne
  obtain ⟨a, ha, hne⟩ := hne
  have hform := h (-(Vec.dot column x / d) :: x)
    (by simp [pivoted, hx, hcount, hcolumn]) ⟨a, List.mem_cons_of_mem _ ha, hne⟩
  rw [dot_times_pivoted hrows hcolumn, mul_neg, mul_div_cancel₀ _ hd] at hform
  simpa using hform

/-- **Positive definite matrices have a factor.** -/
theorem exists_ofRows?
    (hsymmetric : Symmetric rows)
    (hdefinite : Definite rows) :
    ∃ factor, ofRows? rows = some factor := by
  induction hn : rows.length generalizing rows with
  | zero =>
      rw [List.length_eq_zero_iff] at hn
      rw [hn, ofRows?]
      exact ⟨[], rfl⟩
  | succ n ih =>
      cases hsymmetric with
      | nil =>
          cases hn
      | @cons a column rows hlength h =>
          have ha := hdefinite.pivot_pos hlength
          have hcolumn : (column.map (· / √a)).length = rows.length := by
            rw [List.length_map, hlength]
          rw [eq_pivoted ha] at hdefinite
          have hremainder := hdefinite.deflated (Real.sqrt_pos.2 ha).ne'
            (fun row hrow => (h.length_row row hrow).trans hcolumn.symm) hcolumn
          have hcount : (deflated (column.map (· / √a)) rows).length = n := by
            rw [List.length_cons, List.length_zipWith, hlength, Nat.min_self] at hn
            rw [deflated, List.length_zipWith, hcolumn, Nat.min_self]
            exact Nat.succ.inj hn
          obtain ⟨factor, hfactor⟩ := ih (h.deflated hcolumn) hremainder hcount
          rw [ofRows?_cons ha hlength, hfactor]
          exact ⟨_, rfl⟩

theorem pivot_pos_of_ofRows?
    {a : ℝ} {column : List ℝ}
    (hfactor : ofRows? ((a :: column) :: rows) = some factor) :
    0 < a := by
  rw [ofRows?] at hfactor
  simp only [Exact.ofNat_zero, List.headD_cons] at hfactor
  split_ifs at hfactor with ha
  exact ha

/-- Solving with the first column of a factor. -/
theorem solve_cons
    (d : ℝ) (column : List ℝ) (factor : CholeskyFactor ℝ) (b₀ : ℝ) (b : List ℝ) :
    solve ((d, column) :: factor) (b₀ :: b) =
      (b₀ / d - Vec.dot column
          (solve factor (List.zipWith (fun y c => y - c * (b₀ / d)) b column))) / d ::
        solve factor (List.zipWith (fun y c => y - c * (b₀ / d)) b column) :=
  rfl

omit [Threshold] in
/-- Multiples of a column on both sides of an equation are taken to one side. -/
theorem eq_of_zipWith_sub_mul
    {t b column : List ℝ} {D z : ℝ}
    (ht : t.length = column.length)
    (hb : b.length = column.length)
    (h : List.zipWith (fun t c => t - c * D) t column =
      List.zipWith (fun y c => y - c * z) b column) :
    List.zipWith (fun c t => (z - D) * c + t) column t = b := by
  apply List.ext_getElem
  · rw [List.length_zipWith, ht, hb, Nat.min_self]
  · intro i h₁ h₂
    have hi : i < column.length := hb ▸ h₂
    have hentry := congrArg (·[i]?) h
    simp only [List.getElem?_zipWith, List.getElem?_eq_getElem h₂, List.getElem?_eq_getElem hi,
      List.getElem?_eq_getElem (ht.symm ▸ hi : i < t.length), Option.some_inj] at hentry
    rw [List.getElem_zipWith]
    linear_combination hentry

/-- **What is solved with a factor solves the system of the matrix.** -/
theorem times_solve
    (hsymmetric : Symmetric rows)
    (hfactor : ofRows? rows = some factor)
    (hb : b.length = rows.length) :
    (solve factor b).length = rows.length ∧ times rows (solve factor b) = b := by
  induction hn : rows.length generalizing rows factor b with
  | zero =>
      rw [List.length_eq_zero_iff] at hn
      subst hn
      rw [ofRows?, Option.some_inj] at hfactor
      subst hfactor
      rw [List.length_nil, List.length_eq_zero_iff] at hb
      subst hb
      exact ⟨rfl, rfl⟩
  | succ n ih =>
      cases hsymmetric with
      | nil =>
          cases hn
      | @cons a column rows hlength h =>
          have ha := pivot_pos_of_ofRows? hfactor
          have hcolumn : (column.map (· / √a)).length = rows.length := by
            rw [List.length_map, hlength]
          have hcount : (deflated (column.map (· / √a)) rows).length = rows.length := by
            rw [deflated, List.length_zipWith, hcolumn, Nat.min_self]
          rw [List.length_cons, List.length_zipWith, hlength, Nat.min_self] at hn hb
          rw [ofRows?_cons ha hlength] at hfactor
          obtain ⟨factor, hrest, rfl⟩ := Option.map_eq_some_iff.1 hfactor
          obtain ⟨b₀, b, rfl⟩ := List.exists_cons_of_length_eq_add_one hb
          rw [List.length_cons, Nat.add_right_cancel_iff] at hb
          obtain ⟨hsize, hsolves⟩ := ih (h.deflated hcolumn) hrest
            (b := List.zipWith (fun y c => y - c * (b₀ / √a)) b (column.map (· / √a)))
            (by rw [List.length_zipWith, hb, hcolumn, Nat.min_self, hcount])
            (hcount.trans (Nat.succ.inj hn))
          rw [times_deflated fun row hrow => (h.length_row row hrow).trans hcolumn.symm] at hsolves
          have htail := eq_of_zipWith_sub_mul (by rw [length_times, hcolumn])
            (hb.trans hcolumn.symm) hsolves
          have hroot : √a ≠ 0 :=
            (Real.sqrt_pos.2 ha).ne'
          rw [solve_cons, eq_pivoted ha, times_pivoted, mul_div_cancel₀ _ hroot, htail,
            sub_add_cancel, mul_div_cancel₀ _ hroot, List.length_cons, hsize]
          exact ⟨rfl, rfl⟩

end Factors

section Linearity

variable {b c : List ℝ}

@[simp] theorem length_solveLower
    (factor : CholeskyFactor ℝ) (b : List ℝ) :
    (solveLower factor b).length = factor.length := by
  induction factor generalizing b with
  | nil =>
      rfl
  | cons first factor ih =>
      exact congrArg (· + 1) (ih _)

@[simp] theorem length_solveUpper
    (factor : CholeskyFactor ℝ) (z : List ℝ) :
    (solveUpper factor z).length = factor.length := by
  induction factor generalizing z with
  | nil =>
      rfl
  | cons first factor ih =>
      exact congrArg (· + 1) (ih _)

/-- Forward substitution is linear. -/
theorem solveLower_combine
    (factor : CholeskyFactor ℝ) (s t : ℝ)
    (h : b.length = c.length) :
    solveLower factor (Vec.combine s t b c) =
      Vec.combine s t (solveLower factor b) (solveLower factor c) := by
  induction factor generalizing b c with
  | nil =>
      rfl
  | cons first factor ih =>
      obtain ⟨d, column⟩ := first
      have htails : b.tail.length = c.tail.length := by
        rw [List.length_tail, List.length_tail, h]
      have hhead : (Vec.combine s t b c).headD 0 / d =
          s * (b.headD 0 / d) + t * (c.headD 0 / d) := by
        rw [Vec.headD_combine s t h]
        ring
      have hrest : ∀ z w : ℝ,
          List.zipWith (fun x e => x - e * (s * z + t * w)) (Vec.combine s t b.tail c.tail) column =
            Vec.combine s t (List.zipWith (fun x e => x - e * z) b.tail column)
              (List.zipWith (fun x e => x - e * w) c.tail column) := by
        intro z w
        apply List.ext_getElem
        · simp only [Vec.combine, List.length_zipWith, htails, Nat.min_self]
        · intro i h₁ h₂
          simp only [Vec.combine, List.getElem_zipWith]
          ring
      simp only [solveLower, Exact.ofNat_zero, hhead, Vec.tail_combine, hrest]
      rw [ih (by simp only [List.length_zipWith, htails])]
      rfl

/-- Backward substitution is linear. -/
theorem solveUpper_combine
    (factor : CholeskyFactor ℝ) (s t : ℝ)
    (h : b.length = c.length) :
    solveUpper factor (Vec.combine s t b c) =
      Vec.combine s t (solveUpper factor b) (solveUpper factor c) := by
  induction factor generalizing b c with
  | nil =>
      rfl
  | cons first factor ih =>
      obtain ⟨d, column⟩ := first
      have htails : b.tail.length = c.tail.length := by
        rw [List.length_tail, List.length_tail, h]
      have hsizes : (solveUpper factor b.tail).length = (solveUpper factor c.tail).length := by
        rw [length_solveUpper, length_solveUpper]
      simp only [solveUpper, Exact.ofNat_zero, Vec.headD_combine s t h, Vec.tail_combine,
        ih htails, Vec.dot_combine_right s t hsizes]
      refine congrArg₂ List.cons ?_ rfl
      ring

/-- **What is solved with a factor is linear in the right-hand side.**  This needs no matrix to be
positive definite. -/
theorem solve_combine
    (factor : CholeskyFactor ℝ) (s t : ℝ)
    (h : b.length = c.length) :
    solve factor (Vec.combine s t b c) = Vec.combine s t (solve factor b) (solve factor c) := by
  unfold solve
  rw [solveLower_combine factor s t h, solveUpper_combine factor s t (by simp)]

@[simp] theorem length_solve
    (factor : CholeskyFactor ℝ) (b : List ℝ) :
    (solve factor b).length = factor.length :=
  length_solveUpper factor _

end Linearity

section Matrices

variable {A : DenseMatrix ℝ} {n : ℕ}

omit [Threshold] in
theorem getD_map_tail
    (rows : List (List ℝ)) (i j : ℕ) :
    ((rows.map List.tail).getD i []).getD j 0 = (rows.getD i []).getD (j + 1) 0 := by
  simp only [List.getD_eq_getElem?_getD, List.getElem?_map]
  cases rows[i]? with
  | none =>
      rfl
  | some row =>
      cases row <;> rfl

omit [Threshold] in
/-- Rows are their first column before their tails. -/
theorem eq_zipWith_cons_tail
    {rows : List (List ℝ)} {column : List ℝ}
    (hlength : column.length = rows.length)
    (hne : ∀ row ∈ rows, row ≠ [])
    (hfirst : ∀ i < rows.length, column.getD i 0 = (rows.getD i []).getD 0 0) :
    rows = List.zipWith List.cons column (rows.map List.tail) := by
  apply List.ext_getElem
  · rw [List.length_zipWith, List.length_map, hlength, Nat.min_self]
  · intro i hi hi'
    have hentry := hfirst i hi
    rw [List.getD_eq_getElem _ _ (hlength ▸ hi), List.getD_eq_getElem _ _ hi] at hentry
    rw [List.getElem_zipWith, List.getElem_map, hentry]
    obtain ⟨b, row, hrow⟩ := List.exists_cons_of_ne_nil (hne _ (List.getElem_mem hi))
    rw [hrow]
    rfl

omit [Threshold] in
/-- Rows whose entries are symmetric are those of a symmetric matrix. -/
theorem symmetric_of_getD
    {rows : List (List ℝ)}
    (hrows : ∀ row ∈ rows, row.length = rows.length)
    (h : ∀ i < rows.length, ∀ j < rows.length,
      (rows.getD i []).getD j 0 = (rows.getD j []).getD i 0) :
    Symmetric rows := by
  induction hn : rows.length generalizing rows with
  | zero =>
      rw [List.length_eq_zero_iff.1 hn]
      exact .nil
  | succ n ih =>
      obtain ⟨row, rest, rfl⟩ := List.exists_cons_of_length_eq_add_one hn
      obtain ⟨a, column, rfl⟩ := List.exists_cons_of_length_eq_add_one
        ((hrows row List.mem_cons_self).trans hn)
      have hlength : ∀ row ∈ rest, row.length = n + 1 := fun row hrow =>
        (hrows row (List.mem_cons_of_mem _ hrow)).trans hn
      have hcolumn : column.length = rest.length :=
        Nat.succ.inj (hrows _ List.mem_cons_self)
      rw [List.length_cons, Nat.add_right_cancel_iff] at hn
      have hne : ∀ row ∈ rest, row ≠ [] := fun row hrow =>
        List.ne_nil_of_length_eq_add_one (hlength row hrow)
      rw [eq_zipWith_cons_tail hcolumn hne fun i hi =>
        h 0 (Nat.succ_pos _) (i + 1) (Nat.succ_lt_succ hi)]
      apply Symmetric.cons (by rw [List.length_map, hcolumn])
      apply ih
      · intro row hrow
        obtain ⟨row', hrow', rfl⟩ := List.mem_map.1 hrow
        rw [List.length_tail, hlength row' hrow', List.length_map, hn]
        rfl
      · intro i hi j hj
        rw [List.length_map] at hi hj
        rw [getD_map_tail, getD_map_tail]
        exact h (i + 1) (Nat.succ_lt_succ hi) (j + 1) (Nat.succ_lt_succ hj)
      · rw [List.length_map, hn]

/-- The rows of a positive definite matrix. -/
theorem definite_rows
    (hrows : A.numRows = n)
    (hcols : A.numCols = n)
    (hA : (A.toMatrix n n).PosDef) :
    Symmetric A.rows ∧ Definite A.rows := by
  constructor
  · apply symmetric_of_getD
    · intro row hrow
      rw [A.length_row row hrow, hcols]
      exact hrows.symm
    · intro i hi j hj
      have hentry := congrFun (congrFun hA.isHermitian ⟨j, hrows ▸ hj⟩) ⟨i, hrows ▸ hi⟩
      simpa [DenseMatrix.toMatrix, DenseMatrix.get] using hentry
  · intro x hx hne
    have hlength : x.length = n :=
      hx.trans hrows
    have hne : Vec.coordinates n x ≠ 0 := by
      obtain ⟨a, ha, hne⟩ := hne
      intro hzero
      exact hne ((Vec.coordinates_eq_zero_iff hlength).1 hzero a ha)
    change 0 < Vec.dot x (A.mulVec x)
    rw [Vec.dot_eq_dotProduct hlength (by rw [DenseMatrix.length_mulVec, hrows]),
      DenseMatrix.coordinates_mulVec hrows hcols hlength]
    exact hA.dotProduct_mulVec_pos hne

/-- **Positive definite matrices have a factor**, with which the product with the inverse is
computed. -/
theorem exists_ofMatrix
    (hrows : A.numRows = n)
    (hcols : A.numCols = n)
    (hA : (A.toMatrix n n).PosDef) :
    ∃ factor, ofMatrix A = .ok factor ∧
      ∀ b : List ℝ, b.length = n → (solve factor b).length = n ∧
        Vec.coordinates n (solve factor b) = (A.toMatrix n n)⁻¹ *ᵥ Vec.coordinates n b := by
  obtain ⟨hsymmetric, hdefinite⟩ := definite_rows hrows hcols hA
  obtain ⟨factor, hfactor⟩ := exists_ofRows? hsymmetric hdefinite
  refine ⟨factor, by rw [ofMatrix, hfactor], ?_⟩
  intro b hb
  obtain ⟨hsize, hsolves⟩ := times_solve hsymmetric hfactor (hb.trans hrows.symm)
  have hlength : (solve factor b).length = n :=
    hsize.trans hrows
  refine ⟨hlength, ?_⟩
  have hproduct : A.toMatrix n n *ᵥ Vec.coordinates n (solve factor b) = Vec.coordinates n b := by
    rw [← DenseMatrix.coordinates_mulVec hrows hcols hlength]
    exact congrArg (Vec.coordinates n) hsolves
  have hunit : IsUnit (A.toMatrix n n).det :=
    (Matrix.isUnit_iff_isUnit_det _).1 hA.isUnit
  rw [← hproduct, Matrix.mulVec_mulVec, Matrix.nonsing_inv_mul _ hunit, Matrix.one_mulVec]

end Matrices

end CholeskyFactor
end ConvexContact
