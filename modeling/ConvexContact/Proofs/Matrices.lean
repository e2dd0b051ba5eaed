import Mathlib
import ConvexContact.Linear.DenseMatrix
import ConvexContact.Proofs.Vectors

/-!
# Matrices in exact arithmetic

The product of a matrix with a vector is known if its inner products with all vectors are known.
Written as a double sum over rows and columns (`dot_mulVec`), these inner products turn every
operation that builds a matrix from its entries into an equation between sums.

**Results.**
* `dot_mulVec_transpose`: the transpose is the adjoint.
* `mulVec_mul`: a product acts as the composition of its factors.
* `dot_mulVec_addBlock`, `mulVec_blockDiagonal`: blocks act on intervals of a vector.
* `eq_of_dot_mulVec_eq`: a matrix is determined by its action.
-/

namespace ConvexContact
namespace DenseMatrix

section Rows

variable {α : Type}

theorem length_row_getD
    {A : DenseMatrix α} {i : ℕ}
    (hi : i < A.numRows) :
    (A.rows.getD i []).length = A.numCols := by
  rw [List.getD_eq_getElem _ _ hi]
  exact A.length_row _ (List.getElem_mem hi)

/-- All rows have as many entries as there are columns. -/
theorem map_length_rows
    (A : DenseMatrix α) :
    A.rows.map List.length = List.replicate A.numRows A.numCols := by
  rw [List.eq_replicate_iff]
  refine ⟨by simp [numRows], ?_⟩
  intro n hn
  obtain ⟨row, hrow, rfl⟩ := List.mem_map.1 hn
  exact A.length_row row hrow

/-- Matrices with the same rows, columns and format are equal. -/
theorem eq_of_rows_eq
    {A B : DenseMatrix α}
    (hformat : A.format = B.format)
    (hcols : A.numCols = B.numCols)
    (hrows : A.rows = B.rows) :
    A = B := by
  cases A
  cases B
  cases hformat
  cases hcols
  cases hrows
  rfl

/-- Changing every entry of a matrix, in which only the entries inside matter. -/
theorem map_tabulate
    {β : Type}
    (f : α → β) (format : Format) {m n : ℕ} {g : ℕ → ℕ → α} {h : ℕ → ℕ → β}
    (hentry : ∀ i, i < m → ∀ j, j < n → f (g i j) = h i j) :
    (tabulate format m n g).map f = tabulate format m n h := by
  refine eq_of_rows_eq rfl rfl ?_
  simp only [map, tabulate, List.map_map]
  apply List.map_congr_left
  intro i hi
  rw [Function.comp_apply, List.map_map]
  apply List.map_congr_left
  intro j hj
  exact hentry i (List.mem_range.1 hi) j (List.mem_range.1 hj)

/-- The entries of a matrix, row by row, by their positions. -/
theorem entries_tabulate
    (format : Format) (m n : ℕ) (f : ℕ → ℕ → α) :
    (tabulate format m n f).entries =
      (List.range (m * n)).map fun k => f (k / n) (k % n) := by
  induction m with
  | zero =>
      simp [entries, tabulate]
  | succ m ih =>
      have hrow : ∀ j ∈ List.range n,
          f m j = ((fun k => f (k / n) (k % n)) ∘ (m * n + ·)) j := by
        intro j hj
        have hlt : j < n := List.mem_range.1 hj
        have hpos : 0 < n := by
          omega
        simp [Nat.add_comm (m * n) j, Nat.add_mul_div_right _ _ hpos, Nat.div_eq_of_lt hlt,
          Nat.mod_eq_of_lt hlt]
      have hsplit : (tabulate format (m + 1) n f).entries =
          (tabulate format m n f).entries ++ (List.range n).map (f m) := by
        simp [entries, tabulate, List.range_succ]
      rw [hsplit, ih, Nat.succ_mul, List.range_add, List.map_append, List.map_map,
        List.map_congr_left hrow]

variable [Scalar α]

/-- Rows of one length are found again from their entries. -/
theorem tabulate_rows
    {n : ℕ} {rows : List (List α)}
    (h : ∀ row ∈ rows, row.length = n) :
    ((List.range rows.length).map fun i =>
      (List.range n).map fun j => (rows.getD i []).getD j 0) = rows := by
  apply List.ext_getElem
  · simp
  · intro i h₁ h₂
    have hrow : (rows[i]).length = n :=
      h _ (List.getElem_mem h₂)
    rw [List.getElem_map, List.getElem_range, List.getD_eq_getElem _ _ h₂]
    apply List.ext_getElem
    · simp [hrow]
    · intro j h₃ h₄
      rw [List.getElem_map, List.getElem_range, List.getD_eq_getElem _ _ h₄]

/-- A matrix has the rows of its entries. -/
theorem rows_tabulate_get
    (format : Format) (A : DenseMatrix α) :
    (tabulate format A.numRows A.numCols A.get).rows = A.rows :=
  tabulate_rows A.length_row

theorem entries_eq
    (A : DenseMatrix α) :
    A.entries = (List.range (A.numRows * A.numCols)).map fun k =>
      A.get (k / A.numCols) (k % A.numCols) := by
  rw [← entries_tabulate A.format, entries, entries, rows_tabulate_get]

/-- Matrices of one width on top of each other have the rows of all of them. -/
theorem rows_vertical
    {format : Format} {n : ℕ} {parts : List (DenseMatrix α)}
    (h : ∀ A ∈ parts, A.numCols = n) :
    (vertical format n parts).rows = parts.flatMap (·.rows) := by
  apply tabulate_rows
  intro row hrow
  obtain ⟨A, hA, hrow⟩ := List.mem_flatMap.1 hrow
  rw [A.length_row row hrow, h A hA]

/-- A square matrix with symmetric entries is its transpose. -/
theorem transpose_eq
    {A : DenseMatrix α}
    (hsquare : A.numRows = A.numCols)
    (hsymmetric : ∀ i j, A.get i j = A.get j i) :
    A.transpose = A := by
  refine eq_of_rows_eq rfl hsquare ?_
  have hentries : (fun i j => A.get j i) = A.get := by
    funext i j
    exact hsymmetric j i
  rw [transpose, hentries, ← hsquare]
  conv_lhs =>
    arg 1
    arg 3
    rw [hsquare]
  exact A.rows_tabulate_get A.format

@[simp] theorem length_mulVec
    (A : DenseMatrix α) (x : List α) :
    (A.mulVec x).length = A.numRows := by
  simp [mulVec, numRows]

theorem mulVec_vertical
    {format : Format} {n : ℕ} {parts : List (DenseMatrix α)}
    (h : ∀ A ∈ parts, A.numCols = n)
    (x : List α) :
    (vertical format n parts).mulVec x = parts.flatMap fun A => A.mulVec x := by
  unfold mulVec
  rw [rows_vertical h, List.map_flatMap]

section Formats

@[simp] theorem numCols_cast
    (format : Format) (A : DenseMatrix α) :
    (A.cast format).numCols = A.numCols :=
  rfl

@[simp] theorem format_cast
    (format : Format) (A : DenseMatrix α) :
    (A.cast format).format = format :=
  rfl

variable [Unrounded α]

/-- Only the last format counts. -/
@[simp] theorem cast_cast
    (format format' : Format) (A : DenseMatrix α) :
    (A.cast format).cast format' = A.cast format' := by
  refine eq_of_rows_eq rfl rfl ?_
  simp [cast, map]

@[simp] theorem rows_cast
    (format : Format) (A : DenseMatrix α) :
    (A.cast format).rows = A.rows := by
  simp [cast, map]

@[simp] theorem numRows_cast
    (format : Format) (A : DenseMatrix α) :
    (A.cast format).numRows = A.numRows := by
  simp [numRows]

@[simp] theorem mulVec_cast
    (format : Format) (A : DenseMatrix α) (x : List α) :
    (A.cast format).mulVec x = A.mulVec x := by
  simp [mulVec]

@[simp] theorem get_cast
    (format : Format) (A : DenseMatrix α) :
    (A.cast format).get = A.get := by
  funext i j
  simp [get]

theorem transpose_cast
    (format : Format) (A : DenseMatrix α) :
    (A.cast format).transpose = A.transpose.cast format := by
  refine eq_of_rows_eq rfl (A.numRows_cast format) ?_
  rw [rows_cast, transpose, get_cast, numRows_cast]
  rfl

end Formats

end Rows

section Positions

/-- A sum over an interval of positions. -/
theorem sum_range_ite
    {r k m : ℕ}
    (h : r + k ≤ m)
    (f : ℕ → ℝ) :
    (∑ i ∈ Finset.range m, if r ≤ i ∧ i < r + k then f i else 0) =
      ∑ i ∈ Finset.range k, f (r + i) := by
  rw [← Finset.sum_filter]
  have hinterval :
      (Finset.range m).filter (fun i => r ≤ i ∧ i < r + k) = Finset.Ico r (r + k) := by
    ext i
    simp only [Finset.mem_filter, Finset.mem_range, Finset.mem_Ico]
    omega
  rw [hinterval, Finset.sum_Ico_eq_sum_range, Nat.add_sub_cancel_left]

theorem getD_slice
    {r k i : ℕ}
    (hi : i < k)
    (x : List ℝ) :
    (Vec.slice r k x).getD i 0 = x.getD (r + i) 0 := by
  simp [Vec.slice, List.getD_eq_getElem?_getD, hi]

theorem length_slice
    {β : Type}
    {r k : ℕ} {x : List β}
    (h : r + k ≤ x.length) :
    (Vec.slice r k x).length = k := by
  simp only [Vec.slice, List.length_take, List.length_drop]
  omega

end Positions

section Real

variable [Threshold]

theorem getD_mulVec
    (A : DenseMatrix ℝ) (x : List ℝ) (i : ℕ) :
    (A.mulVec x).getD i 0 = Vec.dot (A.rows.getD i []) x := by
  simp only [mulVec, List.getD_eq_getElem?_getD, List.getElem?_map]
  cases A.rows[i]? with
  | none =>
      simp
  | some row =>
      rfl

variable {A B : DenseMatrix ℝ} {w x : List ℝ}

/-- The inner product with a product of a matrix and a vector, by entries. -/
theorem dot_mulVec
    (hw : w.length = A.numRows)
    (hx : x.length = A.numCols) :
    Vec.dot w (A.mulVec x) =
      ∑ i ∈ Finset.range A.numRows, ∑ j ∈ Finset.range A.numCols,
        w.getD i 0 * A.get i j * x.getD j 0 := by
  rw [Vec.dot_eq_sum hw (A.length_mulVec x)]
  apply Finset.sum_congr rfl
  intro i hi
  rw [getD_mulVec, Vec.dot_eq_sum (length_row_getD (Finset.mem_range.1 hi)) hx, Finset.mul_sum]
  apply Finset.sum_congr rfl
  intro j _
  simp only [get, Exact.ofNat_zero]
  ring

/-- The same for a matrix that is given by its entries. -/
theorem dot_mulVec_tabulate
    {format : Format} {m n : ℕ} {f : ℕ → ℕ → ℝ}
    (hw : w.length = m)
    (hx : x.length = n) :
    Vec.dot w ((tabulate format m n f).mulVec x) =
      ∑ i ∈ Finset.range m, ∑ j ∈ Finset.range n, w.getD i 0 * f i j * x.getD j 0 := by
  rw [dot_mulVec (by simpa using hw) (by simpa using hx), numRows_tabulate, numCols_tabulate]
  apply Finset.sum_congr rfl
  intro i hi
  apply Finset.sum_congr rfl
  intro j hj
  rw [get_tabulate _ _ _ _ (Finset.mem_range.1 hi) (Finset.mem_range.1 hj)]

/-- The transpose is the adjoint. -/
theorem dot_mulVec_transpose
    (hw : w.length = A.numRows)
    (hx : x.length = A.numCols) :
    Vec.dot x (A.transpose.mulVec w) = Vec.dot (A.mulVec x) w := by
  rw [Vec.dot_comm (A.mulVec x) w, dot_mulVec hw hx, transpose, dot_mulVec_tabulate hx hw,
    Finset.sum_comm]
  apply Finset.sum_congr rfl
  intro i _
  apply Finset.sum_congr rfl
  intro j _
  ring

@[simp] theorem numRows_transpose
    (A : DenseMatrix ℝ) :
    A.transpose.numRows = A.numCols := by
  simp [transpose]

@[simp] theorem numCols_transpose
    (A : DenseMatrix ℝ) :
    A.transpose.numCols = A.numRows :=
  rfl

@[simp] theorem numRows_mul
    (A B : DenseMatrix ℝ) :
    (A.mul B).numRows = A.numRows := by
  simp [mul]

@[simp] theorem numCols_mul
    (A B : DenseMatrix ℝ) :
    (A.mul B).numCols = B.numCols :=
  rfl

theorem sumRange_eq
    (n : ℕ) (f : ℕ → ℝ) :
    Vec.sumRange n f = ∑ k ∈ Finset.range n, f k := by
  rw [Vec.sumRange, Vec.sum_eq]
  induction n with
  | zero =>
      simp
  | succ n ih =>
      rw [List.range_succ, List.map_append, List.sum_append, ih, Finset.sum_range_succ]
      simp

/-- A product acts as the composition of its factors. -/
theorem mulVec_mul
    (h : A.numCols = B.numRows)
    (hx : x.length = B.numCols) :
    (A.mul B).mulVec x = A.mulVec (B.mulVec x) := by
  apply Vec.eq_of_dot_eq (n := A.numRows) (by simp) (by simp)
  intro w hw
  rw [dot_mulVec hw (by simp [h]), mul, dot_mulVec_tabulate hw hx]
  apply Finset.sum_congr rfl
  intro i _
  have hrows :
      ∀ k ∈ Finset.range A.numCols,
        w.getD i 0 * A.get i k * (B.mulVec x).getD k 0 =
          ∑ j ∈ Finset.range B.numCols, w.getD i 0 * (A.get i k * B.get k j) * x.getD j 0 := by
    intro k hk
    rw [Finset.mem_range, h] at hk
    rw [getD_mulVec, Vec.dot_eq_sum (length_row_getD hk) hx, Finset.mul_sum]
    apply Finset.sum_congr rfl
    intro j _
    simp only [get, Exact.ofNat_zero]
    ring
  rw [Finset.sum_congr rfl hrows, Finset.sum_comm]
  apply Finset.sum_congr rfl
  intro j _
  rw [sumRange_eq, Finset.mul_sum, Finset.sum_mul]

/-- Rows are determined by their inner products. -/
theorem rows_eq_of_dot_eq
    {rows rows' : List (List ℝ)} {n : ℕ}
    (hrows : ∀ row ∈ rows, row.length = n)
    (hrows' : ∀ row ∈ rows', row.length = n)
    (h : ∀ x : List ℝ, x.length = n → rows.map (Vec.dot · x) = rows'.map (Vec.dot · x)) :
    rows = rows' := by
  have hlength : rows.length = rows'.length := by
    simpa using congrArg List.length (h (Vec.zero n) (Vec.length_zero n))
  apply List.ext_getElem hlength
  intro i h₁ h₂
  apply Vec.eq_of_dot_eq (hrows _ (List.getElem_mem h₁)) (hrows' _ (List.getElem_mem h₂))
  intro x hx
  have hentry := congrArg (fun y => y[i]?) (h x hx)
  simp only [List.getElem?_map, List.getElem?_eq_getElem h₁, List.getElem?_eq_getElem h₂,
    Option.map_some, Option.some_inj] at hentry
  rw [Vec.dot_comm, hentry, Vec.dot_comm]

/-- A matrix is determined by its format, its sizes and its action. -/
theorem eq_of_dot_mulVec_eq
    (hformat : A.format = B.format)
    (hrows : A.numRows = B.numRows)
    (hcols : A.numCols = B.numCols)
    (h : ∀ w x : List ℝ, w.length = A.numRows → x.length = A.numCols →
      Vec.dot w (A.mulVec x) = Vec.dot w (B.mulVec x)) :
    A = B := by
  refine eq_of_rows_eq hformat hcols (rows_eq_of_dot_eq A.length_row ?_ ?_)
  · rw [hcols]
    exact B.length_row
  · intro x hx
    change A.mulVec x = B.mulVec x
    apply Vec.eq_of_dot_eq (n := A.numRows) (by simp) (by simp [hrows])
    intro w hw
    exact h w x hw hx

theorem mulVec_neg
    (A : DenseMatrix ℝ) (x : List ℝ) :
    A.mulVec (Vec.neg x) = Vec.neg (A.mulVec x) := by
  unfold mulVec Vec.neg
  rw [List.map_map]
  apply List.map_congr_left
  intro row _
  exact Vec.dot_neg_right row x

theorem mulVec_sub
    (A : DenseMatrix ℝ) {x y : List ℝ}
    (h : x.length = y.length) :
    A.mulVec (Vec.sub x y) = Vec.sub (A.mulVec x) (A.mulVec y) := by
  have hrows : Vec.sub (A.mulVec x) (A.mulVec y) =
      A.rows.map fun row => Vec.dot row x - Vec.dot row y := by
    unfold mulVec Vec.sub
    rw [List.zipWith_map, List.zipWith_self]
  rw [hrows]
  apply List.map_congr_left
  intro row _
  exact Vec.dot_sub_right row h

/-- A sum of matrices of one shape acts as the sum of its terms. -/
theorem dot_mulVec_add
    (hrows : A.numRows = B.numRows)
    (hcols : A.numCols = B.numCols)
    (hw : w.length = A.numRows)
    (hx : x.length = A.numCols) :
    Vec.dot w ((A.add B).mulVec x) = Vec.dot w (A.mulVec x) + Vec.dot w (B.mulVec x) := by
  rw [add, dot_mulVec_tabulate hw hx, dot_mulVec hw hx,
    dot_mulVec (hw.trans hrows) (hx.trans hcols), ← hrows, ← hcols, ← Finset.sum_add_distrib]
  apply Finset.sum_congr rfl
  intro i _
  rw [← Finset.sum_add_distrib]
  apply Finset.sum_congr rfl
  intro j _
  ring

end Real

section Blocks

variable [Threshold]
variable {A B : DenseMatrix ℝ} {w x : List ℝ}

@[simp] theorem numRows_addBlock
    (A : DenseMatrix ℝ) (r c : ℕ) (B : DenseMatrix ℝ) :
    (A.addBlock r c B).numRows = A.numRows := by
  simp [addBlock]

@[simp] theorem numCols_addBlock
    (A : DenseMatrix ℝ) (r c : ℕ) (B : DenseMatrix ℝ) :
    (A.addBlock r c B).numCols = A.numCols :=
  rfl

@[simp] theorem format_addBlock
    (A : DenseMatrix ℝ) (r c : ℕ) (B : DenseMatrix ℝ) :
    (A.addBlock r c B).format = A.format :=
  rfl

/-- An added block acts on an interval of the vector and gives an interval of the product. -/
theorem dot_mulVec_addBlock
    {r c : ℕ}
    (hr : r + B.numRows ≤ A.numRows)
    (hc : c + B.numCols ≤ A.numCols)
    (hw : w.length = A.numRows)
    (hx : x.length = A.numCols) :
    Vec.dot w ((A.addBlock r c B).mulVec x) =
      Vec.dot w (A.mulVec x) +
        Vec.dot (Vec.slice r B.numRows w) (B.mulVec (Vec.slice c B.numCols x)) := by
  rw [addBlock, dot_mulVec_tabulate hw hx, dot_mulVec hw hx,
    dot_mulVec (length_slice (by omega)) (length_slice (by omega))]
  have hsplit :
      ∀ i j,
        w.getD i 0 *
            (if r ≤ i ∧ i < r + B.numRows ∧ c ≤ j ∧ j < c + B.numCols
              then A.get i j + B.get (i - r) (j - c) else A.get i j) * x.getD j 0 =
          w.getD i 0 * A.get i j * x.getD j 0 +
            if r ≤ i ∧ i < r + B.numRows then
              if c ≤ j ∧ j < c + B.numCols then
                w.getD i 0 * B.get (i - r) (j - c) * x.getD j 0
              else 0
            else 0 := by
    intro i j
    by_cases hi : r ≤ i ∧ i < r + B.numRows
    · by_cases hj : c ≤ j ∧ j < c + B.numCols
      · rw [if_pos ⟨hi.1, hi.2, hj⟩, if_pos hi, if_pos hj]
        ring
      · rw [if_neg (fun h => hj h.2.2), if_pos hi, if_neg hj, add_zero]
    · rw [if_neg (fun h => hi ⟨h.1, h.2.1⟩), if_neg hi, add_zero]
  simp only [hsplit, Finset.sum_add_distrib]
  congr 1
  have hrows :
      ∀ i,
        (∑ j ∈ Finset.range A.numCols,
          if r ≤ i ∧ i < r + B.numRows then
            if c ≤ j ∧ j < c + B.numCols then
              w.getD i 0 * B.get (i - r) (j - c) * x.getD j 0
            else 0
          else 0) =
        if r ≤ i ∧ i < r + B.numRows then
          ∑ j ∈ Finset.range B.numCols, w.getD i 0 * B.get (i - r) j * x.getD (c + j) 0
        else 0 := by
    intro i
    split_ifs with hi
    · rw [sum_range_ite hc fun j => w.getD i 0 * B.get (i - r) (j - c) * x.getD j 0]
      simp only [Nat.add_sub_cancel_left]
    · exact Finset.sum_const_zero
  simp only [hrows]
  rw [sum_range_ite hr fun i =>
    ∑ j ∈ Finset.range B.numCols, w.getD i 0 * B.get (i - r) j * x.getD (c + j) 0]
  apply Finset.sum_congr rfl
  intro i hi
  apply Finset.sum_congr rfl
  intro j hj
  rw [getD_slice (Finset.mem_range.1 hi), getD_slice (Finset.mem_range.1 hj),
    Nat.add_sub_cancel_left]

/-- An entry is zero if it is given as zero, and outside the matrix. -/
theorem get_tabulate_eq_zero
    {format : Format} {m n : ℕ} {f : ℕ → ℕ → ℝ} {i j : ℕ}
    (h : f i j = 0) :
    (tabulate format m n f).get i j = 0 := by
  by_cases hi : i < m
  · by_cases hj : j < n
    · rw [get_tabulate _ _ _ _ hi hj, h]
    · simp [get, tabulate, List.getD_eq_getElem?_getD, hi, hj]
  · simp [get, tabulate, List.getD_eq_getElem?_getD, hi]

@[simp] theorem mulVec_zero_matrix
    (format : Format) (m n : ℕ) (x : List ℝ) :
    Vec.dot w ((zero format m n).mulVec x) = 0 := by
  have hrows : (zero format m n : DenseMatrix ℝ).mulVec x = Vec.zero m := by
    unfold mulVec Vec.zero
    rw [List.eq_replicate_iff]
    constructor
    · simp [zero, tabulate]
    · intro b hb
      obtain ⟨row, hrow, rfl⟩ := List.mem_map.1 hb
      obtain ⟨i, -, rfl⟩ := List.mem_map.1 hrow
      have hconst : (List.range n).map (fun _ => (0 : ℝ)) = Vec.zero n := by
        simp [Vec.zero]
      simpa [hconst] using (Vec.dot_comm (Vec.zero n) x).trans (Vec.dot_zero_right x n)
  rw [hrows, Vec.dot_zero_right]

/-- Writing a block where nothing stands adds it. -/
theorem setBlock_eq_addBlock
    {r c : ℕ}
    (h : ∀ i j, r ≤ i → i < r + B.numRows → c ≤ j → j < c + B.numCols → A.get i j = 0) :
    A.setBlock r c B = A.addBlock r c B := by
  unfold setBlock addBlock
  congr 1
  funext i j
  split_ifs with hin
  · rw [h i j hin.1 hin.2.1 hin.2.2.1 hin.2.2.2, zero_add]
  · rfl

theorem shape_foldl_setBlock
    {ι : Type}
    (l : List ι) (row col : ι → ℕ) (block : ι → DenseMatrix ℝ) (A : DenseMatrix ℝ) :
    (l.foldl (fun A a => A.setBlock (row a) (col a) (block a)) A).numRows = A.numRows ∧
      (l.foldl (fun A a => A.setBlock (row a) (col a) (block a)) A).numCols = A.numCols ∧
      (l.foldl (fun A a => A.setBlock (row a) (col a) (block a)) A).format = A.format := by
  induction l generalizing A with
  | nil =>
      exact ⟨rfl, rfl, rfl⟩
  | cons a l ih =>
      obtain ⟨hrows, hcols, hformat⟩ := ih (A.setBlock (row a) (col a) (block a))
      exact ⟨hrows.trans (numRows_tabulate _ _ _ _), hcols, hformat⟩

theorem get_setBlock
    {r c i j : ℕ}
    (hi : i < A.numRows)
    (hj : j < A.numCols) :
    (A.setBlock r c B).get i j =
      if r ≤ i ∧ i < r + B.numRows ∧ c ≤ j ∧ j < c + B.numCols then B.get (i - r) (j - c)
      else A.get i j :=
  get_tabulate _ _ _ _ hi hj

/-- An entry outside all blocks that are written stays as it was. -/
theorem get_foldl_setBlock_of_apart
    {ι : Type}
    {l : List ι} {row col : ι → ℕ} {block : ι → DenseMatrix ℝ} {i j : ℕ}
    (hi : i < A.numRows)
    (hj : j < A.numCols)
    (hapart : ∀ a ∈ l, Vec.Apart (row a) (block a).numRows i 1 ∨
      Vec.Apart (col a) (block a).numCols j 1) :
    (l.foldl (fun A a => A.setBlock (row a) (col a) (block a)) A).get i j = A.get i j := by
  induction l generalizing A with
  | nil =>
      rfl
  | cons a l ih =>
      rw [List.foldl_cons, ih, get_setBlock hi hj, if_neg]
      · have := hapart a List.mem_cons_self
        unfold Vec.Apart at this
        omega
      · simpa [setBlock] using hi
      · exact hj
      · exact fun b hb => hapart b (List.mem_cons_of_mem a hb)

/-- Blocks written at places that do not overlap have their entries. -/
theorem get_foldl_setBlock_of_mem
    {ι : Type}
    {l : List ι} {row col : ι → ℕ} {block : ι → DenseMatrix ℝ}
    (hapart : l.Pairwise fun a b =>
      Vec.Apart (row a) (block a).numRows (row b) (block b).numRows ∨
        Vec.Apart (col a) (block a).numCols (col b) (block b).numCols)
    (hin : ∀ a ∈ l, row a + (block a).numRows ≤ A.numRows ∧
      col a + (block a).numCols ≤ A.numCols)
    {a : ι}
    (ha : a ∈ l)
    {i j : ℕ}
    (hi : i < (block a).numRows)
    (hj : j < (block a).numCols) :
    (l.foldl (fun A a => A.setBlock (row a) (col a) (block a)) A).get (row a + i) (col a + j) =
      (block a).get i j := by
  induction l generalizing A with
  | nil =>
      cases ha
  | cons b l ih =>
      obtain ⟨hhead, htail⟩ := List.pairwise_cons.1 hapart
      obtain ⟨hrow, hcol⟩ := hin b List.mem_cons_self
      rw [List.foldl_cons]
      rcases List.mem_cons.1 ha with rfl | ha
      · -- the blocks that are written later are apart from this one
        rw [get_foldl_setBlock_of_apart, get_setBlock, if_pos, Nat.add_sub_cancel_left,
          Nat.add_sub_cancel_left]
        · omega
        · omega
        · omega
        · rw [setBlock, numRows_tabulate]
          omega
        · rw [setBlock, numCols_tabulate]
          omega
        · intro b hb
          have := hhead b hb
          unfold Vec.Apart at this ⊢
          omega
      · apply ih htail _ ha
        simpa [setBlock] using fun b hb => hin b (List.mem_cons_of_mem _ hb)

/-- Blocks written at places that do not overlap act one by one. -/
theorem dot_mulVec_foldl_setBlock
    {ι : Type}
    {l : List ι} {row col : ι → ℕ} {block : ι → DenseMatrix ℝ}
    (hapart : l.Pairwise fun a b =>
      Vec.Apart (row a) (block a).numRows (row b) (block b).numRows ∨
        Vec.Apart (col a) (block a).numCols (col b) (block b).numCols)
    (hin : ∀ a ∈ l, row a + (block a).numRows ≤ A.numRows ∧
      col a + (block a).numCols ≤ A.numCols)
    (hzero : ∀ a ∈ l, ∀ i j, row a ≤ i → i < row a + (block a).numRows →
      col a ≤ j → j < col a + (block a).numCols → A.get i j = 0)
    (hw : w.length = A.numRows)
    (hx : x.length = A.numCols) :
    Vec.dot w ((l.foldl (fun A a => A.setBlock (row a) (col a) (block a)) A).mulVec x) =
      Vec.dot w (A.mulVec x) +
        (l.map fun a => Vec.dot (Vec.slice (row a) (block a).numRows w)
          ((block a).mulVec (Vec.slice (col a) (block a).numCols x))).sum := by
  induction l generalizing A with
  | nil =>
      simp
  | cons a l ih =>
      obtain ⟨hhead, htail⟩ := List.pairwise_cons.1 hapart
      obtain ⟨hrow, hcol⟩ := hin a List.mem_cons_self
      rw [List.foldl_cons, setBlock_eq_addBlock (hzero a List.mem_cons_self), ih htail,
        dot_mulVec_addBlock hrow hcol hw hx, List.map_cons, List.sum_cons, add_assoc]
      · simpa using fun b hb => hin b (List.mem_cons_of_mem a hb)
      · -- the places of the other blocks are outside the block that was just written
        intro b hb i j hi hi' hj hj'
        apply get_tabulate_eq_zero
        rw [if_neg]
        · exact hzero b (List.mem_cons_of_mem a hb) i j hi hi' hj hj'
        · have := hhead b hb
          unfold Vec.Apart at this
          omega
      · simpa using hw
      · simpa using hx

/-- The blocks still to be written along the diagonal, from a row and a column on. -/
noncomputable def placeBlocks (A : DenseMatrix ℝ) (r c : ℕ) (blocks : List (DenseMatrix ℝ)) :
    DenseMatrix ℝ :=
  ((blocks.zip (blockStarts r (blocks.map (·.numRows)))).zip
    (blockStarts c (blocks.map (·.numCols)))).foldl (fun A p => A.setBlock p.1.2 p.2 p.1.1) A

theorem placeBlocks_cons
    (A : DenseMatrix ℝ) (r c : ℕ) (B : DenseMatrix ℝ) (blocks : List (DenseMatrix ℝ)) :
    A.placeBlocks r c (B :: blocks) =
      (A.setBlock r c B).placeBlocks (r + B.numRows) (c + B.numCols) blocks :=
  rfl

theorem numRows_placeBlocks
    (A : DenseMatrix ℝ) (r c : ℕ) (blocks : List (DenseMatrix ℝ)) :
    (A.placeBlocks r c blocks).numRows = A.numRows := by
  induction blocks generalizing A r c with
  | nil =>
      rfl
  | cons B blocks ih =>
      rw [placeBlocks_cons, ih]
      simp [setBlock]

theorem numCols_placeBlocks
    (A : DenseMatrix ℝ) (r c : ℕ) (blocks : List (DenseMatrix ℝ)) :
    (A.placeBlocks r c blocks).numCols = A.numCols := by
  induction blocks generalizing A r c with
  | nil =>
      rfl
  | cons B blocks ih =>
      rw [placeBlocks_cons, ih]
      rfl

theorem blockDiagonal_eq_placeBlocks
    (format : Format) (blocks : List (DenseMatrix ℝ)) :
    blockDiagonal format blocks =
      (zero format (totalSize (blocks.map (·.numRows)))
        (totalSize (blocks.map (·.numCols)))).placeBlocks 0 0 blocks :=
  rfl

@[simp] theorem numRows_blockDiagonal
    (format : Format) (blocks : List (DenseMatrix ℝ)) :
    (blockDiagonal format blocks).numRows = totalSize (blocks.map (·.numRows)) := by
  rw [blockDiagonal_eq_placeBlocks, numRows_placeBlocks]
  simp [zero]

@[simp] theorem numCols_blockDiagonal
    (format : Format) (blocks : List (DenseMatrix ℝ)) :
    (blockDiagonal format blocks).numCols = totalSize (blocks.map (·.numCols)) := by
  rw [blockDiagonal_eq_placeBlocks, numCols_placeBlocks]
  rfl

@[simp] theorem format_blockDiagonal
    (format : Format) (blocks : List (DenseMatrix ℝ)) :
    (blockDiagonal format blocks).format = format := by
  obtain ⟨-, -, hformat⟩ := shape_foldl_setBlock
    ((blocks.zip (blockStarts 0 (blocks.map (·.numRows)))).zip
      (blockStarts 0 (blocks.map (·.numCols))))
    (fun placed => placed.1.2) (fun placed => placed.2) (fun placed => placed.1.1)
    (zero format (totalSize (blocks.map (·.numRows))) (totalSize (blocks.map (·.numCols))))
  exact hformat

/-- Blocks along the diagonal act on consecutive intervals. -/
theorem dot_mulVec_placeBlocks
    {blocks : List (DenseMatrix ℝ)} {r c : ℕ}
    (hr : r + totalSize (blocks.map (·.numRows)) ≤ A.numRows)
    (hc : c + totalSize (blocks.map (·.numCols)) ≤ A.numCols)
    (hzero : ∀ i j, r ≤ i → A.get i j = 0)
    (hw : w.length = A.numRows)
    (hx : x.length = A.numCols) :
    Vec.dot w ((A.placeBlocks r c blocks).mulVec x) =
      Vec.dot w (A.mulVec x) +
        Vec.dot (w.drop r)
          (List.zipWith mulVec blocks
            (Vec.split (blocks.map (·.numCols)) (x.drop c))).flatten := by
  induction blocks generalizing A r c with
  | nil =>
      simp [placeBlocks, blockStarts]
  | cons B blocks ih =>
      simp only [List.map_cons, totalSize_cons] at hr hc
      rw [placeBlocks_cons, setBlock_eq_addBlock fun i j hi _ _ _ => hzero i j hi, ih]
      · rw [dot_mulVec_addBlock (by omega) (by omega) hw hx]
        rw [List.map_cons, Vec.split, List.zipWith_cons_cons, List.flatten_cons,
          Vec.dot_append_right, length_mulVec, List.drop_drop, List.drop_drop]
        rw [Vec.slice, Vec.slice, add_assoc]
      · simp only [numRows_addBlock]
        omega
      · simp only [numCols_addBlock]
        omega
      · intro i j hi
        apply get_tabulate_eq_zero
        rw [if_neg (by omega)]
        exact hzero i j (by omega)
      · simpa using hw
      · simpa using hx

/-- Matrices along the diagonal act on the parts of a vector. -/
theorem mulVec_blockDiagonal
    (format : Format)
    {blocks : List (DenseMatrix ℝ)}
    (hx : x.length = totalSize (blocks.map (·.numCols))) :
    (blockDiagonal format blocks).mulVec x =
      (List.zipWith mulVec blocks (Vec.split (blocks.map (·.numCols)) x)).flatten := by
  have hlength :
      (List.zipWith mulVec blocks (Vec.split (blocks.map (·.numCols)) x)).flatten.length =
        totalSize (blocks.map (·.numRows)) := by
    rw [← Vec.totalSize_map_length, List.map_zipWith]
    simp only [length_mulVec]
    congr 1
    apply List.ext_getElem
    · simp
    · intro i h₁ h₂
      simp
  apply Vec.eq_of_dot_eq (by rw [length_mulVec, numRows_blockDiagonal]) hlength
  intro w hw
  rw [blockDiagonal_eq_placeBlocks, dot_mulVec_placeBlocks]
  · rw [mulVec_zero_matrix, zero_add, List.drop_zero, List.drop_zero]
  · simp [zero]
  · simp [zero]
  · intro i j _
    apply get_tabulate_eq_zero
    simp
  · simpa [zero] using hw
  · simpa [zero] using hx

end Blocks

end DenseMatrix
end ConvexContact
