import Mathlib
import ConvexContact.ConstraintBundle
import ConvexContact.Proofs.Matrices

/-!
# Block-sparse products

**Sums over stored blocks.**  If every stored block has the shape of its place, the inner product
of a vector with the product of the matrix is a sum over the stored blocks (`dot_mulVec`).  The
product of the transpose has the same sum (`dot_transposeMulVec`), so the two products are adjoint.

**Hessian contributions.**  The matrix that is built block by block from the Jacobian `J` and the
blocks `G` acts as `Jᵀ G J` (`dot_mulVec_hessianContribution`).
-/

namespace ConvexContact

namespace DenseMatrix

section Diagonal

variable {α : Type} [Scalar α]

/-- The products of the matrices of a list with the parts of a vector. -/
def diagonalTimes (blocks : List (DenseMatrix α)) (x : List α) : List α :=
  (List.zipWith mulVec blocks (Vec.split (blocks.map (·.numCols)) x)).flatten

theorem diagonalTimes_append
    {A B : List (DenseMatrix α)} {x y : List α}
    (h : x.length = totalSize (A.map (·.numCols))) :
    diagonalTimes (A ++ B) (x ++ y) = diagonalTimes A x ++ diagonalTimes B y := by
  unfold diagonalTimes
  rw [List.map_append, Vec.split_append h, List.zipWith_append (by simp), List.flatten_append]

/-- Groups of matrices act on groups of parts. -/
theorem diagonalTimes_flatMap
    {ι : Type}
    {l : List ι} {f : ι → List (DenseMatrix α)} {g : ι → List α}
    (h : ∀ i ∈ l, (g i).length = totalSize ((f i).map (·.numCols))) :
    diagonalTimes (l.flatMap f) (l.flatMap g) = l.flatMap fun i => diagonalTimes (f i) (g i) := by
  induction l with
  | nil =>
      rfl
  | cons i l ih =>
      rw [List.flatMap_cons, List.flatMap_cons, diagonalTimes_append (h i List.mem_cons_self),
        ih fun j hj => h j (List.mem_cons_of_mem i hj), List.flatMap_cons]

theorem length_diagonalTimes
    (blocks : List (DenseMatrix α)) (x : List α) :
    (diagonalTimes blocks x).length = totalSize (blocks.map (·.numRows)) := by
  induction blocks generalizing x with
  | nil =>
      rfl
  | cons A blocks ih =>
      have hcons : diagonalTimes (A :: blocks) x =
          A.mulVec (x.take A.numCols) ++ diagonalTimes blocks (x.drop A.numCols) :=
        rfl
      rw [hcons, List.length_append, length_mulVec, ih, List.map_cons, totalSize_cons]

end Diagonal

section Real

variable [Threshold]
variable {blocks : List (DenseMatrix ℝ)} {w x : List ℝ}

/-- The adjoint of matrices along the diagonal. -/
theorem dot_diagonalTimes
    (hw : w.length = totalSize (blocks.map (·.numRows)))
    (hx : x.length = totalSize (blocks.map (·.numCols))) :
    Vec.dot w (diagonalTimes blocks x) = Vec.dot (diagonalTimes (blocks.map transpose) w) x := by
  induction blocks generalizing w x with
  | nil =>
      rw [List.map_nil, totalSize_nil, List.length_eq_zero_iff] at hw
      simp [hw, diagonalTimes]
  | cons A blocks ih =>
      simp only [List.map_cons, totalSize_cons] at hw hx
      have hleft : diagonalTimes (A :: blocks) x =
          A.mulVec (x.take A.numCols) ++ diagonalTimes blocks (x.drop A.numCols) :=
        rfl
      have hright : diagonalTimes ((A :: blocks).map transpose) w =
          A.transpose.mulVec (w.take A.numRows) ++
            diagonalTimes (blocks.map transpose) (w.drop A.numRows) := by
        rw [← numCols_transpose A]
        rfl
      rw [hleft, hright, Vec.dot_append_right, length_mulVec,
        ih (by rw [List.length_drop]; omega) (by rw [List.length_drop]; omega)]
      conv_rhs =>
        rw [← List.take_append_drop A.numCols x]
      rw [Vec.dot_append, Vec.dot_comm (A.transpose.mulVec _), dot_mulVec_transpose, Vec.dot_comm]
      · rw [List.length_take]
        omega
      · rw [List.length_take]
        omega
      · rw [length_mulVec, numRows_transpose, List.length_take]
        omega

/-- A matrix for each member of a list acts on the part of the member. -/
theorem diagonalTimes_map
    {ι : Type}
    {l : List ι} {A : ι → DenseMatrix ℝ} {f : ι → List ℝ}
    (h : ∀ i ∈ l, (f i).length = (A i).numCols) :
    diagonalTimes (l.map A) (l.flatMap f) = l.flatMap fun i => (A i).mulVec (f i) := by
  have hsingle : l.map A = l.flatMap fun i => [A i] :=
    List.map_eq_flatMap
  rw [hsingle, diagonalTimes_flatMap]
  · apply List.flatMap_congr
    intro i hi
    simp [diagonalTimes, Vec.split, ← h i hi]
  · intro i hi
    simp [h i hi]

/-- Dividing the columns of a matrix is dividing the entries of the vector. -/
theorem mulVec_hessianBlock
    {D : DenseMatrix ℝ} {inverse : List ℝ}
    (hinverse : inverse.length = D.numCols)
    (hx : x.length = D.numCols) :
    (ConstraintBundle.hessianBlock D inverse).mulVec x =
      D.mulVec (List.zipWith (· * ·) inverse x) := by
  have hscaled : (List.zipWith (· * ·) inverse x).length = D.numCols := by
    rw [List.length_zipWith, hinverse, hx, Nat.min_self]
  apply Vec.eq_of_dot_eq (by simp [ConstraintBundle.hessianBlock]) (length_mulVec _ _)
  intro w hw
  rw [ConstraintBundle.hessianBlock, dot_mulVec_tabulate hw hx, dot_mulVec hw hscaled]
  apply Finset.sum_congr rfl
  intro i _
  apply Finset.sum_congr rfl
  intro j hj
  have hj' : j < D.numCols :=
    Finset.mem_range.1 hj
  have hentry : (List.zipWith (fun a b : ℝ => a * b) inverse x).getD j 0 =
      inverse.getD j 0 * x.getD j 0 := by
    rw [List.getD_eq_getElem _ _ (by omega), List.getElem_zipWith,
      List.getD_eq_getElem _ _ (by omega), List.getD_eq_getElem _ _ (by omega)]
  rw [hentry]
  simp only [Exact.ofNat_zero]
  ring

end Real

end DenseMatrix

namespace BlockSparseMatrix

section Ranges

theorem flatMap_zipIdx
    {β : Type}
    (ns : List ℕ) (f : ℕ → ℕ → List β) :
    (ns.zipIdx.flatMap fun (n, i) => f n i) =
      (List.range ns.length).flatMap fun i => f (ns.getD i 0) i := by
  rw [List.flatMap_def, List.flatMap_def]
  congr 1
  apply List.ext_getElem
  · simp
  · intro i h₁ h₂
    simp at h₁
    simp [List.getD_eq_getElem?_getD, h₁]

theorem length_flatMap_range
    {β : Type}
    {ns : List ℕ} {f : ℕ → List β}
    (h : ∀ i, (f i).length = ns.getD i 0) :
    ((List.range ns.length).flatMap f).length = totalSize ns := by
  rw [List.flatMap_def, ← Vec.totalSize_map_length]
  congr 1
  apply List.ext_getElem
  · simp
  · intro i h₁ h₂
    simp only [List.getElem_map, List.getElem_range]
    rw [h, List.getD_eq_getElem _ _ h₂]

end Ranges

section Shapes

variable {α : Type}

/-- Every stored block has the shape of its place. -/
def Regular (B : BlockSparseMatrix α) : Prop :=
  ∀ b ∈ B.blocks,
    b.row < B.blockRows.length ∧ b.col < B.blockCols.length ∧
      b.matrix.numRows = B.blockRows.getD b.row 0 ∧ b.matrix.numCols = B.blockCols.getD b.col 0

theorem colPart_eq
    (B : BlockSparseMatrix α) (j : ℕ) (x : List α) :
    B.colPart j x = Vec.part B.blockCols x j :=
  Vec.slice_blockStarts _ _ _

theorem rowPart_eq
    (B : BlockSparseMatrix α) (i : ℕ) (y : List α) :
    B.rowPart i y = Vec.part B.blockRows y i :=
  Vec.slice_blockStarts _ _ _

namespace Regular

variable {B : BlockSparseMatrix α} {i : ℕ} {b : Block α}

theorem numRows_eq
    (hB : B.Regular)
    (hb : b ∈ B.rowBlocks i) :
    b.matrix.numRows = B.blockRows.getD i 0 := by
  obtain ⟨hmem, hrow⟩ := List.mem_filter.1 hb
  simp only [decide_eq_true_eq] at hrow
  rw [(hB b hmem).2.2.1, hrow]

theorem numCols_eq
    (hB : B.Regular)
    (hb : b ∈ B.rowBlocks i) :
    b.matrix.numCols = B.blockCols.getD b.col 0 :=
  (hB b (List.mem_filter.1 hb).1).2.2.2

/-- A stored block lies within the columns of the matrix. -/
theorem col_le
    (hB : B.Regular)
    (hb : b ∈ B.rowBlocks i) :
    B.colStarts.getD b.col 0 + b.matrix.numCols ≤ B.numCols := by
  obtain ⟨-, hcol, -, hcols⟩ := hB b (List.mem_filter.1 hb).1
  rw [hcols]
  exact Vec.blockStarts_add_le_totalSize hcol

theorem slice_eq
    (hB : B.Regular)
    (hb : b ∈ B.rowBlocks i)
    (x : List α) :
    Vec.slice (B.colStarts.getD b.col 0) b.matrix.numCols x = B.colPart b.col x := by
  rw [hB.numCols_eq hb]
  rfl

theorem length_colPart
    (hB : B.Regular)
    (hb : b ∈ B.rowBlocks i)
    {x : List α}
    (hx : x.length = B.numCols) :
    (B.colPart b.col x).length = b.matrix.numCols := by
  rw [colPart_eq, Vec.length_part hx, hB.numCols_eq hb]

end Regular

variable [Scalar α]

/-- The part of a product that belongs to a block row. -/
def rowSum (B : BlockSparseMatrix α) (i : ℕ) (x : List α) : List α :=
  (B.rowBlocks i).foldl (fun y b => Vec.add y (b.matrix.mulVec (B.colPart b.col x)))
    (Vec.zero (B.blockRows.getD i 0))

/-- The part of a product of the transpose that belongs to a block column. -/
def colSum (B : BlockSparseMatrix α) (j : ℕ) (y : List α) : List α :=
  (B.colBlocks j).foldl
    (fun x b => Vec.add x (b.matrix.transpose.mulVec (B.rowPart b.row y)))
    (Vec.zero (B.blockCols.getD j 0))

theorem mulVec_eq_flatMap
    (B : BlockSparseMatrix α) (x : List α) :
    B.mulVec x = (List.range B.blockRows.length).flatMap fun i => B.rowSum i x :=
  flatMap_zipIdx B.blockRows fun n i =>
    (B.rowBlocks i).foldl
      (fun (y : List α) (b : Block α) => Vec.add y (b.matrix.mulVec (B.colPart b.col x)))
      (Vec.zero n)

theorem transposeMulVec_eq_flatMap
    (B : BlockSparseMatrix α) (y : List α) :
    B.transposeMulVec y = (List.range B.blockCols.length).flatMap fun j => B.colSum j y :=
  flatMap_zipIdx B.blockCols fun n j =>
    (B.colBlocks j).foldl
      (fun (x : List α) (b : Block α) =>
        Vec.add x (b.matrix.transpose.mulVec (B.rowPart b.row y)))
      (Vec.zero n)

end Shapes

section Real

variable [Threshold]
variable {B : BlockSparseMatrix ℝ} {x y : List ℝ}

/-- Summing over the members of each class and then over the classes is summing over all. -/
theorem sum_classes
    {ι : Type}
    {l : List ι} {n : ℕ} (key : ι → ℕ) (f : ι → ℝ)
    (h : ∀ i ∈ l, key i < n) :
    ((List.range n).map fun k => ((l.filter (key · = k)).map f).sum).sum = (l.map f).sum := by
  have hsum : ∀ g : ℕ → ℝ, ((List.range n).map g).sum = ∑ k ∈ Finset.range n, g k := by
    intro g
    rw [← DenseMatrix.sumRange_eq, Vec.sumRange, Vec.sum_eq]
  rw [hsum]
  induction l with
  | nil =>
      simp
  | cons i l ih =>
      have hcons : ∀ k,
          (((i :: l).filter (key · = k)).map f).sum =
            (if key i = k then f i else 0) + ((l.filter (key · = k)).map f).sum := by
        intro k
        rw [List.filter_cons]
        split_ifs with hk <;> simp_all
      simp only [hcons]
      rw [Finset.sum_add_distrib, ih fun j hj => h j (List.mem_cons_of_mem i hj),
        Finset.sum_ite_eq, if_pos (Finset.mem_range.2 (h i List.mem_cons_self)), List.map_cons,
        List.sum_cons]

namespace Regular

theorem length_term
    (hB : B.Regular)
    {i : ℕ} :
    ∀ b ∈ B.rowBlocks i, (b.matrix.mulVec (B.colPart b.col x)).length = B.blockRows.getD i 0 := by
  intro b hb
  obtain ⟨hmem, hrow⟩ := List.mem_filter.1 hb
  simp only [decide_eq_true_eq] at hrow
  rw [DenseMatrix.length_mulVec, (hB b hmem).2.2.1, hrow]

theorem length_transposed_term
    (hB : B.Regular)
    {j : ℕ} :
    ∀ b ∈ B.colBlocks j,
      (b.matrix.transpose.mulVec (B.rowPart b.row y)).length = B.blockCols.getD j 0 := by
  intro b hb
  obtain ⟨hmem, hcol⟩ := List.mem_filter.1 hb
  simp only [decide_eq_true_eq] at hcol
  rw [DenseMatrix.length_mulVec, DenseMatrix.numRows_transpose, (hB b hmem).2.2.2, hcol]

theorem length_rowSum
    (hB : B.Regular)
    (i : ℕ) (x : List ℝ) :
    (B.rowSum i x).length = B.blockRows.getD i 0 :=
  Vec.length_foldl_add _ (Vec.length_zero _) hB.length_term

theorem length_colSum
    (hB : B.Regular)
    (j : ℕ) (y : List ℝ) :
    (B.colSum j y).length = B.blockCols.getD j 0 :=
  Vec.length_foldl_add _ (Vec.length_zero _) hB.length_transposed_term

theorem dot_rowSum
    (hB : B.Regular)
    (i : ℕ) (w x : List ℝ) :
    Vec.dot w (B.rowSum i x) =
      ((B.rowBlocks i).map fun b => Vec.dot w (b.matrix.mulVec (B.colPart b.col x))).sum := by
  unfold rowSum
  rw [Vec.dot_foldl_add w _ (Vec.length_zero _) hB.length_term, Vec.dot_zero_right, zero_add]

theorem dot_colSum
    (hB : B.Regular)
    (j : ℕ) (w y : List ℝ) :
    Vec.dot w (B.colSum j y) =
      ((B.colBlocks j).map fun b =>
        Vec.dot w (b.matrix.transpose.mulVec (B.rowPart b.row y))).sum := by
  unfold colSum
  rw [Vec.dot_foldl_add w _ (Vec.length_zero _) hB.length_transposed_term, Vec.dot_zero_right,
    zero_add]

theorem length_mulVec
    (hB : B.Regular)
    (x : List ℝ) :
    (B.mulVec x).length = B.numRows := by
  rw [mulVec_eq_flatMap]
  exact length_flatMap_range fun i => hB.length_rowSum i x

theorem length_transposeMulVec
    (hB : B.Regular)
    (y : List ℝ) :
    (B.transposeMulVec y).length = B.numCols := by
  rw [transposeMulVec_eq_flatMap]
  exact length_flatMap_range fun j => hB.length_colSum j y

/-- Inner products with a product are sums over the stored blocks. -/
theorem dot_mulVec
    (hB : B.Regular)
    (hy : y.length = B.numRows) :
    Vec.dot y (B.mulVec x) =
      (B.blocks.map fun b =>
        Vec.dot (B.rowPart b.row y) (b.matrix.mulVec (B.colPart b.col x))).sum := by
  have hparts : (List.range B.blockRows.length).flatMap (Vec.part B.blockRows y) = y :=
    Vec.flatMap_part hy
  conv_lhs =>
    rw [← hparts, mulVec_eq_flatMap]
  rw [Vec.dot_flatMap, ← sum_classes (fun b => b.row) _ fun b hb => (hB b hb).1]
  · congr 1
    apply List.map_congr_left
    intro i _
    rw [hB.dot_rowSum]
    congr 1
    apply List.map_congr_left
    intro b hb
    obtain ⟨-, hrow⟩ := List.mem_filter.1 hb
    simp only [decide_eq_true_eq] at hrow
    rw [rowPart_eq, hrow]
  · intro i _
    rw [Vec.length_part hy, hB.length_rowSum]

/-- Inner products with a product of the transpose are sums over the stored blocks. -/
theorem dot_transposeMulVec
    (hB : B.Regular)
    (hx : x.length = B.numCols)
    (hy : y.length = B.numRows) :
    Vec.dot x (B.transposeMulVec y) = Vec.dot y (B.mulVec x) := by
  have hparts : (List.range B.blockCols.length).flatMap (Vec.part B.blockCols x) = x :=
    Vec.flatMap_part hx
  rw [hB.dot_mulVec hy]
  conv_lhs =>
    rw [← hparts, transposeMulVec_eq_flatMap]
  rw [Vec.dot_flatMap, ← sum_classes (fun b => b.col) _ fun b hb => (hB b hb).2.1]
  · congr 1
    apply List.map_congr_left
    intro j _
    rw [hB.dot_colSum]
    congr 1
    apply List.map_congr_left
    intro b hb
    obtain ⟨hmem, hcol⟩ := List.mem_filter.1 hb
    simp only [decide_eq_true_eq] at hcol
    obtain ⟨-, -, hrows, hcols⟩ := hB b hmem
    rw [rowPart_eq, colPart_eq, ← hcol, DenseMatrix.dot_mulVec_transpose, Vec.dot_comm]
    · rw [Vec.length_part hy, hrows]
    · rw [Vec.length_part hx, hcols]
  · intro j _
    rw [Vec.length_part hx, hB.length_colSum]

end Regular

section Hessian

variable {J : BlockSparseMatrix ℝ} {H M : DenseMatrix ℝ} {w u : List ℝ} {row : ℕ}

/-- The blocks of one column of the Hessian contribution of an edge. -/
theorem dot_mulVec_addColumn
    (hJ : J.Regular)
    {l : List (Block ℝ)} {start : ℕ}
    (hl : ∀ c ∈ l, c ∈ J.rowBlocks row)
    (hM : M.numRows = J.blockRows.getD row 0)
    (hstart : start + M.numCols ≤ J.numCols)
    (hrows : H.numRows = J.numCols)
    (hcols : H.numCols = J.numCols)
    (hw : w.length = J.numCols)
    (hu : u.length = J.numCols) :
    Vec.dot w ((l.foldl (fun H c =>
        H.addBlock (J.colStarts.getD c.col 0) start (c.matrix.transpose.mul M)) H).mulVec u) =
      Vec.dot w (H.mulVec u) +
        (l.map fun c =>
          Vec.dot (c.matrix.mulVec (J.colPart c.col w))
            (M.mulVec (Vec.slice start M.numCols u))).sum := by
  induction l generalizing H with
  | nil =>
      simp
  | cons c l ih =>
      have hc : c ∈ J.rowBlocks row :=
        hl c List.mem_cons_self
      have hslice : (Vec.slice start M.numCols u).length = M.numCols :=
        DenseMatrix.length_slice (by omega)
      have hheight : M.numRows = c.matrix.numRows := by
        rw [hM, hJ.numRows_eq hc]
      rw [List.foldl_cons, ih (fun c' hc' => hl c' (List.mem_cons_of_mem c hc')) (by simpa)
        (by simpa), DenseMatrix.dot_mulVec_addBlock, DenseMatrix.numRows_mul,
        DenseMatrix.numRows_transpose, DenseMatrix.numCols_mul, hJ.slice_eq hc,
        DenseMatrix.mulVec_mul (by simp [hheight]) hslice, DenseMatrix.dot_mulVec_transpose,
        List.map_cons, List.sum_cons, add_assoc]
      · simp [hheight]
      · exact hJ.length_colPart hc hw
      · rw [hrows]
        simpa using hJ.col_le hc
      · simpa [hcols] using hstart
      · rw [hw, hrows]
      · rw [hu, hcols]

theorem shape_addColumn
    (l : List (Block ℝ)) (start : ℕ → ℕ) (column : ℕ) (H M : DenseMatrix ℝ) :
    (l.foldl (fun H c => H.addBlock (start c.col) column (c.matrix.transpose.mul M)) H).numRows =
        H.numRows ∧
      (l.foldl (fun H c =>
        H.addBlock (start c.col) column (c.matrix.transpose.mul M)) H).numCols = H.numCols ∧
      (l.foldl (fun H c =>
        H.addBlock (start c.col) column (c.matrix.transpose.mul M)) H).format = H.format := by
  induction l generalizing H with
  | nil =>
      exact ⟨rfl, rfl, rfl⟩
  | cons c l ih =>
      simpa using ih (H.addBlock (start c.col) column (c.matrix.transpose.mul M))

theorem shape_addEdgeContribution
    (J : BlockSparseMatrix ℝ) (H : DenseMatrix ℝ) (row : ℕ) (G : DenseMatrix ℝ) :
    (ConstraintBundle.addEdgeContribution J H row G).numRows = H.numRows ∧
      (ConstraintBundle.addEdgeContribution J H row G).numCols = H.numCols ∧
      (ConstraintBundle.addEdgeContribution J H row G).format = H.format := by
  unfold ConstraintBundle.addEdgeContribution
  have hfold : ∀ l : List (Block ℝ), ∀ H : DenseMatrix ℝ,
      let H' := l.foldl (fun H a => (J.rowBlocks row).foldl (fun H c =>
        H.addBlock (J.colStarts.getD c.col 0) (J.colStarts.getD a.col 0)
          (c.matrix.transpose.mul (G.mul a.matrix))) H) H
      H'.numRows = H.numRows ∧ H'.numCols = H.numCols ∧ H'.format = H.format := by
    intro l
    induction l with
    | nil =>
        intro H
        exact ⟨rfl, rfl, rfl⟩
    | cons a l ih =>
        intro H
        obtain ⟨h₁, h₂, h₃⟩ := shape_addColumn (J.rowBlocks row) (fun k => J.colStarts.getD k 0)
          (J.colStarts.getD a.col 0) H (G.mul a.matrix)
        obtain ⟨h₁', h₂', h₃'⟩ := ih ((J.rowBlocks row).foldl (fun H c =>
          H.addBlock (J.colStarts.getD c.col 0) (J.colStarts.getD a.col 0)
            (c.matrix.transpose.mul (G.mul a.matrix))) H)
        exact ⟨h₁'.trans h₁, h₂'.trans h₂, h₃'.trans h₃⟩
  exact hfold _ H

/-- The columns of the Hessian contribution of an edge, one after the other. -/
theorem dot_mulVec_addColumns
    (hJ : J.Regular)
    {G : DenseMatrix ℝ} {l : List (Block ℝ)}
    (hl : ∀ a ∈ l, a ∈ J.rowBlocks row)
    (hGrows : G.numRows = J.blockRows.getD row 0)
    (hGcols : G.numCols = J.blockRows.getD row 0)
    (hrows : H.numRows = J.numCols)
    (hcols : H.numCols = J.numCols)
    (hw : w.length = J.numCols)
    (hu : u.length = J.numCols) :
    Vec.dot w ((l.foldl (fun H a => (J.rowBlocks row).foldl (fun H c =>
        H.addBlock (J.colStarts.getD c.col 0) (J.colStarts.getD a.col 0)
          (c.matrix.transpose.mul (G.mul a.matrix))) H) H).mulVec u) =
      Vec.dot w (H.mulVec u) +
        (l.map fun a =>
          Vec.dot (J.rowSum row w) (G.mulVec (a.matrix.mulVec (J.colPart a.col u)))).sum := by
  induction l generalizing H with
  | nil =>
      simp
  | cons a l ih =>
      have ha : a ∈ J.rowBlocks row :=
        hl a List.mem_cons_self
      obtain ⟨h₁, h₂, -⟩ := shape_addColumn (J.rowBlocks row) (fun k => J.colStarts.getD k 0)
        (J.colStarts.getD a.col 0) H (G.mul a.matrix)
      have hsum :
          ((J.rowBlocks row).map fun c =>
            Vec.dot (c.matrix.mulVec (J.colPart c.col w))
              ((G.mul a.matrix).mulVec
                (Vec.slice (J.colStarts.getD a.col 0) (G.mul a.matrix).numCols u))).sum =
          Vec.dot (J.rowSum row w) (G.mulVec (a.matrix.mulVec (J.colPart a.col u))) := by
        rw [Vec.dot_comm, hJ.dot_rowSum, DenseMatrix.numCols_mul, hJ.slice_eq ha,
          DenseMatrix.mulVec_mul (by rw [hGcols, hJ.numRows_eq ha]) (hJ.length_colPart ha hu)]
        congr 1
        apply List.map_congr_left
        intro c _
        exact Vec.dot_comm _ _
      rw [List.foldl_cons, ih (fun a' ha' => hl a' (List.mem_cons_of_mem a ha'))
        (h₁.trans hrows) (h₂.trans hcols),
        dot_mulVec_addColumn hJ (fun _ h => h) (by simpa using hGrows)
          (by simpa using hJ.col_le ha) hrows hcols hw hu,
        hsum, List.map_cons, List.sum_cons, add_assoc]

/-- A matrix times the products of the blocks of a row is the matrix times their sum. -/
theorem Regular.sum_dot_mulVec_mulVec
    (hJ : J.Regular)
    {G : DenseMatrix ℝ} {z : List ℝ}
    (hGcols : G.numCols = J.blockRows.getD row 0)
    (hz : z.length = G.numRows) :
    ((J.rowBlocks row).map fun a =>
      Vec.dot z (G.mulVec (a.matrix.mulVec (J.colPart a.col u)))).sum =
    Vec.dot z (G.mulVec (J.rowSum row u)) := by
  rw [Vec.dot_comm, ← DenseMatrix.dot_mulVec_transpose hz (by rw [hJ.length_rowSum, hGcols]),
    Vec.dot_comm, hJ.dot_rowSum]
  congr 1
  apply List.map_congr_left
  intro a ha
  rw [Vec.dot_comm (G.transpose.mulVec z), DenseMatrix.dot_mulVec_transpose hz, Vec.dot_comm]
  rw [DenseMatrix.length_mulVec, hJ.numRows_eq ha, hGcols]

/-- The Hessian contribution of an edge. -/
theorem dot_mulVec_addEdgeContribution
    (hJ : J.Regular)
    {G : DenseMatrix ℝ}
    (hGrows : G.numRows = J.blockRows.getD row 0)
    (hGcols : G.numCols = J.blockRows.getD row 0)
    (hrows : H.numRows = J.numCols)
    (hcols : H.numCols = J.numCols)
    (hw : w.length = J.numCols)
    (hu : u.length = J.numCols) :
    Vec.dot w ((ConstraintBundle.addEdgeContribution J H row G).mulVec u) =
      Vec.dot w (H.mulVec u) + Vec.dot (J.rowSum row w) (G.mulVec (J.rowSum row u)) := by
  unfold ConstraintBundle.addEdgeContribution
  rw [dot_mulVec_addColumns hJ (fun _ h => h) hGrows hGcols hrows hcols hw hu,
    hJ.sum_dot_mulVec_mulVec hGcols (by rw [hJ.length_rowSum, hGrows])]

end Hessian

end Real

section Formats

variable {α : Type} [Scalar α] {B : BlockSparseMatrix α}

@[simp] theorem blockRows_cast
    (format : Format) (B : BlockSparseMatrix α) :
    (B.cast format).blockRows = B.blockRows :=
  rfl

@[simp] theorem blockCols_cast
    (format : Format) (B : BlockSparseMatrix α) :
    (B.cast format).blockCols = B.blockCols :=
  rfl

@[simp] theorem places_cast
    (format : Format) (B : BlockSparseMatrix α) :
    (B.cast format).blocks.map Block.place = B.blocks.map Block.place := by
  rw [cast, List.map_map]
  rfl

variable [Unrounded α]

/-- Only the last format counts. -/
@[simp] theorem cast_cast
    (format format' : Format) (B : BlockSparseMatrix α) :
    (B.cast format).cast format' = B.cast format' := by
  unfold cast
  congr 1
  rw [List.map_map]
  apply List.map_congr_left
  intro b _
  simp

/-- Shapes do not depend on the format. -/
@[simp] theorem regular_cast
    (format : Format) (B : BlockSparseMatrix α) :
    (B.cast format).Regular ↔ B.Regular := by
  constructor
  · intro h b hb
    simpa using h _ (List.mem_map_of_mem hb)
  · intro h b hb
    obtain ⟨b', hb', rfl⟩ := List.mem_map.1 hb
    simpa using h b' hb'

theorem rowSum_cast
    (format : Format) (B : BlockSparseMatrix α) (i : ℕ) (x : List α) :
    (B.cast format).rowSum i x = B.rowSum i x := by
  have hblocks : (B.cast format).rowBlocks i =
      (B.rowBlocks i).map fun b => { b with matrix := b.matrix.cast format } := by
    unfold rowBlocks
    rw [show (B.cast format).blocks =
      B.blocks.map fun b => { b with matrix := b.matrix.cast format } from rfl, List.filter_map]
    rfl
  unfold rowSum
  rw [hblocks, List.foldl_map]
  simp only [DenseMatrix.mulVec_cast]
  rfl

/-- Products do not depend on the format. -/
@[simp] theorem mulVec_cast
    (format : Format) (B : BlockSparseMatrix α) (x : List α) :
    (B.cast format).mulVec x = B.mulVec x := by
  rw [mulVec_eq_flatMap, mulVec_eq_flatMap]
  simp only [rowSum_cast, blockRows_cast]

@[simp] theorem toDense_cast
    (format format' : Format) (B : BlockSparseMatrix α) :
    (B.cast format).toDense format' = B.toDense format' := by
  simp only [toDense, cast_cast]
  rfl

end Formats

section Dense

variable {B : BlockSparseMatrix ℝ} {x : List ℝ}

/-- Stored blocks at different places do not overlap. -/
theorem Regular.apart
    (hB : B.Regular)
    {a b : Block ℝ}
    (ha : a ∈ B.blocks)
    (hb : b ∈ B.blocks)
    (hne : a.place ≠ b.place) :
    Vec.Apart (B.rowStarts.getD a.row 0) a.matrix.numRows
        (B.rowStarts.getD b.row 0) b.matrix.numRows ∨
      Vec.Apart (B.colStarts.getD a.col 0) a.matrix.numCols
        (B.colStarts.getD b.col 0) b.matrix.numCols := by
  obtain ⟨harow, hacol, harows, hacols⟩ := hB a ha
  obtain ⟨hbrow, hbcol, hbrows, hbcols⟩ := hB b hb
  by_cases hrow : a.row = b.row
  · have hcol : a.col ≠ b.col := fun hcol => hne (Prod.ext hrow hcol)
    rw [hacols, hbcols]
    exact Or.inr (Vec.apart_blockStarts hacol hbcol hcol)
  · rw [harows, hbrows]
    exact Or.inl (Vec.apart_blockStarts harow hbrow hrow)

variable [Threshold]

theorem shape_toDense
    (format : Format) (B : BlockSparseMatrix ℝ) :
    (B.toDense format).numRows = B.numRows ∧ (B.toDense format).numCols = B.numCols ∧
      (B.toDense format).format = format := by
  obtain ⟨hrows, hcols, hformat⟩ := DenseMatrix.shape_foldl_setBlock (B.cast format).blocks
    (fun b => B.rowStarts.getD b.row 0) (fun b => B.colStarts.getD b.col 0) (fun b => b.matrix)
    (DenseMatrix.zero format B.numRows B.numCols)
  exact ⟨hrows.trans (DenseMatrix.numRows_tabulate _ _ _ _), hcols, hformat⟩

theorem toDense_eq_foldl
    (format : Format) (B : BlockSparseMatrix ℝ) :
    B.toDense format =
      B.blocks.foldl
        (fun A b => A.setBlock (B.rowStarts.getD b.row 0) (B.colStarts.getD b.col 0)
          (b.matrix.cast format))
        (DenseMatrix.zero format B.numRows B.numCols) := by
  unfold toDense
  rw [show (B.cast format).blocks =
    B.blocks.map fun b => { b with matrix := b.matrix.cast format } from rfl, List.foldl_map]

/-- The stored blocks are written at places that do not overlap. -/
theorem Regular.pairwise_apart
    (hB : B.Regular)
    (hplaces : (B.blocks.map Block.place).Nodup)
    (format : Format) :
    B.blocks.Pairwise fun a b =>
      Vec.Apart (B.rowStarts.getD a.row 0) (a.matrix.cast format).numRows
          (B.rowStarts.getD b.row 0) (b.matrix.cast format).numRows ∨
        Vec.Apart (B.colStarts.getD a.col 0) (a.matrix.cast format).numCols
          (B.colStarts.getD b.col 0) (b.matrix.cast format).numCols := by
  have hpairs : B.blocks.Pairwise fun a b => a.place ≠ b.place :=
    List.pairwise_map.1 hplaces
  apply hpairs.imp_of_mem
  intro a b ha hb hne
  simpa using hB.apart ha hb hne

/-- The stored blocks are written inside the matrix. -/
theorem Regular.inside_zero
    (hB : B.Regular)
    (format : Format) :
    ∀ b ∈ B.blocks,
      B.rowStarts.getD b.row 0 + (b.matrix.cast format).numRows ≤
          (DenseMatrix.zero format B.numRows B.numCols : DenseMatrix ℝ).numRows ∧
        B.colStarts.getD b.col 0 + (b.matrix.cast format).numCols ≤
          (DenseMatrix.zero format B.numRows B.numCols : DenseMatrix ℝ).numCols := by
  intro b hb
  obtain ⟨hrow, hcol, hheight, hwidth⟩ := hB b hb
  rw [DenseMatrix.numRows_cast, DenseMatrix.numCols_cast, hheight, hwidth]
  exact ⟨(Vec.blockStarts_add_le_totalSize hrow).trans_eq
    (DenseMatrix.numRows_tabulate _ _ _ _).symm, Vec.blockStarts_add_le_totalSize hcol⟩

/-- Written out, the matrix has the entries of each stored block at the place of the block. -/
theorem Regular.get_toDense_of_mem
    (hB : B.Regular)
    (hplaces : (B.blocks.map Block.place).Nodup)
    (format : Format)
    {b : Block ℝ}
    (hb : b ∈ B.blocks)
    {i j : ℕ}
    (hi : i < b.matrix.numRows)
    (hj : j < b.matrix.numCols) :
    (B.toDense format).get (totalSize (B.blockRows.take b.row) + i)
      (totalSize (B.blockCols.take b.col) + j) = b.matrix.get i j := by
  obtain ⟨hrow, hcol, -, -⟩ := hB b hb
  have hentry := DenseMatrix.get_foldl_setBlock_of_mem (hB.pairwise_apart hplaces format)
    (hB.inside_zero format) hb (i := i) (j := j) (by simpa using hi) (by simpa using hj)
  rw [toDense_eq_foldl, ← Vec.getD_blockStarts hrow, ← Vec.getD_blockStarts hcol]
  exact hentry.trans (by rw [DenseMatrix.get_cast])

/-- Written out, the matrix is zero at the places without a stored block. -/
theorem Regular.get_toDense_of_not_mem
    (hB : B.Regular)
    (format : Format)
    {row col i j : ℕ}
    (hfree : (row, col) ∉ B.blocks.map Block.place)
    (hrow : row < B.blockRows.length)
    (hcol : col < B.blockCols.length)
    (hi : i < B.blockRows.getD row 0)
    (hj : j < B.blockCols.getD col 0) :
    (B.toDense format).get (totalSize (B.blockRows.take row) + i)
      (totalSize (B.blockCols.take col) + j) = 0 := by
  have hrow_le := Vec.blockStarts_add_le_totalSize hrow
  have hcol_le := Vec.blockStarts_add_le_totalSize hcol
  rw [toDense_eq_foldl, ← Vec.getD_blockStarts hrow, ← Vec.getD_blockStarts hcol,
    DenseMatrix.get_foldl_setBlock_of_apart]
  · exact DenseMatrix.get_tabulate_eq_zero Exact.ofNat_zero
  · rw [DenseMatrix.zero, DenseMatrix.numRows_tabulate, numRows]
    omega
  · rw [DenseMatrix.zero, DenseMatrix.numCols_tabulate, numCols]
    omega
  · intro b hb
    obtain ⟨hbrow, hbcol, hheight, hwidth⟩ := hB b hb
    have hne : b.row ≠ row ∨ b.col ≠ col := by
      by_contra! hsame
      exact hfree (List.mem_map.2 ⟨b, hb, Prod.ext hsame.1 hsame.2⟩)
    rw [DenseMatrix.numRows_cast, DenseMatrix.numCols_cast, hheight, hwidth]
    rcases hne with hne | hne
    · have hapart := Vec.apart_blockStarts hbrow hrow hne
      left
      unfold Vec.Apart at hapart ⊢
      unfold rowStarts
      omega
    · have hapart := Vec.apart_blockStarts hbcol hcol hne
      right
      unfold Vec.Apart at hapart ⊢
      unfold colStarts
      omega

/-- Written out with all its entries, the matrix acts as its stored blocks do. -/
theorem Regular.mulVec_toDense
    (hB : B.Regular)
    (hplaces : (B.blocks.map Block.place).Nodup)
    (format : Format)
    (hx : x.length = B.numCols) :
    (B.toDense format).mulVec x = B.mulVec x := by
  obtain ⟨hrows, -, -⟩ := shape_toDense format B
  apply Vec.eq_of_dot_eq ((DenseMatrix.length_mulVec _ _).trans hrows) (hB.length_mulVec x)
  intro w hw
  rw [toDense_eq_foldl, DenseMatrix.dot_mulVec_foldl_setBlock (hB.pairwise_apart hplaces format)
    (hB.inside_zero format), DenseMatrix.mulVec_zero_matrix, zero_add, hB.dot_mulVec hw]
  · congr 1
    apply List.map_congr_left
    intro b hb
    obtain ⟨-, -, hheight, hwidth⟩ := hB b hb
    rw [DenseMatrix.numRows_cast, DenseMatrix.numCols_cast, DenseMatrix.mulVec_cast, hheight,
      hwidth]
    rfl
  · intro b _ i j _ _ _ _
    exact DenseMatrix.get_tabulate_eq_zero Exact.ofNat_zero
  · rw [hw]
    exact (DenseMatrix.numRows_tabulate _ _ _ _).symm
  · exact hx

/-- The transpose of the written out matrix acts as the transposed blocks do. -/
theorem Regular.mulVec_transpose_toDense
    (hB : B.Regular)
    (hplaces : (B.blocks.map Block.place).Nodup)
    (format : Format)
    {y : List ℝ}
    (hy : y.length = B.numRows) :
    (B.toDense format).transpose.mulVec y = B.transposeMulVec y := by
  obtain ⟨hrows, hcols, -⟩ := shape_toDense format B
  have hlength : ((B.toDense format).transpose.mulVec y).length = B.numCols := by
    rw [DenseMatrix.length_mulVec, DenseMatrix.numRows_transpose, hcols]
  apply Vec.eq_of_dot_eq hlength (hB.length_transposeMulVec y)
  intro w hw
  rw [DenseMatrix.dot_mulVec_transpose (hy.trans hrows.symm) (hw.trans hcols.symm),
    hB.mulVec_toDense hplaces format hw, Vec.dot_comm, hB.dot_transposeMulVec hw hy]

/-- The matrix does not depend on the order of its blocks. -/
theorem Regular.toDense_eq_of_perm
    (hB : B.Regular)
    (hplaces : (B.blocks.map Block.place).Nodup)
    {blocks : List (Block ℝ)}
    (hperm : blocks.Perm B.blocks)
    (format : Format) :
    BlockSparseMatrix.toDense { B with blocks := blocks } format = B.toDense format := by
  set C : BlockSparseMatrix ℝ := { B with blocks := blocks }
  have hC : C.Regular := fun b hb => hB b (hperm.mem_iff.1 hb)
  have hplaces' : (C.blocks.map Block.place).Nodup :=
    (hperm.map Block.place).nodup_iff.2 hplaces
  obtain ⟨hrows, hcols, hformat⟩ := shape_toDense format C
  obtain ⟨hrows', hcols', hformat'⟩ := shape_toDense format B
  apply DenseMatrix.eq_of_dot_mulVec_eq (hformat.trans hformat'.symm) (hrows.trans hrows'.symm)
    (hcols.trans hcols'.symm)
  intro w u hw hu
  have hw' : w.length = B.numRows :=
    hw.trans hrows
  have hu' : u.length = B.numCols :=
    hu.trans hcols
  rw [hC.mulVec_toDense hplaces' format hu', hB.mulVec_toDense hplaces format hu',
    hC.dot_mulVec hw', hB.dot_mulVec hw']
  exact (hperm.map fun b =>
    Vec.dot (B.rowPart b.row w) (b.matrix.mulVec (B.colPart b.col u))).sum_eq

end Dense

end BlockSparseMatrix

namespace ConstraintBundle

section Hessian

variable [Threshold]
variable {b : ConstraintBundle ℝ} {w u : List ℝ}

/-- The Hessian contribution in progress: edges from a row on are added to a matrix. -/
noncomputable def addEdges (J : BlockSparseMatrix ℝ) (H : DenseMatrix ℝ) (row : ℕ)
    (groups : List (List (DenseMatrix ℝ))) : DenseMatrix ℝ :=
  (groups.zipIdx row).foldl
    (fun H entry => addEdgeContribution J H entry.2 (DenseMatrix.blockDiagonal .single entry.1)) H

theorem shape_addEdges
    (J : BlockSparseMatrix ℝ) (H : DenseMatrix ℝ) (row : ℕ)
    (groups : List (List (DenseMatrix ℝ))) :
    (addEdges J H row groups).numRows = H.numRows ∧
      (addEdges J H row groups).numCols = H.numCols ∧
      (addEdges J H row groups).format = H.format := by
  induction groups generalizing H row with
  | nil =>
      exact ⟨rfl, rfl, rfl⟩
  | cons group groups ih =>
      obtain ⟨h₁, h₂, h₃⟩ := BlockSparseMatrix.shape_addEdgeContribution J H row
        (DenseMatrix.blockDiagonal .single group)
      obtain ⟨h₁', h₂', h₃'⟩ :=
        ih (addEdgeContribution J H row (DenseMatrix.blockDiagonal .single group)) (row + 1)
      exact ⟨h₁'.trans h₁, h₂'.trans h₂, h₃'.trans h₃⟩

theorem dot_mulVec_addEdges
    {J : BlockSparseMatrix ℝ}
    (hJ : J.Regular)
    {H : DenseMatrix ℝ} {row : ℕ} {groups : List (List (DenseMatrix ℝ))}
    (hgroups : ∀ e ∈ groups.zipIdx row,
      totalSize (e.1.map (·.numRows)) = J.blockRows.getD e.2 0 ∧
        totalSize (e.1.map (·.numCols)) = J.blockRows.getD e.2 0)
    (hrows : H.numRows = J.numCols)
    (hcols : H.numCols = J.numCols)
    (hw : w.length = J.numCols)
    (hu : u.length = J.numCols) :
    Vec.dot w ((addEdges J H row groups).mulVec u) =
      Vec.dot w (H.mulVec u) +
        ((groups.zipIdx row).map fun e =>
          Vec.dot (J.rowSum e.2 w) (DenseMatrix.diagonalTimes e.1 (J.rowSum e.2 u))).sum := by
  induction groups generalizing H row with
  | nil =>
      simp [addEdges]
  | cons group groups ih =>
      have hmem : (group, row) ∈ (group :: groups).zipIdx row := by
        rw [List.zipIdx_cons]
        exact List.mem_cons_self
      obtain ⟨hheight, hwidth⟩ := hgroups _ hmem
      obtain ⟨h₁, h₂, -⟩ := BlockSparseMatrix.shape_addEdgeContribution J H row
        (DenseMatrix.blockDiagonal .single group)
      have hstep : addEdges J H row (group :: groups) =
          addEdges J (addEdgeContribution J H row (DenseMatrix.blockDiagonal .single group))
            (row + 1) groups :=
        rfl
      have hsize : (J.rowSum row u).length = totalSize (group.map (·.numCols)) := by
        rw [hJ.length_rowSum, hwidth]
      rw [hstep, ih _ (h₁.trans hrows) (h₂.trans hcols),
        BlockSparseMatrix.dot_mulVec_addEdgeContribution hJ _ _ hrows hcols hw hu,
        DenseMatrix.mulVec_blockDiagonal _ hsize, List.zipIdx_cons, List.map_cons, List.sum_cons,
        add_assoc]
      · rfl
      · rw [DenseMatrix.numRows_blockDiagonal, hheight]
      · rw [DenseMatrix.numCols_blockDiagonal, hwidth]
      · intro e he
        apply hgroups e
        rw [List.zipIdx_cons]
        exact List.mem_cons_of_mem _ he

theorem shape_hessianContribution
    (b : ConstraintBundle ℝ) (G : List (DenseMatrix ℝ)) :
    (b.hessianContribution G).numRows = b.jacobian.numCols ∧
      (b.hessianContribution G).numCols = b.jacobian.numCols ∧
      (b.hessianContribution G).format = b.format := by
  obtain ⟨h₁, h₂, h₃⟩ := shape_addEdges b.jacobian
    (DenseMatrix.zero b.format b.jacobian.numCols b.jacobian.numCols) 0 (Vec.split b.edgeSizes G)
  exact ⟨h₁.trans (DenseMatrix.numRows_tabulate _ _ _ _), h₂, h₃⟩

/-- **Hessian contributions act as `Jᵀ G J`**, for blocks `G` whose groups have the sizes of the
block rows. -/
theorem dot_mulVec_hessianContribution
    (hJ : b.jacobian.Regular)
    {G : List (DenseMatrix ℝ)}
    (hlength : G.length = totalSize b.edgeSizes)
    (hrows : (Vec.split b.edgeSizes G).map (fun g => totalSize (g.map (·.numRows))) =
      b.jacobian.blockRows)
    (hcols : (Vec.split b.edgeSizes G).map (fun g => totalSize (g.map (·.numCols))) =
      b.jacobian.blockRows)
    (hw : w.length = b.jacobian.numCols)
    (hu : u.length = b.jacobian.numCols) :
    Vec.dot w ((b.hessianContribution G).mulVec u) =
      Vec.dot (b.jacobian.mulVec w) (DenseMatrix.diagonalTimes G (b.jacobian.mulVec u)) := by
  set groups := Vec.split b.edgeSizes G with hgroups
  have hsizes : ∀ e ∈ groups.zipIdx,
      totalSize (e.1.map (·.numRows)) = b.jacobian.blockRows.getD e.2 0 ∧
        totalSize (e.1.map (·.numCols)) = b.jacobian.blockRows.getD e.2 0 := by
    intro e he
    have hget : groups[e.2]? = some e.1 :=
      List.mem_zipIdx_iff_getElem?.1 he
    constructor
    · rw [← hrows, List.getD_eq_getElem?_getD, List.getElem?_map, hget]
      rfl
    · rw [← hcols, List.getD_eq_getElem?_getD, List.getElem?_map, hget]
      rfl
  have hproduct : ∀ x : List ℝ,
      b.jacobian.mulVec x = groups.zipIdx.flatMap fun e => b.jacobian.rowSum e.2 x := by
    intro x
    have hindices : groups.zipIdx.map Prod.snd = List.range b.jacobian.blockRows.length := by
      rw [List.zipIdx_map_snd, List.range_eq_range', ← hrows, List.length_map]
    rw [BlockSparseMatrix.mulVec_eq_flatMap, ← hindices, List.flatMap_map]
  have hblocks : G = groups.zipIdx.flatMap fun e => e.1 := by
    rw [List.flatMap_def, List.zipIdx_map_fst, hgroups, Vec.flatten_split hlength]
  have hform := dot_mulVec_addEdges hJ
    (H := DenseMatrix.zero b.format b.jacobian.numCols b.jacobian.numCols) hsizes
    (DenseMatrix.numRows_tabulate _ _ _ _) rfl hw hu
  rw [DenseMatrix.mulVec_zero_matrix, zero_add] at hform
  have htimes : DenseMatrix.diagonalTimes G (b.jacobian.mulVec u) =
      groups.zipIdx.flatMap fun e =>
        DenseMatrix.diagonalTimes e.1 (b.jacobian.rowSum e.2 u) := by
    rw [hproduct u]
    conv_lhs =>
      rw [hblocks]
    apply DenseMatrix.diagonalTimes_flatMap
    intro e he
    rw [hJ.length_rowSum, (hsizes e he).2]
  rw [htimes, hproduct w, Vec.dot_flatMap]
  · exact hform
  · intro e he
    rw [hJ.length_rowSum, DenseMatrix.length_diagonalTimes, (hsizes e he).1]

end Hessian

end ConstraintBundle
end ConvexContact
