import Mathlib
import ConvexContact.Proofs.BlockStores
import ConvexContact.Proofs.Tensors

/-!
# Traversals of block-sparse matrices

**Input.**  Records that are in step, in exact arithmetic.

**Traversals.**  The product with a vector goes through the block rows and the positions of their
blocks.  The product of the transpose goes through the list of all blocks and adds each term to the
segment of its block column (`accumulate`).  The matrix is written out block by block at the bounds
of the blocks.

**Results.**
* `multiply_ofContents`, `multiplyTranspose_ofContents`, `toDense_ofContents`: the traversals give
  the sums over the stored blocks.
* `faithful_after`: after any calls, some of which may be refused, the records have the blocks of the
  accepted calls, the matrix that is written out has them at their places, and the products are those
  with this matrix, whatever the order in which the blocks were added.
-/

namespace ConvexContact

namespace BlockStore

section Sizes

variable {α : Type}

/-- The number of rows is the last bound. -/
theorem numRows_ofContents
    (B : BlockSparseMatrix α) :
    (ofContents B).numRows = B.numRows :=
  getLastD_blockBounds B.blockRows

theorem numCols_ofContents
    (B : BlockSparseMatrix α) :
    (ofContents B).numCols = B.numCols :=
  getLastD_blockBounds B.blockCols

variable {s : BlockStore α}

theorem InStep.numRows_eq
    (hs : s.InStep) :
    s.numRows = s.contents.numRows := by
  rw [hs.eq_ofContents]
  exact numRows_ofContents s.contents

theorem InStep.numCols_eq
    (hs : s.InStep) :
    s.numCols = s.contents.numCols := by
  rw [hs.eq_ofContents]
  exact numCols_ofContents s.contents

theorem exists_ofSizes_eq_ok
    (rows cols : List ℕ) :
    ∃ s : BlockStore α, ofSizes (rows.map Int.ofNat) (cols.map Int.ofNat) = .ok s ∧
      s.blockRows = rows ∧ s.blockCols = cols ∧ s.blocks = [] := by
  have hvalid : ¬(rows.map Int.ofNat ++ cols.map Int.ofNat).any (· < 0) = true := by
    rw [← List.map_append, List.any_map, List.any_eq_true]
    rintro ⟨n, -, hn⟩
    rw [Function.comp_apply, decide_eq_true_eq] at hn
    exact absurd hn (Int.natCast_nonneg n).not_gt
  have hsizes : ∀ ns : List ℕ, (ns.map Int.ofNat).map Int.toNat = ns := by
    intro ns
    rw [List.map_map]
    exact List.map_id ns
  rw [ofSizes, if_neg hvalid]
  exact ⟨_, rfl, hsizes rows, hsizes cols, rfl⟩

end Sizes

section Products

variable [Threshold]
variable {B : BlockSparseMatrix ℝ}

/-- Segments one below the other. -/
theorem stackSums_ofVec
    (format : Format) (parts : List (List ℝ)) :
    BlockSparseMatrix.stackSums format (parts.map (Tensor.ofVec format)) =
      .ok (Tensor.ofVec format parts.flatten) := by
  cases parts with
  | nil =>
      rfl
  | cons x parts =>
      exact Tensor.concat_ofVec format (List.cons_ne_nil x parts)

/-- The part of a product that belongs to a block row is the sum over its stored blocks. -/
theorem rowProduct_ofContents
    (hB : B.Regular)
    {x : Tensor ℝ}
    (hx : x.shape = [B.numCols])
    {i : ℕ}
    (hi : i < B.blockRows.length) :
    (ofContents B).rowProduct x i (B.blockRows.getD i 0) =
      .ok (Tensor.ofVec x.format (B.rowSum i x.entries)) := by
  rw [rowProduct, rowBlocks_natCast hi, Outcome.ok_bind, List.foldlM_map]
  refine Outcome.foldlM_eq_ok (P := fun y : List ℝ => y.length = B.blockRows.getD i 0)
    (Vec.length_zero _) ?_
  intro y hy b hb
  obtain ⟨-, hcol, -, -⟩ := hB b (List.mem_filter.1 hb).1
  have hterm := hB.length_term (x := x.entries) b hb
  have hstart : entryAt? (ofContents B).colBounds (b.col : ℤ) = .ok (B.colStarts.getD b.col 0) :=
    entryAt?_blockBounds hcol
  have hwidth : entryAt? (ofContents B).blockCols (b.col : ℤ) = .ok b.matrix.numCols := by
    rw [hB.numCols_eq hb]
    exact entryAt?_getD hcol 0
  refine ⟨by rw [Vec.length_add, hy, hterm, Nat.min_self], ?_⟩
  dsimp only
  rw [hstart, Outcome.ok_bind, hwidth, Outcome.ok_bind, Tensor.matMul_interval hx (hB.col_le hb),
    Outcome.ok_bind, hB.slice_eq hb, Tensor.add_ofVec _ (hy.trans hterm.symm)]

/-- **Products by block rows** are the products that the stored blocks give. -/
theorem multiply_ofContents
    (hB : B.Regular)
    {x : Tensor ℝ}
    (hx : x.shape = [B.numCols]) :
    (ofContents B).multiply x = .ok (Tensor.ofVec x.format (B.mulVec x.entries)) := by
  have hindices : List.range B.blockRows.length = B.blockRows.zipIdx.map Prod.snd := by
    rw [List.zipIdx_map_snd, List.range_eq_range']
  have hsegments : B.blockRows.zipIdx.mapM (fun e => (ofContents B).rowProduct x e.2 e.1) =
      .ok (((List.range B.blockRows.length).map fun i => B.rowSum i x.entries).map
        (Tensor.ofVec x.format)) := by
    rw [hindices, List.map_map, List.map_map]
    refine Outcome.mapM_eq_ok_map ?_
    rintro ⟨size, i⟩ hentry
    have hsize : B.blockRows[i]? = some size :=
      List.mem_zipIdx_iff_getElem?.1 hentry
    obtain ⟨hi, rfl⟩ := List.getElem?_eq_some_iff.1 hsize
    rw [← List.getD_eq_getElem _ 0 hi]
    exact rowProduct_ofContents hB hx hi
  rw [multiply, Tensor.leadingSize_of_shape hx, Outcome.ok_bind, numCols_ofContents,
    if_neg (not_not.2 rfl)]
  change (B.blockRows.zipIdx.mapM _ >>= _) = _
  rw [hsegments, Outcome.ok_bind, stackSums_ofVec, BlockSparseMatrix.mulVec_eq_flatMap,
    List.flatMap_def]

end Products

section Accumulation

variable {ι β : Type} {key : ι → ℕ} {op : β → ι → β} {xs : List ι} {segments : List β}

/-- The segments after members of a list were added to the segments of their keys. -/
def accumulate (key : ι → ℕ) (op : β → ι → β) (default : β) (segments : List β) (xs : List ι) :
    List β :=
  xs.foldl (fun s x => s.set (key x) (op (s.getD (key x) default) x)) segments

theorem length_accumulate
    (key : ι → ℕ) (op : β → ι → β) (default : β) (segments : List β) (xs : List ι) :
    (accumulate key op default segments xs).length = segments.length := by
  induction xs generalizing segments with
  | nil =>
      rfl
  | cons x xs ih =>
      exact (ih _).trans List.length_set

/-- A segment collects the members of its key, in their order. -/
theorem getD_accumulate
    (default : β)
    (hkey : ∀ x ∈ xs, key x < segments.length)
    (j : ℕ) :
    (accumulate key op default segments xs).getD j default =
      (xs.filter (key · = j)).foldl op (segments.getD j default) := by
  induction xs generalizing segments with
  | nil =>
      rfl
  | cons x xs ih =>
      have hx := hkey x List.mem_cons_self
      have hrest : ∀ x' ∈ xs,
          key x' < (segments.set (key x) (op (segments.getD (key x) default) x)).length := by
        intro x' hx'
        rw [List.length_set]
        exact hkey x' (List.mem_cons_of_mem x hx')
      refine (ih hrest).trans ?_
      by_cases hj : key x = j
      · subst hj
        rw [List.filter_cons_of_pos (by simp), List.foldl_cons]
        congr 1
        simp [List.getD_eq_getElem?_getD, hx]
      · rw [List.filter_cons_of_neg (by simpa using hj)]
        congr 1
        simp [List.getD_eq_getElem?_getD, hj]

end Accumulation

section Transpose

variable [Threshold]
variable {B : BlockSparseMatrix ℝ} {y : Tensor ℝ}

/-- A segment with the term of a block added. -/
noncomputable def addTerm (B : BlockSparseMatrix ℝ) (y x : List ℝ) (b : Block ℝ) : List ℝ :=
  Vec.add x (b.matrix.transpose.mulVec (B.rowPart b.row y))

/-- A segment of zeros for each block column. -/
noncomputable def zeroSegments (B : BlockSparseMatrix ℝ) : List (List ℝ) :=
  B.blockCols.map fun n => Vec.zero n

theorem map_length_zeroSegments
    (B : BlockSparseMatrix ℝ) :
    (zeroSegments B).map List.length = B.blockCols := by
  simp [zeroSegments, Function.comp_def]

/-- The terms of all blocks, added in their order, give the sums of the block columns. -/
theorem accumulate_blocks
    (hB : B.Regular)
    (y : List ℝ) :
    accumulate (fun b : Block ℝ => b.col) (addTerm B y) [] (zeroSegments B) B.blocks =
      (List.range B.blockCols.length).map fun j => B.colSum j y := by
  have hlength : (zeroSegments B).length = B.blockCols.length :=
    List.length_map _
  have hkey : ∀ b ∈ B.blocks, b.col < (zeroSegments B).length := by
    intro b hb
    rw [hlength]
    exact (hB b hb).2.1
  apply List.ext_getElem
  · rw [length_accumulate, hlength, List.length_map, List.length_range]
  · intro j h₁ h₂
    have hj : j < (zeroSegments B).length := by
      rwa [length_accumulate] at h₁
    have hzero : (zeroSegments B).getD j [] = Vec.zero (B.blockCols.getD j 0) := by
      rw [List.getD_eq_getElem _ _ hj, List.getD_eq_getElem _ _ (hlength ▸ hj)]
      exact List.getElem_map _
    rw [List.getElem_map, List.getElem_range, ← List.getD_eq_getElem _ [] h₁,
      getD_accumulate [] hkey, hzero]
    rfl

/-- The product of a transposed block is added to the segment of its block column. -/
theorem addTransposed_ofContents
    (hB : B.Regular)
    (hy : y.shape = [B.numRows])
    {segments : List (List ℝ)}
    (hsegments : segments.map List.length = B.blockCols)
    {b : Block ℝ}
    (hb : b ∈ B.blocks) :
    (ofContents B).addTransposed y (segments.map (Tensor.ofVec y.format)) b =
      .ok ((segments.set b.col (addTerm B y.entries (segments.getD b.col []) b)).map
        (Tensor.ofVec y.format)) := by
  obtain ⟨hrow, hcol, hheight, hwidth⟩ := hB b hb
  have hstart : entryAt? (ofContents B).rowBounds (b.row : ℤ) = .ok (B.rowStarts.getD b.row 0) :=
    entryAt?_blockBounds hrow
  have hheight' : entryAt? (ofContents B).blockRows (b.row : ℤ) =
      .ok b.matrix.transpose.numCols := by
    rw [DenseMatrix.numCols_transpose, hheight]
    exact entryAt?_getD hrow 0
  have hcol' : b.col < segments.length := by
    rwa [← hsegments, List.length_map] at hcol
  have hsegment : (segments.getD b.col []).length = b.matrix.numCols := by
    rw [Vec.length_getD, hsegments, hwidth]
  have hfits : B.rowStarts.getD b.row 0 + b.matrix.transpose.numCols ≤ B.numRows := by
    rw [DenseMatrix.numCols_transpose, hheight]
    exact Vec.blockStarts_add_le_totalSize hrow
  have hpart : Vec.slice (B.rowStarts.getD b.row 0) b.matrix.transpose.numCols y.entries =
      B.rowPart b.row y.entries := by
    rw [DenseMatrix.numCols_transpose, hheight]
    rfl
  have hproduct := Tensor.matMul_interval hy hfits
  rw [hpart] at hproduct
  rw [addTransposed, hstart, Outcome.ok_bind, hheight', Outcome.ok_bind, entryAt?_map,
    entryAt?_getD hcol' [], DenseMatrix.transpose_cast, hproduct]
  simp only [Except.map, Outcome.ok_bind]
  rw [Tensor.add_ofVec _ (by rw [hsegment, DenseMatrix.length_mulVec,
    DenseMatrix.numRows_transpose]), Outcome.ok_bind, List.map_set]
  rfl

/-- **Products by the order of addition**, with a segment for each block column, are the products
that the transposed blocks give. -/
theorem multiplyTranspose_ofContents
    (hB : B.Regular)
    (hy : y.shape = [B.numRows]) :
    (ofContents B).multiplyTranspose y =
      .ok (Tensor.ofVec y.format (B.transposeMulVec y.entries)) := by
  have hsegments : B.blocks.foldlM ((ofContents B).addTransposed y)
      ((zeroSegments B).map (Tensor.ofVec y.format)) =
      .ok ((accumulate (fun b : Block ℝ => b.col) (addTerm B y.entries) [] (zeroSegments B)
        B.blocks).map (Tensor.ofVec y.format)) := by
    refine Outcome.foldlM_eq_ok (P := fun s : List (List ℝ) => s.map List.length = B.blockCols)
      (map_length_zeroSegments B) ?_
    intro segments hs b hb
    refine ⟨?_, addTransposed_ofContents hB hy hs hb⟩
    obtain ⟨-, hcol, -, hwidth⟩ := hB b hb
    have hsum : (addTerm B y.entries (segments.getD b.col []) b).length = B.blockCols[b.col] := by
      rw [addTerm, Vec.length_add, Vec.length_getD, hs, DenseMatrix.length_mulVec,
        DenseMatrix.numRows_transpose, hwidth, Nat.min_self, List.getD_eq_getElem _ _ hcol]
    rw [List.map_set, hs, hsum, List.set_getElem_self]
  have hstart : (ofContents B).blockCols.map (fun n => Tensor.ofVec y.format (Vec.zero n)) =
      (zeroSegments B).map (Tensor.ofVec y.format) := by
    rw [zeroSegments, List.map_map]
    rfl
  rw [multiplyTranspose, Tensor.leadingSize_of_shape hy, Outcome.ok_bind, numRows_ofContents,
    if_neg (not_not.2 rfl), hstart]
  change (B.blocks.foldlM _ _ >>= _) = _
  rw [hsegments, Outcome.ok_bind, accumulate_blocks hB, stackSums_ofVec,
    BlockSparseMatrix.transposeMulVec_eq_flatMap, List.flatMap_def]

/-- Written out block by block, the records give the matrix of the list of blocks. -/
theorem toDense_ofContents
    (hB : B.Regular)
    (format? : Option Format) :
    (ofContents B).toDense format? = .ok (B.toDense (format?.getD B.denseFormat)) := by
  rw [toDense, numRows_ofContents, numCols_ofContents, BlockSparseMatrix.toDense,
    BlockSparseMatrix.cast, List.foldl_map]
  refine Outcome.foldlM_eq_ok (r := id) (P := fun _ => True) trivial ?_
  intro A _ b hb
  obtain ⟨hrow, hcol, -, -⟩ := hB b hb
  have hrow' : entryAt? (ofContents B).rowBounds (b.row : ℤ) = .ok (B.rowStarts.getD b.row 0) :=
    entryAt?_blockBounds hrow
  have hcol' : entryAt? (ofContents B).colBounds (b.col : ℤ) = .ok (B.colStarts.getD b.col 0) :=
    entryAt?_blockBounds hcol
  dsimp only
  rw [hrow', Outcome.ok_bind, hcol', Outcome.ok_bind]
  exact ⟨trivial, rfl⟩

end Transpose

section Runs

variable [Threshold]
variable {s t : BlockStore ℝ}

/-- The products of the records, for vectors of any format, are those with a matrix. -/
structure ActsAs (s : BlockStore ℝ) (D : DenseMatrix ℝ) : Prop where
  numRows_eq : D.numRows = s.numRows
  numCols_eq : D.numCols = s.numCols
  multiply_eq : ∀ x : Tensor ℝ, x.shape = [s.numCols] →
    s.multiply x = .ok (Tensor.ofVec x.format (D.mulVec x.entries))
  multiplyTranspose_eq : ∀ y : Tensor ℝ, y.shape = [s.numRows] →
    s.multiplyTranspose y = .ok (Tensor.ofVec y.format (D.transpose.mulVec y.entries))

/-- A matrix has the entries of the stored blocks at their places, behind the blocks of the rows and
columns before them, and zeros at the places without a block. -/
structure WrittenIn (s : BlockStore ℝ) (D : DenseMatrix ℝ) : Prop where
  get_of_mem : ∀ b ∈ s.blocks,
    ∀ i < s.blockRows.getD b.row 0, ∀ j < s.blockCols.getD b.col 0,
      D.get (totalSize (s.blockRows.take b.row) + i) (totalSize (s.blockCols.take b.col) + j) =
        b.matrix.get i j
  get_of_not_mem : ∀ row < s.blockRows.length, ∀ col < s.blockCols.length,
    (row, col) ∉ s.blocks.map Block.place →
      ∀ i < s.blockRows.getD row 0, ∀ j < s.blockCols.getD col 0,
        D.get (totalSize (s.blockRows.take row) + i) (totalSize (s.blockCols.take col) + j) = 0

/-- The records take every block that is offered at a free place and no other, describe the same
blocks, at most one for each place, and give the products with the matrix that is written out. -/
structure Faithful (s : BlockStore ℝ) : Prop where
  numRows_eq : s.numRows = totalSize s.blockRows
  numCols_eq : s.numCols = totalSize s.blockCols
  /-- A call is accepted if it offers a block at a free place, and the records then have this block
  behind those that they had. -/
  accepted_iff : ∀ call t, s.outcome (perform call) = (.ok (), t) ↔
    ∃ b, s.Offers call b ∧ b.place ∉ s.blocks.map Block.place ∧ t = s.push b
  /-- A call that is refused changes nothing. -/
  refused : ∀ call e t, s.outcome (perform call) = (.error e, t) → t = s
  /-- All blocks are at different places inside the matrix and have the shapes of their places. -/
  nodup_places : (s.blocks.map Block.place).Nodup
  inside : ∀ b ∈ s.blocks, b.row < s.blockRows.length ∧ b.col < s.blockCols.length ∧
    b.matrix.numRows = s.blockRows.getD b.row 0 ∧ b.matrix.numCols = s.blockCols.getD b.col 0
  /-- The dictionary has the blocks of the list. -/
  block?_iff : ∀ i j : ℤ, ∃ found, s.block? i j = .ok found ∧
    ∀ A, found = some A ↔ ∃ b ∈ s.blocks, (b.row : ℤ) = i ∧ (b.col : ℤ) = j ∧ b.matrix = A
  /-- The block rows have the blocks of the list. -/
  rowBlocks_eq : ∀ i : ℕ, i < s.blockRows.length →
    s.rowBlocks i = .ok ((s.blocks.filter (·.row = i)).map fun b => (b.col, b.matrix))
  /-- The matrix can be written out, has the blocks of the list at their places and gives the
  products. -/
  toDense_eq : ∀ format? : Option Format, ∃ D, s.toDense format? = .ok D ∧
    D.format = format?.getD s.denseFormat ∧ s.WrittenIn D ∧ s.ActsAs D

namespace InStep

/-- The matrix that is written out. -/
theorem toDense_eq_ok
    (hs : s.InStep)
    (format? : Option Format) :
    s.toDense format? = .ok (s.contents.toDense (format?.getD s.denseFormat)) := by
  conv_lhs =>
    rw [hs.eq_ofContents]
  exact toDense_ofContents hs.regular format?

theorem writtenIn
    (hs : s.InStep)
    (format : Format) :
    s.WrittenIn (s.contents.toDense format) where
  get_of_mem b hb i hi j hj := by
    obtain ⟨-, -, hheight, hwidth⟩ := hs.regular b hb
    exact hs.regular.get_toDense_of_mem hs.nodup_places format hb (hheight ▸ hi) (hwidth ▸ hj)
  get_of_not_mem row hrow col hcol hfree i hi j hj :=
    hs.regular.get_toDense_of_not_mem format hfree hrow hcol hi hj

theorem actsAs
    (hs : s.InStep)
    (format : Format) :
    s.ActsAs (s.contents.toDense format) := by
  obtain ⟨hheight, hwidth, -⟩ := BlockSparseMatrix.shape_toDense format s.contents
  refine ⟨hheight.trans hs.numRows_eq.symm, hwidth.trans hs.numCols_eq.symm, ?_, ?_⟩
  · intro x hx
    rw [hs.numCols_eq] at hx
    conv_lhs =>
      rw [hs.eq_ofContents]
    rw [multiply_ofContents hs.regular hx,
      hs.regular.mulVec_toDense hs.nodup_places _ (Tensor.length_entries_of_shape hx)]
  · intro y hy
    rw [hs.numRows_eq] at hy
    conv_lhs =>
      rw [hs.eq_ofContents]
    rw [multiplyTranspose_ofContents hs.regular hy,
      hs.regular.mulVec_transpose_toDense hs.nodup_places _ (Tensor.length_entries_of_shape hy)]

theorem faithful
    (hs : s.InStep) :
    s.Faithful where
  numRows_eq := hs.numRows_eq
  numCols_eq := hs.numCols_eq
  accepted_iff _ _ := by
    rw [hs.accepted_iff]
    simp only [addition?_eq_some_iff]
  refused _ _ _ := eq_of_perform_eq_error
  nodup_places := hs.nodup_places
  inside := hs.regular
  block?_iff := hs.exists_block?_eq
  rowBlocks_eq _ hi := hs.rowBlocks_eq hi
  toDense_eq format? := by
    obtain ⟨-, -, hformat⟩ :=
      BlockSparseMatrix.shape_toDense (format?.getD s.denseFormat) s.contents
    exact ⟨_, hs.toDense_eq_ok format?, hformat, hs.writtenIn _, hs.actsAs _⟩

/-- Records with the same blocks at all places give the same matrix. -/
theorem toDense_eq
    (hs : s.InStep)
    (ht : t.InStep)
    (hrows : t.blockRows = s.blockRows)
    (hcols : t.blockCols = s.blockCols)
    (h : ∀ i j, t.block? i j = s.block? i j)
    (format : Format) :
    t.toDense (some format) = s.toDense (some format) := by
  have hcontents : t.contents = { s.contents with blocks := t.blocks } := by
    rw [contents, hrows, hcols]
    rfl
  have hdense := hs.regular.toDense_eq_of_perm hs.nodup_places (hs.perm_blocks ht h) format
  rw [← hcontents] at hdense
  rw [hs.toDense_eq_ok, ht.toDense_eq_ok]
  exact congrArg Except.ok hdense

end InStep

/-- Products with one matrix are equal. -/
theorem ActsAs.products_eq
    {D : DenseMatrix ℝ}
    (hs : s.ActsAs D)
    (ht : t.ActsAs D) :
    (∀ x : Tensor ℝ, x.shape = [s.numCols] → t.multiply x = s.multiply x) ∧
      ∀ y : Tensor ℝ, y.shape = [s.numRows] → t.multiplyTranspose y = s.multiplyTranspose y := by
  constructor
  · intro x hx
    rw [hs.multiply_eq x hx, ht.multiply_eq x (by rw [hx, ← hs.numCols_eq, ht.numCols_eq])]
  · intro y hy
    rw [hs.multiplyTranspose_eq y hy,
      ht.multiplyTranspose_eq y (by rw [hy, ← hs.numRows_eq, ht.numRows_eq])]

/-- **Block-sparse matrices in use.**  A matrix without blocks can be made for all sizes.  After any
calls, some of which may be refused, its records are faithful, and its blocks are those that the
accepted calls offered, in their order.  Calls that are all accepted are so in every order; if the
same calls are accepted, in whatever order, the same blocks are at all places; and calls that leave
the same blocks at all places leave the same matrix and the same products. -/
theorem faithful_after
    (rows cols : List ℕ) :
    ∃ empty : BlockStore ℝ, ofSizes (rows.map Int.ofNat) (cols.map Int.ofNat) = .ok empty ∧
      ∀ calls : List (Call ℝ),
        (empty.after calls).blockRows = rows ∧ (empty.after calls).blockCols = cols ∧
        (empty.after calls).Faithful ∧
        List.Forall₂ empty.Offers (empty.accepted calls) (empty.after calls).blocks ∧
        ∀ calls' : List (Call ℝ),
          (empty.Accepts calls → calls'.Perm calls →
            empty.Accepts calls' ∧
              ∀ i j, (empty.after calls').block? i j = (empty.after calls).block? i j) ∧
          ((empty.accepted calls').Perm (empty.accepted calls) →
            ∀ i j, (empty.after calls').block? i j = (empty.after calls).block? i j) ∧
          ((∀ i j, (empty.after calls').block? i j = (empty.after calls).block? i j) →
            (∀ format : Format, (empty.after calls').toDense (some format) =
              (empty.after calls).toDense (some format)) ∧
            (∀ x : Tensor ℝ, x.shape = [totalSize cols] →
              (empty.after calls').multiply x = (empty.after calls).multiply x) ∧
            ∀ y : Tensor ℝ, y.shape = [totalSize rows] →
              (empty.after calls').multiplyTranspose y =
                (empty.after calls).multiplyTranspose y) := by
  obtain ⟨empty, hempty, hrows, hcols, hblocks⟩ := exists_ofSizes_eq_ok rows cols
  have hstart := InStep.of_ofSizes hempty
  refine ⟨empty, hempty, ?_⟩
  intro calls
  obtain ⟨hrows₁, hcols₁⟩ := sizes_after empty calls
  have hs := hstart.of_after calls
  refine ⟨hrows₁.trans hrows, hcols₁.trans hcols, hs.faithful, ?_, ?_⟩
  · rw [hstart.blocks_eq, hblocks, List.nil_append]
    exact hstart.forall₂_offers calls
  intro calls'
  obtain ⟨hrows₂, hcols₂⟩ := sizes_after empty calls'
  have ht := hstart.of_after calls'
  refine ⟨?_, hstart.block?_after_of_perm, ?_⟩
  · intro haccepts hperm
    obtain ⟨haccepts', hblocks'⟩ := hstart.accepts_of_perm haccepts hperm
    exact ⟨haccepts', hs.block?_eq_of_perm ht hblocks'⟩
  · intro hsame
    have hdense := hs.toDense_eq ht (hrows₂.trans hrows₁.symm) (hcols₂.trans hcols₁.symm) hsame
    have hmatrix := hdense .double
    rw [hs.toDense_eq_ok, ht.toDense_eq_ok, Except.ok.injEq] at hmatrix
    have heq := (hs.actsAs .double).products_eq (hmatrix ▸ ht.actsAs .double)
    rw [hs.faithful.numCols_eq, hs.faithful.numRows_eq, hrows₁, hcols₁, hrows, hcols] at heq
    exact ⟨hdense, heq⟩

end Runs

end BlockStore
end ConvexContact
