import ConvexContact.Tensor

/-!
# Block-sparse matrices

The rows and the columns of a block-sparse matrix are divided into blocks of given sizes; at each
pair of a block row and a block column there is at most one stored block, and all others are zero.
Blocks are kept in the order in which they were added.

**Products.**  `mulVec` and `transposeMulVec` visit the stored blocks only.  `multiply` and
`multiplyTranspose` are the same products for tensors as operands.
-/

namespace ConvexContact

/-- A stored block with its place. -/
structure Block (α : Type) where
  row : Nat
  col : Nat
  matrix : DenseMatrix α

namespace Block

/-- The place of a block. -/
def place {α : Type} (b : Block α) : Nat × Nat :=
  (b.row, b.col)

/-- The block with every entry changed. -/
def map {α β : Type} (f : α → β) (b : Block α) : Block β :=
  ⟨b.row, b.col, b.matrix.map f⟩

end Block

/-- A matrix given by some of its blocks. -/
structure BlockSparseMatrix (α : Type) where
  blockRows : List Nat
  blockCols : List Nat
  blocks : List (Block α)

namespace BlockSparseMatrix

variable {α β : Type}

/-- The zero matrix with the given sizes of blocks. -/
def ofSizes (blockRows blockCols : List Int) : Except Error (BlockSparseMatrix α) :=
  if (blockRows ++ blockCols).any (· < 0) then .error .negativeBlockSizes
  else .ok ⟨blockRows.map Int.toNat, blockCols.map Int.toNat, []⟩

/-- Number of rows. -/
def numRows (B : BlockSparseMatrix α) : Nat :=
  totalSize B.blockRows

/-- Number of columns. -/
def numCols (B : BlockSparseMatrix α) : Nat :=
  totalSize B.blockCols

/-- First row of each block row. -/
def rowStarts (B : BlockSparseMatrix α) : List Nat :=
  blockStarts 0 B.blockRows

/-- First column of each block column. -/
def colStarts (B : BlockSparseMatrix α) : List Nat :=
  blockStarts 0 B.blockCols

/-- The stored block at a place. -/
def block? (B : BlockSparseMatrix α) (i j : Int) : Option (DenseMatrix α) :=
  (B.blocks.find? fun b => (b.row : Int) = i ∧ (b.col : Int) = j).map (·.matrix)

/-- The stored blocks of a block row. -/
def rowBlocks (B : BlockSparseMatrix α) (i : Nat) : List (Block α) :=
  B.blocks.filter (·.row = i)

/-- The stored blocks of a block column. -/
def colBlocks (B : BlockSparseMatrix α) (j : Nat) : List (Block α) :=
  B.blocks.filter (·.col = j)

/-- The stored blocks of the block row at a position, which may be counted from the back. -/
def rowBlocksAt (B : BlockSparseMatrix α) (i : Int) : Except Error (List (Block α)) :=
  (entryAt? (List.range B.blockRows.length) i).map B.rowBlocks

/-- Every entry changed. -/
def map (f : α → β) (B : BlockSparseMatrix α) : BlockSparseMatrix β :=
  ⟨B.blockRows, B.blockCols, B.blocks.map (Block.map f)⟩

/-- The text that describes a block-sparse matrix. -/
def text (B : BlockSparseMatrix α) : String :=
  s!"BlockSparseMatrix(rows={B.numRows}, cols={B.numCols}, num_blocks={B.blocks.length})"

variable [Scalar α]

/-- Stores a block, unless its place is outside the matrix or taken, or its shape is wrong. -/
def addBlock (B : BlockSparseMatrix α) (i j : Int) (t : Tensor α) :
    Except Error (BlockSparseMatrix α) :=
  let outside := Error.blockOutOfRange i j B.blockRows.length B.blockCols.length
  if i < 0 ∨ j < 0 then .error outside
  else match B.blockRows[i.toNat]?, B.blockCols[j.toNat]? with
    | some m, some n =>
        if (B.block? i j).isSome then .error (.blockAlreadyAdded i.toNat j.toNat)
        else match t.matrix? with
          | some A =>
              if t.shape = [m, n] then
                .ok { B with blocks := B.blocks ++ [⟨i.toNat, j.toNat, A⟩] }
              else .error (.blockShapeMismatch i.toNat j.toNat m n t.shape)
          | none => .error (.blockShapeMismatch i.toNat j.toNat m n t.shape)
    | _, _ => .error outside

/-- The matrix with all blocks in a format. -/
def cast (format : Format) (B : BlockSparseMatrix α) : BlockSparseMatrix α :=
  { B with blocks := B.blocks.map fun b => { b with matrix := b.matrix.cast format } }

/-- The part of a vector that belongs to a block column. -/
def colPart (B : BlockSparseMatrix α) (j : Nat) (x : List α) : List α :=
  Vec.slice (B.colStarts.getD j 0) (B.blockCols.getD j 0) x

/-- The part of a vector that belongs to a block row. -/
def rowPart (B : BlockSparseMatrix α) (i : Nat) (y : List α) : List α :=
  Vec.slice (B.rowStarts.getD i 0) (B.blockRows.getD i 0) y

/-- Product with a vector. -/
def mulVec (B : BlockSparseMatrix α) (x : List α) : List α :=
  (B.blockRows.zipIdx).flatMap fun (n, i) =>
    (B.rowBlocks i).foldl (fun y b => Vec.add y (b.matrix.mulVec (B.colPart b.col x)))
      (Vec.zero n)

/-- Product of the transpose with a vector. -/
def transposeMulVec (B : BlockSparseMatrix α) (y : List α) : List α :=
  (B.blockCols.zipIdx).flatMap fun (n, j) =>
    (B.colBlocks j).foldl
      (fun x b => Vec.add x (b.matrix.transpose.mulVec (B.rowPart b.row y))) (Vec.zero n)

/-- Sums of products of blocks with intervals of a tensor, for a tensor with several sizes. -/
def sumProducts (size : Nat) (x : Tensor α) (terms : List (DenseMatrix α × Nat)) :
    Except Error (Tensor α) :=
  terms.foldlM (fun y term => do
      let product ← Tensor.matMul term.1 (x.interval term.2 term.1.numCols)
      y.add product)
    (Tensor.ofVec x.format (Vec.zero size))

/-- Sums one below the other; no sums give an empty vector. -/
def stackSums (format : Format) (parts : List (Tensor α)) : Except Error (Tensor α) :=
  if parts.isEmpty then .ok (Tensor.ofVec format []) else Tensor.concat parts

/-- Product with a tensor. -/
def multiply (B : BlockSparseMatrix α) (x : Tensor α) : Except Error (Tensor α) := do
  let n ← x.leadingSize
  if n ≠ B.numCols then .error (.vectorSizeMismatch B.numCols n)
  else
    let B := B.cast x.format
    match x.vector? with
    | some v => .ok (Tensor.ofVec x.format (B.mulVec v))
    | none => do
        let parts ← (B.blockRows.zipIdx).mapM fun (size, i) =>
          sumProducts size x
            ((B.rowBlocks i).map fun b => (b.matrix, B.colStarts.getD b.col 0))
        stackSums x.format parts

/-- Product of the transpose with a tensor. -/
def multiplyTranspose (B : BlockSparseMatrix α) (y : Tensor α) : Except Error (Tensor α) := do
  let n ← y.leadingSize
  if n ≠ B.numRows then .error (.vectorSizeMismatch B.numRows n)
  else
    let B := B.cast y.format
    match y.vector? with
    | some v => .ok (Tensor.ofVec y.format (B.transposeMulVec v))
    | none => do
        let parts ← (B.blockCols.zipIdx).mapM fun (size, j) =>
          sumProducts size y
            ((B.colBlocks j).map fun b => (b.matrix.transpose, B.rowStarts.getD b.row 0))
        stackSums y.format parts

/-- The format in which the matrix is written out: that of its first block. -/
def denseFormat (B : BlockSparseMatrix α) : Format :=
  match B.blocks with
  | [] => .single
  | b :: _ => b.matrix.format

/-- The matrix with all its entries. -/
def toDense (B : BlockSparseMatrix α) (format : Format) : DenseMatrix α :=
  (B.cast format).blocks.foldl
    (fun A b => A.setBlock (B.rowStarts.getD b.row 0) (B.colStarts.getD b.col 0) b.matrix)
    (DenseMatrix.zero format B.numRows B.numCols)

end BlockSparseMatrix

end ConvexContact
