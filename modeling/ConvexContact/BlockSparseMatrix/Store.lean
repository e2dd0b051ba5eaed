import ConvexContact.BlockSparseMatrix

/-!
# Block-sparse matrices in use

A block-sparse matrix is filled by calls that add one block each.  It has three records of its
blocks: the list of all blocks in the order in which they were added, the dictionary that gives the
position in this list for a place, and for each block row the positions of its blocks.

**Failure.**  A call updates one record after the other.  It can fail before the first update; what
is recorded at a failure remains.

**Traversals.**  The product with a vector goes through the block rows and the positions of their
blocks, the product of the transpose goes through the list of all blocks and adds up a segment for
each block column, and the matrix is written out block by block.

**Contents.**  `BlockStore.contents` is the block-sparse matrix of the list of blocks.
-/

namespace ConvexContact

/-- The records of a block-sparse matrix. -/
structure BlockStore (α : Type) where
  blockRows : List Nat
  blockCols : List Nat
  rowBounds : List Nat
  colBounds : List Nat
  /-- The stored blocks in the order in which they were added. -/
  blocks : List (Block α)
  /-- The positions of the stored blocks, by their places. -/
  index : List ((Int × Int) × Nat)
  /-- The positions of the stored blocks of each block row. -/
  rowPositions : List (List Nat)

namespace BlockStore

variable {α : Type}

/-- The records of a matrix without blocks. -/
def ofSizes (blockRows blockCols : List Int) : Except Error (BlockStore α) :=
  if (blockRows ++ blockCols).any (· < 0) then .error .negativeBlockSizes
  else
    let rows := blockRows.map Int.toNat
    let cols := blockCols.map Int.toNat
    .ok
      { blockRows := rows
        blockCols := cols
        rowBounds := blockBounds 0 rows
        colBounds := blockBounds 0 cols
        blocks := []
        index := []
        rowPositions := rows.map fun _ => [] }

/-- The block-sparse matrix that the records describe. -/
def contents (s : BlockStore α) : BlockSparseMatrix α :=
  ⟨s.blockRows, s.blockCols, s.blocks⟩

/-- The records of a matrix whose blocks were added in their order. -/
def ofContents (B : BlockSparseMatrix α) : BlockStore α where
  blockRows := B.blockRows
  blockCols := B.blockCols
  rowBounds := blockBounds 0 B.blockRows
  colBounds := blockBounds 0 B.blockCols
  blocks := B.blocks
  index := B.blocks.zipIdx.map fun e => ((e.1.row, e.1.col), e.2)
  rowPositions := (List.range B.blockRows.length).map fun i =>
    (B.blocks.zipIdx.filter (·.1.row = i)).map Prod.snd

/-- Number of rows. -/
def numRows (s : BlockStore α) : Nat :=
  s.rowBounds.getLastD 0

/-- Number of columns. -/
def numCols (s : BlockStore α) : Nat :=
  s.colBounds.getLastD 0

/-- First row of each block row. -/
def rowStarts (s : BlockStore α) : List Nat :=
  s.rowBounds.dropLast

/-- First column of each block column. -/
def colStarts (s : BlockStore α) : List Nat :=
  s.colBounds.dropLast

/-- The stored block at a place, if there is one. -/
def block? (s : BlockStore α) (i j : Int) : Except Error (Option (DenseMatrix α)) :=
  match s.index.lookup (i, j) with
  | none => .ok none
  | some k => do
      let b ← entryAt? s.blocks k
      .ok (some b.matrix)

/-- The stored blocks of the block row at a position, which may be counted from the back, with their
block columns. -/
def rowBlocks (s : BlockStore α) (i : Int) : Except Error (List (Nat × DenseMatrix α)) := do
  let positions ← entryAt? s.rowPositions i
  positions.mapM fun (k : Nat) => do
    let b ← entryAt? s.blocks k
    .ok (b.col, b.matrix)

/-- The format in which the matrix is written out: that of its first block. -/
def denseFormat (s : BlockStore α) : Format :=
  match s.blocks with
  | [] => .single
  | b :: _ => b.matrix.format

/-- The text that describes the matrix. -/
def text (s : BlockStore α) : String :=
  s!"BlockSparseMatrix(rows={s.numRows}, cols={s.numCols}, num_blocks={s.blocks.length})"

/-- What a call does to the records. -/
abbrev Action (α β : Type) : Type :=
  ExceptT Error (StateM (BlockStore α)) β

/-- The outcome of an action, with the records after it. -/
def outcome (s : BlockStore α) {β : Type} (x : Action α β) : Except Error β × BlockStore α :=
  x.run s

/-- An action is followed by the next one unless it fails. -/
theorem outcome_bind (s : BlockStore α) {β γ : Type} (x : Action α β) (f : β → Action α γ) :
    s.outcome (x >>= f) =
      match s.outcome x with
      | (.ok b, t) => t.outcome (f b)
      | (.error e, t) => (.error e, t) := by
  change ExceptT.bindCont f (x.run s).1 (x.run s).2 = _
  unfold outcome
  rcases x.run s with ⟨_ | _, _⟩ <;> rfl

@[simp] theorem outcome_get (s : BlockStore α) :
    s.outcome (get : Action α (BlockStore α)) = (.ok s, s) :=
  rfl

@[simp] theorem outcome_modify (s : BlockStore α) (f : BlockStore α → BlockStore α) :
    s.outcome (modify f : Action α Unit) = (.ok (), f s) :=
  rfl

@[simp] theorem outcome_throw (s : BlockStore α) {β : Type} (e : Error) :
    s.outcome (throw e : Action α β) = (.error e, s) :=
  rfl

variable [Scalar α]

/-- The matrix in a tensor, if it has the shape of a place. -/
def blockOfShape (s : BlockStore α) (i j : Nat) (t : Tensor α) : Except Error (DenseMatrix α) := do
  let m ← entryAt? s.blockRows i
  let n ← entryAt? s.blockCols j
  let mismatch := Error.blockShapeMismatch i j m n t.shape
  if t.shape = [m, n] then
    match t.matrix? with
    | some A => .ok A
    | none => .error mismatch
  else .error mismatch

/-- Adds a block, unless its place is outside the matrix or taken, or its shape is wrong. -/
def addBlock (i j : Int) (t : Tensor α) : Action α Unit := do
  let s ← get
  if i < 0 ∨ s.blockRows.length ≤ i ∨ j < 0 ∨ s.blockCols.length ≤ j then
    throw (.blockOutOfRange i j s.blockRows.length s.blockCols.length)
  if (s.index.lookup (i, j)).isSome then
    throw (.blockAlreadyAdded i.toNat j.toNat)
  match s.blockOfShape i.toNat j.toNat t with
  | .error e => throw e
  | .ok A => do
      modify fun s => { s with index := s.index ++ [((i, j), s.blocks.length)] }
      modify fun s =>
        { s with rowPositions := s.rowPositions.modify i.toNat (· ++ [s.blocks.length]) }
      modify fun s => { s with blocks := s.blocks ++ [⟨i.toNat, j.toNat, A⟩] }

/-- A call that adds a block. -/
structure Call (α : Type) where
  row : Int
  col : Int
  block : Tensor α

/-- Performs a call. -/
def perform (call : Call α) : Action α Unit :=
  addBlock call.row call.col call.block

/-- The records after a sequence of calls, some of which may fail. -/
def after (s : BlockStore α) : List (Call α) → BlockStore α
  | [] => s
  | call :: calls => after (s.outcome (perform call)).2 calls

/-- The part of a product that belongs to a block row. -/
def rowProduct (s : BlockStore α) (x : Tensor α) (i size : Nat) : Except Error (Tensor α) := do
  let blocks ← s.rowBlocks i
  blocks.foldlM (fun y (j, A) => do
      let start ← entryAt? s.colBounds j
      let width ← entryAt? s.blockCols j
      let product ← Tensor.matMul (A.cast x.format) (x.interval start width)
      y.add product)
    (Tensor.ofVec x.format (Vec.zero size))

/-- Product with a tensor. -/
def multiply (s : BlockStore α) (x : Tensor α) : Except Error (Tensor α) := do
  let n ← x.leadingSize
  if n ≠ s.numCols then .error (.vectorSizeMismatch s.numCols n)
  else do
    let segments ← s.blockRows.zipIdx.mapM fun e => s.rowProduct x e.2 e.1
    BlockSparseMatrix.stackSums x.format segments

/-- Adds the product of a transposed block to the segment of its block column. -/
def addTransposed (s : BlockStore α) (y : Tensor α) (segments : List (Tensor α)) (b : Block α) :
    Except Error (List (Tensor α)) := do
  let start ← entryAt? s.rowBounds b.row
  let height ← entryAt? s.blockRows b.row
  let segment ← entryAt? segments b.col
  let product ← Tensor.matMul (b.matrix.cast y.format).transpose (y.interval start height)
  let sum ← segment.add product
  .ok (segments.set b.col sum)

/-- Product of the transpose with a tensor. -/
def multiplyTranspose (s : BlockStore α) (y : Tensor α) : Except Error (Tensor α) := do
  let n ← y.leadingSize
  if n ≠ s.numRows then .error (.vectorSizeMismatch s.numRows n)
  else do
    let segments ← s.blocks.foldlM (s.addTransposed y)
      (s.blockCols.map fun n => Tensor.ofVec y.format (Vec.zero n))
    BlockSparseMatrix.stackSums y.format segments

/-- The matrix with all its entries, in a format or in its own. -/
def toDense (s : BlockStore α) (format? : Option Format) : Except Error (DenseMatrix α) :=
  let format := format?.getD s.denseFormat
  s.blocks.foldlM (fun A b => do
      let row ← entryAt? s.rowBounds b.row
      let col ← entryAt? s.colBounds b.col
      .ok (A.setBlock row col (b.matrix.cast format)))
    (DenseMatrix.zero format s.numRows s.numCols)

end BlockStore

end ConvexContact
