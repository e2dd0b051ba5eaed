import ConvexContact.Blocks
import ConvexContact.Linear.Vec

/-!
# Dense matrices

A matrix is the list of its rows, together with the number of columns, which a matrix without rows
could not tell, and with the format of its entries.

All operations build their result with `DenseMatrix.tabulate`, and are therefore described by the
single lemma `DenseMatrix.get_tabulate`.
-/

namespace ConvexContact

/-- A matrix with entries in a format. -/
structure DenseMatrix (α : Type) where
  format : Format
  numCols : Nat
  rows : List (List α)
  length_row : ∀ row ∈ rows, row.length = numCols

namespace DenseMatrix

variable {α β : Type}

/-- Number of rows. -/
def numRows (A : DenseMatrix α) : Nat :=
  A.rows.length

/-- The matrix with the given entries. -/
def tabulate (format : Format) (m n : Nat) (f : Nat → Nat → α) : DenseMatrix α where
  format := format
  numCols := n
  rows := (List.range m).map fun i => (List.range n).map (f i)
  length_row := by
    intro row h
    obtain ⟨i, -, rfl⟩ := List.mem_map.1 h
    simp

@[simp] theorem numRows_tabulate (format : Format) (m n : Nat) (f : Nat → Nat → α) :
    (tabulate format m n f).numRows = m := by
  simp [tabulate, numRows]

@[simp] theorem numCols_tabulate (format : Format) (m n : Nat) (f : Nat → Nat → α) :
    (tabulate format m n f).numCols = n := rfl

/-- The matrix with every entry changed. -/
def map (f : α → β) (A : DenseMatrix α) : DenseMatrix β where
  format := A.format
  numCols := A.numCols
  rows := A.rows.map (List.map f)
  length_row := by
    intro row h
    obtain ⟨r, hr, rfl⟩ := List.mem_map.1 h
    simpa using A.length_row r hr

/-- All entries, row by row. -/
def entries (A : DenseMatrix α) : List α :=
  A.rows.flatten

variable [Scalar α]

/-- The entry in row `i` and column `j`; zero outside the matrix. -/
def get (A : DenseMatrix α) (i j : Nat) : α :=
  (A.rows.getD i []).getD j 0

theorem get_tabulate (format : Format) (m n : Nat) (f : Nat → Nat → α) {i j : Nat}
    (hi : i < m) (hj : j < n) :
    (tabulate format m n f).get i j = f i j := by
  simp [get, tabulate, List.getD_eq_getElem?_getD, hi, hj]

/-- The matrix in another format. -/
def cast (format : Format) (A : DenseMatrix α) : DenseMatrix α :=
  { A.map (Scalar.round format) with format := format }

/-- The zero matrix. -/
def zero (format : Format) (m n : Nat) : DenseMatrix α :=
  tabulate format m n fun _ _ => 0

/-- The identity matrix. -/
def identity (format : Format) (n : Nat) : DenseMatrix α :=
  tabulate format n n fun i j => if i = j then 1 else 0

/-- The diagonal matrix of a vector. -/
def diagonal (format : Format) (d : List α) : DenseMatrix α :=
  tabulate format d.length d.length fun i j => if i = j then d.getD i 0 else 0

def transpose (A : DenseMatrix α) : DenseMatrix α :=
  tabulate A.format A.numCols A.numRows fun i j => A.get j i

def add (A B : DenseMatrix α) : DenseMatrix α :=
  tabulate (A.format.join B.format) A.numRows A.numCols fun i j => A.get i j + B.get i j

def sub (A B : DenseMatrix α) : DenseMatrix α :=
  tabulate (A.format.join B.format) A.numRows A.numCols fun i j => A.get i j - B.get i j

def neg (A : DenseMatrix α) : DenseMatrix α :=
  A.map (- ·)

def mul (A B : DenseMatrix α) : DenseMatrix α :=
  tabulate (A.format.join B.format) A.numRows B.numCols fun i j =>
    Vec.sumRange A.numCols fun k => A.get i k * B.get k j

/-- Matrix times vector. -/
def mulVec (A : DenseMatrix α) (x : List α) : List α :=
  A.rows.map (Vec.dot · x)

/-- Matrices on top of each other, in the wider of their formats. -/
def vertical (format : Format) (numCols : Nat) (parts : List (DenseMatrix α)) : DenseMatrix α :=
  let all := parts.flatMap (·.rows)
  tabulate ((parts.map (·.format)).foldl Format.join format) all.length numCols fun i j =>
    (all.getD i []).getD j 0

/-- Adds a block to a matrix, with its first entry at row `r` and column `c`. -/
def addBlock (A : DenseMatrix α) (r c : Nat) (B : DenseMatrix α) : DenseMatrix α :=
  tabulate A.format A.numRows A.numCols fun i j =>
    if r ≤ i ∧ i < r + B.numRows ∧ c ≤ j ∧ j < c + B.numCols
      then A.get i j + B.get (i - r) (j - c) else A.get i j

/-- Writes a block into a matrix, with its first entry at row `r` and column `c`. -/
def setBlock (A : DenseMatrix α) (r c : Nat) (B : DenseMatrix α) : DenseMatrix α :=
  tabulate A.format A.numRows A.numCols fun i j =>
    if r ≤ i ∧ i < r + B.numRows ∧ c ≤ j ∧ j < c + B.numCols
      then B.get (i - r) (j - c) else A.get i j

/-- Matrices along the diagonal of a matrix. -/
def blockDiagonal (format : Format) (blocks : List (DenseMatrix α)) : DenseMatrix α :=
  let rowStarts := blockStarts 0 (blocks.map (·.numRows))
  let colStarts := blockStarts 0 (blocks.map (·.numCols))
  let placed := (blocks.zip rowStarts).zip colStarts
  placed.foldl (fun A p => A.setBlock p.1.2 p.2 p.1.1)
    (zero format (totalSize (blocks.map (·.numRows))) (totalSize (blocks.map (·.numCols))))

/-- Largest absolute value of the entries, if there are any; an undefined entry wins. -/
def largestEntry (A : DenseMatrix α) : α :=
  A.entries.foldl (fun m x => Scalar.larger m (Scalar.abs x)) 0

/-- Frobenius norm. -/
def frobeniusNorm (A : DenseMatrix α) : α :=
  Vec.norm A.entries

end DenseMatrix

end ConvexContact
