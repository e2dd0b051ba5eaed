import ConvexContact.Linear.DenseMatrix

/-!
# Tensors

A tensor has a shape, a list of sizes, and as many entries as the product of the sizes, the last
index running fastest.  Tensors are what callers hand in and receive; a computation takes the
vector or the matrix out of a tensor and works with that.

**Formats.**  The entries of a tensor are numbers of one format.  Where two tensors meet, the
result is in the wider format, except that a tensor without sizes follows one that has some.

**Operands.**  Sizes are aligned at the end of the shapes; they fit if they are equal or one of
them is one.  Operands that do not fit are refused.
-/

namespace ConvexContact

/-- An array of numbers of one format. -/
structure Tensor (α : Type) where
  format : Format
  shape : List Nat
  entries : List α
  length_entries : entries.length = shape.foldr (· * ·) 1

namespace Tensor

variable {α : Type} [Scalar α]

/-- Number of entries of a tensor of a shape. -/
def size (shape : List Nat) : Nat :=
  shape.foldr (· * ·) 1

/-- The tensor whose entry at each position is given. -/
def tabulate (format : Format) (shape : List Nat) (f : Nat → α) : Tensor α where
  format := format
  shape := shape
  entries := (List.range (size shape)).map fun k => Scalar.round format (f k)
  length_entries := by simp [size]

/-- The tensor with the given entries, where missing ones are zero. -/
def ofEntries (format : Format) (shape : List Nat) (xs : List α) : Tensor α :=
  if h : xs.length = size shape then
    ⟨format, shape, xs.map (Scalar.round format), by simp [h, size]⟩
  else tabulate format shape fun k => xs.getD k 0

/-- A tensor without sizes. -/
def ofScalar (format : Format) (x : α) : Tensor α :=
  ofEntries format [] [x]

/-- A tensor with one size. -/
def ofVec (format : Format) (xs : List α) : Tensor α :=
  ofEntries format [xs.length] xs

/-- A tensor with two sizes. -/
def ofMatrix (A : DenseMatrix α) : Tensor α :=
  ofEntries A.format [A.numRows, A.numCols] A.entries

/-- The number of sizes. -/
def rank (t : Tensor α) : Nat :=
  t.shape.length

/-- The tensor in another format. -/
def cast (format : Format) (t : Tensor α) : Tensor α where
  format := format
  shape := t.shape
  entries := t.entries.map (Scalar.round format)
  length_entries := by simp [t.length_entries]

/-- Every entry changed. -/
def map {β : Type} (f : α → β) (t : Tensor α) : Tensor β where
  format := t.format
  shape := t.shape
  entries := t.entries.map f
  length_entries := by simp [t.length_entries]

/-- The first size. -/
def leadingSize (t : Tensor α) : Except Error Nat :=
  match t.shape with
  | [] => .error .position
  | n :: _ => .ok n

/-- The coordinates of a tensor with one size. -/
def vector? (t : Tensor α) : Option (List α) :=
  match t.shape with
  | [_] => some t.entries
  | _ => none

/-- The matrix in a tensor with two sizes. -/
def matrix? (t : Tensor α) : Option (DenseMatrix α) :=
  match t.shape with
  | [m, n] =>
      let rows := Vec.split (List.replicate m n) t.entries
      some (DenseMatrix.tabulate t.format m n fun i j => (rows.getD i []).getD j 0)
  | _ => none

/-- The sub-tensors at the positions of the first size, as lists of entries. -/
def slices (t : Tensor α) : List (List α) :=
  match t.shape with
  | [] => []
  | n :: rest => Vec.split (List.replicate n (size rest)) t.entries

/-- The tensor with the given sub-tensors of one shape. -/
def ofSlices (format : Format) (rest : List Nat) (parts : List (List α)) : Tensor α :=
  ofEntries format (parts.length :: rest) parts.flatten

/-- The sub-tensors from position `start` on. -/
def interval (t : Tensor α) (start n : Nat) : Tensor α :=
  ofSlices t.format t.shape.tail (Vec.slice start n t.slices)

/-- Sizes of the result of an operation on two tensors, aligned at the ends. -/
def alignSizes : List Nat → List Nat → Except Error (List Nat)
  | [], ns => .ok ns
  | ms, [] => .ok ms
  | m :: ms, n :: ns =>
      if m = n ∨ n = 1 then (alignSizes ms ns).map (m :: ·)
      else if m = 1 then (alignSizes ms ns).map (n :: ·)
      else .error .operands

/-- Position in a tensor of an entry of the result of an operation; both shapes and the digits of
the position are given from the last size on. -/
def alignedPosition : List Nat → List Nat → Nat → Nat
  | [], _, _ => 0
  | _, [], _ => 0
  | m :: ms, n :: ns, k =>
      (if m = 1 then 0 else k % n) + m * alignedPosition ms ns (k / n)

/-- The format in which two tensors meet. -/
def meetFormat (s t : Tensor α) : Format :=
  match s.shape, t.shape with
  | [], _ :: _ => t.format
  | _ :: _, [] => s.format
  | _, _ => s.format.join t.format

/-- Operation on entries of aligned tensors. -/
def zipWith (f : α → α → α) (s t : Tensor α) : Except Error (Tensor α) :=
  match alignSizes s.shape.reverse t.shape.reverse with
  | .error e => .error e
  | .ok sizes =>
      let format := meetFormat s t
      let xs := (s.cast format).entries
      let ys := (t.cast format).entries
      .ok (tabulate format sizes.reverse fun k =>
        f (xs.getD (alignedPosition s.shape.reverse sizes k) 0)
          (ys.getD (alignedPosition t.shape.reverse sizes k) 0))

/-- Sum of aligned tensors. -/
def add (s t : Tensor α) : Except Error (Tensor α) :=
  zipWith (· + ·) s t

/-- Product of a matrix with a vector, or with a tensor that holds matrices in its last two
sizes.  Both operands have to be of one format. -/
def matMul (A : DenseMatrix α) (t : Tensor α) : Except Error (Tensor α) :=
  if A.format ≠ t.format then .error .operands
  else match t.shape.reverse with
    | [] => .error .operands
    | [k] =>
        if k = A.numCols then .ok (ofVec t.format (A.mulVec t.entries)) else .error .operands
    | n :: k :: outer =>
        if k = A.numCols then
          let batch := Vec.split (List.replicate (size outer) (k * n)) t.entries
          let product (xs : List α) : List α :=
            (DenseMatrix.mul A (DenseMatrix.tabulate t.format k n fun i j =>
              xs.getD (i * n + j) 0)).entries
          .ok (ofEntries t.format (outer.reverse ++ [A.numRows, n]) (batch.flatMap product))
        else .error .operands

/-- Tensors one after the other along their first size, in the widest of their formats.  Empty
vectors fit everywhere; otherwise all other sizes have to agree. -/
def concat (parts : List (Tensor α)) : Except Error (Tensor α) :=
  let format := (parts.map (·.format)).foldl Format.join .single
  if parts.any (·.shape.isEmpty) then .error .operands
  else match parts.filter (fun t => t.shape ≠ [0]) with
    | [] => .ok (ofEntries format [0] [])
    | first :: others =>
        if others.all (fun t => t.shape.tail = first.shape.tail ∧ t.rank = first.rank) then
          .ok (ofSlices format first.shape.tail ((first :: others).flatMap slices))
        else .error .operands

end Tensor

end ConvexContact
