import ConvexContact.PartialPermutation.Tables
import ConvexContact.Tensor

/-!
# Moving the rows of a tensor by tables

The sub-tensors of a tensor along its first size are its rows.  `apply` selects the rows at the
indices in the table of indices, one after the other.  `applyInverse` writes rows to these indices,
one after the other, over the rows of a second tensor, or over zeros if none is given.
-/

namespace ConvexContact
namespace IndexTables

/-- Members written to positions of a list, one after the other. -/
def write {β : Type} : List Nat → List β → List β → List β
  | i :: positions, x :: values, base => write positions values (base.set i x)
  | _, _, base => base

variable {α : Type} [Scalar α]

/-- The rows at the indices of the new places. -/
def apply (t : IndexTables) (x : Tensor α) : Except Error (Tensor α) := do
  let n ← x.leadingSize
  if n ≠ t.domainSize then .error (.leadingSizeMismatch t.domainSize n)
  else do
    let rows ← t.inverse.mapM fun (i : Nat) => entryAt? x.slices i
    .ok (Tensor.ofSlices x.format x.shape.tail rows)

/-- The rows over which rows are written: those of a tensor that fits, or zeros. -/
def baseRows (t : IndexTables) (x : Tensor α) : Option (Tensor α) → Except Error (List (List α))
  | none => .ok (List.replicate t.domainSize (List.replicate (Tensor.size x.shape.tail) 0))
  | some base => do
      let n ← base.leadingSize
      if n ≠ t.domainSize then .error (.leadingSizeMismatch t.domainSize n)
      else if base.rank ≠ x.rank then .error .position
      else if base.format ≠ x.format ∨ base.shape.tail ≠ x.shape.tail then .error .operands
      else .ok base.slices

/-- The rows of a tensor with those at the indices of the new places replaced. -/
def applyInverse (t : IndexTables) (x : Tensor α) (base? : Option (Tensor α)) :
    Except Error (Tensor α) := do
  let m ← x.leadingSize
  if m ≠ t.permutedSize then .error (.leadingSizeMismatch t.permutedSize m)
  else do
    let rows ← t.baseRows x base?
    .ok (Tensor.ofSlices x.format x.shape.tail (write t.inverse x.slices rows))

end IndexTables
end ConvexContact
