import ConvexContact.PartialPermutation
import ConvexContact.Tensor

/-!
# Moving the rows of a tensor

The sub-tensors of a tensor along its first size are moved by a partial permutation: `apply` takes
the selected ones, `applyInverse` writes them back over a given tensor or over zeros.
-/

namespace ConvexContact
namespace PartialPermutation

variable {α : Type} [Scalar α]

/-- The selected rows of a tensor, in their new order. -/
def apply (p : PartialPermutation) (x : Tensor α) : Except Error (Tensor α) := do
  let n ← x.leadingSize
  if n ≠ p.domainSize then .error (.leadingSizeMismatch p.domainSize n)
  else .ok (Tensor.ofSlices x.format x.shape.tail (p.gather x.slices))

/-- Rows written back to their places over the rows of a second tensor, which are zero if none is
given. -/
def applyInverse (p : PartialPermutation) (x : Tensor α) (base? : Option (Tensor α)) :
    Except Error (Tensor α) := do
  let m ← x.leadingSize
  if m ≠ p.permutedSize then .error (.leadingSizeMismatch p.permutedSize m)
  else
    let rest := x.shape.tail
    match base? with
    | none =>
        let zeros := List.replicate p.domainSize (List.replicate (Tensor.size rest) 0)
        .ok (Tensor.ofSlices x.format rest (p.scatter x.slices zeros))
    | some base =>
        let n ← base.leadingSize
        if n ≠ p.domainSize then .error (.leadingSizeMismatch p.domainSize n)
        else if base.rank ≠ x.rank then .error .position
        else if base.format ≠ x.format ∨ base.shape.tail ≠ rest then .error .operands
        else .ok (Tensor.ofSlices x.format rest (p.scatter x.slices base.slices))

end PartialPermutation
end ConvexContact
