import ConvexContact.Tensor

/-!
# Contact frames

**Input.**  The normal of a contact in world coordinates.

**Result.**  A frame whose rows are two tangents and the unit normal.  The first tangent is the
cross product of the normal with the coordinate axis in which the normal is smallest, so that it
cannot vanish; the second completes the frame.

A vector is normalised by dividing it by its length, or by `10⁻¹²` if it is shorter than that.
-/

namespace ConvexContact

open Scalar

/-- A vector in world coordinates. -/
structure WorldVector (α : Type) where
  x : α
  y : α
  z : α

namespace WorldVector

variable {α : Type}

def toList (v : WorldVector α) : List α :=
  [v.x, v.y, v.z]

variable [Scalar α]

def cross (v w : WorldVector α) : WorldVector α :=
  ⟨v.y * w.z - v.z * w.y, v.z * w.x - v.x * w.z, v.x * w.y - v.y * w.x⟩

/-- Euclidean length. -/
def norm (v : WorldVector α) : α :=
  sqrt (v.x * v.x + v.y * v.y + v.z * v.z)

/-- Shortest length by which a vector is divided. -/
def shortest : α :=
  1 / 1000000000000

/-- The vector of length one in the same direction, unless the vector is too short. -/
def normalize (v : WorldVector α) : WorldVector α :=
  let length := larger v.norm shortest
  ⟨v.x / length, v.y / length, v.z / length⟩

/-- Whether `x` comes before `y` when the smallest is looked for; an undefined number comes before
all others. -/
def Precedes (x y : α) : Prop :=
  x < y ∨ (¬ x ≤ x ∧ y ≤ y)

instance (x y : α) : Decidable (Precedes x y) :=
  inferInstanceAs (Decidable (_ ∨ _))

/-- The coordinate axis in which a vector is smallest, the first of equally good ones. -/
def smallestAxis (v : WorldVector α) : WorldVector α :=
  let a := abs v.x
  let b := abs v.y
  let c := abs v.z
  if Precedes b a then
    if Precedes c b then ⟨0, 0, 1⟩ else ⟨0, 1, 0⟩
  else if Precedes c a then ⟨0, 0, 1⟩
  else ⟨1, 0, 0⟩

/-- A vector orthogonal to a given one. -/
def orthogonal (v : WorldVector α) : WorldVector α :=
  v.smallestAxis.cross v

end WorldVector

/-- Two tangents and a normal. -/
structure ContactFrame (α : Type) where
  tangent₁ : WorldVector α
  tangent₂ : WorldVector α
  normal : WorldVector α

namespace ContactFrame

variable {α : Type} [Scalar α]

/-- The frame of a normal direction. -/
def ofDirection (v : WorldVector α) : ContactFrame α :=
  let n := v.normalize
  let t := n.orthogonal.normalize
  ⟨t, n.cross t, n⟩

/-- The matrix that takes world coordinates to those of the frame. -/
def toMatrix (format : Format) (F : ContactFrame α) : DenseMatrix α :=
  let rows := [F.tangent₁.toList, F.tangent₂.toList, F.normal.toList]
  DenseMatrix.tabulate format 3 3 fun i j => (rows.getD i []).getD j 0

/-- The vector in a tensor, if it has three coordinates. -/
def worldVector? (v : Tensor α) : Option (WorldVector α) :=
  match v.vector? with
  | some [x, y, z] => some ⟨x, y, z⟩
  | _ => none

/-- The entry that comes first when the smallest is looked for, each with its position. -/
def smaller (best next : α × Nat) : α × Nat :=
  if WorldVector.Precedes (Scalar.abs next.1) (Scalar.abs best.1) then next else best

/-- Position of the entry in which a list is smallest, the first of equally good ones. -/
def smallestPosition : List α → Nat
  | [] => 0
  | x :: xs => ((xs.zipIdx 1).foldl smaller (x, 0)).2

/-- The cross products of consecutive vectors in two lists of coordinates. -/
def crossAll : List α → List α → List α
  | a :: b :: c :: v, x :: y :: z :: w =>
      ((⟨a, b, c⟩ : WorldVector α).cross ⟨x, y, z⟩).toList ++ crossAll v w
  | _, _ => []

/-- Vectors orthogonal to those in a tensor, which are taken along its last size.  The position of
the smallest entry tells the sub-tensor whose vectors are crossed with the vector of ones; for a
single vector it tells the axis. -/
def orthogonalTensor (v : Tensor α) : Except Error (Tensor α) :=
  match worldVector? v, v.shape with
  | some u, _ => .ok (Tensor.ofVec v.format u.orthogonal.toList)
  | none, [] => .error .position
  | none, n :: rest =>
      let k := smallestPosition v.entries
      if v.entries.isEmpty ∨ n ≤ k then .error .position
      else if v.shape.getLast? ≠ some 3 then .error .operands
      else
        let marks := v.entries.mapIdx fun i _ => if i / Tensor.size rest = k then 1 else 0
        .ok (Tensor.ofEntries v.format v.shape (crossAll marks v.entries))

/-- The frame of the normal in a tensor. -/
def ofNormal (normal : Tensor α) : Except Error (DenseMatrix α) :=
  match worldVector? normal with
  | none => .error (.normalNotVector normal.shape)
  | some v =>
      if IsZero v.norm then .error .zeroNormal
      else .ok ((ofDirection v).toMatrix normal.format)

/-- The Jacobian of a contact point in world coordinates, which has three rows. -/
def worldJacobian (format : Format) (J : Tensor α) : Except Error (DenseMatrix α) :=
  match (J.cast format).matrix? with
  | none => .error (.worldJacobianShape J.shape)
  | some A => if A.numRows ≠ 3 then .error (.worldJacobianShape J.shape) else .ok A

/-- The Jacobian of a contact point in the coordinates of a frame. -/
def jacobian (R : DenseMatrix α) (J : Tensor α) : Except Error (DenseMatrix α) := do
  let A ← worldJacobian R.format J
  if R.numCols ≠ 3 then .error .operands else .ok (R.mul A)

/-- The rows of a tensor, taken along its last size, times the Jacobian of a contact point. -/
def jacobianTensor (R J : Tensor α) : Except Error (Tensor α) := do
  let A ← worldJacobian R.format J
  match R.shape.reverse with
  | 3 :: outer =>
      let rows := Vec.split (List.replicate (Tensor.size outer) 3) R.entries
      .ok (Tensor.ofEntries R.format (outer.reverse ++ [A.numCols])
        (rows.flatMap A.transpose.mulVec))
  | _ => .error .operands

end ContactFrame

end ConvexContact
