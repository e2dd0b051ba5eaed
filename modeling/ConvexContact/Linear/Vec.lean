import ConvexContact.Error
import ConvexContact.Scalar

/-!
# Vectors

A vector is the list of its coordinates.  The functions here are total; where two vectors have
different sizes the shorter one decides, and callers for which this would be wrong use
`Vec.broadcast`, which refuses such operands.
-/

namespace ConvexContact
namespace Vec

variable {α : Type} [Scalar α]

/-- Sum of a list, from the left. -/
def sum (xs : List α) : α :=
  xs.foldl (· + ·) 0

/-- Sum of `f 0, …, f (n - 1)`. -/
def sumRange (n : Nat) (f : Nat → α) : α :=
  sum ((List.range n).map f)

def add (x y : List α) : List α :=
  List.zipWith (· + ·) x y

def sub (x y : List α) : List α :=
  List.zipWith (· - ·) x y

def neg (x : List α) : List α :=
  x.map (- ·)

/-- Scalar multiple. -/
def smul (c : α) (x : List α) : List α :=
  x.map (c * ·)

/-- Inner product. -/
def dot (x y : List α) : α :=
  sum (List.zipWith (· * ·) x y)

/-- Euclidean norm; that of a single coordinate is its absolute value, which needs no square. -/
def norm : List α → α
  | [a] => Scalar.abs a
  | x => Scalar.sqrt (dot x x)

/-- The zero vector. -/
def zero (n : Nat) : List α :=
  List.replicate n 0

/-- The interval of `n` coordinates from `start` on. -/
def slice {β : Type} (start n : Nat) (x : List β) : List β :=
  (x.drop start).take n

/-- Consecutive intervals of the given sizes. -/
def split {β : Type} : List Nat → List β → List (List β)
  | [], _ => []
  | n :: ns, x => x.take n :: split ns (x.drop n)

/-- Coordinatewise operation.  A vector with a single coordinate is repeated to the size of the
other one; any other difference in size is refused. -/
def broadcast (f : α → α → α) (x y : List α) : Except Error (List α) :=
  if x.length = y.length then .ok (List.zipWith f x y)
  else match x, y with
    | [a], _ => .ok (y.map (f a ·))
    | _, [b] => .ok (x.map (f · b))
    | _, _ => .error .operands

/-- Inner product of vectors of one size. -/
def dot? (x y : List α) : Except Error α :=
  if x.length = y.length then .ok (dot x y) else .error .operands

@[simp] theorem length_add (x y : List α) :
    (add x y).length = min x.length y.length := by
  simp [add]

@[simp] theorem length_sub (x y : List α) :
    (sub x y).length = min x.length y.length := by
  simp [sub]

@[simp] theorem length_neg (x : List α) : (neg x).length = x.length := by
  simp [neg]

@[simp] theorem length_smul (c : α) (x : List α) : (smul c x).length = x.length := by
  simp [smul]

@[simp] theorem length_zero (n : Nat) : (zero n : List α).length = n := by
  simp [zero]

@[simp] theorem length_split {β : Type} (ns : List Nat) (x : List β) :
    (split ns x).length = ns.length := by
  induction ns generalizing x with
  | nil => rfl
  | cons n ns ih => simp [split, ih]

omit [Scalar α] in
theorem broadcast_of_length_eq (f : α → α → α) {x y : List α} (h : x.length = y.length) :
    broadcast f x y = .ok (List.zipWith f x y) := by
  simp [broadcast, h]

end Vec

end ConvexContact
