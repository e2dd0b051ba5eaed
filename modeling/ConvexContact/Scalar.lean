import ConvexContact.Error

/-!
# Scalars

Every numeric definition of this library is written once, over an arbitrary type of *scalars*,
and is then used with several of them: numbers of a machine format, dual numbers (a value
together with a directional derivative), and real numbers.

**Operations.**  A scalar type has the four operations, the elementary functions that contact
problems need, and an order that can be decided.  Nothing is assumed about them: the order of
machine numbers is partial, and their arithmetic is neither associative nor exact.

**Formats.**  The entries of a tensor are kept in one of two binary formats.  `Scalar.round`
moves a scalar to a format; a scalar type without formats takes it to be the identity.

**Operands.**  A parameter may be known without being fit for arithmetic, such as one that was
given as a text.  `Scalar.operand` refuses it; definitions ask for it where they compute with a
parameter that a user has given.

**Derived operations.**  `Scalar.abs`, `Scalar.larger`, `Scalar.atMost` and `Scalar.IsZero` are
stated by comparisons alone, so that they mean the same in every scalar type.
-/

namespace ConvexContact

/-- Binary formats of tensor entries. -/
inductive Format
  | single
  | double
  deriving DecidableEq, Inhabited, Repr

namespace Format

/-- The wider of two formats. -/
def join : Format → Format → Format
  | single, f => f
  | double, _ => double

@[simp] theorem join_self (f : Format) : f.join f = f := by
  cases f <;> rfl

theorem join_comm (f g : Format) : f.join g = g.join f := by
  cases f <;> cases g <;> rfl

end Format

/-- Operations shared by all types of numbers in which contact problems are stated. -/
class Scalar (α : Type) where
  add : α → α → α
  sub : α → α → α
  mul : α → α → α
  div : α → α → α
  neg : α → α
  lt : α → α → Prop
  le : α → α → Prop
  toString : α → String
  /-- The scalar of a natural number. -/
  ofNat : Nat → α
  /-- Half the circumference of the unit circle. -/
  pi : α
  /-- The reciprocal. -/
  inverse : α → α
  sqrt : α → α
  exp : α → α
  sin : α → α
  cos : α → α
  tan : α → α
  atan : α → α
  /-- The angle of the point `(x, y)`, given as `atan2 y x`. -/
  atan2 : α → α → α
  /-- The scalar itself, if it can be computed with. -/
  operand : α → Except Error α
  /-- The nearest number of a format. -/
  round : Format → α → α
  /-- The least positive normal number in the format of the argument. -/
  tiny : α → α
  /-- The gap between one and the next number of a format. -/
  epsilon : Format → α
  decidableLT : ∀ x y : α, Decidable (lt x y)
  decidableLE : ∀ x y : α, Decidable (le x y)

namespace Scalar

variable {α : Type} [Scalar α]

-- The priorities are low, so that a type with operations of its own is read with those.
instance (priority := low) instAdd : Add α :=
  ⟨add⟩

instance (priority := low) instSub : Sub α :=
  ⟨sub⟩

instance (priority := low) instMul : Mul α :=
  ⟨mul⟩

instance (priority := low) instDiv : Div α :=
  ⟨div⟩

instance (priority := low) instNeg : Neg α :=
  ⟨neg⟩

instance (priority := low) instLT : LT α :=
  ⟨lt⟩

instance (priority := low) instLE : LE α :=
  ⟨le⟩

instance (priority := low) instToString : ToString α :=
  ⟨toString⟩

instance (priority := 50) instOfNat (n : Nat) : OfNat α n :=
  ⟨ofNat n⟩

instance (priority := low) instDecidableLT (x y : α) : Decidable (x < y) :=
  decidableLT x y

instance (priority := low) instDecidableLE (x y : α) : Decidable (x ≤ y) :=
  decidableLE x y

/-- Zero, of either sign. -/
def IsZero (x : α) : Prop :=
  x ≤ 0 ∧ 0 ≤ x

instance (x : α) : Decidable (IsZero x) :=
  inferInstanceAs (Decidable (x ≤ 0 ∧ 0 ≤ x))

/-- Absolute value. -/
def abs (x : α) : α :=
  if x < 0 then -x else x

/-- The larger of two scalars.  Of two scalars that cannot be compared it is the second, made
undefined by the first. -/
def larger (x y : α) : α :=
  if y ≤ x then x else if x ≤ y then y else y + (x - x)

/-- A scalar cut off at an upper bound. -/
def atMost (bound x : α) : α :=
  if bound < x then bound else x

/-- The square of a scalar. -/
def square (x : α) : α :=
  x * x

/-- The cube of a scalar. -/
def cube (x : α) : α :=
  x * x * x

/-- One half. -/
def half : α :=
  1 / 2

end Scalar

end ConvexContact
