import ConvexContact.Scalar

/-!
# Dual numbers

A dual number stands for `a + b ε` with `ε² = 0`.  Arithmetic on dual numbers carries a directional
derivative along with a value: a definition over scalars, evaluated at `⟨x, some dx⟩`, gives its
value at `x` and the derivative of the branch taken in direction `dx`.

**Constants.**  A number without tangent does not vary, and adds no term to the tangents of what
is computed with it.  This is not the same as a tangent of zero, whose product with an infinite
number is undefined.

**Comparisons** look at the values alone, so a dual evaluation takes the branches that the plain
evaluation takes.
-/

namespace ConvexContact

/-- A value with a tangent, unless it is constant. -/
structure Dual (α : Type) where
  value : α
  tangent? : Option α
  deriving Repr, DecidableEq

namespace Dual

variable {α : Type}

/-- The sum of two terms of a tangent, of which either may be missing. -/
def addTerms [Add α] : Option α → Option α → Option α
  | some a, some b => some (a + b)
  | some a, none => some a
  | none, b? => b?

variable [Scalar α]

/-- A scalar that does not vary. -/
def const (x : α) : Dual α :=
  ⟨x, none⟩

/-- The tangent; that of a constant is zero. -/
def tangent (x : Dual α) : α :=
  x.tangent?.getD 0

/-- A function of one variable with its derivative as a function of the tangent. -/
def lift (x : Dual α) (value : α) (derivative : α → α) : Dual α :=
  ⟨value, x.tangent?.map derivative⟩

instance : Scalar (Dual α) where
  add x y := ⟨x.value + y.value, addTerms x.tangent? y.tangent?⟩
  sub x y := ⟨x.value - y.value, addTerms x.tangent? (y.tangent?.map (- ·))⟩
  mul x y :=
    ⟨x.value * y.value, addTerms (x.tangent?.map (· * y.value)) (y.tangent?.map (x.value * ·))⟩
  div x y :=
    let q := x.value / y.value
    ⟨q, (addTerms x.tangent? (y.tangent?.map fun dy => -(dy * q))).map (· / y.value)⟩
  neg x := x.lift (-x.value) (- ·)
  lt x y := x.value < y.value
  le x y := x.value ≤ y.value
  toString x := toString x.value
  ofNat n := const (Scalar.ofNat n)
  pi := const Scalar.pi
  inverse x :=
    let q := Scalar.inverse x.value
    x.lift q fun dx => -(dx * (q * q))
  sqrt x :=
    let s := Scalar.sqrt x.value
    x.lift s (· / (2 * s))
  exp x :=
    let e := Scalar.exp x.value
    x.lift e (· * e)
  sin x := x.lift (Scalar.sin x.value) (· * Scalar.cos x.value)
  cos x := x.lift (Scalar.cos x.value) fun dx => -(dx * Scalar.sin x.value)
  tan x :=
    let t := Scalar.tan x.value
    x.lift t (· * (1 + Scalar.square t))
  atan x := x.lift (Scalar.atan x.value) (· / (Scalar.square x.value + 1))
  atan2 y x :=
    ⟨Scalar.atan2 y.value x.value,
      (addTerms (y.tangent?.map (x.value * ·)) (x.tangent?.map fun dx => -(y.value * dx))).map
        (· / (Scalar.square y.value + Scalar.square x.value))⟩
  operand x := (Scalar.operand x.value).map (⟨·, x.tangent?⟩)
  round f x := x.lift (Scalar.round f x.value) (Scalar.round f)
  tiny x := const (Scalar.tiny x.value)
  epsilon f := const (Scalar.epsilon f)
  decidableLT x y := Scalar.decidableLT x.value y.value
  decidableLE x y := Scalar.decidableLE x.value y.value

end Dual

end ConvexContact
