import ConvexContact.Decimal.Binary

/-!
# Numbers on a common decimal grid

A list of machine numbers is given by integers on one grid: entry `i` is `num i * 10 ^ exponent`.
The grid is as fine as a number of digits for the largest entry allows; entries that are not
finite stand apart.
-/

namespace ConvexContact
namespace Decimal

/-- An entry of a grid. -/
inductive GridEntry
  | point (n : Int)
  | undefined
  | infinite (negative : Bool)
  deriving DecidableEq, Repr

/-- Integers on a common decimal grid. -/
structure Grid where
  exponent : Int
  entries : List GridEntry
  deriving DecidableEq, Repr

namespace Grid

/-- The larger magnitude of a quotient and a machine number, if that is finite. -/
def largest (q : Quotient) : Binary → Quotient
  | .finite _ mantissa exponent =>
      let p := Binary.magnitude mantissa exponent
      if q.lt p then p else q
  | _ => q

/-- The exponent of the grid for numbers whose largest magnitude is `m`: with `e` the largest
integer with `10 ^ e ≤ 1.9 * m`, numbers have `digits` digits from `10 ^ e` on. -/
def exponentFor (digits : Nat) (m : Quotient) : Int :=
  if m.num = 0 then 0
  else Quotient.exponent ⟨19 * m.num, 10 * m.den⟩ + 1 - digits

/-- The nearest point of the grid, ties to even. -/
def entryOf (exponent : Int) : Binary → GridEntry
  | .undefined => .undefined
  | .infinite negative => .infinite negative
  | .finite negative mantissa e =>
      let n : Int := ((Binary.magnitude mantissa e).scale (-exponent)).nearest
      .point (if negative then -n else n)

/-- The grid of a list of machine numbers. -/
def ofFloats (digits : Nat) (xs : List Float) : Grid :=
  let values := xs.map Binary.ofFloat
  let exponent := exponentFor digits (values.foldl largest ⟨0, 1⟩)
  ⟨exponent, values.map (entryOf exponent)⟩

end Grid

end Decimal
end ConvexContact
