import ConvexContact.Decimal.Binary

/-!
# Doubles nearest to exact numbers

**Input.**  A quotient of natural numbers, a whole number, or decimal digits with an exponent.

**Result.**  The nearest double, where a tie goes to the even neighbour; numbers beyond all doubles
become infinite.
-/

namespace ConvexContact
namespace Decimal

namespace Quotient

/-- The largest integer `e` with `2 ^ e` at most the quotient, which is positive. -/
def binaryExponent (q : Quotient) : Int :=
  let e : Int := (Nat.log2 q.num : Int) - (Nat.log2 q.den : Int)
  if q.den * Nat.pow 2 e.toNat ≤ q.num * Nat.pow 2 (-e).toNat then e else e - 1

/-- The double nearest to a quotient.  It is a multiple of the unit that gives 53 binary digits,
or of the least positive double. -/
def toFloat (q : Quotient) : Float :=
  if q.num = 0 ∨ q.den = 0 then 0
  else
    let unit := max (q.binaryExponent - 52) (-1074)
    (Float.ofNat (q.shift (-unit)).nearest).scaleB unit

end Quotient

/-- The double nearest to a whole number. -/
def ofInt (n : Int) : Float :=
  let x := Quotient.toFloat ⟨n.natAbs, 1⟩
  if n < 0 then -x else x

/-- The double nearest to `digits * 10 ^ exponent`. -/
def ofDigits (digits : Nat) (exponent : Int) : Float :=
  if digits = 0 then 0
  else
    let size : Int := (Quotient.numDigits digits : Int) + exponent
    if size < -400 then 0
    else if 400 < size then 1 / 0
    else Quotient.toFloat (Quotient.scale ⟨digits, 1⟩ exponent)

/-- Whether a double is neither infinite nor undefined. -/
def isFinite (x : Float) : Bool :=
  match Binary.ofFloat x with
  | .finite .. => true
  | _ => false

end Decimal
end ConvexContact
