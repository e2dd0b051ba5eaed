/-!
# Exact values of machine numbers

**Input.**  A number of the binary formats with 64 or 32 bits.

**Output.**  Its exact value: a sign and a natural number times a power of two, or one of the
three special values.  A finite value is then handled as a quotient of natural numbers, so that
every question about its decimal digits is decided by integer arithmetic.

**Results.**
* `Quotient.nearest`: the nearest integer to a quotient, where a tie goes to the even neighbour.
* `Quotient.exponent`: the decimal exponent of a positive quotient.
-/

namespace ConvexContact
namespace Decimal

/-- Exact value of a machine number; a finite one is `± mantissa * 2 ^ exponent`. -/
inductive Binary
  | undefined
  | infinite (negative : Bool)
  | finite (negative : Bool) (mantissa : Nat) (exponent : Int)
  deriving DecidableEq, Repr, Inhabited

/-- A quotient of natural numbers; the denominator is positive wherever one is built. -/
structure Quotient where
  num : Nat
  den : Nat
  deriving DecidableEq, Repr

namespace Quotient

/-- Number of decimal digits; zero has one. -/
def numDigits (n : Nat) : Nat :=
  if n < 10 then 1 else numDigits (n / 10) + 1

/-- The quotient times a power of ten. -/
def scale (q : Quotient) (power : Int) : Quotient :=
  ⟨q.num * Nat.pow 10 power.toNat, q.den * Nat.pow 10 (-power).toNat⟩

/-- The quotient times a power of two. -/
def shift (q : Quotient) (power : Int) : Quotient :=
  ⟨q.num * Nat.pow 2 power.toNat, q.den * Nat.pow 2 (-power).toNat⟩

/-- The order of quotients. -/
def le (p q : Quotient) : Bool :=
  decide (p.num * q.den ≤ q.num * p.den)

/-- The strict order of quotients. -/
def lt (p q : Quotient) : Bool :=
  decide (p.num * q.den < q.num * p.den)

/-- Distance of two quotients. -/
def distance (p q : Quotient) : Quotient :=
  let a := p.num * q.den
  let b := q.num * p.den
  ⟨(a - b) + (b - a), p.den * q.den⟩

/-- The largest integer below a quotient. -/
def floor (q : Quotient) : Nat :=
  q.num / q.den

/-- The nearest integer; a tie goes to the even neighbour. -/
def nearest (q : Quotient) : Nat :=
  let low := q.num / q.den
  let rest := 2 * (q.num % q.den)
  if rest < q.den then low
  else if q.den < rest then low + 1
  else if low % 2 = 0 then low else low + 1

/-- The largest integer `e` with `10 ^ e` at most the quotient, which is positive. -/
def exponent (q : Quotient) : Int :=
  let e : Int := (numDigits q.num : Int) - (numDigits q.den : Int)
  if q.den * Nat.pow 10 e.toNat ≤ q.num * Nat.pow 10 (-e).toNat then e else e - 1

end Quotient

namespace Binary

/-- The value of a bit pattern with the given numbers of exponent and fraction bits. -/
def ofBits (exponentBits fractionBits : Nat) (bits : Nat) : Binary :=
  let fraction := bits % Nat.pow 2 fractionBits
  let field := bits / Nat.pow 2 fractionBits % Nat.pow 2 exponentBits
  let negative := bits / Nat.pow 2 (fractionBits + exponentBits) % 2 = 1
  let least : Int := 2 - Nat.pow 2 (exponentBits - 1) - fractionBits
  if field = Nat.pow 2 exponentBits - 1 then
    if fraction = 0 then infinite negative else undefined
  else if field = 0 then finite negative fraction least
  else finite negative (Nat.pow 2 fractionBits + fraction) (least + field - 1)

/-- The exact value of a number of the double format. -/
def ofFloat (x : Float) : Binary :=
  ofBits 11 52 x.toBits.toNat

/-- The exact magnitude of a finite value. -/
def magnitude (mantissa : Nat) (exponent : Int) : Quotient :=
  Quotient.shift ⟨mantissa, 1⟩ exponent

/-- A finite value without its fraction. -/
def truncate? : Binary → Option Int
  | finite negative mantissa exponent =>
      let n : Int := (magnitude mantissa exponent).floor
      some (if negative then -n else n)
  | _ => none

/-- How a whole number compares with a value, unless the value is undefined. -/
def compareWhole? (n : Int) : Binary → Option Ordering
  | undefined => none
  | infinite negative => some (if negative then .gt else .lt)
  | finite negative mantissa exponent =>
      let q := magnitude mantissa exponent
      let num : Int := q.num
      some (compare (n * q.den) (if negative then -num else num))

end Binary

end Decimal
end ConvexContact
