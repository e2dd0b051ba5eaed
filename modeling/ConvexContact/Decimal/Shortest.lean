import ConvexContact.Decimal.Binary

/-!
# Decimal texts of machine numbers

**Shortest digits.**  Of all decimals that read back as a given double, `shortestDigits` takes one
with the fewest digits and, among those, the nearest.  The reals that read back as `m * 2 ^ e` are
those between the midpoints to the two neighbouring doubles; the midpoints belong to them exactly
when `m` is even.  On each decimal grid it suffices to look at the two grid points around the
value.

**Significant digits.**  `significantDigits` rounds a value to a given number of digits.

**Layout.**  Both kinds of digits are written by one function, `layout`, whose decisions are
collected in a `Style`.
-/

namespace ConvexContact
namespace Decimal

/-- Digits of a positive decimal `0.d₁d₂… * 10 ^ (exponent + 1)`, so that `exponent` is the power
of ten of the first digit. -/
structure Digits where
  digits : Nat
  exponent : Int
  deriving DecidableEq, Repr

/-- Where positional writing ends, and whether a whole number keeps a fraction. -/
structure Style where
  /-- Decimal exponents from `-4` up to this bound, exclusively, are written positionally. -/
  positionalBelow : Int
  /-- A positional number without a fraction is followed by `.0`. -/
  keepFraction : Bool

/-- The reals that read back as `mantissa * 2 ^ exponent`. -/
def readsBack (mantissa : Nat) (exponent : Int) (candidate : Quotient) : Bool :=
  let smallGapBelow := mantissa = Nat.pow 2 52 ∧ -1074 < exponent
  let low := Quotient.shift ⟨4 * mantissa - (if smallGapBelow then 1 else 2), 1⟩ (exponent - 2)
  let high := Quotient.shift ⟨4 * mantissa + 2, 1⟩ (exponent - 2)
  if mantissa % 2 = 0 then low.le candidate && candidate.le high
  else low.lt candidate && candidate.lt high

/-- The better of the two points around a value on the grid of multiples of `10 ^ power`, if one
of them reads back. -/
def gridPoint? (mantissa : Nat) (exponent : Int) (power : Int) : Option Nat :=
  let value := Binary.magnitude mantissa exponent
  let low := (value.scale (-power)).floor
  let point (n : Nat) : Quotient := Quotient.scale ⟨n, 1⟩ power
  match readsBack mantissa exponent (point low), readsBack mantissa exponent (point (low + 1)) with
  | false, false => none
  | true, false => some low
  | false, true => some (low + 1)
  | true, true =>
      let below := value.distance (point low)
      let above := value.distance (point (low + 1))
      if below.lt above then some low
      else if above.lt below then some (low + 1)
      else if low % 2 = 0 then some low else some (low + 1)

/-- The first grid with a point that reads back, tried from coarse to fine. -/
def firstGrid (mantissa : Nat) (exponent leading : Int) : List Nat → Digits
  | [] => ⟨mantissa, leading⟩
  | count :: rest =>
      match gridPoint? mantissa exponent (leading + 1 - count) with
      | some n =>
          if Nat.pow 10 count ≤ n then ⟨n / 10, leading + 1⟩ else ⟨n, leading⟩
      | none => firstGrid mantissa exponent leading rest

/-- Digits of the shortest decimal that reads back as a positive double. -/
def shortestDigits (mantissa : Nat) (exponent : Int) : Digits :=
  firstGrid mantissa exponent (Binary.magnitude mantissa exponent).exponent
    ((List.range 17).map (· + 1))

/-- A positive value rounded to a number of significant digits, ties to even. -/
def significantDigits (count mantissa : Nat) (exponent : Int) : Digits :=
  let value := Binary.magnitude mantissa exponent
  let leading := value.exponent
  let n := (value.scale (count - 1 - leading)).nearest
  if Nat.pow 10 count ≤ n then ⟨n / 10, leading + 1⟩ else ⟨n, leading⟩

/-- Decimal numeral of a natural number. -/
def numeral (n : Nat) : List Char :=
  Nat.toDigits 10 n

/-- A list of digits without the zeros at its end. -/
def dropTrailingZeros (digits : List Char) : List Char :=
  (digits.reverse.dropWhile (· = '0')).reverse

/-- A decimal exponent with its sign and at least two digits. -/
def exponentText (e : Int) : List Char :=
  let digits := numeral e.natAbs
  'e' :: (if e < 0 then '-' else '+') ::
    (if digits.length < 2 then '0' :: digits else digits)

/-- Writes the digits of a positive number. -/
def layout (style : Style) (d : Digits) : List Char :=
  let digits := dropTrailingZeros (numeral d.digits)
  if -4 ≤ d.exponent ∧ d.exponent < style.positionalBelow then
    let whole := if d.exponent < 0 then ['0'] else
      let count := d.exponent.toNat + 1
      digits.take count ++ List.replicate (count - digits.length) '0'
    let fraction := if d.exponent < 0
      then List.replicate (-d.exponent - 1).toNat '0' ++ digits
      else digits.drop (d.exponent.toNat + 1)
    if fraction.isEmpty then
      if style.keepFraction then whole ++ ['.', '0'] else whole
    else whole ++ '.' :: fraction
  else
    let mantissa := match digits with
      | [] => ['0']
      | [c] => [c]
      | c :: rest => c :: '.' :: rest
    mantissa ++ exponentText d.exponent

/-- Writes a machine number: special values by name, zero with its sign, and a finite value by
its digits. -/
def write (style : Style) (digits : Nat → Int → Digits) : Binary → String
  | .undefined => "nan"
  | .infinite negative => if negative then "-inf" else "inf"
  | .finite negative mantissa exponent =>
      let body := if mantissa = 0 then
          (if style.keepFraction then ['0', '.', '0'] else ['0'])
        else layout style (digits mantissa exponent)
      String.ofList (if negative then '-' :: body else body)

/-- A number with a fixed number of decimal places, ties to even. -/
def fixedPlaces (places : Nat) (x : Float) : String :=
  match Binary.ofFloat x with
  | .undefined => "nan"
  | .infinite negative => if negative then "-inf" else "inf"
  | .finite negative mantissa exponent =>
      let n := ((Binary.magnitude mantissa exponent).scale places).nearest
      let rest := numeral (n % Nat.pow 10 places)
      let body := numeral (n / Nat.pow 10 places) ++
        (if places = 0 then [] else
          '.' :: (List.replicate (places - rest.length) '0' ++ rest))
      String.ofList (if negative then '-' :: body else body)

/-- A number with one digit before the point, a fixed number of places and an exponent. -/
def scientificPlaces (places : Nat) (x : Float) : String :=
  match Binary.ofFloat x with
  | .undefined => "nan"
  | .infinite negative => if negative then "-inf" else "inf"
  | .finite negative mantissa exponent =>
      let d := if mantissa = 0 then ⟨0, 0⟩ else significantDigits (places + 1) mantissa exponent
      let digits := numeral d.digits
      let padded := digits ++ List.replicate (places + 1 - digits.length) '0'
      let body := match padded with
        | c :: rest => if rest.isEmpty then [c] else c :: '.' :: rest
        | [] => []
      String.ofList (if negative then '-' :: body ++ exponentText d.exponent
        else body ++ exponentText d.exponent)

/-- The shortest text that reads back; positional below `10 ^ 16`, whole numbers with `.0`. -/
def shortest (x : Float) : String :=
  write ⟨16, true⟩ shortestDigits (Binary.ofFloat x)

/-- A number with at most `count` significant digits, without zeros at its end. -/
def significant (count : Nat) (x : Float) : String :=
  write ⟨count, false⟩ (significantDigits count) (Binary.ofFloat x)

end Decimal
end ConvexContact
