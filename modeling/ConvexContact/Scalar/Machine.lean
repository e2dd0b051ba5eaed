import ConvexContact.Scalar
import ConvexContact.Decimal.Shortest

/-!
# Machine numbers

A machine number is a literal or an entry of a tensor.  Entries have a format, and arithmetic on
them rounds to it; a literal has none and takes the format of the number that it meets.  Two
entries of different formats meet in the wider one.

**Representation.**  Literals and double entries hold a double; single entries hold a single.  A
literal may be *quoted*: then its value is known, but it is no operand of arithmetic.
-/

namespace ConvexContact

/-- A number as the machine keeps it. -/
inductive Machine
  | literal (x : Float)
  /-- A literal that cannot be computed with, for the given reason. -/
  | quoted (x : Float) (reason : Error)
  | single (x : Float32)
  | double (x : Float)

namespace Machine

/-- The number as a double, without rounding. -/
def toFloat : Machine → Float
  | literal x => x
  | quoted x _ => x
  | single x => x.toFloat
  | double x => x

/-- The number as a single, rounded if it was wider. -/
def toFloat32 : Machine → Float32
  | literal x => x.toFloat32
  | quoted x _ => x.toFloat32
  | single x => x
  | double x => x.toFloat32

/-- The number, unless it is quoted. -/
def unquoted : Machine → Except Error Machine
  | quoted _ reason => .error reason
  | x => .ok x

/-- An operation on one number, in its own format. -/
def lift (f : Float → Float) (g : Float32 → Float32) : Machine → Machine
  | literal x => literal (f x)
  | quoted x _ => literal (f x)
  | single x => single (g x)
  | double x => double (f x)

/-- An operation on two numbers, in the format in which they meet. -/
def lift₂ (f : Float → Float → Float) (g : Float32 → Float32 → Float32) :
    Machine → Machine → Machine
  | double x, y => double (f x y.toFloat)
  | x, double y => double (f x.toFloat y)
  | single x, y => single (g x y.toFloat32)
  | x, single y => single (g x.toFloat32 y)
  | x, y => literal (f x.toFloat y.toFloat)

/-- A comparison of two numbers, in the format in which they meet. -/
def compare (f : Float → Float → Bool) (g : Float32 → Float32 → Bool) :
    Machine → Machine → Bool
  | double x, y => f x y.toFloat
  | x, double y => f x.toFloat y
  | single x, y => g x y.toFloat32
  | x, single y => g x.toFloat32 y
  | x, y => f x.toFloat y.toFloat

/-- The entry of a format nearest to a number. -/
def toFormat : Format → Machine → Machine
  | .single, x => single x.toFloat32
  | .double, x => double x.toFloat

/-- The least positive normal number of the format of a number. -/
def leastNormal : Machine → Machine
  | single _ => single (Float.ofScientific 11754943508222875 true 54).toFloat32
  | double _ => double (Float.ofScientific 22250738585072014 true 324)
  | _ => literal (Float.ofScientific 22250738585072014 true 324)

instance : ToString Machine :=
  ⟨fun x => Decimal.shortest x.toFloat⟩

instance : Scalar Machine where
  add := lift₂ (· + ·) (· + ·)
  sub := lift₂ (· - ·) (· - ·)
  mul := lift₂ (· * ·) (· * ·)
  div := lift₂ (· / ·) (· / ·)
  neg := lift (- ·) (- ·)
  lt x y := compare (fun a b => decide (a < b)) (fun a b => decide (a < b)) x y = true
  le x y := compare (fun a b => decide (a ≤ b)) (fun a b => decide (a ≤ b)) x y = true
  toString x := toString x
  ofNat n := literal (Float.ofNat n)
  pi := literal (Float.ofScientific 3141592653589793 true 15)
  inverse := lift (1 / ·) (1 / ·)
  sqrt := lift Float.sqrt Float32.sqrt
  exp := lift Float.exp Float32.exp
  sin := lift Float.sin Float32.sin
  cos := lift Float.cos Float32.cos
  tan := lift Float.tan Float32.tan
  atan := lift Float.atan Float32.atan
  atan2 := lift₂ Float.atan2 Float32.atan2
  operand := unquoted
  round := toFormat
  tiny := leastNormal
  epsilon
    | .single => literal (1 / 8388608)
    | .double => literal (1 / 4503599627370496)
  decidableLT _ _ := inferInstanceAs (Decidable (_ = true))
  decidableLE _ _ := inferInstanceAs (Decidable (_ = true))

end Machine

end ConvexContact
