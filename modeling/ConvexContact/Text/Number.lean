import ConvexContact.Decimal.Nearest
import ConvexContact.Text.Digit

/-!
# Numbers in texts

**Input.**  A text that a user has given in place of a number.

**Rules.**  Blanks around the number do not count.  A number has a sign or none, digits with a
point at most, and possibly an exponent; digits of every script are read, and a single underscore
may stand between two digits.  The names `inf`, `infinity` and `nan` are numbers in upper and lower
case.

**Result.**  The nearest double, or `none` if the text is not of this form.
-/

namespace ConvexContact
namespace Text

/-- Code points of the blanks that may stand around a number. -/
def blanks : List Nat := [
  9, 10, 11, 12, 13, 32, 133, 160, 5760, 8192, 8193, 8194, 8195, 8196, 8197, 8198, 8199, 8200,
  8201, 8202, 8232, 8233, 8239, 8287, 12288]

/-- A text without the blanks around it. -/
def trimBlanks (cs : List Char) : List Char :=
  let isBlank (c : Char) : Bool := blanks.contains c.toNat
  ((cs.dropWhile isBlank).reverse.dropWhile isBlank).reverse

/-- A text without underscores, each of which has to stand between two digits. -/
def dropUnderscores? (before : Bool) : List Char → Option (List Char)
  | [] => some []
  | '_' :: c :: rest =>
      if before && isDigit c then (dropUnderscores? true rest).map (c :: ·) else none
  | c :: rest => if c = '_' then none else (dropUnderscores? (isDigit c) rest).map (c :: ·)

/-- The sign of a number and what follows it. -/
def splitSign : List Char → Bool × List Char
  | '-' :: rest => (true, rest)
  | '+' :: rest => (false, rest)
  | cs => (false, cs)

/-- The digits at the front of a text and what follows them. -/
def splitDigits (cs : List Char) : List Nat × List Char :=
  ((cs.takeWhile isDigit).filterMap digitValue?, cs.dropWhile isDigit)

/-- The number with the given decimal digits. -/
def valueOf (digits : List Nat) : Nat :=
  digits.foldl (fun n d => 10 * n + d) 0

/-- An exponent that is all of a text; an empty text stands for zero. -/
def exponent? : List Char → Option Int
  | [] => some 0
  | e :: rest =>
      let (negative, rest) := splitSign rest
      let (digits, rest) := splitDigits rest
      if (e = 'e' || e = 'E') && !digits.isEmpty && rest.isEmpty then
        let n : Int := valueOf digits
        some (if negative then -n else n)
      else none

/-- A number without sign. -/
def magnitude? (cs : List Char) : Option Float :=
  let name := String.ofList (cs.map Char.toLower)
  if name = "inf" || name = "infinity" then some (1 / 0)
  else if name = "nan" then some (0 / 0)
  else
    let (whole, rest) := splitDigits cs
    let (fraction, rest) := match rest with
      | '.' :: tail => splitDigits tail
      | _ => ([], rest)
    if whole.isEmpty && fraction.isEmpty then none
    else (exponent? rest).map fun e =>
      Decimal.ofDigits (valueOf (whole ++ fraction)) (e - fraction.length)

/-- The number that a text stands for. -/
def number? (s : String) : Option Float := do
  let cs ← dropUnderscores? false (trimBlanks s.toList)
  let (negative, body) := splitSign cs
  let x ← magnitude? body
  some (if negative then -x else x)

end Text
end ConvexContact
