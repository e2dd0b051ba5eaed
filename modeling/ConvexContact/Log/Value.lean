import ConvexContact.Document.Text
import ConvexContact.Tensor.Text

/-!
# Logged values

A log takes plain data, tensors and figures.  Fractional numbers and tensors without sizes are shown
with three significant digits in a table.

**Numbers.**  Values are stated over a type of scalars.  What a log needs of it besides arithmetic is
how its numbers are shown (`Shown`) and what a whole number divided by another one is (`Quotients`).

**Means.**  A mean is made of shares, which are values times a count divided by another one, and of
sums of shares.  A share of a whole number is rounded once, and refused if there is no such double.
-/

namespace ConvexContact

/-- A text filled up with blanks on the right. -/
def padRight (width : Nat) (s : String) : String :=
  s ++ String.ofList (List.replicate (width - s.length) ' ')

/-- How a log shows numbers and tensors. -/
class Shown (α : Type) where
  /-- The text of a number in a table. -/
  cell : α → String
  /-- The text of a number in a sentence. -/
  word : α → String
  /-- The text of a tensor. -/
  tensor : Tensor α → String

/-- What a whole number divided by another one is. -/
class Quotients (α : Type) where
  /-- The quotient, if there is a scalar for it. -/
  quotient : Int → Nat → Except Error α

namespace Machine

/-- Three significant digits in a table, at least eight characters. -/
instance : Shown Machine where
  cell x := padRight 8 (Decimal.significant 3 x.toFloat)
  word x := Decimal.shortest x.toFloat
  tensor := Tensor.text

/-- The quotient is rounded once; there may be no such double. -/
instance : Quotients Machine where
  quotient n total :=
    let x := Decimal.Quotient.toFloat ⟨n.natAbs, total⟩
    if Decimal.isFinite x then .ok (.literal (if n < 0 then -x else x)) else .error .tooLarge

end Machine

/-- A value that a log can take. -/
inductive LogValue (α : Type)
  | absent
  | truth (b : Bool)
  | whole (n : Int)
  | number (x : α)
  | text (s : String)
  | list (items : List Document)
  | record (fields : List (String × Document))
  | tensor (t : Tensor α)
  | figure

namespace LogValue

/-- The value that a document stands for. -/
def ofDocument : Document → LogValue Machine
  | .null => absent
  | .truth b => truth b
  | .whole n => whole n
  | .fraction x => number (.literal x)
  | .text s => text s
  | .list items => list items
  | .record fields => record fields

variable {α : Type}

/-- Whether a value is absent. -/
def isAbsent : LogValue α → Bool
  | absent => true
  | _ => false

/-- The text of a value in a sentence. -/
def word [Shown α] : LogValue α → String
  | absent => Document.shown .null
  | truth b => Document.shown (.truth b)
  | whole n => Document.shown (.whole n)
  | number x => Shown.word x
  | text s => s
  | list items => Document.shown (.list items)
  | record fields => Document.shown (.record fields)
  | tensor t => Shown.tensor t
  | figure => "Figure"

/-- The text of a value in a table; figures have none. -/
def cell? [Shown α] : LogValue α → Option String
  | number x => some (Shown.cell x)
  | tensor t =>
      match t.shape, t.entries with
      | [], [x] => some (Shown.cell x)
      | _, _ => some (Shown.tensor t)
  | figure => none
  | value => some value.word

variable [Scalar α]

/-- A value times `count` divided by `total`. -/
def share [Quotients α] (value : LogValue α) (count total : Nat) : Except Error (LogValue α) :=
  match value with
  | whole n => (Quotients.quotient (n * count) total).map number
  | truth b => (Quotients.quotient ((if b then 1 else 0) * count) total).map number
  | number x => .ok (number (x * Scalar.ofNat count / Scalar.ofNat total))
  | tensor t => .ok (tensor (t.map fun x => x * Scalar.ofNat count / Scalar.ofNat total))
  | _ => .error .wrongType

/-- The sum of two shares. -/
def add : LogValue α → LogValue α → Except Error (LogValue α)
  | number x, number y => .ok (number (x + y))
  | tensor s, number y => .ok (tensor (s.map (· + y)))
  | number x, tensor t => .ok (tensor (t.map (x + ·)))
  | tensor s, tensor t => (s.add t).map tensor
  | _, _ => .error .wrongType

end LogValue

/-- Writers that a value is not meant for: none, those named within a text, or a list of names. -/
inductive Exclusion
  | nothing
  | text (s : String)
  | names (xs : List String)
  deriving DecidableEq, Repr

namespace Exclusion

/-- Whether a list of characters occurs within another one. -/
def occursIn (needle : List Char) : List Char → Bool
  | [] => needle.isEmpty
  | c :: rest => needle.isPrefixOf (c :: rest) || occursIn needle rest

/-- Whether a writer is excluded by name. -/
def mentions (writer : String) : Exclusion → Bool
  | nothing => false
  | text s => occursIn writer.toList s.toList
  | names xs => xs.contains writer

/-- Whether a value is not to be shown in tables. -/
def hides (e : Exclusion) : Bool :=
  e.mentions "stdout" || e.mentions "log"

end Exclusion

end ConvexContact
