import ConvexContact.Decimal.Nearest
import ConvexContact.Error

/-!
# Documents

A document is what a settings file or a request holds: nested lists and records of plain values.
Whole and fractional numbers are told apart by the way in which they are written.
-/

namespace ConvexContact

/-- Nested data with named fields. -/
inductive Document
  | null
  | truth (b : Bool)
  | whole (n : Int)
  | fraction (x : Float)
  | text (s : String)
  | list (items : List Document)
  | record (fields : List (String × Document))
  deriving Inhabited

namespace Document

/-- Sets a field; a field that is there keeps its place. -/
def setField (fields : List (String × Document)) (name : String) (value : Document) :
    List (String × Document) :=
  if fields.any (·.1 == name) then
    fields.map fun f => if f.1 == name then (name, value) else f
  else fields ++ [(name, value)]

/-- The field of a record, if the document is a record that has it. -/
def field? : Document → String → Option Document
  | record fields, name => fields.lookup name
  | _, _ => none

/-- The number in a document, where truth values count as zero and one. -/
def number? : Document → Option Float
  | whole n => some (Decimal.ofInt n)
  | fraction x => some x
  | truth b => some (if b then 1 else 0)
  | _ => none

/-- The whole number in a document, where truth values count as zero and one. -/
def whole? : Document → Option Int
  | whole n => some n
  | truth b => some (if b then 1 else 0)
  | _ => none

/-- The whole number of a number in a document, without its fraction. -/
def truncated : Document → Except Error Int
  | whole n => .ok n
  | truth b => .ok (if b then 1 else 0)
  | fraction x =>
      match Decimal.Binary.truncate? (.ofFloat x) with
      | some n => .ok n
      | none => .error (if x == x then .tooLarge else .unreadableNumber)
  | text _ => .error .unreadableNumber
  | _ => .error .wrongType

/-- Whether a document comes before another one or is equal to it: two numbers by their exact
values, two texts by their characters. -/
def atMost (d e : Document) : Except Error Bool :=
  match d, e, d.whole?, e.whole? with
  | text s, text t, _, _ => .ok (decide (s ≤ t))
  | _, _, some m, some n => .ok (decide (m ≤ n))
  | fraction x, fraction y, _, _ => .ok (x ≤ y)
  | _, fraction y, some m, _ =>
      .ok ((Decimal.Binary.compareWhole? m (.ofFloat y)).any (· != .gt))
  | fraction x, _, _, some n =>
      .ok ((Decimal.Binary.compareWhole? n (.ofFloat x)).any (· != .lt))
  | _, _, _, _ => .error .wrongType

/-- Whether a document counts as given: it is not null, false, zero or empty. -/
def isGiven : Document → Bool
  | null => false
  | truth b => b
  | whole n => n != 0
  | fraction x => !(x == 0)
  | text s => !s.isEmpty
  | list items => !items.isEmpty
  | record fields => !fields.isEmpty

end Document

end ConvexContact
