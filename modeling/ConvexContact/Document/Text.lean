import ConvexContact.Decimal.Shortest
import ConvexContact.Document
import ConvexContact.Text.Printable

/-!
# Showing documents

A document is shown on one line.  A text standing by itself is shown as it is; within a list or a
record it is put in single quotes, or in double quotes if it holds single quotes only.  The quote
in use, the backslash and characters that cannot be shown are escaped.
-/

namespace ConvexContact
namespace Document

/-- A number in hexadecimal digits, filled up with zeros to a width. -/
def hexText (width n : Nat) : List Char :=
  let digits := Nat.toDigits 16 n
  List.replicate (width - digits.length) '0' ++ digits

/-- A character inside quotes. -/
def escapeChar (quote c : Char) : List Char :=
  if c = quote || c = '\\' then ['\\', c]
  else if c = '\n' then ['\\', 'n']
  else if c = '\r' then ['\\', 'r']
  else if c = '\t' then ['\\', 't']
  else if Text.isPrintable c then [c]
  else if c.toNat < 256 then '\\' :: 'x' :: hexText 2 c.toNat
  else if c.toNat < 65536 then '\\' :: 'u' :: hexText 4 c.toNat
  else '\\' :: 'U' :: hexText 8 c.toNat

/-- A text in quotes. -/
def quoted (s : String) : String :=
  let cs := s.toList
  let quote := if cs.contains '\x27' && !cs.contains '\x22' then '\x22' else '\x27'
  String.ofList (quote :: cs.flatMap (escapeChar quote) ++ [quote])

mutual

/-- A document as it is shown within another one. -/
def nested : Document → String
  | null => "None"
  | truth b => if b then "True" else "False"
  | whole n => toString n
  | fraction x => Decimal.shortest x
  | text s => quoted s
  | list items => "[" ++ String.intercalate ", " (nestedItems items) ++ "]"
  | record fields => "\x7b" ++ String.intercalate ", " (nestedFields fields) ++ "\x7d"

/-- The items of a list. -/
def nestedItems : List Document → List String
  | [] => []
  | d :: rest => d.nested :: nestedItems rest

/-- The fields of a record. -/
def nestedFields : List (String × Document) → List String
  | [] => []
  | (name, d) :: rest => (quoted name ++ ": " ++ d.nested) :: nestedFields rest

end

/-- A document as it is shown by itself. -/
def shown : Document → String
  | text s => s
  | d => d.nested

end Document
end ConvexContact
