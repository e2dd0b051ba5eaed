import ConvexContact.Document.Text

/-!
# Writing documents to files

A document is written in the notation that `Document.read?` reads, one item or field to a line,
each level indented by four blanks.  Characters outside the printable range of seven bits are
escaped.
-/

namespace ConvexContact
namespace Document

/-- The escape of a code unit. -/
def unitEscape (n : Nat) : List Char :=
  '\\' :: 'u' :: hexText 4 n

/-- A character inside double quotes. -/
def plainChar (c : Char) : List Char :=
  if c = '\x22' || c = '\\' then ['\\', c]
  else if c = '\n' then ['\\', 'n']
  else if c = '\r' then ['\\', 'r']
  else if c = '\t' then ['\\', 't']
  else if c = '\x08' then ['\\', 'b']
  else if c = '\x0c' then ['\\', 'f']
  else if 32 ≤ c.toNat ∧ c.toNat < 127 then [c]
  else if c.toNat < 65536 then unitEscape c.toNat
  else
    let n := c.toNat - 65536
    unitEscape (0xD800 + n / 1024) ++ unitEscape (0xDC00 + n % 1024)

/-- A text in double quotes. -/
def plainQuoted (s : String) : String :=
  String.ofList ('\x22' :: s.toList.flatMap plainChar ++ ['\x22'])

/-- A number, or the name of one that is not finite. -/
def plainNumber (x : Float) : String :=
  if x.isNaN then "NaN"
  else if x.isInf then (if x < 0 then "-Infinity" else "Infinity")
  else Decimal.shortest x

/-- The start of a line at a level. -/
def newLine (level : Nat) : String :=
  String.ofList ('\n' :: List.replicate (4 * level) ' ')

/-- Parts of a list or record between its brackets. -/
def enclosed (level : Nat) (opening closing : String) (parts : List String) : String :=
  if parts.isEmpty then opening ++ closing
  else opening ++ newLine (level + 1) ++ String.intercalate ("," ++ newLine (level + 1)) parts ++
    newLine level ++ closing

mutual

/-- A document at a level. -/
def indented (level : Nat) : Document → String
  | null => "null"
  | truth b => if b then "true" else "false"
  | whole n => toString n
  | fraction x => plainNumber x
  | text s => plainQuoted s
  | list items => enclosed level "[" "]" (indentedItems (level + 1) items)
  | record fields => enclosed level "\x7b" "\x7d" (indentedFields (level + 1) fields)

/-- The items of a list. -/
def indentedItems (level : Nat) : List Document → List String
  | [] => []
  | d :: rest => d.indented level :: indentedItems level rest

/-- The fields of a record. -/
def indentedFields (level : Nat) : List (String × Document) → List String
  | [] => []
  | (name, d) :: rest =>
      (plainQuoted name ++ ": " ++ d.indented level) :: indentedFields level rest

end

end Document
end ConvexContact
