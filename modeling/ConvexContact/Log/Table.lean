import ConvexContact.Error
import ConvexContact.Log.Value

/-!
# Log tables

**Input.**  A dictionary of values and one of exclusions.  Both are sorted by their keys and paired
by position, which is right if they have the same keys.

**Layout.**  A key with a slash behind its first character belongs to the tag that ends with the
first slash.  The first key of a tag is preceded by a row that shows the tag alone.  A key that
contains the current tag is shown indented, with as many characters removed as the tag has.  Keys
and values are cut off at a greatest length, columns are as wide as their widest text, and a line
of dashes stands above and below.
-/

namespace ConvexContact
namespace Table

/-- A row of a table. -/
structure Row where
  key : String
  value : String
  deriving DecidableEq, Repr

/-- What a table is made from. -/
structure Entry (α : Type) where
  key : String
  value : LogValue α
  exclusion : Exclusion

/-- A text cut off at a length, with three dots in place of its end. -/
def truncate (maxLength : Int) (s : String) : String :=
  if (s.length : Int) ≤ maxLength then s
  else
    let kept := maxLength - 3
    let count := if kept < 0 then (s.length + kept).toNat else kept.toNat
    String.ofList (s.toList.take count) ++ "..."

/-- The tag of a key: its part up to the first slash, unless that is the first character. -/
def tag? (key : List Char) : Option (List Char) :=
  let name := key.takeWhile (· ≠ '/')
  if name.isEmpty || name.length = key.length then none else some (name ++ ['/'])

/-- The text of a key below its tag. -/
def shownKey (current : Option (List Char)) (key : List Char) : String :=
  match current with
  | none => String.ofList key
  | some tag =>
      if Exclusion.occursIn tag key then "   " ++ String.ofList (key.drop tag.length)
      else String.ofList key

variable {α : Type} [Shown α]

/-- The rows for a list of entries, given the tag of the entry before and the tags that have a
row. -/
def rowsFrom (maxLength : Int) (current : Option (List Char)) (tags : List (List Char)) :
    List (Entry α) → Except Error (List Row)
  | [] => .ok []
  | e :: rest =>
      if e.exclusion.hides then rowsFrom maxLength current tags rest
      else match e.value.cell? with
        | none => .error .figureNotWritable
        | some cell =>
            let key := e.key.toList
            match tag? key with
            | none => do
                let rows ← rowsFrom maxLength current tags rest
                .ok (⟨truncate maxLength (shownKey current key), truncate maxLength cell⟩ :: rows)
            | some tag => do
                let row : Row :=
                  ⟨truncate maxLength (shownKey (some tag) key), truncate maxLength cell⟩
                if tags.contains tag then
                  let rows ← rowsFrom maxLength (some tag) tags rest
                  .ok (row :: rows)
                else
                  let rows ← rowsFrom maxLength (some tag) (tag :: tags) rest
                  .ok (⟨truncate maxLength (String.ofList tag), ""⟩ :: row :: rows)

/-- The rows of a table. -/
def rows (maxLength : Int) (entries : List (Entry α)) : Except Error (List Row) :=
  rowsFrom maxLength none [] entries

/-- The greatest length in a list of texts. -/
def widest (texts : List String) : Nat :=
  texts.foldl (fun n s => max n s.length) 0

/-- A row within columns of given widths. -/
def line (keyWidth valueWidth : Nat) (r : Row) : String :=
  "| " ++ padRight keyWidth r.key ++ " | " ++ padRight valueWidth r.value ++ " |"

/-- The lines of a table. -/
def lines (rows : List Row) : List String :=
  let keyWidth := widest (rows.map (·.key))
  let valueWidth := widest (rows.map (·.value))
  let dashes := String.ofList (List.replicate (keyWidth + valueWidth + 7) '-')
  dashes :: rows.map (line keyWidth valueWidth) ++ [dashes]

/-- The text of a table; `none` stands for a table without rows. -/
def render (maxLength : Int) (entries : List (Entry α)) : Except Error (Option String) :=
  (rows maxLength entries).map fun rows =>
    if rows.isEmpty then none else some (String.intercalate "\n" (lines rows) ++ "\n")

/-- The entries of a dictionary in ascending order of the keys. -/
def sorted {β : Type} (entries : List (String × β)) : List (String × β) :=
  entries.mergeSort fun a b => decide (a.1 ≤ b.1)

/-- Values and exclusions, each sorted by its keys, are paired by position; the keys are those of
the values. -/
def pairs (values : List (String × LogValue α)) (exclusions : List (String × Exclusion)) :
    List (Entry α) :=
  List.zipWith (fun v x => ⟨v.1, v.2, x.2⟩) (sorted values) (sorted exclusions)

/-- The text of the table of values with their exclusions. -/
def write (maxLength : Int) (values : List (String × LogValue α))
    (exclusions : List (String × Exclusion)) : Except Error (Option String) :=
  render maxLength (pairs values exclusions)

end Table
end ConvexContact
