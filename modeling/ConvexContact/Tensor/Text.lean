import ConvexContact.Decimal.Nearest
import ConvexContact.Decimal.Shortest
import ConvexContact.Scalar.Machine
import ConvexContact.Tensor

/-!
# Showing tensors

**Numbers.**  All entries of a tensor are shown in one way.  Whole entries end with a point, others
have four places; if the largest entry is more than a thousand times the smallest, or some entry is
very large or very small, all of them have an exponent.  Entries are filled up on the left to the
width of the widest one, where zeros and entries that are not finite do not count.

**Lines.**  The entries along the last size stand in brackets, broken into lines of bounded length;
the sub-tensors along the other sizes stand below each other.  Of a tensor with very many entries
only the first and the last few along each size are shown, and only these decide how.

**Additions.**  The format is named unless it is the single one, and so is the shape of a tensor
without entries that has other than one size.
-/

namespace ConvexContact
namespace Tensor

/-- The greatest length of a line. -/
def lineLength : Nat :=
  80

/-- The greatest number of entries of a tensor that is shown in full. -/
def fullSize : Nat :=
  1000

/-- The number of items shown at either end of a list that is not shown in full. -/
def edgeSize : Nat :=
  3

/-- A list, or its two ends with `mark` between them if it is longer than both. -/
def ends {β : Type} (mark : List β) (xs : List β) : List β :=
  if 2 * edgeSize < xs.length then
    xs.take edgeSize ++ mark ++ xs.drop (xs.length - edgeSize)
  else xs

/-- The entries of a tensor of a shape that are shown if it is not shown in full. -/
def endEntries {β : Type} : List Nat → List β → List β
  | [], xs => xs
  | n :: rest, xs =>
      (ends [] (Vec.split (List.replicate n (size rest)) xs)).flatMap (endEntries rest)

/-- How the entries of a tensor are shown. -/
inductive EntryStyle
  | whole
  | places
  | scientific
  deriving DecidableEq, Repr

namespace EntryStyle

/-- Whether entries of the given magnitudes need an exponent. -/
def needsExponent (sizes : List Float) : Bool :=
  match sizes with
  | [] => false
  | size :: rest =>
      let least := rest.foldl (fun a b => if b < a then b else a) size
      let greatest := rest.foldl (fun a b => if a < b then b else a) size
      1000 < greatest / least || 100000000 < greatest || least < 1 / 10000

/-- The style for entries of which the finite ones that are not zero are given. -/
def forEntries (xs : List Float) : EntryStyle :=
  if needsExponent (xs.map Float.abs) then scientific
  else if xs.all (fun x => x == x.ceil) then whole
  else places

/-- An entry by itself. -/
def plain (style : EntryStyle) (x : Float) : String :=
  match style with
  | whole =>
      if Decimal.isFinite x then Decimal.fixedPlaces 0 x ++ "." else Decimal.fixedPlaces 0 x
  | places => Decimal.fixedPlaces 4 x
  | scientific => Decimal.scientificPlaces 4 x

end EntryStyle

/-- A text filled up with blanks on the left. -/
def padLeft (width : Nat) (s : String) : String :=
  String.ofList (List.replicate (width - s.length) ' ') ++ s

/-- A list cut into pieces of a positive size, the last of which may be shorter. -/
def pieces {β : Type} (size : Nat) (xs : List β) : List (List β) :=
  (List.range ((xs.length + size - 1) / size)).map fun i => (xs.drop (i * size)).take size

/-- Texts of entries in brackets, behind `indent` characters. -/
def row (indent width : Nat) (texts : List String) : String :=
  let perLine := max 1 ((lineLength - indent) / (width + 2))
  let lines := (pieces perLine texts).map (String.intercalate ", ")
  let blank := String.ofList (List.replicate (indent + 1) ' ')
  "[" ++ String.intercalate (",\n" ++ blank) lines ++ "]"

/-- Texts of the entries of a tensor of a shape, behind `indent` characters; either all of them, or
those at the ends. -/
def nestedRows (full : Bool) (width : Nat) :
    (shape : List Nat) → (indent : Nat) → List String → String
  | [], _, texts => String.join texts
  | [_], indent, texts => row indent width (if full then texts else ends [" ..."] texts)
  | n :: rest, indent, texts =>
      let parts := (Vec.split (List.replicate n (size rest)) texts).map
        (nestedRows full width rest (indent + 1))
      let breaks := String.ofList (List.replicate rest.length '\n' ++ List.replicate (indent + 1) ' ')
      "[" ++ String.intercalate ("," ++ breaks) (if full then parts else ends ["..."] parts) ++ "]"

/-- The words with which a tensor opens. -/
def opening : String :=
  "tensor("

/-- The entries of a tensor that is not empty. -/
def body (shape : List Nat) (xs : List Float) : String :=
  let full := xs.length ≤ fullSize
  let looked := if full then xs else endEntries shape xs
  let counted := looked.filter fun x => Decimal.isFinite x && !(x == 0)
  let style := EntryStyle.forEntries counted
  let width := counted.foldl (fun w x => max w (style.plain x).length) 1
  nestedRows full width shape opening.length (xs.map fun x => padLeft width (style.plain x))

/-- What is said besides the entries. -/
def additions (t : Tensor Machine) : List String :=
  let shape := if t.entries.isEmpty && t.rank != 1 then ["size=" ++ shapeText t.shape] else []
  match t.format with
  | .single => shape
  | .double => shape ++ ["dtype=torch.float64"]

/-- Adds words to a text, on a new line if the last line would become too long; `last` is the
length of the last line. -/
def addWords (text : String) (last : Nat) : List String → String
  | [] => text
  | word :: rest =>
      if lineLength < last + word.length + 2 then
        let blank := String.ofList (List.replicate opening.length ' ')
        addWords (text ++ ",\n" ++ blank ++ word) (opening.length + word.length) rest
      else addWords (text ++ ", " ++ word) (last + word.length + 2) rest

/-- The text of a tensor. -/
def text (t : Tensor Machine) : String :=
  let start := opening ++
    (if t.entries.isEmpty then "[]" else body t.shape (t.entries.map Machine.toFloat))
  let last := ((start.splitOn "\n").getLast?.getD "").length + 2
  addWords start last (additions t) ++ ")"

end Tensor
end ConvexContact
