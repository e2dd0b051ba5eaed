import ConvexContact.Document
import ConvexContact.Scalar.Machine
import ConvexContact.Tensor

/-!
# Tensors of nested lists

**Sizes.**  The sizes of a nested list are those of its first items; all other items have to agree
with them.  A text within a list counts as a list of its characters, of which each is a text again,
so that it has no sizes unless it is empty; a record counts as the list of its names.

**Entries.**  The entries are numbers or truth values; a whole number beyond all doubles is refused.
-/

namespace ConvexContact

namespace Machine

/-- The literal of a number; a whole number beyond all doubles is quoted. -/
def ofDocument (d : Document) : Except Error Machine :=
  match d, d.number? with
  | .whole _, some x => .ok (if Decimal.isFinite x then .literal x else .quoted x .tooLarge)
  | _, some x => .ok (.literal x)
  | _, none => .error .wrongType

end Machine

namespace Tensor

/-- The greatest number of sizes of a nested list. -/
def maxRank : Nat :=
  128

/-- Sizes of a nested list of numbers, by its first items. -/
def sizesOf? : Document → Option (List Nat)
  | .list [] => some [0]
  | .list (d :: rest) => (sizesOf? d).map ((rest.length + 1) :: ·)
  | .text s => if s.isEmpty then some [0] else none
  | _ => some []

/-- The items of what stands in place of a list. -/
def itemsOf : Document → Except Error (List Document)
  | .list items => .ok items
  | .text s => .ok (s.toList.map fun c => .text (String.ofList [c]))
  | .record fields => .ok (fields.map fun f => .text f.1)
  | _ => .error .wrongType

/-- The numbers of a nested list whose sizes are given. -/
def numbersOf : List Nat → Document → Except Error (List Machine)
  | [], d => do
      let x ← Machine.ofDocument d
      let x ← Scalar.operand x
      .ok [x]
  | n :: sizes, d => do
      let items ← itemsOf d
      if items.length = n then (items.mapM (numbersOf sizes)).map List.flatten
      else .error .uneven

/-- The tensor of a nested list of numbers. -/
def ofDocument (format : Format) (d : Document) : Except Error (Tensor Machine) :=
  match d, sizesOf? d with
  | .text _, _ => .error .wrongType
  | _, none => .error .uneven
  | _, some sizes =>
      if maxRank < sizes.length then .error .uneven
      else (numbersOf sizes d).map (Tensor.ofEntries format sizes)

end Tensor
end ConvexContact
