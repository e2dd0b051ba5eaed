import ConvexContact.Document
import ConvexContact.Error

/-!
# Reading documents

**Input.**  A text in the usual notation of nested data: `null`, `true`, `false`, numbers, strings
in double quotes, lists in square brackets and records in curly brackets.  The names `NaN`,
`Infinity` and `-Infinity` are read as numbers.

**Rules.**  A number with a fraction or an exponent is fractional, any other is whole.  A string
holds no control characters; an escape that names half of a pair without the other half gives the
replacement character.  Of two fields with one name the later one counts.

**Limits.**  A whole number has at most `maxDigits` digits, and lists and records are nested at most
`maxDepth` deep.

**Result.**  The document, or the first thing in the text because of which there is none: a place at
which it is not of this form, or a number or a bracket beyond the limits.
-/

namespace ConvexContact
namespace Document

/-- The greatest number of digits of a whole number. -/
def maxDigits : Nat :=
  4300

/-- The greatest number of brackets around a value. -/
def maxDepth : Nat :=
  985

/-- The text after blanks. -/
def skipBlanks (cs : List Char) : List Char :=
  cs.dropWhile fun c => c = ' ' || c = '\t' || c = '\n' || c = '\r'

/-- Removes a word from the front of a text. -/
def expect? (word : List Char) (cs : List Char) : Option (List Char) :=
  if word.isPrefixOf cs then some (cs.drop word.length) else none

/-- The value of a list of decimal digits. -/
def natOfDigits (cs : List Char) : Nat :=
  cs.foldl (fun n c => 10 * n + (c.toNat - '0'.toNat)) 0

/-- Digits behind a mark, with the text after them. -/
def fractionDigits (cs : List Char) : List Char × List Char :=
  match cs with
  | '.' :: rest =>
      let digits := rest.takeWhile Char.isDigit
      if digits.isEmpty then ([], cs) else (digits, rest.dropWhile Char.isDigit)
  | _ => ([], cs)

/-- An exponent, if there is one, with the text after it. -/
def exponentPart (cs : List Char) : Option Int × List Char :=
  match cs with
  | e :: rest =>
      if e = 'e' || e = 'E' then
        let (negative, rest) := match rest with
          | '-' :: r => (true, r)
          | '+' :: r => (false, r)
          | r => (false, r)
        let digits := rest.takeWhile Char.isDigit
        if digits.isEmpty then (none, cs)
        else
          let n : Int := natOfDigits digits
          (some (if negative then -n else n), rest.dropWhile Char.isDigit)
      else (none, cs)
  | [] => (none, cs)

/-- The digits in front of a number's mark: a single zero, or digits that start with another. -/
def wholeDigits? (cs : List Char) : Option (List Char × List Char) :=
  match cs with
  | '0' :: rest => some (['0'], rest)
  | _ =>
      let digits := cs.takeWhile Char.isDigit
      if digits.isEmpty then none else some (digits, cs.dropWhile Char.isDigit)

/-- Reads a number. -/
def readNumber (cs : List Char) : Except Error (Document × List Char) :=
  let (negative, body) := match cs with
    | '-' :: rest => (true, rest)
    | _ => (false, cs)
  match wholeDigits? body with
  | none => .error .malformedDocument
  | some (digits, rest) =>
      let (decimals, rest) := fractionDigits rest
      let (exponent?, rest) := exponentPart rest
      if decimals.isEmpty && exponent?.isNone then
        if maxDigits < digits.length then .error .tooManyDigits
        else
          let n : Int := natOfDigits digits
          .ok (whole (if negative then -n else n), rest)
      else
        let exponent := exponent?.getD 0 - decimals.length
        let x := Decimal.ofDigits (natOfDigits (digits ++ decimals)) exponent
        .ok (.fraction (if negative then -x else x), rest)

/-- The value of a hexadecimal digit. -/
def hexDigit? (c : Char) : Option Nat :=
  if c.isDigit then some (c.toNat - '0'.toNat)
  else if 'a' ≤ c ∧ c ≤ 'f' then some (c.toNat - 'a'.toNat + 10)
  else if 'A' ≤ c ∧ c ≤ 'F' then some (c.toNat - 'A'.toNat + 10)
  else none

/-- The code unit of four hexadecimal digits. -/
def readUnit? : List Char → Option (Nat × List Char)
  | a :: b :: c :: d :: rest => do
      let a ← hexDigit? a
      let b ← hexDigit? b
      let c ← hexDigit? c
      let d ← hexDigit? d
      some (((a * 16 + b) * 16 + c) * 16 + d, rest)
  | _ => none

/-- The character that stands for half of a pair. -/
def replacement : Char :=
  Char.ofNat 0xFFFD

/-- The character of an escape by code units; the first unit of a pair needs the second. -/
def readEscapedUnit? (cs : List Char) : Option (Char × List Char) := do
  let (unit, rest) ← readUnit? cs
  if 0xD800 ≤ unit ∧ unit < 0xDC00 then
    match rest with
    | '\\' :: 'u' :: tail =>
        match readUnit? tail with
        | some (low, rest') =>
            if 0xDC00 ≤ low ∧ low < 0xE000 then
              some (Char.ofNat (0x10000 + (unit - 0xD800) * 0x400 + (low - 0xDC00)), rest')
            else some (replacement, rest)
        | none => some (replacement, rest)
    | _ => some (replacement, rest)
  else if 0xDC00 ≤ unit ∧ unit < 0xE000 then some (replacement, rest)
  else some (Char.ofNat unit, rest)

/-- The character named by a single letter after the escape mark. -/
def letterEscape? : Char → Option Char
  | '\x22' => some '\x22'
  | '\\' => some '\\'
  | '/' => some '/'
  | 'b' => some '\x08'
  | 'f' => some '\x0c'
  | 'n' => some '\n'
  | 'r' => some '\r'
  | 't' => some '\t'
  | _ => none

/-- Reads the rest of a string up to its closing quote; `fuel` bounds the number of characters. -/
def readString? : List Char → (fuel : Nat) → Option (List Char × List Char)
  | _, 0 => none
  | cs, fuel + 1 =>
      match cs with
      | [] => none
      | '\x22' :: rest => some ([], rest)
      | '\\' :: 'u' :: rest => do
          let (c, rest) ← readEscapedUnit? rest
          let (tail, rest) ← readString? rest fuel
          some (c :: tail, rest)
      | '\\' :: e :: rest => do
          let c ← letterEscape? e
          let (tail, rest) ← readString? rest fuel
          some (c :: tail, rest)
      | c :: rest =>
          if c.toNat < 32 || c = '\\' then none
          else do
            let (tail, rest) ← readString? rest fuel
            some (c :: tail, rest)

/-- Reads one of the fixed words. -/
def readWord? (cs : List Char) : Option (Document × List Char) :=
  let words : List (String × Document) :=
    [("null", null), ("true", truth true), ("false", truth false), ("NaN", fraction (0 / 0)),
      ("Infinity", fraction (1 / 0)), ("-Infinity", fraction (-1 / 0))]
  words.findSome? fun (word, value) =>
    (expect? word.toList cs).map fun rest => (value, rest)

/-- Reads a string behind its opening quote. -/
def readText (cs : List Char) : Except Error (String × List Char) :=
  match readString? cs (cs.length + 1) with
  | some (s, rest) => .ok (String.ofList s, rest)
  | none => .error .malformedDocument

mutual

/-- Reads a value that may have `depth` brackets in it; `fuel` bounds the number of steps. -/
def readValue (depth : Nat) : List Char → (fuel : Nat) → Except Error (Document × List Char)
  | _, 0 => .error .malformedDocument
  | cs, fuel + 1 =>
      match skipBlanks cs with
      | '\x22' :: rest => do
          let (s, rest) ← readText rest
          .ok (text s, rest)
      | '[' :: rest =>
          if depth = 0 then .error .tooDeep
          else match skipBlanks rest with
            | ']' :: rest => .ok (list [], rest)
            | _ => do
                let (items, rest) ← readItems (depth - 1) rest fuel
                .ok (list items, rest)
      | '\x7b' :: rest =>
          if depth = 0 then .error .tooDeep
          else match skipBlanks rest with
            | '\x7d' :: rest => .ok (record [], rest)
            | _ => do
                let (fields, rest) ← readFields (depth - 1) [] rest fuel
                .ok (record fields, rest)
      | cs =>
          match readWord? cs with
          | some result => .ok result
          | none => readNumber cs

/-- Reads the items of a list and its closing bracket. -/
def readItems (depth : Nat) : List Char → (fuel : Nat) → Except Error (List Document × List Char)
  | _, 0 => .error .malformedDocument
  | cs, fuel + 1 => do
      let (item, rest) ← readValue depth cs fuel
      match skipBlanks rest with
      | ',' :: rest => do
          let (items, rest) ← readItems depth rest fuel
          .ok (item :: items, rest)
      | ']' :: rest => .ok ([item], rest)
      | _ => .error .malformedDocument

/-- Reads the fields of a record and its closing bracket. -/
def readFields (depth : Nat) (fields : List (String × Document)) :
    List Char → (fuel : Nat) → Except Error (List (String × Document) × List Char)
  | _, 0 => .error .malformedDocument
  | cs, fuel + 1 =>
      match skipBlanks cs with
      | '\x22' :: rest => do
          let (name, rest) ← readText rest
          match skipBlanks rest with
          | ':' :: rest => do
              let (value, rest) ← readValue depth rest fuel
              let fields := setField fields name value
              match skipBlanks rest with
              | ',' :: rest => readFields depth fields rest fuel
              | '\x7d' :: rest => .ok (fields, rest)
              | _ => .error .malformedDocument
          | _ => .error .malformedDocument
      | _ => .error .malformedDocument

end

/-- Reads a whole text. -/
def read (s : String) : Except Error Document := do
  let cs := s.toList
  let (d, rest) ← readValue maxDepth cs (2 * cs.length + 2)
  if (skipBlanks rest).isEmpty then .ok d else .error .malformedDocument

end Document
end ConvexContact
