import ConvexContact.Error
import ConvexContact.Text.Digit

/-!
# Command-line arguments

The command line has one option, `--config`, which takes the path of a settings file, and the
option `-h` or `--help`, which asks for help.

**Rules.**  A long option may be shortened as long as it stands for one option only.  A value
follows its option as the next word or behind an equals sign.  A word that starts with a dash is an
option, unless it is a single dash, a negative number or a text with a blank; a word of two dashes
has no use, and nothing after it is an option.  A word without use is refused at the end, and so is
a command line without a settings file; the last settings file counts.  Two dashes behind an equals
sign stand for no value.
-/

namespace ConvexContact
namespace Arguments

/-- The options of the command line. -/
inductive Switch
  | help
  | config
  deriving DecidableEq, Repr

/-- What a word of the command line is. -/
inductive Token
  /-- An option with the value written in the same word; `short` marks a single dash. -/
  | switch (which : Switch) (short : Bool) (value? : Option String)
  | unknown
  | separator
  | word (s : String)
  deriving DecidableEq, Repr

/-- Names of the options. -/
def names : List (String × Switch) :=
  [("-h", .help), ("--help", .help), ("--config", .config)]

/-- Whether a word is a negative number in decimal digits; a line may end behind it. -/
def isNegativeNumber (cs : List Char) : Bool :=
  let line := if cs.getLast? = some '\n' then cs.dropLast else cs
  match line with
  | '-' :: digits =>
      let front := digits.takeWhile Text.isDigit
      match digits.dropWhile Text.isDigit with
      | [] => !front.isEmpty
      | '.' :: tail => !tail.isEmpty && tail.all Text.isDigit
      | _ => false
  | _ => false

/-- A word divided at its first equals sign. -/
def splitAtEquals (cs : List Char) : List Char × Option String :=
  match cs.dropWhile (· ≠ '=') with
  | [] => (cs, none)
  | _ :: rest => (cs.takeWhile (· ≠ '='), some (String.ofList rest))

/-- The options that a shortened word may stand for. -/
def candidates (cs : List Char) : List Token :=
  match cs with
  | '-' :: '-' :: _ =>
      let (stem, value?) := splitAtEquals cs
      (names.filter fun n => stem.isPrefixOf n.1.toList).map fun n =>
        Token.switch n.2 false value?
  | _ =>
      names.filterMap fun n =>
        if n.1.toList = cs.take 2 then
          some (Token.switch n.2 true (some (String.ofList (cs.drop 2))))
        else if cs.isPrefixOf n.1.toList then some (Token.switch n.2 false none)
        else none

/-- What a word is that is not behind two dashes. -/
def classify (s : String) : Except Error Token :=
  let cs := s.toList
  match cs with
  | '-' :: _ :: _ =>
      match names.lookup s with
      | some which => .ok (.switch which (cs.length = 2) none)
      | none =>
          let (stem, value?) := splitAtEquals cs
          match names.lookup (String.ofList stem), value? with
          | some which, some value => .ok (.switch which (stem.length = 2) (some value))
          | _, _ =>
              match candidates cs with
              | _ :: _ :: _ => .error .usage
              | [token] => .ok token
              | [] =>
                  if isNegativeNumber cs || cs.contains ' ' then .ok (.word s)
                  else .ok .unknown
  | _ => .ok (.word s)

/-- What the words of a command line are. -/
def tokens : List String → Except Error (List Token)
  | [] => .ok []
  | s :: rest =>
      if s = "--" then .ok (.separator :: rest.map .word)
      else do
        let token ← classify s
        let others ← tokens rest
        .ok (token :: others)

/-- The value that an option takes from a text behind its equals sign. -/
def valueOf? (s : String) : Option String :=
  if s = "--" then none else some s

/-- A request for help may be repeated in one word, but takes no value. -/
def helpError (short : Bool) (value? : Option String) : Error :=
  match value? with
  | none => .helpRequested
  | some value => if short && value.toList.head? = some 'h' then
      (if value.toList.drop 1 |>.all (· = 'h') then .helpRequested else .usage)
    else .usage

/-- Goes through the tokens with the settings file found so far, which may be without a value, and
whether some word had no use. -/
def scan (config? : Option (Option String)) (unused : Bool) : List Token →
    Except Error (Option String)
  | [] =>
      match config? with
      | none => .error .usage
      | some path? => if unused then .error .usage else .ok path?
  | .switch .help short value? :: _ => .error (helpError short value?)
  | .switch .config _ (some value) :: rest => scan (some (valueOf? value)) unused rest
  | .switch .config _ none :: .word path :: rest => scan (some (some path)) unused rest
  | .switch .config _ none :: _ => .error .usage
  | _ :: rest => scan config? true rest

/-- The path of the settings file that a command line names; the option may be without a value. -/
def settingsFile (words : List String) : Except Error (Option String) := do
  let ts ← tokens words
  scan none false ts

end Arguments
end ConvexContact
