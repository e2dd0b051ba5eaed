import Std.Time.Format
import ConvexContact.Demonstration
import ConvexContact.Settings.Arguments

/-!
# Command line

The command line runs the demonstration, with the settings of the file that it names or with the
standard ones if it is empty.  Everything that is decided is decided elsewhere; here files are read
and written.
-/

namespace ConvexContact
namespace CommandLine

/-- A number of at least two digits. -/
def twoDigits (n : Int) : String :=
  let s := toString n
  if s.length < 2 then "0" ++ s else s

/-- The present time as the name of a folder. -/
def stamp : IO String := do
  let now ← Std.Time.PlainDateTime.now
  let date := s!"{now.year}-" ++ twoDigits now.month.val ++ "-" ++ twoDigits now.day.val
  let time := twoDigits now.hour.val ++ "-" ++ twoDigits now.minute.val ++ "-" ++
    twoDigits now.second.val
  return date ++ "_" ++ time

/-- The contents of a file that may be missing. -/
def contents? (path : String) : IO (Option String) := do
  try
    let contents ← IO.FS.readFile path
    return some contents
  catch _ => return none

/-- The settings that a command line asks for. -/
def settings (words : List String) : IO (Except Error Document) := do
  if words.isEmpty then return .ok Demonstration.standardSettings
  else
    match Arguments.settingsFile words with
    | .error e => return .error e
    | .ok none => return .error .wrongType
    | .ok (some path) =>
        let contents? ← contents? path
        return Settings.load path contents?

/-- The folder of a path. -/
def folderOf (path : String) : String :=
  String.intercalate "/" (path.splitOn "/").dropLast

/-- Shows the console text of a transcript and writes its files. -/
def publish (t : Transcript) : IO Unit := do
  for (path, contents) in t.files do
    IO.FS.createDirAll (folderOf path)
    IO.FS.writeFile path contents
  IO.print t.console

/-- How the command line is used. -/
def usage : String :=
  "usage: convexcontact [-h] --config CONFIG"

/-- Tells why a run was refused; the result is the exit code. -/
def refuse (e : Error) : IO UInt32 := do
  match e.kind with
  | .exit 0 =>
      IO.println usage
      return 0
  | .exit code =>
      IO.eprintln usage
      return code.toUInt32
  | _ =>
      IO.eprintln (e.message?.getD "The settings cannot be used.")
      return 1

/-- Runs the demonstration. -/
def run (words : List String) : IO UInt32 := do
  match ← settings words with
  | .error e => refuse e
  | .ok settings =>
      let stamp ← stamp
      match Demonstration.run settings ("./output/" ++ stamp) stamp with
      | .error e => refuse e
      | .ok (_, journal) =>
          publish journal.transcript
          return 0

end CommandLine
end ConvexContact

/-- The command line. -/
def main (words : List String) : IO UInt32 :=
  ConvexContact.CommandLine.run words
