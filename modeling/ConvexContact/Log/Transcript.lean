import ConvexContact.Log.Logger
import ConvexContact.Path

/-!
# What was written

A transcript holds the text on the console and the contents of files.  Files are known by their
paths from the working directory, without detours.

**Several writers.**  Every writer of a file writes from the beginning of the file on, so that a
text which all of them write stands there once; the console shows it as often as it was written.
-/

namespace ConvexContact

/-- The text on the console and the contents of files. -/
structure Transcript where
  console : String
  files : List (String × String)
  deriving Repr

namespace Transcript

/-- Nothing was written. -/
def empty : Transcript :=
  ⟨"", []⟩

/-- A line on the console. -/
def print (t : Transcript) (line : String) : Transcript :=
  { t with console := t.console ++ line ++ "\n" }

/-- The contents of the file at a path without detours. -/
def contents? (t : Transcript) (path : String) : Option String :=
  t.files.lookup (Path.direct path)

/-- The files below the working directory. -/
def filesHere (t : Transcript) : List (String × String) :=
  t.files.filter fun f => Path.isBelowHere f.1

/-- The contents of the file to which a path leads. -/
def file? (t : Transcript) (path : String) : Option String :=
  (Path.find? (t.filesHere.map fun f => Path.steps f.1) path).bind fun steps =>
    t.contents? (String.intercalate "/" steps)

/-- A file is replaced. -/
def writeFile (t : Transcript) (path contents : String) : Transcript :=
  let path := Path.direct path
  { t with files := t.files.filter (·.1 ≠ path) ++ [(path, contents)] }

/-- A text is put at the end of a file. -/
def appendFile (t : Transcript) (path contents : String) : Transcript :=
  t.writeFile path ((t.contents? path).getD "" ++ contents)

/-- Texts are written in order; a file takes a text once from all its writers. -/
def writeTexts (t : Transcript) (done : List String) : List (Sink × String) → Transcript
  | [] => t
  | (.console, text) :: rest => writeTexts { t with console := t.console ++ text } done rest
  | (.memory _, _) :: rest => writeTexts t done rest
  | (.file path, text) :: rest =>
      if done.contains path then writeTexts t done rest
      else writeTexts (t.appendFile path text) (path :: done) rest

/-- The texts of an operation on a logger are written. -/
def write (t : Transcript) (e : Emission) : Transcript :=
  t.writeTexts [] e.texts

end Transcript
end ConvexContact
