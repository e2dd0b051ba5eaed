import ConvexContact.Error

/-!
# Paths

A path is a text of steps between slashes, taken from the working directory unless it starts with a
slash.  Empty steps and single dots stay where they are, and two dots go back.

**Writing.**  Folders are made on the way, those of detours included, so that a path leads to the
same place as the path without its detours, `Path.direct`.

**Reading.**  `Path.find?` walks through what is there: a step into a folder that is missing, or
behind a file, leads nowhere.
-/

namespace ConvexContact
namespace Path

/-- Whether a path is not taken from the working directory. -/
def isAbsolute (path : String) : Bool :=
  path.startsWith "/"

/-- A path below a folder. -/
def join (folder name : String) : String :=
  if isAbsolute name || folder.isEmpty then name
  else if folder.endsWith "/" then folder ++ name
  else folder ++ "/" ++ name

/-- The steps of a path, where a step back takes the last one away; steps back from the working
directory remain. -/
def steps (path : String) : List String :=
  (path.splitOn "/").foldl
    (fun done step =>
      if step = "" || step = "." then done
      else if step ≠ ".." then done ++ [step]
      else if done.isEmpty || done.getLast? = some ".." then
        if isAbsolute path then done else done ++ [step]
      else done.dropLast)
    []

/-- A path without detours. -/
def direct (path : String) : String :=
  String.intercalate "/" ((if isAbsolute path then "" else ".") :: steps path)

/-- Whether a path leads to a place below the working directory. -/
def isBelowHere (path : String) : Bool :=
  !isAbsolute path && (steps path).head? != some ".."

/-- The greatest size of the name of a file or a folder. -/
def maxNameSize : Nat :=
  255

/-- The greatest size of a path. -/
def maxSize : Nat :=
  4095

/-- The greatest number of folders that are made on one way. -/
def maxDepth : Nat :=
  985

/-- Refuses a path at which there can be no folder. -/
def check (path : String) : Except Error Unit :=
  if path.isEmpty then .error .emptyFolderName
  else if maxDepth < ((path.splitOn "/").filter (· ≠ "")).length then .error .tooDeep
  else if path.toList.contains '\x00' then .error .nullCharacter
  else if maxSize < path.utf8ByteSize ∨
      (path.splitOn "/").any (fun step => maxNameSize < step.utf8ByteSize) then
    .error .nameTooLong
  else .ok ()

/-- The places of the folders on the way to a folder. -/
def foldersTo (folder : String) : List (List String) :=
  let parts := folder.splitOn "/"
  (List.range parts.length).map fun i => steps (String.intercalate "/" (parts.take (i + 1)))

/-- The path of a file to be written into a folder, unless a folder is in its place. -/
def fileIn (folder name : String) : Except Error String :=
  let path := join folder name
  if maxSize < path.utf8ByteSize then .error .nameTooLong
  else if (foldersTo folder).contains (steps path) then .error .folderInPlace
  else .ok path

/-- Whether a place is a folder on the way to one of the files. -/
def isFolder (files : List (List String)) (place : List String) : Bool :=
  files.any fun file => place.isPrefixOf file && place.length < file.length

/-- The file to which steps lead from a folder, if they lead to one. -/
def walk (files : List (List String)) (here : List String) : List String → Option (List String)
  | [] => none
  | [name] =>
      let place := here ++ [name]
      if files.contains place then some place else none
  | step :: rest =>
      if step = "" || step = "." then walk files here rest
      else if step = ".." then if here.isEmpty then none else walk files here.dropLast rest
      else if isFolder files (here ++ [step]) then walk files (here ++ [step]) rest
      else none

/-- The file to which a path leads from the working directory, if it leads to one. -/
def find? (files : List (List String)) (path : String) : Option (List String) :=
  if isAbsolute path then none else walk files [] (path.splitOn "/")

end Path
end ConvexContact
