import ConvexContact.Log.Transcript
import ConvexContact.Settings

/-!
# Journals

A journal holds named loggers and what they have written.

**Opening a logger.**  A logger writes into a folder, in the formats that are asked for: on the
console, or into a file of the folder.  Without formats it writes on the console; empty names of
formats are passed over.  A logger that does not write on the console alone reports its folder.

**Preparing a run.**  The output folder of the settings takes a copy of all settings and the
folders of two loggers, one for the problem and one for the solver.
-/

namespace ConvexContact

/-- Named loggers and what they have written. -/
structure Journal where
  loggers : List (String × Logger Machine)
  transcript : Transcript

namespace Journal

/-- Nothing was written. -/
def empty : Journal :=
  ⟨[], Transcript.empty⟩

/-- The logger of a name. -/
def logger? (j : Journal) (name : String) : Option (Logger Machine) :=
  j.loggers.lookup name

/-- Sets the logger of a name. -/
def setLogger (j : Journal) (name : String) (l : Logger Machine) : Journal :=
  { j with loggers := j.loggers.filter (·.1 ≠ name) ++ [(name, l)] }

/-- A line on the console. -/
def print (j : Journal) (line : String) : Journal :=
  { j with transcript := j.transcript.print line }

/-- A status line on the console. -/
def header (j : Journal) (text : String) : Journal :=
  j.print ("===> " ++ text)

/-- A file is replaced. -/
def writeFile (j : Journal) (path contents : String) : Journal :=
  { j with transcript := j.transcript.writeFile path contents }

/-- An operation of the logger of a name. -/
def act (j : Journal) (name : String)
    (f : Logger Machine → Except Error (Logger Machine × Emission)) : Except Error Journal :=
  match j.logger? name with
  | none => .error .missingKey
  | some l => (f l).map fun (l, e) =>
      let j := j.setLogger name l
      { j with transcript := j.transcript.write e }

/-- A sentence of the logger of a name. -/
def say (j : Journal) (name : String) (level : Int) (words : List (LogValue Machine)) :
    Except Error Journal :=
  j.act name fun l => (l.say level words).map (l, ·)

/-- The names in a document that lists formats. -/
def formatNames : Document → Except Error (List Document)
  | .list items => .ok items
  | .text s => .ok (s.toList.map fun c => .text (String.ofList [c]))
  | .record fields => .ok (fields.map fun f => .text f.1)
  | _ => .error .wrongType

/-- The formats to write in; without any, the console. -/
def formats (d : Document) : Except Error (List Document) :=
  if d.isGiven then (formatNames d).map (List.filter Document.isGiven)
  else .ok [.text "stdout"]

/-- Where a format is written. -/
def sinkOf (folder : String) : Document → Except Error Sink
  | .text "stdout" => .ok .console
  | .text "log" => (Path.fileIn folder "log.txt").map .file
  | .text "tensorboard" => .error .tensorboardMissing
  | d => .error (.unknownLogFormat d.shown)

/-- Opens a logger under a name. -/
def configure (j : Journal) (name : String) (folder : Document) (given : Document) :
    Except Error Journal := do
  match folder with
  | .text folder => do
      Path.check folder
      let names ← formats given
      let sinks ← names.mapM (sinkOf folder)
      let files := sinks.filterMap fun
        | .file path => some path
        | _ => none
      let j := files.foldl (fun j path => j.writeFile path "") j
      let j := j.setLogger name (Logger.new (some folder) sinks Logger.standardLength)
      if sinks.isEmpty || sinks = [.console] then .ok j
      else j.say name Logger.infoLevel [.text ("Logging to " ++ folder)]
  | _ => .error .folderNotText

/-- Sets the level of the logger of a name. -/
def setLevel (j : Journal) (name : String) (level : Document) : Journal :=
  match j.logger? name with
  | some l => j.setLogger name { l with level := level }
  | none => j

/-- The loggers of a run. -/
def moduleNames : List String :=
  ["problem", "solver"]

/-- Opens the loggers of a run. -/
def openLoggers (logs : String) (given level : Document) :
    List String → Journal → Except Error Journal
  | [], j => .ok j
  | name :: rest, j => do
      let j ← j.configure name (.text (Path.join logs name)) given
      openLoggers logs given level rest (j.setLevel name level)

/-- The system part of all settings, which has to be there. -/
def systemPart : Document → Except Error Fields
  | .record settings =>
      match settings.lookup "sys_args" with
      | none => .error .missingKey
      | some (.record fields) => .ok fields
      | some _ => .error .missingAttribute
  | _ => .error .wrongType

/-- The settings with an output folder; the given name is used if they have none. -/
def withOutputFolder (settings : Document) (fallback : String) :
    Except Error (Document × Document) := do
  let system ← systemPart settings
  let folder := (system.lookup "output_path").getD .null
  if folder.isGiven then .ok (settings, folder)
  else
    let folder := Document.text fallback
    let system := Document.record (Document.setField system "output_path" folder)
    match settings with
    | .record fields => .ok (.record (Document.setField fields "sys_args" system), folder)
    | d => .ok (d, folder)

/-- Prepares a run: all settings, with the output folder, and the journal.  `stamp` names the
folder of the logs. -/
def prepare (settings : Document) (fallback stamp : String) (withLoggers : Bool) :
    Except Error (Document × Journal) := do
  let (settings, folder) ← withOutputFolder settings fallback
  let system ← systemPart settings
  match folder with
  | .text folder => do
      Path.check folder
      let j := empty.print ("Output folder: " ++ folder)
      let copy ← Path.fileIn folder "all_args"
      let j := j.writeFile copy settings.shown
      if withLoggers then do
        let logs := Path.join (Path.join folder "logs") stamp
        let j := j.print ("log_dir: " ++ logs)
        let given := (system.lookup "log_formats").getD (.list [.text "stdout", .text "log"])
        let level := (system.lookup "log_level").getD (.whole Logger.infoLevel)
        let j ← openLoggers logs given level moduleNames j
        .ok (settings, j)
      else .ok (settings, j)
  | _ => .error .wrongType

end Journal
end ConvexContact
