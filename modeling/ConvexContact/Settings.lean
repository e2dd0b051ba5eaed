import ConvexContact.Document.Reader
import ConvexContact.Document.Text
import ConvexContact.Error

/-!
# Settings

Settings are records of documents.  A part of the settings has a fixed list of names with default
values; given values replace the defaults, and names that are not in the list are ignored.

**Reserved names.**  A part is built by setting one field after the other, and the names of what a
part is made of do not serve as names of fields.

**Parts.**  The system part has the random seed, the output folder, the device, the number format
and the log settings.  The contact part has the time step, the default parameters of frictional
contacts and the bounds of Newton's method.
-/

namespace ConvexContact

/-- Named values of a part of the settings. -/
abbrev Fields :=
  List (String × Document)

namespace Settings

open Document

/-- The fields of a record. -/
def fieldsOf : Document → Except Error Fields
  | record fields => .ok fields
  | _ => .error .wrongType

/-- Sets a field.  Some names are reserved: two of them cannot be set, and a third one replaces all
fields by those of a record. -/
def assign (fields : Fields) (name : String) (value : Document) : Except Error Fields :=
  if name = "__class__" then .error .wrongType
  else if name = "__weakref__" then .error .reservedName
  else if name = "__dict__" then fieldsOf value
  else .ok (setField fields name value)

/-- A part of the settings, by setting the given fields in their order. -/
def ofFields (given : Fields) : Except Error Fields :=
  if given.any (·.1 == "self") then .error .wrongType
  else given.foldlM (fun fields f => assign fields f.1 f.2) []

/-- The first list of fields, with the values that the second one gives for its names. -/
def merge (first second : Fields) : Fields :=
  first.map fun (name, value) => (name, (second.lookup name).getD value)

/-- A part of the settings with the values that another one gives for its names. -/
def combine (first second : Fields) : Except Error Fields := do
  let first ← ofFields first
  let second ← ofFields second
  ofFields (merge first second)

/-- The system part without given values. -/
def systemDefaults : Fields :=
  [("seed", whole 0),
   ("output_path", null),
   ("device", text "cpu"),
   ("dtype", text "float64"),
   ("log_formats", list [text "stdout"]),
   ("log_level", whole 20)]

/-- The contact part without given values. -/
def contactDefaults : Fields :=
  [("time_step", fraction (1 / 100)),
   ("mu", fraction (1 / 2)),
   ("stiffness", fraction 1000000),
   ("dissipation_time_scale", fraction (1 / 10)),
   ("beta", fraction 1),
   ("sigma", fraction (1 / 1000)),
   ("transition_width", fraction (1 / 50)),
   ("newton_iterations", whole 20),
   ("newton_tolerance", fraction (1 / 10000000000))]

/-- The value of a name. -/
def valueOf (fields : Fields) (name : String) : Document :=
  (fields.lookup name).getD null

/-- The system part with the given values. -/
def system (given : Document) : Except Error Fields :=
  (fieldsOf given).bind (combine systemDefaults)

/-- The contact part with the given values; its time step has to be positive. -/
def contact (given : Document) : Except Error Fields := do
  let fields ← (fieldsOf given).bind (combine contactDefaults)
  let timeStep := valueOf fields "time_step"
  if ← timeStep.atMost (whole 0) then .error (.timeStepNotPositive timeStep.shown)
  else .ok fields

/-- Whether a document mentions a section: as a field, as an item, or within a text. -/
def mentions (name : String) : Document → Except Error Bool
  | record fields => .ok (fields.any (·.1 == name))
  | list items => .ok (items.any fun
      | text s => s == name
      | _ => false)
  | text s => .ok ((s.splitOn name).length != 1)
  | _ => .error .wrongType

/-- The sections that a settings file has to have. -/
def requiredSections : List String :=
  ["sys_args", "sap_args"]

/-- Checks that a settings file has its sections. -/
def checkSections (path : String) (d : Document) : List String → Except Error Document
  | [] => .ok d
  | name :: rest => do
      if ← mentions name d then checkSections path d rest
      else .error (.settingsSectionMissing path name)

/-- The greatest number that a file can be known by. -/
def maxFileNumber : Int :=
  2147483647

/-- The path of a settings file; a number stands for an open file, of which there is none. -/
def pathOf : Document → Except Error String
  | text path => .ok path
  | whole n =>
      if -maxFileNumber - 1 ≤ n ∧ n ≤ maxFileNumber then
        .error (.settingsFileMissing (toString n))
      else .error .tooLarge
  | truth b => .error (.settingsFileMissing (truth b).shown)
  | _ => .error .wrongType

/-- The settings in a file, given the contents of the file if there is one. -/
def load (path : String) (contents? : Option String) : Except Error Document :=
  match contents? with
  | none => .error (.settingsFileMissing path)
  | some contents => do
      let d ← read contents
      checkSections path d requiredSections

end Settings
end ConvexContact
