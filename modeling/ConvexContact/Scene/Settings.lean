import ConvexContact.Scene
import ConvexContact.Settings
import ConvexContact.Settings.Names
import ConvexContact.Tensor.Nested
import ConvexContact.Text.Number

/-!
# Settings of a scene

The settings of a scene fix the number format, the time step and the parameters of contacts that
do not have their own.  Numbers keep the form in which the settings give them until they are used.

**Formats.**  Tensors are made in the format that the settings name, on the device that they name.
Where tensors can be made but not computed with, a body or a contact is refused for its shape first.

**Parameters.**  A parameter may be given as the text of a number.  Such a parameter is checked like
any other, but it is quoted: an evaluation that computes with it is refused.
-/

namespace ConvexContact

/-- How the tensors of a scene are made. -/
inductive SceneFormat
  | numbers (format : Format)
  /-- Tensors can be made, but not computed with. -/
  | unfit (reason : Error)
  | refused (reason : Error)
  deriving DecidableEq, Repr

namespace SceneFormat

/-- The format in which numbers are read into tensors, if tensors can be made. -/
def forTensors : SceneFormat → Except Error Format
  | numbers format => .ok format
  | unfit _ => .ok .double
  | refused reason => .error reason

/-- The format named by settings, on a device of the given kind. -/
def onDevice (kind : String) : Names.NumberFormat → SceneFormat
  | .other => refused .wrongType
  | .binary format =>
      if kind = Names.processor then numbers format
      else if kind = Names.emptyDevice then unfit .deviceUnusable
      else refused (Names.deviceRefusal kind)
  | .wholeNumbers =>
      if kind = Names.processor ∨ kind = Names.emptyDevice then unfit .wrongType
      else refused (Names.deviceRefusal kind)

end SceneFormat

/-- The settings of a scene. -/
structure SceneSettings where
  format : SceneFormat
  system : Fields
  contact : Fields

namespace SceneSettings

/-- The format that the settings name. -/
def formatNamed : Document → Except Error Names.NumberFormat
  | .text name => Names.format name
  | _ => .error .wrongType

/-- The kind of the device that the settings name. -/
def deviceNamed : Document → Except Error String
  | .text name =>
      match Names.deviceKind? name with
      | some kind => .ok kind
      | none => .error .unknownDevice
  | .whole _ => .error .unknownDevice
  | _ => .error .wrongType

/-- Number of seeds. -/
def seedCount : Int :=
  4294967296

/-- Refuses a value that is no random seed. -/
def checkSeed : Document → Except Error Unit
  | .whole n => if 0 ≤ n ∧ n < seedCount then .ok () else .error .seedOutOfRange
  | .truth _ => .ok ()
  | .text s => if s.toList.contains '\x00' then .error .nullCharacter else .error .wrongType
  | _ => .error .wrongType

/-- A part of the settings, which may be left out. -/
def part (settings : Document) (name : String) : Document :=
  (settings.field? name).getD (.record [])

/-- The settings of a scene among all settings. -/
def ofDocument (settings : Document) : Except Error SceneSettings := do
  match settings with
  | .record _ => do
      let system ← Settings.system (part settings "sys_args")
      let contact ← Settings.contact (part settings "sap_args")
      let named ← formatNamed (Settings.valueOf system "dtype")
      let kind ← deviceNamed (Settings.valueOf system "device")
      checkSeed (Settings.valueOf system "seed")
      .ok ⟨.onDevice kind named, system, contact⟩
  | _ => .error .missingAttribute

/-- The time step of problems that do not have their own. -/
def timeStep (s : SceneSettings) : Document :=
  Settings.valueOf s.contact "time_step"

/-- Names of the parameters of a contact. -/
def parameterNames : List String :=
  ["mu", "stiffness", "dissipation_time_scale", "beta", "sigma", "transition_width"]

/-- The first name that no parameter has. -/
def unknownName? (given : Fields) : Option String :=
  (given.map (·.1)).find? fun name => !parameterNames.contains name

/-- A parameter of a contact: the given one, or else that of the settings. -/
def parameter (s : SceneSettings) (given : Fields) (name : String) : Except Error Machine :=
  match (given.lookup name).getD (Settings.valueOf s.contact name) with
  | .text t =>
      match Text.number? t with
      | some x => .ok (.quoted x .wrongType)
      | none => .error .unreadableNumber
  | d => (Machine.ofDocument d).bind Scalar.operand

/-- Parameters of a contact, where the given ones replace those of the settings.  They are taken
over one after the other, each with a check, in place of parameters that are in their ranges. -/
def parameters (s : SceneSettings) (given : Fields) : Except Error (ConeParameters Machine) := do
  match unknownName? given with
  | some name => .error (.unknownParameter name)
  | none => do
      let p : ConeParameters Machine := .ofMaterial 1 1 1
      let friction ← s.parameter given "mu"
      let p ← { p with friction := friction }.validate
      let stiffness ← s.parameter given "stiffness"
      let p ← { p with stiffness := stiffness }.validate
      let dissipation ← s.parameter given "dissipation_time_scale"
      let p ← { p with dissipation := dissipation }.validate
      let beta ← s.parameter given "beta"
      let p ← { p with beta := beta }.validate
      let sigma ← s.parameter given "sigma"
      let p ← { p with sigma := sigma }.validate
      let width ← s.parameter given "transition_width"
      { p with width := width }.validate

/-- A problem without bodies. -/
def newProblem (s : SceneSettings) (timeStep? : Option Machine) :
    Except Error (ContactProblem Machine) := do
  let timeStep ← match timeStep? with
    | some x => .ok x
    | none => Machine.ofDocument s.timeStep
  ContactProblem.ofTimeStep timeStep

/-- Adds a body to a problem; the result has its position. -/
def addBody (s : SceneSettings) (p : ContactProblem Machine) (b : Body Machine) :
    Except Error (Nat × ContactProblem Machine) :=
  match s.format with
  | .numbers format => Scene.addBody format p b.mass b.freeVelocity
  | .refused reason => .error reason
  | .unfit reason =>
      match Scene.addBody .double p b.mass b.freeVelocity with
      | .ok _ | .error .dynamicsNotSymmetric => .error reason
      | .error e => .error e

/-- The constraint of a point contact, with the parameters of the settings unless others are
given. -/
def contactConstraint (s : SceneSettings) (contact : PointContact Machine)
    (parameters? : Option (ConeParameters Machine)) : Except Error (Constraint Machine) := do
  let parameters ← match parameters? with
    | some p => .ok p
    | none => s.parameters []
  match s.format with
  | .numbers format => Scene.contactConstraint format parameters contact
  | .refused reason => .error reason
  | .unfit _ =>
      if contact.normal.shape = [3] then .error .operands
      else .error (.normalNotVector contact.normal.shape)

/-- The problem of a colliding pair with the given friction. -/
def collidingPair (s : SceneSettings) (pair : CollidingPair Machine) (friction : Document)
    (ids : IdTable) (handle : Nat) : Except Error (ContactProblem Machine × IdTable) := do
  let timeStep ← Machine.ofDocument s.timeStep
  match s.format with
  | .numbers format =>
      Scene.collidingPair format timeStep (s.parameters [("mu", friction)]) pair ids handle
  | _ => do
      let p ← ContactProblem.ofTimeStep timeStep
      let first ← pair.body 0
      let _ ← s.addBody p first
      .error .operands

end SceneSettings
end ConvexContact
