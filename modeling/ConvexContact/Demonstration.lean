import ConvexContact.ContactModel.Newton
import ConvexContact.Document.Indented
import ConvexContact.Log.Journal
import ConvexContact.Scene.Settings

/-!
# The demonstration

**Input.**  Settings with an output folder, the parameters of contacts and a colliding pair.

**Procedure.**  The output folder is prepared, the pair is set up, and Newton's method is run from
the free motion, with a table for every iteration.

**Results.**  Velocities of all bodies, contact impulses, the momentum before and after, and the
number of iterations; they are also written to a file of the output folder.
-/

namespace ConvexContact

/-- Results of the demonstration. -/
structure Outcome where
  velocities : Tensor Machine
  impulses : Tensor Machine
  momentumBefore : Machine
  momentumAfter : Machine
  iterations : Nat

namespace Demonstration

open Document

/-- The pair of the settings that do not describe one. -/
def standardPair : Document :=
  record
    [("masses", list [fraction 1, fraction 2]),
     ("free_velocities", list [fraction 1, fraction (-1)]),
     ("mu", fraction 0),
     ("phi0", fraction 0)]

/-- The settings used without a settings file. -/
def standardSettings : Document :=
  record
    [("sys_args", record
        [("seed", whole 0),
         ("output_path", text "./output/colliding_pair"),
         ("dtype", text "float64"),
         ("log_formats", list [text "stdout", text "log"])]),
     ("sap_args", record
        [("time_step", fraction (1 / 100)),
         ("stiffness", fraction 1000000),
         ("dissipation_time_scale", fraction (1 / 10)),
         ("newton_iterations", whole 30),
         ("newton_tolerance", fraction (1 / 10000000000))]),
     ("scene_args", standardPair)]

/-- A field that has to be there. -/
def required (d : Document) (name : String) : Except Error Document :=
  match d with
  | record fields =>
      match fields.lookup name with
      | some x => .ok x
      | none => .error .missingKey
  | _ => .error .wrongType

/-- The item at a position of what stands in place of a list. -/
def itemAt (d : Document) (i : Nat) : Except Error Document :=
  match d with
  | list items => entryAt? items i
  | text s => entryAt? (s.toList.map fun c => text (String.ofList [c])) i
  | record _ => .error .missingKey
  | _ => .error .wrongType

/-- The body at a position of two lists, in the format of the scene. -/
def bodyAt (s : SceneSettings) (masses velocities : Document) (i : Nat) :
    Except Error (Body Machine) := do
  let mass ← itemAt masses i
  let velocity ← itemAt velocities i
  let format ← s.format.forTensors
  let mass ← Tensor.ofDocument format mass
  let velocity ← Tensor.ofDocument format (list [velocity])
  .ok ⟨mass, velocity⟩

/-- The pair in the settings, with its friction. -/
def pairOf (s : SceneSettings) (settings : Document) :
    Except Error (CollidingPair Machine × Document) := do
  let scene := (settings.field? "scene_args").getD standardPair
  let masses ← required scene "masses"
  let velocities ← required scene "free_velocities"
  let gap := (scene.field? "phi0").getD (fraction 0)
  let pair : CollidingPair Machine :=
    { body := bodyAt s masses velocities
      gap := do
        let format ← s.format.forTensors
        Tensor.ofDocument format gap }
  .ok (pair, (scene.field? "mu").getD (fraction 0))

/-- The greatest number of iterations that can be counted. -/
def maxIterations : Int :=
  9223372036854775807

/-- A whole number that bounds the iterations. -/
def iterationBound : Document → Except Error Int
  | whole n => if n ≤ maxIterations then .ok n else .error .tooLarge
  | truth b => .ok (if b then 1 else 0)
  | _ => .error .wrongType

/-- Records an iteration and writes its table. -/
def reportIteration (j : Journal) (r : NewtonRecord Machine) : Except Error Journal :=
  j.act "solver" fun l =>
    let put (l : Logger Machine) (name : String) (x : Machine) :=
      l.record ("newton/" ++ name) (.number (.literal x.toFloat)) .nothing
    let l := put l "cost" r.cost
    let l := put l "momentum_cost" r.momentumCost
    let l := put l "regularizer_cost" r.regularizerCost
    (put l "grad_norm" r.gradientNorm).dump

/-- The entries of a tensor as a document. -/
def entriesOf (x : Tensor Machine) : Document :=
  list (x.entries.map fun e => fraction e.toFloat)

/-- The results as they are written to a file. -/
def report (o : Outcome) : Document :=
  record
    [("velocities", entriesOf o.velocities),
     ("impulses", entriesOf o.impulses),
     ("momentum_before", fraction o.momentumBefore.toFloat),
     ("momentum_after", fraction o.momentumAfter.toFloat),
     ("iterations", whole o.iterations)]

/-- The model of the pair, with the sentences of the problem's logger. -/
def buildModel (p : ContactProblem Machine) (j : Journal) :
    Except Error (ContactModel Machine × Journal) := do
  let (m?, _, lines) := ContactModel.ofProblem p
  let j ← lines.foldlM (fun (j : Journal) line =>
    j.say "problem" Logger.debugLevel [.text line]) j
  let m ← m?
  .ok (m, j)

/-- The results at the velocities that a solver has found. -/
def outcome (m : ContactModel Machine) (v : Tensor Machine) (iterations : Nat) :
    Except Error Outcome := do
  let velocities ← m.expandTensor v
  let impulses ← m.impulsesTensor v
  let before ← m.freeMomentumTensor
  let after ← m.dynamicsTimesTensor v
  .ok ⟨velocities, impulses, Vec.sum before.entries, Vec.sum after.entries, iterations⟩

/-- Status lines with the results. -/
def announce (o : Outcome) (j : Journal) : Journal :=
  let short (x : Machine) := Decimal.significant 6 x.toFloat
  let j := j.header ("velocities: " ++ (entriesOf o.velocities).shown)
  let j := j.header ("impulses: " ++ (entriesOf o.impulses).shown)
  j.header ("momentum: " ++ short o.momentumBefore ++ " -> " ++ short o.momentumAfter)

/-- A tolerance; a whole number has to fit into 64 bits, with a sign or without. -/
def toleranceOf (d : Document) : Except Error Machine :=
  match d with
  | whole n =>
      if -maxIterations - 1 ≤ n ∧ n ≤ 2 * maxIterations + 1 then Machine.ofDocument d
      else .error .tooLarge
  | _ => Machine.ofDocument d

/-- The velocities that Newton's method finds within the settings' bounds; the tolerance is needed
only if there is an iteration. -/
def solve (s : SceneSettings) (m : ContactModel Machine) :
    Except Error (Tensor Machine × List (NewtonRecord Machine)) := do
  let bound ← iterationBound (Settings.valueOf s.contact "newton_iterations")
  if bound ≤ 0 then .ok (m.freeVelocityTensor, [])
  else do
    let tolerance ← toleranceOf (Settings.valueOf s.contact "newton_tolerance")
    m.newton m.freeVelocityTensor bound tolerance

/-- A run without iterations has no course to be shown, and the log formats have to be such that a
name can be looked for in them. -/
def checkCourse (s : SceneSettings) (records : List (NewtonRecord Machine)) :
    Except Error Unit := do
  if records.isEmpty then .error .position
  else do
    let _ ← Settings.mentions "tensorboard" (Settings.valueOf s.system "log_formats")
    .ok ()

/-- The demonstration; `fallback` is the output folder of settings without one, and `stamp` names
the folder of the logs. -/
def run (settings : Document) (fallback stamp : String) : Except Error (Outcome × Journal) := do
  let (settings, j) ← Journal.prepare settings fallback stamp true
  let s ← SceneSettings.ofDocument settings
  let (pair, friction) ← pairOf s settings
  let (p, _) ← s.collidingPair pair friction IdTable.empty 0
  let (m, j) ← buildModel p j
  let j := j.header
    (m.text ++ s!": {p.numCliques} cliques, {p.numConstraints} constraints")
  let (v, records) ← solve s m
  let j ← records.foldlM reportIteration j
  let o ← outcome m v records.length
  let j := announce o j
  checkCourse s records
  let folder := (Settings.valueOf s.system "output_path").shown
  let _ ← Path.fileIn folder "convergence.png"
  let file ← Path.fileIn folder "result.json"
  .ok (o, j.writeFile file ((report o).indented 0))

end Demonstration
end ConvexContact
