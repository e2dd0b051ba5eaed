/-!
# Causes of failure

Every operation that can refuse its input returns one of the causes listed here.

**Kinds.**  `Error.kind` says in which way the input was refused: an unacceptable value, a position
outside a list, operands that do not fit together, and so on.

**Texts.**  `Error.message?` gives the sentence shown to a user.  Causes that arise below the level
of contact problems, such as operands of different sizes, have no sentence of their own.
-/

namespace ConvexContact

/-- The number from which a friction-cone parameter is refused. -/
inductive ParameterFlaw
  | negativeFriction
  | stiffnessNotPositive
  | negativeDissipation
  | betaNotPositive
  | sigmaNotPositive
  | widthOutOfRange
  deriving DecidableEq, Repr

/-- The two Jacobian blocks of a constraint. -/
inductive Side
  | first
  | second
  deriving DecidableEq, Repr

/-- Causes of failure. -/
inductive Error
  -- Partial permutations
  | negativeDomain (size : Int)
  | selectedOutOfRange (index : Int) (size : Nat)
  | selectedTwice (index : Int)
  | invalidPermutedIndex (permuted : Int) (element : Nat)
  | notOntoPermutedIndices (count element : Nat) (permuted : Int)
  | domainIndexOutOfRange (index : Int) (size : Nat)
  | notParticipating (index : Int)
  | permutedIndexOutOfRange (permuted : Int) (size : Nat)
  | compositionMismatch (permutedSize otherSize : Nat)
  | blockCountMismatch (expected given : Nat)
  | negativeBlockSize (size : Int)
  | leadingSizeMismatch (expected given : Nat)
  -- Graphs
  | negativeCliqueCount (count : Int)
  | unorderedEdges
  | edgeCliqueOutOfRange (clique : Int) (count : Int)
  | referencesMissingClique (constraint : Nat) (clique count : Int)
  -- Block-sparse matrices
  | negativeBlockSizes
  | blockOutOfRange (row col : Int) (rows cols : Nat)
  | blockAlreadyAdded (row col : Nat)
  | blockShapeMismatch (row col expectedRows expectedCols : Nat) (shape : List Nat)
  | vectorSizeMismatch (expected given : Nat)
  -- Constraints
  | parameter (flaw : ParameterFlaw) (value : String)
  | gapNotScalar (shape : List Nat)
  | contactJacobianShape (shape : List Nat)
  | constraintFunctionNotVector (shape : List Nat)
  | noEquations
  | jacobianNotMatrix (side : Side) (shape : List Nat)
  | jacobianRowMismatch (side : Side) (rows equations : Nat)
  | negativeClique (clique : Int)
  | secondCliqueIncomplete
  | sameCliqueTwice (clique : Int)
  | missingSecondVelocity
  -- Contact frames
  | normalNotVector (shape : List Nat)
  | zeroNormal
  | worldJacobianShape (shape : List Nat)
  -- Problems
  | timeStepNotPositive (value : String)
  | dynamicsWithoutVelocities
  | velocityTotalMismatch (entries velocities : Nat)
  | cliqueListMismatch (matrices velocities : Nat)
  | frozen
  | dynamicsNotSquare (shape : List Nat)
  | emptyClique
  | freeVelocityShape (size : Nat) (shape : List Nat)
  | dynamicsNotSymmetric
  | constraintCliqueMissing (clique count : Nat)
  | jacobianColumnMismatch (clique cols velocities : Nat)
  -- Bundles and models
  | cliquesPermutationMismatch (domain cliques : Nat)
  | delassusShape (constraints : Nat) (shape : List Nat)
  | regularizationNotPositive
  | velocityCountMismatch (expected given : Nat)
  | unknownParameter (name : String)
  -- Below the level of contact problems
  | position
  | operands
  | notPositiveDefinite
  | singular
  | uneven
  | zeroDivision
  | tooLarge
  | noLength
  -- Settings, output and logs
  | settingsFileMissing (path : String)
  | settingsSectionMissing (path part : String)
  | malformedDocument
  | tooManyDigits
  | tooDeep
  | unreadableNumber
  | wrongType
  | missingKey
  | missingAttribute
  | reservedName
  | seedOutOfRange
  | unknownDevice
  | deviceUnusable
  | deviceUnsupported
  | folderNotText
  | tensorboardMissing
  | deviceMissing
  | emptyFolderName
  | nullCharacter
  | nameTooLong
  | folderInPlace
  | unknownLogFormat (format : String)
  | figureNotWritable
  | usage
  | helpRequested
  deriving DecidableEq, Repr

/-- Ways in which input is refused. -/
inductive ErrorKind
  | value
  | index
  | operation
  | factorization
  | division
  | overflow
  | type
  | key
  | attribute
  | assertion
  | file
  | folder
  | system
  | recursion
  | document
  | unsupported
  | unimplemented
  /-- The command line asks to stop with an exit code. -/
  | exit (code : Nat)
  deriving DecidableEq, Repr

/-- A list in round brackets; a single entry is followed by a comma. -/
def parenthesized : List String → String
  | [] => "()"
  | [x] => "(" ++ x ++ ",)"
  | xs => "(" ++ String.intercalate ", " xs ++ ")"

/-- The text of a shape. -/
def shapeText (shape : List Nat) : String :=
  parenthesized (shape.map toString)

namespace ParameterFlaw

/-- What a friction-cone parameter has to satisfy. -/
def requirement : ParameterFlaw → String
  | negativeFriction => "Friction coefficient must be non-negative"
  | stiffnessNotPositive => "Stiffness must be positive"
  | negativeDissipation => "Dissipation time scale must be non-negative"
  | betaNotPositive => "beta must be positive"
  | sigmaNotPositive => "sigma must be positive"
  | widthOutOfRange => "transition_width must lie in [0, pi/8)"

end ParameterFlaw

namespace Side

/-- The name of a side. -/
def text : Side → String
  | first => "first"
  | second => "second"

end Side

namespace Error

/-- The way in which the input was refused. -/
def kind : Error → ErrorKind
  | domainIndexOutOfRange .. | permutedIndexOutOfRange .. | position => .index
  | frozen | operands | unknownDevice | deviceUnusable => .operation
  | notPositiveDefinite | singular => .factorization
  | zeroDivision => .division
  | tooLarge => .overflow
  | noLength | wrongType => .type
  | missingKey => .key
  | missingAttribute | reservedName => .attribute
  | folderNotText | tensorboardMissing | deviceMissing => .assertion
  | emptyFolderName => .file
  | folderInPlace => .folder
  | nameTooLong => .system
  | tooDeep => .recursion
  | malformedDocument => .document
  | figureNotWritable => .unsupported
  | deviceUnsupported => .unimplemented
  | usage => .exit 2
  | helpRequested => .exit 0
  | _ => .value

/-- The sentence shown to a user, for the causes that have one. -/
def message? : Error → Option String
  | negativeDomain size => s!"domain_size must be non-negative, got {size}."
  | selectedOutOfRange index size => s!"Index {index} is out of range [0, {size})."
  | selectedTwice index => s!"Index {index} appears more than once in the selected sequence."
  | invalidPermutedIndex permuted element =>
      s!"Invalid permuted index {permuted} for element {element}."
  | notOntoPermutedIndices count element permuted =>
      let last : Int := count - 1
      s!"Permuted indices must be a permutation of 0..{last}; " ++
        s!"element {element} maps to {permuted}."
  | domainIndexOutOfRange index size => s!"Index {index} is out of range [0, {size})."
  | notParticipating index => s!"Index {index} does not participate in this permutation."
  | permutedIndexOutOfRange permuted size =>
      s!"Permuted index {permuted} is out of range [0, {size})."
  | compositionMismatch permutedSize otherSize =>
      s!"Cannot compose: the permuted domain of size {permutedSize} " ++
        s!"does not match the other domain of size {otherSize}."
  | blockCountMismatch expected given => s!"Expected {expected} block sizes, got {given}."
  | negativeBlockSize size => s!"Block sizes must be non-negative, got {size}."
  | leadingSizeMismatch expected given =>
      s!"Expected a leading dimension of {expected}, got {given}."
  | negativeCliqueCount count => s!"num_cliques must be non-negative, got {count}."
  | unorderedEdges => "Graph edges must be unique and sorted by clique pair."
  | edgeCliqueOutOfRange clique count =>
      s!"Clique index {clique} is out of range [0, {count})."
  | referencesMissingClique constraint clique count =>
      s!"Constraint {constraint} references clique {clique}, but only {count} cliques exist."
  | negativeBlockSizes => "Block sizes must be non-negative."
  | blockOutOfRange row col rows cols =>
      s!"Block ({row}, {col}) is out of range for a {rows}x{cols} block matrix."
  | blockAlreadyAdded row col => s!"Block ({row}, {col}) was already added."
  | blockShapeMismatch row col expectedRows expectedCols shape =>
      s!"Block ({row}, {col}) must have shape " ++ shapeText [expectedRows, expectedCols] ++
        ", got " ++ shapeText shape ++ "."
  | vectorSizeMismatch expected given => s!"Expected a vector of size {expected}, got {given}."
  | parameter flaw value => s!"{flaw.requirement}, got {value}."
  | gapNotScalar shape => "phi0 must be a scalar, got shape " ++ shapeText shape ++ "."
  | contactJacobianShape shape =>
      "A friction cone constraint needs a 3-row Jacobian, got shape " ++ shapeText shape ++ "."
  | constraintFunctionNotVector shape =>
      "The constraint function must be a vector, got shape " ++ shapeText shape ++ "."
  | noEquations => "A constraint must have at least one equation."
  | jacobianNotMatrix side shape =>
      s!"The {side.text} clique Jacobian must be a matrix, got shape " ++ shapeText shape ++ "."
  | jacobianRowMismatch side rows equations =>
      s!"The {side.text} clique Jacobian has {rows} rows, " ++
        s!"but the constraint has {equations} equations."
  | negativeClique clique => s!"Clique index must be non-negative, got {clique}."
  | secondCliqueIncomplete => "The second clique and its Jacobian must be provided together."
  | sameCliqueTwice clique =>
      s!"A two-clique constraint must reference two different cliques, got {clique} twice."
  | missingSecondVelocity =>
      "A two-clique constraint needs the velocity of its second clique."
  | normalNotVector shape =>
      "The contact normal must be a 3D vector, got shape " ++ shapeText shape ++ "."
  | zeroNormal => "The contact normal must be non-zero."
  | worldJacobianShape shape =>
      "The world Jacobian must have 3 rows, got shape " ++ shapeText shape ++ "."
  | timeStepNotPositive value => s!"time_step must be positive, got {value}."
  | dynamicsWithoutVelocities => "A and v_star must be provided together."
  | velocityTotalMismatch entries velocities =>
      s!"v_star has {entries} entries, but the cliques have {velocities} velocities."
  | cliqueListMismatch matrices velocities =>
      s!"Got {matrices} dynamics matrices but {velocities} free-motion velocities."
  | frozen => "The problem is finalized and can no longer be modified."
  | dynamicsNotSquare shape =>
      "The dynamics matrix must be square, got shape " ++ shapeText shape ++ "."
  | emptyClique => "A clique must have at least one velocity."
  | freeVelocityShape size shape =>
      s!"v_star must be a vector of size {size}, got shape " ++ shapeText shape ++ "."
  | dynamicsNotSymmetric => "The dynamics matrix must be symmetric."
  | constraintCliqueMissing clique count =>
      s!"The constraint references clique {clique}, but only {count} cliques exist."
  | jacobianColumnMismatch clique cols velocities =>
      s!"The Jacobian block for clique {clique} has {cols} columns, " ++
        s!"but the clique has {velocities} velocities."
  | cliquesPermutationMismatch domain cliques =>
      s!"The cliques permutation is defined over {domain} cliques, " ++
        s!"but the problem has {cliques}."
  | delassusShape constraints shape =>
      s!"Expected {constraints} Delassus diagonal entries, got shape " ++ shapeText shape ++ "."
  | regularizationNotPositive => "Constraint regularization must be strictly positive."
  | velocityCountMismatch expected given => s!"Expected {expected} velocities, got {given}."
  | unknownParameter name => s!"Unknown friction cone parameter: {name}"
  | settingsFileMissing path => s!"Config file {path} does not exist."
  | settingsSectionMissing path part =>
      s!"Config file {path} is missing the '{part}' section."
  | unknownLogFormat format => s!"Unknown format specified: {format}"
  | figureNotWritable =>
      "The formats stdout, log are not supported for the figure value logged.\n" ++
        "You can exclude formats via the \x60exclude\x60 parameter of the logger's " ++
        "\x60record\x60 function."
  | usage => "2"
  | helpRequested => "0"
  | position | operands | notPositiveDefinite | singular | uneven | zeroDivision | tooLarge
  | noLength | malformedDocument | tooManyDigits | tooDeep | unreadableNumber | wrongType
  | missingKey | missingAttribute | reservedName | seedOutOfRange | unknownDevice | deviceUnusable
  | deviceUnsupported | folderNotText | tensorboardMissing | deviceMissing | emptyFolderName
  | nullCharacter | nameTooLong | folderInPlace => none

end Error

end ConvexContact
