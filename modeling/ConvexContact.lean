import ConvexContact.Main
import ConvexContact.Cone.Profile
import ConvexContact.Constraint.Tangent
import ConvexContact.ContactModel.Tangent
import ConvexContact.Decimal.Grid
import ConvexContact.Proofs.Cone.Regimes
import ConvexContact.Proofs.Cone.Bands
import ConvexContact.Proofs.Cone.Membership
import ConvexContact.Proofs.Matrices
import ConvexContact.Proofs.Tensors
import ConvexContact.Proofs.Permutations
import ConvexContact.Proofs.BlockSparse
import ConvexContact.Proofs.Graphs
import ConvexContact.Proofs.Problems
import ConvexContact.Proofs.Assembly
import ConvexContact.Proofs.Constraints
import ConvexContact.Proofs.Models
import ConvexContact.Proofs.Evaluations
import ConvexContact.Proofs.Operands
import ConvexContact.Proofs.Refinement
import ConvexContact.Proofs.Hessian
import ConvexContact.Proofs.Roles
import ConvexContact.Proofs.Agreement
import ConvexContact.Proofs.Reordering
import ConvexContact.Proofs.DualNumbers
import ConvexContact.Proofs.Cone.Jets
import ConvexContact.Proofs.Cone.Tangents
import ConvexContact.Proofs.Tangents
import ConvexContact.Proofs.Derivatives
import ConvexContact.Proofs.Construction
import ConvexContact.Proofs.Cone.Curvature
import ConvexContact.Proofs.Definite
import ConvexContact.Proofs.LinearSystems
import ConvexContact.Proofs.Newton
import ConvexContact.Proofs.Convexity
import ConvexContact.Proofs.Descent
import ConvexContact.ContactProblem.Session
import ConvexContact.Proofs.Sessions
import ConvexContact.Proofs.Lifecycle
import ConvexContact.Proofs.Cholesky
import ConvexContact.Proofs.Inertia
import ConvexContact.Proofs.Solvability
import ConvexContact.Proofs.Layout
import ConvexContact.Proofs.Collision
import ConvexContact.Proofs.Cone.Pushes
import ConvexContact.Proofs.Impact
import ConvexContact.Proofs.Momentum
import ConvexContact.Proofs.Cone.Turning
import ConvexContact.Proofs.TurnedBlocks
import ConvexContact.Proofs.Turning
import ConvexContact.Proofs.Contacts
import ConvexContact.Proofs.Cone.NearestPoint
import ConvexContact.Proofs.Cone.Smoothness
import ConvexContact.Proofs.Cone.Continuity
import ConvexContact.Proofs.Cone.Rescaling
import ConvexContact.Proofs.Cone.Homogeneity
import ConvexContact.Proofs.PartialReals
import ConvexContact.Proofs.Cone.Definedness
import ConvexContact.Proofs.Grouping
import ConvexContact.Proofs.GraphOrders
import ConvexContact.Proofs.EdgeLookup
import ConvexContact.Proofs.TripleProduct
import ConvexContact.Proofs.Traversals
import ConvexContact.Proofs.IndexTables
import ConvexContact.Proofs.Compositions
import ConvexContact.Proofs.Expansions
import ConvexContact.Proofs.Rows
import ConvexContact.Proofs.Histories
import ConvexContact.Proofs.OperandSizes
import ConvexContact.Proofs.ContactFrames
import ConvexContact.Proofs.PointContacts
import ConvexContact.Proofs.LogTags
import ConvexContact.Proofs.LogItems
import ConvexContact.Proofs.LogTables
import ConvexContact.Proofs.Recordings
import ConvexContact.Proofs.RecordedTables
