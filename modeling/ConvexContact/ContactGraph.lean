import ConvexContact.Blocks
import ConvexContact.PartialPermutation

/-!
# Contact graphs

The nodes of a contact graph are the cliques of a problem.  Two cliques are joined by an edge if
some constraint acts on both; a constraint on a single clique gives an edge from that clique to
itself.  An edge carries the constraints that act on its pair, in the order of the problem.

**Order.**  Edges are ordered by their pairs, first by the first clique and then by the second, so
the order of the constraints does not matter.

**Derived permutations.**  The cliques that occur in edges in the order of their first occurrence,
the constraints in the order of the edges, and the scalar equations of those constraints.
-/

namespace ConvexContact

/-- An edge: a pair of cliques, the constraints on it and the number of their equations. -/
structure Edge where
  first : Int
  second : Int
  constraints : List Int
  equations : Int
  deriving DecidableEq, Repr

/-- What a constraint contributes to a graph: the cliques it acts on and its equations. -/
structure Member where
  first : Int
  second? : Option Int
  equations : Int
  deriving DecidableEq, Repr

/-- The order of pairs of cliques. -/
def pairLt (a b : Int × Int) : Bool :=
  a.1 < b.1 || (a.1 == b.1 && a.2 < b.2)

namespace Edge

/-- The pair of cliques. -/
def cliques (e : Edge) : Int × Int :=
  (e.first, e.second)

/-- Whether the edge joins a clique to itself. -/
def isSelfPair (e : Edge) : Bool :=
  e.first == e.second

def numConstraints (e : Edge) : Nat :=
  e.constraints.length

end Edge

namespace Member

/-- The second clique; the first one again, if there is only one. -/
def secondOrFirst (m : Member) : Int :=
  m.second?.getD m.first

/-- The cliques in ascending order. -/
def pair (m : Member) : Int × Int :=
  if m.first ≤ m.secondOrFirst then (m.first, m.secondOrFirst) else (m.secondOrFirst, m.first)

end Member

/-- A graph on cliques whose edges are ordered by their pairs. -/
structure ContactGraph where
  numCliques : Nat
  edges : List Edge
  deriving DecidableEq, Repr

namespace ContactGraph

/-- Whether each pair is below the next. -/
def ascending : List (Int × Int) → Bool
  | [] => true
  | [_] => true
  | a :: b :: rest => pairLt a b && ascending (b :: rest)

/-- The first clique of an edge that does not exist. -/
def missingEdgeClique? (numCliques : Int) (edges : List Edge) : Option Int :=
  (edges.flatMap fun e => [e.first, e.second]).find? fun c => c < 0 ∨ numCliques ≤ c

/-- The graph with given edges, which have to be in order. -/
def ofEdges (numCliques : Int) (edges : List Edge) : Except Error ContactGraph :=
  if numCliques < 0 then .error (.negativeCliqueCount numCliques)
  else if ascending (edges.map Edge.cliques) then
    match missingEdgeClique? numCliques edges with
    | some c => .error (.edgeCliqueOutOfRange c numCliques)
    | none => .ok ⟨numCliques.toNat, edges⟩
  else .error .unorderedEdges

/-- Adds a constraint to the edge of its pair, which is created if there is none. -/
def insertMember (pair : Int × Int) (index : Int) (equations : Int) : List Edge → List Edge
  | [] => [⟨pair.1, pair.2, [index], equations⟩]
  | e :: rest =>
      if pair = e.cliques then
        { e with constraints := e.constraints ++ [index], equations := e.equations + equations }
          :: rest
      else if pairLt pair e.cliques then ⟨pair.1, pair.2, [index], equations⟩ :: e :: rest
      else e :: insertMember pair index equations rest

/-- The edges of a list of constraints, of which the first has the given index. -/
def collect (edges : List Edge) : Nat → List Member → List Edge
  | _, [] => edges
  | index, m :: rest => collect (insertMember m.pair index m.equations edges) (index + 1) rest

/-- The first constraint that names a missing clique, with that clique. -/
def missingClique? (numCliques : Int) : Nat → List Member → Option (Nat × Int)
  | _, [] => none
  | index, m :: rest =>
      match [m.first, m.secondOrFirst].find? fun c => c < 0 ∨ numCliques ≤ c with
      | some c => some (index, c)
      | none => missingClique? numCliques (index + 1) rest

/-- The graph of a list of constraints on existing cliques. -/
def ofMembers (numCliques : Nat) (members : List Member) : ContactGraph :=
  ⟨numCliques, collect [] 0 members⟩

/-- The graph of a list of constraints, whose edges pass the checks of given edges. -/
def build (numCliques : Int) (members : List Member) : Except Error ContactGraph :=
  if numCliques < 0 then .error (.negativeCliqueCount numCliques)
  else match missingClique? numCliques 0 members with
    | some (index, c) => .error (.referencesMissingClique index c numCliques)
    | none => ofEdges numCliques (collect [] 0 members)

def numEdges (g : ContactGraph) : Nat :=
  g.edges.length

def numConstraints (g : ContactGraph) : Nat :=
  totalSize (g.edges.map Edge.numConstraints)

def numEquations (g : ContactGraph) : Int :=
  (g.edges.map Edge.equations).foldr (· + ·) 0

/-- The edge at a position, which may be counted from the back. -/
def edge? (g : ContactGraph) (i : Int) : Except Error Edge :=
  entryAt? g.edges i

/-- The position of the edge that joins two cliques, given in either order. -/
def findEdge? (g : ContactGraph) (c₀ c₁ : Int) : Option Nat :=
  let pair := if c₀ ≤ c₁ then (c₀, c₁) else (c₁, c₀)
  g.edges.findIdx? fun e => e.cliques = pair

/-- The cliques that occur in edges, in the order of their first occurrence. -/
def cliquesPermutation (g : ContactGraph) : Except Error PartialPermutation :=
  PartialPermutation.ofSelected g.numCliques
    (g.edges.flatMap fun e => [e.first, e.second]).eraseDups

/-- The constraints in the order of the edges. -/
def constraintsPermutation (g : ContactGraph) : Except Error PartialPermutation :=
  PartialPermutation.ofSelected g.numConstraints (g.edges.flatMap Edge.constraints)

/-- The scalar equations in the order of the edges, given the number of equations of each
constraint. -/
def equationsPermutation (g : ContactGraph) (counts : List Int) :
    Except Error PartialPermutation := do
  let p ← g.constraintsPermutation
  p.expand counts

/-- The text that describes a graph. -/
def text (g : ContactGraph) : String :=
  s!"ContactProblemGraph(num_cliques={g.numCliques}, num_edges={g.numEdges})"

end ContactGraph

end ConvexContact
