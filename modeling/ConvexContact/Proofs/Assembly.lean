import Mathlib
import ConvexContact.ConstraintBundle
import ConvexContact.Proofs.BlockSparse
import ConvexContact.Proofs.Problems

/-!
# Assembling the Jacobian

**Edges.**  The constraints on an edge are those of the problem whose pair of cliques is that of
the edge, in the order of the problem (`onEdge`).  For each clique of the edge, all of them have a
block.

**Assembly.**  If all cliques with constraints take part, no step of the assembly is refused, and
the result has, for each edge, a block for each of its cliques (`assembleJacobian_eq_ok`).
Otherwise the first edge with a clique that takes no part is refused (`assembleJacobian_eq_error`).

**Action.**  Applied to the participating velocities, the Jacobian gives for each constraint on its
edges the constraint velocity at the velocities of all cliques (`mulVec_assembled`).
-/

namespace ConvexContact

section Blocks

variable {α : Type}

namespace Constraint

/-- The block that a constraint has for a clique that it acts on. -/
def blockFor (c : Constraint α) (k : ℕ) : DenseMatrix α :=
  if c.clique = k then c.jacobian
  else match c.second? with
    | some (_, J) => J
    | none => c.jacobian

theorem mem_sides_blockFor
    {c : Constraint α} {k : ℕ}
    (h : ∃ side ∈ c.sides, side.1 = k) :
    (k, c.blockFor k) ∈ c.sides := by
  obtain ⟨side, hside, rfl⟩ := h
  unfold blockFor
  split_ifs with hclique
  · rw [← hclique]
    exact List.mem_cons_self
  · rcases List.mem_cons.1 hside with rfl | hside
    · exact absurd rfl hclique
    · rw [Option.mem_toList] at hside
      rw [hside]
      exact List.mem_cons_of_mem _ (Option.mem_toList.2 hside)

/-- The cliques of the pair of a constraint are the cliques that it acts on. -/
theorem mem_pair_iff
    (c : Constraint α) (z : ℤ) :
    (z = (ContactProblem.memberOf c).pair.1 ∨ z = (ContactProblem.memberOf c).pair.2) ↔
      ∃ side ∈ c.sides, (side.1 : ℤ) = z := by
  unfold ContactProblem.memberOf Member.pair Member.secondOrFirst secondClique? sides
  cases c.second? with
  | none =>
      simp [eq_comm]
  | some side =>
      simp only [Option.map_some, Option.getD_some, Option.toList_some]
      split_ifs <;> simp [eq_comm, or_comm]

theorem fst_or_snd_of_member
    (c : Constraint α) (z : ℤ) :
    ((ContactProblem.memberOf c).first = z ∨ (ContactProblem.memberOf c).secondOrFirst = z) ↔
      ∃ side ∈ c.sides, (side.1 : ℤ) = z := by
  unfold ContactProblem.memberOf Member.secondOrFirst secondClique? sides
  cases c.second? with
  | none =>
      simp
  | some side =>
      simp

end Constraint

end Blocks

section Gathering

open ContactGraph

variable {β : Type}

/-- The members of a list that act on a pair of cliques. -/
def onPair (f : β → Member) (xs : List β) (pair : ℤ × ℤ) : List β :=
  xs.filter fun x => (f x).pair = pair

/-- The members at the positions on a pair are the members on the pair. -/
theorem filterMap_indicesOn
    (f : β → Member) (xs : List β) (pair : ℤ × ℤ) :
    (indicesOn (xs.map f) pair).filterMap (xs[·]?) = onPair f xs pair := by
  induction xs using List.reverseRecOn with
  | nil =>
      rfl
  | append_singleton xs x ih =>
      have hlow : ∀ i ∈ indicesOn (xs.map f) pair, (xs ++ [x])[i]? = xs[i]? := by
        intro i hi
        have hlt : i < xs.length := by
          simpa using List.mem_range.1 (List.mem_filter.1 hi).1
        exact List.getElem?_append_left hlt
      rw [List.map_append, List.map_singleton, indicesOn_append, List.filterMap_append,
        List.filterMap_congr hlow, ih, onPair, onPair, List.filter_append]
      congr 1
      rw [List.filter_cons, List.filter_nil]
      split_ifs <;> simp_all

theorem length_onPair
    (f : β → Member) (xs : List β) (pair : ℤ × ℤ) :
    (onPair f xs pair).length = (indicesOn (xs.map f) pair).length := by
  rw [← filterMap_indicesOn, List.filterMap_length_eq_length]
  intro i hi
  have hlt : i < xs.length := by
    simpa using List.mem_range.1 (List.mem_filter.1 hi).1
  rw [List.getElem?_eq_getElem hlt]
  rfl

theorem map_onPair
    {γ : Type}
    (g : β → γ) (f : γ → Member) (xs : List β) (pair : ℤ × ℤ) :
    (onPair (fun x => f (g x)) xs pair).map g = onPair f (xs.map g) pair := by
  unfold onPair
  rw [List.filter_map]
  rfl

/-- Gathering by the order of the edges puts the members on one edge together. -/
theorem gather_eq_flatMap
    {f : β → Member} {xs : List β} {edges : List Edge} {o : PartialPermutation}
    (ho : o.inverse = edges.flatMap fun e => indicesOn (xs.map f) e.cliques) :
    o.gather xs = edges.flatMap fun e => onPair f xs e.cliques := by
  unfold PartialPermutation.gather
  rw [ho, List.filterMap_flatMap]
  congr 1
  funext e
  exact filterMap_indicesOn f xs e.cliques

end Gathering

namespace ContactProblem

section Edges

variable {α : Type}

/-- The constraints on an edge. -/
def onEdge (p : ContactProblem α) (e : Edge) : List (Constraint α) :=
  onPair memberOf p.constraints e.cliques

/-- The cliques of an edge, each of them once. -/
def edgeCliques (e : Edge) : List ℤ :=
  if e.isSelfPair then [e.first] else [e.first, e.second]

variable {p : ContactProblem α} {e : Edge} {c : Constraint α} {z : ℤ}

theorem edgeCliques_of_eq
    (h : e.first = e.second) :
    edgeCliques e = [e.first] := by
  unfold edgeCliques Edge.isSelfPair
  rw [if_pos (beq_iff_eq.2 h)]

theorem edgeCliques_of_ne
    (h : e.first ≠ e.second) :
    edgeCliques e = [e.first, e.second] := by
  unfold edgeCliques Edge.isSelfPair
  rw [if_neg (by simpa using h)]

theorem mem_of_mem_onEdge
    (hc : c ∈ p.onEdge e) :
    c ∈ p.constraints ∧ (memberOf c).pair = e.cliques := by
  obtain ⟨hmem, hpair⟩ := List.mem_filter.1 hc
  exact ⟨hmem, of_decide_eq_true hpair⟩

theorem mem_edgeCliques :
    z ∈ edgeCliques e ↔ z = e.first ∨ z = e.second := by
  unfold edgeCliques Edge.isSelfPair
  split_ifs with h
  · rw [beq_iff_eq] at h
    simp [h]
  · simp

/-- All constraints on an edge act on each of its cliques. -/
theorem acts_of_mem_onEdge
    (hc : c ∈ p.onEdge e)
    (hz : z ∈ edgeCliques e) :
    ∃ side ∈ c.sides, side.1 = z.toNat ∧ (side.1 : ℤ) = z := by
  obtain ⟨-, hpair⟩ := mem_of_mem_onEdge hc
  rw [mem_edgeCliques] at hz
  have hz' : z = (memberOf c).pair.1 ∨ z = (memberOf c).pair.2 := by
    rw [hpair]
    exact hz
  obtain ⟨side, hside, heq⟩ := (c.mem_pair_iff z).1 hz'
  exact ⟨side, hside, by omega, heq⟩

theorem mem_sides_of_mem_onEdge
    (hc : c ∈ p.onEdge e)
    (hz : z ∈ edgeCliques e) :
    (z.toNat, c.blockFor z.toNat) ∈ c.sides := by
  obtain ⟨side, hside, heq, -⟩ := acts_of_mem_onEdge hc hz
  exact Constraint.mem_sides_blockFor ⟨side, hside, heq⟩

theorem nodup_edgeCliques
    (e : Edge) :
    (edgeCliques e).Nodup := by
  unfold edgeCliques Edge.isSelfPair
  split_ifs with h
  · simp
  · simpa using h

/-- Constraints on existing cliques name existing cliques in the graph. -/
theorem members_inRange
    (h : ∀ c ∈ p.constraints, ∀ side ∈ c.sides, side.1 < p.numCliques) :
    ∀ m ∈ p.constraints.map memberOf,
      (0 ≤ m.first ∧ m.first < p.numCliques) ∧
        0 ≤ m.secondOrFirst ∧ m.secondOrFirst < p.numCliques := by
  intro m hm
  obtain ⟨c, hc, rfl⟩ := List.mem_map.1 hm
  have hside : ∀ z : ℤ, (memberOf c).first = z ∨ (memberOf c).secondOrFirst = z →
      0 ≤ z ∧ z < p.numCliques := by
    intro z hz
    obtain ⟨side, hside, rfl⟩ := (c.fst_or_snd_of_member z).1 hz
    have := h c hc side hside
    omega
  exact ⟨hside _ (Or.inl rfl), hside _ (Or.inr rfl)⟩

theorem length_cliqueSizes
    (p : ContactProblem α) :
    p.cliqueSizes.length = p.numCliques := by
  simp [cliqueSizes, numCliques]

theorem cliqueSize_eq_ok
    {k : ℕ}
    (hk : k < p.numCliques) :
    p.cliqueSize (k : ℤ) = .ok (p.cliqueSizes.getD k 0) := by
  have hk' : k < p.cliqueSizes.length := by
    rwa [length_cliqueSizes]
  rw [List.getD_eq_getElem _ _ hk']
  exact entryAt?_natCast (List.getElem?_eq_getElem hk')

/-- The cliques that take part are those on which some constraint acts. -/
structure Selects (p : ContactProblem α) (q : PartialPermutation) : Prop where
  domainSize_eq : q.domainSize = p.numCliques
  mem_inverse : ∀ k, k ∈ q.inverse ↔ ∃ c ∈ p.constraints, ∃ side ∈ c.sides, side.1 = k

/-- All cliques on which some constraint acts take part; others may take part as well. -/
structure Covers (p : ContactProblem α) (q : PartialPermutation) : Prop where
  domainSize_eq : q.domainSize = p.numCliques
  mem_inverse : ∀ c ∈ p.constraints, ∀ side ∈ c.sides, side.1 ∈ q.inverse

theorem Selects.covers
    {q : PartialPermutation}
    (hq : p.Selects q) :
    p.Covers q :=
  ⟨hq.domainSize_eq, fun c hc side hside =>
    (hq.mem_inverse side.1).2 ⟨c, hc, side, hside, rfl⟩⟩

/-- The cliques of an edge take part. -/
def CoversEdge (q : PartialPermutation) (e : Edge) : Prop :=
  ∀ z ∈ edgeCliques e, z.toNat ∈ q.inverse

theorem getElem?_blockCols
    {q : PartialPermutation}
    (hdomain : q.domainSize = p.numCliques)
    {k i : ℕ}
    (hk : q.inverse[k]? = some i)
    (hi : i < p.numCliques) :
    (q.gather p.cliqueSizes)[k]? = some (p.cliqueSizes.getD i 0) := by
  have hlength := p.length_cliqueSizes
  rw [PartialPermutation.getElem?_gather (hlength.trans hdomain.symm) hk,
    List.getElem?_eq_getElem (by omega), List.getD_eq_getElem]

end Edges

end ContactProblem

variable [Threshold]

namespace ContactProblem

variable {p : ContactProblem ℝ} {q o : PartialPermutation}

/-- The velocities of a clique among all velocities. -/
def cliquePart (p : ContactProblem ℝ) (V : List ℝ) (k : ℕ) : List ℝ :=
  Vec.part p.cliqueSizes V k

/-- The velocity that a side of a constraint contributes. -/
noncomputable def sideVelocity (p : ContactProblem ℝ) (V : List ℝ)
    (side : ℕ × DenseMatrix ℝ) : List ℝ :=
  side.2.mulVec (p.cliquePart V side.1)

/-- The velocity of a constraint, given the velocities of all cliques. -/
noncomputable def localVelocity (p : ContactProblem ℝ) (V : List ℝ) (c : Constraint ℝ) :
    List ℝ :=
  match c.second? with
  | none => p.sideVelocity V (c.clique, c.jacobian)
  | some side => Vec.add (p.sideVelocity V (c.clique, c.jacobian)) (p.sideVelocity V side)

/-- The blocks of an edge in the Jacobian. -/
noncomputable def edgeBlocks (p : ContactProblem ℝ) (q : PartialPermutation) (row : ℕ)
    (e : Edge) : List (Block ℝ) :=
  (edgeCliques e).map fun c =>
    ⟨row, (q.place? c.toNat).getD 0, ConstraintBundle.cliqueJacobian (p.onEdge e) c.toNat⟩

/-- The Jacobian of a problem before its blocks are stored. -/
noncomputable def unassembled (p : ContactProblem ℝ) (q : PartialPermutation) :
    BlockSparseMatrix ℝ where
  blockRows := p.graph.edges.map fun e => e.equations.toNat
  blockCols := q.gather p.cliqueSizes
  blocks := []

/-- The Jacobian of a problem, for participating cliques in a given order. -/
noncomputable def assembled (p : ContactProblem ℝ) (q : PartialPermutation) :
    BlockSparseMatrix ℝ where
  blockRows := p.graph.edges.map fun e => e.equations.toNat
  blockCols := q.gather p.cliqueSizes
  blocks := p.graph.edges.zipIdx.flatMap fun entry => p.edgeBlocks q entry.2 entry.1

namespace WellFormed

theorem collects
    (hp : p.WellFormed) :
    ContactGraph.Collects (p.constraints.map memberOf) p.graph.edges := by
  rw [hp.graph_eq]
  exact ContactGraph.collects_ofMembers _ _

theorem clique_lt
    (hp : p.WellFormed)
    {c : Constraint ℝ} {side : ℕ × DenseMatrix ℝ}
    (hc : c ∈ p.constraints)
    (hside : side ∈ c.sides) :
    side.1 < p.numCliques := by
  obtain ⟨k, hk, -⟩ := hp.fits c hc side hside
  exact (List.getElem?_eq_some_iff.1 hk).1

theorem numCols_eq
    (hp : p.WellFormed)
    {c : Constraint ℝ} {side : ℕ × DenseMatrix ℝ}
    (hc : c ∈ p.constraints)
    (hside : side ∈ c.sides) :
    side.2.numCols = p.cliqueSizes.getD side.1 0 := by
  obtain ⟨k, hk, hcols⟩ := hp.fits c hc side hside
  rw [cliqueSizes, List.getD_eq_getElem?_getD, List.getElem?_map, hk, hcols]
  rfl

/-- The participating cliques are those on which some constraint acts. -/
theorem exists_cliquesPermutation
    (hp : p.WellFormed) :
    ∃ q, p.graph.cliquesPermutation = .ok q ∧ q.domainSize = p.numCliques ∧
      ∀ k, k ∈ q.inverse ↔ ∃ c ∈ p.constraints, ∃ side ∈ c.sides, side.1 = k := by
  have hmembers := members_inRange fun c hc side hside => hp.clique_lt hc hside
  obtain ⟨q, hq, hdomain, hmem⟩ := ContactGraph.cliquesPermutation_eq_ok hmembers
  refine ⟨q, by rw [hp.graph_eq]; exact hq, hdomain, ?_⟩
  intro k
  rw [hmem]
  constructor
  · rintro ⟨m, hm, hk⟩
    obtain ⟨c, hc, rfl⟩ := List.mem_map.1 hm
    obtain ⟨side, hside, heq⟩ := (c.fst_or_snd_of_member k).1 hk
    exact ⟨c, hc, side, hside, Int.ofNat_inj.1 heq⟩
  · rintro ⟨c, hc, side, hside, rfl⟩
    exact ⟨memberOf c, List.mem_map_of_mem hc,
      (c.fst_or_snd_of_member side.1).2 ⟨side, hside, rfl⟩⟩

section Edges

variable {e : Edge}

/-- Every constraint is on some edge, whose cliques are those that it acts on. -/
theorem exists_edge
    (hp : p.WellFormed)
    {c : Constraint ℝ} {side : ℕ × DenseMatrix ℝ}
    (hc : c ∈ p.constraints)
    (hside : side ∈ c.sides) :
    ∃ e ∈ p.graph.edges, (side.1 : ℤ) ∈ edgeCliques e := by
  obtain ⟨e, he, hpair⟩ := List.mem_map.1
    ((hp.collects.mem_cliques _).2 (List.mem_map_of_mem (List.mem_map_of_mem hc)))
  refine ⟨e, he, ?_⟩
  have hmem := (c.mem_pair_iff side.1).2 ⟨side, hside, rfl⟩
  rw [← hpair] at hmem
  exact mem_edgeCliques.2 hmem

theorem onEdge_ne_nil
    (hp : p.WellFormed)
    (he : e ∈ p.graph.edges) :
    p.onEdge e ≠ [] := by
  obtain ⟨m, hm, hpair⟩ :=
    List.mem_map.1 ((hp.collects.mem_cliques _).1 (List.mem_map_of_mem he))
  obtain ⟨c, hc, rfl⟩ := List.mem_map.1 hm
  apply List.ne_nil_of_mem
  exact List.mem_filter.2 ⟨hc, decide_eq_true hpair⟩

/-- An edge has the equations of its constraints. -/
theorem equations_eq
    (hp : p.WellFormed)
    (he : e ∈ p.graph.edges) :
    e.equations = (totalSize ((p.onEdge e).map Constraint.numEquations) : ℕ) := by
  rw [hp.collects.equations_eq e he, ContactGraph.equationsOn, List.filter_map, List.map_map,
    Vec.totalSize_eq_sum, onEdge, onPair, Nat.cast_list_sum, List.map_map]
  rfl

/-- An edge has as many constraints as there are on its pair. -/
theorem numConstraints_eq
    (hp : p.WellFormed)
    (he : e ∈ p.graph.edges)
    {β : Type} {f : β → Member} {xs : List β}
    (hxs : xs.map f = p.constraints.map memberOf) :
    e.numConstraints = (onPair f xs e.cliques).length := by
  rw [Edge.numConstraints, hp.collects.constraints_eq e he, List.length_map, length_onPair, hxs]

end Edges

section Blocks

variable {e : Edge} {z : ℤ}

theorem numCols_blockFor
    (hp : p.WellFormed)
    (hz : z ∈ edgeCliques e) :
    ∀ A ∈ (p.onEdge e).map (fun c => c.blockFor z.toNat),
      A.numCols = p.cliqueSizes.getD z.toNat 0 := by
  intro A hA
  obtain ⟨c, hc, rfl⟩ := List.mem_map.1 hA
  exact hp.numCols_eq (mem_of_mem_onEdge hc).1 (mem_sides_of_mem_onEdge hc hz)

/-- The blocks that the constraints on an edge have for a clique, on top of each other. -/
theorem cliqueJacobian_eq
    (hp : p.WellFormed)
    (he : e ∈ p.graph.edges)
    (hz : z ∈ edgeCliques e) :
    ConstraintBundle.cliqueJacobian (p.onEdge e) z.toNat =
      DenseMatrix.vertical .single (p.cliqueSizes.getD z.toNat 0)
        ((p.onEdge e).map fun c => c.blockFor z.toNat) := by
  have hcols := hp.numCols_blockFor hz
  have hwidth :
      ((((p.onEdge e).map fun c => c.blockFor z.toNat).head?.map (·.numCols)).getD 0) =
        p.cliqueSizes.getD z.toNat 0 := by
    cases hblocks : (p.onEdge e).map fun c => c.blockFor z.toNat with
    | nil =>
        exact absurd (List.map_eq_nil_iff.1 hblocks) (hp.onEdge_ne_nil he)
    | cons A rest =>
        rw [hblocks] at hcols
        exact hcols A List.mem_cons_self
  rw [← hwidth]
  rfl

theorem numRows_cliqueJacobian
    (hp : p.WellFormed)
    (he : e ∈ p.graph.edges)
    (hz : z ∈ edgeCliques e) :
    (ConstraintBundle.cliqueJacobian (p.onEdge e) z.toNat).numRows = e.equations.toNat := by
  rw [hp.cliqueJacobian_eq he hz, DenseMatrix.numRows,
    DenseMatrix.rows_vertical (hp.numCols_blockFor hz), hp.equations_eq he, Int.toNat_natCast,
    Vec.totalSize_eq_sum, List.length_flatMap, List.map_map]
  congr 1
  apply List.map_congr_left
  intro c hc
  exact (hp.proper c (mem_of_mem_onEdge hc).1).numRows_eq _ (mem_sides_of_mem_onEdge hc hz)

theorem numCols_cliqueJacobian
    (hp : p.WellFormed)
    (he : e ∈ p.graph.edges)
    (hz : z ∈ edgeCliques e) :
    (ConstraintBundle.cliqueJacobian (p.onEdge e) z.toNat).numCols =
      p.cliqueSizes.getD z.toNat 0 := by
  rw [hp.cliqueJacobian_eq he hz]
  rfl

theorem mulVec_cliqueJacobian
    (hp : p.WellFormed)
    (he : e ∈ p.graph.edges)
    (hz : z ∈ edgeCliques e)
    (x : List ℝ) :
    (ConstraintBundle.cliqueJacobian (p.onEdge e) z.toNat).mulVec x =
      (p.onEdge e).flatMap fun c => (c.blockFor z.toNat).mulVec x := by
  rw [hp.cliqueJacobian_eq he hz, DenseMatrix.mulVec_vertical (hp.numCols_blockFor hz),
    List.flatMap_map]

end Blocks

end WellFormed

theorem WellFormed.selects
    (hp : p.WellFormed)
    (hq : p.graph.cliquesPermutation = .ok q) :
    p.Selects q := by
  obtain ⟨q', hq', hdomain, hmem⟩ := hp.exists_cliquesPermutation
  rw [hq] at hq'
  cases hq'
  exact ⟨hdomain, hmem⟩

namespace WellFormed

section Places

variable {e : Edge} {z : ℤ}

/-- Some constraint acts on a clique of an edge. -/
theorem exists_side
    (hp : p.WellFormed)
    (he : e ∈ p.graph.edges)
    (hz : z ∈ edgeCliques e) :
    ∃ c ∈ p.constraints, ∃ side ∈ c.sides, side.1 = z.toNat ∧ (side.1 : ℤ) = z := by
  obtain ⟨c, hc⟩ := List.exists_mem_of_ne_nil _ (hp.onEdge_ne_nil he)
  exact ⟨c, (mem_of_mem_onEdge hc).1, acts_of_mem_onEdge hc hz⟩

theorem coversEdge
    (hp : p.WellFormed)
    (hq : p.Covers q)
    (he : e ∈ p.graph.edges) :
    CoversEdge q e := by
  intro z hz
  obtain ⟨c, hc, side, hside, hnat, -⟩ := hp.exists_side he hz
  rw [← hnat]
  exact hq.mem_inverse c hc side hside

/-- The place of a clique of an edge is looked up within the domain. -/
theorem findPermutedIndex_eq
    (hp : p.WellFormed)
    (hdomain : q.domainSize = p.numCliques)
    (he : e ∈ p.graph.edges)
    (hz : z ∈ edgeCliques e) :
    q.findPermutedIndex z = .ok (q.place? z.toNat) ∧
      (z.toNat : ℤ) = z ∧ z.toNat < p.numCliques := by
  obtain ⟨c, hc, side, hside, hnat, hint⟩ := hp.exists_side he hz
  have hlt := hp.clique_lt hc hside
  refine ⟨?_, by omega, by omega⟩
  unfold PartialPermutation.findPermutedIndex
  rw [if_neg]
  rw [hdomain]
  omega

/-- A clique of an edge that takes part has a place. -/
theorem exists_place
    (hp : p.WellFormed)
    (hdomain : q.domainSize = p.numCliques)
    (he : e ∈ p.graph.edges)
    (hz : z ∈ edgeCliques e)
    (hmem : z.toNat ∈ q.inverse) :
    ∃ k, q.inverse[k]? = some z.toNat ∧ q.permutedIndex z = .ok k ∧
      (z.toNat : ℤ) = z ∧ z.toNat < p.numCliques := by
  obtain ⟨-, hint, hlt⟩ := hp.findPermutedIndex_eq hdomain he hz
  obtain ⟨k, hk⟩ := List.mem_iff_getElem?.1 hmem
  exact ⟨k, hk, PartialPermutation.permutedIndex_eq_ok_iff.2 ⟨by omega, hk⟩, hint, hlt⟩

/-- The place of a clique of an edge is refused if the clique does not take part. -/
theorem permutedIndex_eq_error
    (hp : p.WellFormed)
    (hdomain : q.domainSize = p.numCliques)
    (he : e ∈ p.graph.edges)
    (hz : z ∈ edgeCliques e)
    (hmem : z.toNat ∉ q.inverse) :
    q.permutedIndex z = .error (.notParticipating z) := by
  unfold PartialPermutation.permutedIndex
  rw [(hp.findPermutedIndex_eq hdomain he hz).1, PartialPermutation.place?_eq_none_iff.2 hmem]
  rfl

end Places

section Assembling

variable {B : BlockSparseMatrix ℝ}

/-- A block of the right shape is stored at a free place. -/
theorem addBlock_eq_ok
    {i j : ℕ} {A : DenseMatrix ℝ}
    (hrow : B.blockRows[i]? = some A.numRows)
    (hcol : B.blockCols[j]? = some A.numCols)
    (hfree : ∀ b ∈ B.blocks, b.place ≠ (i, j)) :
    B.addBlock i j (Tensor.ofMatrix A) =
      .ok { B with blocks := B.blocks ++ [⟨i, j, A⟩] } := by
  have hnone : B.block? (i : ℤ) (j : ℤ) = none := by
    unfold BlockSparseMatrix.block?
    rw [Option.map_eq_none_iff, List.find?_eq_none]
    intro b hb
    rw [decide_eq_true_eq, Int.ofNat_inj, Int.ofNat_inj]
    rintro ⟨h₁, h₂⟩
    exact hfree b hb (Prod.ext h₁ h₂)
  have hshape : (Tensor.ofMatrix A).shape = [A.numRows, A.numCols] :=
    Tensor.shape_ofEntries _ _ _
  unfold BlockSparseMatrix.addBlock
  rw [if_neg (by omega), Int.toNat_natCast, Int.toNat_natCast, hrow, hcol]
  dsimp only
  rw [hnone, Tensor.matrix?_ofMatrix]
  dsimp only
  rw [if_pos hshape]
  rfl

/-- The blocks of some cliques of an edge are stored one after the other. -/
theorem foldlM_addBlock
    (hp : p.WellFormed)
    (hdomain : q.domainSize = p.numCliques)
    {e : Edge} {row : ℕ} {zs : List ℤ}
    (he : e ∈ p.graph.edges)
    (hzs : ∀ z ∈ zs, z ∈ edgeCliques e)
    (hmem : ∀ z ∈ zs, z.toNat ∈ q.inverse)
    (hnodup : zs.Nodup)
    (hrows : B.blockRows[row]? = some e.equations.toNat)
    (hcols : B.blockCols = q.gather p.cliqueSizes)
    (hfree : ∀ b ∈ B.blocks, b.row = row →
      ∀ z ∈ zs, (q.place? z.toNat).getD 0 ≠ b.col) :
    zs.foldlM (fun J c => do
        let col ← q.permutedIndex c
        J.addBlock row col
          (Tensor.ofMatrix (ConstraintBundle.cliqueJacobian (p.onEdge e) c.toNat))) B =
      .ok { B with
        blocks := B.blocks ++ zs.map fun c =>
          ⟨row, (q.place? c.toNat).getD 0,
            ConstraintBundle.cliqueJacobian (p.onEdge e) c.toNat⟩ } := by
  induction zs generalizing B with
  | nil =>
      rw [List.map_nil, List.append_nil]
      rfl
  | cons z zs ih =>
      have hz := hzs z List.mem_cons_self
      rw [List.nodup_cons] at hnodup
      obtain ⟨k, hk, hplace, hint, hlt⟩ :=
        hp.exists_place hdomain he hz (hmem z List.mem_cons_self)
      have hk' : (q.place? z.toNat).getD 0 = k := by
        rw [PartialPermutation.place?_eq_some_iff.2 hk]
        rfl
      have hstep : B.addBlock row k
          (Tensor.ofMatrix (ConstraintBundle.cliqueJacobian (p.onEdge e) z.toNat)) =
          .ok { B with
            blocks := B.blocks ++
              [⟨row, k, ConstraintBundle.cliqueJacobian (p.onEdge e) z.toNat⟩] } := by
        apply addBlock_eq_ok
        · rw [hrows, hp.numRows_cliqueJacobian he hz]
        · rw [hcols, getElem?_blockCols hdomain hk hlt, hp.numCols_cliqueJacobian he hz]
        · intro b hb heq
          rw [Block.place, Prod.mk.injEq] at heq
          exact hfree b hb heq.1 z List.mem_cons_self (hk'.trans heq.2.symm)
      rw [List.foldlM_cons, hplace, Outcome.ok_bind, hstep, Outcome.ok_bind, ih]
      · simp only [hk', List.map_cons, List.append_assoc, List.singleton_append]
      · exact fun z' hz' => hzs z' (List.mem_cons_of_mem z hz')
      · exact fun z' hz' => hmem z' (List.mem_cons_of_mem z hz')
      · exact hnodup.2
      · exact hrows
      · exact hcols
      · intro b hb hrow z' hz'
        rcases List.mem_append.1 hb with hb | hb
        · exact hfree b hb hrow z' (List.mem_cons_of_mem z hz')
        · rw [List.mem_singleton.1 hb]
          obtain ⟨k', hk₁, -, hint', -⟩ :=
            hp.exists_place hdomain he (hzs z' (List.mem_cons_of_mem z hz'))
              (hmem z' (List.mem_cons_of_mem z hz'))
          rw [PartialPermutation.place?_eq_some_iff.2 hk₁]
          intro heq
          change k' = k at heq
          rw [heq, hk, Option.some_inj] at hk₁
          have : z = z' := by
            omega
          exact hnodup.1 (this ▸ hz')

/-- The blocks of an edge are stored in a free row. -/
theorem addEdge_eq_ok
    (hp : p.WellFormed)
    (hdomain : q.domainSize = p.numCliques)
    {e : Edge} {row : ℕ}
    (he : e ∈ p.graph.edges)
    (hcovers : CoversEdge q e)
    (hrows : B.blockRows[row]? = some e.equations.toNat)
    (hcols : B.blockCols = q.gather p.cliqueSizes)
    (hfree : ∀ b ∈ B.blocks, b.row ≠ row) :
    ConstraintBundle.addEdge q B row e (p.onEdge e) =
      .ok { B with blocks := B.blocks ++ p.edgeBlocks q row e } :=
  hp.foldlM_addBlock hdomain he (fun _ h => h) hcovers (nodup_edgeCliques e) hrows hcols
    fun b hb hrow => absurd hrow (hfree b hb)

/-- The blocks of an edge are refused if one of its cliques takes no part. -/
theorem addEdge_eq_error
    (hp : p.WellFormed)
    (hdomain : q.domainSize = p.numCliques)
    {e : Edge} {row : ℕ}
    (he : e ∈ p.graph.edges)
    (hcovers : ¬ CoversEdge q e)
    (hrows : B.blockRows[row]? = some e.equations.toNat)
    (hcols : B.blockCols = q.gather p.cliqueSizes)
    (hfree : ∀ b ∈ B.blocks, b.row ≠ row) :
    ∃ z ∈ edgeCliques e, z.toNat ∉ q.inverse ∧
      ConstraintBundle.addEdge q B row e (p.onEdge e) = .error (.notParticipating z) := by
  obtain ⟨pre, z, post, hcliques, hpre, hz⟩ := Outcome.exists_first_of_not_forall hcovers
  have hmem : z ∈ edgeCliques e := by
    rw [hcliques]
    exact List.mem_append_right _ List.mem_cons_self
  have hprefix : ∀ y ∈ pre, y ∈ edgeCliques e := by
    intro y hy
    rw [hcliques]
    exact List.mem_append_left _ hy
  have hnodup : pre.Nodup := by
    have := nodup_edgeCliques e
    rw [hcliques] at this
    exact this.of_append_left
  refine ⟨z, hmem, hz, ?_⟩
  change (edgeCliques e).foldlM _ B = _
  rw [hcliques, List.foldlM_append,
    hp.foldlM_addBlock hdomain he hprefix hpre hnodup hrows hcols
      fun b hb hrow => absurd hrow (hfree b hb),
    Outcome.ok_bind, List.foldlM_cons, hp.permutedIndex_eq_error hdomain he hmem hz]
  rfl

theorem row_of_mem_edgeBlocks
    {e : Edge} {row : ℕ} {b : Block ℝ}
    (hb : b ∈ p.edgeBlocks q row e) :
    b.row = row := by
  obtain ⟨z, -, rfl⟩ := List.mem_map.1 hb
  rfl

/-- The blocks of the edges from a row on are stored one edge after the other. -/
theorem foldlM_addEdge
    (hp : p.WellFormed)
    (hdomain : q.domainSize = p.numCliques)
    {edges : List Edge} {row : ℕ}
    (hedges : ∀ entry ∈ edges.zipIdx row,
      entry.1 ∈ p.graph.edges ∧ B.blockRows[entry.2]? = some entry.1.equations.toNat)
    (hcovers : ∀ e ∈ edges, CoversEdge q e)
    (hcols : B.blockCols = q.gather p.cliqueSizes)
    (hfree : ∀ b ∈ B.blocks, b.row < row) :
    (edges.zipIdx row).foldlM (fun J entry =>
        ConstraintBundle.addEdge q J entry.2 entry.1 (p.onEdge entry.1)) B =
      .ok { B with
        blocks := B.blocks ++
          (edges.zipIdx row).flatMap fun entry => p.edgeBlocks q entry.2 entry.1 } := by
  induction edges generalizing B row with
  | nil =>
      rw [List.zipIdx_nil, List.flatMap_nil, List.append_nil]
      rfl
  | cons e edges ih =>
      rw [List.zipIdx_cons] at hedges ⊢
      obtain ⟨he, hrows⟩ := hedges _ List.mem_cons_self
      rw [List.foldlM_cons,
        hp.addEdge_eq_ok hdomain he (hcovers e List.mem_cons_self) hrows hcols
          fun b hb => Nat.ne_of_lt (hfree b hb),
        Outcome.ok_bind, ih, List.flatMap_cons, List.append_assoc]
      · exact fun entry hentry => hedges entry (List.mem_cons_of_mem _ hentry)
      · exact fun e' he' => hcovers e' (List.mem_cons_of_mem e he')
      · exact hcols
      · intro b hb
        rcases List.mem_append.1 hb with hb | hb
        · exact Nat.lt_succ_of_lt (hfree b hb)
        · rw [row_of_mem_edgeBlocks hb]
          exact Nat.lt_succ_self row

omit [Threshold] in
/-- The block columns have the sizes of the participating cliques. -/
theorem columnSizes_eq_ok
    (hdomain : q.domainSize = p.numCliques) :
    (q.inverse.mapM fun (c : ℕ) => p.cliqueSize c) = .ok (q.gather p.cliqueSizes) := by
  have hsizes : p.cliqueSizes.length = q.domainSize :=
    p.length_cliqueSizes.trans hdomain.symm
  rw [Outcome.mapM_eq_ok_map fun k hk =>
    cliqueSize_eq_ok (hdomain ▸ q.lt_domainSize k hk)]
  congr 1
  apply List.map_injective_iff.2 (Option.some_injective ℕ)
  rw [PartialPermutation.map_some_gather hsizes, List.map_map]
  apply List.map_congr_left
  intro k hk
  have hk' : k < p.cliqueSizes.length := by
    rw [hsizes]
    exact q.lt_domainSize k hk
  rw [List.getElem?_eq_getElem hk', Function.comp_apply, List.getD_eq_getElem _ _ hk']

/-- The Jacobian without blocks, one block row an edge. -/
theorem ofSizes_edges
    (hp : p.WellFormed)
    (sizes : List ℕ) :
    BlockSparseMatrix.ofSizes (α := ℝ) (p.graph.edges.map Edge.equations)
        (sizes.map fun (n : ℕ) => (n : ℤ)) =
      .ok ⟨p.graph.edges.map fun e => e.equations.toNat, sizes, []⟩ := by
  unfold BlockSparseMatrix.ofSizes
  rw [if_neg, List.map_map, List.map_map]
  · congr 2
    exact (List.map_congr_left fun n _ => Int.toNat_natCast n).trans (List.map_id _)
  · rw [List.any_append, Bool.or_eq_true, List.any_eq_true, List.any_eq_true]
    rintro (⟨n, hn, hneg⟩ | ⟨n, hn, hneg⟩)
    · obtain ⟨e, he, rfl⟩ := List.mem_map.1 hn
      rw [hp.equations_eq he, decide_eq_true_eq] at hneg
      omega
    · obtain ⟨k, -, rfl⟩ := List.mem_map.1 hn
      rw [decide_eq_true_eq] at hneg
      omega

/-- The constraints in the order of the edges, cut edge by edge. -/
theorem split_gather_constraints
    (hp : p.WellFormed)
    (ho : o.inverse = p.graph.edges.flatMap fun e =>
      ContactGraph.indicesOn (p.constraints.map memberOf) e.cliques) :
    Vec.split (p.graph.edges.map Edge.numConstraints) (o.gather p.constraints) =
      p.graph.edges.map p.onEdge := by
  rw [gather_eq_flatMap ho, List.flatMap_def]
  apply Vec.split_flatten_of_sizes
  rw [List.map_map]
  apply List.map_congr_left
  intro e he
  exact (hp.numConstraints_eq he rfl).symm

/-- The Jacobian is assembled edge by edge. -/
theorem assembleJacobian_eq
    (hp : p.WellFormed)
    (hdomain : q.domainSize = p.numCliques)
    (ho : o.inverse = p.graph.edges.flatMap fun e =>
      ContactGraph.indicesOn (p.constraints.map memberOf) e.cliques) :
    ConstraintBundle.assembleJacobian p q (o.gather p.constraints) =
      p.graph.edges.zipIdx.foldlM (fun J entry =>
          ConstraintBundle.addEdge q J entry.2 entry.1 (p.onEdge entry.1)) (p.unassembled q) := by
  have hpairs : (p.graph.edges.zip (p.graph.edges.map p.onEdge)).zipIdx =
      p.graph.edges.zipIdx.map fun entry => ((entry.1, p.onEdge entry.1), entry.2) := by
    apply List.ext_getElem
    · simp
    · intro i h₁ h₂
      simp
  unfold ConstraintBundle.assembleJacobian
  rw [columnSizes_eq_ok hdomain, Outcome.ok_bind, hp.ofSizes_edges, Outcome.ok_bind]
  dsimp only
  rw [hp.split_gather_constraints ho, hpairs, List.foldlM_map]
  rfl

omit [Threshold] in
theorem row_of_mem_zipIdx
    {entry : Edge × ℕ}
    (q : PartialPermutation)
    (hentry : entry ∈ p.graph.edges.zipIdx) :
    entry.1 ∈ p.graph.edges ∧
      (p.unassembled q).blockRows[entry.2]? = some entry.1.equations.toNat := by
  have hget := List.mem_zipIdx_iff_getElem?.1 hentry
  refine ⟨List.mem_of_getElem? hget, ?_⟩
  rw [unassembled, List.getElem?_map, hget]
  rfl

/-- The assembly of the Jacobian is not refused if all its cliques take part. -/
theorem assembleJacobian_eq_ok
    (hp : p.WellFormed)
    (hq : p.Covers q)
    (ho : o.inverse = p.graph.edges.flatMap fun e =>
      ContactGraph.indicesOn (p.constraints.map memberOf) e.cliques) :
    ConstraintBundle.assembleJacobian p q (o.gather p.constraints) = .ok (p.assembled q) := by
  rw [hp.assembleJacobian_eq hq.domainSize_eq ho,
    hp.foldlM_addEdge hq.domainSize_eq (fun _ => row_of_mem_zipIdx q)
      (fun _ he => hp.coversEdge hq he) rfl (by simp [unassembled])]
  rfl

/-- The assembly of the Jacobian is refused if some clique with a constraint takes no part. -/
theorem assembleJacobian_eq_error
    (hp : p.WellFormed)
    (hdomain : q.domainSize = p.numCliques)
    (hcovers : ¬ p.Covers q)
    (ho : o.inverse = p.graph.edges.flatMap fun e =>
      ContactGraph.indicesOn (p.constraints.map memberOf) e.cliques) :
    ∃ c ∈ p.constraints, ∃ side ∈ c.sides, side.1 ∉ q.inverse ∧
      ConstraintBundle.assembleJacobian p q (o.gather p.constraints) =
        .error (.notParticipating side.1) := by
  have hedges : ¬ ∀ e ∈ p.graph.edges, CoversEdge q e := by
    intro hall
    refine hcovers ⟨hdomain, fun c hc side hside => ?_⟩
    obtain ⟨e, he, hz⟩ := hp.exists_edge hc hside
    simpa using hall e he side.1 hz
  obtain ⟨pre, e, post, hsplit, hpre, he⟩ := Outcome.exists_first_of_not_forall hedges
  have hzip : p.graph.edges.zipIdx =
      pre.zipIdx ++ (e, pre.length) :: post.zipIdx (pre.length + 1) := by
    rw [hsplit, List.zipIdx_append, List.zipIdx_cons, Nat.zero_add]
  have hentries : ∀ entry ∈ p.graph.edges.zipIdx,
      entry.1 ∈ p.graph.edges ∧
        (p.unassembled q).blockRows[entry.2]? = some entry.1.equations.toNat :=
    fun _ => row_of_mem_zipIdx q
  rw [hzip] at hentries
  obtain ⟨hmem, hrow⟩ := hentries _ (List.mem_append_right _ List.mem_cons_self)
  -- the edges before the first one that is not covered fill the rows above it
  have hrows : ∀ b ∈ (p.unassembled q).blocks ++
      pre.zipIdx.flatMap (fun entry => p.edgeBlocks q entry.2 entry.1), b.row ≠ pre.length := by
    intro b hb
    obtain ⟨entry, hentry, hb⟩ := List.mem_flatMap.1 hb
    have := List.snd_lt_of_mem_zipIdx hentry
    rw [row_of_mem_edgeBlocks hb]
    omega
  obtain ⟨z, hz, hnot, herror⟩ :=
    hp.addEdge_eq_error
      (B := { p.unassembled q with
        blocks := (p.unassembled q).blocks ++
          pre.zipIdx.flatMap fun entry => p.edgeBlocks q entry.2 entry.1 })
      hdomain hmem he hrow rfl hrows
  obtain ⟨c, hc, side, hside, hnat, hint⟩ := hp.exists_side hmem hz
  refine ⟨c, hc, side, hside, by rwa [hnat], ?_⟩
  rw [hp.assembleJacobian_eq hdomain ho, hzip, List.foldlM_append,
    hp.foldlM_addEdge hdomain (fun entry hentry => hentries entry (List.mem_append_left _ hentry))
      hpre rfl (by simp [unassembled]),
    Outcome.ok_bind, List.foldlM_cons, herror, hint]
  rfl

end Assembling

section Action

variable {velocities : PartialPermutation} {V : List ℝ} {e : Edge}

/-- The stored blocks have the shapes of their places. -/
theorem regular_assembled
    (hp : p.WellFormed)
    (hq : p.Covers q) :
    (p.assembled q).Regular := by
  intro b hb
  obtain ⟨⟨e, i⟩, hentry, hb⟩ := List.mem_flatMap.1 hb
  obtain ⟨z, hz, rfl⟩ := List.mem_map.1 hb
  have hget := List.mem_zipIdx_iff_getElem?.1 hentry
  have he := List.mem_of_getElem? hget
  obtain ⟨k, hk, -, -, hlt⟩ :=
    hp.exists_place hq.domainSize_eq he hz (hp.coversEdge hq he z hz)
  have hcol := getElem?_blockCols hq.domainSize_eq hk hlt
  have hi : i < p.graph.edges.length :=
    (List.getElem?_eq_some_iff.1 hget).1
  dsimp only
  rw [PartialPermutation.place?_eq_some_iff.2 hk, Option.getD_some,
    hp.numRows_cliqueJacobian he hz, hp.numCols_cliqueJacobian he hz]
  refine ⟨by simpa [assembled] using hi, (List.getElem?_eq_some_iff.1 hcol).1, ?_, ?_⟩
  · rw [List.getD_eq_getElem?_getD, assembled, List.getElem?_map, hget]
    rfl
  · have hwidth : (p.assembled q).blockCols.getD k 0 = ((q.gather p.cliqueSizes)[k]?).getD 0 :=
      List.getD_eq_getElem?_getD
    rw [hwidth, hcol]
    rfl

/-- The blocks of a row are those of its edge. -/
theorem rowBlocks_assembled
    {i : ℕ}
    (he : p.graph.edges[i]? = some e) :
    (p.assembled q).rowBlocks i = p.edgeBlocks q i e := by
  have hfilter : ∀ (edges : List Edge) (start j : ℕ), edges[j]? = some e →
      ((edges.zipIdx start).flatMap fun entry => p.edgeBlocks q entry.2 entry.1).filter
          (·.row = start + j) = p.edgeBlocks q (start + j) e := by
    intro edges
    induction edges with
    | nil =>
        intro start j hj
        cases hj
    | cons o edges ih =>
        intro start j hj
        rw [List.zipIdx_cons, List.flatMap_cons, List.filter_append]
        cases j with
        | zero =>
            rw [List.getElem?_cons_zero, Option.some_inj] at hj
            subst hj
            rw [Nat.add_zero, List.filter_eq_self.2, List.filter_eq_nil_iff.2, List.append_nil]
            · intro b hb
              obtain ⟨entry, hentry, hb⟩ := List.mem_flatMap.1 hb
              have := List.le_snd_of_mem_zipIdx hentry
              rw [decide_eq_true_eq, row_of_mem_edgeBlocks hb]
              omega
            · intro b hb
              rw [decide_eq_true_eq, row_of_mem_edgeBlocks hb]
        | succ j =>
            rw [List.getElem?_cons_succ] at hj
            have hnext : start + (j + 1) = start + 1 + j := by
              omega
            rw [List.filter_eq_nil_iff.2, List.nil_append, hnext]
            · exact ih (start + 1) j hj
            · intro b hb
              rw [decide_eq_true_eq, row_of_mem_edgeBlocks hb]
              omega
  have := hfilter p.graph.edges 0 i he
  rwa [Nat.zero_add] at this

/-- The part of the participating velocities that belongs to a clique. -/
theorem colPart_assembled
    (hvelocities : q.Expands p.cliqueSizes velocities)
    (hV : V.length = p.numVelocities)
    {k i : ℕ}
    (hk : q.inverse[k]? = some i) :
    (p.assembled q).colPart k (velocities.gather V) = p.cliquePart V i := by
  have hsizes : (Vec.split p.cliqueSizes V).map List.length = p.cliqueSizes :=
    Vec.map_length_split hV
  have hparts : (Vec.split p.cliqueSizes V).length = q.domainSize := by
    rw [Vec.length_split, hvelocities.length_sizes]
  have hgather : velocities.gather V = (q.gather (Vec.split p.cliqueSizes V)).flatten := by
    rw [← hvelocities.gather_flatten hsizes, Vec.flatten_split hV]
  rw [BlockSparseMatrix.colPart_eq, hgather, assembled, Vec.part_flatten,
    List.getD_eq_getElem?_getD, PartialPermutation.getElem?_gather hparts hk, cliquePart,
    Vec.part, List.getD_eq_getElem?_getD]
  rw [← PartialPermutation.gather_map, hsizes]

theorem length_blockFor_mulVec
    (hp : p.WellFormed)
    {c : Constraint ℝ} {z : ℤ}
    (hc : c ∈ p.onEdge e)
    (hz : z ∈ edgeCliques e)
    (x : List ℝ) :
    ((c.blockFor z.toNat).mulVec x).length = c.numEquations := by
  rw [DenseMatrix.length_mulVec]
  exact (hp.proper c (mem_of_mem_onEdge hc).1).numRows_eq _ (mem_sides_of_mem_onEdge hc hz)

/-- The velocities of the sides of a constraint have its equations. -/
theorem length_sideVelocity
    (hp : p.WellFormed)
    {c : Constraint ℝ}
    (hc : c ∈ p.constraints)
    {side : ℕ × DenseMatrix ℝ}
    (hside : side ∈ c.sides) :
    (p.sideVelocity V side).length = c.numEquations := by
  rw [sideVelocity, DenseMatrix.length_mulVec, (hp.proper c hc).numRows_eq side hside]

theorem length_localVelocity
    (hp : p.WellFormed)
    {c : Constraint ℝ}
    (hc : c ∈ p.constraints) :
    (p.localVelocity V c).length = c.numEquations := by
  have hfirst := hp.length_sideVelocity (V := V) hc c.first_mem_sides
  unfold localVelocity
  cases hsecond : c.second? with
  | none =>
      exact hfirst
  | some side =>
      have hother := hp.length_sideVelocity (V := V) hc (Constraint.second_mem_sides hsecond)
      dsimp only
      rw [Vec.length_add, hfirst, hother, Nat.min_self]

/-- The velocity of a constraint is the sum over its sides. -/
theorem sum_dot_sideVelocity
    (hp : p.WellFormed)
    {c : Constraint ℝ}
    (hc : c ∈ p.constraints)
    (γ : List ℝ) :
    (c.sides.map fun side => Vec.dot (p.sideVelocity V side) γ).sum =
      Vec.dot (p.localVelocity V c) γ := by
  unfold localVelocity
  cases hsecond : c.second? with
  | none =>
      rw [Constraint.sides, hsecond]
      simp
  | some side =>
      dsimp only
      rw [Vec.dot_comm, Vec.dot_add_right, Vec.dot_comm, Vec.dot_comm γ, Constraint.sides, hsecond]
      · simp
      · rw [hp.length_sideVelocity hc c.first_mem_sides,
          hp.length_sideVelocity hc (Constraint.second_mem_sides hsecond)]

/-- A constraint on an edge from a clique to itself. -/
theorem localVelocity_of_isSelfPair
    (hp : p.WellFormed)
    {c : Constraint ℝ}
    (hc : c ∈ p.onEdge e)
    (hself : e.first = e.second) :
    p.localVelocity V c =
      (c.blockFor e.first.toNat).mulVec (p.cliquePart V e.first.toNat) := by
  obtain ⟨hmem, hpair⟩ := mem_of_mem_onEdge hc
  have hside : ∀ side ∈ c.sides, (side.1 : ℤ) = e.first := by
    intro side hside
    have hz := (c.mem_pair_iff side.1).2 ⟨side, hside, rfl⟩
    rw [hpair] at hz
    rcases hz with hz | hz
    · exact hz
    · exact hz.trans hself.symm
  have hfirst := hside _ c.first_mem_sides
  dsimp only at hfirst
  have hnat : c.clique = e.first.toNat := by
    omega
  cases hsecond : c.second? with
  | none =>
      unfold localVelocity sideVelocity Constraint.blockFor
      rw [hsecond, if_pos hnat, ← hnat]
  | some side =>
      have hother := hside side (Constraint.second_mem_sides hsecond)
      have hne := (hp.proper c hmem).second_ne side hsecond
      omega

/-- A constraint on an edge between two cliques, of which either can be its first one. -/
theorem localVelocity_of_not_isSelfPair
    {c : Constraint ℝ}
    (hc : c ∈ p.onEdge e)
    (hself : e.first ≠ e.second) :
    p.localVelocity V c =
      Vec.add ((c.blockFor e.first.toNat).mulVec (p.cliquePart V e.first.toNat))
        ((c.blockFor e.second.toNat).mulVec (p.cliquePart V e.second.toNat)) := by
  obtain ⟨-, hpair⟩ := mem_of_mem_onEdge hc
  obtain ⟨side₁, hside₁, heq₁⟩ := (c.mem_pair_iff e.first).1 (Or.inl (by rw [hpair]; rfl))
  obtain ⟨side₂, hside₂, heq₂⟩ := (c.mem_pair_iff e.second).1 (Or.inr (by rw [hpair]; rfl))
  unfold localVelocity
  cases hsecond : c.second? with
  | none =>
      rw [Constraint.sides, hsecond, Option.toList_none, List.mem_singleton] at hside₁ hside₂
      rw [hside₁] at heq₁
      rw [hside₂] at heq₂
      exact absurd (heq₁.symm.trans heq₂) hself
  | some side =>
      rw [Constraint.sides, hsecond, Option.toList_some, List.mem_cons, List.mem_singleton]
        at hside₁ hside₂
      have hblocks : ∀ k, c.clique ≠ k → c.blockFor k = side.2 := by
        intro k hk
        unfold Constraint.blockFor
        rw [if_neg hk, hsecond]
      have hown : c.blockFor c.clique = c.jacobian := by
        unfold Constraint.blockFor
        rw [if_pos rfl]
      unfold sideVelocity
      rcases hside₁ with rfl | rfl
      · rcases hside₂ with rfl | rfl
        · exact absurd (heq₁.symm.trans heq₂) hself
        · have h₁ : e.first.toNat = c.clique := by
            dsimp only at heq₁
            omega
          have h₂ : e.second.toNat = side₂.1 := by
            omega
          rw [h₁, h₂, hown, hblocks]
          intro h
          dsimp only at heq₁
          omega
      · rcases hside₂ with rfl | rfl
        · have h₁ : e.first.toNat = side₁.1 := by
            omega
          have h₂ : e.second.toNat = c.clique := by
            dsimp only at heq₂
            omega
          rw [h₁, h₂, hown, hblocks, Vec.add_swap]
          intro h
          dsimp only at heq₂
          omega
        · exact absurd (heq₁.symm.trans heq₂) hself

/-- A block row gives the velocities of the constraints on its edge. -/
theorem rowSum_assembled
    (hp : p.WellFormed)
    (hq : p.Covers q)
    (hvelocities : q.Expands p.cliqueSizes velocities)
    (hV : V.length = p.numVelocities)
    {i : ℕ}
    (he : p.graph.edges[i]? = some e) :
    (p.assembled q).rowSum i (velocities.gather V) =
      (p.onEdge e).flatMap (p.localVelocity V) := by
  have hmem := List.mem_of_getElem? he
  have hsize : (p.assembled q).blockRows.getD i 0 = e.equations.toNat := by
    rw [assembled, List.getD_eq_getElem?_getD, List.getElem?_map, he]
    rfl
  have hterm : ∀ z ∈ edgeCliques e,
      (ConstraintBundle.cliqueJacobian (p.onEdge e) z.toNat).mulVec
          ((p.assembled q).colPart ((q.place? z.toNat).getD 0) (velocities.gather V)) =
        (p.onEdge e).flatMap fun c =>
          (c.blockFor z.toNat).mulVec (p.cliquePart V z.toNat) := by
    intro z hz
    obtain ⟨k, hk, -⟩ :=
      hp.exists_place hq.domainSize_eq hmem hz (hp.coversEdge hq hmem z hz)
    rw [PartialPermutation.place?_eq_some_iff.2 hk, Option.getD_some,
      colPart_assembled hvelocities hV hk, hp.mulVec_cliqueJacobian hmem hz]
  have hlength : ∀ z ∈ edgeCliques e,
      ((p.onEdge e).flatMap fun c =>
        (c.blockFor z.toNat).mulVec (p.cliquePart V z.toNat)).length = e.equations.toNat := by
    intro z hz
    rw [← hterm z hz, DenseMatrix.length_mulVec, hp.numRows_cliqueJacobian hmem hz]
  unfold BlockSparseMatrix.rowSum
  rw [rowBlocks_assembled he, hsize, edgeBlocks, List.foldl_map]
  by_cases hself : e.first = e.second
  · have hcliques := edgeCliques_of_eq hself
    rw [hcliques] at hterm hlength ⊢
    rw [List.foldl_cons, List.foldl_nil, hterm _ List.mem_cons_self,
      Vec.add_zero_left (hlength _ List.mem_cons_self)]
    apply List.flatMap_congr
    intro c hc
    rw [hp.localVelocity_of_isSelfPair hc hself]
  · have hcliques := edgeCliques_of_ne hself
    have hfirst : e.first ∈ edgeCliques e :=
      mem_edgeCliques.2 (Or.inl rfl)
    have hsecond : e.second ∈ edgeCliques e :=
      mem_edgeCliques.2 (Or.inr rfl)
    rw [hcliques, List.foldl_cons, List.foldl_cons, List.foldl_nil, hterm _ hfirst,
      hterm _ hsecond, Vec.add_zero_left (hlength _ hfirst), Vec.add, Vec.zipWith_flatMap]
    · apply List.flatMap_congr
      intro c hc
      rw [localVelocity_of_not_isSelfPair hc hself]
      rfl
    · intro c hc
      rw [hp.length_blockFor_mulVec hc hfirst, hp.length_blockFor_mulVec hc hsecond]

/-- The Jacobian gives the velocities of the constraints in the order of the edges. -/
theorem mulVec_assembled
    (hp : p.WellFormed)
    (hq : p.Covers q)
    (hvelocities : q.Expands p.cliqueSizes velocities)
    (ho : o.inverse = p.graph.edges.flatMap fun e =>
      ContactGraph.indicesOn (p.constraints.map memberOf) e.cliques)
    (hV : V.length = p.numVelocities) :
    (p.assembled q).mulVec (velocities.gather V) =
      (o.gather p.constraints).flatMap (p.localVelocity V) := by
  have hedges : ∀ f : Edge → List ℝ,
      ((List.range p.graph.edges.length).flatMap fun i =>
        match p.graph.edges[i]? with
        | some e => f e
        | none => []) = p.graph.edges.flatMap f := by
    intro f
    rw [List.flatMap_def, List.flatMap_def]
    congr 1
    apply List.ext_getElem
    · simp
    · intro i h₁ h₂
      simp at h₁
      simp [h₁]
  rw [gather_eq_flatMap ho, List.flatMap_assoc, ← hedges,
    BlockSparseMatrix.mulVec_eq_flatMap]
  have hcount : (p.assembled q).blockRows.length = p.graph.edges.length := by
    simp [assembled]
  rw [hcount]
  apply List.flatMap_congr
  intro i hi
  rw [List.mem_range] at hi
  have he : p.graph.edges[i]? = some p.graph.edges[i] :=
    List.getElem?_eq_getElem hi
  rw [hp.rowSum_assembled hq hvelocities hV he, he]
  rfl

end Action

end WellFormed

end ContactProblem
end ConvexContact
