import Mathlib
import ConvexContact.Proofs.Grouping

/-!
# Looking up edges

**Input.**  A graph, built from a list of constraints or given by its edges, and two cliques.

**Lookup.**  The cliques are put in ascending order and compared with the pairs of the edges, which
are distinct.  So lookup is symmetric and finds the one edge with the ascending pair.

**Result.**  `findEdge?_finds_ascending`: an edge is found from its own cliques exactly if its pair
ascends, and lookup ignores the order of the cliques in a graph exactly if all its pairs ascend.
They do in every graph that is built from constraints.  Given edges are only compared with each
other, not each with its own order: an edge with a descending pair is accepted and never found
(`findEdge?_descending`).
-/

namespace ConvexContact

namespace Edge

/-- The edge joins the cliques, in either order. -/
def Joins (e : Edge) (c₀ c₁ : ℤ) : Prop :=
  e.cliques = (c₀, c₁) ∨ e.cliques = (c₁, c₀)

instance (e : Edge) (c₀ c₁ : ℤ) : Decidable (e.Joins c₀ c₁) :=
  inferInstanceAs (Decidable (_ ∨ _))

/-- An edge with an ascending pair joins two cliques if its pair is the smaller and the larger
one. -/
theorem joins_iff
    {e : Edge}
    (h : e.first ≤ e.second)
    (c₀ c₁ : ℤ) :
    e.Joins c₀ c₁ ↔ e.cliques = (min c₀ c₁, max c₀ c₁) := by
  simp only [Joins, cliques, Prod.mk.injEq]
  omega

end Edge

namespace ContactGraph

/-- A graph that is built from constraints or given by its edges. -/
inductive Obtained : ContactGraph → Prop
  | built
      {numCliques : ℤ} {members : List Member} {g : ContactGraph}
      (h : build numCliques members = .ok g) :
      Obtained g
  | given
      {numCliques : ℤ} {edges : List Edge} {g : ContactGraph}
      (h : ofEdges numCliques edges = .ok g) :
      Obtained g

/-- Pairs that are accepted as the pairs of edges ascend strictly. -/
theorem pairwise_of_ascending
    {pairs : List (ℤ × ℤ)}
    (h : ascending pairs = true) :
    pairs.Pairwise fun a b => pairLt a b = true := by
  induction pairs with
  | nil =>
      exact List.Pairwise.nil
  | cons a rest ih =>
      cases rest with
      | nil =>
          exact List.pairwise_singleton _ a
      | cons b rest =>
          rw [ascending, Bool.and_eq_true] at h
          have hrest := ih h.2
          refine List.pairwise_cons.2 ⟨?_, hrest⟩
          intro c hc
          rcases List.mem_cons.1 hc with rfl | hc
          · exact h.1
          · exact pairLt_trans h.1 ((List.pairwise_cons.1 hrest).1 c hc)

/-- Edges are accepted if there are not negatively many cliques, the pairs ascend strictly and all
ends exist, and only then. -/
theorem ofEdges_eq_ok_iff
    {numCliques : ℤ} {edges : List Edge} {g : ContactGraph} :
    ofEdges numCliques edges = .ok g ↔
      (0 ≤ numCliques ∧ (edges.map Edge.cliques).Pairwise (fun a b => pairLt a b = true) ∧
        ∀ e ∈ edges,
          (0 ≤ e.first ∧ e.first < numCliques) ∧ 0 ≤ e.second ∧ e.second < numCliques) ∧
        g = ⟨numCliques.toNat, edges⟩ := by
  have hends : missingEdgeClique? numCliques edges = none ↔ ∀ e ∈ edges,
      (0 ≤ e.first ∧ e.first < numCliques) ∧ 0 ≤ e.second ∧ e.second < numCliques := by
    rw [missingEdgeClique?, List.find?_eq_none, List.forall_mem_flatMap]
    refine forall₂_congr fun e _ => ?_
    simp
  rw [← hends, ofEdges]
  constructor
  · intro h
    split_ifs at h with hcount hascending
    split at h
    · cases h
    · rename_i hmissing
      cases h
      exact ⟨⟨not_lt.1 hcount, pairwise_of_ascending hascending, hmissing⟩, rfl⟩
  · rintro ⟨⟨hcount, hascending, hmissing⟩, rfl⟩
    rw [if_neg (not_lt.2 hcount), if_pos (ascending_of_pairwise hascending), hmissing]

/-- The pairs of the edges ascend strictly. -/
theorem Obtained.pairwise_pairLt
    {g : ContactGraph}
    (h : Obtained g) :
    (g.edges.map Edge.cliques).Pairwise fun a b => pairLt a b = true := by
  cases h with
  | built h =>
      obtain ⟨-, rfl⟩ := build_eq_ok_iff.1 h
      exact (collects_ofMembers _ _).ascending
  | given h =>
      obtain ⟨⟨-, hascending, -⟩, rfl⟩ := ofEdges_eq_ok_iff.1 h
      exact hascending

/-- No two edges have one pair. -/
theorem Obtained.nodup_cliques
    {g : ContactGraph}
    (h : Obtained g) :
    (g.edges.map Edge.cliques).Nodup := by
  refine h.pairwise_pairLt.imp ?_
  rintro a _ hlt rfl
  exact pairLt_irrefl a hlt

/-- Each pair of a built graph ascends. -/
theorem first_le_second_of_build
    {numCliques : ℤ} {members : List Member} {g : ContactGraph}
    (h : build numCliques members = .ok g) :
    ∀ e ∈ g.edges, e.first ≤ e.second := by
  obtain ⟨-, rfl⟩ := build_eq_ok_iff.1 h
  exact (collects_ofMembers _ _).groups.first_le_second

section Lookup

variable {g : ContactGraph} {c₀ c₁ : ℤ} {k : ℕ} {e : Edge}

theorem edge?_natCast_eq_ok_iff :
    g.edge? k = .ok e ↔ g.edges[k]? = some e := by
  constructor
  · intro h
    rw [edge?, entryAt?, if_neg (by omega), if_neg (by omega), Int.toNat_natCast] at h
    split at h
    · rename_i e' he'
      cases h
      exact he'
    · cases h
  · exact entryAt?_natCast

theorem findEdge?_eq_findIdx?
    (g : ContactGraph) (c₀ c₁ : ℤ) :
    g.findEdge? c₀ c₁ = g.edges.findIdx? fun e => e.cliques = (min c₀ c₁, max c₀ c₁) := by
  rw [findEdge?]
  rcases le_or_gt c₀ c₁ with h | h
  · rw [if_pos h, min_eq_left h, max_eq_right h]
  · rw [if_neg (not_le.2 h), min_eq_right h.le, max_eq_left h.le]

theorem findEdge?_comm
    (g : ContactGraph) (c₀ c₁ : ℤ) :
    g.findEdge? c₀ c₁ = g.findEdge? c₁ c₀ := by
  rw [findEdge?_eq_findIdx?, findEdge?_eq_findIdx?, min_comm, max_comm]

theorem findEdge?_eq_none_iff :
    g.findEdge? c₀ c₁ = none ↔ ∀ e ∈ g.edges, e.cliques ≠ (min c₀ c₁, max c₀ c₁) := by
  rw [findEdge?_eq_findIdx?, List.findIdx?_eq_none_iff]
  simp

/-- The edge that is found is the one with the ascending pair. -/
theorem findEdge?_eq_some_iff
    (h : (g.edges.map Edge.cliques).Nodup) :
    g.findEdge? c₀ c₁ = some k ↔
      ∃ e, g.edge? k = .ok e ∧ e.cliques = (min c₀ c₁, max c₀ c₁) := by
  simp only [edge?_natCast_eq_ok_iff, findEdge?_eq_findIdx?,
    List.findIdx?_eq_some_iff_getElem, decide_eq_true_eq]
  constructor
  · rintro ⟨hk, hcliques, -⟩
    exact ⟨g.edges[k], List.getElem?_eq_getElem hk, hcliques⟩
  · rintro ⟨e, he, hcliques⟩
    obtain ⟨hk, rfl⟩ := List.getElem?_eq_some_iff.1 he
    refine ⟨hk, hcliques, ?_⟩
    -- An earlier edge with this pair would repeat the pair.
    intro j hj hsame
    have hne := List.pairwise_iff_getElem.1 h j k (by simp; omega) (by simpa using hk) hj
    simp only [List.getElem_map] at hne
    exact hne (hsame.trans hcliques.symm)

/-- An edge is found from its own cliques if its pair ascends, and only then. -/
theorem findEdge?_ends_iff
    (h : (g.edges.map Edge.cliques).Nodup)
    (he : g.edge? k = .ok e) :
    g.findEdge? e.first e.second = some k ↔ e.first ≤ e.second := by
  rw [findEdge?_eq_some_iff h]
  constructor
  · rintro ⟨e', he', hcliques⟩
    obtain rfl : e = e' := by
      simpa using he.symm.trans he'
    have hfirst := congrArg Prod.fst hcliques
    exact min_eq_left_iff.1 hfirst.symm
  · intro hle
    refine ⟨e, he, ?_⟩
    rw [min_eq_left hle, max_eq_right hle]
    rfl

/-- Lookup finds the edge that joins two cliques, whatever the order of the cliques. -/
structure LooksUpUnordered (g : ContactGraph) : Prop where
  found_iff : ∀ (c₀ c₁ : ℤ) (k : ℕ),
    g.findEdge? c₀ c₁ = some k ↔ ∃ e, g.edge? k = .ok e ∧ e.Joins c₀ c₁
  absent_iff : ∀ c₀ c₁ : ℤ, g.findEdge? c₀ c₁ = none ↔ ∀ e ∈ g.edges, ¬ e.Joins c₀ c₁
  found_from_ends : ∀ (k : ℕ) (e : Edge),
    g.edge? k = .ok e → g.findEdge? e.first e.second = some k
  symmetric : ∀ c₀ c₁ : ℤ, g.findEdge? c₀ c₁ = g.findEdge? c₁ c₀

theorem looksUpUnordered_iff
    (h : (g.edges.map Edge.cliques).Nodup) :
    g.LooksUpUnordered ↔ ∀ e ∈ g.edges, e.first ≤ e.second := by
  constructor
  · intro hlookup e he
    obtain ⟨k, hk⟩ := List.mem_iff_getElem?.1 he
    have hedge := edge?_natCast_eq_ok_iff.2 hk
    exact (findEdge?_ends_iff h hedge).1 (hlookup.found_from_ends k e hedge)
  · intro hle
    have hmem : ∀ {k : ℕ} {e}, g.edge? k = .ok e → e ∈ g.edges :=
      fun he => List.mem_of_getElem? (edge?_natCast_eq_ok_iff.1 he)
    refine
      { found_iff := ?_
        absent_iff := ?_
        found_from_ends := fun k e he => (findEdge?_ends_iff h he).2 (hle e (hmem he))
        symmetric := g.findEdge?_comm }
    · intro c₀ c₁ k
      rw [findEdge?_eq_some_iff h]
      apply exists_congr
      intro e
      apply and_congr_right
      intro he
      rw [Edge.joins_iff (hle e (hmem he))]
    · intro c₀ c₁
      rw [findEdge?_eq_none_iff]
      refine forall₂_congr fun e he => ?_
      rw [ne_eq, Edge.joins_iff (hle e he)]

end Lookup

/-- **Lookup finds ascending pairs.**  In every graph that is built or given, lookup is symmetric
and finds the edge whose pair is the smaller and the larger clique.  An edge is found from its own
cliques exactly if its pair ascends, so lookup finds what joins two cliques in either order exactly
if all pairs ascend, as they do in a graph that is built from constraints. -/
theorem findEdge?_finds_ascending
    {g : ContactGraph}
    (h : Obtained g) :
    (∀ c₀ c₁ : ℤ, g.findEdge? c₀ c₁ = g.findEdge? c₁ c₀) ∧
    (∀ (c₀ c₁ : ℤ) (k : ℕ), g.findEdge? c₀ c₁ = some k ↔
      ∃ e, g.edge? k = .ok e ∧ e.cliques = (min c₀ c₁, max c₀ c₁)) ∧
    (∀ c₀ c₁ : ℤ, g.findEdge? c₀ c₁ = none ↔
      ∀ e ∈ g.edges, e.cliques ≠ (min c₀ c₁, max c₀ c₁)) ∧
    (∀ (k : ℕ) (e : Edge), g.edge? k = .ok e →
      (g.findEdge? e.first e.second = some k ↔ e.first ≤ e.second)) ∧
    (g.LooksUpUnordered ↔ ∀ e ∈ g.edges, e.first ≤ e.second) ∧
    ∀ (numCliques : ℤ) (members : List Member),
      build numCliques members = .ok g → g.LooksUpUnordered := by
  have hnodup := h.nodup_cliques
  refine ⟨g.findEdge?_comm, fun _ _ _ => findEdge?_eq_some_iff hnodup,
    fun _ _ => findEdge?_eq_none_iff, fun _ _ => findEdge?_ends_iff hnodup,
    looksUpUnordered_iff hnodup, ?_⟩
  intro numCliques members hbuild
  exact (looksUpUnordered_iff hnodup).2 (first_le_second_of_build hbuild)

/-- A constraint that names its cliques in descending order is found in either order. -/
theorem findEdge?_finds_ascending_pair :
    build 2 [⟨1, some 0, 3⟩] = .ok ⟨2, [⟨0, 1, [0], 3⟩]⟩ ∧
      (⟨2, [⟨0, 1, [0], 3⟩]⟩ : ContactGraph).LooksUpUnordered := by
  have hbuild : build 2 [⟨1, some 0, 3⟩] = .ok ⟨2, [⟨0, 1, [0], 3⟩]⟩ :=
    rfl
  obtain ⟨-, -, -, -, -, hlookup⟩ := findEdge?_finds_ascending (.built hbuild)
  exact ⟨hbuild, hlookup 2 [⟨1, some 0, 3⟩] hbuild⟩

/-- A given edge with a descending pair is accepted and joins its cliques, but is not found. -/
theorem findEdge?_descending :
    ofEdges 2 [⟨1, 0, [0], 3⟩] = .ok ⟨2, [⟨1, 0, [0], 3⟩]⟩ ∧
      (⟨2, [⟨1, 0, [0], 3⟩]⟩ : ContactGraph).edge? 0 = .ok ⟨1, 0, [0], 3⟩ ∧
      (⟨1, 0, [0], 3⟩ : Edge).Joins 1 0 ∧
      (⟨2, [⟨1, 0, [0], 3⟩]⟩ : ContactGraph).findEdge? 1 0 = none := by
  refine ⟨rfl, rfl, ?_, ?_⟩
  · decide
  · decide

end ContactGraph

end ConvexContact
