import Mathlib
import ConvexContact.Proofs.Graphs

/-!
# Grouping constraints by their cliques

**Input.**  A number of cliques and a list of constraints, each with one clique or two.

**Refusals.**  A graph is refused if the number of cliques is negative or a constraint names a
clique that does not exist, and for no other reason: the edges that are collected from a list pass
the checks of given edges (`build_eq_ok_iff`).

**Result.**  `build_groups`: the edges of an accepted graph are in lexicographic order, and each
constraint stands on one edge, that of its own cliques.
-/

namespace ConvexContact

namespace Member

/-- The constraint acts on the clique. -/
def Names (m : Member) (c : ℤ) : Prop :=
  m.first = c ∨ m.second? = some c

theorem names_iff
    {m : Member} {c : ℤ} :
    m.Names c ↔ m.first = c ∨ m.secondOrFirst = c := by
  unfold Names secondOrFirst
  cases m.second? with
  | none =>
      simp
  | some d =>
      simp

/-- The cliques in ascending order are the smaller and the larger one. -/
theorem pair_eq
    (m : Member) :
    m.pair = (min m.first m.secondOrFirst, max m.first m.secondOrFirst) := by
  unfold pair
  split_ifs with h
  · rw [min_eq_left h, max_eq_right h]
  · rw [min_eq_right (not_le.1 h).le, max_eq_left (not_le.1 h).le]

end Member

theorem toLex_lt_toLex_iff
    {a b : ℤ × ℤ} :
    toLex a < toLex b ↔ pairLt a b = true := by
  rw [Prod.Lex.toLex_lt_toLex, pairLt_iff]

namespace ContactGraph

/-- The equations of the constraint at a position. -/
def equationsAt (members : List Member) (i : ℕ) : ℤ :=
  (members[i]?).elim 0 Member.equations

theorem map_equationsAt_range
    (members : List Member) :
    (List.range members.length).map (equationsAt members) = members.map Member.equations := by
  apply List.ext_getElem
  · simp
  · intro i h₁ h₂
    have hi : i < members.length := by
      simpa using h₁
    simp [equationsAt, hi]

/-- The equations on a pair of cliques are those of the positions on it. -/
theorem equationsOn_eq_sum
    (members : List Member) (pair : ℤ × ℤ) :
    equationsOn members pair = ((indicesOn members pair).map (equationsAt members)).sum := by
  induction members using List.reverseRecOn with
  | nil =>
      rfl
  | append_singleton members m ih =>
      have hbefore : (indicesOn members pair).map (equationsAt (members ++ [m])) =
          (indicesOn members pair).map (equationsAt members) := by
        apply List.map_congr_left
        intro i hi
        have hlt : i < members.length :=
          List.mem_range.1 (List.mem_filter.1 hi).1
        unfold equationsAt
        rw [List.getElem?_append_left hlt]
      rw [equationsOn_append, indicesOn_append, List.map_append, List.sum_append, hbefore, ih]
      split_ifs <;> simp [equationsAt]

/-- The edges of the graph carry the constraints of a list, grouped by the cliques they act on. -/
structure Groups (members : List Member) (g : ContactGraph) : Prop where
  /-- The pairs of cliques ascend strictly in lexicographic order. -/
  ascending : (g.edges.map fun e => toLex e.cliques).Pairwise (· < ·)
  first_le_second : ∀ e ∈ g.edges, e.first ≤ e.second
  /-- Each constraint stands once on the edges. -/
  once : (g.edges.flatMap Edge.constraints).Perm
    ((List.range members.length).map fun (i : ℕ) => (i : ℤ))
  /-- An edge carries the constraints on its cliques. -/
  mem_constraints : ∀ e ∈ g.edges, ∀ i : ℕ, (i : ℤ) ∈ e.constraints ↔
    ∃ m, members[i]? = some m ∧
      e.cliques = (min m.first (m.second?.getD m.first), max m.first (m.second?.getD m.first))
  constraints_ascending : ∀ e ∈ g.edges, e.constraints.Pairwise (· < ·)
  constraints_ne_nil : ∀ e ∈ g.edges, e.constraints ≠ []
  equations_eq : ∀ e ∈ g.edges,
    e.equations = (e.constraints.map fun i => equationsAt members i.toNat).sum
  numConstraints_eq : g.numConstraints = members.length
  numEquations_eq : g.numEquations = (members.map Member.equations).sum

/-- Each constraint stands on exactly one edge, that of its own cliques. -/
theorem Groups.existsUnique_edge
    {members : List Member} {g : ContactGraph}
    (h : Groups members g)
    {i : ℕ}
    (hi : i < members.length) :
    ∃! e, e ∈ g.edges ∧ (i : ℤ) ∈ e.constraints := by
  have hlisted : (i : ℤ) ∈ g.edges.flatMap Edge.constraints :=
    h.once.mem_iff.2 (List.mem_map_of_mem (List.mem_range.2 hi))
  obtain ⟨e, he, hmem⟩ := List.mem_flatMap.1 hlisted
  refine ⟨e, ⟨he, hmem⟩, ?_⟩
  rintro e' ⟨he', hmem'⟩
  obtain ⟨m, hm, hcliques⟩ := (h.mem_constraints e he i).1 hmem
  obtain ⟨m', hm', hcliques'⟩ := (h.mem_constraints e' he' i).1 hmem'
  obtain rfl : m = m' :=
    Option.some_inj.1 (hm.symm.trans hm')
  have hinjective := List.inj_on_of_nodup_map (h.ascending.imp ne_of_lt)
  exact hinjective he' he (congrArg toLex (hcliques'.trans hcliques.symm))

namespace Collects

variable {members : List Member} {edges : List Edge}

/-- The equations of all edges are those of all constraints. -/
theorem sum_equations_eq
    (h : Collects members edges) :
    (edges.map Edge.equations).sum = (members.map Member.equations).sum := by
  have hedges : edges.map Edge.equations =
      edges.map fun e => ((indicesOn members e.cliques).map (equationsAt members)).sum := by
    apply List.map_congr_left
    intro e he
    rw [h.equations_eq e he, equationsOn_eq_sum]
  have hlisted := (h.perm_constraints.map (equationsAt members)).sum_eq
  rw [map_equationsAt_range, List.map_flatMap, List.flatMap_def, List.sum_flatten,
    List.map_map] at hlisted
  rw [hedges]
  exact hlisted

/-- Collected edges group their constraints. -/
theorem groups
    {g : ContactGraph}
    (h : Collects members g.edges) :
    Groups members g := by
  have hmember : ∀ e ∈ g.edges, ∃ m ∈ members, m.pair = e.cliques := by
    intro e he
    exact List.mem_map.1 ((h.mem_cliques _).1 (List.mem_map_of_mem he))
  refine
    { ascending := ?_
      first_le_second := ?_
      once := ?_
      mem_constraints := ?_
      constraints_ascending := ?_
      constraints_ne_nil := ?_
      equations_eq := ?_
      numConstraints_eq := h.numConstraints_eq
      numEquations_eq := h.sum_equations_eq }
  · have hascending := List.pairwise_map.1 h.ascending
    exact List.pairwise_map.2 (hascending.imp fun hlt => toLex_lt_toLex_iff.2 hlt)
  · intro e he
    obtain ⟨m, -, hpair⟩ := hmember e he
    change e.cliques.1 ≤ e.cliques.2
    rw [← hpair, m.pair_eq]
    exact min_le_max
  · rw [h.flatMap_constraints]
    exact h.perm_constraints.map _
  · intro e he i
    rw [h.constraints_eq e he, List.mem_map_of_injective Nat.cast_injective, mem_indicesOn,
      Option.map_eq_some_iff]
    apply exists_congr
    intro m
    rw [m.pair_eq, eq_comm (a := e.cliques)]
    rfl
  · intro e he
    rw [h.constraints_eq e he, List.pairwise_map]
    exact (List.pairwise_lt_range.filter _).imp Int.ofNat_lt.2
  · intro e he
    obtain ⟨m, hm, hpair⟩ := hmember e he
    obtain ⟨i, hi⟩ := List.mem_iff_getElem?.1 hm
    have hmem : i ∈ indicesOn members e.cliques := by
      rw [mem_indicesOn, hi, ← hpair]
      rfl
    rw [h.constraints_eq e he, ne_eq, List.map_eq_nil_iff]
    exact List.ne_nil_of_mem hmem
  · intro e he
    rw [h.equations_eq e he, h.constraints_eq e he, equationsOn_eq_sum, List.map_map]
    rfl

end Collects

section Building

variable {numCliques : ℤ} {members : List Member} {g : ContactGraph}

/-- Every constraint acts on existing cliques. -/
theorem forall_exists_iff :
    (∀ m ∈ members,
      (0 ≤ m.first ∧ m.first < numCliques) ∧
        0 ≤ m.secondOrFirst ∧ m.secondOrFirst < numCliques) ↔
      ¬ ∃ m ∈ members, ∃ c, m.Names c ∧ (c < 0 ∨ numCliques ≤ c) := by
  push Not
  refine forall₂_congr fun m _ => ?_
  constructor
  · rintro ⟨hfirst, hsecond⟩ c hc
    rcases Member.names_iff.1 hc with rfl | rfl
    · exact hfirst
    · exact hsecond
  · intro h
    exact ⟨h _ (Member.names_iff.2 (Or.inl rfl)), h _ (Member.names_iff.2 (Or.inr rfl))⟩

/-- A graph is accepted if all constraints act on existing cliques, and only then. -/
theorem build_eq_ok_iff :
    build numCliques members = .ok g ↔
      (0 ≤ numCliques ∧ ∀ m ∈ members,
        (0 ≤ m.first ∧ m.first < numCliques) ∧
          0 ≤ m.secondOrFirst ∧ m.secondOrFirst < numCliques) ∧
        g = ofMembers numCliques.toNat members := by
  constructor
  · intro h
    have hcount : 0 ≤ numCliques := by
      by_contra hneg
      unfold build at h
      rw [if_pos (not_le.1 hneg)] at h
      cases h
    obtain ⟨n, rfl⟩ := Int.eq_ofNat_of_zero_le hcount
    have hmembers : missingClique? n 0 members = none := by
      unfold build at h
      rw [if_neg (not_lt.2 hcount)] at h
      split at h
      · cases h
      · assumption
    rw [missingClique?_eq_none_iff] at hmembers
    rw [build_eq_ok hmembers] at h
    cases h
    exact ⟨⟨hcount, hmembers⟩, rfl⟩
  · rintro ⟨⟨hcount, hmembers⟩, rfl⟩
    obtain ⟨n, rfl⟩ := Int.eq_ofNat_of_zero_le hcount
    exact build_eq_ok hmembers

/-- What a refused graph is refused for: a negative number of cliques, or else the first constraint
that names a missing clique. -/
inductive Refusal (numCliques : ℤ) (members : List Member) : Error → Prop
  | negativeCount
      (hcount : numCliques < 0) :
      Refusal numCliques members (.negativeCliqueCount numCliques)
  | missingClique
      {i : ℕ} {m : Member} {c : ℤ}
      (hcount : 0 ≤ numCliques)
      (hmember : members[i]? = some m)
      (hnames : m.Names c)
      (hmissing : c < 0 ∨ numCliques ≤ c)
      (hbefore : ¬ ∃ m ∈ members.take i, ∃ c, m.Names c ∧ (c < 0 ∨ numCliques ≤ c)) :
      Refusal numCliques members (.referencesMissingClique i c numCliques)

theorem Refusal.kind_eq
    {e : Error}
    (h : Refusal numCliques members e) :
    e.kind = .value := by
  cases h <;> rfl

/-- The constraint that is found is the first one that names a missing clique. -/
theorem missingClique?_eq_some
    {index i : ℕ} {c : ℤ}
    (h : missingClique? numCliques index members = some (i, c)) :
    ∃ k m, i = index + k ∧ members[k]? = some m ∧ m.Names c ∧ (c < 0 ∨ numCliques ≤ c) ∧
      missingClique? numCliques index (members.take k) = none := by
  induction members generalizing index with
  | nil =>
      cases h
  | cons m members ih =>
      rw [missingClique?] at h
      split at h
      · rename_i d hfound
        cases h
        have hmem := List.mem_of_find?_eq_some hfound
        have hmissing := List.find?_some hfound
        refine ⟨0, m, rfl, rfl, Member.names_iff.2 ?_, by simpa using hmissing, rfl⟩
        simpa [eq_comm] using hmem
      · rename_i hfound
        obtain ⟨k, m', hi, hm', hnames, hmissing, hbefore⟩ := ih h
        refine ⟨k + 1, m', by omega, hm', hnames, hmissing, ?_⟩
        rw [List.take_succ_cons, missingClique?, hfound]
        exact hbefore

/-- A graph that is not accepted is refused with its reason. -/
theorem exists_refusal_of_not
    (h : ¬ (0 ≤ numCliques ∧ ∀ m ∈ members,
      (0 ≤ m.first ∧ m.first < numCliques) ∧
        0 ≤ m.secondOrFirst ∧ m.secondOrFirst < numCliques)) :
    ∃ e, build numCliques members = .error e ∧ Refusal numCliques members e := by
  by_cases hcount : numCliques < 0
  · refine ⟨.negativeCliqueCount numCliques, ?_, .negativeCount hcount⟩
    unfold build
    rw [if_pos hcount]
  · have hfound : missingClique? numCliques 0 members ≠ none := by
      intro hnone
      exact h ⟨not_lt.1 hcount, missingClique?_eq_none_iff.1 hnone⟩
    obtain ⟨⟨i, c⟩, hfound⟩ := Option.ne_none_iff_exists'.1 hfound
    obtain ⟨k, m, hi, hm, hnames, hmissing, hbefore⟩ := missingClique?_eq_some hfound
    rw [Nat.zero_add] at hi
    subst hi
    rw [missingClique?_eq_none_iff, forall_exists_iff] at hbefore
    refine ⟨.referencesMissingClique i c numCliques, ?_,
      .missingClique (not_lt.1 hcount) hm hnames hmissing hbefore⟩
    unfold build
    rw [if_neg hcount, hfound]

end Building

/-- **Building a graph.**  The graph of a list of constraints is refused for a value exactly if the
number of cliques is negative or some constraint names a clique that does not exist, and the refusal
names the number or the first such constraint.  Otherwise there is a graph, and its edges carry the
constraints of the list, grouped by the cliques they act on. -/
theorem build_groups
    (numCliques : ℤ) (members : List Member) :
    ((∃ e, build numCliques members = .error e ∧ e.kind = .value) ↔
      numCliques < 0 ∨ ∃ m ∈ members, ∃ c, m.Names c ∧ (c < 0 ∨ numCliques ≤ c)) ∧
    ((∃ e, build numCliques members = .error e ∧ Refusal numCliques members e) ∨
      ∃ g, build numCliques members = .ok g ∧ (g.numCliques : ℤ) = numCliques ∧
        Groups members g) := by
  by_cases h : 0 ≤ numCliques ∧ ∀ m ∈ members,
      (0 ≤ m.first ∧ m.first < numCliques) ∧ 0 ≤ m.secondOrFirst ∧ m.secondOrFirst < numCliques
  · have hbuild : build numCliques members = .ok (ofMembers numCliques.toNat members) :=
      build_eq_ok_iff.2 ⟨h, rfl⟩
    have hfine : ¬ ∃ e, build numCliques members = .error e ∧ e.kind = .value := by
      rintro ⟨e, he, -⟩
      rw [hbuild] at he
      cases he
    refine ⟨⟨fun herror => absurd herror hfine, ?_⟩, Or.inr ⟨_, hbuild, ?_, ?_⟩⟩
    · rintro (hneg | hmissing)
      · exact absurd h.1 (not_le.2 hneg)
      · exact absurd hmissing (forall_exists_iff.1 h.2)
    · exact Int.toNat_of_nonneg h.1
    · exact (collects_ofMembers numCliques.toNat members).groups
  · obtain ⟨e, he, hrefusal⟩ := exists_refusal_of_not h
    refine ⟨⟨fun _ => ?_, fun _ => ⟨e, he, hrefusal.kind_eq⟩⟩, Or.inl ⟨e, he, hrefusal⟩⟩
    rw [not_and_or, forall_exists_iff, not_not, not_le] at h
    exact h

end ContactGraph

end ConvexContact
