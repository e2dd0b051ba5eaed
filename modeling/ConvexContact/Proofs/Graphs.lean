import Mathlib
import ConvexContact.ContactGraph
import ConvexContact.Proofs.Permutations

/-!
# The edges of a contact graph

**Invariant.**  The edges collected from a list of constraints have strictly ascending pairs of
cliques; there is an edge for each pair on which some constraint acts, and it carries exactly the
constraints on its pair, in the order of the list (`Collects`).  One insertion keeps this invariant
(`Collects.insertMember`), hence so does collecting a whole list (`collects_ofMembers`).

**Consequences.**  The edges collected from constraints on existing cliques pass the checks of given
edges (`build_eq_ok`).  Every constraint stands on one edge, so the order of the edges permutes the
constraints (`constraintsPermutation_eq_ok`).  A graph is determined by the pairs of its
constraints, with their equations, up to order (`Collects.cliques_eq`).
-/

namespace ConvexContact

section Order

variable {a b c : ℤ × ℤ}

theorem pairLt_iff :
    pairLt a b = true ↔ a.1 < b.1 ∨ a.1 = b.1 ∧ a.2 < b.2 := by
  simp [pairLt]

theorem pairLt_irrefl
    (a : ℤ × ℤ) :
    ¬ pairLt a a = true := by
  rw [pairLt_iff]
  omega

theorem pairLt_trans
    (hab : pairLt a b = true)
    (hbc : pairLt b c = true) :
    pairLt a c = true := by
  rw [pairLt_iff] at *
  omega

theorem pairLt_of_not
    (hne : a ≠ b)
    (hab : ¬ pairLt a b = true) :
    pairLt b a = true := by
  have hcoordinates : ¬ (a.1 = b.1 ∧ a.2 = b.2) := by
    rintro ⟨h₁, h₂⟩
    exact hne (Prod.ext h₁ h₂)
  rw [pairLt_iff] at *
  omega

end Order

namespace ContactGraph

/-- The positions of the constraints that act on a pair of cliques. -/
def indicesOn (members : List Member) (pair : ℤ × ℤ) : List ℕ :=
  (List.range members.length).filter fun i => (members[i]?).map Member.pair = some pair

/-- The equations of the constraints that act on a pair of cliques. -/
def equationsOn (members : List Member) (pair : ℤ × ℤ) : ℤ :=
  ((members.filter (·.pair = pair)).map (·.equations)).sum

theorem indicesOn_append
    (members : List Member) (m : Member) (pair : ℤ × ℤ) :
    indicesOn (members ++ [m]) pair =
      indicesOn members pair ++ if m.pair = pair then [members.length] else [] := by
  unfold indicesOn
  rw [List.length_append, List.length_singleton, List.range_succ, List.filter_append]
  congr 1
  · apply List.filter_congr
    intro i hi
    rw [List.getElem?_append_left (List.mem_range.1 hi)]
  · rw [List.filter_cons, List.filter_nil]
    simp

theorem equationsOn_append
    (members : List Member) (m : Member) (pair : ℤ × ℤ) :
    equationsOn (members ++ [m]) pair =
      equationsOn members pair + if m.pair = pair then m.equations else 0 := by
  unfold equationsOn
  rw [List.filter_append, List.map_append, List.sum_append, List.filter_cons, List.filter_nil]
  split_ifs <;> simp_all

theorem mem_indicesOn
    {members : List Member} {pair : ℤ × ℤ} {i : ℕ} :
    i ∈ indicesOn members pair ↔ (members[i]?).map Member.pair = some pair := by
  unfold indicesOn
  rw [List.mem_filter, List.mem_range, decide_eq_true_eq, and_iff_right_iff_imp]
  intro h
  by_contra hlt
  rw [List.getElem?_eq_none (by omega)] at h
  cases h

/-- The edges collected from a list of constraints. -/
structure Collects (members : List Member) (edges : List Edge) : Prop where
  ascending : (edges.map Edge.cliques).Pairwise fun a b => pairLt a b = true
  constraints_eq : ∀ e ∈ edges,
    e.constraints = (indicesOn members e.cliques).map fun (i : ℕ) => (i : ℤ)
  equations_eq : ∀ e ∈ edges, e.equations = equationsOn members e.cliques
  mem_cliques : ∀ pair, pair ∈ edges.map Edge.cliques ↔ pair ∈ members.map Member.pair

section Insertion

variable {pair : ℤ × ℤ} {index equations : ℤ} {edges : List Edge}

/-- An insertion adds the pair to the pairs of the edges. -/
theorem mem_cliques_insertMember
    {k : ℤ × ℤ} :
    k ∈ (insertMember pair index equations edges).map Edge.cliques ↔
      k = pair ∨ k ∈ edges.map Edge.cliques := by
  induction edges with
  | nil =>
      simp [insertMember, Edge.cliques]
  | cons e edges ih =>
      unfold insertMember
      split_ifs with heq hlt
      · simp [Edge.cliques, heq]
      · simp [Edge.cliques]
      · rw [List.map_cons, List.mem_cons, ih, List.map_cons, List.mem_cons]
        tauto

/-- An insertion keeps the order of the edges. -/
theorem ascending_insertMember
    (h : (edges.map Edge.cliques).Pairwise fun a b => pairLt a b = true) :
    ((insertMember pair index equations edges).map Edge.cliques).Pairwise
      fun a b => pairLt a b = true := by
  induction edges with
  | nil =>
      simp [insertMember]
  | cons e edges ih =>
      rw [List.map_cons, List.pairwise_cons] at h
      unfold insertMember
      split_ifs with heq hlt
      · rw [List.map_cons, List.pairwise_cons]
        exact h
      · rw [List.map_cons, List.pairwise_cons, List.map_cons, List.pairwise_cons]
        refine ⟨?_, h⟩
        intro k hk
        rcases List.mem_cons.1 hk with rfl | hk
        · exact hlt
        · exact pairLt_trans hlt (h.1 k hk)
      · rw [List.map_cons, List.pairwise_cons]
        refine ⟨?_, ih h.2⟩
        intro k hk
        rcases mem_cliques_insertMember.1 hk with rfl | hk
        · exact pairLt_of_not heq hlt
        · exact h.1 k hk

/-- An edge after an insertion is an edge on another pair, the edge on the pair with a constraint
added, or a new edge. -/
theorem cases_insertMember
    (h : (edges.map Edge.cliques).Pairwise fun a b => pairLt a b = true)
    {e : Edge}
    (he : e ∈ insertMember pair index equations edges) :
    (e ∈ edges ∧ e.cliques ≠ pair) ∨
      (∃ o ∈ edges, o.cliques = pair ∧
        e = { o with
          constraints := o.constraints ++ [index]
          equations := o.equations + equations }) ∨
      pair ∉ edges.map Edge.cliques ∧ e = ⟨pair.1, pair.2, [index], equations⟩ := by
  induction edges with
  | nil =>
      right
      right
      exact ⟨List.not_mem_nil, List.mem_singleton.1 he⟩
  | cons o edges ih =>
      rw [List.map_cons, List.pairwise_cons] at h
      have hne : ∀ e ∈ edges, pair = o.cliques ∨ pairLt pair o.cliques = true →
          e.cliques ≠ pair := by
        rintro a ha hpair rfl
        have hlt := h.1 _ (List.mem_map_of_mem ha)
        rcases hpair with heq | hlt'
        · rw [heq] at hlt
          exact pairLt_irrefl _ hlt
        · exact pairLt_irrefl _ (pairLt_trans hlt hlt')
      unfold insertMember at he
      split_ifs at he with heq hlt
      · rcases List.mem_cons.1 he with rfl | he
        · right
          left
          exact ⟨o, List.mem_cons_self, heq.symm, rfl⟩
        · left
          exact ⟨List.mem_cons_of_mem o he, hne e he (Or.inl heq)⟩
      · have hnew : pair ∉ (o :: edges).map Edge.cliques := by
          intro hmem
          obtain ⟨e', he', hcliques⟩ := List.mem_map.1 hmem
          rcases List.mem_cons.1 he' with rfl | he'
          · exact heq hcliques.symm
          · exact hne e' he' (Or.inr hlt) hcliques
        rcases List.mem_cons.1 he with rfl | he
        · right
          right
          exact ⟨hnew, rfl⟩
        · left
          refine ⟨he, ?_⟩
          intro hcliques
          exact hnew (hcliques ▸ List.mem_map_of_mem he)
      · rcases List.mem_cons.1 he with rfl | he
        · left
          exact ⟨List.mem_cons_self, fun h => heq h.symm⟩
        · rcases ih h.2 he with ⟨hmem, hcliques⟩ | ⟨o', ho', hcliques, rfl⟩ | ⟨hnew, rfl⟩
          · left
            exact ⟨List.mem_cons_of_mem o hmem, hcliques⟩
          · right
            left
            exact ⟨o', List.mem_cons_of_mem o ho', hcliques, rfl⟩
          · right
            right
            refine ⟨?_, rfl⟩
            rw [List.map_cons, List.mem_cons, not_or]
            exact ⟨heq, hnew⟩

end Insertion

namespace Collects

variable {members : List Member} {edges : List Edge}

theorem nil : Collects [] [] where
  ascending := List.Pairwise.nil
  constraints_eq := by simp
  equations_eq := by simp
  mem_cliques := by simp

theorem indicesOn_eq_nil
    {pair : ℤ × ℤ}
    (h : pair ∉ members.map Member.pair) :
    indicesOn members pair = [] ∧ equationsOn members pair = 0 := by
  have hne : ∀ m ∈ members, m.pair ≠ pair := by
    rintro m hm rfl
    exact h (List.mem_map_of_mem hm)
  constructor
  · rw [List.eq_nil_iff_forall_not_mem]
    intro i hi
    rw [mem_indicesOn, Option.map_eq_some_iff] at hi
    obtain ⟨m, hm, hpair⟩ := hi
    exact hne m (List.mem_of_getElem? hm) hpair
  · unfold equationsOn
    rw [List.filter_eq_nil_iff.2 (by simpa using hne)]
    rfl

/-- Inserting the next constraint of the list keeps the invariant. -/
theorem insertMember
    (h : Collects members edges)
    (m : Member) :
    Collects (members ++ [m])
      (ContactGraph.insertMember m.pair members.length m.equations edges) := by
  refine
    { ascending := ascending_insertMember h.ascending
      constraints_eq := ?_
      equations_eq := ?_
      mem_cliques := ?_ }
  · intro e he
    rcases cases_insertMember h.ascending he with
      ⟨hmem, hcliques⟩ | ⟨o, ho, hcliques, rfl⟩ | ⟨hnew, rfl⟩
    · rw [indicesOn_append, if_neg (Ne.symm hcliques), List.append_nil, h.constraints_eq e hmem]
    · change o.constraints ++ _ = (indicesOn _ o.cliques).map _
      rw [indicesOn_append, if_pos hcliques.symm, List.map_append, h.constraints_eq o ho]
      rfl
    · change _ = (indicesOn _ m.pair).map _
      rw [indicesOn_append, if_pos rfl,
        (indicesOn_eq_nil fun hmem => hnew ((h.mem_cliques _).2 hmem)).1]
      rfl
  · intro e he
    rcases cases_insertMember h.ascending he with
      ⟨hmem, hcliques⟩ | ⟨o, ho, hcliques, rfl⟩ | ⟨hnew, rfl⟩
    · rw [equationsOn_append, if_neg (Ne.symm hcliques), add_zero, h.equations_eq e hmem]
    · change o.equations + _ = equationsOn _ o.cliques
      rw [equationsOn_append, if_pos hcliques.symm, h.equations_eq o ho]
    · change _ = equationsOn _ m.pair
      rw [equationsOn_append, if_pos rfl,
        (indicesOn_eq_nil fun hmem => hnew ((h.mem_cliques _).2 hmem)).2, zero_add]
  · intro pair
    rw [mem_cliques_insertMember, h.mem_cliques, List.map_append, List.mem_append,
      List.map_singleton, List.mem_singleton]
    tauto

/-- Collecting the rest of the list keeps the invariant. -/
theorem collect
    (h : Collects members edges)
    (rest : List Member) :
    Collects (members ++ rest) (ContactGraph.collect edges members.length rest) := by
  induction rest generalizing members edges with
  | nil =>
      rw [List.append_nil]
      exact h
  | cons m rest ih =>
      have hnext := ih (h.insertMember m)
      rw [List.append_assoc, List.length_append] at hnext
      exact hnext

/-- The positions of the constraints in the order of the edges. -/
theorem flatMap_constraints
    (h : Collects members edges) :
    edges.flatMap Edge.constraints =
      (edges.flatMap fun e => indicesOn members e.cliques).map fun (i : ℕ) => (i : ℤ) := by
  rw [List.map_flatMap, List.flatMap_def, List.flatMap_def]
  congr 1
  exact List.map_congr_left h.constraints_eq

/-- Every constraint stands on exactly one edge. -/
theorem perm_constraints
    (h : Collects members edges) :
    (edges.flatMap fun e => indicesOn members e.cliques).Perm (List.range members.length) := by
  have hnodup : (edges.flatMap fun e => indicesOn members e.cliques).Nodup := by
    rw [List.nodup_flatMap]
    refine ⟨fun e _ => List.nodup_range.filter _, ?_⟩
    apply (List.pairwise_map.1 h.ascending).imp
    intro a b hlt i ha hb
    rw [mem_indicesOn] at ha hb
    rw [ha, Option.some_inj] at hb
    rw [hb] at hlt
    exact pairLt_irrefl _ hlt
  rw [List.perm_ext_iff_of_nodup hnodup List.nodup_range]
  intro i
  rw [List.mem_flatMap, List.mem_range]
  constructor
  · rintro ⟨e, -, hi⟩
    exact List.mem_range.1 (List.mem_filter.1 hi).1
  · intro hi
    have hpair : (members[i]).pair ∈ edges.map Edge.cliques :=
      (h.mem_cliques _).2 (List.mem_map_of_mem (List.getElem_mem hi))
    obtain ⟨e, he, hcliques⟩ := List.mem_map.1 hpair
    refine ⟨e, he, mem_indicesOn.2 ?_⟩
    rw [List.getElem?_eq_getElem hi, hcliques]
    rfl

theorem numConstraints_eq
    (h : Collects members edges) :
    totalSize (edges.map Edge.numConstraints) = members.length := by
  have hlength := h.perm_constraints.length_eq
  rw [List.length_range, List.length_flatMap] at hlength
  rw [Vec.totalSize_eq_sum, ← hlength]
  congr 1
  apply List.map_congr_left
  intro e he
  rw [Edge.numConstraints, h.constraints_eq e he, List.length_map]

/-- Edges collected from lists with the same pairs join the same cliques in the same order. -/
theorem cliques_eq
    {members' : List Member} {edges' : List Edge}
    (h : Collects members edges)
    (h' : Collects members' edges')
    (hpairs : ∀ pair, pair ∈ members.map Member.pair ↔ pair ∈ members'.map Member.pair) :
    edges.map Edge.cliques = edges'.map Edge.cliques := by
  have hnodup : ∀ {ms es}, Collects ms es → (es.map Edge.cliques).Nodup := by
    intro ms es hes
    apply hes.ascending.imp
    rintro a b hlt rfl
    exact pairLt_irrefl _ hlt
  have hperm : (edges.map Edge.cliques).Perm (edges'.map Edge.cliques) := by
    rw [List.perm_ext_iff_of_nodup (hnodup h) (hnodup h')]
    intro pair
    rw [h.mem_cliques, h'.mem_cliques, hpairs]
  apply hperm.eq_of_pairwise _ h.ascending h'.ascending
  intro a b _ _ hab hba
  exact absurd (pairLt_trans hab hba) (pairLt_irrefl a)

/-- Edges collected from lists with the same pairs and equations, in any order, have the same
equations one by one. -/
theorem equations_eq_of_perm
    {members' : List Member} {edges' : List Edge}
    (h : Collects members edges)
    (h' : Collects members' edges')
    (hperm : (members.map fun m => (m.pair, m.equations)).Perm
      (members'.map fun m => (m.pair, m.equations))) :
    edges.map Edge.cliques = edges'.map Edge.cliques ∧
      edges.map Edge.equations = edges'.map Edge.equations := by
  have hpairs : ∀ pair, pair ∈ members.map Member.pair ↔ pair ∈ members'.map Member.pair := by
    intro pair
    have hfst := (hperm.map Prod.fst).mem_iff (a := pair)
    rwa [List.map_map, List.map_map] at hfst
  have hequations : ∀ pair, equationsOn members pair = equationsOn members' pair := by
    intro pair
    have hsum : ∀ ms : List Member, equationsOn ms pair =
        (((ms.map fun m => (m.pair, m.equations)).filter (·.1 = pair)).map (·.2)).sum := by
      intro ms
      rw [equationsOn, List.filter_map, List.map_map]
      rfl
    rw [hsum, hsum]
    exact ((hperm.filter _).map _).sum_eq
  have hedges : ∀ {ms es}, Collects ms es →
      es.map Edge.equations = (es.map Edge.cliques).map (equationsOn ms) := by
    intro ms es hes
    rw [List.map_map]
    exact List.map_congr_left hes.equations_eq
  have hcliques := h.cliques_eq h' hpairs
  refine ⟨hcliques, ?_⟩
  rw [hedges h, hedges h', hcliques]
  exact List.map_congr_left fun pair _ => hequations pair

end Collects

/-- The cliques on the edges depend on the pairs of the edges alone. -/
theorem cliquesPermutation_eq
    {g g' : ContactGraph}
    (hcount : g.numCliques = g'.numCliques)
    (hcliques : g.edges.map Edge.cliques = g'.edges.map Edge.cliques) :
    g.cliquesPermutation = g'.cliquesPermutation := by
  have hlisted : ∀ es : List Edge, (es.flatMap fun e => [e.first, e.second]) =
      (es.map Edge.cliques).flatMap fun pair => [pair.1, pair.2] := by
    intro es
    rw [List.flatMap_map]
    rfl
  unfold cliquesPermutation
  rw [hlisted, hlisted, hcount, hcliques]

/-- The edges of a graph are collected from its constraints. -/
theorem collects_ofMembers
    (numCliques : ℕ) (members : List Member) :
    Collects members (ofMembers numCliques members).edges := by
  have h := Collects.nil.collect members
  rwa [List.nil_append] at h

/-- Pairs in ascending order are accepted as the pairs of edges. -/
theorem ascending_of_pairwise
    {pairs : List (ℤ × ℤ)}
    (h : pairs.Pairwise fun a b => pairLt a b = true) :
    ascending pairs = true := by
  induction pairs with
  | nil =>
      rfl
  | cons a rest ih =>
      cases rest with
      | nil =>
          rfl
      | cons b rest =>
          rw [List.pairwise_cons] at h
          rw [ascending, h.1 b List.mem_cons_self, ih h.2]
          rfl

/-- No clique is missing if all constraints act on existing ones, and only then. -/
theorem missingClique?_eq_none_iff
    {numCliques : ℤ} {members : List Member} {index : ℕ} :
    missingClique? numCliques index members = none ↔ ∀ m ∈ members,
      (0 ≤ m.first ∧ m.first < numCliques) ∧
        0 ≤ m.secondOrFirst ∧ m.secondOrFirst < numCliques := by
  induction members generalizing index with
  | nil =>
      simp [missingClique?]
  | cons m members ih =>
      have hfound :
          ([m.first, m.secondOrFirst].find? fun c => c < 0 ∨ numCliques ≤ c) = none ↔
            (0 ≤ m.first ∧ m.first < numCliques) ∧
              0 ≤ m.secondOrFirst ∧ m.secondOrFirst < numCliques := by
        rw [List.find?_eq_none]
        simp only [List.forall_mem_cons, List.not_mem_nil, decide_eq_true_eq]
        simp
      rw [List.forall_mem_cons, ← hfound, ← @ih (index + 1), missingClique?]
      cases [m.first, m.secondOrFirst].find? fun c => c < 0 ∨ numCliques ≤ c <;> simp

section Building

variable {numCliques : ℕ} {members : List Member}

/-- The edges of constraints on existing cliques join existing cliques. -/
theorem missingEdgeClique?_ofMembers
    (hmembers : ∀ m ∈ members,
      (0 ≤ m.first ∧ m.first < numCliques) ∧ 0 ≤ m.secondOrFirst ∧ m.secondOrFirst < numCliques) :
    missingEdgeClique? numCliques (ofMembers numCliques members).edges = none := by
  unfold missingEdgeClique?
  rw [List.find?_eq_none]
  intro c hc
  obtain ⟨e, he, hc⟩ := List.mem_flatMap.1 hc
  obtain ⟨m, hm, hpair⟩ := List.mem_map.1
    (((collects_ofMembers numCliques members).mem_cliques _).1 (List.mem_map_of_mem he))
  obtain ⟨⟨hfirst, hfirst'⟩, hsecond, hsecond'⟩ := hmembers m hm
  have hends : e.first = m.pair.1 ∧ e.second = m.pair.2 := by
    rw [hpair]
    exact ⟨rfl, rfl⟩
  simp only [List.mem_cons, List.not_mem_nil, or_false] at hc
  unfold Member.pair at hends
  split_ifs at hends <;> rcases hc with rfl | rfl <;> simp [hends] <;> omega

/-- **The graph of constraints on existing cliques can be built.** -/
theorem build_eq_ok
    (hmembers : ∀ m ∈ members,
      (0 ≤ m.first ∧ m.first < numCliques) ∧ 0 ≤ m.secondOrFirst ∧ m.secondOrFirst < numCliques) :
    build numCliques members = .ok (ofMembers numCliques members) := by
  have hascending : ascending ((collect [] 0 members).map Edge.cliques) = true :=
    ascending_of_pairwise (collects_ofMembers numCliques members).ascending
  have hedges : missingEdgeClique? numCliques (collect [] 0 members) = none :=
    missingEdgeClique?_ofMembers hmembers
  unfold build ofEdges
  rw [missingClique?_eq_none_iff.2 hmembers, if_neg (by omega), if_neg (by omega),
    if_pos hascending, hedges]
  rfl

end Building

section Permutations

variable {numCliques : ℕ} {members : List Member}

/-- The order of the edges permutes the constraints. -/
theorem constraintsPermutation_eq_ok
    (numCliques : ℕ) (members : List Member) :
    ∃ q, (ofMembers numCliques members).constraintsPermutation = .ok q ∧
      q.domainSize = members.length ∧ q.IsTotal ∧
      q.inverse = (ofMembers numCliques members).edges.flatMap
        fun e => indicesOn members e.cliques := by
  have h := collects_ofMembers numCliques members
  have hperm := h.perm_constraints
  have hnodup := hperm.nodup_iff.2 List.nodup_range
  have hlt : ∀ i ∈ (ofMembers numCliques members).edges.flatMap
      (fun e => indicesOn members e.cliques), i < members.length := by
    intro i hi
    exact List.mem_range.1 (hperm.mem_iff.1 hi)
  refine ⟨⟨members.length, _, hnodup, hlt⟩, ?_, rfl, hperm, rfl⟩
  unfold constraintsPermutation numConstraints
  rw [h.flatMap_constraints, h.numConstraints_eq]
  exact PartialPermutation.ofSelected_natCast hnodup hlt

theorem nodup_eraseDups
    (l : List ℤ) :
    l.eraseDups.Nodup := by
  induction hn : l.length using Nat.strong_induction_on generalizing l with
  | _ n ih =>
      cases l with
      | nil =>
          simp
      | cons a l =>
          rw [List.eraseDups_cons, List.nodup_cons]
          constructor
          · rw [List.mem_eraseDups, List.mem_filter]
            simp
          · apply ih _ _ _ rfl
            rw [← hn, List.length_cons]
            exact Nat.lt_succ_of_le (List.length_filter_le _ _)

/-- The cliques on edges are those on which constraints act. -/
theorem Collects.mem_flatMap_cliques
    {edges : List Edge}
    (h : Collects members edges) (c : ℤ) :
    c ∈ edges.flatMap (fun e => [e.first, e.second]) ↔
      ∃ m ∈ members, m.first = c ∨ m.secondOrFirst = c := by
  have hpair : ∀ m : Member,
      (c = m.pair.1 ∨ c = m.pair.2) ↔ (m.first = c ∨ m.secondOrFirst = c) := by
    intro m
    unfold Member.pair
    split_ifs <;> tauto
  rw [List.mem_flatMap]
  constructor
  · rintro ⟨e, he, hc⟩
    obtain ⟨m, hm, heq⟩ := List.mem_map.1 ((h.mem_cliques _).1 (List.mem_map_of_mem he))
    refine ⟨m, hm, (hpair m).1 ?_⟩
    rw [heq]
    simpa [Edge.cliques] using hc
  · rintro ⟨m, hm, hc⟩
    obtain ⟨e, he, heq⟩ := List.mem_map.1 ((h.mem_cliques _).2 (List.mem_map_of_mem hm))
    refine ⟨e, he, ?_⟩
    have hc' := (hpair m).2 hc
    rw [← heq] at hc'
    simpa [Edge.cliques] using hc'

/-- The cliques on edges can be selected if all constraints act on existing cliques. -/
theorem cliquesPermutation_eq_ok
    (hmembers : ∀ m ∈ members,
      (0 ≤ m.first ∧ m.first < numCliques) ∧ 0 ≤ m.secondOrFirst ∧ m.secondOrFirst < numCliques) :
    ∃ q, (ofMembers numCliques members).cliquesPermutation = .ok q ∧
      q.domainSize = numCliques ∧
      ∀ k : ℕ, k ∈ q.inverse ↔
        ∃ m ∈ members, m.first = (k : ℤ) ∨ m.secondOrFirst = (k : ℤ) := by
  have h := collects_ofMembers numCliques members
  set selected :=
    ((ofMembers numCliques members).edges.flatMap fun e => [e.first, e.second]).eraseDups
  have hmem : ∀ c : ℤ, c ∈ selected ↔ ∃ m ∈ members, m.first = c ∨ m.secondOrFirst = c := by
    intro c
    rw [List.mem_eraseDups]
    exact h.mem_flatMap_cliques c
  have hrange : ∀ c ∈ selected, 0 ≤ c ∧ c < numCliques := by
    intro c hc
    obtain ⟨m, hm, rfl | rfl⟩ := (hmem c).1 hc
    · exact (hmembers m hm).1
    · exact (hmembers m hm).2
  obtain ⟨q, hq, hdomain, hinverse⟩ :=
    PartialPermutation.ofSelected_of_range (nodup_eraseDups _) hrange
  refine ⟨q, hq, hdomain, fun k => ?_⟩
  rw [← hmem, hinverse, List.mem_map]
  constructor
  · rintro ⟨c, hc, rfl⟩
    rwa [Int.toNat_of_nonneg (hrange c hc).1]
  · intro hk
    exact ⟨k, hk, Int.toNat_natCast k⟩

end Permutations

end ContactGraph
end ConvexContact
