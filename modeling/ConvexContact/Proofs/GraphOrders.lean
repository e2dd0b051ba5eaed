import Mathlib
import ConvexContact.Proofs.Grouping

/-!
# Orders derived from a graph

The edges of a graph fix the order of its constraints, of their scalar equations and of the cliques
that take part.  Constraints stand in the order of their pairs of cliques and, on one pair, in the
order of the list: this is a stable sort.  Equations follow their constraints as blocks, so those of
an edge are consecutive.  Cliques are numbered as they occur along the edges.

**Result.**  `build_orders`: every graph that is built from a list of constraints has these three
permutations, and they describe one order.
-/

namespace ConvexContact

section Sorting

variable {α β : Type}

/-- Sorting by a key puts the keys in ascending order and keeps the order of members with one
key. -/
theorem pairwise_mergeSort_key
    [LinearOrder β]
    (key : α → β) {r : α → α → Prop} {l : List α}
    (h : l.Pairwise r) :
    (l.mergeSort fun a b => decide (key a ≤ key b)).Pairwise fun a b =>
      key a < key b ∨ key a = key b ∧ r a b := by
  set le : α → α → Bool := fun a b => decide (key a ≤ key b) with hle
  have htrans : ∀ a b c, le a b = true → le b c = true → le a c = true := by
    simp only [hle, decide_eq_true_eq]
    exact fun _ _ _ => le_trans
  have htotal : ∀ a b, (le a b || le b a) = true := by
    simp only [hle, Bool.or_eq_true, decide_eq_true_eq]
    exact fun a b => le_total (key a) (key b)
  -- The members with one key are a sorted sublist, and sorting keeps those.
  have hkey : ∀ k, (l.mergeSort le).filter (key · = k) = l.filter (key · = k) := by
    intro k
    have hsame : (l.filter (key · = k)).Pairwise fun a b => le a b = true := by
      apply List.pairwise_of_forall_mem_list
      intro a ha b hb
      have ha' : key a = k := by
        simpa using (List.mem_filter.1 ha).2
      have hb' : key b = k := by
        simpa using (List.mem_filter.1 hb).2
      simp [hle, ha', hb']
    have hsublist : (l.filter (key · = k)).Sublist ((l.mergeSort le).filter (key · = k)) := by
      have hboth :=
        (List.sublist_mergeSort htrans htotal hsame List.filter_sublist).filter (key · = k)
      rwa [List.filter_filter, funext fun a => Bool.and_self (decide (key a = k))] at hboth
    exact (hsublist.eq_of_length ((List.mergeSort_perm l le).filter _).length_eq.symm).symm
  rw [List.pairwise_iff_forall_sublist]
  intro a b hab
  have hlt : key a ≤ key b := by
    have hsorted := List.pairwise_mergeSort htrans htotal l
    simpa [hle] using List.pairwise_iff_forall_sublist.1 hsorted hab
  rcases hlt.lt_or_eq with hlt | heq
  · left
    exact hlt
  · right
    refine ⟨heq, ?_⟩
    have hfilter : [a, b].Sublist (l.filter (key · = key b)) := by
      rw [← hkey]
      simpa [heq] using hab.filter (key · = key b)
    exact List.pairwise_iff_forall_sublist.1 h (hfilter.trans List.filter_sublist)

variable [DecidableEq α]

theorem idxOf_cons_lt_iff
    {x a b : α} {l : List α} :
    (x :: l).idxOf a < (x :: l).idxOf b ↔ x ≠ b ∧ (x = a ∨ l.idxOf a < l.idxOf b) := by
  by_cases hxb : x = b
  · subst hxb
    simp
  · rw [List.idxOf_cons_ne _ hxb]
    by_cases hxa : x = a
    · subst hxa
      simp [hxb]
    · rw [List.idxOf_cons_ne _ hxa]
      simp [hxa, hxb]

/-- Leaving out other members does not change which of two members occurs first. -/
theorem idxOf_filter_lt_iff
    {p : α → Bool} {a b : α}
    (ha : p a = true)
    (hb : p b = true)
    (l : List α) :
    (l.filter p).idxOf a < (l.filter p).idxOf b ↔ l.idxOf a < l.idxOf b := by
  induction l with
  | nil =>
      rfl
  | cons x l ih =>
      rw [idxOf_cons_lt_iff, ← ih]
      by_cases hx : p x = true
      · rw [List.filter_cons_of_pos hx, idxOf_cons_lt_iff]
      · have hxa : x ≠ a :=
          fun h => hx (h ▸ ha)
        have hxb : x ≠ b :=
          fun h => hx (h ▸ hb)
        rw [List.filter_cons_of_neg hx]
        simp [hxa, hxb]

/-- Neither does leaving out repetitions. -/
theorem idxOf_eraseDups_lt_iff
    (l : List α) (a b : α) :
    l.eraseDups.idxOf a < l.eraseDups.idxOf b ↔ l.idxOf a < l.idxOf b := by
  induction hn : l.length using Nat.strong_induction_on generalizing l with
  | _ n ih =>
      cases l with
      | nil =>
          rfl
      | cons x l =>
          have hlength : (l.filter fun y => !y == x).length < n := by
            rw [← hn, List.length_cons]
            exact Nat.lt_succ_of_le (List.length_filter_le _ _)
          rw [List.eraseDups_cons, idxOf_cons_lt_iff, idxOf_cons_lt_iff, ih _ hlength _ rfl]
          apply and_congr_right
          intro hxb
          by_cases hxa : x = a
          · simp [hxa]
          · rw [idxOf_filter_lt_iff (by simpa using Ne.symm hxa) (by simpa using Ne.symm hxb)]

end Sorting
namespace ContactGraph

/-- The numbers of equations of the constraints. -/
def equationCounts (members : List Member) : List ℕ :=
  members.map fun m => m.equations.toNat

/-- The positions of the constraints, sorted by their pairs of cliques.  Merge sort is stable, so
constraints on one pair keep their order. -/
def stableOrder (members : List Member) : List ℕ :=
  (members.zipIdx.mergeSort fun a b => decide (toLex a.1.pair ≤ toLex b.1.pair)).map Prod.snd

/-- The permutation puts the constraints of a list in the order of their pairs of cliques, and those
on one pair in the order of the list. -/
structure OrdersConstraints (members : List Member) (p : PartialPermutation) : Prop where
  domainSize_eq : p.domainSize = members.length
  permutedSize_eq : p.permutedSize = members.length
  /-- Lookup in both directions follows a permutation of the positions. -/
  bijective : ∃ σ : Equiv.Perm (Fin members.length), ∀ i : Fin members.length,
    p.permutedIndex ((i : ℕ) : ℤ) = .ok (σ i) ∧ p.domainIndex ((σ i : ℕ) : ℤ) = .ok (i : ℕ)
  inverse_eq : p.inverse = stableOrder members

/-- The permutation `q` moves the equations of the constraints as `p` moves the constraints. -/
structure OrdersEquations
    (members : List Member) (edges : List Edge) (p q : PartialPermutation) : Prop where
  domainSize_eq : q.domainSize = (equationCounts members).sum
  bijective : ∃ σ : Equiv.Perm (Fin (equationCounts members).sum),
    ∀ i : Fin (equationCounts members).sum,
      q.permutedIndex ((i : ℕ) : ℤ) = .ok (σ i) ∧ q.domainIndex ((σ i : ℕ) : ℤ) = .ok (i : ℕ)
  /-- An equation stands behind the equations of the constraints that are placed before its own. -/
  permutedIndex_eq : ∀ i j k : ℕ,
    p.permutedIndex (i : ℤ) = .ok k → j < (equationCounts members).getD i 0 →
      q.permutedIndex ((((equationCounts members).take i).sum + j : ℕ) : ℤ) =
        .ok (((p.inverse.take k).map fun i => (equationCounts members).getD i 0).sum + j)
  /-- The places of the equations of an edge are consecutive, behind those of earlier edges. -/
  place_iff : ∀ (l : ℕ) (e : Edge), edges[l]? = some e → ∀ t : ℕ,
    (∃ i j : ℕ, (i : ℤ) ∈ e.constraints ∧ j < (equationCounts members).getD i 0 ∧
      q.permutedIndex ((((equationCounts members).take i).sum + j : ℕ) : ℤ) = .ok t) ↔
        ((edges.take l).map Edge.equations).sum ≤ t ∧
          (t : ℤ) < ((edges.take l).map Edge.equations).sum + e.equations

/-- The permutation numbers the cliques on which constraints act as they occur along the edges. -/
structure OrdersCliques
    (members : List Member) (g : ContactGraph) (p : PartialPermutation) : Prop where
  domainSize_eq : p.domainSize = g.numCliques
  participates_iff : ∀ c : ℤ, 0 ≤ c → c < g.numCliques →
    ∃ b, p.participates c = .ok b ∧ (b = true ↔ ∃ m ∈ members, m.Names c)
  exists_place : ∀ c : ℤ, (∃ m ∈ members, m.Names c) →
    ∃ k < p.permutedSize, p.permutedIndex c = .ok k ∧ p.domainIndex (k : ℤ) = .ok c.toNat
  exists_clique : ∀ k < p.permutedSize, ∃ c : ℕ, (∃ m ∈ members, m.Names c) ∧
    p.domainIndex (k : ℤ) = .ok c ∧ p.permutedIndex (c : ℤ) = .ok k
  lt_iff : ∀ (c c' : ℤ) (k k' : ℕ),
    p.permutedIndex c = .ok k → p.permutedIndex c' = .ok k' →
      (k < k' ↔ (g.edges.flatMap fun e => [e.first, e.second]).idxOf c <
        (g.edges.flatMap fun e => [e.first, e.second]).idxOf c')

section Constraints

variable {members : List Member} {edges : List Edge}

/-- A position is before another one if its pair is smaller, or if the pairs are equal and the
position is. -/
def Precedes (members : List Member) (i j : ℕ) : Prop :=
  ∃ a b, members[i]? = some a ∧ members[j]? = some b ∧
    (toLex a.pair < toLex b.pair ∨ a.pair = b.pair ∧ i < j)

theorem not_precedes_of_precedes
    {i j : ℕ}
    (hij : Precedes members i j) :
    ¬ Precedes members j i := by
  rintro ⟨b', a', hb', ha', hji⟩
  obtain ⟨a, b, ha, hb, hij⟩ := hij
  obtain rfl : a = a' :=
    Option.some_inj.1 (ha.symm.trans ha')
  obtain rfl : b = b' :=
    Option.some_inj.1 (hb.symm.trans hb')
  rcases hij with hlt | ⟨heq, hlt⟩ <;> rcases hji with hlt' | ⟨heq', hlt'⟩
  · exact lt_asymm hlt hlt'
  · rw [heq'] at hlt
    exact lt_irrefl _ hlt
  · rw [heq] at hlt'
    exact lt_irrefl _ hlt'
  · omega

theorem Collects.pairwise_precedes
    (h : Collects members edges) :
    (edges.flatMap fun e => indicesOn members e.cliques).Pairwise (Precedes members) := by
  rw [List.pairwise_flatMap]
  constructor
  · intro e _
    apply (List.pairwise_lt_range.filter _).imp_of_mem
    intro i j hi hj hlt
    rw [← indicesOn, mem_indicesOn, Option.map_eq_some_iff] at hi hj
    obtain ⟨a, ha, hpair⟩ := hi
    obtain ⟨b, hb, hpair'⟩ := hj
    exact ⟨a, b, ha, hb, Or.inr ⟨hpair.trans hpair'.symm, hlt⟩⟩
  · apply (List.pairwise_map.1 h.ascending).imp
    intro e e' hlt i hi j hj
    rw [mem_indicesOn, Option.map_eq_some_iff] at hi hj
    obtain ⟨a, ha, hpair⟩ := hi
    obtain ⟨b, hb, hpair'⟩ := hj
    refine ⟨a, b, ha, hb, Or.inl ?_⟩
    rw [hpair, hpair', toLex_lt_toLex_iff]
    exact hlt

theorem pairwise_precedes_stableOrder
    (members : List Member) :
    (stableOrder members).Pairwise (Precedes members) := by
  have hpositions : members.zipIdx.Pairwise fun a b => a.2 < b.2 := by
    rw [← List.pairwise_map (f := Prod.snd), List.zipIdx_map_snd]
    exact List.pairwise_lt_range'
  have hsorted := pairwise_mergeSort_key (fun a : Member × ℕ => toLex a.1.pair) hpositions
  unfold stableOrder
  rw [List.pairwise_map]
  apply hsorted.imp_of_mem
  intro a b ha hb hab
  rw [List.mem_mergeSort, List.mem_zipIdx_iff_getElem?] at ha hb
  refine ⟨a.1, b.1, ha, hb, hab.imp_right ?_⟩
  rintro ⟨heq, hlt⟩
  exact ⟨toLex.injective heq, hlt⟩

theorem stableOrder_perm
    (members : List Member) :
    (stableOrder members).Perm (List.range members.length) := by
  have hperm := (List.mergeSort_perm members.zipIdx fun a b =>
    decide (toLex a.1.pair ≤ toLex b.1.pair)).map Prod.snd
  rwa [List.zipIdx_map_snd, ← List.range_eq_range'] at hperm

/-- The order of the edges is the stable order of the constraints. -/
theorem Collects.flatMap_indicesOn_eq
    (h : Collects members edges) :
    (edges.flatMap fun e => indicesOn members e.cliques) = stableOrder members := by
  refine (h.perm_constraints.trans (stableOrder_perm members).symm).eq_of_pairwise ?_
    h.pairwise_precedes (pairwise_precedes_stableOrder members)
  intro i j _ _ hij hji
  exact absurd hji (not_precedes_of_precedes hij)

end Constraints

section Equations

variable {members : List Member} {edges : List Edge}

theorem getD_equationCounts
    (hequations : ∀ m ∈ members, 0 ≤ m.equations)
    (i : ℕ) :
    (((equationCounts members).getD i 0 : ℕ) : ℤ) = equationsAt members i := by
  unfold equationCounts equationsAt
  rw [List.getD_eq_getElem?_getD, List.getElem?_map]
  cases hi : members[i]? with
  | none =>
      rfl
  | some m =>
      exact Int.toNat_of_nonneg (hequations m (List.mem_of_getElem? hi))

/-- The scalar equations of an edge, in the order of its constraints. -/
def equationsOf (members : List Member) (e : Edge) : List ℕ :=
  (indicesOn members e.cliques).flatMap (PartialPermutation.blockEntries (equationCounts members))

theorem Collects.length_equationsOf
    (h : Collects members edges)
    (hequations : ∀ m ∈ members, 0 ≤ m.equations)
    {e : Edge}
    (he : e ∈ edges) :
    ((equationsOf members e).length : ℤ) = e.equations := by
  have hlength : ∀ i, (PartialPermutation.blockEntries (equationCounts members) i).length =
      (equationCounts members).getD i 0 :=
    fun i => List.length_range'
  unfold equationsOf
  rw [List.length_flatMap, h.equations_eq e he, equationsOn_eq_sum, Nat.cast_list_sum,
    List.map_map]
  congr 1
  apply List.map_congr_left
  intro i _
  rw [Function.comp_apply, hlength, getD_equationCounts hequations]

/-- An equation belongs to an edge if its constraint does. -/
theorem Collects.mem_equationsOf
    (h : Collects members edges)
    {e : Edge}
    (he : e ∈ edges)
    {x : ℕ} :
    x ∈ equationsOf members e ↔
      ∃ i j : ℕ, (i : ℤ) ∈ e.constraints ∧ j < (equationCounts members).getD i 0 ∧
        x = ((equationCounts members).take i).sum + j := by
  unfold equationsOf
  rw [List.mem_flatMap]
  apply exists_congr
  intro i
  rw [h.constraints_eq e he, List.mem_map_of_injective Nat.cast_injective,
    PartialPermutation.mem_blockEntries, Vec.totalSize_eq_sum, exists_and_left]
  apply and_congr_right
  intro _
  constructor
  · rintro ⟨hle, hlt⟩
    exact ⟨x - ((equationCounts members).take i).sum, by omega, by omega⟩
  · rintro ⟨j, hj, rfl⟩
    omega

/-- The equations of an edge stand behind those of the edges before it. -/
theorem Collects.place_equations_iff
    (h : Collects members edges)
    (hequations : ∀ m ∈ members, 0 ≤ m.equations)
    {q : PartialPermutation}
    (hinverse : q.inverse = edges.flatMap (equationsOf members))
    {l : ℕ} {e : Edge}
    (hl : edges[l]? = some e)
    (t : ℕ) :
    (∃ x ∈ equationsOf members e, q.inverse[t]? = some x) ↔
      ((edges.take l).map Edge.equations).sum ≤ t ∧
        (t : ℤ) < ((edges.take l).map Edge.equations).sum + e.equations := by
  have he : e ∈ edges :=
    List.mem_of_getElem? hl
  set start := ((edges.take l).map fun e => (equationsOf members e).length).sum with hstart
  have hbefore : ((edges.take l).map Edge.equations).sum = (start : ℤ) := by
    rw [hstart, Nat.cast_list_sum, List.map_map]
    congr 1
    apply List.map_congr_left
    intro e he
    exact (h.length_equationsOf hequations (List.mem_of_mem_take he)).symm
  have hentry : ∀ s < (equationsOf members e).length,
      q.inverse[start + s]? = (equationsOf members e)[s]? := by
    intro s hs
    rw [hinverse]
    exact Vec.getElem?_flatMap_of_lt hl hs
  rw [hbefore, ← h.length_equationsOf hequations he]
  constructor
  · rintro ⟨x, hx, ht⟩
    obtain ⟨s, hs, hsx⟩ := List.mem_iff_getElem.1 hx
    have hplace : q.inverse[start + s]? = some x := by
      rw [hentry s hs, List.getElem?_eq_getElem hs, hsx]
    -- No equation stands at two places.
    have hsame : t = start + s :=
      (List.getElem?_inj (List.getElem?_eq_some_iff.1 ht).1 q.nodup_inverse).1
        (ht.trans hplace.symm)
    omega
  · rintro ⟨hle, hlt⟩
    obtain ⟨s, rfl⟩ := Nat.exists_eq_add_of_le (Int.ofNat_le.1 hle)
    have hs : s < (equationsOf members e).length := by
      omega
    refine ⟨(equationsOf members e)[s], List.getElem_mem hs, ?_⟩
    rw [hentry s hs, List.getElem?_eq_getElem hs]

end Equations

section Orders

variable {members : List Member} {numCliques : ℕ}

/-- The order of the constraints on any cliques. -/
theorem exists_ordersConstraints
    (numCliques : ℕ) (members : List Member) :
    ∃ p, (ofMembers numCliques members).constraintsPermutation = .ok p ∧ p.IsTotal ∧
      OrdersConstraints members p := by
  obtain ⟨p, hp, hdomain, htotal, hinverse⟩ := constraintsPermutation_eq_ok numCliques members
  exact ⟨p, hp, htotal,
    { domainSize_eq := hdomain
      permutedSize_eq := htotal.permutedSize_eq.trans hdomain
      bijective := htotal.exists_equiv hdomain
      inverse_eq :=
        hinverse.trans (collects_ofMembers numCliques members).flatMap_indicesOn_eq }⟩

/-- The order of their equations. -/
theorem exists_ordersEquations
    (hequations : ∀ m ∈ members, 0 ≤ m.equations)
    {p : PartialPermutation}
    (hp : (ofMembers numCliques members).constraintsPermutation = .ok p)
    (htotal : p.IsTotal)
    (horder : OrdersConstraints members p) :
    ∃ q, (ofMembers numCliques members).equationsPermutation (members.map Member.equations) =
        .ok q ∧
      OrdersEquations members (ofMembers numCliques members).edges p q := by
  have h := collects_ofMembers numCliques members
  have hlength : (equationCounts members).length = p.domainSize := by
    rw [horder.domainSize_eq]
    exact List.length_map _
  have hcounts : (equationCounts members).map (fun (n : ℕ) => (n : ℤ)) =
      members.map Member.equations := by
    unfold equationCounts
    rw [List.map_map]
    exact List.map_congr_left fun m hm => Int.toNat_of_nonneg (hequations m hm)
  obtain ⟨q, hq, hexpands⟩ := PartialPermutation.expand_eq_ok hlength
  have hdomain : q.domainSize = (equationCounts members).sum :=
    hexpands.domainSize_eq.trans (Vec.totalSize_eq_sum _)
  have hinverse : q.inverse = (ofMembers numCliques members).edges.flatMap
      (equationsOf members) := by
    rw [hexpands.inverse_eq, horder.inverse_eq, ← h.flatMap_indicesOn_eq, List.flatMap_assoc]
    rfl
  refine ⟨q, ?_,
    { domainSize_eq := hdomain
      bijective := (hexpands.isTotal htotal).exists_equiv hdomain
      permutedIndex_eq := ?_
      place_iff := ?_ }⟩
  · unfold equationsPermutation
    rw [hp, Outcome.ok_bind, ← hcounts]
    exact hq
  · intro i j k hk hj
    obtain ⟨-, hk⟩ := PartialPermutation.permutedIndex_eq_ok_iff.1 hk
    rw [PartialPermutation.permutedIndex_eq_ok_iff, Int.toNat_natCast]
    exact ⟨Int.natCast_nonneg _, hexpands.getElem?_inverse hk hj⟩
  · intro l e hl t
    rw [← h.place_equations_iff hequations hinverse hl t]
    constructor
    · rintro ⟨i, j, hi, hj, ht⟩
      obtain ⟨-, ht⟩ := PartialPermutation.permutedIndex_eq_ok_iff.1 ht
      exact ⟨_, (h.mem_equationsOf (List.mem_of_getElem? hl)).2 ⟨i, j, hi, hj, rfl⟩, ht⟩
    · rintro ⟨x, hx, ht⟩
      obtain ⟨i, j, hi, hj, rfl⟩ := (h.mem_equationsOf (List.mem_of_getElem? hl)).1 hx
      exact ⟨i, j, hi, hj, PartialPermutation.permutedIndex_eq_ok_iff.2
        ⟨Int.natCast_nonneg _, ht⟩⟩

/-- The place of a clique is that of its first occurrence among the cliques that occur along the
edges. -/
theorem idxOf_of_permutedIndex
    {g : ContactGraph} {r : PartialPermutation}
    (hr : g.cliquesPermutation = .ok r)
    {c : ℤ} {k : ℕ}
    (hk : r.permutedIndex c = .ok k) :
    (g.edges.flatMap fun e => [e.first, e.second]).eraseDups.idxOf c = k := by
  obtain ⟨hc, hk⟩ := PartialPermutation.permutedIndex_eq_ok_iff.1 hk
  have hplace : (r.inverse.map fun (i : ℕ) => (i : ℤ))[k]? = some c := by
    rw [List.getElem?_map, hk, Option.map_some, Int.toNat_of_nonneg hc]
  obtain ⟨hlt, hget⟩ := List.getElem?_eq_some_iff.1 hplace
  have hnodup : (r.inverse.map fun (i : ℕ) => (i : ℤ)).Nodup :=
    r.nodup_inverse.map Nat.cast_injective
  rw [← PartialPermutation.map_inverse_of_ofSelected hr, ← hget]
  exact hnodup.idxOf_getElem k hlt

theorem permutedIndex_lt_iff
    {g : ContactGraph} {r : PartialPermutation}
    (hr : g.cliquesPermutation = .ok r)
    {c c' : ℤ} {k k' : ℕ}
    (hk : r.permutedIndex c = .ok k)
    (hk' : r.permutedIndex c' = .ok k') :
    k < k' ↔ (g.edges.flatMap fun e => [e.first, e.second]).idxOf c <
      (g.edges.flatMap fun e => [e.first, e.second]).idxOf c' := by
  rw [← idxOf_eraseDups_lt_iff, idxOf_of_permutedIndex hr hk, idxOf_of_permutedIndex hr hk']

/-- The order of the cliques, if all constraints act on existing ones. -/
theorem exists_ordersCliques
    (hmembers : ∀ m ∈ members,
      (0 ≤ m.first ∧ m.first < numCliques) ∧ 0 ≤ m.secondOrFirst ∧ m.secondOrFirst < numCliques) :
    ∃ r, (ofMembers numCliques members).cliquesPermutation = .ok r ∧
      OrdersCliques members (ofMembers numCliques members) r := by
  obtain ⟨r, hr, hdomain, hmem⟩ := cliquesPermutation_eq_ok hmembers
  have hnamed : ∀ c : ℕ, c ∈ r.inverse ↔ ∃ m ∈ members, m.Names c := by
    intro c
    rw [hmem]
    exact exists_congr fun m => and_congr_right fun _ => Member.names_iff.symm
  have hlookup : ∀ {c k : ℕ}, r.inverse[k]? = some c →
      r.permutedIndex (c : ℤ) = .ok k ∧ r.domainIndex (k : ℤ) = .ok c := by
    intro c k hk
    exact ⟨PartialPermutation.permutedIndex_eq_ok_iff.2 ⟨Int.natCast_nonneg c, hk⟩,
      PartialPermutation.domainIndex_eq_ok_iff.2 hk⟩
  refine ⟨r, hr,
    { domainSize_eq := hdomain
      participates_iff := ?_
      exists_place := ?_
      exists_clique := ?_
      lt_iff := ?_ }⟩
  · intro c hc hlt
    obtain ⟨c, rfl⟩ := Int.eq_ofNat_of_zero_le hc
    have hlt' : c < r.domainSize := by
      rw [hdomain]
      exact Int.ofNat_lt.1 hlt
    refine ⟨_, PartialPermutation.participates_eq_ok hlt', ?_⟩
    rw [decide_eq_true_eq]
    exact hnamed c
  · intro c hc
    have hnonneg : 0 ≤ c := by
      by_contra hneg
      obtain ⟨m, hm, hnames⟩ := hc
      exact forall_exists_iff.1 hmembers ⟨m, hm, c, hnames, Or.inl (not_le.1 hneg)⟩
    obtain ⟨c, rfl⟩ := Int.eq_ofNat_of_zero_le hnonneg
    obtain ⟨k, hk⟩ := List.mem_iff_getElem?.1 ((hnamed c).2 hc)
    exact ⟨k, (List.getElem?_eq_some_iff.1 hk).1, hlookup hk⟩
  · intro k hk
    have hplace : r.inverse[k]? = some r.inverse[k] :=
      List.getElem?_eq_getElem hk
    exact ⟨r.inverse[k], (hnamed _).1 (List.mem_of_getElem? hplace), (hlookup hplace).symm⟩
  · intro c c' k k' hk hk'
    exact permutedIndex_lt_iff hr hk hk'

end Orders

/-- **The orders derived from a graph.**  For a graph that was built from a list of constraints, none
of the three permutations is refused.  The constraints stand in the stable order of their pairs of
cliques.  Equation `j` of a constraint stands `j` places behind the equations of all constraints
before it, so the equations of each edge fill the interval behind those of earlier edges.  The
cliques on which constraints act are numbered by their first occurrence along the edges. -/
theorem build_orders
    {numCliques : ℤ} {members : List Member} {g : ContactGraph}
    (hbuild : build numCliques members = .ok g)
    (hequations : ∀ m ∈ members, 0 ≤ m.equations) :
    ∃ p q r,
      (g.constraintsPermutation = .ok p ∧ OrdersConstraints members p) ∧
      (g.equationsPermutation (members.map Member.equations) = .ok q ∧
        OrdersEquations members g.edges p q) ∧
      (g.cliquesPermutation = .ok r ∧ OrdersCliques members g r) := by
  obtain ⟨⟨hcount, hmembers⟩, rfl⟩ := build_eq_ok_iff.1 hbuild
  obtain ⟨n, rfl⟩ := Int.eq_ofNat_of_zero_le hcount
  rw [Int.toNat_natCast]
  obtain ⟨p, hp, htotal, horder⟩ := exists_ordersConstraints n members
  obtain ⟨q, hq, hequationsOrder⟩ := exists_ordersEquations hequations hp htotal horder
  obtain ⟨r, hr, hcliques⟩ := exists_ordersCliques hmembers
  exact ⟨p, q, r, ⟨hp, horder⟩, ⟨hq, hequationsOrder⟩, hr, hcliques⟩

/-- Constraints on one and two cliques in either order, with a clique on which none acts. -/
theorem build_orders_interleaved :
    let members : List Member := [⟨2, some 0, 3⟩, ⟨1, none, 1⟩, ⟨0, some 2, 3⟩, ⟨1, some 0, 2⟩]
    let g : ContactGraph := ⟨4, [⟨0, 1, [3], 2⟩, ⟨0, 2, [0, 2], 6⟩, ⟨1, 1, [1], 1⟩]⟩
    (build 4 members = .ok g ∧ ∀ m ∈ members, 0 ≤ m.equations) ∧
      ∃ p q r,
        (g.constraintsPermutation = .ok p ∧ OrdersConstraints members p) ∧
        (g.equationsPermutation (members.map Member.equations) = .ok q ∧
          OrdersEquations members g.edges p q) ∧
        (g.cliquesPermutation = .ok r ∧ OrdersCliques members g r) := by
  intro members g
  have hbuild : build 4 members = .ok g :=
    rfl
  have hequations : ∀ m ∈ members, 0 ≤ m.equations := by
    decide
  exact ⟨⟨hbuild, hequations⟩, build_orders hbuild hequations⟩

end ContactGraph

end ConvexContact
