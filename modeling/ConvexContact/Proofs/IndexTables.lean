import Mathlib
import ConvexContact.PartialPermutation.Tables
import ConvexContact.Proofs.Selections

/-!
# Tables of partial permutations

**Two encodings.**  A partial permutation has a table of the places of all indices and a table of
the indices at all places.  The two tables are inverse to each other (`IndexTables.Inverse`), and
each of them determines the other one.

**Making tables.**  Entering a selection keeps the tables inverse and refuses what the checks of the
list of indices refuse (`Inverse.enter_eq`).  Filling the places of a list leaves no place without
an index (`fill_eq`, `held_eq`).  So each operation on tables is the operation on partial
permutations, and all tables that can be made are those of a partial permutation
(`Obtained.exists_eq_tables`).

**Result.**  `encodings_agree`: what the tables say about each other, which inputs are accepted, and
what equality of the tables of places means.
-/

namespace ConvexContact

namespace PartialPermutation

/-- The tables of a partial permutation. -/
def tables (p : PartialPermutation) : IndexTables :=
  ⟨p.permutation, p.inverse⟩

theorem length_permutation
    (p : PartialPermutation) :
    p.permutation.length = p.domainSize := by
  rw [permutation, List.length_map, List.length_range]

theorem getElem?_permutation
    {p : PartialPermutation} {i : ℕ}
    (hi : i < p.domainSize) :
    p.permutation[i]? = some ((p.place? i).elim (-1) fun (k : ℕ) => (k : ℤ)) := by
  rw [permutation, List.getElem?_map, List.getElem?_range hi]
  cases hplace : p.place? i <;> simp [hplace]

end PartialPermutation

namespace IndexTables

section Inverse

/-- The tables are inverse to each other: an index has a new place exactly if it is the index at
that place, and every other index is absent. -/
structure Inverse (t : IndexTables) : Prop where
  getElem?_places : ∀ i k : ℕ, t.places[i]? = some (k : ℤ) ↔ t.inverse[k]? = some i
  absent_or : ∀ x ∈ t.places, x = -1 ∨ 0 ≤ x

/-- Lists of new places are determined by their size and the places that they have. -/
theorem places_ext
    {xs ys : List ℤ}
    (hxs : ∀ x ∈ xs, x = -1 ∨ 0 ≤ x)
    (hys : ∀ y ∈ ys, y = -1 ∨ 0 ≤ y)
    (hlength : xs.length = ys.length)
    (h : ∀ i k : ℕ, xs[i]? = some (k : ℤ) ↔ ys[i]? = some (k : ℤ)) :
    xs = ys := by
  apply List.ext_getElem hlength
  intro i h₁ h₂
  have hi := h i
  rw [List.getElem?_eq_getElem h₁, List.getElem?_eq_getElem h₂] at hi
  simp only [Option.some.injEq] at hi
  rcases hxs _ (List.getElem_mem h₁) with hx | hx
  · rcases hys _ (List.getElem_mem h₂) with hy | hy
    · rw [hx, hy]
    · have hk := (hi ys[i].toNat).2 (Int.toNat_of_nonneg hy).symm
      omega
  · have hk := (hi xs[i].toNat).1 (Int.toNat_of_nonneg hx).symm
    omega

variable {s t : IndexTables}

theorem Inverse.mem_inverse_iff
    (ht : t.Inverse)
    {i : ℕ}
    (hi : i < t.places.length) :
    i ∈ t.inverse ↔ 0 ≤ t.places[i] := by
  rw [List.mem_iff_getElem?]
  simp only [← ht.getElem?_places, List.getElem?_eq_getElem hi, Option.some.injEq]
  constructor
  · rintro ⟨k, hk⟩
    omega
  · intro h
    exact ⟨t.places[i].toNat, (Int.toNat_of_nonneg h).symm⟩

/-- Tables that are inverse to each other are determined by the size of the domain and the indices
at the new places. -/
theorem Inverse.ext
    (hs : s.Inverse)
    (ht : t.Inverse)
    (hsize : s.places.length = t.places.length)
    (hinverse : s.inverse = t.inverse) :
    s = t := by
  have hplaces : s.places = t.places := by
    apply places_ext hs.absent_or ht.absent_or hsize
    intro i k
    rw [hs.getElem?_places, ht.getElem?_places, hinverse]
  cases s
  cases t
  cases hplaces
  cases hinverse
  rfl

/-- **Equality.**  Comparing the places of all indices is comparing the sizes of the domains and the
indices at the new places. -/
theorem Inverse.same_iff
    (hs : s.Inverse)
    (ht : t.Inverse) :
    s.same t = true ↔ s.domainSize = t.domainSize ∧ s.inverse = t.inverse := by
  rw [same, beq_iff_eq]
  constructor
  · intro hplaces
    refine ⟨congrArg List.length hplaces, ?_⟩
    apply List.ext_getElem?
    intro k
    apply Option.ext
    intro i
    rw [← hs.getElem?_places, ← ht.getElem?_places, hplaces]
  · rintro ⟨hsize, hinverse⟩
    rw [hs.ext ht hsize hinverse]

/-- The tables of a partial permutation are inverse to each other. -/
theorem inverse_tables
    (p : PartialPermutation) :
    p.tables.Inverse := by
  constructor
  · intro i k
    change p.permutation[i]? = some (k : ℤ) ↔ p.inverse[k]? = some i
    rw [← PartialPermutation.place?_eq_some_iff]
    by_cases hi : i < p.domainSize
    · rw [PartialPermutation.getElem?_permutation hi]
      cases p.place? i with
      | none =>
          simp
      | some k' =>
          simp
    · rw [List.getElem?_eq_none (by rw [p.length_permutation]; omega)]
      constructor
      · intro h
        cases h
      · intro h
        have hmem := List.mem_of_getElem? (PartialPermutation.place?_eq_some_iff.1 h)
        exact absurd (p.lt_domainSize i hmem) hi
  · intro x hx
    obtain ⟨i, -, rfl⟩ := List.mem_map.1 hx
    cases p.place? i with
    | none =>
        exact Or.inl rfl
    | some k =>
        exact Or.inr (Int.natCast_nonneg k)

end Inverse

section Entering

variable {t : IndexTables}

/-- An absent index is put at the next place. -/
theorem Inverse.push
    (ht : t.Inverse)
    {i : ℕ}
    (hi : i < t.places.length)
    (habsent : ¬0 ≤ t.places[i]) :
    Inverse ⟨t.places.set i t.inverse.length, t.inverse ++ [i]⟩ := by
  have hmem : i ∉ t.inverse :=
    fun h => habsent ((ht.mem_inverse_iff hi).1 h)
  constructor
  · intro j k
    dsimp only
    rw [List.getElem?_set, List.getElem?_append, List.getElem?_singleton]
    by_cases hk : k < t.inverse.length
    · rw [if_pos hk, ← ht.getElem?_places]
      by_cases hj : i = j
      · subst hj
        rw [if_pos rfl, if_pos hi, List.getElem?_eq_getElem hi, Option.some.injEq,
          Option.some.injEq]
        omega
      · rw [if_neg hj]
    · rw [if_neg hk]
      by_cases hj : i = j
      · subst hj
        rw [if_pos rfl, if_pos hi, Option.some.injEq]
        split_ifs with hlast
        · simp only [iff_true]
          omega
        · simp only [iff_false]
          omega
      · have hnone : t.places[j]? ≠ some (k : ℤ) := by
          rw [ne_eq, ht.getElem?_places, List.getElem?_eq_none (Nat.le_of_not_lt hk)]
          exact Option.some_ne_none j ∘ Eq.symm
        rw [if_neg hj]
        split_ifs <;> simp [hnone, hj]
  · intro x hx
    rcases List.mem_or_eq_of_mem_set hx with hx | rfl
    · exact ht.absent_or x hx
    · exact Or.inr (Int.natCast_nonneg _)

/-- **Entering a selection.**  The checks against the table of places refuse what the checks against
the indices seen before refuse; what they accept is entered and the tables stay inverse. -/
theorem Inverse.enter_eq
    (ht : t.Inverse)
    {seen : List ℤ}
    (hseen : ∀ i : ℕ, (i : ℤ) ∈ seen ↔ i ∈ t.inverse)
    (selected : List ℤ) :
    (∃ e, PartialPermutation.selectionFault? t.places.length seen selected = some e ∧
      t.enter t.inverse.length (selected.map some) = .error e) ∨
    PartialPermutation.selectionFault? t.places.length seen selected = none ∧
      ∃ u, t.enter t.inverse.length (selected.map some) = .ok u ∧ u.Inverse ∧
        u.places.length = t.places.length ∧ u.inverse = t.inverse ++ selected.map Int.toNat := by
  induction selected generalizing t seen with
  | nil =>
      exact Or.inr ⟨rfl, t, rfl, ht, rfl, (List.append_nil _).symm⟩
  | cons i rest ih =>
      rw [List.map_cons, enter, PartialPermutation.selectionFault?]
      by_cases houtside : i < 0 ∨ (t.places.length : ℤ) ≤ i
      · rw [if_pos houtside, if_pos houtside]
        exact Or.inl ⟨_, rfl, rfl⟩
      · rw [if_neg houtside, if_neg houtside]
        obtain ⟨n, rfl⟩ : ∃ n : ℕ, i = n :=
          ⟨i.toNat, by omega⟩
        have hn : n < t.places.length := by
          omega
        rw [entryAt?_natCast (List.getElem?_eq_getElem hn), Outcome.ok_bind, Int.toNat_natCast]
        have htaken : 0 ≤ t.places[n] ↔ (n : ℤ) ∈ seen :=
          (ht.mem_inverse_iff hn).symm.trans (hseen n).symm
        by_cases hmem : (n : ℤ) ∈ seen
        · rw [if_pos (htaken.2 hmem), if_pos hmem]
          exact Or.inl ⟨_, rfl, rfl⟩
        · have hnext := ht.push hn (htaken.not.2 hmem)
          have hseen' : ∀ j : ℕ, (j : ℤ) ∈ (n : ℤ) :: seen ↔ j ∈ t.inverse ++ [n] := by
            intro j
            rw [List.mem_cons, hseen, List.mem_append, List.mem_singleton, Int.ofNat_inj, or_comm]
          have hrest := ih hnext hseen'
          rw [List.length_append, List.length_set] at hrest
          rw [if_neg (htaken.not.2 hmem), if_neg hmem]
          simpa [List.append_assoc] using hrest

/-- Tables without places are inverse to each other. -/
theorem inverse_empty
    (n : ℕ) :
    Inverse ⟨List.replicate n (-1), []⟩ := by
  constructor
  · intro i k
    simp [List.getElem?_replicate]
  · intro x hx
    exact Or.inl (List.eq_of_mem_replicate hx)

theorem ofSelected_eq
    (size : ℤ) (selected : List ℤ) :
    ofSelected size (selected.map some) =
      (PartialPermutation.ofSelected size selected).map PartialPermutation.tables := by
  rw [ofSelected, PartialPermutation.ofSelected]
  by_cases hsize : size < 0
  · rw [if_pos hsize, if_pos hsize]
    rfl
  · rw [if_neg hsize, if_neg hsize]
    have hseen : ∀ i : ℕ, (i : ℤ) ∈ ([] : List ℤ) ↔ i ∈ ([] : List ℕ) := by
      intro i
      simp
    have henter := (inverse_empty size.toNat).enter_eq hseen selected
    rw [List.length_replicate] at henter
    split
    next e hfault =>
      obtain ⟨e', he', henter⟩ | ⟨hnone, -⟩ := henter
      · obtain rfl : e = e' :=
          Option.some.inj (hfault.symm.trans he')
        exact henter
      · rw [hnone] at hfault
        cases hfault
    next hfault =>
      obtain ⟨e', he', -⟩ | ⟨-, u, henter, hu, hlength, hinverse⟩ := henter
      · rw [hfault] at he'
        cases he'
      · refine henter.trans (congrArg Except.ok ?_)
        refine hu.ext (inverse_tables _) ?_ hinverse
        rw [hlength, PartialPermutation.tables, PartialPermutation.length_permutation]

end Entering

section Filling

/-- What is held at a place after the elements from a given one on were put at their places. -/
def heldAt (element : ℕ) (places : List ℤ) (k : ℕ) (before : Option ℤ) : Option ℤ :=
  if (k : ℤ) ∈ places then some ((element + places.idxOf (k : ℤ) : ℕ) : ℤ) else before

theorem heldAt_cons_ne
    {x : ℤ} {k : ℕ}
    (hne : x ≠ k)
    (element : ℕ) (places : List ℤ) (before : Option ℤ) :
    heldAt element (x :: places) k before = heldAt (element + 1) places k before := by
  simp only [heldAt, List.mem_cons, hne.symm, false_or, List.idxOf_cons_ne _ hne]
  rw [Nat.succ_eq_add_one, Nat.add_right_comm, Nat.add_assoc]

/-- What is held at all places. -/
def held (count element : ℕ) (selected : List (Option ℤ)) (places : List ℤ) : List (Option ℤ) :=
  (List.range count).map fun (k : ℕ) => heldAt element places k (selected.getD k none)

/-- An absent element changes nothing. -/
theorem held_cons_absent
    (count element : ℕ) (selected : List (Option ℤ)) (rest : List ℤ) :
    held count element selected (-1 :: rest) = held count (element + 1) selected rest := by
  apply List.map_congr_left
  intro k _
  have hne : (-1 : ℤ) ≠ k := by
    omega
  exact heldAt_cons_ne hne _ _ _

/-- An element whose place does not occur again is held there. -/
theorem held_cons
    {element n : ℕ} {selected : List (Option ℤ)} {rest : List ℤ}
    (count : ℕ)
    (hn : n < selected.length)
    (hrest : (n : ℤ) ∉ rest) :
    held count element selected (n :: rest) =
      held count (element + 1) (selected.set n (some (element : ℤ))) rest := by
  apply List.map_congr_left
  intro k _
  by_cases hk : n = k
  · subst hk
    rw [heldAt, if_pos List.mem_cons_self, List.idxOf_cons_self, heldAt, if_neg hrest,
      List.getD_eq_getElem?_getD, List.getElem?_set_self hn]
    rfl
  · have hne : (n : ℤ) ≠ k := by
      omega
    rw [heldAt_cons_ne hne, List.getD_eq_getElem?_getD, List.getD_eq_getElem?_getD,
      List.getElem?_set_ne hk]

/-- The places that hold something are those that were seen. -/
theorem isSome_getD_set_iff
    {n : ℕ} {selected : List (Option ℤ)} {seen : List ℤ}
    (hn : n < selected.length)
    (hseen : ∀ k : ℕ, k < selected.length → ((selected.getD k none).isSome ↔ (k : ℤ) ∈ seen))
    (x : ℤ) {k : ℕ}
    (hk : k < selected.length) :
    ((selected.set n (some x)).getD k none).isSome ↔ (k : ℤ) ∈ (n : ℤ) :: seen := by
  rw [List.mem_cons, List.getD_eq_getElem?_getD]
  by_cases hkn : n = k
  · subst hkn
    rw [List.getElem?_set_self hn]
    simp
  · rw [List.getElem?_set_ne hkn, ← List.getD_eq_getElem?_getD, hseen k hk, Int.ofNat_inj]
    simp only [Ne.symm hkn, false_or]

/-- **Filling.**  The checks against the entries that are filled refuse what the checks against the
places seen before refuse; what they accept has each element at its place. -/
theorem fill_eq
    {count : ℕ} {selected : List (Option ℤ)} {seen : List ℤ}
    (hlength : selected.length = count)
    (hseen : ∀ k : ℕ, k < selected.length → ((selected.getD k none).isSome ↔ (k : ℤ) ∈ seen))
    (element : ℕ) (places : List ℤ) :
    (∃ e, PartialPermutation.placesFault? count seen element places = some e ∧
      fill count element selected places = .error e) ∨
    PartialPermutation.placesFault? count seen element places = none ∧
      fill count element selected places = .ok (held count element selected places) := by
  induction places generalizing element selected seen with
  | nil =>
      refine Or.inr ⟨rfl, congrArg Except.ok ?_⟩
      apply List.ext_getElem
      · simp [held, hlength]
      · intro k h₁ h₂
        simp [held, heldAt, h₁]
  | cons k rest ih =>
      rw [fill, PartialPermutation.placesFault?]
      by_cases hinvalid : k < -1
      · rw [if_pos hinvalid, if_pos hinvalid]
        exact Or.inl ⟨_, rfl, rfl⟩
      rw [if_neg hinvalid, if_neg hinvalid]
      by_cases habsent : k = -1
      · rw [if_pos habsent, if_pos habsent, habsent, held_cons_absent]
        exact ih hlength hseen (element + 1)
      rw [if_neg habsent, if_neg habsent]
      by_cases hlarge : (count : ℤ) ≤ k
      · rw [if_pos hlarge, if_pos (Or.inl hlarge)]
        exact Or.inl ⟨_, rfl, rfl⟩
      obtain ⟨n, rfl⟩ : ∃ n : ℕ, k = n :=
        ⟨k.toNat, by omega⟩
      have hn : n < selected.length := by
        omega
      have hentry : entryAt? selected (n : ℤ) = .ok (selected.getD n none) :=
        entryAt?_getD hn none
      rw [if_neg hlarge, hentry, Outcome.ok_bind]
      by_cases hmem : (n : ℤ) ∈ seen
      · rw [if_pos ((hseen n hn).2 hmem), if_pos (Or.inr hmem)]
        exact Or.inl ⟨_, rfl, rfl⟩
      rw [if_neg ((hseen n hn).not.2 hmem), if_neg (not_or.2 ⟨hlarge, hmem⟩), Int.toNat_natCast]
      have hlength' : (selected.set n (some (element : ℤ))).length = count := by
        rwa [List.length_set]
      have hseen' : ∀ j : ℕ, j < (selected.set n (some (element : ℤ))).length →
          (((selected.set n (some (element : ℤ))).getD j none).isSome ↔
            (j : ℤ) ∈ (n : ℤ) :: seen) := by
        intro j hj
        rw [List.length_set] at hj
        exact isSome_getD_set_iff hn hseen _ hj
      rcases ih hlength' hseen' (element + 1) with h | ⟨hnone, hfill⟩
      · exact Or.inl h
      · have hrest : (n : ℤ) ∉ rest := by
          intro hin
          rcases ((PartialPermutation.placesFault?_eq_none_iff _ _ _ _).1 hnone).1 _ hin with
            h | ⟨-, -, h⟩
          · omega
          · exact h List.mem_cons_self
        rw [held_cons count hn hrest]
        exact Or.inr ⟨hnone, hfill⟩

end Filling

section Places

variable {places : List ℤ}

/-- If the new places are those to be filled, every place holds the position where it stands. -/
theorem held_eq
    (h : PartialPermutation.Onto places) :
    held (places.countP (0 ≤ ·)) 0 (List.replicate (places.countP (0 ≤ ·)) none) places =
      (((List.range (places.countP (0 ≤ ·))).map fun (k : ℕ) =>
        (places.idxOf (k : ℤ) : ℤ)).map some) := by
  rw [held, List.map_map]
  apply List.map_congr_left
  intro k hk
  rw [heldAt, if_pos (h.mem (List.mem_range.1 hk)), Nat.zero_add]
  rfl

theorem ofPermutation_eq
    (places : List ℤ) :
    ofPermutation places =
      (PartialPermutation.ofPermutation places).map PartialPermutation.tables := by
  have hseen : ∀ k : ℕ, k < (List.replicate (places.countP (0 ≤ ·)) (none : Option ℤ)).length →
      (((List.replicate (places.countP (0 ≤ ·)) (none : Option ℤ)).getD k none).isSome ↔
        (k : ℤ) ∈ ([] : List ℤ)) := by
    intro k hk
    rw [List.getD_eq_getElem _ _ hk, List.getElem_replicate]
    simp
  have hfill := fill_eq List.length_replicate hseen 0 places
  rw [ofPermutation, PartialPermutation.ofPermutation]
  rcases hfill with ⟨e, hfault, hfill⟩ | ⟨hnone, hfill⟩
  · rw [hfault, hfill]
    rfl
  · rw [hnone, hfill, Outcome.ok_bind,
      held_eq (PartialPermutation.placesFault?_eq_none_iff_onto.1 hnone), ofSelected_eq]

/-- A list of new places is the table of places that is made of it. -/
theorem places_ofPermutation
    (h : PartialPermutation.Onto places) :
    ∃ t, ofPermutation places = .ok t ∧ t.Inverse ∧ t.places = places := by
  obtain ⟨p, hp, hsize, hinverse⟩ := PartialPermutation.ofPermutation_eq_ok h
  refine ⟨p.tables, ?_, inverse_tables p, ?_⟩
  · rw [ofPermutation_eq, hp]
    rfl
  · have hplaces : ∀ x ∈ places, x = -1 ∨ 0 ≤ x := by
      intro x hx
      have := h.1 x hx
      omega
    refine places_ext (inverse_tables p).absent_or hplaces ?_ ?_
    · exact p.length_permutation.trans hsize
    · intro i k
      rw [(inverse_tables p).getElem?_places]
      change p.inverse[k]? = some i ↔ _
      rw [hinverse, List.getElem?_map]
      by_cases hk : (k : ℤ) ∈ places
      · rw [List.getElem?_range (h.lt_count hk), Option.map_some, Option.some.injEq,
          h.idxOf_eq_iff hk]
      · constructor
        · intro hi
          obtain ⟨j, hj, -⟩ := Option.map_eq_some_iff.1 hi
          obtain ⟨hlt, rfl⟩ := List.getElem?_eq_some_iff.1 hj
          rw [List.length_range] at hlt
          exact absurd (h.mem hlt) hk
        · intro hi
          exact absurd (List.mem_of_getElem? hi) hk

end Places

section Lookups

variable (p : PartialPermutation)

theorem domainSize_tables :
    p.tables.domainSize = p.domainSize :=
  p.length_permutation

/-- The table of indices is the list of selected indices. -/
theorem domainIndex_tables
    (k : ℤ) :
    p.tables.domainIndex k = p.domainIndex k := by
  rw [domainIndex, PartialPermutation.domainIndex]
  change (if k < 0 ∨ (p.inverse.length : ℤ) ≤ k then _ else entryAt? p.inverse k) = _
  by_cases hk : k < 0
  · rw [if_pos (Or.inl hk), if_pos hk]
    rfl
  · obtain ⟨n, rfl⟩ : ∃ n : ℕ, k = n :=
      ⟨k.toNat, by omega⟩
    rw [if_neg hk, Int.toNat_natCast]
    by_cases hn : n < p.inverse.length
    · rw [if_neg (by omega), List.getElem?_eq_getElem hn,
        entryAt?_natCast (List.getElem?_eq_getElem hn)]
    · rw [if_pos (Or.inr (by omega)), List.getElem?_eq_none (by omega)]
      rfl

/-- The table of places gives the places that the list of selected indices gives. -/
theorem findPermutedIndex_tables
    (i : ℤ) :
    p.tables.findPermutedIndex i =
      (p.findPermutedIndex i).map (Option.map fun (k : ℕ) => (k : ℤ)) := by
  rw [findPermutedIndex, placeAt, PartialPermutation.findPermutedIndex, domainSize_tables]
  by_cases houtside : i < 0 ∨ (p.domainSize : ℤ) ≤ i
  · rw [if_pos houtside, if_pos houtside]
    rfl
  · obtain ⟨n, rfl⟩ : ∃ n : ℕ, i = n :=
      ⟨i.toNat, by omega⟩
    have hn : n < p.domainSize := by
      omega
    have hentry : entryAt? p.tables.places (n : ℤ) = _ :=
      entryAt?_natCast (PartialPermutation.getElem?_permutation hn)
    rw [if_neg houtside, if_neg houtside, hentry, Int.toNat_natCast, Outcome.ok_bind]
    cases p.place? n with
    | none =>
        rfl
    | some k =>
        simp [Except.map]

theorem participates_tables
    (i : ℤ) :
    p.tables.participates i = p.participates i := by
  have hfind := findPermutedIndex_tables p i
  rw [findPermutedIndex] at hfind
  rw [participates, PartialPermutation.participates]
  cases hplace : p.tables.placeAt i with
  | error e =>
      rw [hplace] at hfind
      rw [(Outcome.map_eq_error.1 hfind.symm : p.findPermutedIndex i = .error e)]
      rfl
  | ok place =>
      rw [hplace, Outcome.ok_bind] at hfind
      obtain ⟨found, hfound, heq⟩ := Outcome.map_eq_ok.1 hfind.symm
      rw [Outcome.ok_bind, hfound]
      refine congrArg Except.ok ?_
      rw [← Option.isSome_map (f := fun (k : ℕ) => (k : ℤ)), heq]
      split_ifs with hplace' <;> simp [hplace']

end Lookups

section Operations

theorem identity_eq
    (size : ℤ) :
    identity size = (PartialPermutation.ofSize size).map PartialPermutation.tables := by
  have hselected : ((List.range size.toNat).map fun (i : ℕ) => some (i : ℤ)) =
      ((List.range size.toNat).map fun (i : ℕ) => (i : ℤ)).map some := by
    rw [List.map_map]
    rfl
  rw [identity, hselected, ofSelected_eq, PartialPermutation.ofSize]
  by_cases hsize : size < 0
  · rw [if_pos hsize, PartialPermutation.ofSelected, if_pos hsize]
  · have hlt : ∀ i ∈ List.range size.toNat, i < size.toNat :=
      fun i hi => List.mem_range.1 hi
    have haccepted := PartialPermutation.ofSelected_natCast List.nodup_range hlt
    rw [Int.toNat_of_nonneg (by omega)] at haccepted
    rw [if_neg hsize, haccepted]
    rfl

/-- The tables of a composition. -/
theorem compose_tables
    (p q : PartialPermutation) :
    p.tables.compose q.tables = (p.compose q).map PartialPermutation.tables := by
  rw [compose, PartialPermutation.compose, domainSize_tables, domainSize_tables]
  change (if q.domainSize ≠ p.permutedSize then _ else _) = _
  by_cases hsize : q.domainSize = p.permutedSize
  · have hindices : (List.range q.tables.permutedSize).mapM (fun (k : ℕ) => do
        let j ← q.tables.domainIndex k
        entryAt? p.tables.inverse j) = .ok (q.gather p.inverse) := by
      have hmap : (q.inverse.map fun j => p.inverse.getD j 0) =
          (List.range q.inverse.length).map fun k => p.inverse.getD (q.inverse.getD k 0) 0 := by
        apply List.ext_getElem
        · simp
        · intro k h₁ h₂
          have hk : k < q.inverse.length := by
            simpa using h₁
          rw [List.getElem_map, List.getElem_map, List.getElem_range, List.getD_eq_getElem _ _ hk]
      rw [PartialPermutation.gather_eq_map hsize.symm 0, hmap]
      refine Outcome.mapM_eq_ok_map ?_
      intro k hk
      have hk' : k < q.inverse.length :=
        List.mem_range.1 hk
      have hj : q.inverse.getD k 0 < p.inverse.length := by
        rw [List.getD_eq_getElem _ _ hk']
        exact (q.lt_domainSize _ (List.getElem_mem hk')).trans_eq hsize
      have hindex : q.tables.domainIndex (k : ℤ) = .ok (q.inverse.getD k 0) := by
        rw [domainIndex_tables, PartialPermutation.domainIndex_eq_ok_iff,
          List.getD_eq_getElem _ _ hk', List.getElem?_eq_getElem hk']
      rw [hindex, Outcome.ok_bind]
      exact entryAt?_getD hj 0
    have hselected : (q.gather p.inverse).map (fun (i : ℕ) => some (i : ℤ)) =
        (q.inverse.filterMap fun k => (p.inverse[k]?).map fun (i : ℕ) => (i : ℤ)).map some := by
      rw [PartialPermutation.gather, List.map_filterMap, List.map_filterMap]
      simp only [Option.map_map]
      rfl
    rw [if_neg (not_not.2 hsize), if_neg (not_not.2 hsize), hindices, Outcome.ok_bind, hselected,
      ofSelected_eq]
  · rw [if_pos hsize, if_pos hsize]
    rfl

/-- The tables of an expansion. -/
theorem expand_tables
    (p : PartialPermutation) (sizes : List ℤ) :
    p.tables.expand sizes = (p.expand sizes).map PartialPermutation.tables := by
  rw [expand, PartialPermutation.expand, domainSize_tables]
  by_cases hlength : sizes.length = p.domainSize
  · rw [if_neg (not_not.2 hlength), if_neg (not_not.2 hlength)]
    cases sizes.find? (· < 0) with
    | some n =>
        rfl
    | none =>
        have hblocks : p.inverse.mapM (fun (i : ℕ) => do
            let start ← entryAt? (blockBounds 0 (sizes.map Int.toNat)) i
            let stop ← entryAt? (blockBounds 0 (sizes.map Int.toNat)) (i + 1)
            .ok (List.range' start (stop - start))) =
            (.ok (p.inverse.map (PartialPermutation.blockEntries (sizes.map Int.toNat))) :
              Except Error (List (List ℕ))) := by
          refine Outcome.mapM_eq_ok_map ?_
          intro i hi
          have hlt : i + 1 ≤ (sizes.map Int.toNat).length := by
            rw [List.length_map, hlength]
            exact p.lt_domainSize i hi
          have hstop : entryAt? (blockBounds 0 (sizes.map Int.toNat)) ((i : ℤ) + 1) = _ :=
            entryAt?_natCast (getElem?_blockBounds 0 hlt)
          rw [entryAt?_natCast (getElem?_blockBounds 0 (Nat.le_of_succ_le hlt)), Outcome.ok_bind,
            hstop, Outcome.ok_bind, Vec.totalSize_take_succ, PartialPermutation.blockEntries]
          congr 2 <;> omega
        have hselected : (p.inverse.map (PartialPermutation.blockEntries
            (sizes.map Int.toNat))).flatten.map (fun (i : ℕ) => some (i : ℤ)) =
            ((p.inverse.flatMap (PartialPermutation.blockEntries (sizes.map Int.toNat))).map
              fun (i : ℕ) => (i : ℤ)).map some := by
          rw [List.map_map, List.flatMap_def]
          rfl
        change (p.inverse.mapM _ >>= _) = _
        rw [hblocks, Outcome.ok_bind, getLastD_blockBounds, hselected, ofSelected_eq]
  · rw [if_pos hlength, if_pos hlength]
    rfl

/-- Tables that are made by any of the operations. -/
inductive Obtained : IndexTables → Prop
  | ofSelected
      {size : ℤ} {selected : List ℤ} {t : IndexTables}
      (h : ofSelected size (selected.map some) = .ok t) :
      Obtained t
  | ofPermutation
      {places : List ℤ} {t : IndexTables}
      (h : ofPermutation places = .ok t) :
      Obtained t
  | identity
      {size : ℤ} {t : IndexTables}
      (h : identity size = .ok t) :
      Obtained t
  | compose
      {s t u : IndexTables}
      (hs : Obtained s)
      (ht : Obtained t)
      (h : s.compose t = .ok u) :
      Obtained u
  | expand
      {s u : IndexTables} {sizes : List ℤ}
      (hs : Obtained s)
      (h : s.expand sizes = .ok u) :
      Obtained u

/-- All tables that can be made are those of a partial permutation. -/
theorem Obtained.exists_eq_tables
    {t : IndexTables}
    (h : Obtained t) :
    ∃ p : PartialPermutation, t = p.tables := by
  have hmap : ∀ {x : Except Error PartialPermutation} {u : IndexTables},
      x.map PartialPermutation.tables = .ok u → ∃ p : PartialPermutation, u = p.tables := by
    intro x u hu
    obtain ⟨p, -, rfl⟩ := Outcome.map_eq_ok.1 hu
    exact ⟨p, rfl⟩
  induction h with
  | ofSelected h =>
      rw [ofSelected_eq] at h
      exact hmap h
  | ofPermutation h =>
      rw [ofPermutation_eq] at h
      exact hmap h
  | identity h =>
      rw [identity_eq] at h
      exact hmap h
  | compose _ _ h ihs iht =>
      obtain ⟨p, rfl⟩ := ihs
      obtain ⟨q, rfl⟩ := iht
      rw [compose_tables] at h
      exact hmap h
  | expand _ h ih =>
      obtain ⟨p, rfl⟩ := ih
      rw [expand_tables] at h
      exact hmap h

theorem Obtained.inverse
    {t : IndexTables}
    (h : Obtained t) :
    t.Inverse := by
  obtain ⟨p, rfl⟩ := h.exists_eq_tables
  exact inverse_tables p

end Operations

section RoundTrips

/-- No place is given twice. -/
theorem nodup_filter_permutation
    (p : PartialPermutation) :
    (p.permutation.filter (0 ≤ ·)).Nodup := by
  rw [PartialPermutation.permutation, List.filter_map]
  refine List.Nodup.map_on ?_ (List.nodup_range.filter _)
  intro i hi j _ heq
  have hnonneg := (List.mem_filter.1 hi).2
  cases hplace : p.place? i with
  | none =>
      simp [hplace] at hnonneg
  | some k =>
      cases hplace' : p.place? j with
      | none =>
          simp only [hplace, hplace'] at heq
          omega
      | some k' =>
          simp only [hplace, hplace', Int.ofNat_inj] at heq
          subst heq
          rw [PartialPermutation.place?_eq_some_iff] at hplace hplace'
          exact Option.some.inj (hplace.symm.trans hplace')

/-- The places in the table of a permutation are the places to be filled. -/
theorem onto_permutation
    (p : PartialPermutation) :
    PartialPermutation.Onto p.permutation := by
  have hinverse := inverse_tables p
  refine ⟨?_, p.inverse.length, ?_⟩
  · intro k hk
    rcases hinverse.absent_or k hk with h | h <;> omega
  · refine (List.perm_ext_iff_of_nodup (nodup_filter_permutation p)
      (PartialPermutation.nodup_natCast_range _)).2 ?_
    intro x
    rw [List.mem_filter, decide_eq_true_eq, List.mem_map]
    constructor
    · rintro ⟨hx, hnonneg⟩
      obtain ⟨i, hi⟩ := List.mem_iff_getElem?.1 hx
      rw [← Int.toNat_of_nonneg hnonneg] at hi
      obtain ⟨hlt, -⟩ := List.getElem?_eq_some_iff.1 ((hinverse.getElem?_places _ _).1 hi)
      exact ⟨x.toNat, List.mem_range.2 hlt, Int.toNat_of_nonneg hnonneg⟩
    · rintro ⟨k, hk, rfl⟩
      have hentry := List.getElem?_eq_getElem (List.mem_range.1 hk)
      exact ⟨List.mem_of_getElem? ((hinverse.getElem?_places _ _).2 hentry),
        Int.natCast_nonneg k⟩

/-- The table of places of a permutation gives the permutation back. -/
theorem ofPermutation_places
    {t : IndexTables}
    (h : Obtained t) :
    ofPermutation t.places = .ok t := by
  obtain ⟨p, rfl⟩ := h.exists_eq_tables
  obtain ⟨u, hu, hinverse, hplaces⟩ := places_ofPermutation (onto_permutation p)
  refine hu.trans (congrArg Except.ok ?_)
  have hsame : u.same p.tables = true := by
    rw [same, hplaces, beq_iff_eq]
    rfl
  obtain ⟨hsize, hindices⟩ := (hinverse.same_iff (inverse_tables p)).1 hsame
  exact hinverse.ext (inverse_tables p) hsize hindices

/-- A list of new places is refused with an unacceptable value unless its places are those to be
filled. -/
theorem ofPermutation_eq_error
    {places : List ℤ}
    (h : ¬PartialPermutation.Onto places) :
    ∃ e, ofPermutation places = .error e ∧ e.kind = .value := by
  rw [← PartialPermutation.placesFault?_eq_none_iff_onto] at h
  obtain ⟨e, he⟩ := Option.ne_none_iff_exists'.1 h
  refine ⟨e, ?_, PartialPermutation.kind_placesFault he⟩
  rw [ofPermutation_eq, PartialPermutation.ofPermutation, he]
  rfl

/-- **Partial permutations in use.**  In all tables that can be made, an index has a new place
exactly if it is the index at that place, and other indices are absent; the table of places gives
the same tables back, and comparing the tables of places is comparing the sizes of the domains and
the indices at the new places.  A selection is accepted exactly if its indices are in the domain and
differ from each other, and a list of new places exactly if its places are absent or `0, …, M - 1`,
each once; it is then the table of places, and otherwise it is refused for its value. -/
theorem encodings_agree :
    (∀ t, Obtained t →
      (∀ i k : ℕ, t.places[i]? = some (k : ℤ) ↔ t.inverse[k]? = some i) ∧
      (∀ x ∈ t.places, x = -1 ∨ 0 ≤ x) ∧
      ofPermutation t.places = .ok t ∧
      ∀ u, Obtained u →
        (t.same u = true ↔ t.domainSize = u.domainSize ∧ t.inverse = u.inverse)) ∧
    (∀ (size : ℤ) (selected : List ℤ),
      (∃ t, ofSelected size (selected.map some) = .ok t) ↔
        0 ≤ size ∧ (∀ i ∈ selected, 0 ≤ i ∧ i < size) ∧ selected.Nodup) ∧
    ∀ places : List ℤ,
      (PartialPermutation.Onto places ∧ ∃ t, ofPermutation places = .ok t ∧ t.places = places) ∨
      (¬PartialPermutation.Onto places ∧
        ∃ e, ofPermutation places = .error e ∧ e.kind = .value) := by
  refine ⟨?_, ?_, ?_⟩
  · intro t ht
    exact ⟨ht.inverse.getElem?_places, ht.inverse.absent_or, ofPermutation_places ht,
      fun u hu => ht.inverse.same_iff hu.inverse⟩
  · intro size selected
    rw [← PartialPermutation.exists_ofSelected_eq_ok_iff, ofSelected_eq]
    constructor
    · rintro ⟨t, ht⟩
      obtain ⟨p, hp, -⟩ := Outcome.map_eq_ok.1 ht
      exact ⟨p, hp⟩
    · rintro ⟨p, hp⟩
      exact ⟨p.tables, Outcome.map_eq_ok.2 ⟨p, hp, rfl⟩⟩
  · intro places
    by_cases hplaces : PartialPermutation.Onto places
    · obtain ⟨t, ht, -, heq⟩ := places_ofPermutation hplaces
      exact Or.inl ⟨hplaces, t, ht, heq⟩
    · exact Or.inr ⟨hplaces, ofPermutation_eq_error hplaces⟩

example : (ofPermutation [1, -1, 0]).map inverse = .ok [2, 0] :=
  rfl

example : (ofPermutation [0, 2]).map inverse = .error (.notOntoPermutedIndices 2 1 2) :=
  rfl

end RoundTrips

end IndexTables
end ConvexContact
