import Mathlib
import ConvexContact.PartialPermutation
import ConvexContact.Proofs.Permutations

/-!
# Accepted selections

**Selections.**  A selection of indices makes a partial permutation exactly if the indices are in
the domain and differ from each other (`exists_ofSelected_eq_ok_iff`).

**New places.**  A list of new places passes its checks exactly if the places that are not absent
are `0, …, M - 1`, each of them once (`placesFault?_eq_none_iff_onto`): the checks count the places
first, and as many different places as are to be filled fill all of them (`perm_range_of_nodup`).

**Refusals.**  A list of new places that fails is refused because of an unacceptable value
(`kind_placesFault`).
-/

namespace ConvexContact
namespace PartialPermutation

section Acceptance

/-- A selection is accepted if its indices are in the domain and differ from each other. -/
theorem exists_ofSelected_eq_ok_iff
    (size : ℤ) (selected : List ℤ) :
    (∃ p, ofSelected size selected = .ok p) ↔
      0 ≤ size ∧ (∀ i ∈ selected, 0 ≤ i ∧ i < size) ∧ selected.Nodup := by
  rw [ofSelected]
  by_cases hsize : size < 0
  · rw [if_pos hsize]
    constructor
    · rintro ⟨p, hp⟩
      cases hp
    · rintro ⟨hsize', -⟩
      omega
  · have hiff : selectionFault? size.toNat [] selected = none ↔
        (∀ i ∈ selected, 0 ≤ i ∧ i < size) ∧ selected.Nodup := by
      rw [selectionFault?_eq_none_iff, Int.toNat_of_nonneg (by omega)]
      simp
    rw [if_neg hsize]
    split
    next e hfault =>
      constructor
      · rintro ⟨p, hp⟩
        cases hp
      · rintro ⟨-, hselected⟩
        rw [hiff.2 hselected] at hfault
        cases hfault
    next hfault =>
      exact ⟨fun _ => ⟨by omega, hiff.1 hfault⟩, fun _ => ⟨_, rfl⟩⟩

/-- A list of new places is refused unless its places are absent or to be filled, and differ from
each other. -/
theorem placesFault?_eq_none_iff
    (count : ℕ) (seen : List ℤ) (element : ℕ) (places : List ℤ) :
    placesFault? count seen element places = none ↔
      (∀ k ∈ places, k = -1 ∨ 0 ≤ k ∧ k < count ∧ k ∉ seen) ∧ (places.filter (0 ≤ ·)).Nodup := by
  induction places generalizing seen element with
  | nil =>
      simp [placesFault?]
  | cons k rest ih =>
      rw [placesFault?, List.forall_mem_cons]
      by_cases hinvalid : k < -1
      · rw [if_pos hinvalid]
        simp only [reduceCtorEq, false_iff]
        omega
      rw [if_neg hinvalid]
      by_cases habsent : k = -1
      · subst habsent
        rw [if_pos rfl, ih, List.filter_cons_of_neg (by decide)]
        simp
      rw [if_neg habsent, List.filter_cons_of_pos (by simpa using by omega), List.nodup_cons]
      by_cases hrefused : (count : ℤ) ≤ k ∨ k ∈ seen
      · rw [if_pos hrefused]
        simp only [reduceCtorEq, false_iff]
        rintro ⟨⟨hk, -⟩, -⟩
        rcases hk with hk | ⟨-, hlt, hseen⟩
        · exact habsent hk
        · rcases hrefused with h | h
          · omega
          · exact hseen h
      · obtain ⟨hlt, hseen⟩ := not_or.1 hrefused
        rw [if_neg hrefused, ih]
        constructor
        · rintro ⟨hall, hnodup⟩
          refine ⟨⟨Or.inr ⟨by omega, by omega, hseen⟩, ?_⟩, ?_, hnodup⟩
          · intro j hj
            rcases hall j hj with h | ⟨h₀, h₁, h₂⟩
            · exact Or.inl h
            · exact Or.inr ⟨h₀, h₁, fun h => h₂ (List.mem_cons_of_mem k h)⟩
          · intro hmem
            rcases hall k (List.mem_filter.1 hmem).1 with h | ⟨-, -, h⟩
            · exact habsent h
            · exact h List.mem_cons_self
        · rintro ⟨⟨-, hall⟩, hmem, hnodup⟩
          refine ⟨?_, hnodup⟩
          intro j hj
          rcases hall j hj with h | ⟨h₀, h₁, h₂⟩
          · exact Or.inl h
          · refine Or.inr ⟨h₀, h₁, ?_⟩
            intro h
            rcases List.mem_cons.1 h with rfl | h
            · exact hmem (List.mem_filter.2 ⟨hj, decide_eq_true h₀⟩)
            · exact h₂ h

theorem kind_placesFault
    {count : ℕ} {seen : List ℤ} {element : ℕ} {places : List ℤ} {e : Error}
    (h : placesFault? count seen element places = some e) :
    e.kind = .value := by
  induction places generalizing seen element with
  | nil =>
      cases h
  | cons k rest ih =>
      rw [placesFault?] at h
      split_ifs at h
      · cases h
        rfl
      · exact ih h
      · cases h
        rfl
      · exact ih h

end Acceptance

section Onto

variable {places : List ℤ}

/-- The new places are absent, or the places `0, …, M - 1`, each of them once. -/
def Onto (places : List ℤ) : Prop :=
  (∀ k ∈ places, -1 ≤ k) ∧
    ∃ M : ℕ, (places.filter (0 ≤ ·)).Perm ((List.range M).map fun (k : ℕ) => (k : ℤ))

theorem nodup_natCast_range
    (M : ℕ) :
    ((List.range M).map fun (k : ℕ) => (k : ℤ)).Nodup :=
  List.nodup_range.map fun _ _ h => Int.ofNat_inj.1 h

/-- As many different places as are to be filled fill all of them. -/
theorem perm_range_of_nodup
    {xs : List ℤ}
    (hnodup : xs.Nodup)
    (hlt : ∀ x ∈ xs, 0 ≤ x ∧ x < xs.length) :
    xs.Perm ((List.range xs.length).map fun (k : ℕ) => (k : ℤ)) := by
  have hsubset : xs ⊆ (List.range xs.length).map fun (k : ℕ) => (k : ℤ) := by
    intro x hx
    obtain ⟨hx₀, hx₁⟩ := hlt x hx
    exact List.mem_map.2 ⟨x.toNat, List.mem_range.2 (by omega), Int.toNat_of_nonneg hx₀⟩
  exact (List.subperm_of_subset hnodup hsubset).perm_of_length_le (by simp)

theorem placesFault?_eq_none_iff_onto :
    placesFault? (places.countP (0 ≤ ·)) [] 0 places = none ↔ Onto places := by
  rw [placesFault?_eq_none_iff, List.countP_eq_length_filter]
  constructor
  · rintro ⟨hall, hnodup⟩
    refine ⟨?_, _, perm_range_of_nodup hnodup ?_⟩
    · intro k hk
      rcases hall k hk with h | h <;> omega
    · intro k hk
      obtain ⟨hmem, hnonneg⟩ := List.mem_filter.1 hk
      rw [decide_eq_true_eq] at hnonneg
      rcases hall k hmem with h | ⟨-, hlt, -⟩
      · omega
      · exact ⟨hnonneg, hlt⟩
  · rintro ⟨hall, M, hperm⟩
    constructor
    · intro k hk
      by_cases hnonneg : 0 ≤ k
      · have hmem := hperm.mem_iff.1 (List.mem_filter.2 ⟨hk, decide_eq_true hnonneg⟩)
        obtain ⟨n, hn, rfl⟩ := List.mem_map.1 hmem
        rw [hperm.length_eq, List.length_map, List.length_range]
        exact Or.inr ⟨hnonneg, Int.ofNat_lt.2 (List.mem_range.1 hn), List.not_mem_nil⟩
      · have := hall k hk
        exact Or.inl (by omega)
    · exact hperm.nodup_iff.2 (nodup_natCast_range M)

/-- Every place below the number of places that occur does occur. -/
theorem Onto.mem
    (h : Onto places)
    {k : ℕ}
    (hk : k < places.countP (0 ≤ ·)) :
    (k : ℤ) ∈ places := by
  obtain ⟨-, M, hperm⟩ := h
  rw [List.countP_eq_length_filter, hperm.length_eq, List.length_map, List.length_range] at hk
  have hmem := hperm.mem_iff.2 (List.mem_map.2 ⟨k, List.mem_range.2 hk, rfl⟩)
  exact (List.mem_filter.1 hmem).1

theorem Onto.lt_count
    (h : Onto places)
    {k : ℕ}
    (hk : (k : ℤ) ∈ places) :
    k < places.countP (0 ≤ ·) := by
  obtain ⟨-, M, hperm⟩ := h
  have hmem := hperm.mem_iff.1
    (List.mem_filter.2 ⟨hk, decide_eq_true (Int.natCast_nonneg k)⟩)
  obtain ⟨n, hn, heq⟩ := List.mem_map.1 hmem
  rw [List.countP_eq_length_filter, hperm.length_eq, List.length_map, List.length_range]
  have := List.mem_range.1 hn
  omega

/-- A place that occurs does so once. -/
theorem Onto.count_le_one
    (h : Onto places)
    (k : ℕ) :
    places.count (k : ℤ) ≤ 1 := by
  obtain ⟨-, M, hperm⟩ := h
  have hnodup : (places.filter (0 ≤ ·)).Nodup :=
    hperm.nodup_iff.2 (nodup_natCast_range M)
  rw [← List.count_filter (p := (0 ≤ ·)) (by simp)]
  exact List.nodup_iff_count_le_one.1 hnodup k

theorem Onto.idxOf_eq_iff
    (h : Onto places)
    {i k : ℕ}
    (hk : (k : ℤ) ∈ places) :
    places.idxOf (k : ℤ) = i ↔ places[i]? = some (k : ℤ) := by
  have hlt := List.idxOf_lt_length_of_mem hk
  constructor
  · rintro rfl
    rw [List.getElem?_eq_getElem hlt, List.getElem_idxOf]
  · intro hi
    obtain ⟨hi, heq⟩ := List.getElem?_eq_some_iff.1 hi
    by_contra hne
    have htwice : List.Duplicate (k : ℤ) places := by
      rw [List.duplicate_iff_exists_distinct_get]
      rcases Nat.lt_or_gt_of_ne hne with hlt' | hlt'
      · exact ⟨⟨_, hlt⟩, ⟨i, hi⟩, hlt', (List.getElem_idxOf hlt).symm, heq.symm⟩
      · exact ⟨⟨i, hi⟩, ⟨_, hlt⟩, hlt', heq.symm, (List.getElem_idxOf hlt).symm⟩
    have := List.duplicate_iff_two_le_count.1 htwice
    have := h.count_le_one k
    omega

/-- The list of the indices at the new places. -/
theorem ofPermutation_eq_ok
    (h : Onto places) :
    ∃ p, ofPermutation places = .ok p ∧ p.domainSize = places.length ∧
      p.inverse = (List.range (places.countP (0 ≤ ·))).map fun (k : ℕ) => places.idxOf (k : ℤ) := by
  have hnodup : ((List.range (places.countP (0 ≤ ·))).map
      fun (k : ℕ) => places.idxOf (k : ℤ)).Nodup := by
    refine List.Nodup.map_on ?_ List.nodup_range
    intro j hj k _ heq
    exact Int.ofNat_inj.1 ((List.idxOf_inj (h.mem (List.mem_range.1 hj))).1 heq)
  have hlt : ∀ i ∈ (List.range (places.countP (0 ≤ ·))).map
      (fun (k : ℕ) => places.idxOf (k : ℤ)), i < places.length := by
    intro i hi
    obtain ⟨k, hk, rfl⟩ := List.mem_map.1 hi
    exact List.idxOf_lt_length_of_mem (h.mem (List.mem_range.1 hk))
  have haccepted := ofSelected_natCast hnodup hlt
  rw [List.map_map] at haccepted
  rw [ofPermutation, placesFault?_eq_none_iff_onto.2 h]
  exact ⟨_, haccepted, rfl, rfl⟩

end Onto

end PartialPermutation
end ConvexContact
