import Mathlib
import ConvexContact.PartialPermutation
import ConvexContact.Proofs.Permutations

/-!
# Compositions of partial permutations

A partial permutation of the places of another one can be applied after it.  An index is selected by
the composition if it is selected by the first permutation and its place by the second one.

**Lookup.**  The place of an index in a composition is the place of its place
(`Composes.place?_eq`).

**Lists.**  Gathering by a composition is gathering twice (`Composes.gather_eq`).  Scattering by it
writes the values over what the first permutation gathers, and that over the list
(`Composes.scatter_eq`).

**Laws.**  Compositions are associative and have identities (`Composes.assoc`,
`Composes.identity_left`, `Composes.identity_right`), and expanding the blocks of a composition
composes the expansions (`Composes.expands`).
-/

namespace ConvexContact
namespace PartialPermutation

/-- The permutation `r` applies `p` first and `q` after it. -/
structure Composes (p q r : PartialPermutation) : Prop where
  domainSize_mid : q.domainSize = p.permutedSize
  domainSize_eq : r.domainSize = p.domainSize
  inverse_eq : r.inverse = q.gather p.inverse

theorem ext_of_inverse
    {p q : PartialPermutation}
    (hsize : p.domainSize = q.domainSize)
    (hinverse : p.inverse = q.inverse) :
    p = q := by
  cases p
  cases q
  cases hsize
  cases hinverse
  rfl

/-- **Compositions exist.**  Permutations with fitting domains can be composed. -/
theorem compose_eq_ok
    {p q : PartialPermutation}
    (h : q.domainSize = p.permutedSize) :
    ∃ r, p.compose q = .ok r ∧ p.Composes q r := by
  have hmap : q.gather p.inverse = q.inverse.map fun k => p.inverse.getD k 0 :=
    gather_eq_map h.symm 0
  have hnodup : (q.gather p.inverse).Nodup := by
    rw [hmap]
    refine List.Nodup.map_on ?_ q.nodup_inverse
    intro j hj k hk heq
    have hj' : j < p.inverse.length :=
      (q.lt_domainSize j hj).trans_eq h
    have hk' : k < p.inverse.length :=
      (q.lt_domainSize k hk).trans_eq h
    rw [List.getD_eq_getElem _ _ hj', List.getD_eq_getElem _ _ hk'] at heq
    exact (List.Nodup.getElem_inj_iff p.nodup_inverse).1 heq
  have hlt : ∀ i ∈ q.gather p.inverse, i < p.domainSize :=
    fun i hi => p.lt_domainSize i (mem_of_mem_gather hi)
  have hselected : (q.inverse.filterMap fun k => (p.inverse[k]?).map fun (i : ℕ) => (i : ℤ)) =
      (q.gather p.inverse).map fun (i : ℕ) => (i : ℤ) := by
    rw [gather, List.map_filterMap]
  refine ⟨⟨p.domainSize, _, hnodup, hlt⟩, ?_, ⟨h, rfl, rfl⟩⟩
  rw [compose, if_neg (not_not.2 h), hselected]
  exact ofSelected_natCast hnodup hlt

namespace Composes

variable {p q r : PartialPermutation} {β : Type}

/-- There is one composition. -/
theorem unique
    {r' : PartialPermutation}
    (h : p.Composes q r)
    (h' : p.Composes q r') :
    r' = r :=
  ext_of_inverse (h'.domainSize_eq.trans h.domainSize_eq.symm)
    (h'.inverse_eq.trans h.inverse_eq.symm)

theorem compose_eq
    (h : p.Composes q r) :
    p.compose q = .ok r := by
  obtain ⟨r', hr, h'⟩ := compose_eq_ok h.domainSize_mid
  rw [hr, h.unique h']

theorem getElem?_inverse
    (h : p.Composes q r)
    {k l : ℕ}
    (hl : q.inverse[l]? = some k) :
    r.inverse[l]? = p.inverse[k]? := by
  rw [h.inverse_eq, getElem?_gather h.domainSize_mid.symm hl]

theorem permutedSize_eq
    (h : p.Composes q r) :
    r.permutedSize = q.permutedSize := by
  rw [permutedSize, h.inverse_eq, length_gather h.domainSize_mid.symm]

/-- The place of an index is the place of its place. -/
theorem place?_eq
    (h : p.Composes q r)
    (i : ℕ) :
    r.place? i = (p.place? i).bind q.place? := by
  apply Option.ext
  intro l
  rw [Option.bind_eq_some_iff, place?_eq_some_iff]
  constructor
  · intro hl
    have hlt : l < q.inverse.length := by
      have := (List.getElem?_eq_some_iff.1 hl).1
      rwa [← permutedSize, h.permutedSize_eq] at this
    have hk := List.getElem?_eq_getElem hlt
    rw [h.getElem?_inverse hk] at hl
    exact ⟨_, place?_eq_some_iff.2 hl, place?_eq_some_iff.2 hk⟩
  · rintro ⟨k, hk, hl⟩
    rw [h.getElem?_inverse (place?_eq_some_iff.1 hl)]
    exact place?_eq_some_iff.1 hk

/-- Gathering by a composition is gathering twice. -/
theorem gather_eq
    (h : p.Composes q r)
    {xs : List β}
    (hxs : xs.length = p.domainSize) :
    r.gather xs = q.gather (p.gather xs) := by
  have hgather : (p.gather xs).length = q.domainSize := by
    rw [length_gather hxs, h.domainSize_mid]
  have hxs' : xs.length = r.domainSize := by
    rw [hxs, h.domainSize_eq]
  apply List.map_injective_iff.2 (Option.some_injective β)
  rw [map_some_gather hxs', map_some_gather hgather, h.inverse_eq,
    gather_eq_map h.domainSize_mid.symm 0, List.map_map]
  apply List.map_congr_left
  intro k hk
  have hlt : k < p.inverse.length :=
    (q.lt_domainSize k hk).trans_eq h.domainSize_mid
  rw [Function.comp_apply, List.getD_eq_getElem _ _ hlt,
    getElem?_gather hxs (List.getElem?_eq_getElem hlt)]

/-- Scattering by a composition writes over what is gathered, and that over the list. -/
theorem scatter_eq
    (h : p.Composes q r)
    {values xs : List β}
    (hxs : xs.length = p.domainSize) :
    r.scatter values xs = p.scatter (q.scatter values (p.gather xs)) xs := by
  apply List.ext_getElem?
  intro i
  cases hi : xs[i]? with
  | none =>
      have hle : xs.length ≤ i :=
        List.getElem?_eq_none_iff.1 hi
      rw [List.getElem?_eq_none (by rwa [length_scatter]),
        List.getElem?_eq_none (by rwa [length_scatter])]
  | some x =>
      rw [getElem?_scatter hi, getElem?_scatter hi, h.place?_eq]
      cases hk : p.place? i with
      | none =>
          rfl
      | some k =>
          -- the entry that is gathered to the place of `i` is the one that the list has at `i`
          have hx : (p.gather xs)[k]? = some x := by
            rw [getElem?_gather hxs (place?_eq_some_iff.1 hk), hi]
          have hvalue : (q.scatter values (p.gather xs)).getD k x =
              (q.place? k).elim x fun l => values.getD l x := by
            rw [List.getD_eq_getElem?_getD, getElem?_scatter hx, Option.getD_some]
          exact congrArg some hvalue.symm

/-- Compositions are associative. -/
theorem assoc
    {s t u : PartialPermutation}
    (h : p.Composes q r)
    (ht : q.Composes s t)
    (hu : r.Composes s u) :
    p.Composes t u where
  domainSize_mid := ht.domainSize_eq.trans h.domainSize_mid
  domainSize_eq := hu.domainSize_eq.trans h.domainSize_eq
  inverse_eq := by
    rw [hu.inverse_eq, h.inverse_eq, ht.gather_eq h.domainSize_mid.symm]

theorem identity_left
    (p : PartialPermutation) :
    (identity p.domainSize).Composes p p where
  domainSize_mid := List.length_range.symm
  domainSize_eq := rfl
  inverse_eq := by
    change p.inverse = p.gather (List.range p.domainSize)
    rw [gather_eq_map List.length_range 0]
    refine (List.map_id _).symm.trans (List.map_congr_left ?_)
    intro i hi
    rw [List.getD_eq_getElem _ _ (by simpa using p.lt_domainSize i hi), List.getElem_range, id]

theorem identity_right
    (p : PartialPermutation) :
    p.Composes (identity p.permutedSize) p where
  domainSize_mid := rfl
  domainSize_eq := rfl
  inverse_eq := (gather_identity p.inverse).symm

/-- Expanding the blocks of a composition composes the expansions. -/
theorem expands
    {sizes : List ℕ} {p' q' r' : PartialPermutation}
    (h : p.Composes q r)
    (hp : p.Expands sizes p')
    (hq : q.Expands (p.gather sizes) q')
    (hr : r.Expands sizes r') :
    p'.Composes q' r' where
  domainSize_mid := hq.domainSize_eq.trans hp.permutedSize_eq.symm
  domainSize_eq := hr.domainSize_eq.trans hp.domainSize_eq.symm
  inverse_eq := by
    have hsizes : (p.inverse.map fun i => (blockEntries sizes i).length) = p.gather sizes := by
      rw [gather_eq_map hp.length_sizes 0]
      exact List.map_congr_left fun i _ => List.length_range'
    rw [hr.inverse_eq, h.inverse_eq, hp.inverse_eq, hq.gather_flatMap hsizes]

end Composes

/-- The entries of the first blocks are the first entries. -/
theorem flatMap_blockEntries_range
    (sizes : List ℕ) (k : ℕ) :
    (List.range k).flatMap (blockEntries sizes) = List.range (totalSize (sizes.take k)) := by
  induction k with
  | zero =>
      rfl
  | succ k ih =>
      rw [List.range_succ, List.flatMap_append, List.flatMap_singleton, ih,
        Vec.totalSize_take_succ, List.range_add, blockEntries, List.range'_eq_map_range]

/-- Expanding the identity gives the identity. -/
theorem expands_identity
    (sizes : List ℕ) :
    (identity sizes.length).Expands sizes (identity (totalSize sizes)) where
  length_sizes := rfl
  domainSize_eq := rfl
  inverse_eq := by
    change List.range (totalSize sizes) = (List.range sizes.length).flatMap (blockEntries sizes)
    rw [flatMap_blockEntries_range, List.take_length]

end PartialPermutation
end ConvexContact
