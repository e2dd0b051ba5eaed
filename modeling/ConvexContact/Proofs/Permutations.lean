import Mathlib
import ConvexContact.PartialPermutation
import ConvexContact.Proofs.Tensors

/-!
# Moving lists by partial permutations

**Lookup.**  A selected index has the place at which it stands (`permutedIndex_eq_ok_iff`); if all
indices are selected, the places are a permutation of the domain (`IsTotal.exists_equiv`).

**Gathering and scattering.**  Gathering takes the selected members of a list, scattering writes
them back.  Gathering what was scattered gives the values back (`gather_scatter`); if all indices
are selected, scattering what was gathered gives the list back (`scatter_gather`).

**Blocks.**  The expansion of a partial permutation of blocks moves the entries of every block
together: gathering a list of parts is gathering the parts (`Expands.gather_flatten`).

**Inner products.**  Over the real numbers, scattering over zeros is the adjoint of gathering
(`dot_scatter`).
-/

namespace ConvexContact
namespace PartialPermutation

section Lookup

variable {p : PartialPermutation} {i k : ℕ}

/-- The place of an index is where it stands in the list of selected indices. -/
theorem place?_eq_some_iff :
    p.place? i = some k ↔ p.inverse[k]? = some i := by
  unfold place?
  rw [List.idxOf?_eq_some_iff, List.getElem?_eq_some_iff]
  constructor
  · rintro ⟨hk, hi, -⟩
    exact ⟨hk, by simpa using hi⟩
  · rintro ⟨hk, hi⟩
    refine ⟨hk, by simpa using hi, ?_⟩
    intro j hj hbeq
    have heq : p.inverse[j] = p.inverse[k] := by
      rw [hi]
      simpa using hbeq
    have := (List.Nodup.getElem_inj_iff p.nodup_inverse).1 heq
    omega

theorem place?_eq_none_iff :
    p.place? i = none ↔ i ∉ p.inverse := by
  unfold place?
  exact List.idxOf?_eq_none_iff

/-- A selected index has the place at which it stands. -/
theorem permutedIndex_eq_ok_iff
    {i : ℤ} :
    p.permutedIndex i = .ok k ↔ 0 ≤ i ∧ p.inverse[k]? = some i.toNat := by
  unfold permutedIndex findPermutedIndex
  split_ifs with h
  · constructor
    · intro herror
      cases herror
    · rintro ⟨hi, hk⟩
      have := p.lt_domainSize _ (List.mem_of_getElem? hk)
      omega
  · rw [Outcome.ok_bind, ← place?_eq_some_iff]
    cases hplace : p.place? i.toNat with
    | none =>
        simp
    | some k' =>
        simp
        omega

theorem domainIndex_eq_ok_iff :
    p.domainIndex (k : ℤ) = .ok i ↔ p.inverse[k]? = some i := by
  unfold domainIndex
  rw [if_neg (by omega), Int.toNat_natCast]
  cases p.inverse[k]? <;> simp

/-- An index of the domain is asked for whether it is selected. -/
theorem participates_eq_ok
    {i : ℕ}
    (hi : i < p.domainSize) :
    p.participates (i : ℤ) = .ok (decide (i ∈ p.inverse)) := by
  unfold participates findPermutedIndex
  rw [if_neg (by omega), Int.toNat_natCast]
  change Except.ok (p.place? i).isSome = _
  congr 1
  rw [Bool.eq_iff_iff, decide_eq_true_eq, Option.isSome_iff_ne_none, ne_eq, place?_eq_none_iff,
    not_not]

end Lookup

section Lists

variable {p : PartialPermutation} {β γ : Type} {xs : List β}

/-- The selected members all exist. -/
theorem map_some_gather
    (h : xs.length = p.domainSize) :
    (p.gather xs).map some = p.inverse.map (xs[·]?) := by
  have hall : ∀ l : List ℕ, (∀ i ∈ l, i < xs.length) →
      (l.filterMap (xs[·]?)).map some = l.map (xs[·]?) := by
    intro l hl
    induction l with
    | nil =>
        rfl
    | cons i l ih =>
        have hi : i < xs.length :=
          hl i List.mem_cons_self
        rw [List.filterMap_cons, List.getElem?_eq_getElem hi, List.map_cons, List.map_cons,
          ih fun j hj => hl j (List.mem_cons_of_mem i hj), List.getElem?_eq_getElem hi]
  apply hall
  intro i hi
  rw [h]
  exact p.lt_domainSize i hi

/-- The selected members, looked up one by one. -/
theorem gather_eq_map
    (h : xs.length = p.domainSize)
    (x : β) :
    p.gather xs = p.inverse.map fun i => xs.getD i x := by
  apply List.map_injective_iff.2 (Option.some_injective β)
  rw [map_some_gather h, List.map_map]
  apply List.map_congr_left
  intro i hi
  have hi' : i < xs.length := by
    rw [h]
    exact p.lt_domainSize i hi
  simp [List.getElem?_eq_getElem hi']

theorem length_gather
    (h : xs.length = p.domainSize) :
    (p.gather xs).length = p.permutedSize := by
  have := congrArg List.length (map_some_gather h)
  simpa [permutedSize] using this

theorem getElem?_gather
    (h : xs.length = p.domainSize)
    {k i : ℕ}
    (hk : p.inverse[k]? = some i) :
    (p.gather xs)[k]? = xs[i]? := by
  have hmap := congrArg (fun l => l[k]?) (map_some_gather h)
  simp only [List.getElem?_map, hk, Option.map_some] at hmap
  cases hg : (p.gather xs)[k]? with
  | none =>
      rw [hg] at hmap
      cases hmap
  | some x =>
      rw [hg, Option.map_some, Option.some_inj] at hmap
      exact hmap

/-- A list is the gathered one if it has its members, place by place. -/
theorem gather_eq_of_getElem?
    {values : List β}
    (hxs : xs.length = p.domainSize)
    (hvalues : values.length = p.permutedSize)
    (h : ∀ k i : ℕ, p.inverse[k]? = some i → values[k]? = xs[i]?) :
    p.gather xs = values := by
  apply List.ext_getElem?
  intro k
  cases hk : p.inverse[k]? with
  | none =>
      have hsize : p.permutedSize ≤ k :=
        List.getElem?_eq_none_iff.1 hk
      rw [List.getElem?_eq_none ((length_gather hxs).trans_le hsize),
        List.getElem?_eq_none (hvalues.trans_le hsize)]
  | some i =>
      rw [getElem?_gather hxs hk, h k i hk]

theorem mem_of_mem_gather
    {x : β}
    (h : x ∈ p.gather xs) :
    x ∈ xs := by
  obtain ⟨i, -, hi⟩ := List.mem_filterMap.1 h
  exact List.mem_of_getElem? hi

/-- Gathering pairs is gathering their parts. -/
theorem gather_zip
    {ys : List γ}
    (hxs : xs.length = p.domainSize)
    (hys : ys.length = p.domainSize) :
    p.gather (xs.zip ys) = (p.gather xs).zip (p.gather ys) := by
  apply gather_eq_of_getElem?
  · rw [List.length_zip, hxs, hys, Nat.min_self]
  · rw [List.length_zip, length_gather hxs, length_gather hys, Nat.min_self]
  · intro k i hk
    rw [List.zip_eq_zipWith, List.zip_eq_zipWith, List.getElem?_zipWith, List.getElem?_zipWith,
      getElem?_gather hxs hk, getElem?_gather hys hk]

theorem gather_zipWith
    {δ : Type}
    (op : β → γ → δ)
    {ys : List γ}
    (hxs : xs.length = p.domainSize)
    (hys : ys.length = p.domainSize) :
    p.gather (List.zipWith op xs ys) = List.zipWith op (p.gather xs) (p.gather ys) := by
  rw [← List.map_uncurry_zip_eq_zipWith, gather_map, gather_zip hxs hys,
    List.map_uncurry_zip_eq_zipWith]

/-- All indices are selected. -/
def IsTotal (p : PartialPermutation) : Prop :=
  p.inverse.Perm (List.range p.domainSize)

/-- The identity gathers the list itself. -/
theorem gather_identity
    (xs : List β) :
    (identity xs.length).gather xs = xs := by
  apply List.map_injective_iff.2 (Option.some_injective β)
  rw [map_some_gather rfl]
  apply List.ext_getElem?
  intro i
  rw [List.getElem?_map, List.getElem?_map]
  by_cases hi : i < xs.length
  · simp [identity, hi]
  · simp [identity, hi]

/-- If all indices are selected, gathering permutes the list. -/
theorem IsTotal.gather_perm
    (htotal : p.IsTotal)
    (h : xs.length = p.domainSize) :
    (p.gather xs).Perm xs := by
  have hrange : (List.range xs.length).filterMap (xs[·]?) = xs :=
    gather_identity xs
  have hperm := List.Perm.filterMap (xs[·]?) htotal
  rw [← h, hrange] at hperm
  exact hperm

theorem IsTotal.permutedSize_eq
    (htotal : p.IsTotal) :
    p.permutedSize = p.domainSize := by
  simpa [permutedSize] using htotal.length_eq

/-- If all indices are selected, the places are a permutation of the domain, and lookup in both
directions follows it. -/
theorem IsTotal.exists_equiv
    {n : ℕ}
    (htotal : p.IsTotal)
    (hn : p.domainSize = n) :
    ∃ σ : Equiv.Perm (Fin n), ∀ i : Fin n,
      p.permutedIndex ((i : ℕ) : ℤ) = .ok (σ i) ∧
        p.domainIndex ((σ i : ℕ) : ℤ) = .ok (i : ℕ) := by
  have hlength : p.inverse.length = n := by
    rw [← hn]
    exact htotal.permutedSize_eq
  let τ : Fin n → Fin n := fun k =>
    ⟨p.inverse[k], hn ▸ p.lt_domainSize _ (List.getElem_mem (by omega))⟩
  have hinjective : Function.Injective τ := by
    intro k k' h
    exact Fin.ext ((List.Nodup.getElem_inj_iff p.nodup_inverse).1 (Fin.mk.inj h))
  let σ := (Equiv.ofBijective τ (Finite.injective_iff_bijective.1 hinjective)).symm
  refine ⟨σ, fun i => ?_⟩
  have hplace : p.inverse[(σ i : ℕ)]? = some (i : ℕ) := by
    have hτ : τ (σ i) = i :=
      Equiv.ofBijective_apply_symm_apply τ _ i
    have hlt : (σ i : ℕ) < p.inverse.length := by
      rw [hlength]
      exact (σ i).isLt
    rw [List.getElem?_eq_getElem hlt]
    exact congrArg some (congrArg Fin.val hτ)
  exact ⟨permutedIndex_eq_ok_iff.2 ⟨by omega, by simpa using hplace⟩,
    domainIndex_eq_ok_iff.2 hplace⟩

@[simp] theorem length_scatter
    (p : PartialPermutation) (values base : List β) :
    (p.scatter values base).length = base.length := by
  simp [scatter]

/-- An entry is replaced if its index is selected. -/
theorem getElem?_scatter
    {values base : List β} {i : ℕ} {x : β}
    (hi : base[i]? = some x) :
    (p.scatter values base)[i]? = some ((p.place? i).elim x fun k => values.getD k x) := by
  unfold scatter
  rw [List.getElem?_mapIdx, hi, Option.map_some]
  cases p.place? i <;> rfl

theorem getElem?_scatter_of_place
    {values base : List β} {i k : ℕ}
    (hvalues : values.length = p.permutedSize)
    (hbase : base.length = p.domainSize)
    (hk : p.inverse[k]? = some i) :
    (p.scatter values base)[i]? = values[k]? := by
  have hi : i < base.length := by
    rw [hbase]
    exact p.lt_domainSize i (List.mem_of_getElem? hk)
  have hk' : k < values.length := by
    rw [hvalues]
    exact (List.getElem?_eq_some_iff.1 hk).1
  rw [getElem?_scatter (List.getElem?_eq_getElem hi), place?_eq_some_iff.2 hk,
    List.getElem?_eq_getElem hk']
  exact congrArg some (List.getD_eq_getElem _ _ hk')

theorem getElem?_scatter_of_not_mem
    {values base : List β} {i : ℕ}
    (hi : i ∉ p.inverse) :
    (p.scatter values base)[i]? = base[i]? := by
  unfold scatter
  rw [List.getElem?_mapIdx, place?_eq_none_iff.2 hi]
  exact Option.map_id'

/-- Gathering gives back the scattered values. -/
theorem gather_scatter
    {values base : List β}
    (hvalues : values.length = p.permutedSize)
    (hbase : base.length = p.domainSize) :
    p.gather (p.scatter values base) = values := by
  apply gather_eq_of_getElem? _ hvalues
  · intro k i hk
    exact (getElem?_scatter_of_place hvalues hbase hk).symm
  · rw [length_scatter, hbase]

/-- If all indices are selected, scattering gives back the gathered list. -/
theorem IsTotal.scatter_gather
    (htotal : p.IsTotal)
    {base : List β}
    (hxs : xs.length = p.domainSize)
    (hbase : base.length = p.domainSize) :
    p.scatter (p.gather xs) base = xs := by
  apply List.ext_getElem?
  intro i
  by_cases hi : i < p.domainSize
  · have hmem : i ∈ p.inverse :=
      htotal.mem_iff.2 (List.mem_range.2 hi)
    obtain ⟨k, hk⟩ := List.mem_iff_getElem?.1 hmem
    rw [getElem?_scatter_of_place (length_gather hxs) hbase hk, getElem?_gather hxs hk]
  · rw [List.getElem?_eq_none, List.getElem?_eq_none]
    · omega
    · rw [length_scatter]
      omega

end Lists

section Blocks

variable {sizes : List ℕ}

theorem mem_blockEntries
    {i k : ℕ} :
    i ∈ blockEntries sizes k ↔
      totalSize (sizes.take k) ≤ i ∧ i < totalSize (sizes.take k) + sizes.getD k 0 := by
  unfold blockEntries
  exact List.mem_range'_1

/-- An entry belongs to one block only. -/
theorem eq_of_mem_blockEntries
    {i j k : ℕ}
    (hj : i ∈ blockEntries sizes j)
    (hk : i ∈ blockEntries sizes k) :
    j = k := by
  rw [mem_blockEntries, ← Vec.totalSize_take_succ] at hj hk
  by_contra hne
  rcases Nat.lt_or_gt_of_ne hne with hlt | hlt
  · have := Vec.totalSize_take_mono sizes (show j + 1 ≤ k from hlt)
    omega
  · have := Vec.totalSize_take_mono sizes (show k + 1 ≤ j from hlt)
    omega

theorem lt_totalSize_of_mem_blockEntries
    {i k : ℕ}
    (h : i ∈ blockEntries sizes k) :
    i < totalSize sizes := by
  rw [mem_blockEntries, ← Vec.totalSize_take_succ] at h
  have := Vec.totalSize_take_le sizes (k + 1)
  omega

/-- The permutation `q` of scalars moves the blocks of the given sizes as `p` does. -/
structure Expands (p : PartialPermutation) (sizes : List ℕ) (q : PartialPermutation) : Prop where
  length_sizes : sizes.length = p.domainSize
  domainSize_eq : q.domainSize = totalSize sizes
  inverse_eq : q.inverse = p.inverse.flatMap (blockEntries sizes)

/-- There is one such permutation. -/
theorem Expands.unique
    {p q q' : PartialPermutation} {sizes : List ℕ}
    (h : p.Expands sizes q)
    (h' : p.Expands sizes q') :
    q = q' := by
  cases q
  cases q'
  simp only [mk.injEq]
  exact ⟨h.domainSize_eq.trans h'.domainSize_eq.symm, h.inverse_eq.trans h'.inverse_eq.symm⟩

/-- A selection of indices without repetitions is accepted. -/
theorem ofSelected_natCast
    {size : ℕ} {selected : List ℕ}
    (hnodup : selected.Nodup)
    (hlt : ∀ i ∈ selected, i < size) :
    ofSelected size (selected.map fun (i : ℕ) => (i : ℤ)) =
      .ok ⟨size, selected, hnodup, hlt⟩ := by
  have hnat : (selected.map fun (i : ℕ) => (i : ℤ)).map Int.toNat = selected := by
    rw [List.map_map]
    exact (List.map_congr_left fun i _ => Int.toNat_natCast i).trans (List.map_id selected)
  have hfault : selectionFault? size [] (selected.map fun (i : ℕ) => (i : ℤ)) = none := by
    rw [selectionFault?_eq_none_iff]
    constructor
    · intro i hi
      obtain ⟨j, hj, rfl⟩ := List.mem_map.1 hi
      have := hlt j hj
      exact ⟨by omega, by omega, List.not_mem_nil⟩
    · exact hnodup.map fun _ _ h => Int.ofNat_inj.1 h
  unfold ofSelected
  rw [if_neg (by omega)]
  split
  · rename_i e he
    rw [Int.toNat_natCast, hfault] at he
    cases he
  · congr 1
    simp only [hnat, Int.toNat_natCast]

/-- Different indices of the domain are accepted. -/
theorem ofSelected_of_range
    {size : ℕ} {selected : List ℤ}
    (hnodup : selected.Nodup)
    (hrange : ∀ i ∈ selected, 0 ≤ i ∧ i < size) :
    ∃ q, ofSelected size selected = .ok q ∧ q.domainSize = size ∧
      q.inverse = selected.map Int.toNat := by
  have hcast : (selected.map Int.toNat).map (fun (i : ℕ) => (i : ℤ)) = selected := by
    rw [List.map_map]
    refine (List.map_congr_left fun i hi => ?_).trans (List.map_id selected)
    exact Int.toNat_of_nonneg (hrange i hi).1
  have hnodup' : (selected.map Int.toNat).Nodup := by
    apply List.Nodup.of_map fun (i : ℕ) => (i : ℤ)
    rwa [hcast]
  have hlt : ∀ k ∈ selected.map Int.toNat, k < size := by
    intro k hk
    obtain ⟨i, hi, rfl⟩ := List.mem_map.1 hk
    have := hrange i hi
    omega
  have haccept := ofSelected_natCast hnodup' hlt
  rw [hcast] at haccept
  exact ⟨_, haccept, rfl, rfl⟩

/-- An accepted selection is the list of selected indices. -/
theorem map_inverse_of_ofSelected
    {p : PartialPermutation} {size : ℤ} {selected : List ℤ}
    (h : ofSelected size selected = .ok p) :
    p.inverse.map (fun (i : ℕ) => (i : ℤ)) = selected := by
  unfold ofSelected at h
  split_ifs at h
  split at h
  · cases h
  · rename_i hfault
    cases h
    have hrange := ((selectionFault?_eq_none_iff _ _ _).1 hfault).1
    rw [List.map_map]
    refine (List.map_congr_left fun i hi => ?_).trans (List.map_id selected)
    exact Int.toNat_of_nonneg (hrange i hi).1

/-- A permutation of blocks can be expanded for any sizes of its blocks. -/
theorem expand_eq_ok
    {p : PartialPermutation}
    (h : sizes.length = p.domainSize) :
    ∃ q, p.expand (sizes.map fun (n : ℕ) => (n : ℤ)) = .ok q ∧ p.Expands sizes q := by
  have hcounts : (sizes.map fun (n : ℕ) => (n : ℤ)).map Int.toNat = sizes := by
    rw [List.map_map]
    exact (List.map_congr_left fun i _ => Int.toNat_natCast i).trans (List.map_id sizes)
  have hnegative : (sizes.map fun (n : ℕ) => (n : ℤ)).find? (· < 0) = none := by
    rw [List.find?_eq_none]
    intro n hn
    obtain ⟨k, -, rfl⟩ := List.mem_map.1 hn
    simp
  have hnodup : (p.inverse.flatMap (blockEntries sizes)).Nodup := by
    rw [List.nodup_flatMap]
    refine ⟨fun k _ => List.nodup_range', ?_⟩
    apply p.nodup_inverse.imp
    intro j k hne i hj hk
    exact hne (eq_of_mem_blockEntries hj hk)
  have hlt : ∀ i ∈ p.inverse.flatMap (blockEntries sizes), i < totalSize sizes := by
    intro i hi
    obtain ⟨k, -, hk⟩ := List.mem_flatMap.1 hi
    exact lt_totalSize_of_mem_blockEntries hk
  refine ⟨⟨totalSize sizes, _, hnodup, hlt⟩, ?_, ⟨h, rfl, rfl⟩⟩
  unfold expand
  rw [List.length_map, if_neg (not_not.2 h), hnegative]
  dsimp only
  rw [hcounts]
  exact ofSelected_natCast hnodup hlt

namespace Expands

variable {p q : PartialPermutation} {β γ : Type}

theorem filterMap_range'
    (x : List β) (start n : ℕ) :
    (List.range' start n).filterMap (x[·]?) = Vec.slice start n x := by
  induction n generalizing start with
  | zero =>
      simp [Vec.slice]
  | succ n ih =>
      rw [List.range'_succ, List.filterMap_cons, ih]
      by_cases h : start < x.length
      · rw [List.getElem?_eq_getElem h, Vec.slice, Vec.slice, List.drop_eq_getElem_cons h,
          List.take_succ_cons]
      · rw [List.getElem?_eq_none (by omega)]
        simp [Vec.slice, List.drop_eq_nil_of_le (by omega : x.length ≤ start),
          List.drop_eq_nil_of_le (by omega : x.length ≤ start + 1)]

theorem flatten_gather
    (p : PartialPermutation) (bs : List (List β)) :
    (p.gather bs).flatten = p.inverse.flatMap fun k => bs.getD k [] := by
  unfold gather
  induction p.inverse with
  | nil =>
      rfl
  | cons k l ih =>
      rw [List.filterMap_cons, List.flatMap_cons, ← ih, List.getD_eq_getElem?_getD]
      cases bs[k]? <;> rfl

/-- Gathering the entries of a list of parts is gathering the parts. -/
theorem gather_flatten
    (h : p.Expands sizes q)
    {bs : List (List β)}
    (hbs : bs.map List.length = sizes) :
    q.gather bs.flatten = (p.gather bs).flatten := by
  rw [flatten_gather]
  unfold gather
  rw [h.inverse_eq, List.filterMap_flatMap]
  congr 1
  funext k
  rw [blockEntries, filterMap_range', ← Vec.part_eq_slice, Vec.part_flatten hbs]

/-- The same for a list that has a part for each member of another list. -/
theorem gather_flatMap
    (h : p.Expands sizes q)
    {xs : List γ} {f : γ → List β}
    (hf : xs.map (fun x => (f x).length) = sizes) :
    q.gather (xs.flatMap f) = (p.gather xs).flatMap f := by
  rw [List.flatMap_def, List.flatMap_def, ← gather_map]
  apply h.gather_flatten
  rw [List.map_map]
  exact hf

/-- An entry of a block stands behind the blocks that are placed before. -/
theorem getElem?_inverse
    (h : p.Expands sizes q)
    {i j k : ℕ}
    (hk : p.inverse[k]? = some i)
    (hj : j < sizes.getD i 0) :
    q.inverse[((p.inverse.take k).map fun i => sizes.getD i 0).sum + j]? =
      some ((sizes.take i).sum + j) := by
  have hlength : ∀ i, (blockEntries sizes i).length = sizes.getD i 0 :=
    fun i => List.length_range'
  have hentry := Vec.getElem?_flatMap_of_lt (f := blockEntries sizes) hk (by rwa [hlength])
  simp only [hlength] at hentry
  rw [h.inverse_eq, hentry, blockEntries, List.getElem?_range' hj, Vec.totalSize_eq_sum,
    Nat.one_mul]

/-- The size of what is gathered. -/
theorem permutedSize_eq
    (h : p.Expands sizes q) :
    q.permutedSize = totalSize (p.gather sizes) := by
  rw [permutedSize, h.inverse_eq, gather_eq_map h.length_sizes 0, Vec.totalSize_eq_sum,
    List.length_flatMap]
  simp [blockEntries]

/-- All scalars are selected if all blocks are. -/
theorem isTotal
    (h : p.Expands sizes q)
    (htotal : p.IsTotal) :
    q.IsTotal := by
  unfold IsTotal
  rw [List.perm_ext_iff_of_nodup q.nodup_inverse List.nodup_range]
  intro i
  rw [List.mem_range]
  constructor
  · exact q.lt_domainSize i
  · intro hi
    rw [h.domainSize_eq] at hi
    have hblock : ∀ n, i < totalSize (sizes.take n) →
        ∃ k, k < n ∧ i ∈ blockEntries sizes k := by
      intro n hn
      induction n with
      | zero =>
          simp at hn
      | succ n ih =>
          by_cases hlt : i < totalSize (sizes.take n)
          · obtain ⟨k, hk, hmem⟩ := ih hlt
            exact ⟨k, by omega, hmem⟩
          · rw [Vec.totalSize_take_succ] at hn
            exact ⟨n, by omega, mem_blockEntries.2 ⟨by omega, hn⟩⟩
    obtain ⟨k, hk, hmem⟩ := hblock sizes.length (by rwa [List.take_length])
    rw [h.inverse_eq, List.mem_flatMap]
    refine ⟨k, htotal.mem_iff.2 (List.mem_range.2 ?_), hmem⟩
    rw [← h.length_sizes]
    exact hk

end Expands

end Blocks

section Real

variable [Threshold]

/-- What differs from a list by scattered values differs from it by scattered differences. -/
theorem sub_scatter
    {p : PartialPermutation} {values base : List ℝ}
    (hvalues : values.length = p.permutedSize)
    (hbase : base.length = p.domainSize) :
    Vec.sub (p.scatter values base) base =
      p.scatter (Vec.sub values (p.gather base)) (Vec.zero p.domainSize) := by
  have hgather := length_gather hbase
  have hdifference : (Vec.sub values (p.gather base)).length = p.permutedSize := by
    rw [Vec.length_sub, hvalues, hgather, Nat.min_self]
  apply List.ext_getElem?
  intro i
  rw [Vec.sub, List.getElem?_zipWith]
  by_cases hi : i ∈ p.inverse
  · obtain ⟨k, hk⟩ := List.mem_iff_getElem?.1 hi
    rw [getElem?_scatter_of_place hvalues hbase hk,
      getElem?_scatter_of_place hdifference (Vec.length_zero _) hk, Vec.sub,
      List.getElem?_zipWith, getElem?_gather hbase hk]
  · rw [getElem?_scatter_of_not_mem hi, getElem?_scatter_of_not_mem hi, Vec.zero,
      List.getElem?_replicate, ← hbase]
    split_ifs with hlt
    · rw [List.getElem?_eq_getElem hlt]
      simp
    · rw [List.getElem?_eq_none (by omega)]

/-- A sum over pairs of a list and a scattered list is the sum over the pairs of the gathered list
and the values, if the members of the base contribute nothing. -/
theorem sum_zipWith_scatter
    {β γ : Type}
    {p : PartialPermutation} {f : β → γ → ℝ} {xs : List β} {values base : List γ}
    (b : β) (c : γ)
    (hxs : xs.length = p.domainSize)
    (hvalues : values.length = p.permutedSize)
    (hbase : base.length = p.domainSize)
    (hzero : ∀ x, ∀ z ∈ base, f x z = 0) :
    (List.zipWith f xs (p.scatter values base)).sum =
      (List.zipWith f (p.gather xs) values).sum := by
  have hscattered : (p.scatter values base).length = p.domainSize := by
    rw [length_scatter, hbase]
  rw [Vec.sum_zipWith f b c hxs hscattered, Vec.sum_zipWith f b c (length_gather hxs) hvalues]
  have hsupport : p.inverse.toFinset ⊆ Finset.range p.domainSize := by
    intro i hi
    exact Finset.mem_range.2 (p.lt_domainSize i (List.mem_toFinset.1 hi))
  have hplaces : ∀ g : ℕ → ℝ,
      (p.inverse.map g).sum = ∑ k ∈ Finset.range p.permutedSize, g (p.inverse.getD k 0) := by
    intro g
    rw [← DenseMatrix.sumRange_eq, Vec.sumRange, Vec.sum_eq]
    congr 1
    apply List.ext_getElem
    · simp [permutedSize]
    · intro k h₁ h₂
      simp at h₁
      simp [List.getD_eq_getElem?_getD, h₁]
  rw [← Finset.sum_subset hsupport]
  · rw [List.sum_toFinset _ p.nodup_inverse, hplaces]
    apply Finset.sum_congr rfl
    intro k hk
    have hk' : p.inverse[k]? = some (p.inverse.getD k 0) := by
      have hlt : k < p.inverse.length :=
        Finset.mem_range.1 hk
      rw [List.getD_eq_getElem _ _ hlt, List.getElem?_eq_getElem hlt]
    simp only [List.getD_eq_getElem?_getD] at hk' ⊢
    rw [getElem?_scatter_of_place hvalues hbase hk', getElem?_gather hxs hk']
  · intro i hi hmem
    have hlt : i < base.length := by
      rw [hbase]
      exact Finset.mem_range.1 hi
    have hkept : (p.scatter values base).getD i c = base[i] := by
      rw [List.getD_eq_getElem?_getD, getElem?_scatter_of_not_mem fun h =>
        hmem (List.mem_toFinset.2 h), List.getElem?_eq_getElem hlt, Option.getD_some]
    rw [hkept]
    exact hzero _ _ (List.getElem_mem hlt)

/-- Scattering over zeros is the adjoint of gathering. -/
theorem dot_scatter
    {p : PartialPermutation} {w g : List ℝ}
    (hw : w.length = p.domainSize)
    (hg : g.length = p.permutedSize) :
    Vec.dot w (p.scatter g (Vec.zero p.domainSize)) = Vec.dot (p.gather w) g := by
  have hzero : ∀ x : ℝ, ∀ z ∈ (Vec.zero p.domainSize : List ℝ), x * z = 0 := by
    intro x z hz
    rw [Vec.zero, List.mem_replicate] at hz
    rw [hz.2, Exact.ofNat_zero, mul_zero]
  rw [Vec.dot, Vec.dot, Vec.sum_eq, Vec.sum_eq]
  exact sum_zipWith_scatter 0 0 hw hg (Vec.length_zero _) hzero

end Real

end PartialPermutation
end ConvexContact
