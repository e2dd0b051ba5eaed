import Mathlib
import ConvexContact.PartialPermutation.Tables
import ConvexContact.Proofs.Compositions
import ConvexContact.Proofs.IndexTables

/-!
# Expanding permutations of blocks

A permutation of blocks, expanded to the scalars in the blocks, moves every block as a whole.

**Entries.**  Entry `j` of a block goes behind the entries of the blocks that are placed before, and
is absent if the block is (`PartialPermutation.Expands.place?_eq`).

**Result.**  `IndexTables.expand_moves_blocks`: expanding never refuses its own selection, places all
entries in this way, and takes compositions to compositions and the identity to the identity.
-/

namespace ConvexContact

namespace PartialPermutation

/-- An entry of a block is placed behind the blocks that are placed before, if its block is. -/
theorem Expands.place?_eq
    {p q : PartialPermutation} {sizes : List ℕ} {i j : ℕ}
    (h : p.Expands sizes q)
    (hj : j < sizes.getD i 0) :
    q.place? ((sizes.take i).sum + j) =
      (p.place? i).map fun k => ((p.inverse.take k).map fun b => sizes.getD b 0).sum + j := by
  cases hi : p.place? i with
  | some k =>
      exact place?_eq_some_iff.2 (h.getElem?_inverse (place?_eq_some_iff.1 hi) hj)
  | none =>
      rw [Option.map_none, place?_eq_none_iff, h.inverse_eq, List.mem_flatMap]
      rintro ⟨b, hb, hentry⟩
      have hown : (sizes.take i).sum + j ∈ blockEntries sizes i := by
        rw [mem_blockEntries, Vec.totalSize_eq_sum]
        omega
      exact place?_eq_none_iff.1 hi (eq_of_mem_blockEntries hown hentry ▸ hb)

end PartialPermutation

namespace IndexTables

variable {p q : PartialPermutation} {sizes : List ℕ}

/-- The lookup of an index of the domain. -/
theorem findPermutedIndex_tables_natCast
    {i : ℕ}
    (hi : i < p.domainSize) :
    p.tables.findPermutedIndex i = .ok ((p.place? i).map fun (k : ℕ) => (k : ℤ)) := by
  rw [findPermutedIndex_tables, PartialPermutation.findPermutedIndex, if_neg (by omega)]
  rfl

/-- The tables of the expansion of a partial permutation. -/
theorem expand_tables_eq_ok
    (h : p.Expands sizes q) :
    p.tables.expand (sizes.map fun (n : ℕ) => (n : ℤ)) = .ok q.tables := by
  obtain ⟨q', hq', h'⟩ := PartialPermutation.expand_eq_ok h.length_sizes
  rw [expand_tables, hq', h'.unique h]
  rfl

/-- The tables of the composition of partial permutations. -/
theorem compose_tables_eq_ok
    {r : PartialPermutation}
    (h : p.Composes q r) :
    p.tables.compose q.tables = .ok r.tables := by
  rw [compose_tables, h.compose_eq]
  rfl

theorem identity_eq_ok
    (n : ℕ) :
    identity n = .ok (PartialPermutation.identity n).tables := by
  rw [identity_eq, PartialPermutation.ofSize, if_neg (by omega)]
  rfl

/-- The tables `u` move all entries of blocks of the given sizes as `t` moves the blocks. -/
structure MovesBlocks (t u : IndexTables) (sizes : List ℕ) : Prop where
  /-- Every entry of a block has an index, the entries of earlier blocks first. -/
  domainSize_eq : u.domainSize = sizes.sum
  /-- Entry `j` of a block that has a place goes behind the blocks that are placed before. -/
  placed : ∀ i j k : ℕ, j < sizes.getD i 0 → t.findPermutedIndex i = .ok (some (k : ℤ)) →
    u.findPermutedIndex ((sizes.take i).sum + j : ℕ) =
      .ok (some ((((t.inverse.take k).map fun b => sizes.getD b 0).sum + j : ℕ) : ℤ))
  /-- The entries of a block that is absent are absent. -/
  absent : ∀ i j : ℕ, j < sizes.getD i 0 → t.findPermutedIndex i = .ok none →
    u.findPermutedIndex ((sizes.take i).sum + j : ℕ) = .ok none
  /-- A composition is expanded to the composition of the expansions, the second of which is for the
  sizes of the selected blocks. -/
  compose : ∀ s, Obtained s → s.domainSize = t.permutedSize →
    ∃ c v w, t.compose s = .ok c ∧
      s.expand (t.inverse.map fun b => ((sizes.getD b 0 : ℕ) : ℤ)) = .ok v ∧
      c.expand (sizes.map fun (n : ℕ) => (n : ℤ)) = .ok w ∧
      u.compose v = .ok w

theorem movesBlocks_tables
    (h : p.Expands sizes q) :
    MovesBlocks p.tables q.tables sizes := by
  have hlookup : ∀ i j : ℕ, j < sizes.getD i 0 →
      p.tables.findPermutedIndex i = .ok ((p.place? i).map fun (k : ℕ) => (k : ℤ)) ∧
        q.tables.findPermutedIndex ((sizes.take i).sum + j : ℕ) =
          .ok ((q.place? ((sizes.take i).sum + j)).map fun (k : ℕ) => (k : ℤ)) := by
    intro i j hj
    have hi : i < p.domainSize := by
      by_contra hlarge
      rw [List.getD_eq_default _ _ (by rw [h.length_sizes]; omega)] at hj
      omega
    have hentry : (sizes.take i).sum + j < q.domainSize := by
      have hend := Vec.totalSize_take_le sizes (i + 1)
      rw [Vec.totalSize_take_succ, Vec.totalSize_eq_sum, ← h.domainSize_eq] at hend
      omega
    exact ⟨findPermutedIndex_tables_natCast hi, findPermutedIndex_tables_natCast hentry⟩
  constructor
  · rw [domainSize_tables, h.domainSize_eq, Vec.totalSize_eq_sum]
  · intro i j k hj hk
    obtain ⟨hblock, hentry⟩ := hlookup i j hj
    rw [hblock, Except.ok.injEq, Option.map_eq_some_iff] at hk
    obtain ⟨k', hk', heq⟩ := hk
    obtain rfl : k' = k :=
      Int.ofNat_inj.1 heq
    rw [hentry, h.place?_eq hj, hk']
    rfl
  · intro i j hj hi
    obtain ⟨hblock, hentry⟩ := hlookup i j hj
    rw [hblock, Except.ok.injEq, Option.map_eq_none_iff] at hi
    rw [hentry, h.place?_eq hj, hi]
    rfl
  · intro s hs hmid
    obtain ⟨r, rfl⟩ := hs.exists_eq_tables
    rw [domainSize_tables] at hmid
    have hselected : (p.gather sizes).length = r.domainSize := by
      rw [PartialPermutation.length_gather h.length_sizes, hmid]
      rfl
    obtain ⟨c, -, hc⟩ := PartialPermutation.compose_eq_ok hmid
    obtain ⟨v, -, hv⟩ := PartialPermutation.expand_eq_ok hselected
    obtain ⟨w, -, hw⟩ :=
      PartialPermutation.expand_eq_ok (h.length_sizes.trans hc.domainSize_eq.symm)
    have hsizes : p.tables.inverse.map (fun b => ((sizes.getD b 0 : ℕ) : ℤ)) =
        (p.gather sizes).map fun (n : ℕ) => (n : ℤ) := by
      rw [PartialPermutation.gather_eq_map h.length_sizes 0, List.map_map]
      rfl
    rw [hsizes]
    exact ⟨c.tables, v.tables, w.tables, compose_tables_eq_ok hc, expand_tables_eq_ok hv,
      expand_tables_eq_ok hw, compose_tables_eq_ok (hc.expands h hv hw)⟩

/-- **Expanding permutations of blocks.**  A permutation of blocks can be expanded for any sizes of
the blocks, empty ones included, and the expansion moves the blocks as a whole.  The identity is
expanded to the identity. -/
theorem expand_moves_blocks
    {t : IndexTables}
    (ht : Obtained t)
    {sizes : List ℕ}
    (hsizes : sizes.length = t.domainSize) :
    (∃ u, t.expand (sizes.map fun (n : ℕ) => (n : ℤ)) = .ok u ∧ MovesBlocks t u sizes) ∧
      ∃ e f, identity t.domainSize = .ok e ∧
        e.expand (sizes.map fun (n : ℕ) => (n : ℤ)) = .ok f ∧
        identity sizes.sum = .ok f := by
  obtain ⟨p, rfl⟩ := ht.exists_eq_tables
  constructor
  · rw [domainSize_tables] at hsizes
    obtain ⟨q, -, hq⟩ := PartialPermutation.expand_eq_ok hsizes
    exact ⟨q.tables, expand_tables_eq_ok hq, movesBlocks_tables hq⟩
  · rw [← hsizes, ← Vec.totalSize_eq_sum]
    exact ⟨_, _, identity_eq_ok _,
      expand_tables_eq_ok (PartialPermutation.expands_identity sizes), identity_eq_ok _⟩

/-- Four blocks, one of them empty and one of them absent, the others in the opposite order. -/
theorem expand_moves_blocks_opposite :
    let t : IndexTables := ⟨[2, -1, 1, 0], [3, 2, 0]⟩
    let sizes : List ℕ := [2, 1, 0, 3]
    Obtained t ∧ sizes.length = t.domainSize ∧
      (∃ u, t.expand (sizes.map fun (n : ℕ) => (n : ℤ)) = .ok u ∧ MovesBlocks t u sizes) ∧
      ∃ e f, identity t.domainSize = .ok e ∧
        e.expand (sizes.map fun (n : ℕ) => (n : ℤ)) = .ok f ∧
        identity sizes.sum = .ok f := by
  intro t sizes
  have ht : Obtained t :=
    .ofSelected (show ofSelected 4 ([3, 2, 0].map some) = .ok t from rfl)
  have hsizes : sizes.length = t.domainSize :=
    rfl
  exact ⟨ht, hsizes, expand_moves_blocks ht hsizes⟩

end IndexTables
end ConvexContact
