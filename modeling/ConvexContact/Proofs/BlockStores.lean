import Mathlib
import ConvexContact.BlockSparseMatrix.Store
import ConvexContact.Proofs.BlockSparse
import ConvexContact.Proofs.Outcomes

/-!
# Records of block-sparse matrices

**Records.**  A block-sparse matrix in use has the list of its blocks, a dictionary of their
positions and the positions of the blocks of each block row.  A call updates the three one after the
other.

**Invariant.**  All records are those of one list of blocks (`BlockStore.ofContents`), in which each
block has the shape of its place and no place occurs twice (`BlockStore.InStep`).

**Steps.**  A call on such records does to them what it does to the list
(`outcome_addBlock_ofContents`), or it is refused and changes nothing (`eq_of_perform_eq_error`).
So the records stay in step over sequences of calls (`InStep.of_after`), and each of them describes
the same blocks (`InStep.exists_block?_eq`, `InStep.rowBlocks_eq`).

**Order.**  Calls are all accepted if each adds a block and no place is used twice
(`InStep.accepts_iff`), which does not depend on their order (`InStep.accepts_of_perm`).
-/

namespace ConvexContact

namespace BlockStore

section Lookups

/-- A dictionary of the positions in a list gives the first position of a key. -/
theorem lookup_zipIdx
    {ι κ : Type} [BEq κ]
    (key : ι → κ) (a : κ) (xs : List ι) (n : ℕ) :
    ((xs.zipIdx n).map fun e => (key e.1, e.2)).lookup a =
      (xs.findIdx? fun x => a == key x).map (· + n) := by
  induction xs generalizing n with
  | nil =>
      rfl
  | cons x xs ih =>
      rw [List.zipIdx_cons, List.map_cons, List.lookup_cons, ih, List.findIdx?_cons]
      cases a == key x with
      | true =>
          simp
      | false =>
          simp [Option.map_map, Function.comp_def, Nat.add_assoc, Nat.add_comm 1]

/-- The entry at the first position with a property is the first entry with it. -/
theorem getElem?_findIdx?
    {ι : Type}
    (p : ι → Bool) (xs : List ι) :
    (xs.findIdx? p).bind (fun k => xs[k]?) = xs.find? p := by
  induction xs with
  | nil =>
      rfl
  | cons x xs ih =>
      rw [List.findIdx?_cons, List.find?_cons]
      cases p x with
      | true =>
          simp
      | false =>
          rw [← ih]
          cases xs.findIdx? p <;> simp

variable {α : Type}

theorem lookup_index
    (B : BlockSparseMatrix α) (i j : ℤ) :
    (ofContents B).index.lookup (i, j) =
      B.blocks.findIdx? fun b => (b.row : ℤ) = i ∧ (b.col : ℤ) = j := by
  have hlookup := lookup_zipIdx (fun b : Block α => ((b.row : ℤ), (b.col : ℤ))) (i, j) B.blocks 0
  have hkey : ∀ b : Block α, ((i, j) == ((b.row : ℤ), (b.col : ℤ))) =
      decide ((b.row : ℤ) = i ∧ (b.col : ℤ) = j) := by
    intro b
    rw [Bool.eq_iff_iff, beq_iff_eq, Prod.mk.injEq, decide_eq_true_eq, eq_comm,
      @eq_comm ℤ j]
  simp only [Nat.add_zero, Option.map_id', hkey] at hlookup
  exact hlookup

theorem isSome_lookup_index
    (B : BlockSparseMatrix α) (i j : ℤ) :
    ((ofContents B).index.lookup (i, j)).isSome = (B.block? i j).isSome := by
  rw [lookup_index, BlockSparseMatrix.block?, Option.isSome_map, List.findIdx?_isSome,
    ← List.isSome_find?]

theorem isSome_block?_iff
    {B : BlockSparseMatrix α} {i j : ℤ} :
    (B.block? i j).isSome ↔ ∃ b ∈ B.blocks, (b.row : ℤ) = i ∧ (b.col : ℤ) = j := by
  rw [BlockSparseMatrix.block?, Option.isSome_map, List.find?_isSome]
  simp only [decide_eq_true_eq]

/-- The dictionary gives the block that the list of all blocks has at a place. -/
@[simp] theorem block?_ofContents
    (B : BlockSparseMatrix α) (i j : ℤ) :
    (ofContents B).block? i j = .ok (B.block? i j) := by
  rw [block?, lookup_index, BlockSparseMatrix.block?, ← getElem?_findIdx?]
  cases hfound : B.blocks.findIdx? fun b => (b.row : ℤ) = i ∧ (b.col : ℤ) = j with
  | none =>
      rfl
  | some k =>
      obtain ⟨hk, -⟩ := List.findIdx?_eq_some_iff_getElem.1 hfound
      have hentry : entryAt? (ofContents B).blocks (k : ℤ) = .ok B.blocks[k] :=
        entryAt?_natCast (List.getElem?_eq_getElem hk)
      dsimp only
      rw [hentry]
      simp [hk]

/-- The positions of a block row give the blocks that the list of all blocks has in it. -/
theorem rowBlocks_ofContents
    (B : BlockSparseMatrix α) (i : ℤ) :
    (ofContents B).rowBlocks i =
      (B.rowBlocksAt i).map fun blocks => blocks.map fun b => (b.col, b.matrix) := by
  have hrow : ∀ r : ℕ,
      (((B.blocks.zipIdx.filter (·.1.row = r)).map Prod.snd).mapM fun (k : ℕ) => do
        let b ← entryAt? (ofContents B).blocks k
        .ok (b.col, b.matrix)) =
      (.ok ((B.rowBlocks r).map fun b => (b.col, b.matrix)) :
        Except Error (List (ℕ × DenseMatrix α))) := by
    intro r
    have hblocks : B.rowBlocks r =
        (B.blocks.zipIdx.filter (·.1.row = r)).map Prod.fst := by
      conv_lhs =>
        rw [BlockSparseMatrix.rowBlocks, ← List.zipIdx_map_fst 0 B.blocks, List.filter_map]
      rfl
    rw [hblocks, List.mapM_map, List.map_map]
    refine Outcome.mapM_eq_ok_map ?_
    rintro ⟨b, k⟩ hb
    have hentry := List.mem_zipIdx_iff_getElem?.1 (List.mem_filter.1 hb).1
    have hposition : entryAt? (ofContents B).blocks (k : ℤ) = .ok b :=
      entryAt?_natCast hentry
    simp only [Function.comp_apply, hposition, Outcome.ok_bind]
  rw [rowBlocks, BlockSparseMatrix.rowBlocksAt]
  change (entryAt? ((List.range B.blockRows.length).map _) i >>= _) = _
  rw [entryAt?_map]
  cases entryAt? (List.range B.blockRows.length) i with
  | error e =>
      rfl
  | ok r =>
      exact hrow r

theorem rowBlocks_natCast
    {B : BlockSparseMatrix α} {i : ℕ}
    (hi : i < B.blockRows.length) :
    (ofContents B).rowBlocks (i : ℤ) = .ok ((B.rowBlocks i).map fun b => (b.col, b.matrix)) := by
  rw [rowBlocks_ofContents, BlockSparseMatrix.rowBlocksAt,
    entryAt?_natCast (List.getElem?_range hi)]
  rfl

end Lookups

section Steps

variable {α : Type}

/-- The records with one more block. -/
def push (s : BlockStore α) (b : Block α) : BlockStore α :=
  { s with
    index := s.index ++ [(((b.row : ℤ), (b.col : ℤ)), s.blocks.length)]
    rowPositions := s.rowPositions.modify b.row (· ++ [s.blocks.length])
    blocks := s.blocks ++ [b] }

/-- Adding a block to the records is adding it to the list of all blocks. -/
theorem push_ofContents
    (B : BlockSparseMatrix α) (b : Block α) :
    (ofContents B).push b = ofContents { B with blocks := B.blocks ++ [b] } := by
  have hzip : (B.blocks ++ [b]).zipIdx = B.blocks.zipIdx ++ [(b, B.blocks.length)] := by
    rw [List.zipIdx_append]
    simp
  have hpositions : (ofContents B).rowPositions.modify b.row (· ++ [B.blocks.length]) =
      (ofContents { B with blocks := B.blocks ++ [b] }).rowPositions := by
    apply List.ext_getElem
    · simp [ofContents]
    · intro i h₁ h₂
      simp only [ofContents, List.getElem_modify, List.getElem_map, List.getElem_range, hzip,
        List.filter_append, List.map_append]
      by_cases hrow : b.row = i
      · rw [if_pos hrow]
        simp [hrow]
      · rw [if_neg hrow]
        simp [hrow]
  have hindex : (ofContents B).index ++ [(((b.row : ℤ), (b.col : ℤ)), B.blocks.length)] =
      (ofContents { B with blocks := B.blocks ++ [b] }).index := by
    simp only [ofContents, hzip, List.map_append, List.map_cons, List.map_nil]
  unfold push
  rw [show (ofContents B).blocks = B.blocks from rfl, hpositions, hindex]
  rfl

variable [Scalar α]

theorem outcome_addBlock
    (s : BlockStore α) (i j : ℤ) (t : Tensor α) :
    s.outcome (addBlock i j t) =
      if i < 0 ∨ s.blockRows.length ≤ i ∨ j < 0 ∨ s.blockCols.length ≤ j then
        (.error (.blockOutOfRange i j s.blockRows.length s.blockCols.length), s)
      else if (s.index.lookup (i, j)).isSome then
        (.error (.blockAlreadyAdded i.toNat j.toNat), s)
      else match s.blockOfShape i.toNat j.toNat t with
        | .error e => (.error e, s)
        | .ok A => (.ok (), s.push ⟨i.toNat, j.toNat, A⟩) := by
  unfold addBlock
  rw [outcome_bind, outcome_get]
  dsimp only
  by_cases houtside : i < 0 ∨ s.blockRows.length ≤ i ∨ j < 0 ∨ s.blockCols.length ≤ j
  · rw [if_pos houtside, if_pos houtside]
    rfl
  · rw [if_neg houtside, if_neg houtside]
    have hplace : (((i.toNat : ℕ) : ℤ), ((j.toNat : ℕ) : ℤ)) = (i, j) := by
      rw [Int.toNat_of_nonneg (by omega), Int.toNat_of_nonneg (by omega)]
    by_cases htaken : (s.index.lookup (i, j)).isSome
    · rw [if_pos htaken, outcome_bind, if_pos htaken]
      rfl
    · rw [if_neg htaken, if_neg htaken]
      cases s.blockOfShape i.toNat j.toNat t with
      | error e =>
          rfl
      | ok A =>
          simp only [push, hplace]
          rfl

/-- The list of all blocks is tested as the records are. -/
theorem addBlock_eq
    (B : BlockSparseMatrix α) (i j : ℤ) (t : Tensor α) :
    B.addBlock i j t =
      if i < 0 ∨ B.blockRows.length ≤ i ∨ j < 0 ∨ B.blockCols.length ≤ j then
        .error (.blockOutOfRange i j B.blockRows.length B.blockCols.length)
      else if (B.block? i j).isSome then .error (.blockAlreadyAdded i.toNat j.toNat)
      else ((ofContents B).blockOfShape i.toNat j.toNat t).map fun A =>
        { B with blocks := B.blocks ++ [⟨i.toNat, j.toNat, A⟩] } := by
  unfold BlockSparseMatrix.addBlock
  by_cases houtside : i < 0 ∨ (B.blockRows.length : ℤ) ≤ i ∨ j < 0 ∨ (B.blockCols.length : ℤ) ≤ j
  · rw [if_pos houtside]
    by_cases hnegative : i < 0 ∨ j < 0
    · exact if_pos hnegative
    · have hnone : B.blockRows[i.toNat]? = none ∨ B.blockCols[j.toNat]? = none := by
        simp only [List.getElem?_eq_none_iff]
        omega
      simp only [if_neg hnegative]
      rcases hnone with hnone | hnone
      · rw [hnone]
      · rw [hnone]
        cases B.blockRows[i.toNat]? <;> rfl
  · have hrow : i.toNat < B.blockRows.length := by
      omega
    have hcol : j.toNat < B.blockCols.length := by
      omega
    have hnonneg : ¬(i < 0 ∨ j < 0) := by
      omega
    have hrow' : entryAt? (ofContents B).blockRows (i.toNat : ℤ) = .ok B.blockRows[i.toNat] :=
      entryAt?_natCast (List.getElem?_eq_getElem hrow)
    have hcol' : entryAt? (ofContents B).blockCols (j.toNat : ℤ) = .ok B.blockCols[j.toNat] :=
      entryAt?_natCast (List.getElem?_eq_getElem hcol)
    rw [if_neg houtside, List.getElem?_eq_getElem hrow, List.getElem?_eq_getElem hcol, blockOfShape,
      hrow', Outcome.ok_bind, hcol', Outcome.ok_bind]
    simp only [if_neg hnonneg]
    by_cases hshape : t.shape = [B.blockRows[i.toNat], B.blockCols[j.toNat]]
    · simp only [if_pos hshape]
      cases t.matrix? <;> rfl
    · simp only [if_neg hshape]
      cases t.matrix? <;> rfl

/-- **Adding a block.**  The records have the outcome that the list of all blocks has, and stay as
they are if it is a refusal. -/
theorem outcome_addBlock_ofContents
    (B : BlockSparseMatrix α) (i j : ℤ) (t : Tensor α) :
    (ofContents B).outcome (addBlock i j t) =
      match B.addBlock i j t with
      | .error e => (.error e, ofContents B)
      | .ok B' => (.ok (), ofContents B') := by
  have hrows : (ofContents B).blockRows = B.blockRows :=
    rfl
  have hcols : (ofContents B).blockCols = B.blockCols :=
    rfl
  rw [outcome_addBlock, isSome_lookup_index, addBlock_eq, hrows, hcols]
  split_ifs
  · rfl
  · rfl
  · cases (ofContents B).blockOfShape i.toNat j.toNat t with
    | error e =>
        rfl
    | ok A =>
        exact congrArg _ (push_ofContents B _)

/-- A tensor is accepted if it has the shape of its place. -/
theorem blockOfShape_eq_ok_iff
    {s : BlockStore α} {i j : ℕ} {t : Tensor α} {A : DenseMatrix α}
    (hi : i < s.blockRows.length)
    (hj : j < s.blockCols.length) :
    s.blockOfShape i j t = .ok A ↔
      t.shape = [s.blockRows.getD i 0, s.blockCols.getD j 0] ∧ t.matrix? = some A := by
  rw [blockOfShape, entryAt?_getD hi 0, Outcome.ok_bind, entryAt?_getD hj 0, Outcome.ok_bind]
  generalize s.blockRows.getD i 0 = m, s.blockCols.getD j 0 = n
  by_cases hshape : t.shape = [m, n]
  · simp [Tensor.matrix?, hshape]
  · simp [hshape]

/-- A block that is accepted has the shape of its place. -/
theorem of_blockOfShape_eq_ok
    {s : BlockStore α} {i j : ℕ} {t : Tensor α} {A : DenseMatrix α}
    (hi : i < s.blockRows.length)
    (hj : j < s.blockCols.length)
    (h : s.blockOfShape i j t = .ok A) :
    A.numRows = s.blockRows.getD i 0 ∧ A.numCols = s.blockCols.getD j 0 := by
  obtain ⟨hshape, hmatrix⟩ := (blockOfShape_eq_ok_iff hi hj).1 h
  rw [Tensor.matrix?, hshape, Option.some.injEq] at hmatrix
  rw [← hmatrix]
  exact ⟨DenseMatrix.numRows_tabulate _ _ _ _, DenseMatrix.numCols_tabulate _ _ _ _⟩

/-- A block that is added has the shape of its place, which was free. -/
theorem of_addBlock_eq_ok
    {B B' : BlockSparseMatrix α} {i j : ℤ} {t : Tensor α}
    (h : B.addBlock i j t = .ok B') :
    ∃ b : Block α,
      B' = { B with blocks := B.blocks ++ [b] } ∧
        (b.row < B.blockRows.length ∧ b.col < B.blockCols.length ∧
          b.matrix.numRows = B.blockRows.getD b.row 0 ∧
          b.matrix.numCols = B.blockCols.getD b.col 0) ∧
        ∀ c ∈ B.blocks, c.place ≠ b.place := by
  rw [addBlock_eq] at h
  split_ifs at h with houtside htaken
  obtain ⟨A, hA, rfl⟩ := Outcome.map_eq_ok.1 h
  have hi : i.toNat < B.blockRows.length := by
    omega
  have hj : j.toNat < B.blockCols.length := by
    omega
  obtain ⟨hrows, hcols⟩ := of_blockOfShape_eq_ok hi hj hA
  refine ⟨⟨i.toNat, j.toNat, A⟩, rfl, ⟨hi, hj, hrows, hcols⟩, ?_⟩
  intro c hc heq
  obtain ⟨(hrow : c.row = i.toNat), (hcol : c.col = j.toNat)⟩ := Prod.mk.inj heq
  exact htaken (isSome_block?_iff.2 ⟨c, hc, by omega, by omega⟩)

end Steps

section Runs

variable {α : Type} [Scalar α]

/-- A call that is refused changes nothing. -/
theorem eq_of_perform_eq_error
    {s t : BlockStore α} {call : Call α} {e : Error}
    (h : s.outcome (perform call) = (.error e, t)) :
    t = s := by
  rw [perform, outcome_addBlock] at h
  split_ifs at h
  · cases h
    rfl
  · cases h
    rfl
  · cases hblock : s.blockOfShape call.row.toNat call.col.toNat call.block with
    | error e' =>
        rw [hblock] at h
        cases h
        rfl
    | ok A =>
        rw [hblock] at h
        cases h

omit [Scalar α] in
/-- Records that belong to one list of blocks, at most one for each place and of its shape. -/
structure InStep (s : BlockStore α) : Prop where
  eq_ofContents : s = ofContents s.contents
  regular : s.contents.Regular
  nodup_places : (s.contents.blocks.map Block.place).Nodup

variable {s : BlockStore α}

omit [Scalar α] in
theorem InStep.of_ofSizes
    {rows cols : List ℤ}
    (h : ofSizes rows cols = .ok s) :
    s.InStep := by
  unfold ofSizes at h
  split_ifs at h
  cases h
  refine ⟨?_, ?_, List.nodup_nil⟩
  · simp only [ofContents, contents, BlockStore.mk.injEq, true_and]
    refine ⟨rfl, ?_⟩
    rw [List.length_map, List.map_map]
    apply List.ext_getElem
    · simp
    · intro i h₁ h₂
      simp
  · intro b hb
    cases hb

/-- A call keeps the records in step. -/
theorem InStep.of_perform
    (hs : s.InStep)
    (call : Call α) :
    (s.outcome (perform call)).2.InStep := by
  obtain ⟨heq, hregular, hplaces⟩ := hs
  rw [heq, perform, outcome_addBlock_ofContents]
  cases hadd : s.contents.addBlock call.row call.col call.block with
  | error e =>
      exact ⟨rfl, hregular, hplaces⟩
  | ok B =>
      obtain ⟨b, rfl, hshape, hfree⟩ := of_addBlock_eq_ok hadd
      refine ⟨rfl, ?_, ?_⟩
      · intro c hc
        rcases List.mem_append.1 hc with hc | hc
        · exact hregular c hc
        · rw [List.mem_singleton.1 hc]
          exact hshape
      · change ((s.contents.blocks ++ [b]).map Block.place).Nodup
        rw [List.map_append, List.nodup_append]
        refine ⟨hplaces, List.nodup_singleton _, ?_⟩
        intro place hplace place' hplace'
        obtain ⟨c, hc, rfl⟩ := List.mem_map.1 hplace
        rw [List.map_singleton, List.mem_singleton] at hplace'
        rw [hplace']
        exact hfree c hc

/-- Sequences of calls keep the records in step. -/
theorem InStep.of_after
    (hs : s.InStep)
    (calls : List (Call α)) :
    (s.after calls).InStep := by
  induction calls generalizing s with
  | nil =>
      exact hs
  | cons call calls ih =>
      exact ih (hs.of_perform call)

/-- A call does not change the sizes of the blocks. -/
theorem sizes_perform
    (s : BlockStore α) (call : Call α) :
    (s.outcome (perform call)).2.blockRows = s.blockRows ∧
      (s.outcome (perform call)).2.blockCols = s.blockCols := by
  rw [perform, outcome_addBlock]
  split_ifs
  · exact ⟨rfl, rfl⟩
  · exact ⟨rfl, rfl⟩
  · cases s.blockOfShape call.row.toNat call.col.toNat call.block <;> exact ⟨rfl, rfl⟩

theorem sizes_after
    (s : BlockStore α) (calls : List (Call α)) :
    (s.after calls).blockRows = s.blockRows ∧ (s.after calls).blockCols = s.blockCols := by
  induction calls generalizing s with
  | nil =>
      exact ⟨rfl, rfl⟩
  | cons call calls ih =>
      obtain ⟨hrows, hcols⟩ := s.sizes_perform call
      obtain ⟨hrows', hcols'⟩ := ih (s.outcome (perform call)).2
      exact ⟨hrows'.trans hrows, hcols'.trans hcols⟩

end Runs

namespace InStep

variable {α : Type} {s : BlockStore α}

/-- The block at a place is the one that has it. -/
theorem find?_eq_some_iff
    (hs : s.InStep)
    {i j : ℤ} {b : Block α} :
    s.contents.blocks.find? (fun b => (b.row : ℤ) = i ∧ (b.col : ℤ) = j) = some b ↔
      b ∈ s.blocks ∧ (b.row : ℤ) = i ∧ (b.col : ℤ) = j := by
  constructor
  · intro h
    have hplace := List.find?_some h
    rw [decide_eq_true_eq] at hplace
    exact ⟨List.mem_of_find?_eq_some h, hplace⟩
  · rintro ⟨hb, hplace⟩
    cases hfound : s.contents.blocks.find? fun b => (b.row : ℤ) = i ∧ (b.col : ℤ) = j with
    | none =>
        rw [List.find?_eq_none] at hfound
        exact absurd (decide_eq_true hplace) (hfound b hb)
    | some c =>
        have hplace' := List.find?_some hfound
        rw [decide_eq_true_eq] at hplace'
        have hsame : c.place = b.place := by
          rw [Block.place, Block.place, Prod.mk.injEq]
          omega
        rw [List.inj_on_of_nodup_map hs.nodup_places (List.mem_of_find?_eq_some hfound) hb hsame]

/-- The dictionary has the blocks of the list of all blocks. -/
theorem exists_block?_eq
    (hs : s.InStep)
    (i j : ℤ) :
    ∃ found, s.block? i j = .ok found ∧
      ∀ A, found = some A ↔ ∃ b ∈ s.blocks, (b.row : ℤ) = i ∧ (b.col : ℤ) = j ∧ b.matrix = A := by
  refine ⟨s.contents.block? i j, ?_, ?_⟩
  · conv_lhs =>
      rw [hs.eq_ofContents]
    exact block?_ofContents s.contents i j
  · intro A
    rw [BlockSparseMatrix.block?, Option.map_eq_some_iff]
    simp only [hs.find?_eq_some_iff, and_assoc]

/-- The positions of a block row give the blocks that the list of all blocks has in it. -/
theorem rowBlocks_eq
    (hs : s.InStep)
    {i : ℕ}
    (hi : i < s.blockRows.length) :
    s.rowBlocks (i : ℤ) =
      .ok ((s.blocks.filter (·.row = i)).map fun b => (b.col, b.matrix)) := by
  conv_lhs =>
    rw [hs.eq_ofContents]
  exact rowBlocks_natCast hi

theorem block?_eq_ok_some_iff
    (hs : s.InStep)
    (b : Block α) :
    s.block? b.row b.col = .ok (some b.matrix) ↔ b ∈ s.blocks := by
  obtain ⟨found, hfound, hiff⟩ := hs.exists_block?_eq b.row b.col
  rw [hfound, Except.ok.injEq, hiff]
  constructor
  · rintro ⟨c, hc, hrow, hcol, hmatrix⟩
    obtain rfl : c = b := by
      cases c
      cases b
      simp_all
    exact hc
  · intro hb
    exact ⟨b, hb, rfl, rfl, rfl⟩

/-- Records with the same blocks at all places have the same blocks, up to their order. -/
theorem perm_blocks
    {t : BlockStore α}
    (hs : s.InStep)
    (ht : t.InStep)
    (h : ∀ i j, t.block? i j = s.block? i j) :
    t.blocks.Perm s.blocks := by
  refine (List.perm_ext_iff_of_nodup ht.nodup_places.of_map hs.nodup_places.of_map).2 ?_
  intro b
  exact (ht.block?_eq_ok_some_iff b).symm.trans (h b.row b.col ▸ hs.block?_eq_ok_some_iff b)

/-- Records with the same blocks, up to their order, have them at the same places. -/
theorem block?_eq_of_perm
    {t : BlockStore α}
    (hs : s.InStep)
    (ht : t.InStep)
    (h : t.blocks.Perm s.blocks)
    (i j : ℤ) :
    t.block? i j = s.block? i j := by
  obtain ⟨found, hfound, hiff⟩ := hs.exists_block?_eq i j
  obtain ⟨found', hfound', hiff'⟩ := ht.exists_block?_eq i j
  have heq : found' = found := by
    apply Option.ext
    intro A
    rw [hiff', hiff]
    simp only [h.mem_iff]
  rw [hfound, hfound', heq]

end InStep

section Reordering

variable {α : Type} [Scalar α]
variable {s t : BlockStore α} {call : Call α}

/-- The block that a call adds if its place is free. -/
def addition? (s : BlockStore α) (call : Call α) : Option (Block α) :=
  if call.row < 0 ∨ s.blockRows.length ≤ call.row ∨
      call.col < 0 ∨ s.blockCols.length ≤ call.col then none
  else match s.blockOfShape call.row.toNat call.col.toNat call.block with
    | .error _ => none
    | .ok A => some ⟨call.row.toNat, call.col.toNat, A⟩

omit [Scalar α] in
/-- A call offers a block: its place is inside the matrix, and the tensor has the shape of the place
and the entries of the block. -/
structure Offers (s : BlockStore α) (call : Call α) (b : Block α) : Prop where
  row_eq : call.row = b.row
  col_eq : call.col = b.col
  row_lt : b.row < s.blockRows.length
  col_lt : b.col < s.blockCols.length
  shape_eq : call.block.shape = [s.blockRows.getD b.row 0, s.blockCols.getD b.col 0]
  matrix_eq : call.block.matrix? = some b.matrix

theorem addition?_eq_some_iff
    {b : Block α} :
    s.addition? call = some b ↔ s.Offers call b := by
  unfold addition?
  by_cases houtside : call.row < 0 ∨ s.blockRows.length ≤ call.row ∨
      call.col < 0 ∨ s.blockCols.length ≤ call.col
  · rw [if_pos houtside]
    refine iff_of_false (by simp) ?_
    rintro ⟨hrow, hcol, hrow_lt, hcol_lt, -, -⟩
    omega
  · rw [if_neg houtside]
    have hi : call.row.toNat < s.blockRows.length := by
      omega
    have hj : call.col.toNat < s.blockCols.length := by
      omega
    have hiff := fun A => blockOfShape_eq_ok_iff (t := call.block) (A := A) hi hj
    constructor
    · intro h
      cases hblock : s.blockOfShape call.row.toNat call.col.toNat call.block with
      | error e =>
          rw [hblock] at h
          cases h
      | ok A =>
          rw [hblock] at h
          cases h
          obtain ⟨hshape, hmatrix⟩ := (hiff A).1 hblock
          refine ⟨?_, ?_, hi, hj, hshape, hmatrix⟩
          · change call.row = (call.row.toNat : ℤ)
            omega
          · change call.col = (call.col.toNat : ℤ)
            omega
    · obtain ⟨row, col, A⟩ := b
      rintro ⟨(hrow : call.row = row), (hcol : call.col = col), -, -, hshape, hmatrix⟩
      have hrow' : call.row.toNat = row := by
        omega
      have hcol' : call.col.toNat = col := by
        omega
      have hblock := (hiff A).2 (by rw [hrow', hcol']; exact ⟨hshape, hmatrix⟩)
      rw [hblock, hrow', hcol']

/-- The calls of a sequence that are accepted. -/
def accepted (s : BlockStore α) : List (Call α) → List (Call α)
  | [] => []
  | call :: calls =>
      match s.outcome (perform call) with
      | (.ok _, t) => call :: t.accepted calls
      | (.error _, t) => t.accepted calls

/-- All calls are accepted, one after the other. -/
def Accepts (s : BlockStore α) : List (Call α) → Prop
  | [] => True
  | call :: calls => ∃ t, s.outcome (perform call) = (.ok (), t) ∧ Accepts t calls

/-- A call is accepted if it adds a block at a free place. -/
theorem InStep.accepted_iff
    (hs : s.InStep) :
    s.outcome (perform call) = (.ok (), t) ↔
      ∃ b, s.addition? call = some b ∧ b.place ∉ s.blocks.map Block.place ∧ t = s.push b := by
  rw [perform, outcome_addBlock, addition?]
  by_cases houtside : call.row < 0 ∨ s.blockRows.length ≤ call.row ∨
      call.col < 0 ∨ s.blockCols.length ≤ call.col
  · simp [if_pos houtside]
  have htaken : ∀ A : DenseMatrix α,
      (s.index.lookup (call.row, call.col)).isSome ↔
        (Block.mk call.row.toNat call.col.toNat A).place ∈ s.blocks.map Block.place := by
    intro A
    rw [hs.eq_ofContents, isSome_lookup_index, isSome_block?_iff, List.mem_map]
    refine exists_congr fun b => and_congr_right fun _ => ?_
    rw [Block.place, Block.place, Prod.mk.injEq]
    dsimp only
    omega
  rw [if_neg houtside, if_neg houtside]
  cases s.blockOfShape call.row.toNat call.col.toNat call.block with
  | error e =>
      split_ifs <;> simp
  | ok A =>
      by_cases hlookup : (s.index.lookup (call.row, call.col)).isSome
      · have hmem := (htaken A).1 hlookup
        simp [if_pos hlookup, hmem, -List.mem_map]
      · have hmem := (htaken A).not.1 hlookup
        rw [if_neg hlookup]
        constructor
        · intro h
          exact ⟨_, rfl, hmem, (Prod.mk.inj h).2.symm⟩
        · rintro ⟨b, hb, -, rfl⟩
          cases hb
          rfl

/-- Calls are accepted if each of them adds a block and no two blocks have the same place. -/
theorem InStep.accepts_iff
    (hs : s.InStep)
    (calls : List (Call α)) :
    s.Accepts calls ↔
      (∀ call ∈ calls, (s.addition? call).isSome) ∧
        ((s.blocks ++ calls.filterMap s.addition?).map Block.place).Nodup := by
  induction calls generalizing s with
  | nil =>
      have hplaces : (s.blocks.map Block.place).Nodup :=
        hs.nodup_places
      simpa [Accepts] using hplaces
  | cons call calls ih =>
      rw [Accepts, List.forall_mem_cons]
      simp only [hs.accepted_iff]
      cases hb : s.addition? call with
      | none =>
          simp
      | some b =>
          have hnext : b.place ∉ s.blocks.map Block.place → (s.push b).InStep := by
            intro hfree
            have haccepted := hs.accepted_iff.2 ⟨b, hb, hfree, rfl⟩
            have hstep := hs.of_perform call
            rwa [haccepted] at hstep
          rw [List.filterMap_cons_some hb, List.append_cons]
          constructor
          · rintro ⟨t, ⟨b', hb', hfree, rfl⟩, hrest⟩
            obtain rfl : b = b' :=
              Option.some.inj hb'
            obtain ⟨hall, hnodup⟩ := (ih (hnext hfree)).1 hrest
            exact ⟨⟨rfl, hall⟩, hnodup⟩
          · rintro ⟨⟨-, hall⟩, hnodup⟩
            have hfree : b.place ∉ s.blocks.map Block.place := by
              rw [← List.append_cons, List.map_append, List.nodup_append] at hnodup
              exact fun hmem => hnodup.2.2 _ hmem _ List.mem_cons_self rfl
            exact ⟨s.push b, ⟨b, rfl, hfree, rfl⟩, (ih (hnext hfree)).2 ⟨hall, hnodup⟩⟩

/-- Calls that are accepted add their blocks in their order. -/
theorem InStep.blocks_after
    (hs : s.InStep)
    {calls : List (Call α)}
    (h : s.Accepts calls) :
    (s.after calls).blocks = s.blocks ++ calls.filterMap s.addition? := by
  induction calls generalizing s with
  | nil =>
      exact (List.append_nil _).symm
  | cons call calls ih =>
      obtain ⟨t, ht, hrest⟩ := h
      have hnext := hs.of_perform call
      obtain ⟨b, hb, -, rfl⟩ := hs.accepted_iff.1 ht
      rw [ht] at hnext
      rw [after, ht, ih hnext hrest, List.filterMap_cons_some hb, List.append_cons]
      rfl

/-- Without the calls that are refused, all calls are accepted and leave the same records. -/
theorem accepts_accepted
    (s : BlockStore α) (calls : List (Call α)) :
    s.Accepts (s.accepted calls) ∧ s.after (s.accepted calls) = s.after calls := by
  induction calls generalizing s with
  | nil =>
      exact ⟨trivial, rfl⟩
  | cons call calls ih =>
      rcases hcall : s.outcome (perform call) with ⟨e | _, t⟩
      · obtain rfl : t = s :=
          eq_of_perform_eq_error hcall
        rw [accepted, after, hcall]
        exact ih t
      · obtain ⟨haccepts, hafter⟩ := ih t
        rw [accepted, after, hcall]
        refine ⟨⟨t, hcall, haccepts⟩, ?_⟩
        rw [after, hcall]
        exact hafter

/-- The blocks that are added are those of the calls that are accepted. -/
theorem InStep.blocks_eq
    (hs : s.InStep)
    (calls : List (Call α)) :
    (s.after calls).blocks = s.blocks ++ (s.accepted calls).filterMap s.addition? := by
  obtain ⟨haccepts, hafter⟩ := s.accepts_accepted calls
  rw [← hafter, hs.blocks_after haccepts]

/-- Each call that is accepted offers the block that it adds. -/
theorem InStep.forall₂_offers
    (hs : s.InStep)
    (calls : List (Call α)) :
    List.Forall₂ s.Offers (s.accepted calls) ((s.accepted calls).filterMap s.addition?) := by
  obtain ⟨hall, -⟩ := (hs.accepts_iff _).1 (s.accepts_accepted calls).1
  generalize s.accepted calls = accepted at hall
  induction accepted with
  | nil =>
      exact .nil
  | cons call calls ih =>
      obtain ⟨b, hb⟩ := Option.isSome_iff_exists.1 (hall call List.mem_cons_self)
      rw [List.filterMap_cons_some hb]
      exact .cons (addition?_eq_some_iff.1 hb) (ih fun c hc => hall c (List.mem_cons_of_mem call hc))

/-- If the same calls are accepted, in some order, the same blocks are at all places. -/
theorem InStep.block?_after_of_perm
    (hs : s.InStep)
    {calls calls' : List (Call α)}
    (hperm : (s.accepted calls').Perm (s.accepted calls))
    (i j : ℤ) :
    (s.after calls').block? i j = (s.after calls).block? i j := by
  apply (hs.of_after calls).block?_eq_of_perm (hs.of_after calls')
  rw [hs.blocks_eq, hs.blocks_eq]
  exact (hperm.filterMap s.addition?).append_left s.blocks

/-- Calls that are accepted in one order are accepted in every order, and leave the same blocks. -/
theorem InStep.accepts_of_perm
    (hs : s.InStep)
    {calls calls' : List (Call α)}
    (h : s.Accepts calls)
    (hperm : calls'.Perm calls) :
    s.Accepts calls' ∧ (s.after calls').blocks.Perm (s.after calls).blocks := by
  obtain ⟨hall, hnodup⟩ := (hs.accepts_iff calls).1 h
  have hblocks : (s.blocks ++ calls'.filterMap s.addition?).Perm
      (s.blocks ++ calls.filterMap s.addition?) :=
    (hperm.filterMap s.addition?).append_left s.blocks
  have h' : s.Accepts calls' := by
    refine (hs.accepts_iff calls').2 ⟨fun call hcall => hall call (hperm.mem_iff.1 hcall), ?_⟩
    exact (hblocks.map Block.place).nodup_iff.2 hnodup
  rw [hs.blocks_after h, hs.blocks_after h']
  exact ⟨h', hblocks⟩

end Reordering

end BlockStore
end ConvexContact
