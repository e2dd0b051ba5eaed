import Mathlib
import ConvexContact.PartialPermutation.Tables.Rows
import ConvexContact.Proofs.Expansions
import ConvexContact.Proofs.Tensors
import ConvexContact.Scalar.Machine

/-!
# Moving the rows of tensors

The rows of a tensor are its sub-tensors along the first size.  Tables of a partial permutation
select rows and write them back.

**Tensors and their rows.**  A tensor whose entries are numbers of its format is determined by its
format, the shape of its rows and the list of its rows (`Tensor.ofSlices_slices`,
`Tensor.slices_ofSlices`).  This holds for machine numbers and for real numbers alike.

**Tables and lists.**  Selecting rows one after the other is gathering them, and writing rows one
after the other is scattering them (`IndexTables.write_eq_scatter`), so that moving the rows of a
tensor by tables is moving the list of its rows by the partial permutation.

**Result.**  `IndexTables.moves_rows`: selecting and writing back are inverse to each other and, in
exact arithmetic, adjoint; a composition moves rows as one permutation after the other does; and
compositions are associative and have identities.
-/

namespace ConvexContact

theorem Machine.round_round
    (format : Format) (x : Machine) :
    Scalar.round format (Scalar.round format x) = Scalar.round format x := by
  cases format <;> rfl

namespace Tensor

section Rows

variable {α : Type}
variable {t : Tensor α} {format : Format} {n : ℕ} {rest : List ℕ} {rows : List (List α)}

theorem length_slices
    (h : t.shape = n :: rest) :
    t.slices.length = n := by
  unfold slices
  rw [h]
  dsimp only
  rw [Vec.length_split, List.length_replicate]

theorem leadingSize_of_cons
    (h : t.shape = n :: rest) :
    t.leadingSize = .ok n := by
  unfold leadingSize
  rw [h]

/-- A tensor is cut into rows of equal size. -/
theorem slices_parts
    (h : t.shape = n :: rest) :
    t.slices.map List.length = List.replicate n (size rest) ∧ t.slices.flatten = t.entries := by
  have hlength : t.entries.length = totalSize (List.replicate n (size rest)) := by
    rw [t.length_entries, h, Vec.totalSize_eq_sum, List.sum_replicate, smul_eq_mul]
    rfl
  unfold slices
  rw [h]
  exact Vec.exists_parts hlength

variable [Scalar α]

/-- Every entry is a number of the format of the tensor. -/
def InFormat (t : Tensor α) : Prop :=
  ∀ e ∈ t.entries, Scalar.round t.format e = e

/-- Real numbers are numbers of every format. -/
theorem inFormat_of_unrounded
    [Unrounded α]
    (t : Tensor α) :
    t.InFormat :=
  fun e _ => Unrounded.round_eq t.format e

/-- Tensors of machine numbers are made of numbers of their format. -/
theorem inFormat_ofEntries
    (format : Format) (shape : List ℕ) (xs : List Machine) :
    (ofEntries format shape xs).InFormat := by
  intro e he
  rw [format_ofEntries]
  unfold ofEntries at he
  split_ifs at he with hsize
  · obtain ⟨x, -, rfl⟩ := List.mem_map.1 he
    exact Machine.round_round format x
  · obtain ⟨k, -, rfl⟩ := List.mem_map.1 he
    exact Machine.round_round format _

/-- A row of a tensor with entries in a format. -/
structure FitsRow (format : Format) (rest : List ℕ) (row : List α) : Prop where
  length_eq : row.length = size rest
  round_eq : ∀ e ∈ row, Scalar.round format e = e

theorem fitsRow_of_mem_slices
    (h : t.shape = n :: rest)
    (ht : t.InFormat)
    {row : List α} (hrow : row ∈ t.slices) :
    FitsRow t.format rest row := by
  obtain ⟨hsizes, hflatten⟩ := slices_parts h
  constructor
  · have hmem : row.length ∈ t.slices.map List.length :=
      List.mem_map_of_mem hrow
    rw [hsizes] at hmem
    exact List.eq_of_mem_replicate hmem
  · intro e he
    apply ht
    rw [← hflatten]
    exact List.mem_flatten.2 ⟨row, hrow, he⟩

@[simp] theorem shape_ofSlices
    (format : Format) (rest : List ℕ) (rows : List (List α)) :
    (ofSlices format rest rows).shape = rows.length :: rest :=
  shape_ofEntries _ _ _

@[simp] theorem format_ofSlices
    (format : Format) (rest : List ℕ) (rows : List (List α)) :
    (ofSlices format rest rows).format = format :=
  format_ofEntries _ _ _

theorem map_length_of_fit
    (h : ∀ row ∈ rows, FitsRow format rest row) :
    rows.map List.length = List.replicate rows.length (size rest) := by
  rw [List.eq_replicate_iff]
  refine ⟨List.length_map _, ?_⟩
  intro k hk
  obtain ⟨row, hrow, rfl⟩ := List.mem_map.1 hk
  exact (h row hrow).length_eq

/-- The entries of a tensor made of rows of one size are rounded. -/
theorem entries_ofSlices_eq_map
    (h : rows.map List.length = List.replicate rows.length (size rest)) :
    (ofSlices format rest rows).entries = rows.flatten.map (Scalar.round format) := by
  have hsize : rows.flatten.length = size (rows.length :: rest) := by
    rw [List.length_flatten, h, List.sum_replicate, smul_eq_mul]
    rfl
  unfold ofSlices ofEntries
  rw [dif_pos hsize]

/-- The rows of a tensor made of rows of one size are rounded. -/
theorem slices_ofSlices_eq_map
    (h : rows.map List.length = List.replicate rows.length (size rest)) :
    (ofSlices format rest rows).slices = rows.map (List.map (Scalar.round format)) := by
  unfold slices
  rw [shape_ofSlices]
  dsimp only
  rw [entries_ofSlices_eq_map h, Vec.split_map, Vec.split_flatten_of_sizes h]

theorem map_round_of_fit
    (h : ∀ row ∈ rows, FitsRow format rest row) :
    rows.map (List.map (Scalar.round format)) = rows := by
  refine (List.map_congr_left ?_).trans (List.map_id rows)
  intro row hrow
  exact (List.map_congr_left (h row hrow).round_eq).trans (List.map_id row)

/-- The entries of a tensor made of rows. -/
theorem entries_ofSlices
    (h : ∀ row ∈ rows, FitsRow format rest row) :
    (ofSlices format rest rows).entries = rows.flatten := by
  rw [entries_ofSlices_eq_map (map_length_of_fit h), List.map_flatten, map_round_of_fit h]

/-- The rows of a tensor made of rows. -/
theorem slices_ofSlices
    (h : ∀ row ∈ rows, FitsRow format rest row) :
    (ofSlices format rest rows).slices = rows := by
  rw [slices_ofSlices_eq_map (map_length_of_fit h), map_round_of_fit h]

/-- A tensor is made of its rows. -/
theorem ofSlices_slices
    (h : t.shape = n :: rest)
    (ht : t.InFormat) :
    ofSlices t.format rest t.slices = t := by
  have hfit : ∀ row ∈ t.slices, FitsRow t.format rest row :=
    fun row hrow => fitsRow_of_mem_slices h ht hrow
  apply eq_of_entries
  · rw [format_ofSlices]
  · rw [shape_ofSlices, length_slices h, h]
  · rw [entries_ofSlices hfit, (slices_parts h).2]

/-- The sum of the products of the entries of tensors of one shape. -/
theorem exists_sum_zipWith_mul
    [Threshold]
    {s t : Tensor ℝ}
    (h : s.shape = t.shape) :
    ∃ u, s.zipWith (· * ·) t = .ok u ∧ Vec.sum u.entries = Vec.dot s.entries t.entries := by
  have hlength : (List.zipWith (· * ·) s.entries t.entries).length = size s.shape := by
    rw [List.length_zipWith, s.length_entries, t.length_entries, ← h, Nat.min_self]
    rfl
  refine ⟨_, zipWith_of_shape_eq _ h, ?_⟩
  rw [entries_ofEntries _ hlength]
  rfl

end Rows

end Tensor

namespace PartialPermutation

variable {α : Type} [Scalar α]
variable {p : PartialPermutation} {x y base : Tensor α} {rest : List ℕ}

theorem mem_of_mem_scatter
    {β : Type} {values xs : List β} {a : β}
    (h : a ∈ p.scatter values xs) :
    a ∈ values ∨ a ∈ xs := by
  obtain ⟨i, hi⟩ := List.mem_iff_getElem?.1 h
  cases hx : xs[i]? with
  | none =>
      rw [List.getElem?_eq_none_iff.2 (by rw [length_scatter]; exact List.getElem?_eq_none_iff.1 hx)]
        at hi
      cases hi
  | some b =>
      rw [getElem?_scatter hx, Option.some_inj] at hi
      cases hplace : p.place? i with
      | none =>
          rw [hplace] at hi
          exact Or.inr (hi ▸ List.mem_of_getElem? hx)
      | some k =>
          rw [hplace] at hi
          change values.getD k b = a at hi
          rw [List.getD_eq_getElem?_getD] at hi
          cases hk : values[k]? with
          | none =>
              rw [hk] at hi
              exact Or.inr (hi ▸ List.mem_of_getElem? hx)
          | some c =>
              rw [hk] at hi
              exact Or.inl (hi ▸ List.mem_of_getElem? hk)

/-- Writing back what was gathered changes nothing. -/
theorem scatter_gather_self
    {β : Type} {xs : List β}
    (h : xs.length = p.domainSize) :
    p.scatter (p.gather xs) xs = xs := by
  apply List.ext_getElem?
  intro i
  by_cases hi : i ∈ p.inverse
  · obtain ⟨k, hk⟩ := List.mem_iff_getElem?.1 hi
    rw [getElem?_scatter_of_place (length_gather h) h hk, getElem?_gather h hk]
  · rw [getElem?_scatter_of_not_mem hi]

theorem apply_of_shape
    (hx : x.shape = p.domainSize :: rest) :
    p.apply x = .ok (Tensor.ofSlices x.format rest (p.gather x.slices)) := by
  unfold apply
  rw [Tensor.leadingSize_of_cons hx, Outcome.ok_bind, if_neg (not_not.2 rfl), hx, List.tail_cons]

/-- The rows over which nothing is written. -/
def zeroRows (p : PartialPermutation) (rest : List ℕ) : List (List α) :=
  List.replicate p.domainSize (List.replicate (Tensor.size rest) 0)

theorem length_zeroRows
    (p : PartialPermutation) (rest : List ℕ) :
    (p.zeroRows rest : List (List α)).length = p.domainSize :=
  List.length_replicate

theorem applyInverse_none_of_shape
    (hy : y.shape = p.permutedSize :: rest) :
    p.applyInverse y none =
      .ok (Tensor.ofSlices y.format rest (p.scatter y.slices (p.zeroRows rest))) := by
  unfold applyInverse
  rw [Tensor.leadingSize_of_cons hy, Outcome.ok_bind, if_neg (not_not.2 rfl), hy]
  rfl

theorem applyInverse_some_of_shape
    (hy : y.shape = p.permutedSize :: rest)
    (hbase : base.shape = p.domainSize :: rest)
    (hformat : base.format = y.format) :
    p.applyInverse y (some base) =
      .ok (Tensor.ofSlices y.format rest (p.scatter y.slices base.slices)) := by
  unfold applyInverse
  rw [Tensor.leadingSize_of_cons hy, Outcome.ok_bind, if_neg (not_not.2 rfl)]
  dsimp only
  rw [Tensor.leadingSize_of_cons hbase, Outcome.ok_bind, if_neg (not_not.2 rfl), if_neg, if_neg, hy,
    List.tail_cons]
  · rw [hy, hbase]
    simp [hformat]
  · rw [Tensor.rank, Tensor.rank, hy, hbase]
    simp

/-- A tensor is refused as base if it has another format. -/
theorem applyInverse_of_format_ne
    (hy : y.shape = p.permutedSize :: rest)
    (hbase : base.shape = p.domainSize :: rest)
    (hformat : base.format ≠ y.format) :
    p.applyInverse y (some base) = .error .operands := by
  unfold applyInverse
  rw [Tensor.leadingSize_of_cons hy, Outcome.ok_bind, if_neg (not_not.2 rfl)]
  dsimp only
  rw [Tensor.leadingSize_of_cons hbase, Outcome.ok_bind, if_neg (not_not.2 rfl), if_neg,
    if_pos (Or.inl hformat)]
  rw [Tensor.rank, Tensor.rank, hy, hbase]
  simp

section Laws

open Tensor

variable {format : Format} {values rows : List (List α)}

theorem fit_gather
    (h : ∀ row ∈ rows, FitsRow format rest row) :
    ∀ row ∈ p.gather rows, FitsRow format rest row :=
  fun row hrow => h row (mem_of_mem_gather hrow)

theorem fit_scatter
    (hvalues : ∀ row ∈ values, FitsRow format rest row)
    (hrows : ∀ row ∈ rows, FitsRow format rest row) :
    ∀ row ∈ p.scatter values rows, FitsRow format rest row :=
  fun row hrow => (mem_of_mem_scatter hrow).elim (hvalues row) (hrows row)

/-- Rows over zeros have the size of the rows. -/
theorem map_length_scatter_zeroRows
    (hvalues : ∀ row ∈ values, FitsRow format rest row) :
    (p.scatter values (p.zeroRows rest)).map List.length =
      List.replicate (p.scatter values (p.zeroRows rest)).length (size rest) := by
  rw [List.eq_replicate_iff]
  refine ⟨List.length_map _, ?_⟩
  intro k hk
  obtain ⟨row, hrow, rfl⟩ := List.mem_map.1 hk
  rcases mem_of_mem_scatter hrow with hvalue | hzero
  · exact (hvalues row hvalue).length_eq
  · rw [List.eq_of_mem_replicate hzero, List.length_replicate]

variable (hx : x.shape = p.domainSize :: rest) (hxf : x.InFormat)
variable (hy : y.shape = p.permutedSize :: rest) (hyf : y.InFormat)

include hx hxf hy hyf in
/-- Rows that were written are selected again. -/
theorem applyInverse_some_apply
    (hformat : x.format = y.format) :
    (p.applyInverse y (some x) >>= p.apply) = .ok y := by
  have hfit : ∀ row ∈ p.scatter y.slices x.slices, FitsRow y.format rest row :=
    fit_scatter (fun row => fitsRow_of_mem_slices hy hyf)
      (fun row hrow => hformat ▸ fitsRow_of_mem_slices hx hxf hrow)
  have hshape : (ofSlices y.format rest (p.scatter y.slices x.slices)).shape =
      p.domainSize :: rest := by
    rw [shape_ofSlices, length_scatter, length_slices hx]
  rw [applyInverse_some_of_shape hy hx hformat, Outcome.ok_bind, apply_of_shape hshape,
    format_ofSlices, slices_ofSlices hfit, gather_scatter (length_slices hy) (length_slices hx),
    ofSlices_slices hy hyf]

include hy hyf in
/-- Rows that were written over zeros are selected again. -/
theorem applyInverse_none_apply :
    (p.applyInverse y none >>= p.apply) = .ok y := by
  have hfit : ∀ row ∈ y.slices, FitsRow y.format rest row :=
    fun row => fitsRow_of_mem_slices hy hyf
  have hshape : (ofSlices y.format rest (p.scatter y.slices (p.zeroRows rest))).shape =
      p.domainSize :: rest := by
    rw [shape_ofSlices, length_scatter, length_zeroRows]
  rw [applyInverse_none_of_shape hy, Outcome.ok_bind, apply_of_shape hshape, format_ofSlices,
    slices_ofSlices_eq_map (map_length_scatter_zeroRows hfit), gather_map,
    gather_scatter (length_slices hy) (p.length_zeroRows rest), map_round_of_fit hfit,
    ofSlices_slices hy hyf]

include hx hxf in
/-- What is selected of a tensor has the format of the tensor, and its slices are the gathered
ones. -/
theorem exists_apply :
    ∃ rows, p.apply x = .ok rows ∧ rows.shape = p.permutedSize :: rest ∧
      rows.format = x.format ∧ rows.slices = p.gather x.slices := by
  refine ⟨_, apply_of_shape hx, ?_, format_ofSlices _ _ _,
    slices_ofSlices (fit_gather fun row => fitsRow_of_mem_slices hx hxf)⟩
  rw [shape_ofSlices, length_gather (length_slices hx)]

include hx hxf in
/-- Writing selected rows back over the tensor that they come from changes nothing. -/
theorem apply_applyInverse :
    (p.apply x >>= fun rows => p.applyInverse rows (some x)) = .ok x := by
  obtain ⟨rows, happly, hshape, hformat, hslices⟩ := exists_apply hx hxf
  rw [happly, Outcome.ok_bind, applyInverse_some_of_shape hshape hx hformat.symm, hformat, hslices,
    scatter_gather_self (length_slices hx), ofSlices_slices hx hxf]

variable {q r : PartialPermutation} {z : Tensor α}

include hx hxf in
/-- Selecting rows by a composition is selecting twice. -/
theorem Composes.apply_eq
    (h : p.Composes q r) :
    r.apply x = p.apply x >>= q.apply := by
  obtain ⟨rows, happly, hshape, hformat, hslices⟩ := exists_apply hx hxf
  rw [← h.domainSize_mid] at hshape
  rw [apply_of_shape (p := r) (by rw [hx, h.domainSize_eq]), happly, Outcome.ok_bind,
    apply_of_shape hshape, hformat, hslices, h.gather_eq (length_slices hx)]

include hx hxf in
/-- Writing rows by a composition is writing them over the rows that the first permutation selects,
and those over the tensor. -/
theorem Composes.applyInverse_eq
    (h : p.Composes q r)
    (hz : z.shape = q.permutedSize :: rest)
    (hzf : z.InFormat) :
    r.applyInverse z (some x) =
      p.apply x >>= fun rows => q.applyInverse z (some rows) >>= fun rows =>
        p.applyInverse rows (some x) := by
  have hzr : z.shape = r.permutedSize :: rest := by
    rw [hz, h.permutedSize_eq]
  have hxr : x.shape = r.domainSize :: rest := by
    rw [hx, h.domainSize_eq]
  obtain ⟨rows, happly, hmid, hrows, hslices⟩ := exists_apply hx hxf
  rw [← h.domainSize_mid] at hmid
  rw [happly, Outcome.ok_bind]
  by_cases hformat : x.format = z.format
  · have hwritten : ∀ row ∈ q.scatter z.slices (p.gather x.slices), FitsRow z.format rest row :=
      fit_scatter (fun row => fitsRow_of_mem_slices hz hzf)
        (hformat ▸ fit_gather fun row => fitsRow_of_mem_slices hx hxf)
    have hshape : (ofSlices z.format rest (q.scatter z.slices (p.gather x.slices))).shape =
        p.permutedSize :: rest := by
      rw [shape_ofSlices, length_scatter, length_gather (length_slices hx)]
    rw [applyInverse_some_of_shape hzr hxr hformat,
      applyInverse_some_of_shape hz hmid (hrows.trans hformat), hslices, Outcome.ok_bind,
      applyInverse_some_of_shape hshape hx (hformat.trans (format_ofSlices _ _ _).symm),
      format_ofSlices, slices_ofSlices hwritten, h.scatter_eq (length_slices hx)]
  · rw [applyInverse_of_format_ne hzr hxr hformat,
      applyInverse_of_format_ne hz hmid (by rwa [hrows])]
    rfl

end Laws

end PartialPermutation

namespace IndexTables

variable {α : Type} [Scalar α]

section Writing

variable {β : Type}

theorem getElem?_write_of_not_mem
    {positions : List ℕ} {i : ℕ}
    (hi : i ∉ positions)
    (values base : List β) :
    (write positions values base)[i]? = base[i]? := by
  induction positions generalizing values base with
  | nil =>
      rfl
  | cons j positions ih =>
      rw [List.mem_cons, not_or] at hi
      cases values with
      | nil =>
          rfl
      | cons x values =>
          rw [write, ih hi.2, List.getElem?_set_ne (Ne.symm hi.1)]

theorem getElem?_write
    {positions : List ℕ} {values base : List β} {i k : ℕ}
    (hnodup : positions.Nodup)
    (hlength : values.length = positions.length)
    (hk : positions[k]? = some i)
    (hi : i < base.length) :
    (write positions values base)[i]? = values[k]? := by
  induction positions generalizing values base k with
  | nil =>
      cases hk
  | cons j positions ih =>
      obtain ⟨hj, hnodup⟩ := List.nodup_cons.1 hnodup
      cases values with
      | nil =>
          cases hlength
      | cons x values =>
          rw [write]
          cases k with
          | zero =>
              cases hk
              rw [getElem?_write_of_not_mem hj, List.getElem?_set_self hi]
              rfl
          | succ k =>
              exact ih hnodup (Nat.succ.inj hlength) hk (by rwa [List.length_set])

/-- Writing values to the selected indices one after the other is scattering them. -/
theorem write_eq_scatter
    {p : PartialPermutation} {values base : List β}
    (hvalues : values.length = p.permutedSize)
    (hbase : base.length = p.domainSize) :
    write p.inverse values base = p.scatter values base := by
  apply List.ext_getElem?
  intro i
  by_cases hi : i ∈ p.inverse
  · obtain ⟨k, hk⟩ := List.mem_iff_getElem?.1 hi
    have hlt : i < base.length :=
      (p.lt_domainSize i hi).trans_eq hbase.symm
    rw [getElem?_write p.nodup_inverse hvalues hk hlt,
      PartialPermutation.getElem?_scatter_of_place hvalues hbase hk]
  · rw [getElem?_write_of_not_mem hi, PartialPermutation.getElem?_scatter_of_not_mem hi]

end Writing

section Transfer

variable (p : PartialPermutation) (x y : Tensor α)

/-- Selecting rows by tables. -/
theorem apply_tables :
    p.tables.apply x = p.apply x := by
  unfold apply PartialPermutation.apply
  rw [domainSize_tables]
  cases hx : x.shape with
  | nil =>
      simp only [Tensor.leadingSize, hx]
      rfl
  | cons n rest =>
      rw [Tensor.leadingSize_of_cons hx, Outcome.ok_bind, Outcome.ok_bind]
      by_cases hn : n = p.domainSize
      · have hlength : x.slices.length = p.domainSize :=
          (Tensor.length_slices hx).trans hn
        have hrows : p.inverse.mapM (fun (i : ℕ) => entryAt? x.slices i) =
            .ok (p.gather x.slices) := by
          rw [PartialPermutation.gather_eq_map hlength []]
          refine Outcome.mapM_eq_ok_map ?_
          intro i hi
          exact entryAt?_getD ((p.lt_domainSize i hi).trans_eq hlength.symm) []
        rw [if_neg (not_not.2 hn), if_neg (not_not.2 hn)]
        change (p.inverse.mapM _ >>= _) = _
        rw [hrows]
        rfl
      · rw [if_pos hn, if_pos hn]

/-- Writing rows back by tables. -/
theorem applyInverse_tables
    (base? : Option (Tensor α)) :
    p.tables.applyInverse y base? = p.applyInverse y base? := by
  unfold applyInverse PartialPermutation.applyInverse
  cases hy : y.shape with
  | nil =>
      simp only [Tensor.leadingSize, hy]
      rfl
  | cons m rest =>
      rw [Tensor.leadingSize_of_cons hy, Outcome.ok_bind, Outcome.ok_bind]
      change (if m ≠ p.permutedSize then _ else _) = _
      by_cases hm : m = p.permutedSize
      · have hvalues : y.slices.length = p.permutedSize :=
          (Tensor.length_slices hy).trans hm
        rw [if_neg (not_not.2 hm), if_neg (not_not.2 hm)]
        unfold baseRows
        rw [domainSize_tables, hy, List.tail_cons]
        cases base? with
        | none =>
            have hwrite : write p.inverse y.slices (p.zeroRows rest) =
                p.scatter y.slices (p.zeroRows rest) :=
              write_eq_scatter hvalues (p.length_zeroRows rest)
            exact congrArg (fun rows => Except.ok (Tensor.ofSlices y.format rest rows)) hwrite
        | some base =>
            cases hbase : base.shape with
            | nil =>
                simp only [Tensor.leadingSize, hbase]
                rfl
            | cons n rest' =>
                dsimp only
                rw [Tensor.leadingSize_of_cons hbase, Outcome.ok_bind, Outcome.ok_bind]
                split_ifs with hn hrank hfit
                · rfl
                · rfl
                · rfl
                · have hwrite := write_eq_scatter (p := p) hvalues
                    ((Tensor.length_slices hbase).trans (not_not.1 hn))
                  exact congrArg (fun rows => Except.ok (Tensor.ofSlices y.format rest rows)) hwrite
      · rw [if_pos hm, if_pos hm]
        rfl

end Transfer

section Laws

/-- The rows of `x`, one for each index, are moved to places and those of `y`, one for each place,
are written back. -/
structure MovesRows (t : IndexTables) (x y : Tensor α) : Prop where
  /-- Rows that were written are selected again. -/
  select_written : (t.applyInverse y (some x) >>= t.apply) = .ok y
  /-- So are rows that were written over zeros. -/
  select_written_zero : (t.applyInverse y none >>= t.apply) = .ok y
  /-- Writing back the selected rows changes nothing. -/
  write_selected : (t.apply x >>= fun rows => t.applyInverse rows (some x)) = .ok x
  /-- Rows at absent indices are kept. -/
  kept : ∃ z, t.applyInverse y (some x) = .ok z ∧ z.format = x.format ∧ z.shape = x.shape ∧
    ∀ i : ℕ, t.participates i = .ok false → z.slices[i]? = x.slices[i]?
  /-- They are zero if there are none to keep. -/
  zero : ∃ z, t.applyInverse y none = .ok z ∧ z.format = y.format ∧ z.shape = x.shape ∧
    ∀ i : ℕ, t.participates i = .ok false →
      z.slices[i]? = some (List.replicate (Tensor.size x.shape.tail) (Scalar.round y.format 0))

/-- An index that is in the domain and absent. -/
theorem not_mem_of_participates_tables
    {p : PartialPermutation} {i : ℕ}
    (h : p.tables.participates i = .ok false) :
    i < p.domainSize ∧ i ∉ p.inverse := by
  rw [participates_tables, PartialPermutation.participates, Outcome.map_eq_ok] at h
  obtain ⟨place, hplace, hnone⟩ := h
  unfold PartialPermutation.findPermutedIndex at hplace
  split_ifs at hplace with hi
  cases hplace
  rw [Option.isSome_eq_false_iff, Option.isNone_iff_eq_none] at hnone
  exact ⟨by omega, PartialPermutation.place?_eq_none_iff.1 hnone⟩

theorem movesRows_tables
    {p : PartialPermutation} {x y : Tensor α} {rest : List ℕ}
    (hx : x.shape = p.domainSize :: rest)
    (hxf : x.InFormat)
    (hy : y.shape = p.permutedSize :: rest)
    (hyf : y.InFormat)
    (hformat : x.format = y.format) :
    MovesRows p.tables x y := by
  have hxfit : ∀ row ∈ x.slices, Tensor.FitsRow y.format rest row :=
    fun row hrow => hformat ▸ Tensor.fitsRow_of_mem_slices hx hxf hrow
  have hyfit : ∀ row ∈ y.slices, Tensor.FitsRow y.format rest row :=
    fun row => Tensor.fitsRow_of_mem_slices hy hyf
  have happly : p.tables.apply (α := α) = p.apply :=
    funext (apply_tables p)
  constructor
  · rw [applyInverse_tables, happly,
      PartialPermutation.applyInverse_some_apply hx hxf hy hyf hformat]
  · rw [applyInverse_tables, happly, PartialPermutation.applyInverse_none_apply hy hyf]
  · simp only [applyInverse_tables]
    rw [happly, PartialPermutation.apply_applyInverse hx hxf]
  · rw [applyInverse_tables, PartialPermutation.applyInverse_some_of_shape hy hx hformat]
    refine ⟨_, rfl, ?_, ?_, ?_⟩
    · rw [Tensor.format_ofSlices, hformat]
    · rw [Tensor.shape_ofSlices, PartialPermutation.length_scatter, Tensor.length_slices hx, hx]
    · intro i hi
      rw [Tensor.slices_ofSlices (PartialPermutation.fit_scatter hyfit hxfit),
        PartialPermutation.getElem?_scatter_of_not_mem (not_mem_of_participates_tables hi).2]
  · rw [applyInverse_tables, PartialPermutation.applyInverse_none_of_shape hy]
    refine ⟨_, rfl, Tensor.format_ofSlices _ _ _, ?_, ?_⟩
    · rw [Tensor.shape_ofSlices, PartialPermutation.length_scatter,
        PartialPermutation.length_zeroRows, hx]
    · intro i hi
      obtain ⟨hlt, hmem⟩ := not_mem_of_participates_tables hi
      rw [Tensor.slices_ofSlices_eq_map (PartialPermutation.map_length_scatter_zeroRows hyfit),
        List.getElem?_map, PartialPermutation.getElem?_scatter_of_not_mem hmem,
        PartialPermutation.zeroRows, List.getElem?_replicate, if_pos hlt, hx, List.tail_cons]
      exact congrArg some List.map_replicate

/-- In exact arithmetic selecting rows and writing them back over zeros are adjoint. -/
theorem adjoint_tables
    [Threshold]
    {p : PartialPermutation} {x y : Tensor ℝ} {rest : List ℕ}
    (hx : x.shape = p.domainSize :: rest)
    (hy : y.shape = p.permutedSize :: rest) :
    ∃ g z left right,
      p.tables.apply x = .ok g ∧ p.tables.applyInverse y none = .ok z ∧
        g.zipWith (· * ·) y = .ok left ∧ x.zipWith (· * ·) z = .ok right ∧
        Vec.sum left.entries = Vec.sum right.entries := by
  have hxfit : ∀ row ∈ x.slices, Tensor.FitsRow x.format rest row :=
    fun row => Tensor.fitsRow_of_mem_slices hx (Tensor.inFormat_of_unrounded x)
  have hyfit : ∀ row ∈ y.slices, Tensor.FitsRow y.format rest row :=
    fun row => Tensor.fitsRow_of_mem_slices hy (Tensor.inFormat_of_unrounded y)
  have hselected := PartialPermutation.fit_gather (p := p) hxfit
  have hwritten := PartialPermutation.map_length_scatter_zeroRows (p := p) hyfit
  have hxrows := Tensor.slices_parts hx
  have hyrows := Tensor.slices_parts hy
  have hgather := PartialPermutation.length_gather (Tensor.length_slices hx)
  -- both sums are sums of inner products of rows
  obtain ⟨left, hleft, hsumLeft⟩ := Tensor.exists_sum_zipWith_mul
    (s := Tensor.ofSlices x.format rest (p.gather x.slices)) (t := y)
    (by rw [Tensor.shape_ofSlices, hgather, hy])
  obtain ⟨right, hright, hsumRight⟩ := Tensor.exists_sum_zipWith_mul
    (s := x) (t := Tensor.ofSlices y.format rest (p.scatter y.slices (p.zeroRows rest)))
    (by rw [Tensor.shape_ofSlices, PartialPermutation.length_scatter,
      PartialPermutation.length_zeroRows, hx])
  refine ⟨_, _, left, right, ?_, ?_, hleft, hright, ?_⟩
  · rw [apply_tables, PartialPermutation.apply_of_shape hx]
  · rw [applyInverse_tables, PartialPermutation.applyInverse_none_of_shape hy]
  · have hzero : ∀ row : List ℝ, ∀ z ∈ (p.zeroRows rest : List (List ℝ)), Vec.dot row z = 0 := by
      intro row z hz
      rw [List.eq_of_mem_replicate hz]
      exact Vec.dot_zero_right row _
    have hadjoint := PartialPermutation.sum_zipWith_scatter (f := Vec.dot) [] []
      (Tensor.length_slices hx) (Tensor.length_slices hy) (p.length_zeroRows rest) hzero
    rw [hsumLeft, hsumRight, Tensor.entries_ofSlices hselected,
      Tensor.entries_ofSlices_eq_map hwritten, Unrounded.round_eq_id, List.map_id, ← hyrows.2,
      ← hxrows.2, Vec.dot_flatten, Vec.dot_flatten, hadjoint]
    · rw [hxrows.1, hwritten, PartialPermutation.length_scatter,
        PartialPermutation.length_zeroRows]
    · rw [hyrows.1, Tensor.map_length_of_fit hselected, hgather]

/-- The tables `c` move indices and rows as `s` does after `t`. -/
structure MovesTwice (t s c : IndexTables) : Prop where
  /-- The place of an index is the place of its place; it is absent if either is. -/
  lookup : ∀ i : ℤ, c.findPermutedIndex i =
    t.findPermutedIndex i >>= fun place? => match place? with
      | some k => s.findPermutedIndex k
      | none => .ok none
  select : ∀ {α : Type} [Scalar α] {rest : List ℕ} {x : Tensor α},
    x.InFormat → x.shape = t.domainSize :: rest →
    c.apply x = t.apply x >>= s.apply
  /-- Rows are written over the rows that `t` selects, and those over the tensor. -/
  write : ∀ {α : Type} [Scalar α] {rest : List ℕ} {x z : Tensor α},
    x.InFormat → z.InFormat → x.shape = t.domainSize :: rest → z.shape = s.permutedSize :: rest →
    c.applyInverse z (some x) =
      t.apply x >>= fun rows => s.applyInverse z (some rows) >>= fun rows =>
        t.applyInverse rows (some x)
  /-- It makes no difference which of three permutations are composed first. -/
  assoc : ∀ u, Obtained u → u.domainSize = s.permutedSize →
    ∃ d e, s.compose u = .ok d ∧ c.compose u = .ok e ∧ t.compose d = .ok e

theorem findPermutedIndex_composes
    {p q r : PartialPermutation}
    (h : p.Composes q r)
    (i : ℤ) :
    r.tables.findPermutedIndex i =
      p.tables.findPermutedIndex i >>= fun place? => match place? with
        | some k => q.tables.findPermutedIndex k
        | none => .ok none := by
  by_cases houtside : i < 0 ∨ (p.domainSize : ℤ) ≤ i
  · rw [findPermutedIndex_tables, findPermutedIndex_tables, PartialPermutation.findPermutedIndex,
      PartialPermutation.findPermutedIndex, h.domainSize_eq, if_pos houtside, if_pos houtside]
    rfl
  · obtain ⟨n, rfl⟩ : ∃ n : ℕ, i = n :=
      ⟨i.toNat, by omega⟩
    have hn : n < p.domainSize := by
      omega
    rw [findPermutedIndex_tables_natCast hn, findPermutedIndex_tables_natCast
      (hn.trans_eq h.domainSize_eq.symm), h.place?_eq, Outcome.ok_bind]
    cases hk : p.place? n with
    | none =>
        rfl
    | some k =>
        have hlt : k < q.domainSize := by
          rw [h.domainSize_mid]
          exact (List.getElem?_eq_some_iff.1 (PartialPermutation.place?_eq_some_iff.1 hk)).1
        exact (findPermutedIndex_tables_natCast hlt).symm

theorem movesTwice_tables
    {p q r : PartialPermutation}
    (h : p.Composes q r) :
    MovesTwice p.tables q.tables r.tables where
  lookup := findPermutedIndex_composes h
  select := by
    intro α _ rest x hxf hx
    rw [domainSize_tables] at hx
    rw [apply_tables, apply_tables, h.apply_eq hx hxf]
    exact congrArg _ (funext fun rows => (apply_tables q rows).symm)
  write := by
    intro α _ rest x z hxf hzf hx hz
    rw [domainSize_tables] at hx
    simp only [apply_tables, applyInverse_tables]
    exact h.applyInverse_eq hx hxf hz hzf
  assoc := by
    intro u hu hmid
    obtain ⟨v, rfl⟩ := hu.exists_eq_tables
    rw [domainSize_tables] at hmid
    obtain ⟨d, -, hd⟩ := PartialPermutation.compose_eq_ok (p := q) (q := v) hmid
    obtain ⟨e, -, he⟩ := PartialPermutation.compose_eq_ok (p := r) (q := v)
      (hmid.trans h.permutedSize_eq.symm)
    exact ⟨d.tables, e.tables, compose_tables_eq_ok hd, compose_tables_eq_ok he,
      compose_tables_eq_ok (h.assoc hd he)⟩

/-- **Moving rows.**  For tensors of one format that fit the tables, selecting rows and writing them
back undo each other and rows at absent indices are kept; other formats are refused.  In exact
arithmetic the two operations are adjoint.  Permutations that fit can be composed, and a composition
moves indices and rows as one permutation does after the other; compositions are associative and
have the identities as units. -/
theorem moves_rows
    {t : IndexTables}
    (ht : Obtained t) :
    (∀ {α : Type} [Scalar α] {rest : List ℕ} {x y : Tensor α},
      x.InFormat → y.InFormat → x.shape = t.domainSize :: rest → y.shape = t.permutedSize :: rest →
      (x.format = y.format → MovesRows t x y) ∧
        (x.format ≠ y.format → t.applyInverse y (some x) = .error .operands)) ∧
    (∀ [Threshold] {rest : List ℕ} {x y : Tensor ℝ},
      x.shape = t.domainSize :: rest → y.shape = t.permutedSize :: rest →
      ∃ g z left right, t.apply x = .ok g ∧ t.applyInverse y none = .ok z ∧
        g.zipWith (· * ·) y = .ok left ∧ x.zipWith (· * ·) z = .ok right ∧
        Vec.sum left.entries = Vec.sum right.entries) ∧
    (∀ s, Obtained s → s.domainSize = t.permutedSize →
      ∃ c, t.compose s = .ok c ∧ MovesTwice t s c) ∧
    ∃ e f, identity t.domainSize = .ok e ∧ e.compose t = .ok t ∧
      identity t.permutedSize = .ok f ∧ t.compose f = .ok t := by
  obtain ⟨p, rfl⟩ := ht.exists_eq_tables
  rw [domainSize_tables]
  refine ⟨?_, ?_, ?_, ?_⟩
  · intro α _ rest x y hxf hyf hx hy
    constructor
    · exact movesRows_tables hx hxf hy hyf
    · intro hformat
      rw [applyInverse_tables, PartialPermutation.applyInverse_of_format_ne hy hx hformat]
  · intro _ rest x y hx hy
    exact adjoint_tables hx hy
  · intro s hs hmid
    obtain ⟨q, rfl⟩ := hs.exists_eq_tables
    rw [domainSize_tables] at hmid
    obtain ⟨r, -, hr⟩ := PartialPermutation.compose_eq_ok (p := p) (q := q) hmid
    exact ⟨r.tables, compose_tables_eq_ok hr, movesTwice_tables hr⟩
  · exact ⟨_, _, identity_eq_ok _,
      compose_tables_eq_ok (PartialPermutation.Composes.identity_left p), identity_eq_ok _,
      compose_tables_eq_ok (PartialPermutation.Composes.identity_right p)⟩

/-- Two of five rows in the opposite order, turned round by a second permutation. -/
theorem moves_rows_pair :
    let t : IndexTables := ⟨[-1, 1, -1, 0, -1], [3, 1]⟩
    let s : IndexTables := ⟨[1, 0], [1, 0]⟩
    let x : Tensor Machine := .ofEntries .single [5, 2] ((List.range 10).map Scalar.ofNat)
    let y : Tensor Machine := .ofEntries .single [2, 2] ((List.range 4).map Scalar.ofNat)
    Obtained t ∧ Obtained s ∧ MovesRows t x y ∧
      ∃ c, t.compose s = .ok c ∧ MovesTwice t s c := by
  intro t s x y
  have ht : Obtained t :=
    .ofSelected (show ofSelected 5 ([3, 1].map some) = .ok t from rfl)
  have hs : Obtained s :=
    .ofSelected (show ofSelected 2 ([1, 0].map some) = .ok s from rfl)
  obtain ⟨hrows, -, hcompose, -⟩ := moves_rows ht
  refine ⟨ht, hs, ?_, hcompose s hs rfl⟩
  have hx : x.shape = [5, 2] :=
    Tensor.shape_ofEntries _ _ _
  have hy : y.shape = [2, 2] :=
    Tensor.shape_ofEntries _ _ _
  have hformat : x.format = y.format :=
    (Tensor.format_ofEntries _ _ _).trans (Tensor.format_ofEntries _ _ _).symm
  exact (hrows (Tensor.inFormat_ofEntries _ _ _) (Tensor.inFormat_ofEntries _ _ _) hx hy).1 hformat

end Laws

end IndexTables
end ConvexContact
