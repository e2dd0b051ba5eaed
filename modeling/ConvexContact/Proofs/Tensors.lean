import Mathlib
import ConvexContact.PartialPermutation.Rows
import ConvexContact.Proofs.Matrices
import ConvexContact.Proofs.Outcomes

/-!
# Tensors without rounding

Where no number is rounded, a tensor with one size is its list of entries, a tensor with two sizes
is its matrix, and an operation on vectors of one size is the operation on their entries.  This
module takes evaluations for tensors back to evaluations for lists; formats remain as they are.
-/

namespace ConvexContact

namespace Format

variable {format : Format} {formats : List Format}

theorem foldl_join_self
    (h : ∀ f ∈ formats, f = format) :
    formats.foldl join format = format := by
  induction formats with
  | nil =>
      rfl
  | cons f formats ih =>
      rw [List.foldl_cons, h f List.mem_cons_self, join_self]
      exact ih fun f' hf' => h f' (List.mem_cons_of_mem f hf')

/-- Formats that are all the same meet in that format. -/
theorem foldl_join_eq
    (hne : formats ≠ [])
    (h : ∀ f ∈ formats, f = format) :
    formats.foldl join .single = format := by
  cases formats with
  | nil =>
      exact absurd rfl hne
  | cons f formats =>
      have hfirst : single.join f = format := by
        rw [h f List.mem_cons_self]
        cases format <;> rfl
      rw [List.foldl_cons, hfirst]
      exact foldl_join_self fun f' hf' => h f' (List.mem_cons_of_mem f hf')

end Format

namespace Tensor

variable {α : Type}

/-- A matrix has as many entries as the tensor of its sizes. -/
theorem length_entries_matrix
    (A : DenseMatrix α) :
    A.entries.length = size [A.numRows, A.numCols] := by
  rw [DenseMatrix.entries, ← Vec.totalSize_map_length, A.map_length_rows, Vec.totalSize_eq_sum]
  simp [size]

/-- A tensor with one size has as many entries. -/
theorem length_entries_of_shape
    {t : Tensor α} {n : ℕ}
    (h : t.shape = [n]) :
    t.entries.length = n := by
  rw [t.length_entries, h]
  exact Nat.mul_one n

theorem vector?_of_shape
    {t : Tensor α} {n : ℕ}
    (h : t.shape = [n]) :
    t.vector? = some t.entries := by
  unfold vector?
  rw [h]

theorem leadingSize_of_shape
    {t : Tensor α} {n : ℕ}
    (h : t.shape = [n]) :
    t.leadingSize = .ok n := by
  unfold leadingSize
  rw [h]

/-- The sub-tensors of a vector are its entries. -/
theorem slices_of_shape
    {t : Tensor α} {n : ℕ}
    (h : t.shape = [n]) :
    t.slices = t.entries.map fun x => [x] := by
  unfold slices
  rw [h]
  have hsizes :
      List.replicate n (size []) = (t.entries.map fun x => [x]).map List.length := by
    rw [List.map_map, eq_comm, List.eq_replicate_iff]
    constructor
    · rw [List.length_map, length_entries_of_shape h]
    · intro k hk
      obtain ⟨x, -, rfl⟩ := List.mem_map.1 hk
      rfl
  have hflatten : (t.entries.map fun x => [x]).flatten = t.entries := by
    rw [← List.flatMap_def, List.flatMap_singleton']
  dsimp only
  rw [← Vec.split_flatten_of_sizes hsizes.symm, hflatten]

/-- Tensors with the same format, shape and entries are equal. -/
theorem eq_of_entries
    {s t : Tensor α}
    (hformat : s.format = t.format)
    (hshape : s.shape = t.shape)
    (hentries : s.entries = t.entries) :
    s = t := by
  cases s
  cases t
  cases hformat
  cases hshape
  cases hentries
  rfl

variable [Scalar α]

@[simp] theorem shape_ofEntries
    (format : Format) (shape : List ℕ) (xs : List α) :
    (ofEntries format shape xs).shape = shape := by
  unfold ofEntries
  split_ifs <;> rfl

@[simp] theorem format_ofEntries
    (format : Format) (shape : List ℕ) (xs : List α) :
    (ofEntries format shape xs).format = format := by
  unfold ofEntries
  split_ifs <;> rfl

@[simp] theorem shape_ofVec
    (format : Format) (xs : List α) :
    (ofVec format xs).shape = [xs.length] :=
  shape_ofEntries _ _ _

@[simp] theorem format_ofVec
    (format : Format) (xs : List α) :
    (ofVec format xs).format = format :=
  format_ofEntries _ _ _

@[simp] theorem format_cast
    (format : Format) (t : Tensor α) :
    (t.cast format).format = format :=
  rfl

@[simp] theorem vector?_ofVec
    (format : Format) (xs : List α) :
    (ofVec format xs).vector? = some (ofVec format xs).entries :=
  vector?_of_shape (shape_ofVec format xs)

/-- The product of a matrix and a vector. -/
theorem matMul_of_shape
    {A : DenseMatrix α} {t : Tensor α}
    (hformat : A.format = t.format)
    (hshape : t.shape = [A.numCols]) :
    matMul A t = .ok (ofVec t.format (A.mulVec t.entries)) := by
  unfold matMul
  rw [if_neg (not_not.2 hformat), hshape]
  exact if_pos rfl

/-- A tensor of single entries is a vector. -/
theorem ofSlices_singletons
    (format : Format) (xs : List α) :
    ofSlices format [] (xs.map fun x => [x]) = ofVec format xs := by
  unfold ofSlices ofVec
  rw [← List.flatMap_def, List.flatMap_singleton', List.length_map]

/-- An interval of a vector. -/
theorem interval_of_shape
    {t : Tensor α} {n : ℕ}
    (h : t.shape = [n])
    (start k : ℕ) :
    t.interval start k = ofVec t.format (Vec.slice start k t.entries) := by
  have hslice : Vec.slice start k (t.entries.map fun x => [x]) =
      (Vec.slice start k t.entries).map fun x => [x] := by
    rw [Vec.slice, Vec.slice, ← List.map_drop, ← List.map_take]
  rw [interval, slices_of_shape h, h, hslice]
  exact ofSlices_singletons _ _

variable [Unrounded α]

theorem entries_ofEntries
    (format : Format) {shape : List ℕ} {xs : List α}
    (h : xs.length = size shape) :
    (ofEntries format shape xs).entries = xs := by
  unfold ofEntries
  rw [dif_pos h]
  simp

@[simp] theorem entries_ofVec
    (format : Format) (xs : List α) :
    (ofVec format xs).entries = xs :=
  entries_ofEntries format (by simp [size])

@[simp] theorem entries_cast
    (format : Format) (t : Tensor α) :
    (t.cast format).entries = t.entries := by
  simp [cast]

/-- The matrix of a matrix. -/
@[simp] theorem matrix?_ofMatrix
    (A : DenseMatrix α) :
    (ofMatrix A).matrix? = some A := by
  have hshape : (ofMatrix A).shape = [A.numRows, A.numCols] :=
    shape_ofEntries _ _ _
  have hentries : (ofMatrix A).entries = A.rows.flatten :=
    entries_ofEntries _ (length_entries_matrix A)
  unfold matrix?
  rw [hshape]
  dsimp only
  rw [hentries, Vec.split_flatten_of_sizes A.map_length_rows]
  congr 1
  refine DenseMatrix.eq_of_rows_eq ?_ rfl (DenseMatrix.tabulate_rows A.length_row)
  exact format_ofEntries _ _ _

theorem size_reverse
    (shape : List ℕ) :
    size shape.reverse = size shape := by
  change shape.reverse.prod = shape.prod
  exact (List.reverse_perm shape).prod_eq

theorem alignSizes_self
    (sizes : List ℕ) :
    alignSizes sizes sizes = .ok sizes := by
  induction sizes with
  | nil =>
      rfl
  | cons m sizes ih =>
      rw [alignSizes, if_pos (Or.inl rfl), ih]
      rfl

/-- The digit of a position at a size, which is zero if the size is one. -/
theorem digit_eq_mod
    (m k : ℕ) :
    (if m = 1 then 0 else k % m) = k % m := by
  split_ifs with h
  · rw [h, Nat.mod_one]
  · rfl

/-- In a tensor of the shape of the result every entry is aligned with itself. -/
theorem alignedPosition_self
    {sizes : List ℕ} {k : ℕ}
    (hk : k < size sizes) :
    alignedPosition sizes sizes k = k := by
  induction sizes generalizing k with
  | nil =>
      exact (Nat.lt_one_iff.1 hk).symm
  | cons m sizes ih =>
      have hrest : k / m < size sizes :=
        Nat.div_lt_of_lt_mul hk
      rw [alignedPosition, digit_eq_mod, ih hrest, Nat.mod_add_div]

/-- An entry of a matrix is aligned with the entry of a row in its column. -/
theorem alignedPosition_row
    (m n k : ℕ) :
    alignedPosition [m, 1] [m, n] k = k % m := by
  simp only [alignedPosition, digit_eq_mod, if_true, Nat.mul_zero, Nat.add_zero]

/-- Entries of tensors of one shape are aligned. -/
theorem zipWith_of_shape_eq
    (f : α → α → α)
    {s t : Tensor α}
    (h : s.shape = t.shape) :
    zipWith f s t =
      .ok (ofEntries (s.format.join t.format) s.shape (List.zipWith f s.entries t.entries)) := by
  have hlength : t.entries.length = s.entries.length := by
    rw [t.length_entries, s.length_entries, h]
  have hsize : size s.shape = s.entries.length :=
    s.length_entries.symm
  have hformat : meetFormat s t = s.format.join t.format := by
    unfold meetFormat
    rw [← h]
    cases s.shape <;> rfl
  unfold zipWith
  rw [← h, alignSizes_self]
  dsimp only
  rw [hformat]
  congr 1
  apply eq_of_entries
  · rw [format_ofEntries]
    rfl
  · rw [shape_ofEntries, tabulate, List.reverse_reverse]
  · rw [entries_ofEntries _ (by rw [List.length_zipWith, hlength, Nat.min_self, hsize])]
    apply List.ext_getElem
    · simp [tabulate, hsize, hlength]
    · intro k h₁ h₂
      have hk : k < s.entries.length := by
        rw [List.length_zipWith] at h₂
        omega
      have hposition : alignedPosition s.shape.reverse s.shape.reverse k = k :=
        alignedPosition_self (by rwa [size_reverse, hsize])
      simp [tabulate, hposition, List.getD_eq_getElem?_getD, hk, hlength]

/-- Entries of vectors of one size are aligned. -/
theorem zipWith_of_shape
    (f : α → α → α)
    {s t : Tensor α} {n : ℕ}
    (hs : s.shape = [n])
    (ht : t.shape = [n]) :
    zipWith f s t =
      .ok (ofVec (s.format.join t.format) (List.zipWith f s.entries t.entries)) := by
  have hsize : (List.zipWith f s.entries t.entries).length = n := by
    rw [List.length_zipWith, length_entries_of_shape hs, length_entries_of_shape ht, Nat.min_self]
  rw [zipWith_of_shape_eq f (hs.trans ht.symm), hs, ofVec, hsize]

theorem add_ofVec
    (format : Format) {x y : List α}
    (h : x.length = y.length) :
    (ofVec format x).add (ofVec format y) = .ok (ofVec format (Vec.add x y)) := by
  have hsum := zipWith_of_shape (· + ·) (shape_ofVec format x)
    ((shape_ofVec format y).trans (by rw [h]))
  rwa [format_ofVec, format_ofVec, Format.join_self, entries_ofVec, entries_ofVec] at hsum

/-- The sub-tensors of vectors one after the other are the entries. -/
theorem flatMap_slices_ofVec
    (format : Format) (parts : List (List α)) :
    (parts.map (ofVec format)).flatMap slices = parts.flatten.map fun x => [x] := by
  rw [List.flatMap_map, List.map_flatten, List.flatMap_def]
  congr 1
  apply List.map_congr_left
  intro x _
  rw [slices_of_shape (shape_ofVec format x), entries_ofVec]

/-- The product of a matrix and an interval of a vector. -/
theorem matMul_interval
    {A : DenseMatrix α} {x : Tensor α} {n start : ℕ}
    (hx : x.shape = [n])
    (hfits : start + A.numCols ≤ n) :
    matMul (A.cast x.format) (x.interval start A.numCols) =
      .ok (ofVec x.format (A.mulVec (Vec.slice start A.numCols x.entries))) := by
  have hlength : (Vec.slice start A.numCols x.entries).length = A.numCols :=
    DenseMatrix.length_slice (by rwa [length_entries_of_shape hx])
  rw [interval_of_shape hx, matMul_of_shape, format_ofVec, entries_ofVec, DenseMatrix.mulVec_cast]
  · rw [DenseMatrix.format_cast, format_ofVec]
  · rw [shape_ofVec, hlength, DenseMatrix.numCols_cast]

/-- Vectors of one format, one after the other. -/
theorem concat_ofVec
    (format : Format) {parts : List (List α)}
    (hne : parts ≠ []) :
    concat (parts.map (ofVec format)) = .ok (ofVec format parts.flatten) := by
  have hformat : ((parts.map (ofVec format)).map (·.format)).foldl Format.join .single =
      format := by
    refine Format.foldl_join_eq (by simpa using hne) ?_
    intro f hf
    obtain ⟨t, ht, rfl⟩ := List.mem_map.1 hf
    obtain ⟨x, -, rfl⟩ := List.mem_map.1 ht
    exact format_ofVec format x
  have hsizes : (parts.map (ofVec format)).any (·.shape.isEmpty) = false := by
    simp
  have hfilter : (parts.map (ofVec format)).filter (fun t => t.shape ≠ [0]) =
      (parts.filter (· ≠ [])).map (ofVec format) := by
    rw [List.filter_map]
    congr 1
    apply List.filter_congr
    intro x _
    simp
  -- empty vectors are left out, which does not change the entries
  rw [← List.flatten_filter_ne_nil]
  unfold concat
  simp only [hformat, hsizes, hfilter]
  cases parts.filter (· ≠ []) with
  | nil =>
      rfl
  | cons x xs =>
      have hfit : (xs.map (ofVec format)).all (fun t =>
          t.shape.tail = (ofVec format x).shape.tail ∧ t.rank = (ofVec format x).rank) = true := by
        simp [rank]
      have hentries := flatMap_slices_ofVec format (x :: xs)
      rw [List.map_cons] at hentries ⊢
      dsimp only
      rw [if_neg Bool.false_ne_true, if_pos hfit, hentries, shape_ofVec]
      exact congrArg Except.ok (ofSlices_singletons format _)

/-- A row is aligned with each row of a matrix. -/
theorem zipWith_row
    (f : α → α → α) {A : DenseMatrix α} {x : List α}
    (hx : x.length = A.numCols) :
    zipWith f (ofMatrix A) (ofEntries A.format [1, x.length] x) =
      .ok (ofMatrix (DenseMatrix.tabulate A.format A.numRows A.numCols fun i j =>
        f (A.get i j) (x.getD j 0))) := by
  have hshape : (ofMatrix A).shape = [A.numRows, A.numCols] :=
    shape_ofEntries _ _ _
  have hentries : (ofMatrix A).entries = A.entries :=
    entries_ofEntries _ (length_entries_matrix A)
  rw [hx]
  have hrow : (ofEntries A.format [1, A.numCols] x).entries = x :=
    entries_ofEntries _ (by simp [size, hx])
  have hformat : meetFormat (ofMatrix A) (ofEntries A.format [1, A.numCols] x) = A.format := by
    simp [meetFormat, ofMatrix]
  have hsizes : alignSizes [A.numCols, A.numRows] [A.numCols, 1] =
      .ok [A.numCols, A.numRows] := by
    simp [alignSizes, Except.map]
  unfold zipWith
  rw [hshape, shape_ofEntries]
  simp only [List.reverse_cons, List.reverse_nil, List.nil_append, List.cons_append, hsizes]
  rw [hformat]
  congr 1
  apply eq_of_entries
  · exact (format_ofEntries _ _ _).symm
  · simp [tabulate, ofMatrix]
  · have hproduct : (ofMatrix (DenseMatrix.tabulate A.format A.numRows A.numCols fun i j =>
        f (A.get i j) (x.getD j 0))).entries = _ :=
      (entries_ofEntries _ (length_entries_matrix _)).trans (DenseMatrix.entries_tabulate _ _ _ _)
    have hsize : size [A.numRows, A.numCols] = A.numRows * A.numCols := by
      simp [size]
    simp only [tabulate, hproduct, entries_cast, hentries, hrow, hsize, Unrounded.round_eq]
    apply List.map_congr_left
    intro k hk
    have hlt : k < A.numRows * A.numCols :=
      List.mem_range.1 hk
    have hposition : alignedPosition [A.numCols, A.numRows] [A.numCols, A.numRows] k = k :=
      alignedPosition_self (by simpa [size, Nat.mul_comm] using hlt)
    rw [hposition, alignedPosition_row, A.entries_eq,
      List.getD_eq_getElem _ _ (by simpa using hlt), List.getElem_map, List.getElem_range]

end Tensor

namespace PartialPermutation

section Maps

variable {β γ : Type}

theorem gather_map
    (p : PartialPermutation) (f : β → γ) (xs : List β) :
    p.gather (xs.map f) = (p.gather xs).map f := by
  unfold gather
  rw [List.map_filterMap]
  congr 1
  funext i
  rw [List.getElem?_map]

theorem scatter_map
    (p : PartialPermutation) (f : β → γ) (values base : List β) :
    p.scatter (values.map f) (base.map f) = (p.scatter values base).map f := by
  unfold scatter
  apply List.ext_getElem?
  intro i
  rw [List.getElem?_mapIdx, List.getElem?_map, List.getElem?_map, List.getElem?_mapIdx]
  cases base[i]? with
  | none =>
      rfl
  | some x =>
      cases p.place? i with
      | none =>
          simp
      | some k =>
          simp only [Option.map_some, List.getD_eq_getElem?_getD, List.getElem?_map]
          cases values[k]? <;> rfl

end Maps

variable {α : Type} [Scalar α]

/-- Writing a vector back over a vector. -/
theorem applyInverse_some
    {p : PartialPermutation} {x base : Tensor α}
    (hx : x.shape = [p.permutedSize])
    (hbase : base.shape = [p.domainSize])
    (hformat : base.format = x.format) :
    p.applyInverse x (some base) =
      .ok (Tensor.ofVec x.format (p.scatter x.entries base.entries)) := by
  unfold applyInverse
  rw [Tensor.leadingSize_of_shape hx, Outcome.ok_bind, if_neg (not_not.2 rfl)]
  dsimp only
  rw [Tensor.leadingSize_of_shape hbase, Outcome.ok_bind, if_neg (not_not.2 rfl), if_neg,
    if_neg, Tensor.slices_of_shape hx, Tensor.slices_of_shape hbase, scatter_map, hx]
  · exact congrArg Except.ok (Tensor.ofSlices_singletons _ _)
  · rw [hx, hbase]
    simp [hformat]
  · rw [Tensor.rank, Tensor.rank, hx, hbase]
    simp

/-- Writing a vector back over zeros. -/
theorem applyInverse_none
    {p : PartialPermutation} {x : Tensor α}
    (hx : x.shape = [p.permutedSize]) :
    p.applyInverse x none =
      .ok (Tensor.ofVec x.format (p.scatter x.entries (Vec.zero p.domainSize))) := by
  have hzeros :
      List.replicate p.domainSize (List.replicate (Tensor.size []) 0) =
        (Vec.zero p.domainSize : List α).map fun x => [x] := by
    rw [Vec.zero, List.map_replicate]
    rfl
  unfold applyInverse
  rw [Tensor.leadingSize_of_shape hx, Outcome.ok_bind, if_neg (not_not.2 rfl)]
  dsimp only
  rw [hx, Tensor.slices_of_shape hx, List.tail_cons, hzeros, scatter_map]
  exact congrArg Except.ok (Tensor.ofSlices_singletons _ _)

end PartialPermutation
end ConvexContact
