import Mathlib
import ConvexContact.Proofs.BlockSparse
import ConvexContact.Scalar.Dual

/-!
# Dual numbers in exact arithmetic

**Scalars.**  The value of an operation on dual numbers is the operation on the values, and its
tangent follows the rules of calculus.  A missing tangent counts as zero.

**Vectors.**  A list of dual numbers varies from `x` in the direction `dx` if its values are `x` and
its tangents `dx` (`Varies`).  This relation passes through all operations on vectors; products
with constant matrices apply the matrix to both lists.
-/

namespace ConvexContact

namespace DenseMatrix

theorem tabulate_const
    (format : Format) (m n : ℕ) (f : ℕ → ℕ → ℝ) :
    tabulate format m n (fun i j => Dual.const (f i j)) =
      (tabulate format m n f).map Dual.const :=
  (map_tabulate Dual.const format fun _ _ _ _ => rfl).symm

@[simp] theorem numRows_map_const
    (A : DenseMatrix ℝ) :
    (A.map Dual.const).numRows = A.numRows :=
  List.length_map _

end DenseMatrix

namespace Dual

section Tangents

theorem getD_addTerms
    (a b : Option ℝ) :
    (addTerms a b).getD 0 = a.getD 0 + b.getD 0 := by
  cases a <;> cases b <;> simp [addTerms]

theorem getD_map
    {f : ℝ → ℝ}
    (hf : f 0 = 0)
    (a : Option ℝ) :
    (a.map f).getD 0 = f (a.getD 0) := by
  cases a <;> simp [hf]

@[simp] theorem value_const (a : ℝ) :
    (const a).value = a :=
  rfl

end Tangents

section Operations

variable [Threshold]

theorem tangent_eq
    (x : Dual ℝ) :
    x.tangent = x.tangent?.getD 0 := by
  unfold tangent
  rw [Exact.ofNat_zero]

variable (x y : Dual ℝ)

@[simp] theorem tangent_const (a : ℝ) :
    (const a).tangent = 0 :=
  tangent_eq _

@[simp] theorem value_zero : (0 : Dual ℝ).value = 0 :=
  Nat.cast_zero

@[simp] theorem tangent_zero : (0 : Dual ℝ).tangent = 0 :=
  tangent_eq _

@[simp] theorem value_one : (1 : Dual ℝ).value = 1 :=
  Nat.cast_one

@[simp] theorem tangent_one : (1 : Dual ℝ).tangent = 0 :=
  tangent_eq _

@[simp] theorem value_ofNat (n : ℕ) [n.AtLeastTwo] :
    (ofNat(n) : Dual ℝ).value = OfNat.ofNat n :=
  rfl

@[simp] theorem tangent_ofNat (n : ℕ) [n.AtLeastTwo] :
    (ofNat(n) : Dual ℝ).tangent = 0 :=
  tangent_eq _

@[simp] theorem value_pi : (Scalar.pi : Dual ℝ).value = Real.pi :=
  rfl

@[simp] theorem tangent_pi : (Scalar.pi : Dual ℝ).tangent = 0 :=
  tangent_eq _

@[simp] theorem value_add :
    (x + y).value = x.value + y.value :=
  rfl

@[simp] theorem tangent_add :
    (x + y).tangent = x.tangent + y.tangent := by
  rw [tangent_eq, tangent_eq, tangent_eq]
  exact getD_addTerms _ _

@[simp] theorem value_sub :
    (x - y).value = x.value - y.value :=
  rfl

@[simp] theorem tangent_sub :
    (x - y).tangent = x.tangent - y.tangent := by
  rw [tangent_eq, tangent_eq, tangent_eq, sub_eq_add_neg]
  refine (getD_addTerms _ _).trans ?_
  rw [getD_map (neg_zero : -(0 : ℝ) = 0)]

@[simp] theorem value_mul :
    (x * y).value = x.value * y.value :=
  rfl

@[simp] theorem tangent_mul :
    (x * y).tangent = x.tangent * y.value + x.value * y.tangent := by
  rw [tangent_eq, tangent_eq, tangent_eq]
  refine (getD_addTerms _ _).trans ?_
  rw [getD_map (zero_mul y.value), getD_map (mul_zero x.value)]

@[simp] theorem value_div :
    (x / y).value = x.value / y.value :=
  rfl

@[simp] theorem tangent_div :
    (x / y).tangent = (x.tangent - y.tangent * (x.value / y.value)) / y.value := by
  rw [tangent_eq, tangent_eq, tangent_eq]
  refine (getD_map (zero_div y.value) _).trans ?_
  rw [getD_addTerms, getD_map]
  · rfl
  · simp

@[simp] theorem value_neg :
    (-x).value = -x.value :=
  rfl

@[simp] theorem tangent_neg :
    (-x).tangent = -x.tangent := by
  rw [tangent_eq, tangent_eq]
  exact getD_map (neg_zero : -(0 : ℝ) = 0) _

@[simp] theorem value_sqrt :
    (Scalar.sqrt x).value = √x.value :=
  rfl

@[simp] theorem tangent_sqrt :
    (Scalar.sqrt x).tangent = x.tangent / (2 * √x.value) := by
  rw [tangent_eq, tangent_eq]
  exact getD_map (zero_div (2 * √x.value)) _

@[simp] theorem value_exp :
    (Scalar.exp x).value = Real.exp x.value :=
  rfl

@[simp] theorem tangent_exp :
    (Scalar.exp x).tangent = x.tangent * Real.exp x.value := by
  rw [tangent_eq, tangent_eq]
  exact getD_map (zero_mul (Real.exp x.value)) _

@[simp] theorem value_sin :
    (Scalar.sin x).value = Real.sin x.value :=
  rfl

@[simp] theorem tangent_sin :
    (Scalar.sin x).tangent = x.tangent * Real.cos x.value := by
  rw [tangent_eq, tangent_eq]
  exact getD_map (zero_mul (Real.cos x.value)) _

@[simp] theorem value_cos :
    (Scalar.cos x).value = Real.cos x.value :=
  rfl

@[simp] theorem tangent_cos :
    (Scalar.cos x).tangent = -(x.tangent * Real.sin x.value) := by
  rw [tangent_eq, tangent_eq]
  refine getD_map (f := fun dx => -(dx * Real.sin x.value)) ?_ _
  simp

@[simp] theorem value_tan :
    (Scalar.tan x).value = Real.tan x.value :=
  rfl

@[simp] theorem tangent_tan :
    (Scalar.tan x).tangent = x.tangent * (1 + Real.tan x.value ^ 2) := by
  have hlift : (Scalar.tan x).tangent? =
      x.tangent?.map fun dx => dx * (1 + Real.tan x.value ^ 2) := by
    change Option.map _ x.tangent? = _
    congr 1
    funext dx
    change dx * (@OfNat.ofNat ℝ 1 (Scalar.instOfNat 1) + Scalar.square (Real.tan x.value)) = _
    rw [Exact.ofNat_one, Exact.square_eq]
  rw [tangent_eq, tangent_eq, hlift]
  exact getD_map (zero_mul (1 + Real.tan x.value ^ 2)) _

@[simp] theorem value_atan2 :
    (Scalar.atan2 y x).value = Complex.arg ⟨x.value, y.value⟩ :=
  rfl

@[simp] theorem tangent_atan2 :
    (Scalar.atan2 y x).tangent =
      (x.value * y.tangent - y.value * x.tangent) / (y.value ^ 2 + x.value ^ 2) := by
  rw [tangent_eq, tangent_eq, tangent_eq]
  refine (getD_map (zero_div (Scalar.square y.value + Scalar.square x.value)) _).trans ?_
  rw [getD_addTerms, getD_map (mul_zero x.value), getD_map, Exact.square_eq, Exact.square_eq]
  · rfl
  · simp

@[simp] theorem value_half : (Scalar.half : Dual ℝ).value = 1 / 2 := by
  simp [Scalar.half]

@[simp] theorem tangent_half : (Scalar.half : Dual ℝ).tangent = 0 := by
  simp [Scalar.half]

@[simp] theorem value_square :
    (Scalar.square x).value = x.value ^ 2 := by
  simp [Scalar.square, pow_two]

@[simp] theorem tangent_square :
    (Scalar.square x).tangent = 2 * x.value * x.tangent := by
  simp only [Scalar.square, tangent_mul]
  ring

@[simp] theorem value_cube :
    (Scalar.cube x).value = x.value ^ 3 := by
  simp [Scalar.cube, pow_three']

@[simp] theorem tangent_cube :
    (Scalar.cube x).tangent = 3 * x.value ^ 2 * x.tangent := by
  simp only [Scalar.cube, tangent_mul, value_mul]
  ring

@[simp] theorem lt_iff :
    x < y ↔ x.value < y.value :=
  Iff.rfl

@[simp] theorem le_iff :
    x ≤ y ↔ x.value ≤ y.value :=
  Iff.rfl

theorem pos_iff :
    0 < x ↔ 0 < x.value := by
  rw [lt_iff, value_zero]

theorem one_mul_eq :
    1 * x = x := by
  cases x with
  | mk a da =>
      cases da with
      | none =>
          change Dual.mk ((1 : Dual ℝ).value * a) none = _
          rw [value_one, one_mul]
      | some d =>
          change Dual.mk ((1 : Dual ℝ).value * a) (some ((1 : Dual ℝ).value * d)) = _
          rw [value_one, one_mul, one_mul]

instance unrounded : Unrounded (Dual ℝ) where
  round_eq _ x := by
    cases x with
    | mk a da =>
        cases da <;> rfl

end Operations

end Dual

variable [Threshold]

/-- A list of dual numbers with the given values and tangents. -/
structure Varies (X : List (Dual ℝ)) (x dx : List ℝ) : Prop where
  value : X.map Dual.value = x
  tangent : X.map Dual.tangent = dx

namespace Varies

variable {X Y : List (Dual ℝ)} {x dx y dy : List ℝ}

theorem length_eq
    (h : Varies X x dx) :
    X.length = x.length ∧ dx.length = x.length := by
  rw [← h.value, ← h.tangent, List.length_map, List.length_map]
  exact ⟨rfl, rfl⟩

/-- Constants do not vary. -/
theorem const
    (x : List ℝ) :
    Varies (x.map Dual.const) x (Vec.zero x.length) where
  value := by
    rw [List.map_map]
    exact List.map_id x
  tangent := by
    rw [List.map_map, Vec.zero, List.eq_replicate_iff]
    constructor
    · rw [List.length_map]
    · intro b hb
      obtain ⟨a, -, rfl⟩ := List.mem_map.1 hb
      simp

theorem zero
    (n : ℕ) :
    Varies (Vec.zero n) (Vec.zero n) (Vec.zero n) where
  value := by
    simp [Vec.zero]
  tangent := by
    simp [Vec.zero]

section Pointwise

theorem add
    (hX : Varies X x dx)
    (hY : Varies Y y dy) :
    Varies (Vec.add X Y) (Vec.add x y) (Vec.add dx dy) where
  value := by
    rw [← hX.value, ← hY.value, Vec.add, Vec.add, List.map_zipWith, List.zipWith_map]
    rfl
  tangent := by
    rw [← hX.tangent, ← hY.tangent, Vec.add, Vec.add, List.map_zipWith, List.zipWith_map]
    simp only [Dual.tangent_add]

theorem sub
    (hX : Varies X x dx)
    (hY : Varies Y y dy) :
    Varies (Vec.sub X Y) (Vec.sub x y) (Vec.sub dx dy) where
  value := by
    rw [← hX.value, ← hY.value, Vec.sub, Vec.sub, List.map_zipWith, List.zipWith_map]
    rfl
  tangent := by
    rw [← hX.tangent, ← hY.tangent, Vec.sub, Vec.sub, List.map_zipWith, List.zipWith_map]
    simp only [Dual.tangent_sub]

/-- Multiplying by constants. -/
theorem mul_const
    (c : List ℝ)
    (hX : Varies X x dx) :
    Varies (List.zipWith (· * ·) (c.map Dual.const) X) (List.zipWith (· * ·) c x)
      (List.zipWith (· * ·) c dx) where
  value := by
    rw [← hX.value, List.map_zipWith, List.zipWith_map_left, List.zipWith_map_right]
    rfl
  tangent := by
    rw [← hX.tangent, List.map_zipWith, List.zipWith_map_left, List.zipWith_map_right]
    simp

/-- Subtracting constants does not change the direction. -/
theorem sub_const
    {c : List ℝ}
    (hX : Varies X x dx)
    (hc : c.length = x.length) :
    Varies (Vec.sub X (c.map Dual.const)) (Vec.sub x c) dx := by
  have h := hX.sub (Varies.const c)
  have hzero : Vec.sub dx (Vec.zero c.length) = dx := by
    rw [hc, ← hX.length_eq.2]
    exact Vec.sub_zero_right dx
  rwa [hzero] at h

end Pointwise

section Parts

theorem take
    (n : ℕ)
    (h : Varies X x dx) :
    Varies (X.take n) (x.take n) (dx.take n) := by
  rw [← h.value, ← h.tangent, ← List.map_take, ← List.map_take]
  exact ⟨rfl, rfl⟩

theorem drop
    (n : ℕ)
    (h : Varies X x dx) :
    Varies (X.drop n) (x.drop n) (dx.drop n) := by
  rw [← h.value, ← h.tangent, ← List.map_drop, ← List.map_drop]
  exact ⟨rfl, rfl⟩

theorem append
    (hX : Varies X x dx)
    (hY : Varies Y y dy) :
    Varies (X ++ Y) (x ++ y) (dx ++ dy) := by
  rw [← hX.value, ← hY.value, ← hX.tangent, ← hY.tangent, ← List.map_append, ← List.map_append]
  exact ⟨rfl, rfl⟩

theorem flatMap
    {ι : Type}
    {l : List ι} {F : ι → List (Dual ℝ)} {f df : ι → List ℝ}
    (h : ∀ i ∈ l, Varies (F i) (f i) (df i)) :
    Varies (l.flatMap F) (l.flatMap f) (l.flatMap df) := by
  constructor
  · rw [List.map_flatMap]
    exact List.flatMap_congr fun i hi => (h i hi).value
  · rw [List.map_flatMap]
    exact List.flatMap_congr fun i hi => (h i hi).tangent

/-- Parts that vary one by one, joined. -/
theorem flatMap_forall₂
    {ι κ : Type}
    {l : List ι} {ks : List κ} {F : κ → List (Dual ℝ)} {f df : ι → List ℝ}
    (h : List.Forall₂ (fun i k => Varies (F k) (f i) (df i)) l ks) :
    Varies (ks.flatMap F) (l.flatMap f) (l.flatMap df) := by
  induction h with
  | nil =>
      exact ⟨rfl, rfl⟩
  | cons hik _ ih =>
      exact hik.append ih

/-- A list varies part by part. -/
theorem split
    {ι : Type}
    {l : List ι} {f df : ι → List ℝ} {size : ι → ℕ}
    (hf : ∀ i ∈ l, (f i).length = size i)
    (hdf : ∀ i ∈ l, (df i).length = size i)
    (hX : Varies X (l.flatMap f) (l.flatMap df)) :
    List.Forall₂ (fun i Xᵢ => Varies Xᵢ (f i) (df i)) l (Vec.split (l.map size) X) := by
  induction l generalizing X with
  | nil =>
      exact List.Forall₂.nil
  | cons i l ih =>
      have hhead := hX.take (size i)
      have htail := hX.drop (size i)
      rw [List.flatMap_cons, List.flatMap_cons,
        List.take_left' (hf i List.mem_cons_self), List.take_left' (hdf i List.mem_cons_self)]
        at hhead
      rw [List.flatMap_cons, List.flatMap_cons,
        List.drop_left' (hf i List.mem_cons_self), List.drop_left' (hdf i List.mem_cons_self)]
        at htail
      exact List.Forall₂.cons hhead
        (ih (fun j hj => hf j (List.mem_cons_of_mem i hj))
          (fun j hj => hdf j (List.mem_cons_of_mem i hj)) htail)

end Parts

section Products

theorem sum_value
    (X : List (Dual ℝ)) :
    (Vec.sum X).value = (X.map Dual.value).sum ∧
      (Vec.sum X).tangent = (X.map Dual.tangent).sum := by
  have hfold : ∀ (X : List (Dual ℝ)) (a : Dual ℝ),
      (X.foldl (· + ·) a).value = a.value + (X.map Dual.value).sum ∧
        (X.foldl (· + ·) a).tangent = a.tangent + (X.map Dual.tangent).sum := by
    intro X
    induction X with
    | nil =>
        intro a
        simp
    | cons b X ih =>
        intro a
        obtain ⟨hvalue, htangent⟩ := ih (a + b)
        rw [List.foldl_cons, hvalue, htangent, Dual.value_add, Dual.tangent_add, List.map_cons,
          List.sum_cons, List.map_cons, List.sum_cons, add_assoc, add_assoc]
        exact ⟨rfl, rfl⟩
  obtain ⟨hvalue, htangent⟩ := hfold X 0
  rw [Dual.value_zero, zero_add] at hvalue
  rw [Dual.tangent_zero, zero_add] at htangent
  exact ⟨hvalue, htangent⟩

/-- The product rule for inner products. -/
theorem dot
    (hX : Varies X x dx)
    (hY : Varies Y y dy) :
    (Vec.dot X Y).value = Vec.dot x y ∧
      (Vec.dot X Y).tangent = Vec.dot dx y + Vec.dot x dy := by
  obtain ⟨rfl, rfl⟩ := hX
  obtain ⟨rfl, rfl⟩ := hY
  unfold Vec.dot
  obtain ⟨hvalue, htangent⟩ := sum_value (List.zipWith (· * ·) X Y)
  constructor
  · rw [hvalue, Vec.sum_eq, List.map_zipWith, List.zipWith_map]
    rfl
  · rw [htangent, Vec.sum_eq, Vec.sum_eq]
    clear hvalue htangent
    induction X generalizing Y with
    | nil =>
        simp
    | cons a X ih =>
        cases Y with
        | nil =>
            simp
        | cons b Y =>
            simp only [List.zipWith_cons_cons, List.map_cons, List.sum_cons, Dual.tangent_mul]
            rw [ih]
            ring

/-- A constant matrix acts on values and tangents. -/
theorem mulVec
    (A : DenseMatrix ℝ)
    (hX : Varies X x dx) :
    Varies ((A.map Dual.const).mulVec X) (A.mulVec x) (A.mulVec dx) := by
  have hrow : ∀ row : List ℝ,
      (Vec.dot (row.map Dual.const) X).value = Vec.dot row x ∧
        (Vec.dot (row.map Dual.const) X).tangent = Vec.dot row dx := by
    intro row
    obtain ⟨hvalue, htangent⟩ := (Varies.const row).dot hX
    refine ⟨hvalue, htangent.trans ?_⟩
    rw [Vec.dot_comm, Vec.dot_zero_right, zero_add]
  unfold DenseMatrix.mulVec
  constructor
  · rw [List.map_map]
    change (A.rows.map (List.map Dual.const)).map _ = _
    rw [List.map_map]
    exact List.map_congr_left fun row _ => (hrow row).1
  · rw [List.map_map]
    change (A.rows.map (List.map Dual.const)).map _ = _
    rw [List.map_map]
    exact List.map_congr_left fun row _ => (hrow row).2

end Products

end Varies

namespace DenseMatrix

theorem get_map_const
    (A : DenseMatrix ℝ) (i j : ℕ) :
    (A.map Dual.const).get i j = Dual.const (A.get i j) := by
  unfold get
  change ((A.rows.map (List.map Dual.const)).getD i []).getD j 0 = _
  simp only [List.getD_eq_getElem?_getD, List.getElem?_map]
  cases A.rows[i]? with
  | none =>
      rfl
  | some row =>
      simp only [Option.map_some, Option.getD_some, List.getElem?_map]
      cases row[j]? <;> rfl

theorem transpose_map_const
    (A : DenseMatrix ℝ) :
    (A.map Dual.const).transpose = A.transpose.map Dual.const := by
  unfold transpose
  simp only [get_map_const, numRows_map_const]
  exact tabulate_const _ _ _ _

theorem cast_map_const
    (format : Format) (A : DenseMatrix ℝ) :
    (A.map Dual.const).cast format = (A.cast format).map Dual.const := by
  refine eq_of_rows_eq rfl rfl ?_
  rw [rows_cast]
  change A.rows.map (List.map Dual.const) = (A.cast format).rows.map (List.map Dual.const)
  rw [rows_cast]

end DenseMatrix

namespace Varies

variable {X : List (Dual ℝ)} {x dx : List ℝ}

theorem transpose_mulVec
    (A : DenseMatrix ℝ)
    (hX : Varies X x dx) :
    Varies ((A.map Dual.const).transpose.mulVec X) (A.transpose.mulVec x)
      (A.transpose.mulVec dx) := by
  rw [DenseMatrix.transpose_map_const]
  exact hX.mulVec A.transpose

/-- A sum of varying vectors. -/
theorem foldl_add
    {ι : Type}
    {l : List ι} {F : ι → List (Dual ℝ)} {f df : ι → List ℝ}
    (hX : Varies X x dx)
    (h : ∀ i ∈ l, Varies (F i) (f i) (df i)) :
    Varies (l.foldl (fun total i => Vec.add total (F i)) X)
      (l.foldl (fun total i => Vec.add total (f i)) x)
      (l.foldl (fun total i => Vec.add total (df i)) dx) := by
  induction l generalizing X x dx with
  | nil =>
      exact hX
  | cons i l ih =>
      exact ih (hX.add (h i List.mem_cons_self)) fun j hj => h j (List.mem_cons_of_mem i hj)

/-- Constant matrices act on the parts of values and tangents. -/
theorem blocks
    (As : List (DenseMatrix ℝ)) (sizes : List ℕ)
    (hX : Varies X x dx) :
    Varies
      (List.zipWith DenseMatrix.mulVec (As.map (DenseMatrix.map Dual.const))
        (Vec.split sizes X)).flatten
      (List.zipWith DenseMatrix.mulVec As (Vec.split sizes x)).flatten
      (List.zipWith DenseMatrix.mulVec As (Vec.split sizes dx)).flatten := by
  induction As generalizing sizes X x dx with
  | nil =>
      exact ⟨rfl, rfl⟩
  | cons A As ih =>
      cases sizes with
      | nil =>
          exact ⟨rfl, rfl⟩
      | cons n sizes =>
          exact ((hX.take n).mulVec A).append (ih sizes (hX.drop n))

/-- A constant block-sparse matrix acts on values and tangents. -/
theorem blockMulVec
    (B : BlockSparseMatrix ℝ)
    (hX : Varies X x dx) :
    Varies ((B.map Dual.const).mulVec X) (B.mulVec x) (B.mulVec dx) := by
  rw [BlockSparseMatrix.mulVec_eq_flatMap, BlockSparseMatrix.mulVec_eq_flatMap,
    BlockSparseMatrix.mulVec_eq_flatMap]
  apply flatMap
  intro i _
  have hblocks : (B.map Dual.const).rowBlocks i =
      (B.rowBlocks i).map (Block.map Dual.const) := by
    unfold BlockSparseMatrix.rowBlocks BlockSparseMatrix.map
    rw [List.filter_map]
    rfl
  unfold BlockSparseMatrix.rowSum
  rw [hblocks, List.foldl_map]
  exact (Varies.zero _).foldl_add fun b _ => ((hX.drop _).take _).mulVec b.matrix

theorem blockTransposeMulVec
    (B : BlockSparseMatrix ℝ)
    (hX : Varies X x dx) :
    Varies ((B.map Dual.const).transposeMulVec X) (B.transposeMulVec x)
      (B.transposeMulVec dx) := by
  rw [BlockSparseMatrix.transposeMulVec_eq_flatMap, BlockSparseMatrix.transposeMulVec_eq_flatMap,
    BlockSparseMatrix.transposeMulVec_eq_flatMap]
  apply flatMap
  intro j _
  have hblocks : (B.map Dual.const).colBlocks j =
      (B.colBlocks j).map (Block.map Dual.const) := by
    unfold BlockSparseMatrix.colBlocks BlockSparseMatrix.map
    rw [List.filter_map]
    rfl
  unfold BlockSparseMatrix.colSum
  rw [hblocks, List.foldl_map]
  exact (Varies.zero _).foldl_add fun b _ => ((hX.drop _).take _).transpose_mulVec b.matrix

end Varies
end ConvexContact
