import Mathlib
import ConvexContact.Blocks
import ConvexContact.Linear.Vec
import ConvexContact.Proofs.Exact

/-!
# Vectors in exact arithmetic

A vector is a list, and often a list of consecutive parts of given sizes.  The first half of this
module is about parts, for entries of any kind; the second half is about real vectors.

**Inner products.**  Sums of vectors are best understood through their inner products with all
vectors of their size: `dot` is linear in each argument, a list of parts has the sum of the inner
products of its parts (`dot_flatten`), and two vectors of one size with the same inner products are
equal (`eq_of_dot_eq`).  Statements about products with transposed matrices are proved in this way.
-/

namespace ConvexContact
namespace Vec

section Parts

variable {β : Type}

theorem totalSize_eq_sum
    (ns : List ℕ) :
    totalSize ns = ns.sum := by
  induction ns with
  | nil =>
      rfl
  | cons n ns ih =>
      rw [totalSize_cons, List.sum_cons, ih]

theorem totalSize_map_length
    (bs : List (List β)) :
    totalSize (bs.map List.length) = bs.flatten.length := by
  rw [totalSize_eq_sum, List.length_flatten]

theorem totalSize_take_succ
    (sizes : List ℕ) (k : ℕ) :
    totalSize (sizes.take (k + 1)) = totalSize (sizes.take k) + sizes.getD k 0 := by
  induction sizes generalizing k with
  | nil =>
      simp
  | cons n sizes ih =>
      cases k with
      | zero =>
          simp
      | succ k =>
          rw [List.take_succ_cons, totalSize_cons, ih, List.take_succ_cons, totalSize_cons,
            List.getD_cons_succ]
          omega

theorem totalSize_take_mono
    (sizes : List ℕ) {j k : ℕ}
    (h : j ≤ k) :
    totalSize (sizes.take j) ≤ totalSize (sizes.take k) := by
  induction h with
  | refl =>
      exact le_refl _
  | step _ ih =>
      rw [totalSize_take_succ]
      omega

theorem totalSize_take_le
    (sizes : List ℕ) (k : ℕ) :
    totalSize (sizes.take k) ≤ totalSize sizes := by
  conv_rhs =>
    rw [← List.take_append_drop k sizes, totalSize_append]
  omega

/-- Cutting a list of parts gives the parts. -/
theorem split_flatten
    (bs : List (List β)) :
    split (bs.map List.length) bs.flatten = bs := by
  induction bs with
  | nil =>
      rfl
  | cons b bs ih =>
      rw [List.map_cons, List.flatten_cons, split, List.take_left, List.drop_left, ih]

/-- Parts of the right sizes are found again. -/
theorem split_flatten_of_sizes
    {ns : List ℕ} {bs : List (List β)}
    (h : bs.map List.length = ns) :
    split ns bs.flatten = bs := by
  rw [← h, split_flatten]

theorem split_append
    {ms ns : List ℕ} {x y : List β}
    (h : x.length = totalSize ms) :
    split (ms ++ ns) (x ++ y) = split ms x ++ split ns y := by
  induction ms generalizing x with
  | nil =>
      rw [totalSize_nil, List.length_eq_zero_iff] at h
      simp [h, split]
  | cons m ms ih =>
      rw [totalSize_cons] at h
      have hm : m ≤ x.length := by
        omega
      rw [List.cons_append, split, split, List.take_append_of_le_length hm,
        List.drop_append_of_le_length hm, ih (by rw [List.length_drop]; omega), List.cons_append]

/-- The parts of a vector of the right size. -/
theorem exists_parts
    {ns : List ℕ} {x : List β}
    (h : x.length = totalSize ns) :
    (split ns x).map List.length = ns ∧ (split ns x).flatten = x := by
  induction ns generalizing x with
  | nil =>
      rw [totalSize_nil, List.length_eq_zero_iff] at h
      exact ⟨rfl, h.symm⟩
  | cons n ns ih =>
      rw [totalSize_cons] at h
      obtain ⟨hsizes, hflatten⟩ := ih (x := x.drop n) (by rw [List.length_drop]; omega)
      constructor
      · rw [split, List.map_cons, hsizes, List.length_take]
        congr 1
        omega
      · rw [split, List.flatten_cons, hflatten, List.take_append_drop]

theorem map_length_split
    {ns : List ℕ} {x : List β}
    (h : x.length = totalSize ns) :
    (split ns x).map List.length = ns :=
  (exists_parts h).1

theorem flatten_split
    {ns : List ℕ} {x : List β}
    (h : x.length = totalSize ns) :
    (split ns x).flatten = x :=
  (exists_parts h).2

theorem split_map
    {γ : Type}
    (f : β → γ) (ns : List ℕ) (x : List β) :
    split ns (x.map f) = (split ns x).map (List.map f) := by
  induction ns generalizing x with
  | nil =>
      rfl
  | cons n ns ih =>
      rw [split, split, List.map_cons, ← List.map_take, ← List.map_drop, ih]

/-- The sizes of the parts add up to the size of the whole. -/
theorem totalSize_map_totalSize_split
    {ns sizes : List ℕ}
    (h : sizes.length = totalSize ns) :
    totalSize ((split ns sizes).map totalSize) = totalSize sizes := by
  conv_rhs =>
    rw [← flatten_split h]
  rw [totalSize_eq_sum, totalSize_eq_sum, List.sum_flatten,
    List.map_congr_left fun part _ => totalSize_eq_sum part]

/-- The part of a vector at a position. -/
def part (ns : List ℕ) (x : List β) (k : ℕ) : List β :=
  (split ns x).getD k []

theorem part_cons_zero
    (n : ℕ) (ns : List ℕ) (x : List β) :
    part (n :: ns) x 0 = x.take n :=
  rfl

theorem part_cons_succ
    (n : ℕ) (ns : List ℕ) (x : List β) (k : ℕ) :
    part (n :: ns) x (k + 1) = part ns (x.drop n) k :=
  rfl

/-- A part is an interval. -/
theorem part_eq_slice
    (ns : List ℕ) (x : List β) (k : ℕ) :
    part ns x k = slice (totalSize (ns.take k)) (ns.getD k 0) x := by
  induction ns generalizing x k with
  | nil =>
      simp [part, split, slice]
  | cons n ns ih =>
      cases k with
      | zero =>
          simp [part_cons_zero, slice]
      | succ k =>
          rw [part_cons_succ, ih]
          simp [slice]

/-- The start of a block is the size of the blocks before it. -/
theorem blockStarts_getElem?
    (start : ℕ) (ns : List ℕ) (k : ℕ) :
    (blockStarts start ns)[k]? =
      if k < ns.length then some (start + totalSize (ns.take k)) else none := by
  induction ns generalizing start k with
  | nil =>
      simp [blockStarts]
  | cons n ns ih =>
      cases k with
      | zero =>
          simp [blockStarts]
      | succ k =>
          simp [blockStarts, ih, Nat.add_assoc]

theorem getD_blockStarts
    {ns : List ℕ} {k : ℕ}
    (hk : k < ns.length) :
    (blockStarts 0 ns).getD k 0 = totalSize (ns.take k) := by
  rw [List.getD_eq_getElem?_getD, blockStarts_getElem?, if_pos hk, Option.getD_some, Nat.zero_add]

/-- A block ends where the blocks after it start, or before. -/
theorem blockStarts_add_le
    {ns : List ℕ} {j k : ℕ}
    (hjk : j < k)
    (hk : k < ns.length) :
    (blockStarts 0 ns).getD j 0 + ns.getD j 0 ≤ (blockStarts 0 ns).getD k 0 := by
  rw [getD_blockStarts (hjk.trans hk), getD_blockStarts hk, ← totalSize_take_succ]
  exact totalSize_take_mono ns hjk

/-- Two intervals have no common member. -/
def Apart (a m b n : ℕ) : Prop :=
  a + m ≤ b ∨ b + n ≤ a

theorem apart_blockStarts
    {ns : List ℕ} {j k : ℕ}
    (hj : j < ns.length)
    (hk : k < ns.length)
    (hne : j ≠ k) :
    Apart ((blockStarts 0 ns).getD j 0) (ns.getD j 0)
      ((blockStarts 0 ns).getD k 0) (ns.getD k 0) := by
  rcases Nat.lt_or_gt_of_ne hne with hlt | hlt
  · exact Or.inl (blockStarts_add_le hlt hk)
  · exact Or.inr (blockStarts_add_le hlt hj)

/-- A block ends with the last block, or before. -/
theorem blockStarts_add_le_totalSize
    {ns : List ℕ} {k : ℕ}
    (hk : k < ns.length) :
    (blockStarts 0 ns).getD k 0 + ns.getD k 0 ≤ totalSize ns := by
  rw [getD_blockStarts hk, ← totalSize_take_succ]
  exact totalSize_take_le _ _

/-- The interval of a block is the part at its position. -/
theorem slice_blockStarts
    (ns : List ℕ) (x : List β) (k : ℕ) :
    slice ((blockStarts 0 ns).getD k 0) (ns.getD k 0) x = part ns x k := by
  rw [part_eq_slice]
  by_cases hk : k < ns.length
  · rw [getD_blockStarts hk]
  · have hsize : ns.getD k 0 = 0 := by
      rw [List.getD_eq_getElem?_getD, List.getElem?_eq_none (by omega), Option.getD_none]
    rw [hsize]
    simp [slice]

theorem length_getD
    (parts : List (List β)) (k : ℕ) :
    (parts.getD k []).length = (parts.map List.length).getD k 0 := by
  rw [List.getD_eq_getElem?_getD, List.getD_eq_getElem?_getD, List.getElem?_map]
  cases parts[k]? <;> rfl

theorem length_part
    {ns : List ℕ} {x : List β}
    (h : x.length = totalSize ns)
    (k : ℕ) :
    (part ns x k).length = ns.getD k 0 := by
  rw [part, length_getD, map_length_split h]

/-- A vector is the list of its parts. -/
theorem flatMap_part
    {ns : List ℕ} {x : List β}
    (h : x.length = totalSize ns) :
    (List.range ns.length).flatMap (part ns x) = x := by
  have hparts : (List.range ns.length).map (part ns x) = split ns x := by
    apply List.ext_getElem
    · simp
    · intro k h₁ h₂
      simp [part, List.getD_eq_getElem?_getD, List.getElem?_eq_getElem h₂]
  rw [List.flatMap_def, hparts, flatten_split h]

theorem part_flatten
    {ns : List ℕ} {bs : List (List β)}
    (h : bs.map List.length = ns)
    (k : ℕ) :
    part ns bs.flatten k = bs.getD k [] := by
  rw [part, split_flatten_of_sizes h]

/-- The entries of the parts stand one part after the other. -/
theorem getElem?_flatMap_of_lt
    {ι : Type} {f : ι → List β} {l : List ι} {k j : ℕ} {i : ι}
    (hk : l[k]? = some i)
    (hj : j < (f i).length) :
    (l.flatMap f)[((l.take k).map fun i => (f i).length).sum + j]? = (f i)[j]? := by
  induction l generalizing k with
  | nil =>
      cases hk
  | cons b l ih =>
      cases k with
      | zero =>
          cases hk
          simp [List.getElem?_append_left hj]
      | succ k =>
          rw [List.flatMap_cons, List.take_succ_cons, List.map_cons, List.sum_cons, Nat.add_assoc,
            List.getElem?_append_right (Nat.le_add_right _ _), Nat.add_sub_cancel_left]
          exact ih hk

/-- Parts are combined one by one. -/
theorem zipWith_flatMap
    {ι γ δ : Type}
    (op : β → γ → δ)
    {l : List ι} {f : ι → List β} {g : ι → List γ}
    (h : ∀ i ∈ l, (f i).length = (g i).length) :
    List.zipWith op (l.flatMap f) (l.flatMap g) =
      l.flatMap fun i => List.zipWith op (f i) (g i) := by
  induction l with
  | nil =>
      rfl
  | cons i l ih =>
      rw [List.flatMap_cons, List.flatMap_cons, List.flatMap_cons,
        List.zipWith_append (h i List.mem_cons_self),
        ih fun j hj => h j (List.mem_cons_of_mem i hj)]

end Parts

section Real

/-- A sum over the pairs of two lists as a sum over positions. -/
theorem sum_zipWith
    {β γ : Type}
    (f : β → γ → ℝ) (b : β) (c : γ)
    {n : ℕ} {xs : List β} {ys : List γ}
    (hx : xs.length = n)
    (hy : ys.length = n) :
    (List.zipWith f xs ys).sum = ∑ i ∈ Finset.range n, f (xs.getD i b) (ys.getD i c) := by
  induction n generalizing xs ys with
  | zero =>
      rw [List.length_eq_zero_iff] at hx
      simp [hx]
  | succ n ih =>
      cases xs with
      | nil =>
          simp at hx
      | cons x xs =>
          cases ys with
          | nil =>
              simp at hy
          | cons y ys =>
              simp only [List.length_cons, Nat.add_right_cancel_iff] at hx hy
              rw [List.zipWith_cons_cons, List.sum_cons, ih hx hy, Finset.sum_range_succ', add_comm]
              rfl

variable [Threshold]
variable {x y z : List ℝ}

@[simp] theorem sum_eq
    (xs : List ℝ) :
    sum xs = xs.sum := by
  rw [List.sum_eq_foldl, sum]
  simp only [Exact.ofNat_zero]

@[simp] theorem dot_nil_left
    (y : List ℝ) :
    dot [] y = 0 := by
  simp [dot]

@[simp] theorem dot_nil_right
    (x : List ℝ) :
    dot x [] = 0 := by
  simp [dot]

@[simp] theorem dot_cons
    (a b : ℝ) (x y : List ℝ) :
    dot (a :: x) (b :: y) = a * b + dot x y := by
  simp only [dot, sum_eq, List.zipWith_cons_cons, List.sum_cons]

theorem dot_comm
    (x y : List ℝ) :
    dot x y = dot y x := by
  induction x generalizing y with
  | nil =>
      simp
  | cons a x ih =>
      cases y with
      | nil =>
          simp
      | cons b y =>
          rw [dot_cons, dot_cons, ih, mul_comm]

theorem dot_append
    {x' y' : List ℝ}
    (h : x.length = y.length) :
    dot (x ++ x') (y ++ y') = dot x y + dot x' y' := by
  induction x generalizing y with
  | nil =>
      rw [List.length_nil, eq_comm, List.length_eq_zero_iff] at h
      simp [h]
  | cons a x ih =>
      cases y with
      | nil =>
          simp at h
      | cons b y =>
          simp only [List.length_cons, Nat.add_right_cancel_iff] at h
          rw [List.cons_append, List.cons_append, dot_cons, dot_cons, ih h]
          ring

/-- The inner product with two vectors one after the other. -/
theorem dot_append_right
    (w x y : List ℝ) :
    dot w (x ++ y) = dot (w.take x.length) x + dot (w.drop x.length) y := by
  induction x generalizing w with
  | nil =>
      simp
  | cons a x ih =>
      cases w with
      | nil =>
          simp
      | cons b w =>
          rw [List.cons_append, dot_cons, ih, List.length_cons, List.take_succ_cons,
            List.drop_succ_cons, dot_cons]
          ring

/-- The inner product of lists of parts is the sum of those of the parts. -/
theorem dot_flatten
    {xs ys : List (List ℝ)}
    (h : xs.map List.length = ys.map List.length) :
    dot xs.flatten ys.flatten = (List.zipWith dot xs ys).sum := by
  induction xs generalizing ys with
  | nil =>
      simp
  | cons x xs ih =>
      cases ys with
      | nil =>
          simp at h
      | cons y ys =>
          simp only [List.map_cons, List.cons.injEq] at h
          rw [List.flatten_cons, List.flatten_cons, dot_append h.1, ih h.2]
          simp

/-- The inner product of two families of parts. -/
theorem dot_flatMap
    {ι : Type}
    {l : List ι} {f g : ι → List ℝ}
    (h : ∀ i ∈ l, (f i).length = (g i).length) :
    dot (l.flatMap f) (l.flatMap g) = (l.map fun i => dot (f i) (g i)).sum := by
  rw [List.flatMap_def, List.flatMap_def, dot_flatten]
  · rw [List.zipWith_map_left, List.zipWith_map_right, List.zipWith_self]
  · rw [List.map_map, List.map_map]
    exact List.map_congr_left h

/-- A sum of multiples of two vectors. -/
def combine (a b : ℝ) (x y : List ℝ) : List ℝ :=
  List.zipWith (fun s t => a * s + b * t) x y

omit [Threshold] in
theorem length_combine
    (a b : ℝ)
    (h : x.length = y.length) :
    (combine a b x y).length = x.length := by
  rw [combine, List.length_zipWith, h, Nat.min_self]

omit [Threshold] in
theorem headD_combine
    (a b : ℝ)
    (h : x.length = y.length) :
    (combine a b x y).headD 0 = a * x.headD 0 + b * y.headD 0 := by
  cases x with
  | nil =>
      rw [List.length_nil, eq_comm, List.length_eq_zero_iff] at h
      simp [h, combine]
  | cons s x =>
      cases y with
      | nil =>
          cases h
      | cons t y =>
          rfl

omit [Threshold] in
theorem tail_combine
    (a b : ℝ) (x y : List ℝ) :
    (combine a b x y).tail = combine a b x.tail y.tail := by
  cases x with
  | nil =>
      rfl
  | cons s x =>
      cases y with
      | nil =>
          cases x <;> rfl
      | cons t y =>
          rfl

/-- The inner product is linear in a sum of multiples. -/
theorem dot_combine_right
    (a b : ℝ)
    (h : x.length = y.length)
    (z : List ℝ) :
    dot z (combine a b x y) = a * dot z x + b * dot z y := by
  induction z generalizing x y with
  | nil =>
      simp
  | cons c z ih =>
      cases x with
      | nil =>
          rw [List.length_nil, eq_comm, List.length_eq_zero_iff] at h
          simp [h, combine]
      | cons s x =>
          cases y with
          | nil =>
              cases h
          | cons t y =>
              have hcombine : combine a b (s :: x) (t :: y) = (a * s + b * t) :: combine a b x y :=
                rfl
              rw [List.length_cons, List.length_cons, Nat.add_right_cancel_iff] at h
              rw [hcombine, dot_cons, dot_cons, dot_cons, ih h]
              ring

theorem dot_combine_left
    (a b : ℝ)
    (h : x.length = y.length)
    (z : List ℝ) :
    dot (combine a b x y) z = a * dot x z + b * dot y z := by
  rw [dot_comm, dot_combine_right a b h, dot_comm z x, dot_comm z y]

theorem dot_add_right
    (x : List ℝ)
    (h : y.length = z.length) :
    dot x (add y z) = dot x y + dot x z := by
  have hadd : add y z = combine 1 1 y z := by
    simp only [add, combine, one_mul]
  rw [hadd, dot_combine_right 1 1 h, one_mul, one_mul]

theorem dot_sub_right
    (x : List ℝ)
    (h : y.length = z.length) :
    dot x (sub y z) = dot x y - dot x z := by
  have hsub : sub y z = combine 1 (-1) y z := by
    simp only [sub, combine, one_mul, neg_one_mul, ← sub_eq_add_neg]
  rw [hsub, dot_combine_right 1 (-1) h, one_mul, neg_one_mul, sub_eq_add_neg]

theorem dot_smul_right
    (c : ℝ) (x y : List ℝ) :
    dot x (smul c y) = c * dot x y := by
  have hsmul : smul c y = combine c 0 y y := by
    simp only [smul, combine, List.zipWith_self, zero_mul, add_zero]
  rw [hsmul, dot_combine_right c 0 rfl, zero_mul, add_zero]

theorem dot_neg_right
    (x y : List ℝ) :
    dot x (neg y) = -dot x y := by
  have hneg : neg y = smul (-1) y := by
    simp only [neg, smul, neg_one_mul]
  rw [hneg, dot_smul_right, neg_one_mul]

@[simp] theorem dot_zero_right
    (x : List ℝ) (n : ℕ) :
    dot x (zero n) = 0 := by
  induction x generalizing n with
  | nil =>
      simp
  | cons a x ih =>
      cases n with
      | zero =>
          simp [zero]
      | succ n =>
          rw [show (zero (n + 1) : List ℝ) = 0 :: zero n from by simp [zero, List.replicate_succ],
            dot_cons, ih]
          ring

/-- The inner product with a vector whose coordinates are all zero. -/
theorem dot_eq_zero_of_forall
    (h : ∀ a ∈ x, a = 0)
    (y : List ℝ) :
    dot x y = 0 := by
  have hzero : x = zero x.length := by
    rw [zero, Exact.ofNat_zero]
    exact List.eq_replicate_of_mem h
  rw [hzero, dot_comm, dot_zero_right]

/-- The inner product with a sum of vectors of one size. -/
theorem dot_foldl_add
    {ι : Type}
    {l : List ι} {f : ι → List ℝ} {n : ℕ}
    (w start : List ℝ)
    (hstart : start.length = n)
    (h : ∀ i ∈ l, (f i).length = n) :
    dot w (l.foldl (fun y i => add y (f i)) start) =
      dot w start + (l.map fun i => dot w (f i)).sum := by
  induction l generalizing start with
  | nil =>
      simp
  | cons i l ih =>
      have hi : (f i).length = n :=
        h i List.mem_cons_self
      rw [List.foldl_cons, ih _ (by simp [hstart, hi]) fun j hj => h j (List.mem_cons_of_mem i hj),
        dot_add_right w (hstart.trans hi.symm), List.map_cons, List.sum_cons]
      ring

theorem length_foldl_add
    {ι : Type}
    {l : List ι} {f : ι → List ℝ} {n : ℕ}
    (start : List ℝ)
    (hstart : start.length = n)
    (h : ∀ i ∈ l, (f i).length = n) :
    (l.foldl (fun y i => add y (f i)) start).length = n := by
  induction l generalizing start with
  | nil =>
      exact hstart
  | cons i l ih =>
      rw [List.foldl_cons]
      apply ih
      · simp [hstart, h i List.mem_cons_self]
      · intro j hj
        exact h j (List.mem_cons_of_mem i hj)

/-- Vectors of one size with the same inner products are equal. -/
theorem eq_of_dot_eq
    {n : ℕ}
    (hx : x.length = n)
    (hy : y.length = n)
    (h : ∀ w : List ℝ, w.length = n → dot w x = dot w y) :
    x = y := by
  induction n generalizing x y with
  | zero =>
      rw [List.length_eq_zero_iff] at hx hy
      rw [hx, hy]
  | succ n ih =>
      cases x with
      | nil =>
          simp at hx
      | cons a x =>
          cases y with
          | nil =>
              simp at hy
          | cons b y =>
              simp only [List.length_cons, Nat.add_right_cancel_iff] at hx hy
              have htail : x = y := by
                refine ih hx hy ?_
                intro w hw
                have := h (0 :: w) (by simp [hw])
                simpa using this
              have hhead := h (1 :: zero n) (by simp)
              rw [htail] at hhead ⊢
              simp only [dot_cons, one_mul, add_left_inj] at hhead
              rw [hhead]

/-- Vectors of one size whose difference is zero are equal. -/
theorem eq_of_forall_sub_eq_zero
    (hlength : x.length = y.length)
    (h : ∀ a ∈ sub x y, a = 0) :
    x = y := by
  apply eq_of_dot_eq hlength rfl
  intro w _
  have hsub := dot_sub_right w hlength
  rw [dot_comm, dot_eq_zero_of_forall h] at hsub
  linarith

theorem add_swap
    (x y : List ℝ) :
    add x y = add y x := by
  unfold add
  rw [List.zipWith_comm]
  congr 1
  funext a b
  ring

theorem add_zero_left
    {n : ℕ}
    (h : x.length = n) :
    add (zero n) x = x := by
  apply eq_of_dot_eq (n := n) (by simp [h]) h
  intro w hw
  rw [dot_add_right w (by simp [h]), dot_zero_right]
  ring

theorem sub_zero_right
    (x : List ℝ) :
    sub x (zero x.length) = x := by
  apply eq_of_dot_eq (n := x.length) (by simp) rfl
  intro w _
  rw [dot_sub_right w (by simp), dot_zero_right]
  ring

/-- The inner product as a sum over positions. -/
theorem dot_eq_sum
    {n : ℕ}
    (hx : x.length = n)
    (hy : y.length = n) :
    dot x y = ∑ i ∈ Finset.range n, x.getD i 0 * y.getD i 0 := by
  rw [dot, sum_eq]
  exact sum_zipWith _ 0 0 hx hy

end Real

end Vec
end ConvexContact
