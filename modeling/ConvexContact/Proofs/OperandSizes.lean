import Mathlib
import ConvexContact.Proofs.Construction
import ConvexContact.Proofs.Evaluations

/-!
# Sizes of operands

An evaluation of a model or of its bundle takes a vector and is meant for one size of it.  Whether
it refuses vectors of other sizes depends on what it does first.

**Checks.**  Products with the dynamics and with the Jacobian, and the permutations, look at the
size and refuse every other one, and so does every evaluation that starts with one of them.

**Repetition.**  Differences and products of coordinates repeat a vector with a single coordinate,
so that evaluations that start with one of them take a single coordinate for a whole vector.

**Slices.**  Projections and costs of the constraints look at the slice of the vector at each of
them and at nothing else.  A contact accepts a slice with three coordinates or with one.

**Result.**  `ContactModel.accepted_sizes`: which sizes each evaluation accepts.
-/

namespace ConvexContact

section Operations

variable {α : Type}

/-- Coordinates are combined if the sizes agree or one of them is one. -/
theorem Vec.exists_broadcast_iff
    {f : α → α → α} {x y : List α} :
    (∃ z, Vec.broadcast f x y = .ok z) ↔ x.length = y.length ∨ x.length = 1 ∨ y.length = 1 := by
  unfold Vec.broadcast
  split_ifs with hlength
  · exact iff_of_true ⟨_, rfl⟩ (.inl hlength)
  · split
    · exact iff_of_true ⟨_, rfl⟩ (.inr (.inl rfl))
    · exact iff_of_true ⟨_, rfl⟩ (.inr (.inr rfl))
    · rename_i hx hy
      refine iff_of_false (by simp) ?_
      rw [or_iff_right hlength, List.length_eq_one_iff, List.length_eq_one_iff]
      rintro (⟨a, rfl⟩ | ⟨b, rfl⟩)
      · exact hx a rfl
      · exact hy b rfl

theorem Vec.length_of_broadcast
    {f : α → α → α} {x y z : List α}
    (h : Vec.broadcast f x y = .ok z) :
    z.length = if x.length = 1 then y.length else x.length := by
  unfold Vec.broadcast at h
  split_ifs at h with hlength
  · cases h
    rw [List.length_zipWith, hlength, Nat.min_self, ite_self]
  · split at h
    · cases h
      rw [List.length_map, List.length_singleton, if_pos rfl]
    · cases h
      rw [List.length_map, if_neg]
      exact hlength
    · cases h

namespace ConstraintBundle

variable {b : ConstraintBundle α} {y : List α}

/-- The number of coordinates of the slice at a constraint, in a vector with `n` coordinates. -/
def sliceSize (b : ConstraintBundle α) (n k : ℕ) : ℕ :=
  min (b.equationCounts.getD k 0) (n - totalSize (b.equationCounts.take k))

theorem length_part_eq_sliceSize
    (b : ConstraintBundle α) (y : List α) (k : ℕ) :
    (Vec.part b.equationCounts y k).length = b.sliceSize y.length k := by
  rw [Vec.part_eq_slice, Vec.slice, List.length_take, List.length_drop]
  rfl

/-- What holds of all constraints with their slices. -/
theorem forall_mem_parts
    {P : Constraint α × List α × List α → Prop} :
    (∀ x ∈ b.parts y, P x) ↔ ∀ k c, b.constraints[k]? = some c →
      P (c, Vec.part b.equationCounts y k, Vec.part b.equationCounts b.regularization k) := by
  have hslice : ∀ (z : List α) {k : ℕ} {c : Constraint α}, b.constraints[k]? = some c →
      (Vec.split b.equationCounts z)[k]? = some (Vec.part b.equationCounts z k) := by
    intro z k c hc
    have hk : k < (Vec.split b.equationCounts z).length := by
      rw [Vec.length_split, equationCounts, List.length_map]
      exact (List.getElem?_eq_some_iff.1 hc).1
    rw [Vec.part, List.getD_eq_getElem _ _ hk, List.getElem?_eq_getElem hk]
  have hpart : ∀ k x, (b.parts y)[k]? = some x ↔ ∃ c, b.constraints[k]? = some c ∧
      x = (c, Vec.part b.equationCounts y k, Vec.part b.equationCounts b.regularization k) := by
    rintro k ⟨c, u, r⟩
    rw [parts, List.getElem?_zip_eq_some, List.getElem?_zip_eq_some]
    constructor
    · rintro ⟨hc, hu, hr⟩
      rw [hslice y hc, Option.some_inj] at hu
      rw [hslice _ hc, Option.some_inj] at hr
      exact ⟨c, hc, by rw [hu, hr]⟩
    · rintro ⟨c', hc, heq⟩
      cases heq
      exact ⟨hc, hslice y hc, hslice _ hc⟩
  constructor
  · intro h k c hc
    exact h _ (List.mem_of_getElem? ((hpart k _).2 ⟨c, hc, rfl⟩))
  · intro h x hx
    obtain ⟨k, hk⟩ := List.mem_iff_getElem?.1 hx
    obtain ⟨c, hc, rfl⟩ := (hpart k x).1 hk
    exact h k c hc

/-- If all constraints have three equations and accept three coordinates or a single one, then the
last slice decides. -/
theorem forall_sliceSize_iff
    {Q : Constraint α → ℕ → Prop} {n : ℕ}
    (hthree : ∀ c ∈ b.constraints, c.numEquations = 3)
    (hQ : ∀ c ∈ b.constraints, ∀ l, Q c l ↔ l = 3 ∨ l = 1) :
    (∀ k c, b.constraints[k]? = some c → Q c (b.sliceSize n k)) ↔
      3 * b.numConstraints ≤ n ∨ n + 2 = 3 * b.numConstraints := by
  have hcounts : b.equationCounts = List.replicate b.numConstraints 3 := by
    rw [List.eq_replicate_iff, equationCounts, List.length_map, constraints, List.length_map]
    refine ⟨rfl, fun a ha => ?_⟩
    obtain ⟨c, hc, rfl⟩ := List.mem_map.1 ha
    exact hthree c hc
  have hlength : b.constraints.length = b.numConstraints :=
    List.length_map _
  have hslice : ∀ k c, b.constraints[k]? = some c →
      k < b.numConstraints ∧ (Q c (b.sliceSize n k) ↔ min 3 (n - k * 3) = 3 ∨
        min 3 (n - k * 3) = 1) := by
    intro k c hc
    have hk : k < b.numConstraints :=
      (List.getElem?_eq_some_iff.1 hc).1.trans_eq hlength
    rw [hQ c (List.mem_of_getElem? hc), sliceSize, hcounts,
      List.getD_eq_getElem _ _ (by simpa using hk), List.getElem_replicate, List.take_replicate,
      Nat.min_eq_left hk.le, Vec.totalSize_eq_sum, List.sum_replicate, smul_eq_mul]
    exact ⟨hk, Iff.rfl⟩
  constructor
  · intro h
    rcases Nat.eq_zero_or_pos b.numConstraints with hzero | hpos
    · omega
    · have hlast : b.numConstraints - 1 < b.constraints.length := by
        omega
      have hc := List.getElem?_eq_getElem hlast
      have := (hslice _ _ hc).2.1 (h _ _ hc)
      omega
  · intro h k c hc
    obtain ⟨hk, hiff⟩ := hslice k c hc
    rw [hiff]
    omega

end ConstraintBundle

/-- Velocities are taken as operand if there are as many as participate. -/
theorem ContactModel.exists_velocityOperand_iff
    {m : ContactModel α} {x : Tensor α} {n : ℕ}
    (hx : x.shape = [n]) :
    (∃ xs, m.velocityOperand x = .ok xs) ↔ n = m.numVelocities := by
  constructor
  · rintro ⟨xs, hxs⟩
    rw [← Tensor.length_entries_of_shape hx]
    exact (velocityOperand_eq_ok hxs).2
  · rintro rfl
    exact ⟨_, velocityOperand_of_shape hx⟩

variable [Scalar α]

namespace Tensor

variable {f : α → α → α} {s t u : Tensor α} {a b : ℕ}

/-- Two sizes are aligned if they agree or one of them is one. -/
theorem alignSizes_singleton
    (a b : ℕ) :
    alignSizes [a] [b] =
      if a = b ∨ b = 1 then .ok [a] else if a = 1 then .ok [b] else .error .operands :=
  rfl

/-- Vectors are combined if their sizes are aligned. -/
theorem exists_zipWith_iff
    (hs : s.shape = [a])
    (ht : t.shape = [b]) :
    (∃ u, zipWith f s t = .ok u) ↔ a = b ∨ a = 1 ∨ b = 1 := by
  unfold zipWith
  rw [hs, ht, List.reverse_singleton, List.reverse_singleton, alignSizes_singleton]
  split_ifs with hfit hone
  · exact iff_of_true ⟨_, rfl⟩ (hfit.imp_right .inr)
  · exact iff_of_true ⟨_, rfl⟩ (.inr (.inl hone))
  · refine iff_of_false (by simp) ?_
    rintro (hab | ha | hb)
    · exact hfit (.inl hab)
    · exact hone ha
    · exact hfit (.inr hb)

theorem shape_of_zipWith
    (hs : s.shape = [a])
    (ht : t.shape = [b])
    (h : zipWith f s t = .ok u) :
    u.shape = [if a = 1 then b else a] := by
  unfold zipWith at h
  rw [hs, ht, List.reverse_singleton, List.reverse_singleton, alignSizes_singleton] at h
  split_ifs at h with hfit hone
  · cases h
    change [a] = _
    split_ifs with ha
    · rcases hfit with rfl | rfl
      · rfl
      · rw [ha]
    · rfl
  · cases h
    rw [if_pos hone]
    rfl

end Tensor

namespace PartialPermutation

variable {p : PartialPermutation} {x : Tensor α} {n : ℕ}

theorem exists_apply_iff
    (hx : x.shape = [n]) :
    (∃ r, p.apply x = .ok r) ↔ n = p.domainSize := by
  unfold apply
  rw [Tensor.leadingSize_of_shape hx, Outcome.ok_bind]
  split_ifs with hsize
  · exact iff_of_false (by simp) hsize
  · exact iff_of_true ⟨_, rfl⟩ (not_not.1 hsize)

theorem size_of_applyInverse
    {base? : Option (Tensor α)} {r : Tensor α}
    (hx : x.shape = [n])
    (h : p.applyInverse x base? = .ok r) :
    n = p.permutedSize := by
  unfold applyInverse at h
  rw [Tensor.leadingSize_of_shape hx, Outcome.ok_bind] at h
  by_contra hsize
  rw [if_pos hsize] at h
  cases h

end PartialPermutation

namespace BlockSparseMatrix

variable {B : BlockSparseMatrix α} {x : Tensor α} {n : ℕ}

theorem exists_multiply_iff
    (hx : x.shape = [n]) :
    (∃ r, B.multiply x = .ok r) ↔ n = B.numCols := by
  unfold multiply
  rw [Tensor.leadingSize_of_shape hx, Outcome.ok_bind, Tensor.vector?_of_shape hx]
  split_ifs with hsize
  · exact iff_of_false (by simp) hsize
  · exact iff_of_true ⟨_, rfl⟩ (not_not.1 hsize)

theorem exists_multiplyTranspose_iff
    (hx : x.shape = [n]) :
    (∃ r, B.multiplyTranspose x = .ok r) ↔ n = B.numRows := by
  unfold multiplyTranspose
  rw [Tensor.leadingSize_of_shape hx, Outcome.ok_bind, Tensor.vector?_of_shape hx]
  split_ifs with hsize
  · exact iff_of_false (by simp) hsize
  · exact iff_of_true ⟨_, rfl⟩ (not_not.1 hsize)

end BlockSparseMatrix

namespace ContactModel

variable {m : ContactModel α} {x : Tensor α} {n : ℕ}

theorem dynamicsTimesTensor_of_shape
    (hx : x.shape = [m.numVelocities]) :
    m.dynamicsTimesTensor x =
      .ok (Tensor.ofVec x.format ((m.cast x.format).dynamicsTimes x.entries)) := by
  unfold dynamicsTimesTensor
  rw [Tensor.leadingSize_of_shape hx, Outcome.ok_bind, if_neg (not_not.2 rfl),
    Tensor.vector?_of_shape hx]

theorem exists_dynamicsTimesTensor_iff
    (hx : x.shape = [n]) :
    (∃ r, m.dynamicsTimesTensor x = .ok r) ↔ n = m.numVelocities := by
  constructor
  · rintro ⟨r, hr⟩
    unfold dynamicsTimesTensor at hr
    rw [Tensor.leadingSize_of_shape hx, Outcome.ok_bind] at hr
    by_contra hsize
    rw [if_pos hsize] at hr
    cases hr
  · rintro rfl
    exact ⟨_, dynamicsTimesTensor_of_shape hx⟩

/-- An evaluation holds the derivatives of the projections if they were asked for. -/
theorem isSome_derivatives?
    {v : List α} {withDerivatives : Bool} {e : CostEvaluation α}
    (h : m.evaluate v withDerivatives = .ok e) :
    e.derivatives?.isSome = withDerivatives := by
  obtain ⟨y, -, h⟩ := Outcome.bind_eq_ok.1 h
  -- Either branch goes on with the regularizer cost and puts the pair into the evaluation.
  cases withDerivatives with
  | true =>
      dsimp only at h
      rw [if_pos rfl] at h
      obtain ⟨_, hproject, h⟩ := Outcome.bind_eq_ok.1 h
      obtain ⟨_, -, rfl⟩ := Outcome.map_eq_ok.1 hproject
      obtain ⟨_, -, h⟩ := Outcome.bind_eq_ok.1 h
      cases h
      rfl
  | false =>
      dsimp only at h
      rw [if_neg Bool.false_ne_true] at h
      obtain ⟨_, hproject, h⟩ := Outcome.bind_eq_ok.1 h
      obtain ⟨_, -, rfl⟩ := Outcome.map_eq_ok.1 hproject
      obtain ⟨_, -, h⟩ := Outcome.bind_eq_ok.1 h
      cases h
      rfl

end ContactModel

end Operations

section Constraints

namespace Constraint

variable {c : Constraint ℝ}

/-- The numbers of coordinates from which the constraint can project an impulse. -/
def Projects (c : Constraint ℝ) (n : ℕ) : Prop :=
  match c.law with
  | .frictionCone _ _ => n = 3 ∨ n = 1
  | .unrestricted => True

/-- The numbers of coordinates of an impulse whose cost the constraint can tell. -/
def Weighs (c : Constraint ℝ) (n : ℕ) : Prop :=
  match c.law with
  | .frictionCone _ _ => n = 3 ∨ n = 1
  | .unrestricted => n = c.numEquations ∨ c.numEquations = 1

theorem projects_iff_and_weighs_iff
    {parameters : ConeParameters ℝ} {gap : ℝ}
    (hlaw : c.law = .frictionCone parameters gap)
    (n : ℕ) :
    (c.Projects n ↔ n = 3 ∨ n = 1) ∧ (c.Weighs n ↔ n = 3 ∨ n = 1) := by
  rw [Projects, Weighs, hlaw]
  exact ⟨Iff.rfl, Iff.rfl⟩

end Constraint

variable [Threshold]

namespace ConeParameters

variable {p : ConeParameters ℝ} {y : List ℝ} {R : ContactVector ℝ}

/-- An impulse with a single coordinate stands for one with three equal ones. -/
theorem exists_scale
    (p : ConeParameters ℝ) (R : ContactVector ℝ)
    (h : y.length = 3 ∨ y.length = 1) :
    ∃ z : ContactVector ℝ, p.scale y R.toList = p.scale z.toList R.toList := by
  rcases h with hthree | hone
  · obtain ⟨z, rfl⟩ := ContactVector.exists_toList hthree
    exact ⟨z, rfl⟩
  · obtain ⟨b, rfl⟩ := List.length_eq_one_iff.1 hone
    exact ⟨⟨b, b, b⟩, rfl⟩

theorem length_of_scale
    {s : Scaled ℝ}
    (h : p.scale y R.toList = .ok s) :
    y.length = 3 ∨ y.length = 1 := by
  obtain ⟨full, hfull, -⟩ := Outcome.bind_eq_ok.1 h
  have hsizes := Vec.exists_broadcast_iff.1 ⟨full, hfull⟩
  change 3 = y.length ∨ 3 = 1 ∨ y.length = 1 at hsizes
  omega

/-- What follows on the scaling of an impulse is reached from slices of these sizes alone. -/
theorem exists_scale_bind_iff
    {β : Type} {f : Scaled ℝ → Except Error β}
    (hf : ∀ z : ContactVector ℝ, ∃ r, (p.scale z.toList R.toList >>= f) = .ok r) :
    (∃ r, (p.scale y R.toList >>= f) = .ok r) ↔ y.length = 3 ∨ y.length = 1 := by
  constructor
  · intro h
    obtain ⟨s, hs⟩ := Outcome.exists_of_bind h
    exact length_of_scale hs
  · intro h
    obtain ⟨z, hz⟩ := p.exists_scale R h
    rw [hz]
    exact hf z

end ConeParameters

namespace Constraint

variable {c : Constraint ℝ} {y R : List ℝ}

/-- The half squared length needs as many coordinates as the regularization, if that does not have
a single one. -/
theorem exists_exactCost_iff :
    (∃ a, exactCost y R = .ok a) ↔ y.length = R.length ∨ R.length = 1 := by
  have hdot : ∀ scaled : List ℝ,
      (∃ a, (Vec.dot? y scaled >>= fun a => (.ok (Scalar.half * a) : Except Error ℝ)) = .ok a) ↔
        y.length = scaled.length := by
    intro scaled
    unfold Vec.dot?
    split_ifs with hlength
    · exact iff_of_true ⟨_, rfl⟩ hlength
    · exact iff_of_false (by rintro ⟨a, ha⟩; cases ha) hlength
  unfold exactCost
  rw [Outcome.exists_bind_iff]
  constructor
  · rintro ⟨scaled, hscaled, h⟩
    have hlength := (hdot scaled).1 h
    rw [Vec.length_of_broadcast hscaled] at hlength
    split_ifs at hlength with hone
    · exact .inr hone
    · exact .inl hlength
  · intro h
    obtain ⟨scaled, hscaled⟩ := (Vec.exists_broadcast_iff (f := ((· * ·) : ℝ → ℝ → ℝ)) (x := R)
      (y := y)).2 (h.imp Eq.symm .inl)
    refine ⟨scaled, hscaled, (hdot scaled).2 ?_⟩
    rw [Vec.length_of_broadcast hscaled]
    split_ifs with hone
    · rfl
    · exact h.resolve_right hone

namespace Proper

variable (hc : c.Proper) (hR : R.length = c.numEquations)

include hc hR

/-- Which slices a constraint projects. -/
theorem exists_project_iff
    (format : Format) :
    (∃ r, c.project format y R = .ok r) ↔ c.Projects y.length := by
  unfold project Projects
  cases hlaw : c.law with
  | frictionCone parameters gap =>
      obtain ⟨R, rfl⟩ := ContactVector.exists_toList
        (hR.trans (hc.numEquations_eq parameters gap hlaw))
      exact ConeParameters.exists_scale_bind_iff fun z => ⟨_, parameters.project_eq format z R⟩
  | unrestricted =>
      exact iff_of_true ⟨_, rfl⟩ trivial

theorem exists_impulse_iff :
    (∃ r, c.impulse y R = .ok r) ↔ c.Projects y.length := by
  unfold impulse Projects
  cases hlaw : c.law with
  | frictionCone parameters gap =>
      obtain ⟨R, rfl⟩ := ContactVector.exists_toList
        (hR.trans (hc.numEquations_eq parameters gap hlaw))
      exact ConeParameters.exists_scale_bind_iff fun z => ⟨_, parameters.impulse_eq z R⟩
  | unrestricted =>
      exact iff_of_true ⟨_, rfl⟩ trivial

theorem exists_cost_iff :
    (∃ r, c.cost y R = .ok r) ↔ c.Weighs y.length := by
  unfold cost Weighs
  cases hlaw : c.law with
  | frictionCone parameters gap =>
      obtain ⟨R, rfl⟩ := ContactVector.exists_toList
        (hR.trans (hc.numEquations_eq parameters gap hlaw))
      exact ConeParameters.exists_scale_bind_iff fun z => ⟨_, parameters.cost_eq z R⟩
  | unrestricted =>
      dsimp only
      rw [exists_exactCost_iff, hR]

end Proper

end Constraint

namespace ConstraintBundle

variable {b : ConstraintBundle ℝ} {y : List ℝ}

/-- A condition on the constraints and on the sizes of their slices. -/
theorem forall_mem_parts_iff
    {P : Constraint ℝ × List ℝ × List ℝ → Prop} {Q : Constraint ℝ → ℕ → Prop}
    (hproper : ∀ c ∈ b.constraints, c.Proper)
    (hregularization : b.regularization.length = b.numEquations)
    (h : ∀ c u R, c.Proper → R.length = c.numEquations → (P (c, u, R) ↔ Q c u.length)) :
    (∀ x ∈ b.parts y, P x) ↔
      ∀ k c, b.constraints[k]? = some c → Q c (b.sliceSize y.length k) := by
  rw [forall_mem_parts]
  refine forall_congr' fun k => forall_congr' fun c => imp_congr_right fun hc => ?_
  have hcount : b.equationCounts.getD k 0 = c.numEquations := by
    rw [List.getD_eq_getElem?_getD, equationCounts, List.getElem?_map, hc]
    rfl
  rw [h c _ _ (hproper c (List.mem_of_getElem? hc)), length_part_eq_sliceSize]
  rw [Vec.length_part hregularization, hcount]

section Slices

variable {x : Tensor ℝ} {n : ℕ}
variable (hproper : ∀ c ∈ b.constraints, c.Proper)
variable (hregularization : b.regularization.length = b.numEquations)
variable (hx : x.shape = [n])

include hproper hregularization hx

/-- The slices at all constraints decide about the projection. -/
theorem exists_impulsesTensor_iff :
    (∃ r, b.impulsesTensor x = .ok r) ↔
      ∀ k (c : Constraint ℝ), b.constraints[k]? = some c → c.Projects (b.sliceSize n k) := by
  unfold impulsesTensor
  rw [Tensor.vector?_of_shape hx]
  dsimp only
  rw [Outcome.exists_map_iff, impulses_cast, impulses,
    Outcome.exists_bind_iff_of_forall fun _ => ⟨_, rfl⟩, Outcome.exists_mapM_iff,
    ← Tensor.length_entries_of_shape hx]
  exact forall_mem_parts_iff hproper hregularization fun c u R hc hR => hc.exists_impulse_iff hR

theorem exists_projectTensor_iff :
    (∃ r, b.projectTensor x = .ok r) ↔
      ∀ k (c : Constraint ℝ), b.constraints[k]? = some c → c.Projects (b.sliceSize n k) := by
  unfold projectTensor
  rw [Tensor.vector?_of_shape hx]
  dsimp only
  rw [Outcome.exists_bind_iff_of_forall fun _ => ⟨_, rfl⟩, project, parts_cast,
    Outcome.exists_bind_iff_of_forall fun _ => ⟨_, rfl⟩, Outcome.exists_mapM_iff,
    ← Tensor.length_entries_of_shape hx]
  exact forall_mem_parts_iff hproper hregularization fun c u R hc hR =>
    hc.exists_project_iff hR _

theorem exists_regularizerCostTensor_iff :
    (∃ r, b.regularizerCostTensor x = .ok r) ↔
      ∀ k (c : Constraint ℝ), b.constraints[k]? = some c → c.Weighs (b.sliceSize n k) := by
  unfold regularizerCostTensor
  rw [Tensor.vector?_of_shape hx]
  dsimp only
  rw [Outcome.exists_map_iff, regularizerCost, parts_cast,
    Outcome.exists_bind_iff_of_forall fun _ => ⟨_, rfl⟩, Outcome.exists_mapM_iff,
    ← Tensor.length_entries_of_shape hx]
  exact forall_mem_parts_iff hproper hregularization fun c u R hc hR => hc.exists_cost_iff hR

end Slices

end ConstraintBundle

end Constraints

section Models

variable [Threshold]

namespace ContactModel
namespace Describes

variable {m : ContactModel ℝ} {p : ContactProblem ℝ} {w : List ℝ} {x : Tensor ℝ} {n : ℕ}

theorem proper_constraints
    (d : m.Describes p w) :
    ∀ c ∈ m.bundle.constraints, c.Proper := by
  intro c hc
  rw [d.constraints_eq] at hc
  obtain ⟨l, hl, rfl⟩ := List.mem_map.1 hc
  exact d.proper hl

theorem numEquations_eq
    (d : m.Describes p w) :
    m.bundle.numEquations = m.bundle.jacobian.numRows := by
  rw [d.numRows_jacobian, ConstraintBundle.numEquations, d.equationCounts_eq]

theorem length_regularization
    (d : m.Describes p w) :
    m.bundle.regularization.length = m.bundle.numEquations := by
  rw [d.numEquations_eq, ← d.length_inverse, d.inverse, List.length_map]

theorem shape_freeVelocityTensor
    (d : m.Describes p w)
    (format : Format) :
    (m.freeVelocityTensor.cast format).shape = [m.numVelocities] := by
  change (Tensor.ofVec m.format m.freeVelocity).shape = _
  rw [Tensor.shape_ofVec, d.length_held_freeVelocity]
  rfl

/-- The difference to the free motion repeats a single velocity. -/
theorem shape_motion
    (d : m.Describes p w)
    (hx : x.shape = [n])
    {motion : Tensor ℝ} (h : m.motionTensor x = .ok motion) :
    motion.shape = [if n = 1 then m.numVelocities else n] :=
  Tensor.shape_of_zipWith hx (d.shape_freeVelocityTensor x.format) h

theorem exists_momentumGainTensor_iff
    (d : m.Describes p w)
    (hx : x.shape = [n]) :
    (∃ r, m.momentumGainTensor x = .ok r) ↔ n = m.numVelocities ∨ n = 1 := by
  unfold momentumGainTensor
  rw [Outcome.exists_bind_iff]
  constructor
  · rintro ⟨motion, hmotion, h⟩
    have hsize := (exists_dynamicsTimesTensor_iff (d.shape_motion hx hmotion)).1 h
    split_ifs at hsize with hone
    · exact .inr hone
    · exact .inl hsize
  · intro h
    obtain ⟨motion, hmotion⟩ : ∃ motion, m.motionTensor x = .ok motion :=
      (Tensor.exists_zipWith_iff hx (d.shape_freeVelocityTensor x.format)).2 (h.imp_right .inl)
    refine ⟨motion, hmotion, (exists_dynamicsTimesTensor_iff (d.shape_motion hx hmotion)).2 ?_⟩
    split_ifs with hone
    · rfl
    · exact h.resolve_right hone

theorem exists_momentumCostTensor_iff
    (d : m.Describes p w)
    (hx : x.shape = [n]) :
    (∃ r, m.momentumCostTensor x = .ok r) ↔ n = m.numVelocities ∨ n = 1 := by
  rw [← d.exists_momentumGainTensor_iff hx]
  unfold momentumCostTensor momentumGainTensor
  rw [Outcome.exists_bind_iff, Outcome.exists_bind_iff]
  refine exists_congr fun motion => and_congr_right fun hmotion => ?_
  rw [Outcome.exists_bind_iff]
  refine exists_congr fun gain => and_iff_left_of_imp fun hgain => ?_
  have hshape := d.shape_motion hx hmotion
  have hsize := (exists_dynamicsTimesTensor_iff hshape).1 ⟨gain, hgain⟩
  rw [hsize] at hshape
  rw [dynamicsTimesTensor_of_shape hshape] at hgain
  cases hgain
  have hlengths : motion.entries.length = ((m.cast motion.format).dynamicsTimes
      motion.entries).length := by
    rw [(d.cast motion.format).length_dynamicsTimes, Tensor.length_entries_of_shape hshape]
    rfl
  rw [Tensor.vector?_of_shape hshape, Tensor.vector?_ofVec, Tensor.entries_ofVec]
  dsimp only
  rw [Vec.dot?, if_pos hlengths]
  exact ⟨_, rfl⟩

theorem exists_expandTensor_iff
    (d : m.Describes p w)
    (hx : x.shape = [n]) :
    (∃ r, m.expandTensor x = .ok r) ↔ n = m.numVelocities := by
  constructor
  · rintro ⟨r, hr⟩
    exact PartialPermutation.size_of_applyInverse hx hr
  · rintro rfl
    obtain ⟨V, -, -, -, hV⟩ := d.expandTensor_eq hx
    exact ⟨_, hV⟩

theorem exists_evaluateTensor_iff
    (d : m.Describes p w)
    (hx : x.shape = [n])
    (withDerivatives : Bool) :
    (∃ e, m.evaluateTensor x withDerivatives = .ok e) ↔ n = m.numVelocities := by
  constructor
  · intro h
    exact (exists_velocityOperand_iff hx).1 (Outcome.exists_of_bind h)
  · rintro rfl
    obtain ⟨V, hV, hgather⟩ := d.exists_gather (Tensor.length_entries_of_shape hx)
    exact ⟨_, d.evaluateTensor_eq hx hV hgather withDerivatives⟩

theorem exists_hessianTensor_iff
    (d : m.Describes p w)
    (hx : x.shape = [n]) :
    (∃ H, m.hessianTensor x none = .ok H) ↔ n = m.numVelocities := by
  constructor
  · intro h
    exact (exists_velocityOperand_iff hx).1 (Outcome.exists_of_bind h)
  · rintro rfl
    obtain ⟨V, hV, hgather⟩ := d.exists_gather (Tensor.length_entries_of_shape hx)
    exact ⟨_, d.hessianTensor_eq hx hV hgather⟩

/-- With an evaluation that holds derivatives the second derivative needs no velocities. -/
theorem exists_hessianTensor_some_iff
    (d : m.Describes p w)
    (hx : x.shape = [n])
    {v : Tensor ℝ} {withDerivatives : Bool} {e : CostEvaluation ℝ}
    (he : m.evaluateTensor v withDerivatives = .ok e) :
    (∃ H, m.hessianTensor x (some e) = .ok H) ↔ withDerivatives = true ∨ n = m.numVelocities := by
  obtain ⟨xs, -, hevaluate⟩ := Outcome.bind_eq_ok.1 he
  have hderivatives := isSome_derivatives? hevaluate
  cases withDerivatives with
  | true =>
      obtain ⟨D, hD⟩ := Option.isSome_iff_exists.1 hderivatives
      refine iff_of_true ⟨(m.cast x.format).hessianOf D, ?_⟩ (.inl rfl)
      rw [hessianTensor, Option.bind_some, hD]
  | false =>
      have hnone : e.derivatives? = none := by
        simpa using hderivatives
      have hplain : m.hessianTensor x (some e) = m.hessianTensor x none := by
        rw [hessianTensor, Option.bind_some, hnone]
        rfl
      rw [hplain, d.exists_hessianTensor_iff hx]
      simp

theorem exists_constraintVelocitiesTensor_iff
    (d : m.Describes p w)
    (hx : x.shape = [n]) :
    (∃ r, m.constraintVelocitiesTensor x = .ok r) ↔ n = m.numVelocities := by
  unfold constraintVelocitiesTensor
  rw [BlockSparseMatrix.exists_multiply_iff hx, d.numCols_jacobian]
  rfl

/-- Projected impulses in the order of the edges have an entry for each equation. -/
theorem exists_edgeImpulsesTensor
    (d : m.Describes p w)
    (hx : x.shape = [m.numVelocities]) :
    ∃ γ, m.edgeImpulsesTensor x = .ok γ ∧ γ.shape = [m.bundle.jacobian.numRows] := by
  obtain ⟨V, hV, hgather⟩ := d.exists_gather (Tensor.length_entries_of_shape hx)
  have hcols : x.shape = [m.bundle.jacobian.numCols] := by
    rw [hx, d.numCols_jacobian]
    rfl
  have hunprojected : m.unprojected x.entries = _ :=
    hgather ▸ d.unprojected_eq hV
  refine ⟨_, edgeImpulsesTensor_of_shape hcols (d.regular_jacobian.length_mulVec _) d.length_bias
    d.length_inverse hunprojected d.impulses_eq, ?_⟩
  rw [Tensor.shape_ofVec, d.length_flatMap fun l hl => d.length_impulseAt hl]

theorem exists_edgeImpulsesTensor_iff
    (d : m.Describes p w)
    (hx : x.shape = [n]) :
    (∃ γ, m.edgeImpulsesTensor x = .ok γ) ↔ n = m.numVelocities := by
  constructor
  · intro h
    exact (d.exists_constraintVelocitiesTensor_iff hx).1 (Outcome.exists_of_bind h)
  · rintro rfl
    obtain ⟨γ, hγ, -⟩ := d.exists_edgeImpulsesTensor hx
    exact ⟨γ, hγ⟩

theorem exists_impulsesTensor_iff
    (d : m.Describes p w)
    (hx : x.shape = [n]) :
    (∃ r, m.impulsesTensor x = .ok r) ↔ n = m.numVelocities := by
  constructor
  · intro h
    exact (d.exists_edgeImpulsesTensor_iff hx).1 (Outcome.exists_of_bind h)
  · rintro rfl
    obtain ⟨V, hV, hgather⟩ := d.exists_gather (Tensor.length_entries_of_shape hx)
    exact ⟨_, d.impulsesTensor_eq hx hV hgather⟩

theorem exists_generalizedImpulsesTensor_iff
    (d : m.Describes p w)
    (hx : x.shape = [n]) :
    (∃ r, m.generalizedImpulsesTensor x = .ok r) ↔ n = m.numVelocities := by
  constructor
  · intro h
    exact (d.exists_edgeImpulsesTensor_iff hx).1 (Outcome.exists_of_bind h)
  · rintro rfl
    obtain ⟨γ, hγ, hshape⟩ := d.exists_edgeImpulsesTensor hx
    unfold generalizedImpulsesTensor
    rw [hγ, Outcome.ok_bind, BlockSparseMatrix.exists_multiplyTranspose_iff hshape]

/-- Constraint velocities are repeated if there is a single one, and so are bias and regularization
if there is a single equation. -/
theorem exists_unprojectedTensor_iff
    (d : m.Describes p w)
    (hx : x.shape = [n]) :
    (∃ r, m.bundle.unprojectedTensor x = .ok r) ↔
      n = m.bundle.numEquations ∨ n = 1 ∨ m.bundle.numEquations = 1 := by
  have hbias : (Tensor.ofVec (m.bundle.cast x.format).format
      (m.bundle.cast x.format).bias).shape = [m.bundle.numEquations] := by
    rw [Tensor.shape_ofVec, ConstraintBundle.bias_cast, d.length_bias, d.numEquations_eq]
  have hinverse : (Tensor.ofVec (m.bundle.cast x.format).format
      (Vec.neg (m.bundle.cast x.format).inverseRegularization)).shape =
        [m.bundle.numEquations] := by
    rw [Tensor.shape_ofVec, Vec.length_neg, ConstraintBundle.inverseRegularization_cast,
      d.length_inverse, d.numEquations_eq]
  unfold ConstraintBundle.unprojectedTensor
  dsimp only
  rw [Outcome.exists_bind_iff, ← Tensor.exists_zipWith_iff (f := (· - ·)) hx hbias]
  refine exists_congr fun difference => and_iff_left_of_imp fun hdifference => ?_
  have hfit := (Tensor.exists_zipWith_iff hx hbias).1 ⟨difference, hdifference⟩
  rw [Tensor.exists_zipWith_iff hinverse (Tensor.shape_of_zipWith hx hbias hdifference)]
  split_ifs with hone
  · exact .inl rfl
  · exact hfit.imp Eq.symm fun h => .inl (h.resolve_left hone)

end Describes

/-- The evaluations of a model of `p`, and those of its bundle, that accept a vector `x` with `n`
coordinates. -/
structure AcceptedSizes (m : ContactModel ℝ) (p : ContactProblem ℝ) (x : Tensor ℝ) (n : ℕ) :
    Prop where
  dynamicsTimes : (∃ r, m.dynamicsTimesTensor x = .ok r) ↔ n = m.numVelocities
  constraintVelocities : (∃ r, m.constraintVelocitiesTensor x = .ok r) ↔ n = m.numVelocities
  evaluate : ∀ withDerivatives,
    (∃ e, m.evaluateTensor x withDerivatives = .ok e) ↔ n = m.numVelocities
  hessian : (∃ H, m.hessianTensor x none = .ok H) ↔ n = m.numVelocities
  /-- An evaluation with derivatives is taken for the velocities, whose number is not looked at. -/
  hessianGiven : ∀ (v : Tensor ℝ) (withDerivatives : Bool) (e : CostEvaluation ℝ),
    m.evaluateTensor v withDerivatives = .ok e →
      ((∃ H, m.hessianTensor x (some e) = .ok H) ↔
        withDerivatives = true ∨ n = m.numVelocities)
  impulses : (∃ r, m.impulsesTensor x = .ok r) ↔ n = m.numVelocities
  generalizedImpulses : (∃ r, m.generalizedImpulsesTensor x = .ok r) ↔ n = m.numVelocities
  expand : (∃ r, m.expandTensor x = .ok r) ↔ n = m.numVelocities
  participating : (∃ r, m.participatingTensor x = .ok r) ↔ n = p.numVelocities
  /-- A single velocity stands for all of them. -/
  momentumGain : (∃ r, m.momentumGainTensor x = .ok r) ↔ n = m.numVelocities ∨ n = 1
  momentumCost : (∃ r, m.momentumCostTensor x = .ok r) ↔ n = m.numVelocities ∨ n = 1
  /-- A single constraint velocity stands for all of them, and the bias and the regularization of a
  single equation stand for those of any number of equations. -/
  unprojected : (∃ r, m.bundle.unprojectedTensor x = .ok r) ↔
    n = m.bundle.numEquations ∨ n = 1 ∨ m.bundle.numEquations = 1
  transposeTimes :
    (∃ r, m.bundle.jacobian.multiplyTranspose x = .ok r) ↔ n = m.bundle.numEquations
  /-- Coordinates behind the slices are not looked at. -/
  project : (∃ r, m.bundle.projectTensor x = .ok r) ↔
    ∀ (k : ℕ) (c : Constraint ℝ), m.bundle.constraints[k]? = some c →
      c.Projects (m.bundle.sliceSize n k)
  projectPlain : (∃ r, m.bundle.impulsesTensor x = .ok r) ↔
    ∀ (k : ℕ) (c : Constraint ℝ), m.bundle.constraints[k]? = some c →
      c.Projects (m.bundle.sliceSize n k)
  regularizerCost : (∃ r, m.bundle.regularizerCostTensor x = .ok r) ↔
    ∀ (k : ℕ) (c : Constraint ℝ), m.bundle.constraints[k]? = some c →
      c.Weighs (m.bundle.sliceSize n k)
  /-- Among contacts alone only the last slice can be too short, and it may have one coordinate. -/
  contacts : (∀ c ∈ m.bundle.constraints, ∃ parameters gap, c.law = .frictionCone parameters gap) →
    ((∃ r, m.bundle.projectTensor x = .ok r) ↔
      3 * m.bundle.numConstraints ≤ n ∨ n + 2 = 3 * m.bundle.numConstraints) ∧
    ((∃ r, m.bundle.impulsesTensor x = .ok r) ↔
      3 * m.bundle.numConstraints ≤ n ∨ n + 2 = 3 * m.bundle.numConstraints) ∧
    ((∃ r, m.bundle.regularizerCostTensor x = .ok r) ↔
      3 * m.bundle.numConstraints ≤ n ∨ n + 2 = 3 * m.bundle.numConstraints)

theorem Describes.acceptedSizes
    {m : ContactModel ℝ} {p : ContactProblem ℝ} {w : List ℝ} {x : Tensor ℝ} {n : ℕ}
    (d : m.Describes p w)
    (hx : x.shape = [n]) :
    m.AcceptedSizes p x n := by
  have hproject := ConstraintBundle.exists_projectTensor_iff d.proper_constraints
    d.length_regularization hx
  have hplain := ConstraintBundle.exists_impulsesTensor_iff d.proper_constraints
    d.length_regularization hx
  have hcost := ConstraintBundle.exists_regularizerCostTensor_iff d.proper_constraints
    d.length_regularization hx
  exact
    { dynamicsTimes := exists_dynamicsTimesTensor_iff hx
      constraintVelocities := d.exists_constraintVelocitiesTensor_iff hx
      evaluate := d.exists_evaluateTensor_iff hx
      hessian := d.exists_hessianTensor_iff hx
      hessianGiven := fun v withDerivatives e he => d.exists_hessianTensor_some_iff hx he
      impulses := d.exists_impulsesTensor_iff hx
      generalizedImpulses := d.exists_generalizedImpulsesTensor_iff hx
      expand := d.exists_expandTensor_iff hx
      participating := by
        rw [← d.length_cliques]
        exact PartialPermutation.exists_apply_iff hx
      momentumGain := d.exists_momentumGainTensor_iff hx
      momentumCost := d.exists_momentumCostTensor_iff hx
      unprojected := d.exists_unprojectedTensor_iff hx
      transposeTimes := by
        rw [d.numEquations_eq]
        exact BlockSparseMatrix.exists_multiplyTranspose_iff hx
      project := hproject
      projectPlain := hplain
      regularizerCost := hcost
      contacts := by
        intro hlaws
        have hthree : ∀ c ∈ m.bundle.constraints, c.numEquations = 3 := by
          intro c hc
          obtain ⟨parameters, gap, hlaw⟩ := hlaws c hc
          exact (d.proper_constraints c hc).numEquations_eq parameters gap hlaw
        have hslices : ∀ c ∈ m.bundle.constraints, ∀ l,
            (c.Projects l ↔ l = 3 ∨ l = 1) ∧ (c.Weighs l ↔ l = 3 ∨ l = 1) := by
          intro c hc
          obtain ⟨parameters, gap, hlaw⟩ := hlaws c hc
          exact Constraint.projects_iff_and_weighs_iff hlaw
        have hprojects := ConstraintBundle.forall_sliceSize_iff (n := n) hthree
          fun c hc l => (hslices c hc l).1
        have hweighs := ConstraintBundle.forall_sliceSize_iff (n := n) hthree
          fun c hc l => (hslices c hc l).2
        exact ⟨hproject.trans hprojects, hplain.trans hprojects, hcost.trans hweighs⟩ }

/-- **Sizes of operands.**  For a model of a problem that can be built: products, permutations and
what starts with them accept the sizes that they are meant for and no other one; the gain and the
cost of momentum and the impulses before the projection also accept a single coordinate; projections
and regularizer costs accept any vector with slices that suit the constraints; and the second
derivative accepts every vector beside an evaluation that holds derivatives. -/
theorem accepted_sizes
    {p : ContactProblem ℝ} (hp : p.Reachable)
    {m : ContactModel ℝ} (hm : (ofProblem p).1 = .ok m)
    {x : Tensor ℝ} {n : ℕ}
    (hx : x.shape = [n]) :
    m.AcceptedSizes p x n := by
  obtain ⟨delassus, -, d, -⟩ := describes_of_ofProblem hp hm
  exact d.acceptedSizes hx

end ContactModel

end Models

namespace ContactModel

/-- A single coordinate in a stack where two velocities participate. -/
theorem accepted_sizes_stack :
    letI := Threshold.ofFormat .double
    (Stack.problem [Stack.onGround, Stack.onBody]).Reachable ∧
      ∃ m : ContactModel ℝ,
        (ofProblem (Stack.problem [Stack.onGround, Stack.onBody])).1 = .ok m ∧
          (Tensor.ofVec .double [(1 : ℝ)]).shape = [1] ∧
          m.AcceptedSizes (Stack.problem [Stack.onGround, Stack.onBody])
            (Tensor.ofVec .double [(1 : ℝ)]) 1 := by
  let _ := Threshold.ofFormat .double
  have hacts : ∀ c ∈ [Stack.onGround, Stack.onBody], Stack.Acts c := by
    simp [Stack.acts_onGround, Stack.acts_onBody]
  obtain ⟨m, w, hm, -⟩ := Stack.exists_model hacts
  have hshape : (Tensor.ofVec .double [(1 : ℝ)]).shape = [1] :=
    Tensor.shape_ofVec _ _
  exact ⟨Stack.reachable hacts, m, hm, hshape,
    accepted_sizes (Stack.reachable hacts) hm hshape⟩

/-- **A vector of the wrong size is accepted**: a single velocity where two participate. -/
theorem momentumGain_single_stack :
    letI := Threshold.ofFormat .double
    (Stack.problem [Stack.onGround, Stack.onBody]).Reachable ∧
      ∃ m : ContactModel ℝ,
        (ofProblem (Stack.problem [Stack.onGround, Stack.onBody])).1 = .ok m ∧
          m.numVelocities = 2 ∧ (Tensor.ofVec .double [(1 : ℝ)]).shape = [1] ∧
          (∃ gain, m.momentumGainTensor (Tensor.ofVec .double [1]) = .ok gain) ∧
          ∃ cost, m.momentumCostTensor (Tensor.ofVec .double [1]) = .ok cost := by
  let _ := Threshold.ofFormat .double
  have hacts : ∀ c ∈ [Stack.onGround, Stack.onBody], Stack.Acts c := by
    simp [Stack.acts_onGround, Stack.acts_onBody]
  obtain ⟨m, w, hm, d⟩ := Stack.exists_model hacts
  have hshape : (Tensor.ofVec .double [(1 : ℝ)]).shape = [1] :=
    Tensor.shape_ofVec _ _
  exact ⟨Stack.reachable hacts, m, hm, Stack.numVelocities_eq d, hshape,
    (d.exists_momentumGainTensor_iff hshape).2 (.inr rfl),
    (d.exists_momentumCostTensor_iff hshape).2 (.inr rfl)⟩

end ContactModel

end ConvexContact
