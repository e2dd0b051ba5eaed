import Mathlib
import ConvexContact.Constraint.Tangent
import ConvexContact.Proofs.Construction
import ConvexContact.Proofs.Derivatives

/-!
# Contacts on tensors

**Operands.**  Where no number is rounded, the evaluations of a contact for tensors with three
coordinates are those of its cone for the lists of entries, and their results are in the format of
the impulse.

**Result.**  `Constraint.contact_varies`: evaluated at an impulse that varies, a contact has the
impulse and the cost of the values.  The tangent of the impulse is the coded derivative times the
direction, and the tangent of the cost is the inner product of the weighted impulse with the
direction.
-/

namespace ConvexContact

namespace Tensor

variable {α β : Type} [Scalar α] [Scalar β] [Unrounded α] [Unrounded β]

/-- Changing every entry of a tensor that was made from a list of entries. -/
theorem map_ofEntries
    (f : α → β) (format : Format) {shape : List ℕ} {xs : List α}
    (h : xs.length = size shape) :
    (ofEntries format shape xs).map f = ofEntries format shape (xs.map f) := by
  have h' : (xs.map f).length = size shape := by
    rw [List.length_map, h]
  unfold ofEntries
  rw [dif_pos h, dif_pos h']
  simp [Tensor.map]

theorem map_ofVec
    (f : α → β) (format : Format) (xs : List α) :
    (ofVec format xs).map f = ofVec format (xs.map f) := by
  unfold ofVec
  rw [map_ofEntries f format (by simp [size]), List.length_map]

theorem map_ofScalar
    (f : α → β) (format : Format) (x : α) :
    (ofScalar format x).map f = ofScalar format (f x) :=
  map_ofEntries f format rfl

theorem map_ofMatrix
    (f : α → β) (A : DenseMatrix α) :
    (ofMatrix A).map f = ofMatrix (A.map f) := by
  have hentries : (A.map f).entries = A.entries.map f :=
    List.map_flatten.symm
  have hrows : (A.map f).numRows = A.numRows :=
    List.length_map _
  unfold ofMatrix
  rw [map_ofEntries f _ (length_entries_matrix A), hentries, hrows]
  rfl

end Tensor

namespace Constraint

section Operands

variable {α : Type} [Scalar α] [Unrounded α]
variable {c : Constraint α} {p : ConeParameters α} {gap : α} {y R : Tensor α}

/-- Three coordinates each are taken as operands. -/
theorem coneOperands_of_shape
    (hy : y.shape = [3])
    (hR : R.shape = [3]) :
    coneOperands y R = .ok (y.entries, R.entries) := by
  have hcast : (R.cast y.format).shape = [3] :=
    hR
  unfold coneOperands
  dsimp only
  rw [Tensor.zipWith_of_shape _ hcast hy, Outcome.ok_bind, Tensor.shape_ofVec,
    Tensor.entries_cast]

theorem projectTensor_of_shape
    {γ : List α} {D : DenseMatrix α}
    (hlaw : c.law = .frictionCone p gap)
    (hy : y.shape = [3])
    (hR : R.shape = [3])
    (h : p.project y.format y.entries R.entries = .ok (γ, D)) :
    c.projectTensor y R = .ok (Tensor.ofVec y.format γ, Tensor.ofMatrix D) := by
  unfold projectTensor
  rw [hlaw]
  dsimp only
  rw [coneOperands_of_shape hy hR, Outcome.ok_bind]
  dsimp only
  rw [h, Outcome.ok_bind, hR]
  rfl

theorem impulseTensor_of_shape
    {γ : List α}
    (hlaw : c.law = .frictionCone p gap)
    (hy : y.shape = [3])
    (hR : R.shape = [3])
    (h : p.impulse y.entries R.entries = .ok γ) :
    c.impulseTensor y R = .ok (Tensor.ofVec y.format γ) := by
  unfold impulseTensor
  rw [hlaw]
  dsimp only
  rw [coneOperands_of_shape hy hR, Outcome.ok_bind]
  dsimp only
  rw [h, Outcome.ok_bind]

theorem costTensor_of_shape
    {a : α}
    (hlaw : c.law = .frictionCone p gap)
    (hy : y.shape = [3])
    (hR : R.shape = [3])
    (h : p.cost y.entries R.entries = .ok a) :
    c.costTensor y R = .ok (Tensor.ofScalar y.format a) := by
  unfold costTensor
  rw [hlaw]
  dsimp only
  rw [coneOperands_of_shape hy hR, Outcome.ok_bind]
  dsimp only
  rw [h, Outcome.ok_bind]

/-- The cost of the nearest point, for a projected impulse in the format of the regularization. -/
theorem exactCostTensor_of_shape
    {format : Format} {n : ℕ} {γ : List α} {D : Tensor α}
    (hR : R.shape = [n])
    (hformat : R.format = format)
    (hlength : γ.length = n)
    (h : c.projectTensor y R = .ok (Tensor.ofVec format γ, D)) :
    c.exactCostTensor y R =
      .ok (Tensor.ofScalar format
        (Scalar.half * Vec.dot γ (List.zipWith (· * ·) R.entries γ))) := by
  have hscaled : Tensor.zipWith (· * ·) R (Tensor.ofVec format γ) =
      .ok (Tensor.ofVec format (List.zipWith (· * ·) R.entries γ)) := by
    rw [Tensor.zipWith_of_shape _ hR (by rw [Tensor.shape_ofVec, hlength]), hformat,
      Tensor.format_ofVec, Format.join_self, Tensor.entries_ofVec]
  have hdot : Vec.dot? γ (List.zipWith (· * ·) R.entries γ) =
      .ok (Vec.dot γ (List.zipWith (· * ·) R.entries γ)) := by
    unfold Vec.dot?
    rw [if_pos]
    rw [List.length_zipWith, Tensor.length_entries_of_shape hR, hlength, Nat.min_self]
  unfold exactCostTensor
  rw [h, Outcome.ok_bind]
  dsimp only
  rw [hscaled, Outcome.ok_bind]
  simp only [Tensor.vector?_ofVec, Tensor.entries_ofVec, Tensor.format_ofVec, ne_eq,
    not_true_eq_false, if_false]
  rw [hdot, Outcome.ok_bind]

end Operands

section Varying

variable [Threshold]
variable {c : Constraint ℝ} {p : ConeParameters ℝ} {gap : ℝ}

/-- The projection of a contact on three coordinates is that of its cone. -/
theorem projectTensor_ofVec
    (hlaw : c.law = .frictionCone p gap)
    (format : Format) (y R : ContactVector ℝ) :
    c.projectTensor (Tensor.ofVec format y.toList) (Tensor.ofVec format R.toList) =
      .ok (Tensor.ofVec format (((p.regimeAt R y).gradient (y.scaled R)).unscaled R).toList,
        Tensor.ofMatrix (p.derivativeAt format R y)) := by
  apply projectTensor_of_shape hlaw rfl rfl
  rw [Tensor.entries_ofVec, Tensor.entries_ofVec]
  exact p.project_eq format y R

/-- The impulse of a contact on three coordinates is that of its cone. -/
theorem impulseTensor_ofVec
    (hlaw : c.law = .frictionCone p gap)
    (format : Format) (y R : ContactVector ℝ) :
    c.impulseTensor (Tensor.ofVec format y.toList) (Tensor.ofVec format R.toList) =
      .ok (Tensor.ofVec format (((p.regimeAt R y).gradient (y.scaled R)).unscaled R).toList) := by
  apply impulseTensor_of_shape hlaw rfl rfl
  rw [Tensor.entries_ofVec, Tensor.entries_ofVec]
  exact p.impulse_eq y R

/-- The cost of a contact on three coordinates is the potential of its cone. -/
theorem costTensor_ofVec
    (hlaw : c.law = .frictionCone p gap)
    (format : Format) (y R : ContactVector ℝ) :
    c.costTensor (Tensor.ofVec format y.toList) (Tensor.ofVec format R.toList) =
      .ok (Tensor.ofScalar format ((p.regimeAt R y).cost (y.scaled R))) := by
  apply costTensor_of_shape hlaw rfl rfl
  rw [Tensor.entries_ofVec, Tensor.entries_ofVec]
  exact p.cost_eq y R

/-- **Cost, impulse and derivative of a contact agree.**  At an impulse `y` that varies in the
direction `dy`, and for a constant regularization with three positive entries, no evaluation of a
contact is refused.  Impulse and cost have the values that they have at `y`.  The tangent of the
impulse is the derivative that the projection states, times `dy`; the tangent of the cost is the
inner product of `R γ` with `dy`, where `γ` is the projected impulse. -/
theorem contact_varies
    (hlaw : c.law = .frictionCone p gap) (hvalid : p.validate = .ok p)
    {y dy R : Tensor ℝ} (hy : y.shape = [3]) (hdy : dy.shape = [3]) (hR : R.shape = [3])
    (hpos : ∀ r ∈ R.entries, 0 < r) :
    ∃ γ D a x Γ A,
      c.projectTensor y R = .ok (γ, Tensor.ofMatrix D) ∧
        c.impulseTensor y R = .ok γ ∧
        c.costTensor y R = .ok a ∧
        y.dual (some dy) = .ok x ∧
        (c.map Dual.const).impulseTensor x (R.map Dual.const) = .ok Γ ∧
        (c.map Dual.const).costTensor x (R.map Dual.const) = .ok A ∧
        (Γ.map Dual.value = γ ∧ A.map Dual.value = a) ∧
        Γ.tangent = Tensor.ofVec y.format (D.mulVec dy.entries) ∧
        A.tangent = Tensor.ofScalar y.format
          (Vec.dot (List.zipWith (· * ·) R.entries γ.entries) dy.entries) := by
  have hlaw' : (c.map Dual.const).law = .frictionCone (p.map Dual.const) ⟨gap, none⟩ := by
    change c.law.map Dual.const = _
    rw [hlaw]
    rfl
  obtain ⟨x, hx, hshape, hformat, hvaries⟩ := Tensor.dual_eq_ok hy hdy
  obtain ⟨y', hy'⟩ := ContactVector.exists_toList (Tensor.length_entries_of_shape hy)
  obtain ⟨dy', hdy'⟩ := ContactVector.exists_toList (Tensor.length_entries_of_shape hdy)
  obtain ⟨R', hR'⟩ := ContactVector.exists_toList (Tensor.length_entries_of_shape hR)
  have hpos' : 0 < R'.t₁ ∧ 0 < R'.t₂ ∧ 0 < R'.n := by
    rw [hR'] at hpos
    simpa [ContactVector.toList] using hpos
  rw [hy', hdy'] at hvaries
  obtain ⟨Γ, -, A, -, himpulse, hcost, ⟨hvalue, htangent⟩, hcostValue, hcostTangent⟩ :=
    ConeParameters.tangents_project (ConeParameters.flaw?_of_validate hvalid) hpos' y.format
      hvaries
  have hentries : (R.map Dual.const).entries = R'.toList.map Dual.const := by
    rw [← hR']
    rfl
  rw [← hentries] at himpulse hcost
  refine ⟨_, _, _, x, _, _,
    projectTensor_of_shape hlaw hy hR (by rw [hy', hR']; exact p.project_eq y.format y' R'),
    impulseTensor_of_shape hlaw hy hR (by rw [hy', hR']; exact p.impulse_eq y' R'),
    costTensor_of_shape hlaw hy hR (by rw [hy', hR']; exact p.cost_eq y' R'), hx,
    impulseTensor_of_shape hlaw' hshape hR himpulse,
    costTensor_of_shape hlaw' hshape hR hcost, ⟨?_, ?_⟩, ?_, ?_⟩
  · rw [Tensor.map_ofVec, hvalue, hformat]
  · rw [Tensor.map_ofScalar, hcostValue, hformat]
  · rw [Tensor.tangent, Tensor.map_ofVec, htangent, hformat, hdy']
  · rw [Tensor.tangent, Tensor.map_ofScalar, hcostTangent, hformat, hdy', hR',
      Tensor.entries_ofVec]

end Varying

/-- A contact that slides, at an impulse that turns. -/
theorem contact_varies_sliding :
    letI := Threshold.ofFormat .double
    let p := ConeParameters.ofMaterial (1 / 2 : ℝ) 1 0
    let c := Constraint.contact p 0 0 (DenseMatrix.identity .double 3) none
    let y : Tensor ℝ := Tensor.ofVec .double [3, 0, 1]
    let dy : Tensor ℝ := Tensor.ofVec .double [1, 2, -1]
    let R : Tensor ℝ := Tensor.ofVec .double [1, 1, 2]
    (c.law = .frictionCone p 0 ∧ p.validate = .ok p) ∧
      (y.shape = [3] ∧ dy.shape = [3] ∧ R.shape = [3] ∧ ∀ r ∈ R.entries, 0 < r) ∧
      ∃ γ D a x Γ A,
        c.projectTensor y R = .ok (γ, Tensor.ofMatrix D) ∧
          c.impulseTensor y R = .ok γ ∧
          c.costTensor y R = .ok a ∧
          y.dual (some dy) = .ok x ∧
          (c.map Dual.const).impulseTensor x (R.map Dual.const) = .ok Γ ∧
          (c.map Dual.const).costTensor x (R.map Dual.const) = .ok A ∧
          (Γ.map Dual.value = γ ∧ A.map Dual.value = a) ∧
          Γ.tangent = Tensor.ofVec y.format (D.mulVec dy.entries) ∧
          A.tangent = Tensor.ofScalar y.format
            (Vec.dot (List.zipWith (· * ·) R.entries γ.entries) dy.entries) := by
  let _ := Threshold.ofFormat .double
  intro p c y dy R
  have hvalid : p.validate = .ok p :=
    ConeParameters.validate_of_flaw?_eq_none
      (ConeParameters.flaw?_ofMaterial one_half_pos.le one_pos le_rfl)
  have hpos : ∀ r ∈ R.entries, 0 < r := by
    simp [R]
  exact ⟨⟨rfl, hvalid⟩, ⟨rfl, rfl, rfl, hpos⟩,
    contact_varies (c := c) rfl hvalid rfl rfl rfl hpos⟩

end Constraint
end ConvexContact
