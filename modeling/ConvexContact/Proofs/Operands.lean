import Mathlib
import ConvexContact.ContactModel.Evaluation
import ConvexContact.Proofs.BlockSparse
import ConvexContact.Proofs.Tensors

/-!
# Evaluating a model for a vector

Where no number is rounded, the evaluations of a model for a tensor with one size are those for its
list of entries.  No arithmetic is opened here, so this holds for numbers and for numbers that vary.
-/

namespace ConvexContact

variable {α : Type}

section Checks

namespace ContactModel

variable {m : ContactModel α} {v : Tensor α}

theorem velocityOperand_of_shape
    (hv : v.shape = [m.numVelocities]) :
    m.velocityOperand v = .ok v.entries := by
  unfold velocityOperand
  rw [Tensor.leadingSize_of_shape hv, Outcome.ok_bind, if_neg (not_not.2 rfl),
    Tensor.vector?_of_shape hv]

/-- Velocities that are taken as operand are the entries of a vector. -/
theorem velocityOperand_eq_ok
    {xs : List α}
    (h : m.velocityOperand v = .ok xs) :
    v.entries = xs ∧ v.entries.length = m.numVelocities := by
  obtain ⟨n, hn, h⟩ := Outcome.bind_eq_ok.1 h
  split_ifs at h with hcount
  cases hshape : v.shape with
  | nil =>
      rw [Tensor.leadingSize, hshape] at hn
      cases hn
  | cons a rest =>
      cases rest with
      | nil =>
          rw [Tensor.leadingSize_of_shape hshape] at hn
          cases hn
          rw [Tensor.vector?_of_shape hshape] at h
          cases h
          exact ⟨rfl, (Tensor.length_entries_of_shape hshape).trans (not_not.1 hcount)⟩
      | cons b rest =>
          rw [Tensor.vector?, hshape] at h
          cases h

variable [Scalar α]

@[simp] theorem velocitiesPermutation_cast
    (format : Format) (m : ContactModel α) :
    (m.cast format).velocitiesPermutation = m.velocitiesPermutation :=
  rfl

theorem evaluateTensor_of_shape
    (hv : v.shape = [m.numVelocities])
    (withDerivatives : Bool) :
    m.evaluateTensor v withDerivatives = (m.cast v.format).evaluate v.entries withDerivatives := by
  unfold evaluateTensor
  rw [velocityOperand_of_shape hv, Outcome.ok_bind]

theorem hessianTensor_of_shape
    (hv : v.shape = [m.numVelocities])
    (evaluation? : Option (CostEvaluation α)) :
    m.hessianTensor v evaluation? = (m.cast v.format).hessian v.entries evaluation? := by
  unfold hessianTensor hessian
  rw [velocityOperand_of_shape hv, Outcome.ok_bind]
  cases evaluation?.bind (·.derivatives?) <;> rfl

end ContactModel

/-- Impulses before the projection, for constraint velocities of the right size. -/
theorem ConstraintBundle.unprojectedImpulses_eq
    [Scalar α]
    {b : ConstraintBundle α} {u : List α}
    (hbias : u.length = b.bias.length)
    (hinverse : b.inverseRegularization.length = u.length) :
    b.unprojectedImpulses u =
      .ok (List.zipWith (· * ·) (Vec.neg b.inverseRegularization) (Vec.sub u b.bias)) := by
  unfold unprojectedImpulses
  rw [Vec.broadcast_of_length_eq _ hbias, Outcome.ok_bind, Vec.broadcast_of_length_eq]
  · rfl
  · rw [Vec.length_neg, hinverse, List.length_zipWith, ← hbias, Nat.min_self]

end Checks

variable [Scalar α] [Unrounded α]

namespace ConstraintBundle

variable {b : ConstraintBundle α}

@[simp] theorem regularization_cast
    (format : Format) (b : ConstraintBundle α) :
    (b.cast format).regularization = b.regularization := by
  simp [cast]

@[simp] theorem inverseRegularization_cast
    (format : Format) (b : ConstraintBundle α) :
    (b.cast format).inverseRegularization = b.inverseRegularization := by
  simp [cast]

@[simp] theorem bias_cast
    (format : Format) (b : ConstraintBundle α) :
    (b.cast format).bias = b.bias := by
  simp [cast]

@[simp] theorem parts_cast
    (format : Format) (b : ConstraintBundle α) (y : List α) :
    (b.cast format).parts y = b.parts y := by
  unfold parts
  rw [regularization_cast]
  rfl

/-- Projected impulses do not depend on the format. -/
@[simp] theorem impulses_cast
    (format : Format) (b : ConstraintBundle α) (y : List α) :
    (b.cast format).impulses y = b.impulses y := by
  unfold impulses
  rw [parts_cast]

end ConstraintBundle

namespace ContactModel

variable {m : ContactModel α} {v : Tensor α}

/-- The velocities of all cliques. -/
theorem expandTensor_of_shape
    (hv : v.shape = [m.numVelocities])
    (hfull : m.fullFreeVelocity.length = m.velocitiesPermutation.domainSize) :
    m.expandTensor v =
      .ok (Tensor.ofVec v.format
        (m.velocitiesPermutation.scatter v.entries m.fullFreeVelocity)) := by
  unfold expandTensor
  rw [PartialPermutation.applyInverse_some hv, Tensor.entries_ofVec]
  · rw [Tensor.shape_ofVec, hfull]
  · exact Tensor.format_ofVec _ _

/-- The projected impulses in the order of the edges. -/
theorem edgeImpulsesTensor_of_shape
    {n : ℕ} {y γ : List α}
    (hv : v.shape = [m.bundle.jacobian.numCols])
    (hvelocities : (m.bundle.jacobian.mulVec v.entries).length = n)
    (hbias : m.bundle.bias.length = n)
    (hinverse : m.bundle.inverseRegularization.length = n)
    (hy : m.unprojected v.entries = .ok y)
    (hγ : m.bundle.impulses y = .ok γ) :
    m.edgeImpulsesTensor v = .ok (Tensor.ofVec v.format γ) := by
  have hproduct : m.constraintVelocitiesTensor v =
      .ok (Tensor.ofVec v.format (m.bundle.jacobian.mulVec v.entries)) := by
    unfold constraintVelocitiesTensor BlockSparseMatrix.multiply
    rw [Tensor.leadingSize_of_shape hv, Outcome.ok_bind, if_neg (not_not.2 rfl),
      Tensor.vector?_of_shape hv]
    dsimp only
    rw [BlockSparseMatrix.mulVec_cast]
  have hdifference : (List.zipWith (· - ·) (m.bundle.jacobian.mulVec v.entries)
      m.bundle.bias).length = n := by
    rw [List.length_zipWith, hvelocities, hbias, Nat.min_self]
  have hneg : (Vec.neg m.bundle.inverseRegularization).length = n := by
    rw [Vec.length_neg, hinverse]
  have hy' : y = List.zipWith (· * ·) (Vec.neg m.bundle.inverseRegularization)
      (List.zipWith (· - ·) (m.bundle.jacobian.mulVec v.entries) m.bundle.bias) := by
    unfold unprojected at hy
    rw [ConstraintBundle.unprojectedImpulses_eq (hvelocities.trans hbias.symm)
      (hinverse.trans hvelocities.symm)] at hy
    cases hy
    rfl
  have hunprojected : m.bundle.unprojectedTensor
      (Tensor.ofVec v.format (m.bundle.jacobian.mulVec v.entries)) =
      .ok (Tensor.ofVec v.format y) := by
    unfold ConstraintBundle.unprojectedTensor
    dsimp only
    rw [ConstraintBundle.bias_cast, ConstraintBundle.inverseRegularization_cast,
      Tensor.zipWith_of_shape (n := n) _ (by rw [Tensor.shape_ofVec, hvelocities])
        (by rw [Tensor.shape_ofVec, hbias]), Outcome.ok_bind,
      Tensor.zipWith_of_shape (n := n) _ (by rw [Tensor.shape_ofVec, hneg])
        (by rw [Tensor.shape_ofVec, Tensor.entries_ofVec, Tensor.entries_ofVec, hdifference])]
    simp only [Tensor.entries_ofVec, Tensor.format_ofVec]
    rw [hy']
    simp [ConstraintBundle.cast]
  have himpulses : m.bundle.impulsesTensor (Tensor.ofVec v.format y) =
      .ok (Tensor.ofVec v.format γ) := by
    unfold ConstraintBundle.impulsesTensor
    rw [Tensor.vector?_ofVec]
    dsimp only
    rw [Tensor.entries_ofVec, ConstraintBundle.impulses_cast, hγ, Tensor.format_ofVec]
    rfl
  unfold edgeImpulsesTensor
  rw [hproduct, Outcome.ok_bind, hunprojected, Outcome.ok_bind, himpulses]

/-- The projected impulses in the order of the problem. -/
theorem impulsesTensor_of_shape
    {n : ℕ} {y γ : List α}
    (hv : v.shape = [m.bundle.jacobian.numCols])
    (hvelocities : (m.bundle.jacobian.mulVec v.entries).length = n)
    (hbias : m.bundle.bias.length = n)
    (hinverse : m.bundle.inverseRegularization.length = n)
    (hy : m.unprojected v.entries = .ok y)
    (hγ : m.bundle.impulses y = .ok γ)
    (hsize : γ.length = m.bundle.equationsPermutation.permutedSize) :
    m.impulsesTensor v =
      .ok (Tensor.ofVec v.format (m.bundle.equationsPermutation.scatter γ
        (Vec.zero m.bundle.equationsPermutation.domainSize))) := by
  unfold impulsesTensor
  rw [edgeImpulsesTensor_of_shape hv hvelocities hbias hinverse hy hγ, Outcome.ok_bind,
    PartialPermutation.applyInverse_none, Tensor.format_ofVec, Tensor.entries_ofVec]
  rw [Tensor.shape_ofVec, hsize]

end ContactModel
end ConvexContact
