import Mathlib
import ConvexContact.Proofs.Cone.Tangents
import ConvexContact.Proofs.Evaluations

/-!
# Derivatives of single constraints

**Constraints.**  The projected impulse of either kind of constraint varies by the coded derivative
of its projection, and its cost along the impulse in the norm of the regularization
(`Constraint.Varies`).

**Loads.**  A load whose constraint velocity varies in a direction `du` has unprojected impulses
that vary in the direction `-R⁻¹ du`.
-/

namespace ConvexContact

variable [Threshold]

section Vectors

/-- Multiplying by a diagonal is self-adjoint. -/
theorem Vec.dot_zipWith_mul
    (r x y : List ℝ) :
    Vec.dot x (List.zipWith (· * ·) r y) = Vec.dot (List.zipWith (· * ·) r x) y := by
  induction r generalizing x y with
  | nil =>
      rw [List.zipWith_nil_left, List.zipWith_nil_left, Vec.dot_nil_right, Vec.dot_nil_left]
  | cons a r ih =>
      cases x with
      | nil =>
          rw [List.zipWith_nil_right, Vec.dot_nil_left, Vec.dot_nil_left]
      | cons b x =>
          cases y with
          | nil =>
              rw [List.zipWith_nil_right, Vec.dot_nil_right, Vec.dot_nil_right]
          | cons c y =>
              rw [List.zipWith_cons_cons, List.zipWith_cons_cons, Vec.dot_cons, Vec.dot_cons, ih]
              ring

theorem DenseMatrix.mulVec_identity
    (format : Format) (x : List ℝ) :
    (DenseMatrix.identity format x.length).mulVec x = x := by
  apply Vec.eq_of_dot_eq (n := x.length)
  · rw [DenseMatrix.length_mulVec, DenseMatrix.identity, DenseMatrix.numRows_tabulate]
  · rfl
  · intro w hw
    rw [DenseMatrix.identity, DenseMatrix.dot_mulVec_tabulate hw rfl, Vec.dot_eq_sum hw rfl]
    apply Finset.sum_congr rfl
    intro i hi
    simp [Finset.mem_range.1 hi]

end Vectors

namespace Constraint

variable {c : Constraint ℝ} {format : Format} {Y : List (Dual ℝ)} {y dy R : List ℝ}

/-- The evaluations of a constraint at impulses that vary: none is refused, and the tangents of
impulse and cost are those that the evaluations at the values state. -/
def Varying (c : Constraint ℝ) (format : Format) (Y : List (Dual ℝ)) (R dy γ : List ℝ)
    (D : DenseMatrix ℝ) (a : ℝ) : Prop :=
  ∃ Γ D' C,
    (c.map Dual.const).project format Y (R.map Dual.const) = .ok (Γ, D') ∧
      (c.map Dual.const).impulse Y (R.map Dual.const) = .ok Γ ∧
      (c.map Dual.const).cost Y (R.map Dual.const) = .ok C ∧
      Varies Γ γ (D.mulVec dy) ∧
      C.value = a ∧
      C.tangent = Vec.dot (List.zipWith (· * ·) R γ) dy

/-- A contact on three coordinates varies as its projection states. -/
theorem varying_frictionCone
    {parameters : ConeParameters ℝ} {gap : ℝ}
    (hlaw : c.law = .frictionCone parameters gap)
    (hvalid : parameters.flaw? = none)
    {y dy R : ContactVector ℝ}
    (hpos : ∀ r ∈ R.toList, 0 < r)
    (hY : Varies Y y.toList dy.toList) :
    ∃ γ D a,
      c.project format y.toList R.toList = .ok (γ, D) ∧
        c.cost y.toList R.toList = .ok a ∧
        c.Varying format Y R.toList dy.toList γ D a := by
  have hlaw' : (c.map Dual.const).law = .frictionCone (parameters.map Dual.const) ⟨gap, none⟩ := by
    change c.law.map Dual.const = _
    rw [hlaw]
    rfl
  simp only [ContactVector.toList, List.mem_cons, List.not_mem_nil, or_false, forall_eq_or_imp,
    forall_eq] at hpos
  obtain ⟨Γ, D', C, hproject, himpulse, hcost, hvaries, hvalue, htangent⟩ :=
    ConeParameters.tangents_project hvalid hpos format hY
  unfold Varying project impulse cost
  rw [hlaw, hlaw']
  exact ⟨_, _, _, parameters.project_eq format y R, parameters.cost_eq y R, Γ, D', C, hproject,
    himpulse, hcost, hvaries, hvalue, htangent⟩

/-- An unrestricted constraint varies as its impulse does. -/
theorem varying_unrestricted
    (hlaw : c.law = .unrestricted)
    (hR : R.length = y.length)
    (hY : Varies Y y dy) :
    ∃ γ D a,
      c.project format y R = .ok (γ, D) ∧
        c.cost y R = .ok a ∧
        c.Varying format Y R dy γ D a := by
  have hlaw' : (c.map Dual.const).law = .unrestricted := by
    change c.law.map Dual.const = _
    rw [hlaw]
    rfl
  obtain ⟨hlength, hdirection⟩ := hY.length_eq
  have hscaled : (List.zipWith (· * ·) R y).length = y.length := by
    rw [List.length_zipWith, hR, Nat.min_self]
  have hscaled' : (List.zipWith (· * ·) (R.map Dual.const) Y).length = Y.length := by
    rw [List.length_zipWith, List.length_map, hR, hlength, Nat.min_self]
  obtain ⟨hvalue, htangent⟩ := hY.dot (hY.mul_const R)
  have hcost : exactCost y R = .ok (Scalar.half * Vec.dot y (List.zipWith (· * ·) R y)) := by
    unfold exactCost
    rw [Vec.broadcast_of_length_eq _ hR, Outcome.ok_bind, Vec.dot?, if_pos hscaled.symm]
    rfl
  have hcost' : exactCost Y (R.map Dual.const) =
      .ok (Scalar.half * Vec.dot Y (List.zipWith (· * ·) (R.map Dual.const) Y)) := by
    unfold exactCost
    rw [Vec.broadcast_of_length_eq _ (by rw [List.length_map, hR, hlength]), Outcome.ok_bind,
      Vec.dot?, if_pos hscaled'.symm]
    rfl
  unfold Varying project impulse cost
  rw [hlaw, hlaw']
  refine ⟨_, _, _, rfl, hcost, _, _, _, rfl, rfl, hcost', ?_, ?_, ?_⟩
  · rw [← hdirection, DenseMatrix.mulVec_identity]
    exact hY
  · rw [Dual.value_mul, Dual.value_half, hvalue, Exact.half_eq]
  · rw [Dual.tangent_mul, Dual.tangent_half, Dual.value_half, htangent, Vec.dot_zipWith_mul,
      Vec.dot_comm (List.zipWith (· * ·) R dy), Vec.dot_zipWith_mul]
    ring

/-- **A constraint varies as its projection states**, for either kind of constraint. -/
theorem Proper.varying
    (hc : c.Proper)
    (format : Format)
    (hR : R.length = c.numEquations)
    (hpos : ∀ r ∈ R, 0 < r)
    (hy : y.length = c.numEquations)
    (hY : Varies Y y dy) :
    ∃ γ D a,
      c.project format y R = .ok (γ, D) ∧ c.cost y R = .ok a ∧
        c.Varying format Y R dy γ D a := by
  cases hlaw : c.law with
  | frictionCone parameters gap =>
      have hthree := hc.numEquations_eq parameters gap hlaw
      obtain ⟨y, rfl⟩ := ContactVector.exists_toList (hy.trans hthree)
      obtain ⟨R, rfl⟩ := ContactVector.exists_toList (hR.trans hthree)
      obtain ⟨dy, rfl⟩ := ContactVector.exists_toList hY.length_eq.2
      exact varying_frictionCone hlaw (hc.flaw?_eq_none parameters gap hlaw) hpos hY
  | unrestricted =>
      exact varying_unrestricted hlaw (hR.trans hy.symm) hY

end Constraint

namespace Load

variable {x : Load} {timeStep : ℝ} {format : Format} {Y : List (Dual ℝ)} {u du : List ℝ}

/-- The direction in which the unprojected impulse varies. -/
noncomputable def unprojectedTangent (x : Load) (timeStep : ℝ) (du : List ℝ) : List ℝ :=
  List.zipWith (fun d r => -d / r) du (x.regularization timeStep)

/-- The direction in which the projected impulse varies. -/
noncomputable def impulseTangent (x : Load) (timeStep : ℝ) (format : Format) (u du : List ℝ) :
    List ℝ :=
  (x.derivative timeStep format u).mulVec (x.unprojectedTangent timeStep du)

theorem length_unprojectedTangent
    (hx : x.constraint.Proper)
    (hdu : du.length = x.constraint.numEquations) :
    (x.unprojectedTangent timeStep du).length = x.constraint.numEquations := by
  rw [unprojectedTangent, List.length_zipWith, hdu, length_regularization hx, Nat.min_self]

theorem length_impulseTangent
    (hx : x.constraint.Proper)
    (hu : u.length = x.constraint.numEquations) :
    (x.impulseTangent timeStep format u du).length = x.constraint.numEquations := by
  rw [impulseTangent, DenseMatrix.length_mulVec, (project_eq hx hu).2.1]

/-- In the norm of the regularization, the direction of the unprojected impulse is that of the
velocity. -/
theorem dot_unprojectedTangent
    {R γ du : List ℝ}
    (hpos : ∀ r ∈ R, 0 < r)
    (hR : R.length = du.length) :
    Vec.dot (List.zipWith (· * ·) R γ) (List.zipWith (fun d r => -d / r) du R) =
      -Vec.dot du γ := by
  induction R generalizing γ du with
  | nil =>
      rw [List.length_nil, eq_comm, List.length_eq_zero_iff] at hR
      rw [hR, List.zipWith_nil_left, Vec.dot_nil_left, Vec.dot_nil_left, neg_zero]
  | cons r R ih =>
      cases du with
      | nil =>
          cases hR
      | cons d du =>
          cases γ with
          | nil =>
              rw [List.zipWith_nil_right, Vec.dot_nil_left, Vec.dot_nil_right, neg_zero]
          | cons g γ =>
              have hr : r ≠ 0 :=
                (hpos r List.mem_cons_self).ne'
              rw [List.zipWith_cons_cons, List.zipWith_cons_cons, Vec.dot_cons, Vec.dot_cons,
                ih (fun s hs => hpos s (List.mem_cons_of_mem r hs)) (by simpa using hR)]
              field_simp
              ring

/-- The block of a load in the second derivative gives the opposite of this direction. -/
theorem mulVec_hessianBlock
    (hx : x.constraint.Proper)
    (hu : u.length = x.constraint.numEquations)
    (hdu : du.length = x.constraint.numEquations) :
    (x.hessianBlock timeStep format u).mulVec du =
      Vec.neg (x.impulseTangent timeStep format u du) := by
  have hcols : (x.derivative timeStep format u).numCols = x.constraint.numEquations :=
    (project_eq hx hu).2.2
  have hdirection :
      List.zipWith (· * ·) ((x.regularization timeStep).map (1 / ·)) du =
        Vec.neg (x.unprojectedTangent timeStep du) := by
    rw [unprojectedTangent, Vec.neg, List.map_zipWith, List.zipWith_map_left, List.zipWith_comm]
    congr 1
    funext d r
    rw [neg_div, neg_neg, one_div_mul_eq_div]
  unfold hessianBlock
  rw [DenseMatrix.mulVec_hessianBlock, hdirection, DenseMatrix.mulVec_neg]
  · rfl
  · rw [List.length_map, length_regularization hx, hcols]
  · rw [hdu, hcols]

/-- **A load varies as its projection states.** -/
theorem varying
    (hx : x.constraint.Proper)
    (format : Format)
    (hpos : ∀ r ∈ x.regularization timeStep, 0 < r)
    (hu : u.length = x.constraint.numEquations)
    (hY : Varies Y (x.unprojected timeStep u) (x.unprojectedTangent timeStep du)) :
    x.constraint.Varying format Y (x.regularization timeStep)
      (x.unprojectedTangent timeStep du) (x.impulse timeStep u) (x.derivative timeStep format u)
      (x.cost timeStep u) := by
  obtain ⟨γ, D, a, hproject, hcost, hvarying⟩ :=
    hx.varying format (length_regularization hx) hpos (length_unprojected hx hu) hY
  rw [(project_eq hx hu).1] at hproject
  rw [cost_eq hx hu] at hcost
  cases hproject
  cases hcost
  exact hvarying

end Load

end ConvexContact
