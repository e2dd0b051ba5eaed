import Mathlib
import ConvexContact.Scene
import ConvexContact.Proofs.Construction
import ConvexContact.Proofs.ContactFrames
import ConvexContact.Proofs.Inertia

/-!
# Point contacts between two bodies

**Making.**  A contact of two bodies is made whenever its normal is not zero, its parameters are in
their ranges and its Jacobians have three rows (`Scene.contactConstraint_between`).  Its constraint
velocity is the frame applied to the velocity of the second body relative to the first one
(`Scene.velocity_between`).

**Result.**  `Scene.contact_proper`: the frame is a rotation onto tangents and unit normal exactly
if the normal is at least `10⁻¹²` long, and then the constraint velocity is as long as the relative
velocity and its third coordinate is the component along the unit normal.
-/

namespace ConvexContact

open Matrix

section Velocities

variable [Threshold]

/-- Adding to the opposite of a vector is subtracting the vector. -/
theorem Vec.add_neg_left
    (x y : List ℝ) :
    add (neg x) y = sub y x := by
  unfold add neg sub
  rw [List.zipWith_map_left, List.zipWith_comm]
  congr 1
  funext b a
  exact neg_add_eq_sub a b

namespace DenseMatrix

theorem cast_ofMatrix
    (format : Format) (A : DenseMatrix ℝ) :
    (Tensor.ofMatrix A).cast format = Tensor.ofMatrix (A.cast format) := by
  refine Tensor.eq_of_entries (Tensor.format_ofEntries _ _ _).symm ?_ ?_
  · change (Tensor.ofMatrix A).shape = _
    unfold Tensor.ofMatrix
    rw [Tensor.shape_ofEntries, Tensor.shape_ofEntries, numRows_cast, numCols_cast]
  · rw [Tensor.entries_cast]
    unfold Tensor.ofMatrix
    rw [Tensor.entries_ofEntries _ (Tensor.length_entries_matrix A),
      Tensor.entries_ofEntries _ (Tensor.length_entries_matrix _), entries, entries, rows_cast]

theorem neg_mulVec
    (A : DenseMatrix ℝ) (x : List ℝ) :
    A.neg.mulVec x = Vec.neg (A.mulVec x) := by
  have hrow : ∀ row : List ℝ, Vec.dot (row.map (- ·)) x = -Vec.dot row x := by
    intro row
    rw [Vec.dot_comm, Vec.dot_comm row x]
    exact Vec.dot_neg_right x row
  change (A.rows.map (List.map (- ·))).map (Vec.dot · x) = (A.rows.map (Vec.dot · x)).map (- ·)
  rw [List.map_map, List.map_map]
  exact List.map_congr_left fun row _ => hrow row

/-- A rotation keeps lengths. -/
theorem norm_mulVec_of_mem
    {R : DenseMatrix ℝ} {u : List ℝ}
    (hrows : R.numRows = 3)
    (hcols : R.numCols = 3)
    (hR : R.toMatrix 3 3 ∈ specialOrthogonalGroup (Fin 3) ℝ)
    (hu : u.length = 3) :
    Vec.norm (R.mulVec u) = Vec.norm u := by
  have hinverse : (R.toMatrix 3 3)ᵀ * R.toMatrix 3 3 = 1 :=
    (mem_orthogonalGroup_iff' _ _).1 (mem_specialOrthogonalGroup_iff.1 hR).1
  have hlength : (R.mulVec u).length = 3 := by
    rw [length_mulVec, hrows]
  rw [Vec.norm_eq_sqrt, Vec.norm_eq_sqrt, Vec.dot_eq_dotProduct hlength hlength,
    Vec.dot_eq_dotProduct hu hu, coordinates_mulVec hrows hcols hu, dotProduct_mulVec,
    vecMul_mulVec, hinverse, vecMul_one]

end DenseMatrix

namespace ContactFrame

theorem numRows_toMatrix
    (F : ContactFrame ℝ) (format : Format) :
    (F.toMatrix format).numRows = 3 :=
  DenseMatrix.numRows_tabulate _ _ _ _

theorem worldVector?_ofVec
    (source format : Format) (v : WorldVector ℝ) :
    worldVector? ((Tensor.ofVec source v.toList).cast format) = some v :=
  rfl

/-- A frame is made of every normal except zero. -/
theorem ofNormal_of_ne_zero
    {v : WorldVector ℝ}
    (hv : v ≠ ⟨0, 0, 0⟩)
    (source format : Format) :
    ofNormal ((Tensor.ofVec source v.toList).cast format) =
      .ok ((ofDirection v).toMatrix format) := by
  unfold ofNormal
  rw [worldVector?_ofVec]
  dsimp only
  rw [if_neg fun h => hv (WorldVector.norm_eq_zero_iff.1 ((Exact.isZero_iff _).1 h))]
  rfl

theorem ofNormal_zero
    (source format : Format) :
    ofNormal ((Tensor.ofVec source [0, 0, (0 : ℝ)]).cast format) = .error .zeroNormal := by
  unfold ofNormal
  rw [show [0, 0, (0 : ℝ)] = (⟨0, 0, 0⟩ : WorldVector ℝ).toList from rfl, worldVector?_ofVec]
  exact if_pos ((Exact.isZero_iff _).2 (WorldVector.norm_eq_zero_iff.2 rfl))

/-- A world Jacobian in the coordinates of a frame. -/
theorem jacobian_ofMatrix
    {R J : DenseMatrix ℝ}
    (hR : R.numCols = 3)
    (hJ : J.numRows = 3) :
    jacobian R (Tensor.ofMatrix J) = .ok (R.mul (J.cast R.format)) := by
  have hworld : worldJacobian R.format (Tensor.ofMatrix J) = .ok (J.cast R.format) := by
    unfold worldJacobian
    rw [DenseMatrix.cast_ofMatrix, Tensor.matrix?_ofMatrix]
    dsimp only
    rw [if_neg]
    rw [DenseMatrix.numRows_cast, not_not, hJ]
  unfold jacobian
  rw [hworld, Outcome.ok_bind, if_neg (not_not.2 hR)]

end ContactFrame

/-- A contact of two bodies, with the velocities of the contact point on each of them. -/
noncomputable def PointContact.between (first second : ℕ) (J₀ J₁ : DenseMatrix ℝ)
    (normal gap : Tensor ℝ) : PointContact ℝ where
  clique := first
  jacobian := Tensor.ofMatrix J₀
  normal := normal
  gap := gap
  second? := some second
  secondJacobian? := some (Tensor.ofMatrix J₁)

namespace Scene

variable {first second : ℕ} {J₀ J₁ : DenseMatrix ℝ} {v : WorldVector ℝ}

/-- The blocks of a contact in the coordinates of its frame, with opposite signs. -/
noncomputable def framed (parameters : ConeParameters ℝ) (phi : ℝ) (first second : ℕ)
    (R J₀ J₁ : DenseMatrix ℝ) : Constraint ℝ :=
  .contact parameters phi first (R.mul (J₀.cast R.format)).neg
    (some (second, R.mul (J₁.cast R.format)))

/-- A contact with a normal is made if its parts are in order. -/
theorem contactConstraint_between
    {parameters : ConeParameters ℝ}
    (hv : v ≠ ⟨0, 0, 0⟩)
    (hvalid : parameters.flaw? = none)
    (hcliques : second ≠ first)
    (hJ₀ : J₀.numRows = 3)
    (hJ₁ : J₁.numRows = 3)
    (source format : Format) (phi : ℝ) :
    contactConstraint format parameters
        (.between first second J₀ J₁ (Tensor.ofVec source v.toList) (Tensor.ofScalar source phi)) =
      .ok (framed parameters phi first second ((ContactFrame.ofDirection v).toMatrix format)
        J₀ J₁) := by
  have hrows : ∀ J : DenseMatrix ℝ,
      (((ContactFrame.ofDirection v).toMatrix format).mul (J.cast format)).numRows = 3 := by
    intro J
    rw [DenseMatrix.numRows_mul, ContactFrame.numRows_toMatrix]
  have hneg : (((ContactFrame.ofDirection v).toMatrix format).mul (J₀.cast format)).neg.numRows =
      3 :=
    (List.length_map _).trans (hrows J₀)
  have hsecond : ∀ side ∈
      some (second, ((ContactFrame.ofDirection v).toMatrix format).mul (J₁.cast format)),
      side.1 ≠ first ∧ side.2.numRows = 3 := by
    rintro _ ⟨⟩
    exact ⟨hcliques, hrows J₁⟩
  unfold contactConstraint PointContact.between
  dsimp only
  rw [ContactFrame.ofNormal_of_ne_zero hv, Outcome.ok_bind,
    ContactFrame.jacobian_ofMatrix rfl hJ₀, Outcome.ok_bind,
    ContactFrame.jacobian_ofMatrix rfl hJ₁, Outcome.ok_bind]
  exact Constraint.ofContact_eq_ok hvalid rfl rfl hneg hsecond

/-- The velocity of a contact is the relative velocity of the bodies in the frame. -/
theorem velocity_framed
    {R : DenseMatrix ℝ} {v₀ v₁ : List ℝ}
    (hcols : R.numCols = 3)
    (hJ₀ : J₀.numRows = 3)
    (hJ₁ : J₁.numRows = 3)
    (hv₀ : v₀.length = J₀.numCols)
    (hv₁ : v₁.length = J₁.numCols)
    (parameters : ConeParameters ℝ) (phi : ℝ) :
    (framed parameters phi first second R J₀ J₁).velocity (Tensor.ofVec R.format v₀)
        (some (Tensor.ofVec R.format v₁)) =
      .ok (Tensor.ofVec R.format (R.mulVec (Vec.sub (J₁.mulVec v₁) (J₀.mulVec v₀)))) := by
  have hproduct : ∀ {J : DenseMatrix ℝ} {x : List ℝ}, J.numRows = 3 → x.length = J.numCols →
      (R.mul (J.cast R.format)).mulVec x = R.mulVec (J.mulVec x) := by
    intro J x hJ hx
    rw [DenseMatrix.mulVec_mul (by rw [hcols, DenseMatrix.numRows_cast, hJ])
      (by rw [hx, DenseMatrix.numCols_cast]), DenseMatrix.mulVec_cast]
  have hformat : ∀ J : DenseMatrix ℝ, (R.mul (J.cast R.format)).format = R.format := fun J =>
    Format.join_self _
  have hfirst : Tensor.matMul (R.mul (J₀.cast R.format)).neg (Tensor.ofVec R.format v₀) =
      .ok (Tensor.ofVec R.format (Vec.neg (R.mulVec (J₀.mulVec v₀)))) := by
    rw [Tensor.matMul_of_shape, DenseMatrix.neg_mulVec, Tensor.entries_ofVec, hproduct hJ₀ hv₀,
      Tensor.format_ofVec]
    · rw [Tensor.format_ofVec]
      exact hformat J₀
    · rw [Tensor.shape_ofVec, hv₀]
      rfl
  have hsecond : Tensor.matMul (R.mul (J₁.cast R.format)) (Tensor.ofVec R.format v₁) =
      .ok (Tensor.ofVec R.format (R.mulVec (J₁.mulVec v₁))) := by
    rw [Tensor.matMul_of_shape, Tensor.entries_ofVec, hproduct hJ₁ hv₁, Tensor.format_ofVec]
    · rw [Tensor.format_ofVec]
      exact hformat J₁
    · rw [Tensor.shape_ofVec, hv₁]
      rfl
  have hsum : Vec.add (Vec.neg (R.mulVec (J₀.mulVec v₀))) (R.mulVec (J₁.mulVec v₁)) =
      R.mulVec (Vec.sub (J₁.mulVec v₁) (J₀.mulVec v₀)) := by
    rw [Vec.add_neg_left, DenseMatrix.mulVec_sub]
    rw [DenseMatrix.length_mulVec, DenseMatrix.length_mulVec, hJ₀, hJ₁]
  unfold Constraint.velocity framed Constraint.contact
  rw [hfirst, Outcome.ok_bind]
  dsimp only
  rw [hsecond, Outcome.ok_bind, Tensor.add_ofVec, hsum]
  simp [DenseMatrix.length_mulVec]

/-- A matrix that turns world coordinates into tangents and the unit normal of a vector. -/
structure Proper (R : DenseMatrix ℝ) (v : WorldVector ℝ) : Prop where
  mem_rotations : R.toMatrix 3 3 ∈ specialOrthogonalGroup (Fin 3) ℝ
  normal_eq : R.rows.getD 2 [] = v.toList.map (· / v.norm)

theorem proper_ofDirection_iff
    (format : Format) :
    Proper ((ContactFrame.ofDirection v).toMatrix format) v ↔ 1 / 10 ^ 12 ≤ v.norm := by
  constructor
  · intro h
    exact (ContactFrame.toMatrix_mem_iff format).1 h.mem_rotations
  · intro h
    refine ⟨(ContactFrame.toMatrix_mem_iff format).2 h, ?_⟩
    change v.normalize.toList = _
    rw [WorldVector.normalize_eq, WorldVector.divisor_of_le h]
    rfl

/-- A proper frame keeps the length of a velocity, and its third coordinate is the component along
the unit normal. -/
theorem Proper.mulVec
    {R : DenseMatrix ℝ} {u : List ℝ}
    (h : Proper R v)
    (hrows : R.numRows = 3)
    (hcols : R.numCols = 3)
    (hu : u.length = 3) :
    Vec.norm (R.mulVec u) = Vec.norm u ∧
      (R.mulVec u).getD 2 0 = Vec.dot (v.toList.map (· / v.norm)) u := by
  refine ⟨DenseMatrix.norm_mulVec_of_mem hrows hcols h.mem_rotations hu, ?_⟩
  rw [DenseMatrix.getD_mulVec, h.normal_eq]

/-- **Contacts are seen in the frame of their normal.**  Every normal except zero has a frame.  A
contact of two bodies with that normal is made, and its constraint velocity is the relative velocity
of the bodies in the frame.  The frame is proper exactly if the normal is at least `10⁻¹²` long;
then the constraint velocity is as long as the relative velocity, and its third coordinate is the
component along the unit normal. -/
theorem contact_proper
    (v : WorldVector ℝ) (source format : Format) :
    (ContactFrame.ofNormal ((Tensor.ofVec source v.toList).cast format) = .error .zeroNormal ↔
        v = ⟨0, 0, 0⟩) ∧
      (v ≠ ⟨0, 0, 0⟩ → ∃ R,
        ContactFrame.ofNormal ((Tensor.ofVec source v.toList).cast format) = .ok R ∧
          (R.numRows = 3 ∧ R.numCols = 3) ∧
          (Proper R v ↔ 1 / 10 ^ 12 ≤ v.norm) ∧
          ∀ {parameters : ConeParameters ℝ} {first second : ℕ} {J₀ J₁ : DenseMatrix ℝ},
            parameters.validate = .ok parameters → second ≠ first →
              J₀.numRows = 3 → J₁.numRows = 3 → ∀ phi : ℝ,
                ∃ c, contactConstraint format parameters
                    (.between first second J₀ J₁ (Tensor.ofVec source v.toList)
                      (Tensor.ofScalar source phi)) = .ok c ∧
                  ∀ v₀ v₁ : List ℝ, v₀.length = J₀.numCols → v₁.length = J₁.numCols →
                    let u := Vec.sub (J₁.mulVec v₁) (J₀.mulVec v₀)
                    c.velocity (Tensor.ofVec format v₀) (some (Tensor.ofVec format v₁)) =
                        .ok (Tensor.ofVec format (R.mulVec u)) ∧
                      (1 / 10 ^ 12 ≤ v.norm →
                        Vec.norm (R.mulVec u) = Vec.norm u ∧
                          (R.mulVec u).getD 2 0 = Vec.dot (v.toList.map (· / v.norm)) u)) := by
  constructor
  · constructor
    · intro h
      by_contra hv
      rw [ContactFrame.ofNormal_of_ne_zero hv] at h
      cases h
    · rintro rfl
      exact ContactFrame.ofNormal_zero source format
  · intro hv
    have hrows := ContactFrame.numRows_toMatrix (ContactFrame.ofDirection v) format
    refine ⟨_, ContactFrame.ofNormal_of_ne_zero hv source format, ⟨hrows, rfl⟩,
      proper_ofDirection_iff format, ?_⟩
    intro parameters first second J₀ J₁ hvalid hcliques hJ₀ hJ₁ phi
    refine ⟨_, contactConstraint_between hv (ConeParameters.flaw?_of_validate hvalid) hcliques
      hJ₀ hJ₁ source format phi, ?_⟩
    intro v₀ v₁ hv₀ hv₁ u
    refine ⟨velocity_framed rfl hJ₀ hJ₁ hv₀ hv₁ parameters phi, ?_⟩
    intro hlong
    apply ((proper_ofDirection_iff format).2 hlong).mulVec hrows rfl
    simp [u, DenseMatrix.length_mulVec, hJ₀, hJ₁]

end Scene

end Velocities

namespace Scene

/-- Two bodies that meet on a slope. -/
theorem contact_proper_slope :
    letI := Threshold.ofFormat .double
    let v : WorldVector ℝ := ⟨0, 3, 4⟩
    let p := ConeParameters.ofMaterial (1 / 2 : ℝ) 1 0
    let J : DenseMatrix ℝ := DenseMatrix.identity .double 3
    (v ≠ ⟨0, 0, 0⟩ ∧ 1 / 10 ^ 12 ≤ v.norm ∧ p.validate = .ok p) ∧
      ∃ R c, ContactFrame.ofNormal ((Tensor.ofVec .double v.toList).cast .double) = .ok R ∧
        Proper R v ∧
        contactConstraint .double p (.between 0 1 J J (Tensor.ofVec .double v.toList)
          (Tensor.ofScalar .double 0)) = .ok c ∧
        let u := Vec.sub (J.mulVec [1, 2, -1]) (J.mulVec [1, 0, 0])
        c.velocity (Tensor.ofVec .double [1, 0, 0]) (some (Tensor.ofVec .double [1, 2, -1])) =
            .ok (Tensor.ofVec .double (R.mulVec u)) ∧
          Vec.norm (R.mulVec u) = Vec.norm u ∧
          (R.mulVec u).getD 2 0 = Vec.dot (v.toList.map (· / v.norm)) u := by
  let _ := Threshold.ofFormat .double
  intro v p J
  have hv : v ≠ ⟨0, 0, 0⟩ := by
    simp [v]
  have hlong : 1 / 10 ^ 12 ≤ v.norm := by
    rw [WorldVector.norm_eq_sqrt]
    apply Real.le_sqrt_of_sq_le
    norm_num [v, WorldVector.dot]
  have hvalid : p.validate = .ok p :=
    ConeParameters.validate_of_flaw?_eq_none
      (ConeParameters.flaw?_ofMaterial one_half_pos.le one_pos le_rfl)
  obtain ⟨R, hR, -, hproper, hcontact⟩ := (contact_proper v .double .double).2 hv
  have hJ : J.numRows = 3 :=
    DenseMatrix.numRows_tabulate _ _ _ _
  obtain ⟨c, hc, hvelocity⟩ := hcontact hvalid one_ne_zero hJ hJ 0
  obtain ⟨hsame, hturned⟩ := hvelocity [1, 0, 0] [1, 2, -1] rfl rfl
  exact ⟨⟨hv, hlong, hvalid⟩, R, c, hR, hproper.2 hlong, hc, hsame, hturned hlong⟩

/-- The frame of a normal shorter than `10⁻¹²` is no rotation. -/
theorem not_proper_short :
    letI := Threshold.ofFormat .double
    let v : WorldVector ℝ := ⟨0, 0, 1 / 10 ^ 13⟩
    v ≠ ⟨0, 0, 0⟩ ∧
      ∃ R, ContactFrame.ofNormal ((Tensor.ofVec .double v.toList).cast .double) = .ok R ∧
        R.rows.getD 2 [] = [0, 0, 1 / 10] ∧
        R.toMatrix 3 3 ∉ specialOrthogonalGroup (Fin 3) ℝ := by
  let _ := Threshold.ofFormat .double
  intro v
  have hv : v ≠ ⟨0, 0, 0⟩ := by
    simp [v]
  have hnorm : v.norm = 1 / 10 ^ 13 := by
    rw [WorldVector.norm_eq_sqrt, Real.sqrt_eq_iff_mul_self_eq (WorldVector.dot_self_nonneg v)
      (by norm_num)]
    norm_num [v, WorldVector.dot]
  have hdivisor : v.divisor = 1 / 10 ^ 12 := by
    rw [WorldVector.divisor_eq, hnorm]
    norm_num
  refine ⟨hv, _, ContactFrame.ofNormal_of_ne_zero hv .double .double, ?_, ?_⟩
  · change v.normalize.toList = _
    rw [WorldVector.normalize_eq, hdivisor]
    norm_num [v, WorldVector.toList]
  · rw [ContactFrame.toMatrix_mem_iff, hnorm]
    norm_num

end Scene

end ConvexContact
