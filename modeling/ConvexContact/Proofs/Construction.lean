import Mathlib
import ConvexContact.Proofs.Definite
import ConvexContact.Proofs.Models

/-!
# Problems that can be built

The checks of the single calls refuse no valid data: a clique is accepted if its dynamics matrix is
symmetric, a contact if its parameters are in their ranges and its Jacobian blocks have three rows,
and a constraint can be added if it fits the cliques.

**Results.**
* `ContactProblem.reachable_of_parts`: a problem with such parts can be built.
* `ContactModel.exists_ofProblem_of_pos`: it has a model if all inertias are positive.
-/

namespace ConvexContact

variable [Threshold]

namespace Clique

/-- No rounding is needed to accept a symmetric matrix. -/
theorem nearlySymmetric
    {A : DenseMatrix ℝ}
    (hsquare : A.numRows = A.numCols)
    (hsymmetric : ∀ i j, A.get i j = A.get j i) :
    NearlySymmetric A := by
  have hentries : ∀ a ∈ (A.sub A.transpose).entries, a = 0 := by
    intro a ha
    rw [DenseMatrix.transpose_eq hsquare hsymmetric] at ha
    obtain ⟨row, hrow, ha⟩ := List.mem_flatten.1 ha
    obtain ⟨i, -, rfl⟩ := List.mem_map.1 hrow
    obtain ⟨j, -, rfl⟩ := List.mem_map.1 ha
    exact sub_self _
  have hfold : ∀ l : List ℝ, (∀ a ∈ l, a = 0) →
      l.foldl (fun m x => Scalar.larger m (Scalar.abs x)) 0 = 0 := by
    intro l hl
    induction l with
    | nil =>
        rfl
    | cons a l ih =>
        rw [List.foldl_cons, hl a List.mem_cons_self, Exact.larger_eq_max, Exact.abs_eq_abs,
          abs_zero, max_self]
        exact ih fun b hb => hl b (List.mem_cons_of_mem a hb)
  have hlargest : (A.sub A.transpose).largestEntry = 0 := by
    unfold DenseMatrix.largestEntry
    rw [Exact.ofNat_zero]
    exact hfold _ hentries
  have hepsilon : (0 : ℝ) ≤ Scalar.epsilon A.format := by
    cases A.format
    · change (0 : ℝ) ≤ 1 / 8388608
      norm_num
    · change (0 : ℝ) ≤ 1 / 4503599627370496
      norm_num
  unfold NearlySymmetric symmetryTolerance
  rw [hlargest, Unrounded.round_eq, Unrounded.round_eq, Exact.ofNat_one, Exact.ofNat_ofNat, not_lt]
  apply mul_nonneg (mul_nonneg (by norm_num) hepsilon)
  split_ifs with h
  · exact zero_le_one
  · exact zero_le_one.trans (not_lt.1 h)

/-- A clique is accepted if its dynamics matrix is symmetric. -/
theorem ofTensors_eq_ok
    {A : DenseMatrix ℝ} {v : List ℝ}
    (hpos : 0 < A.numRows)
    (hsquare : A.numRows = A.numCols)
    (hsymmetric : ∀ i j, A.get i j = A.get j i)
    (hv : v.length = A.numRows) :
    ofTensors (Tensor.ofMatrix A) (Tensor.ofVec A.format v) = .ok ⟨A, v⟩ := by
  unfold ofTensors
  rw [Tensor.matrix?_ofMatrix]
  dsimp only
  rw [if_neg (not_not.2 hsquare), if_neg hpos.ne', Tensor.shape_ofVec, hv, if_neg (by simp),
    if_pos (nearlySymmetric hsquare hsymmetric), Tensor.entries_cast, Tensor.entries_ofVec]

end Clique

namespace Constraint

/-- A frictional contact with the given Jacobian blocks. -/
def contact (parameters : ConeParameters ℝ) (gap : ℝ) (clique : ℕ) (J : DenseMatrix ℝ)
    (second? : Option (ℕ × DenseMatrix ℝ)) : Constraint ℝ where
  law := .frictionCone parameters gap
  clique := clique
  jacobian := J
  second? := second?
  function := [0, 0, gap]
  format := J.format

theorem checkJacobian_ofMatrix
    {J : DenseMatrix ℝ} {n : ℕ}
    (side : Side)
    (hJ : J.numRows = n) :
    checkJacobian side n (Tensor.ofMatrix J) = .ok J := by
  unfold checkJacobian
  rw [Tensor.matrix?_ofMatrix]
  exact if_neg (not_not.2 hJ)

/-- A contact is made if its parameters are in their ranges and its blocks have three rows. -/
theorem ofContact_eq_ok
    {parameters : ConeParameters ℝ} {gap : Tensor ℝ} {phi : ℝ} {clique : ℕ} {J : DenseMatrix ℝ}
    {second? : Option (ℕ × DenseMatrix ℝ)}
    (hvalid : parameters.flaw? = none)
    (hshape : gap.shape = [])
    (hentries : gap.entries = [phi])
    (hJ : J.numRows = 3)
    (hsecond : ∀ side ∈ second?, side.1 ≠ clique ∧ side.2.numRows = 3) :
    ofContact parameters gap clique (Tensor.ofMatrix J)
      (second?.map fun s => (s.1 : ℤ)) (second?.map fun s => Tensor.ofMatrix s.2) =
      .ok (contact parameters phi clique J second?) := by
  have hother : checkSecond (clique : ℤ) 3 (second?.map fun s => (s.1 : ℤ))
      (second?.map fun s => Tensor.ofMatrix s.2) = .ok second? := by
    cases second? with
    | none =>
        rfl
    | some side =>
        obtain ⟨hne, hrows⟩ := hsecond side rfl
        unfold checkSecond
        dsimp only [Option.map_some]
        rw [if_neg (by omega), if_neg (by exact_mod_cast hne),
          checkJacobian_ofMatrix .second hrows]
        rfl
  have hrows : (Tensor.ofMatrix J).shape = [3, J.numCols] := by
    rw [← hJ]
    exact Tensor.shape_ofEntries _ _ _
  have hformat : (Tensor.ofMatrix J).format = J.format :=
    Tensor.format_ofEntries _ _ _
  have hparts : ofParts (.frictionCone parameters phi) (Tensor.ofVec J.format [0, 0, phi]) clique
      (Tensor.ofMatrix J) (second?.map fun s => (s.1 : ℤ))
      (second?.map fun s => Tensor.ofMatrix s.2) =
      .ok (contact parameters phi clique J second?) := by
    unfold ofParts
    rw [Tensor.vector?_ofVec, Tensor.entries_ofVec]
    dsimp only [List.length_cons, List.length_nil]
    rw [checkJacobian_ofMatrix .first hJ, Outcome.ok_bind, if_neg (by omega), hother,
      Outcome.ok_bind, Int.toNat_natCast, Tensor.format_ofVec]
    rfl
  have hgap : (gap.cast J.format).shape = [] :=
    hshape
  have hphi : (gap.cast J.format).entries = [phi] := by
    rw [Tensor.entries_cast, hentries]
  unfold ofContact
  dsimp only
  rw [hformat, hgap, hphi, hrows]
  change (ofParts _ _ _ _ _ _ >>= _) = _
  rw [Exact.ofNat_zero, hparts, Outcome.ok_bind, ConeParameters.validate_of_flaw?_eq_none hvalid]
  rfl

theorem built_contact
    {parameters : ConeParameters ℝ} {gap : ℝ} {clique : ℕ} {J : DenseMatrix ℝ}
    {second? : Option (ℕ × DenseMatrix ℝ)}
    (hvalid : parameters.flaw? = none)
    (hJ : J.numRows = 3)
    (hsecond : ∀ side ∈ second?, side.1 ≠ clique ∧ side.2.numRows = 3) :
    (contact parameters gap clique J second?).Built :=
  Built.contact (ofContact_eq_ok hvalid
    (show (Tensor.ofScalar J.format gap).shape = [] from Tensor.shape_ofEntries _ _ _)
    (Tensor.entries_ofEntries _ rfl) hJ hsecond)

end Constraint

namespace ContactProblem

/-- **A problem with valid parts can be built.** -/
theorem reachable_of_parts
    {timeStep : ℝ} {cliques : List (Clique ℝ)} {held : List (HeldConstraint ℝ)}
    (hpos : 0 < timeStep)
    (hcliques : ∀ c ∈ cliques, ∃ A v, Clique.ofTensors A v = .ok c)
    (hbuilt : ∀ h ∈ held, h.constraint.Built)
    (hfits : ∀ h ∈ held, ∀ side ∈ h.constraint.sides,
      FitsSide ⟨timeStep, cliques, held, none⟩ side) :
    Reachable ⟨timeStep, cliques, held, none⟩ := by
  have hstart : ofTimeStep timeStep = .ok ⟨timeStep, [], [], none⟩ := by
    unfold ofTimeStep
    rw [Exact.ofNat_zero, if_neg (not_le.2 hpos)]
  have hcliquesOnly : Reachable ⟨timeStep, cliques, [], none⟩ := by
    clear hfits
    induction cliques using List.reverseRecOn with
    | nil =>
        exact Reachable.ofTimeStep hstart
    | append_singleton cliques c ih =>
        obtain ⟨A, v, hc⟩ := hcliques c (List.mem_append_right _ List.mem_cons_self)
        have hp := ih fun c' hc' => hcliques c' (List.mem_append_left _ hc')
        have hadd : addClique ⟨timeStep, cliques, [], none⟩ A v =
            .ok (cliques.length, ⟨timeStep, cliques ++ [c], [], none⟩) :=
          addClique_eq_ok_iff.2 ⟨rfl, rfl, c, hc, rfl⟩
        exact hp.addClique hadd
  induction held using List.reverseRecOn with
  | nil =>
      exact hcliquesOnly
  | append_singleton held h ih =>
      have hmem : h ∈ held ++ [h] :=
        List.mem_append_right _ List.mem_cons_self
      have hp := ih (fun h' hh' => hbuilt h' (List.mem_append_left _ hh'))
        fun h' hh' => hfits h' (List.mem_append_left _ hh')
      have hadd : addConstraint ⟨timeStep, cliques, held, none⟩ .empty h =
          .ok (held.length, ⟨timeStep, cliques, held ++ [h], none⟩,
            IdTable.empty.set h.handle (some held.length)) :=
        addConstraint_eq_ok_iff.2 ⟨rfl, hfits h hmem, rfl, rfl, rfl⟩
      exact hp.addConstraint (hbuilt h hmem) hadd

end ContactProblem

section Regularization

/-- The regularization for a positive inertia is positive. -/
theorem Load.regularization_pos
    {x : Load} {timeStep : ℝ}
    (hx : x.constraint.Proper)
    (htime : 0 < timeStep)
    (hinertia : 0 < x.inertia) :
    ∀ r ∈ x.regularization timeStep, 0 < r := by
  intro r hr
  unfold regularization Constraint.diagonalAt at hr
  cases hlaw : x.constraint.law with
  | frictionCone parameters gap =>
      have hvalid := hx.flaw?_eq_none parameters gap hlaw
      obtain ⟨-, -, -, -, hsigma, -⟩ := parameters.flaw?_eq_none_iff.1 hvalid
      have htangential : 0 < (parameters.diagonal timeStep x.inertia).1 :=
        mul_pos hsigma hinertia
      have hnormal : 0 < (parameters.diagonal timeStep x.inertia).2 := by
        unfold ConeParameters.diagonal
        dsimp only
        rw [Exact.larger_eq_max]
        exact lt_max_of_lt_right (inv_pos.2 (Constraint.Proper.hardness_pos hvalid htime))
      rw [hlaw] at hr
      dsimp only at hr
      simp only [List.mem_cons, List.not_mem_nil, or_false] at hr
      rcases hr with rfl | rfl | rfl
      · exact htangential
      · exact htangential
      · exact hnormal
  | unrestricted =>
      rw [hlaw] at hr
      rw [List.eq_of_mem_replicate hr]
      exact hinertia

end Regularization

/-- The inertias of a problem are known and positive if those of its constraints are. -/
theorem ContactProblem.exists_delassusDiagonal
    {p : ContactProblem ℝ}
    (h : ∀ c ∈ p.constraints, ∃ format w, p.meanInertia c = .ok (format, w) ∧ 0 < w) :
    ∃ delassus, p.delassusDiagonal = .ok delassus ∧ ∀ a ∈ delassus.entries, 0 < a := by
  choose! format w hw hpos using h
  have hentries : p.constraints.mapM p.meanInertia =
      .ok (p.constraints.map fun c => (format c, w c)) :=
    Outcome.mapM_eq_ok_map hw
  rw [delassusDiagonal_eq_mapM, hentries]
  refine ⟨_, rfl, ?_⟩
  rw [Tensor.entries_ofVec, List.map_map]
  intro a ha
  obtain ⟨c, hc, rfl⟩ := List.mem_map.1 ha
  exact hpos c hc

/-- **A problem has a model** if the inertias felt at its constraints are positive. -/
theorem ContactModel.exists_ofProblem_of_pos
    {p : ContactProblem ℝ}
    (hp : p.Reachable)
    (hpos : ∀ c ∈ p.constraints, ∃ format w, p.meanInertia c = .ok (format, w) ∧ 0 < w) :
    ∃ m w, (ofProblem p).1 = .ok m ∧ m.Describes p w := by
  obtain ⟨delassus, hdelassus, hpositive⟩ := ContactProblem.exists_delassusDiagonal hpos
  have hlength : delassus.entries.length = p.numConstraints :=
    Tensor.length_entries_of_shape (ContactProblem.shape_delassusDiagonal hdelassus)
  have hregularization : ∀ x ∈ p.loads delassus.entries,
      ∀ r ∈ x.regularization p.timeStep, 0 < r := by
    intro x hx
    apply Load.regularization_pos (hp.wellFormed.proper_of_mem_loads hlength hx)
      hp.wellFormed.timeStep_pos
    apply hpositive
    rw [← ContactProblem.map_inertia_loads hlength]
    exact List.mem_map_of_mem hx
  obtain ⟨m, hm, d⟩ := exists_ofProblem hp hdelassus hregularization
  exact ⟨m, delassus.entries, hm, d⟩

section Stack

/-! Three bodies of unit mass on a vertical line: one stands on the ground, one on it, and one falls
freely.  Their contacts press along the normal. -/

namespace Stack

noncomputable def body : Clique ℝ :=
  ⟨DenseMatrix.identity .double 1, [-1]⟩

/-- The block of a body whose normal velocity is `a` times its velocity. -/
noncomputable def alongNormal (a : ℝ) : DenseMatrix ℝ :=
  DenseMatrix.tabulate .double 3 1 fun i _ => if i = 2 then a else 0

/-- The inertia of a contact with normal inertia `a`. -/
noncomputable def normalInertia (a : ℝ) : DenseMatrix ℝ :=
  DenseMatrix.tabulate .double 3 3 fun i j => if i = 2 ∧ j = 2 then a else 0

/-- A contact with the blocks of one or two bodies. -/
noncomputable def contact (clique : ℕ) (a : ℝ) (second? : Option (ℕ × ℝ)) : Constraint ℝ :=
  .contact (.ofMaterial 1 1 0) 0 clique (alongNormal a)
    (second?.map fun side => (side.1, alongNormal side.2))

/-- The contact of the last body with the ground. -/
noncomputable def onGround : Constraint ℝ :=
  contact 2 1 none

/-- The contact of the first body with the last one, which comes first. -/
noncomputable def onBody : Constraint ℝ :=
  contact 2 (-1) (some (0, 1))

/-- The same contact, which names the first body first. -/
noncomputable def underBody : Constraint ℝ :=
  contact 0 1 (some (2, -1))

/-- The stack with some contacts. -/
noncomputable def problem (contacts : List (Constraint ℝ)) : ContactProblem ℝ :=
  ⟨1, [body, body, body], contacts.zipIdx.map fun (c, i) => ⟨i, c⟩, none⟩

/-- The order of the bodies in which the one that falls freely comes first. -/
def fallingFirst : PartialPermutation :=
  ⟨3, [1, 2, 0], by decide, by decide⟩

theorem symmetric_body :
    ∀ i j, body.dynamics.get i j = body.dynamics.get j i := by
  intro i j
  cases i with
  | zero =>
      cases j <;> simp [body, DenseMatrix.identity, DenseMatrix.get, DenseMatrix.tabulate]
  | succ i =>
      cases j <;> simp [body, DenseMatrix.identity, DenseMatrix.get, DenseMatrix.tabulate]

theorem posDef_body :
    (body.dynamics.toMatrix body.size body.size).PosDef := by
  have hone : body.dynamics.toMatrix 1 1 = 1 := by
    ext i j
    fin_cases i
    fin_cases j
    simp [DenseMatrix.toMatrix, body, DenseMatrix.identity, DenseMatrix.get,
      DenseMatrix.tabulate]
  change (body.dynamics.toMatrix 1 1).PosDef
  rw [hone]
  exact Matrix.PosDef.one

theorem inverseInertia_body
    (a : ℝ) :
    ContactProblem.inverseInertia body.dynamics (alongNormal a) =
      .ok (normalInertia (a * a)) := by
  have hfactor : CholeskyFactor.ofMatrix body.dynamics = .ok [(1, [])] := by
    simp [CholeskyFactor.ofMatrix, body, DenseMatrix.identity, DenseMatrix.tabulate,
      CholeskyFactor.ofRows?, CholeskyFactor.remainder]
  unfold ContactProblem.inverseInertia ContactProblem.factoredInertia
  rw [hfactor, Outcome.ok_bind]
  refine congrArg Except.ok (DenseMatrix.eq_of_rows_eq rfl rfl ?_)
  simp [alongNormal, normalInertia, DenseMatrix.tabulate, DenseMatrix.cast, DenseMatrix.map,
    DenseMatrix.numRows, List.range_succ, CholeskyFactor.solveRows, CholeskyFactor.solve,
    CholeskyFactor.solveLower, CholeskyFactor.solveUpper]

theorem add_normalInertia
    (a b : ℝ) :
    (normalInertia a).add (normalInertia b) = normalInertia (a + b) := by
  refine DenseMatrix.eq_of_rows_eq rfl rfl ?_
  simp [DenseMatrix.add, normalInertia, DenseMatrix.tabulate, DenseMatrix.get,
    DenseMatrix.numRows, List.range_succ]

theorem frobeniusNorm_normalInertia
    {a : ℝ}
    (ha : 0 ≤ a) :
    (normalInertia a).frobeniusNorm = a := by
  simp [DenseMatrix.frobeniusNorm, DenseMatrix.entries, normalInertia, DenseMatrix.tabulate,
    List.range_succ, Vec.norm, Vec.dot, Vec.sum, ha]

/-- A contact of the stack acts on its bodies. -/
def Acts (c : Constraint ℝ) : Prop :=
  ∃ k a second?, c = contact k a second? ∧ k < 3 ∧ a ≠ 0 ∧
    ∀ side ∈ second?, side.1 ≠ k ∧ side.1 < 3

/-- A contact of the stack has blocks for its bodies. -/
def Fits (c : Constraint ℝ) : Prop :=
  ∃ k J second?, c = .contact (.ofMaterial 1 1 0) 0 k J second? ∧
    (∀ side ∈ second?, side.1 ≠ k) ∧
    ∀ side ∈ (k, J) :: second?.toList, side.1 < 3 ∧ side.2.numRows = 3 ∧ side.2.numCols = 1

theorem Acts.fits
    {c : Constraint ℝ}
    (h : Acts c) :
    Fits c := by
  obtain ⟨k, a, second?, rfl, hk, -, hsecond⟩ := h
  refine ⟨k, alongNormal a, _, rfl, ?_, ?_⟩
  · intro side hside
    obtain ⟨s, hs, rfl⟩ := Option.map_eq_some_iff.1 hside
    exact (hsecond s hs).1
  · intro side hside
    rcases List.mem_cons.1 hside with rfl | hside
    · exact ⟨hk, DenseMatrix.numRows_tabulate _ _ _ _, rfl⟩
    · obtain ⟨s, hs, rfl⟩ := Option.map_eq_some_iff.1 (Option.mem_toList.1 hside)
      exact ⟨(hsecond s hs).2, DenseMatrix.numRows_tabulate _ _ _ _, rfl⟩

theorem acts_onGround :
    Acts onGround :=
  ⟨2, 1, none, rfl, by decide, one_ne_zero, by simp⟩

theorem acts_onBody :
    Acts onBody :=
  ⟨2, -1, some (0, 1), rfl, by decide, by norm_num, by simp⟩

theorem acts_underBody :
    Acts underBody :=
  ⟨0, 1, some (2, -1), rfl, by decide, one_ne_zero, by simp⟩

theorem getElem?_bodies
    {k : ℕ}
    (hk : k < 3) :
    [body, body, body][k]? = some body := by
  interval_cases k <;> rfl

variable {contacts : List (Constraint ℝ)}

theorem constraints_problem
    (contacts : List (Constraint ℝ)) :
    (problem contacts).constraints = contacts := by
  unfold ContactProblem.constraints problem
  rw [List.map_map]
  exact List.zipIdx_map_fst 0 contacts

/-- The stack can be built with contacts of its bodies. -/
theorem reachable_of_fits
    (h : ∀ c ∈ contacts, Fits c) :
    (problem contacts).Reachable := by
  have hmem : ∀ c ∈ (problem contacts).held, Fits c.constraint := by
    intro c hc
    apply h
    rw [← constraints_problem contacts]
    exact List.mem_map_of_mem hc
  apply ContactProblem.reachable_of_parts one_pos
  · intro c hc
    simp only [List.mem_cons, List.not_mem_nil, or_false, or_self] at hc
    rw [hc]
    exact ⟨_, _, Clique.ofTensors_eq_ok one_pos rfl symmetric_body rfl⟩
  · intro c hc
    obtain ⟨k, J, second?, heq, hsecond, hsides⟩ := hmem c hc
    rw [heq]
    apply Constraint.built_contact (ConeParameters.flaw?_ofMaterial zero_le_one one_pos le_rfl)
      (hsides (k, J) List.mem_cons_self).2.1
    intro side hside
    exact ⟨hsecond side hside,
      (hsides side (List.mem_cons_of_mem _ (Option.mem_toList.2 hside))).2.1⟩
  · intro c hc side hside
    obtain ⟨k, J, second?, heq, -, hsides⟩ := hmem c hc
    rw [heq] at hside
    obtain ⟨hclique, -, hcols⟩ := hsides side hside
    exact ⟨body, getElem?_bodies hclique, hcols⟩

theorem reachable
    (h : ∀ c ∈ contacts, Acts c) :
    (problem contacts).Reachable :=
  reachable_of_fits fun c hc => (h c hc).fits

theorem sideInertia_eq
    {k : ℕ}
    (hk : k < 3)
    (a : ℝ) :
    (problem contacts).sideInertia (k, alongNormal a) = .ok (normalInertia (a * a)) := by
  unfold ContactProblem.sideInertia problem
  dsimp only
  rw [getElem?_bodies hk]
  exact inverseInertia_body a

theorem meanInertia_pos
    {c : Constraint ℝ}
    (hc : Acts c) :
    ∃ format w, (problem contacts).meanInertia c = .ok (format, w) ∧ 0 < w := by
  obtain ⟨k, a, second?, rfl, hk, ha, hsecond⟩ := hc
  have hinertia : ∃ b, 0 < b ∧
      (problem contacts).constraintInertia (contact k a second?) = .ok (normalInertia b) := by
    unfold ContactProblem.constraintInertia
    change ∃ b, 0 < b ∧ ((problem contacts).sideInertia (k, alongNormal a) >>= _) = _
    rw [sideInertia_eq hk, Outcome.ok_bind]
    cases second? with
    | none =>
        exact ⟨a * a, mul_self_pos.2 ha, rfl⟩
    | some side =>
        refine ⟨a * a + side.2 * side.2, ?_, ?_⟩
        · exact add_pos_of_pos_of_nonneg (mul_self_pos.2 ha) (mul_self_nonneg _)
        · change ((problem contacts).sideInertia (side.1, alongNormal side.2) >>= _) = _
          rw [sideInertia_eq (hsecond side rfl).2, Outcome.ok_bind, add_normalInertia]
  obtain ⟨b, hb, hinertia⟩ := hinertia
  unfold ContactProblem.meanInertia
  rw [hinertia, Outcome.ok_bind, frobeniusNorm_normalInertia hb.le]
  refine ⟨_, _, rfl, div_pos hb ?_⟩
  change (0 : ℝ) < (3 : ℕ)
  norm_num

theorem exists_model
    (h : ∀ c ∈ contacts, Acts c) :
    ∃ m w, (ContactModel.ofProblem (problem contacts)).1 = .ok m ∧
      m.Describes (problem contacts) w := by
  apply ContactModel.exists_ofProblem_of_pos (reachable h)
  intro c hc
  rw [constraints_problem] at hc
  exact meanInertia_pos (h c hc)

/-- The body that falls freely does not participate. -/
theorem numVelocities_eq
    {m : ContactModel ℝ} {w : List ℝ}
    (d : m.Describes (problem [onGround, onBody]) w) :
    m.numVelocities = 2 :=
  d.numVelocities_of_order (q := ⟨3, [0, 2], by decide, by decide⟩) rfl

end Stack

end Stack

end ConvexContact
