import Mathlib
import ConvexContact.Proofs.Cone.Curvature
import ConvexContact.Proofs.Contacts
import ConvexContact.Proofs.PartialReals

/-!
# Definedness of the projection

The projection divides by the widths of the bands, by the cosine of the lower width, by the lengths
of the impulse and by the sine of its angle, and takes the tangents of the lower width and of the
angle outside the cone.  None of these operations is guarded where it stands: the widths are cut off
at the opening angle, and the tests before each formula exclude the arguments outside its domain.

**Domains.**  `Regime.Divisible` lists what a sliding impulse has to satisfy, formula by formula;
`Regime.Sliding.divisible` shows that it does.

**Result.**  `Constraint.project_defined`: read over numbers with undefined results, the evaluations
of a contact are defined, and have the values that they have over the real numbers.
-/

namespace ConvexContact

section Maps

variable {α β : Type} (f : α → β)

/-- Every coordinate changed. -/
def ContactVector.map (z : ContactVector α) : ContactVector β :=
  ⟨f z.t₁, f z.t₂, f z.n⟩

/-- Every entry changed. -/
def ContactMatrix.map (H : ContactMatrix α) : ContactMatrix β :=
  ⟨f H.t₁t₁, f H.t₁t₂, f H.t₂t₂, f H.t₁n, f H.t₂n, f H.nn⟩

/-- Value and derivatives changed. -/
def Jet.map (M : Jet α) : Jet β :=
  ⟨f M.value, f M.slope, f M.curvature⟩

namespace Regime

/-- Angle and widths changed. -/
def map : Regime α → Regime β
  | negligible => negligible
  | compressed => compressed
  | released => released
  | stick => stick
  | slide phi lower upper => slide (f phi) (f lower) (f upper)
  | separated => separated

/-- Every quantity changed. -/
def Polar.map (q : Polar α) : Polar β :=
  ⟨f q.g, f q.h, f q.across, f q.rr, f q.rn, f q.nn⟩

end Regime

end Maps

open PartialReal

section Formulas

variable [Threshold]

namespace Profile

variable {phi lower upper : ℝ}

theorem hermiteOffset_of
    (hmem : lower ∈ Set.Ioo (-(Real.pi / 2)) (Real.pi / 2))
    (hwidth : 2 * lower ≠ 0) :
    hermiteOffset (of phi) (of lower) =
      (of (hermiteOffset phi lower).1, of (hermiteOffset phi lower).2.1,
        of (hermiteOffset phi lower).2.2) := by
  have hthree : (3 : ℝ) ≠ 0 :=
    three_ne_zero
  simp only [hermiteOffset, of_tan hmem, of_one, of_ofNat, of_half, of_add, of_sub, of_mul,
    of_square, of_cube, of_div hwidth, of_div hthree, Exact.ofNat_one, Exact.ofNat_ofNat,
    Exact.half_eq, Exact.square_eq, Exact.cube_eq, Exact.tan_eq]

theorem slideScale_of
    (h : 0 < lower → lower ∈ Set.Ioo (-(Real.pi / 2)) (Real.pi / 2) ∧ Real.cos lower ≠ 0) :
    slideScale (of lower) = of (slideScale lower) := by
  unfold slideScale
  simp only [of_zero, of_le, Exact.ofNat_zero]
  split_ifs with hle
  · rw [of_one, Exact.ofNat_one]
  · obtain ⟨hmem, hcos⟩ := h (not_le.1 hle)
    have hthree : (3 : ℝ) ≠ 0 :=
      three_ne_zero
    have hsquare : Real.cos lower ^ 2 ≠ 0 :=
      pow_ne_zero 2 hcos
    simp only [of_tan hmem, of_one, of_ofNat, of_neg, of_add, of_sub, of_mul, of_exp, of_cos,
      of_square, of_div hthree, of_div hsquare, Exact.ofNat_one, Exact.ofNat_ofNat,
      Exact.square_eq, Exact.tan_eq, Exact.exp_eq, Exact.cos_eq]

theorem lowerBand_of
    (hmem : lower ∈ Set.Ioo (-(Real.pi / 2)) (Real.pi / 2))
    (hwidth : 2 * lower ≠ 0)
    (hcos : Real.cos lower ≠ 0)
    (hphi : phi ∈ Set.Ioo (-(Real.pi / 2)) (Real.pi / 2)) :
    lowerBand (of phi) (of lower) = (lowerBand phi lower).map of := by
  have hsquare : Real.cos lower ^ 2 ≠ 0 :=
    pow_ne_zero 2 hcos
  simp only [lowerBand, hermiteOffset_of hmem hwidth, of_tan hphi, of_one, of_ofNat, of_neg, of_add,
    of_sub, of_mul, of_exp, of_cos, of_square, of_div hsquare, Exact.ofNat_one, Exact.ofNat_ofNat,
    Exact.square_eq, Exact.tan_eq, Exact.exp_eq, Exact.cos_eq, Jet.map]

theorem slide_of
    (phi scale : ℝ) :
    slide (of phi) (of scale) = (slide phi scale).map of := by
  simp only [slide, of_ofNat, of_neg, of_mul, of_cos, of_sin, of_square, Exact.ofNat_ofNat,
    Exact.square_eq, Exact.cos_eq, Exact.sin_eq, Jet.map]

theorem upperBand_of
    (scale : ℝ)
    (hupper : upper ≠ 0) :
    upperBand (of phi) (of scale) (of upper) = (upperBand phi scale upper).map of := by
  have hsquare : upper * upper ≠ 0 :=
    mul_ne_zero hupper hupper
  simp only [upperBand, of_one, of_ofNat, of_half, of_pi, of_neg, of_add, of_sub, of_mul, of_cos,
    of_sin, of_square, of_cube, of_div hupper, of_div hsquare, Exact.ofNat_one, Exact.ofNat_ofNat,
    Exact.half_eq, Exact.pi_eq, Exact.square_eq, Exact.cube_eq, Exact.cos_eq, Exact.sin_eq, Jet.map]

end Profile

namespace ContactVector

theorem tangentialNorm_of
    (z : ContactVector ℝ) :
    (z.map of).tangentialNorm = of z.tangentialNorm := by
  unfold tangentialNorm
  simp only [map, of_zero, of_add, of_mul, of_lt, Exact.ofNat_zero, Exact.sqrt_eq]
  split_ifs with h
  · exact of_sqrt h.le
  · rfl

theorem normSquared_of
    (z : ContactVector ℝ) :
    (z.map of).normSquared = of z.normSquared := by
  unfold normSquared
  rw [tangentialNorm_of]
  simp only [map, of_add, of_mul]

end ContactVector

namespace Regime

/-- The divisors and the arguments of tangents in the formulas for an impulse `z` that slides at the
angle `phi` outside the cone, with bands of the widths `lower` and `upper`. -/
structure Divisible (z : ContactVector ℝ) (phi lower upper : ℝ) : Prop where
  /-- In the band around the surface of the cone. -/
  lowerBand : phi < lower → 2 * lower ≠ 0 ∧ phi ∈ Set.Ioo (-(Real.pi / 2)) (Real.pi / 2)
  /-- There, and in the factor of the profile behind it. -/
  lower_mem : lower ∈ Set.Ioo (-(Real.pi / 2)) (Real.pi / 2)
  cos_lower : Real.cos lower ≠ 0
  /-- In the band before the polar cone. -/
  upperBand : Real.pi / 2 - upper < phi → upper ≠ 0
  /-- In the polar quantities and in the tangential direction. -/
  length : √z.normSquared ≠ 0
  tangentialNorm : z.tangentialNorm ≠ 0
  sine : z.tangentialNorm / √z.normSquared ≠ 0

section Sliding

variable {p : ConeParameters ℝ} {ratio : ℝ} {z : ContactVector ℝ} {phi lower upper : ℝ}

/-- **Every formula of a sliding impulse is reached inside its domain.** -/
theorem Sliding.divisible
    (hwidth : p.width < Real.pi / 8)
    (hwidth₀ : 0 ≤ p.width)
    (hratio : 0 < ratio)
    (h : Sliding p ratio z phi lower upper) :
    Divisible z phi lower upper := by
  have hpi := Real.pi_pos
  have halpha := (openingAngle_mem h.friction_pos hratio).1
  have hlower : 0 ≤ lower := by
    rw [h.lower_eq]
    exact le_min hwidth₀ (half_pos halpha).le
  have hsmall : lower < Real.pi / 8 := by
    rw [h.lower_eq]
    exact (min_le_left _ _).trans_lt hwidth
  have hleft := h.neg_lower_lt
  have hright := h.lt_pi_div_two
  refine
    { lowerBand := ?_
      lower_mem := ⟨by linarith, by linarith⟩
      cos_lower := (Profile.cos_pos_of_lt_pi_div_eight hlower hsmall).ne'
      upperBand := ?_
      length := h.rho_pos.ne'
      tangentialNorm := (h.tangentialNorm_pos hratio).ne'
      sine := (div_pos (h.tangentialNorm_pos hratio) h.rho_pos).ne' }
  · -- An angle between the negative width and the width leaves no room for a width of zero.
    intro hband
    exact ⟨by linarith, by linarith, by linarith⟩
  · intro hband hzero
    linarith

/-- The profile of an angle at which an impulse slides. -/
theorem between_of
    (h : Divisible z phi lower upper) :
    Profile.between (of phi) (of lower) (of upper) = (Profile.between phi lower upper).map of := by
  have hscale : Profile.slideScale (of lower) = of (Profile.slideScale lower) :=
    Profile.slideScale_of fun _ => ⟨h.lower_mem, h.cos_lower⟩
  have hright : (Scalar.half * Scalar.pi - of upper : PartialReal) = of (Real.pi / 2 - upper) := by
    rw [of_half, of_pi, of_mul, of_sub, one_div_mul_eq_div]
  rw [Profile.between_eq]
  unfold Profile.between
  rw [hright, hscale]
  simp only [of_lt, of_le]
  split_ifs with hband hmiddle
  · obtain ⟨hlower, hphi⟩ := h.lowerBand hband
    exact Profile.lowerBand_of h.lower_mem hlower h.cos_lower hphi
  · exact Profile.slide_of phi _
  · exact Profile.upperBand_of _ (h.upperBand (not_le.1 hmiddle))

theorem polar_of
    (h : Divisible z phi lower upper)
    (M : Jet ℝ) :
    polar (M.map of) (z.map of) = (polar M z).map of := by
  have hnonneg : 0 ≤ z.normSquared := by
    rw [z.normSquared_eq]
    positivity
  simp only [polar, ContactVector.normSquared_of, ContactVector.tangentialNorm_of, of_sqrt hnonneg]
  simp only [ContactVector.map, Jet.map, of_div h.length, of_div h.sine, of_half, of_add, of_sub,
    of_mul, Exact.half_eq, Exact.sqrt_eq, Polar.map]

end Sliding

section Evaluations

variable {p : ConeParameters ℝ} {ratio : ℝ}

/-- The regime of an impulse is found without leaving the domain of a root. -/
theorem ofImpulse_of
    (p : ConeParameters ℝ)
    (hratio : 0 ≤ ratio)
    (z : ContactVector ℝ) :
    ofImpulse (p.map of) (of ratio) (z.map of) = (ofImpulse p ratio z).map of := by
  have hopening : openingAngle (p.map of) (of ratio) = of (openingAngle p ratio) := by
    simp only [openingAngle, ConeParameters.map, of_sqrt hratio, of_mul, of_atan, Exact.sqrt_eq,
      Exact.atan_eq]
  have hnegligible : Negligible (z.map of) ↔ Negligible z := by
    unfold Negligible
    rw [ContactVector.normSquared_of, of_tiny, of_le]
    rfl
  have hside : ofSide (z.map of) = (ofSide z).map of := by
    unfold ofSide
    simp only [ContactVector.map, of_zero, of_lt, Exact.ofNat_zero]
    split_ifs <;> rfl
  have hangle : ofAngle (p.map of) (of ratio) (z.map of) = (ofAngle p ratio z).map of := by
    unfold ofAngle
    simp only [hopening, ContactVector.tangentialNorm_of]
    simp only [ConeParameters.map, ContactVector.map, of_half, of_pi, of_mul, of_neg, of_sub,
      of_atMost, of_atan2, of_le, Exact.half_eq, Exact.pi_eq, Exact.atMost_eq_min, Exact.atan2_eq]
    split_ifs <;> rfl
  have hfriction : Scalar.IsZero (p.map of).friction ↔ Scalar.IsZero p.friction :=
    isZero_of p.friction
  unfold ofImpulse
  simp only [hnegligible, hfriction, hangle, hside]
  split_ifs <;> rfl

/-- Value, gradient and second derivative of the potential are reached inside their domains. -/
theorem cost_of
    {r : Regime ℝ} {z : ContactVector ℝ}
    (h : ∀ phi lower upper, r = .slide phi lower upper → Divisible z phi lower upper) :
    (r.map of).cost (z.map of) = of (r.cost z) := by
  cases r with
  | compressed =>
      simp only [map, cost, ContactVector.map, of_half, of_mul, Exact.half_eq]
  | stick =>
      simp only [map, cost, ContactVector.normSquared_of, of_half, of_mul, Exact.half_eq]
  | slide phi lower upper =>
      simp only [map, cost, ContactVector.normSquared_of, between_of (h _ _ _ rfl), Jet.map,
        of_half, of_mul, Exact.half_eq]
  | _ =>
      simp only [map, cost, ContactVector.normSquared_of, of_zero, of_mul, Exact.ofNat_zero]

theorem gradient_of
    {r : Regime ℝ} {z : ContactVector ℝ}
    (h : ∀ phi lower upper, r = .slide phi lower upper → Divisible z phi lower upper) :
    (r.map of).gradient (z.map of) = (r.gradient z).map of := by
  cases r with
  | stick =>
      rfl
  | slide phi lower upper =>
      have hdivisible := h _ _ _ rfl
      have hnonneg : 0 ≤ z.normSquared :=
        (Real.sqrt_ne_zero'.1 hdivisible.length).le
      simp only [map, gradient, between_of hdivisible, polar_of hdivisible,
        ContactVector.normSquared_of, of_sqrt hnonneg]
      simp only [Polar.map, ContactVector.map, of_mul, Exact.sqrt_eq]
  | _ =>
      simp only [map, gradient, ContactVector.smul, ContactVector.map, of_zero, of_mul,
        Exact.ofNat_zero]

theorem hessian_of
    {r : Regime ℝ} {z : ContactVector ℝ}
    (h : ∀ phi lower upper, r = .slide phi lower upper → Divisible z phi lower upper) :
    (r.map of).hessian (z.map of) = (r.hessian z).map of := by
  cases r with
  | slide phi lower upper =>
      have hdivisible := h _ _ _ rfl
      simp only [map, hessian, between_of hdivisible, polar_of hdivisible,
        ContactVector.tangentialNorm_of]
      simp only [Polar.map, ContactVector.map, ContactMatrix.map,
        of_div hdivisible.tangentialNorm, of_add, of_sub, of_mul]
  | _ =>
      simp only [map, hessian, ContactMatrix.zero, ContactMatrix.identity,
        ContactMatrix.normalOnly, ContactMatrix.map, of_zero, of_one, Exact.ofNat_zero,
        Exact.ofNat_one]

end Evaluations

end Regime

namespace ConeParameters

variable {p : ConeParameters ℝ} {R y : ContactVector ℝ}

/-- A sliding impulse under a positive regularization. -/
theorem divisible_regimeAt
    (hvalid : p.flaw? = none)
    (hR : 0 < R.t₁ ∧ 0 < R.t₂ ∧ 0 < R.n) :
    ∀ phi lower upper, p.regimeAt R y = .slide phi lower upper →
      Regime.Divisible (y.scaled R) phi lower upper := by
  obtain ⟨hfriction, -, -, -, -, hwidth₀, hwidth⟩ := p.flaw?_eq_none_iff.1 hvalid
  intro phi lower upper h
  exact (Regime.sliding_of_ofImpulse hfriction h).divisible hwidth hwidth₀ (div_pos hR.1 hR.2.2)

/-- The scaled impulse and its regime are found inside the domains of quotient and root. -/
theorem scaled_of
    (p : ConeParameters ℝ)
    (hR : 0 < R.t₁ ∧ 0 < R.t₂ ∧ 0 < R.n)
    (y : ContactVector ℝ) :
    let z : ContactVector PartialReal :=
      ⟨Scalar.sqrt (R.map of).t₁ * (y.map of).t₁, Scalar.sqrt (R.map of).t₂ * (y.map of).t₂,
        Scalar.sqrt (R.map of).n * (y.map of).n⟩
    z = (y.scaled R).map of ∧
      Regime.ofImpulse (p.map of) ((R.map of).t₁ / (R.map of).n) z = (p.regimeAt R y).map of := by
  intro z
  have hz : z = (y.scaled R).map of := by
    simp only [z, ContactVector.map, ContactVector.scaled, of_sqrt hR.1.le, of_sqrt hR.2.1.le,
      of_sqrt hR.2.2.le, of_mul]
  have hratio : (R.map of).t₁ / (R.map of).n = of (R.t₁ / R.n) :=
    of_div hR.2.2.ne'
  rw [hz, hratio]
  exact ⟨rfl, Regime.ofImpulse_of p (div_pos hR.1 hR.2.2).le (y.scaled R)⟩

/-- The coordinates of an impulse are found by division through the roots. -/
theorem unscaled_of
    (hR : 0 < R.t₁ ∧ 0 < R.t₂ ∧ 0 < R.n)
    (x : ContactVector ℝ) :
    [(x.map of).t₁ / Scalar.sqrt (R.map of).t₁, (x.map of).t₂ / Scalar.sqrt (R.map of).t₂,
      (x.map of).n / Scalar.sqrt (R.map of).n] = (x.unscaled R).toList.map of := by
  obtain ⟨h₁, h₂, hₙ⟩ := ContactVector.roots_ne_zero hR
  simp only [ContactVector.map, ContactVector.unscaled, ContactVector.toList, List.map_cons,
    List.map_nil, of_sqrt hR.1.le, of_sqrt hR.2.1.le, of_sqrt hR.2.2.le, of_div h₁, of_div h₂,
    of_div hₙ]

/-- So are the entries of the derivative, row by row. -/
theorem derivative_of
    (hR : 0 < R.t₁ ∧ 0 < R.t₂ ∧ 0 < R.n)
    (format : Format) (H : ContactMatrix ℝ) :
    let root (i : ℕ) : PartialReal := ((R.map of).toList.map Scalar.sqrt).getD i 0
    (DenseMatrix.tabulate format 3 3 fun i j =>
        ((H.map of).rows.getD i []).getD j 0 * root j / root i) =
      (DenseMatrix.tabulate format 3 3 fun i j =>
        H.entry i j * [√R.t₁, √R.t₂, √R.n].getD j 0 / [√R.t₁, √R.t₂, √R.n].getD i 0).map of := by
  intro root
  obtain ⟨h₁, h₂, hₙ⟩ := ContactVector.roots_ne_zero hR
  have hget : ∀ (xs : List ℝ) (i : ℕ), (xs.map of).getD i 0 = of (xs.getD i 0) := by
    intro xs i
    rw [of_zero, List.getD_map]
  have hroots : (R.map of).toList.map Scalar.sqrt = [√R.t₁, √R.t₂, √R.n].map of := by
    simp only [ContactVector.map, ContactVector.toList, List.map_cons, List.map_nil,
      of_sqrt hR.1.le, of_sqrt hR.2.1.le, of_sqrt hR.2.2.le]
  have hroot : ∀ i, root i = of ([√R.t₁, √R.t₂, √R.n].getD i 0) := by
    intro i
    rw [← hget, ← hroots]
  have hentry : ∀ i j, ((H.map of).rows.getD i []).getD j 0 = of (H.entry i j) := by
    intro i j
    change ((H.rows.map (List.map of)).getD i []).getD j 0 = _
    rw [← List.map_nil (f := of), List.getD_map, hget]
    rfl
  -- Beyond the three coordinates there is no root to divide by.
  have hne : ∀ i < 3, [√R.t₁, √R.t₂, √R.n].getD i 0 ≠ 0 := by
    intro i hi
    interval_cases i <;> assumption
  refine (DenseMatrix.map_tabulate of format fun i hi j _ => ?_).symm
  rw [hentry, hroot, hroot, of_mul, of_div (hne i hi)]

/-- The projected impulse is defined. -/
theorem impulse_of
    (hvalid : p.flaw? = none)
    (hR : 0 < R.t₁ ∧ 0 < R.t₂ ∧ 0 < R.n) :
    (p.map of).impulse (y.map of).toList (R.map of).toList =
      .ok ((((p.regimeAt R y).gradient (y.scaled R)).unscaled R).toList.map of) := by
  obtain ⟨hz, hregime⟩ := scaled_of p hR y
  rw [impulse_toList (fun _ => rfl) PartialReal.one_mul_eq]
  rw [hregime, hz, Regime.gradient_of (divisible_regimeAt hvalid hR), unscaled_of hR]

/-- The projection of an impulse and its derivative are defined. -/
theorem project_of
    (hvalid : p.flaw? = none)
    (hR : 0 < R.t₁ ∧ 0 < R.t₂ ∧ 0 < R.n)
    (format : Format) :
    (p.map of).project format (y.map of).toList (R.map of).toList =
      .ok ((((p.regimeAt R y).gradient (y.scaled R)).unscaled R).toList.map of,
        (p.derivativeAt format R y).map of) := by
  have hdivisible := divisible_regimeAt (y := y) hvalid hR
  have hderivative := derivative_of hR format ((p.regimeAt R y).hessian (y.scaled R))
  obtain ⟨hz, hregime⟩ := scaled_of p hR y
  rw [project_toList (fun _ => rfl) PartialReal.one_mul_eq]
  dsimp only at hz hregime hderivative ⊢
  rw [hregime, hz, Regime.gradient_of hdivisible, Regime.hessian_of hdivisible, unscaled_of hR,
    hderivative]
  rfl

/-- The value of the potential is defined. -/
theorem cost_of
    (hvalid : p.flaw? = none)
    (hR : 0 < R.t₁ ∧ 0 < R.t₂ ∧ 0 < R.n) :
    (p.map of).cost (y.map of).toList (R.map of).toList =
      .ok (of ((p.regimeAt R y).cost (y.scaled R))) := by
  obtain ⟨hz, hregime⟩ := scaled_of p hR y
  rw [cost_toList fun _ => rfl, hregime, hz, Regime.cost_of (divisible_regimeAt hvalid hR)]

end ConeParameters

end Formulas

namespace Constraint

/-- **The projection divides by no zero.**  For parameters without a flaw, a regularization with
three positive entries and any impulse, none of projection, impulse and cost is refused.  Computed
with numbers for which a quotient by zero, a root of a negative number and a tangent outside the
interval between two right angles have no result, each of them is defined and has its value in the
real numbers.  If the impulse slides, then the divisors and the angles of the formulas for it are in
their domains, each of them where it is reached. -/
theorem project_defined
    [Threshold]
    {c : Constraint ℝ} {p : ConeParameters ℝ} {gap : ℝ} (hlaw : c.law = .frictionCone p gap)
    (hvalid : p.validate = .ok p)
    (format : Format)
    (y₁ y₂ yₙ : ℝ)
    {R₁ R₂ Rₙ : ℝ} (hR₁ : 0 < R₁) (hR₂ : 0 < R₂) (hRₙ : 0 < Rₙ) :
    let y : Tensor ℝ := Tensor.ofVec format [y₁, y₂, yₙ]
    let R : Tensor ℝ := Tensor.ofVec format [R₁, R₂, Rₙ]
    let y' : ContactVector ℝ := ⟨y₁, y₂, yₙ⟩
    let R' : ContactVector ℝ := ⟨R₁, R₂, Rₙ⟩
    (∃ γ D a,
      (c.projectTensor y R = .ok (γ, D) ∧ c.impulseTensor y R = .ok γ ∧
        c.costTensor y R = .ok a) ∧
      ((c.map of).projectTensor (y.map of) (R.map of) = .ok (γ.map of, D.map of) ∧
        (c.map of).impulseTensor (y.map of) (R.map of) = .ok (γ.map of) ∧
        (c.map of).costTensor (y.map of) (R.map of) = .ok (a.map of))) ∧
      ∀ phi lower upper, p.regimeAt R' y' = .slide phi lower upper →
        Regime.Divisible (y'.scaled R') phi lower upper := by
  intro y R y' R'
  have hflaw : p.flaw? = none :=
    ConeParameters.flaw?_of_validate hvalid
  have hR : 0 < R'.t₁ ∧ 0 < R'.t₂ ∧ 0 < R'.n :=
    ⟨hR₁, hR₂, hRₙ⟩
  have hlaw' : (c.map of).law = .frictionCone (p.map of) (of gap) := by
    change c.law.map of = _
    rw [hlaw]
    rfl
  have hy : y.map of = Tensor.ofVec format (y'.map of).toList :=
    Tensor.map_ofVec of format y'.toList
  have hR' : R.map of = Tensor.ofVec format (R'.map of).toList :=
    Tensor.map_ofVec of format R'.toList
  refine ⟨⟨_, _, _, ⟨projectTensor_ofVec hlaw format y' R', impulseTensor_ofVec hlaw format y' R',
    costTensor_ofVec hlaw format y' R'⟩, ?_⟩, ConeParameters.divisible_regimeAt hflaw hR⟩
  rw [hy, hR', Tensor.map_ofVec, Tensor.map_ofMatrix, Tensor.map_ofScalar]
  refine ⟨projectTensor_of_shape hlaw' rfl rfl ?_, impulseTensor_of_shape hlaw' rfl rfl ?_,
    costTensor_of_shape hlaw' rfl rfl ?_⟩
  · rw [Tensor.entries_ofVec, Tensor.entries_ofVec]
    exact ConeParameters.project_of hflaw hR format
  · rw [Tensor.entries_ofVec, Tensor.entries_ofVec]
    exact ConeParameters.impulse_of hflaw hR
  · rw [Tensor.entries_ofVec, Tensor.entries_ofVec]
    exact ConeParameters.cost_of hflaw hR

/-- A contact that slides. -/
theorem project_defined_sliding :
    letI := Threshold.ofFormat .double
    let p := ConeParameters.ofMaterial (1 / 2 : ℝ) 1 0
    let c := Constraint.contact p 0 0 (DenseMatrix.identity .double 3) none
    let y : Tensor ℝ := Tensor.ofVec .double [3, 0, 1]
    let R : Tensor ℝ := Tensor.ofVec .double [1, 1, 2]
    let y' : ContactVector ℝ := ⟨3, 0, 1⟩
    let R' : ContactVector ℝ := ⟨1, 1, 2⟩
    (c.law = .frictionCone p 0 ∧ p.validate = .ok p ∧ (0 : ℝ) < 1 ∧ (0 : ℝ) < 2) ∧
      (∃ γ D a,
        (c.projectTensor y R = .ok (γ, D) ∧ c.impulseTensor y R = .ok γ ∧
          c.costTensor y R = .ok a) ∧
        ((c.map of).projectTensor (y.map of) (R.map of) = .ok (γ.map of, D.map of) ∧
          (c.map of).impulseTensor (y.map of) (R.map of) = .ok (γ.map of) ∧
          (c.map of).costTensor (y.map of) (R.map of) = .ok (a.map of))) ∧
        ∀ phi lower upper, p.regimeAt R' y' = .slide phi lower upper →
          Regime.Divisible (y'.scaled R') phi lower upper := by
  let _ := Threshold.ofFormat .double
  intro p c y R y' R'
  have hlaw : c.law = .frictionCone p 0 :=
    rfl
  have hvalid : p.validate = .ok p :=
    ConeParameters.validate_of_flaw?_eq_none
      (ConeParameters.flaw?_ofMaterial one_half_pos.le one_pos le_rfl)
  exact ⟨⟨hlaw, hvalid, one_pos, two_pos⟩,
    project_defined hlaw hvalid .double 3 0 1 one_pos one_pos two_pos⟩

end Constraint

end ConvexContact
