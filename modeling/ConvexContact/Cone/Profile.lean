import ConvexContact.Scalar

/-!
# Angular profile of the smoothed cone

In scaled impulse space, let `φ` be the angle between an impulse and the surface of the cone,
positive outside.  The potential of the projection is half the squared length of the impulse times
a profile `M φ` that falls from one inside the cone to zero in the polar cone.

**Exact profile.**  `1` for `φ ≤ 0`, `cos² φ` for `0 ≤ φ ≤ π/2`, and `0` beyond.

**Smoothed profile.**  In a band of half width `lower` around `φ = 0` the quotient `-M'/(2 M)` is
`tan φ` plus the cubic `hermiteOffset`, which vanishes to first order at the right end and makes
the sum vanish to first order at the left end.  In a band of width `upper` before `φ = π/2` the
profile is multiplied by the attenuation `1 - (1 - t)³`.  Between the bands it is `cos² φ` times
the constant `slideScale`.
-/

namespace ConvexContact

open Scalar

/-- A function of one variable at a point: its value and its first two derivatives. -/
structure Jet (α : Type) where
  value : α
  slope : α
  curvature : α

namespace Profile

variable {α : Type} [Scalar α]

/-- The cubic offset at `phi` in the band of half width `width`, its derivative, and its integral
from the left end of the band on. -/
def hermiteOffset (phi width : α) : α × α × α :=
  let T := tan width
  let S := 1 + T * T
  let s := (phi + width) / (2 * width)
  let h₀ := square (1 - s) * (1 + 2 * s)
  let h₁ := s * square (1 - s)
  let p := T * h₀ - 2 * width * S * h₁
  let dp := (T * (6 * s * s - 6 * s) - 2 * width * S * (3 * s * s - 4 * s + 1)) / (2 * width)
  let H₀ := half * (square s * square s) - cube s + s
  let H₁ := half * half * (square s * square s) - 2 * cube s / 3 + half * s * s
  (p, dp, 2 * width * (T * H₀ - 2 * width * S * H₁))

/-- The constant that keeps the profile continuous behind the band of half width `width`. -/
def slideScale (width : α) : α :=
  if width ≤ 0 then 1
  else
    let T := tan width
    let P := width * T - width * width * (1 + T * T) / 3
    exp (-2 * P) / square (cos width)

/-- The profile inside the band around the surface of the cone. -/
def lowerBand (phi lower : α) : Jet α :=
  let (p, dp, P) := hermiteOffset phi lower
  let q := tan phi + p
  let dq := 1 + square (tan phi) + dp
  let M := square (cos phi) / square (cos lower) * exp (-2 * P)
  ⟨M, -2 * q * M, (4 * q * q - 2 * dq) * M⟩

/-- The profile `cos² φ` times a constant. -/
def slide (phi scale : α) : Jet α :=
  ⟨scale * square (cos phi), scale * -sin (2 * phi), scale * (-2 * cos (2 * phi))⟩

/-- The profile inside the band before the polar cone. -/
def upperBand (phi scale upper : α) : Jet α :=
  let c₂ := square (cos phi)
  let dc₂ := -sin (2 * phi)
  let d₂c₂ := -2 * cos (2 * phi)
  let t := (half * pi - phi) / upper
  let chi := 1 - cube (1 - t)
  let dchi := -3 * square (1 - t) / upper
  let d₂chi := -6 * (1 - t) / (upper * upper)
  ⟨scale * c₂ * chi, scale * (dc₂ * chi + c₂ * dchi),
    scale * (d₂c₂ * chi + 2 * dc₂ * dchi + c₂ * d₂chi)⟩

/-- The profile for `-lower < phi < π/2`. -/
def between (phi lower upper : α) : Jet α :=
  if phi < lower then lowerBand phi lower
  else if phi ≤ half * pi - upper then slide phi (slideScale lower)
  else upperBand phi (slideScale lower) upper

end Profile

end ConvexContact
