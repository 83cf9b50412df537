import MicStream.Geometry.Layout
/-!
# From delays to a direction vector

A plane wave that travels along `u` reaches microphone `i` with a range
difference to microphone 0 that is the inner product of `u` with the offset of
the two. Three offsets and three range differences give the normal equations
of least squares: in two unknowns for layouts in one plane, where the third
component is then zero, and in three otherwise. Nearly singular systems have
no solution here.
-/
namespace MicStream

/-- One thing for each microphone but the reference. -/
structure Triple (β : Type) where
  r1 : β
  r2 : β
  r3 : β
  deriving DecidableEq, Repr

/-- One equation: the offset of a microphone from the reference and its range difference. -/
structure Constraint (α : Type) where
  offset : Vec3 α
  range : α
  deriving DecidableEq, Repr

namespace Solver

variable {α : Type} [Add α] [Sub α] [Mul α] [Div α] [Neg α] [LT α] [DecidableLT α]
  [OfNat α 0] [OfNat α 1] [OfScientific α] [Scalar α]

/-- The equations of a layout for given delays and speed of sound.
mirrors `MicArrayLocalizer.constraint_rows` -/
def constraints (p : Layout α) (soundSpeed : α) (delays : Triple α) : Triple (Constraint α) where
  r1 := ⟨p.m1 - p.m0, delays.r1 * soundSpeed⟩
  r2 := ⟨p.m2 - p.m0, delays.r2 * soundSpeed⟩
  r3 := ⟨p.m3 - p.m0, delays.r3 * soundSpeed⟩

/-- `∑ f c` over the three equations, added up from zero. -/
def sum (cs : Triple (Constraint α)) (f : Constraint α → α) : α := 0 + f cs.r1 + f cs.r2 + f cs.r3

/-- Least squares in the horizontal plane.
mirrors `MicArrayLocalizer.solve_2d` -/
def planar (cs : Triple (Constraint α)) : Option (Vec3 α) :=
  let a00 := sum cs fun c => c.offset.x * c.offset.x
  let a01 := sum cs fun c => c.offset.x * c.offset.y
  let a10 := sum cs fun c => c.offset.y * c.offset.x
  let a11 := sum cs fun c => c.offset.y * c.offset.y
  let b0 := sum cs fun c => c.offset.x * c.range
  let b1 := sum cs fun c => c.offset.y * c.range
  let det := a00 * a11 - a01 * a10
  if Scalar.abs det < 1e-10 then none
  else
    let inv := 1 / det
    some ⟨(a11 * b0 - a01 * b1) * inv, (a00 * b1 - a10 * b0) * inv, 0⟩

/-- Least squares in space, through the adjugate of the system matrix.
mirrors `MicArrayLocalizer.solve_3d` -/
def spatial (cs : Triple (Constraint α)) : Option (Vec3 α) :=
  let a00 := sum cs fun c => c.offset.x * c.offset.x
  let a01 := sum cs fun c => c.offset.x * c.offset.y
  let a02 := sum cs fun c => c.offset.x * c.offset.z
  let a10 := sum cs fun c => c.offset.y * c.offset.x
  let a11 := sum cs fun c => c.offset.y * c.offset.y
  let a12 := sum cs fun c => c.offset.y * c.offset.z
  let a20 := sum cs fun c => c.offset.z * c.offset.x
  let a21 := sum cs fun c => c.offset.z * c.offset.y
  let a22 := sum cs fun c => c.offset.z * c.offset.z
  let b0 := sum cs fun c => c.offset.x * c.range
  let b1 := sum cs fun c => c.offset.y * c.range
  let b2 := sum cs fun c => c.offset.z * c.range
  let det := a00 * (a11 * a22 - a12 * a21) - a01 * (a10 * a22 - a12 * a20)
    + a02 * (a10 * a21 - a11 * a20)
  if Scalar.abs det < 1e-10 then none
  else
    let inv := 1 / det
    let row (p q r : α) : α := p * inv * b0 + q * inv * b1 + r * inv * b2
    some
      ⟨row (a11 * a22 - a12 * a21) (a02 * a21 - a01 * a22) (a01 * a12 - a02 * a11),
       row (a12 * a20 - a10 * a22) (a00 * a22 - a02 * a20) (a02 * a10 - a00 * a12),
       row (a10 * a21 - a11 * a20) (a01 * a20 - a00 * a21) (a00 * a11 - a01 * a10)⟩

end Solver

end MicStream
