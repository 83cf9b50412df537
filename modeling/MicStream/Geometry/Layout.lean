import MicStream.Geometry.Vec3
/-!
# Layouts of four microphones

A layout places four microphones; the first is the reference of all delays.
Two regular layouts are built in, a tetrahedron and a horizontal square, and
`Layout.isPlanar` tells whether four given positions lie in one plane.
-/
namespace MicStream

/-- One thing for each of four microphones. -/
structure Quad (β : Type) where
  m0 : β
  m1 : β
  m2 : β
  m3 : β
  deriving DecidableEq, Repr

namespace Quad

variable {β γ δ : Type}

def map (f : β → γ) (q : Quad β) : Quad γ := ⟨f q.m0, f q.m1, f q.m2, f q.m3⟩

def zipWith (f : β → γ → δ) (p : Quad β) (q : Quad γ) : Quad δ :=
  ⟨f p.m0 q.m0, f p.m1 q.m1, f p.m2 q.m2, f p.m3 q.m3⟩

def toList (q : Quad β) : List β := [q.m0, q.m1, q.m2, q.m3]

/-- The first four entries of a list. -/
def ofList? : List β → Option (Quad β)
  | a :: b :: c :: d :: _ => some ⟨a, b, c, d⟩
  | _ => none

/-- The six unordered pairs, by first and then by second microphone. -/
def pairs (q : Quad β) : List (β × β) :=
  [(q.m0, q.m1), (q.m0, q.m2), (q.m0, q.m3), (q.m1, q.m2), (q.m1, q.m3), (q.m2, q.m3)]

end Quad

/-- Positions of the four microphones in metres. -/
abbrev Layout (α : Type) := Quad (Vec3 α)

namespace Layout

variable {α : Type} [Add α] [Sub α] [Mul α] [Div α] [Neg α] [LT α] [DecidableLT α]
  [OfNat α 0] [OfScientific α] [Scalar α]

/-- Regular tetrahedron centred on the origin with one apex straight up.
mirrors `tetrahedron_positions` -/
def tetrahedron (edge : α) : Layout α :=
  let h := edge * Scalar.sqrt (2.0 / 3.0)
  let r := edge / Scalar.sqrt 3.0
  let halfChord := r * Scalar.sqrt 3.0 / 2.0
  { m0 := ⟨0, 0, h * 0.75⟩
    m1 := ⟨r, 0, -h * 0.25⟩
    m2 := ⟨-r * 0.5, halfChord, -h * 0.25⟩
    m3 := ⟨-r * 0.5, -halfChord, -h * 0.25⟩ }

/-- Horizontal square through the origin, counter-clockwise from the corner at the upper left.
mirrors `square_positions` -/
def square (edge : α) : Layout α :=
  let half := edge / 2.0
  { m0 := ⟨-half, half, 0⟩
    m1 := ⟨-half, -half, 0⟩
    m2 := ⟨half, -half, 0⟩
    m3 := ⟨half, half, 0⟩ }

/-- Six times the volume that the four positions span, with its sign. -/
def tripleProduct (p : Layout α) : α :=
  (p.m1 - p.m0).dot ((p.m2 - p.m0).cross (p.m3 - p.m0))

/-- Whether the positions span next to no volume.
mirrors `is_planar_array` -/
def isPlanar (p : Layout α) : Bool := decide (Scalar.abs p.tripleProduct < 1e-6)

/-- The largest distance between two microphones.
mirrors `MicArrayLocalizer.new`, its loop over pairs -/
def span (p : Layout α) : α :=
  p.pairs.foldl (fun m (a, b) => let d := (b - a).magnitude; if m < d then d else m) 0

end Layout

end MicStream
