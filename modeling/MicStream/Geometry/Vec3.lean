import MicStream.Scalar
/-!
# Vectors in space

Positions of microphones in metres, and directions of sources.
-/
namespace MicStream

/-- A position or direction: x and y span the horizontal plane, z points up.
mirrors `Vec3` -/
structure Vec3 (α : Type) where
  x : α
  y : α
  z : α
  deriving DecidableEq, Repr

namespace Vec3

variable {α : Type} [Add α] [Sub α] [Mul α]

instance : Add (Vec3 α) := ⟨fun a b => ⟨a.x + b.x, a.y + b.y, a.z + b.z⟩⟩

instance : Sub (Vec3 α) := ⟨fun a b => ⟨a.x - b.x, a.y - b.y, a.z - b.z⟩⟩

/-- A vector made `s` times as long. -/
def scale (a : Vec3 α) (s : α) : Vec3 α := ⟨a.x * s, a.y * s, a.z * s⟩

def dot (a b : Vec3 α) : α := a.x * b.x + a.y * b.y + a.z * b.z

def cross (a b : Vec3 α) : Vec3 α :=
  ⟨a.y * b.z - a.z * b.y, a.z * b.x - a.x * b.z, a.x * b.y - a.y * b.x⟩

/-- Componentwise equality, with the equality of the number type. -/
def same [BEq α] (a b : Vec3 α) : Bool := a.x == b.x && a.y == b.y && a.z == b.z

variable [Scalar α]

def magnitude (a : Vec3 α) : α := Scalar.sqrt (a.dot a)

variable [Div α] [LT α] [DecidableLT α] [OfNat α 0] [OfScientific α]

def zero : Vec3 α := ⟨0, 0, 0⟩

/-- The unit vector in the same direction; vectors of next to no length become zero.
mirrors `Vec3.normalize` -/
def normalize (a : Vec3 α) : Vec3 α :=
  let m := a.magnitude
  if 1e-6 < m then ⟨a.x / m, a.y / m, a.z / m⟩ else zero

end Vec3

end MicStream
