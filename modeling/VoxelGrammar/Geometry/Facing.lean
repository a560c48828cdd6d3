import VoxelGrammar.Geometry.Pos

/-!
The six axis directions, and the orientation of an attachment node: where it faces and which way
is up.
-/

namespace VoxelGrammar

inductive Facing
  | posX | negX | posY | negY | posZ | negZ
deriving DecidableEq

namespace Facing

/-- The unit vector of a direction. -/
def vector : Facing → Pos
  | posX => ⟨1, 0, 0⟩
  | negX => ⟨-1, 0, 0⟩
  | posY => ⟨0, 1, 0⟩
  | negY => ⟨0, -1, 0⟩
  | posZ => ⟨0, 0, 1⟩
  | negZ => ⟨0, 0, -1⟩

def opposite : Facing → Facing
  | posX => negX
  | negX => posX
  | posY => negY
  | negY => posY
  | posZ => negZ
  | negZ => posZ

def all : List Facing := [posX, negX, posY, negY, posZ, negZ]

/-- The direction whose unit vector is `v`, if `v` is one. -/
def ofVector? (v : Pos) : Option Facing := all.find? (fun f => f.vector = v)

@[simp] theorem ofVector?_vector (f : Facing) : ofVector? f.vector = some f := by
  cases f <;> decide

theorem vector_opposite (f : Facing) : f.opposite.vector = -f.vector := by
  cases f <;> decide

@[simp] theorem opposite_opposite (f : Facing) : f.opposite.opposite = f := by
  cases f <;> rfl

end Facing

/-- An attachment node either leaves its orientation open or names where it faces and its up
direction. An open orientation stands for the canonical one, `posZ` with `posY` up, wherever a
frame is needed, and is never rotated. -/
inductive Orientation
  | unspecified
  | facing (forward up : Facing)
deriving DecidableEq

namespace Orientation

instance : Inhabited Orientation := ⟨unspecified⟩

def isSpecified : Orientation → Bool
  | unspecified => false
  | facing _ _ => true

/-- Forward and up must be perpendicular. -/
def isValid : Orientation → Bool
  | unspecified => true
  | facing forward up => forward.vector.dot up.vector == 0

/-- The orientation that meets this one face to face. -/
def adjacent : Orientation → Orientation
  | unspecified => unspecified
  | facing forward up => facing forward.opposite up

/-- A quarter turn about the up axis. -/
def turn : Orientation → Orientation
  | unspecified => unspecified
  | facing forward up =>
    facing ((Facing.ofVector? (up.vector.cross forward.vector)).getD forward) up

def forward : Orientation → Pos
  | unspecified => Facing.posZ.vector
  | facing forward _ => forward.vector

def up : Orientation → Pos
  | unspecified => Facing.posY.vector
  | facing _ up => up.vector

def right (o : Orientation) : Pos := o.up.cross o.forward

end Orientation

end VoxelGrammar
