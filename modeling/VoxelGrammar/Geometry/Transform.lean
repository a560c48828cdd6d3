import VoxelGrammar.Geometry.Facing

/-!
Exact affine maps of the block grid. A rotation is a matrix of three rows; the ones that arise
here are signed permutations, so their inverse is the transpose and no composition ever rounds.
`Orientation.alignTo` is the map that carries one attachment node onto another.
-/

namespace VoxelGrammar

/-- A 3 by 3 matrix, given by its rows. -/
@[ext] structure Rotation where
  rowX : Pos
  rowY : Pos
  rowZ : Pos
deriving DecidableEq

namespace Rotation

def identity : Rotation := ⟨⟨1, 0, 0⟩, ⟨0, 1, 0⟩, ⟨0, 0, 1⟩⟩

instance : Inhabited Rotation := ⟨identity⟩

def apply (r : Rotation) (p : Pos) : Pos := ⟨r.rowX.dot p, r.rowY.dot p, r.rowZ.dot p⟩

def transpose (r : Rotation) : Rotation :=
  ⟨⟨r.rowX.x, r.rowY.x, r.rowZ.x⟩, ⟨r.rowX.y, r.rowY.y, r.rowZ.y⟩,
    ⟨r.rowX.z, r.rowY.z, r.rowZ.z⟩⟩

/-- The combination of the rows of `r` with the coefficients of `v`. -/
def combineRows (v : Pos) (r : Rotation) : Pos := r.transpose.apply v

def mul (a b : Rotation) : Rotation :=
  ⟨combineRows a.rowX b, combineRows a.rowY b, combineRows a.rowZ b⟩

instance : Mul Rotation := ⟨mul⟩

/-- The reflection in the plane through the origin that is perpendicular to the unit vector `n`. -/
def reflection (n : Pos) : Rotation :=
  ⟨identity.rowX - n.scale (2 * n.x), identity.rowY - n.scale (2 * n.y),
    identity.rowZ - n.scale (2 * n.z)⟩

theorem apply_mul (a b : Rotation) (p : Pos) : (a * b).apply p = a.apply (b.apply p) := by
  show (mul a b).apply p = _
  apply Pos.ext <;> simp only [apply, mul, combineRows, transpose, Pos.dot] <;> grind

@[simp] theorem apply_identity (p : Pos) : identity.apply p = p := by
  apply Pos.ext <;> simp [apply, identity, Pos.dot]

theorem apply_add (r : Rotation) (p q : Pos) : r.apply (p + q) = r.apply p + r.apply q := by
  apply Pos.ext <;> simp only [apply, Pos.dot, Pos.add_x, Pos.add_y, Pos.add_z] <;> grind

theorem apply_neg (r : Rotation) (p : Pos) : r.apply (-p) = -r.apply p := by
  apply Pos.ext <;> simp only [apply, Pos.dot, Pos.neg_x, Pos.neg_y, Pos.neg_z] <;> grind

end Rotation

/-- The map that rotates first and shifts then. -/
structure Transform where
  rotation : Rotation
  offset : Pos
deriving DecidableEq

namespace Transform

def identity : Transform := ⟨.identity, .zero⟩

instance : Inhabited Transform := ⟨identity⟩

def shift (offset : Pos) : Transform := ⟨.identity, offset⟩

def apply (t : Transform) (p : Pos) : Pos := t.rotation.apply p + t.offset

/-- The image of a direction. -/
def applyVector (t : Transform) (v : Pos) : Pos := t.rotation.apply v

/-- The image of the local origin. -/
def origin (t : Transform) : Pos := t.offset

/-- The inverse of a map whose rotation is orthogonal. -/
def inverse (t : Transform) : Transform :=
  ⟨t.rotation.transpose, -t.rotation.transpose.apply t.offset⟩

def mul (a b : Transform) : Transform := ⟨a.rotation * b.rotation, a.apply b.offset⟩

instance : Mul Transform := ⟨mul⟩

theorem apply_mul (a b : Transform) (p : Pos) : (a * b).apply p = a.apply (b.apply p) := by
  show (a.rotation * b.rotation).apply p + a.apply b.offset = _
  rw [Rotation.apply_mul]
  simp only [apply, Rotation.apply_add]
  apply Pos.ext <;> simp only [Pos.add_x, Pos.add_y, Pos.add_z] <;> grind

end Transform

/-- How a node is joined to its anchor: whether it pivots about a corner of its cell rather than
about the cell, whether the attached fragment starts one block further, and whether the fragment
is reflected across the node's right axis. -/
structure Joint where
  horizontalEdge : Bool
  verticalEdge : Bool
  adjacent : Bool
  reflected : Bool
deriving DecidableEq

namespace Joint

def plain : Joint := ⟨false, false, false, false⟩

instance : Inhabited Joint := ⟨plain⟩

/-- Every mark of `b` is a mark of `a`. -/
def contains (a b : Joint) : Bool :=
  (!b.horizontalEdge || a.horizontalEdge) && (!b.verticalEdge || a.verticalEdge) &&
    (!b.adjacent || a.adjacent) && (!b.reflected || a.reflected)

def union (a b : Joint) : Joint :=
  ⟨a.horizontalEdge || b.horizontalEdge, a.verticalEdge || b.verticalEdge,
    a.adjacent || b.adjacent, a.reflected || b.reflected⟩

/-- The marks of `a` that are not marks of `b`. -/
def without (a b : Joint) : Joint :=
  ⟨a.horizontalEdge && !b.horizontalEdge, a.verticalEdge && !b.verticalEdge,
    a.adjacent && !b.adjacent, a.reflected && !b.reflected⟩

/-- Twice the offset of the pivot from the middle of the cell. -/
def doubledPivot (j : Joint) : Pos :=
  let h := if j.horizontalEdge then 1 else 0
  ⟨h, if j.verticalEdge then 1 else 0, h⟩

end Joint

namespace Orientation

/-- World coordinates in, coordinates along right, up and forward out. -/
def frame (o : Orientation) : Rotation := ⟨o.right, o.up, o.forward⟩

/-- The rotation that carries the frame of `source` onto that of `target`, after a reflection
across the right axis of `source` where the joint asks for one. -/
def alignRotation (source target : Orientation) (joint : Joint) : Rotation :=
  let turn := target.frame.transpose * source.frame
  if joint.reflected then turn * Rotation.reflection source.right else turn

/-- The map that lines a node facing `source` up with an anchor facing `target`. The pivot stays
where it is, rounded down to the grid, and an adjacent joint moves the fragment one block against
the anchor's forward direction. -/
def alignTo (source target : Orientation) (joint : Joint) : Transform :=
  let rotation := alignRotation source target joint
  let moved := rotation.apply joint.doubledPivot - joint.doubledPivot
  let pivoted : Pos := ⟨moved.x >>> 1, moved.y >>> 1, moved.z >>> 1⟩
  ⟨rotation, if joint.adjacent then pivoted - target.forward else pivoted⟩

end Orientation

end VoxelGrammar
