import VoxelGrammar.Geometry.Transform
import VoxelGrammar.Search.Attempt

/-!
Signed permutations of the axes, which are the rotations that the frames of a structure are made of.
They are closed under products, the transpose of one is its inverse, and the determinant tells turns
from reflections. The alignments of nodes that do not face along their own up axis are among them;
they carry the frame of one node onto that of the other.
-/

namespace VoxelGrammar

namespace Facing

theorem dot_self (f : Facing) : f.vector.dot f.vector = 1 := by
  cases f <;> decide

theorem exists_neg {v : Pos} (h : ∃ f : Facing, v = f.vector) : ∃ f : Facing, -v = f.vector := by
  obtain ⟨f, rfl⟩ := h
  exact ⟨f.opposite, f.vector_opposite.symm⟩

theorem isSome_ofVector?_iff {v : Pos} : (ofVector? v).isSome = true ↔ ∃ f : Facing, v = f.vector := by
  constructor
  · intro h
    obtain ⟨f, hf⟩ := Option.isSome_iff_exists.1 h
    have found := List.find?_some (p := fun f : Facing => decide (f.vector = v)) hf
    exact ⟨f, (of_decide_eq_true found).symm⟩
  · rintro ⟨f, rfl⟩
    rw [ofVector?_vector]
    rfl

instance (v : Pos) : Decidable (∃ f : Facing, v = f.vector) :=
  decidable_of_iff _ isSome_ofVector?_iff

end Facing

namespace Rotation

variable {a b r : Rotation}

def det (r : Rotation) : Int32 := r.rowX.dot (r.rowY.cross r.rowZ)

/-- A signed permutation matrix: the rows are unit vectors along three different axes. -/
structure Signed (r : Rotation) : Prop where
  x : ∃ f : Facing, r.rowX = f.vector
  y : ∃ f : Facing, r.rowY = f.vector
  z : ∃ f : Facing, r.rowZ = f.vector
  xy : r.rowX.dot r.rowY = 0
  yz : r.rowY.dot r.rowZ = 0
  zx : r.rowZ.dot r.rowX = 0

instance (r : Rotation) : Decidable r.Signed :=
  decidable_of_iff ((∃ f : Facing, r.rowX = f.vector) ∧ (∃ f : Facing, r.rowY = f.vector) ∧
    (∃ f : Facing, r.rowZ = f.vector) ∧ r.rowX.dot r.rowY = 0 ∧ r.rowY.dot r.rowZ = 0 ∧
      r.rowZ.dot r.rowX = 0)
    ⟨fun ⟨x, y, z, xy, yz, zx⟩ => ⟨x, y, z, xy, yz, zx⟩, fun h => ⟨h.x, h.y, h.z, h.xy, h.yz, h.zx⟩⟩

/-! ### Products -/

theorem det_mul (a b : Rotation) : (a * b).det = a.det * b.det := by
  show (mul a b).det = _
  simp only [det, mul, combineRows, apply, transpose, Pos.dot, Pos.cross]
  grind

theorem det_transpose (r : Rotation) : r.transpose.det = r.det := by
  simp only [det, transpose, Pos.dot, Pos.cross]
  grind

@[simp] theorem mul_identity (r : Rotation) : r * identity = r := by
  show mul r identity = r
  ext <;> simp [mul, combineRows, apply, transpose, identity, Pos.dot]

theorem combineRows_posX (r : Rotation) : combineRows Facing.posX.vector r = r.rowX := by
  ext <;> simp [combineRows, apply, transpose, Facing.vector, Pos.dot]

theorem combineRows_posY (r : Rotation) : combineRows Facing.posY.vector r = r.rowY := by
  ext <;> simp [combineRows, apply, transpose, Facing.vector, Pos.dot]

theorem combineRows_posZ (r : Rotation) : combineRows Facing.posZ.vector r = r.rowZ := by
  ext <;> simp [combineRows, apply, transpose, Facing.vector, Pos.dot]

/-- A scalar product of combinations of the rows comes down to those of the rows. -/
theorem dot_combineRows (r : Rotation) (v w : Pos) :
    (combineRows v r).dot (combineRows w r) =
      v.x * w.x * r.rowX.dot r.rowX + v.y * w.y * r.rowY.dot r.rowY +
        v.z * w.z * r.rowZ.dot r.rowZ + (v.x * w.y + v.y * w.x) * r.rowX.dot r.rowY +
        (v.y * w.z + v.z * w.y) * r.rowY.dot r.rowZ +
        (v.z * w.x + v.x * w.z) * r.rowZ.dot r.rowX := by
  simp only [combineRows, apply, transpose, Pos.dot]
  grind

namespace Signed

theorem identity : identity.Signed := ⟨⟨.posX, rfl⟩, ⟨.posY, rfl⟩, ⟨.posZ, rfl⟩, rfl, rfl, rfl⟩

/-- A row of a product is a row of the second factor or the opposite of one. -/
theorem combineRows (h : r.Signed) (f : Facing) :
    ∃ g : Facing, combineRows f.vector r = g.vector := by
  have opposite : ∀ f : Facing,
      Rotation.combineRows f.opposite.vector r = -Rotation.combineRows f.vector r := by
    intro f
    rw [Facing.vector_opposite]
    exact apply_neg _ _
  cases f with
  | posX => exact r.combineRows_posX ▸ h.x
  | posY => exact r.combineRows_posY ▸ h.y
  | posZ => exact r.combineRows_posZ ▸ h.z
  | negX => exact (opposite .posX).trans (congrArg _ r.combineRows_posX) ▸ Facing.exists_neg h.x
  | negY => exact (opposite .posY).trans (congrArg _ r.combineRows_posY) ▸ Facing.exists_neg h.y
  | negZ => exact (opposite .posZ).trans (congrArg _ r.combineRows_posZ) ▸ Facing.exists_neg h.z

/-- The rows are orthonormal, so combining them keeps scalar products. -/
theorem dot_combineRows (h : r.Signed) (v w : Pos) :
    (Rotation.combineRows v r).dot (Rotation.combineRows w r) = v.dot w := by
  have unit : ∀ {u : Pos}, (∃ f : Facing, u = f.vector) → u.dot u = 1 := by
    rintro _ ⟨f, rfl⟩
    exact f.dot_self
  rw [Rotation.dot_combineRows, unit h.x, unit h.y, unit h.z, h.xy, h.yz, h.zx]
  simp [Pos.dot]

theorem mul (ha : a.Signed) (hb : b.Signed) : (a * b).Signed := by
  have row : ∀ {v : Pos}, (∃ f : Facing, v = f.vector) →
      ∃ g : Facing, Rotation.combineRows v b = g.vector := by
    rintro _ ⟨f, rfl⟩
    exact hb.combineRows f
  exact ⟨row ha.x, row ha.y, row ha.z, (hb.dot_combineRows _ _).trans ha.xy,
    (hb.dot_combineRows _ _).trans ha.yz, (hb.dot_combineRows _ _).trans ha.zx⟩

theorem apply_transpose (h : r.Signed) (p : Pos) : r.apply (r.transpose.apply p) = p := by
  have row : ∀ f : Facing, (Rotation.combineRows f.vector r).dot (Rotation.combineRows p r) =
      f.vector.dot p := fun f => h.dot_combineRows f.vector p
  have x := row .posX
  have y := row .posY
  have z := row .posZ
  rw [combineRows_posX] at x
  rw [combineRows_posY] at y
  rw [combineRows_posZ] at z
  ext
  · exact x.trans (by simp [Facing.vector, Pos.dot])
  · exact y.trans (by simp [Facing.vector, Pos.dot])
  · exact z.trans (by simp [Facing.vector, Pos.dot])

/-- The columns are unit vectors along three different axes, too. -/
theorem transpose (h : r.Signed) : r.transpose.Signed := by
  obtain ⟨x, y, z⟩ := r
  obtain ⟨⟨f, rfl⟩, ⟨g, rfl⟩, ⟨k, rfl⟩, xy, yz, zx⟩ := h
  dsimp only at xy yz zx
  revert xy yz zx
  cases f <;> cases g <;> cases k <;> decide

theorem transpose_apply (h : r.Signed) (p : Pos) : r.transpose.apply (r.apply p) = p :=
  h.transpose.apply_transpose p

end Signed

/-! ### Reflections -/

/-- What lies in the mirror plane stays where it is. -/
theorem reflection_apply {n v : Pos} (h : n.dot v = 0) : (reflection n).apply v = v := by
  have moved : (reflection n).apply v = v - n.scale (2 * n.dot v) := by
    ext <;> simp only [reflection, apply, identity, Pos.dot, Pos.scale, Pos.sub_x, Pos.sub_y,
      Pos.sub_z] <;> grind
  rw [moved, h]
  ext <;> simp [Pos.scale]

theorem signed_reflection (f : Facing) : (reflection f.vector).Signed := by
  cases f <;> decide

theorem det_reflection (f : Facing) : (reflection f.vector).det = -1 := by
  cases f <;> decide

end Rotation

/-! ### Inverses -/

namespace Transform

variable {t : Transform}

@[simp] theorem rotation_mul (a b : Transform) : (a * b).rotation = a.rotation * b.rotation := rfl

@[simp] theorem rotation_shift (p : Pos) : (shift p).rotation = .identity := rfl

@[simp] theorem mul_identity (t : Transform) : t * identity = t := by
  show mul t identity = t
  obtain ⟨rotation, offset⟩ := t
  have rotated : rotation * Rotation.identity = rotation := Rotation.mul_identity rotation
  have moved : Transform.apply ⟨rotation, offset⟩ Pos.zero = offset := by
    ext <;> simp [apply, Rotation.apply, Pos.zero, Pos.dot]
  exact congr (congrArg Transform.mk rotated) moved

theorem inverse_apply (h : t.rotation.Signed) (p : Pos) : t.inverse.apply (t.apply p) = p := by
  simp only [inverse, apply, Rotation.apply_add, h.transpose_apply]
  ext <;> simp <;> grind

theorem apply_inverse (h : t.rotation.Signed) (q : Pos) : t.apply (t.inverse.apply q) = q := by
  have back : t.rotation.apply (t.inverse.apply q) = q - t.offset := by
    simp only [inverse, apply, Rotation.apply_add, Rotation.apply_neg, h.apply_transpose]
    ext <;> simp <;> grind
  rw [apply, back]
  ext <;> simp

end Transform

/-! ### Orientations -/

namespace Orientation

variable {o source target : Orientation}

theorem isValid_adjacent (h : o.isValid = true) : o.adjacent.isValid = true := by
  cases o with
  | unspecified => rfl
  | facing f u =>
      revert h
      cases f <;> cases u <;> decide

theorem isValid_turn (h : o.isValid = true) : o.turn.isValid = true := by
  cases o with
  | unspecified => rfl
  | facing f u =>
      revert h
      cases f <;> cases u <;> decide

theorem forward_adjacent (h : o.isSpecified = true) : o.adjacent.forward = -o.forward := by
  cases o with
  | unspecified => cases h
  | facing f u => exact f.vector_opposite

theorem up_adjacent (o : Orientation) : o.adjacent.up = o.up := by
  cases o <;> rfl

/-- The frame of an orientation is a turn, and its right axis one of the six directions. -/
theorem frame_turns (h : o.isValid = true) :
    o.frame.Signed ∧ o.frame.det = 1 ∧ ∃ f : Facing, o.right = f.vector := by
  cases o with
  | unspecified => decide
  | facing f u =>
      revert h
      cases f <;> cases u <;> decide

theorem right_dot_up (o : Orientation) : o.right.dot o.up = 0 := by
  simp only [right, Pos.dot, Pos.cross]
  grind

theorem right_dot_forward (o : Orientation) : o.right.dot o.forward = 0 := by
  simp only [right, Pos.dot, Pos.cross]
  grind

/-- An alignment is a signed permutation; it is a turn unless the joint reflects. -/
theorem alignRotation_signed (hs : source.isValid = true) (ht : target.isValid = true)
    (joint : Joint) : (alignRotation source target joint).Signed ∧
      (alignRotation source target joint).det = if joint.reflected then -1 else 1 := by
  obtain ⟨signed, det, f, hf⟩ := frame_turns hs
  obtain ⟨signed', det', _⟩ := frame_turns ht
  have turn := signed'.transpose.mul signed
  have keeps : (target.frame.transpose * source.frame).det = 1 := by
    rw [Rotation.det_mul, Rotation.det_transpose, det, det']
    rfl
  unfold alignRotation
  dsimp only
  split
  · rw [hf]
    refine ⟨turn.mul (Rotation.signed_reflection f), ?_⟩
    rw [Rotation.det_mul, keeps, Rotation.det_reflection]
    rfl
  · exact ⟨turn, keeps⟩

/-- The reflection leaves what lies across the right axis alone, so the frames alone tell where it
goes. -/
theorem alignRotation_apply (joint : Joint) {v : Pos} (hv : source.right.dot v = 0) :
    (alignRotation source target joint).apply v =
      target.frame.transpose.apply (source.frame.apply v) := by
  unfold alignRotation
  dsimp only
  split
  · rw [Rotation.apply_mul, Rotation.reflection_apply hv, Rotation.apply_mul]
  · rw [Rotation.apply_mul]

theorem frame_apply (h : o.isValid = true) :
    o.frame.apply o.forward = Facing.posZ.vector ∧ o.frame.apply o.up = Facing.posY.vector := by
  cases o with
  | unspecified => decide
  | facing f u =>
      revert h
      cases f <;> cases u <;> decide

/-- An alignment carries the forward direction of one node onto that of the other, and the up
direction likewise. -/
theorem alignRotation_carries (hs : source.isValid = true) (target : Orientation) (joint : Joint) :
    (alignRotation source target joint).apply source.forward = target.forward ∧
      (alignRotation source target joint).apply source.up = target.up := by
  obtain ⟨forward, up⟩ := frame_apply hs
  rw [alignRotation_apply joint source.right_dot_forward, alignRotation_apply joint source.right_dot_up,
    forward, up]
  exact ⟨target.frame.combineRows_posZ, target.frame.combineRows_posY⟩

/-- A node that is joined about its cell stays in its cell or comes one block before its anchor. -/
theorem offset_alignTo {joint : Joint} (hh : joint.horizontalEdge = false)
    (hv : joint.verticalEdge = false) (source target : Orientation) :
    (source.alignTo target joint).offset = if joint.adjacent then -target.forward else .zero := by
  have pivot : joint.doubledPivot = .zero := by
    rw [Joint.doubledPivot, hh, hv]
    rfl
  have still : ∀ r : Rotation, r.apply .zero - .zero = .zero := by
    intro r
    ext <;> simp [Rotation.apply, Pos.dot, Pos.zero]
  have zero : (0 : Int32) >>> 1 = 0 := by decide
  simp only [alignTo, pivot, still]
  split
  · ext <;> simp [Pos.zero, zero]
  · simp only [Pos.zero, zero]

end Orientation

/-- The attachments by a node are as valid as its orientation. -/
theorem Node.isValid_orientations {n : Node} (h : n.orientation.isValid = true) :
    ∀ o ∈ n.orientations, o.isValid = true := by
  intro o ho
  unfold orientations at ho
  dsimp only at ho
  split at ho
  · have turned := Orientation.isValid_turn h
    have twice := Orientation.isValid_turn turned
    have thrice := Orientation.isValid_turn twice
    simp only [List.mem_cons, List.not_mem_nil, or_false] at ho
    rcases ho with rfl | rfl | rfl | rfl <;> assumption
  · rw [List.mem_singleton.1 ho]
    exact h

end VoxelGrammar
