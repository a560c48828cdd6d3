/-!
Block positions. A position is a triple of 32-bit words, so adding, scaling and multiplying
positions are ring operations modulo `2 ^ 32`; inside the world they agree with the integers.
Positions are ordered lexicographically, `x` first.
-/

namespace VoxelGrammar

/-- A block position, or the offset between two of them. -/
@[ext] structure Pos where
  x : Int32
  y : Int32
  z : Int32
deriving DecidableEq, Hashable

namespace Pos

def zero : Pos := ⟨0, 0, 0⟩

instance : Inhabited Pos := ⟨zero⟩

def splat (v : Int32) : Pos := ⟨v, v, v⟩

def add (a b : Pos) : Pos := ⟨a.x + b.x, a.y + b.y, a.z + b.z⟩

def sub (a b : Pos) : Pos := ⟨a.x - b.x, a.y - b.y, a.z - b.z⟩

def neg (a : Pos) : Pos := ⟨-a.x, -a.y, -a.z⟩

instance : Add Pos := ⟨add⟩
instance : Sub Pos := ⟨sub⟩
instance : Neg Pos := ⟨neg⟩

/-- Every component times `k`. -/
def scale (k : Int32) (a : Pos) : Pos := ⟨k * a.x, k * a.y, k * a.z⟩

def dot (a b : Pos) : Int32 := a.x * b.x + a.y * b.y + a.z * b.z

def cross (a b : Pos) : Pos :=
  ⟨a.y * b.z - a.z * b.y, a.z * b.x - a.x * b.z, a.x * b.y - a.y * b.x⟩

@[simp] theorem add_x (a b : Pos) : (a + b).x = a.x + b.x := rfl
@[simp] theorem add_y (a b : Pos) : (a + b).y = a.y + b.y := rfl
@[simp] theorem add_z (a b : Pos) : (a + b).z = a.z + b.z := rfl
@[simp] theorem sub_x (a b : Pos) : (a - b).x = a.x - b.x := rfl
@[simp] theorem sub_y (a b : Pos) : (a - b).y = a.y - b.y := rfl
@[simp] theorem sub_z (a b : Pos) : (a - b).z = a.z - b.z := rfl
@[simp] theorem neg_x (a : Pos) : (-a).x = -a.x := rfl
@[simp] theorem neg_y (a : Pos) : (-a).y = -a.y := rfl
@[simp] theorem neg_z (a : Pos) : (-a).z = -a.z := rfl

/-- Componentwise minimum. -/
def inf (a b : Pos) : Pos :=
  ⟨if a.x ≤ b.x then a.x else b.x, if a.y ≤ b.y then a.y else b.y, if a.z ≤ b.z then a.z else b.z⟩

/-- Componentwise maximum. -/
def sup (a b : Pos) : Pos :=
  ⟨if a.x ≤ b.x then b.x else a.x, if a.y ≤ b.y then b.y else a.y, if a.z ≤ b.z then b.z else a.z⟩

/-- The componentwise order, which is partial. -/
def Below (a b : Pos) : Prop := a.x ≤ b.x ∧ a.y ≤ b.y ∧ a.z ≤ b.z

instance (a b : Pos) : Decidable (Below a b) := inferInstanceAs (Decidable (_ ∧ _ ∧ _))

/-- The number of cells of a box with this extent, in 64-bit words. -/
def volume (a : Pos) : Int64 := a.x.toInt64 * a.y.toInt64 * a.z.toInt64

/-- The lexicographic order, `x` first. -/
def Precedes (a b : Pos) : Prop :=
  a.x < b.x ∨ a.x = b.x ∧ (a.y < b.y ∨ a.y = b.y ∧ a.z < b.z)

instance (a b : Pos) : Decidable (Precedes a b) :=
  inferInstanceAs (Decidable (_ ∨ _ ∧ (_ ∨ _ ∧ _)))

def compare (a b : Pos) : Ordering :=
  if Precedes a b then .lt else if a = b then .eq else .gt

theorem precedes_trans {a b c : Pos} (hab : Precedes a b) (hbc : Precedes b c) : Precedes a c := by
  simp only [Precedes, Int32.lt_iff_toInt_lt, ← Int32.toInt_inj] at *
  omega

theorem precedes_irrefl (a : Pos) : ¬ Precedes a a := by
  simp only [Precedes, Int32.lt_iff_toInt_lt]
  omega

theorem precedes_trichotomy (a b : Pos) : Precedes a b ∨ a = b ∨ Precedes b a := by
  simp only [Precedes, Pos.ext_iff, Int32.lt_iff_toInt_lt, ← Int32.toInt_inj]
  omega

/-- A word as a binary32 number, rounded if it is large. -/
def wordToFloat (v : Int32) : Float32 :=
  if v < 0 then -(-v).toUInt32.toFloat32 else v.toUInt32.toFloat32

/-- The largest word that is not above the number. A number outside the words is clamped to them, and
what is no number gives zero. -/
def floorToWord (v : Float32) : Int32 :=
  if v < 0 then
    -- Dropping the fraction of `-v` rounds `v` up.
    let n := (-v).toUInt32
    if 0x80000000 ≤ n then Int32.minValue
    else if n.toFloat32 < -v then -n.toInt32 - 1
    else -n.toInt32
  else
    let n := v.toUInt32
    if 0x80000000 ≤ n then Int32.maxValue else n.toInt32

/-- A vector of binary32 numbers, floored; numbers outside the words are clamped to them. -/
def ofFloats (x y z : Float32) : Pos := ⟨floorToWord x, floorToWord y, floorToWord z⟩

end Pos

end VoxelGrammar
