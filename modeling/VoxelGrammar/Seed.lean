import VoxelGrammar.Geometry.Pos

/-!
The hash chain that every random decision is drawn from. A seed is a 32-bit word; mixing, hashing
and hashing a position are functions of words alone, so equal inputs give equal structures.
-/

namespace VoxelGrammar

abbrev Seed := UInt32

namespace Seed

/-- What is added to a seed before it is mixed. -/
def increment : UInt32 := 0x9e3779b9

/-- Adding to a word its own high bits, shifted down. -/
def xorShift (k : UInt32) (x : UInt32) : UInt32 := x ^^^ (x >>> k)

/-- Every bit of `x` reaches every bit of the result. -/
def scramble (x : UInt32) : UInt32 :=
  xorShift 16 (xorShift 13 (xorShift 16 x * 0x85ebca6b) * 0xc2b2ae35)

/-- The next seed of a running chain. -/
def rehash (seed : Seed) : Seed := scramble (seed + increment)

/-- The hash of a word against a seed. -/
def hash (value : UInt32) (seed : Seed) : Seed := scramble (value ^^^ rehash seed)

/-- The hash of a position against a seed, one component after the other. -/
def hashPos (p : Pos) (seed : Seed) : Seed :=
  hash p.z.toUInt32 (hash p.y.toUInt32 (hash p.x.toUInt32 seed))

/-- A number of `[0, 1)` from the high 24 bits of a hash. -/
def unit (h : UInt32) : Float32 := (h >>> 8).toFloat32 / (16777216 : UInt32).toFloat32

/-- The element that trades places with element `i` of `n`. It lies at `i` or after it. -/
def partner (seed : Seed) (n i : Nat) : Nat := i + (hash i.toUInt32 seed).toNat % (n - i)

theorem partner_lt {seed : Seed} {n i : Nat} (h : i < n) : partner seed n i < n := by
  have := Nat.mod_lt (hash i.toUInt32 seed).toNat (Nat.sub_pos_of_lt h)
  unfold partner
  omega

/-- The last `k` exchanges of a shuffle. -/
def exchange (seed : Seed) {n : Nat} (xs : Vector α n) : (k : Nat) → k ≤ n → Vector α n
  | 0, _ => xs
  | k + 1, h =>
    have hi : n - (k + 1) < n := by omega
    exchange seed (xs.swap (n - (k + 1)) (partner seed n (n - (k + 1))) hi (partner_lt hi)) k
      (by omega)

/-- A shuffle: from the first element on, each trades places with its partner. -/
def shuffle (seed : Seed) (xs : List α) : List α :=
  (exchange seed xs.toArray.toVector xs.toArray.size (Nat.le_refl _)).toList

end Seed

end VoxelGrammar
