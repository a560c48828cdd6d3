import VoxelGrammar.Geometry.Pos

/-!
Axis-aligned boxes of cells, both corners included.
-/

namespace VoxelGrammar

structure Box where
  low : Pos
  high : Pos
deriving DecidableEq

namespace Box

instance : Inhabited Box := ⟨⟨.zero, .zero⟩⟩

/-- The smallest box that holds both corners. -/
def spanning (a b : Pos) : Box := ⟨a.inf b, a.sup b⟩

def Mem (b : Box) (p : Pos) : Prop := b.low.Below p ∧ p.Below b.high

instance : Membership Pos Box := ⟨Mem⟩

instance (b : Box) (p : Pos) : Decidable (p ∈ b) := inferInstanceAs (Decidable (_ ∧ _))

/-- Each box starts no later than the other ends, on every axis. -/
def overlaps (a b : Box) : Bool := a.low.Below b.high ∧ b.low.Below a.high

/-- The part of `a` that lies in `b`. -/
def clip (a b : Box) : Box := ⟨a.low.sup b.low, a.high.inf b.high⟩

/-- The number of cells of a box that is not empty. -/
def volume (b : Box) : Int64 := (b.high - b.low + Pos.splat 1).volume

/-- The words from `a` to `b`, every `stride`-th. -/
def span (a b : Int32) (stride : Nat) : List Int32 :=
  (List.range ((b.toInt - a.toInt + stride) / stride).toNat).map
    (fun i => a + Int32.ofNat (i * stride))

/-- The cells of the box on the grid of the given stride that starts at its low corner, in the
order of `z`, then `y`, then `x`. -/
def grid (b : Box) (stride : Nat) : List Pos :=
  (span b.low.z b.high.z stride).flatMap fun z =>
    (span b.low.y b.high.y stride).flatMap fun y =>
      (span b.low.x b.high.x stride).map fun x => ⟨x, y, z⟩

/-- The cells of the box. -/
def cells (b : Box) : List Pos := b.grid 1

end Box

end VoxelGrammar
