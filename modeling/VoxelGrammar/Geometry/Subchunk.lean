import VoxelGrammar.Geometry.Pos

/-!
The grid of subchunks, cubes of 16 blocks a side. A position splits into the origin of its
subchunk and the index of its cell there, `x` in the low four bits, then `y`, then `z`.
-/

namespace VoxelGrammar

/-- Blocks along the edge of a subchunk. -/
def subchunkSize : Nat := 16

/-- Cells of a subchunk. -/
def subchunkVolume : Nat := 4096

namespace Pos

/-- The origin of the subchunk that holds a position. -/
def subchunk (p : Pos) : Pos := ⟨p.x &&& ~~~15, p.y &&& ~~~15, p.z &&& ~~~15⟩

/-- The index of the cell of a position inside its subchunk. -/
def cell (p : Pos) : UInt16 :=
  let low (v : Int32) : UInt16 := v.toUInt32.toUInt16 &&& 15
  low p.x ||| low p.y <<< 4 ||| low p.z <<< 8

/-- The offset of a cell from the origin of its subchunk. -/
def ofCell (index : Nat) : Pos :=
  ⟨Int32.ofNat (index % 16), Int32.ofNat (index / 16 % 16), Int32.ofNat (index / 256 % 16)⟩

end Pos

end VoxelGrammar
