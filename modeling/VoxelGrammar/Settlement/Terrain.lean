import VoxelGrammar.Provider

/-!
Rolling terrain, the sum of two waves.
-/

namespace VoxelGrammar.Settlement

/-- The external field that holds the height of the ground. -/
def terrainHeight : Nat := 0

structure Terrain where
  /-- The mean height. -/
  base : Float32

def Terrain.standard : Terrain := ⟨64⟩

namespace Terrain

/-- The height of the ground in a column. -/
def height (t : Terrain) (x z : Int32) : Float32 :=
  t.base + 6 * (x.toFloat32 / 23).sin + 4 * (z.toFloat32 / 17).cos

def provider (t : Terrain) : Provider where
  dimensionality id := some (if id = terrainHeight then .varying else .constant)
  sample id p := some (.float (if id = terrainHeight then t.height p.x p.z else 0))

end Terrain

end VoxelGrammar.Settlement
