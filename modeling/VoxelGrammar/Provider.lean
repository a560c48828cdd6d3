import VoxelGrammar.Sample

/-!
Where the values of external fields come from. A provider is a function of the field and the
position; it may break down, and then has no answer.
-/

namespace VoxelGrammar

structure Provider where
  dimensionality : Nat → Option Dimensionality
  sample : Nat → Pos → Option Sample

/-- Every external field is constantly zero. -/
def Provider.none : Provider := ⟨fun _ => some .constant, fun _ _ => some (.float 0)⟩

end VoxelGrammar
