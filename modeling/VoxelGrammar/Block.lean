/-!
Numeric block identifiers. What block an identifier names is the caller's business; only two are
reserved, air and the one that marks a cell that must not be written.
-/

namespace VoxelGrammar

abbrev Block := UInt16

namespace Block

def air : Block := 0

/-- The block of a cell that nothing was written to. -/
def undefined : Block := 1

def isUndefined (b : Block) : Bool := b == undefined

end Block

end VoxelGrammar
