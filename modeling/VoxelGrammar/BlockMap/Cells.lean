import VoxelGrammar.Block
import VoxelGrammar.Fault
import VoxelGrammar.Geometry.Subchunk

/-!
The blocks written into one subchunk: a list of the writes in their order while there are few, and
one block for each cell once there would be more than a quarter of the subchunk.
-/

namespace VoxelGrammar

inductive Cells
  /-- The writes so far; of several to one cell the last one counts. -/
  | sparse (writes : Array (UInt16 × Block))
  | flat (blocks : Vector Block 4096)
deriving DecidableEq

namespace Cells

def empty : Cells := sparse #[]

instance : Inhabited Cells := ⟨empty⟩

/-- The most writes that are kept as a list. -/
def sparseLimit : Nat := subchunkVolume / 4

def isFlat : Cells → Bool
  | sparse _ => false
  | flat _ => true

/-- Writes one cell of a flat subchunk. -/
def setFlat (blocks : Vector Block 4096) (cell : UInt16) (b : Block) :
    Except Fault (Vector Block 4096) :=
  if h : cell.toNat < 4096 then .ok (blocks.set cell.toNat b h) else .error .cellOutOfRange

/-- Makes room for `volume` more writes: the list turns into an array if it would get too long. The
length that it would get is a 64-bit word. -/
def reserve (volume : Nat) : Cells → Except Fault Cells
  | flat blocks => .ok (flat blocks)
  | sparse writes => do
    if (writes.size + volume).toUInt64.toNat ≤ sparseLimit then return sparse writes
    let blank : Vector Block 4096 := .replicate 4096 Block.undefined
    return flat (← writes.foldlM (fun blocks w => setFlat blocks w.1 w.2) blank)

def write (cell : UInt16) (b : Block) : Cells → Except Fault Cells
  | flat blocks => return flat (← setFlat blocks cell b)
  | sparse writes => return sparse (writes.push (cell, b))

/-- Writes several cells, one after the other. -/
def writeAll (writes : List (UInt16 × Block)) (c : Cells) : Except Fault Cells :=
  writes.foldlM (fun c w => c.write w.1 w.2) c

/-- The block of a cell. -/
def block (cell : UInt16) : Cells → Except Fault Block
  | flat blocks =>
    match blocks[cell.toNat]? with
    | some b => .ok b
    | none => .error .cellOutOfRange
  | sparse writes =>
    .ok ((writes.toList.reverse.lookup cell).getD Block.undefined)

/-- What was written: every write of a list, the defined blocks of an array. -/
def written : Cells → List (UInt16 × Block)
  | sparse writes => writes.toList
  | flat blocks =>
    (blocks.toList.zipIdx.filter fun e => !Block.isUndefined e.1).map fun e =>
      (e.2.toUInt16, e.1)

/-- The bytes that the blocks are charged for. -/
def memory : Cells → Nat
  | sparse writes => 32 + 4 * writes.size
  | flat _ => 32 + 2 * subchunkVolume

end Cells

end VoxelGrammar
