import VoxelGrammar.BlockMap.Basic

/-!
The binary form of a block map: a mark, a version, the number of subchunks, and for each of them
its origin, its kind and its blocks. Numbers are little-endian. A subchunk of kind 0 has the
number of its writes and then each with its cell and block; one of kind 1 has 4096 blocks.
-/

namespace VoxelGrammar

abbrev Bytes := List UInt8

/-- Why bytes are no block map. -/
inductive DecodeError
  | badMagic
  | unsupportedVersion (version : UInt32)
  | truncated
  | decompression
deriving DecidableEq

def DecodeError.message : DecodeError → String
  | badMagic => "not a structure output buffer"
  | unsupportedVersion version => s!"unsupported output version {version.toNat}"
  | truncated => "structure output truncated"
  | decompression => "decompression failed"

namespace Bytes

def ofUInt16 (v : UInt16) : Bytes := [v.toUInt8, (v >>> 8).toUInt8]

def ofUInt32 (v : UInt32) : Bytes :=
  [v.toUInt8, (v >>> 8).toUInt8, (v >>> 16).toUInt8, (v >>> 24).toUInt8]

def ofPos (p : Pos) : Bytes :=
  ofUInt32 p.x.toUInt32 ++ ofUInt32 p.y.toUInt32 ++ ofUInt32 p.z.toUInt32

def toUInt16 (a b : UInt8) : UInt16 := a.toUInt16 ||| b.toUInt16 <<< 8

def toUInt32 (a b c d : UInt8) : UInt32 :=
  a.toUInt32 ||| b.toUInt32 <<< 8 ||| c.toUInt32 <<< 16 ||| d.toUInt32 <<< 24

end Bytes

namespace BlockMap

def magic : Bytes := [0x53, 0x54, 0x52, 0x4f]

def version : UInt32 := 1

def sparseKind : UInt8 := 0

def flatKind : UInt8 := 1

def encodeCells : Cells → Bytes
  | .sparse writes =>
    sparseKind :: Bytes.ofUInt32 writes.size.toUInt32 ++
      writes.toList.flatMap fun w => Bytes.ofUInt16 w.1 ++ Bytes.ofUInt16 w.2
  | .flat blocks => flatKind :: blocks.toList.flatMap Bytes.ofUInt16

def encodeEntry (e : Pos × Cells) : Bytes := Bytes.ofPos e.1 ++ encodeCells e.2

def encode (m : BlockMap) : Bytes :=
  magic ++ Bytes.ofUInt32 version ++ Bytes.ofUInt32 m.size.toUInt32 ++
    m.entries.flatMap encodeEntry

/-- Reading from the front of what is left. -/
abbrev Reader := StateT Bytes (Except DecodeError)

/-- The next `n` bytes. -/
def take (n : Nat) : Reader Bytes := fun bytes =>
  let front := bytes.take n
  if front.length = n then .ok (front, bytes.drop n) else .error .truncated

def readByte : Reader UInt8
  | b :: rest => .ok (b, rest)
  | [] => .error .truncated

def readUInt32 : Reader UInt32
  | a :: b :: c :: d :: rest => .ok (Bytes.toUInt32 a b c d, rest)
  | _ => .error .truncated

def readPos : Reader Pos := do
  let x ← readUInt32
  let y ← readUInt32
  let z ← readUInt32
  return ⟨x.toInt32, y.toInt32, z.toInt32⟩

def words : Bytes → List UInt16
  | a :: b :: rest => Bytes.toUInt16 a b :: words rest
  | _ => []

def pairs : List α → List (α × α)
  | a :: b :: rest => (a, b) :: pairs rest
  | _ => []

/-- The cells of a subchunk; a kind that is neither of the two reads as an end too soon. -/
def readCells : Reader Cells := do
  let kind ← readByte
  if kind = sparseKind then
    let count ← readUInt32
    return .sparse (pairs (words (← take (4 * count.toNat)))).toArray
  else if kind = flatKind then
    let blocks := (words (← take 8192)).toArray
    if h : blocks.size = 4096 then return .flat ⟨blocks, h⟩ else throw .truncated
  else throw .truncated

/-- Reads `n` subchunks into a map; of several with one origin the last one counts. -/
def readEntries : (n : Nat) → BlockMap → Reader BlockMap
  | 0, m => return m
  | n + 1, m => do
    let origin ← readPos
    let cells ← readCells
    let m : BlockMap ← m.update origin fun _ => (.ok cells : Except DecodeError Cells)
    readEntries n m

def readMap : Reader BlockMap := do
  if (← take 4) ≠ magic then throw .badMagic
  let v ← readUInt32
  if v ≠ version then throw (.unsupportedVersion v)
  readEntries (← readUInt32).toNat empty

/-- The map that bytes begin with; what follows it is not looked at. -/
def decode (bytes : Bytes) : Except DecodeError BlockMap := (·.1) <$> readMap bytes

end BlockMap

end VoxelGrammar
