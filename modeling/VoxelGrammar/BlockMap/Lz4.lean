import VoxelGrammar.BlockMap.Codec

/-!
The compressed form of a block map: the size of its bytes and then an LZ4 block. An LZ4 block is a
list of sequences, each some literal bytes and, but for the last one, a match, which repeats bytes
that were written before. Compression here writes everything as literals of a single sequence.
-/

namespace VoxelGrammar

namespace Lz4

/-- The bytes that continue a length of 15 or more. -/
def encodeRest (n : Nat) : Bytes := List.replicate (n / 255) 255 ++ [(n % 255).toUInt8]

/-- One sequence of literals. -/
def compress (bytes : Bytes) : Bytes :=
  let n := bytes.length
  if n < 15 then (n * 16).toUInt8 :: bytes else 0xf0 :: encodeRest (n - 15) ++ bytes

/-- Adds up the bytes that continue a length, up to the first one that is not 255. -/
def readRest : Bytes → Option (Nat × Bytes)
  | [] => none
  | b :: rest =>
    if b = 255 then (readRest rest).map fun (n, rest) => (n + 255, rest)
    else some (b.toNat, rest)

/-- A length whose first four bits are given. -/
def readLength (nibble : Nat) (bytes : Bytes) : Option (Nat × Bytes) :=
  if nibble = 15 then (readRest bytes).map fun (n, rest) => (n + 15, rest)
  else some (nibble, bytes)

/-- Repeats `n` bytes from `offset` bytes back, which may lie among the repeated ones. -/
def copy (offset : Nat) : (n : Nat) → Array UInt8 → Array UInt8
  | 0, out => out
  | n + 1, out => copy offset n (out.push (out.getD (out.size - offset) 0))

/-- Reads at most `fuel` sequences and writes at most `limit` bytes. -/
def readSequences (limit : Nat) : (fuel : Nat) → Bytes → Array UInt8 → Option (Array UInt8)
  | fuel + 1, token :: rest, out => do
    let (n, rest) ← readLength (token.toNat / 16) rest
    let literals := rest.take n
    guard (literals.length = n ∧ out.size + n ≤ limit)
    let out := out ++ literals
    match rest.drop n with
    | [] => return out
    | a :: b :: rest =>
      let offset := (Bytes.toUInt16 a b).toNat
      let (n, rest) ← readLength (token.toNat % 16) rest
      guard (0 < offset ∧ offset ≤ out.size ∧ out.size + (n + 4) ≤ limit)
      readSequences limit fuel rest (copy offset (n + 4) out)
    | [_] => none
  | _, _, _ => none

/-- The bytes of a block, unless there are more than `limit`. Each sequence takes a byte at least,
so there are no more sequences than bytes. -/
def decompress? (limit : Nat) (bytes : Bytes) : Option Bytes :=
  (readSequences limit bytes.length bytes #[]).map (·.toList)

end Lz4

namespace BlockMap

def compress (m : BlockMap) : Bytes :=
  let bytes := m.encode
  Bytes.ofUInt32 bytes.length.toUInt32 ++ Lz4.compress bytes

def decompress : Bytes → Except DecodeError BlockMap
  | a :: b :: c :: d :: rest =>
    match Lz4.decompress? (Bytes.toUInt32 a b c d).toNat rest with
    | some bytes => decode bytes
    | none => .error .decompression
  | _ => .error .decompression

end BlockMap

end VoxelGrammar
