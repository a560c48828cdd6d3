import VoxelGrammar.Geometry.Subchunk
import VoxelGrammar.Grammar.Field

/-!
Records, the unit in which field values are remembered: the samples of one field at a point or
over a subchunk. A record with a single sample stands for that sample in every cell.
-/

namespace VoxelGrammar

/-- What a record extends over. -/
inductive Extent
  | point | subchunk
deriving DecidableEq, Hashable

/-- The number of cells of an extent. -/
def Extent.cells : Extent → Nat
  | point => 1
  | subchunk => subchunkVolume

/-- What a record holds the samples of. The origin of a subchunk record is that of the subchunk. -/
structure RecordKey where
  field : FieldId
  origin : Pos
  extent : Extent
deriving DecidableEq, Hashable

namespace RecordKey

/-- The one key of a field that does not vary. -/
def constant (field : FieldId) : RecordKey := ⟨field, .zero, .point⟩

/-- The key of a field over an extent: a field that does not vary has only the one. -/
def across (d : Dimensionality) (field : FieldId) (origin : Pos) (extent : Extent) : RecordKey :=
  match d with
  | .constant => constant field
  | .varying => ⟨field, origin, extent⟩

def point (field : FieldId) (p : Pos) : RecordKey := ⟨field, p, .point⟩

/-- The key of the subchunk that holds `p`. -/
def subchunk (field : FieldId) (p : Pos) : RecordKey := ⟨field, p.subchunk, .subchunk⟩

def cells (k : RecordKey) : Nat := k.extent.cells

/-- The world position of a cell. -/
def position (k : RecordKey) (cell : Nat) : Pos :=
  match k.extent with
  | .point => k.origin
  | .subchunk => k.origin + Pos.ofCell cell

end RecordKey

structure Record where
  samples : Array Sample

namespace Record

def uniform (s : Sample) : Record := ⟨#[s]⟩

instance : Inhabited Record := ⟨uniform default⟩

/-- The record with the sample `f i` in cell `i`. -/
def tabulate (cells : Nat) (f : Nat → Sample) : Record := ⟨Array.ofFn fun (i : Fin cells) => f i⟩

/-- The same, unless one of the samples cannot be had. -/
def tabulate? (cells : Nat) (f : Nat → Option Sample) : Option Record :=
  ((Array.range cells).mapM f).map Record.mk

def isUniform (r : Record) : Bool := r.samples.size == 1

def get? (r : Record) (cell : Nat) : Option Sample :=
  if r.isUniform then r.samples[0]? else r.samples[cell]?

/-- The record has a sample for each of the first `cells` cells. -/
def covers (r : Record) (cells : Nat) : Bool := r.isUniform || cells ≤ r.samples.size

/-- The sample of a cell that the record covers. -/
def get (r : Record) (cell : Nat) : Sample := (r.get? cell).getD default

/-- The bytes a record is charged for. -/
def memory (r : Record) : Nat := 16 + 16 * r.samples.size

/-- Combines records cell by cell. Uniform records give a uniform one. -/
def combine? (cells : Nat) (inputs : List Record) (f : List Sample → Sample) : Option Record :=
  let n := if inputs.all isUniform then 1 else cells
  if inputs.all (·.covers n) then some (tabulate n fun i => f (inputs.map (·.get i))) else none

end Record

end VoxelGrammar
