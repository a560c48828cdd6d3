import VoxelGrammar.Block
import VoxelGrammar.Geometry.Pos

/-!
Sampled values and the operators on them. A sample can be read as any of the four types; the
readings other than its own are the coercions that a well-typed grammar never needs, the spread of
a scalar over a vector excepted. Numbers are binary32.
-/

namespace VoxelGrammar

inductive ValueType
  | float | bool | float3 | block
deriving DecidableEq, Hashable

def ValueType.name : ValueType → String
  | float => "float"
  | bool => "bool"
  | float3 => "float3"
  | block => "block"

structure Vec3 where
  x : Float32
  y : Float32
  z : Float32
deriving Inhabited

/-- The position as a vector; large components are rounded. -/
def Pos.toVec3 (p : Pos) : Vec3 := ⟨wordToFloat p.x, wordToFloat p.y, wordToFloat p.z⟩

def Pos.ofVec3 (v : Vec3) : Pos := .ofFloats v.x v.y v.z

inductive Sample
  | float (v : Float32)
  | bool (b : Bool)
  | float3 (v : Vec3)
  | block (b : Block)

namespace Sample

instance : Inhabited Sample := ⟨float 0⟩

def type : Sample → ValueType
  | float _ => .float
  | bool _ => .bool
  | float3 _ => .float3
  | block _ => .block

/-- A truth value reads as zero or one, a vector as its first component, a block as its number. -/
def asFloat : Sample → Float32
  | float v => v
  | bool b => if b then 1 else 0
  | float3 v => v.x
  | block b => b.toFloat32

/-- A scalar reads as true unless it is zero; vectors and blocks read as false. -/
def asBool : Sample → Bool
  | bool b => b
  | float v => v != 0
  | float3 _ => false
  | block _ => false

/-- Everything but a vector is spread over the three components. -/
def asVec3 : Sample → Vec3
  | float3 v => v
  | s => ⟨s.asFloat, s.asFloat, s.asFloat⟩

/-- Everything but a block reads as undefined. -/
def asBlock : Sample → Block
  | block b => b
  | _ => Block.undefined

/-- The sample as a block position. -/
def asPos (s : Sample) : Pos := .ofVec3 s.asVec3

end Sample

/-- Whether a field changes with position. -/
inductive Dimensionality
  | constant | varying
deriving DecidableEq

/-- A composite varies if one of its inputs does. -/
def Dimensionality.join : Dimensionality → Dimensionality → Dimensionality
  | constant, d => d
  | varying, _ => varying

inductive Arithmetic
  | add | sub | mul | div | min | max
deriving DecidableEq

namespace Arithmetic

/-- The smaller of two numbers; a number is preferred to one that is none. -/
def least (a b : Float32) : Float32 := if a.isNaN || b < a then b else a

/-- The larger of two numbers; a number is preferred to one that is none. -/
def greatest (a b : Float32) : Float32 := if a.isNaN || a < b then b else a

def apply : Arithmetic → Float32 → Float32 → Float32
  | add, a, b => a + b
  | sub, a, b => a - b
  | mul, a, b => a * b
  | div, a, b => a / b
  | min, a, b => least a b
  | max, a, b => greatest a b

/-- Scalars give a scalar; anything else is worked out componentwise as vectors. -/
def combine (op : Arithmetic) : Sample → Sample → Sample
  | .float a, .float b => .float (op.apply a b)
  | a, b =>
    let v := a.asVec3
    let w := b.asVec3
    .float3 ⟨op.apply v.x w.x, op.apply v.y w.y, op.apply v.z w.z⟩

end Arithmetic

inductive Comparison
  | lt | le | gt | ge | eq | ne
deriving DecidableEq

/-- Samples compare as scalars, blocks thereby by their numbers. -/
def Comparison.holds (op : Comparison) (s t : Sample) : Bool :=
  let a := s.asFloat
  let b := t.asFloat
  match op with
  | lt => a < b
  | le => a ≤ b
  | gt => b < a
  | ge => b ≤ a
  | eq => a == b
  | ne => a != b

inductive Axis
  | x | y | z
deriving DecidableEq

def Axis.index : Axis → Nat
  | x => 0
  | y => 1
  | z => 2

def Vec3.component (v : Vec3) : Axis → Float32
  | .x => v.x
  | .y => v.y
  | .z => v.z

end VoxelGrammar
