import VoxelGrammar.Sample

/-!
Fields, the typed value definitions that are sampled at block positions. A field is a leaf or a
composite of fields defined before it, and is known by its place in the grammar's table.
-/

namespace VoxelGrammar

abbrev FieldId := Nat

/-- How a field gets its value. -/
inductive FieldKind
  | constant (value : Sample)
  /-- The world position that is being sampled. -/
  | worldPosition
  /-- That position in the frame of the context. -/
  | localPosition
  /-- One random number for each context; the salt tells several such fields apart. -/
  | contextRandom (salt : UInt32)
  /-- One random number for each block of the world. -/
  | blockRandom (salt : UInt32)
  /-- The value bound to a parameter. -/
  | param (name : String)
  /-- A value that the field provider supplies. -/
  | external (id : Nat)
  | arithmetic (op : Arithmetic) (lhs rhs : FieldId)
  | compare (op : Comparison) (lhs rhs : FieldId)
  | and (lhs rhs : FieldId)
  | or (lhs rhs : FieldId)
  | not (value : FieldId)
  | select (condition whenTrue whenFalse : FieldId)
  | vector (x y z : FieldId)
  | axis (vector : FieldId) (axis : Axis)

namespace FieldKind

/-- The fields a composite is made of, in the order in which they are evaluated. -/
def inputs : FieldKind → List FieldId
  | arithmetic _ a b | compare _ a b | and a b | or a b => [a, b]
  | not a | axis a _ => [a]
  | select a b c | vector a b c => [a, b, c]
  | constant _ | worldPosition | localPosition | contextRandom _ | blockRandom _ | param _
  | external _ => []

/-- A leaf that reads the data context. -/
def readsContext : FieldKind → Bool
  | localPosition | contextRandom _ | param _ => true
  | _ => false

/-- The sample of a composite, given those of its inputs. -/
def combine : FieldKind → List Sample → Sample
  | arithmetic op _ _, [a, b] => op.combine a b
  | compare op _ _, [a, b] => .bool (op.holds a b)
  | and _ _, [a, b] => .bool (a.asBool && b.asBool)
  | or _ _, [a, b] => .bool (a.asBool || b.asBool)
  | not _, [a] => .bool !a.asBool
  | select _ _ _, [c, a, b] => if c.asBool then a else b
  | vector _ _ _, [x, y, z] => .float3 ⟨x.asFloat, y.asFloat, z.asFloat⟩
  | axis _ a, [v] => .float (v.asVec3.component a)
  | _, _ => default

end FieldKind

structure Field where
  type : ValueType
  kind : FieldKind
  /-- A leaf that reads the data context is among the leaves of this field. -/
  contextual : Bool

end VoxelGrammar
