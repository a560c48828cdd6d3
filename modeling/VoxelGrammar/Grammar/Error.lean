import VoxelGrammar.Sample

/-!
What can be wrong with a grammar, and with an evaluation of it.
-/

namespace VoxelGrammar

/-- A place where a field of one type is called for. -/
inductive FieldUse
  | condition (symbol : String)
  | paramDefault (name : String)
  | assignment (name symbol : String)
  | nodePosition (name : String)
  | areaStart (name : String)
  | areaEnd (name : String)
  | fillBlock
  | fillStart
  | fillEnd
  | fillOffset
  | arithmeticOperand
  | comparisonOperand
  | logicalOperand
  | selectCondition
  | selectBranch
  | vectorComponent
  | axisSource
deriving DecidableEq

def FieldUse.text : FieldUse → String
  | condition symbol => s!"condition of '{symbol}'"
  | paramDefault name => s!"default of param '{name}'"
  | assignment name symbol => s!"param set '{name}' of '{symbol}'"
  | nodePosition name => s!"position of node '{name}'"
  | areaStart name => s!"start of area '{name}'"
  | areaEnd name => s!"end of area '{name}'"
  | fillBlock => "block fill"
  | fillStart => "block fill start"
  | fillEnd => "block fill end"
  | fillOffset => "block fill offset"
  | arithmeticOperand => "arithmetic operand"
  | comparisonOperand => "comparison operand"
  | logicalOperand => "logical operand"
  | selectCondition => "select condition"
  | selectBranch => "select branch"
  | vectorComponent => "vector component"
  | axisSource => "axis source"

inductive GrammarError
  | typeMismatch (place : FieldUse) (expected found : ValueType)
  /-- A pragma with a meaning was set to a value of the wrong kind. -/
  | invalidPragma (symbol pragma : String)
  /-- A node faces along its own up axis. -/
  | invalidOrientation (component node : String)
  | undefinedRule (name : String)
  | undefinedComponent (name : String)
  /-- A declared parameter has no default and no value from above. -/
  | missingParamValue (name : String)
  /-- A placeholder was sampled where no context declares its parameter. -/
  | unboundParam (name : String)
deriving DecidableEq

def GrammarError.message : GrammarError → String
  | typeMismatch place expected found =>
    s!"type mismatch in {place.text}: expected {expected.name}, found {found.name}"
  | invalidPragma symbol pragma => s!"pragma '{pragma}' on '{symbol}' has the wrong kind"
  | invalidOrientation component node =>
    s!"node '{node}' of component '{component}' has a degenerate orientation"
  | undefinedRule name => s!"rule '{name}' is referenced but never defined"
  | undefinedComponent name => s!"component '{name}' is referenced but never defined"
  | missingParamValue name => s!"param value not defined for param '{name}'"
  | unboundParam name => s!"param '{name}' is not bound in this context"

end VoxelGrammar
