import VoxelGrammar.Grammar.Basic
import VoxelGrammar.Grammar.Error

/-!
A grammar in the making. Rules and components can be referred to before they are declared; the
first mistake is kept and only shows when the grammar is compiled, so no statement of a draft
fails. An identifier that the draft has not handed out is a fault.
-/

namespace VoxelGrammar

/-- A rule or component together with whether it has been declared or only referred to. -/
structure Draft.Entry (α : Type) where
  value : α
  declared : Bool

structure Draft where
  rules : Array (Draft.Entry Rule)
  expansions : Array Expansion
  components : Array (Draft.Entry Component)
  fields : Array Field
  error : Option GrammarError

/-- Statements that extend a draft. -/
abbrev Drafting := StateT Draft (Except Fault)

namespace Draft

def empty : Draft := ⟨#[], #[], #[], #[], none⟩

/-- Changes one entry of a table. -/
def amend (table : Array α) (id : Nat) (f : α → α) : Except Fault (Array α) :=
  if id < table.size then .ok (table.modify id f) else .error .unknownId

def amendRule (id : RuleId) (f : Entry Rule → Entry Rule) : Drafting Unit := do
  let d ← get
  set { d with rules := ← amend d.rules id f }

def amendComponent (id : ComponentId) (f : Component → Component) : Drafting Unit := do
  let d ← get
  set { d with components := ← amend d.components id (fun e => { e with value := f e.value }) }

def amendSymbol (f : Symbol → Symbol) : SymbolRef → Drafting Unit
  | .rule id =>
    amendRule id (fun e => { e with value := { e.value with symbol := f e.value.symbol } })
  | .expansion id => do
    let d ← get
    set { d with expansions := ← amend d.expansions id (fun e => { e with symbol := f e.symbol }) }
  | .component id => amendComponent id (fun c => { c with symbol := f c.symbol })

def getRule (id : RuleId) : Drafting Rule := do
  return (← Fault.lookup (← get).rules id).value

def getComponent (id : ComponentId) : Drafting Component := do
  return (← Fault.lookup (← get).components id).value

def getSymbol : SymbolRef → Drafting Symbol
  | .rule id => return (← getRule id).symbol
  | .expansion id => return (← Fault.lookup (← get).expansions id).symbol
  | .component id => return (← getComponent id).symbol

/-- Keeps a mistake, unless there was one before. -/
def complain (e : GrammarError) : Drafting Unit :=
  modify fun d => { d with error := d.error.or (some e) }

def typeOf (id : FieldId) : Drafting ValueType := do
  return (← Fault.lookup (← get).fields id).type

/-- The field must have the expected type where it is used. -/
def expect (place : FieldUse) (expected : ValueType) (id : FieldId) : Drafting Unit := do
  let found ← typeOf id
  if found ≠ expected then complain (.typeMismatch place expected found)

/-! Symbols. -/

/-- The rule of that name, to be declared later if it has not been yet. -/
def ruleRef (name : String) : Drafting RuleId := do
  let d ← get
  match d.rules.findIdx? (fun e => e.value.symbol.name == name) with
  | some id => return id
  | none =>
    set { d with rules := d.rules.push ⟨⟨.named name, [], []⟩, false⟩ }
    return d.rules.size

def rule (name : String) : Drafting RuleId := do
  let id ← ruleRef name
  amendRule id (fun e => { e with declared := true })
  return id

/-- The component of that name, to be declared later if it has not been yet. -/
def componentRef (name : String) : Drafting ComponentId := do
  let d ← get
  match d.components.findIdx? (fun e => e.value.symbol.name == name) with
  | some id => return id
  | none =>
    set { d with components := d.components.push ⟨⟨.named name, #[], [], []⟩, false⟩ }
    return d.components.size

def component (name : String) : Drafting ComponentId := do
  let id ← componentRef name
  let d ← get
  set { d with components := ← amend d.components id (fun e => { e with declared := true }) }
  return id

def condition (symbol : SymbolRef) (field : FieldId) : Drafting Unit := do
  expect (.condition (← getSymbol symbol).name) .bool field
  amendSymbol (fun s => { s with conditions := s.conditions ++ [field] }) symbol

def pragma (symbol : SymbolRef) (name : String) (value : PragmaValue) : Drafting Unit :=
  amendSymbol (fun s => { s with pragmas := s.pragmas.set name value }) symbol

/-- Appends a field to the table. -/
def field (type : ValueType) (kind : FieldKind) : Drafting FieldId := do
  let d ← get
  let inputs ← kind.inputs.mapM fun id => Fault.lookup d.fields id
  let contextual := kind.readsContext || inputs.any (·.contextual)
  set { d with fields := d.fields.push ⟨type, kind, contextual⟩ }
  return d.fields.size

/-- Declares a parameter of a symbol and returns the placeholder for its value. -/
def param (symbol : SymbolRef) (name : String) (type : ValueType) (default : Option FieldId) :
    Drafting FieldId := do
  if let some id := default then expect (.paramDefault name) type id
  let placeholder ← field type (.param name)
  amendSymbol (fun s => { s with params := s.params ++ [⟨name, type, default, placeholder⟩] })
    symbol
  return placeholder

/-- Hands a value on under the name of a parameter. -/
def assign (symbol : SymbolRef) (name : String) (value : FieldId) : Drafting Unit := do
  let type ← typeOf value
  amendSymbol (fun s => { s with assignments := s.assignments ++ [⟨name, type, value⟩] }) symbol

/-! Expansions. Adding one declares the rule. -/

def expand (owner : RuleId) (target : Target) (reflected : Bool) : Drafting ExpansionId := do
  let r ← getRule owner
  let d ← get
  let id := d.expansions.size
  amendRule owner fun e =>
    ⟨{ e.value with expansions := e.value.expansions ++ [id] }, true⟩
  let name := s!"{r.symbol.name}#{r.expansions.length}"
  modify fun d =>
    { d with expansions := d.expansions.push ⟨.named name, owner, target, reflected⟩ }
  return id

def toNothing (owner : RuleId) : Drafting ExpansionId := expand owner .nothing false

def toRule (owner target : RuleId) : Drafting ExpansionId := expand owner (.rule target) false

def toComponent (owner : RuleId) (target : ComponentId) (node : Option String)
    (reflected : Bool) : Drafting ExpansionId :=
  expand owner (.component target node) reflected

/-! Contents of components. -/

def node (id : ComponentId) (name : String) (position : FieldId) (orientation : Orientation)
    (rule : Option RuleId) : Drafting Nat := do
  let c ← getComponent id
  expect (.nodePosition name) .float3 position
  unless orientation.isValid do complain (.invalidOrientation c.symbol.name name)
  amendComponent id fun c =>
    { c with nodes := c.nodes.push ⟨name, position, orientation, rule, .empty⟩ }
  return c.nodes.size

def nodePragma (id : ComponentId) (node : Nat) (name : String) (value : PragmaValue) :
    Drafting Unit := do
  let c ← getComponent id
  let nodes ← amend c.nodes node (fun n => { n with pragmas := n.pragmas.set name value })
  amendComponent id (fun c => { c with nodes := nodes })

def area (id : ComponentId) (name : String) (start stop : FieldId) (policy : OverlapPolicy)
    (virtualOnly : Bool) : Drafting Unit := do
  expect (.areaStart name) .float3 start
  expect (.areaEnd name) .float3 stop
  amendComponent id fun c =>
    { c with areas := c.areas ++ [⟨name, 0, start, stop, policy, virtualOnly⟩] }

def addFill (id : ComponentId) (fill : Fill) : Drafting Unit :=
  amendComponent id (fun c => { c with fills := c.fills ++ [fill] })

/-- Fills the box between two corners, the cell `start` without a second one. -/
def fillBox (id : ComponentId) (block start : FieldId) (stop : Option FieldId) :
    Drafting Unit := do
  expect .fillBlock .block block
  expect .fillStart .float3 start
  if let some stop := stop then expect .fillEnd .float3 stop
  addFill id ⟨block, some start, stop, [], false⟩

/-- Fills the listed positions, all moved by the offset if there is one. -/
def fillPositions (id : ComponentId) (block : FieldId) (positions : List Pos)
    (offset : Option FieldId) : Drafting Unit := do
  expect .fillBlock .block block
  if let some offset := offset then expect .fillOffset .float3 offset
  addFill id ⟨block, offset, none, positions, offset.isSome⟩

/-! Fields. -/

def constant (value : Sample) : Drafting FieldId := field value.type (.constant value)

def float (value : Float32) : Drafting FieldId := constant (.float value)

def boolean (value : Bool) : Drafting FieldId := constant (.bool value)

def float3 (value : Vec3) : Drafting FieldId := constant (.float3 value)

def position (p : Pos) : Drafting FieldId := float3 p.toVec3

def block (b : Block) : Drafting FieldId := constant (.block b)

def worldPosition : Drafting FieldId := field .float3 .worldPosition

def localPosition : Drafting FieldId := field .float3 .localPosition

def contextRandom (salt : UInt32) : Drafting FieldId := field .float (.contextRandom salt)

def blockRandom (salt : UInt32) : Drafting FieldId := field .float (.blockRandom salt)

def external (id : Nat) (type : ValueType) : Drafting FieldId := field type (.external id)

/-- Arithmetic on scalars and vectors; it gives a vector if an operand is one. -/
def arithmetic (op : Arithmetic) (lhs rhs : FieldId) : Drafting FieldId := do
  let a ← typeOf lhs
  let b ← typeOf rhs
  for type in [a, b] do
    unless type = .float ∨ type = .float3 do
      complain (.typeMismatch .arithmeticOperand .float type)
  field (if a = .float3 ∨ b = .float3 then .float3 else .float) (.arithmetic op lhs rhs)

/-- Compares two scalars or two blocks, as the left operand says. -/
def compare (op : Comparison) (lhs rhs : FieldId) : Drafting FieldId := do
  let expected := if (← typeOf lhs) = .block then .block else .float
  expect .comparisonOperand expected lhs
  expect .comparisonOperand expected rhs
  field .bool (.compare op lhs rhs)

def and (lhs rhs : FieldId) : Drafting FieldId := do
  expect .logicalOperand .bool lhs
  expect .logicalOperand .bool rhs
  field .bool (.and lhs rhs)

def or (lhs rhs : FieldId) : Drafting FieldId := do
  expect .logicalOperand .bool lhs
  expect .logicalOperand .bool rhs
  field .bool (.or lhs rhs)

def not (value : FieldId) : Drafting FieldId := do
  expect .logicalOperand .bool value
  field .bool (.not value)

def select (condition whenTrue whenFalse : FieldId) : Drafting FieldId := do
  expect .selectCondition .bool condition
  let type ← typeOf whenTrue
  expect .selectBranch type whenFalse
  field type (.select condition whenTrue whenFalse)

def vector (x y z : FieldId) : Drafting FieldId := do
  expect .vectorComponent .float x
  expect .vectorComponent .float y
  expect .vectorComponent .float z
  field .float3 (.vector x y z)

def axis (vector : FieldId) (axis : Axis) : Drafting FieldId := do
  expect .axisSource .float3 vector
  field .float (.axis vector axis)

end Draft

end VoxelGrammar
