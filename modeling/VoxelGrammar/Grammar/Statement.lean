import VoxelGrammar.Grammar.Compile

/-!
The statements of a draft as data: everything that can be said about a grammar before it is
compiled. A statement answers with the identifier it has handed out, if it hands out one.
-/

namespace VoxelGrammar

inductive Statement
  | rule (name : String)
  | ruleRef (name : String)
  | component (name : String)
  | componentRef (name : String)
  | condition (symbol : SymbolRef) (field : FieldId)
  | pragma (symbol : SymbolRef) (name : String) (value : PragmaValue)
  | param (symbol : SymbolRef) (name : String) (type : ValueType) (default : Option FieldId)
  | assign (symbol : SymbolRef) (name : String) (value : FieldId)
  | toNothing (owner : RuleId)
  | toRule (owner target : RuleId)
  | toComponent (owner : RuleId) (target : ComponentId) (node : Option String) (reflected : Bool)
  | node (component : ComponentId) (name : String) (position : FieldId)
    (orientation : Orientation) (rule : Option RuleId)
  | nodePragma (component : ComponentId) (node : Nat) (name : String) (value : PragmaValue)
  | area (component : ComponentId) (name : String) (start stop : FieldId)
    (policy : OverlapPolicy) (virtualOnly : Bool)
  | fillBox (component : ComponentId) (block start : FieldId) (stop : Option FieldId)
  | fillPositions (component : ComponentId) (block : FieldId) (positions : List Pos)
    (offset : Option FieldId)
  | constant (value : Sample)
  | worldPosition
  | localPosition
  | contextRandom (salt : UInt32)
  | blockRandom (salt : UInt32)
  | external (id : Nat) (type : ValueType)
  | arithmetic (op : Arithmetic) (lhs rhs : FieldId)
  | compare (op : Comparison) (lhs rhs : FieldId)
  | and (lhs rhs : FieldId)
  | or (lhs rhs : FieldId)
  | not (value : FieldId)
  | select (condition whenTrue whenFalse : FieldId)
  | vector (x y z : FieldId)
  | axis (vector : FieldId) (axis : Axis)

namespace Statement

/-- A statement that hands out nothing. -/
def silent (x : Drafting Unit) : Drafting (Option Nat) := do
  x
  return none

/-- What a statement does to a draft. -/
def run : Statement → Drafting (Option Nat)
  | rule name => some <$> Draft.rule name
  | ruleRef name => some <$> Draft.ruleRef name
  | component name => some <$> Draft.component name
  | componentRef name => some <$> Draft.componentRef name
  | condition s f => silent <| Draft.condition s f
  | pragma s name v => silent <| Draft.pragma s name v
  | param s name t d => some <$> Draft.param s name t d
  | assign s name f => silent <| Draft.assign s name f
  | toNothing r => some <$> Draft.toNothing r
  | toRule r t => some <$> Draft.toRule r t
  | toComponent r c n m => some <$> Draft.toComponent r c n m
  | node c name p o r => some <$> Draft.node c name p o r
  | nodePragma c k name v => silent <| Draft.nodePragma c k name v
  | area c name a b p v => silent <| Draft.area c name a b p v
  | fillBox c b s e => silent <| Draft.fillBox c b s e
  | fillPositions c b ps o => silent <| Draft.fillPositions c b ps o
  | constant v => some <$> Draft.constant v
  | worldPosition => some <$> Draft.worldPosition
  | localPosition => some <$> Draft.localPosition
  | contextRandom salt => some <$> Draft.contextRandom salt
  | blockRandom salt => some <$> Draft.blockRandom salt
  | external id t => some <$> Draft.external id t
  | arithmetic op a b => some <$> Draft.arithmetic op a b
  | compare op a b => some <$> Draft.compare op a b
  | and a b => some <$> Draft.and a b
  | or a b => some <$> Draft.or a b
  | not a => some <$> Draft.not a
  | select c a b => some <$> Draft.select c a b
  | vector x y z => some <$> Draft.vector x y z
  | axis v a => some <$> Draft.axis v a

end Statement

end VoxelGrammar
