import VoxelGrammar.Fault
import VoxelGrammar.Geometry.Transform
import VoxelGrammar.Grammar.Field
import VoxelGrammar.Grammar.Pragma
import VoxelGrammar.Grammar.Tier

/-!
The grammar that a search expands. A rule is expanded into nothing, into another rule or into a
component; components carry attachment nodes, which name further rules, areas that constrain each
other, and block fills. Every entry is known by its place in its table.
-/

namespace VoxelGrammar

abbrev RuleId := Nat

abbrev ComponentId := Nat

/-- A symbol that owns data contexts. -/
inductive SymbolRef
  | rule (id : RuleId)
  | expansion (id : ExpansionId)
  | component (id : ComponentId)
deriving DecidableEq

/-- A parameter that a symbol takes from its surroundings. -/
structure Parameter where
  name : String
  type : ValueType
  /-- The field it is bound to where the surroundings say nothing. -/
  default : Option FieldId
  /-- The field that stands for its value. -/
  placeholder : FieldId

/-- A value that a symbol hands on to the contexts below its own. -/
structure Assignment where
  name : String
  type : ValueType
  value : FieldId

/-- What rules, expansions and components have in common. -/
structure Symbol where
  name : String
  /-- Truth fields, all of which must hold at the origin of the context. -/
  conditions : List FieldId
  params : List Parameter
  assignments : List Assignment
  pragmas : Pragmas

/-- A symbol that declares nothing. -/
def Symbol.named (name : String) : Symbol := ⟨name, [], [], [], .empty⟩

/-- The first parameter of that name. -/
def Symbol.param? (s : Symbol) (name : String) : Option Parameter :=
  s.params.find? (fun p => p.name == name)

/-- What an expansion turns a rule into. -/
inductive Target
  | nothing
  | rule (id : RuleId)
  /-- A component, attached by one of its nodes of the given name, by any of them without one. -/
  | component (id : ComponentId) (node : Option String)
deriving DecidableEq

structure Expansion where
  symbol : Symbol
  owner : RuleId
  target : Target
  reflected : Bool

namespace Expansion

/-- The priority, by default one; by default giving up comes last. -/
def priority (e : Expansion) : Binary32 :=
  (e.symbol.pragmas.number? Pragma.priority.name).getD
    (.ofFloat (if e.target = .nothing then 9999 else 1))

def defaultRatio : Binary32 := .ofFloat 100

def ratio (e : Expansion) : Binary32 :=
  (e.symbol.pragmas.number? Pragma.probabilityRatio.name).getD defaultRatio

end Expansion

structure Rule where
  symbol : Symbol
  /-- In the order of declaration. -/
  expansions : List ExpansionId
  tiers : List Tier

namespace Rule

def defaultDepthFirst : Binary32 := .ofFloat 0.5

def depthFirst (r : Rule) : Binary32 :=
  (r.symbol.pragmas.number? Pragma.depthFirstProbability.name).getD defaultDepthFirst

/-- The candidates in the order in which one entry of the rule tries them. -/
def candidates (r : Rule) (seed : Seed) : List Candidate := Tier.order seed r.tiers

end Rule

/-- A point at which components attach to each other. -/
structure Node where
  name : String
  position : FieldId
  orientation : Orientation
  /-- The rule that is expanded here once the component stands. -/
  rule : Option RuleId
  pragmas : Pragmas

namespace Node

/-- The flag pragmas of a node and what each is without being set. -/
def flagDefaults : List (Pragma × Bool) :=
  [(.allowRotation, true), (.adjacent, false), (.horizontalEdge, false), (.verticalEdge, false)]

def flag (n : Node) (p : Pragma) (default : Bool) : Bool :=
  (n.pragmas.flag? p.name).getD default

def allowRotation (n : Node) : Bool := n.flag .allowRotation true

def joint (n : Node) (reflected : Bool) : Joint :=
  ⟨n.flag .horizontalEdge false, n.flag .verticalEdge false, n.flag .adjacent false, reflected⟩

end Node

/-- How an area gets on with the earlier areas of its name. -/
inductive OverlapPolicy
  | may | mustNot | must
deriving DecidableEq

/-- A named box of a component, given by two corners. -/
structure AreaSpec where
  name : String
  /-- The number of the name among the area names of the grammar. -/
  nameId : Nat
  start : FieldId
  stop : FieldId
  policy : OverlapPolicy
  /-- Checked, but never recorded. -/
  virtualOnly : Bool

/-- A block fill. Without positions it fills the box between `start` and `stop`, or the cell
`start`; with positions it fills these, moved by `start` if they are `shifted`. -/
structure Fill where
  block : FieldId
  start : Option FieldId
  stop : Option FieldId
  positions : List Pos
  shifted : Bool

structure Component where
  symbol : Symbol
  nodes : Array Node
  areas : List AreaSpec
  fills : List Fill

/-- The numbers of the nodes of that name, of all nodes without one. -/
def Component.nodesNamed (c : Component) (name : Option String) : List Nat :=
  (c.nodes.toList.zipIdx.filter fun n => name.all (n.1.name == ·)).map (·.2)

structure Grammar where
  rules : Array Rule
  expansions : Array Expansion
  components : Array Component
  fields : Array Field
  areaNames : List String

namespace Grammar

def rule (g : Grammar) (id : RuleId) : Except Fault Rule := Fault.lookup g.rules id

def expansion (g : Grammar) (id : ExpansionId) : Except Fault Expansion :=
  Fault.lookup g.expansions id

def component (g : Grammar) (id : ComponentId) : Except Fault Component :=
  Fault.lookup g.components id

def field (g : Grammar) (id : FieldId) : Except Fault Field := Fault.lookup g.fields id

def symbol (g : Grammar) : SymbolRef → Except Fault Symbol
  | .rule id => return (← g.rule id).symbol
  | .expansion id => return (← g.expansion id).symbol
  | .component id => return (← g.component id).symbol

def findRule (g : Grammar) (name : String) : Option RuleId :=
  g.rules.findIdx? (fun r => r.symbol.name == name)

def findComponent (g : Grammar) (name : String) : Option ComponentId :=
  g.components.findIdx? (fun c => c.symbol.name == name)

def areaName (g : Grammar) (id : Nat) : Option String := g.areaNames[id]?

end Grammar

end VoxelGrammar
