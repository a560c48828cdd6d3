import VoxelGrammar.Binary32

/-!
Named options of grammar symbols and attachment nodes, numeric or boolean. Each name is set at
most once; setting it again replaces its value.
-/

namespace VoxelGrammar

inductive PragmaValue
  | number (v : Binary32)
  | flag (b : Bool)
deriving DecidableEq

/-- The names that mean something to a search. -/
inductive Pragma
  /-- On a rule: the chance that a new entry of it is explored at once. -/
  | depthFirstProbability
  /-- On an expansion: its tier; lower tiers are tried first. -/
  | priority
  /-- On an expansion: its weight within the tier. -/
  | probabilityRatio
  /-- On a node: attach it in all four turns about its up axis. -/
  | allowRotation
  /-- On a node: the attached fragment starts one block out. -/
  | adjacent
  | horizontalEdge
  | verticalEdge
deriving DecidableEq

def Pragma.name : Pragma → String
  | depthFirstProbability => "depthFirstProbability"
  | priority => "priority"
  | probabilityRatio => "probabilityRatio"
  | allowRotation => "allowRotation"
  | adjacent => "adjacent"
  | horizontalEdge => "horizontalEdge"
  | verticalEdge => "verticalEdge"

structure Pragmas where
  entries : List (String × PragmaValue)

namespace Pragmas

def empty : Pragmas := ⟨[]⟩

instance : Inhabited Pragmas := ⟨empty⟩

def get? (p : Pragmas) (name : String) : Option PragmaValue := p.entries.lookup name

def set (p : Pragmas) (name : String) (value : PragmaValue) : Pragmas :=
  ⟨(name, value) :: p.entries.filter (fun entry => entry.1 != name)⟩

/-- Sets a name unless it is set already. -/
def setDefault (p : Pragmas) (name : String) (value : PragmaValue) : Pragmas :=
  if (p.get? name).isSome then p else p.set name value

/-- The number a name is set to, if it is one. -/
def number? (p : Pragmas) (name : String) : Option Binary32 :=
  match p.get? name with
  | some (.number v) => some v
  | _ => none

/-- The truth value a name is set to, if it is one. -/
def flag? (p : Pragmas) (name : String) : Option Bool :=
  match p.get? name with
  | some (.flag b) => some b
  | _ => none

/-- The name is set to something that is no number. -/
def isNonNumber (p : Pragmas) (name : String) : Bool := (p.flag? name).isSome

/-- The name is set to something that is no truth value. -/
def isNonFlag (p : Pragmas) (name : String) : Bool := (p.number? name).isSome

end Pragmas

end VoxelGrammar
