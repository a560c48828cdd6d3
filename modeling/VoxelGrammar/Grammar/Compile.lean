import VoxelGrammar.Grammar.Draft

/-!
Compiling a draft. A draft is refused for its first mistake; one without any gets the defaults of
its pragmas, its area names numbered and the expansions of its rules grouped into tiers.
-/

namespace VoxelGrammar.Draft

def undefinedRule? (d : Draft) : Option GrammarError :=
  (d.rules.find? (fun e => !e.declared)).map fun e => .undefinedRule e.value.symbol.name

def undefinedComponent? (d : Draft) : Option GrammarError :=
  (d.components.find? (fun e => !e.declared)).map fun e => .undefinedComponent e.value.symbol.name

/-- A symbol that assigns a parameter of its own must keep to the declared type. -/
def assignmentError? (s : Symbol) : Option GrammarError :=
  s.assignments.findSome? fun a =>
    match s.param? a.name with
    | some p =>
      if p.type = a.type then none
      else some (.typeMismatch (.assignment a.name s.name) p.type a.type)
    | none => none

/-- All symbols: rules, then expansions, then components. -/
def symbols (d : Draft) : List Symbol :=
  d.rules.toList.map (·.value.symbol) ++ d.expansions.toList.map (·.symbol) ++
    d.components.toList.map (·.value.symbol)

def rulePragmaError? (s : Symbol) : Option GrammarError :=
  let name := Pragma.depthFirstProbability.name
  if s.pragmas.isNonNumber name then some (.invalidPragma s.name name) else none

def expansionPragmaError? (s : Symbol) : Option GrammarError :=
  [Pragma.priority, .probabilityRatio].findSome? fun p =>
    if s.pragmas.isNonNumber p.name then some (.invalidPragma s.name p.name) else none

def nodePragmaError? (n : Node) : Option GrammarError :=
  Node.flagDefaults.findSome? fun (p, _) =>
    if n.pragmas.isNonFlag p.name then some (.invalidPragma n.name p.name) else none

/-- The first mistake: of a statement, then of the draft as a whole. -/
def error? (d : Draft) : Option GrammarError :=
  d.error
    <|> d.undefinedRule?
    <|> d.undefinedComponent?
    <|> d.symbols.findSome? assignmentError?
    <|> d.rules.toList.findSome? (fun e => rulePragmaError? e.value.symbol)
    <|> d.expansions.toList.findSome? (fun e => expansionPragmaError? e.symbol)
    <|> d.components.toList.findSome? fun e => e.value.nodes.toList.findSome? nodePragmaError?

def completeExpansion (e : Expansion) : Expansion :=
  let pragmas := e.symbol.pragmas.setDefault Pragma.priority.name (.number e.priority)
  { e with symbol := { e.symbol with
      pragmas := pragmas.setDefault Pragma.probabilityRatio.name
        (.number Expansion.defaultRatio) } }

def completeNode (n : Node) : Node :=
  let complete pragmas := Node.flagDefaults.foldl
    (fun (pragmas : Pragmas) (p, default) => pragmas.setDefault p.name (.flag default)) pragmas
  { n with pragmas := complete n.pragmas }

/-- The names of the areas, each once, in the order of their first use. -/
def areaNames (d : Draft) : List String :=
  (d.components.toList.flatMap fun e => e.value.areas.map (·.name)).foldl
    (fun names name => if names.contains name then names else names ++ [name]) []

def completeComponent (names : List String) (c : Component) : Component :=
  { c with
    nodes := c.nodes.map completeNode
    areas := c.areas.map fun a => { a with nameId := names.idxOf a.name } }

/-- The expansions of a rule as candidates with their priorities. -/
def candidatesOf (expansions : Array Expansion) (r : Rule) : List (Binary32 × Candidate) :=
  r.expansions.filterMap fun id =>
    expansions[id]?.map fun e => (e.priority, ⟨id, e.ratio.value, e.reflected⟩)

def completeRule (expansions : Array Expansion) (r : Rule) : Rule :=
  { r with
    symbol := { r.symbol with
      pragmas := r.symbol.pragmas.setDefault Pragma.depthFirstProbability.name
        (.number Rule.defaultDepthFirst) }
    tiers := Tier.group (candidatesOf expansions r) }

def compile (d : Draft) : Grammar :=
  let expansions := d.expansions.map completeExpansion
  let names := d.areaNames
  { rules := d.rules.map fun e => completeRule expansions e.value
    expansions
    components := d.components.map fun e => completeComponent names e.value
    fields := d.fields
    areaNames := names }

def build (d : Draft) : Except GrammarError Grammar :=
  match d.error? with
  | some e => .error e
  | none => .ok d.compile

end VoxelGrammar.Draft

namespace VoxelGrammar

/-- The grammar that a list of statements describes. -/
def Drafting.grammar (statements : Drafting α) : Except Fault (Except GrammarError Grammar) :=
  (statements.run .empty).map fun (_, d) => d.build

end VoxelGrammar
