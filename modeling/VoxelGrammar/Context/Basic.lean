import VoxelGrammar.Grammar.Basic
import VoxelGrammar.Grammar.Error

/-!
Data contexts, one for each rule, expansion or component that a search has entered. A context has
a frame of reference, a seed and parameters. What comes in from the surroundings is bound to the
outputs of the parent, which are looked up there when they are needed; what goes out is what came
in, overridden by the assignments of the symbol.
-/

namespace VoxelGrammar

/-- A reference to a context. It goes stale when the context is dropped, even if another context
takes the slot. -/
structure Handle where
  /-- A word: fewer than 2 ^ 32 contexts are live at any time. -/
  slot : Nat
  generation : UInt32
deriving DecidableEq

/-- A parameter is known by its name and its type. -/
structure ParamKey where
  name : String
  type : ValueType
deriving DecidableEq

def ParamKey.text (k : ParamKey) : String := s!"{k.name}#{k.type.name}"

def Parameter.key (p : Parameter) : ParamKey := ⟨p.name, p.type⟩

def Assignment.key (a : Assignment) : ParamKey := ⟨a.name, a.type⟩

/-- Where the value of a parameter comes from. -/
inductive Binding
  /-- A field, evaluated in the context that holds the binding. -/
  | own (field : FieldId)
  /-- The output of the same name and type of the parent. -/
  | bridge (parent : Handle)
deriving DecidableEq

structure Bindings where
  entries : List (ParamKey × Binding)

namespace Bindings

def empty : Bindings := ⟨[]⟩

def get? (b : Bindings) (k : ParamKey) : Option Binding := b.entries.lookup k

def set (b : Bindings) (k : ParamKey) (v : Binding) : Bindings :=
  ⟨(k, v) :: b.entries.filter (fun e => e.1 != k)⟩

def keys (b : Bindings) : List ParamKey := b.entries.map (·.1)

/-- The bindings after those of another list, the later ones in force. -/
def setAll (b : Bindings) (more : List (ParamKey × Binding)) : Bindings :=
  more.foldl (fun b e => b.set e.1 e.2) b

end Bindings

/-- What the fields of a grammar mean in one place of a structure. -/
structure Context where
  parent : Option Handle
  symbol : SymbolRef
  toWorld : Transform
  toLocal : Transform
  seed : Seed
  inputs : Bindings
  outputs : Bindings
  /-- The parameters that the placeholders declared here stand for. -/
  placeholders : List (FieldId × ParamKey)

namespace Context

/-- The world position of the local origin, where conditions are sampled. -/
def origin (c : Context) : Pos := c.toWorld.origin

def mapToWorld (c : Context) (p : Pos) : Pos := c.toWorld.apply p

/-- The parameter that a placeholder stands for, if it is declared here. -/
def placeholder? (c : Context) (id : FieldId) : Option ParamKey := c.placeholders.lookup id

/-- The defaults that the parameters of a symbol declare. -/
def defaults (s : Symbol) : List (ParamKey × Binding) :=
  s.params.filterMap fun p => p.default.map fun id => (p.key, .own id)

/-- The inputs of a context: the defaults of its symbol, overridden by what the parent hands on. -/
def inputsOf (s : Symbol) (parent : Option (Handle × Context)) : Bindings :=
  let own := Bindings.empty.setAll (defaults s)
  match parent with
  | none => own
  | some (h, c) => own.setAll (c.outputs.keys.map fun k => (k, .bridge h))

/-- The first parameter of a symbol that no input binds. -/
def missing? (s : Symbol) (inputs : Bindings) : Option Parameter :=
  s.params.find? fun p => (inputs.get? p.key).isNone

/-- The context of a symbol below a parent, or at the root with the seed of the run. -/
def enter (parent : Option (Handle × Context)) (ref : SymbolRef) (s : Symbol)
    (placement : Transform) (runSeed : Seed) : Except GrammarError Context :=
  let toWorld := match parent with
    | none => placement
    | some (_, c) => c.toWorld * placement
  let seed := match parent with
    | none => runSeed
    | some (_, c) => Seed.hashPos toWorld.origin c.seed
  let inputs := inputsOf s parent
  match missing? s inputs with
  | some p => .error (.missingParamValue p.name)
  | none => .ok
      { parent := parent.map (·.1), symbol := ref, toWorld, toLocal := toWorld.inverse, seed,
        inputs, outputs := inputs,
        placeholders := (s.params.map fun p => (p.placeholder, p.key)).reverse }

/-- Hands the assignments of a symbol on. Its own placeholders do not see them. -/
def assign (c : Context) (s : Symbol) : Context :=
  { c with outputs := c.outputs.setAll (s.assignments.map fun a => (a.key, .own a.value)) }

end Context

end VoxelGrammar
