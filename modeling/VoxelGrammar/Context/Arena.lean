import VoxelGrammar.Context.Basic

/-!
The contexts of a search, in the order in which they were created. Rolling a search back drops the
latest ones, and their slots are used again; every slot counts the contexts it has held, so that a
handle to an earlier one is told apart.
-/

namespace VoxelGrammar

/-- Why an evaluation came to nothing: the grammar does not say what to do, which a search takes
as a failed attempt, or a contract was broken. -/
inductive EvalError
  | grammar (e : GrammarError)
  | fault (f : Fault)
deriving DecidableEq

instance : MonadLift (Except Fault) (Except EvalError) := ⟨Except.mapError .fault⟩

instance : MonadLift (Except GrammarError) (Except EvalError) := ⟨Except.mapError .grammar⟩

structure Arena where
  contexts : Array Context
  generations : Array UInt32

namespace Arena

def empty : Arena := ⟨#[], #[]⟩

instance : Inhabited Arena := ⟨empty⟩

def size (a : Arena) : Nat := a.contexts.size

def isEmpty (a : Arena) : Bool := a.contexts.isEmpty

def isLive (a : Arena) (h : Handle) : Bool :=
  h.slot < a.contexts.size && a.generations[h.slot]? == some h.generation

def get? (a : Arena) (h : Handle) : Option Context :=
  if a.isLive h then a.contexts[h.slot]? else none

def get (a : Arena) (h : Handle) : Except Fault Context :=
  match a.get? h with
  | some c => .ok c
  | none => .error .staleContext

/-- Changes a live context. -/
def modify (a : Arena) (h : Handle) (f : Context → Context) : Arena :=
  if a.isLive h then { a with contexts := a.contexts.modify h.slot f } else a

/-- The generation of the context that is put into a slot next. -/
def nextGeneration (a : Arena) (slot : Nat) : UInt32 :=
  match a.generations[slot]? with
  | some g => g + 1
  | none => 0

/-- Puts a context into the next slot. -/
def push (a : Arena) (c : Context) : Handle × Arena :=
  let slot := a.contexts.size
  let generation := a.nextGeneration slot
  let generations :=
    if slot < a.generations.size then a.generations.setIfInBounds slot generation
    else a.generations.push generation
  (⟨slot, generation⟩, ⟨a.contexts.push c, generations⟩)

/-- The parent's context beside its handle. -/
def parentContext (a : Arena) : Option Handle → Except Fault (Option (Handle × Context))
  | none => .ok none
  | some h => return some (h, ← a.get h)

/-- The context that a symbol gets below a parent. -/
def prepare (a : Arena) (g : Grammar) (parent : Option Handle) (ref : SymbolRef)
    (placement : Transform) (runSeed : Seed) : Except EvalError Context := do
  let parent ← a.parentContext parent
  let s ← g.symbol ref
  Context.enter parent ref s placement runSeed

/-- Enters a symbol; a symbol that cannot be entered leaves no trace. -/
def create (a : Arena) (g : Grammar) (parent : Option Handle) (ref : SymbolRef)
    (placement : Transform) (runSeed : Seed) : Except EvalError (Handle × Arena) :=
  (a.prepare g parent ref placement runSeed).map a.push

/-- Hands the assignments of a symbol on to the contexts created below `h` later. -/
def assign (a : Arena) (h : Handle) (s : Symbol) : Arena := a.modify h fun c => c.assign s

/-- Drops all but the first `n` contexts. -/
def truncate (a : Arena) (n : Nat) : Arena := { a with contexts := a.contexts.take n }

def clear (a : Arena) : Arena := a.truncate 0

/-! Placeholders. -/

/-- The nearest context from `h` upward that declares a placeholder, and what it stands for. -/
def declaring (a : Arena) (name : String) (id : FieldId) :
    (steps : Nat) → Handle → Except EvalError (Handle × ParamKey)
  | 0, _ => .error (.fault .endlessEvaluation)
  | n + 1, h => do
    let c ← a.get h
    match c.placeholder? id, c.parent with
    | some key, _ => return (h, key)
    | none, some parent => declaring a name id n parent
    | none, none => .error (.grammar (.unboundParam name))

/-- The context and the field that a binding in `h` leads to. -/
def follow (a : Arena) (name : String) (key : ParamKey) :
    (steps : Nat) → Handle → Binding → Except EvalError (Handle × FieldId)
  | _, h, .own field => .ok (h, field)
  | 0, _, .bridge _ => .error (.fault .endlessEvaluation)
  | n + 1, _, .bridge parent => do
    let c ← a.get parent
    match c.outputs.get? key with
    | some binding => follow a name key n parent binding
    | none => .error (.grammar (.unboundParam name))

/-- The context and the field whose value a placeholder of that name has when it is read in `h`.
A parent lies in a lower slot, so neither walk has more steps than there are slots up to its
start. -/
def resolve (a : Arena) (name : String) (id : FieldId) (h : Handle) :
    Except EvalError (Handle × FieldId) := do
  let (owner, key) ← a.declaring name id (h.slot + 1) h
  let c ← a.get owner
  match c.inputs.get? key with
  | some binding => a.follow name key (owner.slot + 1) owner binding
  | none => .error (.grammar (.unboundParam name))

end Arena

end VoxelGrammar
