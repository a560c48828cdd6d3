import VoxelGrammar.Evaluate
import VoxelGrammar.Geometry.Box

/-!
The state of a search. The queue holds one entry for each rule that has been entered; entries in
front of the cursor are resolved and hold the attempt that comes next should their resolution be
taken back. A checkpoint remembers how much of everything there was, and the queue itself, so that
undoing a branch restores what it found.
-/

namespace VoxelGrammar

/-- A node of a component and the orientation to attach it in. -/
structure Attachment where
  node : Nat
  orientation : Orientation
deriving DecidableEq

/-- A rule that has been entered. -/
structure RuleEntry where
  orientation : Orientation
  context : Handle
deriving DecidableEq

/-- One way to resolve an entry, and those that are left after it. -/
structure Attempt where
  entry : RuleEntry
  candidate : Candidate
  /-- The context of the candidate's expansion. -/
  context : Handle
  attachment : Attachment
  /-- The further attachments of the same candidate. -/
  alternatives : List Attachment
  /-- The candidates after it. -/
  later : List Candidate

/-- A box in the world that constrains others of its name. -/
structure Area where
  name : Nat
  box : Box
deriving DecidableEq

/-- A component that has been accepted. -/
structure Placement where
  component : ComponentId
  /-- The node it is attached by. -/
  node : Nat
  context : Handle
  toWorld : Transform
deriving DecidableEq

/-- An entry with nothing left to try is `none`. -/
abbrev Queue := Array (Option Attempt)

structure Checkpoint where
  areas : Nat
  placements : Nat
  contexts : Nat
  cursor : Nat
  queue : Queue

/-- How far a search has come. -/
@[ext] structure Plan where
  areas : Array Area
  placements : Array Placement
  queue : Queue
  cursor : Nat
  /-- The latest one first. -/
  checkpoints : List Checkpoint
  /-- Attempts so far. -/
  expansions : Nat
  seed : Seed
  solved : Bool

def Plan.blank (seed : Seed) : Plan := ⟨#[], #[], #[], 0, [], 0, seed, false⟩

structure Search (μ : Type) where
  arena : Arena
  /-- What evaluations remember. -/
  memory : μ
  plan : Plan

/-- A computation of a search. A fault leaves the state as it was met. -/
abbrev SearchM (μ : Type) := ExceptT Fault (StateM (Search μ))

instance : MonadLift (Except Fault) (SearchM μ) := ⟨fun x => ExceptT.mk (pure x)⟩

namespace Search

/-- A search that nothing has been asked of yet. -/
def new (memory : μ) : Search μ := ⟨.empty, memory, .blank 0⟩

/-- Branches that are open, the outermost one aside. -/
def depth (s : Search μ) : Nat := s.plan.checkpoints.length - 1

/-- A short account of the state. -/
def describe (s : Search μ) : String :=
  let p := s.plan
  "StructureGenerator \x7b " ++ s!"seed: {p.seed.toNat}, queue_len: {p.queue.size}, " ++
    s!"cursor: {p.cursor}, checkpoints: {p.checkpoints.length}, " ++
    s!"components: {p.placements.size}, expansion_count: {p.expansions}, .. " ++ "\x7d"

def modifyPlan (f : Plan → Plan) : SearchM μ Unit := modify fun s => { s with plan := f s.plan }

/-- Evaluates; what the grammar leaves open is an answer here. -/
def evaluate (x : Arena → Eval μ α) : SearchM μ (Except GrammarError α) :=
  ExceptT.mk fun s =>
    let (result, memory) := (x s.arena).run s.memory
    let result := match result with
      | .ok a => .ok (.ok a)
      | .error (.grammar e) => .ok (.error e)
      | .error (.fault f) => .error f
    (result, { s with memory })

def context (h : Handle) : SearchM μ Context := do
  let s ← get
  s.arena.get h

/-- The number of live contexts. -/
def contextCount : SearchM μ Nat := return (← get).arena.size

/-- Enters a symbol below a context; what the grammar leaves open is an answer here, too. -/
def enter (w : World μ) (parent : Option Handle) (ref : SymbolRef) (placement : Transform) :
    SearchM μ (Except GrammarError Handle) := do
  let s ← get
  match s.arena.create w.grammar parent ref placement s.plan.seed with
  | .ok (h, arena) =>
    set { s with arena, memory := w.notebook.addPage s.memory }
    return .ok h
  | .error (.grammar e) => return .error e
  | .error (.fault f) => throw f

/-- Hands on the assignments of the symbol of a context. -/
def assign (w : World μ) (h : Handle) : SearchM μ Unit := do
  let c ← context h
  let symbol ← w.grammar.symbol c.symbol
  modify fun s => { s with arena := s.arena.assign h symbol }

/-- Drops all but the first `n` contexts. -/
def truncateContexts (w : World μ) (n : Nat) : SearchM μ Unit :=
  modify fun s =>
    { s with arena := s.arena.truncate n, memory := w.notebook.truncate s.memory n }

/-- Opens a branch whose undoing keeps the first `contexts` contexts. -/
def branchAt (contexts : Nat) : SearchM μ Unit :=
  modifyPlan fun p =>
    { p with checkpoints :=
        ⟨p.areas.size, p.placements.size, contexts, p.cursor, p.queue⟩ :: p.checkpoints }

def branch : SearchM μ Unit := do branchAt (← contextCount)

/-- Undoes the latest branch. -/
def undo (w : World μ) : SearchM μ Unit := do
  match (← get).plan.checkpoints with
  | [] => throw .noCheckpoint
  | c :: rest =>
    truncateContexts w c.contexts
    modifyPlan fun p =>
      { p with
        areas := p.areas.take c.areas
        placements := p.placements.take c.placements
        queue := c.queue
        cursor := c.cursor
        checkpoints := rest }

end Search

end VoxelGrammar
