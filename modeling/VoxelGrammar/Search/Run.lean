import VoxelGrammar.Config.Basic
import VoxelGrammar.Search.Expand

/-!
Running a search. Each step takes the entry at the cursor, puts its next attempt in its place and
carries the present one out; success moves the cursor on, and an entry with nothing left to try
undoes the latest branch. A structure is found when the cursor has passed all entries, and there
is none when undoing has emptied the queue.
-/

namespace VoxelGrammar

/-- Why a search stopped without a structure. -/
inductive SearchFailure
  | noSolution (attempts : Nat)
  | expansionLimit (limit : Nat)
  | stackDepthLimit (limit : Nat)
  /-- A contract was broken during the search. -/
  | broken
deriving DecidableEq

def SearchFailure.message : SearchFailure → String
  | noSolution attempts =>
    s!"no solution found, tried all possible expansions ({attempts} attempts)"
  | expansionLimit limit => s!"maximum expansion count exceeded ({limit})"
  | stackDepthLimit limit => s!"maximum stack depth exceeded ({limit})"
  | broken => "structure search panicked"

namespace Search

/-- Drops everything but what the notebook keeps beyond single contexts. -/
def reset (w : World μ) (origin : Pos) (seed : Seed) : SearchM μ Unit :=
  modify fun s =>
    ⟨s.arena.clear, w.notebook.truncate s.memory 0, .blank (Seed.hashPos origin seed)⟩

/-- Starts over with a rule at a place. -/
def setup (w : World μ) (rule : RuleId) (origin : Pos) (seed : Seed) : SearchM μ Unit := do
  reset w origin seed
  branch
  let _ ← enterRule w rule origin .unspecified none

/-- Whether a limit stops the search at the attempt it has just begun. -/
def stopped? (limits : Limits) (s : Search μ) : Option SearchFailure :=
  if limits.expansions ≤ s.plan.expansions then some (.expansionLimit limits.expansions)
  else if limits.depth ≤ s.depth then some (.stackDepthLimit limits.depth)
  else none

/-- Tries the entry at the cursor. -/
def resolve (w : World μ) : Option Attempt → SearchM μ Unit
  | none => undo w
  | some a => do
    let following ← next w a
    modifyPlan fun p => { p with queue := p.queue.setIfInBounds p.cursor following }
    if ← attempt w a then modifyPlan fun p => { p with cursor := p.cursor + 1 }

/-- One step of a search; a result ends it. -/
def step (w : World μ) (limits : Limits) : SearchM μ (Option (Except SearchFailure Unit)) := do
  let p := (← get).plan
  match p.queue[p.cursor]? with
  | none =>
    if p.queue.isEmpty then return some (.error (.noSolution p.expansions))
    else
      modifyPlan fun p => { p with solved := true }
      return some (.ok ())
  | some entry =>
    modifyPlan fun p => { p with expansions := p.expansions + 1 }
    match stopped? limits (← get) with
    | some failure => return some (.error failure)
    | none =>
      resolve w entry
      return none

/-- Takes at most `n` steps. -/
def steps (w : World μ) (limits : Limits) : (n : Nat) → SearchM μ (Except SearchFailure Unit)
  | 0 => return .error (.expansionLimit limits.expansions)
  | n + 1 => do
    match ← step w limits with
    | some result => return result
    | none => steps w limits n

/-- Runs a search to its end. Every step but the last one is an attempt below the limit, so there
are no more steps than the limit. -/
def process (w : World μ) (limits : Limits) : SearchM μ (Except SearchFailure Unit) :=
  steps w limits (limits.expansions + 1)

end Search

end VoxelGrammar
