/-!
Faults, the ways in which a caller or a field provider can break the contract of this library. A
fault aborts whatever was running; it is no outcome that a search could skip or report.
-/

namespace VoxelGrammar

inductive Fault
  /-- An identifier that names no entry of its table. -/
  | unknownId
  /-- A context that has been dropped. -/
  | staleContext
  /-- A cell beyond the end of a record. -/
  | cellOutOfRange
  /-- The provider of external fields broke down. -/
  | brokenProvider
  /-- A field that depends on itself. -/
  | endlessEvaluation
  /-- A structure was asked for that no search had found. -/
  | unsolved
  /-- A branch was to be undone where none was open. -/
  | noCheckpoint
  /-- An entry was to be queued behind the end of the queue. -/
  | queueOverrun
deriving DecidableEq

/-- The entry of a table. -/
def Fault.lookup (table : Array α) (id : Nat) : Except Fault α :=
  match table[id]? with
  | some entry => .ok entry
  | none => .error .unknownId

theorem Fault.lookup_eq_ok_iff {table : Array α} {id : Nat} {entry : α} :
    Fault.lookup table id = .ok entry ↔ table[id]? = some entry := by
  rw [Fault.lookup]
  split <;> simp [*]

end VoxelGrammar
