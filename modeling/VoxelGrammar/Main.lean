import VoxelGrammar.CommandLine

/-!
The program: reads arguments and a configuration, places structures and writes them to files.
-/

namespace VoxelGrammar.CommandLine

def printAll (lines : List String) : IO Unit := lines.forM fun line => IO.println line

/-- The number of threads that the machine runs at a time, or one if it does not say. -/
def availableThreads : IO Nat := do
  try
    let text ← IO.FS.readFile "/proc/cpuinfo"
    return max 1 ((text.splitOn "\n").filter fun line => line.startsWith "processor").length
  catch _ => return 1

/-- The configuration of a run, or why there is none. -/
def load : Option String → IO (Except String Config)
  | none => return .ok .standard
  | some path => do
    try
      return (Config.read (← IO.FS.readFile path)).mapError fun e => e.message
    catch e => return .error ("cannot read config: " ++ toString e)

/-- Runs an action; a failure is printed and answered by `false`. -/
def attempting (what path : String) (action : IO Unit) : IO Bool := do
  try
    action
    return true
  catch e =>
    IO.println ("Error: Could not " ++ what ++ " " ++ path ++ ": " ++ toString e)
    return false

def writeFiles (dir : String) (results : List JobResult) : IO Unit :=
  (results.filterMap file?).forM fun (name, bytes) => do
    let path := dir ++ "/" ++ name
    let _ ← attempting "write" path (IO.FS.writeBinFile path ⟨bytes.toArray⟩)

def place (o : Options) (c : Config) : IO Unit := do
  let workers := c.pool.workers (← availableThreads)
  printAll (o.summary c workers)
  let ready ← match o.output with
    | some dir => attempting "create" dir (IO.FS.createDirAll dir)
    | none => pure true
  if ready then
    let start ← IO.monoNanosNow
    let results ← IO.lazyPure fun _ => o.place c workers
    let stop ← IO.monoNanosNow
    if let some dir := o.output then writeFiles dir results
    printAll (report results (stop - start))

end VoxelGrammar.CommandLine

open VoxelGrammar CommandLine in
def main (args : List String) : IO Unit := do
  printAll banner
  match Command.ofArguments args with
  | .help => printAll usage
  | .place o =>
    match ← load o.config with
    | .error reason => IO.println (configFailure reason)
    | .ok c => place o (o.adjust c)
