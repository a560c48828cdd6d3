import VoxelGrammar.BlockMap.Lz4
import VoxelGrammar.Config.Toml
import VoxelGrammar.Pool
import VoxelGrammar.Settlement.Grammar

/-!
The command line: what its arguments ask for, the sites that are searched, and the text that is
printed. Settlements are placed on a square grid of sites around the origin, row by row, each at
the height of the ground.
-/

namespace VoxelGrammar.CommandLine

/-! Arguments. -/

structure Options where
  seed : Seed
  /-- How many sites the grid reaches from its middle. -/
  radius : Int32
  /-- A bound for the number of sites. -/
  count : Option Nat
  threads : Option Nat
  /-- The path of a configuration. -/
  config : Option String
  /-- The directory for the structures. -/
  output : Option String
deriving DecidableEq

def Options.standard : Options := ⟨42, 2, none, none, none, none⟩

inductive Command
  | help
  | place (options : Options)
deriving DecidableEq

/-- Decimal digits, at least one. -/
def digits? (cs : List Char) : Option Nat :=
  if cs.isEmpty ∨ !cs.all Char.isDigit then none
  else some (cs.foldl (fun n c => 10 * n + (c.toNat - 48)) 0)

/-- A number below `bound`; it may have a plus sign. -/
def natBelow? (bound : Nat) (text : String) : Option Nat := do
  let n ← match text.toList with
    | '+' :: cs => digits? cs
    | cs => digits? cs
  if n < bound then some n else none

/-- A signed number of 32 bits. -/
def int32? (text : String) : Option Int32 :=
  match text.toList with
  | '-' :: cs => do
    let n ← digits? cs
    if n ≤ 0x80000000 then some (.ofInt (-n)) else none
  | _ => (natBelow? 0x80000000 text).map fun n => .ofInt n

/-- Gives a value to the option of a flag. A value that cannot be read stands for the standard
one. -/
def Options.set? (o : Options) (flag value : String) : Option Options :=
  let d := Options.standard
  if flag ∈ ["--seed", "-s"] then
    some { o with seed := ((natBelow? UInt32.size value).map (·.toUInt32)).getD d.seed }
  else if flag ∈ ["--radius", "-r"] then some { o with radius := (int32? value).getD d.radius }
  else if flag ∈ ["--count", "-n"] then some { o with count := natBelow? UInt64.size value }
  else if flag ∈ ["--threads", "-t"] then some { o with threads := natBelow? UInt64.size value }
  else if flag ∈ ["--config", "-c"] then some { o with config := some value }
  else if flag ∈ ["--output", "-o"] then some { o with output := some value }
  else none

/-- Reads arguments in order. A flag takes the next argument as its value, whatever that is; a flag
without one and other arguments are passed over. -/
def Options.parse (o : Options) : List String → Command
  | [] => .place o
  | [arg] => if arg ∈ ["--help", "-h"] then .help else .place o
  | arg :: value :: rest =>
    if arg ∈ ["--help", "-h"] then .help
    else match o.set? arg value with
      | some o => o.parse rest
      | none => o.parse (value :: rest)

def Command.ofArguments (args : List String) : Command := Options.standard.parse args

/-- A configuration with the number of workers that the options ask for. -/
def Options.adjust (o : Options) (c : Config) : Config :=
  match o.threads with
  | some n => { c with pool := { c.pool with threads := some n } }
  | none => c

/-! Sites. -/

/-- Blocks between neighbouring sites. -/
def spacing : Int32 := 96

/-- Sites along an edge of the grid. -/
def Options.side (o : Options) : Int32 := 2 * max o.radius 0 + 1

/-- How many sites are searched. -/
def Options.total (o : Options) : Nat :=
  let side := o.side.toInt.natAbs
  let grid := side * side
  (o.count.map (min grid)).getD grid

/-- The job of the site with a number. -/
def Options.job (o : Options) (i : Nat) : Job :=
  let side := o.side.toInt.natAbs
  let x := (Int32.ofNat (i % side) - o.radius) * spacing
  let z := (Int32.ofNat (i / side) - o.radius) * spacing
  let y := (Settlement.Terrain.standard.height x z).round.toInt32
  ⟨i, (Settlement.grammar.findRule Settlement.entryRule).getD 0, ⟨x, y, z⟩, o.seed⟩

/-- The jobs of all sites; a grid of negative radius has none. -/
def Options.jobs (o : Options) : List Job :=
  if o.radius < 0 then [] else (List.range o.total).map o.job

/-- Searches all sites with `n` workers. -/
def Options.place (o : Options) (c : Config) (n : Nat) : List JobResult :=
  Pool.serve (.remembering Settlement.grammar Settlement.Terrain.standard.provider) c.generator n
    o.jobs

/-- The file of a structure: its name and its bytes. -/
def file? (r : JobResult) : Option (String × Bytes) :=
  match r.outcome with
  | .ok m =>
    let number := toString r.job.id
    some ("structure_" ++ "".pushn '0' (4 - number.length) ++ number ++ ".stro.lz4", m.compress)
  | .error _ => none

/-! Text. -/

def banner : List String :=
  ["╔══════════════════════════════════════════════════════════════════╗",
    "║         STRUCTURA STRUCTURE GENERATOR                            ║",
    "║         SETTLEMENT DEMO                                          ║",
    "╚══════════════════════════════════════════════════════════════════╝",
    ""]

def usage : List String :=
  ["Usage: structgen [OPTIONS]",
    "",
    "Options:",
    "  -s, --seed <SEED>          Placement seed (default: 42)",
    "  -r, --radius <SITES>       Grid radius in sites (default: 2)",
    "  -n, --count <NUM>          Stop after NUM sites (default: whole grid)",
    "  -t, --threads <NUM>        Worker threads (default: from config)",
    "  -c, --config <FILE>        TOML configuration file",
    "  -o, --output <DIR>         Write compressed outputs to DIR",
    "  -h, --help                 Show this help"]

def configFailure (reason : String) : String := "Error: Could not load config: " ++ reason

def boxEnd : String := "└──────────────────────────────────────────────────────────────────┘"

/-- What is about to be done. -/
def Options.summary (o : Options) (c : Config) (workers : Nat) : List String :=
  let g := c.generator
  let side := o.side.toInt
  ["┌─ CONFIGURATION ─────────────────────────────────────────────────┐",
    s!"│ Seed:               {o.seed.toNat}",
    s!"│ Sites:              {o.total} of {side}x{side} (spacing {spacing.toInt})",
    s!"│ Threads:            {workers}",
    s!"│ Max Expansions:     {g.limits.expansions}",
    s!"│ Max Stack Depth:    {g.limits.depth}",
    s!"│ Cache Capacity:     {g.cacheCapacity / mebibyte} MiB",
    boxEnd,
    ""]

/-- Milliseconds with two decimals, from nanoseconds. -/
def milliseconds (ns : Nat) : String :=
  let hundredths := (ns + 5000) / 10000
  let decimals := toString (hundredths % 100)
  s!"{hundredths / 100}." ++ "".pushn '0' (2 - decimals.length) ++ decimals

def sumOver (f : α → Nat) (xs : List α) : Nat := xs.foldl (fun n x => n + f x) 0

/-- What has been done, in `ns` nanoseconds. The expansions are those of all jobs, the other
numbers those of the structures. -/
def report (results : List JobResult) (ns : Nat) : List String :=
  let placed := results.filterMap fun r =>
    match r.outcome with
    | .ok m => some (r, m)
    | .error _ => none
  let packed := sumOver (fun f => f.2.length) (results.filterMap file?)
  ["┌─ RESULTS ───────────────────────────────────────────────────────┐",
    s!"│ Placed:             {placed.length}",
    s!"│ Rejected:           {results.length - placed.length}",
    s!"│ Components:         {sumOver (fun e => e.1.components) placed}",
    s!"│ Expansions:         {sumOver (fun r => r.expansions) results}",
    s!"│ Sub-chunks:         {sumOver (fun e => e.2.size) placed}",
    s!"│ Block Data:         {sumOver (fun e => e.2.memory) placed} bytes" ++
      s!" ({packed} compressed)",
    s!"│ Elapsed:            {milliseconds ns} ms",
    boxEnd]

end VoxelGrammar.CommandLine
