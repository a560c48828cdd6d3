import VoxelGrammar.Config.Basic
import VoxelGrammar.Toml.Document

/-!
Configurations as TOML documents. A group of settings is a table, which names them, or an array,
which lists them in their order; one that is missing keeps its standard value, and names that are
not known are passed over.
-/

namespace VoxelGrammar

namespace Toml.Value

/-- A setting of a group, by its place or its name. No value outside of a group is one, and a
date-time is a group that names nothing known. -/
def setting? (place : Nat) (name : String) : Value → Option (Option Value)
  | .table _ entries => some (Entries.get? entries name)
  | .array _ items => some items[place]?
  | .dateTime => some none
  | _ => none

/-- Reads a setting of a group, or takes its standard value. -/
def settingOr (group : Value) (place : Nat) (name : String) (read : Value → Option α)
    (standard : α) : Option α := do
  match ← group.setting? place name with
  | some v => read v
  | none => return standard

def natBelow? (bound : Nat) : Value → Option Nat
  | .integer n => if 0 ≤ n ∧ n < bound then some n.toNat else none
  | _ => none

def count? : Value → Option Nat := natBelow? UInt64.size

def weight? : Value → Option Float32
  | .float x => some x.toFloat32
  | .integer n => some (Int64.ofInt n).toFloat32
  | _ => none

end Toml.Value

open Toml (Value)

def EvictionPolicy.ofToml? (v : Value) : Option EvictionPolicy := do
  let d := EvictionPolicy.standard
  return ⟨← v.settingOr 0 "sample_count" Value.count? d.sampleCount,
    ← v.settingOr 1 "staleness_weight" Value.weight? d.stalenessWeight⟩

def GeneratorConfig.ofToml? (v : Value) : Option GeneratorConfig := do
  let d := GeneratorConfig.standard
  return ⟨⟨← v.settingOr 0 "max_expansion_count" (Value.natBelow? UInt32.size) d.limits.expansions,
      ← v.settingOr 1 "max_stack_depth" Value.count? d.limits.depth⟩,
    ← v.settingOr 2 "cache_capacity" Value.count? d.cacheCapacity,
    ← v.settingOr 3 "eviction" EvictionPolicy.ofToml? d.eviction⟩

def PoolConfig.ofToml? (v : Value) : Option PoolConfig := do
  let d := PoolConfig.standard
  return ⟨← v.settingOr 0 "threads" (fun v => some <$> v.count?) d.threads,
    ← v.settingOr 1 "max_threads" Value.count? d.maxThreads⟩

namespace Config

def ofToml? (v : Value) : Option Config := do
  return ⟨← v.settingOr 0 "generator" GeneratorConfig.ofToml? .standard,
    ← v.settingOr 1 "pool" PoolConfig.ofToml? .standard⟩

/-- Why a text is no configuration. -/
inductive ReadError
  /-- It is no TOML document, or a setting has a value of a wrong type. -/
  | malformed
  | invalid (problem : Problem)
deriving DecidableEq

def ReadError.message : ReadError → String
  | malformed => "invalid config syntax"
  | invalid problem => "invalid configuration: " ++ problem.text

/-- Reads a configuration whose settings all make sense. -/
def read (text : String) : Except ReadError Config := do
  let some c := Toml.parse? text >>= fun entries => ofToml? (.table .header entries)
    | throw .malformed
  match c.problem? with
  | some problem => throw (.invalid problem)
  | none => return c

/-- All decimal digits of a weight. A finite one is `m · 2 ^ q`, and for a negative `q` that is
`m · 5 ^ -q` in units of `10 ^ q`. -/
def weightText (w : Float32) : String :=
  let bits := w.toBits.toNat
  let sign := if bits < 0x80000000 then "" else "-"
  let exponent := bits / 0x800000 % 256
  let fraction := bits % 0x800000
  if exponent = 255 then sign ++ if fraction = 0 then "inf" else "nan"
  else
    let m := if exponent = 0 then fraction else 0x800000 + fraction
    let shift := max exponent 1
    if 150 ≤ shift then s!"{sign}{m.shiftLeft (shift - 150)}.0"
    else
      let places := 150 - shift
      let units := m * Nat.pow 5 places
      let one := Nat.pow 10 places
      let decimals := toString (units % one)
      s!"{sign}{units / one}." ++ "".pushn '0' (places - decimals.length) ++ decimals

/-- Writes a configuration as a document, the number of workers only if it is fixed. -/
def write (c : Config) : String :=
  let g := c.generator
  "[generator]\n" ++
    s!"max_expansion_count = {g.limits.expansions}\n" ++
    s!"max_stack_depth = {g.limits.depth}\n" ++
    s!"cache_capacity = {g.cacheCapacity}\n\n" ++
    "[generator.eviction]\n" ++
    s!"sample_count = {g.eviction.sampleCount}\n" ++
    s!"staleness_weight = {weightText g.eviction.stalenessWeight}\n\n" ++
    "[pool]\n" ++
    (match c.pool.threads with
    | some n => s!"threads = {n}\n"
    | none => "") ++
    s!"max_threads = {c.pool.maxThreads}\n"

/-- Whether a configuration is the same after it is written and read. -/
def survives (c : Config) : Bool :=
  match read c.write with
  | .ok c' => c'.agrees c
  | .error _ => false

end Config

end VoxelGrammar
