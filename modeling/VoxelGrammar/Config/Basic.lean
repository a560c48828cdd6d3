import VoxelGrammar.Cache

/-!
Settings of searches and of the pool that runs them.
-/

namespace VoxelGrammar

/-- Where a search gives up. -/
structure Limits where
  /-- Attempts, which a search must stay below. -/
  expansions : Nat
  /-- Open branches, which a search must stay below. -/
  depth : Nat
deriving DecidableEq

structure GeneratorConfig where
  limits : Limits
  /-- Bytes of the cache of one generator. -/
  cacheCapacity : Nat
  eviction : EvictionPolicy

/-- Bytes of a mebibyte. -/
def mebibyte : Nat := 1024 * 1024

def GeneratorConfig.standard : GeneratorConfig := ⟨⟨10000, 2000⟩, 64 * mebibyte, .standard⟩

/-- For larger grammars. -/
def GeneratorConfig.production : GeneratorConfig := ⟨⟨50000, 5000⟩, 256 * mebibyte, .standard⟩

structure PoolConfig where
  /-- The number of workers, if it is fixed. -/
  threads : Option Nat
  /-- A bound for the number of workers that is taken from the machine. -/
  maxThreads : Nat
deriving DecidableEq

def PoolConfig.standard : PoolConfig := ⟨none, 4⟩

/-- The number of workers on a machine that runs `available` threads at a time: as many as are
asked for, else all but two within the bound, and one at least. -/
def PoolConfig.workers (p : PoolConfig) (available : Nat) : Nat :=
  match p.threads with
  | some n => max n 1
  | none => max (min (available - 2) p.maxThreads) 1

structure Config where
  generator : GeneratorConfig
  pool : PoolConfig

namespace Config

def standard : Config := ⟨.standard, .standard⟩

def production : Config := ⟨.production, ⟨none, 16⟩⟩

/-- A setting with a value that makes no sense. -/
inductive Problem
  | expansions
  | depth
  | sampleCount
  | stalenessWeight
  | threads
deriving DecidableEq

def Problem.text : Problem → String
  | expansions => "generator.max_expansion_count must be positive"
  | depth => "generator.max_stack_depth must be positive"
  | sampleCount => "generator.eviction.sample_count must be positive"
  | stalenessWeight => "generator.eviction.staleness_weight must be >= 0"
  | threads => "pool thread counts must be positive"

/-- The first setting with a value that makes no sense. -/
def problem? (c : Config) : Option Problem :=
  let g := c.generator
  if g.limits.expansions = 0 then some .expansions
  else if g.limits.depth = 0 then some .depth
  else if g.eviction.sampleCount = 0 then some .sampleCount
  else if !(0 ≤ g.eviction.stalenessWeight) then some .stalenessWeight
  else if c.pool.threads = some 0 ∨ c.pool.maxThreads = 0 then some .threads
  else none

/-- All settings agree; weights are compared as numbers. -/
def agrees (a b : Config) : Bool :=
  a.generator.limits == b.generator.limits &&
    a.generator.cacheCapacity == b.generator.cacheCapacity &&
    a.generator.eviction.sampleCount == b.generator.eviction.sampleCount &&
    a.generator.eviction.stalenessWeight == b.generator.eviction.stalenessWeight &&
    a.pool == b.pool

end Config

end VoxelGrammar
