import Std.Data.HashMap
import VoxelGrammar.Record
import VoxelGrammar.Seed

/-!
A map from keys to records that keeps to a number of bytes. An insertion that brings it above its
capacity drops records until it fits again: a few entries are drawn at random, and the one with
the highest score goes, large and long unused ones scoring high. What was dropped is computed
anew when it is needed, so the draws never show in a structure.

Each entry has a slot in an array, and an index finds the slot of a key; a dropped entry's slot is
taken by the last one.

Bytes are added up in 64-bit words, and a sum that a word cannot hold starts over at zero.
-/

namespace VoxelGrammar

structure EvictionPolicy where
  /-- How many entries are drawn for one eviction. -/
  sampleCount : Nat
  /-- How much an entry's age adds to its score. -/
  stalenessWeight : Float32

def EvictionPolicy.standard : EvictionPolicy := ⟨32, 0.01⟩

structure CacheEntry where
  key : RecordKey
  record : Record
  size : Nat
  lastAccess : Nat

structure CacheStats where
  hits : Nat
  misses : Nat
  evictions : Nat
deriving DecidableEq

/-- The part of all lookups that found something. -/
def CacheStats.hitRate (s : CacheStats) : Float :=
  let total := s.hits + s.misses
  if total = 0 then 0 else s.hits.toUInt64.toFloat / total.toUInt64.toFloat

structure Cache where
  index : Std.HashMap RecordKey Nat
  entries : Array CacheEntry
  /-- Whether fields that read no context vary, as far as it is known. -/
  dimensions : Std.HashMap FieldId Dimensionality
  /-- Bytes charged for the entries. -/
  used : Nat
  capacity : Nat
  /-- Accesses so far. -/
  clock : Nat
  policy : EvictionPolicy
  /-- The random words that slots are drawn from, and how many have been spent. -/
  draws : Nat → UInt32
  drawn : Nat
  stats : CacheStats

namespace Cache

/-- The bytes in use when `size` more are charged for. -/
def charge (used size : Nat) : Nat := (used.toUInt64 + size.toUInt64).toNat

/-- The bytes in use when `size` of them are given back. -/
def refund (used size : Nat) : Nat := (used.toUInt64 - size.toUInt64).toNat

def create (draws : Nat → UInt32) (capacity : Nat) (policy : EvictionPolicy) : Cache :=
  { index := ∅, entries := #[], dimensions := ∅, used := 0, capacity, clock := 0, policy, draws,
    drawn := 0, stats := ⟨0, 0, 0⟩ }

/-- The words that slots are drawn from where nothing else is asked for. -/
def standardDraws (k : Nat) : UInt32 := Seed.hash k.toUInt32 0x53545255

def new (capacity : Nat) (policy : EvictionPolicy) : Cache := create standardDraws capacity policy

instance : Inhabited Cache := ⟨new 0 .standard⟩

def contains (c : Cache) (key : RecordKey) : Bool := c.index.contains key

def size (c : Cache) : Nat := c.entries.size

def isEmpty (c : Cache) : Bool := c.entries.isEmpty

/-- The bytes charged for the entries, added up anew. -/
def accounted (c : Cache) : Nat := c.entries.foldl (fun n e => charge n e.size) 0

/-- Looks a key up, which counts as an access. -/
def get (c : Cache) (key : RecordKey) : Option Record × Cache :=
  match c.index[key]? with
  | none => (none, { c with stats := { c.stats with misses := c.stats.misses + 1 } })
  | some slot =>
    (c.entries[slot]?.map (·.record),
      { c with
        entries := c.entries.modify slot fun e => { e with lastAccess := c.clock }
        clock := c.clock + 1
        stats := { c.stats with hits := c.stats.hits + 1 } })

/-- Size times one plus weighted age. -/
def score (c : Cache) (e : CacheEntry) : Float32 :=
  let age := (c.clock - e.lastAccess).toUInt64.toFloat32
  e.size.toUInt64.toFloat32 * (1 + c.policy.stalenessWeight * age)

/-- The slots among which the next victim is chosen: all of them while there are few. -/
def lineup (c : Cache) : List Nat :=
  if c.size ≤ c.policy.sampleCount then List.range c.size
  else (List.range (max c.policy.sampleCount 1)).map fun k =>
    (c.draws (c.drawn + k)).toNat % c.size

/-- The words that choosing the next victim spends. -/
def lineupCost (c : Cache) : Nat :=
  if c.size ≤ c.policy.sampleCount then 0 else max c.policy.sampleCount 1

/-- The first slot of the lineup whose score no other exceeds. -/
def victim (c : Cache) : Nat :=
  let scoreOf slot := (c.entries[slot]?.map c.score).getD 0
  let best := c.lineup.foldl
    (fun (best : Nat × Float32) slot =>
      if best.2 < scoreOf slot then (slot, scoreOf slot) else best)
    (c.lineup.headD 0, Float32.ofBits 0xff800000)
  best.1

/-- Drops the entry of a slot; the last entry takes its place. -/
def dropSlot (c : Cache) (slot : Nat) : Cache :=
  match c.entries[slot]? with
  | none => c
  | some e =>
    let entries := (c.entries.swapIfInBounds slot (c.entries.size - 1)).pop
    let index := c.index.erase e.key
    let index := match entries[slot]? with
      | some moved => index.insert moved.key slot
      | none => index
    { c with entries, index, used := refund c.used e.size }

/-- Drops one record. -/
def evict (c : Cache) : Cache :=
  let slot := c.victim
  let cost := c.lineupCost
  let c := c.dropSlot slot
  { c with
    drawn := c.drawn + cost
    stats := { c.stats with evictions := c.stats.evictions + 1 } }

/-- Drops at most `n` records, as long as the rest does not fit. -/
def shrink : (n : Nat) → Cache → Cache
  | 0, c => c
  | n + 1, c => if c.used ≤ c.capacity then c else shrink n c.evict

/-- Adds a record or replaces the one of its key. -/
def place (c : Cache) (key : RecordKey) (record : Record) (size : Nat) : Cache :=
  let entry : CacheEntry := ⟨key, record, size, c.clock⟩
  match c.index[key]? with
  | some slot =>
    let old := (c.entries[slot]?.map (·.size)).getD 0
    { c with
      entries := c.entries.setIfInBounds slot entry
      used := charge (refund c.used old) size
      clock := c.clock + 1 }
  | none =>
    { c with
      index := c.index.insert key c.entries.size
      entries := c.entries.push entry
      used := charge c.used size
      clock := c.clock + 1 }

/-- Adds a record, then drops records until the rest fits. One that is larger than the whole
capacity is dropped again at once. -/
def insert (c : Cache) (key : RecordKey) (record : Record) (size : Nat) : Cache :=
  let c := c.place key record size
  c.shrink c.size

/-- Drops every record; the counters go on. -/
def clear (c : Cache) : Cache :=
  { c with index := ∅, entries := #[], dimensions := ∅, used := 0 }

def dimensionality? (c : Cache) (field : FieldId) : Option Dimensionality := c.dimensions[field]?

def rememberDimensionality (c : Cache) (field : FieldId) (d : Dimensionality) : Cache :=
  { c with dimensions := c.dimensions.insert field d }

end Cache

end VoxelGrammar
