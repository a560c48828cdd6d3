import VoxelGrammar.Cache

/-!
What evaluations remember. A value is written down on the page of the context it was worked out
in if its field reads the context, and on a shared page otherwise. Evaluation and search are
written against any notebook; the one they run with keeps the page of a context as long as the
context lives and the shared page in a cache.
-/

namespace VoxelGrammar

/-- Where the values of a field are written down. -/
inductive Page
  | shared
  | context (slot : Nat)
deriving DecidableEq

/-- Looking things up in a state and writing them down. -/
structure Notebook (μ : Type) where
  dimensionality? : μ → Page → FieldId → Option Dimensionality
  noteDimensionality : μ → Page → FieldId → Dimensionality → μ
  /-- Looking a record up can leave its mark. -/
  record? : μ → Page → RecordKey → Option Record × μ
  noteRecord : μ → Page → RecordKey → Record → μ
  /-- A context has been put into the next slot. -/
  addPage : μ → μ
  /-- All contexts but the first ones have been dropped. -/
  truncate : μ → Nat → μ

/-- Nothing is remembered. -/
def Notebook.blank : Notebook Unit where
  dimensionality? _ _ _ := none
  noteDimensionality _ _ _ _ := ()
  record? _ _ _ := (none, ())
  noteRecord _ _ _ _ := ()
  addPage _ := ()
  truncate _ _ := ()

/-- What has been worked out in one context so far. -/
structure Table where
  records : Std.HashMap RecordKey Record
  dimensions : Std.HashMap FieldId Dimensionality

def Table.empty : Table := ⟨∅, ∅⟩

instance : Inhabited Table := ⟨.empty⟩

structure Memory where
  /-- The tables of the live contexts, slot by slot. -/
  tables : Array Table
  cache : Cache

namespace Memory

/-- Nothing but a cache. -/
def ofCache (cache : Cache) : Memory := ⟨#[], cache⟩

instance : Inhabited Memory := ⟨ofCache default⟩

def table (m : Memory) (slot : Nat) : Table := m.tables[slot]?.getD .empty

def dimensionality? (m : Memory) : Page → FieldId → Option Dimensionality
  | .shared, id => m.cache.dimensionality? id
  | .context slot, id => (m.table slot).dimensions[id]?

def noteDimensionality (m : Memory) (page : Page) (id : FieldId) (d : Dimensionality) : Memory :=
  match page with
  | .shared => { m with cache := m.cache.rememberDimensionality id d }
  | .context slot =>
    { m with tables := m.tables.modify slot fun t =>
        { t with dimensions := t.dimensions.insert id d } }

def record? (m : Memory) : Page → RecordKey → Option Record × Memory
  | .shared, key => let (r, cache) := m.cache.get key; (r, { m with cache })
  | .context slot, key => ((m.table slot).records[key]?, m)

def noteRecord (m : Memory) (page : Page) (key : RecordKey) (r : Record) : Memory :=
  match page with
  | .shared => { m with cache := m.cache.insert key r r.memory }
  | .context slot =>
    { m with tables := m.tables.modify slot fun t =>
        { t with records := t.records.insert key r } }

def addPage (m : Memory) : Memory := { m with tables := m.tables.push .empty }

def truncate (m : Memory) (n : Nat) : Memory := { m with tables := m.tables.take n }

/-- The notebook that programs run with. -/
def notebook : Notebook Memory :=
  { dimensionality?, noteDimensionality, record?, noteRecord, addPage, truncate }

end Memory

end VoxelGrammar
