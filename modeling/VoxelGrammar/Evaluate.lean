import VoxelGrammar.Context.Arena
import VoxelGrammar.Notebook
import VoxelGrammar.Provider

/-!
Evaluation of fields in a data context. The samples of a field over a point or a subchunk form a
record, which is worked out once and then remembered: with the context if the field reads it,
together with the values of all contexts otherwise. A field that does not vary has a single
record, whatever position is asked for.

A field has sources: the inputs of a composite, the field that a placeholder stands for in the
context where that is to be read. Evaluation works out the sources and puts them together. A path
of sources that is longer than there are pairs of a context and a field has met one of them twice,
so the number of these pairs bounds every evaluation that comes to an end.
-/

namespace VoxelGrammar

/-- What an evaluation is about, and what it remembers by. -/
structure World (μ : Type) where
  grammar : Grammar
  provider : Provider
  notebook : Notebook μ

/-- The world of a grammar as programs run it. -/
def World.remembering (g : Grammar) (p : Provider) : World Memory := ⟨g, p, Memory.notebook⟩

/-- The same world with nothing to remember by. -/
def World.forgetful (w : World μ) : World Unit := ⟨w.grammar, w.provider, .blank⟩

abbrev Eval (μ : Type) := ExceptT EvalError (StateM μ)

instance : MonadLift (Except Fault) (Eval μ) := ⟨fun x => ExceptT.mk (pure (x.mapError .fault))⟩

namespace Arena

/-- Where the value of a field in a context is written down. A field that reads the context needs
it alive. -/
def page (a : Arena) (h : Handle) (f : Field) : Except EvalError Page :=
  if f.contextual then do
    let _ ← a.get h
    return .context h.slot
  else return .shared

/-- What the value of a field in a context is made of: fields, each with the context it is read
in. -/
def sources (a : Arena) (h : Handle) (id : FieldId) (f : Field) :
    Except EvalError (List (Handle × FieldId)) :=
  match f.kind with
  | .param name => do return [← a.resolve name id h]
  | kind => .ok (kind.inputs.map (h, ·))

end Arena

namespace World

/-- Whether a field varies by itself, whatever its sources do. -/
def ownDimensionality (w : World μ) : FieldKind → Except EvalError Dimensionality
  | .worldPosition | .localPosition | .blockRandom _ => .ok .varying
  | .external e =>
    match w.provider.dimensionality e with
    | some d => .ok d
    | none => .error (.fault .brokenProvider)
  | _ => .ok .constant

/-- The record of a field, given those of its sources. -/
def compute (w : World μ) (a : Arena) (h : Handle) (key : RecordKey) :
    FieldKind → List Record → Except EvalError Record
  | .constant s, _ => .ok (.uniform s)
  | .worldPosition, _ => .ok (.tabulate key.cells fun i => .float3 (key.position i).toVec3)
  | .localPosition, _ => do
    let c ← a.get h
    return .tabulate key.cells fun i => .float3 (c.toLocal.apply (key.position i)).toVec3
  | .contextRandom salt, _ => do
    let c ← a.get h
    return .uniform (.float (Seed.unit (Seed.hash salt c.seed)))
  | .blockRandom salt, _ =>
    .ok (.tabulate key.cells fun i => .float (Seed.unit (Seed.hashPos (key.position i) salt)))
  | .external e, _ =>
    match Record.tabulate? key.cells fun i => w.provider.sample e (key.position i) with
    | some r => .ok r
    | none => .error (.fault .brokenProvider)
  | .param _, [r] => .ok r
  | kind, inputs =>
    match Record.combine? key.cells inputs kind.combine with
    | some r => .ok r
    | none => .error (.fault .cellOutOfRange)

/-- Whether a field varies with position in a context, following at most `depth` steps. -/
def dimensionalityWithin (w : World μ) (a : Arena) :
    (depth : Nat) → Handle → FieldId → Eval μ Dimensionality
  | 0, _, _ => throw (.fault .endlessEvaluation)
  | depth + 1, h, id => do
    let f ← w.grammar.field id
    let page ← a.page h f
    match w.notebook.dimensionality? (← get) page id with
    | some d => return d
    | none =>
      let own ← w.ownDimensionality f.kind
      let sources ← a.sources h id f
      let d ← sources.foldlM
        (fun d s => return d.join (← dimensionalityWithin w a depth s.1 s.2)) own
      modify fun m => w.notebook.noteDimensionality m page id d
      return d

/-- The steps that no evaluation that ends can exceed. -/
def depth (w : World μ) (a : Arena) : Nat :=
  a.size * w.grammar.fields.size + w.grammar.fields.size + 1

def dimensionality (w : World μ) (a : Arena) (h : Handle) (id : FieldId) :
    Eval μ Dimensionality :=
  w.dimensionalityWithin a (w.depth a) h id

/-- The record of a field, following at most `depth` steps. -/
def recordWithin (w : World μ) (a : Arena) :
    (depth : Nat) → Handle → FieldId → Pos → Extent → Eval μ Record
  | 0, _, _, _, _ => throw (.fault .endlessEvaluation)
  | depth + 1, h, id, origin, extent => do
    let d ← w.dimensionality a h id
    let f ← w.grammar.field id
    let page ← a.page h f
    let key := RecordKey.across d id origin extent
    match ← modifyGet fun m => w.notebook.record? m page key with
    | some r => return r
    | none =>
      let sources ← a.sources h id f
      let inputs ← sources.mapM fun s =>
        recordWithin w a depth s.1 s.2 key.origin key.extent
      let r ← w.compute a h key f.kind inputs
      modify fun m => w.notebook.noteRecord m page key r
      return r

def record (w : World μ) (a : Arena) (h : Handle) (id : FieldId) (origin : Pos)
    (extent : Extent) : Eval μ Record :=
  w.recordWithin a (w.depth a) h id origin extent

/-- The value of a field at a world position. -/
def sample (w : World μ) (a : Arena) (h : Handle) (id : FieldId) (p : Pos) : Eval μ Sample := do
  let r ← w.record a h id p .point
  match r.get? 0 with
  | some s => return s
  | none => throw (.fault .cellOutOfRange)

/-- The record of a field over the subchunk that holds `p`. -/
def subchunkRecord (w : World μ) (a : Arena) (h : Handle) (id : FieldId) (p : Pos) :
    Eval μ Record :=
  w.record a h id p.subchunk .subchunk

/-- The value of a field at the origin of its context. -/
def sampleOrigin (w : World μ) (a : Arena) (h : Handle) (id : FieldId) : Eval μ Sample := do
  let c ← a.get h
  w.sample a h id c.origin

/-- A truth field at the origin of its context. -/
def sampleBool (w : World μ) (a : Arena) (h : Handle) (id : FieldId) : Eval μ Bool := do
  return (← w.sampleOrigin a h id).asBool

/-- A vector field at the origin of its context, as a local block position. -/
def samplePos (w : World μ) (a : Arena) (h : Handle) (id : FieldId) : Eval μ Pos := do
  return (← w.sampleOrigin a h id).asPos

/-- A vector field at the origin of its context, as the world position it denotes there. -/
def sampleWorldPos (w : World μ) (a : Arena) (h : Handle) (id : FieldId) : Eval μ Pos := do
  let p ← w.samplePos a h id
  let c ← a.get h
  return c.mapToWorld p

/-- Whether all conditions hold; those after the first that does not are not looked at. -/
def holds (w : World μ) (a : Arena) (h : Handle) : List FieldId → Eval μ Bool
  | [] => return true
  | id :: rest => do
    if ← w.sampleBool a h id then holds w a h rest else return false

end World

end VoxelGrammar
