import VoxelGrammar.BlockMap.Basic
import VoxelGrammar.Search.Run

/-!
Painting the structure that a search has found. The fills of all components are applied in the
order in which the components were accepted; a later one overwrites an earlier one, an undefined
sample writes nothing, and a fill whose fields cannot be evaluated is left out.
-/

namespace VoxelGrammar

/-- Painting is evaluation with a block map to write to. What was written before an evaluation
failed stays written. -/
abbrev Painting (μ : Type) := ExceptT EvalError (StateT BlockMap (StateM μ))

instance : MonadLift (Eval μ) (Painting μ) :=
  ⟨fun x => ExceptT.mk fun m memory =>
    let (result, memory) := x.run memory
    ((result, m), memory)⟩

instance : MonadLift (Except Fault) (Painting μ) :=
  ⟨fun x => ExceptT.mk (pure (x.mapError .fault))⟩

namespace Painting

/-- Changes the map, unless that is a fault. -/
def change (f : BlockMap → Except Fault BlockMap) : Painting μ Unit :=
  ExceptT.mk fun m =>
    match f m with
    | .ok m => pure (.ok (), m)
    | .error e => pure (.error (.fault e), .empty)

/-- The defined blocks of a box within the subchunk at `origin`. -/
def defined (r : Record) (box : Box) : Except Fault (List (UInt16 × Block)) := do
  let blocks ← box.cells.mapM fun p =>
    match r.get? p.cell.toNat with
    | some s => .ok (p.cell, s.asBlock)
    | none => .error .cellOutOfRange
  return blocks.filter fun e => !Block.isUndefined e.2

/-- Paints the part of a box that lies in the subchunk at `origin`. -/
def paintSlice (w : World μ) (a : Arena) (h : Handle) (block : FieldId) (box : Box)
    (origin : Pos) : Painting μ Unit := do
  let r ← w.subchunkRecord a h block origin
  let slice := box.clip ⟨origin, origin + .splat 15⟩
  let writes ← defined r slice
  change fun m => m.updateAt origin fun c => do
    (← c.reserve slice.volume.toNatClampNeg).writeAll writes

/-- Paints a box, subchunk by subchunk. -/
def paintBox (w : World μ) (a : Arena) (h : Handle) (block : FieldId) (box : Box) :
    Painting μ Unit :=
  ((Box.mk box.low.subchunk box.high).grid subchunkSize).forM fun origin =>
    paintSlice w a h block box origin

/-- Paints one cell, unless the block there is undefined. -/
def paintCell (w : World μ) (a : Arena) (h : Handle) (block : FieldId) (p : Pos) :
    Painting μ Unit := do
  let b := (← w.sample a h block p).asBlock
  unless Block.isUndefined b do change fun m => m.write p b

def paintPositions (w : World μ) (a : Arena) (h : Handle) (block : FieldId)
    (positions : List Pos) (offset : Pos) : Painting μ Unit :=
  positions.forM fun p => do
    let c ← a.get h
    paintCell w a h block (c.mapToWorld (p + offset))

/-- Paints one fill of a component. -/
def paintFill (w : World μ) (a : Arena) (h : Handle) (f : Fill) : Painting μ Unit := do
  if f.positions.isEmpty then
    if let some start := f.start then
      let p ← w.sampleWorldPos a h start
      let q ← match f.stop with
        | some stop => w.sampleWorldPos a h stop
        | none => pure p
      paintBox w a h f.block (.spanning p q)
  else
    let offset ← match f.start with
      | some start => if f.shifted then w.samplePos a h start else pure .zero
      | none => pure .zero
    paintPositions w a h f.block f.positions offset

end Painting

namespace Search

/-- Paints one fill onto a map; one that cannot be evaluated stops where it fails. -/
def paint (w : World μ) (h : Handle) (m : BlockMap) (f : Fill) : SearchM μ BlockMap :=
  ExceptT.mk fun s =>
    let ((result, m), memory) := (Painting.paintFill w s.arena h f).run m s.memory
    let result := match result with
      | .error (.fault f) => .error f
      | _ => .ok m
    (result, { s with memory })

/-- Paints the fills of a component onto a map. -/
def paintPlacement (w : World μ) (m : BlockMap) (p : Placement) : SearchM μ BlockMap := do
  let c ← w.grammar.component p.component
  c.fills.foldlM (paint w p.context) m

/-- The blocks of the structure that was found. -/
def output (w : World μ) : SearchM μ BlockMap := do
  let p := (← get).plan
  if p.solved then p.placements.toList.foldlM (paintPlacement w) .empty
  else throw .unsolved

/-- Searches and paints what is found. -/
def generate (w : World μ) (limits : Limits) (rule : RuleId) (origin : Pos) (seed : Seed) :
    SearchM μ (Except SearchFailure BlockMap) := do
  setup w rule origin seed
  match ← process w limits with
  | .ok _ => return .ok (← output w)
  | .error failure => return .error failure

end Search

end VoxelGrammar
