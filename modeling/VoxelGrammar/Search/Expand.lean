import VoxelGrammar.Search.Attempt

/-!
Entering rules and carrying attempts out. Each of these answers whether it succeeded, and what
fails leaves the plan and the live contexts as they were.
-/

namespace VoxelGrammar.Search

/-- Whether an entry whose context has this seed is explored at once rather than last. -/
def exploredAtOnce (probability : Float32) (seed : Seed) : Bool :=
  (Seed.hash depthFirstSalt seed % 1000).toFloat32 < probability * 1000

/-- Queues an entry, right after the current one if it is explored at once. -/
def enqueue (atOnce : Bool) (a : Attempt) : SearchM μ Unit := do
  let p := (← get).plan
  if p.queue.size ≠ 0 ∧ atOnce then
    if p.cursor + 1 ≤ p.queue.size then
      modifyPlan fun p => { p with queue := p.queue.insertIdxIfInBounds (p.cursor + 1) (some a) }
    else throw .queueOverrun
  else modifyPlan fun p => { p with queue := p.queue.push (some a) }

/-- Enters a rule below a context and queues it, unless its conditions fail or none of its
expansions can be entered. -/
def enterRule (w : World μ) (id : RuleId) (origin : Pos) (orientation : Orientation)
    (parent : Option Handle) : SearchM μ Bool := do
  let r ← w.grammar.rule id
  let mark ← contextCount
  match ← enter w parent (.rule id) (.shift origin) with
  | .error _ => return false
  | .ok h =>
    if ← meets w h r.symbol.conditions then
      let seed := (← context h).seed
      match r.candidates (Seed.hash candidateSalt seed) with
      | [] =>
        truncateContexts w mark
        return false
      | candidates =>
        assign w h
        match ← openFirst w ⟨orientation, h⟩ candidates with
        | none =>
          truncateContexts w mark
          return false
        | some a =>
          enqueue (exploredAtOnce r.depthFirst.value seed) a
          return true
    else
      truncateContexts w mark
      return false

/-- Whether an area gets on with those recorded before it. -/
def admits (policy : OverlapPolicy) (areas : Array Area) (a : Area) : Bool :=
  let overlaps := areas.any fun b => b.name == a.name && b.box.overlaps a.box
  match policy with
  | .may => true
  | .mustNot => !overlaps
  | .must => overlaps

/-- The area that a specification describes in a context. -/
def areaOf (w : World μ) (a : Arena) (h : Handle) (spec : AreaSpec) : Eval μ Area := do
  let p ← w.sampleWorldPos a h spec.start
  let q ← w.sampleWorldPos a h spec.stop
  return ⟨spec.nameId, .spanning p q⟩

/-- Checks and records the areas of a component, one after the other. -/
def placeAreas (w : World μ) (h : Handle) : List AreaSpec → SearchM μ Bool
  | [] => return true
  | spec :: rest => do
    match ← evaluate fun a => areaOf w a h spec with
    | .error _ => return false
    | .ok a =>
      if admits spec.policy (← get).plan.areas a then
        unless spec.virtualOnly do modifyPlan fun p => { p with areas := p.areas.push a }
        placeAreas w h rest
      else return false

/-- Enters the rules of the listed nodes of a component. -/
def enterNodes (w : World μ) (h : Handle) (nodes : Array Node) : List Nat → SearchM μ Bool
  | [] => return true
  | i :: rest => do
    let n ← Fault.lookup nodes i
    match n.rule with
    | none => enterNodes w h nodes rest
    | some rule =>
      match ← evaluate fun a => w.samplePos a h n.position with
      | .error _ => return false
      | .ok p =>
        if ← enterRule w rule p n.orientation (some h) then enterNodes w h nodes rest
        else return false

/-- The nodes of a component in the order in which their rules are entered. -/
def nodeOrder (nodes : Array Node) (seed runSeed : Seed) : List Nat :=
  Seed.shuffle (Seed.hash (seed ^^^ nodeSalt) runSeed) (List.range nodes.size)

/-- The placement of a component by a node at `position`, relative to the entry it resolves. -/
def attach (entry : RuleEntry) (a : Attachment) (joint : Joint) (position : Pos) : Transform :=
  a.orientation.alignTo entry.orientation.adjacent joint * .shift (-position)

/-- What follows once the component has its context: its areas, then the rules of its nodes. -/
def populate (w : World μ) (c : Component) (h : Handle) (node : Nat) : SearchM μ Bool := do
  if ← placeAreas w h c.areas then
    assign w h
    let order := nodeOrder c.nodes (← context h).seed (← get).plan.seed
    enterNodes w h c.nodes (order.filter (· ≠ node))
  else return false

/-- Records a component in the plan. -/
def accept (id : ComponentId) (node : Nat) (h : Handle) : SearchM μ Unit := do
  let toWorld := (← context h).toWorld
  modifyPlan fun p => { p with placements := p.placements.push ⟨id, node, h, toWorld⟩ }

/-- Places a component. -/
def placeComponent (w : World μ) (id : ComponentId) (a : Attempt) : SearchM μ Bool := do
  let c ← w.grammar.component id
  let n ← Fault.lookup c.nodes a.attachment.node
  match ← evaluate fun arena => w.samplePos arena a.context n.position with
  | .error _ => return false
  | .ok position =>
    let placement := attach a.entry a.attachment (n.joint a.candidate.reflected) position
    let mark ← contextCount
    match ← enter w (some a.context) (.component id) placement with
    | .error _ => return false
    | .ok h =>
      if ← meets w h c.symbol.conditions then
        branchAt mark
        accept id a.attachment.node h
        if ← populate w c h a.attachment.node then return true
        else
          undo w
          return false
      else
        truncateContexts w mark
        return false

/-- Enters another rule in the place of an entry. -/
def replaceRule (w : World μ) (target : RuleId) (a : Attempt) : SearchM μ Bool := do
  branch
  if ← enterRule w target .zero a.entry.orientation (some a.context) then return true
  else
    undo w
    return false

/-- Carries an attempt out. -/
def attempt (w : World μ) (a : Attempt) : SearchM μ Bool := do
  let e ← w.grammar.expansion a.candidate.expansion
  match e.target with
  | .nothing => return true
  | .rule target => replaceRule w target a
  | .component id _ => placeComponent w id a

end VoxelGrammar.Search
