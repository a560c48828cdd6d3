import VoxelGrammar.Grammar.Compile
import VoxelGrammar.Settlement.Terrain

/-!
A small settlement: a plaza where the ground is level enough, streets that grow out of it, houses
along the streets and trees at the corners of the plaza. A road hands the depth of its street on,
increased by one, and a street of full depth is not entered; so streets end.
-/

namespace VoxelGrammar.Settlement

/-- The name of the rule that a settlement grows from. -/
def entryRule : String := "settlement"

/-- Streets end at this depth. -/
def streetDepth : Float32 := 4

def stone : Block := 2

def planks : Block := 3

def cobble : Block := 4

def glass : Block := 5

def logs : Block := 6

def leaves : Block := 7

def level (forward : Facing) : Orientation := .facing forward .posY

def ratio (symbol : SymbolRef) (value : Float32) : Drafting Unit :=
  Draft.pragma symbol Pragma.probabilityRatio.name (.number (.ofFloat value))

def noRotation (component : ComponentId) (node : Nat) : Drafting Unit :=
  Draft.nodePragma component node Pragma.allowRotation.name (.flag false)

/-- An area of the name that keeps the parts of a settlement apart. -/
def lot (component : ComponentId) (start stop : Pos) : Drafting Unit := do
  let start ← Draft.position start
  let stop ← Draft.position stop
  Draft.area component "lot" start stop .mustNot false

def fillBox (component : ComponentId) (block : FieldId) (start stop : Pos) : Drafting Unit := do
  let start ← Draft.position start
  let stop ← Draft.position stop
  Draft.fillBox component block start (some stop)

/-- The world position is at most four blocks above or below the ground. -/
def onSurface : Drafting FieldId := do
  let world ← Draft.worldPosition
  let y ← Draft.axis world .y
  let height ← Draft.external terrainHeight .float
  let tolerance ← Draft.float 4
  let low ← Draft.arithmetic .sub height tolerance
  let high ← Draft.arithmetic .add height tolerance
  let aboveLow ← Draft.compare .ge y low
  let belowHigh ← Draft.compare .le y high
  Draft.and aboveLow belowHigh

def statements : Drafting Unit := do
  let settlement ← Draft.rule entryRule
  let street ← Draft.rule "street"
  let alley ← Draft.rule "alley"
  let grove ← Draft.rule "grove"
  let plaza ← Draft.component "plaza"
  let road ← Draft.component "road"
  let house ← Draft.component "house"
  let tree ← Draft.component "tree"
  let origin ← Draft.position .zero

  -- the plaza, with four streets and four corners
  Draft.condition (.component plaza) (← onSurface)
  let _ ← Draft.node plaza "center" origin .unspecified none
  for (p, forward) in [((⟨4, 0, 0⟩ : Pos), Facing.posX), (⟨-4, 0, 0⟩, .negX), (⟨0, 0, 4⟩, .posZ),
      (⟨0, 0, -4⟩, .negZ)] do
    let p ← Draft.position p
    let _ ← Draft.node plaza "exit" p (level forward) (some street)
  for p in [(⟨6, 0, 6⟩ : Pos), ⟨-6, 0, 6⟩, ⟨6, 0, -6⟩, ⟨-6, 0, -6⟩] do
    let p ← Draft.position p
    let _ ← Draft.node plaza "corner" p .unspecified (some grove)
  let cobbles ← Draft.block cobble
  let stones ← Draft.block stone
  fillBox plaza cobbles ⟨-3, -1, -3⟩ ⟨3, -1, 3⟩
  Draft.fillPositions plaza stones
    [⟨-1, 0, -1⟩, ⟨0, 0, -1⟩, ⟨1, 0, -1⟩, ⟨-1, 0, 0⟩, ⟨1, 0, 0⟩, ⟨-1, 0, 1⟩, ⟨0, 0, 1⟩,
      ⟨1, 0, 1⟩] none
  lot plaza ⟨-3, -1, -3⟩ ⟨3, 3, 3⟩
  let _ ← Draft.toComponent settlement plaza (some "center") false

  -- a street is a road, a house or nothing
  let surface ← Draft.float 0
  let depth ← Draft.param (.rule street) "depth" .float (some surface)
  let deepest ← Draft.float streetDepth
  Draft.condition (.rule street) (← Draft.compare .lt depth deepest)
  Draft.pragma (.rule street) Pragma.depthFirstProbability.name (.number (.ofFloat 0.25))
  ratio (.expansion (← Draft.toComponent street road (some "start") false)) 300
  let _ ← Draft.toComponent street house (some "door") false
  let _ ← Draft.toNothing street

  -- a road leads on to a street and has an alley on either side
  let depth ← Draft.param (.component road) "depth" .float (some surface)
  let one ← Draft.float 1
  Draft.assign (.component road) "depth" (← Draft.arithmetic .add depth one)
  noRotation road (← Draft.node road "start" origin (level .negZ) none)
  let stop ← Draft.position ⟨0, 0, 6⟩
  let _ ← Draft.node road "end" stop (level .posZ) (some street)
  let left ← Draft.position ⟨2, 0, 3⟩
  let _ ← Draft.node road "side" left (level .posX) (some alley)
  let right ← Draft.position ⟨-2, 0, 3⟩
  let _ ← Draft.node road "side" right (level .negX) (some alley)
  fillBox road stones ⟨-1, -1, 0⟩ ⟨1, -1, 5⟩
  lot road ⟨-1, -1, 0⟩ ⟨1, 2, 5⟩
  let _ ← Draft.toComponent alley house (some "door") false
  ratio (.expansion (← Draft.toComponent alley house (some "door") true)) 50
  let _ ← Draft.toNothing alley

  -- a house stands behind its door, and some are never built
  let chance ← Draft.contextRandom 77
  let threshold ← Draft.float 0.85
  Draft.condition (.component house) (← Draft.compare .lt chance threshold)
  noRotation house (← Draft.node house "door" origin (level .negZ) none)
  let grain ← Draft.blockRandom 3
  let mossy ← Draft.float 0.2
  let isMossy ← Draft.compare .lt grain mossy
  let boards ← Draft.block planks
  let wall ← Draft.select isMossy cobbles boards
  fillBox house wall ⟨-2, 0, 1⟩ ⟨2, 3, 5⟩
  let air ← Draft.block Block.air
  fillBox house air ⟨-1, 0, 2⟩ ⟨1, 2, 4⟩
  let panes ← Draft.block glass
  Draft.fillPositions house panes [⟨-2, 1, 3⟩, ⟨2, 1, 3⟩] none
  let doorway ← Draft.position ⟨0, 0, 1⟩
  Draft.fillPositions house air [.zero, ⟨0, 1, 0⟩] (some doorway)
  let beams ← Draft.block logs
  fillBox house beams ⟨-2, 4, 1⟩ ⟨2, 4, 5⟩
  lot house ⟨-2, 0, 1⟩ ⟨2, 4, 5⟩

  -- trees keep off the lots
  let _ ← Draft.toComponent grove tree none false
  let _ ← Draft.toNothing grove
  let _ ← Draft.node tree "root" origin .unspecified none
  let rustle ← Draft.blockRandom 11
  let dense ← Draft.float 0.7
  let hasLeaf ← Draft.compare .lt rustle dense
  let foliage ← Draft.block leaves
  let nothing ← Draft.block Block.undefined
  let crown ← Draft.select hasLeaf foliage nothing
  fillBox tree crown ⟨-2, 3, -2⟩ ⟨2, 5, 2⟩
  fillBox tree beams .zero ⟨0, 4, 0⟩
  lot tree ⟨-2, 0, -2⟩ ⟨2, 5, 2⟩

/-- The grammar of settlements. -/
def grammar : Grammar :=
  match statements.grammar with
  | .ok (.ok g) => g
  | _ => ⟨#[], #[], #[], #[], []⟩

end VoxelGrammar.Settlement
