import VoxelGrammar.Search.State

/-!
The attempts of an entry, in their order. The candidates of the rule follow their tiers; a
candidate that cannot be entered is skipped, one that places a component has an attempt for each
way to attach it, in an order drawn from the seed of its context, and any other has one attempt.
-/

namespace VoxelGrammar

/-- The orientations a node can be attached in. -/
def Node.orientations (n : Node) : List Orientation :=
  let o := n.orientation
  if o.isSpecified && n.allowRotation then [o, o.turn, o.turn.turn, o.turn.turn.turn] else [o]

/-- All ways to attach a component by nodes of that name. -/
def Component.attachments (c : Component) (name : Option String) : List Attachment :=
  (c.nodes.toList.zipIdx.filter fun n => name.all (n.1.name == ·)).flatMap fun n =>
    n.1.orientations.map (⟨n.2, ·⟩)

namespace Search

/-- Tells the order of candidates from other decisions. -/
def candidateSalt : UInt32 := 13713

/-- Tells exploring an entry at once from other decisions. -/
def depthFirstSalt : UInt32 := 136841

/-- Tells the order of attachments from other decisions. -/
def attachmentSalt : UInt32 := 16512

/-- Tells the order of nodes from other decisions. -/
def nodeSalt : UInt32 := 1531

/-- The attempt of an expansion that places no component. -/
def inPlace : Attachment := ⟨0, .unspecified⟩

/-- All conditions hold; one that cannot be evaluated does not. -/
def meets (w : World μ) (h : Handle) (conditions : List FieldId) : SearchM μ Bool := do
  match ← evaluate fun a => w.holds a h conditions with
  | .ok b => return b
  | .error _ => return false

/-- The attachments that a target offers, before they are put into order. -/
def offered (w : World μ) : Target → Except Fault (List Attachment)
  | .component id name => return (← w.grammar.component id).attachments name
  | .nothing => .ok [inPlace]
  | .rule _ => .ok [inPlace]

/-- The attachments in the order in which they are tried. -/
def ordered (target : Target) (seed : Seed) (attachments : List Attachment) : List Attachment :=
  match target with
  | .component _ _ => Seed.shuffle (Seed.hash attachmentSalt seed) attachments
  | _ => attachments

/-- The first attempt of a candidate, if its expansion can be entered. -/
def openCandidate (w : World μ) (entry : RuleEntry) (c : Candidate) (later : List Candidate) :
    SearchM μ (Option Attempt) := do
  let e ← w.grammar.expansion c.expansion
  let mark ← contextCount
  match ← enter w (some entry.context) (.expansion c.expansion) .identity with
  | .error _ => return none
  | .ok h =>
    if ← meets w h e.symbol.conditions then
      match ordered e.target (← context h).seed (← offered w e.target) with
      | [] =>
        truncateContexts w mark
        return none
      | a :: alternatives =>
        assign w h
        return some ⟨entry, c, h, a, alternatives, later⟩
    else
      truncateContexts w mark
      return none

/-- The first attempt of a list of candidates. -/
def openFirst (w : World μ) (entry : RuleEntry) : List Candidate → SearchM μ (Option Attempt)
  | [] => return none
  | c :: later => do
    match ← openCandidate w entry c later with
    | some a => return some a
    | none => openFirst w entry later

/-- The attempt after another one of the same entry. -/
def next (w : World μ) (a : Attempt) : SearchM μ (Option Attempt) :=
  match a.alternatives with
  | b :: rest => return some { a with attachment := b, alternatives := rest }
  | [] => openFirst w a.entry a.later

end Search

end VoxelGrammar
