import VoxelGrammar.Proofs.Areas
import VoxelGrammar.Proofs.Handles
import VoxelGrammar.Proofs.WellFormed

/-!
How a component is placed. Its context is created first, where the alignment of its node with the entry
says; whatever it asks for beyond that is looked at in the new context. So the run of an attempt is
the creation of a context and what follows it.
-/

namespace VoxelGrammar

variable {μ α β ε : Type} {w : World μ} {s s' : Search μ}

/-- The latest context hands its assignments on. -/
theorem Arena.get_assign_push {a : Arena} (ha : a.Numbered) (x : Context) (symbol : Symbol) :
    ((a.push x).2.assign (a.push x).1 symbol).get (a.push x).1 = .ok (x.assign symbol) := by
  have numbered : ((a.push x).2.assign (a.push x).1 symbol).Numbered :=
    numbered_modify (numbered_push ha x) _ _
  rw [get_eq_ok_iff numbered, live_assign_push ha]
  simp

namespace Search

open SearchM

/-! ### Creating contexts -/

/-- The attempt at the cursor is taken up, and the one that follows it is in its place. -/
structure TakesUp (w : World μ) (s : Search μ) (t : Attempt) (s' : Search μ) : Prop where
  current : s.plan.queue[s.plan.cursor]? = some (some t)
  looked : ∃ following s₁, (next w t).run (counted s) = (.ok following, s₁) ∧
    s' = advanced following s₁

/-- Carried out in the state `s`, the attempt creates the context `x` for a component that it attaches by
the node `n`, which has the position `q` there. -/
structure Creates (w : World μ) (t : Attempt) (s : Search μ) (id : ComponentId) (c : Component)
    (n : Node) (q : Pos) (x : Context) : Prop where
  target : ∃ e name, w.grammar.expansion t.candidate.expansion = .ok e ∧ e.target = .component id name
  component : w.grammar.component id = .ok c
  node : c.nodes[t.attachment.node]? = some n
  position : ((w.samplePos s.arena t.context n.position).run s.memory).1 = .ok q
  prepared : s.arena.prepare w.grammar (some t.context) (.component id)
    (attach t.entry t.attachment (n.joint t.candidate.reflected) q) s.plan.seed = .ok x

/-- A component first gets its context. The answer is how many contexts there were before and the handle
of the new one, if there is one. -/
def createComponent (w : World μ) (id : ComponentId) (c : Component) (t : Attempt) :
    SearchM μ (Option (Nat × Handle)) := do
  let n ← Fault.lookup c.nodes t.attachment.node
  match ← evaluate fun arena => w.samplePos arena t.context n.position with
  | .error _ => return none
  | .ok position =>
    let placement := attach t.entry t.attachment (n.joint t.candidate.reflected) position
    let mark ← contextCount
    match ← enter w (some t.context) (.component id) placement with
    | .error _ => return none
    | .ok h => return some (mark, h)

def settleComponent (w : World μ) (id : ComponentId) (t : Attempt) (c : Component) (mark : Nat)
    (h : Handle) : SearchM μ Bool := do
  if ← meets w h c.symbol.conditions then
    branchAt mark
    accept id t.attachment.node h
    if ← populate w c h t.attachment.node then return true
    else
      undo w
      return false
  else
    truncateContexts w mark
    return false

theorem placeComponent_eq (id : ComponentId) (t : Attempt) :
    placeComponent w id t = (do
      let c ← w.grammar.component id
      match ← createComponent w id c t with
      | none => return false
      | some (mark, h) => settleComponent w id t c mark h) := by
  unfold placeComponent createComponent
  refine bind_congr fun c => ?_
  rw [bind_assoc]
  refine bind_congr fun n => ?_
  rw [bind_assoc]
  refine bind_congr fun position => ?_
  cases position with
  | error _ => rw [pure_bind]
  | ok position =>
      rw [bind_assoc]
      refine bind_congr fun mark => ?_
      rw [bind_assoc]
      refine bind_congr fun entered => ?_
      cases entered with
      | error _ => rw [pure_bind]
      | ok h =>
          rw [pure_bind]
          rfl

section

variable {t : Attempt} {id : ComponentId} {c : Component} {n : Node} {q : Pos} {x : Context}

/-- Carrying the attempt out creates a context for the component, and then settles it. -/
theorem run_attempt_component {e : Expansion} {name : Option String} {mark : Nat} {h : Handle}
    (expansion : w.grammar.expansion t.candidate.expansion = .ok e)
    (target : e.target = .component id name) (component : w.grammar.component id = .ok c)
    (created : (createComponent w id c t).run s = (.ok (some (mark, h)), s')) :
    (attempt w t).run s = (settleComponent w id t c mark h).run s' := by
  rw [attempt, run_bind, run_lift, expansion]
  dsimp only
  rw [target]
  dsimp only
  rw [placeComponent_eq, run_bind, run_lift, component]
  dsimp only
  rw [run_bind, created]

theorem Creates.run_create (creates : Creates w t s id c n q x) :
    (createComponent w id c t).run s =
      (.ok (some (s.arena.size, (s.arena.push x).1)),
        entered w x (evaluated (fun a => w.samplePos a t.context n.position) s)) := by
  obtain ⟨_, _, node, position, prepared⟩ := creates
  have found : Fault.lookup c.nodes t.attachment.node = .ok n := by
    rw [Fault.lookup, node]
  have there : (evaluated (fun a => w.samplePos a t.context n.position) s).arena.prepare w.grammar
      (some t.context) (.component id) (attach t.entry t.attachment (n.joint t.candidate.reflected) q)
      (evaluated (fun a => w.samplePos a t.context n.position) s).plan.seed = .ok x := prepared
  have enters : (enter w (some t.context) (.component id)
      (attach t.entry t.attachment (n.joint t.candidate.reflected) q)).run
        (evaluated (fun a => w.samplePos a t.context n.position) s) =
      (.ok (.ok (s.arena.push x).1),
        entered w x (evaluated (fun a => w.samplePos a t.context n.position) s)) := by
    simp only [enter, run_bind, run_get, Arena.create]
    rw [there]
    rfl
  rw [createComponent, run_bind, run_lift, found]
  dsimp only
  rw [run_bind, run_evaluate, position]
  dsimp only [settle]
  rw [run_bind, run_contextCount]
  dsimp only
  rw [run_bind, enters]
  rfl

/-- A context that is created for a component is one below that of the attempt. -/
theorem creates_of_run {e : Expansion} {name : Option String} {mark : Nat} {h : Handle}
    (expansion : w.grammar.expansion t.candidate.expansion = .ok e)
    (target : e.target = .component id name) (component : w.grammar.component id = .ok c)
    (created : (createComponent w id c t).run s = (.ok (some (mark, h)), s')) :
    ∃ n q x, Creates w t s id c n q x ∧ h = (s.arena.push x).1 ∧ s'.arena = (s.arena.push x).2 := by
  unfold createComponent at created
  obtain ⟨n, found, created⟩ := lift_bind_ok created
  obtain ⟨position, evaluates, created⟩ := evaluate_bind_ok created
  cases position with
  | error _ => cases created
  | ok q =>
      dsimp only at created
      rw [run_bind, run_contextCount] at created
      rcases enter_bind_ok created with ⟨_, refused⟩ | ⟨x, prepared, answers⟩
      · cases refused
      · cases answers
        exact ⟨n, q, x, ⟨⟨e, name, expansion, target⟩, component, Fault.lookup_eq_ok_iff.1 found,
          evaluates, prepared⟩, rfl, rfl⟩

/-- An attempt to place a component does not succeed without a context. -/
theorem created_of_attempt {e : Expansion} {name : Option String}
    (expansion : w.grammar.expansion t.candidate.expansion = .ok e)
    (target : e.target = .component id name) (component : w.grammar.component id = .ok c)
    (attempted : (attempt w t).run s = (.ok true, s')) :
    ∃ mark h s₁, (createComponent w id c t).run s = (.ok (some (mark, h)), s₁) := by
  rw [attempt, run_bind, run_lift, expansion] at attempted
  dsimp only at attempted
  rw [target] at attempted
  dsimp only at attempted
  rw [placeComponent_eq, run_bind, run_lift, component] at attempted
  obtain ⟨created, s₁, run, rest⟩ := bind_ok attempted
  cases created with
  | none => cases rest
  | some made => exact ⟨made.1, made.2, s₁, run⟩

/-- An attempt comes to the state in which it has just entered the context that it creates. -/
theorem Creates.run_attempt (creates : Creates w t s id c n q x) :
    (attempt w t).run s =
      (settleComponent w id t c s.arena.size (s.arena.push x).1).run
        (entered w x (evaluated (fun a => w.samplePos a t.context n.position) s)) := by
  obtain ⟨e, name, expansion, target⟩ := creates.target
  exact run_attempt_component expansion target creates.component creates.run_create

end

/-! ### Carrying attempts out -/

/-- What follows an answer goes on from there. -/
theorem run_bind_of_ok {x : SearchM μ α} {f : α → SearchM μ β} {a : α} (hx : x.run s = (.ok a, s')) :
    (x >>= f).run s = (f a).run s' := by
  rw [run_bind, hx]

theorem assign_live {h : Handle} {x : Context} {symbol : Symbol} (hx : s.arena.get h = .ok x)
    (hs : w.grammar.symbol x.symbol = .ok symbol) :
    (assign w h).run s = (.ok (), assigned h symbol s) := by
  simp only [assign, run_bind, run_context, hx, run_lift, hs]
  rfl

/-- A step that gets on in the queue has carried the attempt at the cursor out. -/
theorem step_carries {limits : Limits} {t : Attempt} {r : Option (Except SearchFailure Unit)}
    (numbered : s.arena.Numbered) (current : s.plan.queue[s.plan.cursor]? = some (some t))
    (run : (step w limits).run s = (.ok r, s')) (moved : s'.plan.cursor ≠ s.plan.cursor) :
    ∃ s₁ s₂, TakesUp w s t s₁ ∧ (attempt w t).run s₁ = (.ok true, s₂) ∧ s' = passed s₂ := by
  rw [run_step, current] at run
  dsimp only at run
  split at run
  · cases run
    exact absurd rfl moved
  · obtain ⟨_, s'', resolved, rest⟩ := bind_ok run
    cases rest
    obtain ⟨following, s₁, done, s₂, looked, attempted, rfl⟩ := resolve_tries resolved
    have takes : TakesUp w s t (advanced following s₁) := ⟨current, following, s₁, looked, rfl⟩
    cases done with
    | true => exact ⟨_, s₂, takes, attempted, rfl⟩
    | false =>
        have numbered' : (advanced following s₁).arena.Numbered :=
          (next_grows (s := counted s) numbered (Nat.le_refl _) looked).1.numbered
        have same : s₂.plan = _ := (attempt_false numbered' attempted).plan
        refine absurd ?_ moved
        show s₂.plan.cursor = _
        rw [same, advanced_plan (s := counted s) numbered looked]
        rfl

/-- Nothing is entered where another attempt is at hand or no candidate is left. -/
theorem TakesUp.arena_eq {t : Attempt} (takes : TakesUp w s t s')
    (simple : t.alternatives ≠ [] ∨ t.later = []) : s'.arena = s.arena := by
  obtain ⟨following, s₁, looked, rfl⟩ := takes.looked
  unfold next at looked
  split at looked
  · cases looked
    rfl
  · next nothing =>
    rw [simple.resolve_left (fun h => h nothing)] at looked
    cases looked
    rfl

/-- An attempt at the last entry of the queue that gets on by a rule hands over to that rule. -/
theorem step_hands_over {limits : Limits} {t : Attempt} {r : Option (Except SearchFailure Unit)}
    {e : Expansion} {id : RuleId} (numbered : s.arena.Numbered)
    (current : s.plan.queue[s.plan.cursor]? = some (some t))
    (expansion : w.grammar.expansion t.candidate.expansion = .ok e) (target : e.target = .rule id)
    (run : (step w limits).run s = (.ok r, s')) (moved : s'.plan.cursor ≠ s.plan.cursor)
    (last : s.plan.queue.size = s.plan.cursor + 1) :
    ∃ s₁ s₂ rule x u, TakesUp w s t s₁ ∧
      EntersRule w id .zero t.entry.orientation (some t.context) (branched s₁.arena.size s₁) rule x u
        s₂ ∧ s'.plan.queue[s'.plan.cursor]? = some (some u) := by
  obtain ⟨s₁, s₂, takes, attempted, rfl⟩ := step_carries numbered current run moved
  obtain ⟨following, s₀, looked, rfl⟩ := takes.looked
  have numbered' : (advanced following s₀).arena.Numbered :=
    (next_grows (s := counted s) numbered (Nat.le_refl _) looked).1.numbered
  have plan := advanced_plan (s := counted s) numbered looked
  obtain ⟨e', he', carries⟩ := attempt_true numbered' attempted
  cases expansion.symm.trans he'
  cases carries with
  | nothing nowhere => cases target.symm.trans nowhere
  | component elsewhere => cases target.symm.trans elsewhere
  | @rule _ rule x u there enters =>
      cases target.symm.trans there
      refine ⟨_, s₂, rule, x, u, takes, enters, ?_⟩
      obtain ⟨q, queued, left⟩ := enters.queued
      have size : (advanced following s₀).plan.queue.size = (advanced following s₀).plan.cursor + 1 := by
        rw [plan]
        exact Array.size_setIfInBounds.trans last
      show s₂.plan.queue[s₂.plan.cursor + 1]? = _
      rw [left]
      exact queued.next size

/-! ### A lodge -/

instance {P : α → Prop} [DecidablePred P] (x : Except ε α) : Decidable (Succeeds P x) :=
  match x with
  | .ok v => decidable_of_iff (P v) ⟨.ok, fun ⟨_, h, hv⟩ => Except.ok.inj h ▸ hv⟩
  | .error _ => isFalse fun ⟨_, h, _⟩ => nomatch h

/-- A lodge is a yard without anything in it, placed as in a mirror. It has a block beside its door, and
another one is given an empty list of positions. -/
def lodge : Draft :=
  .ofStatements
    [.rule "lodge", .component "yard", .constant (.float3 ⟨0, 0, 0⟩), .constant (.block 5),
      .node 0 "door" 0 (.facing .posX .posY) none, .nodePragma 0 0 "allowRotation" (.flag false),
      .fillPositions 0 1 [⟨1, 0, 0⟩] (some 0), .fillPositions 0 1 [] (some 0), .localPosition,
      .toComponent 0 0 (some "door") true]

theorem built_lodge : lodge.compile.Built True :=
  Draft.built_ofStatements (by decide +kernel) (by decide +kernel)

/-- The yard of a lodge is placed, and that is all there is to it. -/
theorem lodge_found :
    let world := World.remembering lodge.compile .none
    let fresh := Search.new (.ofCache (.new 0 .standard))
    ∃ found x y z, Underway world fresh found ∧
      (do setup world 0 .zero 7; process world ⟨10, 10⟩).run fresh = (.ok (.ok ()), found) ∧
      found.plan.solved = true ∧
      (found.arena.get ⟨0, 0⟩ = .ok x ∧ x.symbol = .rule 0 ∧ x.parent = none) ∧
      (found.arena.get ⟨1, 0⟩ = .ok y ∧ y.symbol = .expansion 0 ∧ y.parent = some ⟨0, 0⟩) ∧
      (found.arena.get ⟨2, 0⟩ = .ok z ∧ z.symbol = .component 0 ∧ z.parent = some ⟨1, 0⟩) ∧
      found.plan.placements.toList = [⟨0, 0, ⟨2, 0⟩, z.toWorld⟩] := by
  intro world fresh
  have used : Used world fresh := .new Cache.standardDraws 0 .standard
  have same := search_forgotten built_lodge.marked (used.trusted built_lodge) ⟨10, 10⟩ 0 .zero 7
  let found := ((do setup world 0 .zero 7; process world ⟨10, 10⟩ : SearchM Memory _).run fresh).2
  let left := ((do setup world.forgetful 0 .zero 7; process world.forgetful ⟨10, 10⟩ :
    SearchM Unit _).run fresh.forgotten).2
  have run : (do setup world 0 .zero 7; process world ⟨10, 10⟩).run fresh = (.ok (.ok ()), found) :=
    Prod.ext (same.1.eq.trans (by decide +kernel)) rfl
  obtain ⟨x, hx, ⟨top, root⟩, y, hy, ⟨below, expansion⟩, z, hz, ⟨yard, component⟩, solved,
      placements⟩ : Succeeds (fun x => (x.symbol = .rule 0 ∧ x.parent = none) ∧
    Succeeds (fun y => (y.symbol = .expansion 0 ∧ y.parent = some ⟨0, 0⟩) ∧
      Succeeds (fun z => (z.symbol = .component 0 ∧ z.parent = some ⟨1, 0⟩) ∧
        left.plan.solved = true ∧ left.plan.placements.toList = [⟨0, 0, ⟨2, 0⟩, z.toWorld⟩])
        (left.arena.get ⟨2, 0⟩)) (left.arena.get ⟨1, 0⟩)) (left.arena.get ⟨0, 0⟩) := by
    decide +kernel
  have plan : left.plan = found.plan := same.2.plan_eq
  rw [plan] at solved placements
  exact ⟨found, x, y, z, .search run, run, solved, ⟨same.2.get_ok hx, top, root⟩,
    ⟨same.2.get_ok hy, below, expansion⟩, ⟨same.2.get_ok hz, yard, component⟩, placements⟩

end Search

end VoxelGrammar
