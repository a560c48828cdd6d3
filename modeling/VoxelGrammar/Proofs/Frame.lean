import VoxelGrammar.Search.Run

/-!
What holds of all that a search does because it holds of the few things it is made of: looking things
up and evaluating, entering and dropping contexts, handing assignments on, and changing the plan. What
holds may relate the searches of two worlds, abreast of each other; a property of the searches of one
world is the case in which both are the same. Looking for an attempt, entering a rule and filling a
component take the least: they do not count attempts, place a component, or open or undo a branch.
-/

namespace VoxelGrammar

variable {μ : Type}

/-- A relation between the computations of two worlds that passes from their parts to the whole. The
state may be looked at, its count of attempts aside; of the plan, the areas and the queue may be
changed. -/
structure Abreast (w v : World μ) (R : ∀ {α : Type}, SearchM μ α → SearchM μ α → Prop) : Prop where
  pure : ∀ {α : Type} (a : α), R (Pure.pure a : SearchM μ α) (Pure.pure a)
  throw : ∀ {α : Type} (e : Fault), R (MonadExcept.throw e : SearchM μ α) (MonadExcept.throw e)
  lift : ∀ {α : Type} (x : Except Fault α), R (liftM x : SearchM μ α) (liftM x)
  bind : ∀ {α β : Type} {x y : SearchM μ α} {f g : α → SearchM μ β}, R x y → (∀ a, R (f a) (g a)) →
    R (x >>= f) (y >>= g)
  get_bind : ∀ {β : Type} {f g : Search μ → SearchM μ β},
    (∀ s n, f { s with plan := { s.plan with expansions := n } } = f s) →
    (∀ s n, g { s with plan := { s.plan with expansions := n } } = g s) → (∀ s, R (f s) (g s)) →
      R (get >>= f) (get >>= g)
  rule : ∀ id, R (liftM (w.grammar.rule id) : SearchM μ Rule) (liftM (v.grammar.rule id))
  expansion : ∀ id,
    R (liftM (w.grammar.expansion id) : SearchM μ Expansion) (liftM (v.grammar.expansion id))
  component : ∀ id,
    R (liftM (w.grammar.component id) : SearchM μ Component) (liftM (v.grammar.component id))
  symbol : ∀ ref,
    R (liftM (w.grammar.symbol ref) : SearchM μ Symbol) (liftM (v.grammar.symbol ref))
  holds : ∀ h cs, R (Search.evaluate fun a => w.holds a h cs) (Search.evaluate fun a => v.holds a h cs)
  samplePos : ∀ h id,
    R (Search.evaluate fun a => w.samplePos a h id) (Search.evaluate fun a => v.samplePos a h id)
  areaOf : ∀ h spec, R (Search.evaluate fun a => Search.areaOf w a h spec)
    (Search.evaluate fun a => Search.areaOf v a h spec)
  enter : ∀ parent ref placement,
    R (Search.enter w parent ref placement) (Search.enter v parent ref placement)
  truncateContexts : ∀ n, R (Search.truncateContexts w n) (Search.truncateContexts v n)
  /-- The assignments of a symbol may be handed on. -/
  hand : ∀ (h : Handle) (symbol : Symbol),
    R (modify fun s : Search μ => { s with arena := s.arena.assign h symbol } : SearchM μ Unit)
      (modify fun s => { s with arena := s.arena.assign h symbol })
  redraw : ∀ (areas : Array Area → Array Area) (queue : Nat → Queue → Queue),
    R (Search.modifyPlan fun p =>
        { p with areas := areas p.areas, queue := queue p.cursor p.queue } : SearchM μ Unit)
      (Search.modifyPlan fun p =>
        { p with areas := areas p.areas, queue := queue p.cursor p.queue })

/-- The same where of the plan everything may be changed but for the count of attempts. -/
structure Abreast.Branching (w v : World μ)
    (R : ∀ {α : Type}, SearchM μ α → SearchM μ α → Prop) : Prop extends Abreast w v R where
  replan : ∀ f : Plan → Plan,
    (∀ p n, f { p with expansions := n } = { f p with expansions := n }) →
      R (Search.modifyPlan f : SearchM μ Unit) (Search.modifyPlan f)

/-- The same where the state may be looked at and the plan changed without restriction, and the search
may start over. -/
structure Abreast.Free (w v : World μ) (R : ∀ {α : Type}, SearchM μ α → SearchM μ α → Prop) :
    Prop extends Abreast.Branching w v R where
  look_bind : ∀ {β : Type} {f g : Search μ → SearchM μ β}, (∀ s, R (f s) (g s)) →
    R (get >>= f) (get >>= g)
  modifyPlan : ∀ f : Plan → Plan, R (Search.modifyPlan f : SearchM μ Unit) (Search.modifyPlan f)
  reset : ∀ origin seed, R (Search.reset w origin seed) (Search.reset v origin seed)

namespace Abreast

variable {w v : World μ} {R : ∀ {α : Type}, SearchM μ α → SearchM μ α → Prop}

section

variable (abreast : Abreast w v R)

include abreast

theorem context (h : Handle) : R (Search.context h : SearchM μ Context) (Search.context h) :=
  abreast.get_bind (fun _ _ => rfl) (fun _ _ => rfl) fun _ => abreast.lift _

theorem contextCount : R (Search.contextCount : SearchM μ Nat) Search.contextCount :=
  abreast.get_bind (fun _ _ => rfl) (fun _ _ => rfl) fun _ => abreast.pure _

theorem assign (h : Handle) : R (Search.assign w h) (Search.assign v h) :=
  abreast.bind (abreast.context h) fun x => abreast.bind (abreast.symbol x.symbol) fun symbol =>
    abreast.hand h symbol

theorem meets (h : Handle) (cs : List FieldId) : R (Search.meets w h cs) (Search.meets v h cs) := by
  refine abreast.bind (abreast.holds h cs) fun r => ?_
  cases r <;> exact abreast.pure _

theorem offered (target : Target) : R (liftM (Search.offered w target) : SearchM μ (List Attachment))
    (liftM (Search.offered v target)) := by
  cases target with
  | nothing => exact abreast.lift _
  | rule id => exact abreast.lift _
  | component id name =>
      have split : ∀ u : World μ,
          (liftM (Search.offered u (.component id name)) : SearchM μ (List Attachment)) =
            liftM (u.grammar.component id) >>= fun c => Pure.pure (c.attachments name) := by
        intro u
        have offers : Search.offered u (.component id name) =
            u.grammar.component id >>= fun c => Pure.pure (c.attachments name) := rfl
        rw [offers]
        cases u.grammar.component id <;> rfl
      rw [split, split]
      exact abreast.bind (abreast.component id) fun c => abreast.pure _

theorem openCandidate (entry : RuleEntry) (c : Candidate) (later : List Candidate) :
    R (Search.openCandidate w entry c later) (Search.openCandidate v entry c later) := by
  refine abreast.bind (abreast.expansion _) fun e => abreast.bind abreast.contextCount fun mark =>
    abreast.bind (abreast.enter _ _ _) fun r => ?_
  cases r with
  | error e => exact abreast.pure _
  | ok h =>
      refine abreast.bind (abreast.meets h _) fun b => ?_
      cases b with
      | false => exact abreast.bind (abreast.truncateContexts _) fun _ => abreast.pure _
      | true =>
          refine abreast.bind (abreast.context h) fun x =>
            abreast.bind (abreast.offered e.target) fun offers => ?_
          split
          · exact abreast.bind (abreast.truncateContexts _) fun _ => abreast.pure _
          · exact abreast.bind (abreast.assign h) fun _ => abreast.pure _

theorem openFirst (entry : RuleEntry) (cs : List Candidate) :
    R (Search.openFirst w entry cs) (Search.openFirst v entry cs) := by
  induction cs with
  | nil => exact abreast.pure _
  | cons c later ih =>
      refine abreast.bind (abreast.openCandidate entry c later) fun a => ?_
      cases a with
      | none => exact ih
      | some a => exact abreast.pure _

theorem next (a : Attempt) : R (Search.next w a) (Search.next v a) := by
  unfold Search.next
  split
  · exact abreast.pure _
  · exact abreast.openFirst _ _

theorem enqueue (atOnce : Bool) (a : Attempt) :
    R (Search.enqueue atOnce a : SearchM μ Unit) (Search.enqueue atOnce a) := by
  refine abreast.get_bind (fun _ _ => rfl) (fun _ _ => rfl) fun s => ?_
  dsimp only
  split
  · split
    · exact abreast.redraw id fun cursor q => q.insertIdxIfInBounds (cursor + 1) (some a)
    · exact abreast.throw _
  · exact abreast.redraw id fun _ q => q.push (some a)

theorem enterRule (id : RuleId) (origin : Pos) (orientation : Orientation)
    (parent : Option Handle) : R (Search.enterRule w id origin orientation parent)
      (Search.enterRule v id origin orientation parent) := by
  refine abreast.bind (abreast.rule id) fun r => abreast.bind abreast.contextCount fun mark =>
    abreast.bind (abreast.enter _ _ _) fun h => ?_
  cases h with
  | error e => exact abreast.pure _
  | ok h =>
      refine abreast.bind (abreast.meets h _) fun b => ?_
      cases b with
      | false => exact abreast.bind (abreast.truncateContexts _) fun _ => abreast.pure _
      | true =>
          refine abreast.bind (abreast.context h) fun x => ?_
          dsimp only
          split
          · exact abreast.bind (abreast.truncateContexts _) fun _ => abreast.pure _
          · refine abreast.bind (abreast.assign h) fun _ =>
              abreast.bind (abreast.openFirst _ _) fun first => ?_
            cases first with
            | none => exact abreast.bind (abreast.truncateContexts _) fun _ => abreast.pure _
            | some a => exact abreast.bind (abreast.enqueue _ a) fun _ => abreast.pure _

theorem placeAreas (h : Handle) (specs : List AreaSpec) :
    R (Search.placeAreas w h specs) (Search.placeAreas v h specs) := by
  induction specs with
  | nil => exact abreast.pure _
  | cons spec rest ih =>
      refine abreast.bind (abreast.areaOf h spec) fun r => ?_
      cases r with
      | error e => exact abreast.pure _
      | ok area =>
          refine abreast.get_bind (fun _ _ => rfl) (fun _ _ => rfl) fun s => ?_
          dsimp only
          split
          · split
            · exact ih
            · exact abreast.bind (abreast.redraw (·.push area) fun _ q => q) fun _ => ih
          · exact abreast.pure _

theorem enterNodes (h : Handle) (nodes : Array Node) (is : List Nat) :
    R (Search.enterNodes w h nodes is) (Search.enterNodes v h nodes is) := by
  induction is with
  | nil => exact abreast.pure _
  | cons i rest ih =>
      refine abreast.bind (abreast.lift _) fun n => ?_
      split
      · exact ih
      · refine abreast.bind (abreast.samplePos h n.position) fun p => ?_
        cases p with
        | error e => exact abreast.pure _
        | ok p =>
            refine abreast.bind (abreast.enterRule _ _ _ _) fun entered => ?_
            cases entered with
            | false => exact abreast.pure _
            | true => exact ih

theorem populate (c : Component) (h : Handle) (node : Nat) :
    R (Search.populate w c h node) (Search.populate v c h node) := by
  refine abreast.bind (abreast.placeAreas h _) fun placed => ?_
  cases placed with
  | false => exact abreast.pure _
  | true =>
      exact abreast.bind (abreast.assign h) fun _ => abreast.bind (abreast.context h) fun x =>
        abreast.get_bind (fun _ _ => rfl) (fun _ _ => rfl) fun s => abreast.enterNodes h _ _

end

namespace Branching

variable (abreast : Branching w v R)

include abreast

theorem branchAt (n : Nat) : R (Search.branchAt n : SearchM μ Unit) (Search.branchAt n) :=
  abreast.replan _ fun _ _ => rfl

theorem branch : R (Search.branch : SearchM μ Unit) Search.branch :=
  abreast.bind abreast.contextCount fun n => abreast.branchAt n

theorem undo : R (Search.undo w) (Search.undo v) := by
  refine abreast.get_bind (fun _ _ => rfl) (fun _ _ => rfl) fun s => ?_
  cases s.plan.checkpoints with
  | nil => exact abreast.throw _
  | cons c rest =>
      exact abreast.bind (abreast.truncateContexts _) fun _ => abreast.replan _ fun _ _ => rfl

theorem accept (id : ComponentId) (node : Nat) (h : Handle) :
    R (Search.accept id node h : SearchM μ Unit) (Search.accept id node h) :=
  abreast.bind (abreast.context h) fun _ => abreast.replan _ fun _ _ => rfl

theorem placeComponent (id : ComponentId) (a : Attempt) :
    R (Search.placeComponent w id a) (Search.placeComponent v id a) := by
  refine abreast.bind (abreast.component id) fun c => abreast.bind (abreast.lift _) fun n =>
    abreast.bind (abreast.samplePos a.context n.position) fun p => ?_
  cases p with
  | error e => exact abreast.pure _
  | ok p =>
      refine abreast.bind abreast.contextCount fun mark =>
        abreast.bind (abreast.enter _ _ _) fun e => ?_
      cases e with
      | error e => exact abreast.pure _
      | ok h =>
          refine abreast.bind (abreast.meets h _) fun b => ?_
          cases b with
          | false => exact abreast.bind (abreast.truncateContexts _) fun _ => abreast.pure _
          | true =>
              refine abreast.bind (abreast.branchAt mark) fun _ =>
                abreast.bind (abreast.accept _ _ _) fun _ =>
                  abreast.bind (abreast.populate c h _) fun populated => ?_
              cases populated with
              | false => exact abreast.bind abreast.undo fun _ => abreast.pure _
              | true => exact abreast.pure _

theorem replaceRule (target : RuleId) (a : Attempt) :
    R (Search.replaceRule w target a) (Search.replaceRule v target a) := by
  refine abreast.bind abreast.branch fun _ => abreast.bind (abreast.enterRule _ _ _ _) fun entered => ?_
  cases entered with
  | false => exact abreast.bind abreast.undo fun _ => abreast.pure _
  | true => exact abreast.pure _

theorem attempt (a : Attempt) : R (Search.attempt w a) (Search.attempt v a) := by
  refine abreast.bind (abreast.expansion _) fun e => ?_
  split
  · exact abreast.pure _
  · exact abreast.replaceRule _ a
  · exact abreast.placeComponent _ a

end Branching

namespace Free

variable (abreast : Free w v R)

include abreast

theorem resolve (entry : Option Attempt) : R (Search.resolve w entry) (Search.resolve v entry) := by
  cases entry with
  | none => exact abreast.undo
  | some a =>
      refine abreast.bind (abreast.next a) fun following => abreast.bind (abreast.modifyPlan _)
        fun _ => abreast.bind (abreast.attempt a) fun done => ?_
      cases done with
      | false => exact abreast.pure _
      | true => exact abreast.modifyPlan fun p => { p with cursor := p.cursor + 1 }

theorem step (limits : Limits) : R (Search.step w limits) (Search.step v limits) := by
  refine abreast.look_bind fun s => ?_
  dsimp only
  split
  · split
    · exact abreast.pure _
    · exact abreast.bind (abreast.modifyPlan _) fun _ => abreast.pure _
  · refine abreast.bind (abreast.modifyPlan _) fun _ => abreast.look_bind fun s => ?_
    split
    · exact abreast.pure _
    · exact abreast.bind (abreast.resolve _) fun _ => abreast.pure _

theorem steps (limits : Limits) (n : Nat) :
    R (Search.steps w limits n) (Search.steps v limits n) := by
  induction n with
  | zero => exact abreast.pure _
  | succ n ih =>
      refine abreast.bind (abreast.step limits) fun result => ?_
      cases result with
      | none => exact ih
      | some result => exact abreast.pure _

theorem process (limits : Limits) : R (Search.process w limits) (Search.process v limits) :=
  abreast.steps limits _

theorem setup (rule : RuleId) (origin : Pos) (seed : Seed) :
    R (Search.setup w rule origin seed) (Search.setup v rule origin seed) :=
  abreast.bind (abreast.reset origin seed) fun _ => abreast.bind abreast.branch fun _ =>
    abreast.bind (abreast.enterRule _ _ _ _) fun _ => abreast.pure _

end Free

end Abreast

/-! ### Properties of the searches of one world -/

def Alone (C : ∀ {α : Type}, SearchM μ α → Prop) {α : Type} (x y : SearchM μ α) : Prop :=
  x = y ∧ C x

structure Frame (w : World μ) (C : ∀ {α : Type}, SearchM μ α → Prop) : Prop where
  pure : ∀ {α : Type} (a : α), C (Pure.pure a : SearchM μ α)
  throw : ∀ {α : Type} (e : Fault), C (MonadExcept.throw e : SearchM μ α)
  lift : ∀ {α : Type} (x : Except Fault α), C (liftM x : SearchM μ α)
  bind : ∀ {α β : Type} {x : SearchM μ α} {f : α → SearchM μ β}, C x → (∀ a, C (f a)) → C (x >>= f)
  get_bind : ∀ {β : Type} {f : Search μ → SearchM μ β},
    (∀ s n, f { s with plan := { s.plan with expansions := n } } = f s) → (∀ s, C (f s)) →
      C (get >>= f)
  evaluate : ∀ {α : Type} (x : Arena → Eval μ α), C (Search.evaluate x)
  enter : ∀ parent ref placement, C (Search.enter w parent ref placement)
  truncateContexts : ∀ n, C (Search.truncateContexts w n)
  hand : ∀ (h : Handle) (symbol : Symbol),
    C (modify fun s : Search μ => { s with arena := s.arena.assign h symbol } : SearchM μ Unit)
  redraw : ∀ (areas : Array Area → Array Area) (queue : Nat → Queue → Queue),
    C (Search.modifyPlan fun p =>
      { p with areas := areas p.areas, queue := queue p.cursor p.queue } : SearchM μ Unit)

theorem Frame.abreast {w : World μ} {C : ∀ {α : Type}, SearchM μ α → Prop} (frame : Frame w C) :
    Abreast w w (Alone C) where
  pure a := ⟨rfl, frame.pure a⟩
  throw e := ⟨rfl, frame.throw e⟩
  lift x := ⟨rfl, frame.lift x⟩
  bind hx hf := by
    obtain ⟨rfl, hx⟩ := hx
    obtain rfl := funext fun a => (hf a).1
    exact ⟨rfl, frame.bind hx fun a => (hf a).2⟩
  get_bind same _ hf := by
    obtain rfl := funext fun s => (hf s).1
    exact ⟨rfl, frame.get_bind same fun s => (hf s).2⟩
  rule _ := ⟨rfl, frame.lift _⟩
  expansion _ := ⟨rfl, frame.lift _⟩
  component _ := ⟨rfl, frame.lift _⟩
  symbol _ := ⟨rfl, frame.lift _⟩
  holds _ _ := ⟨rfl, frame.evaluate _⟩
  samplePos _ _ := ⟨rfl, frame.evaluate _⟩
  areaOf _ _ := ⟨rfl, frame.evaluate _⟩
  enter _ _ _ := ⟨rfl, frame.enter _ _ _⟩
  truncateContexts _ := ⟨rfl, frame.truncateContexts _⟩
  hand h symbol := ⟨rfl, frame.hand h symbol⟩
  redraw areas queue := ⟨rfl, frame.redraw areas queue⟩

end VoxelGrammar
