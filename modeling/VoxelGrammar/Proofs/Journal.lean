import VoxelGrammar.Proofs.Moves

/-!
Searches that keep a journal. For every open branch the journal has what the branch found when it
was opened, and for every branch that was undone it has that beside what undoing it left. The
journal only watches: without it, what is left is the search itself. The branch of a component
counts as opened before the context of the component was entered.
-/

namespace VoxelGrammar

variable {μ α β : Type} {w : World μ}

/-- What undoing a branch has to bring back. -/
structure Snapshot where
  areas : Array Area
  placements : Array Placement
  queue : Queue
  cursor : Nat
  /-- The live contexts with their handles. -/
  contexts : List (Handle × Context)

def Search.snapshot (s : Search μ) : Snapshot :=
  ⟨s.plan.areas, s.plan.placements, s.plan.queue, s.plan.cursor, s.arena.live⟩

structure Journaled (μ : Type) where
  search : Search μ
  /-- What the open branches found, the latest one first. -/
  opened : List Snapshot
  /-- What the branch that was undone had found, if one was open, and what undoing it left. -/
  undone : List (Option Snapshot × Snapshot)

abbrev Journaling (μ : Type) := ExceptT Fault (StateM (Journaled μ))

namespace Journaling

open Search (contextCount enter meets evaluate accept populate enterRule next attach stopped?)

def plain (x : SearchM μ α) : Journaling μ α :=
  ExceptT.mk fun j =>
    let (result, search) := x.run j.search
    (result, { j with search })

/-- Opens a branch that found the given contexts, the first ones of those there are now. -/
def branchAt (found : List (Handle × Context)) : Journaling μ Unit := do
  plain (Search.branchAt found.length)
  modify fun j => { j with opened := { j.search.snapshot with contexts := found } :: j.opened }

def found : Journaling μ (List (Handle × Context)) := return (← get).search.arena.live

def branch : Journaling μ Unit := do branchAt (← found)

def undo (w : World μ) : Journaling μ Unit := do
  plain (Search.undo w)
  modify fun j =>
    { j with opened := j.opened.tail, undone := j.undone ++ [(j.opened.head?, j.search.snapshot)] }

def placeComponent (w : World μ) (id : ComponentId) (a : Attempt) : Journaling μ Bool := do
  let c ← plain (w.grammar.component id)
  let n ← plain (Fault.lookup c.nodes a.attachment.node)
  match ← plain (evaluate fun arena => w.samplePos arena a.context n.position) with
  | .error _ => return false
  | .ok position =>
    let placement := attach a.entry a.attachment (n.joint a.candidate.reflected) position
    let found ← found
    match ← plain (enter w (some a.context) (.component id) placement) with
    | .error _ => return false
    | .ok h =>
      if ← plain (meets w h c.symbol.conditions) then
        branchAt found
        plain (accept id a.attachment.node h)
        if ← plain (populate w c h a.attachment.node) then return true
        else
          undo w
          return false
      else
        plain (Search.truncateContexts w found.length)
        return false

def replaceRule (w : World μ) (target : RuleId) (a : Attempt) : Journaling μ Bool := do
  branch
  if ← plain (enterRule w target .zero a.entry.orientation (some a.context)) then return true
  else
    undo w
    return false

def attempt (w : World μ) (a : Attempt) : Journaling μ Bool := do
  let e ← plain (w.grammar.expansion a.candidate.expansion)
  match e.target with
  | .nothing => return true
  | .rule target => replaceRule w target a
  | .component id _ => placeComponent w id a

def resolve (w : World μ) : Option Attempt → Journaling μ Unit
  | none => undo w
  | some a => do
    let following ← plain (next w a)
    plain (Search.modifyPlan fun p =>
      { p with queue := p.queue.setIfInBounds p.cursor following })
    if ← attempt w a then
      plain (Search.modifyPlan fun p => { p with cursor := p.cursor + 1 })

def step (w : World μ) (limits : Limits) :
    Journaling μ (Option (Except SearchFailure Unit)) := do
  let p := (← get).search.plan
  match p.queue[p.cursor]? with
  | none =>
    if p.queue.isEmpty then return some (.error (.noSolution p.expansions))
    else
      plain (Search.modifyPlan fun p => { p with solved := true })
      return some (.ok ())
  | some entry =>
    plain (Search.modifyPlan fun p => { p with expansions := p.expansions + 1 })
    match stopped? limits (← get).search with
    | some failure => return some (.error failure)
    | none =>
      resolve w entry
      return none

def steps (w : World μ) (limits : Limits) :
    (n : Nat) → Journaling μ (Except SearchFailure Unit)
  | 0 => return .error (.expansionLimit limits.expansions)
  | n + 1 => do
    match ← step w limits with
    | some result => return result
    | none => steps w limits n

def process (w : World μ) (limits : Limits) : Journaling μ (Except SearchFailure Unit) :=
  steps w limits (limits.expansions + 1)

def setup (w : World μ) (rule : RuleId) (origin : Pos) (seed : Seed) : Journaling μ Unit := do
  plain (Search.reset w origin seed)
  modify fun j => { j with opened := [], undone := [] }
  branch
  let _ ← plain (enterRule w rule origin .unspecified none)

/-! ### The journal only watches -/

/-- Without the journal, `y` is `x`. -/
def Watches (y : Journaling μ α) (x : SearchM μ α) : Prop :=
  ∀ j, ((y.run j).1, (y.run j).2.search) = x.run j.search

theorem run_bind (x : Journaling μ α) (f : α → Journaling μ β) (j : Journaled μ) :
    (x >>= f).run j =
      match x.run j with
      | (.ok a, j) => (f a).run j
      | (.error e, j) => (.error e, j) := by
  simp only [ExceptT.run, bind, ExceptT.bind, ExceptT.mk, StateT.bind]
  rcases x j with ⟨_ | a, j'⟩ <;> rfl

namespace Watches

theorem pure (a : α) : Watches (pure a : Journaling μ α) (pure a) := fun _ => rfl

theorem plain (x : SearchM μ α) : Watches (Journaling.plain x) x := fun _ => rfl

theorem bind {y : Journaling μ α} {x : SearchM μ α} {g : α → Journaling μ β}
    {f : α → SearchM μ β} (hx : Watches y x) (hf : ∀ a, Watches (g a) (f a)) :
    Watches (y >>= g) (x >>= f) := by
  intro j
  rw [Journaling.run_bind, SearchM.run_bind, ← hx j]
  rcases y.run j with ⟨e | a, j'⟩
  · rfl
  · exact hf a j'

/-- Looking at the search. -/
theorem get {g : Journaled μ → Journaling μ β} {f : Search μ → SearchM μ β}
    (hf : ∀ j, Watches (g j) (f j.search)) :
    Watches (MonadState.get >>= g) (MonadState.get >>= f) := fun j => hf j j

theorem branchAt (found : List (Handle × Context)) :
    Watches (Journaling.branchAt found : Journaling μ Unit) (Search.branchAt found.length) :=
  fun _ => rfl

/-- The search counts the contexts that the journal takes down. -/
theorem found {g : List (Handle × Context) → Journaling μ β} {f : Nat → SearchM μ β}
    (hf : ∀ found, Watches (g found) (f found.length)) :
    Watches (Journaling.found >>= g) (contextCount >>= f) := by
  intro j
  have hn : j.search.arena.live.length = j.search.arena.size := Arena.length_live _
  have h := hf j.search.arena.live j
  rw [hn] at h
  exact h

theorem branch : Watches (Journaling.branch : Journaling μ Unit) Search.branch :=
  found branchAt

theorem undo (w : World μ) : Watches (Journaling.undo w) (Search.undo w) := by
  intro j
  unfold Journaling.undo
  rw [Journaling.run_bind]
  have hp := plain (Search.undo w) j
  rcases hx : (Journaling.plain (Search.undo w)).run j with ⟨e | a, j'⟩ <;> rw [hx] at hp <;>
    exact hp

theorem placeComponent (w : World μ) (id : ComponentId) (a : Attempt) :
    Watches (Journaling.placeComponent w id a) (Search.placeComponent w id a) := by
  refine bind (plain _) fun c => bind (plain _) fun n => bind (plain _) fun position => ?_
  cases position with
  | error e => exact pure _
  | ok position =>
      refine found fun found => bind (plain _) fun entered => ?_
      cases entered with
      | error e => exact pure _
      | ok h =>
          refine bind (plain _) fun holds => ?_
          cases holds with
          | false => exact bind (plain _) fun _ => pure _
          | true =>
              refine bind (branchAt found) fun _ => bind (plain _) fun _ =>
                bind (plain _) fun populated => ?_
              cases populated with
              | false => exact bind (undo w) fun _ => pure _
              | true => exact pure _

theorem replaceRule (w : World μ) (target : RuleId) (a : Attempt) :
    Watches (Journaling.replaceRule w target a) (Search.replaceRule w target a) := by
  refine bind branch fun _ => bind (plain _) fun entered => ?_
  cases entered with
  | false => exact bind (undo w) fun _ => pure _
  | true => exact pure _

theorem attempt (w : World μ) (a : Attempt) :
    Watches (Journaling.attempt w a) (Search.attempt w a) := by
  refine bind (plain _) fun e => ?_
  cases e.target with
  | nothing => exact pure _
  | rule target => exact replaceRule w target a
  | component id node => exact placeComponent w id a

theorem resolve (w : World μ) (entry : Option Attempt) :
    Watches (Journaling.resolve w entry) (Search.resolve w entry) := by
  cases entry with
  | none => exact undo w
  | some a =>
      refine bind (plain _) fun following => bind (plain _) fun _ => bind (attempt w a) fun done => ?_
      cases done with
      | false => exact pure _
      | true =>
          rw [if_pos rfl, if_pos rfl]
          exact plain _

theorem step (w : World μ) (limits : Limits) :
    Watches (Journaling.step w limits) (Search.step w limits) := by
  refine get fun j => ?_
  dsimp only
  cases j.search.plan.queue[j.search.plan.cursor]? with
  | none =>
      dsimp only
      split
      · exact pure _
      · exact bind (plain _) fun _ => pure _
  | some entry =>
      refine bind (plain _) fun _ => get fun j => ?_
      cases stopped? limits j.search with
      | some failure => exact pure _
      | none => exact bind (resolve w entry) fun _ => pure _

theorem steps (w : World μ) (limits : Limits) (n : Nat) :
    Watches (Journaling.steps w limits n) (Search.steps w limits n) := by
  induction n with
  | zero => exact pure _
  | succ n ih =>
      refine bind (step w limits) fun result => ?_
      cases result with
      | none => exact ih
      | some result => exact pure _

theorem process (w : World μ) (limits : Limits) :
    Watches (Journaling.process w limits) (Search.process w limits) := steps w limits _

theorem setup (w : World μ) (rule : RuleId) (origin : Pos) (seed : Seed) :
    Watches (Journaling.setup w rule origin seed) (Search.setup w rule origin seed) := by
  intro j
  have h := bind branch (fun _ => bind (plain (enterRule w rule origin .unspecified none))
    fun _ => pure ()) ⟨((Search.reset w origin seed).run j.search).2, [], []⟩
  exact h

end Watches

end Journaling

end VoxelGrammar
