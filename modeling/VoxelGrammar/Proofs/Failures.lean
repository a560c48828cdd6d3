import VoxelGrammar.Proofs.Canvas
import VoxelGrammar.Proofs.Frame
import VoxelGrammar.Proofs.WellFormed

/-!
Failing leaves no trace. Whatever state a search has come to, between its functions or within one of
them, a rule that cannot be entered and an attempt that does not succeed leave the plan and the live
contexts as they found them: what was entered is dropped again, and what was accepted goes with the
branch that was opened for it.
-/

namespace VoxelGrammar

variable {μ α β : Type} {w : World μ}

namespace Search

/-- The states that a search can come to: contexts are entered and dropped, assignments are handed on,
and what is remembered and planned changes all the while. -/
inductive Visited (w : World μ) : Search μ → Prop
  | new (memory : μ) : Visited w (.new memory)
  | remember {s : Search μ} (visited : Visited w s) (memory : μ) : Visited w { s with memory }
  | replan {s : Search μ} (visited : Visited w s) (plan : Plan) : Visited w { s with plan }
  | enter {s : Search μ} {parent : Option Handle} {ref : SymbolRef} {placement : Transform}
      {x : Context} (visited : Visited w s)
      (prepared : s.arena.prepare w.grammar parent ref placement s.plan.seed = .ok x) :
      Visited w { s with arena := (s.arena.push x).2 }
  | assign {s : Search μ} (visited : Visited w s) (h : Handle) (symbol : Symbol) :
      Visited w { s with arena := s.arena.assign h symbol }
  | truncate {s : Search μ} (visited : Visited w s) (n : Nat) :
      Visited w { s with arena := s.arena.truncate n }

theorem Visited.numbered {s : Search μ} (visited : Visited w s) : s.arena.Numbered := by
  induction visited with
  | new memory => exact Arena.numbered_empty
  | remember _ _ ih => exact ih
  | replan _ _ ih => exact ih
  | enter _ _ ih => exact Arena.numbered_push ih _
  | assign _ h _ ih => exact Arena.numbered_modify ih h _
  | truncate _ n ih => exact Arena.numbered_truncate ih n

def Visits (w : World μ) {α : Type} (x : SearchM μ α) : Prop :=
  ∀ s, Visited w s → Visited w (x.run s).2

namespace Visits

theorem bind {x : SearchM μ α} {f : α → SearchM μ β} (hx : Visits w x)
    (hf : ∀ a, Visits w (f a)) : Visits w (x >>= f) := by
  intro s visited
  have first := hx s visited
  rw [SearchM.run_bind]
  rcases hr : x.run s with ⟨e | a, s₁⟩ <;> rw [hr] at first
  · exact first
  · exact hf a s₁ first

theorem enter (parent : Option Handle) (ref : SymbolRef) (placement : Transform) :
    Visits w (Search.enter w parent ref placement) := by
  intro s visited
  rcases hr : (Search.enter w parent ref placement).run s with ⟨e | r, s'⟩
  · unfold Search.enter at hr
    rw [SearchM.run_bind, SearchM.run_get] at hr
    dsimp only at hr
    split at hr <;> cases hr
    exact visited
  · rcases enter_ok hr with ⟨_, rfl, rfl⟩ | ⟨x, prepared, rfl, rfl⟩
    · exact visited
    · exact (visited.enter prepared).remember _

theorem frame (w : World μ) : Frame w (Visits w) where
  pure _ _ visited := visited
  throw _ _ visited := visited
  lift _ _ visited := visited
  bind := bind
  get_bind _ hf s := hf s s
  evaluate _ _ visited := visited.remember _
  enter := enter
  truncateContexts n _ visited := (visited.truncate n).remember _
  hand h symbol _ visited := visited.assign h symbol
  redraw _ _ _ visited := visited.replan _

theorem free (w : World μ) : Abreast.Free w w (Alone (Visits w)) :=
  { (frame w).abreast with
    replan := fun _ _ => ⟨rfl, fun _ visited => visited.replan _⟩
    look_bind := fun hf => by
      obtain rfl := funext fun s => (hf s).1
      exact ⟨rfl, fun s => (hf s).2 s⟩
    modifyPlan := fun _ => ⟨rfl, fun _ visited => visited.replan _⟩
    reset := fun _ _ => ⟨rfl, fun _ visited => ((visited.truncate 0).remember _).replan _⟩ }

end Visits

/-- Whatever a generator is asked for, it comes to such a state only. -/
theorem Used.visited {w : World Memory} {s : Search Memory} (used : Used w s) : Visited w s := by
  induction used with
  | new draws capacity policy => exact .new _
  | @after s _ request ih =>
      cases request with
      | setup rule origin seed => exact ((Visits.free w).setup rule origin seed).2 s ih
      | process limits => exact ((Visits.free w).process limits).2 s ih
      | output =>
          obtain ⟨arena, plan⟩ := output_painted (w := w) (s := s)
          have left := ih.remember ((output w).run s).2.memory
          rwa [← arena, ← plan] at left

structure Unchanged (s s' : Search μ) : Prop where
  plan : s'.plan = s.plan
  live : s'.arena.live = s.arena.live

/-- A rule that is not entered and an attempt that does not succeed change nothing but what is
remembered and the generations of slots that hold no context. -/
theorem failure_changes_nothing {s : Search μ} (visited : Visited w s) :
    (∀ id origin orientation parent s',
      (enterRule w id origin orientation parent).run s = (.ok false, s') → Unchanged s s') ∧
    ∀ a s', (attempt w a).run s = (.ok false, s') → Unchanged s s' := by
  refine ⟨fun id origin orientation parent s' hr => ?_, fun a s' hr => ?_⟩
  · rcases enterRule_ok visited.numbered hr with ⟨_, same⟩ | ⟨entered, _⟩
    · exact ⟨same.plan, same.live⟩
    · cases entered
  · rcases attempt_ok visited.numbered hr with ⟨_, same⟩ | ⟨succeeded, _⟩
    · exact ⟨same.plan, same.live⟩
    · cases succeeded

/-- A court is a yard with a well on its ground, which nobody has dug, and its gate cannot be made. -/
def court : Draft :=
  .ofStatements
    [.rule "court", .rule "gate", .component "yard", .constant (.float3 ⟨0, 0, 0⟩),
      .area 0 "ground" 0 0 .mustNot false, .area 0 "well" 0 0 .must false,
      .node 0 "door" 0 .unspecified none, .toComponent 0 0 (some "door") false]

/-- The gate cannot be entered, and the yard is given up for the well after its ground has been
recorded. -/
theorem failure_changes_nothing_court :
    let world := (World.remembering court.compile .none).forgetful
    let begun := ((setup world 0 .zero 7).run (.new ())).2
    Visited world begun ∧
      (∃ s', (enterRule world 1 .zero .unspecified none).run begun = (.ok false, s') ∧
        Unchanged begun s') ∧
      ∃ a s', begun.plan.queue.toList = [some a] ∧
        (attempt world a).run begun = (.ok false, s') ∧ Unchanged begun s' := by
  intro world begun
  have visited : Visited world begun := ((Visits.free world).setup 0 .zero 7).2 _ (.new ())
  obtain ⟨rules, attempts⟩ := failure_changes_nothing visited
  refine ⟨visited, ⟨_, Prod.ext (by decide +kernel) rfl, rules 1 .zero .unspecified none _
    (Prod.ext (by decide +kernel) rfl)⟩, ?_⟩
  have fails : begun.plan.queue.toList.map (fun e => e.map fun a =>
      ((attempt world a).run begun).1) = [some (.ok false)] := by decide +kernel
  obtain ⟨e, queue, he⟩ := List.map_eq_singleton_iff.1 fails
  obtain ⟨a, rfl, fails⟩ := Option.map_eq_some_iff.1 he
  exact ⟨a, _, queue, Prod.ext fails rfl, attempts a _ (Prod.ext fails rfl)⟩

end Search

end VoxelGrammar
