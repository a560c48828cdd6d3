import VoxelGrammar.Search.Paint

/-!
What the primitive computations of a search answer and the state they leave. Every later argument
about a search follows the text of the search, one bind after the other, and these equations are
what it meets at the leaves.
-/

namespace VoxelGrammar

variable {μ α β : Type}

namespace SearchM

theorem run_bind (x : SearchM μ α) (f : α → SearchM μ β) (s : Search μ) :
    (x >>= f).run s =
      match x.run s with
      | (.ok a, s) => (f a).run s
      | (.error e, s) => (.error e, s) := by
  simp only [ExceptT.run, bind, ExceptT.bind, ExceptT.mk, StateT.bind]
  rcases x s with ⟨_ | a, s'⟩ <;> rfl

@[simp] theorem run_pure (a : α) (s : Search μ) : (pure a : SearchM μ α).run s = (.ok a, s) := rfl

@[simp] theorem run_throw (e : Fault) (s : Search μ) :
    (throw e : SearchM μ α).run s = (.error e, s) := rfl

@[simp] theorem run_get (s : Search μ) : (get : SearchM μ (Search μ)).run s = (.ok s, s) := rfl

@[simp] theorem run_set (t s : Search μ) :
    (set t : SearchM μ PUnit).run s = (.ok ⟨⟩, t) := rfl

@[simp] theorem run_modify (f : Search μ → Search μ) (s : Search μ) :
    (modify f : SearchM μ Unit).run s = (.ok (), f s) := rfl

@[simp] theorem run_lift (x : Except Fault α) (s : Search μ) :
    (liftM x : SearchM μ α).run s = (x, s) := rfl

end SearchM

namespace Search

@[simp] theorem run_modifyPlan (f : Plan → Plan) (s : Search μ) :
    (modifyPlan f).run s = (.ok (), { s with plan := f s.plan }) := rfl

@[simp] theorem run_context (h : Handle) (s : Search μ) :
    (context h).run s = (s.arena.get h, s) := rfl

@[simp] theorem run_contextCount (s : Search μ) :
    (contextCount : SearchM μ Nat).run s = (.ok s.arena.size, s) := rfl

@[simp] theorem run_truncateContexts (w : World μ) (n : Nat) (s : Search μ) :
    (truncateContexts w n).run s =
      (.ok (), { s with arena := s.arena.truncate n, memory := w.notebook.truncate s.memory n }) :=
  rfl

@[simp] theorem run_branchAt (n : Nat) (s : Search μ) :
    (branchAt n).run s =
      (.ok (), { s with plan := { s.plan with checkpoints :=
        ⟨s.plan.areas.size, s.plan.placements.size, n, s.plan.cursor, s.plan.queue⟩ ::
          s.plan.checkpoints } }) := rfl

end Search

end VoxelGrammar
