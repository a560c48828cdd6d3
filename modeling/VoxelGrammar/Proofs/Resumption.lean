import VoxelGrammar.Proofs.Derivation
import VoxelGrammar.Proofs.Frame
import VoxelGrammar.Proofs.Sanity

/-!
Searches that go on in the same way. What an attempt does depends on what the search has found and
not on how many attempts there were before, nor on the contexts that have been dropped since; so a
branch that has been undone can be taken up as if it had never been left.
-/

namespace VoxelGrammar

variable {μ α β : Type}

/-! ### Counting attempts -/

namespace Search

def recount (n : Nat) (s : Search μ) : Search μ :=
  { s with plan := { s.plan with expansions := n } }

/-- The computation does not look at the count of attempts and leaves it as it is. -/
def Countless (x : SearchM μ α) : Prop :=
  ∀ s n, x.run (recount n s) = ((x.run s).1, recount n (x.run s).2)

namespace Countless

theorem pure (a : α) : Countless (pure a : SearchM μ α) := fun _ _ => rfl

theorem throw (e : Fault) : Countless (throw e : SearchM μ α) := fun _ _ => rfl

theorem lift (x : Except Fault α) : Countless (liftM x : SearchM μ α) := fun _ _ => rfl

theorem bind {x : SearchM μ α} {f : α → SearchM μ β} (hx : Countless x) (hf : ∀ a, Countless (f a)) :
    Countless (x >>= f) := by
  intro s n
  rw [SearchM.run_bind, SearchM.run_bind, hx s n]
  rcases x.run s with ⟨e | a, s₁⟩
  · rfl
  · exact hf a s₁ n

/-- The state may be looked at, its count of attempts aside. -/
theorem get_bind {f : Search μ → SearchM μ β} (same : ∀ s n, f (recount n s) = f s)
    (hf : ∀ s, Countless (f s)) : Countless (get >>= f) := by
  intro s n
  have looked : ∀ s, (get >>= f).run s = (f s).run s := fun _ => rfl
  rw [looked, looked, same]
  exact hf s s n

theorem modifyPlan {f : Plan → Plan}
    (hf : ∀ p n, f { p with expansions := n } = { f p with expansions := n }) :
    Countless (modifyPlan f : SearchM μ Unit) := fun s n => by
  rw [run_modifyPlan, run_modifyPlan, recount, hf]
  rfl

theorem enter (w : World μ) (parent : Option Handle) (ref : SymbolRef) (placement : Transform) :
    Countless (enter w parent ref placement) := by
  intro s n
  simp only [Search.enter, SearchM.run_bind, SearchM.run_get]
  have arena : (recount n s).arena = s.arena := rfl
  have seed : (recount n s).plan.seed = s.plan.seed := rfl
  rw [arena, seed]
  rcases s.arena.create w.grammar parent ref placement s.plan.seed with (_ | _) | ⟨h, a⟩ <;> rfl

theorem frame (w : World μ) : Frame w (@Countless μ) where
  pure := pure
  throw := throw
  lift := lift
  bind := bind
  get_bind := get_bind
  evaluate _ _ _ := rfl
  enter := enter w
  truncateContexts _ _ _ := rfl
  hand _ _ _ _ := rfl
  redraw _ _ := modifyPlan fun _ _ => rfl

theorem branching (w : World μ) : Abreast.Branching w w (Alone (@Countless μ)) :=
  { (frame w).abreast with replan := fun _ hf => ⟨rfl, modifyPlan hf⟩ }

end Countless

/-- Carrying an attempt out has nothing to do with how many there were. -/
theorem attempt_countless (w : World μ) (a : Attempt) : Countless (attempt w a) :=
  ((Countless.branching w).attempt a).2

end Search

/-! ### Handles that stay -/

section

variable {σ : Nat → UInt32} {n : Nat} (fixed : ∀ i < n, σ i = 0)

include fixed

theorem Handle.shift_fixed {h : Handle} (hn : h.slot < n) : h.shift σ = h := by
  simp [Handle.shift, fixed h.slot hn]

theorem Bindings.shift_fixed {b : Bindings} (below : ∀ e ∈ b.entries, e.2.Below n) :
    b.shift σ = b := by
  have entries : b.entries.map (fun e => (e.1, e.2.shift σ)) = b.entries := by
    refine (List.map_congr_left fun e he => ?_).trans (List.map_id' _)
    obtain ⟨key, binding⟩ := e
    cases binding with
    | own id => rfl
    | bridge h =>
        have hn : h.slot < n := below _ he
        simp only [Binding.shift, Handle.shift_fixed fixed hn]
  rw [Bindings.shift, entries]

theorem Context.shift_fixed {c : Context} (below : c.Below n) : c.shift σ = c := by
  have parent : c.parent.map (·.shift σ) = c.parent :=
    (Option.map_congr fun h hh => Handle.shift_fixed fixed (below.parent h hh)).trans Option.map_id'
  rw [Context.shift, parent, Bindings.shift_fixed fixed below.inputs,
    Bindings.shift_fixed fixed below.outputs]

theorem Queue.shift_fixed {q : Queue}
    (below : ∀ t, some t ∈ q → t.entry.context.slot < n ∧ t.context.slot < n) :
    Queue.shift σ q = q := by
  refine (Array.map_congr_left fun e he => ?_).trans (Array.map_id' _)
  cases e with
  | none => rfl
  | some t =>
      obtain ⟨entry, context⟩ := below t he
      simp only [Option.map_some, Attempt.shift, RuleEntry.shift, Handle.shift_fixed fixed entry,
        Handle.shift_fixed fixed context]

end

theorem Lives.slot_lt {a : Arena} {h : Handle} (ha : a.Numbered) (hl : Lives a.live h) :
    h.slot < a.size := by
  obtain ⟨x, hx⟩ := hl
  exact Arena.slot_lt_of_get ((Arena.mem_live_iff ha).1 hx)

namespace Search

variable {w : World μ} {s : Search μ}

/-- A shift that leaves the live slots alone leaves the plan of a secure search alone. -/
theorem Secure.shift_plan (secure : Secure w s) {σ : Nat → UInt32}
    (fixed : ∀ i < s.arena.size, σ i = 0) : s.plan.shift σ = s.plan := by
  have numbered := secure.kept.numbered
  have queue : ∀ {q : Queue}, (∀ t, some t ∈ q → t.Sane w s.arena.live) → Queue.shift σ q = q :=
    fun sane => Queue.shift_fixed fixed fun t ht =>
      ⟨(sane t ht).entry.slot_lt numbered, (sane t ht).context.slot_lt numbered⟩
  have placements : s.plan.placements.map (·.shift σ) = s.plan.placements := by
    refine (Array.map_congr_left fun p hp => ?_).trans (Array.map_id' _)
    have hn := (secure.sane.placements p hp).1.slot_lt numbered
    simp only [Placement.shift, Handle.shift_fixed fixed hn]
  have checkpoints : s.plan.checkpoints.map (·.shift σ) = s.plan.checkpoints := by
    refine (List.map_congr_left fun c hc => ?_).trans (List.map_id' _)
    have sane : ∀ t, some t ∈ c.queue → t.Sane w (s.arena.live.take c.contexts) :=
      (secure.kept.found c hc).queue
    have earlier : s.arena.live.take c.contexts ⊆ s.arena.live :=
      (List.take_prefix _ _).subset
    rw [Checkpoint.shift, queue fun t ht => (sane t ht).mono earlier]
  have current : Queue.shift σ s.plan.queue = s.plan.queue := queue secure.sane.queue
  rw [Plan.shift, placements, checkpoints, current]

end Search

namespace Arena

variable {a b : Arena}

/-- Slots with the same live contexts are told apart by generations in the same way. -/
theorem gap_eq_zero (ha : a.Numbered) (hb : b.Numbered) (live : b.live = a.live) :
    ∀ i < a.size, Search.gap a b i = 0 := by
  intro i hi
  have size : b.size = a.size := by rw [← length_live, live, length_live]
  have hi' : i < a.contexts.size := hi
  have hi'' : i < b.contexts.size := Nat.lt_of_lt_of_eq hi size.symm
  have here : i < a.generations.size := Nat.lt_of_lt_of_le hi' ha
  have there : i < b.generations.size := Nat.lt_of_lt_of_le hi'' hb
  have same := congrArg (·[i]?) live
  simp only [getElem?_live, Array.getElem?_eq_getElem hi', Array.getElem?_eq_getElem hi'',
    Array.getElem?_eq_getElem here, Array.getElem?_eq_getElem there, Option.map_some,
    Option.getD_some, Option.some.injEq, Prod.mk.injEq, Handle.mk.injEq, true_and] at same
  simp [Search.gap, nextGeneration, here, there, same.1]

/-- Arenas with the same live contexts mirror each other. -/
theorem mirrors_of_live (ha : a.Numbered) (hb : b.Numbered) (ground : a.Grounded)
    (live : b.live = a.live) : a.Mirrors (Search.gap a b) b := by
  have fixed := gap_eq_zero ha hb live
  refine ⟨ha, hb, ?_, fun i => ?_⟩
  · rw [live]
    refine ((List.map_congr_left fun e he => ?_).trans (List.map_id' _)).symm
    obtain ⟨h, c⟩ := e
    have hc := (mem_live_iff ha).1 he
    have hn := slot_lt_of_get hc
    have below : c.Below a.size :=
      { parent := fun k hk => ((ground h c hc).parent k hk).trans hn
        inputs := fun e he => ((ground h c hc).inputs e he).mono hn.le
        outputs := fun e he => ((ground h c hc).outputs e he).mono hn.le }
    rw [Handle.shift_fixed fixed hn, Context.shift_fixed fixed below]
  · rw [Search.gap, UInt32.add_comm, UInt32.sub_add_cancel]

end Arena

/-- A secure search goes on as any other one with the same plan and live contexts. -/
theorem Search.Secure.mirror {w : World μ} {s s' : Search Unit} (secure : Secure w.forgetful s)
    (marked : w.grammar.Marked) (same : Same s s') :
    Mirror (w.alone marked) (gap s.arena s'.arena) s s' where
  arena := Arena.mirrors_of_live secure.kept.numbered same.numbered secure.arena.ground same.live
  ground := secure.arena.ground
  plan := by
    rw [same.plan]
    exact (secure.shift_plan
      (Arena.gap_eq_zero secure.kept.numbered same.numbered same.live)).symm
  memory := trivial
  memory' := trivial

namespace Search

/-! ### Taking branches up again -/

variable {own : Prop} {w : World μ} {s s' : Search μ} {c : Checkpoint}

/-- Whatever branches of a secure search are undone, it stays secure. -/
theorem Secure.undone {rest : List Checkpoint} (secure : Secure w s)
    (earlier : c :: rest <:+ s.plan.checkpoints) : Secure w (undone w c rest s) := by
  let t : Search μ := { s with plan := { s.plan with checkpoints := c :: rest } }
  have kept : Kept (Snapshot.Sane w) t :=
    ⟨secure.kept.numbered, fun d hd => secure.kept.fits d (earlier.subset hd),
      secure.kept.nested.sublist earlier.sublist,
      fun d hd => secure.kept.found d (earlier.subset hd)⟩
  obtain ⟨kept', sane⟩ := kept.undone (w := w) rfl
  refine ⟨kept', sane, ?_⟩
  have same : s.outermost = t.outermost := outermost_of_isSuffix (List.cons_ne_nil _ _) earlier
  exact (outermost_undone w (s := t) rfl).trans (same.symm.trans secure.outermost)

/-- Looking for the next attempt of the entry at the cursor leaves a search secure. -/
theorem Secure.advanced (closed : w.grammar.Closed own) (secure : Secure w s) {a : Attempt}
    (current : s.plan.queue[s.plan.cursor]? = some (some a)) {following : Option Attempt}
    (hr : (next w a).run s = (.ok following, s')) : Secure w (advanced following s') := by
  obtain ⟨grows, hplan⟩ := next_grows secure.kept.numbered (Nat.le_refl _) hr
  have filled : s.plan.queue ≠ #[] := by
    intro empty
    simp [empty] at current
  obtain ⟨c, rest, hc⟩ := secure.branch filled
  refine ⟨(secure.kept.grows_all grows).replan rfl rfl rfl rfl,
    advanced_sane closed secure.kept.numbered secure.sane (secure.attempt current) hr, ?_⟩
  have checkpoints : s.plan.checkpoints <:+ s'.plan.checkpoints := hplan ▸ List.suffix_refl _
  have kept : (Search.advanced following s').outermost = s.outermost :=
    outermost_of_isSuffix (hc ▸ List.cons_ne_nil c rest) checkpoints
  exact kept.trans secure.outermost

/-- What a branch leads back to is determined by what it has found. -/
theorem same_undone (w : World μ) (rest : List Checkpoint) (numbered : s'.arena.Numbered)
    (found : s'.foundBy c = s.foundBy c) (seed : s'.plan.seed = s.plan.seed)
    (solved : s'.plan.solved = s.plan.solved) :
    Same (recount s'.plan.expansions (undone w c rest s)) (undone w c rest s') where
  plan := Plan.ext (congrArg Snapshot.areas found) (congrArg Snapshot.placements found) rfl rfl rfl
    rfl seed solved
  live := by
    have contexts := congrArg Snapshot.contexts found
    rwa [foundBy, foundBy, ← Arena.live_truncate, ← Arena.live_truncate] at contexts
  numbered := Arena.numbered_truncate numbered _

end Search

end VoxelGrammar
