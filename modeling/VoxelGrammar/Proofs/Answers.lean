import VoxelGrammar.Proofs.Acyclicity
import VoxelGrammar.Proofs.Bounds
import VoxelGrammar.Proofs.Failures

/-!
Searches that are answered. An evaluation without an end is all that a search can break down for, and
where no symbol goes in circles there is none: in whatever state a search breaks off, every context
has the placeholders that its symbol declares, so no path of sources goes on forever.
-/

namespace VoxelGrammar

variable {μ : Type} {g : Grammar} {own : Prop}

namespace Search

/-- Every context that there is goes by the declarations of its symbol. -/
theorem Visited.declared {w : World μ} {s : Search μ} (visited : Visited w s) :
    s.arena.Declared w.grammar := by
  induction visited with
  | new memory => exact fun e he => nomatch he
  | remember _ _ ih => exact ih
  | replan _ _ ih => exact ih
  | enter visited prepared ih =>
      intro e he
      rcases (Arena.mem_live_push visited.numbered).1 he with he | rfl
      · exact ih e he
      · obtain ⟨_, symbol, _, hs, entered⟩ := Arena.prepare_ok prepared
        exact ⟨symbol, Arena.symbol_of_prepare prepared ▸ hs, Context.declares_of_enter entered⟩
  | assign _ h symbol ih =>
      intro e he
      obtain ⟨c, hc, same⟩ := Arena.mem_live_modify he
      obtain ⟨s, hs, declares⟩ := ih _ hc
      -- Placeholders and inputs are not touched.
      rcases same with same | ⟨_, same⟩ <;> rw [same]
      · exact ⟨s, hs, declares⟩
      · exact ⟨s, hs, declares.placeholders, declares.inputs⟩
  | truncate _ n ih =>
      exact fun e he => ih e (Arena.mem_of_mem_truncate he)

/-- No evaluation goes on forever in an acyclic grammar. -/
theorem Used.not_endless {p : Provider} (built : g.Built own) (acyclic : g.Acyclic)
    {s : Search Memory} (used : Used (.remembering g p) s) :
    ¬ (World.remembering g p).Endless s.arena := by
  rintro ⟨t, _, _, loops⟩
  have trusted := used.trusted built
  have wellFounded := Grammar.reads_wellFounded_of_declared built.closed acyclic trusted.numbered
    trusted.ground used.visited.declared
  obtain ⟨k, ends⟩ := World.dimensionIn_ends (w := (World.remembering g p).forgetful)
    trusted.ground wellFounded t
  exact loops k ends

/-- Wherever a generator ends up when it is told to start over and to search, it can be asked again. -/
theorem Used.run {w : World Memory} {s : Search Memory} (used : Used w s) (rule : RuleId) (origin : Pos)
    (seed : Seed) (limits : Limits) :
    Used w ((do setup w rule origin seed; process w limits : SearchM Memory _).run s).2 := by
  have begun : Used w ((setup w rule origin seed).run s).2 := used.after (.setup rule origin seed)
  rw [SearchM.run_bind]
  rcases start : (setup w rule origin seed).run s with ⟨e | _, s'⟩ <;> rw [start] at begun
  · exact begun
  · exact begun.after (.process limits)

/-- In an acyclic grammar that only refers to what there is, with a provider that does not break down, a
search is answered. -/
theorem search_is_answered {p : Provider} (built : g.Built own) (closed : g.Closed True)
    (acyclic : g.Acyclic) (total : p.Total) {s : Search Memory} (used : Used (.remembering g p) s)
    {rule : RuleId} (known : rule < g.rules.size) (origin : Pos) (seed : Seed) (limits : Limits) :
    ∃ r, ((do setup (.remembering g p) rule origin seed; process (.remembering g p) limits :
      SearchM Memory _).run s).1 = .ok r := by
  have sturdy : (World.remembering g p).Sturdy := ⟨closed, built.marked, total⟩
  have forgotten := search_forgotten built.marked (used.trusted built) limits rule origin seed
  have unbroken := Unbroken.bind (setup_unbroken sturdy known origin seed s.forgotten)
    fun _ _ start => process_unbroken sturdy (setup_secure (w := (World.remembering g p).forgetful)
      closed start) limits
  refine (answers_of_matches built.marked forgotten unbroken).resolve_right fun broken => ?_
  exact (used.run rule origin seed limits).not_endless built acyclic broken.2

end Search

end VoxelGrammar
