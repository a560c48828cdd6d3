import VoxelGrammar.Proofs.Independence

/-!
Limits that cut a search off without steering it. Only whether a step is stopped depends on the
limits, and what lower limits do not stop higher ones do not. So a search that has come to an end of
its own goes the same way, step by step, under all higher limits.
-/

namespace VoxelGrammar

variable {μ α : Type}

/-- The search has come to an end of its own: it has found a structure, or there is none to be
found. -/
def Settled : Except SearchFailure Unit → Prop
  | .ok _ => True
  | .error (.noSolution _) => True
  | .error _ => False

namespace Search

section

variable {w : World μ} {limits limits' : Limits} {s t : Search μ}

theorem stopped?_failure {failure : SearchFailure} (h : stopped? limits s = some failure) :
    ¬ Settled (.error failure) := by
  unfold stopped? at h
  split at h
  · cases h
    exact id
  · split at h
    · cases h
      exact id
    · cases h

variable (expansions : limits.expansions ≤ limits'.expansions) (depth : limits.depth ≤ limits'.depth)

include expansions depth

/-- What lower limits do not stop higher ones do not. -/
theorem stopped?_more (h : stopped? limits s = none) : stopped? limits' s = none := by
  unfold stopped? at h ⊢
  split at h
  · cases h
  · next few =>
    split at h
    · cases h
    · next room =>
      rw [if_neg fun more => few (Nat.le_trans expansions more),
        if_neg fun more => room (Nat.le_trans depth more)]

/-- A step that no limit has stopped is the same under higher limits. -/
theorem step_more {r : Option (Except SearchFailure Unit)} (settled : ∀ e, r = some e → Settled e)
    (h : (step w limits).run s = (.ok r, t)) : (step w limits').run s = (.ok r, t) := by
  rw [run_step] at h ⊢
  cases current : s.plan.queue[s.plan.cursor]? with
  | none =>
      rw [current] at h
      exact h
  | some entry =>
      rw [current] at h
      dsimp only at h ⊢
      cases goes : stopped? limits (counted s) with
      | some failure =>
          rw [goes] at h
          cases h
          exact (stopped?_failure goes (settled _ rfl)).elim
      | none =>
          rw [goes] at h
          rw [stopped?_more expansions depth goes]
          exact h

/-- A search that has come to an end of its own needs no more steps than it took, under higher limits
as well. -/
theorem steps_more {k k' : Nat} (enough : k ≤ k') {r : Except SearchFailure Unit}
    (settled : Settled r) (h : (steps w limits k).run s = (.ok r, t)) :
    (steps w limits' k').run s = (.ok r, t) := by
  induction k generalizing s k' with
  | zero =>
      cases h
      exact settled.elim
  | succ k ih =>
      obtain ⟨k', rfl⟩ := Nat.exists_eq_add_of_le' (Nat.lt_of_lt_of_le (Nat.succ_pos k) enough)
      obtain ⟨result, s₁, first, rest⟩ := SearchM.bind_ok h
      have same : (step w limits').run s = (.ok result, s₁) := by
        refine step_more expansions depth (fun e he => ?_) first
        subst he
        cases rest
        exact settled
      unfold steps
      rw [SearchM.run_bind, same]
      cases result with
      | some e => exact rest
      | none => exact ih (Nat.le_of_succ_le_succ enough) rest

theorem process_more {r : Except SearchFailure Unit} (settled : Settled r)
    (h : (process w limits).run s = (.ok r, t)) : (process w limits').run s = (.ok r, t) :=
  steps_more expansions depth (Nat.succ_le_succ expansions) settled h

/-- So does a search that starts over. -/
theorem search_more {rule : RuleId} {origin : Pos} {seed : Seed} {r : Except SearchFailure Unit}
    (settled : Settled r)
    (h : (do setup w rule origin seed; process w limits).run s = (.ok r, t)) :
    (do setup w rule origin seed; process w limits').run s = (.ok r, t) := by
  obtain ⟨_, begun, start, run⟩ := SearchM.bind_ok h
  rw [SearchM.run_bind, start]
  exact process_more expansions depth settled run

/-- What is painted is what the search has found. -/
theorem generate_more {rule : RuleId} {origin : Pos} {seed : Seed} {r : Except SearchFailure Unit}
    (settled : Settled r)
    (h : (do setup w rule origin seed; process w limits).run s = (.ok r, t)) :
    (generate w limits' rule origin seed).run s = (generate w limits rule origin seed).run s := by
  obtain ⟨_, begun, start, run⟩ := SearchM.bind_ok h
  unfold generate
  rw [SearchM.run_bind, SearchM.run_bind, start]
  dsimp only
  rw [SearchM.run_bind, SearchM.run_bind, run, process_more expansions depth settled run]

end

/-- A search that finds a structure, or finds that there is none, comes to the same end under all
higher limits, after as many attempts and with the same components, contexts and areas; and the
blocks that are generated are the same. In another generator, whatever it was asked for before, the
generations of the contexts may differ, by the same amount for all contexts of a slot; in the same
one nothing does. -/
theorem limits_only_cut_off {g : Grammar} {own : Prop} (hg : g.Built own) (p : Provider)
    {limits limits' : Limits} (expansions : limits.expansions ≤ limits'.expansions)
    (depth : limits.depth ≤ limits'.depth) (rule : RuleId) (origin : Pos) (seed : Seed)
    {s s' t : Search Memory} (used : Used (.remembering g p) s) (used' : Used (.remembering g p) s')
    {r : Except SearchFailure Unit} (settled : Settled r) :
    let w := World.remembering g p
    let generated := (generate w limits rule origin seed).run s
    let generated' := (generate w limits' rule origin seed).run s'
    (do setup w rule origin seed; process w limits).run s = (.ok r, t) →
    (∃ t', (do setup w rule origin seed; process w limits').run s' = (.ok r, t') ∧
      t'.plan.expansions = t.plan.expansions ∧ t'.plan.areas = t.plan.areas ∧
      (∃ σ, t'.plan.placements = t.plan.placements.map (·.shift σ) ∧
        t'.arena.live = t.arena.live.map fun e => (e.1.shift σ, e.2.shift σ)) ∧
      (s' = s → t' = t)) ∧
    generated'.1 = generated.1 ∧ (s' = s → generated' = generated) := by
  intro w generated generated' run
  let twins : Twins w w := .remembering hg.marked p
  have trusted : Trusted w Memory.Holds s := used.trusted hg
  have trusted' : Trusted w Memory.Holds s' := used'.trusted hg
  -- The other generator goes the same way under the same limits, and then under the higher ones.
  obtain ⟨_, t', run', rfl, mirror⟩ := Matches.ok
    (.bind (setup_matches (t := twins) trusted trusted' rule origin seed) fun _ _ _ _ _ _ mirror =>
      process_matches mirror limits) run
  have raised := search_more expansions depth settled run'
  refine ⟨⟨t', raised, ?_, ?_, ⟨_, ?_, mirror.arena.live⟩, ?_⟩, ?_, ?_⟩
  · rw [mirror.plan]
    rfl
  · rw [mirror.plan]
    rfl
  · rw [mirror.plan]
    rfl
  · rintro rfl
    exact congrArg Prod.snd (run'.symm.trans run)
  · have agree := (generate_matches (t := twins) trusted trusted' limits rule origin seed).1.eq
    exact (congrArg Prod.fst (generate_more expansions depth settled run')).trans agree.symm
  · rintro rfl
    exact generate_more expansions depth settled run

theorem limits_only_cut_off_farm :
    let w := World.remembering farm.compile .none
    let fresh := Search.new (.ofCache (.new 0 .standard))
    let worn := Request.after w (Request.after w (.new (.ofCache (.new 4096 ⟨1, 0⟩)))
      (.setup 0 .zero 3)) (.process ⟨5, 5⟩)
    let search := (do setup w 0 .zero 1; process w ⟨7, 3⟩).run fresh
    farm.compile.Built True ∧ (Limits.mk 7 3).expansions ≤ (Limits.mk 50000 5000).expansions ∧
      (Limits.mk 7 3).depth ≤ (Limits.mk 50000 5000).depth ∧ Used w fresh ∧ Used w worn ∧
      search.1 = .ok (.ok ()) ∧ search.2.plan.placements.size = 2 ∧
      (∃ t', (do setup w 0 .zero 1; process w ⟨50000, 5000⟩).run worn = (.ok (.ok ()), t') ∧
        t'.plan.expansions = search.2.plan.expansions ∧ t'.plan.areas = search.2.plan.areas) ∧
      ((generate w ⟨50000, 5000⟩ 0 .zero 1).run worn).1 =
        ((generate w ⟨7, 3⟩ 0 .zero 1).run fresh).1 := by
  intro w fresh worn search
  have expansions : (Limits.mk 7 3).expansions ≤ (Limits.mk 50000 5000).expansions := by decide
  have depth : (Limits.mk 7 3).depth ≤ (Limits.mk 50000 5000).depth := by decide
  have used : Used w fresh := .new Cache.standardDraws 0 .standard
  have used' : Used w worn := .after (.after (.new Cache.standardDraws 4096 ⟨1, 0⟩) _) _
  have same := search_forgotten built_farm.marked (used.trusted built_farm) ⟨7, 3⟩ 0 .zero 1
  have found : search.1 = .ok (.ok ()) := same.1.eq.trans (by decide +kernel)
  have placed : search.2.plan.placements.size = 2 := by
    have plan : search.2.plan = _ := same.2.plan_eq.symm
    rw [plan]
    decide +kernel
  obtain ⟨⟨t', run', count, areas, _⟩, blocks, _⟩ := limits_only_cut_off built_farm .none expansions
    depth 0 .zero 1 used used' (r := .ok ()) trivial (Prod.ext found rfl)
  exact ⟨built_farm, expansions, depth, used, used', found, placed, ⟨t', run', count, areas⟩, blocks⟩

end Search

end VoxelGrammar
