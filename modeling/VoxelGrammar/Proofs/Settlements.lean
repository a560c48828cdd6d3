import VoxelGrammar.Config.Basic
import VoxelGrammar.Proofs.Allowances
import VoxelGrammar.Proofs.Answers
import VoxelGrammar.Proofs.Plazas

/-!
Searches for settlements. The first attempt is at the plaza, and whether it succeeds is up to the ground
alone. If it fails, nothing is left to try. If it succeeds, all further attempts are paid for: each entry
goes on until something succeeds, if only to place nothing, so the search never turns back and comes to
its end long before a limit stops it.
-/

namespace VoxelGrammar.Settlement

open Search

variable {p : Provider} {origin : Pos} {n : Nat} {s s' s₁ s₂ : Search Unit} {a : Attempt}
  {following : Option Attempt} {done : Bool}

/-! ### Below the plaza -/

/-- A search whose plaza stands, after `n` attempts. Wherever it ends, all attempts are paid for: those
that it has made, and those that may come of what waits. -/
structure Growing (p : Provider) (n : Nat) (s : Search Unit) : Prop where
  secure : Secure (world p).forgetful s
  queues : Queues Sole s
  filled : 0 < s.plan.queue.size
  shallow : s.depth ≤ n
  affords : ∀ z, (world p).Ends z → s.arena.live <+: z.live →
    Affords p z s.plan.seed (s.plan.queue.toList.drop s.plan.cursor) n

namespace Growing

/-- What is at the cursor is an attempt below the plaza. -/
theorem entry (h : Growing p n s) {entry : Option Attempt}
    (current : s.plan.queue[s.plan.cursor]? = some entry) {z : Arena} (ends : (world p).Ends z)
    (hp : s.arena.live <+: z.live) :
    ∃ a site m, entry = some a ∧ Rests p z s.plan.seed a site m ∧
      Affords p z s.plan.seed s.ahead (n + toll a m site.rule) := by
  have affords := h.affords z ends hp
  rw [drop_cursor current] at affords
  exact affords.split

/-- No attempt beyond what is allowed has been made. -/
theorem le_allowance (h : Growing p n s) : n ≤ allowance :=
  (h.affords _ (ends_of_sane h.secure.arena) (List.prefix_refl _)).spent_le

end Growing

section

variable (current : s.plan.queue[s.plan.cursor]? = some (some a))
  (hnext : (next (world p).forgetful a).run s = (.ok following, s₁))

include current hnext

/-- Something is left of an entry whose attempt has failed: the last one is to place nothing. -/
theorem Growing.more (h : Growing p n s)
    (trying : (attempt (world p).forgetful a).run (advanced following s₁) = (.ok false, s₂)) :
    ∃ b, following = some b ∧ b.later.length + 1 = a.later.length := by
  have sole := h.queues a (Array.mem_of_getElem? current)
  obtain ⟨c, later, more⟩ : ∃ c later, a.later = c :: later := by
    refine List.exists_cons_of_ne_nil fun last => ?_
    obtain ⟨_, site, m, ha, rests, _⟩ :=
      h.entry current (ends_of_sane h.secure.arena) (List.prefix_refl _)
    cases ha
    obtain ⟨e, _, he, _⟩ := rests.waits.offered
    rw [attempt_of_nothing he (sole.gives_up rests.waits rests.below last he)] at trying
    cases trying
  obtain ⟨b, hb, rest⟩ := next_of_later sole h.secure current more hnext
  exact ⟨b, hb, by rw [rest, more, List.length_cons]⟩

/-- An attempt that fails is followed by another one of its entry, which costs one less. -/
theorem Growing.fails (h : Growing p n s)
    (trying : (attempt (world p).forgetful a).run (advanced following s₁) = (.ok false, s₂)) :
    Growing p (n + 1) s₂ := by
  have numbered := h.secure.kept.numbered
  have grows := (next_grows numbered (Nat.le_refl _) hnext).1
  have plan := advanced_plan numbered hnext
  have same : Same (advanced following s₁) s₂ := attempt_false grows.numbered trying
  obtain ⟨b, rfl, rest⟩ := h.more current hnext trying
  refine ⟨(Resolves.failed hnext same).secure closed current h.secure, ?_, ?_, ?_, fun z ends hp => ?_⟩
  · exact (advanced_queues (lasting_sole p) numbered current hnext h.queues).replan
      (congrArg Plan.queue same.plan)
  · rw [same.plan, plan]
    simpa using h.filled
  · rw [Search.depth, same.plan, plan]
    exact h.shallow.trans (Nat.le_succ n)
  · have hp₁ : s₁.arena.live <+: z.live := same.live ▸ hp
    obtain ⟨_, site, m, ha, rests, others⟩ := h.entry current ends (grows.isPrefix.trans hp₁)
    cases ha
    have resting : Rests p z s.plan.seed b site m :=
      ⟨next_waits ends numbered hnext hp₁ rests.waits, rests.covered, rests.below⟩
    have cheaper : toll a m site.rule = 1 + toll b m site.rule := by
      unfold toll
      omega
    have joined : Affords p z s.plan.seed ([(b, site, m)].map (fun e => some e.1) ++ s.ahead) (n + 1) :=
      .join (by simpa using resting) (others.mono (by simp [cheaper, Nat.add_assoc]))
    have waiting : s₂.plan.queue.toList.drop s₂.plan.cursor = some b :: s.ahead := by
      have hc := (Array.getElem?_eq_some_iff.1 current).1
      rw [same.plan, plan, drop_cursor (v := some b) (by simp [hc])]
      simp [Search.ahead, Array.toList_setIfInBounds, List.drop_set]
    have seeds : s₂.plan.seed = s.plan.seed := by rw [same.plan, plan]
    rw [waiting, seeds]
    exact joined

/-- Once an attempt has succeeded whose entry is paid for, the search goes on below it. -/
theorem growing_of_success (secure : Secure (world p).forgetful s) (queues : Queues Sole s)
    (shallow : s.depth ≤ n)
    (paid : ∀ z, (world p).Ends z → s.arena.live <+: z.live → ∃ site m,
      a.Waits (world p) z s.plan.seed site ∧ Covered p z m site ∧
        Affords p z s.plan.seed s.ahead (n + toll a m site.rule))
    (trying : (attempt (world p).forgetful a).run (advanced following s₁) = (.ok true, s₂)) :
    Growing p (n + 1) (passed s₂) := by
  have numbered := secure.kept.numbered
  have grows := (next_grows numbered (Nat.le_refl _) hnext).1
  have plan := advanced_plan numbered hnext
  obtain ⟨e, he, carries⟩ := attempt_true (s := advanced following s₁) grows.numbered trying
  have resolves := Resolves.carried hnext he carries
  have hc : (advanced following s₁).plan.cursor < (advanced following s₁).plan.queue.size := by
    rw [plan]
    simpa using (Array.getElem?_eq_some_iff.1 current).1
  have queues' : Queues Sole s₂ := carries.queues (lasting_sole p)
    (advanced_queues (lasting_sole p) numbered current hnext queues)
  refine ⟨resolves.secure closed current secure, queues', ?_, ?_, fun z ends hp => ?_⟩
  · exact Nat.lt_of_lt_of_le (Nat.zero_lt_of_lt hc) carries.queue
  · -- No more than one branch has been opened.
    have opened : (advanced following s₁).depth ≤ n := by
      rw [Search.depth, plan]
      exact shallow
    rcases carries.grows with rfl | grows'
    · exact opened.trans (Nat.le_succ n)
    · simp only [Search.depth, passed, grows'.checkpoints, branched, List.length_cons] at opened ⊢
      omega
  · change s₂.arena.live <+: z.live at hp
    change Affords p z (passed s₂).plan.seed s₂.ahead (n + 1)
    obtain ⟨site, m, waits, covered, others⟩ :=
      paid z ends ((grows.isPrefix.trans carries.isPrefix).trans hp)
    have ahead : (advanced following s₁).ahead = s.ahead := by
      simp [Search.ahead, plan, Array.toList_setIfInBounds, List.drop_set]
    have seeds : (advanced following s₁).plan.seed = s.plan.seed := by rw [plan]
    rw [resolves.same_seed numbered, ← seeds]
    rw [← ahead, ← seeds] at others
    exact carries_affords carries he ends grows.numbered hc hp (seeds ▸ waits) covered queues' others

end

/-- A step leads from a growing search to another one. -/
theorem Growing.step {limits : Limits} (h : Growing p n s)
    (hr : (step (world p).forgetful limits).run s = (.ok none, s')) : Growing p (n + 1) s' := by
  obtain ⟨entry, current, resolving⟩ := step_resolves hr
  have counts : Growing p n (counted s) :=
    ⟨h.secure.replan rfl rfl rfl rfl rfl, h.queues, h.filled, h.shallow, h.affords⟩
  obtain ⟨a, _, _, rfl, _⟩ :=
    counts.entry current (ends_of_sane counts.secure.arena) (List.prefix_refl _)
  obtain ⟨following, s₁, done, s₂, hnext, trying, rfl⟩ := resolve_tries resolving
  change (counted s).plan.queue[(counted s).plan.cursor]? = _ at current
  cases done with
  | false => exact counts.fails current hnext trying
  | true =>
      refine growing_of_success current hnext counts.secure counts.queues counts.shallow
        (fun z ends hp => ?_) trying
      obtain ⟨_, site, m, ha, rests, others⟩ := counts.entry current ends hp
      cases ha
      exact ⟨site, m, rests.waits, rests.covered, others⟩

/-! ### The plaza -/

structure Ready (p : Provider) (origin : Pos) (a : Attempt) (s : Search Unit) : Prop where
  secure : Secure (world p).forgetful s
  queues : Queues Sole s
  areas : s.plan.areas = #[]
  queue : s.plan.queue = #[some a]
  cursor : s.plan.cursor = 0
  outermost : s.plan.checkpoints.length = 1
  waits : ∀ z, (world p).Ends z → s.arena.live <+: z.live → a.Waits (world p) z s.plan.seed (root origin)

structure Failed (p : Provider) (s : Search Unit) : Prop where
  secure : Secure (world p).forgetful s
  queue : s.plan.queue = #[none]
  cursor : s.plan.cursor = 0
  outermost : s.plan.checkpoints.length = 1

inductive Stage (p : Provider) (origin : Pos) : Nat → Search Unit → Prop
  | ready {a : Attempt} {s : Search Unit} (h : Ready p origin a s) : Stage p origin 0 s
  | growing {n : Nat} {s : Search Unit} (level : Level p origin) (h : Growing p n s) : Stage p origin n s
  | failed {s : Search Unit} (uneven : ¬ Level p origin) (h : Failed p s) : Stage p origin 1 s
  | spent {s : Search Unit} (uneven : ¬ Level p origin) (queue : s.plan.queue = #[])
      (closed : s.plan.checkpoints = []) : Stage p origin 2 s

namespace Ready

theorem sole (h : Ready p origin a s) : Sole a := h.queues a (by simp [h.queue])

theorem current (h : Ready p origin a s) : s.plan.queue[s.plan.cursor]? = some (some a) := by
  simp [h.queue, h.cursor]

/-- Nothing but the plaza can be tried at the root. -/
theorem last (h : Ready p origin a s) : a.later = [] := by
  have waits := h.waits _ (ends_of_sane h.secure.arena) (List.prefix_refl _)
  have few : a.later.length + 1 ≤ 1 := h.sole.few waits
  exact List.length_eq_zero_iff.1 (Nat.le_zero.1 (Nat.le_of_succ_le_succ few))

theorem nothing_follows (h : Ready p origin a s)
    (hnext : (next (world p).forgetful a).run s = (.ok following, s₁)) : following = none := by
  rw [next, h.sole.single] at hnext
  dsimp only at hnext
  rw [h.last] at hnext
  cases hnext
  rfl

variable (h : Ready p origin a s) (hnext : (next (world p).forgetful a).run s = (.ok following, s₁))

include h hnext

/-- The plaza is placed exactly where the ground is level enough. -/
theorem level_iff (total : p.Total)
    (trying : (attempt (world p).forgetful a).run (advanced following s₁) = (.ok done, s₂)) :
    done = true ↔ Level p origin := by
  have numbered := h.secure.kept.numbered
  have grows := (next_grows numbered (Nat.le_refl _) hnext).1
  have plan := advanced_plan numbered hnext
  have secure : Secure (world p).forgetful (advanced following s₁) :=
    Secure.advanced (w := (world p).forgetful) closed h.secure h.current hnext
  refine attempt_plaza_iff (fun z ends hp => ?_) total secure ?_ trying
  · rw [plan]
    exact h.waits z ends (grows.isPrefix.trans hp)
  · rw [plan]
    exact h.areas

/-- Once the plaza has been placed, all that may come of it is paid for. -/
theorem succeeds
    (trying : (attempt (world p).forgetful a).run (advanced following s₁) = (.ok true, s₂)) :
    Growing p 1 (passed s₂) := by
  refine growing_of_success h.current hnext h.secure h.queues ?_
    (fun z ends hp => ⟨root origin, 0, h.waits z ends hp, covered_root _ _ _, ?_⟩) trying
  · rw [Search.depth, h.outermost]
  · have nothing : s.ahead = [] := by simp [Search.ahead, h.queue, h.cursor]
    have paid : toll a 0 settlement = allowance - 2 := by
      rw [toll, h.last]
      decide
    rw [nothing]
    refine ⟨[], .nil, by simp, ?_⟩
    simp [paid]

theorem fails
    (trying : (attempt (world p).forgetful a).run (advanced following s₁) = (.ok false, s₂)) :
    Failed p s₂ := by
  have numbered := h.secure.kept.numbered
  have grows := (next_grows numbered (Nat.le_refl _) hnext).1
  have same : Same (advanced following s₁) s₂ := attempt_false grows.numbered trying
  obtain rfl := h.nothing_follows hnext
  have plan := same.plan.trans (advanced_plan numbered hnext)
  refine ⟨(Resolves.failed hnext same).secure closed h.current h.secure, ?_, ?_, ?_⟩ <;> rw [plan]
  · simp [h.queue, h.cursor]
  · exact h.cursor
  · exact h.outermost

end Ready

/-- The search goes on below the plaza if the ground is level enough, and has failed otherwise. -/
theorem Ready.step {limits : Limits} (total : p.Total) (h : Ready p origin a s)
    (hr : (step (world p).forgetful limits).run s = (.ok none, s')) : Stage p origin 1 s' := by
  have counts : Ready p origin a (counted s) := ⟨h.secure.replan rfl rfl rfl rfl rfl, h.queues, h.areas,
    h.queue, h.cursor, h.outermost, h.waits⟩
  obtain ⟨entry, current, resolving⟩ := step_resolves hr
  obtain rfl := Option.some.inj (current.symm.trans h.current)
  obtain ⟨following, s₁, done, s₂, hnext, trying, rfl⟩ := resolve_tries resolving
  have level_iff := counts.level_iff hnext total trying
  cases done with
  | true => exact .growing (level_iff.1 rfl) (counts.succeeds hnext trying)
  | false => exact .failed (fun level => nomatch level_iff.2 level) (counts.fails hnext trying)

/-- Undoing the one branch that is open leaves nothing to try. -/
theorem Failed.step {limits : Limits} (h : Failed p s)
    (hr : (step (world p).forgetful limits).run s = (.ok none, s')) :
    s'.plan.queue = #[] ∧ s'.plan.checkpoints = [] := by
  obtain ⟨entry, current, resolving⟩ := step_resolves hr
  obtain rfl : entry = none := by simpa [h.queue, h.cursor, eq_comm] using current
  obtain ⟨c, rest, opened, rfl⟩ := undo_ok resolving
  change s.plan.checkpoints = c :: rest at opened
  obtain rfl : rest = [] := by simpa [opened] using h.outermost
  have found := h.secure.outermost
  rw [Search.outermost, opened] at found
  exact ⟨found, rfl⟩

namespace Stage

theorem step {limits : Limits} (total : p.Total) (h : Stage p origin n s)
    (hr : (step (world p).forgetful limits).run s = (.ok none, s')) : Stage p origin (n + 1) s' := by
  cases h with
  | ready h => exact h.step total hr
  | growing level h => exact .growing level (h.step hr)
  | failed uneven h =>
      obtain ⟨queue, closed⟩ := h.step hr
      exact .spent uneven queue closed
  | spent uneven queue closed =>
      rw [run_step] at hr
      simp only [queue, List.getElem?_toArray, List.getElem?_nil, Array.isEmpty_empty, if_true] at hr
      cases hr

theorem path {limits : Limits} {m : Nat} (total : p.Total) (h : Stage p origin m s)
    (path : Path (world p).forgetful limits n s s') : Stage p origin (m + n) s' := by
  induction path generalizing m with
  | none => exact h
  | step first _ ih =>
      have later := ih (h.step total first)
      rwa [Nat.add_right_comm, Nat.add_assoc] at later

/-- No stage comes near a limit. -/
theorem modest (h : Stage p origin n s) : n ≤ allowance ∧ s.depth ≤ allowance := by
  cases h with
  | ready h => exact ⟨Nat.zero_le _, by simp [Search.depth, h.outermost]⟩
  | growing level h => exact ⟨h.le_allowance, h.shallow.trans h.le_allowance⟩
  | failed uneven h => exact ⟨by decide, by simp [Search.depth, h.outermost]⟩
  | spent uneven queue closed => exact ⟨by decide, by simp [Search.depth, closed]⟩

theorem not_stopped (h : Stage p origin n s) (count : s.plan.expansions = n) :
    stopped? GeneratorConfig.standard.limits (counted s) = none := by
  obtain ⟨few, shallow⟩ := h.modest
  have small : allowance = 135 := by decide
  rw [stopped?, if_neg, if_neg]
  · show ¬ 2000 ≤ s.depth
    omega
  · show ¬ 10000 ≤ s.plan.expansions + 1
    omega

/-- With nothing left at the cursor, something is queued if the ground is level enough, and nothing
otherwise. -/
theorem past (h : Stage p origin n s) (past : s.plan.queue[s.plan.cursor]? = none) :
    Level p origin ∧ s.plan.queue ≠ #[] ∨ ¬ Level p origin ∧ s.plan.queue = #[] := by
  cases h with
  | ready h => cases h.current.symm.trans past
  | growing level h => exact .inl ⟨level, Array.size_pos_iff.1 h.filled⟩
  | failed uneven h => simp [h.queue, h.cursor] at past
  | spent uneven queue closed => exact .inr ⟨uneven, queue⟩

/-- The last step has found a solution if the ground is level enough, and none otherwise. -/
theorem last (h : Stage p origin n s) (count : s.plan.expansions = n)
    {r : Except SearchFailure Unit}
    (hr : (Search.step (world p).forgetful GeneratorConfig.standard.limits).run s = (.ok (some r), s')) :
    Level p origin ∧ r = .ok () ∨ ¬ Level p origin ∧ ∃ k, r = .error (.noSolution k) := by
  rw [run_step, h.not_stopped count] at hr
  split at hr
  · next nothing =>
    rcases h.past nothing with ⟨level, filled⟩ | ⟨uneven, empty⟩
    · rw [if_neg (mt Array.isEmpty_iff.1 filled)] at hr
      cases hr
      exact .inl ⟨level, rfl⟩
    · rw [if_pos (Array.isEmpty_iff.2 empty)] at hr
      cases hr
      exact .inr ⟨uneven, _, rfl⟩
  · obtain ⟨_, _, _, running⟩ := SearchM.bind_ok hr
    cases running

end Stage

/-! ### Searches -/

/-- A search that has been set up is about to try the plaza. -/
theorem setup_ready {seed : Seed}
    (hr : (setup (world p).forgetful settlement origin seed).run s = (.ok (), s')) :
    ∃ a, Ready p origin a s' := by
  have entering := hr
  rw [run_setup] at entering
  obtain ⟨b, s₁, enters, done⟩ := SearchM.bind_ok entering
  cases done
  have numbered := numbered_started (world p).forgetful origin seed s
  obtain rfl := enterRule_quiet (by decide) (by decide) numbered rfl enters
  rcases enterRule_ok numbered enters with ⟨failed, _⟩ | ⟨_, r, x, a, enters⟩
  · cases failed
  obtain ⟨q, queued, hplan⟩ := enters.queued
  obtain rfl : q = #[some a] := by
    rcases queued with ⟨hle, _⟩ | rfl
    · exact absurd hle (Nat.not_succ_le_zero _)
    · rfl
  refine ⟨a, setup_secure (w := (world p).forgetful) closed hr, setup_queues (lasting_sole p) hr,
    ?_, ?_, ?_, ?_, fun z ends hp => ?_⟩ <;> rw [hplan]
  · rfl
  · rfl
  · rfl
  · exact enters.waits ends numbered hp

/-- A search for a settlement within the standard limits is answered by whether the ground is level
enough. -/
theorem answer_of_level {seed : Seed} (total : p.Total) {r : Except SearchFailure Unit}
    (hr : ((setup (world p).forgetful settlement origin seed) >>= fun _ =>
      process (world p).forgetful GeneratorConfig.standard.limits).run s = (.ok r, s')) :
    Level p origin ∧ r = .ok () ∨ ¬ Level p origin ∧ ∃ k, r = .error (.noSolution k) := by
  obtain ⟨_, s₁, begun, processing⟩ := SearchM.bind_ok hr
  have room : 1 ≤ GeneratorConfig.standard.limits.expansions := by decide
  have running := setup_arrives (world p).forgetful room settlement origin seed s
  rw [begun] at running
  obtain ⟨n, t, path, last⟩ := steps_end (world p).forgetful running
    (k := GeneratorConfig.standard.limits.expansions + 1) (by omega)
  unfold process at processing
  rw [processing] at last
  obtain ⟨a, ready⟩ := setup_ready begun
  have stage := (Stage.ready ready).path total path
  exact stage.last (path.running running).count last

/-- Within the standard limits, and with a provider that does not break down, a search for a settlement is
answered, whatever the generator was asked for before. Where the ground is level enough for the plaza, it
finds what a derivation of the grammar places: the plaza, no more than three roads from each of its four
exits, and no more than 45 components in all. Elsewhere it finds that there is no solution. So no limit
ever stops it. -/
theorem settlement_is_found_where_level (total : p.Total) {rule street : RuleId}
    {plaza road : ComponentId} (entry : grammar.findRule entryRule = some rule)
    (exits : grammar.findRule "street" = some street)
    (center : grammar.findComponent "plaza" = some plaza)
    (ways : grammar.findComponent "road" = some road) (origin : Pos) (seed : Seed) {s : Search Memory}
    (used : Used (.remembering grammar p) s) :
    let w := World.remembering grammar p
    let run := (do setup w rule origin seed; process w GeneratorConfig.standard.limits).run s
    (Level p origin ∧ run.1 = .ok (.ok ()) ∧
      ∃ t : Derivation, t.site = ⟨none, rule, origin, .unspecified⟩ ∧
        t.Valid w run.2.arena (Seed.hashPos origin seed) ∧
        run.2.plan.placements.toList.Perm t.placements ∧ t.Settles plaza road street) ∨
    (¬ Level p origin ∧ ∃ n, run.1 = .ok (.error (.noSolution n))) := by
  intro w run
  obtain ⟨hrule, hstreet, hplaza, hroad⟩ := tables.names
  obtain rfl := Option.some.inj (hrule.symm.trans entry)
  obtain rfl := Option.some.inj (hstreet.symm.trans exits)
  obtain rfl := Option.some.inj (hplaza.symm.trans center)
  obtain rfl := Option.some.inj (hroad.symm.trans ways)
  have known : settlement < grammar.rules.size := tables.rules ▸ Nat.zero_lt_succ 3
  obtain ⟨r, answered⟩ := search_is_answered built closed acyclic total used known origin seed
    GeneratorConfig.standard.limits
  -- The same search without a memory goes the same way.
  let run' := ((setup w.forgetful settlement origin seed) >>= fun _ =>
    process w.forgetful GeneratorConfig.standard.limits).run s.forgotten
  have forgotten : Matches (.forgetting built.marked p) (fun _ => 0) Eq run run' :=
    search_forgotten built.marked (used.trusted built) _ settlement origin seed
  obtain ⟨agree, mirror⟩ := forgotten
  have answered' : run' = (.ok r, run'.2) := Prod.ext (agree.eq.symm.trans answered) rfl
  rcases answer_of_level total answered' with ⟨level, rfl⟩ | ⟨uneven, n, rfl⟩
  · refine .inl ⟨level, answered, ?_⟩
    have ends : w.Ends run.2.arena :=
      ⟨built.marked, closed.tiered, mirror.arena.numbered, mirror.ground⟩
    obtain ⟨t, hroot, valid, placed⟩ := process_promises ends answered'
      (mirror.live_eq ▸ List.prefix_refl _)
    rw [mirror.plan_eq] at placed
    exact ⟨t, hroot, valid, placed, settles_of_valid valid mirror.ground hroot⟩
  · exact .inr ⟨uneven, n, answered⟩

/-- Where the ground is at height 0 everywhere, there is a settlement at the origin and none high above. -/
theorem settlement_is_found_on_the_ground :
    let w := World.remembering grammar .none
    let config := GeneratorConfig.standard
    let fresh := Search.new (.ofCache (.new config.cacheCapacity config.eviction))
    let run := fun origin => (do setup w settlement origin 11; process w config.limits).run fresh
    Provider.none.Total ∧ Used w fresh ∧ grammar.findRule entryRule = some settlement ∧
      grammar.findRule "street" = some street ∧ grammar.findComponent "plaza" = some plaza ∧
      grammar.findComponent "road" = some road ∧ (run .zero).1 = .ok (.ok ()) ∧
      (∃ t : Derivation, (run .zero).2.plan.placements.toList.Perm t.placements ∧
        t.Settles plaza road street) ∧
      ∃ n, (run ⟨0, 200, 0⟩).1 = .ok (.error (.noSolution n)) := by
  intro w config fresh run
  have total := Provider.total_none
  have used : Used w fresh := .new Cache.standardDraws config.cacheCapacity config.eviction
  obtain ⟨hrule, hstreet, hplaza, hroad⟩ := tables.names
  have ground : Level .none .zero := ⟨_, _, rfl, rfl, by decide +kernel, by decide +kernel⟩
  have sky : ¬ Level .none ⟨0, 200, 0⟩ := by
    rintro ⟨_, _, ⟨⟩, ⟨⟩, _, high⟩
    exact absurd high (by decide +kernel)
  have below := settlement_is_found_where_level total hrule hstreet hplaza hroad .zero 11 used
  have above := settlement_is_found_where_level total hrule hstreet hplaza hroad ⟨0, 200, 0⟩ 11 used
  obtain ⟨_, found, t, _, _, placed, settles⟩ := below.resolve_right fun uneven => uneven.1 ground
  obtain ⟨_, nothing⟩ := above.resolve_left fun level => sky level.1
  exact ⟨total, used, hrule, hstreet, hplaza, hroad, found, ⟨t, placed, settles⟩, nothing⟩

end VoxelGrammar.Settlement
