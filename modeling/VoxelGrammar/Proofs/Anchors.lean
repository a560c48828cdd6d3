import VoxelGrammar.Proofs.Poses

/-!
Where components are attached. The node of a component and the entry that it resolves are joined face to
face, in the cell of the entry or with a block between them, whatever frames there are above the entry.
A rule that takes the place of another one keeps its frame and its orientation, so the same is said about
the entry that a chain of rules began with.
-/

namespace VoxelGrammar

variable {own : Prop} {μ : Type} {w : World μ} {g : Grammar} {s s' : Search μ} {t : Attempt}

/-- A component whose frame is `frame` is joined at its node `n`, which is at `q` and is turned to `v`, to
an anchor at the origin of `place` that is turned to `o`. -/
structure Node.Meets (n : Node) (frame : Transform) (q : Pos) (v : Orientation) (place : Transform)
    (o : Orientation) : Prop where
  inside : n.flag .horizontalEdge false = false → n.flag .verticalEdge false = false →
    n.flag .adjacent false = false → frame.apply q = place.origin
  beside : n.flag .horizontalEdge false = false → n.flag .verticalEdge false = false →
    n.flag .adjacent false = true → o.isSpecified = true →
      frame.apply q = place.origin + place.applyVector o.forward
  forward : o.isSpecified = true → v.isSpecified = true →
    frame.applyVector v.forward = -place.applyVector o.forward
  up : o.isSpecified = true → v.isSpecified = true →
    frame.applyVector v.up = place.applyVector o.up

namespace Search

/-! ### Placements -/

/-- The node comes to where the alignment moves it. -/
theorem attach_apply (entry : RuleEntry) (o : Attachment) (joint : Joint) (q : Pos) :
    (attach entry o joint q).apply q =
      (o.orientation.alignTo entry.orientation.adjacent joint).offset := by
  have back : (Transform.shift (-q)).apply q = .zero := by
    ext <;> simp [Transform.apply, Transform.shift, Pos.zero] <;> grind
  rw [attach, Transform.apply_mul, back, Transform.apply]
  ext <;> simp [Rotation.apply, Pos.dot, Pos.zero]

/-- Directions are turned as the alignment says. -/
theorem attach_applyVector (entry : RuleEntry) (o : Attachment) (joint : Joint) (q v : Pos) :
    (attach entry o joint q).applyVector v =
      (Orientation.alignRotation o.orientation entry.orientation.adjacent joint).apply v := by
  have rotation : (attach entry o joint q).rotation =
      Orientation.alignRotation o.orientation entry.orientation.adjacent joint :=
    Rotation.mul_identity _
  rw [Transform.applyVector, rotation]

/-- The placement of a component joins its node to the entry. -/
theorem attach_meets {entry : RuleEntry} {o : Attachment} (valid : o.orientation.isValid = true)
    (n : Node) (reflected : Bool) (q : Pos) (place : Transform) :
    n.Meets (place * attach entry o (n.joint reflected) q) q o.orientation place
      entry.orientation := by
  obtain ⟨forward, up⟩ := Orientation.alignRotation_carries valid entry.orientation.adjacent
    (n.joint reflected)
  have turned : ∀ v, (place * attach entry o (n.joint reflected) q).applyVector v =
      place.applyVector ((attach entry o (n.joint reflected) q).applyVector v) := fun v =>
    Rotation.apply_mul _ _ v
  have moved : n.flag .horizontalEdge false = false → n.flag .verticalEdge false = false →
      (place * attach entry o (n.joint reflected) q).apply q = place.apply
        (if n.flag .adjacent false then -entry.orientation.adjacent.forward else .zero) := by
    intro hh hv
    have offset : (o.orientation.alignTo entry.orientation.adjacent (n.joint reflected)).offset = _ :=
      Orientation.offset_alignTo hh hv _ _
    rw [Transform.apply_mul, attach_apply, offset]
    rfl
  refine ⟨fun hh hv inside => ?_, fun hh hv beside ho => ?_, fun ho _ => ?_, fun _ _ => ?_⟩
  · rw [moved hh hv, inside, if_neg Bool.false_ne_true]
    ext <;> simp [Transform.apply, Transform.origin, Rotation.apply, Pos.dot, Pos.zero]
  · have twice : - -entry.orientation.forward = entry.orientation.forward := by ext <;> simp
    rw [moved hh hv, beside, if_pos rfl, Orientation.forward_adjacent ho, twice]
    ext <;> exact Int32.add_comm _ _
  · rw [turned, attach_applyVector, forward, Orientation.forward_adjacent ho]
    exact Rotation.apply_neg _ _
  · rw [turned, attach_applyVector, up, Orientation.up_adjacent]

/-! ### Searches -/

/-- The entry, whose context has the given frame, is one that is turned to `o` and lies at `place`, or it
has been entered in the place of such an entry by a chain of rules. -/
inductive Replaces (w : World μ) (s : Search μ) (o : Orientation) (place : Transform) :
    RuleEntry → Transform → Prop
  | itself {entry : RuleEntry} (turned : entry.orientation = o) : Replaces w s o place entry place
  | rule {s' s₁ s₂ : Search μ} {t u : Attempt} {id : RuleId} {r : Rule} {z x : Context}
      (earlier : Replaces w s o place t.entry z.toWorld) (underway : Underway w s s')
      (takes : TakesUp w s' t s₁) (there : s₁.arena.get t.entry.context = .ok z)
      (enters : EntersRule w id .zero t.entry.orientation (some t.context)
        (branched s₁.arena.size s₁) r x u s₂) : Replaces w s o place u.entry x.toWorld

section

variable {s₁ s₂ : Search μ} (tiered : w.grammar.Tiered) (upright : w.grammar.Upright)
  (underway : Underway w s s') (takes : TakesUp w s' t s₁)

include tiered upright underway takes

/-- An attempt is taken up among contexts that lie as they are to. -/
theorem TakesUp.poised : s₁.arena.Numbered ∧ t.Poised w.grammar s₁.arena.live := by
  obtain ⟨kept, poised⟩ := underway.poised tiered upright
  obtain ⟨following, s₂, looked, rfl⟩ := takes.looked
  have ht := poised.queue t (Array.mem_of_getElem? takes.current)
  have numbered : (counted s').arena.Numbered := kept.numbered
  exact ⟨(next_grows numbered (Nat.le_refl _) looked).1.numbered,
    (advanced_poised upright numbered ⟨poised.contexts, poised.queue⟩ ht looked).2⟩

/-- What is entered below an expansion is placed against the frame of the rule above it. -/
theorem TakesUp.frame {z x : Context} (there : s₁.arena.get t.entry.context = .ok z)
    {ref : SymbolRef} {placement : Transform} {seed : Seed}
    (prepared : s₁.arena.prepare w.grammar (some t.context) ref placement seed = .ok x) :
    x.toWorld = z.toWorld * placement := by
  obtain ⟨numbered, poised⟩ := takes.poised tiered upright underway
  obtain ⟨z', y, hz, hy, _, frame⟩ := poised.context
  cases there.symm.trans ((Arena.mem_live_iff numbered).1 hz)
  obtain ⟨_, _, below⟩ := Arena.frame_of_prepare prepared
  rw [below _ y rfl ((Arena.mem_live_iff numbered).1 hy), frame]

end

theorem EntersRule.entry {id : RuleId} {origin : Pos} {orientation : Orientation}
    {parent : Option Handle} {r : Rule} {x : Context}
    (h : EntersRule w id origin orientation parent s r x t s') :
    t.entry = ⟨orientation, (s.arena.push x).1⟩ := by
  obtain ⟨_, _, _, _, ⟨_, _, _, _, _, _, _, opened⟩, _⟩ := h.opens
  rw [opened.attempt]

/-- A chain of rules hands on the frame and the orientation that it began with. -/
theorem Replaces.same {o : Orientation} {place frame : Transform} {entry : RuleEntry}
    (tiered : w.grammar.Tiered) (upright : w.grammar.Upright)
    (replaces : Replaces w s o place entry frame) : entry.orientation = o ∧ frame = place := by
  induction replaces with
  | itself turned => exact ⟨turned, rfl⟩
  | rule _ underway takes there enters ih =>
      obtain ⟨turned, same⟩ := ih
      obtain ⟨_, _, opens, _⟩ := enters.opens
      have frame := takes.frame tiered upright underway there opens.prepared
      rw [enters.entry]
      exact ⟨turned, frame.trans ((Transform.mul_identity _).trans same)⟩

/-- After four attempts the entry at the corner of a farm is replaced by one for a shelter, and after
one more that is resolved. -/
theorem farm_replaces_corner :
    let world := World.remembering farm.compile .none
    let side : Orientation := .facing .posX .posY
    let corner : Transform := .shift ⟨17, 0, 2⟩
    ∃ s s' s'', Underway world (.new (.ofCache (.new 0 .standard))) s ∧
      (step world ⟨10, 10⟩).run s = (.ok none, s') ∧ (step world ⟨10, 10⟩).run s' = (.ok none, s'') ∧
      (s.arena.Numbered ∧ s'.arena.Numbered) ∧
      (s'.plan.cursor ≠ s.plan.cursor ∧ s''.plan.cursor ≠ s'.plan.cursor ∧
        s.plan.queue.size = s.plan.cursor + 1) ∧
      (∃ t, s.plan.queue[s.plan.cursor]? = some (some t) ∧ t.candidate.expansion = 2 ∧
        t.entry = ⟨side, ⟨3, 0⟩⟩ ∧ t.later = []) ∧
      (∃ t, s'.plan.queue[s'.plan.cursor]? = some (some t) ∧ t.candidate.expansion = 3 ∧
        t.entry = ⟨side, ⟨6, 1⟩⟩ ∧ t.alternatives ≠ [] ∧
          t.attachment.orientation.isSpecified = true) ∧
      (∃ y, s.arena.get ⟨3, 0⟩ = .ok y ∧ y.toWorld = corner) ∧
      ∃ y, s'.arena.get ⟨6, 1⟩ = .ok y ∧ y.toWorld = corner := by
  intro world side corner
  let fresh : Search Memory := .new (.ofCache (.new 0 .standard))
  have used : Used world fresh := .new Cache.standardDraws 0 .standard
  obtain ⟨run, hrun⟩ : ∃ run, (do setup world.forgetful 0 .zero 1; steps world.forgetful ⟨10, 10⟩ 4 :
    SearchM Unit _).run fresh.forgotten = run := ⟨_, rfl⟩
  obtain ⟨run', hrun'⟩ : ∃ run', (step world.forgetful ⟨10, 10⟩).run run.2 = run' := ⟨_, rfl⟩
  obtain ⟨run'', hrun''⟩ : ∃ run'', (step world.forgetful ⟨10, 10⟩).run run'.2 = run'' := ⟨_, rfl⟩
  have answers : run.1 = .ok (.error (.expansionLimit 10)) ∧ run'.1 = .ok none ∧ run''.1 = .ok none ∧
      (run'.2.plan.cursor ≠ run.2.plan.cursor ∧ run''.2.plan.cursor ≠ run'.2.plan.cursor ∧
        run.2.plan.queue.size = run.2.plan.cursor + 1) ∧
      (∃ t ∈ run.2.plan.queue[run.2.plan.cursor]?.join, t.candidate.expansion = 2 ∧
        t.entry = ⟨side, ⟨3, 0⟩⟩ ∧ t.later.length = 0) ∧
      (∃ t ∈ run'.2.plan.queue[run'.2.plan.cursor]?.join, t.candidate.expansion = 3 ∧
        t.entry = ⟨side, ⟨6, 1⟩⟩ ∧ t.alternatives ≠ [] ∧
          t.attachment.orientation.isSpecified = true) ∧
      Succeeds (fun y : Context => y.toWorld = corner) (run.2.arena.get ⟨3, 0⟩) ∧
      Succeeds (fun y : Context => y.toWorld = corner) (run'.2.arena.get ⟨6, 1⟩) := by
    subst hrun'' hrun' hrun
    decide +kernel
  obtain ⟨ends, first, second, cursors, ⟨t, current, expansion, entry, later⟩,
    ⟨t', current', resolves⟩, ⟨y, hy, place⟩, ⟨y', hy', place'⟩⟩ := answers
  have same : Matches (.forgetting built_farm.marked .none) (fun _ => 0) Eq
      ((do setup world 0 .zero 1; steps world ⟨10, 10⟩ 4).run fresh) run := by
    rw [← hrun]
    exact steps_forgotten built_farm.marked (used.trusted built_farm) ⟨10, 10⟩ 0 .zero 1 4
  obtain ⟨s, started, mirror⟩ := same.answer ends
  have same' : Matches _ _ Eq _ run' := hrun' ▸ step_matches mirror ⟨10, 10⟩
  obtain ⟨s', first, mirror'⟩ := same'.answer first
  have same'' : Matches _ _ Eq _ run'' := hrun'' ▸ step_matches mirror' ⟨10, 10⟩
  obtain ⟨s'', second, mirror''⟩ := same''.answer second
  rw [mirror.plan_eq, mirror'.plan_eq, mirror''.plan_eq] at cursors
  rw [mirror.plan_eq] at current
  rw [mirror'.plan_eq] at current'
  refine ⟨s, s', s'', .search started, first, second, ⟨mirror.arena.numbered, mirror'.arena.numbered⟩,
    cursors, ?_, ?_, ?_, ?_⟩
  · exact ⟨t, Option.join_eq_some_iff.1 current, expansion, entry, List.length_eq_zero_iff.1 later⟩
  · exact ⟨t', Option.join_eq_some_iff.1 current', resolves⟩
  · exact ⟨y, mirror.get_ok hy, place⟩
  · exact ⟨y', mirror'.get_ok hy', place'⟩

/-- Whenever carrying an attempt out comes to a context that has been created for a component, the
component is joined at its node to the entry that it resolves, and to the one that this entry has come
from by any chain of rules. -/
theorem components_meet_anchors (hg : g.Built own) (p : Provider) {s s' s₁ s₂ : Search Memory}
    (underway : Underway (.remembering g p) s s') (takes : TakesUp (.remembering g p) s' t s₁)
    {e : Expansion} {name : Option String} {id : ComponentId} {c : Component} {mark : Nat} {h : Handle}
    (expansion : g.expansion t.candidate.expansion = .ok e) (target : e.target = .component id name)
    (component : g.component id = .ok c)
    (created : (createComponent (.remembering g p) id c t).run s₁ = (.ok (some (mark, h)), s₂)) :
    let w := World.remembering g p
    (attempt w t).run s₁ = (settleComponent w id t c mark h).run s₂ ∧
    ∃ n q x z, c.nodes[t.attachment.node]? = some n ∧
      ((w.samplePos s₁.arena t.context n.position).run s₁.memory).1 = .ok q ∧
      s₂.arena.get h = .ok x ∧ s₁.arena.get t.entry.context = .ok z ∧
      n.Meets x.toWorld q t.attachment.orientation z.toWorld t.entry.orientation ∧
      ∀ o place, Replaces w s o place t.entry z.toWorld →
        n.Meets x.toWorld q t.attachment.orientation place o := by
  intro w
  obtain ⟨n, q, x, creates, rfl, pushed⟩ :=
    creates_of_run (w := w) expansion target component created
  obtain ⟨numbered, poised⟩ := takes.poised hg.closed.tiered hg.upright underway
  obtain ⟨z, _, hz, _⟩ := poised.context
  have there := (Arena.mem_live_iff numbered).1 hz
  have meets : n.Meets x.toWorld q t.attachment.orientation z.toWorld t.entry.orientation := by
    rw [takes.frame hg.closed.tiered hg.upright underway there creates.prepared]
    exact attach_meets (poised.attachments _ List.mem_cons_self) n _ q z.toWorld
  refine ⟨run_attempt_component (w := w) expansion target component created, n, q, x, z, creates.node,
    creates.position, pushed ▸ Arena.get_push numbered x, there, meets, fun o place replaces => ?_⟩
  obtain ⟨rfl, same⟩ := replaces.same hg.closed.tiered hg.upright
  exact same ▸ meets

/-- The hut of a farm is placed by its door beside the turned side of the yard: the entry there is the
one at the first handle, which the rule of shelters has replaced by the one at the second. -/
theorem components_meet_anchors_farm :
    let world := World.remembering farm.compile .none
    let fresh := Search.new (.ofCache (.new 0 .standard))
    let side : Orientation := .facing .posX .posY
    let corner : Transform := .shift ⟨17, 0, 2⟩
    ∃ (t₀ t : Attempt) (s s₁ s₂ : Search Memory) (e : Expansion) (c : Component) (mark : Nat)
      (h : Handle) (n : Node) (q : Pos) (x : Context), farm.compile.Built True ∧
      Underway world fresh s ∧ TakesUp world s t s₁ ∧
      farm.compile.expansion t.candidate.expansion = .ok e ∧
      e.target = .component 2 (some "door") ∧ farm.compile.component 2 = .ok c ∧
      (createComponent world 2 c t).run s₁ = (.ok (some (mark, h)), s₂) ∧
      c.nodes[t.attachment.node]? = some n ∧ s₂.arena.get h = .ok x ∧
      (t₀.entry = ⟨side, ⟨3, 0⟩⟩ ∧ t.entry = ⟨side, ⟨6, 1⟩⟩ ∧
        Replaces world fresh side corner t₀.entry corner ∧
        Replaces world fresh side corner t.entry corner) ∧
      n.Meets x.toWorld q t.attachment.orientation corner side ∧ x.toWorld.apply q = ⟨18, 0, 2⟩ ∧
      x.toWorld.applyVector t.attachment.orientation.forward = ⟨-1, 0, 0⟩ ∧
      x.toWorld.applyVector t.attachment.orientation.up = ⟨0, 1, 0⟩ := by
  intro world fresh side corner
  obtain ⟨s, s', s'', underway, first, second, ⟨numbered, numbered'⟩, ⟨ahead, ahead', last⟩,
    ⟨t₀, current₀, expansion₀, entry₀, later⟩, ⟨t, current, expansion, entry, alternatives, turned⟩,
    ⟨y, hy, place⟩, ⟨y', hy', place'⟩⟩ := farm_replaces_corner
  have underway' : Underway world fresh s' := .step underway first
  obtain ⟨e₀, he₀, target₀⟩ : Succeeds (fun e : Expansion => e.target = .rule 2)
      (farm.compile.expansion 2) := by decide +kernel
  obtain ⟨e, he, target⟩ : Succeeds (fun e : Expansion => e.target = .component 2 (some "door"))
      (farm.compile.expansion 3) := by decide +kernel
  obtain ⟨c, hc, doors⟩ : Succeeds (fun c : Component => ∀ n ∈ c.nodes,
      n.flag .horizontalEdge false = false ∧ n.flag .verticalEdge false = false ∧
        n.flag .adjacent false = true) (farm.compile.component 2) := by decide +kernel
  -- The corner is handed over to the rule of shelters, and that entry is resolved by the hut.
  obtain ⟨s₀, _, _, x₀, t', takes₀, enters, next⟩ := step_hands_over (w := world) numbered current₀
    (expansion₀ ▸ he₀) target₀ first ahead last
  obtain rfl : t = t' := Option.some.inj (Option.some.inj (current.symm.trans next))
  obtain ⟨s₁, _, takes, attempted, _⟩ := step_carries (w := world) numbered' current second ahead'
  obtain ⟨mark, h, s₂, created⟩ :=
    created_of_attempt (w := world) (expansion ▸ he) target hc attempted
  obtain ⟨_, n, q, x, z, node, _, gets, there, _, meets⟩ :=
    components_meet_anchors built_farm .none underway' takes (expansion ▸ he) target hc created
  have there₀ : s₀.arena.get t₀.entry.context = .ok y := by
    rw [takes₀.arena_eq (.inr later), entry₀, hy]
  have earlier : Replaces world fresh side corner t₀.entry y.toWorld := by
    rw [place]
    exact .itself (congrArg (·.orientation) entry₀)
  have chain := Replaces.rule earlier underway takes₀ there₀ enters
  have frame := (chain.same built_farm.closed.tiered built_farm.upright).2
  have here : z.toWorld = corner := by
    rw [takes.arena_eq (.inl alternatives), entry, hy'] at there
    cases there
    exact place'
  rw [frame] at chain
  rw [place] at earlier
  have meets := meets side corner (here ▸ chain)
  obtain ⟨horizontal, vertical, adjacent⟩ := doors n (Array.mem_of_getElem? node)
  refine ⟨t₀, t, s', s₁, s₂, e, c, mark, h, n, q, x, built_farm, underway', takes, expansion ▸ he,
    target, hc, created, node, gets, ⟨entry₀, entry, earlier, chain⟩, meets, ?_, ?_, ?_⟩
  · exact (meets.beside horizontal vertical adjacent rfl).trans (by decide +kernel)
  · exact (meets.forward rfl turned).trans (by decide +kernel)
  · exact (meets.up rfl turned).trans (by decide +kernel)

end Search

end VoxelGrammar
