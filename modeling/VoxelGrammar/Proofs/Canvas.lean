import VoxelGrammar.Proofs.Independence
import VoxelGrammar.Proofs.Progress
import VoxelGrammar.Proofs.Writes

/-!
Painting a structure writes to the cells of subchunks and to nothing else, so there is room for
every write; and the records that it reads have a sample for every cell. Together with the search
that found the structure, a generator therefore answers whatever it is asked for, unless one of its
evaluations goes on forever.
-/

namespace VoxelGrammar

variable {μ α β : Type}

/-! ### Paintings -/

/-- The painting only breaks down in an evaluation that goes on forever, its answers have the
property, and all that it writes has a cell to go to. -/
def World.Renders (w : World μ) (a : Arena) (P : α → Prop) (x : Painting Unit α) : Prop :=
  ∀ m memory, m.Addressed → Gives (w.RunsOn a) P ((x.run m).run memory).1.1 ∧
    ((x.run m).run memory).1.2.Addressed

namespace World.Renders

variable {w : World μ} {a : Arena} {P : α → Prop} {Q : β → Prop} {x : Painting Unit α}

theorem pure {v : α} (h : P v) : w.Renders a P (Pure.pure v) := fun _ _ hm => ⟨.ok h, hm⟩

theorem bind {f : α → Painting Unit β} (h : w.Renders a P x) (hf : ∀ v, P v → w.Renders a Q (f v)) :
    w.Renders a Q (x >>= f) := by
  intro m memory hm
  obtain ⟨gives, hm⟩ := h m memory hm
  rw [Paints.run_bind]
  rcases hx : (x.run m).run memory with ⟨⟨e | v, m'⟩, memory'⟩ <;> rw [hx] at gives hm
  · refine ⟨⟨fun f hf => gives.1 f ?_, fun v hv => nomatch hv⟩, hm⟩
    cases hf
    rfl
  · exact hf v (gives.2 v rfl) m' memory' hm

theorem evaluate {y : Eval Unit α} (h : w.Answers a P y) : w.Renders a P (liftM y) :=
  fun _ memory hm => ⟨h memory, hm⟩

theorem lift {y : Except Fault α} (h : Succeeds P y) : w.Renders a P (liftM y) := by
  intro m memory hm
  obtain ⟨v, rfl, hv⟩ := h
  exact ⟨.ok hv, hm⟩

theorem change {f : BlockMap → Except Fault BlockMap}
    (hf : ∀ m, m.Addressed → Succeeds BlockMap.Addressed (f m)) :
    w.Renders a (fun _ => True) (Painting.change f) := by
  intro m memory hm
  obtain ⟨m', hm', addressed⟩ := hf m hm
  have painted : ((Painting.change f : Painting Unit Unit).run m).run memory =
      ((.ok (), m'), memory) := by
    simp only [Painting.change, ExceptT.run_mk, StateT.run, hm']
    rfl
  rw [painted]
  exact ⟨.ok trivial, addressed⟩

theorem forM {xs : List α} {f : α → Painting Unit Unit}
    (h : ∀ v, w.Renders a (fun _ => True) (f v)) : w.Renders a (fun _ => True) (xs.forM f) := by
  induction xs with
  | nil => exact pure trivial
  | cons v xs ih => exact bind (h v) fun _ _ => ih

end World.Renders

namespace Painting

variable {w : World μ} {a : Arena} {h : Handle}

/-- The blocks of a box can be read off a record of its subchunk, and each has a cell. -/
theorem defined_succeeds {r : Record} (fits : r.Fits .subchunk) (box : Box) :
    Succeeds (fun writes : List (UInt16 × Block) => ∀ e ∈ writes, e.1.toNat < subchunkVolume)
      (defined r box) := by
  refine .bind (.mapM fun p _ => ?_) fun blocks hblocks => .ok fun e he =>
    hblocks e (List.mem_of_mem_filter he)
  obtain ⟨s, hs⟩ := fits.get? p.cell_lt
  rw [hs]
  exact .ok p.cell_lt

variable (sturdy : w.Sturdy) (sane : a.Sane w.grammar) (hl : Lives a.live h)

include sturdy sane hl

variable {block : FieldId} (hblock : block < w.grammar.fields.size)

section

include hblock

theorem paintSlice_renders (box : Box) (origin : Pos) :
    w.Renders a (fun _ => True) (paintSlice w.forgetful a h block box origin) :=
  .bind (.evaluate (World.subchunkRecord_answers sturdy sane hl hblock origin)) fun _ fits =>
    .bind (.lift (defined_succeeds fits _)) fun _ hw => .change fun _ hm =>
      (BlockMap.writeAll_succeeds hm origin _ hw).imp fun _ hm => hm.1

theorem paintBox_renders (box : Box) :
    w.Renders a (fun _ => True) (paintBox w.forgetful a h block box) :=
  .forM fun origin => paintSlice_renders sturdy sane hl hblock box origin

theorem paintCell_renders (p : Pos) :
    w.Renders a (fun _ => True) (paintCell w.forgetful a h block p) := by
  refine .bind (.evaluate (World.sample_answers sturdy sane hl hblock p)) fun s _ => ?_
  dsimp only
  split
  · exact .pure trivial
  · exact .change fun _ hm => (BlockMap.write_succeeds hm p _).imp fun _ hm => hm.1

theorem paintPositions_renders (positions : List Pos) (offset : Pos) :
    w.Renders a (fun _ => True) (paintPositions w.forgetful a h block positions offset) := by
  obtain ⟨x, _, hx⟩ := sane.get hl
  exact .forM fun p => .bind (.lift (P := fun _ => True) ⟨x, hx, trivial⟩) fun c _ =>
    paintCell_renders sturdy sane hl hblock _

end

theorem paintFill_renders {f : Fill} (within : f.block < w.grammar.fields.size ∧
    (∀ id, f.start = some id → id < w.grammar.fields.size) ∧
    ∀ id, f.stop = some id → id < w.grammar.fields.size) :
    w.Renders a (fun _ => True) (paintFill w.forgetful a h f) := by
  obtain ⟨hblock, hstart, hstop⟩ := within
  have corner : ∀ id, id < w.grammar.fields.size →
      w.Answers a (fun _ => True) (w.forgetful.sampleWorldPos a h id) :=
    fun _ hid => World.sampleWorldPos_answers sturdy sane hl hid
  unfold paintFill
  split
  · cases hs : f.start with
    | none => exact .pure trivial
    | some start =>
        refine .bind (.evaluate (corner start (hstart start hs))) fun p _ => ?_
        cases ht : f.stop with
        | none => exact paintBox_renders sturdy sane hl hblock _
        | some stop =>
            exact .bind (.evaluate (corner stop (hstop stop ht))) fun q _ =>
              paintBox_renders sturdy sane hl hblock _
  · have positions := paintPositions_renders sturdy sane hl hblock f.positions
    cases hs : f.start with
    | none => exact positions _
    | some start =>
        dsimp only
        split
        · exact .bind (.evaluate (World.samplePos_answers sturdy sane hl (hstart start hs)))
            fun offset _ => positions offset
        · exact positions _

end Painting

/-! ### Structures -/

namespace Search

section

variable {w : World μ} {s s' : Search μ}

/-- Painting changes nothing but what is remembered. -/
def Painted (s s' : Search μ) : Prop := s'.arena = s.arena ∧ s'.plan = s.plan

theorem paint_painted (h : Handle) (m : BlockMap) (f : Fill) :
    Painted s ((paint w h m f).run s).2 := ⟨rfl, rfl⟩

theorem foldlM_painted {f : β → α → SearchM μ β}
    (h : ∀ b a (s : Search μ), Painted s ((f b a).run s).2) (xs : List α) (b : β) :
    Painted s ((xs.foldlM f b).run s).2 := by
  induction xs generalizing b s with
  | nil => exact ⟨rfl, rfl⟩
  | cons a xs ih =>
      rw [List.foldlM_cons, SearchM.run_bind]
      have first := h b a s
      rcases hf : (f b a).run s with ⟨e | c, s₁⟩ <;> rw [hf] at first
      · exact first
      · have rest := ih (s := s₁) c
        exact ⟨rest.1.trans first.1, rest.2.trans first.2⟩

theorem paintPlacement_painted (m : BlockMap) (p : Placement) :
    Painted s ((paintPlacement w m p).run s).2 := by
  unfold paintPlacement
  rw [SearchM.run_bind, SearchM.run_lift]
  cases w.grammar.component p.component with
  | error e => exact ⟨rfl, rfl⟩
  | ok c => exact foldlM_painted (fun m f s => paint_painted p.context m f) c.fills m

theorem output_painted : Painted s ((output w).run s).2 := by
  unfold output
  rw [SearchM.run_bind, SearchM.run_get]
  dsimp only
  split
  · exact foldlM_painted (fun m p s => paintPlacement_painted m p) _ _
  · exact ⟨rfl, rfl⟩

theorem Painted.secure (h : Painted s s') (secure : Secure w s) : Secure w s' :=
  secure.replan h.1 (congrArg _ h.2) (congrArg _ h.2) (congrArg _ h.2) (congrArg _ h.2)

end

section

variable {w : World μ} {s : Search Unit} {h : Handle} (sturdy : w.Sturdy)

include sturdy

def Paintable (w : World μ) (p : Except Fault BlockMap × Search Unit) : Prop :=
  Unbroken w p ∧ ∀ m, p.1 = .ok m → m.Addressed

omit sturdy in
theorem foldlM_paintable {f : BlockMap → α → SearchM Unit BlockMap} {xs : List α}
    (keeps : ∀ m v (s : Search Unit), Painted s ((f m v).run s).2)
    (h : ∀ m, ∀ v ∈ xs, ∀ s' : Search Unit, s'.arena = s.arena → m.Addressed →
      Paintable w ((f m v).run s')) {m : BlockMap} (hm : m.Addressed) :
    Paintable w ((xs.foldlM f m).run s) := by
  suffices ∀ s' : Search Unit, s'.arena = s.arena → Paintable w ((xs.foldlM f m).run s') from
    this s rfl
  induction xs generalizing m with
  | nil => exact fun s' _ => ⟨.pure m, fun m' hm' => Except.ok.inj hm' ▸ hm⟩
  | cons v xs ih =>
      intro s' hs'
      obtain ⟨unbroken, addressed⟩ := h m v List.mem_cons_self s' hs' hm
      have later := @ih fun m v hv => h m v (List.mem_cons_of_mem _ hv)
      rw [List.foldlM_cons]
      have kept := keeps m v s'
      rw [SearchM.run_bind]
      rcases hf : (f m v).run s' with ⟨e | m', s₁⟩ <;> rw [hf] at unbroken addressed kept
      · refine ⟨fun f hf => unbroken f ?_, fun m hm => nomatch hm⟩
        cases hf
        rfl
      · exact later (addressed m' rfl) s₁ (kept.1.trans hs')

theorem paint_paintable (sane : s.arena.Sane w.grammar) (hl : Lives s.arena.live h) {f : Fill}
    (within : f.block < w.grammar.fields.size ∧
      (∀ id, f.start = some id → id < w.grammar.fields.size) ∧
      ∀ id, f.stop = some id → id < w.grammar.fields.size) {m : BlockMap} (hm : m.Addressed) :
    Paintable w ((paint w.forgetful h m f).run s) := by
  obtain ⟨gives, addressed⟩ := Painting.paintFill_renders sturdy sane hl within m s.memory hm
  rw [paint, ExceptT.run_mk]
  rcases hx : ((Painting.paintFill w.forgetful s.arena h f).run m).run s.memory with ⟨⟨x, m'⟩, memory⟩
  rw [hx] at gives addressed
  rw [StateT.run] at hx
  rw [hx]
  cases x with
  | ok v =>
      refine ⟨.of_ok rfl, fun m hm => ?_⟩
      cases hm
      exact addressed
  | error e =>
      cases e with
      | grammar e =>
          refine ⟨.of_ok rfl, fun m hm => ?_⟩
          cases hm
          exact addressed
      | fault e =>
          refine ⟨fun f hf => gives.1 f ?_, fun m hm => ?_⟩
          · cases hf
            rfl
          · cases hm

theorem paintPlacement_paintable (sane : s.arena.Sane w.grammar) {p : Placement}
    (hp : p.Sane w.grammar s.arena.live) {m : BlockMap} (hm : m.Addressed) :
    Paintable w ((paintPlacement w.forgetful m p).run s) := by
  obtain ⟨hl, c, hc⟩ := hp
  have hc : w.forgetful.grammar.component p.component = .ok c := hc
  unfold paintPlacement
  rw [SearchM.run_bind, SearchM.run_lift, hc]
  refine foldlM_paintable (fun m f s => paint_painted p.context m f) (fun m f hf s' hs' hm => ?_) hm
  refine paint_paintable sturdy (hs' ▸ sane) (hs' ▸ hl) ?_ hm
  exact (sturdy.closed.components _ c hc).fills f hf

theorem output_unbroken (secure : Secure w.forgetful s) (solved : s.plan.solved = true) :
    Unbroken w ((output w.forgetful).run s) := by
  unfold output
  refine .step (SearchM.run_get s) ?_
  dsimp only
  rw [if_pos solved]
  refine (foldlM_paintable (fun m p s => paintPlacement_painted m p) (fun m p hp s' hs' hm => ?_)
    BlockMap.addressed_empty).1
  refine paintPlacement_paintable sturdy (hs' ▸ secure.arena) (hs' ▸ ?_) hm
  exact secure.sane.placements p (Array.mem_toList_iff.1 hp)

end

end Search

/-! ### Requests -/

theorem World.sturdy_remembering {g : Grammar} (hg : g.Built True) {p : Provider} (hp : p.Total) :
    (World.remembering g p).Sturdy :=
  ⟨hg.closed, hg.marked, hp⟩

/-- Evaluations go on forever in both of two arenas with the same live contexts. -/
theorem World.Endless.mirror {w : World μ} {a b : Arena} (m : a.Mirrors (fun _ => 0) b)
    (ground : a.Grounded) (endless : w.Endless b) : w.Endless a := by
  obtain ⟨⟨h, id⟩, hlive, hid, loops⟩ := endless
  obtain ⟨y, hy⟩ := Arena.get_of_isLive hlive
  have agree := m.get h
  rw [Handle.shift_zero, hy] at agree
  refine ⟨⟨h, id⟩, ?_, hid, fun k hk => loops k ?_⟩
  · cases hx : a.get h with
    | ok x => exact Arena.isLive_of_get hx
    | error e =>
        rw [hx] at agree
        exact agree.elim
  · have same := (m.alike (h.slot + 1)).dimensionIn ground w.forgetful k id (Nat.lt_succ_self _)
    rw [Handle.shift_zero] at same
    exact same ▸ hk

namespace Search

def Request.ask (w : World μ) : Request → SearchM μ Unit
  | .setup rule origin seed => Search.setup w rule origin seed
  | .process limits => do
    let _ ← Search.process w limits
  | .output => do
    let _ ← Search.output w

/-- What a generator can be asked for: to start over with a rule of the grammar whatever it has been
asked for before, to search once it has started over, and for the structure once it has found one. -/
inductive Due (w : World Memory) : Request → Search Memory → Prop
  | setup {s : Search Memory} {rule : RuleId} (used : Used w s) (known : rule < w.grammar.rules.size)
    (origin : Pos) (seed : Seed) : Due w (.setup rule origin seed) s
  | process {q : Request} {s s' : Search Memory} (due : Due w q s)
    (run : (q.ask w).run s = (.ok (), s')) (limits : Limits) : Due w (.process limits) s'
  | output {q : Request} {s s' : Search Memory} (due : Due w q s)
    (run : (q.ask w).run s = (.ok (), s')) (solved : s'.plan.solved = true) : Due w .output s'

/-- A generator that has found something can be asked for it. -/
theorem due_output {w : World Memory} {s s' : Search Memory} {rule : RuleId} {origin : Pos}
    {seed : Seed} {limits : Limits} {r : Except SearchFailure Unit} (used : Used w s)
    (known : rule < w.grammar.rules.size)
    (run : (do setup w rule origin seed; process w limits).run s = (.ok r, s'))
    (solved : s'.plan.solved = true) : Due w .output s' := by
  obtain ⟨_, begun, start, run⟩ := SearchM.bind_ok run
  have asked : Due w (.setup rule origin seed) s := .setup used known origin seed
  have ended : ((Request.process limits).ask w).run begun = (.ok (), s') := by
    rw [Request.ask, SearchM.run_bind, run]
    rfl
  exact ((asked.process start limits).output ended solved)

/-- A search that has been run is still secure. -/
theorem process_secure {w : World μ} {s s' : Search μ} (closed : w.grammar.Closed True) {limits : Limits}
    {r : Except SearchFailure Unit} (hr : (process w limits).run s = (.ok r, s'))
    (secure : Secure w s) : Secure w s' := by
  unfold process at hr
  revert hr
  induction limits.expansions + 1 generalizing s with
  | zero =>
      intro hr
      cases hr
      exact secure
  | succ n ih =>
      intro hr
      obtain ⟨result, s₁, hstep, hr⟩ := SearchM.bind_ok hr
      have secure₁ := (step_ok secure.kept.numbered hstep).secure closed secure
      cases result with
      | none => exact ih secure₁ hr
      | some result =>
          cases hr
          exact secure₁

def Request.Ready (w : World μ) (s : Search μ) : Request → Prop
  | .setup rule _ _ => rule < w.grammar.rules.size
  | .process _ => Secure w s
  | .output => Secure w s ∧ s.plan.solved = true

namespace Request.Ready

variable {w : World μ} {q : Request}

theorem forgetful {s : Search μ} (ready : q.Ready w s) : q.Ready w.forgetful s.forgotten := by
  have secure : Secure w s → Secure w.forgetful s.forgotten := by
    rintro ⟨⟨numbered, fits, nested, found⟩, sane, outermost⟩
    have moved : ∀ k : Snapshot, k.Sane w → k.Sane w.forgetful := fun k hk =>
      ⟨hk.ground, hk.contexts, fun t ht => ⟨(hk.queue t ht).entry, (hk.queue t ht).context,
        (hk.queue t ht).offered, (hk.queue t ht).later⟩, hk.placements⟩
    exact ⟨⟨numbered, fits, nested, fun c hc => moved _ (found c hc)⟩, moved _ sane, outermost⟩
  cases q with
  | setup rule origin seed => exact ready
  | process limits => exact secure ready
  | output => exact ⟨secure ready.1, ready.2⟩

theorem unbroken (sturdy : w.Sturdy) {s : Search Unit} (ready : q.Ready w.forgetful s) :
    Unbroken w ((q.ask w.forgetful).run s) := by
  cases q with
  | setup rule origin seed => exact setup_unbroken sturdy ready origin seed s
  | process limits => exact .bind (process_unbroken sturdy ready limits) fun _ _ _ => .pure ()
  | output => exact .bind (output_unbroken sturdy ready.1 ready.2) fun _ _ _ => .pure ()

theorem secure (closed : w.grammar.Closed True) {s s' : Search μ} (ready : q.Ready w s)
    (run : (q.ask w).run s = (.ok (), s')) : Secure w s' := by
  cases q with
  | setup rule origin seed => exact setup_secure closed run
  | process limits =>
      obtain ⟨r, s₁, hr, hs⟩ := SearchM.bind_ok run
      cases hs
      exact process_secure closed hr ready
  | output =>
      obtain ⟨m, s₁, hr, hs⟩ := SearchM.bind_ok run
      cases hs
      have painted := output_painted (w := w) (s := s)
      rw [hr] at painted
      exact painted.secure ready.1

end Request.Ready

section

variable {g : Grammar} (hg : g.Built True) {p : Provider} {q : Request} {s s' : Search Memory}

include hg

/-- A request without a memory goes the same way. -/
theorem ask_mirrors (trusted : Trusted (.remembering g p) Memory.Holds s) :
    let run := (q.ask (.remembering g p)).run s
    let run' := (q.ask (World.remembering g p).forgetful).run s.forgotten
    run.1 = run'.1 ∧ Trusted (.remembering g p) Memory.Holds run.2 ∧
      run.2.arena.Mirrors (fun _ => 0) run'.2.arena := by
  have mirror := mirror_forgotten hg.marked trusted
  have asked : Matches (.forgetting hg.marked p) (fun _ => 0) Eq ((q.ask (.remembering g p)).run s)
      ((q.ask (World.remembering g p).forgetful).run s.forgotten) := by
    cases q with
    | setup rule origin seed => exact setup_forgotten hg.marked trusted rule origin seed
    | process limits =>
        exact .bind (process_matches mirror limits) fun _ _ _ _ _ _ hs => .pure hs rfl
    | output => exact .bind (output_matches mirror) fun _ _ _ _ _ _ hs => .pure hs rfl
  exact ⟨asked.1.eq, asked.2.trusted, asked.2.arena⟩

theorem Due.ready (due : Due (.remembering g p) q s) :
    Trusted (.remembering g p) Memory.Holds s ∧ q.Ready (.remembering g p) s := by
  have after : ∀ {q : Request} {s s' : Search Memory},
      Trusted (.remembering g p) Memory.Holds s ∧ q.Ready (.remembering g p) s →
      (q.ask (.remembering g p)).run s = (.ok (), s') →
      Trusted (.remembering g p) Memory.Holds s' ∧ Secure (.remembering g p) s' := by
    rintro q s s' ⟨trusted, ready⟩ run
    have kept := (ask_mirrors hg (q := q) trusted).2.1
    rw [run] at kept
    exact ⟨kept, ready.secure hg.closed run⟩
  induction due with
  | setup used known => exact ⟨used.trusted hg, known⟩
  | process _ run limits ih => exact after ih run
  | output _ run solved ih =>
      obtain ⟨trusted, secure⟩ := after ih run
      exact ⟨trusted, secure, solved⟩

/-- Whatever a generator can be asked for it answers, unless the contexts have come to be such that
some field of one of them cannot be evaluated in any number of steps. -/
theorem due_request_is_answered (hp : p.Total) (due : Due (.remembering g p) q s) :
    (∃ s', (q.ask (.remembering g p)).run s = (.ok (), s')) ∨
      ∃ s', (q.ask (.remembering g p)).run s = (.error .endlessEvaluation, s') ∧
        (World.remembering g p).Endless s'.arena := by
  have sturdy := World.sturdy_remembering hg hp
  obtain ⟨trusted, ready⟩ := due.ready hg
  obtain ⟨same, kept, mirrors⟩ := ask_mirrors hg (q := q) trusted
  have unbroken := ready.forgetful.unbroken sturdy
  rcases hrun : (q.ask (.remembering g p)).run s with ⟨f | _, s'⟩ <;> rw [hrun] at same kept mirrors
  · obtain ⟨rfl, endless⟩ := unbroken f same.symm
    exact .inr ⟨s', rfl, endless.mirror mirrors kept.ground⟩
  · exact .inl ⟨s', rfl⟩

end

theorem due_request_is_answered_farm :
    let world := World.remembering farm.compile .none
    let fresh := Search.new (.ofCache (.new 0 .standard))
    let found := ((do setup world 0 .zero 1; process world ⟨10, 10⟩ : SearchM Memory _).run fresh).2
    farm.compile.Built True ∧ Provider.none.Total ∧ Due world .output found ∧
      ((∃ s', (Request.output.ask world).run found = (.ok (), s')) ∨
        ∃ s', (Request.output.ask world).run found = (.error .endlessEvaluation, s') ∧
          world.Endless s'.arena) := by
  intro world fresh found
  have total := Provider.total_none
  obtain ⟨ends, solved, _⟩ := farm_found
  have due : Due world .output found :=
    due_output (.new Cache.standardDraws 0 .standard) (by decide +kernel) (Prod.ext ends rfl) solved
  exact ⟨built_farm, total, due, due_request_is_answered built_farm total due⟩

end Search

end VoxelGrammar
