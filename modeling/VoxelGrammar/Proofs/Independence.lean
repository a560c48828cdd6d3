import VoxelGrammar.Proofs.Drafts
import VoxelGrammar.Proofs.Lockstep

/-!
A placement does not depend on what the generator did before. Whatever the generator was asked for
earlier, and however these requests ended, its cache holds nothing but true values; so two
generators of one grammar and provider that are asked for the same placement search in step, paint
the same blocks, and end alike but for the generations in their handles.
-/

namespace VoxelGrammar

variable {μ ν α β α' β' : Type}

/-! ### Painting -/

def Paints (P : μ → Prop) (Q : ν → Prop) (x : Painting μ α) (y : Painting ν α) : Prop :=
  ∀ map m m', P m → Q m' →
    ((x.run map).run m).1 = ((y.run map).run m').1 ∧
      P ((x.run map).run m).2 ∧ Q ((y.run map).run m').2

namespace Paints

variable {P : μ → Prop} {Q : ν → Prop} {x : Painting μ α} {y : Painting ν α}

theorem run_bind (x : Painting μ α) (f : α → Painting μ β) (map : BlockMap) (m : μ) :
    (((x >>= f).run map).run m) =
      match (x.run map).run m with
      | ((.ok a, map), m) => ((f a).run map).run m
      | ((.error e, map), m) => ((.error e, map), m) := by
  simp only [ExceptT.run, bind, ExceptT.bind, ExceptT.mk, StateT.bind, StateT.run]
  rcases x map m with ⟨⟨_ | a, map'⟩, m'⟩ <;> rfl

theorem pure (a : α) : Paints P Q (pure a) (pure a) := fun _ _ _ hm hm' => ⟨rfl, hm, hm'⟩

theorem bind {f : α → Painting μ β} {g : α → Painting ν β} (h : Paints P Q x y)
    (hfg : ∀ a, Paints P Q (f a) (g a)) : Paints P Q (x >>= f) (y >>= g) := by
  intro map m m' hm hm'
  obtain ⟨heq, hm, hm'⟩ := h map m m' hm hm'
  rw [run_bind, run_bind]
  rcases hx : (x.run map).run m with ⟨⟨e | a, map₁⟩, m₁⟩ <;>
    rcases hy : (y.run map).run m' with ⟨⟨e' | b, map₁'⟩, m₁'⟩ <;> rw [hx] at heq hm <;>
    rw [hy] at heq hm' <;> cases heq
  · exact ⟨rfl, hm, hm'⟩
  · exact hfg a map₁ m₁ m₁' hm hm'

theorem evaluate {x : Eval μ α} {y : Eval ν α} (h : Echoes P Q Eq x y) :
    Paints P Q (liftM x) (liftM y) := by
  intro map m m' hm hm'
  obtain ⟨agree, hm, hm'⟩ := h m m' hm hm'
  exact ⟨congrArg (·, map) agree.eq, hm, hm'⟩

theorem lift (x : Except Fault α) : Paints P Q (liftM x) (liftM x) :=
  fun _ _ _ hm hm' => ⟨rfl, hm, hm'⟩

theorem lift_bind {r : α → α' → Prop} {x : Except Fault α} {y : Except Fault α'}
    {f : α → Painting μ β} {g : α' → Painting ν β} (h : Agree r x y)
    (hfg : ∀ a b, r a b → Paints P Q (f a) (g b)) :
    Paints P Q (liftM x >>= f) (liftM y >>= g) := by
  cases x <;> cases y
  · obtain rfl := h
    exact fun _ _ _ hm hm' => ⟨rfl, hm, hm'⟩
  · exact h.elim
  · exact h.elim
  · exact hfg _ _ h

theorem change (f : BlockMap → Except Fault BlockMap) :
    Paints P Q (Painting.change f) (Painting.change f) := by
  intro map m m' hm hm'
  unfold Painting.change
  cases hf : f map <;> simp only [ExceptT.run_mk, StateT.run, hf] <;> exact ⟨rfl, hm, hm'⟩

theorem forM {xs : List α} {f : α → Painting μ Unit} {g : α → Painting ν Unit}
    (h : ∀ a, Paints P Q (f a) (g a)) : Paints P Q (xs.forM f) (xs.forM g) := by
  induction xs with
  | nil => exact pure ()
  | cons a xs ih => exact bind (h a) fun _ => ih

end Paints

section

variable {w : World μ} {v : World ν} {t : Twins w v} {a b : Arena} {h k : Handle}

abbrev Twins.Paint (t : Twins w v) (a b : Arena) (x : Painting μ α) (y : Painting ν α) : Prop :=
  Paints (t.holds (w.facts a) a.size) (t.holds' (v.facts b) b.size) x y

variable (parts : t.Counterparts a b h k)

include parts

namespace Twins.Counterparts

theorem paintSlice (block : FieldId) (box : Box) (origin : Pos) :
    t.Paint a b (Painting.paintSlice w a h block box origin)
      (Painting.paintSlice v b k block box origin) :=
  .bind (.evaluate (parts.record block _ _)) fun _ => .bind (.lift _) fun _ => .change _

theorem paintBox (block : FieldId) (box : Box) :
    t.Paint a b (Painting.paintBox w a h block box) (Painting.paintBox v b k block box) :=
  .forM fun origin => parts.paintSlice block box origin

theorem paintCell (block : FieldId) (p : Pos) :
    t.Paint a b (Painting.paintCell w a h block p) (Painting.paintCell v b k block p) := by
  refine .bind (.evaluate (parts.sample block p)) fun s => ?_
  dsimp only
  split
  · exact .pure ()
  · exact .change _

theorem paintPositions (block : FieldId) (positions : List Pos) (offset : Pos) :
    t.Paint a b (Painting.paintPositions w a h block positions offset)
      (Painting.paintPositions v b k block positions offset) := by
  refine .forM fun p => .lift_bind parts.place fun c c' place => ?_
  have hmap : c'.mapToWorld (p + offset) = c.mapToWorld (p + offset) := by
    rw [Context.mapToWorld, Context.mapToWorld, place]
  rw [hmap]
  exact parts.paintCell block _

theorem paintFill (f : Fill) :
    t.Paint a b (Painting.paintFill w a h f) (Painting.paintFill v b k f) := by
  unfold Painting.paintFill
  have corner := fun id => parts.sampleWorldPos id
  split
  · cases f.start with
    | none => exact .pure ()
    | some start =>
        refine .bind (.evaluate (corner start)) fun p => ?_
        cases f.stop with
        | none => exact parts.paintBox f.block _
        | some stop => exact .bind (.evaluate (corner stop)) fun q => parts.paintBox f.block _
  · have positions := parts.paintPositions f.block f.positions
    cases f.start with
    | none => exact positions _
    | some start =>
        dsimp only
        split
        · exact .bind (.evaluate (parts.samplePos start)) fun offset => positions offset
        · exact positions _

end Twins.Counterparts

end

namespace Search

section

variable {w : World μ} {v : World ν} {t : Twins w v} {σ : Nat → UInt32} {s : Search μ}
  {s' : Search ν}

theorem paint_matches (hs : Mirror t σ s s') (h : Handle) (map : BlockMap) (f : Fill) :
    Matches t σ Eq ((paint w h map f).run s) ((paint v (h.shift σ) map f).run s') := by
  obtain ⟨heq, hm, hm'⟩ := (hs.counterparts h).paintFill f
    map s.memory s'.memory hs.memory hs.memory'
  refine ⟨.of_eq ?_, hs.arena, hs.ground, hs.plan, hm, hm'⟩
  rw [paint, paint, ExceptT.run_mk, ExceptT.run_mk]
  rcases hx : ((Painting.paintFill w s.arena h f).run map).run s.memory with ⟨⟨x, m⟩, memory⟩
  rcases hy : ((Painting.paintFill v s'.arena (h.shift σ) f).run map).run s'.memory with
    ⟨⟨y, m'⟩, memory'⟩
  rw [hx, hy] at heq
  cases heq
  rw [StateT.run] at hx hy
  rw [hx, hy]

theorem foldlM_matches {f : β → α → SearchM μ β} {g : β → α' → SearchM ν β} {xs : List α}
    {ys : List α'} (h : List.Forall₂ (fun a b => ∀ c {s : Search μ} {s' : Search ν},
      Mirror t σ s s' → Matches t σ Eq ((f c a).run s) ((g c b).run s')) xs ys)
    (hs : Mirror t σ s s') (c : β) :
    Matches t σ Eq ((xs.foldlM f c).run s) ((ys.foldlM g c).run s') := by
  induction h generalizing c s s' with
  | nil => exact .pure hs rfl
  | cons hab _ ih =>
      rw [List.foldlM_cons, List.foldlM_cons]
      refine .bind (hab c hs) fun d _ s₁ s₁' _ hd hs => ?_
      subst hd
      exact ih hs d

theorem paintPlacement_matches (hs : Mirror t σ s s') (map : BlockMap) (p : Placement) :
    Matches t σ Eq ((paintPlacement w map p).run s) ((paintPlacement v map (p.shift σ)).run s') := by
  refine .lift_bind (r := Eq) hs (.of_eq (by rw [t.grammar]; rfl)) fun c _ _ hc => ?_
  subst hc
  exact foldlM_matches (List.forall₂_same.2 fun f _ map _ _ hs => paint_matches hs p.context map f)
    hs map

theorem output_matches (hs : Mirror t σ s s') :
    Matches t σ Eq ((output w).run s) ((output v).run s') := by
  refine .get_bind ?_
  have hsolved : s'.plan.solved = s.plan.solved := by rw [hs.plan]; rfl
  have hplacements : s'.plan.placements.toList = s.plan.placements.toList.map (·.shift σ) := by
    rw [hs.plan]
    simp [Plan.shift]
  dsimp only
  rw [hsolved, hplacements]
  split
  · refine foldlM_matches (List.forall₂_map_right_iff.2 (List.forall₂_same.2 ?_)) hs _
    exact fun p _ map _ _ hs => paintPlacement_matches hs map p
  · exact .throw hs _

theorem generate_matches (hs : Trusted w t.holds s) (hs' : Trusted v t.holds' s') (limits : Limits)
    (rule : RuleId) (origin : Pos) (seed : Seed) :
    Matches t (gap s.arena s'.arena) Eq ((generate w limits rule origin seed).run s)
      ((generate v limits rule origin seed).run s') := by
  refine .bind (setup_matches hs hs' rule origin seed) fun _ _ s₁ s₁' _ _ hs =>
    .bind (process_matches hs limits) fun result _ s₂ s₂' _ hr hs => ?_
  subst hr
  cases result with
  | error failure => exact .pure hs rfl
  | ok _ => exact .bind (output_matches hs) fun map _ _ _ _ hm hs => .pure hs (congrArg _ hm)

end

end Search

/-! ### Leaving the memory out -/

def Twins.remembering {g : Grammar} (marked : g.Marked) (p : Provider) :
    Twins (World.remembering g p) (World.remembering g p) :=
  ⟨Memory.Holds, Memory.Holds, Memory.honest_notebook, Memory.honest_notebook, rfl, marked⟩

/-- A world that remembers, beside the same one without a memory. -/
def Twins.forgetting {g : Grammar} (marked : g.Marked) (p : Provider) :
    Twins (World.remembering g p) (World.remembering g p).forgetful :=
  ⟨Memory.Holds, fun _ _ _ => True, Memory.honest_notebook, Notebook.honest_blank, rfl, marked⟩

namespace Search

def forgotten (s : Search μ) : Search Unit := ⟨s.arena, (), s.plan⟩

section

variable {g : Grammar} {p : Provider} {s : Search Memory} (marked : g.Marked)
  (trusted : Trusted (.remembering g p) Memory.Holds s)

include trusted

theorem mirror_forgotten : Mirror (.forgetting marked p) (fun _ => 0) s s.forgotten :=
  Trusted.mirror (t := .forgetting marked p) trusted
    ⟨trusted.numbered, trusted.ground, trivial⟩ rfl rfl

/-- Starting over goes the same way without a memory. -/
theorem setup_forgotten (rule : RuleId) (origin : Pos) (seed : Seed) :
    Matches (.forgetting marked p) (fun _ => 0) Eq
      ((setup (.remembering g p) rule origin seed).run s)
      ((setup (World.remembering g p).forgetful rule origin seed).run s.forgotten) := by
  have nogap : gap s.arena s.forgotten.arena = fun _ => 0 := funext fun _ => UInt32.sub_self _
  rw [← nogap]
  exact setup_matches (t := .forgetting marked p) trusted
    ⟨trusted.numbered, trusted.ground, trivial⟩ rule origin seed

theorem steps_forgotten (limits : Limits) (rule : RuleId) (origin : Pos) (seed : Seed) (n : Nat) :
    let w := World.remembering g p
    Matches (.forgetting marked p) (fun _ => 0) Eq
      ((do setup w rule origin seed; steps w limits n).run s)
      ((do setup w.forgetful rule origin seed; steps w.forgetful limits n).run s.forgotten) :=
  .bind (setup_forgotten marked trusted rule origin seed) fun _ _ _ _ _ _ mirror =>
    steps_matches mirror limits n

theorem search_forgotten (limits : Limits) (rule : RuleId) (origin : Pos) (seed : Seed) :
    let w := World.remembering g p
    Matches (.forgetting marked p) (fun _ => 0) Eq
      ((do setup w rule origin seed; process w limits).run s)
      ((do setup w.forgetful rule origin seed; process w.forgetful limits).run s.forgotten) :=
  .bind (setup_forgotten marked trusted rule origin seed) fun _ _ _ _ _ _ mirror =>
    process_matches mirror limits

theorem generate_forgotten (limits : Limits) (rule : RuleId) (origin : Pos) (seed : Seed) :
    let w := World.remembering g p
    Matches (.forgetting marked p) (fun _ => 0) Eq
      ((generate w limits rule origin seed).run s)
      ((generate w.forgetful limits rule origin seed).run s.forgotten) := by
  intro w
  have nogap : gap s.arena s.forgotten.arena = fun _ => 0 := funext fun _ => UInt32.sub_self _
  rw [← nogap]
  exact generate_matches (t := .forgetting marked p) trusted
    ⟨trusted.numbered, trusted.ground, trivial⟩ limits rule origin seed

end

end Search

/-! ### Generators -/

/-- The same placement with the generation of its context forgotten. -/
def Placement.blurred (p : Placement) : Placement :=
  { p with context := { p.context with generation := 0 } }

namespace Search

inductive Request
  | setup (rule : RuleId) (origin : Pos) (seed : Seed)
  | process (limits : Limits)
  | output

/-- The state that a request leaves, if it breaks down the state in which it did. -/
def Request.after (w : World μ) (s : Search μ) : Request → Search μ
  | .setup rule origin seed => ((Search.setup w rule origin seed).run s).2
  | .process limits => ((Search.process w limits).run s).2
  | .output => ((Search.output w).run s).2

/-- The states of a generator: it starts with an empty cache, of some capacity, eviction policy and
random words, and is then asked for one thing after the other. -/
inductive Used (w : World Memory) : Search Memory → Prop
  | new (draws : Nat → UInt32) (capacity : Nat) (policy : EvictionPolicy) :
    Used w (.new (.ofCache (.create draws capacity policy)))
  | after {s : Search Memory} (used : Used w s) (request : Request) : Used w (request.after w s)

theorem Used.trusted {g : Grammar} {own : Prop} (hg : g.Built own) {p : Provider}
    {s : Search Memory} (hs : Used (.remembering g p) s) :
    Trusted (.remembering g p) Memory.Holds s := by
  let t := Twins.remembering hg.marked p
  induction hs with
  | new draws capacity policy =>
      refine ⟨Arena.numbered_empty, ?_, Memory.holds_ofCache (Cache.holds_create draws capacity policy)⟩
      intro h c hc
      cases hc
  | @after s _ request ih =>
      have mirror : Mirror t (fun _ => 0) s s := ih.mirror (t := t) ih rfl rfl
      cases request with
      | setup rule origin seed =>
          exact (setup_matches (t := t) ih ih rule origin seed).2.trusted
      | process limits => exact (process_matches mirror limits).2.trusted
      | output => exact (output_matches mirror).2.trusted

/-- A generator answers a request for a placement in the same way, whatever it was asked for before
and whatever its cache is like. -/
theorem generate_ignores_history {g : Grammar} {own : Prop} (hg : g.Built own) (p : Provider)
    (limits : Limits) (rule : RuleId) (origin : Pos) (seed : Seed) {s s' : Search Memory}
    (hs : Used (.remembering g p) s) (hs' : Used (.remembering g p) s') :
    let run := (generate (.remembering g p) limits rule origin seed).run s
    let run' := (generate (.remembering g p) limits rule origin seed).run s'
    run.1 = run'.1 ∧ run.2.plan.expansions = run'.2.plan.expansions ∧
      run.2.plan.areas = run'.2.plan.areas ∧
      run.2.plan.placements.map (·.blurred) = run'.2.plan.placements.map (·.blurred) := by
  let t : Twins (World.remembering g p) (World.remembering g p) :=
    ⟨Memory.Holds, Memory.Holds, Memory.honest_notebook, Memory.honest_notebook, rfl, hg.marked⟩
  obtain ⟨agree, mirror⟩ := generate_matches (t := t) (hs.trusted hg) (hs'.trusted hg) limits rule
    origin seed
  refine ⟨agree.eq, ?_, ?_, ?_⟩ <;> rw [mirror.plan]
  · rfl
  · rfl
  · simp only [Plan.shift, Array.map_map]
    rfl

/-! ### A farm -/

/-- A farm is a yard around its gate, with a corner beside its turned side. For that a barn is tried, but
a barn comes with a trough that needs water, and there is none; so the corner is left to a shelter,
which is a hut with its door next to the yard. -/
def farm : Draft :=
  .ofStatements
    [.rule "farm", .ruleRef "corner", .ruleRef "shelter", .ruleRef "trough",
      .component "yard", .component "barn", .component "hut", .component "basin",
      .constant (.float3 ⟨0, 0, 0⟩), .constant (.float3 ⟨18, 0, 2⟩), .constant (.float3 ⟨0, 1, 0⟩),
      .constant (.block 7), .constant (.block 5),
      .localPosition, .axis 5 .y, .constant (.float 4), .compare .lt 6 7,
      .constant (.float3 ⟨17, 0, 2⟩),
      .node 0 "gate" 0 .unspecified none, .node 0 "side" 9 (.facing .posX .posY) (some 1),
      .area 0 "ground" 0 1 .may false, .area 0 "wall" 0 0 .mustNot false,
      .fillBox 0 3 0 (some 1), .fillPositions 0 4 [⟨15, 0, 1⟩, ⟨16, 0, 1⟩] none,
      .node 1 "door" 0 .unspecified none, .nodePragma 1 0 "adjacent" (.flag true),
      .node 1 "stall" 2 .unspecified (some 3), .area 1 "wall" 0 0 .mustNot false,
      .condition (.component 2) 8, .node 2 "door" 0 (.facing .posZ .posY) none,
      .nodePragma 2 0 "adjacent" (.flag true),
      .area 2 "ground" 0 2 .must true, .area 2 "wall" 0 2 .mustNot false,
      .fillBox 2 4 0 (some 2),
      .node 3 "rim" 0 .unspecified none, .area 3 "water" 0 0 .must true,
      .toComponent 0 0 (some "gate") false, .toComponent 1 1 (some "door") false, .toRule 1 2,
      .toComponent 2 2 (some "door") false, .toComponent 3 3 none false]

theorem built_farm : farm.compile.Built True :=
  Draft.built_ofStatements (by decide +kernel) (by decide +kernel)

/-- The yard is placed, then the barn, which is taken back, and then the hut. -/
theorem farm_found :
    let world := World.remembering farm.compile .none
    let search := (do setup world 0 .zero 1; process world ⟨10, 10⟩ : SearchM Memory _).run
      (.new (.ofCache (.new 0 .standard)))
    search.1 = .ok (.ok ()) ∧ search.2.plan.solved = true ∧ search.2.plan.expansions = 6 ∧
      search.2.plan.placements.toList.map (fun p => (p.component, p.toWorld.offset)) =
        [(0, .zero), (2, ⟨18, 0, 2⟩)] ∧
      search.2.plan.areas.toList = [⟨0, ⟨.zero, ⟨18, 0, 2⟩⟩⟩, ⟨1, ⟨.zero, .zero⟩⟩,
        ⟨1, ⟨⟨18, 0, 2⟩, ⟨18, 1, 2⟩⟩⟩] := by
  intro world search
  have used : Used world (.new (.ofCache (.new 0 .standard))) := .new Cache.standardDraws 0 .standard
  have same := search_forgotten built_farm.marked (used.trusted built_farm) ⟨10, 10⟩ 0 .zero 1
  have result : search.1 = _ := same.1.eq
  have plan : search.2.plan = _ := same.2.plan_eq.symm
  rw [result, plan]
  decide +kernel

theorem generate_ignores_history_farm :
    let world := World.remembering farm.compile .none
    let fresh := Search.new (.ofCache (.new 0 .standard))
    let worn := Request.after world (Request.after world (.new (.ofCache (.new 4096 ⟨1, 0⟩)))
      (.setup 0 .zero 3)) (.process ⟨10, 10⟩)
    let run := (generate world ⟨10, 10⟩ 0 .zero 1).run fresh
    let run' := (generate world ⟨10, 10⟩ 0 .zero 1).run worn
    farm.compile.Built True ∧ Used world fresh ∧ Used world worn ∧
      (run.1.toOption.any (·.isOk) = true ∧ run.2.plan.placements.size = 2) ∧ run.1 = run'.1 ∧
      run.2.plan.expansions = run'.2.plan.expansions ∧ run.2.plan.areas = run'.2.plan.areas ∧
      run.2.plan.placements.map (·.blurred) = run'.2.plan.placements.map (·.blurred) := by
  intro world fresh worn run run'
  have used : Used world fresh := .new Cache.standardDraws 0 .standard
  have used' : Used world worn := .after (.after (.new Cache.standardDraws 4096 ⟨1, 0⟩) _) _
  have same := generate_forgotten built_farm.marked (used.trusted built_farm) ⟨10, 10⟩ 0 .zero 1
  have found : run.1.toOption.any (·.isOk) = true ∧ run.2.plan.placements.size = 2 := by
    have result : run.1 = _ := same.1.eq
    have plan : run.2.plan = _ := same.2.plan_eq.symm
    rw [result, plan]
    decide +kernel
  exact ⟨built_farm, used, used', found,
    generate_ignores_history built_farm .none ⟨10, 10⟩ 0 .zero 1 used used'⟩

end Search

end VoxelGrammar
