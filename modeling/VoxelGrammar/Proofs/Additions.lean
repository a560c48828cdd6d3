import VoxelGrammar.Proofs.Canvas
import VoxelGrammar.Proofs.Inclusion
import VoxelGrammar.Proofs.WellFormed

/-!
Adding to a grammar. Statements that only speak of rules, components, expansions and fields that came
after a draft leave its tables as they are, in front of what they add, and what has been there is
compiled as before. A search that starts from a rule of the earlier grammar never asks for anything
that this does not have, so it does not notice what has been added.
-/

namespace VoxelGrammar

variable {α : Type}

/-! ### Statements that only add -/

def SymbolRef.New (d : Draft) : SymbolRef → Prop
  | .rule id => d.rules.size ≤ id
  | .expansion id => d.expansions.size ≤ id
  | .component id => d.components.size ≤ id

/-- The statement adds nothing to a symbol of the draft. -/
def Statement.Adds (d : Draft) : Statement → Prop
  | .condition s _ | .pragma s _ _ | .param s _ _ _ | .assign s _ _ => s.New d
  | .toNothing r | .toRule r _ | .toComponent r _ _ _ => d.rules.size ≤ r
  | .node c _ _ _ _ | .nodePragma c _ _ _ | .area c _ _ _ _ _ | .fillBox c _ _ _
  | .fillPositions c _ _ _ => d.components.size ≤ c
  | _ => True

theorem Statement.Adds.new {d : Draft} {s : Statement} (adds : s.Adds d) {r : SymbolRef}
    (here : s.subject = some r) : r.New d := by
  cases s <;> cases here <;> exact adds

namespace Draft

/-- The drafts that further statements lead to which add nothing to a symbol of the draft `d`. -/
inductive Enlarged (d : Draft) : Draft → Prop
  | refl : Enlarged d d
  | next {c c' : Draft} {id : Option Nat} (s : Statement) (enlarged : Enlarged d c) (adds : s.Adds d)
    (run : s.run.run c = .ok (id, c')) : Enlarged d c'

theorem Enlarged.script {d c c' : Draft} {statements : List Statement} (enlarged : d.Enlarged c)
    (adds : ∀ s ∈ statements, s.Adds d) (written : Draft.script statements c = some c') :
    d.Enlarged c' := by
  induction statements generalizing c with
  | nil =>
      cases written
      exact enlarged
  | cons s rest ih =>
      obtain ⟨first, adds⟩ := List.forall_mem_cons.1 adds
      obtain ⟨_, _, _, run, written⟩ := script_cons written
      exact ih (.next s enlarged first run) adds written

theorem Enlarged.reached {own : Prop} {d c : Draft} (reached : Reached own d)
    (enlarged : d.Enlarged c) : Reached False c := by
  induction enlarged with
  | refl =>
      induction reached with
      | empty => exact .empty
      | next s _ _ run ih => exact .next s ih False.elim run
  | next s _ _ run ih => exact .next s ih False.elim run

/-! ### What stays -/

def Leading (table more : Array α) : Prop := ∀ (i : Nat) (x : α), table[i]? = some x → more[i]? = some x

namespace Leading

variable {table more : Array α}

theorem refl (table : Array α) : Leading table table := fun _ _ h => h

theorem push (h : Leading table more) (x : α) : Leading table (more.push x) :=
  fun i y hy => getElem?_push_of_some (h i y hy) x

/-- An entry that came later, or that stays the same, may be changed. -/
theorem modify (h : Leading table more) {id : Nat} {f : α → α}
    (hf : ∀ x, table[id]? = some x → f x = x) :
    Leading table (more.modify id f) := by
  intro i x hx
  rw [Array.getElem?_modify, h i x hx]
  split
  · next heq => rw [Option.map_some, hf x (heq ▸ hx)]
  · rfl

theorem modify_new (h : Leading table more) {id : Nat} (new : table.size ≤ id) (f : α → α) :
    Leading table (more.modify id f) :=
  h.modify fun _ hx => absurd (Array.getElem?_eq_some_iff.1 hx).1 (Nat.not_lt.2 new)

theorem size (h : Leading table more) : table.size ≤ more.size := by
  by_contra hlt
  have last := h more.size _ (Array.getElem?_eq_getElem (Nat.lt_of_not_le hlt))
  simp at last

theorem isPrefix (h : Leading table more) : table.toList <+: more.toList := by
  rw [List.prefix_iff_getElem?]
  intro i hi
  rw [Array.getElem?_toList]
  exact h i _ (Array.getElem?_eq_getElem hi)

end Leading

structure Begins (d c : Draft) : Prop where
  rules : Leading d.rules c.rules
  expansions : Leading d.expansions c.expansions
  components : Leading d.components c.components
  fields : Leading d.fields c.fields

structure Declared (d : Draft) : Prop where
  rules : ∀ e ∈ d.rules, e.declared = true
  components : ∀ e ∈ d.components, e.declared = true

namespace Begins

variable {d c : Draft} (h : Begins d c)

theorem refl (d : Draft) : Begins d d := ⟨.refl _, .refl _, .refl _, .refl _⟩

include h

theorem setError (e : Option GrammarError) : Begins d { c with error := e } :=
  ⟨h.rules, h.expansions, h.components, h.fields⟩

theorem pushField (f : Field) : Begins d { c with fields := c.fields.push f } :=
  ⟨h.rules, h.expansions, h.components, h.fields.push f⟩

end Begins

section Edits

variable {own : Prop} {subject : Option SymbolRef} {d c c' : Draft}

/-- Declaring what has been declared already changes nothing. -/
theorem Entry.declare {e : Entry α} (h : e.declared = true) : { e with declared := true } = e := by
  cases e
  cases h
  rfl

/-- An edit of what came later leaves the tables in front. -/
theorem Edit.begins (edit : Edit own subject c c') (declared : d.Declared)
    (new : ∀ {s}, subject = some s → s.New d) (h : Begins d c) : Begins d c' := by
  cases edit with
  | complain e => exact h.setError _
  | field _ _ => exact h.pushField _
  | referRule _ => exact { h with rules := h.rules.push _ }
  | declareRule id =>
      exact { h with rules := h.rules.modify fun e he =>
        Entry.declare (declared.rules e (Array.mem_of_getElem? he)) }
  | referComponent _ => exact { h with components := h.components.push _ }
  | declareComponent id =>
      exact { h with components := h.components.modify fun e he =>
        Entry.declare (declared.components e (Array.mem_of_getElem? he)) }
  | @symbol s here f _ =>
      cases s with
      | rule id => exact { h with rules := h.rules.modify_new (new here) _ }
      | expansion id => exact { h with expansions := h.expansions.modify_new (new here) _ }
      | component id => exact { h with components := h.components.modify_new (new here) _ }
  | component here _ => exact { h with components := h.components.modify_new (new here) _ }
  | expand here _ _ _ _ =>
      exact { h with
        rules := h.rules.modify_new (new here) _
        expansions := h.expansions.push _ }

theorem Enlarged.begins (enlarged : d.Enlarged c) (declared : d.Declared) : Begins d c := by
  induction enlarged with
  | refl => exact .refl d
  | next s _ adds run ih =>
      have edits := edits_run False.elim run
      exact edits.keep (fun edit => edit.begins declared adds.new) ih

end Edits

/-! ### What is compiled as before -/

variable {d c : Draft}

/-- What is compiled has been declared. -/
theorem declared_of_error? (h : d.error? = none) : d.Declared := by
  unfold error? at h
  simp only [Option.orElse_eq_orElse, Option.orElse_eq_or, Option.or_eq_none_iff] at h
  obtain ⟨_, rules, components, _⟩ := h
  refine ⟨fun e he => ?_, fun e he => ?_⟩
  · have known := Array.find?_eq_none.1 (Option.map_eq_none_iff.1 rules) e he
    simpa using known
  · have known := Array.find?_eq_none.1 (Option.map_eq_none_iff.1 components) e he
    simpa using known

/-- Names that come later are numbered later. -/
theorem isPrefix_names (names used : List String) :
    used <+: names.foldl (fun used n => if used.contains n then used else used ++ [n]) used := by
  induction names generalizing used with
  | nil => exact List.prefix_refl _
  | cons n names ih =>
      rw [List.foldl_cons]
      refine List.IsPrefix.trans ?_ (ih _)
      split
      · exact List.prefix_refl _
      · exact List.prefix_append _ _

theorem Begins.areaNames (h : Begins d c) : d.areaNames <+: c.areaNames := by
  obtain ⟨more, hmore⟩ := h.components.isPrefix
  rw [Draft.areaNames, Draft.areaNames, ← hmore, List.flatMap_append, List.foldl_append]
  exact isPrefix_names _ _

theorem idxOf_of_isPrefix {names more : List String} (h : names <+: more) {name : String}
    (hn : name ∈ names) : more.idxOf name = names.idxOf name := by
  obtain ⟨rest, rfl⟩ := h
  exact List.idxOf_append_of_mem hn

/-- The areas of a component have the numbers they had. -/
theorem Begins.completeComponent (h : Begins d c) {e : Entry Component} (he : e ∈ d.components) :
    Draft.completeComponent c.areaNames e.value = Draft.completeComponent d.areaNames e.value := by
  have numbers : (e.value.areas.map fun a => { a with nameId := c.areaNames.idxOf a.name }) =
      e.value.areas.map fun a => { a with nameId := d.areaNames.idxOf a.name } := by
    refine List.map_congr_left fun a ha => ?_
    rw [idxOf_of_isPrefix h.areaNames (mem_areaNames he ha)]
  rw [Draft.completeComponent, numbers]
  rfl

theorem Leading.map {β : Type} {table more : Array α} (h : Leading table more) {f g : α → β}
    (hfg : ∀ x ∈ table, g x = f x) : Leading (table.map f) (more.map g) := by
  intro i y hy
  rw [Array.getElem?_map] at hy ⊢
  obtain ⟨x, hx, rfl⟩ := Option.map_eq_some_iff.1 hy
  rw [h i x hx, Option.map_some, hfg x (Array.mem_of_getElem? hx)]

/-- The tiers of a rule are those it had. -/
theorem completeRule_leading {expansions more : Array Expansion} (h : Leading expansions more) {r : Rule}
    (known : ∀ x ∈ r.expansions, x < expansions.size) :
    completeRule more r = completeRule expansions r := by
  have candidates : candidatesOf more r = candidatesOf expansions r := by
    refine List.filterMap_congr fun x hx => ?_
    have found := Array.getElem?_eq_getElem (known x hx)
    rw [found, h x _ found]
  rw [completeRule, candidates]
  rfl

structure Kept (g g' : Grammar) : Prop where
  rules : Leading g.rules g'.rules
  expansions : Leading g.expansions g'.expansions
  components : Leading g.components g'.components
  fields : Leading g.fields g'.fields

theorem Begins.compile {own : Prop} (h : Begins d c) (sound : d.Sound own) :
    Kept d.compile c.compile := by
  have expansions : Leading d.compile.expansions c.compile.expansions :=
    h.expansions.map fun _ _ => rfl
  refine ⟨h.rules.map fun e he => ?_, expansions, h.components.map fun e he => ?_, h.fields⟩
  · refine completeRule_leading expansions fun x hx => ?_
    simpa [Draft.compile] using (sound.rules e he).2 x hx
  · exact h.completeComponent he

theorem Leading.lookup {table more : Array α} (h : Leading table more) (i : Nat) :
    Short (· = .unknownId) (Fault.lookup table i) (Fault.lookup more i) := by
  unfold Fault.lookup
  cases hi : table[i]? with
  | none => exact .error rfl
  | some x =>
      rw [h i x hi]
      exact .refl _

end Draft

/-- What a grammar does not have of a larger one is unknown to it. -/
theorem Draft.Kept.part {μ : Type} {g g' : Grammar} (kept : Draft.Kept g g') (p : Provider)
    (notebook : Notebook μ) : World.Part (· = .unknownId) ⟨g, p, notebook⟩ ⟨g', p, notebook⟩ where
  rule id := kept.rules.lookup id
  expansion id := kept.expansions.lookup id
  component id := kept.components.lookup id
  field id := kept.fields.lookup id
  provides _ := .inr rfl
  samples _ _ := .inr rfl
  size := kept.fields.size

/-! ### Nothing unknown is asked for -/

namespace Search

section

variable {μ : Type} {w : World μ} {s s' : Search μ}

/-- A search that has found a structure has it. -/
theorem process_solved (closed : w.grammar.Closed True) {limits : Limits} (secure : Secure w s)
    (hr : (process w limits).run s = (.ok (.ok ()), s')) : s'.plan.solved = true := by
  rcases process_ok (fun _ h => h.kept.numbered) (fun _ _ h step => step.secure closed h) secure hr with
    failed | ⟨s₁, _, step⟩
  · cases failed
  · cases step
    rfl

end

/-- Starting over with a rule, and what comes after it, as far as only the answers of the world have
a say in it. -/
structure Uniform (rule : RuleId) (x : ∀ {μ : Type}, World μ → SearchM μ α) : Prop where
  inStep : ∀ {μ ν : Type} {w : World μ} {v : World ν} (t : Twins w v) {s : Search μ} {s' : Search ν},
    Trusted w t.holds s → Trusted v t.holds' s' →
      Matches t (gap s.arena s'.arena) Eq ((x w).run s) ((x v).run s')
  lags : ∀ {μ : Type} {E : Fault → Prop} {v w : World μ}, World.Part E v w → v.grammar.Marked →
    w.grammar.Marked → Lags E (x v.forgetful) (x w.forgetful)
  unbroken : ∀ {μ : Type} {w : World μ}, w.Sturdy → rule < w.grammar.rules.size → ∀ s,
    Unbroken w ((x w.forgetful).run s)

section

variable (limits : Limits) (rule : RuleId) (origin : Pos) (seed : Seed)

theorem uniform_search :
    Uniform rule fun w => do setup w rule origin seed; process w limits where
  inStep _ _ _ trusted trusted' := .bind (setup_matches trusted trusted' rule origin seed)
    fun _ _ _ _ _ _ mirror => process_matches mirror limits
  lags part marked marked' :=
    have free := lags_free part marked marked'
    .bind (free.setup rule origin seed) fun _ => free.process limits
  unbroken {_ w} sturdy known s := .bind (setup_unbroken sturdy known origin seed s) fun _ _ hsetup =>
    process_unbroken sturdy (setup_secure (w := w.forgetful) sturdy.closed hsetup) limits

theorem uniform_generate : Uniform rule fun w => generate w limits rule origin seed where
  inStep _ _ _ trusted trusted' := generate_matches trusted trusted' limits rule origin seed
  lags part marked marked' := generate_lags part marked marked' limits rule origin seed
  unbroken := by
    intro μ w sturdy known s
    refine .bind (setup_unbroken sturdy known origin seed s) fun _ s₁ hsetup => ?_
    have secure : Secure w.forgetful s₁ := setup_secure (w := w.forgetful) sturdy.closed hsetup
    refine .bind (process_unbroken sturdy secure limits) fun result s₂ hprocess => ?_
    cases result with
    | error failure => exact .pure _
    | ok _ =>
        have secure₂ := process_secure (w := w.forgetful) sturdy.closed hprocess secure
        have solved := process_solved (w := w.forgetful) sturdy.closed secure hprocess
        exact .bind (output_unbroken sturdy secure₂ solved) fun _ _ _ => .pure _

end

/-! ### Searches in a grammar and in a larger one -/

/-- Two runs with the same answer, which leave what has been found alike but for the generations of
the contexts. -/
structure Resembles {μ ν : Type} (run : Except Fault α × Search μ)
    (run' : Except Fault α × Search ν) : Prop where
  answer : run.1 = run'.1
  expansions : run.2.plan.expansions = run'.2.plan.expansions
  areas : run.2.plan.areas = run'.2.plan.areas
  placements : run.2.plan.placements.map (·.blurred) = run'.2.plan.placements.map (·.blurred)

namespace Resembles

variable {μ ν : Type} {run : Except Fault α × Search μ} {run' : Except Fault α × Search ν}

theorem symm (h : Resembles run run') : Resembles run' run :=
  ⟨h.answer.symm, h.expansions.symm, h.areas.symm, h.placements.symm⟩

theorem trans {ξ : Type} {run'' : Except Fault α × Search ξ} (h : Resembles run run')
    (h' : Resembles run' run'') : Resembles run run'' :=
  ⟨h.answer.trans h'.answer, h.expansions.trans h'.expansions, h.areas.trans h'.areas,
    h.placements.trans h'.placements⟩

theorem of_matches {w : World μ} {v : World ν} {t : Twins w v} {σ : Nat → UInt32}
    (h : Matches t σ Eq run run') : Resembles run run' := by
  obtain ⟨agree, mirror⟩ := h
  refine ⟨agree.eq, ?_, ?_, ?_⟩ <;> rw [mirror.plan]
  · rfl
  · rfl
  · simp only [Plan.shift, Array.map_map]
    rfl

end Resembles

namespace Uniform

variable {x : ∀ {μ : Type}, World μ → SearchM μ α} {rule : RuleId} (uniform : Uniform rule x)

include uniform

/-- Whatever the provider leaves open, nothing is asked for that the grammar lacks. -/
theorem known {g : Grammar} (hg : g.Built True) (p : Provider) (known : rule < g.rules.size)
    (s : Search Unit) : ((x (World.remembering g p).forgetful).run s).1 ≠ .error .unknownId := by
  intro unknown
  have unbroken := uniform.unbroken (World.sturdy_remembering hg p.total_filled) known s
  rcases uniform.lags (p.part_filled g Memory.notebook) hg.marked hg.marked s with
    ⟨f, rfl, broken⟩ | same
  · cases unknown.symm.trans broken
  · obtain ⟨endless, _⟩ := unbroken .unknownId (same ▸ unknown)
    cases endless

/-- With the memory left out, it goes the same way from wherever another search has come to. -/
theorem resembles_forgetful {g : Grammar} (marked : g.Marked) {p : Provider} {s : Search Memory}
    (trusted : Trusted (.remembering g p) Memory.Holds s) (s' : Search Unit)
    (numbered : s'.arena.Numbered) (ground : s'.arena.Grounded) :
    Resembles ((x (World.remembering g p)).run s)
      ((x (World.remembering g p).forgetful).run s') :=
  .of_matches (uniform.inStep (.forgetting marked p) trusted ⟨numbered, ground, trivial⟩)

/-- What a larger grammar has in addition makes no difference. -/
theorem resembles_kept {g g' : Grammar} (hg : g.Built True) (marked' : g'.Marked)
    (kept : Draft.Kept g g') (p : Provider) (known : rule < g.rules.size) {s s' : Search Memory}
    (trusted : Trusted (.remembering g p) Memory.Holds s)
    (trusted' : Trusted (.remembering g' p) Memory.Holds s') :
    Resembles ((x (World.remembering g p)).run s) ((x (World.remembering g' p)).run s') := by
  have small := uniform.resembles_forgetful hg.marked trusted s'.forgotten trusted'.numbered
    trusted'.ground
  have large := uniform.resembles_forgetful marked' trusted' s'.forgotten trusted'.numbered
    trusted'.ground
  have common := (uniform.lags (kept.part p Memory.notebook) hg.marked marked' s'.forgotten).eq
    fun _ missing => missing ▸ uniform.known hg p known s'.forgotten
  exact (common ▸ small).trans large.symm

end Uniform

/-- Whatever further statements add without adding to what there is, a search from a rule that was
there before finds and paints the same, whatever was asked of either generator before. -/
theorem additions_change_nothing {d d' : Draft} (reached : Draft.Reached True d)
    (enlarged : d.Enlarged d') {g g' : Grammar} (built : d.build = .ok g) (built' : d'.build = .ok g')
    (p : Provider) (limits : Limits) {rule : RuleId} (known : rule < g.rules.size) (origin : Pos)
    (seed : Seed) {s s' : Search Memory} (used : Used (.remembering g p) s)
    (used' : Used (.remembering g' p) s') :
    let world := World.remembering g p
    let world' := World.remembering g' p
    Resembles ((do setup world rule origin seed; process world limits).run s)
        ((do setup world' rule origin seed; process world' limits).run s') ∧
      Resembles ((generate world limits rule origin seed).run s)
        ((generate world' limits rule origin seed).run s') := by
  have hg : g.Built True := ⟨d, reached, built⟩
  have hg' : g'.Built False := ⟨d', enlarged.reached reached, built'⟩
  obtain ⟨fine, rfl⟩ := Draft.build_ok built
  obtain ⟨_, rfl⟩ := Draft.build_ok built'
  have kept := (enlarged.begins (Draft.declared_of_error? fine)).compile
    (Draft.sound_of_reached reached)
  have trusted := used.trusted hg
  have trusted' := used'.trusted hg'
  exact ⟨(uniform_search limits rule origin seed).resembles_kept hg hg'.marked kept p known trusted
      trusted',
    (uniform_generate limits rule origin seed).resembles_kept hg hg'.marked kept p known trusted
      trusted'⟩

/-- An attic that can be a loft, with a hatch down to the house, or the house itself. -/
def attic : List Statement :=
  [.rule "attic", .component "loft", .constant (.block 9), .fillBox 1 7 0 none,
    .area 1 "boards" 0 1 .must false, .node 1 "hatch" 0 (.facing .posZ .posY) (some 0),
    .toComponent 2 1 (some "hatch") false, .toRule 2 0]

theorem additions_change_nothing_attic :
    let enlarged := (Draft.script attic house).getD house
    let world := World.remembering house.compile .none
    let world' := World.remembering enlarged.compile .none
    let fresh := Search.new (.ofCache (.new 0 .standard))
    Draft.Reached True house ∧ house.Enlarged enlarged ∧ house.build = .ok house.compile ∧
      enlarged.build = .ok enlarged.compile ∧ enlarged.compile.expansions.size = 5 ∧
      0 < house.compile.rules.size ∧ Used world fresh ∧ Used world' fresh ∧
      Resembles ((generate world ⟨10, 10⟩ 0 .zero 7).run fresh)
        ((generate world' ⟨10, 10⟩ 0 .zero 7).run fresh) := by
  intro enlarged world world' fresh
  have reached : Draft.Reached True house := Draft.reached_ofStatements (by decide +kernel)
  have rules : house.rules.size ≤ 2 := by decide +kernel
  have components : house.components.size ≤ 1 := by decide +kernel
  have adds : ∀ s ∈ attic, s.Adds house := by
    simp only [attic, List.forall_mem_cons]
    exact ⟨trivial, trivial, trivial, components, components, components, rules, rules, nofun⟩
  have known : Draft.script attic house ≠ none := Option.isSome_iff_ne_none.1 (by decide +kernel)
  have written : Draft.script attic house = some enlarged := (Option.getD_of_ne_none known house).symm
  have added : house.Enlarged enlarged := Draft.Enlarged.refl.script adds written
  have built : house.build = .ok house.compile := Draft.build_of_error? (by decide +kernel)
  have built' : enlarged.build = .ok enlarged.compile := Draft.build_of_error? (by decide +kernel)
  have known : 0 < house.compile.rules.size := by decide +kernel
  have used : Used world fresh := .new Cache.standardDraws 0 .standard
  have used' : Used world' fresh := .new Cache.standardDraws 0 .standard
  exact ⟨reached, added, built, built', by decide +kernel, known, used, used',
    (additions_change_nothing reached added built built' .none ⟨10, 10⟩ known .zero 7 used used').2⟩

end Search

end VoxelGrammar
