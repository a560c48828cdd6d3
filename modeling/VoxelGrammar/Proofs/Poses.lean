import Mathlib.Algebra.Ring.Parity
import VoxelGrammar.Proofs.Areas
import VoxelGrammar.Proofs.Handles
import VoxelGrammar.Proofs.Offers
import VoxelGrammar.Proofs.Placing
import VoxelGrammar.Proofs.Rotations
import VoxelGrammar.Proofs.Sanity
import VoxelGrammar.Proofs.TypeSafety

/-!
The frames of contexts. A rule is shifted against the context above it, an expansion lies in its rule
as it is, and a component is aligned with the node it is attached by, so every frame is a product of
shifts and signed permutations along the way to the root. Searches keep to this, because the attempts
that wait in a queue know orientations that nodes can have and nothing else.
-/

namespace VoxelGrammar

variable {own : Prop} {μ : Type} {w : World μ} {g : Grammar} {a b : Arena} {h : Handle} {x : Context}

/-! ### Paths -/

def Grammar.reflects (g : Grammar) (child parent : SymbolRef) : Bool :=
  match child, parent with
  | .component _, .expansion id =>
    match g.expansion id with
    | .ok e => e.reflected
    | .error _ => false
  | _, _ => false

/-- How many of the symbols on a path to the root are components that have been placed reflected. -/
def Grammar.reflections (g : Grammar) : List SymbolRef → Nat
  | child :: parent :: path =>
    (if g.reflects child parent then 1 else 0) + g.reflections (parent :: path)
  | _ => 0

inductive Arena.Ascends (a : Arena) : Handle → List SymbolRef → Prop
  | root {h : Handle} {c : Context} (found : a.get h = .ok c) (top : c.parent = none) :
      Ascends a h [c.symbol]
  | child {h p : Handle} {c : Context} {path : List SymbolRef} (found : a.get h = .ok c)
      (parent : c.parent = some p) (above : Ascends a p path) : Ascends a h (c.symbol :: path)

/-- Where a context lies: a root is not turned, and any other context is turned against its parent by
a signed permutation, which is a reflection if the placement is one. -/
structure Context.Hangs (g : Grammar) (live : List (Handle × Context)) (c : Context) : Prop where
  inverse : c.toLocal = c.toWorld.inverse
  root : c.parent = none → c.toWorld.rotation = .identity
  below : ∀ p, c.parent = some p → ∃ x r, (p, x) ∈ live ∧
    c.toWorld.rotation = x.toWorld.rotation * r ∧ r.Signed ∧
    r.det = if g.reflects c.symbol x.symbol then -1 else 1

theorem Context.Hangs.mono {live more : List (Handle × Context)} {c : Context} (h : c.Hangs g live)
    (hsub : live ⊆ more) : c.Hangs g more where
  inverse := h.inverse
  root := h.root
  below p hp := by
    obtain ⟨x, r, hx, rest⟩ := h.below p hp
    exact ⟨x, r, hsub hx, rest⟩

namespace Arena

theorem Ascends.unique {path path' : List SymbolRef} (ascends : a.Ascends h path)
    (ascends' : a.Ascends h path') : path = path' := by
  induction ascends generalizing path' with
  | root found top =>
      cases ascends' with
      | root found' _ => cases found.symm.trans found'; rfl
      | child found' parent _ =>
          cases found.symm.trans found'
          cases top.symm.trans parent
  | child found parent _ ih =>
      cases ascends' with
      | root found' top =>
          cases found.symm.trans found'
          cases top.symm.trans parent
      | child found' parent' above' =>
          cases found.symm.trans found'
          cases parent.symm.trans parent'
          rw [ih above']

/-- The determinants multiply on the way to the root, so each reflection there changes the sign. -/
theorem exists_path (numbered : a.Numbered) (ground : a.Grounded)
    (hangs : ∀ e ∈ a.live, e.2.Hangs g a.live) (hx : a.get h = .ok x) :
    ∃ path, a.Ascends h (x.symbol :: path) ∧ x.toWorld.rotation.Signed ∧
      x.toWorld.rotation.det = if Odd (g.reflections (x.symbol :: path)) then -1 else 1 := by
  induction hn : h.slot using Nat.strong_induction_on generalizing h x with
  | _ n ih =>
      have hang := hangs _ ((mem_live_iff numbered).2 hx)
      cases hp : x.parent with
      | none =>
          rw [hang.root hp]
          exact ⟨[], .root hx hp, .identity, rfl⟩
      | some p =>
          obtain ⟨y, r, hy, rotation, signed, det⟩ := hang.below p hp
          have lower : p.slot < h.slot := (ground h x hx).parent p hp
          obtain ⟨path, above, signed', det'⟩ :=
            ih p.slot (hn ▸ lower) ((mem_live_iff numbered).1 hy) rfl
          refine ⟨y.symbol :: path, .child hx hp above, ?_, ?_⟩
          · rw [rotation]
            exact signed'.mul signed
          · rw [rotation, Rotation.det_mul, det, det', Grammar.reflections]
            have turned : Odd (1 + g.reflections (y.symbol :: path)) ↔
                ¬ Odd (g.reflections (y.symbol :: path)) := by
              rw [Nat.odd_add, Nat.not_odd_iff_even]
              simp
            cases g.reflects x.symbol y.symbol with
            | false => simp
            | true =>
                by_cases odd : Odd (g.reflections (y.symbol :: path)) <;> simp [turned, odd]

/-- What is entered lies as its placement says. -/
theorem frame_of_prepare {parent : Option Handle} {ref : SymbolRef} {placement : Transform}
    {seed : Seed} (prepared : a.prepare g parent ref placement seed = .ok x) :
    x.toLocal = x.toWorld.inverse ∧ (parent = none → x.toWorld = placement) ∧
      ∀ p y, parent = some p → a.get p = .ok y → x.toWorld = y.toWorld * placement := by
  obtain ⟨above, s, hp, _, entered⟩ := prepare_ok prepared
  obtain ⟨same, found⟩ := parentContext_ok hp
  unfold Context.enter at entered
  dsimp only at entered
  split at entered
  · cases entered
  · cases entered
    refine ⟨rfl, fun hn => ?_, fun p y hs hy => ?_⟩
    · obtain rfl : above = none := Option.map_eq_none_iff.1 (same.trans hn)
      rfl
    · obtain ⟨e, rfl, rfl⟩ := Option.map_eq_some_iff.1 (same.trans hs)
      cases (found e rfl).symm.trans hy
      rfl

end Arena

namespace Search

structure Suits (g : Grammar) (a : Arena) (parent : Option Handle) (ref : SymbolRef)
    (placement : Transform) : Prop where
  root : parent = none → placement.rotation = .identity
  below : ∀ p y, parent = some p → a.get p = .ok y → placement.rotation.Signed ∧
    placement.rotation.det = if g.reflects ref y.symbol then -1 else 1

/-- A placement without a turn suits whatever is no component. -/
theorem Suits.still {parent : Option Handle} {ref : SymbolRef} {placement : Transform}
    (straight : placement.rotation = .identity) (plain : ∀ r, g.reflects ref r = false) :
    Suits g a parent ref placement where
  root _ := straight
  below p y _ _ := by
    rw [straight, plain]
    exact ⟨.identity, rfl⟩

theorem Opens.hangs {seed : Seed} {parent : Option Handle} {ref : SymbolRef} {placement : Transform}
    {sym : Symbol} (opens : Opens w seed a parent ref placement x sym b) (numbered : a.Numbered)
    (suits : Suits w.grammar a parent ref placement)
    (hangs : ∀ e ∈ a.live, e.2.Hangs w.grammar a.live) :
    ∀ e ∈ b.live, e.2.Hangs w.grammar b.live := by
  have hsub : a.live ⊆ b.live := opens.live ▸ List.subset_append_left _ _
  obtain ⟨parent_eq, alive⟩ := Arena.parent_of_prepare opens.prepared
  obtain ⟨inverse, root, below⟩ := Arena.frame_of_prepare opens.prepared
  intro e he
  rw [opens.live] at he
  rcases List.mem_append.1 he with he | he
  · exact (hangs e he).mono hsub
  · obtain rfl := List.mem_singleton.1 he
    refine ⟨inverse, fun hn => ?_, fun p hp => ?_⟩
    · have top : parent = none := parent_eq.symm.trans hn
      exact (congrArg _ (root top)).trans (suits.root top)
    · obtain ⟨y, hy⟩ := alive p hp
      have hs : parent = some p := parent_eq.symm.trans hp
      have symbol : x.symbol = ref := Arena.symbol_of_prepare opens.prepared
      refine ⟨y, placement.rotation, hsub ((Arena.mem_live_iff numbered).2 hy),
        congrArg _ (below p y hs hy), ?_⟩
      show _ ∧ _ = if w.grammar.reflects x.symbol y.symbol then -1 else 1
      rw [symbol]
      exact suits.below p y hs hy

end Search

/-! ### Searches -/

/-- The nodes of the grammar do not face along their own up axes. -/
def Grammar.Upright (g : Grammar) : Prop :=
  ∀ id c, g.component id = .ok c → ∀ n ∈ c.nodes, n.orientation.isValid = true

def Candidate.Mirrors (g : Grammar) (c : Candidate) : Prop :=
  ∃ e, g.expansion c.expansion = .ok e ∧ e.reflected = c.reflected

/-- The context of the attempt's expansion lies where that of its rule does, and the orientations of
its entry and of its attachments are ones that nodes can have. -/
structure Attempt.Poised (g : Grammar) (live : List (Handle × Context)) (t : Attempt) : Prop where
  entry : t.entry.orientation.isValid = true
  context : ∃ x y, (t.entry.context, x) ∈ live ∧ (t.context, y) ∈ live ∧
    y.symbol = .expansion t.candidate.expansion ∧ y.toWorld = x.toWorld
  attachments : ∀ o ∈ t.attachment :: t.alternatives, o.orientation.isValid = true
  candidates : ∀ c ∈ t.candidate :: t.later, c.Mirrors g

theorem Attempt.Poised.mono {live more : List (Handle × Context)} {t : Attempt}
    (h : t.Poised g live) (hsub : live ⊆ more) : t.Poised g more where
  entry := h.entry
  context := by
    obtain ⟨x, y, hx, hy, rest⟩ := h.context
    exact ⟨x, y, hsub hx, hsub hy, rest⟩
  attachments := h.attachments
  candidates := h.candidates

structure Snapshot.Poised (g : Grammar) (k : Snapshot) : Prop where
  contexts : ∀ e ∈ k.contexts, e.2.Hangs g k.contexts
  queue : ∀ t, some t ∈ k.queue → t.Poised g k.contexts

namespace Search

variable {s s' : Search μ} {t : Attempt}

/-- What a target offers can be attached in the orientations of a node. -/
theorem offered_valid (upright : w.grammar.Upright) {target : Target} {offers : List Attachment}
    (hoffers : offered w target = .ok offers) : ∀ o ∈ offers, o.orientation.isValid = true := by
  cases target with
  | component id name =>
      obtain ⟨c, hc, heq⟩ := bind_ok_iff.1 hoffers
      cases heq
      intro o ho
      obtain ⟨n, hn, _, turned⟩ := Component.mem_attachments.1 ho
      exact Node.isValid_orientations (upright id c hc n (Array.mem_of_getElem? hn)) _ turned
  | nothing =>
      cases hoffers
      exact fun o ho => List.mem_singleton.1 ho ▸ rfl
  | rule id =>
      cases hoffers
      exact fun o ho => List.mem_singleton.1 ho ▸ rfl

theorem OpensFirst.poised {entry : RuleEntry} {candidates : List Candidate}
    (h : OpensFirst w entry candidates s t s') (upright : w.grammar.Upright)
    (hangs : ∀ e ∈ s.arena.live, e.2.Hangs w.grammar s.arena.live)
    {y : Context} (hy : (entry.context, y) ∈ s.arena.live)
    (valid : entry.orientation.isValid = true) (mirror : ∀ c ∈ candidates, c.Mirrors w.grammar) :
    (∀ e ∈ s'.arena.live, e.2.Hangs w.grammar s'.arena.live) ∧ s.arena.live ⊆ s'.arena.live ∧
      t.Poised w.grammar s'.arena.live := by
  obtain ⟨s₁, c, later, e, x, same, hsuffix, opened⟩ := h
  have opens := opened.opens
  rw [← same.live] at hangs hy
  have hsub : s₁.arena.live ⊆ s'.arena.live := opens.live ▸ List.subset_append_left _ _
  have hangs' := opens.hangs same.numbered (.still rfl fun _ => rfl) hangs
  have symbol : x.symbol = .expansion c.expansion := Arena.symbol_of_prepare opens.prepared
  obtain ⟨_, _, below⟩ := Arena.frame_of_prepare opens.prepared
  have frame : x.toWorld = y.toWorld :=
    (below _ y rfl ((Arena.mem_live_iff same.numbered).1 hy)).trans (Transform.mul_identity _)
  obtain ⟨offers, hoffers, hordered⟩ := opened.attachments
  refine ⟨hangs', same.live ▸ hsub, ?_⟩
  rw [opened.attempt]
  refine ⟨valid, ⟨y, x.assign e.symbol, hsub hy, ?_, symbol, frame⟩, fun o ho => ?_,
    fun d hd => mirror d (hsuffix.mem hd)⟩
  · rw [opens.live]
    simp
  · rw [← hordered] at ho
    exact offered_valid upright hoffers o (mem_ordered ho)

theorem next_poised {following : Option Attempt} (upright : w.grammar.Upright)
    (numbered : s.arena.Numbered) (hangs : ∀ e ∈ s.arena.live, e.2.Hangs w.grammar s.arena.live)
    (ht : t.Poised w.grammar s.arena.live) (hr : (next w t).run s = (.ok following, s')) :
    (∀ e ∈ s'.arena.live, e.2.Hangs w.grammar s'.arena.live) ∧ s.arena.live ⊆ s'.arena.live ∧
      ∀ u, following = some u → u.Poised w.grammar s'.arena.live := by
  rcases next_ok numbered hr with ⟨rfl, same⟩ | ⟨u, rfl, follows⟩
  · rw [same.live]
    exact ⟨hangs, List.Subset.refl _, fun u hu => nomatch hu⟩
  · cases follows with
    | alternative first attempt same =>
        subst same
        refine ⟨hangs, List.Subset.refl _, fun v hv => ?_⟩
        cases hv
        rw [attempt]
        refine ⟨ht.entry, ht.context, fun o ho => ?_, ht.candidates⟩
        rw [← first] at ho
        exact ht.attachments o (List.mem_cons_of_mem _ ho)
    | candidate opens =>
        obtain ⟨y, _, hy, _⟩ := ht.context
        obtain ⟨hangs', hsub, hu⟩ := opens.poised upright hangs hy ht.entry fun c hc =>
          ht.candidates c (List.mem_cons_of_mem _ hc)
        refine ⟨hangs', hsub, fun v hv => ?_⟩
        cases hv
        exact hu

theorem EntersRule.poised {id : RuleId} {origin : Pos} {orientation : Orientation}
    {parent : Option Handle} {r : Rule} (h : EntersRule w id origin orientation parent s r x t s')
    (tiered : w.grammar.Tiered) (upright : w.grammar.Upright) (numbered : s.arena.Numbered)
    (valid : orientation.isValid = true) (poised : s.snapshot.Poised w.grammar) :
    s'.snapshot.Poised w.grammar := by
  obtain ⟨s₁, s₂, opens, _, first, harena⟩ := h.opens
  obtain ⟨q, hq, hqueue⟩ := h.queued
  have hangs := opens.hangs numbered (.still rfl fun _ => rfl) poised.contexts
  have hsub : s.arena.live ⊆ s₁.arena.live := opens.live ▸ List.subset_append_left _ _
  have here : ((s.arena.push x).1, x.assign r.symbol) ∈ s₁.arena.live := by
    rw [opens.live]
    simp
  obtain ⟨hangs', hsub', ht⟩ := first.poised upright hangs here valid fun c hc =>
    (tiered id r h.rule _ c hc).2
  rw [← harena] at hangs' hsub' ht
  refine ⟨hangs', fun u hu => ?_⟩
  rw [snapshot, hqueue] at hu
  rcases mem_queued hq hu with hu | rfl
  · exact (poised.queue u hu).mono (List.Subset.trans hsub hsub')
  · exact ht

theorem EntersNodes.poised {nodes : Array Node} {is : List Nat}
    (he : EntersNodes w h nodes is s s') (tiered : w.grammar.Tiered) (upright : w.grammar.Upright)
    (numbered : s.arena.Numbered) (valid : ∀ n ∈ nodes, n.orientation.isValid = true)
    (poised : s.snapshot.Poised w.grammar) : s'.snapshot.Poised w.grammar := by
  induction he with
  | nil same =>
      rw [snapshot, same.plan, same.live]
      exact poised
  | skip _ _ _ ih => exact ih numbered poised
  | enter node _ _ enters _ ih =>
      exact ih (enters.grows (Nat.le_refl _)).numbered
        (enters.poised tiered upright numbered (valid _ (Array.mem_of_getElem? node)) poised)

/-- The component that an attempt places is turned as the alignment of its node says. -/
theorem attach_suits (poised : t.Poised w.grammar s.arena.live) (numbered : s.arena.Numbered)
    (id : ComponentId) (n : Node) (p : Pos) :
    Suits w.grammar s.arena (some t.context) (.component id)
      (attach t.entry t.attachment (n.joint t.candidate.reflected) p) where
  root h := nomatch h
  below q y hq hy := by
    cases hq
    obtain ⟨x, z, _, hz, symbol, _⟩ := poised.context
    cases hy.symm.trans ((Arena.mem_live_iff numbered).1 hz)
    obtain ⟨e, he, reflected⟩ := poised.candidates t.candidate List.mem_cons_self
    have aligned := Orientation.alignRotation_signed
      (poised.attachments t.attachment List.mem_cons_self) (Orientation.isValid_adjacent poised.entry)
      (n.joint t.candidate.reflected)
    have rotation : (attach t.entry t.attachment (n.joint t.candidate.reflected) p).rotation =
        Orientation.alignRotation t.attachment.orientation t.entry.orientation.adjacent
          (n.joint t.candidate.reflected) := Rotation.mul_identity _
    have reflects : w.grammar.reflects (.component id) y.symbol = t.candidate.reflected := by
      rw [symbol, Grammar.reflects, he]
      exact reflected
    rw [rotation, reflects]
    exact aligned

theorem PlacesComponent.poised {id : ComponentId} {c : Component} {n : Node} {p : Pos}
    (h : PlacesComponent w id t s c n p x s') (tiered : w.grammar.Tiered)
    (upright : w.grammar.Upright) (numbered : s.arena.Numbered)
    (ht : t.Poised w.grammar s.arena.live) (poised : s.snapshot.Poised w.grammar) :
    s'.snapshot.Poised w.grammar := by
  obtain ⟨s₁, areas, opens, _, hplan, enters⟩ := h.populated
  have hangs := opens.hangs numbered (attach_suits ht numbered id n p) poised.contexts
  have hsub : s.arena.live ⊆ s₁.arena.live := opens.live ▸ List.subset_append_left _ _
  refine enters.poised tiered upright opens.numbered (upright id c h.component) ⟨hangs, fun u hu => ?_⟩
  rw [snapshot, hplan] at hu
  exact (poised.queue u hu).mono hsub

theorem Carries.poised {e : Expansion} (h : Carries w t s s' e) (tiered : w.grammar.Tiered)
    (upright : w.grammar.Upright) (numbered : s.arena.Numbered)
    (ht : t.Poised w.grammar s.arena.live) (poised : s.snapshot.Poised w.grammar) :
    s'.snapshot.Poised w.grammar := by
  cases h with
  | nothing _ same => exact same ▸ poised
  | rule _ enters =>
      exact enters.poised (s := branched s.arena.size s) tiered upright numbered ht.entry poised
  | component _ places => exact places.poised tiered upright numbered ht poised

/-- Once the next attempt has been looked for, all is as it was, the attempt at hand included. -/
theorem advanced_poised {following : Option Attempt} (upright : w.grammar.Upright)
    (numbered : s.arena.Numbered) (poised : s.snapshot.Poised w.grammar)
    (ht : t.Poised w.grammar s.arena.live) (hr : (next w t).run s = (.ok following, s')) :
    (advanced following s').snapshot.Poised w.grammar ∧ t.Poised w.grammar s'.arena.live := by
  obtain ⟨hangs, hsub, hu⟩ := next_poised upright numbered poised.contexts ht hr
  have hplan := (next_grows numbered (Nat.le_refl _) hr).2
  refine ⟨⟨hangs, fun u hmem => ?_⟩, ht.mono hsub⟩
  rcases Array.mem_or_eq_of_mem_setIfInBounds hmem with hmem | rfl
  · have there : some u ∈ s.plan.queue := hplan ▸ hmem
    exact (poised.queue u there).mono hsub
  · exact hu u rfl

def Poised (s : Search μ) (g : Grammar) : Prop :=
  Kept (Snapshot.Poised g) s ∧ s.snapshot.Poised g

theorem Resolves.poised {entry : Option Attempt} (tiered : w.grammar.Tiered)
    (upright : w.grammar.Upright) (hr : Resolves w s entry s')
    (current : s.plan.queue[s.plan.cursor]? = some entry) (h : s.Poised w.grammar) :
    s'.Poised w.grammar := by
  obtain ⟨kept, poised⟩ := h
  have looked : ∀ u following s₁, entry = some u → (next w u).run s = (.ok following, s₁) →
      (advanced following s₁).snapshot.Poised w.grammar ∧ u.Poised w.grammar s₁.arena.live := by
    rintro u following s₁ rfl hnext
    exact advanced_poised upright kept.numbered poised
      (poised.queue u (Array.mem_of_getElem? current)) hnext
  refine kept_resolves kept (fun u following s₁ hu hnext => (looked u following s₁ hu hnext).1)
    (fun u following s₁ s₂ e hu hnext _ carries => ?_) hr
  obtain ⟨poised', hu'⟩ := looked u following s₁ hu hnext
  have numbered := (next_grows kept.numbered (Nat.le_refl _) hnext).1.numbered
  have carried := carries.poised tiered upright numbered hu' poised'
  exact ⟨carried.contexts, carried.queue⟩

theorem Steps.poised {r : Option (Except SearchFailure Unit)} (tiered : w.grammar.Tiered)
    (upright : w.grammar.Upright) (hstep : Steps w s r s') (h : s.Poised w.grammar) :
    s'.Poised w.grammar := by
  have changed : ∀ plan : Plan, plan.areas = s.plan.areas → plan.placements = s.plan.placements →
      plan.queue = s.plan.queue → plan.checkpoints = s.plan.checkpoints →
        Poised { s with plan } w.grammar := by
    intro plan areas placements queue checkpoints
    refine ⟨h.1.replan rfl areas placements checkpoints, h.2.contexts, fun u hu => ?_⟩
    have there : some u ∈ s.plan.queue := queue ▸ hu
    exact h.2.queue u there
  cases hstep with
  | finished => exact changed _ rfl rfl rfl rfl
  | exhausted => exact h
  | stopped => exact changed _ rfl rfl rfl rfl
  | tried current resolves =>
      exact resolves.poised tiered upright current (changed _ rfl rfl rfl rfl)

theorem setup_poised (tiered : w.grammar.Tiered) (upright : w.grammar.Upright) {rule : RuleId}
    {origin : Pos} {seed : Seed} (hr : (setup w rule origin seed).run s = (.ok (), s')) :
    s'.Poised w.grammar := by
  have live : s.arena.clear.live = [] := by
    rw [Arena.clear, Arena.live_truncate, List.take_zero]
  have nothing : (started w origin seed s).snapshot.Poised w.grammar := by
    constructor <;> simp [snapshot, live, started, branched, Plan.blank]
  refine ⟨(setup_kept nothing hr).1, ?_⟩
  rcases setup_ok hr with same | ⟨r, x, u, enters⟩
  · rw [snapshot, same.plan, same.live]
    exact nothing
  · exact enters.poised tiered upright (numbered_started w origin seed s) rfl nothing

theorem Underway.poised (tiered : w.grammar.Tiered) (upright : w.grammar.Upright)
    (underway : Underway w s s') : s'.Poised w.grammar := by
  induction underway with
  | setup run => exact setup_poised tiered upright run
  | step _ run ih => exact (step_ok ih.1.numbered run).poised tiered upright ih

end Search

theorem Grammar.Built.upright (hg : g.Built own) : g.Upright := fun _ _ hc =>
  (hg.component_typed hc).orientations

/-! ### Local positions -/

/-- A field of local positions reads a world position in the frame of its context. -/
theorem World.sample_localPosition {holds : Facts → Nat → μ → Prop}
    (honest : w.notebook.Honest holds) (marked : w.grammar.Marked) {m : μ}
    (hm : holds (w.facts a) a.size m) (hx : a.get h = .ok x) {id : FieldId} {f : Field}
    (hf : w.grammar.field id = .ok f) (kind : f.kind = .localPosition) (q : Pos) :
    ((w.sample a h id q).run m).1 = .ok (.float3 (x.toLocal.apply q).toVec3) := by
  obtain ⟨page, hpage⟩ : ∃ page, a.page h f = .ok page := by
    unfold Arena.page
    split
    · rw [hx]
      exact ⟨_, rfl⟩
    · exact ⟨_, rfl⟩
  have sources : a.sources h id f = .ok [] := by
    rw [Arena.sources.eq_def, kind]
    rfl
  have varies : w.forgetful.dimensionIn a (w.depth a) h id = .ok .varying := by
    refine (dimensionStep_eq (w := w.forgetful) hf hpage sources).trans ?_
    rw [kind]
    rfl
  have record : ((w.record a h id q .point).run m).1 =
      .ok (.tabulate 1 fun _ => .float3 (x.toLocal.apply q).toVec3) := by
    rw [(run_record honest marked h id q .point hm).1]
    show (w.forgetful.dimensionIn a (w.depth a) h id >>= fun d => _) = _
    rw [varies]
    have declared : w.forgetful.grammar.field (RecordKey.mk id q .point).field = .ok f := hf
    refine (recordStep_eq declared hpage sources).trans ?_
    rw [kind]
    show ((liftM (a.get h) : Except EvalError Context) >>= fun c => _) = _
    rw [lift_ok.2 hx]
    rfl
  exact sample_ok_iff.2 ⟨_, record, rfl⟩

namespace Search

/-- Between any two attempts of a search, the frame of every context is a rigid motion: a signed
permutation, which is a reflection if an odd number of components on the way to the root have been
placed reflected, and a shift. What leads into the frame is its inverse, so that positions of the
context are read back as they are. -/
theorem frames_are_rigid (hg : g.Built own) (p : Provider) {s s' : Search Memory}
    (used : Used (.remembering g p) s) (underway : Underway (.remembering g p) s s')
    (live : s'.arena.get h = .ok x) :
    (∃ path, s'.arena.Ascends h path ∧ x.toWorld.rotation.Signed ∧
      x.toWorld.rotation.det = if Odd (g.reflections path) then -1 else 1) ∧
    (∀ q, x.toLocal.apply (x.mapToWorld q) = q) ∧ (∀ q, x.mapToWorld (x.toLocal.apply q) = q) ∧
    ∀ id f, g.field id = .ok f → f.kind = .localPosition → ∀ q,
      (((World.remembering g p).sample s'.arena h id (x.mapToWorld q)).run s'.memory).1 =
        .ok (.float3 q.toVec3) := by
  obtain ⟨u, _, mirror⟩ := underway.forgotten hg.marked (used.trusted hg)
  have poised : s'.Poised g := underway.poised hg.closed.tiered hg.upright
  have numbered := poised.1.numbered
  obtain ⟨path, ascends, signed, det⟩ :=
    Arena.exists_path numbered mirror.ground poised.2.contexts live
  have inverse : x.toLocal = x.toWorld.inverse :=
    (poised.2.contexts _ ((Arena.mem_live_iff numbered).2 live)).inverse
  have back : ∀ q, x.toLocal.apply (x.mapToWorld q) = q := by
    intro q
    rw [inverse]
    exact Transform.inverse_apply signed q
  refine ⟨⟨_, ascends, signed, det⟩, back, fun q => ?_, fun id f hf kind q => ?_⟩
  · rw [inverse]
    exact Transform.apply_inverse signed q
  · rw [World.sample_localPosition Memory.honest_notebook hg.marked mirror.memory live hf kind, back]

/-- The yard of a lodge is in a mirror. -/
theorem frames_are_rigid_lodge :
    let world := World.remembering lodge.compile .none
    let fresh := Search.new (.ofCache (.new 0 .standard))
    ∃ found x, lodge.compile.Built True ∧ Used world fresh ∧ Underway world fresh found ∧
      found.arena.get ⟨2, 0⟩ = .ok x ∧ x.toWorld.rotation.Signed ∧ x.toWorld.rotation.det = -1 ∧
      ∀ q, x.toLocal.apply (x.mapToWorld q) = q := by
  intro world fresh
  have used : Used world fresh := .new Cache.standardDraws 0 .standard
  obtain ⟨found, x, y, z, underway, _, _, ⟨top, rule, root⟩, ⟨below, expansion, above⟩,
    ⟨yard, component, parent⟩, _⟩ := lodge_found
  obtain ⟨⟨path, ascends, signed, det⟩, back, _⟩ :=
    frames_are_rigid built_lodge .none used underway yard
  refine ⟨found, z, built_lodge, used, underway, yard, signed, ?_, back⟩
  have path_eq := ascends.unique (.child yard parent (.child below above (.root top root)))
  have single : lodge.compile.reflections [.component 0, .expansion 0, .rule 0] = 1 := by
    decide +kernel
  rw [det, path_eq, component, expansion, rule, single]
  rfl

end Search

end VoxelGrammar
