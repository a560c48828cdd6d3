import VoxelGrammar.Proofs.Branches
import VoxelGrammar.Proofs.Breakdown

/-!
Searches that refer to nothing but what there is. The contexts, the entries that wait to be resolved
and the components that have been placed refer to live contexts and to entries of the grammar.
Entering a symbol, handing assignments on and rolling back keep to this, and so does all that the
open branches have found.
-/

namespace VoxelGrammar

variable {own : Prop} {μ : Type} {w : World μ} {g : Grammar} {a b : Arena} {h : Handle} {x : Context}

/-! ### Contexts -/

theorem Lives.mono {live more : List (Handle × Context)} (hl : Lives live h) (hsub : live ⊆ more) :
    Lives more h := by
  obtain ⟨x, hx⟩ := hl
  exact ⟨x, hsub hx⟩

/-- The symbol of a closed grammar refers to fields of the grammar. -/
theorem Grammar.Closed.symbol (closed : g.Closed own) {ref : SymbolRef} {s : Symbol}
    (hs : g.symbol ref = .ok s) : s.Within g.fields.size :=
  g.symbol_induction closed.rules (fun id e he => (closed.expansions id e he).1)
    (fun id c hc => (closed.components id c hc).symbol) hs

namespace Context

/-- What a context starts with leads to fields of the grammar or to its parent. -/
theorem inputsOf_leads {s : Symbol} (within : s.Within g.fields.size)
    {parent : Option (Handle × Context)} {live : List (Handle × Context)}
    (hp : ∀ e, parent = some e → Lives live e.1) :
    ∀ e ∈ (inputsOf s parent).entries, e.2.Leads g live := by
  have own : ∀ e ∈ (Bindings.empty.setAll (defaults s)).entries, e.2.Leads g live := by
    intro e he
    rcases Bindings.mem_setAll he with he | he
    · cases he
    · obtain ⟨p, hp, he⟩ := List.mem_filterMap.1 he
      obtain ⟨id, hid, rfl⟩ := Option.map_eq_some_iff.1 he
      exact within.defaults p hp id hid
  cases parent with
  | none => exact own
  | some d =>
      intro e he
      rcases Bindings.mem_setAll he with he | he
      · exact own e he
      · obtain ⟨k, _, rfl⟩ := List.mem_map.1 he
        exact hp d rfl

theorem Sane.assign {live : List (Handle × Context)} (sane : x.Sane g live) {s : Symbol}
    (within : s.Within g.fields.size) : (x.assign s).Sane g live where
  symbol := sane.symbol
  parent := sane.parent
  inputs := sane.inputs
  outputs := by
    intro e he
    rcases Bindings.mem_setAll he with he | he
    · exact sane.outputs e he
    · obtain ⟨v, hv, rfl⟩ := List.mem_map.1 he
      exact within.assignments v hv

end Context

namespace Arena

/-- A context that can be entered is sane. -/
theorem Sane.prepare (sane : a.Sane g) (closed : g.Closed own) {parent : Option Handle}
    {ref : SymbolRef} {placement : Transform} {seed : Seed}
    (hx : a.prepare g parent ref placement seed = .ok x) : x.Sane g a.live := by
  obtain ⟨p, s, hp, hs, he⟩ := prepare_ok hx
  have alive : ∀ e, p = some e → Lives a.live e.1 := by
    intro e heq
    subst heq
    cases parent with
    | none => cases hp
    | some h =>
        cases hc : a.get h with
        | error f =>
            rw [parentContext, hc] at hp
            cases hp
        | ok c =>
            rw [parentContext, hc] at hp
            cases hp
            exact ⟨c, (mem_live_iff sane.numbered).2 hc⟩
  have inputs := Context.inputsOf_leads (closed.symbol hs) alive
  unfold Context.enter at he
  dsimp only at he
  split at he
  · cases he
  · cases he
    refine ⟨⟨s, hs⟩, fun h hh => ?_, inputs, inputs⟩
    obtain ⟨e, hpe, rfl⟩ := Option.map_eq_some_iff.1 hh
    exact alive e hpe

theorem lives_push (ha : a.Numbered) (x : Context) : Lives (a.push x).2.live (a.push x).1 :=
  ⟨x, (mem_live_push ha).2 (.inr rfl)⟩

theorem Sane.push (sane : a.Sane g) (closed : g.Closed own) {parent : Option Handle}
    {ref : SymbolRef} {placement : Transform} {seed : Seed}
    (hx : a.prepare g parent ref placement seed = .ok x) : (a.push x).2.Sane g where
  numbered := numbered_push sane.numbered x
  ground := grounded_push sane.numbered sane.ground (below_of_prepare hx)
  contexts := by
    have kept := subset_push sane.numbered x
    intro e he
    rcases (mem_live_push sane.numbered).1 he with he | rfl
    · exact (sane.contexts e he).mono kept
    · exact (sane.prepare closed hx).mono kept

/-- The same contexts are sane in another arena. -/
theorem Sane.of_live (sane : a.Sane g) (hb : b.Numbered) (live : b.live = a.live) : b.Sane g where
  numbered := hb
  ground := by
    rw [grounded_iff hb, live]
    exact (grounded_iff sane.numbered).1 sane.ground
  contexts := live ▸ sane.contexts

theorem lives_assign {s : Symbol} (hl : a.isLive h = true) {k : Handle} (hk : Lives a.live k) :
    Lives (a.assign h s).live k := by
  obtain ⟨x, hx⟩ := hk
  obtain ⟨i, hi⟩ := List.mem_iff_getElem?.1 hx
  have found : (a.assign h s).live[i]? =
      some (if h.slot = i then (k, x.assign s) else (k, x)) := by
    rw [live_assign hl, List.getElem?_modify, hi]
    split <;> simp [*]
  refine ⟨if h.slot = i then x.assign s else x, List.mem_of_getElem? (found.trans ?_)⟩
  split <;> rfl

/-- Handing on the assignments of a live context keeps all contexts sane. -/
theorem Sane.assign (sane : a.Sane g) {s : Symbol} (within : s.Within g.fields.size)
    (hl : a.isLive h = true) : (a.assign h s).Sane g where
  numbered := numbered_modify sane.numbered _ _
  ground := grounded_assign sane.numbered sane.ground hl s
  contexts := by
    have leads : ∀ b : Binding, b.Leads g a.live → b.Leads g (a.assign h s).live := by
      intro b hb
      cases b with
      | own id => exact hb
      | bridge parent => exact lives_assign hl hb
    have moved : ∀ c : Context, c.Sane g a.live → c.Sane g (a.assign h s).live := fun c hc =>
      ⟨hc.symbol, fun p hp => lives_assign hl (hc.parent p hp), fun e he => leads _ (hc.inputs e he),
        fun e he => leads _ (hc.outputs e he)⟩
    intro e he
    obtain ⟨c, hc, same⟩ := mem_live_modify he
    have old := sane.contexts _ hc
    rcases same with same | ⟨_, same⟩ <;> rw [same]
    · exact moved _ old
    · exact moved _ (old.assign within)

theorem slot_lt_of_mem_truncate {n : Nat} {e : Handle × Context} (he : e ∈ (a.truncate n).live) :
    e.1.slot < n := by
  rw [live_truncate] at he
  obtain ⟨i, hi⟩ := List.mem_iff_getElem?.1 he
  rw [List.getElem?_take, Option.ite_none_right_eq_some] at hi
  exact slot_of_live hi.2 ▸ hi.1

theorem lives_truncate (ha : a.Numbered) {n : Nat} {k : Handle} (hs : k.slot < n)
    (hk : Lives a.live k) : Lives (a.truncate n).live k := by
  obtain ⟨x, hx⟩ := hk
  have found := (get_eq_ok_iff ha).1 ((mem_live_iff ha).1 hx)
  refine ⟨x, List.mem_of_getElem? (i := k.slot) ?_⟩
  rw [live_truncate, List.getElem?_take, if_pos hs, found]

/-- Contexts refer to lower slots, so rolling back leaves none of them without what it refers to. -/
theorem Sane.truncate (sane : a.Sane g) (n : Nat) : (a.truncate n).Sane g where
  numbered := numbered_truncate sane.numbered n
  ground := grounded_truncate sane.numbered sane.ground n
  contexts := by
    intro e he
    have stays : ∀ {k : Handle}, k.slot < e.1.slot → Lives a.live k → Lives (a.truncate n).live k :=
      fun hs => lives_truncate sane.numbered (Nat.lt_trans hs (slot_lt_of_mem_truncate he))
    have below := sane.below (mem_of_mem_truncate he)
    have old := sane.contexts e (mem_of_mem_truncate he)
    have leads : ∀ b : Binding, b.Below e.1.slot → b.Leads g a.live →
        b.Leads g (a.truncate n).live := by
      intro b hb hl
      cases b with
      | own id => exact hl
      | bridge parent => exact stays hb hl
    exact ⟨old.symbol, fun p hp => stays (below.parent p hp) (old.parent p hp),
      fun e he => leads _ (below.inputs e he) (old.inputs e he),
      fun e he => leads _ (below.outputs e he) (old.outputs e he)⟩

end Arena

/-! ### Searches -/

structure Attempt.Sane (w : World μ) (live : List (Handle × Context)) (t : Attempt) : Prop where
  entry : Lives live t.entry.context
  context : Lives live t.context
  offered : ∃ e offers, w.grammar.expansion t.candidate.expansion = .ok e ∧
    Search.offered w e.target = .ok offers ∧ ∀ o ∈ t.attachment :: t.alternatives, o ∈ offers
  later : ∀ c ∈ t.later, ∃ e, w.grammar.expansion c.expansion = .ok e

theorem Attempt.Sane.mono {live more : List (Handle × Context)} {t : Attempt} (h : t.Sane w live)
    (hsub : live ⊆ more) : t.Sane w more :=
  ⟨h.entry.mono hsub, h.context.mono hsub, h.offered, h.later⟩

def Placement.Sane (g : Grammar) (live : List (Handle × Context)) (p : Placement) : Prop :=
  Lives live p.context ∧ ∃ c, g.component p.component = .ok c

structure Snapshot.Sane (w : World μ) (k : Snapshot) : Prop where
  ground : ∀ i (e : Handle × Context), k.contexts[i]? = some e → e.2.Below i
  contexts : ∀ e ∈ k.contexts, e.2.Sane w.grammar k.contexts
  queue : ∀ t, some t ∈ k.queue → t.Sane w k.contexts
  placements : ∀ p ∈ k.placements, p.Sane w.grammar k.contexts

namespace Search

variable {s s' : Search μ}

theorem sane_arena (hs : s.arena.Numbered) (sane : s.snapshot.Sane w) : s.arena.Sane w.grammar :=
  ⟨hs, (Arena.grounded_iff hs).2 sane.ground, sane.contexts⟩

/-- What is added to a sane search has to be sane itself. -/
theorem sane_of_subset (sane : s.snapshot.Sane w) (arena : s'.arena.Sane w.grammar)
    (hsub : s.arena.live ⊆ s'.arena.live)
    (queue : ∀ t, some t ∈ s'.plan.queue → some t ∈ s.plan.queue ∨ t.Sane w s'.arena.live)
    (placements : ∀ p ∈ s'.plan.placements,
      p ∈ s.plan.placements ∨ p.Sane w.grammar s'.arena.live) : s'.snapshot.Sane w where
  ground := (Arena.grounded_iff arena.numbered).1 arena.ground
  contexts := arena.contexts
  queue := by
    intro t ht
    rcases queue t ht with ht | ht
    · exact (sane.queue t ht).mono hsub
    · exact ht
  placements := by
    intro p hp
    rcases placements p hp with hp | hp
    · exact ⟨(sane.placements p hp).1.mono hsub, (sane.placements p hp).2⟩
    · exact hp

theorem Opens.sane {seed : Seed} {parent : Option Handle} {ref : SymbolRef}
    {placement : Transform} {sym : Symbol}
    (h : Opens w seed a parent ref placement x sym b) (closed : w.grammar.Closed own)
    (sane : a.Sane w.grammar) :
    b.Sane w.grammar ∧ a.live ⊆ b.live ∧ Lives b.live (a.push x).1 := by
  have live := Arena.isLive_of_get (Arena.get_push sane.numbered x)
  have assigned := (sane.push closed h.prepared).assign (closed.symbol h.symbol) live
  have same : b.live = ((a.push x).2.assign (a.push x).1 sym).live := by
    rw [h.live, Arena.live_assign_push sane.numbered]
  refine ⟨assigned.of_live h.numbered same, h.live ▸ List.subset_append_left _ _, x.assign sym, ?_⟩
  rw [h.live]
  simp

def Known (w : World μ) (candidates : List Candidate) : Prop :=
  ∀ c ∈ candidates, ∃ e, w.grammar.expansion c.expansion = .ok e

theorem known_candidates (closed : w.grammar.Closed own) {id : RuleId} {r : Rule}
    (hr : w.grammar.rule id = .ok r) (seed : Seed) : Known w (r.candidates seed) := by
  intro c hc
  obtain ⟨_, e, he, _⟩ := closed.tiered id r hr seed c hc
  exact ⟨e, he⟩

theorem OpensFirst.sane {entry : RuleEntry} {candidates : List Candidate} {t : Attempt}
    (h : OpensFirst w entry candidates s t s') (closed : w.grammar.Closed own)
    (sane : s.arena.Sane w.grammar) (hentry : Lives s.arena.live entry.context)
    (known : Known w candidates) :
    s'.arena.Sane w.grammar ∧ s.arena.live ⊆ s'.arena.live ∧ t.Sane w s'.arena.live := by
  obtain ⟨s₁, c, later, e, x, same, hsuffix, opens⟩ := h
  obtain ⟨sane', hsub, hlast⟩ := opens.opens.sane closed (sane.of_live same.numbered same.live)
  rw [same.live] at hsub
  obtain ⟨offers, hoffers, hordered⟩ := opens.attachments
  refine ⟨sane', hsub, ?_⟩
  rw [opens.attempt]
  refine ⟨hentry.mono hsub, hlast, ⟨e, offers, opens.expansion, hoffers, fun o ho => ?_⟩,
    fun d hd => known d (hsuffix.mem (List.mem_cons_of_mem _ hd))⟩
  rw [← hordered] at ho
  exact mem_ordered ho

/-- The attempt after a sane one is sane. -/
theorem next_sane {t : Attempt} {following : Option Attempt} (closed : w.grammar.Closed own)
    (sane : s.arena.Sane w.grammar) (ht : t.Sane w s.arena.live)
    (hr : (next w t).run s = (.ok following, s')) :
    s'.arena.Sane w.grammar ∧ s.arena.live ⊆ s'.arena.live ∧
      ∀ u, following = some u → u.Sane w s'.arena.live := by
  rcases next_ok sane.numbered hr with ⟨rfl, same⟩ | ⟨u, rfl, follows⟩
  · refine ⟨sane.of_live same.numbered same.live, ?_, fun u hu => ?_⟩
    · rw [same.live]
      exact List.Subset.refl _
    · cases hu
  · cases follows with
    | alternative first attempt same =>
        subst same
        refine ⟨sane, List.Subset.refl _, fun v hv => ?_⟩
        cases hv
        rw [attempt]
        obtain ⟨e, offers, he, hoffers, offered⟩ := ht.offered
        refine ⟨ht.entry, ht.context, ⟨e, offers, he, hoffers, fun o ho => ?_⟩, ht.later⟩
        rw [← first] at ho
        exact offered o (List.mem_cons_of_mem _ ho)
    | candidate opens =>
        obtain ⟨sane', hsub, hu⟩ := opens.sane closed sane ht.entry ht.later
        refine ⟨sane', hsub, fun v hv => ?_⟩
        cases hv
        exact hu

theorem mem_queued {p : Plan} {t u : Attempt} {q : Queue} (h : Queued p t q) (hu : some u ∈ q) :
    some u ∈ p.queue ∨ u = t := by
  rcases h with ⟨hle, rfl⟩ | rfl
  · rw [Array.insertIdxIfInBounds, dif_pos hle, ← Array.mem_toList_iff, Array.toList_insertIdx] at hu
    rcases List.eq_or_mem_of_mem_insertIdx hu with hu | hu
    · exact .inr (Option.some.inj hu)
    · exact .inl (Array.mem_toList_iff.1 hu)
  · rcases Array.mem_push.1 hu with hu | hu
    · exact .inl hu
    · exact .inr (Option.some.inj hu)

/-- Entering a rule leaves a sane search. -/
theorem EntersRule.sane {id : RuleId} {origin : Pos} {orientation : Orientation}
    {parent : Option Handle} {r : Rule} {t : Attempt}
    (h : EntersRule w id origin orientation parent s r x t s') (closed : w.grammar.Closed own)
    (hs : s.arena.Numbered) (sane : s.snapshot.Sane w) : s'.snapshot.Sane w := by
  obtain ⟨s₁, s₂, opens, hplan, first, harena⟩ := h.opens
  obtain ⟨q, hq, hqueue⟩ := h.queued
  obtain ⟨sane₁, hsub₁, hlast⟩ := opens.sane closed (sane_arena hs sane)
  obtain ⟨sane₂, hsub₂, ht⟩ := first.sane closed sane₁ hlast (known_candidates closed h.rule _)
  rw [← harena] at sane₂ hsub₂ ht
  refine sane_of_subset sane sane₂ (List.Subset.trans hsub₁ hsub₂) (fun u hu => ?_) fun p hp => ?_
  · rw [hqueue] at hu
    rcases mem_queued hq hu with hu | rfl
    · exact .inl hu
    · exact .inr ht
  · rw [hqueue] at hp
    exact .inl hp

theorem EntersNodes.sane {nodes : Array Node} {is : List Nat}
    (he : EntersNodes w h nodes is s s') (closed : w.grammar.Closed own) (hs : s.arena.Numbered)
    (sane : s.snapshot.Sane w) : s'.snapshot.Sane w := by
  induction he with
  | nil same =>
      rw [snapshot, same.plan, same.live]
      exact sane
  | skip _ _ _ ih => exact ih hs sane
  | enter _ _ _ enters _ ih =>
      exact ih (enters.grows (Nat.le_refl _)).numbered (enters.sane closed hs sane)

theorem PlacesComponent.sane {id : ComponentId} {t : Attempt} {c : Component} {n : Node} {p : Pos}
    (h : PlacesComponent w id t s c n p x s') (closed : w.grammar.Closed own) (hs : s.arena.Numbered)
    (sane : s.snapshot.Sane w) : s'.snapshot.Sane w := by
  obtain ⟨s₁, areas, opens, _, hplan, enters⟩ := h.populated
  obtain ⟨sane₁, hsub, hlast⟩ := opens.sane closed (sane_arena hs sane)
  refine enters.sane closed opens.numbered (sane_of_subset sane sane₁ hsub (fun u hu => ?_) fun q hq => ?_)
  · rw [hplan] at hu
    exact .inl hu
  · rw [hplan] at hq
    rcases Array.mem_push.1 hq with hq | rfl
    · exact .inl hq
    · exact .inr ⟨hlast, c, h.component⟩

/-- Carrying an attempt out leaves a sane search. -/
theorem Carries.sane {t : Attempt} {e : Expansion} (h : Carries w t s s' e)
    (closed : w.grammar.Closed own) (hs : s.arena.Numbered) (sane : s.snapshot.Sane w) :
    s'.snapshot.Sane w := by
  cases h with
  | nothing _ same => exact same ▸ sane
  | rule _ enters => exact enters.sane (s := branched s.arena.size s) closed hs sane
  | component _ places => exact places.sane closed hs sane

/-- So does putting the next attempt into the place of an entry. -/
theorem advanced_sane {t : Attempt} {following : Option Attempt} (closed : w.grammar.Closed own)
    (hs : s.arena.Numbered) (sane : s.snapshot.Sane w) (ht : t.Sane w s.arena.live)
    (hr : (next w t).run s = (.ok following, s')) : (advanced following s').snapshot.Sane w := by
  obtain ⟨sane', hsub, hu⟩ := next_sane closed (sane_arena hs sane) ht hr
  have hplan := (next_grows hs (Nat.le_refl _) hr).2
  refine sane_of_subset (s := s) sane sane' hsub (fun u hmem => ?_) fun p hp => ?_
  · rcases Array.mem_or_eq_of_mem_setIfInBounds hmem with hmem | rfl
    · exact .inl (hplan ▸ hmem)
    · exact .inr (hu u rfl)
  · exact .inl (hplan ▸ hp)

/-! ### Steps -/

/-- What the outermost branch has found in the queue, the queue itself where no branch is open. -/
def outermost (s : Search μ) : Queue :=
  match s.plan.checkpoints.getLast? with
  | some c => c.queue
  | none => s.plan.queue

/-- While something is queued, some branch is open. -/
theorem branch_of_outermost (h : s.outermost = #[]) (hq : s.plan.queue ≠ #[]) :
    ∃ c rest, s.plan.checkpoints = c :: rest := by
  cases hc : s.plan.checkpoints with
  | nil =>
      rw [outermost, hc] at h
      exact absurd h hq
  | cons c rest => exact ⟨c, rest, rfl⟩

/-- A search that is sane and will be whatever branches are undone. Undoing the last one empties
the queue. -/
structure Secure (w : World μ) (s : Search μ) : Prop where
  kept : Kept (Snapshot.Sane w) s
  sane : s.snapshot.Sane w
  outermost : s.outermost = #[]

namespace Secure

theorem arena (h : Secure w s) : s.arena.Sane w.grammar := sane_arena h.kept.numbered h.sane

theorem branch (h : Secure w s) (hq : s.plan.queue ≠ #[]) :
    ∃ c rest, s.plan.checkpoints = c :: rest := branch_of_outermost h.outermost hq

theorem attempt (h : Secure w s) {i : Nat} {t : Attempt} (ht : s.plan.queue[i]? = some (some t)) :
    t.Sane w s.arena.live := h.sane.queue t (Array.mem_of_getElem? ht)

end Secure

/-- Opening further branches leaves the outermost one as it is. -/
theorem outermost_of_isSuffix (hopen : s.plan.checkpoints ≠ [])
    (hs : s.plan.checkpoints <:+ s'.plan.checkpoints) : s'.outermost = s.outermost := by
  obtain ⟨more, hmore⟩ := hs
  rw [outermost, outermost, ← hmore, List.getLast?_append_of_ne_nil _ hopen,
    List.getLast?_eq_some_getLast hopen]

theorem outermost_undone (w : World μ) {c : Checkpoint} {rest : List Checkpoint}
    (hc : s.plan.checkpoints = c :: rest) : (undone w c rest s).outermost = s.outermost := by
  rw [outermost, outermost, hc, undone, List.getLast?_cons]
  cases rest.getLast? <;> rfl

/-- Carrying an attempt out closes no branch. -/
theorem Carries.checkpoints {t : Attempt} {e : Expansion} (h : Carries w t s s' e) :
    s.plan.checkpoints <:+ s'.plan.checkpoints := by
  rcases h.grows with rfl | grows
  · exact List.suffix_refl _
  · rw [grows.checkpoints]
    exact List.suffix_cons _ _

theorem Resolves.outermost {entry : Option Attempt} (hs : s.arena.Numbered)
    (hr : Resolves w s entry s') (hopen : s.plan.checkpoints ≠ []) :
    s'.outermost = s.outermost := by
  cases hr with
  | undone run =>
      obtain ⟨c, rest, hc, rfl⟩ := undo_ok run
      exact outermost_undone w hc
  | failed hnext same =>
      have hplan := (next_grows hs (Nat.le_refl _) hnext).2
      refine outermost_of_isSuffix hopen ?_
      rw [same.plan, ← hplan]
      exact List.suffix_refl _
  | carried hnext _ carries =>
      have hplan := (next_grows hs (Nat.le_refl _) hnext).2
      refine outermost_of_isSuffix hopen ?_
      rw [← hplan]
      exact carries.checkpoints

theorem Resolves.secure {entry : Option Attempt} (closed : w.grammar.Closed own)
    (hr : Resolves w s entry s') (current : s.plan.queue[s.plan.cursor]? = some entry)
    (h : Secure w s) : Secure w s' := by
  have filled : s.plan.queue ≠ #[] := by
    intro hempty
    rw [hempty] at current
    cases current
  obtain ⟨c, rest, hc⟩ := h.branch filled
  have advances : ∀ t following s₁, entry = some t → (next w t).run s = (.ok following, s₁) →
      (advanced following s₁).snapshot.Sane w := by
    rintro t following s₁ rfl hnext
    exact advanced_sane closed h.kept.numbered h.sane (h.attempt current) hnext
  have carried : ∀ t following s₁ s₂ e, entry = some t → (next w t).run s = (.ok following, s₁) →
      w.grammar.expansion t.candidate.expansion = .ok e →
      Carries w t (advanced following s₁) s₂ e → (passed s₂).snapshot.Sane w := by
    intro t following s₁ s₂ e hentry hnext _ carries
    have numbered := (next_grows h.kept.numbered (Nat.le_refl _) hnext).1.numbered
    have sane := carries.sane closed numbered (advances t following s₁ hentry hnext)
    exact ⟨sane.ground, sane.contexts, sane.queue, sane.placements⟩
  obtain ⟨kept, sane⟩ := kept_resolves h.kept advances carried hr
  refine ⟨kept, sane, ?_⟩
  rw [hr.outermost h.kept.numbered (hc ▸ List.cons_ne_nil c rest)]
  exact h.outermost

/-- A secure search stays secure as long as only the attempts are counted or success is noted. -/
theorem Secure.replan (h : Secure w s) (arena : s'.arena = s.arena)
    (areas : s'.plan.areas = s.plan.areas) (placements : s'.plan.placements = s.plan.placements)
    (queue : s'.plan.queue = s.plan.queue) (checkpoints : s'.plan.checkpoints = s.plan.checkpoints) :
    Secure w s' where
  kept := h.kept.replan arena areas placements checkpoints
  sane := by
    obtain ⟨ground, contexts, queued, placed⟩ := h.sane
    refine ⟨?_, ?_, ?_, ?_⟩ <;> simp only [snapshot, arena, queue, placements] <;> assumption
  outermost := by
    rw [Search.outermost, checkpoints, queue]
    exact h.outermost

/-- Whatever a step leads to is secure. -/
theorem Steps.secure {r : Option (Except SearchFailure Unit)} (closed : w.grammar.Closed own)
    (hr : Steps w s r s') (h : Secure w s) : Secure w s' := by
  cases hr with
  | finished => exact h.replan rfl rfl rfl rfl rfl
  | exhausted => exact h
  | stopped => exact h.replan rfl rfl rfl rfl rfl
  | tried current resolves =>
      have counted : Secure w (counted s) := h.replan rfl rfl rfl rfl rfl
      exact resolves.secure closed current counted

/-! ### Starting over -/

theorem started_secure (w : World μ) (origin : Pos) (seed : Seed) (s : Search μ) :
    Secure w (started w origin seed s) := by
  have live : s.arena.clear.live = [] := by
    rw [Arena.clear, Arena.live_truncate, List.take_zero]
  have sane : (started w origin seed s).snapshot.Sane w := by
    refine ⟨?_, ?_, ?_, ?_⟩ <;> simp [snapshot, live, started, branched, Plan.blank]
  exact ⟨.started w origin seed s sane, sane, rfl⟩

/-- Starting over opens one branch, which has found an empty queue. -/
theorem setup_kept {P : Snapshot → Prop} {rule : RuleId} {origin : Pos} {seed : Seed}
    (hP : P (started w origin seed s).snapshot)
    (hr : (setup w rule origin seed).run s = (.ok (), s')) : Kept P s' ∧ s'.outermost = #[] := by
  have kept : Kept P (started w origin seed s) := .started w origin seed s hP
  have one : (started w origin seed s).plan.checkpoints ≠ [] := List.cons_ne_nil _ _
  rcases setup_ok hr with same | ⟨_, _, _, enters⟩
  · refine ⟨kept.same same, ?_⟩
    rw [outermost, same.plan]
    rfl
  · have grows := enters.grows (Nat.le_refl _)
    refine ⟨kept.grows_all grows, ?_⟩
    rw [outermost_of_isSuffix one (grows.checkpoints ▸ List.suffix_refl _)]
    rfl

/-- Starting over leads to a secure search. -/
theorem setup_secure (closed : w.grammar.Closed own) {rule : RuleId}
    {origin : Pos} {seed : Seed} (hr : (setup w rule origin seed).run s = (.ok (), s')) :
    Secure w s' := by
  obtain ⟨kept, sane, _⟩ := started_secure w origin seed s
  obtain ⟨kept', outermost⟩ := setup_kept sane hr
  refine ⟨kept', ?_, outermost⟩
  rcases setup_ok hr with same | ⟨r, x, a, enters⟩
  · rw [snapshot, same.plan, same.live]
    exact sane
  · exact enters.sane closed kept.numbered sane

end Search

end VoxelGrammar
