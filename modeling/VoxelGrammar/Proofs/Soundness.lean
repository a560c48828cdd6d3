import VoxelGrammar.Proofs.Branches
import VoxelGrammar.Proofs.Derivation
import VoxelGrammar.Proofs.Independence
import VoxelGrammar.Proofs.Orders

/-!
What a search finds is derived by the grammar. While a search runs, the entries from the cursor on
wait to be resolved, and the rest of a derivation is there already: whatever trees are put where
these entries wait, a derivation comes out that places what has been placed and what the trees
place. The branches that are open have found the same, so undoing one keeps to it. In the end no
entry waits, and the derivation is complete.
-/

namespace VoxelGrammar

variable {μ : Type} {w : World μ} {z : Arena} {seed : Seed} {root site : Site}
  {a b : Attempt} {e : Expansion}

/-! ### Waiting entries -/

structure Attempt.Waits (w : World μ) (z : Arena) (seed : Seed) (a : Attempt) (site : Site) :
    Prop where
  orientation : a.entry.orientation = site.orientation
  stands : w.Stands z seed site.parent (.rule site.rule) (.shift site.origin) a.entry.context
  rule : ∃ r, w.grammar.rule site.rule = .ok r ∧ ∀ c ∈ a.candidate :: a.later, w.grammar.Lists r c
  chosen : w.Stands z seed (some a.entry.context) (.expansion a.candidate.expansion) .identity
    a.context
  offered : ∃ e offers, w.grammar.expansion a.candidate.expansion = .ok e ∧
    Search.offered w e.target = .ok offers ∧ ∀ o ∈ a.attachment :: a.alternatives, o ∈ offers

/-- Trees at the sites complete a derivation that places what they place and nothing else but
`placed`. -/
def Completes (w : World μ) (z : Arena) (seed : Seed) (root : Site) (sites : List Site)
    (placed : List Placement) : Prop :=
  ∀ ts : List Derivation, (ts.map (·.site)).Perm sites → (∀ t ∈ ts, t.Valid w z seed) →
    ∃ t : Derivation, t.site = root ∧ t.Valid w z seed ∧
      t.placements.Perm (placed ++ ts.flatMap (·.placements))

namespace Completes

variable {sites sites' new : List Site} {placed : List Placement}

theorem perm (h : Completes w z seed root sites placed) (hp : sites'.Perm sites) :
    Completes w z seed root sites' placed := fun ts hts => h ts (hts.trans hp)

/-- A rule is resolved, and further rules are called for. -/
theorem resolve {p : Option Placement} (h : Completes w z seed root (site :: sites) placed)
    (waits : a.Waits w z seed site) (he : w.grammar.expansion a.candidate.expansion = .ok e)
    (leads : e.Leads w z seed site a.entry.context a.context p new) :
    Completes w z seed root (new ++ sites) (placed ++ p.toList) := by
  intro ts hts valid
  -- The trees at the new sites become the children of the rule, the others stay where they are.
  obtain ⟨ts', hsites, hperm⟩ : ∃ ts' : List Derivation,
      new ++ sites = ts'.map (·.site) ∧ ts'.Perm ts :=
    (congrFun₂ (List.eq_map_comp_perm Derivation.site) (new ++ sites) ts).mpr hts.symm
  obtain ⟨children, others, rfl, rfl, rfl⟩ := List.map_eq_append_iff.1 hsites.symm
  have below : ∀ t ∈ children ++ others, t.Valid w z seed := fun t ht => valid t (hperm.mem_iff.1 ht)
  obtain ⟨r, hr, listed⟩ := waits.rule
  have here : (Derivation.node site a.entry.context a.candidate.expansion a.context p
      children).Valid w z seed :=
    .node waits.stands hr (listed _ List.mem_cons_self).1 he waits.chosen leads fun t ht =>
      below t (List.mem_append_left _ ht)
  obtain ⟨t, hroot, ht, hplaced⟩ := h (.node site a.entry.context a.candidate.expansion a.context p
    children :: others) (.refl _) fun t ht => by
      rcases List.mem_cons.1 ht with rfl | ht
      · exact here
      · exact below t (List.mem_append_right _ ht)
  refine ⟨t, hroot, ht, hplaced.trans ?_⟩
  rw [List.flatMap_cons, Derivation.placements, List.append_assoc, List.append_assoc,
    ← List.flatMap_append]
  exact ((hperm.flatMap_right _).append_left _).append_left _

end Completes

/-- Whatever resolves the waiting entries, and the rules at some more sites, completes a derivation. -/
def Promises (w : World μ) (z : Arena) (seed : Seed) (root : Site) (more : List Site)
    (waiting : List (Option Attempt)) (placed : List Placement) : Prop :=
  ∃ at_ : List (Attempt × Site), waiting.Perm (at_.map fun e => some e.1) ∧
    (∀ e ∈ at_, e.1.Waits w z seed e.2) ∧
    Completes w z seed root (more ++ at_.map (·.2)) placed

namespace Promises

variable {more new : List Site} {waiting rest : List (Option Attempt)} {placed : List Placement}

theorem perm (h : Promises w z seed root more waiting placed) (hp : rest.Perm waiting) :
    Promises w z seed root more rest placed := by
  obtain ⟨at_, hperm, waits, completes⟩ := h
  exact ⟨at_, hp.trans hperm, waits, completes⟩

/-- The site of a waiting entry is set aside. -/
theorem split (h : Promises w z seed root more (some a :: rest) placed) :
    ∃ site, a.Waits w z seed site ∧ Promises w z seed root (site :: more) rest placed := by
  obtain ⟨at_, hperm, waits, completes⟩ := h
  obtain ⟨parts, split, hparts⟩ := (congrFun₂ (List.eq_map_comp_perm _) _ _).mpr hperm
  obtain ⟨⟨b, site⟩, others, rfl, first, rfl⟩ := List.map_eq_cons_iff.1 split.symm
  obtain rfl : b = a := Option.some.inj first
  have all : ∀ e ∈ (b, site) :: others, e.1.Waits w z seed e.2 :=
    fun e he => waits e (hparts.mem_iff.1 he)
  refine ⟨site, all _ List.mem_cons_self, others, .refl _, fun e he =>
    all e (List.mem_cons_of_mem _ he), completes.perm ?_⟩
  exact List.perm_middle.symm.trans ((hparts.map Prod.snd).append_left more)

/-- Entries may wait at the sites that have been set aside. -/
theorem join {q : List (Attempt × Site)} (waits : ∀ e ∈ q, e.1.Waits w z seed e.2)
    (h : Promises w z seed root (q.map (·.2) ++ more) rest placed) :
    Promises w z seed root more (q.map (fun e => some e.1) ++ rest) placed := by
  obtain ⟨others, hperm, waits', completes⟩ := h
  refine ⟨q ++ others, ?_, fun e he => ?_, completes.perm ?_⟩
  · rw [List.map_append]
    exact hperm.append_left _
  · rcases List.mem_append.1 he with he | he
    · exact waits e he
    · exact waits' e he
  · rw [List.map_append, List.append_assoc]
    exact List.perm_append_comm_assoc _ _ _

theorem resolve {p : Option Placement} (h : Promises w z seed root (site :: more) rest placed)
    (waits : a.Waits w z seed site) (he : w.grammar.expansion a.candidate.expansion = .ok e)
    (leads : e.Leads w z seed site a.entry.context a.context p new) :
    Promises w z seed root (new ++ more) rest (placed ++ p.toList) := by
  obtain ⟨others, hperm, waits', completes⟩ := h
  refine ⟨others, hperm, waits', ?_⟩
  rw [List.append_assoc]
  exact completes.resolve waits he leads

end Promises

/-! ### Entering rules -/

structure World.Ends (w : World μ) (z : Arena) : Prop where
  marked : w.grammar.Marked
  tiered : w.grammar.Tiered
  numbered : z.Numbered
  ground : z.Grounded

namespace Search

variable {s s' : Search Unit}

theorem OpensFirst.waits {entry : RuleEntry} {candidates : List Candidate} {r : Rule}
    (h : OpensFirst w.forgetful entry candidates s a s') (ends : w.Ends z)
    (hp : s'.arena.live <+: z.live) (orientation : entry.orientation = site.orientation)
    (stands : w.Stands z s.plan.seed site.parent (.rule site.rule) (.shift site.origin)
      entry.context)
    (hr : w.grammar.rule site.rule = .ok r) (listed : ∀ c ∈ candidates, w.grammar.Lists r c) :
    a.Waits w z s.plan.seed site := by
  obtain ⟨s₁, c, later, e, x, same, hsuffix, opens⟩ := h
  have hentry : a.entry = entry := congrArg Attempt.entry opens.attempt
  have hcandidate : a.candidate = c := congrArg Attempt.candidate opens.attempt
  have hcontext : a.context = (s₁.arena.push x).1 := congrArg Attempt.context opens.attempt
  have hlater : a.later = later := congrArg Attempt.later opens.attempt
  obtain ⟨offers, hoffers, hordered⟩ := opens.attachments
  refine ⟨hentry ▸ orientation, hentry ▸ stands, ⟨r, hr, ?_⟩, ?_, e, offers, ?_, hoffers, ?_⟩
  · rw [hcandidate, hlater]
    exact fun d hd => listed d (hsuffix.mem hd)
  · rw [hentry, hcandidate, hcontext, ← same.plan]
    exact opens.opens.stands ends.marked same.numbered ends.numbered ends.ground hp
  · rw [hcandidate]
    exact opens.expansion
  · intro o ho
    rw [← hordered] at ho
    exact mem_ordered ho

/-- The next attempt of an entry waits where the one before it did. -/
theorem next_waits (ends : w.Ends z) (hs : s.arena.Numbered)
    (hr : (next w.forgetful a).run s = (.ok (some b), s')) (hp : s'.arena.live <+: z.live)
    (waits : a.Waits w z s.plan.seed site) : b.Waits w z s.plan.seed site := by
  rcases next_ok hs hr with ⟨hnone, _⟩ | ⟨_, hsome, follows⟩
  · cases hnone
  · cases hsome
    cases follows with
    | alternative first attempt same =>
        obtain ⟨e, offers, he, hoffers, offered⟩ := waits.offered
        rw [attempt]
        refine ⟨waits.orientation, waits.stands, waits.rule, waits.chosen, e, offers, he, hoffers, ?_⟩
        exact fun o ho => offered o (List.mem_cons_of_mem _ (first ▸ ho))
    | candidate opens =>
        obtain ⟨r, hrule, listed⟩ := waits.rule
        exact opens.waits ends hp waits.orientation waits.stands hrule fun c hc =>
          listed c (List.mem_cons_of_mem _ hc)

/-- The first attempt of a rule that has been entered waits where the rule was called for. -/
theorem EntersRule.waits {id : RuleId} {origin : Pos} {orientation : Orientation}
    {parent : Option Handle} {r : Rule} {x : Context}
    (h : EntersRule w.forgetful id origin orientation parent s r x a s') (ends : w.Ends z)
    (hs : s.arena.Numbered) (hp : s'.arena.live <+: z.live) :
    a.Waits w z s.plan.seed ⟨parent, id, origin, orientation⟩ := by
  obtain ⟨s₁, s₂, opens, hplan, first, harena⟩ := h.opens
  rw [harena] at hp
  have grows : Grows s₁.arena.size s₁ s₂ := first.grows (Nat.le_refl _)
  have stands := opens.stands ends.marked hs ends.numbered ends.ground
    (grows.isPrefix.trans hp)
  have hseed : s₁.plan.seed = s.plan.seed := by rw [hplan]
  rw [← hseed] at stands ⊢
  exact first.waits ends hp rfl stands h.rule (ends.tiered id r h.rule _)

/-! ### Carrying attempts out -/

def ahead (s : Search Unit) : List (Option Attempt) :=
  s.plan.queue.toList.drop (s.plan.cursor + 1)

/-- A new entry waits behind the current one. -/
theorem Queued.ahead {p : Plan} {q : Queue} (h : Queued p a q) (hc : p.cursor < p.queue.size) :
    (q.toList.drop (p.cursor + 1)).Perm (some a :: p.queue.toList.drop (p.cursor + 1)) := by
  have hlength : p.cursor + 1 ≤ p.queue.toList.length := hc
  rcases h with ⟨hle, rfl⟩ | rfl
  · rw [Array.insertIdxIfInBounds, dif_pos hle, Array.toList_insertIdx]
    have hfront := List.take_insertIdx_eq_take_of_le p.queue.toList (some a) _ _
      (Nat.le_refl (p.cursor + 1))
    -- The front of the queue stays, so the new entry is among those behind it.
    refine (List.perm_append_left_iff (p.queue.toList.take (p.cursor + 1))).1 ?_
    rw [← hfront, List.take_append_drop, hfront]
    refine (List.perm_insertIdx (some a) _ hlength).trans ?_
    have hsplit := List.take_append_drop (p.cursor + 1) p.queue.toList
    exact (hsplit.symm ▸ .refl _ : List.Perm _ _).trans List.perm_middle.symm
  · rw [Array.toList_push, List.drop_append_of_le_length hlength]
    exact List.perm_append_singleton _ _

theorem EntersRule.ahead {id : RuleId} {origin : Pos} {orientation : Orientation}
    {parent : Option Handle} {r : Rule} {x : Context}
    (h : EntersRule w.forgetful id origin orientation parent s r x a s')
    (hc : s.plan.cursor < s.plan.queue.size) : s'.ahead.Perm (some a :: s.ahead) := by
  obtain ⟨q, hq, hplan⟩ := h.queued
  rw [Search.ahead, hplan]
  exact hq.ahead hc

/-- The nodes of a component call for rules where their first attempts wait. -/
theorem EntersNodes.waits {h : Handle} {c : Component} {is : List Nat}
    (he : EntersNodes w.forgetful h c.nodes is s s') (ends : w.Ends z) (hs : s.arena.Numbered)
    (hc : s.plan.cursor < s.plan.queue.size) (hh : h.slot < s.arena.size)
    (hp : s'.arena.live <+: z.live) :
    ∃ at_ : List (Attempt × Site), s'.ahead.Perm (at_.map (fun e => some e.1) ++ s.ahead) ∧
      (∀ e ∈ at_, e.1.Waits w z s.plan.seed e.2) ∧
      List.Forall₂ (Node.Calls w z h c) (is.filter fun i => (c.nodes[i]?.bind (·.rule)).isSome)
        (at_.map (·.2)) := by
  induction he with
  | nil same =>
      refine ⟨[], ?_, by simp, .nil⟩
      rw [Search.ahead, Search.ahead, same.plan]
      exact .refl _
  | @skip s s' i rest n node rule others ih =>
      obtain ⟨at_, perm, waits, calls⟩ := ih hs hc hh hp
      refine ⟨at_, perm, waits, ?_⟩
      rw [List.filter_cons_of_neg (by simp [node, rule])]
      exact calls
  | @enter s s₁ s' i rest n id p r x a node rule position enters others ih =>
      have grows := enters.grows (Nat.le_refl _)
      have grows' := others.grows (Nat.le_refl _)
      have hc₁ : s₁.plan.cursor < s₁.plan.queue.size := by
        rw [grows.cursor]
        exact Nat.lt_of_lt_of_le hc grows.queue
      have hp₁ := grows'.isPrefix.trans hp
      have hseed : s₁.plan.seed = s.plan.seed := grows.seed
      obtain ⟨at_, perm, waits, calls⟩ := ih grows.numbered hc₁
        (Nat.lt_of_lt_of_le hh grows.contexts.le) hp
      refine ⟨(a, ⟨some h, id, p, n.orientation⟩) :: at_, ?_, ?_, ?_⟩
      · exact (perm.trans ((enters.ahead hc).append_left _)).trans List.perm_middle
      · intro e he
        rcases List.mem_cons.1 he with rfl | he
        · exact enters.waits ends hs hp₁
        · exact hseed ▸ waits e he
      · rw [List.filter_cons_of_pos (by simp [node, rule])]
        refine .cons ⟨n, node, rule, rfl, ?_, rfl⟩ calls
        obtain ⟨_, hposition⟩ := position
        exact World.Locates.of_isPrefix (w := w) hposition ends.marked hs ends.numbered ends.ground
          (grows.isPrefix.trans hp₁) hh

theorem nodeOrder_perm (c : Component) (seed runSeed : Seed) (node : Nat) :
    (((nodeOrder c.nodes seed runSeed).filter (· ≠ node)).filter
      fun i => (c.nodes[i]?.bind (·.rule)).isSome).Perm (c.carriers node) := by
  rw [List.filter_filter]
  have same : (fun i => (c.nodes[i]?.bind (·.rule)).isSome && decide (i ≠ node)) =
      fun i => decide (i ≠ node ∧ (c.nodes[i]?.bind (·.rule)).isSome) := by
    funext i
    rw [Bool.decide_and, Bool.and_comm, Bool.decide_eq_true]
  rw [same]
  exact (Seed.shuffle_perm _ _).filter _

theorem get_of_samplePos {v : World Unit} {arena : Arena} {h : Handle} {id : FieldId} {p : Pos}
    {m : Unit} (hr : ((v.samplePos arena h id).run m).1 = .ok p) : ∃ x, arena.get h = .ok x := by
  rcases Arena.get_eq arena h with hx | hx
  · rw [World.samplePos, Eval.run_bind, World.sampleOrigin, Eval.run_bind, hx] at hr
    cases hr
  · exact hx

/-- The component that an attempt places is the one that its expansion leads to. -/
theorem PlacesComponent.leads {id : ComponentId} {node : Option String} {c : Component} {n : Node}
    {p : Pos} {x : Context} (places : PlacesComponent w.forgetful id a s c n p x s')
    (target : e.target = .component id node)
    (he : w.grammar.expansion a.candidate.expansion = .ok e) (ends : w.Ends z)
    (hs : s.arena.Numbered) (hc : s.plan.cursor < s.plan.queue.size)
    (hp : s'.arena.live <+: z.live) (waits : a.Waits w z s.plan.seed site) :
    ∃ (placed : Placement) (at_ : List (Attempt × Site)),
      s'.plan.placements = s.plan.placements.push placed ∧
      s'.ahead.Perm (at_.map (fun e => some e.1) ++ s.ahead) ∧
      (∀ e ∈ at_, e.1.Waits w z s.plan.seed e.2) ∧
      e.Leads w z s.plan.seed site a.entry.context a.context (some placed) (at_.map (·.2)) := by
  obtain ⟨s₁, areas, opens, _, hplan, enters⟩ := places.populated
  have grows : Grows s₁.arena.size s₁ s' := enters.grows (Nat.le_refl _)
  have hp₁ := grows.isPrefix.trans hp
  have hps : s.arena.live <+: z.live := (opens.live ▸ List.prefix_append _ _).trans hp₁
  have hlast : (s.arena.push x).1.slot < s₁.arena.size := by
    rw [← Arena.length_live, opens.live, List.length_append, Arena.length_live]
    exact Nat.lt_succ_self _
  have hahead : s₁.ahead = s.ahead := by
    rw [Search.ahead, hplan]
    rfl
  have hseed : s₁.plan.seed = s.plan.seed := by rw [hplan]
  obtain ⟨at_, perm, waiting, calls⟩ := enters.waits ends opens.numbered (hplan ▸ hc) hlast hp
  refine ⟨⟨id, a.attachment.node, (s.arena.push x).1, x.toWorld⟩, at_, ?_, hahead ▸ perm,
    hseed ▸ waiting, ?_⟩
  · rw [enters.accepted.1, hplan]
  · obtain ⟨e', offers, he', hoffers, offered⟩ := waits.offered
    obtain rfl : e = e' := by
      rw [he] at he'
      exact Except.ok.inj he'
    obtain ⟨r, _, listed⟩ := waits.rule
    obtain ⟨_, e', he', mirrored⟩ := listed _ List.mem_cons_self
    obtain rfl : e = e' := by
      rw [he] at he'
      exact Except.ok.inj he'
    obtain ⟨_, located⟩ := places.position
    obtain ⟨y, hy⟩ := get_of_samplePos located
    have stands := opens.stands ends.marked hs ends.numbered ends.ground hp₁
    have entry : a.entry = ⟨site.orientation, a.entry.context⟩ := by rw [← waits.orientation]
    rw [← mirrored, entry] at stands
    have component : w.grammar.component id = .ok c := places.component
    have attachments : offers = c.attachments node := by
      rw [target, Search.offered, component] at hoffers
      exact (Except.ok.inj hoffers).symm
    have frame : z.get (s.arena.push x).1 = .ok (x.assign c.symbol) := by
      rw [Arena.get_eq_ok_iff ends.numbered]
      refine Arena.getElem?_of_isPrefix hp₁ ?_
      rw [opens.live, Arena.push_slot, ← Arena.length_live]
      exact List.getElem?_concat_length
    exact .component target component (attachments ▸ offered _ List.mem_cons_self) rfl places.node
      (World.Locates.of_isPrefix (w := w) located ends.marked hs ends.numbered ends.ground hps
        (Arena.slot_lt_of_get hy))
      stands frame rfl (nodeOrder_perm c _ _ _) calls

theorem EntersNodes.ahead_subset {h : Handle} {nodes : Array Node} {is : List Nat}
    (he : EntersNodes w.forgetful h nodes is s s') (hc : s.plan.cursor < s.plan.queue.size) :
    s.ahead ⊆ s'.ahead := by
  induction he with
  | nil same =>
      rw [Search.ahead, Search.ahead, same.plan]
      exact List.Subset.refl _
  | skip _ _ _ ih => exact ih hc
  | enter _ _ _ enters _ ih =>
      have grows := enters.grows (Nat.le_refl _)
      have hc₁ := Nat.lt_of_lt_of_le hc grows.queue
      rw [← grows.cursor] at hc₁
      exact fun x hx => ih hc₁ ((enters.ahead hc).mem_iff.2 (List.mem_cons_of_mem _ hx))

/-- The entries that wait go on waiting while an attempt is carried out. -/
theorem Carries.ahead_subset (hc : Carries w.forgetful a s s' e)
    (hcursor : s.plan.cursor < s.plan.queue.size) : s.ahead ⊆ s'.ahead := by
  cases hc with
  | nothing target same => exact same ▸ List.Subset.refl _
  | rule target enters =>
      exact fun x hx => (enters.ahead hcursor).mem_iff.2 (List.mem_cons_of_mem _ hx)
  | component target places =>
      obtain ⟨s₁, areas, _, _, hplan, enters⟩ := places.populated
      have hahead : s₁.ahead = s.ahead := by
        rw [Search.ahead, hplan]
        rfl
      rw [← hahead]
      exact enters.ahead_subset (hplan ▸ hcursor)

/-- Carrying an attempt out leads on, and what it calls for waits. -/
theorem Carries.leads (hc : Carries w.forgetful a s s' e)
    (he : w.grammar.expansion a.candidate.expansion = .ok e) (ends : w.Ends z)
    (hs : s.arena.Numbered) (hcursor : s.plan.cursor < s.plan.queue.size)
    (hp : s'.arena.live <+: z.live) (waits : a.Waits w z s.plan.seed site) :
    ∃ (placed : Option Placement) (at_ : List (Attempt × Site)),
      s'.plan.placements.toList = s.plan.placements.toList ++ placed.toList ∧
      s'.ahead.Perm (at_.map (fun e => some e.1) ++ s.ahead) ∧
      (∀ e ∈ at_, e.1.Waits w z s.plan.seed e.2) ∧
      e.Leads w z s.plan.seed site a.entry.context a.context placed (at_.map (·.2)) := by
  cases hc with
  | nothing target same =>
      subst same
      exact ⟨none, [], (List.append_nil _).symm, .refl _, by simp, .nothing target⟩
  | @rule id r x first target enters =>
      have waiting : first.Waits w z s.plan.seed ⟨some a.context, id, .zero, site.orientation⟩ :=
        waits.orientation ▸ enters.waits (s := branched s.arena.size s) ends hs hp
      have perm : s'.ahead.Perm (some first :: s.ahead) :=
        enters.ahead (s := branched s.arena.size s) hcursor
      obtain ⟨q, _, hplan⟩ := enters.queued
      refine ⟨none, [(first, ⟨some a.context, id, .zero, site.orientation⟩)], ?_, perm,
        by simpa using waiting, .rule target⟩
      rw [hplan]
      exact (List.append_nil _).symm
  | @component id node c n p x target places =>
      obtain ⟨placed, at_, hplaced, perm, waiting, leads⟩ :=
        places.leads target he ends hs hcursor hp waits
      exact ⟨some placed, at_, by rw [hplaced, Array.toList_push]; rfl, perm, waiting, leads⟩

/-- Carrying an attempt out keeps a promise. -/
theorem Carries.promises (hc : Carries w.forgetful a s s' e)
    (he : w.grammar.expansion a.candidate.expansion = .ok e) (ends : w.Ends z)
    (hs : s.arena.Numbered) (hcursor : s.plan.cursor < s.plan.queue.size)
    (hp : s'.arena.live <+: z.live) (waits : a.Waits w z s.plan.seed site)
    (h : Promises w z s.plan.seed root [site] s.ahead s.plan.placements.toList) :
    Promises w z s.plan.seed root [] s'.ahead s'.plan.placements.toList := by
  obtain ⟨placed, at_, placements, perm, waiting, leads⟩ := hc.leads he ends hs hcursor hp waits
  have resolved := h.resolve waits he leads
  rw [placements]
  exact (Promises.join waiting resolved).perm perm

end Search

/-! ### Runs -/

/-- If the contexts last to the end, there is something to resolve and none of it is beyond hope,
then resolving the entries from the cursor on completes a derivation. -/
def Snapshot.Promising (w : World μ) (z : Arena) (seed : Seed) (root : Site) (g : Snapshot) : Prop :=
  g.contexts <+: z.live → g.queue ≠ #[] → none ∉ g.queue.toList.drop g.cursor →
    Promises w z seed root [] (g.queue.toList.drop g.cursor) g.placements.toList

namespace Search

variable {s s' : Search Unit}

theorem drop_cursor {q : Queue} {i : Nat} {v : Option Attempt} (h : q[i]? = some v) :
    q.toList.drop i = v :: q.toList.drop (i + 1) := by
  obtain ⟨hi, rfl⟩ := Array.getElem?_eq_some_iff.1 h
  have hi' : i < q.toList.length := hi
  rw [List.drop_eq_getElem_cons hi', Array.getElem_toList]

theorem drop_advanced {following : Option Attempt} (hc : s.plan.cursor < s.plan.queue.size) :
    (advanced following s).plan.queue.toList.drop s.plan.cursor =
      following :: (advanced following s).ahead := by
  refine drop_cursor ?_
  simp [advanced, hc]

theorem ahead_advanced (following : Option Attempt) (s : Search Unit) :
    (advanced following s).ahead = s.ahead := by
  simp [Search.ahead, advanced, Array.toList_setIfInBounds, List.drop_set]

/-- What trying an entry leaves is as promising as what there was. -/
theorem Resolves.promising {entry : Option Attempt} (ends : w.Ends z)
    (hr : Resolves w.forgetful s entry s') (current : s.plan.queue[s.plan.cursor]? = some entry)
    (hk : Kept (Snapshot.Promising w z s.plan.seed root) s)
    (h : s.snapshot.Promising w z s.plan.seed root) :
    Kept (Snapshot.Promising w z s.plan.seed root) s' ∧
      s'.snapshot.Promising w z s.plan.seed root := by
  have hcursor : s.plan.cursor < s.plan.queue.size := (Array.getElem?_eq_some_iff.1 current).1
  -- The entry is set aside while it is tried.
  have split : ∀ {a following} {s₁ : Search Unit}, entry = some a →
      (next w.forgetful a).run s = (.ok following, s₁) → s₁.arena.live <+: z.live →
      none ∉ s.ahead → s₁.plan = s.plan ∧ s₁.arena.Numbered ∧ ∃ site,
        a.Waits w z s.plan.seed site ∧
        Promises w z s.plan.seed root [site] s.ahead s.plan.placements.toList := by
    intro a following s₁ hentry hnext hp hnone
    subst hentry
    obtain ⟨grows, hplan⟩ := next_grows hk.numbered (Nat.le_refl _) hnext
    have filled : s.plan.queue ≠ #[] := by
      intro hempty
      rw [hempty] at hcursor
      exact absurd hcursor (Nat.not_lt_zero _)
    have promise := h (grows.isPrefix.trans hp) filled
    rw [snapshot, drop_cursor current] at promise
    obtain ⟨site, waits, promise⟩ :=
      (promise (by simpa [Search.ahead] using hnone)).split
    exact ⟨hplan, grows.numbered, site, waits, promise⟩
  refine kept_resolves hk (fun a following s₁ hentry hnext hp _ hnone => ?_)
    (fun a following s₁ s₂ e hentry hnext he carries hp _ hnone => ?_) hr
  · obtain ⟨grows, hplan⟩ := next_grows hk.numbered (Nat.le_refl _) hnext
    have hc₁ : s₁.plan.cursor < s₁.plan.queue.size := hplan ▸ hcursor
    have hahead : s₁.ahead = s.ahead := by rw [Search.ahead, hplan, Search.ahead]
    change none ∉ (advanced following s₁).plan.queue.toList.drop s₁.plan.cursor at hnone
    change Promises w z s.plan.seed root []
      ((advanced following s₁).plan.queue.toList.drop s₁.plan.cursor) s₁.plan.placements.toList
    rw [drop_advanced hc₁, ahead_advanced, hahead] at hnone ⊢
    rw [List.mem_cons, not_or] at hnone
    obtain ⟨_, _, site, waits, promise⟩ := split hentry hnext hp hnone.2
    cases following with
    | none => exact absurd rfl hnone.1
    | some b =>
        have waits' := next_waits ends hk.numbered hnext hp waits
        rw [hplan]
        exact .join (q := [(b, site)]) (by simpa using waits') promise
  · have numbered : (advanced following s₁).arena.Numbered :=
      (next_grows hk.numbered (Nat.le_refl _) hnext).1.numbered
    have hplan := (next_grows hk.numbered (Nat.le_refl _) hnext).2
    have hc₁ : (advanced following s₁).plan.cursor < (advanced following s₁).plan.queue.size := by
      simpa [advanced, hplan] using hcursor
    have hahead : (advanced following s₁).ahead = s.ahead := by
      rw [ahead_advanced, Search.ahead, hplan, Search.ahead]
    have hnone : none ∉ s.ahead := fun hmem =>
      hnone (carries.ahead_subset hc₁ (hahead ▸ hmem))
    have hp₁ : s₁.arena.live <+: z.live := carries.isPrefix.trans hp
    obtain ⟨_, _, site, waits, promise⟩ := split hentry hnext hp₁ hnone
    have hseed : (advanced following s₁).plan.seed = s.plan.seed := by rw [← hplan]; rfl
    have hplacements : (advanced following s₁).plan.placements = s.plan.placements := by
      rw [← hplan]
      rfl
    rw [← hseed] at waits promise ⊢
    rw [← hahead, ← hplacements] at promise
    exact carries.promises he ends numbered hc₁ hp waits promise

theorem Resolves.same_seed {entry : Option Attempt} (hs : s.arena.Numbered)
    (hr : Resolves w.forgetful s entry s') : s'.plan.seed = s.plan.seed := by
  cases hr with
  | undone run =>
      obtain ⟨c, rest, _, rfl⟩ := undo_ok run
      rfl
  | failed hnext same =>
      rw [same.plan, ← (next_grows hs (Nat.le_refl _) hnext).2]
      rfl
  | carried hnext _ carries =>
      rw [← (next_grows hs (Nat.le_refl _) hnext).2]
      rcases carries.grows with rfl | grows
      · rfl
      · exact grows.seed

structure Promised (w : World μ) (z : Arena) (seed : Seed) (root : Site) (s : Search Unit) :
    Prop where
  kept : Kept (Snapshot.Promising w z seed root) s
  promising : s.snapshot.Promising w z seed root
  seed : s.plan.seed = seed

theorem Steps.promised (ends : w.Ends z) (h : Promised w z seed root s)
    (hstep : Steps w.forgetful s none s') : Promised w z seed root s' := by
  cases hstep with
  | tried current resolves =>
      have hseed := h.seed
      subst hseed
      have kept : Kept (Snapshot.Promising w z s.plan.seed root) (counted s) :=
        h.kept.replan rfl rfl rfl rfl
      obtain ⟨kept', promising'⟩ := resolves.promising ends current kept h.promising
      have same_seed : s'.plan.seed = (counted s).plan.seed := resolves.same_seed kept.numbered
      exact ⟨kept', promising', same_seed⟩

/-- A search that has just been set up promises a derivation of the rule it starts from. -/
theorem setup_promised (ends : w.Ends z) {rule : RuleId} {origin : Pos} {seed : Seed}
    (hr : (setup w.forgetful rule origin seed).run s = (.ok (), s')) :
    Promised w z (Seed.hashPos origin seed) ⟨none, rule, origin, .unspecified⟩ s' := by
  have kept : Kept (Snapshot.Promising w z (Seed.hashPos origin seed)
      ⟨none, rule, origin, .unspecified⟩) (started w.forgetful origin seed s) :=
    .started _ origin seed s fun _ hq => absurd rfl hq
  rcases setup_ok hr with same | ⟨r, x, a, enters⟩
  · refine ⟨kept.same same, fun _ hq => absurd ?_ hq, ?_⟩
    · rw [snapshot, same.plan]
      rfl
    · rw [same.plan]
      rfl
  · have grows := enters.grows (Nat.le_refl _)
    refine ⟨kept.grows_all grows, fun hp _ _ => ?_, grows.seed⟩
    have waits : a.Waits w z (Seed.hashPos origin seed) ⟨none, rule, origin, .unspecified⟩ :=
      enters.waits ends (numbered_started _ origin seed s) hp
    have start : Promises w z (Seed.hashPos origin seed) ⟨none, rule, origin, .unspecified⟩
        [⟨none, rule, origin, .unspecified⟩] [] [] := by
      refine ⟨[], .nil, by simp, fun ts hts valid => ?_⟩
      obtain ⟨t, rfl⟩ : ∃ t, ts = [t] := List.length_eq_one_iff.1 (by simpa using hts.length_eq)
      refine ⟨t, by simpa using hts, valid t List.mem_cons_self, ?_⟩
      simp
    have promise := Promises.join (q := [(a, ⟨none, rule, origin, .unspecified⟩)])
      (by simpa using waits) start
    obtain ⟨q, hq, hplan⟩ := enters.queued
    obtain rfl : q = #[some a] := by
      rcases hq with ⟨hle, _⟩ | rfl
      · exact absurd hle (Nat.not_succ_le_zero _)
      · rfl
    rw [snapshot, hplan]
    exact promise

/-- A search that ends well has found a derivation of the rule it started from. -/
theorem process_promises (ends : w.Ends z) {rule : RuleId} {origin : Pos} {seed : Seed}
    {limits : Limits}
    (hr : ((setup w.forgetful rule origin seed) >>= fun _ => process w.forgetful limits).run s =
      (.ok (.ok ()), s')) (hp : s'.arena.live <+: z.live) :
    ∃ t : Derivation, t.site = ⟨none, rule, origin, .unspecified⟩ ∧
      t.Valid w z (Seed.hashPos origin seed) ∧ s'.plan.placements.toList.Perm t.placements := by
  obtain ⟨_, s₁, hsetup, hprocess⟩ := SearchM.bind_ok hr
  rcases process_ok (P := Promised w z (Seed.hashPos origin seed) ⟨none, rule, origin, .unspecified⟩)
    (fun _ h => h.kept.numbered) (fun _ _ h hstep => hstep.promised ends h)
    (setup_promised ends hsetup) hprocess with herror | ⟨s₂, h, hstep⟩
  · cases herror
  · cases hstep with
    | finished past filled =>
        have none_left : s₂.plan.queue.toList.drop s₂.plan.cursor = [] := by
          rw [List.drop_eq_nil_iff, Array.length_toList]
          exact Array.getElem?_eq_none_iff.1 past
        have promise := h.promising hp filled
        rw [snapshot, none_left] at promise
        obtain ⟨at_, hnil, _, completes⟩ := promise List.not_mem_nil
        obtain rfl : at_ = [] := by simpa using hnil
        obtain ⟨t, hroot, valid, hplaced⟩ := completes [] (.refl _) (by simp)
        exact ⟨t, hroot, valid, by simpa using hplaced.symm⟩

/-- Whatever a generator was asked for before, a search that ends well has found a derivation of
the rule it started from, and the components are those that the derivation places, each once. -/
theorem ok_is_derived {g : Grammar} {own : Prop} (hg : g.Built own) (p : Provider) (limits : Limits)
    (rule : RuleId) (origin : Pos) (seed : Seed) {s s' : Search Memory}
    (used : Used (.remembering g p) s)
    (run : (do setup (.remembering g p) rule origin seed; process (.remembering g p) limits :
      SearchM Memory _).run s = (.ok (.ok ()), s')) :
    ∃ t : Derivation, t.site = ⟨none, rule, origin, .unspecified⟩ ∧
      t.Valid (.remembering g p) s'.arena (Seed.hashPos origin seed) ∧
      s'.plan.placements.toList.Perm t.placements := by
  -- The same search without a memory goes the same way.
  obtain ⟨_, u, hrun, rfl, mirror⟩ :=
    (search_forgotten hg.marked (used.trusted hg) limits rule origin seed).ok run
  have ends : (World.remembering g p).Ends s'.arena := by
    obtain ⟨d, _, rfl⟩ := hg.compiled
    exact ⟨hg.marked, d.tiered_compile, mirror.arena.numbered, mirror.ground⟩
  obtain ⟨tree, hroot, valid, placed⟩ :=
    process_promises ends hrun (mirror.live_eq ▸ List.prefix_refl _)
  rw [mirror.plan_eq] at placed
  exact ⟨tree, hroot, valid, placed⟩

theorem ok_is_derived_farm :
    let world := World.remembering farm.compile .none
    let fresh := Search.new (.ofCache (.new 0 .standard))
    let search := (do setup world 0 .zero 1; process world ⟨10, 10⟩ : SearchM Memory _).run fresh
    farm.compile.Built True ∧ Used world fresh ∧ search.1 = .ok (.ok ()) ∧
      search.2.plan.placements.toList.map (fun p => (p.component, p.toWorld.offset)) =
        [(0, .zero), (2, ⟨18, 0, 2⟩)] ∧
      ∃ t : Derivation, t.site = ⟨none, 0, .zero, .unspecified⟩ ∧
        t.Valid world search.2.arena (Seed.hashPos .zero 1) ∧
        search.2.plan.placements.toList.Perm t.placements := by
  intro world fresh search
  have used : Used world fresh := .new Cache.standardDraws 0 .standard
  obtain ⟨found, _, _, placements, _⟩ := farm_found
  exact ⟨built_farm, used, found, placements,
    ok_is_derived built_farm .none ⟨10, 10⟩ 0 .zero 1 used (Prod.ext found rfl)⟩

end Search

end VoxelGrammar
