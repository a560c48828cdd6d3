import VoxelGrammar.Proofs.Journal

/-!
Undoing a branch brings back exactly what the branch found. Areas, placements and contexts are
only ever cut back to a remembered length, so what has to be kept in every state is that each open
branch found a prefix of what there is now and of what every later branch found; each move of a
search either only adds behind these prefixes, or opens or undoes the latest branch. A search
without a solution has undone its first branch, which had found nothing.
-/

namespace VoxelGrammar

variable {μ α β : Type} {w : World μ}

/-- What one branch found is a prefix of what there is in another snapshot. -/
structure Snapshot.Within (g g' : Snapshot) : Prop where
  areas : g.areas.toList <+: g'.areas.toList
  placements : g.placements.toList <+: g'.placements.toList
  contexts : g.contexts <+: g'.contexts

def Snapshot.Settled (g : Snapshot) : Prop :=
  g.queue = #[] → g.areas = #[] ∧ g.placements = #[] ∧ g.contexts = []

structure Checkpoint.Marks (c : Checkpoint) (g : Snapshot) : Prop where
  areas : c.areas = g.areas.size
  placements : c.placements = g.placements.size
  contexts : c.contexts = g.contexts.length
  cursor : c.cursor = g.cursor
  queue : c.queue = g.queue

namespace Journaled

variable {j j' : Journaled μ} {n : Nat}

/-- Every branch that was undone was open, and undoing it left what it had found. -/
def Faithful (j : Journaled μ) : Prop := ∀ e ∈ j.undone, e.1 = some e.2

structure Sound (j : Journaled μ) : Prop where
  numbered : j.search.arena.Numbered
  marks : List.Forall₂ Checkpoint.Marks j.search.plan.checkpoints j.opened
  nested : (j.search.snapshot :: j.opened).Pairwise fun later earlier => earlier.Within later
  settled : ∀ g ∈ j.opened, g.Settled

namespace Sound

theorem within (hj : j.Sound) {g : Snapshot} (hg : g ∈ j.opened) : g.Within j.search.snapshot :=
  (List.pairwise_cons.1 hj.nested).1 g hg

theorem length_le (hj : j.Sound) {g : Snapshot} (hg : g ∈ j.opened) :
    g.contexts.length ≤ j.search.arena.size := by
  rw [← Arena.length_live]
  exact (hj.within hg).contexts.length_le

/-- A search may grow behind what the open branches found. -/
theorem grows (hj : j.Sound) (ho : j'.opened = j.opened) (h : j.search.Grows n j'.search)
    (hn : ∀ g ∈ j.opened, g.contexts.length ≤ n) : j'.Sound where
  numbered := h.numbered
  marks := by
    rw [h.checkpoints, ho]
    exact hj.marks
  nested := by
    rw [ho]
    refine List.pairwise_cons.2 ⟨fun g hg => ?_, (List.pairwise_cons.1 hj.nested).2⟩
    have old := hj.within hg
    refine ⟨old.areas.trans h.areas, old.placements.trans h.placements, ?_⟩
    have hlive : g.contexts <+: j'.search.arena.live.take n := by
      rw [h.contexts.live]
      exact List.prefix_take_iff.2 ⟨old.contexts, hn g hg⟩
    exact hlive.trans (List.take_prefix n _)
  settled := ho ▸ hj.settled

theorem same (hj : j.Sound) (ho : j'.opened = j.opened) (h : j.search.Same j'.search) : j'.Sound :=
  hj.grows ho (h.grows (Nat.le_refl _)) fun _ hg => hj.length_le hg

/-- The open branches do not depend on the queue, the cursor and the memory. -/
theorem replan (hj : j.Sound) (ho : j'.opened = j.opened) (arena : j'.search.arena = j.search.arena)
    (areas : j'.search.plan.areas = j.search.plan.areas)
    (placements : j'.search.plan.placements = j.search.plan.placements)
    (checkpoints : j'.search.plan.checkpoints = j.search.plan.checkpoints) : j'.Sound where
  numbered := arena ▸ hj.numbered
  marks := by
    rw [checkpoints, ho]
    exact hj.marks
  nested := by
    rw [ho]
    refine List.pairwise_cons.2 ⟨fun g hg => ?_, (List.pairwise_cons.1 hj.nested).2⟩
    have old := hj.within hg
    refine ⟨?_, ?_, ?_⟩
    · rw [Search.snapshot, areas]
      exact old.areas
    · rw [Search.snapshot, placements]
      exact old.placements
    · rw [Search.snapshot, arena]
      exact old.contexts
  settled := ho ▸ hj.settled

end Sound

end Journaled

namespace Journaling

def Ends (P : α → Journaled μ → Prop) (p : Except Fault α × Journaled μ) : Prop :=
  p.2.Faithful ∧ ∀ a, p.1 = .ok a → P a p.2

variable {j : Journaled μ}

namespace Ends

theorem pure {P : α → Journaled μ → Prop} {a : α} (hj : j.Faithful) (h : P a j) :
    Ends P ((pure a : Journaling μ α).run j) := by
  refine ⟨hj, fun b hb => ?_⟩
  cases hb
  exact h

theorem bind {Q : α → Journaled μ → Prop} {P : β → Journaled μ → Prop} {x : Journaling μ α}
    {g : α → Journaling μ β} (hx : Ends Q (x.run j))
    (hg : ∀ a j', Q a j' → j'.Faithful → Ends P ((g a).run j')) : Ends P ((x >>= g).run j) := by
  rw [run_bind]
  obtain ⟨faithful, answer⟩ := hx
  rcases hr : x.run j with ⟨e | a, j'⟩ <;> rw [hr] at faithful answer
  · exact ⟨faithful, fun b hb => nomatch hb⟩
  · exact hg a j' (answer a rfl) faithful

theorem plain {P : α → Journaled μ → Prop} {x : SearchM μ α} (hj : j.Faithful)
    (h : ∀ a s', x.run j.search = (.ok a, s') → P a { j with search := s' }) :
    Ends P ((Journaling.plain x).run j) :=
  ⟨hj, fun a ha => h a _ (Prod.ext ha rfl)⟩

theorem plain_bind {P : β → Journaled μ → Prop} {x : SearchM μ α} {g : α → Journaling μ β}
    (hj : j.Faithful)
    (h : ∀ a j', x.run j.search = (.ok a, j'.search) → j'.opened = j.opened → j'.Faithful →
      Ends P ((g a).run j')) : Ends P ((Journaling.plain x >>= g).run j) := by
  refine bind (plain (P := fun a j' => Ends P ((g a).run j')) hj fun a s' ha => ?_) fun a j' hg _ => hg
  exact h a { j with search := s' } ha rfl hj

theorem lift_bind {P : β → Journaled μ → Prop} {x : Except Fault α} {g : α → Journaling μ β}
    (hj : j.Faithful) (h : ∀ a, x = .ok a → Ends P ((g a).run j)) :
    Ends P ((Journaling.plain (liftM x) >>= g).run j) := by
  cases x with
  | error e => exact ⟨hj, fun a ha => nomatch ha⟩
  | ok a => exact h a rfl

/-- What the search says about the answer may be used as well. -/
theorem watched {P : α → Journaled μ → Prop} {y : Journaling μ α} {x : SearchM μ α}
    (hw : Watches y x) (h : Ends P (y.run j)) :
    Ends (fun a j' => P a j' ∧ x.run j.search = (.ok a, j'.search)) (y.run j) := by
  refine ⟨h.1, fun a ha => ⟨h.2 a ha, ?_⟩⟩
  rw [← hw j, ha]

theorem get_bind {P : β → Journaled μ → Prop} {g : Journaled μ → Journaling μ β}
    (h : Ends P ((g j).run j)) : Ends P ((get >>= g).run j) := h

theorem found_bind {P : β → Journaled μ → Prop} {g : List (Handle × Context) → Journaling μ β}
    (h : Ends P ((g j.search.arena.live).run j)) : Ends P ((Journaling.found >>= g).run j) := h

end Ends

/-! ### Branches -/

/-- A branch may be opened that found the first contexts, all earlier branches no more. -/
theorem branchAt_ends {found : List (Handle × Context)} (hj : j.Sound) (faithful : j.Faithful)
    (settled : j.search.snapshot.Settled) (hfound : found <+: j.search.arena.live)
    (earlier : ∀ g ∈ j.opened, g.contexts <+: found) :
    Ends (fun _ j' => j'.Sound ∧ j'.search = Search.branched found.length j.search ∧
        j'.opened = { j.search.snapshot with contexts := found } :: j.opened)
      ((branchAt found).run j) := by
  refine ⟨faithful, fun _ _ => ⟨⟨hj.numbered, ?_, ?_, ?_⟩, rfl, rfl⟩⟩
  · exact .cons ⟨rfl, rfl, rfl, rfl, rfl⟩ hj.marks
  · refine List.pairwise_cons.2 ⟨fun g hg => ?_, List.pairwise_cons.2 ⟨fun g hg => ?_, ?_⟩⟩
    · rcases List.mem_cons.1 hg with rfl | hg
      · exact ⟨List.prefix_refl _, List.prefix_refl _, hfound⟩
      · exact hj.within hg
    · exact ⟨(hj.within hg).areas, (hj.within hg).placements, earlier g hg⟩
    · exact (List.pairwise_cons.1 hj.nested).2
  · intro g hg
    rcases List.mem_cons.1 hg with rfl | hg
    · intro hq
      obtain ⟨areas, placements, contexts⟩ := settled hq
      refine ⟨areas, placements, ?_⟩
      change j.search.arena.live = [] at contexts
      rw [contexts] at hfound
      exact List.prefix_nil.1 hfound
    · exact hj.settled g hg

theorem branch_ends (hj : j.Sound) (faithful : j.Faithful)
    (settled : j.search.snapshot.Settled) :
    Ends (fun _ j' => j'.Sound ∧ j'.search = Search.branched j.search.arena.size j.search ∧
        j'.opened = j.search.snapshot :: j.opened) (branch.run j) := by
  have ends := branchAt_ends hj faithful settled (List.prefix_refl _)
    (fun g hg => (hj.within hg).contexts)
  rw [Arena.length_live] at ends
  exact ends

/-- The latest branch found exactly what there is after it has been undone. -/
theorem undo_ends (hj : j.Sound) (faithful : j.Faithful) :
    Ends (fun _ j' => j'.Sound ∧ j'.search.snapshot.Settled) ((undo w).run j) := by
  unfold undo
  refine .plain_bind faithful fun _ k hundo ho faithful => ?_
  obtain ⟨c, rest, hc, hk⟩ := Search.undo_ok hundo
  have marks := hj.marks
  have nested := hj.nested
  have settled := hj.settled
  have within := fun g => hj.within (g := g)
  rw [hc] at marks
  rcases hopened : j.opened with _ | ⟨g, earlier⟩ <;>
    rw [hopened] at marks nested settled within ho
  · cases marks
  · obtain ⟨mark, marks⟩ := List.forall₂_cons.1 marks
    have old := within g List.mem_cons_self
    have restored : k.search.snapshot = g := by
      have hareas : j.search.plan.areas.take c.areas = g.areas :=
        mark.areas ▸ Search.take_size_eq old.areas
      have hplacements : j.search.plan.placements.take c.placements = g.placements :=
        mark.placements ▸ Search.take_size_eq old.placements
      have hcontexts : (j.search.arena.truncate c.contexts).live = g.contexts := by
        rw [Arena.live_truncate, mark.contexts]
        exact (List.prefix_iff_eq_take.1 old.contexts).symm
      simp only [hk, Search.snapshot, Search.undone, hareas, hplacements, hcontexts, mark.queue,
        mark.cursor]
    have hcheckpoints : k.search.plan.checkpoints = rest := by rw [hk]; rfl
    have hnumbered : k.search.arena.Numbered := by
      rw [hk]
      exact Arena.numbered_truncate hj.numbered _
    have htail : k.opened.tail = earlier := by rw [ho]; rfl
    refine ⟨?_, fun _ _ => ⟨⟨hnumbered, ?_, ?_, ?_⟩, ?_⟩⟩
    · intro e he
      rcases List.mem_append.1 he with he | he
      · exact faithful e he
      · rw [List.mem_singleton.1 he, ho, restored]
        rfl
    · change List.Forall₂ _ k.search.plan.checkpoints k.opened.tail
      rw [hcheckpoints, htail]
      exact marks
    · change List.Pairwise _ (k.search.snapshot :: k.opened.tail)
      rw [restored, htail]
      exact (List.pairwise_cons.1 nested).2
    · intro g' hg'
      change g' ∈ k.opened.tail at hg'
      rw [htail] at hg'
      exact settled g' (List.mem_cons_of_mem _ hg')
    · change k.search.snapshot.Settled
      rw [restored]
      exact settled g List.mem_cons_self

/-! ### Attempts -/

/-- Once the context of a component has been created, a branch is opened that found what there was
before it, and all the rest goes behind that. -/
theorem takeUp_ends {id : ComponentId} {c : Component} {node : Nat} {x : Context} {j₀ : Journaled μ}
    (before : j₀.Sound) (hj : j.Sound) (faithful : j.Faithful) (ho : j.opened = j₀.opened)
    (arena : j.search.arena = (j₀.search.arena.push x).2) (hq : j.search.plan.queue ≠ #[]) :
    Ends (fun _ j' => j'.Sound) ((do
      branchAt j₀.search.arena.live
      plain (Search.accept id node (j₀.search.arena.push x).1)
      if ← plain (Search.populate w c (j₀.search.arena.push x).1 node) then return true
      else
        undo w
        return false : Journaling μ Bool).run j) := by
  have hlive : j.search.arena.live =
      j₀.search.arena.live ++ [((j₀.search.arena.push x).1, x)] := by
    rw [arena]
    exact Arena.live_push before.numbered x
  refine .bind (branchAt_ends hj faithful (fun hempty => absurd hempty hq) ⟨_, hlive.symm⟩
    fun g hg => (before.within (ho ▸ hg)).contexts) fun _ j₁ ⟨sound₁, he₁, ho₁⟩ faithful => ?_
  have arena₁ : j₁.search.arena = (j₀.search.arena.push x).2 := by
    rw [he₁]
    exact arena
  have hle : j₀.search.arena.size ≤ j₁.search.arena.size := by
    rw [arena₁, Arena.size_push]
    omega
  have short : ∀ g ∈ j₁.opened, g.contexts.length ≤ j₀.search.arena.size := by
    intro g hg
    rw [ho₁] at hg
    rcases List.mem_cons.1 hg with rfl | hg
    · exact Nat.le_of_eq (Arena.length_live _)
    · exact before.length_le (ho ▸ hg)
  refine .plain_bind faithful fun _ j₂ hacc ho₂ faithful => ?_
  have accepted := Search.accept_grows sound₁.numbered hle hacc
  have arena₂ : j₂.search.arena = (j₀.search.arena.push x).2 := by
    obtain ⟨_, _, he₂⟩ := Search.accept_ok hacc
    rw [he₂]
    exact arena₁
  refine .plain_bind faithful fun populated j₃ hpop ho₃ faithful => ?_
  obtain ⟨grows, _⟩ := Search.populate_ok before.numbered arena₂ hpop
  have sound₃ := sound₁.grows (ho₃.trans ho₂) (accepted.trans grows) short
  cases populated with
  | false => exact .bind (undo_ends sound₃ faithful) fun _ _ h faithful => .pure faithful h.1
  | true => exact .pure faithful sound₃

theorem placeComponent_ends {id : ComponentId} {a : Attempt} (hj : j.Sound)
    (faithful : j.Faithful) (hq : j.search.plan.queue ≠ #[]) :
    Ends (fun _ j' => j'.Sound) ((placeComponent w id a).run j) := by
  unfold placeComponent
  refine .lift_bind faithful fun c _ => .lift_bind faithful fun n _ => ?_
  refine .plain_bind faithful fun position j₁ hposition ho₁ faithful => ?_
  obtain ⟨_, he₁⟩ := Search.evaluate_ok hposition
  have sound₁ : j₁.Sound := by
    refine hj.replan ho₁ ?_ ?_ ?_ ?_ <;> rw [he₁] <;> rfl
  have hq₁ : j₁.search.plan.queue ≠ #[] := by
    rw [he₁]
    exact hq
  cases position with
  | error e => exact .pure faithful sound₁
  | ok position =>
      refine .found_bind (.plain_bind faithful fun r j₂ he ho₂ faithful => ?_)
      rcases Search.enter_ok he with ⟨e, rfl, he₂⟩ | ⟨x, _, rfl, he₂⟩
      · refine .pure faithful ?_
        refine sound₁.replan ho₂ ?_ ?_ ?_ ?_ <;> rw [he₂]
      · have entered := Search.entered_grows (w := w) (x := x) sound₁.numbered
        rw [← he₂] at entered
        have sound₂ := sound₁.grows ho₂ entered fun g hg => sound₁.length_le hg
        refine .plain_bind faithful fun holds j₃ hm ho₃ faithful => ?_
        obtain ⟨_, he₃⟩ := Search.meets_ok hm
        have arena₃ : j₃.search.arena = (j₁.search.arena.push x).2 := by rw [he₃, he₂]; rfl
        have plan₃ : j₃.search.plan = j₁.search.plan := by rw [he₃, he₂]; rfl
        have sound₃ : j₃.Sound := by
          refine sound₂.replan ho₃ ?_ ?_ ?_ ?_ <;> rw [he₃] <;> rfl
        cases holds with
        | false =>
            refine .plain_bind faithful fun _ j₄ ht ho₄ faithful => .pure faithful ?_
            refine sound₁.same (ho₄.trans (ho₃.trans ho₂)) ?_
            rw [Arena.length_live, Search.run_truncateContexts, arena₃, plan₃] at ht
            rw [← (Prod.mk.inj ht).2]
            exact Search.same_truncate_push sound₁.numbered x _
        | true =>
            exact takeUp_ends sound₁ sound₃ faithful (ho₃.trans ho₂) arena₃ (plan₃ ▸ hq₁)

theorem replaceRule_ends {target : RuleId} {a : Attempt} (hj : j.Sound) (faithful : j.Faithful)
    (hq : j.search.plan.queue ≠ #[]) :
    Ends (fun _ j' => j'.Sound) ((replaceRule w target a).run j) := by
  unfold replaceRule
  refine .bind (branch_ends hj faithful fun hempty => absurd hempty hq)
    fun _ j₁ ⟨sound₁, _⟩ faithful => .plain_bind faithful fun done j₂ he ho₂ faithful => ?_
  have sound₂ : j₂.Sound := by
    rcases Search.enterRule_ok sound₁.numbered he with ⟨_, same⟩ | ⟨_, r, x, first, enters⟩
    · exact sound₁.same ho₂ same
    · exact sound₁.grows ho₂ (enters.grows (Nat.le_refl _)) fun _ hg => sound₁.length_le hg
  cases done with
  | false => exact .bind (undo_ends sound₂ faithful) fun _ _ h faithful => .pure faithful h.1
  | true => exact .pure faithful sound₂

theorem attempt_ends {a : Attempt} (hj : j.Sound) (faithful : j.Faithful)
    (hq : j.search.plan.queue ≠ #[]) : Ends (fun _ j' => j'.Sound) ((attempt w a).run j) := by
  unfold attempt
  refine .lift_bind faithful fun e _ => ?_
  cases e.target with
  | nothing => exact .pure faithful hj
  | rule target => exact replaceRule_ends hj faithful hq
  | component id node => exact placeComponent_ends hj faithful hq

/-! ### Runs -/

theorem resolve_ends {entry : Option Attempt} (hj : j.Sound) (faithful : j.Faithful)
    (hq : j.search.plan.queue ≠ #[]) :
    Ends (fun _ j' => j'.Sound ∧ j'.search.snapshot.Settled) ((resolve w entry).run j) := by
  unfold resolve
  cases entry with
  | none => exact undo_ends hj faithful
  | some a =>
      refine .plain_bind faithful fun following j₁ hnext ho₁ faithful => ?_
      obtain ⟨grows, plan₁⟩ := Search.next_grows hj.numbered (Nat.le_refl _) hnext
      have sound₁ := hj.grows ho₁ grows fun _ hg => hj.length_le hg
      refine .plain_bind faithful fun _ j₂ hset ho₂ faithful => ?_
      obtain ⟨_, he₂⟩ := Prod.mk.inj hset
      have sound₂ : j₂.Sound := by
        refine sound₁.replan ho₂ ?_ ?_ ?_ ?_ <;> rw [← he₂]
      have hq₂ : 0 < j₂.search.plan.queue.size := by
        rw [← he₂]
        simpa [plan₁, Array.size_pos_iff] using hq
      refine .bind (.watched (.attempt w a) (attempt_ends sound₂ faithful (Array.size_pos_iff.1 hq₂)))
        fun done j₃ ⟨sound₃, hattempt⟩ faithful => ?_
      have hq₃ : 0 < j₃.search.plan.queue.size := by
        rcases Search.attempt_ok sound₂.numbered hattempt with ⟨_, same⟩ | ⟨_, e, _, carries⟩
        · rw [same.plan]
          exact hq₂
        · exact Nat.lt_of_lt_of_le hq₂ carries.queue
      have settled : ∀ {q : Queue}, 0 < q.size → q ≠ #[] := Array.size_pos_iff.1
      cases done with
      | false => exact .pure faithful ⟨sound₃, fun h => absurd h (settled hq₃)⟩
      | true =>
          rw [if_pos rfl]
          refine .plain faithful fun _ s' hs' => ?_
          obtain ⟨_, rfl⟩ := Prod.mk.inj hs'
          refine ⟨sound₃.replan rfl rfl rfl rfl rfl, fun h => absurd h (settled hq₃)⟩

structure Blank (s : Search μ) : Prop where
  areas : s.plan.areas = #[]
  placements : s.plan.placements = #[]
  queue : s.plan.queue = #[]
  contexts : s.arena.contexts = #[]

theorem blank_of_settled {s : Search μ} (settled : s.snapshot.Settled)
    (hq : s.plan.queue = #[]) : Blank s := by
  obtain ⟨areas, placements, contexts⟩ := settled hq
  refine ⟨areas, placements, hq, ?_⟩
  have hsize : s.arena.size = 0 := by
    rw [← Arena.length_live]
    exact List.length_eq_zero_iff.2 contexts
  exact Array.size_eq_zero_iff.1 hsize

theorem step_ends {limits : Limits} (hj : j.Sound) (faithful : j.Faithful)
    (settled : j.search.snapshot.Settled) :
    Ends (fun result j' => j'.Sound ∧ j'.search.snapshot.Settled ∧
        ∀ n, result = some (.error (.noSolution n)) → Blank j'.search)
      ((step w limits).run j) := by
  unfold step
  refine .get_bind ?_
  dsimp only
  cases hentry : j.search.plan.queue[j.search.plan.cursor]? with
  | none =>
      dsimp only
      split
      · next hempty =>
        refine .pure faithful ⟨hj, settled, fun _ _ => blank_of_settled settled ?_⟩
        exact Array.isEmpty_iff.1 hempty
      · refine .plain_bind faithful fun _ j₁ hsolved ho₁ faithful => ?_
        obtain ⟨_, he₁⟩ := Prod.mk.inj hsolved
        refine .pure faithful ⟨?_, ?_, fun n hn => nomatch hn⟩
        · refine hj.replan ho₁ ?_ ?_ ?_ ?_ <;> rw [← he₁]
        · rw [← he₁]
          exact settled
  | some entry =>
      have hq : j.search.plan.queue ≠ #[] := by
        intro hempty
        rw [hempty] at hentry
        cases hentry
      refine .plain_bind faithful fun _ j₁ hcount ho₁ faithful => ?_
      obtain ⟨_, he₁⟩ := Prod.mk.inj hcount
      have sound₁ : j₁.Sound := by
        refine hj.replan ho₁ ?_ ?_ ?_ ?_ <;> rw [← he₁]
      have hq₁ : j₁.search.plan.queue ≠ #[] := by
        rw [← he₁]
        exact hq
      refine .get_bind ?_
      cases hstop : Search.stopped? limits j₁.search with
      | some failure =>
          refine .pure faithful ⟨sound₁, fun h => absurd h hq₁, fun n hn => ?_⟩
          obtain rfl : failure = .noSolution n := by
            cases hn
            rfl
          unfold Search.stopped? at hstop
          split at hstop
          · cases hstop
          · split at hstop <;> cases hstop
      | none =>
          refine .bind (resolve_ends sound₁ faithful hq₁) fun _ _ h faithful => .pure faithful ?_
          exact ⟨h.1, h.2, fun n hn => nomatch hn⟩

theorem process_ends {limits : Limits} (hj : j.Sound) (faithful : j.Faithful)
    (settled : j.search.snapshot.Settled) :
    Ends (fun result j' => j'.Sound ∧ j'.search.snapshot.Settled ∧
        ∀ n, result = .error (.noSolution n) → Blank j'.search)
      ((process w limits).run j) := by
  unfold process
  induction limits.expansions + 1 generalizing j with
  | zero => exact .pure faithful ⟨hj, settled, fun n hn => nomatch hn⟩
  | succ n ih =>
      refine .bind (step_ends hj faithful settled) fun result j₁ ⟨sound₁, settled₁, blank⟩
        faithful => ?_
      cases result with
      | none => exact ih sound₁ faithful settled₁
      | some result =>
          exact .pure faithful ⟨sound₁, settled₁, fun n hn => blank n (congrArg some hn)⟩

theorem setup_ends {rule : RuleId} {origin : Pos} {seed : Seed} (j : Journaled μ) :
    Ends (fun _ j' => j'.Sound ∧ j'.search.snapshot.Settled)
      ((setup w rule origin seed).run j) := by
  have hempty : j.search.arena.clear.live = [] := by
    rw [Arena.clear, Arena.live_truncate, List.take_zero]
  have hnumbered : j.search.arena.clear.Numbered := by
    simp [Arena.Numbered, Arena.clear, Arena.truncate]
  let j₁ : Journaled μ := ⟨((Search.reset w origin seed).run j.search).2, [], []⟩
  have sound₁ : j₁.Sound := ⟨hnumbered, .nil, List.pairwise_singleton _ _, by simp [j₁]⟩
  have faithful₁ : j₁.Faithful := by simp [Journaled.Faithful, j₁]
  have settled₁ : j₁.search.snapshot.Settled := fun _ => ⟨rfl, rfl, hempty⟩
  have ends : Ends (fun _ j' => j'.Sound ∧ j'.search.snapshot.Settled)
      ((branch >>= fun _ => plain (Search.enterRule w rule origin .unspecified none) >>=
        fun _ => pure ()).run j₁) := by
    refine .bind (branch_ends sound₁ faithful₁ settled₁) fun _ j₂ opened faithful =>
      .plain_bind faithful fun done j₃ he ho₃ faithful => .pure faithful ?_
    obtain ⟨sound₂, he₂, _⟩ := opened
    rcases Search.enterRule_ok sound₂.numbered he with ⟨_, same⟩ | ⟨_, r, x, a, enters⟩
    · refine ⟨sound₂.same ho₃ same, ?_⟩
      have restored : j₃.search.snapshot = j₁.search.snapshot := by
        rw [Search.snapshot, same.plan, same.live, he₂]
        rfl
      rw [restored]
      exact settled₁
    · refine ⟨sound₂.grows ho₃ (enters.grows (Nat.le_refl _)) fun _ hg => sound₂.length_le hg, ?_⟩
      obtain ⟨q, hq, hplan⟩ := enters.queued
      intro hnone
      have hsize := hq.size
      rw [Search.snapshot, hplan] at hnone
      rw [show q = #[] from hnone] at hsize
      cases hsize
  exact ends

/-- Starting over at a place and then running the search several times, within some limits each
time. -/
def session (w : World μ) (rule : RuleId) (origin : Pos) (seed : Seed) (limits : List Limits) :
    Journaling μ (List (Except SearchFailure Unit)) := do
  setup w rule origin seed
  limits.mapM (process w)

theorem Watches.mapM {y : α → Journaling μ β} {x : α → SearchM μ β} (h : ∀ a, Watches (y a) (x a))
    (as : List α) : Watches (as.mapM y) (as.mapM x) := by
  induction as with
  | nil =>
      rw [List.mapM_nil, List.mapM_nil]
      exact .pure _
  | cons a as ih =>
      rw [List.mapM_cons, List.mapM_cons]
      exact .bind (h a) fun b => .bind ih fun bs => .pure _

theorem processes_ends (limits : List Limits) (hj : j.Sound) (faithful : j.Faithful)
    (settled : j.search.snapshot.Settled) :
    Ends (fun results j' => ∀ n, results.getLast? = some (.error (.noSolution n)) →
        Blank j'.search) ((limits.mapM (process w)).run j) := by
  induction limits generalizing j with
  | nil =>
      rw [List.mapM_nil]
      exact .pure faithful fun n hn => nomatch hn
  | cons l limits ih =>
      rw [List.mapM_cons]
      refine .bind (process_ends hj faithful settled) fun result j₁ ⟨sound₁, settled₁, blank⟩
        faithful => ?_
      -- Without another run, the last result is the one of this run.
      cases limits with
      | nil =>
          rw [List.mapM_nil]
          refine .pure faithful fun n hn => blank n ?_
          simpa using hn
      | cons l' limits =>
          refine .bind (.watched (.mapM (Watches.process w) _) (ih sound₁ faithful settled₁))
            fun results j₂ ⟨blank, hresults⟩ faithful => .pure faithful fun n hn => blank n ?_
          rw [List.mapM_cons] at hresults
          obtain ⟨r, _, _, hresults⟩ := SearchM.bind_ok hresults
          obtain ⟨rs, _, _, hresults⟩ := SearchM.bind_ok hresults
          cases hresults
          simpa using hn

/-- Whenever a run undoes a branch, the branch was open and what is left is what it had found:
areas, placements, queue, cursor and live contexts. A search that ends without a solution leaves
nothing behind. -/
theorem undo_restores_opening (w : World μ) (rule : RuleId) (origin : Pos) (seed : Seed)
    (limits : List Limits) (s : Search μ) :
    let run := (session w rule origin seed limits).run ⟨s, [], []⟩
    (run.1, run.2.search) =
        (do Search.setup w rule origin seed; limits.mapM (Search.process w) : SearchM μ _).run s ∧
      (∀ e ∈ run.2.undone, e.1 = some e.2) ∧
      ∀ results n, run.1 = .ok results → results.getLast? = some (.error (.noSolution n)) →
        Blank run.2.search := by
  have ends : Ends (fun results j' => ∀ n, results.getLast? = some (.error (.noSolution n)) →
      Blank j'.search) ((session w rule origin seed limits).run ⟨s, [], []⟩) :=
    .bind (setup_ends _) fun _ _ h faithful => processes_ends limits h.1 faithful h.2
  have watches : Watches (session w rule origin seed limits)
      (do Search.setup w rule origin seed; limits.mapM (Search.process w)) :=
    .bind (.setup w rule origin seed) fun _ => .mapM (.process w) limits
  exact ⟨watches _, ends.1, fun results n hr hn => ends.2 results hr n hn⟩

/-- A hall that can only turn into a tower, and a tower that can turn into nothing. -/
def deadEnd : Grammar where
  rules := #[⟨.named "hall", [0], [⟨.ofFloat 1, [⟨0, 100, false⟩], 100⟩]⟩,
    ⟨.named "tower", [], []⟩]
  expansions := #[⟨.named "hall#0", 0, .rule 1, false⟩]
  components := #[]
  fields := #[]
  areaNames := []

theorem undo_restores_opening_deadEnd :
    let run := (session ⟨deadEnd, .none, .blank⟩ 0 .zero 7 [⟨10, 10⟩]).run ⟨.new (), [], []⟩
    run.1 = .ok [.error (.noSolution 2)] ∧ run.2.undone.length = 2 ∧
      (∀ e ∈ run.2.undone, e.1 = some e.2) ∧ Blank run.2.search := by
  have restores := undo_restores_opening ⟨deadEnd, .none, .blank⟩ 0 .zero 7 [⟨10, 10⟩] (.new ())
  have results : ((session ⟨deadEnd, .none, .blank⟩ 0 .zero 7 [⟨10, 10⟩]).run
      ⟨.new (), [], []⟩).1 = .ok [.error (.noSolution 2)] := by
    decide +kernel
  exact ⟨results, by decide +kernel, restores.2.1, restores.2.2 _ 2 results rfl⟩

end Journaling

end VoxelGrammar
