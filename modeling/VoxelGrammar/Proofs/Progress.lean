import VoxelGrammar.Proofs.Sanity

/-!
A search that refers to nothing but what there is never breaks down, unless one of its evaluations
goes on forever. There is one lemma for each function of the search, in the order of the program:
what it looks up is there, what it undoes was opened, and what it queues goes into the queue.
-/

namespace VoxelGrammar

variable {μ α β : Type} {w : World μ}

/-- Entering a symbol of the grammar below a live context breaks no contract. -/
theorem Arena.prepare_gives {E : Fault → Prop} {g : Grammar} {a : Arena} (sane : a.Sane g)
    {parent : Option Handle} (hp : ∀ h, parent = some h → Lives a.live h) {ref : SymbolRef}
    {sym : Symbol} (hs : g.symbol ref = .ok sym) (placement : Transform) (seed : Seed) :
    Gives E (fun _ => True) (a.prepare g parent ref placement seed) := by
  have found : ∃ p, a.parentContext parent = .ok p := by
    cases parent with
    | none => exact ⟨none, rfl⟩
    | some h =>
        obtain ⟨x, _, hx⟩ := sane.get (hp h rfl)
        exact ⟨some (h, x), by rw [parentContext, hx]; rfl⟩
  obtain ⟨p, hp⟩ := found
  unfold prepare
  rw [hp, hs]
  show Gives E _ (liftM (Context.enter p ref sym placement seed))
  cases Context.enter p ref sym placement seed with
  | error e => exact .grammar e
  | ok x => exact .ok trivial

/-- The attachments of a component are by nodes that it has. -/
theorem Component.node_of_mem_attachments {c : Component} {name : Option String} {o : Attachment}
    (h : o ∈ c.attachments name) : ∃ n, Fault.lookup c.nodes o.node = .ok n := by
  obtain ⟨⟨n, i⟩, hn, ho⟩ := List.mem_flatMap.1 h
  obtain ⟨orientation, _, rfl⟩ := List.mem_map.1 ho
  have found := List.mem_zipIdx_iff_getElem?.1 (List.mem_of_mem_filter hn)
  refine ⟨n, ?_⟩
  rw [Fault.lookup, ← Array.getElem?_toList, found]

/-- The indices of the nodes that are entered are those of nodes that there are. -/
theorem Search.lt_of_mem_nodeOrder {nodes : Array Node} {seed runSeed : Seed} {i : Nat}
    (h : i ∈ nodeOrder nodes seed runSeed) : i < nodes.size :=
  List.mem_range.1 ((Seed.shuffle_perm _ _).mem_iff.1 h)

namespace Search

variable {s : Search Unit} {h : Handle} {x : Context}

def Unbroken (w : World μ) (p : Except Fault α × Search Unit) : Prop :=
  ∀ f, p.1 = .error f → w.RunsOn p.2.arena f

namespace Unbroken

theorem of_ok {p : Except Fault α × Search Unit} {v : α} (h : p.1 = .ok v) : Unbroken w p := by
  intro f hf
  rw [h] at hf
  cases hf

theorem pure (v : α) : Unbroken w ((pure v : SearchM Unit α).run s) := of_ok rfl

theorem bind {y : SearchM Unit α} {k : α → SearchM Unit β} (hy : Unbroken w (y.run s))
    (hk : ∀ v s', y.run s = (.ok v, s') → Unbroken w ((k v).run s')) :
    Unbroken w ((y >>= k).run s) := by
  rw [SearchM.run_bind]
  rcases hrun : y.run s with ⟨e | v, s'⟩ <;> rw [hrun] at hy
  · intro f hf
    cases hf
    exact hy _ rfl
  · exact hk v s' hrun

/-- Whatever has an answer is passed. -/
theorem step {y : SearchM Unit α} {k : α → SearchM Unit β} {v : α} {s' : Search Unit}
    (hy : y.run s = (.ok v, s')) (hk : Unbroken w ((k v).run s')) :
    Unbroken w ((y >>= k).run s) := by
  rw [SearchM.run_bind, hy]
  exact hk

theorem lift_bind {y : Except Fault α} {k : α → SearchM Unit β} {v : α} (hy : y = .ok v)
    (hk : Unbroken w ((k v).run s)) : Unbroken w ((liftM y >>= k).run s) :=
  step (Prod.ext hy rfl) hk

theorem evaluate {P : α → Prop} {y : Arena → Eval Unit α}
    (answers : w.Answers s.arena P (y s.arena)) : Unbroken w ((Search.evaluate y).run s) := by
  intro f hf
  rw [run_evaluate] at hf ⊢
  refine (answers s.memory).1 f ?_
  generalize ((y s.arena).run s.memory).1 = r at hf
  cases r with
  | ok v => cases hf
  | error e =>
      cases e with
      | grammar e => cases hf
      | fault e =>
          obtain rfl := Except.error.inj hf
          rfl

end Unbroken

theorem run_assign {sym : Symbol} (hx : s.arena.get h = .ok x)
    (hs : w.grammar.symbol x.symbol = .ok sym) :
    (assign w.forgetful h).run s = (.ok (), assigned h sym s) := by
  unfold assign
  rw [SearchM.run_bind, run_context, hx]
  dsimp only
  rw [SearchM.run_bind, SearchM.run_lift]
  have found : w.forgetful.grammar.symbol x.symbol = .ok sym := hs
  rw [found]
  rfl

theorem enter_unbroken (sane : s.arena.Sane w.grammar) {parent : Option Handle}
    (hp : ∀ h, parent = some h → Lives s.arena.live h) {ref : SymbolRef} {sym : Symbol}
    (hs : w.grammar.symbol ref = .ok sym) (placement : Transform) :
    Unbroken w ((enter w.forgetful parent ref placement).run s) := by
  have gives := Arena.prepare_gives (E := fun _ => False) sane hp hs placement s.plan.seed
  refine .step (SearchM.run_get s) ?_
  have created : s.arena.create w.forgetful.grammar parent ref placement s.plan.seed =
      (s.arena.prepare w.grammar parent ref placement s.plan.seed).map s.arena.push := rfl
  rw [created]
  cases hx : s.arena.prepare w.grammar parent ref placement s.plan.seed with
  | ok x => exact .of_ok rfl
  | error e =>
      cases e with
      | grammar e => exact .of_ok rfl
      | fault f => exact (gives.1 f hx).elim

section

variable (sturdy : w.Sturdy)

include sturdy

theorem meets_unbroken (sane : s.arena.Sane w.grammar) (hl : Lives s.arena.live h)
    {cs : List FieldId} (hcs : ∀ id ∈ cs, id < w.grammar.fields.size) :
    Unbroken w ((meets w.forgetful h cs).run s) := by
  refine .bind (.evaluate (World.holds_answers sturdy sane hl hcs)) fun r s' _ => ?_
  cases r <;> exact .pure _

/-- A context is entered, and what follows where its conditions hold may rely on it. -/
theorem guarded_unbroken (sane : s.arena.Sane w.grammar) {parent : Option Handle}
    (hp : ∀ h, parent = some h → Lives s.arena.live h) {ref : SymbolRef} {sym : Symbol}
    (hsym : w.grammar.symbol ref = .ok sym) (within : sym.Within w.grammar.fields.size)
    {placement : Transform} {f : Except GrammarError Handle → SearchM Unit α}
    {k : Handle → SearchM Unit α} {gone : α} (refused : ∀ e, f (.error e) = pure gone)
    (created : ∀ h, f (.ok h) = do
      if ← meets w.forgetful h sym.conditions then k h
      else
        truncateContexts w.forgetful s.arena.size
        return gone)
    (hk : ∀ x, (s.arena.push x).2.Sane w.grammar →
      (s.arena.push x).2.get (s.arena.push x).1 = .ok x → w.grammar.symbol x.symbol = .ok sym →
      Unbroken w ((k (s.arena.push x).1).run
        (looked w.forgetful (s.arena.push x).1 sym.conditions (entered w.forgetful x s)))) :
    Unbroken w ((enter w.forgetful parent ref placement >>= f).run s) := by
  refine .bind (enter_unbroken sane hp hsym _) fun r s' hr => ?_
  rcases enter_ok hr with ⟨e, rfl, rfl⟩ | ⟨x, hx, rfl, rfl⟩
  · rw [refused]
    exact .pure gone
  have pushed := sane.push sturdy.closed hx
  have last := Arena.lives_push sane.numbered x
  rw [created]
  refine .bind (meets_unbroken sturdy (s := entered w.forgetful x s) pushed last within.conditions)
    fun holds s' hm => ?_
  obtain ⟨_, rfl⟩ := meets_ok hm
  cases holds with
  | false => exact .step rfl (.pure gone)
  | true =>
      refine hk x pushed (Arena.get_push sane.numbered x) ?_
      rw [Arena.symbol_of_prepare hx]
      exact hsym

/-! ### Attempts -/

theorem openCandidate_unbroken (sane : s.arena.Sane w.grammar) {entry : RuleEntry}
    (hentry : Lives s.arena.live entry.context) {c : Candidate} {later : List Candidate}
    (known : ∃ e, w.grammar.expansion c.expansion = .ok e) :
    Unbroken w ((openCandidate w.forgetful entry c later).run s) := by
  obtain ⟨e, he⟩ := known
  obtain ⟨within, target⟩ := sturdy.closed.expansions _ e he
  obtain ⟨offers, hoffers⟩ : ∃ offers, offered w.forgetful e.target = .ok offers := by
    cases ht : e.target with
    | nothing => exact ⟨_, rfl⟩
    | rule id => exact ⟨_, rfl⟩
    | component id name =>
        rw [ht] at target
        obtain ⟨c, hlookup⟩ := Fault.lookup_of_lt (target trivial)
        have hc : w.forgetful.grammar.component id = .ok c := hlookup
        exact ⟨c.attachments name, by rw [offered, hc]; rfl⟩
  refine .lift_bind he (.step (run_contextCount s) (guarded_unbroken sturdy sane ?_
    (Grammar.symbol_expansion he) within (fun _ => rfl) (fun _ => rfl) fun x _ here hsym => ?_))
  · rintro _ ⟨⟩
    exact hentry
  refine .step (Prod.ext here rfl) (.lift_bind hoffers ?_)
  split
  · exact .step rfl (.pure none)
  · exact .step (run_assign here hsym) (.pure _)

theorem openFirst_unbroken (sane : s.arena.Sane w.grammar) {entry : RuleEntry}
    (hentry : Lives s.arena.live entry.context) {candidates : List Candidate}
    (known : Known w candidates) :
    Unbroken w ((openFirst w.forgetful entry candidates).run s) := by
  induction candidates generalizing s with
  | nil => exact .pure none
  | cons c later ih =>
      refine .bind (openCandidate_unbroken sturdy sane hentry (known c List.mem_cons_self))
        fun first s' hc => ?_
      rcases openCandidate_ok sane.numbered hc with ⟨rfl, same⟩ | ⟨a, _, _, rfl, _⟩
      · refine ih (sane.of_live same.numbered same.live) ?_ fun d hd =>
          known d (List.mem_cons_of_mem c hd)
        rw [same.live]
        exact hentry
      · exact .pure _

theorem next_unbroken (sane : s.arena.Sane w.grammar) {t : Attempt}
    (ht : t.Sane w.forgetful s.arena.live) : Unbroken w ((next w.forgetful t).run s) := by
  unfold next
  split
  · exact .pure _
  · exact openFirst_unbroken sturdy sane ht.entry ht.later

/-! ### Entering rules -/

omit sturdy in
theorem enqueue_unbroken (hq : s.plan.queue.size ≠ 0 → s.plan.cursor < s.plan.queue.size)
    (atOnce : Bool) (t : Attempt) : Unbroken w ((enqueue atOnce t).run s) := by
  refine .step (SearchM.run_get s) ?_
  dsimp only
  split
  · next filled =>
    rw [if_pos (Nat.succ_le_of_lt (hq filled.1))]
    exact .of_ok rfl
  · exact .of_ok rfl

theorem enterRule_unbroken (sane : s.arena.Sane w.grammar)
    (hq : s.plan.queue.size ≠ 0 → s.plan.cursor < s.plan.queue.size) {id : RuleId}
    (hid : id < w.grammar.rules.size) {parent : Option Handle}
    (hp : ∀ h, parent = some h → Lives s.arena.live h) (origin : Pos) (orientation : Orientation) :
    Unbroken w ((enterRule w.forgetful id origin orientation parent).run s) := by
  obtain ⟨r, hlookup⟩ := Fault.lookup_of_lt hid
  have hrule : w.grammar.rule id = .ok r := hlookup
  have within := sturdy.closed.rules id r hrule
  refine .lift_bind hrule (.step (run_contextCount s) (guarded_unbroken sturdy sane hp
    (Grammar.symbol_rule hrule) within (fun _ => rfl) (fun _ => rfl) fun x pushed here hsym => ?_))
  refine .step (Prod.ext here rfl) ?_
  dsimp only
  split
  · exact .step rfl (.pure false)
  · have live := Arena.isLive_of_get here
    have assigned := pushed.assign within live
    have lasting := Arena.lives_assign (s := r.symbol) live (Arena.lives_push sane.numbered x)
    refine .step (run_assign here hsym) (.bind (openFirst_unbroken sturdy assigned ?_
      (known_candidates sturdy.closed hrule _)) fun first s' hf => ?_)
    · exact lasting
    cases first with
    | none => exact .step rfl (.pure false)
    | some a =>
        rcases openFirst_ok assigned.numbered hf with ⟨hnone, _⟩ | ⟨b, _, opens⟩
        · cases hnone
        · refine .bind (enqueue_unbroken ?_ _ a) fun _ _ _ => .pure true
          rw [opens.plan]
          exact hq

/-! ### Placing components -/

theorem placeAreas_unbroken (sane : s.arena.Sane w.grammar) (hl : Lives s.arena.live h)
    {specs : List AreaSpec} (within : ∀ a ∈ specs, a.start < w.grammar.fields.size ∧
      a.stop < w.grammar.fields.size) : Unbroken w ((placeAreas w.forgetful h specs).run s) := by
  induction specs generalizing s with
  | nil => exact .pure true
  | cons spec rest ih =>
      obtain ⟨hstart, hstop⟩ := within spec List.mem_cons_self
      have rest_within := fun a ha => within a (List.mem_cons_of_mem spec ha)
      refine .bind (.evaluate (World.areaOf_answers sturdy sane hl hstart hstop)) fun r s' hr => ?_
      obtain ⟨_, rfl⟩ := evaluate_ok hr
      cases r with
      | error e => exact .pure false
      | ok a =>
          refine .step (SearchM.run_get _) ?_
          dsimp only
          split
          · split
            · exact ih (s := evaluated _ s) sane hl rest_within
            · exact .step rfl (ih sane hl rest_within)
          · exact .pure false

theorem enterNodes_unbroken (hs : s.arena.Numbered) (sane : s.snapshot.Sane w.forgetful)
    (hl : Lives s.arena.live h) (hq : s.plan.cursor < s.plan.queue.size) {c : Component}
    (within : c.Within True w.grammar.fields.size w.grammar.rules.size) {is : List Nat}
    (his : ∀ i ∈ is, i < c.nodes.size) :
    Unbroken w ((enterNodes w.forgetful h c.nodes is).run s) := by
  induction is generalizing s with
  | nil => exact .pure true
  | cons i rest ih =>
      have rest_within := fun j hj => his j (List.mem_cons_of_mem i hj)
      obtain ⟨n, hn⟩ := Fault.lookup_of_lt (his i List.mem_cons_self)
      have mem := Array.mem_of_getElem? (Fault.lookup_eq_ok_iff.1 hn)
      have arena := sane_arena hs sane
      refine .lift_bind hn ?_
      split
      · exact ih hs sane hl hq rest_within
      · next id hrule =>
        refine .bind (.evaluate (World.samplePos_answers sturdy arena hl (within.positions n mem)))
          fun p s' hp => ?_
        obtain ⟨_, rfl⟩ := evaluate_ok hp
        cases p with
        | error e => exact .pure false
        | ok p =>
            have hid := within.rules trivial n mem id hrule
            refine .bind (enterRule_unbroken sturdy (s := evaluated _ s) arena (fun _ => hq) hid ?_ _ _)
              fun done s' he => ?_
            · rintro _ ⟨⟩
              exact hl
            rcases enterRule_ok (s := evaluated _ s) hs he with ⟨rfl, _⟩ | ⟨rfl, r, x, a, enters⟩
            · exact .pure false
            · have grows := enters.grows (Nat.le_refl _)
              refine ih grows.numbered (enters.sane sturdy.closed hs sane)
                (hl.mono grows.contexts.subset) ?_ rest_within
              rw [grows.cursor]
              exact Nat.lt_of_lt_of_le hq grows.queue

omit sturdy in
/-- Handing on the assignments of a symbol leaves a sane search. -/
theorem sane_assigned {w : World μ} {s : Search μ} (hs : s.arena.Numbered)
    (sane : s.snapshot.Sane w) {sym : Symbol} (within : sym.Within w.grammar.fields.size)
    (hl : s.arena.isLive h = true) : (assigned h sym s).snapshot.Sane w := by
  have arena := (sane_arena hs sane).assign within hl
  have lives := fun {k} => Arena.lives_assign (s := sym) hl (k := k)
  refine ⟨(Arena.grounded_iff arena.numbered).1 arena.ground, arena.contexts, fun t ht => ?_,
    fun p hp => ?_⟩
  · obtain ⟨entry, context, offered, later⟩ := sane.queue t ht
    exact ⟨lives entry, lives context, offered, later⟩
  · obtain ⟨context, component⟩ := sane.placements p hp
    exact ⟨lives context, component⟩

theorem populate_unbroken (hs : s.arena.Numbered) (sane : s.snapshot.Sane w.forgetful)
    (hx : s.arena.get h = .ok x) (hq : s.plan.cursor < s.plan.queue.size) {c : Component}
    (hsym : w.grammar.symbol x.symbol = .ok c.symbol)
    (within : c.Within True w.grammar.fields.size w.grammar.rules.size) (node : Nat) :
    Unbroken w ((populate w.forgetful c h node).run s) := by
  have hl : Lives s.arena.live h := ⟨x, (Arena.mem_live_iff hs).2 hx⟩
  refine .bind (placeAreas_unbroken sturdy (sane_arena hs sane) hl within.areas) fun placed s₁ hp => ?_
  obtain ⟨harena, areas, _, hplan⟩ := placeAreas_ok hp
  cases placed with
  | false => exact .pure false
  | true =>
      have sane₁ : s₁.snapshot.Sane w.forgetful := by
        obtain ⟨ground, contexts, queued, placed⟩ := sane
        refine ⟨?_, ?_, ?_, ?_⟩ <;> simp only [snapshot, harena, hplan] <;> assumption
      rw [← harena] at hs hx hl
      have live := Arena.isLive_of_get hx
      have sane₂ := sane_assigned hs sane₁ (w := w.forgetful) within.symbol live
      have numbered := Arena.numbered_modify hs h fun c' => c'.assign c.symbol
      have hl₂ := Arena.lives_assign (s := c.symbol) live hl
      obtain ⟨y, hy⟩ := hl₂
      refine .step (run_assign hx hsym) (.step (Prod.ext ((Arena.mem_live_iff numbered).1 hy) rfl)
        (.step (SearchM.run_get _) (enterNodes_unbroken sturdy numbered sane₂ ⟨y, hy⟩ ?_ within ?_)))
      · show s₁.plan.cursor < s₁.plan.queue.size
        rw [hplan]
        exact hq
      · exact fun i hi => lt_of_mem_nodeOrder (List.mem_of_mem_filter hi)

omit sturdy in
theorem undo_unbroken (hc : s.plan.checkpoints ≠ []) : Unbroken w ((undo w.forgetful).run s) := by
  refine .step (SearchM.run_get s) ?_
  split
  · contradiction
  · exact .of_ok rfl

theorem placeComponent_unbroken (hs : s.arena.Numbered) (sane : s.snapshot.Sane w.forgetful)
    (hq : s.plan.cursor < s.plan.queue.size) {t : Attempt} (ht : Lives s.arena.live t.context)
    {id : ComponentId} {c : Component} (hc : w.grammar.component id = .ok c) {name : Option String}
    (offered : t.attachment ∈ c.attachments name) :
    Unbroken w ((placeComponent w.forgetful id t).run s) := by
  have arena : s.arena.Sane w.grammar := sane_arena hs sane
  have within := sturdy.closed.components id c hc
  obtain ⟨n, hn⟩ := Component.node_of_mem_attachments offered
  have mem := Array.mem_of_getElem? (Fault.lookup_eq_ok_iff.1 hn)
  refine .lift_bind hc (.lift_bind hn (.bind (.evaluate (World.samplePos_answers sturdy arena ht
    (within.positions n mem))) fun p s' hp => ?_))
  obtain ⟨_, rfl⟩ := evaluate_ok hp
  cases p with
  | error e => exact .pure false
  | ok p =>
      refine .step (run_contextCount _) (guarded_unbroken sturdy (s := evaluated _ s) arena ?_
        (Grammar.symbol_component hc) within.symbol (fun _ => rfl) (fun _ => rfl)
        fun x pushed here hsym => ?_)
      · rintro _ ⟨⟩
        exact ht
      refine .step (run_branchAt _ _) (.bind (.step (Prod.ext here rfl) (.of_ok rfl)) fun _ s' ha => ?_)
      obtain ⟨y, hy, rfl⟩ := accept_ok ha
      refine .bind (populate_unbroken sturdy ?_ ?_ ?_ ?_ hsym within _) fun populated s' hpop => ?_
      · exact pushed.numbered
      · refine sane_of_subset (w := w.forgetful) sane pushed
          (Arena.Keeps.of_append (Arena.live_push hs x)).subset (fun _ hu => .inl hu) fun q hq => ?_
        rcases Array.mem_push.1 hq with hq | rfl
        · exact .inl hq
        · exact .inr ⟨Arena.lives_push hs x, c, hc⟩
      · exact here
      · exact hq
      · have grows := (populate_ok hs rfl hpop).1
        cases populated with
        | true => exact .pure true
        | false =>
            refine .bind (undo_unbroken ?_) fun _ _ _ => .pure false
            rw [grows.checkpoints]
            exact List.cons_ne_nil _ _

theorem replaceRule_unbroken (sane : s.arena.Sane w.grammar)
    (hq : s.plan.cursor < s.plan.queue.size) {t : Attempt} (ht : Lives s.arena.live t.context)
    {id : RuleId} (hid : id < w.grammar.rules.size) :
    Unbroken w ((replaceRule w.forgetful id t).run s) := by
  have opened : (branch : SearchM Unit Unit).run s = (.ok (), branched s.arena.size s) := rfl
  refine .step opened (.bind (enterRule_unbroken sturdy (s := branched _ s) sane (fun _ => hq) hid ?_
    _ _) fun done s' he => ?_)
  · rintro _ ⟨⟩
    exact ht
  cases done with
  | true => exact .pure true
  | false =>
      refine .bind (undo_unbroken ?_) fun _ _ _ => .pure false
      rcases enterRule_ok (s := branched _ s) sane.numbered he with ⟨_, same⟩ | ⟨hdone, _⟩
      · rw [same.plan]
        exact List.cons_ne_nil _ _
      · cases hdone

theorem attempt_unbroken (hs : s.arena.Numbered) (sane : s.snapshot.Sane w.forgetful)
    (hq : s.plan.cursor < s.plan.queue.size) {t : Attempt}
    (ht : t.Sane w.forgetful s.arena.live) : Unbroken w ((attempt w.forgetful t).run s) := by
  obtain ⟨e, offers, he, hoffers, offered⟩ := ht.offered
  have target := (sturdy.closed.expansions _ e he).2
  refine .lift_bind he ?_
  split
  · exact .pure true
  · next id hid =>
    rw [hid] at target
    exact replaceRule_unbroken sturdy (sane_arena hs sane) hq ht.context (target trivial)
  · next id name hid =>
    rw [hid] at target hoffers
    obtain ⟨c, hlookup⟩ := Fault.lookup_of_lt (target trivial)
    have hc : w.forgetful.grammar.component id = .ok c := hlookup
    obtain rfl : c.attachments name = offers := by
      rw [Search.offered, hc] at hoffers
      exact Except.ok.inj hoffers
    exact placeComponent_unbroken sturdy hs sane hq ht.context hc (offered _ List.mem_cons_self)

/-! ### Runs -/

theorem resolve_unbroken (secure : Secure w.forgetful s) {entry : Option Attempt}
    (current : s.plan.queue[s.plan.cursor]? = some entry) :
    Unbroken w ((resolve w.forgetful entry).run s) := by
  have hq : s.plan.cursor < s.plan.queue.size := (Array.getElem?_eq_some_iff.1 current).1
  cases entry with
  | none =>
      obtain ⟨c, rest, hc⟩ := secure.branch (Array.ne_empty_of_size_pos (Nat.zero_lt_of_lt hq))
      exact undo_unbroken (hc ▸ List.cons_ne_nil c rest)
  | some t =>
      have hs := secure.kept.numbered
      have ht := secure.attempt current
      refine .bind (next_unbroken sturdy secure.arena ht) fun following s₁ hnext => ?_
      obtain ⟨grows, hplan⟩ := next_grows hs (Nat.le_refl _) hnext
      have advances : Unbroken w ((attempt w.forgetful t).run (advanced following s₁)) := by
        refine attempt_unbroken sturdy (s := advanced following s₁) grows.numbered
          (advanced_sane (w := w.forgetful) sturdy.closed hs secure.sane ht hnext) ?_ (ht.mono grows.contexts.subset)
        rw [advanced, Array.size_setIfInBounds, hplan]
        exact hq
      refine .step (run_modifyPlan _ _) (.bind advances fun done s₂ _ => ?_)
      cases done with
      | true => exact .of_ok rfl
      | false => exact .pure ()

theorem step_unbroken (secure : Secure w.forgetful s) (limits : Limits) :
    Unbroken w ((step w.forgetful limits).run s) := by
  have counted : Secure w.forgetful (counted s) := secure.replan rfl rfl rfl rfl rfl
  refine .step (SearchM.run_get s) ?_
  dsimp only
  split
  · split
    · exact .of_ok rfl
    · exact .of_ok rfl
  · next entry current =>
    refine .step (run_modifyPlan _ _) (.step (SearchM.run_get _) ?_)
    split
    · exact .of_ok rfl
    · exact .bind (resolve_unbroken sturdy counted current) fun _ _ _ => .pure none

/-- A secure search breaks down for want of an end of its evaluations alone. -/
theorem process_unbroken (secure : Secure w.forgetful s) (limits : Limits) :
    Unbroken w ((process w.forgetful limits).run s) := by
  unfold process
  induction limits.expansions + 1 generalizing s with
  | zero => exact .of_ok rfl
  | succ n ih =>
      refine .bind (step_unbroken sturdy secure limits) fun result s₁ hr => ?_
      cases result with
      | some result => exact .pure result
      | none => exact ih ((step_ok secure.kept.numbered hr).secure sturdy.closed secure)

end

/-! ### Starting over -/

theorem setup_unbroken (sturdy : w.Sturdy) {rule : RuleId} (hrule : rule < w.grammar.rules.size)
    (origin : Pos) (seed : Seed) (s : Search Unit) :
    Unbroken w ((setup w.forgetful rule origin seed).run s) := by
  rw [run_setup]
  have arena := (started_secure w.forgetful origin seed s).arena
  refine .bind (enterRule_unbroken sturdy arena ?_ hrule ?_ _ _) fun _ _ _ => .pure ()
  · exact fun filled => absurd rfl filled
  · rintro _ ⟨⟩

end Search

end VoxelGrammar
