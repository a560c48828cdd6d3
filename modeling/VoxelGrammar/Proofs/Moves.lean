import VoxelGrammar.Proofs.Computation
import VoxelGrammar.Proofs.Contexts

/-!
What each computation of a search has done when it comes to an answer. There is one inversion
lemma for each function, in the order of the program; it says everything that later arguments may
use, so that none of them opens the function again. Whatever depends on remembered values shows up
only as the answer of an evaluation.
-/

namespace VoxelGrammar

variable {μ α β : Type} {w : World μ} {s s' : Search μ}

theorem SearchM.bind_ok {x : SearchM μ α} {f : α → SearchM μ β} {s s'' : Search μ} {b : β}
    (h : (x >>= f).run s = (.ok b, s'')) :
    ∃ a s', x.run s = (.ok a, s') ∧ (f a).run s' = (.ok b, s'') := by
  rw [SearchM.run_bind] at h
  rcases hx : x.run s with ⟨_ | a, s'⟩
  · rw [hx] at h
    cases h
  · rw [hx] at h
    exact ⟨a, s', rfl, h⟩

/-! ### Symbols -/

namespace Grammar

variable {g : Grammar}

theorem symbol_rule {id : RuleId} {r : Rule} (h : g.rule id = .ok r) :
    g.symbol (.rule id) = .ok r.symbol := by
  rw [symbol, h]
  rfl

theorem symbol_expansion {id : ExpansionId} {e : Expansion} (h : g.expansion id = .ok e) :
    g.symbol (.expansion id) = .ok e.symbol := by
  rw [symbol, h]
  rfl

theorem symbol_component {id : ComponentId} {c : Component} (h : g.component id = .ok c) :
    g.symbol (.component id) = .ok c.symbol := by
  rw [symbol, h]
  rfl

/-- Every symbol is that of a rule, an expansion or a component. -/
theorem symbol_induction {P : Symbol → Prop} {ref : SymbolRef} {s : Symbol}
    (rule : ∀ id r, g.rule id = .ok r → P r.symbol)
    (expansion : ∀ id e, g.expansion id = .ok e → P e.symbol)
    (component : ∀ id c, g.component id = .ok c → P c.symbol) (hs : g.symbol ref = .ok s) : P s := by
  cases ref with
  | rule id =>
      cases hr : g.rule id with
      | error f =>
          rw [symbol, hr] at hs
          cases hs
      | ok r =>
          rw [symbol, hr] at hs
          cases hs
          exact rule id r hr
  | expansion id =>
      cases he : g.expansion id with
      | error f =>
          rw [symbol, he] at hs
          cases hs
      | ok e =>
          rw [symbol, he] at hs
          cases hs
          exact expansion id e he
  | component id =>
      cases hc : g.component id with
      | error f =>
          rw [symbol, hc] at hs
          cases hs
      | ok c =>
          rw [symbol, hc] at hs
          cases hs
          exact component id c hc

end Grammar

namespace Search

open SearchM

structure Same (s s' : Search μ) : Prop where
  plan : s'.plan = s.plan
  live : s'.arena.live = s.arena.live
  numbered : s'.arena.Numbered

theorem Same.trans {s₁ s₂ s₃ : Search μ} (h : Same s₁ s₂) (h' : Same s₂ s₃) : Same s₁ s₃ :=
  ⟨h'.plan.trans h.plan, h'.live.trans h.live, h'.numbered⟩

theorem Same.size (h : Same s s') : s'.arena.size = s.arena.size := by
  rw [← Arena.length_live, h.live, Arena.length_live]

/-- Going back to the contexts there were before one was entered. -/
theorem same_truncate_push (hs : s.arena.Numbered) (x : Context) (m : μ) :
    Same s ⟨(s.arena.push x).2.truncate s.arena.size, m, s.plan⟩ := by
  refine ⟨rfl, ?_, Arena.numbered_truncate (Arena.numbered_push hs x) _⟩
  rw [Arena.live_truncate, Arena.live_push hs, ← Arena.length_live, List.take_left]

/-- A state that has grown: what there was is still there, the first `n` contexts included, and
the same branches are open. -/
structure Grows (n : Nat) (s s' : Search μ) : Prop where
  contexts : s.arena.Keeps n s'.arena
  numbered : s'.arena.Numbered
  areas : s.plan.areas.toList <+: s'.plan.areas.toList
  placements : s.plan.placements.toList <+: s'.plan.placements.toList
  queue : s.plan.queue.size ≤ s'.plan.queue.size
  cursor : s'.plan.cursor = s.plan.cursor
  checkpoints : s'.plan.checkpoints = s.plan.checkpoints
  expansions : s'.plan.expansions = s.plan.expansions
  seed : s'.plan.seed = s.plan.seed
  solved : s'.plan.solved = s.plan.solved

theorem Grows.trans {n : Nat} {s₁ s₂ s₃ : Search μ} (h : Grows n s₁ s₂) (h' : Grows n s₂ s₃) :
    Grows n s₁ s₃ where
  contexts := h.contexts.trans h'.contexts
  numbered := h'.numbered
  areas := h.areas.trans h'.areas
  placements := h.placements.trans h'.placements
  queue := Nat.le_trans h.queue h'.queue
  cursor := h'.cursor.trans h.cursor
  checkpoints := h'.checkpoints.trans h.checkpoints
  expansions := h'.expansions.trans h.expansions
  seed := h'.seed.trans h.seed
  solved := h'.solved.trans h.solved

theorem Grows.mono {m n : Nat} (hmn : m ≤ n) (h : Grows n s s') : Grows m s s' :=
  { h with contexts := h.contexts.mono hmn }

/-- What grows keeps its live contexts, in front of the new ones. -/
theorem Grows.isPrefix (h : Grows s.arena.size s s') : s.arena.live <+: s'.arena.live := by
  have kept := h.contexts.live
  rw [← Arena.length_live, List.take_length] at kept
  rw [← kept]
  exact List.take_prefix _ _

theorem Same.grows {n : Nat} (hn : n ≤ s.arena.size) (h : Same s s') : Grows n s s' := by
  refine ⟨⟨h.size ▸ hn, by rw [h.live]⟩, h.numbered, ?_, ?_, ?_, ?_, ?_, ?_, ?_, ?_⟩ <;>
    simp [h.plan]

/-! ### Evaluations and contexts -/

theorem lift_bind_ok {x : Except Fault α} {f : α → SearchM μ β} {b : β}
    (hr : (liftM x >>= f).run s = (.ok b, s')) :
    ∃ v, x = .ok v ∧ (f v).run s = (.ok b, s') := by
  obtain ⟨v, s₁, hx, h⟩ := bind_ok hr
  rw [run_lift, Prod.mk.injEq] at hx
  obtain ⟨rfl, rfl⟩ := hx
  exact ⟨v, rfl, h⟩

theorem context_bind_ok {h : Handle} {f : Context → SearchM μ β} {b : β}
    (hr : (context h >>= f).run s = (.ok b, s')) :
    ∃ x, s.arena.get h = .ok x ∧ (f x).run s = (.ok b, s') := lift_bind_ok hr

def evaluated (x : Arena → Eval μ α) (s : Search μ) : Search μ :=
  { s with memory := ((x s.arena).run s.memory).2 }

theorem evaluate_ok {x : Arena → Eval μ α} {r : Except GrammarError α}
    (hr : (evaluate x).run s = (.ok r, s')) :
    ((x s.arena).run s.memory).1 = r.mapError .grammar ∧ s' = evaluated x s := by
  simp only [evaluate, ExceptT.run_mk] at hr
  rcases hv : (x s.arena).run s.memory with ⟨(e | e) | v, m⟩ <;> rw [hv] at hr
  · cases hr
    exact ⟨rfl, by rw [evaluated, hv]⟩
  · cases hr
  · cases hr
    exact ⟨rfl, by rw [evaluated, hv]⟩

theorem evaluate_bind_ok {x : Arena → Eval μ α} {f : Except GrammarError α → SearchM μ β} {b : β}
    (hr : (evaluate x >>= f).run s = (.ok b, s')) :
    ∃ r, ((x s.arena).run s.memory).1 = r.mapError .grammar ∧
      (f r).run (evaluated x s) = (.ok b, s') := by
  obtain ⟨r, s₁, hx, h⟩ := bind_ok hr
  obtain ⟨hv, rfl⟩ := evaluate_ok hx
  exact ⟨r, hv, h⟩

def looked (w : World μ) (h : Handle) (cs : List FieldId) (s : Search μ) : Search μ :=
  evaluated (fun a => w.holds a h cs) s

theorem meets_ok {h : Handle} {cs : List FieldId} {b : Bool}
    (hr : (meets w h cs).run s = (.ok b, s')) :
    (b = true → ((w.holds s.arena h cs).run s.memory).1 = .ok true) ∧ s' = looked w h cs s := by
  obtain ⟨r, hv, hm⟩ := evaluate_bind_ok hr
  cases r with
  | error e =>
      cases hm
      exact ⟨by simp, rfl⟩
  | ok v =>
      cases hm
      exact ⟨fun hb => by rw [hv, hb]; rfl, rfl⟩

theorem meets_bind_ok {h : Handle} {cs : List FieldId} {f : Bool → SearchM μ β} {b : β}
    (hr : (meets w h cs >>= f).run s = (.ok b, s')) :
    ∃ holds, (holds = true → ((w.holds s.arena h cs).run s.memory).1 = .ok true) ∧
      (f holds).run (looked w h cs s) = (.ok b, s') := by
  obtain ⟨holds, s₁, hm, h⟩ := bind_ok hr
  obtain ⟨hb, rfl⟩ := meets_ok hm
  exact ⟨holds, hb, h⟩

def entered (w : World μ) (x : Context) (s : Search μ) : Search μ :=
  { s with arena := (s.arena.push x).2, memory := w.notebook.addPage s.memory }

theorem enter_ok {parent : Option Handle} {ref : SymbolRef} {placement : Transform}
    {r : Except GrammarError Handle} (hr : (enter w parent ref placement).run s = (.ok r, s')) :
    (∃ e, r = .error e ∧ s' = s) ∨
      ∃ x, s.arena.prepare w.grammar parent ref placement s.plan.seed = .ok x ∧
        r = .ok (s.arena.push x).1 ∧ s' = entered w x s := by
  simp only [enter, run_bind, run_get, Arena.create] at hr
  rcases hp : s.arena.prepare w.grammar parent ref placement s.plan.seed with (e | e) | x <;>
    rw [hp] at hr
  · cases hr
    exact .inl ⟨e, rfl, rfl⟩
  · cases hr
  · cases hr
    exact .inr ⟨x, rfl, rfl, rfl⟩

theorem enter_bind_ok {parent : Option Handle} {ref : SymbolRef} {placement : Transform}
    {f : Except GrammarError Handle → SearchM μ β} {b : β}
    (hr : (enter w parent ref placement >>= f).run s = (.ok b, s')) :
    (∃ e, (f (.error e)).run s = (.ok b, s')) ∨
      ∃ x, s.arena.prepare w.grammar parent ref placement s.plan.seed = .ok x ∧
        (f (.ok (s.arena.push x).1)).run (entered w x s) = (.ok b, s') := by
  obtain ⟨r, s₁, he, h⟩ := bind_ok hr
  rcases enter_ok he with ⟨e, rfl, rfl⟩ | ⟨x, hp, rfl, rfl⟩
  · exact .inl ⟨e, h⟩
  · exact .inr ⟨x, hp, h⟩

theorem entered_grows {x : Context} (hs : s.arena.Numbered) :
    Grows s.arena.size s (entered w x s) :=
  ⟨.of_append (Arena.live_push hs x), Arena.numbered_push hs x, List.prefix_refl _,
    List.prefix_refl _, Nat.le_refl _, rfl, rfl, rfl, rfl, rfl⟩

/-- A context is entered; if that is refused, or the conditions do not hold there, nothing is left of it
and the answer is `gone`. Otherwise it is all up to `k`. -/
theorem guarded_ok {parent : Option Handle} {ref : SymbolRef} {placement : Transform}
    {cs : List FieldId} {f : Except GrammarError Handle → SearchM μ β} {k : Handle → SearchM μ β}
    {gone b : β} (hs : s.arena.Numbered) (refused : ∀ e, f (.error e) = pure gone)
    (created : ∀ h, f (.ok h) = do
      if ← meets w h cs then k h
      else
        truncateContexts w s.arena.size
        return gone)
    (hr : (enter w parent ref placement >>= f).run s = (.ok b, s')) :
    (b = gone ∧ Same s s') ∨
      ∃ x, s.arena.prepare w.grammar parent ref placement s.plan.seed = .ok x ∧
        (∃ m, ((w.holds (s.arena.push x).2 (s.arena.push x).1 cs).run m).1 = .ok true) ∧
        (k (s.arena.push x).1).run (looked w (s.arena.push x).1 cs (entered w x s)) =
          (.ok b, s') := by
  rcases enter_bind_ok hr with ⟨e, hr⟩ | ⟨x, hp, hr⟩
  · rw [refused] at hr
    cases hr
    exact .inl ⟨rfl, rfl, rfl, hs⟩
  · rw [created] at hr
    obtain ⟨holds, hh, hr⟩ := meets_bind_ok hr
    cases holds with
    | false =>
        cases hr
        exact .inl ⟨rfl, same_truncate_push hs x _⟩
    | true => exact .inr ⟨x, hp, ⟨_, hh rfl⟩, hr⟩

def assigned (h : Handle) (symbol : Symbol) (s : Search μ) : Search μ :=
  { s with arena := s.arena.assign h symbol }

theorem assign_bind_ok {h : Handle} {f : Unit → SearchM μ β} {b : β}
    (hr : (assign w h >>= f).run s = (.ok b, s')) :
    ∃ x symbol, s.arena.get h = .ok x ∧ w.grammar.symbol x.symbol = .ok symbol ∧
      (f ()).run (assigned h symbol s) = (.ok b, s') := by
  obtain ⟨_, s₁, ha, hf⟩ := bind_ok hr
  unfold assign at ha
  obtain ⟨x, hx, ha⟩ := context_bind_ok ha
  obtain ⟨symbol, hs, ha⟩ := lift_bind_ok ha
  cases ha
  exact ⟨x, symbol, hx, hs, hf⟩

/-! ### Attempts -/

/-- `b` has one more context than `a`, that of a symbol whose conditions hold there. -/
structure Opens (w : World μ) (seed : Seed) (a : Arena) (parent : Option Handle) (ref : SymbolRef)
    (placement : Transform) (x : Context) (sym : Symbol) (b : Arena) : Prop where
  prepared : a.prepare w.grammar parent ref placement seed = .ok x
  symbol : w.grammar.symbol ref = .ok sym
  holds : ∃ m, ((w.holds (a.push x).2 (a.push x).1 sym.conditions).run m).1 = .ok true
  live : b.live = a.live ++ [((a.push x).1, x.assign sym)]
  numbered : b.Numbered

theorem Opens.grows {seed : Seed} {parent : Option Handle} {ref : SymbolRef}
    {placement : Transform} {x : Context} {sym : Symbol} {n : Nat}
    (h : Opens w seed s.arena parent ref placement x sym s'.arena) (hn : n ≤ s.arena.size)
    (hp : s'.plan = s.plan) : Grows n s s' := by
  have kept := (Arena.Keeps.of_append h.live).mono hn
  refine ⟨kept, h.numbered, ?_, ?_, ?_, ?_, ?_, ?_, ?_, ?_⟩ <;> simp [hp]

structure OpensCandidate (w : World μ) (entry : RuleEntry) (c : Candidate)
    (later : List Candidate) (s : Search μ) (e : Expansion) (x : Context) (a : Attempt)
    (s' : Search μ) : Prop where
  expansion : w.grammar.expansion c.expansion = .ok e
  opens : Opens w s.plan.seed s.arena (some entry.context) (.expansion c.expansion) .identity x
    e.symbol s'.arena
  attachments : ∃ offers, offered w e.target = .ok offers ∧
    ordered e.target x.seed offers = a.attachment :: a.alternatives
  attempt : a = ⟨entry, c, (s.arena.push x).1, a.attachment, a.alternatives, later⟩
  plan : s'.plan = s.plan

theorem openCandidate_ok {entry : RuleEntry} {c : Candidate} {later : List Candidate}
    {r : Option Attempt} (hs : s.arena.Numbered)
    (hr : (openCandidate w entry c later).run s = (.ok r, s')) :
    (r = none ∧ Same s s') ∨ ∃ a e x, r = some a ∧ OpensCandidate w entry c later s e x a s' := by
  unfold openCandidate at hr
  obtain ⟨e, he, hr⟩ := lift_bind_ok hr
  rw [run_bind, run_contextCount] at hr
  rcases guarded_ok hs (fun _ => rfl) (fun _ => rfl) hr with gone | ⟨x, hp, hh, hr⟩
  · exact .inl gone
  obtain ⟨y, hy, hr⟩ := context_bind_ok hr
  obtain rfl : x = y := Arena.eq_of_get_push hs hy
  obtain ⟨offers, ho, hr⟩ := lift_bind_ok hr
  split at hr
  · cases hr
    exact .inl ⟨rfl, same_truncate_push hs x _⟩
  · next at_ alternatives hat =>
    obtain ⟨z, symbol, hz, hsym, hr⟩ := assign_bind_ok hr
    obtain rfl : x = z := Arena.eq_of_get_push hs hz
    have hsymbol := Grammar.symbol_expansion he
    rw [Arena.symbol_of_prepare hp, hsymbol] at hsym
    cases hsym
    cases hr
    refine .inr ⟨_, e, x, rfl, he, ⟨hp, hsymbol, hh, ?_, ?_⟩, ⟨offers, ho, hat⟩, rfl, rfl⟩
    · exact Arena.live_assign_push hs x e.symbol
    · exact Arena.numbered_modify (Arena.numbered_push hs x) _ _

/-- The attempt `a` is the first one of a list of candidates; those before its own came to
nothing. -/
def OpensFirst (w : World μ) (entry : RuleEntry) (candidates : List Candidate) (s : Search μ)
    (a : Attempt) (s' : Search μ) : Prop :=
  ∃ s₁ c later e x, Same s s₁ ∧ c :: later <:+ candidates ∧
    OpensCandidate w entry c later s₁ e x a s'

theorem openFirst_ok {entry : RuleEntry} {candidates : List Candidate} {r : Option Attempt}
    (hs : s.arena.Numbered) (hr : (openFirst w entry candidates).run s = (.ok r, s')) :
    (r = none ∧ Same s s') ∨ ∃ a, r = some a ∧ OpensFirst w entry candidates s a s' := by
  induction candidates generalizing s with
  | nil =>
      cases hr
      exact .inl ⟨rfl, rfl, rfl, hs⟩
  | cons c later ih =>
      unfold openFirst at hr
      obtain ⟨first, s₁, hc, hr⟩ := bind_ok hr
      rcases openCandidate_ok hs hc with ⟨rfl, same⟩ | ⟨a, e, x, rfl, opens⟩
      · rcases ih same.numbered hr with ⟨rfl, same'⟩ | ⟨a, rfl, s₂, d, rest, e, x, same', hd, opens⟩
        · exact .inl ⟨rfl, same.trans same'⟩
        · exact .inr ⟨a, rfl, s₂, d, rest, e, x, same.trans same', hd.trans (List.suffix_cons c later),
            opens⟩
      · cases hr
        exact .inr ⟨a, rfl, s, c, later, e, x, ⟨rfl, rfl, hs⟩, List.suffix_refl _, opens⟩

inductive Follows (w : World μ) (a : Attempt) (s : Search μ) (b : Attempt) (s' : Search μ) : Prop
  | alternative (first : a.alternatives = b.attachment :: b.alternatives)
    (attempt : b = { a with attachment := b.attachment, alternatives := b.alternatives })
    (same : s' = s)
  | candidate (opens : OpensFirst w a.entry a.later s b s')

theorem next_ok {a : Attempt} {r : Option Attempt} (hs : s.arena.Numbered)
    (hr : (next w a).run s = (.ok r, s')) :
    (r = none ∧ Same s s') ∨ ∃ b, r = some b ∧ Follows w a s b s' := by
  unfold next at hr
  split at hr
  · next b rest hb =>
    cases hr
    exact .inr ⟨_, rfl, .alternative hb rfl rfl⟩
  · rcases openFirst_ok hs hr with ⟨rfl, same⟩ | ⟨b, rfl, opens⟩
    · exact .inl ⟨rfl, same⟩
    · exact .inr ⟨b, rfl, .candidate opens⟩

theorem OpensFirst.grows {entry : RuleEntry} {candidates : List Candidate} {a : Attempt} {n : Nat}
    (h : OpensFirst w entry candidates s a s') (hn : n ≤ s.arena.size) : Grows n s s' := by
  obtain ⟨s₁, c, later, e, x, same, _, opens⟩ := h
  exact (same.grows hn).trans (opens.opens.grows (same.size ▸ hn) opens.plan)

theorem OpensFirst.plan {entry : RuleEntry} {candidates : List Candidate} {a : Attempt}
    (h : OpensFirst w entry candidates s a s') : s'.plan = s.plan := by
  obtain ⟨s₁, c, later, e, x, same, _, opens⟩ := h
  exact opens.plan.trans same.plan

/-- Looking for the next attempt changes nothing but the contexts, of which it may add one. -/
theorem next_grows {a : Attempt} {r : Option Attempt} {n : Nat} (hs : s.arena.Numbered)
    (hn : n ≤ s.arena.size) (hr : (next w a).run s = (.ok r, s')) :
    Grows n s s' ∧ s'.plan = s.plan := by
  rcases next_ok hs hr with ⟨_, same⟩ | ⟨b, _, follows⟩
  · exact ⟨same.grows hn, same.plan⟩
  · cases follows with
    | alternative _ _ same =>
        subst same
        exact ⟨Same.grows hn ⟨rfl, rfl, hs⟩, rfl⟩
    | candidate opens => exact ⟨opens.grows hn, opens.plan⟩

/-! ### Entering rules -/

/-- The queue `q` is that of a plan with one more entry, right after the current one or at the
end. -/
def Queued (p : Plan) (a : Attempt) (q : Queue) : Prop :=
  p.cursor + 1 ≤ p.queue.size ∧ q = p.queue.insertIdxIfInBounds (p.cursor + 1) (some a) ∨
    q = p.queue.push (some a)

theorem enqueue_ok {atOnce : Bool} {a : Attempt} (hr : (enqueue atOnce a).run s = (.ok (), s')) :
    ∃ q, Queued s.plan a q ∧ s' = { s with plan := { s.plan with queue := q } } := by
  unfold enqueue at hr
  rw [run_bind, run_get] at hr
  dsimp only at hr
  split at hr
  · split at hr
    · next hle =>
      cases hr
      exact ⟨_, .inl ⟨hle, rfl⟩, rfl⟩
    · cases hr
  · cases hr
    exact ⟨_, .inr rfl, rfl⟩

/-- At the end of the queue, the new entry comes next either way. -/
theorem Queued.next {p : Plan} {a : Attempt} {q : Queue} (h : Queued p a q)
    (last : p.queue.size = p.cursor + 1) : q[p.cursor + 1]? = some (some a) := by
  rcases h with ⟨hle, rfl⟩ | rfl
  · rw [Array.insertIdxIfInBounds, dif_pos hle, Array.getElem?_insertIdx_self]
  · rw [← last, Array.getElem?_push_size]

theorem Queued.size {p : Plan} {a : Attempt} {q : Queue} (h : Queued p a q) :
    q.size = p.queue.size + 1 := by
  rcases h with ⟨hle, rfl⟩ | rfl
  · rw [Array.insertIdxIfInBounds, dif_pos hle, Array.size_insertIdx]
  · rw [Array.size_push]

/-- The rule `r` has been entered in the context `x`, and its first attempt `a` has been queued. -/
structure EntersRule (w : World μ) (id : RuleId) (origin : Pos) (orientation : Orientation)
    (parent : Option Handle) (s : Search μ) (r : Rule) (x : Context) (a : Attempt)
    (s' : Search μ) : Prop where
  rule : w.grammar.rule id = .ok r
  opens : ∃ s₁ s₂, Opens w s.plan.seed s.arena parent (.rule id) (.shift origin) x r.symbol s₁.arena ∧
    s₁.plan = s.plan ∧
    OpensFirst w ⟨orientation, (s.arena.push x).1⟩ (r.candidates (Seed.hash candidateSalt x.seed))
      s₁ a s₂ ∧
    s'.arena = s₂.arena
  queued : ∃ q, Queued s.plan a q ∧ s'.plan = { s.plan with queue := q }

/-- Entering a rule accepts nothing. -/
theorem EntersRule.accepted {id : RuleId} {origin : Pos} {orientation : Orientation}
    {parent : Option Handle} {r : Rule} {x : Context} {a : Attempt}
    (h : EntersRule w id origin orientation parent s r x a s') :
    s'.plan.placements = s.plan.placements ∧ s'.plan.areas = s.plan.areas := by
  obtain ⟨q, _, hplan⟩ := h.queued
  rw [hplan]
  exact ⟨rfl, rfl⟩

theorem EntersRule.grows {id : RuleId} {origin : Pos} {orientation : Orientation}
    {parent : Option Handle} {r : Rule} {x : Context} {a : Attempt} {n : Nat}
    (h : EntersRule w id origin orientation parent s r x a s') (hn : n ≤ s.arena.size) :
    Grows n s s' := by
  obtain ⟨s₁, s₂, opens, hp, first, ha⟩ := h.opens
  obtain ⟨q, hq, hplan⟩ := h.queued
  have grows := (opens.grows hn hp).trans (first.grows (opens.grows hn hp).contexts.le)
  refine ⟨ha ▸ grows.contexts, ha ▸ grows.numbered, ?_, ?_, ?_, ?_, ?_, ?_, ?_, ?_⟩ <;>
    simp [hplan, hq.size]

theorem enterRule_ok {id : RuleId} {origin : Pos} {orientation : Orientation}
    {parent : Option Handle} {b : Bool} (hs : s.arena.Numbered)
    (hr : (enterRule w id origin orientation parent).run s = (.ok b, s')) :
    (b = false ∧ Same s s') ∨
      b = true ∧ ∃ r x a, EntersRule w id origin orientation parent s r x a s' := by
  unfold enterRule at hr
  obtain ⟨r, hrule, hr⟩ := lift_bind_ok hr
  rw [run_bind, run_contextCount] at hr
  rcases guarded_ok hs (fun _ => rfl) (fun _ => rfl) hr with gone | ⟨x, hp, hh, hr⟩
  · exact .inl gone
  obtain ⟨y, hy, hr⟩ := context_bind_ok hr
  obtain rfl : x = y := Arena.eq_of_get_push hs hy
  dsimp only at hr
  split at hr
  · cases hr
    exact .inl ⟨rfl, same_truncate_push hs x _⟩
  · next candidates hne =>
    obtain ⟨z, sym, hz, hsym, hr⟩ := assign_bind_ok hr
    obtain rfl : x = z := Arena.eq_of_get_push hs hz
    have hsymbol := Grammar.symbol_rule hrule
    rw [Arena.symbol_of_prepare hp] at hsym
    cases hsymbol.symm.trans hsym
    have opens : Opens w s.plan.seed s.arena parent (.rule id) (.shift origin) x r.symbol
        (assigned (s.arena.push x).1 r.symbol (looked w (s.arena.push x).1
          r.symbol.conditions (entered w x s))).arena :=
      ⟨hp, hsymbol, hh, Arena.live_assign_push hs x r.symbol,
        Arena.numbered_modify (Arena.numbered_push hs x) _ _⟩
    obtain ⟨first, s₂, hf, hr⟩ := bind_ok hr
    rcases openFirst_ok opens.numbered hf with ⟨rfl, same⟩ | ⟨a, rfl, first⟩
    · cases hr
      refine .inl ⟨rfl, same.plan, ?_, Arena.numbered_truncate same.numbered _⟩
      rw [Arena.live_truncate, same.live, opens.live, ← Arena.length_live, List.take_left]
    · obtain ⟨_, s₃, he, hr⟩ := bind_ok hr
      obtain ⟨q, hq, rfl⟩ := enqueue_ok he
      cases hr
      have hplan : s₂.plan = s.plan := first.plan
      refine .inr ⟨rfl, r, x, a, hrule, ⟨_, s₂, opens, rfl, first, rfl⟩, q, hplan ▸ hq, ?_⟩
      rw [hplan]

/-! ### Placing components -/

/-- Areas that get on with those recorded before have been recorded, one after the other, unless
they are virtual. -/
inductive PlacesAreas (w : World μ) (a : Arena) (h : Handle) :
    List AreaSpec → Array Area → Array Area → Prop
  | nil (areas : Array Area) : PlacesAreas w a h [] areas areas
  | cons {spec : AreaSpec} {rest : List AreaSpec} {areas areas' : Array Area} {area : Area}
      (described : ∃ m, ((areaOf w a h spec).run m).1 = .ok area)
      (admitted : admits spec.policy areas area = true)
      (others : PlacesAreas w a h rest (if spec.virtualOnly then areas else areas.push area) areas') :
      PlacesAreas w a h (spec :: rest) areas areas'

theorem placeAreas_ok {h : Handle} {specs : List AreaSpec} {b : Bool}
    (hr : (placeAreas w h specs).run s = (.ok b, s')) :
    s'.arena = s.arena ∧
      ∃ areas, s.plan.areas.toList <+: areas.toList ∧ s'.plan = { s.plan with areas := areas } := by
  induction specs generalizing s with
  | nil =>
      cases hr
      exact ⟨rfl, _, List.prefix_refl _, rfl⟩
  | cons spec rest ih =>
      unfold placeAreas at hr
      obtain ⟨r, _, hr⟩ := evaluate_bind_ok hr
      cases r with
      | error e =>
          cases hr
          exact ⟨rfl, _, List.prefix_refl _, rfl⟩
      | ok a =>
          rw [run_bind, run_get] at hr
          dsimp only at hr
          split at hr
          · split at hr
            · have kept := ih hr
              exact kept
            · obtain ⟨ha, areas, hareas, hp⟩ := ih hr
              refine ⟨ha, areas, List.IsPrefix.trans ?_ hareas, hp⟩
              simp [evaluated]
          · cases hr
            exact ⟨rfl, _, List.prefix_refl _, rfl⟩

theorem placeAreas_places {h : Handle} {specs : List AreaSpec}
    (hr : (placeAreas w h specs).run s = (.ok true, s')) :
    PlacesAreas w s.arena h specs s.plan.areas s'.plan.areas := by
  induction specs generalizing s with
  | nil =>
      cases hr
      exact .nil _
  | cons spec rest ih =>
      unfold placeAreas at hr
      obtain ⟨r, described, hr⟩ := evaluate_bind_ok hr
      cases r with
      | error e => cases hr
      | ok area =>
          rw [run_bind, run_get] at hr
          dsimp only at hr
          split at hr
          · next admitted =>
            refine .cons ⟨_, described⟩ admitted ?_
            split at hr
            · next virtual =>
              have others := ih hr
              rwa [if_pos virtual]
            · next virtual =>
              have others := ih hr
              rwa [if_neg virtual]
          · cases hr

inductive EntersNodes (w : World μ) (h : Handle) (nodes : Array Node) :
    List Nat → Search μ → Search μ → Prop
  | nil {s s' : Search μ} (same : Same s s') : EntersNodes w h nodes [] s s'
  | skip {s s' : Search μ} {i : Nat} {rest : List Nat} {n : Node} (node : nodes[i]? = some n)
      (rule : n.rule = none) (others : EntersNodes w h nodes rest s s') :
      EntersNodes w h nodes (i :: rest) s s'
  | enter {s s₁ s' : Search μ} {i : Nat} {rest : List Nat} {n : Node} {id : RuleId} {p : Pos}
      {r : Rule} {x : Context} {a : Attempt} (node : nodes[i]? = some n) (rule : n.rule = some id)
      (position : ∃ m, ((w.samplePos s.arena h n.position).run m).1 = .ok p)
      (enters : EntersRule w id p n.orientation (some h) s r x a s₁)
      (others : EntersNodes w h nodes rest s₁ s') : EntersNodes w h nodes (i :: rest) s s'

theorem EntersNodes.grows {h : Handle} {nodes : Array Node} {is : List Nat} {n : Nat}
    (he : EntersNodes w h nodes is s s') (hn : n ≤ s.arena.size) : Grows n s s' := by
  induction he with
  | nil same => exact same.grows hn
  | skip _ _ _ ih => exact ih hn
  | enter _ _ _ enters _ ih =>
      have grows := enters.grows hn
      exact grows.trans (ih grows.contexts.le)

theorem EntersNodes.accepted {h : Handle} {nodes : Array Node} {is : List Nat}
    (he : EntersNodes w h nodes is s s') :
    s'.plan.placements = s.plan.placements ∧ s'.plan.areas = s.plan.areas := by
  induction he with
  | nil same => rw [same.plan]; exact ⟨rfl, rfl⟩
  | skip _ _ _ ih => exact ih
  | enter _ _ _ enters _ ih =>
      rw [ih.1, ih.2, enters.accepted.1, enters.accepted.2]
      exact ⟨rfl, rfl⟩

theorem enterNodes_ok {h : Handle} {nodes : Array Node} {is : List Nat} {b : Bool}
    (hs : s.arena.Numbered) (hr : (enterNodes w h nodes is).run s = (.ok b, s')) :
    Grows s.arena.size s s' ∧ (b = true → EntersNodes w h nodes is s s') := by
  induction is generalizing s with
  | nil =>
      cases hr
      exact ⟨Same.grows (Nat.le_refl _) ⟨rfl, rfl, hs⟩, fun _ => .nil ⟨rfl, rfl, hs⟩⟩
  | cons i rest ih =>
      unfold enterNodes at hr
      obtain ⟨n, hn, hr⟩ := lift_bind_ok hr
      have hnode := Fault.lookup_eq_ok_iff.1 hn
      split at hr
      · next hrule =>
        obtain ⟨grows, enters⟩ := ih hs hr
        exact ⟨grows, fun hb => .skip hnode hrule (enters hb)⟩
      · next id hrule =>
        obtain ⟨p, hp, hr⟩ := evaluate_bind_ok hr
        cases p with
        | error e =>
            cases hr
            exact ⟨Same.grows (Nat.le_refl _) ⟨rfl, rfl, hs⟩, fun hb => nomatch hb⟩
        | ok p =>
            obtain ⟨done, s₁, he, hr⟩ := bind_ok hr
            rcases enterRule_ok (s := evaluated _ s) hs he with ⟨rfl, same⟩ | ⟨rfl, r, x, a, enters⟩
            · cases hr
              exact ⟨Same.grows (Nat.le_refl _) ⟨same.plan, same.live, same.numbered⟩,
                fun hb => nomatch hb⟩
            · have enters : EntersRule w id p n.orientation (some h) s r x a s₁ :=
                ⟨enters.rule, enters.opens, enters.queued⟩
              have grows := enters.grows (Nat.le_refl _)
              obtain ⟨grows', others⟩ := ih grows.numbered hr
              exact ⟨grows.trans (grows'.mono grows.contexts.le),
                fun hb => .enter hnode hrule ⟨_, hp⟩ enters (others hb)⟩

theorem populate_ok {c : Component} {node : Nat} {b : Bool} {a : Arena} {x : Context}
    (ha : a.Numbered) (hs : s.arena = (a.push x).2)
    (hr : (populate w c (a.push x).1 node).run s = (.ok b, s')) :
    Grows a.size s s' ∧ (b = true → ∃ sym s₁ areas, w.grammar.symbol x.symbol = .ok sym ∧
      s₁.arena.live = a.live ++ [((a.push x).1, x.assign sym)] ∧ s₁.arena.Numbered ∧
      s.plan.areas.toList <+: areas.toList ∧ s₁.plan = { s.plan with areas := areas } ∧
      PlacesAreas w (a.push x).2 (a.push x).1 c.areas s.plan.areas areas ∧
      EntersNodes w (a.push x).1 c.nodes
        ((nodeOrder c.nodes x.seed s.plan.seed).filter (· ≠ node)) s₁ s') := by
  have hlast : s.arena.Numbered := hs ▸ Arena.numbered_push ha x
  have hsize : a.size ≤ s.arena.size := by
    rw [hs, Arena.size_push]
    omega
  unfold populate at hr
  obtain ⟨placed, s₁, hareas, hr⟩ := bind_ok hr
  obtain ⟨harena, areas, more, hplan⟩ := placeAreas_ok hareas
  have grows : Grows a.size s s₁ := by
    refine ⟨⟨harena ▸ hsize, by rw [harena]⟩, harena ▸ hlast, ?_, ?_, ?_, ?_, ?_, ?_, ?_, ?_⟩ <;>
      simp [hplan, more]
  cases placed with
  | false =>
      cases hr
      exact ⟨grows, fun hb => nomatch hb⟩
  | true =>
      obtain ⟨y, sym, hy, hsym, hr⟩ := assign_bind_ok hr
      obtain rfl : x = y := Arena.eq_of_get_push ha (hs ▸ harena ▸ hy)
      have hnum : (assigned (a.push x).1 sym s₁).arena.Numbered :=
        Arena.numbered_modify grows.numbered _ _
      have hlive : (assigned (a.push x).1 sym s₁).arena.live =
          a.live ++ [((a.push x).1, x.assign sym)] := by
        rw [assigned, harena, hs]
        exact Arena.live_assign_push ha x sym
      obtain ⟨z, hz, hr⟩ := context_bind_ok hr
      have hseed : z.seed = x.seed := by
        rw [Arena.get_eq_ok_iff hnum, hlive] at hz
        simp at hz
        rw [← hz]
        rfl
      rw [run_bind, run_get] at hr
      obtain ⟨grows', enters⟩ := enterNodes_ok hnum hr
      have hgrows : Grows a.size s₁ (assigned (a.push x).1 sym s₁) := by
        have kept := Arena.Keeps.of_append hlive
        refine ⟨⟨kept.le, ?_⟩, hnum, List.prefix_refl _, List.prefix_refl _, Nat.le_refl _, rfl, rfl,
          rfl, rfl, rfl⟩
        rw [kept.live, harena, hs, (Arena.Keeps.of_append (Arena.live_push ha x)).live]
      refine ⟨(grows.trans hgrows).trans (grows'.mono hgrows.contexts.le), fun hb => ?_⟩
      have places : PlacesAreas w s.arena (a.push x).1 c.areas s.plan.areas s₁.plan.areas :=
        placeAreas_places hareas
      rw [hs, hplan] at places
      refine ⟨sym, _, areas, hsym, hlive, hnum, more, hplan, places, ?_⟩
      have seeds : s₁.plan.seed = s.plan.seed := grows.seed
      rw [← hseed, ← seeds]
      exact enters hb

/-! ### Branches -/

def branched (n : Nat) (s : Search μ) : Search μ :=
  { s with plan := { s.plan with checkpoints :=
    ⟨s.plan.areas.size, s.plan.placements.size, n, s.plan.cursor, s.plan.queue⟩ ::
      s.plan.checkpoints } }

def undone (w : World μ) (c : Checkpoint) (rest : List Checkpoint) (s : Search μ) : Search μ where
  arena := s.arena.truncate c.contexts
  memory := w.notebook.truncate s.memory c.contexts
  plan := { s.plan with
    areas := s.plan.areas.take c.areas
    placements := s.plan.placements.take c.placements
    queue := c.queue
    cursor := c.cursor
    checkpoints := rest }

theorem undo_ok (hr : (undo w).run s = (.ok (), s')) :
    ∃ c rest, s.plan.checkpoints = c :: rest ∧ s' = undone w c rest s := by
  unfold undo at hr
  rw [run_bind, run_get] at hr
  dsimp only at hr
  split at hr
  · cases hr
  · next c rest hc =>
    cases hr
    exact ⟨c, rest, hc, rfl⟩

theorem run_undo {c : Checkpoint} {rest : List Checkpoint} (hc : s.plan.checkpoints = c :: rest) :
    (undo w).run s = (.ok (), undone w c rest s) := by
  unfold undo
  rw [run_bind, run_get]
  dsimp only
  rw [hc]
  rfl

theorem take_size_eq {xs ys : Array α} (h : xs.toList <+: ys.toList) :
    ys.take xs.size = xs := by
  apply Array.toList_inj.1
  rw [Array.take, Array.toList_extract]
  simpa using (List.prefix_iff_eq_take.1 h).symm

/-- Undoing a branch after the state has grown leads back to where the branch was opened. -/
theorem same_undo {n : Nat} {t u : Search μ} (grows : Grows n (branched n u) t)
    (hplan : u.plan = s.plan) (hlive : u.arena.live.take n = s.arena.live)
    (hr : (undo w).run t = (.ok (), s')) : Same s s' := by
  obtain ⟨c, rest, hc, rfl⟩ := undo_ok hr
  have checkpoints : c :: rest = (branched n u).plan.checkpoints := hc.symm.trans grows.checkpoints
  obtain ⟨rfl, rfl⟩ := List.cons.inj checkpoints
  refine ⟨hplan ▸ ?_, ?_, Arena.numbered_truncate grows.numbered _⟩
  · exact Plan.ext (take_size_eq grows.areas) (take_size_eq grows.placements) rfl rfl rfl
      grows.expansions grows.seed grows.solved
  · rw [undone, Arena.live_truncate, ← hlive]
    exact grows.contexts.live

theorem accept_ok {id : ComponentId} {node : Nat} {h : Handle}
    (hr : (accept id node h).run s = (.ok (), s')) :
    ∃ x, s.arena.get h = .ok x ∧ s' = { s with plan := { s.plan with
      placements := s.plan.placements.push ⟨id, node, h, x.toWorld⟩ } } := by
  obtain ⟨x, hx, hacc⟩ := context_bind_ok hr
  cases hacc
  exact ⟨x, hx, rfl⟩

theorem accept_grows {id : ComponentId} {node : Nat} {h : Handle} {n : Nat} (hs : s.arena.Numbered)
    (hn : n ≤ s.arena.size) (hr : (accept id node h).run s = (.ok (), s')) : Grows n s s' := by
  obtain ⟨x, _, rfl⟩ := accept_ok hr
  refine ⟨.refl hn, hs, List.prefix_refl _, ?_, Nat.le_refl _, rfl, rfl, rfl, rfl, rfl⟩
  simp

/-- The component `c` has been placed by its node `n`, in the context `x`. -/
structure PlacesComponent (w : World μ) (id : ComponentId) (a : Attempt) (s : Search μ)
    (c : Component) (n : Node) (p : Pos) (x : Context) (s' : Search μ) : Prop where
  component : w.grammar.component id = .ok c
  node : c.nodes[a.attachment.node]? = some n
  position : ∃ m, ((w.samplePos s.arena a.context n.position).run m).1 = .ok p
  populated : ∃ s₁ areas, Opens w s.plan.seed s.arena (some a.context) (.component id)
      (attach a.entry a.attachment (n.joint a.candidate.reflected) p) x c.symbol s₁.arena ∧
    s.plan.areas.toList <+: areas.toList ∧
    s₁.plan = { s.plan with
      areas := areas
      placements := s.plan.placements.push
        ⟨id, a.attachment.node, (s.arena.push x).1, x.toWorld⟩
      checkpoints := ⟨s.plan.areas.size, s.plan.placements.size, s.arena.size, s.plan.cursor,
        s.plan.queue⟩ :: s.plan.checkpoints } ∧
    EntersNodes w (s.arena.push x).1 c.nodes
      ((nodeOrder c.nodes x.seed s.plan.seed).filter (· ≠ a.attachment.node)) s₁ s'
  surveyed : PlacesAreas w (s.arena.push x).2 (s.arena.push x).1 c.areas s.plan.areas s'.plan.areas

theorem placeComponent_ok {id : ComponentId} {a : Attempt} {b : Bool} (hs : s.arena.Numbered)
    (hr : (placeComponent w id a).run s = (.ok b, s')) :
    (b = false ∧ Same s s') ∨
      b = true ∧ ∃ c n position x, PlacesComponent w id a s c n position x s' := by
  unfold placeComponent at hr
  obtain ⟨c, hc, hr⟩ := lift_bind_ok hr
  obtain ⟨n, hn, hr⟩ := lift_bind_ok hr
  obtain ⟨position, hposition, hr⟩ := evaluate_bind_ok hr
  cases position with
  | error e =>
      cases hr
      exact .inl ⟨rfl, rfl, rfl, hs⟩
  | ok position =>
      dsimp only at hr
      rw [run_bind, run_contextCount] at hr
      rcases guarded_ok (s := evaluated _ s) hs (fun _ => rfl) (fun _ => rfl) hr with
        ⟨rfl, same⟩ | ⟨x, hp, hh, hr⟩
      · exact .inl ⟨rfl, same.plan, same.live, same.numbered⟩
      rw [run_bind, run_branchAt] at hr
      obtain ⟨_, s₁, hacc, hr⟩ := bind_ok hr
      obtain ⟨y, hy, rfl⟩ := accept_ok hacc
      obtain rfl : x = y := Arena.eq_of_get_push hs hy
      obtain ⟨populated, s₂, hpop, hr⟩ := bind_ok hr
      obtain ⟨grows, enters⟩ := populate_ok hs rfl hpop
      have hkept : (s.arena.push x).2.live.take s.arena.size = s.arena.live := by
        rw [Arena.live_push hs, ← Arena.length_live, List.take_left]
      cases populated with
      | false =>
          obtain ⟨_, s₃, hundo, hr⟩ := bind_ok hr
          cases hr
          have pushed : s.plan.placements.toList <+: (s.plan.placements.push
              ⟨id, a.attachment.node, (s.arena.push x).1, x.toWorld⟩).toList := by
            simp
          have accepted : Grows s.arena.size
              (branched s.arena.size (looked w (s.arena.push x).1 c.symbol.conditions
                (entered w x s))) s₂ :=
            { grows with placements := pushed.trans grows.placements }
          exact .inl ⟨rfl, same_undo accepted rfl hkept hundo⟩
      | true =>
          cases hr
          obtain ⟨sym, s₁, areas, hsym, hlive, hnum, hareas, hplan, places, enters⟩ := enters rfl
          have recorded : s'.plan.areas = areas := by rw [enters.accepted.2, hplan]
          have hsymbol := Grammar.symbol_component hc
          rw [Arena.symbol_of_prepare hp] at hsym
          cases hsymbol.symm.trans hsym
          have opens : Opens w s.plan.seed s.arena (some a.context) (.component id)
              (attach a.entry a.attachment (n.joint a.candidate.reflected) position) x c.symbol
              s₁.arena := ⟨hp, hsymbol, hh, hlive, hnum⟩
          exact .inr ⟨rfl, c, n, position, x, hc, Fault.lookup_eq_ok_iff.1 hn, ⟨_, hposition⟩,
            ⟨s₁, areas, opens, hareas, hplan, enters⟩, recorded ▸ places⟩

theorem replaceRule_ok {target : RuleId} {a : Attempt} {b : Bool} (hs : s.arena.Numbered)
    (hr : (replaceRule w target a).run s = (.ok b, s')) :
    (b = false ∧ Same s s') ∨ b = true ∧ ∃ r x first, EntersRule w target .zero a.entry.orientation
      (some a.context) (branched s.arena.size s) r x first s' := by
  unfold replaceRule at hr
  have hb : (branch : SearchM μ Unit).run s = (.ok (), branched s.arena.size s) := rfl
  rw [run_bind, hb] at hr
  obtain ⟨done, s₁, he, hr⟩ := bind_ok hr
  rcases enterRule_ok (s := branched _ s) hs he with ⟨rfl, same⟩ | ⟨rfl, r, x, first, enters⟩
  · obtain ⟨_, s₂, hundo, hr⟩ := bind_ok hr
    cases hr
    refine .inl ⟨rfl, same_undo (same.grows (Nat.le_refl _)) rfl ?_ hundo⟩
    rw [← Arena.length_live, List.take_length]
  · cases hr
    exact .inr ⟨rfl, r, x, first, enters⟩

inductive Carries (w : World μ) (a : Attempt) (s s' : Search μ) (e : Expansion) : Prop
  | nothing (target : e.target = .nothing) (same : s' = s)
  | rule {id : RuleId} {r : Rule} {x : Context} {first : Attempt} (target : e.target = .rule id)
      (enters : EntersRule w id .zero a.entry.orientation (some a.context)
        (branched s.arena.size s) r x first s')
  | component {id : ComponentId} {node : Option String} {c : Component} {n : Node} {p : Pos}
      {x : Context} (target : e.target = .component id node)
      (places : PlacesComponent w id a s c n p x s')

/-- An attempt that does not succeed leaves the plan and the live contexts as they were. -/
theorem attempt_ok {a : Attempt} {b : Bool} (hs : s.arena.Numbered)
    (hr : (attempt w a).run s = (.ok b, s')) :
    (b = false ∧ Same s s') ∨
      b = true ∧ ∃ e, w.grammar.expansion a.candidate.expansion = .ok e ∧ Carries w a s s' e := by
  unfold attempt at hr
  obtain ⟨e, he, hr⟩ := lift_bind_ok hr
  split at hr
  · next target =>
    cases hr
    exact .inr ⟨rfl, e, he, .nothing target rfl⟩
  · next id target =>
    rcases replaceRule_ok hs hr with same | ⟨rfl, r, x, first, enters⟩
    · exact .inl same
    · exact .inr ⟨rfl, e, he, .rule target enters⟩
  · next id node target =>
    rcases placeComponent_ok hs hr with same | ⟨rfl, c, n, p, x, places⟩
    · exact .inl same
    · exact .inr ⟨rfl, e, he, .component target places⟩

theorem attempt_false {a : Attempt} (hs : s.arena.Numbered)
    (hr : (attempt w a).run s = (.ok false, s')) : Same s s' := by
  rcases attempt_ok hs hr with ⟨_, same⟩ | ⟨done, _⟩
  · exact same
  · cases done

theorem attempt_true {a : Attempt} (hs : s.arena.Numbered)
    (hr : (attempt w a).run s = (.ok true, s')) :
    ∃ e, w.grammar.expansion a.candidate.expansion = .ok e ∧ Carries w a s s' e := by
  rcases attempt_ok hs hr with ⟨failed, _⟩ | ⟨_, carried⟩
  · cases failed
  · exact carried

theorem PlacesComponent.grows {id : ComponentId} {a : Attempt} {c : Component} {n : Node} {p : Pos}
    {x : Context} (h : PlacesComponent w id a s c n p x s') :
    Grows s.arena.size (branched s.arena.size s) s' := by
  obtain ⟨s₁, areas, opens, hareas, hplan, enters⟩ := h.populated
  have kept := Arena.Keeps.of_append opens.live
  have placed : Grows s.arena.size (branched s.arena.size s) s₁ := by
    refine ⟨kept, opens.numbered, ?_, ?_, ?_, ?_, ?_, ?_, ?_, ?_⟩ <;> simp [branched, hplan, hareas]
  exact placed.trans (enters.grows kept.le)

/-- Carrying an attempt out adds to what there was, after a branch has been opened if need be. -/
theorem Carries.grows {a : Attempt} {e : Expansion} (h : Carries w a s s' e) :
    s' = s ∨ Grows s.arena.size (branched s.arena.size s) s' := by
  cases h with
  | nothing _ same => exact .inl same
  | rule _ enters => exact .inr (enters.grows (Nat.le_refl _))
  | component _ places => exact .inr places.grows

theorem Carries.numbered {a : Attempt} {e : Expansion} (h : Carries w a s s' e)
    (hs : s.arena.Numbered) : s'.arena.Numbered := by
  rcases h.grows with rfl | grows
  · exact hs
  · exact grows.numbered

/-- Carrying an attempt out keeps the live contexts, in front of the new ones. -/
theorem Carries.isPrefix {a : Attempt} {e : Expansion} (h : Carries w a s s' e) :
    s.arena.live <+: s'.arena.live := by
  rcases h.grows with rfl | grows
  · exact List.prefix_refl _
  · exact Grows.isPrefix (s := branched s.arena.size s) grows

/-- Carrying an attempt out takes no entry off the queue. -/
theorem Carries.queue {a : Attempt} {e : Expansion} (h : Carries w a s s' e) :
    s.plan.queue.size ≤ s'.plan.queue.size := by
  rcases h.grows with rfl | grows
  · exact Nat.le_refl _
  · exact grows.queue

/-! ### Steps -/

/-- The state in which an entry has been replaced by the attempt that comes next. -/
def advanced (following : Option Attempt) (s : Search μ) : Search μ :=
  { s with plan := { s.plan with queue := s.plan.queue.setIfInBounds s.plan.cursor following } }

/-- Nothing else is different in the plan after what comes next has been looked for. -/
theorem advanced_plan {a : Attempt} {following : Option Attempt} (hs : s.arena.Numbered)
    (hr : (next w a).run s = (.ok following, s')) : (advanced following s').plan =
      { s.plan with queue := s.plan.queue.setIfInBounds s.plan.cursor following } := by
  rw [advanced, (next_grows hs (Nat.le_refl _) hr).2]

def passed (s : Search μ) : Search μ :=
  { s with plan := { s.plan with cursor := s.plan.cursor + 1 } }

inductive Resolves (w : World μ) (s : Search μ) : Option Attempt → Search μ → Prop
  | undone {s' : Search μ} (run : (undo w).run s = (.ok (), s')) : Resolves w s none s'
  | failed {a : Attempt} {following : Option Attempt} {s₁ s' : Search μ}
      (next : (next w a).run s = (.ok following, s₁)) (same : Same (advanced following s₁) s') :
      Resolves w s (some a) s'
  | carried {a : Attempt} {following : Option Attempt} {s₁ s' : Search μ} {e : Expansion}
      (next : (next w a).run s = (.ok following, s₁))
      (expansion : w.grammar.expansion a.candidate.expansion = .ok e)
      (carries : Carries w a (advanced following s₁) s' e) : Resolves w s (some a) (passed s')

/-- What comes after an attempt is looked for before it is tried. -/
theorem resolve_tries {a : Attempt} (hr : (resolve w (some a)).run s = (.ok (), s')) :
    ∃ following s₁ done s₂, (next w a).run s = (.ok following, s₁) ∧
      (attempt w a).run (advanced following s₁) = (.ok done, s₂) ∧
      s' = if done then passed s₂ else s₂ := by
  unfold resolve at hr
  obtain ⟨following, s₁, hnext, hr⟩ := bind_ok hr
  rw [run_bind, run_modifyPlan] at hr
  obtain ⟨done, s₂, hattempt, hr⟩ := bind_ok hr
  refine ⟨following, s₁, done, s₂, hnext, hattempt, ?_⟩
  cases done <;> cases hr <;> rfl

theorem resolve_ok {entry : Option Attempt} (hs : s.arena.Numbered)
    (hr : (resolve w entry).run s = (.ok (), s')) : Resolves w s entry s' := by
  cases entry with
  | none => exact .undone hr
  | some a =>
      obtain ⟨following, s₁, done, s₂, hnext, hattempt, rfl⟩ := resolve_tries hr
      have numbered : (advanced following s₁).arena.Numbered :=
        (next_grows hs (Nat.le_refl _) hnext).1.numbered
      rcases attempt_ok numbered hattempt with ⟨rfl, same⟩ | ⟨rfl, e, he, carries⟩
      · exact .failed hnext same
      · exact .carried hnext he carries

def counted (s : Search μ) : Search μ :=
  { s with plan := { s.plan with expansions := s.plan.expansions + 1 } }

/-- A step ends the search, or is stopped by a limit, or tries the entry at the cursor. -/
theorem run_step (w : World μ) (limits : Limits) (s : Search μ) :
    (step w limits).run s =
      match s.plan.queue[s.plan.cursor]? with
      | none =>
        if s.plan.queue.isEmpty then (.ok (some (.error (.noSolution s.plan.expansions))), s)
        else (.ok (some (.ok ())), { s with plan := { s.plan with solved := true } })
      | some entry =>
        match stopped? limits (counted s) with
        | some failure => (.ok (some (.error failure)), counted s)
        | none => (resolve w entry >>= fun _ => pure none).run (counted s) := by
  unfold step counted
  rw [run_bind, run_get]
  dsimp only
  cases s.plan.queue[s.plan.cursor]? with
  | none => cases s.plan.queue.isEmpty <;> rfl
  | some entry =>
      dsimp only
      rw [run_bind, run_modifyPlan]
      dsimp only
      rw [run_bind, run_get]
      dsimp only
      cases stopped? limits _ <;> rfl

inductive Steps (w : World μ) (s : Search μ) :
    Option (Except SearchFailure Unit) → Search μ → Prop
  | finished (past : s.plan.queue[s.plan.cursor]? = none) (queue : s.plan.queue ≠ #[]) :
      Steps w s (some (.ok ())) { s with plan := { s.plan with solved := true } }
  | exhausted (queue : s.plan.queue = #[]) :
      Steps w s (some (.error (.noSolution s.plan.expansions))) s
  | stopped {failure : SearchFailure} {limits : Limits}
      (limit : stopped? limits (counted s) = some failure) :
      Steps w s (some (.error failure)) (counted s)
  | tried {entry : Option Attempt} {s' : Search μ}
      (current : s.plan.queue[s.plan.cursor]? = some entry)
      (resolves : Resolves w (counted s) entry s') : Steps w s none s'

theorem step_ok {limits : Limits} {r : Option (Except SearchFailure Unit)} (hs : s.arena.Numbered)
    (hr : (step w limits).run s = (.ok r, s')) : Steps w s r s' := by
  rw [run_step] at hr
  split at hr
  · split at hr
    · next hempty =>
      cases hr
      exact .exhausted (Array.isEmpty_iff.1 hempty)
    · next past hempty =>
      cases hr
      exact .finished past fun h => hempty (Array.isEmpty_iff.2 h)
  · next entry hentry =>
    split at hr
    · next failure hstop =>
      cases hr
      exact .stopped hstop
    · obtain ⟨_, s₁, hresolve, hr⟩ := bind_ok hr
      cases hr
      exact .tried hentry (resolve_ok hs hresolve)

/-- A step that does not end the search tries the entry at the cursor. -/
theorem step_resolves {limits : Limits} (hr : (step w limits).run s = (.ok none, s')) :
    ∃ entry, s.plan.queue[s.plan.cursor]? = some entry ∧
      (resolve w entry).run (counted s) = (.ok (), s') := by
  rw [run_step] at hr
  split at hr
  · split at hr <;> cases hr
  · next entry current =>
    split at hr
    · cases hr
    · obtain ⟨_, s₁, hresolve, hr⟩ := bind_ok hr
      cases hr
      exact ⟨entry, current, hresolve⟩

/-! ### Starting over -/

def started (w : World μ) (origin : Pos) (seed : Seed) (s : Search μ) : Search μ :=
  branched s.arena.clear.size
    ⟨s.arena.clear, w.notebook.truncate s.memory 0, .blank (Seed.hashPos origin seed)⟩

theorem run_setup (w : World μ) (rule : RuleId) (origin : Pos) (seed : Seed) (s : Search μ) :
    (setup w rule origin seed).run s =
      (enterRule w rule origin .unspecified none >>= fun _ => pure ()).run
        (started w origin seed s) := rfl

theorem numbered_started (w : World μ) (origin : Pos) (seed : Seed) (s : Search μ) :
    (started w origin seed s).arena.Numbered := by
  simp [started, branched, Arena.Numbered, Arena.clear, Arena.truncate]

theorem setup_ok {rule : RuleId} {origin : Pos} {seed : Seed}
    (hr : (setup w rule origin seed).run s = (.ok (), s')) :
    Same (started w origin seed s) s' ∨ ∃ r x a,
      EntersRule w rule origin .unspecified none (started w origin seed s) r x a s' := by
  rw [run_setup] at hr
  obtain ⟨b, s₁, he, hr⟩ := bind_ok hr
  cases hr
  rcases enterRule_ok (numbered_started w origin seed s) he with ⟨_, same⟩ | ⟨_, enters⟩
  · exact .inl same
  · exact .inr enters

/-! ### Runs -/

/-- What every step keeps to, a run keeps to. -/
theorem process_ok {limits : Limits} {r : Except SearchFailure Unit} {P : Search μ → Prop}
    (numbered : ∀ s, P s → s.arena.Numbered) (kept : ∀ s s', P s → Steps w s none s' → P s')
    (hs : P s) (hr : (process w limits).run s = (.ok r, s')) :
    r = .error (.expansionLimit limits.expansions) ∨ ∃ s₁, P s₁ ∧ Steps w s₁ (some r) s' := by
  unfold process at hr
  revert hr
  induction limits.expansions + 1 generalizing s with
  | zero =>
      intro hr
      cases hr
      exact .inl rfl
  | succ n ih =>
      intro hr
      obtain ⟨result, s₁, hstep, hr⟩ := bind_ok hr
      have step := step_ok (numbered s hs) hstep
      cases result with
      | none => exact ih (kept s s₁ hs step) hr
      | some result =>
          cases hr
          exact .inr ⟨s, hs, step⟩

end Search

end VoxelGrammar
