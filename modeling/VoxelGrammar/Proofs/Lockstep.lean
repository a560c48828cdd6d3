import Mathlib.Data.List.InsertIdx
import VoxelGrammar.Proofs.Moves
import VoxelGrammar.Proofs.Recall

/-!
Two searches that go the same way. They have a grammar and a provider in common, but not what they
remember and not the generations in their handles; whatever one of them does, the other does too.
Each function of the search keeps the two in step, and keeps what they remember true.
-/

namespace VoxelGrammar

variable {μ ν α β α' β' : Type}

/-- Two worlds of one grammar and one provider, with notebooks that answer what was written down. -/
structure Twins (w : World μ) (v : World ν) where
  holds : Facts → Nat → μ → Prop
  holds' : Facts → Nat → ν → Prop
  honest : w.notebook.Honest holds
  honest' : v.notebook.Honest holds'
  same : v.forgetful = w.forgetful
  marked : w.grammar.Marked

namespace Twins

variable {w : World μ} {v : World ν} (t : Twins w v)

include t

theorem grammar : v.grammar = w.grammar := congrArg World.grammar t.same

theorem depth (a : Arena) : v.depth a = w.depth a := congrArg (World.depth · a) t.same

end Twins

/-! ### Evaluations -/

/-- Two evaluations with related answers, which leave what is remembered true. -/
def Echoes (P : μ → Prop) (Q : ν → Prop) (r : α → β → Prop) (x : Eval μ α) (y : Eval ν β) : Prop :=
  ∀ m m', P m → Q m' →
    Agree r (x.run m).1 (y.run m').1 ∧ P (x.run m).2 ∧ Q (y.run m').2

namespace Echoes

variable {P : μ → Prop} {Q : ν → Prop} {r : α → β → Prop} {x : Eval μ α} {y : Eval ν β}

theorem pure {a : α} {b : β} (h : r a b) : Echoes P Q r (pure a) (pure b) :=
  fun _ _ hm hm' => ⟨h, hm, hm'⟩

theorem throw (e : EvalError) : Echoes P Q r (throw e) (throw e) :=
  fun _ _ hm hm' => ⟨rfl, hm, hm'⟩

theorem bind {s : α' → β' → Prop} {f : α → Eval μ α'} {g : β → Eval ν β'} (h : Echoes P Q r x y)
    (hfg : ∀ a b, r a b → Echoes P Q s (f a) (g b)) : Echoes P Q s (x >>= f) (y >>= g) := by
  intro m m' hm hm'
  obtain ⟨agree, hm, hm'⟩ := h m m' hm hm'
  rw [Eval.run_bind, Eval.run_bind]
  rcases hx : x.run m with ⟨e | a, m₁⟩ <;> rcases hy : y.run m' with ⟨e' | b, m₁'⟩ <;>
    rw [hx] at agree hm <;> rw [hy] at agree hm'
  · exact ⟨agree, hm, hm'⟩
  · exact agree.elim
  · exact agree.elim
  · exact hfg a b agree m₁ m₁' hm hm'

theorem lift {x : Except Fault α} {y : Except Fault β} (h : Agree r x y) :
    Echoes P Q r (liftM x) (liftM y) := fun _ _ hm hm' => ⟨h.lift, hm, hm'⟩

end Echoes

section Evaluations

variable {w : World μ} {v : World ν} (t : Twins w v) {σ : Nat → UInt32} {n : Nat} {a b : Arena}
  {h : Handle} {k : Handle}

abbrev Twins.Echo (t : Twins w v) (a b : Arena) (r : α → β → Prop) (x : Eval μ α) (y : Eval ν β) :
    Prop :=
  Echoes (t.holds (w.facts a) a.size) (t.holds' (v.facts b) b.size) r x y

/-- The context at `h` is where the one at `k` is, and evaluations in them come to the same. -/
structure Twins.Counterparts (t : Twins w v) (a b : Arena) (h k : Handle) : Prop where
  place : Agree (fun c c' => c'.toWorld = c.toWorld) (a.get h) (b.get k)
  record : ∀ id origin extent,
    t.Echo a b Eq (w.record a h id origin extent) (v.record b k id origin extent)

namespace Twins

/-- It is enough that fields mean the same in both contexts. -/
theorem counterparts_of_means (place : Agree (fun c c' => c'.toWorld = c.toWorld) (a.get h) (b.get k))
    (means : ∀ n id origin extent, w.forgetful.recordIn a n h id origin extent =
      w.forgetful.recordIn b n k id origin extent) : t.Counterparts a b h k := by
  refine ⟨place, fun id origin extent m m' hm hm' => ?_⟩
  obtain ⟨hr, hm⟩ := World.run_record t.honest t.marked h id origin extent hm
  obtain ⟨hr', hm'⟩ := World.run_record t.honest' (t.grammar ▸ t.marked) k id origin extent hm'
  refine ⟨.of_eq ?_, hm, hm'⟩
  rw [hr, hr', t.same, t.depth, means]
  refine Approximates.antisymm ?_ ?_
  · exact World.recordIn_depth (w := w.forgetful) (w.depth a) k id origin extent
  · have bound := World.recordIn_depth (w := w.forgetful) (a := a) (w.depth b) h id origin extent
    rw [means, means] at bound
    exact bound

theorem counterparts (alike : Arena.Alike σ n a b) (ground : a.Grounded) (hn : h.slot < n) :
    t.Counterparts a b h (h.shift σ) :=
  t.counterparts_of_means ((alike h hn).mono fun _ _ ⟨like, _⟩ => like.toWorld)
    fun m id origin extent => alike.recordIn ground w.forgetful m id origin extent hn

namespace Counterparts

variable {t : Twins w v} (parts : t.Counterparts a b h k)

include parts

theorem sample (id : FieldId) (p : Pos) : t.Echo a b Eq (w.sample a h id p) (v.sample b k id p) := by
  refine .bind (parts.record id p .point) fun r r' hr => ?_
  subst hr
  cases r.get? 0 with
  | none => exact .throw _
  | some s => exact .pure rfl

theorem sampleOrigin (id : FieldId) :
    t.Echo a b Eq (w.sampleOrigin a h id) (v.sampleOrigin b k id) := by
  refine .bind (.lift parts.place) fun c c' place => ?_
  rw [Context.origin, Context.origin, place]
  exact parts.sample id _

theorem sampleBool (id : FieldId) : t.Echo a b Eq (w.sampleBool a h id) (v.sampleBool b k id) :=
  .bind (parts.sampleOrigin id) fun _ _ hs => .pure (congrArg _ hs)

theorem samplePos (id : FieldId) : t.Echo a b Eq (w.samplePos a h id) (v.samplePos b k id) :=
  .bind (parts.sampleOrigin id) fun _ _ hs => .pure (congrArg _ hs)

theorem sampleWorldPos (id : FieldId) :
    t.Echo a b Eq (w.sampleWorldPos a h id) (v.sampleWorldPos b k id) := by
  refine .bind (parts.samplePos id) fun p p' hp =>
    .bind (.lift parts.place) fun c c' place => .pure ?_
  rw [Context.mapToWorld, Context.mapToWorld, place, hp]

theorem conditions (cs : List FieldId) : t.Echo a b Eq (w.holds a h cs) (v.holds b k cs) := by
  induction cs with
  | nil => exact .pure rfl
  | cons id rest ih =>
      refine .bind (parts.sampleBool id) fun c c' hc => ?_
      subst hc
      cases c with
      | false => exact .pure rfl
      | true => exact ih

theorem area (spec : AreaSpec) :
    t.Echo a b Eq (Search.areaOf w a h spec) (Search.areaOf v b k spec) := by
  refine .bind (parts.sampleWorldPos _) fun p p' hp =>
    .bind (parts.sampleWorldPos _) fun q q' hq => .pure ?_
  rw [hp, hq]

end Counterparts

end Twins

end Evaluations

/-! ### Searches -/

def RuleEntry.shift (σ : Nat → UInt32) (e : RuleEntry) : RuleEntry :=
  { e with context := e.context.shift σ }

def Attempt.shift (σ : Nat → UInt32) (a : Attempt) : Attempt :=
  { a with entry := a.entry.shift σ, context := a.context.shift σ }

def Placement.shift (σ : Nat → UInt32) (p : Placement) : Placement :=
  { p with context := p.context.shift σ }

def Queue.shift (σ : Nat → UInt32) (q : Queue) : Queue := q.map (·.map (·.shift σ))

def Checkpoint.shift (σ : Nat → UInt32) (c : Checkpoint) : Checkpoint :=
  { c with queue := Queue.shift σ c.queue }

def Plan.shift (σ : Nat → UInt32) (p : Plan) : Plan :=
  { p with
    placements := p.placements.map (·.shift σ)
    queue := Queue.shift σ p.queue
    checkpoints := p.checkpoints.map (·.shift σ) }

@[simp] theorem RuleEntry.shift_zero (e : RuleEntry) : e.shift (fun _ => 0) = e := by
  simp [RuleEntry.shift]

@[simp] theorem Attempt.shift_zero (a : Attempt) : a.shift (fun _ => 0) = a := by
  simp [Attempt.shift]

theorem Plan.shift_zero (p : Plan) : p.shift (fun _ => 0) = p := by
  have queue : ∀ q : Queue, Queue.shift (fun _ => 0) q = q := by
    intro q
    simp [Queue.shift]
  simp [Plan.shift, Placement.shift, Checkpoint.shift, queue]

structure Mirror {w : World μ} {v : World ν} (t : Twins w v) (σ : Nat → UInt32) (s : Search μ)
    (s' : Search ν) : Prop where
  arena : s.arena.Mirrors σ s'.arena
  ground : s.arena.Grounded
  plan : s'.plan = s.plan.shift σ
  memory : t.holds (w.facts s.arena) s.arena.size s.memory
  memory' : t.holds' (v.facts s'.arena) s'.arena.size s'.memory

/-- What is remembered is true, and the contexts are such that it stays so. -/
structure Trusted (w : World μ) (holds : Facts → Nat → μ → Prop) (s : Search μ) : Prop where
  numbered : s.arena.Numbered
  ground : s.arena.Grounded
  memory : holds (w.facts s.arena) s.arena.size s.memory

section

variable {w : World μ} {v : World ν} {t : Twins w v} {σ : Nat → UInt32} {s : Search μ}
  {s' : Search ν}

theorem Mirror.trusted (hs : Mirror t σ s s') : Trusted w t.holds s :=
  ⟨hs.arena.numbered, hs.ground, hs.memory⟩

theorem Mirror.counterparts (hs : Mirror t σ s s') (h : Handle) :
    t.Counterparts s.arena s'.arena h (h.shift σ) :=
  t.counterparts (hs.arena.alike (h.slot + 1)) hs.ground (Nat.lt_succ_self _)

/-- The entries at the cursors are the same. -/
theorem Mirror.current (hs : Mirror t σ s s') :
    s'.plan.queue[s'.plan.cursor]? = s.plan.queue[s.plan.cursor]?.map (·.map (·.shift σ)) := by
  rw [hs.plan]
  simp [Plan.shift, Queue.shift]

section

variable (hs : Mirror t (fun _ => 0) s s')

include hs

theorem Mirror.plan_eq : s'.plan = s.plan := hs.plan.trans s.plan.shift_zero

theorem Mirror.live_eq : s'.arena.live = s.arena.live := by
  rw [hs.arena.live]
  simp

theorem Mirror.get_ok {h : Handle} {c : Context} (hc : s'.arena.get h = .ok c) :
    s.arena.get h = .ok c := by
  rw [Arena.get_eq_ok_iff hs.arena.numbered, ← hs.live_eq]
  exact (Arena.get_eq_ok_iff hs.arena.numbered').1 hc

end

/-- Two searches that only differ in what they remember are in step. -/
theorem Trusted.mirror (hs : Trusted w t.holds s) (hs' : Trusted v t.holds' s')
    (arena : s'.arena = s.arena) (plan : s'.plan = s.plan) : Mirror t (fun _ => 0) s s' := by
  refine ⟨?_, hs.ground, plan.trans s.plan.shift_zero.symm, hs.memory, hs'.memory⟩
  rw [arena]
  exact .refl hs.numbered

end

/-- Two runs with related answers, or the same fault, that end in step. -/
def Matches {w : World μ} {v : World ν} (t : Twins w v) (σ : Nat → UInt32) (r : α → β → Prop)
    (p : Except Fault α × Search μ) (q : Except Fault β × Search ν) : Prop :=
  Agree r p.1 q.1 ∧ Mirror t σ p.2 q.2

namespace Matches

variable {w : World μ} {v : World ν} {t : Twins w v} {σ : Nat → UInt32} {r : α → β → Prop}
  {s : Search μ} {s' : Search ν}

theorem pure {a : α} {b : β} (hs : Mirror t σ s s') (h : r a b) :
    Matches t σ r ((pure a : SearchM μ α).run s) ((pure b : SearchM ν β).run s') := ⟨h, hs⟩

theorem throw (hs : Mirror t σ s s') (e : Fault) :
    Matches t σ r ((throw e : SearchM μ α).run s) ((throw e : SearchM ν β).run s') := ⟨rfl, hs⟩

theorem bind {r' : α' → β' → Prop} {x : SearchM μ α} {y : SearchM ν β} {f : α → SearchM μ α'}
    {g : β → SearchM ν β'} (h : Matches t σ r (x.run s) (y.run s'))
    (hfg : ∀ a b s₁ s₁', x.run s = (.ok a, s₁) → r a b → Mirror t σ s₁ s₁' →
      Matches t σ r' ((f a).run s₁) ((g b).run s₁')) :
    Matches t σ r' ((x >>= f).run s) ((y >>= g).run s') := by
  rw [SearchM.run_bind, SearchM.run_bind]
  obtain ⟨agree, hm⟩ := h
  rcases hx : x.run s with ⟨e | a, s₁⟩ <;> rcases hy : y.run s' with ⟨e' | b, s₁'⟩ <;>
    rw [hx, hy] at agree hm
  · exact ⟨agree, hm⟩
  · exact agree.elim
  · exact agree.elim
  · exact hfg a b s₁ s₁' hx agree hm

/-- Two outcomes that are the same mistake or related. -/
theorem outcome_bind {r' : α' → β' → Prop} {x : SearchM μ (Except ε α)} {y : SearchM ν (Except ε β)}
    {f : Except ε α → SearchM μ α'} {g : Except ε β → SearchM ν β'}
    (h : Matches t σ (Agree r) (x.run s) (y.run s'))
    (refused : ∀ e s₁ s₁', Mirror t σ s₁ s₁' →
      Matches t σ r' ((f (.error e)).run s₁) ((g (.error e)).run s₁'))
    (hfg : ∀ a b s₁ s₁', x.run s = (.ok (.ok a), s₁) → r a b → Mirror t σ s₁ s₁' →
      Matches t σ r' ((f (.ok a)).run s₁) ((g (.ok b)).run s₁')) :
    Matches t σ r' ((x >>= f).run s) ((y >>= g).run s') := by
  refine .bind h fun a b s₁ s₁' hx hr hs => ?_
  cases a <;> cases b
  · obtain rfl := hr
    exact refused _ s₁ s₁' hs
  · exact hr.elim
  · exact hr.elim
  · exact hfg _ _ s₁ s₁' hx hr hs

/-- Where one run ends with an answer, so does the other, in step. -/
theorem ok {p : Except Fault α × Search μ} {q : Except Fault β × Search ν} {a : α} {s₁ : Search μ}
    (h : Matches t σ r p q) (hp : p = (.ok a, s₁)) :
    ∃ b s₁', q = (.ok b, s₁') ∧ r a b ∧ Mirror t σ s₁ s₁' := by
  subst hp
  obtain ⟨agree, hs⟩ := h
  obtain ⟨b, hb, related⟩ := agree.ok_left
  exact ⟨b, q.2, Prod.ext hb rfl, related, hs⟩

/-- The other run tells what the answer is. -/
theorem answer {p : Except Fault α × Search μ} {q : Except Fault α × Search ν} {a : α}
    (h : Matches t σ Eq p q) (hq : q.1 = .ok a) : ∃ s₁, p = (.ok a, s₁) ∧ Mirror t σ s₁ q.2 :=
  ⟨p.2, Prod.ext (h.1.eq.trans hq) rfl, h.2⟩

theorem get_bind {r' : α' → β' → Prop} {f : Search μ → SearchM μ α'} {g : Search ν → SearchM ν β'}
    (h : Matches t σ r' ((f s).run s) ((g s').run s')) :
    Matches t σ r' ((get >>= f).run s) ((get >>= g).run s') := h

theorem lift_bind {r' : α' → β' → Prop} {x : Except Fault α} {y : Except Fault β}
    {f : α → SearchM μ α'} {g : β → SearchM ν β'} (hs : Mirror t σ s s') (h : Agree r x y)
    (hfg : ∀ a b, x = .ok a → r a b → Matches t σ r' ((f a).run s) ((g b).run s')) :
    Matches t σ r' ((liftM x >>= f).run s) ((liftM y >>= g).run s') := by
  cases x <;> cases y
  · exact ⟨h, hs⟩
  · exact h.elim
  · exact h.elim
  · exact hfg _ _ rfl h

end Matches

namespace Search

variable {w : World μ} {v : World ν} {t : Twins w v} {σ : Nat → UInt32} {s : Search μ}
  {s' : Search ν} {h : Handle}

theorem context_matches (hs : Mirror t σ s s') (h : Handle) :
    Matches t σ (fun c c' => c' = c.shift σ) ((context h).run s) ((context (h.shift σ)).run s') :=
  ⟨hs.arena.get h, hs⟩

theorem modifyPlan_matches (hs : Mirror t σ s s') {f f' : Plan → Plan}
    (hf : f' (s.plan.shift σ) = (f s.plan).shift σ) :
    Matches t σ Eq ((modifyPlan f).run s) ((modifyPlan f').run s') :=
  ⟨rfl, hs.arena, hs.ground, (congrArg f' hs.plan).trans hf, hs.memory, hs.memory'⟩

def settle : Except EvalError α → Except Fault (Except GrammarError α)
  | .ok a => .ok (.ok a)
  | .error (.grammar e) => .ok (.error e)
  | .error (.fault f) => .error f

theorem run_evaluate (x : Arena → Eval μ α) (s : Search μ) :
    (evaluate x).run s = (settle ((x s.arena).run s.memory).1, evaluated x s) := rfl

theorem settle_agree {r : α → β → Prop} {x : Except EvalError α} {y : Except EvalError β}
    (h : Agree r x y) : Agree (Agree r) (settle x) (settle y) := by
  cases x <;> cases y
  · next e e' =>
    obtain rfl : e = e' := h
    cases e <;> rfl
  · exact h.elim
  · exact h.elim
  · exact h

theorem evaluate_matches (hs : Mirror t σ s s') {x : Arena → Eval μ α} {y : Arena → Eval ν β}
    {r : α → β → Prop} (h : t.Echo s.arena s'.arena r (x s.arena) (y s'.arena)) :
    Matches t σ (Agree r) ((evaluate x).run s) ((evaluate y).run s') := by
  obtain ⟨agree, hm, hm'⟩ := h s.memory s'.memory hs.memory hs.memory'
  rw [run_evaluate, run_evaluate]
  exact ⟨settle_agree agree, hs.arena, hs.ground, hs.plan, hm, hm'⟩

theorem meets_matches (hs : Mirror t σ s s') (h : Handle) (cs : List FieldId) :
    Matches t σ Eq ((meets w h cs).run s) ((meets v (h.shift σ) cs).run s') := by
  refine .bind (evaluate_matches hs ((hs.counterparts h).conditions cs)) fun c c' s₁ s₁' _ hc mirror => ?_
  cases c <;> cases c'
  · exact .pure mirror rfl
  · exact hc.elim
  · exact hc.elim
  · exact .pure mirror hc

theorem truncateContexts_matches (hs : Mirror t σ s s') (n : Nat) :
    Matches t σ Eq ((truncateContexts w n).run s) ((truncateContexts v n).run s') := by
  have hnum := hs.arena.numbered
  have hnum' := hs.arena.numbered'
  have ground' := hs.arena.grounded hs.ground
  refine ⟨rfl, hs.arena.truncate n, Arena.grounded_truncate hnum hs.ground n, hs.plan, ?_, ?_⟩
  · have memory := t.honest.imply (t.honest.truncate hs.memory n)
      (World.facts_truncate hnum hs.ground n)
    rwa [← Arena.size_truncate] at memory
  · have memory := t.honest'.imply (t.honest'.truncate hs.memory' n)
      (World.facts_truncate hnum' ground' n)
    rwa [← Arena.size_truncate] at memory

theorem enter_matches (hs : Mirror t σ s s') (parent : Option Handle) (ref : SymbolRef)
    (placement : Transform) :
    Matches t σ (Agree fun h h' => h' = h.shift σ) ((enter w parent ref placement).run s)
      ((enter v (parent.map (·.shift σ)) ref placement).run s') := by
  have prepared := hs.arena.prepare w.grammar parent ref placement s.plan.seed
  have hseed : s'.plan.seed = s.plan.seed := by rw [hs.plan]; rfl
  have hnum := hs.arena.numbered
  have hnum' := hs.arena.numbered'
  refine .get_bind ?_
  rw [t.grammar, Arena.create, Arena.create, hseed]
  cases hx : s.arena.prepare w.grammar parent ref placement s.plan.seed with
  | error e =>
      rw [hx] at prepared
      rw [(prepared.error_iff).1 rfl]
      cases e with
      | grammar e => exact .pure hs rfl
      | fault f => exact .throw hs f
  | ok x =>
      rw [hx] at prepared
      obtain ⟨y, hy, rfl⟩ := prepared.ok_left
      rw [hy]
      obtain ⟨handle, mirrors⟩ := hs.arena.push x
      refine ⟨handle, mirrors, Arena.grounded_push hnum hs.ground (Arena.below_of_prepare hx), hs.plan,
        ?_, ?_⟩
      · exact Arena.size_push s.arena x ▸
          t.honest.addPage (t.honest.imply hs.memory (World.facts_push hnum hs.ground x))
      · exact Arena.size_push s'.arena (x.shift σ) ▸
          t.honest'.addPage (t.honest'.imply hs.memory'
            (World.facts_push hnum' (hs.arena.grounded hs.ground) _))

/-- Handing on the assignments of the latest context keeps what is remembered true. -/
theorem assign_matches (hs : Mirror t σ s s') (hlast : h.slot + 1 = s.arena.size) :
    Matches t σ Eq ((assign w h).run s) ((assign v (h.shift σ)).run s') := by
  refine .bind (context_matches hs h) fun c c' s₁ s₁' hc hcc mirror => ?_
  subst hcc
  obtain ⟨hget, rfl⟩ := Prod.mk.inj hc
  have hl := Arena.isLive_of_get hget
  refine .lift_bind (r := Eq) mirror (.of_eq (by rw [t.grammar]; rfl)) fun symbol _ _ heq => ?_
  subst heq
  have imply : ∀ {ξ : Type} {u : World ξ} {a : Arena} {h : Handle}, a.Numbered → a.Grounded →
      a.isLive h = true → h.slot + 1 = a.size →
      (u.facts a).Imply a.size (u.facts (a.assign h symbol)) := by
    intro ξ u a h ha ground hl hlast
    rw [← hlast]
    exact World.facts_imply (Arena.alike_assign ha hl symbol) ground
  have hnum := mirror.arena.numbered
  have hnum' := mirror.arena.numbered'
  have ground' := mirror.arena.grounded mirror.ground
  refine ⟨rfl, mirror.arena.assign hl symbol, Arena.grounded_assign hnum mirror.ground hl symbol,
    mirror.plan, ?_, ?_⟩
  · exact Arena.size_modify s.arena h _ ▸
      t.honest.imply mirror.memory (imply hnum mirror.ground hl hlast)
  · refine Arena.size_modify s₁'.arena (h.shift σ) _ ▸ t.honest'.imply mirror.memory'
      (imply hnum' ground' ?_ ?_)
    · exact mirror.arena.isLive h hl
    · rw [mirror.arena.size]
      exact hlast

/-! ### Attempts -/

theorem enter_last {parent : Option Handle} {ref : SymbolRef} {placement : Transform} {s₁ : Search μ}
    (hr : (enter w parent ref placement).run s = (.ok (.ok h), s₁)) :
    h.slot + 1 = s₁.arena.size := by
  rcases enter_ok hr with ⟨e, he, _⟩ | ⟨x, _, hx, rfl⟩
  · cases he
  · cases hx
    rw [entered, Arena.size_push]
    rfl

/-- A context is entered, and taken back unless its conditions hold. -/
theorem guarded_matches {r : α → β → Prop} {parent : Option Handle} {ref : SymbolRef}
    {placement : Transform} {cs : List FieldId} {n : Nat} {f : Except GrammarError Handle → SearchM μ α}
    {g : Except GrammarError Handle → SearchM ν β} {k : Handle → SearchM μ α}
    {k' : Handle → SearchM ν β} {gone : α} {gone' : β} (hs : Mirror t σ s s') (same : r gone gone')
    (refused : ∀ e, f (.error e) = pure gone ∧ g (.error e) = pure gone')
    (created : ∀ h, f (.ok h) = do
      if ← meets w h cs then k h
      else
        truncateContexts w n
        return gone)
    (created' : ∀ h, g (.ok h) = do
      if ← meets v h cs then k' h
      else
        truncateContexts v n
        return gone')
    (hk : ∀ h s₁ s₁', h.slot + 1 = s₁.arena.size → Mirror t σ s₁ s₁' →
      Matches t σ r ((k h).run s₁) ((k' (h.shift σ)).run s₁')) :
    Matches t σ r ((enter w parent ref placement >>= f).run s)
      ((enter v (parent.map (·.shift σ)) ref placement >>= g).run s') := by
  refine .outcome_bind (enter_matches hs parent ref placement) (fun e s₁ s₁' hs => ?_)
    fun h h' s₁ s₁' henter hh hs => ?_
  · rw [(refused e).1, (refused e).2]
    exact .pure hs same
  · obtain rfl : h' = h.shift σ := hh
    rw [created, created']
    refine .bind (meets_matches hs h cs) fun holds _ s₂ s₂' hmeets heq hs => ?_
    subst heq
    obtain ⟨_, rfl⟩ := meets_ok hmeets
    cases holds with
    | false => exact .bind (truncateContexts_matches hs n) fun _ _ _ _ _ _ hs => .pure hs same
    | true =>
        have hlast := enter_last henter
        exact hk h _ s₂' hlast hs

theorem openCandidate_matches (hs : Mirror t σ s s') (entry : RuleEntry) (c : Candidate)
    (later : List Candidate) :
    Matches t σ (fun a b => b = a.map (·.shift σ)) ((openCandidate w entry c later).run s)
      ((openCandidate v (entry.shift σ) c later).run s') := by
  refine .lift_bind (r := Eq) hs (.of_eq (by rw [t.grammar])) fun e _ _ he => ?_
  subst he
  refine .bind (r := Eq) ⟨hs.arena.size.symm, hs⟩ fun mark _ s₁ s₁' hmark heq hs => ?_
  subst heq
  refine guarded_matches hs rfl (fun _ => ⟨rfl, rfl⟩) (fun _ => rfl) (fun _ => rfl)
    fun h s₂ s₂' hlast hs => ?_
  refine .bind (context_matches hs h) fun x x' s₃ s₃' hctx hx hs => ?_
  obtain ⟨_, rfl⟩ := Prod.mk.inj hctx
  refine .lift_bind (r := Eq) hs (.of_eq ?_) fun offers _ _ heq => ?_
  · unfold offered
    rw [t.grammar]
  subst heq
  have hseed : x'.seed = x.seed := by rw [hx]; rfl
  rw [hseed]
  cases ordered e.target x.seed offers with
  | nil => exact .bind (truncateContexts_matches hs mark) fun _ _ _ _ _ _ hs => .pure hs rfl
  | cons a alternatives => exact .bind (assign_matches hs hlast) fun _ _ _ _ _ _ hs => .pure hs rfl

theorem openFirst_matches (hs : Mirror t σ s s') (entry : RuleEntry) (cs : List Candidate) :
    Matches t σ (fun a b => b = a.map (·.shift σ)) ((openFirst w entry cs).run s)
      ((openFirst v (entry.shift σ) cs).run s') := by
  induction cs generalizing s s' with
  | nil => exact .pure hs rfl
  | cons c later ih =>
      refine .bind (openCandidate_matches hs entry c later) fun a b s₁ s₁' _ hab hs => ?_
      subst hab
      cases a with
      | none => exact ih hs
      | some a => exact .pure hs rfl

theorem next_matches (hs : Mirror t σ s s') (a : Attempt) :
    Matches t σ (fun a b => b = a.map (·.shift σ)) ((next w a).run s)
      ((next v (a.shift σ)).run s') := by
  unfold next
  have hal : (a.shift σ).alternatives = a.alternatives := rfl
  rw [hal]
  cases a.alternatives with
  | nil => exact openFirst_matches hs a.entry a.later
  | cons b rest => exact .pure hs rfl

/-! ### Entering rules -/

theorem Queue.size_shift (q : Queue) : (Queue.shift σ q).size = q.size := by
  simp [Queue.shift]

theorem Queue.insert_shift (q : Queue) (i : Nat) (a : Option Attempt) :
    Queue.shift σ (q.insertIdxIfInBounds i a) =
      Array.insertIdxIfInBounds (Queue.shift σ q) i (a.map (·.shift σ)) := by
  obtain ⟨entries⟩ := q
  simp [Queue.shift, List.map_insertIdx]

theorem enqueue_matches (hs : Mirror t σ s s') (atOnce : Bool) (a : Attempt) :
    Matches t σ Eq ((enqueue atOnce a).run s) ((enqueue atOnce (a.shift σ)).run s') := by
  refine .get_bind ?_
  have hsize : s'.plan.queue.size = s.plan.queue.size := by
    rw [hs.plan]
    exact Queue.size_shift _
  have hcursor : s'.plan.cursor = s.plan.cursor := by rw [hs.plan]; rfl
  dsimp only
  rw [hsize, hcursor]
  split
  · split
    · refine modifyPlan_matches hs ?_
      exact Plan.ext rfl rfl (Queue.insert_shift s.plan.queue (s.plan.cursor + 1) (some a)).symm rfl rfl rfl rfl rfl
    · exact .throw hs _
  · refine modifyPlan_matches hs ?_
    simp [Plan.shift, Queue.shift]

theorem enterRule_matches (hs : Mirror t σ s s') (id : RuleId) (origin : Pos)
    (orientation : Orientation) (parent : Option Handle) :
    Matches t σ Eq ((enterRule w id origin orientation parent).run s)
      ((enterRule v id origin orientation (parent.map (·.shift σ))).run s') := by
  refine .lift_bind (r := Eq) hs (.of_eq (by rw [t.grammar])) fun r _ _ hr => ?_
  subst hr
  refine .bind (r := Eq) ⟨hs.arena.size.symm, hs⟩ fun mark _ s₁ s₁' hmark heq hs => ?_
  subst heq
  refine guarded_matches hs rfl (fun _ => ⟨rfl, rfl⟩) (fun _ => rfl) (fun _ => rfl)
    fun h s₂ s₂' hlast hs => ?_
  refine .bind (context_matches hs h) fun x x' s₃ s₃' hctx hx hs => ?_
  obtain ⟨_, rfl⟩ := Prod.mk.inj hctx
  have hseed : x'.seed = x.seed := by rw [hx]; rfl
  dsimp only
  rw [hseed]
  cases r.candidates (Seed.hash candidateSalt x.seed) with
  | nil => exact .bind (truncateContexts_matches hs mark) fun _ _ _ _ _ _ hs => .pure hs rfl
  | cons c cs =>
      refine .bind (assign_matches hs hlast) fun _ _ s₄ s₄' _ _ hs =>
        .bind (openFirst_matches hs ⟨orientation, h⟩ (c :: cs)) fun a b s₅ s₅' _ hab hs => ?_
      subst hab
      cases a with
      | none => exact .bind (truncateContexts_matches hs mark) fun _ _ _ _ _ _ hs => .pure hs rfl
      | some a => exact .bind (enqueue_matches hs _ a) fun _ _ _ _ _ _ hs => .pure hs rfl

/-! ### Carrying attempts out -/

theorem placeAreas_matches (hs : Mirror t σ s s') (h : Handle) (specs : List AreaSpec) :
    Matches t σ Eq ((placeAreas w h specs).run s) ((placeAreas v (h.shift σ) specs).run s') := by
  induction specs generalizing s s' with
  | nil => exact .pure hs rfl
  | cons spec rest ih =>
      refine .outcome_bind (evaluate_matches hs ((hs.counterparts h).area spec))
        (fun _ _ _ hs => .pure hs rfl) fun a a' s₁ s₁' heval haa hs => ?_
      obtain rfl : a = a' := haa
      refine .get_bind ?_
      have hareas : s₁'.plan.areas = s₁.plan.areas := by rw [hs.plan]; rfl
      dsimp only
      rw [hareas]
      split
      · split
        · exact ih hs
        · exact .bind (modifyPlan_matches hs rfl) fun _ _ _ _ _ _ hs => ih hs
      · exact .pure hs rfl

theorem enterNodes_matches (hs : Mirror t σ s s') (h : Handle) (nodes : Array Node)
    (is : List Nat) :
    Matches t σ Eq ((enterNodes w h nodes is).run s) ((enterNodes v (h.shift σ) nodes is).run s') := by
  induction is generalizing s s' with
  | nil => exact .pure hs rfl
  | cons i rest ih =>
      refine .lift_bind (r := Eq) hs (.of_eq rfl) fun n _ _ hn => ?_
      subst hn
      cases n.rule with
      | none => exact ih hs
      | some id =>
          refine .outcome_bind (evaluate_matches hs ((hs.counterparts h).samplePos n.position))
            (fun _ _ _ hs => .pure hs rfl) fun p p' s₁ s₁' heval hp hs => ?_
          obtain rfl : p = p' := hp
          refine .bind (enterRule_matches hs id p n.orientation (some h)) fun done _ s₂ s₂' _ hd hs => ?_
          subst hd
          cases done with
          | false => exact .pure hs rfl
          | true => exact ih hs

theorem populate_matches (hs : Mirror t σ s s') (c : Component) (node : Nat)
    (hlast : h.slot + 1 = s.arena.size) :
    Matches t σ Eq ((populate w c h node).run s) ((populate v c (h.shift σ) node).run s') := by
  refine .bind (placeAreas_matches hs h c.areas) fun done _ s₁ s₁' hplace hd hs => ?_
  subst hd
  cases done with
  | false => exact .pure hs rfl
  | true =>
      have harena := (placeAreas_ok hplace).1
      refine .bind (assign_matches hs (harena ▸ hlast)) fun _ _ s₂ s₂' _ _ hs =>
        .bind (context_matches hs h) fun x x' s₃ s₃' _ hx hs => .get_bind ?_
      have hseed : s₃'.plan.seed = s₃.plan.seed := by rw [hs.plan]; rfl
      have hseed' : x'.seed = x.seed := by rw [hx]; rfl
      dsimp only
      rw [hseed, hseed']
      exact enterNodes_matches hs h c.nodes _

theorem branchAt_matches (hs : Mirror t σ s s') (n : Nat) :
    Matches t σ Eq ((branchAt n).run s) ((branchAt n).run s') := by
  refine modifyPlan_matches hs ?_
  simp [Plan.shift, Queue.shift, Checkpoint.shift]

theorem undo_matches (hs : Mirror t σ s s') :
    Matches t σ Eq ((undo w).run s) ((undo v).run s') := by
  refine .get_bind ?_
  have hc : s'.plan.checkpoints = s.plan.checkpoints.map (·.shift σ) := by rw [hs.plan]; rfl
  rw [hc]
  cases s.plan.checkpoints with
  | nil => exact .throw hs _
  | cons c rest =>
      refine .bind (truncateContexts_matches hs c.contexts) fun _ _ s₁ s₁' _ _ hs =>
        modifyPlan_matches hs ?_
      simp [Plan.shift, Queue.shift, Checkpoint.shift]

theorem accept_matches (hs : Mirror t σ s s') (id : ComponentId) (node : Nat) (h : Handle) :
    Matches t σ Eq ((accept id node h).run s) ((accept id node (h.shift σ)).run s') := by
  refine .bind (context_matches hs h) fun x x' s₁ s₁' _ hx hs => modifyPlan_matches hs ?_
  simp [hx, Plan.shift, Placement.shift, Context.shift]

theorem placeComponent_matches (hs : Mirror t σ s s') (id : ComponentId) (a : Attempt) :
    Matches t σ Eq ((placeComponent w id a).run s) ((placeComponent v id (a.shift σ)).run s') := by
  refine .lift_bind (r := Eq) hs (.of_eq (by rw [t.grammar])) fun c _ _ hc => ?_
  subst hc
  refine .lift_bind (r := Eq) hs (.of_eq rfl) fun n _ _ hn => ?_
  subst hn
  refine .outcome_bind (evaluate_matches hs ((hs.counterparts a.context).samplePos n.position))
    (fun _ _ _ hs => .pure hs rfl) fun p p' s₁ s₁' heval hp hs => ?_
  obtain rfl : p = p' := hp
  refine .bind (r := Eq) ⟨hs.arena.size.symm, hs⟩ fun mark _ s₂ s₂' _ heq hs => ?_
  subst heq
  refine guarded_matches hs rfl (fun _ => ⟨rfl, rfl⟩) (fun _ => rfl) (fun _ => rfl)
    fun h s₃ s₃' hlast hs => ?_
  refine .bind (branchAt_matches hs mark) fun _ _ s₄ s₄' hbranch _ hs => ?_
  obtain ⟨_, rfl⟩ := Prod.mk.inj hbranch
  refine .bind (accept_matches hs id _ h) fun _ _ s₅ s₅' hacc _ hs => ?_
  obtain ⟨_, _, rfl⟩ := accept_ok hacc
  refine .bind (populate_matches hs c _ hlast) fun done _ s₆ s₆' _ hd hs => ?_
  subst hd
  cases done with
  | false => exact .bind (undo_matches hs) fun _ _ _ _ _ _ hs => .pure hs rfl
  | true => exact .pure hs rfl

theorem replaceRule_matches (hs : Mirror t σ s s') (target : RuleId) (a : Attempt) :
    Matches t σ Eq ((replaceRule w target a).run s) ((replaceRule v target (a.shift σ)).run s') := by
  have branches : Matches t σ Eq ((branch : SearchM μ Unit).run s) ((branch : SearchM ν Unit).run s') :=
    .bind (r := Eq) ⟨hs.arena.size.symm, hs⟩ fun n _ _ _ _ heq hs => heq ▸ branchAt_matches hs n
  refine .bind branches fun _ _ s₁ s₁' _ _ hs =>
    .bind (enterRule_matches hs target _ _ (some a.context)) fun done _ s₂ s₂' _ hd hs => ?_
  subst hd
  cases done with
  | false => exact .bind (undo_matches hs) fun _ _ _ _ _ _ hs => .pure hs rfl
  | true => exact .pure hs rfl

theorem attempt_matches (hs : Mirror t σ s s') (a : Attempt) :
    Matches t σ Eq ((attempt w a).run s) ((attempt v (a.shift σ)).run s') := by
  refine .lift_bind (r := Eq) hs (.of_eq (by rw [t.grammar]; rfl)) fun e _ _ he => ?_
  subst he
  cases e.target with
  | nothing => exact .pure hs rfl
  | rule target => exact replaceRule_matches hs target a
  | component id node => exact placeComponent_matches hs id a

/-! ### Runs -/

theorem resolve_matches (hs : Mirror t σ s s') (entry : Option Attempt) :
    Matches t σ Eq ((resolve w entry).run s) ((resolve v (entry.map (·.shift σ))).run s') := by
  cases entry with
  | none => exact undo_matches hs
  | some a =>
      refine .bind (next_matches hs a) fun following _ s₁ s₁' _ hf hs => ?_
      subst hf
      refine .bind (modifyPlan_matches hs ?_) fun _ _ s₂ s₂' _ _ hs =>
        .bind (attempt_matches hs a) fun done _ s₃ s₃' _ hd hs => ?_
      · simp [Plan.shift, Queue.shift]
      · subst hd
        cases done with
        | false => exact .pure hs rfl
        | true =>
            rw [if_pos rfl, if_pos rfl]
            exact modifyPlan_matches hs rfl

theorem step_matches (hs : Mirror t σ s s') (limits : Limits) :
    Matches t σ Eq ((step w limits).run s) ((step v limits).run s') := by
  refine .get_bind ?_
  have hempty : s'.plan.queue.isEmpty = s.plan.queue.isEmpty := by
    rw [hs.plan]
    exact congrArg (· == 0) (Queue.size_shift _)
  have hexpansions : s'.plan.expansions = s.plan.expansions := by rw [hs.plan]; rfl
  dsimp only
  rw [hs.current, hempty, hexpansions]
  cases s.plan.queue[s.plan.cursor]? with
  | none =>
      dsimp only [Option.map_none]
      split
      · exact .pure hs rfl
      · exact .bind (modifyPlan_matches hs rfl) fun _ _ _ _ _ _ hs => .pure hs rfl
  | some entry =>
      refine .bind (modifyPlan_matches hs rfl) fun _ _ s₁ s₁' _ _ hs => .get_bind ?_
      have hstop : stopped? limits s₁' = stopped? limits s₁ := by
        unfold stopped? depth
        rw [hs.plan]
        simp only [Plan.shift, List.length_map]
      rw [hstop]
      cases stopped? limits s₁ with
      | some failure => exact .pure hs rfl
      | none => exact .bind (resolve_matches hs entry) fun _ _ _ _ _ _ hs => .pure hs rfl

theorem steps_matches (hs : Mirror t σ s s') (limits : Limits) (n : Nat) :
    Matches t σ Eq ((steps w limits n).run s) ((steps v limits n).run s') := by
  induction n generalizing s s' with
  | zero => exact .pure hs rfl
  | succ n ih =>
      refine .bind (step_matches hs limits) fun result _ s₁ s₁' _ hr hs => ?_
      subst hr
      cases result with
      | none => exact ih hs
      | some result => exact .pure hs rfl

theorem process_matches (hs : Mirror t σ s s') (limits : Limits) :
    Matches t σ Eq ((process w limits).run s) ((process v limits).run s') :=
  steps_matches hs limits _

/-- How far the generations of the next contexts of two arenas are apart. -/
def gap (a b : Arena) (slot : Nat) : UInt32 := b.nextGeneration slot - a.nextGeneration slot

/-- Starting over brings any two searches in step. -/
theorem reset_matches (hs : Trusted w t.holds s) (hs' : Trusted v t.holds' s') (origin : Pos)
    (seed : Seed) :
    Matches t (gap s.arena s'.arena) Eq ((reset w origin seed).run s)
      ((reset v origin seed).run s') := by
  have cleared : ∀ {a : Arena}, a.clear.live = [] := by
    intro a
    rw [Arena.clear, Arena.live_truncate, List.take_zero]
  have imply : ∀ {ξ : Type} {u : World ξ} {a : Arena}, (u.facts a).Imply 0 (u.facts a.clear) := by
    intro ξ u a
    refine ⟨fun page id d hp hd => ?_, fun page key r hp hr => ?_⟩ <;> cases page with
    | shared => assumption
    | context slot => exact absurd hp (Nat.not_lt_zero slot)
  have hsize : ∀ {a : Arena}, a.clear.size = 0 := by
    intro a
    rw [Arena.clear, Arena.size_truncate, Nat.zero_min]
  refine ⟨rfl, ⟨Arena.numbered_truncate hs.numbered 0, Arena.numbered_truncate hs'.numbered 0, ?_,
    fun i => ?_⟩, Arena.grounded_truncate hs.numbered hs.ground 0, ?_, ?_, ?_⟩
  · exact cleared.trans (by rw [show ((reset w origin seed).run s).2.arena.live = [] from cleared]; rfl)
  · exact (by rw [gap, UInt32.add_comm, UInt32.sub_add_cancel] : s'.arena.nextGeneration i =
      s.arena.nextGeneration i + gap s.arena s'.arena i)
  · simp [reset, Plan.shift, Plan.blank, Queue.shift]
  · have memory := t.honest.imply (Nat.zero_min _ ▸ t.honest.truncate hs.memory 0) imply
    exact hsize (a := s.arena) ▸ memory
  · have memory := t.honest'.imply (Nat.zero_min _ ▸ t.honest'.truncate hs'.memory 0) imply
    exact hsize (a := s'.arena) ▸ memory

theorem setup_matches (hs : Trusted w t.holds s) (hs' : Trusted v t.holds' s') (rule : RuleId)
    (origin : Pos) (seed : Seed) :
    Matches t (gap s.arena s'.arena) Eq ((setup w rule origin seed).run s)
      ((setup v rule origin seed).run s') := by
  refine .bind (reset_matches hs hs' origin seed) fun _ _ s₁ s₁' _ _ hs => ?_
  have branches : Matches t (gap s.arena s'.arena) Eq ((branch : SearchM μ Unit).run s₁)
      ((branch : SearchM ν Unit).run s₁') :=
    .bind (r := Eq) ⟨hs.arena.size.symm, hs⟩ fun n _ _ _ _ heq hs => heq ▸ branchAt_matches hs n
  exact .bind branches fun _ _ _ _ _ _ hs =>
    .bind (enterRule_matches hs rule origin .unspecified none) fun _ _ _ _ _ _ hs => .pure hs rfl

end Search

end VoxelGrammar
