import VoxelGrammar.Proofs.Placing
import VoxelGrammar.Proofs.Scoping
import VoxelGrammar.Proofs.Worth

/-!
What is enough for rules and components to be entered. A symbol gets a context below a parent that is
there if its parameters have defaults. An expansion that asks for nothing and offers a single way to
attach is taken up as soon as it is looked at. Where the conditions hold, and positions mean something,
nothing is left that a rule or a component could fail for; so where a search comes to an answer at all,
they have been entered.
-/

namespace VoxelGrammar

variable {μ : Type} {w : World μ} {s s' : Search μ}

/-- A symbol can be entered below a parent that is there if its parameters have defaults. -/
theorem Arena.prepare_of_defaults {a : Arena} {g : Grammar} {parent : Option Handle} {ref : SymbolRef}
    {symbol : Symbol} {above : Option (Handle × Context)} (hp : a.parentContext parent = .ok above)
    (hs : g.symbol ref = .ok symbol) (defaults : ∀ p ∈ symbol.params, symbol.default? p.key ≠ none)
    (placement : Transform) (seed : Seed) : ∃ x, a.prepare g parent ref placement seed = .ok x := by
  have found : Context.missing? symbol (Context.inputsOf symbol above) = none := by
    refine List.find?_eq_none.2 fun p hmem => ?_
    rw [Context.get?_inputsOf]
    simp [defaults p hmem]
  obtain ⟨x, hx⟩ : ∃ x, Context.enter above ref symbol placement seed = .ok x := by
    unfold Context.enter
    dsimp only
    rw [found]
    exact ⟨_, rfl⟩
  refine ⟨x, ?_⟩
  rw [prepare, hp, hs]
  show (Context.enter above ref symbol placement seed).mapError EvalError.grammar = _
  rw [hx]
  rfl

namespace Search

open SearchM

theorem enter_of_prepared {parent : Option Handle} {ref : SymbolRef} {placement : Transform} {x : Context}
    (prepared : s.arena.prepare w.grammar parent ref placement s.plan.seed = .ok x) :
    (enter w parent ref placement).run s = (.ok (.ok (s.arena.push x).1), entered w x s) := by
  simp only [enter, run_bind, run_get, Arena.create, prepared]
  rfl

theorem meets_of_holds {h : Handle} {conditions : List FieldId}
    (holds : ((w.holds s.arena h conditions).run s.memory).1 = .ok true) :
    (meets w h conditions).run s = (.ok true, looked w h conditions s) := by
  rw [meets, run_bind, run_evaluate, holds]
  rfl

/-- A component whose conditions do not hold is refused. -/
theorem Creates.refused {t : Attempt} {id : ComponentId} {c : Component} {n : Node} {q : Pos}
    {x : Context} (creates : Creates w t s id c n q x)
    (fails : ∀ m, ((w.holds (s.arena.push x).2 (s.arena.push x).1 c.symbol.conditions).run m).1 =
      .ok false) : ((attempt w t).run s).1 = .ok false := by
  have met : ∀ s₁ : Search μ, s₁.arena = (s.arena.push x).2 →
      (meets w (s.arena.push x).1 c.symbol.conditions).run s₁ =
        (.ok false, looked w (s.arena.push x).1 c.symbol.conditions s₁) := by
    intro s₁ arena
    rw [meets, run_bind, run_evaluate, arena, fails]
    rfl
  rw [creates.run_attempt, settleComponent, run_bind_of_ok (met _ rfl)]
  rfl

/-! ### Attempts -/

/-- The expansion asks for nothing, and offers one way to attach. -/
structure Plain (w : World μ) (e : Expansion) (o : Attachment) : Prop where
  params : e.symbol.params = []
  conditions : e.symbol.conditions = []
  offers : offered w e.target = .ok [o]

theorem ordered_singleton (target : Target) (seed : Seed) (o : Attachment) :
    ordered target seed [o] = [o] := by
  cases target with
  | component => exact List.perm_singleton.1 (Seed.shuffle_perm _ [o])
  | nothing => rfl
  | rule => rfl

section

variable {entry : RuleEntry} {c : Candidate} {e : Expansion} {o : Attachment} {x : Context}
  (he : w.grammar.expansion c.expansion = .ok e) (plain : Plain w e o) (numbered : s.arena.Numbered)
  (live : s.arena.get entry.context = .ok x)

include he plain numbered live

/-- A plain candidate is taken up. -/
theorem openCandidate_plain (later : List Candidate) :
    ∃ h s', (openCandidate w entry c later).run s = (.ok (some ⟨entry, c, h, o, [], later⟩), s') := by
  have above : s.arena.parentContext (some entry.context) = .ok (some (entry.context, x)) := by
    rw [Arena.parentContext, live]
    rfl
  obtain ⟨y, prepared⟩ := Arena.prepare_of_defaults above (Grammar.symbol_expansion he)
    (by simp [plain.params]) .identity s.plan.seed
  have here : (entered w y s).arena.get (s.arena.push y).1 = .ok y := Arena.get_push numbered y
  have symbol : w.grammar.symbol y.symbol = .ok e.symbol := by
    rw [Arena.symbol_of_prepare prepared]
    exact Grammar.symbol_expansion he
  have met : (meets w (s.arena.push y).1 []).run (entered w y s) = (.ok true, entered w y s) := rfl
  refine ⟨(s.arena.push y).1, assigned (s.arena.push y).1 e.symbol (entered w y s), ?_⟩
  rw [openCandidate, run_bind, run_lift, he]
  dsimp only
  rw [run_bind, run_contextCount]
  dsimp only
  rw [run_bind_of_ok (enter_of_prepared prepared), plain.conditions]
  dsimp only
  rw [run_bind_of_ok met, if_pos rfl, run_bind, run_context, here]
  dsimp only
  rw [run_bind, run_lift, plain.offers]
  dsimp only
  rw [ordered_singleton, run_bind_of_ok (assign_live here symbol)]
  rfl

theorem openFirst_plain (later : List Candidate) :
    ∃ h s', (openFirst w entry (c :: later)).run s =
      (.ok (some ⟨entry, c, h, o, [], later⟩), s') := by
  obtain ⟨h, s', opens⟩ := openCandidate_plain he plain numbered live later
  exact ⟨h, s', run_bind_of_ok opens⟩

end

/-! ### Rules -/

/-- A rule whose conditions hold and whose first candidate is plain is entered. -/
theorem enterRule_enters {id : RuleId} {origin : Pos} {orientation : Orientation}
    {parent : Option Handle} {r : Rule} {x : Context} {c : Candidate} {later : List Candidate}
    {e : Expansion} {o : Attachment} {b : Bool} (numbered : s.arena.Numbered)
    (hr : w.grammar.rule id = .ok r)
    (prepared : s.arena.prepare w.grammar parent (.rule id) (.shift origin) s.plan.seed = .ok x)
    (holds : ((w.holds (s.arena.push x).2 (s.arena.push x).1 r.symbol.conditions).run
      (w.notebook.addPage s.memory)).1 = .ok true)
    (candidates : r.candidates (Seed.hash candidateSalt x.seed) = c :: later)
    (he : w.grammar.expansion c.expansion = .ok e) (plain : Plain w e o)
    (run : (enterRule w id origin orientation parent).run s = (.ok b, s')) : b = true := by
  have here : (looked w (s.arena.push x).1 r.symbol.conditions (entered w x s)).arena.get
      (s.arena.push x).1 = .ok x := Arena.get_push numbered x
  have symbol : w.grammar.symbol x.symbol = .ok r.symbol := by
    rw [Arena.symbol_of_prepare prepared]
    exact Grammar.symbol_rule hr
  let entry : RuleEntry := ⟨orientation, (s.arena.push x).1⟩
  let s₁ := assigned (s.arena.push x).1 r.symbol (looked w (s.arena.push x).1 r.symbol.conditions
    (entered w x s))
  have numbered₁ : s₁.arena.Numbered := Arena.numbered_modify (Arena.numbered_push numbered x) _ _
  have live : s₁.arena.get entry.context = .ok (x.assign r.symbol) :=
    Arena.get_assign_push numbered x r.symbol
  obtain ⟨h, s₂, opens⟩ := openFirst_plain he plain numbered₁ live later
  have met := meets_of_holds (s := entered w x s) (h := (s.arena.push x).1) holds
  rw [enterRule, run_bind, run_lift, hr] at run
  dsimp only at run
  rw [run_bind, run_contextCount] at run
  dsimp only at run
  rw [run_bind_of_ok (enter_of_prepared prepared)] at run
  dsimp only at run
  rw [run_bind_of_ok met, if_pos rfl, run_bind, run_context, here] at run
  dsimp only at run
  rw [candidates] at run
  dsimp only at run
  rw [run_bind_of_ok (assign_live here symbol), run_bind_of_ok opens] at run
  obtain ⟨_, _, _, last⟩ := bind_ok run
  cases last
  rfl

/-! ### Components -/

section

variable {own : Prop} {w : World Unit} {s s' : Search Unit} {h : Handle} {b : Bool}

/-- The first area of a structure has nothing to get on with. -/
theorem placeAreas_first {spec : AreaSpec} {area : Area} (first : s.plan.areas = #[])
    (policy : spec.policy ≠ .must) (described : (areaOf w s.arena h spec).answer = .ok area)
    (run : (placeAreas w h [spec]).run s = (.ok b, s')) : b = true := by
  have admitted : admits spec.policy #[] area = true := by
    cases hp : spec.policy with
    | may => rfl
    | mustNot => simp [admits]
    | must => exact absurd hp policy
  have answered : (evaluate fun a => areaOf w a h spec).run s = (.ok (.ok area), s) := by
    have told : ((areaOf w s.arena h spec).run s.memory).1 = .ok area := described
    rw [run_evaluate, told]
    rfl
  rw [placeAreas, run_bind_of_ok answered] at run
  dsimp only at run
  rw [run_bind, run_get] at run
  dsimp only at run
  rw [first, if_pos admitted] at run
  split at run <;> cases run <;> rfl

/-- As long as these contexts are there, the nodes of the component in the context `h` are somewhere, and
the rules that they carry are entered. -/
structure Hosts (w : World Unit) (live : List (Handle × Context)) (h : Handle) (c : Component) :
    Prop where
  position : ∀ t : Search Unit, t.arena.Numbered → t.snapshot.Sane w → live <+: t.arena.live →
    ∀ n ∈ c.nodes, ∃ p, (w.samplePos t.arena h n.position).answer = .ok p
  enters : ∀ t : Search Unit, t.arena.Numbered → t.snapshot.Sane w → live <+: t.arena.live →
    ∀ n ∈ c.nodes, ∀ id, n.rule = some id → ∀ p b t',
      (enterRule w id p n.orientation (some h)).run t = (.ok b, t') → b = true

theorem Hosts.enterNodes {live : List (Handle × Context)} {c : Component} {is : List Nat}
    (hosts : Hosts w live h c) (closed : w.grammar.Closed own) (numbered : s.arena.Numbered)
    (sane : s.snapshot.Sane w) (hp : live <+: s.arena.live)
    (run : (enterNodes w h c.nodes is).run s = (.ok b, s')) : b = true := by
  induction is generalizing s with
  | nil =>
      cases run
      rfl
  | cons i rest ih =>
      unfold Search.enterNodes at run
      obtain ⟨n, hn, run⟩ := lift_bind_ok run
      have hmem : n ∈ c.nodes := Array.mem_of_getElem? (Fault.lookup_eq_ok_iff.1 hn)
      split at run
      · exact ih numbered sane hp run
      · next id hrule =>
        obtain ⟨p, hpos⟩ := hosts.position s numbered sane hp n hmem
        have answered : (evaluate fun a => w.samplePos a h n.position).run s = (.ok (.ok p), s) := by
          have told : ((w.samplePos s.arena h n.position).run s.memory).1 = .ok p := hpos
          rw [run_evaluate, told]
          rfl
        rw [run_bind_of_ok answered] at run
        obtain ⟨done, s₁, entering, run⟩ := SearchM.bind_ok run
        obtain rfl := hosts.enters s numbered sane hp n hmem id hrule p done s₁ entering
        rcases enterRule_ok numbered entering with ⟨hfalse, _⟩ | ⟨_, r, x, a, enters⟩
        · cases hfalse
        · have grows := enters.grows (Nat.le_refl _)
          exact ih grows.numbered (enters.sane closed numbered sane) (hp.trans grows.isPrefix) run

variable {t : Search Unit} {c : Component} {x : Context} {spec : AreaSpec} {area : Area}
  (closed : w.grammar.Closed own) (numbered : t.arena.Numbered) (sane : t.snapshot.Sane w)
  (first : t.plan.areas = #[]) (single : c.areas = [spec]) (policy : spec.policy ≠ .must)
  (described : (areaOf w (t.arena.push x).2 (t.arena.push x).1 spec).answer = .ok area)
  (hosts : Hosts w (t.arena.live ++ [((t.arena.push x).1, x.assign c.symbol)]) (t.arena.push x).1 c)

include closed numbered sane first single policy described hosts

/-- The first component of a structure is populated in its new context. -/
theorem populate_hosts {node : Nat} {parent : Option Handle} {ref : SymbolRef} {placement : Transform}
    {seed : Seed} (prepared : t.arena.prepare w.grammar parent ref placement seed = .ok x)
    (symbol : w.grammar.symbol ref = .ok c.symbol) (arena : s.arena = (t.arena.push x).2)
    (areas : s.plan.areas = t.plan.areas) (queue : s.plan.queue = t.plan.queue)
    (placements : ∀ p ∈ s.plan.placements, p ∈ t.plan.placements ∨
      p.context = (t.arena.push x).1 ∧ ∃ c, w.grammar.component p.component = .ok c)
    (run : (populate w c (t.arena.push x).1 node).run s = (.ok b, s')) : b = true := by
  unfold populate at run
  obtain ⟨placed, s₁, placing, run⟩ := SearchM.bind_ok run
  obtain ⟨harena, recorded, _, hplan⟩ := placeAreas_ok placing
  obtain rfl : placed = true := by
    rw [single] at placing
    exact placeAreas_first (areas.trans first) policy (arena ▸ described) placing
  have here : s₁.arena.get (t.arena.push x).1 = .ok x :=
    (harena.trans arena).symm ▸ Arena.get_push numbered x
  have own_symbol : w.grammar.symbol x.symbol = .ok c.symbol := by
    rw [Arena.symbol_of_prepare prepared]
    exact symbol
  rw [if_pos rfl, run_bind_of_ok (assign_live here own_symbol)] at run
  obtain ⟨_, _, run⟩ := context_bind_ok run
  rw [run_bind, run_get] at run
  have handed : (assigned (t.arena.push x).1 c.symbol s₁).arena =
      (t.arena.push x).2.assign (t.arena.push x).1 c.symbol := by
    rw [assigned, harena, arena]
  have live : (assigned (t.arena.push x).1 c.symbol s₁).arena.live =
      t.arena.live ++ [((t.arena.push x).1, x.assign c.symbol)] := by
    rw [handed, Arena.live_assign_push numbered]
  have lives := Arena.isLive_of_get (Arena.get_push numbered x)
  have sane' : (assigned (t.arena.push x).1 c.symbol s₁).arena.Sane w.grammar :=
    handed ▸ ((sane_arena numbered sane).push closed prepared).assign (closed.symbol symbol) lives
  refine hosts.enterNodes closed sane'.numbered ?_ (live ▸ List.prefix_refl _) run
  refine sane_of_subset sane sane' (live ▸ List.subset_append_left _ _) (fun u hu => ?_) fun p hp => ?_
  · rw [assigned, hplan] at hu
    exact .inl (queue ▸ hu)
  · rw [assigned, hplan] at hp
    rcases placements p hp with hp | ⟨context, component⟩
    · exact .inl hp
    · exact .inr ⟨⟨x.assign c.symbol, by rw [live, context]; simp⟩, component⟩

/-- The first component of a structure is placed once it has been created, if its conditions hold. -/
theorem Creates.places {a : Attempt} {id : ComponentId} {n : Node} {q : Pos}
    (creates : Creates w a t id c n q x)
    (holds : (w.holds (t.arena.push x).2 (t.arena.push x).1 c.symbol.conditions).answer = .ok true)
    (run : (attempt w a).run t = (.ok b, s')) : b = true := by
  have met := meets_of_holds (w := w) (h := (t.arena.push x).1) (s := entered w x t) holds
  rw [creates.run_attempt, settleComponent] at run
  have run := (run_bind_of_ok met).symm.trans run
  rw [if_pos rfl, run_bind, run_branchAt] at run
  dsimp only at run
  obtain ⟨_, s₁, accepting, run⟩ := SearchM.bind_ok run
  obtain ⟨y, hy, rfl⟩ := accept_ok accepting
  obtain ⟨populated, s₂, populating, run⟩ := SearchM.bind_ok run
  obtain rfl : populated = true := by
    refine populate_hosts closed numbered sane first single policy described hosts creates.prepared
      (Grammar.symbol_component creates.component) ?_ ?_ ?_ (fun p hp => ?_) populating
    · rfl
    · rfl
    · rfl
    · rcases Array.mem_push.1 hp with hp | rfl
      · exact .inl hp
      · exact .inr ⟨rfl, c, creates.component⟩
  cases run
  rfl

end

end Search

end VoxelGrammar
