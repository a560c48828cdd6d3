import VoxelGrammar.Proofs.Fallbacks
import VoxelGrammar.Proofs.Poses

/-!
The plaza of a settlement. It is placed right at the origin, under the one condition that the ground is
level enough there. Nothing else can be in its way: it lays out the first area, and the streets and the
groves that it calls for are entered in whatever state the search has come to.
-/

namespace VoxelGrammar

/-- Scalars and vectors are added up in their first components, whatever they are. -/
theorem Arithmetic.asFloat_combine (op : Arithmetic) (s t : Sample) :
    (op.combine s t).asFloat = op.apply s.asFloat t.asFloat := by
  cases s <;> cases t <;> rfl

theorem Transform.apply_zero (t : Transform) : t.apply .zero = t.origin := by
  apply Pos.ext <;> simp [apply, origin, Rotation.apply, Pos.dot, Pos.zero]

/-- A context that stands lies as its placement says. -/
theorem World.Stands.frame {μ : Type} {w : World μ} {z : Arena} {seed : Seed} {parent : Option Handle}
    {ref : SymbolRef} {placement : Transform} {h : Handle}
    (stands : w.Stands z seed parent ref placement h) :
    ∃ x, z.get h = .ok x ∧ (parent = none → x.toWorld = placement) ∧
      ∀ q y, parent = some q → z.get q = .ok y → x.toWorld = y.toWorld * placement := by
  obtain ⟨c, s, prepared, _, live, _⟩ := stands
  obtain ⟨_, top, below⟩ := Arena.frame_of_prepare prepared
  exact ⟨c.assign s, live, top, below⟩

namespace Settlement

open Search

variable {p : Provider} {z : Arena} {seed : Seed} {h : Handle} {x : Context} {origin : Pos}

/-! ### The condition -/

/-- The position is at most four blocks above or below the ground that the provider tells of. -/
def Level (p : Provider) (origin : Pos) : Prop :=
  ∃ d s, p.dimensionality terrainHeight = some d ∧
    p.sample terrainHeight (d.anchor origin) = some s ∧
    s.asFloat - 4 ≤ origin.toVec3.y ∧ origin.toVec3.y ≤ s.asFloat + 4

section

variable (live : z.get h = .ok x) {d : Dimensionality} {v : Pos → Sample}
  (hd : p.dimensionality terrainHeight = some d) (hv : ∀ q, p.sample terrainHeight q = some (v q))

include live hd hv

/-- What is added to the height of the ground, or taken off it, is worth its distance from there. -/
theorem worth_bound {op : Arithmetic} {id : FieldId}
    (known : (id, .arithmetic op 3 4) ∈ kinds) :
    (world p).forgetful.Worth z h id d fun q => op.combine (v (d.anchor q)) (.float 4) := by
  obtain ⟨f, hf, kind⟩ := field_of_kinds known
  obtain ⟨f₃, hf₃, k₃⟩ := field_of_kinds (show (3, .external terrainHeight) ∈ kinds by decide)
  have height : (world p).forgetful.Worth z h 3 _ _ := .external live hf₃ k₃ hd hv
  have tolerance : (world p).forgetful.Amounts z h 4 (.float 4) := amounts_constant live (by decide)
  have bound := World.Worth.binary live hf (by rw [kind]; rfl) height tolerance
  rw [kind] at bound
  cases d <;> exact bound

/-- The condition of the plaza is worth whether the ground is level enough. -/
theorem worth_condition : (world p).forgetful.Worth z h 9 .varying fun q =>
    .bool (decide ((v (d.anchor q)).asFloat - 4 ≤ q.toVec3.y) &&
      decide (q.toVec3.y ≤ (v (d.anchor q)).asFloat + 4)) := by
  obtain ⟨f₁, hf₁, k₁⟩ := field_of_kinds (show (1, .worldPosition) ∈ kinds by decide)
  obtain ⟨f₂, hf₂, k₂⟩ := field_of_kinds (show (2, .axis 1 .y) ∈ kinds by decide)
  obtain ⟨f₇, hf₇, k₇⟩ := field_of_kinds (show (7, .compare .ge 2 5) ∈ kinds by decide)
  obtain ⟨f₈, hf₈, k₈⟩ := field_of_kinds (show (8, .compare .le 2 6) ∈ kinds by decide)
  obtain ⟨f₉, hf₉, k₉⟩ := field_of_kinds (show (9, .and 7 8) ∈ kinds by decide)
  have place : (world p).forgetful.Worth z h 1 _ _ := .worldPosition live hf₁ k₁
  have y := World.Worth.unary live hf₂ (by rw [k₂]; rfl) place
  have low : (world p).forgetful.Worth z h 5 _ _ :=
    worth_bound live hd hv (show (5, .arithmetic .sub 3 4) ∈ kinds by decide)
  have high : (world p).forgetful.Worth z h 6 _ _ :=
    worth_bound live hd hv (show (6, .arithmetic .add 3 4) ∈ kinds by decide)
  have above := World.Worth.binary live hf₇ (by rw [k₇]; rfl) y low
  have below := World.Worth.binary live hf₈ (by rw [k₈]; rfl) y high
  have both := World.Worth.binary live hf₉ (by rw [k₉]; rfl) above below
  rw [k₂, k₇, k₈, k₉] at both
  simp only [FieldKind.combine, Comparison.holds, Arithmetic.asFloat_combine] at both
  exact both

end

/-- The condition of the plaza comes to whether the ground is level enough at the origin of its context. -/
theorem holds_condition (total : p.Total) (live : z.get h = .ok x) :
    ∃ b, ((world p).forgetful.holds z h [9]).answer = .ok b ∧ (b = true ↔ Level p x.origin) := by
  obtain ⟨d, hd⟩ := total.dimensionality terrainHeight
  choose v hv using total.sample terrainHeight
  refine ⟨_, (worth_condition live hd hv).holds built.marked live, ?_⟩
  rw [Sample.asBool, Bool.and_eq_true, decide_eq_true_eq, decide_eq_true_eq]
  constructor
  · rintro ⟨low, high⟩
    exact ⟨d, _, hd, hv _, low, high⟩
  · rintro ⟨d', s, hd', hs, low, high⟩
    obtain rfl : d = d' := Option.some.inj (hd.symm.trans hd')
    obtain rfl : v (d.anchor x.origin) = s := Option.some.inj ((hv _).symm.trans hs)
    exact ⟨low, high⟩

/-! ### Where it lies -/

theorem origin_value : (Sample.float3 ⟨0, 0, 0⟩).asPos = .zero := by decide

variable {s s' : Search Unit} {a : Attempt}

abbrev root (origin : Pos) : Site := ⟨none, settlement, origin, .unspecified⟩

/-- An attempt at the settlement is to attach the plaza by its center. -/
theorem targets_plaza {c : Component} (hc : grammar.component plaza = .ok c)
    (waits : a.Waits (world p) z seed (root origin)) :
    a.candidate.reflected = false ∧ a.attachment ∈ c.attachments (some "center") ∧
      ∃ e, grammar.expansion a.candidate.expansion = .ok e ∧
        e.target = .component plaza (some "center") := by
  obtain ⟨r, hr, lists⟩ := waits.rule
  obtain ⟨choice, e, he, mirrored⟩ := lists _ List.mem_cons_self
  obtain ⟨target, upright⟩ := (tables.upright.of_eq hr _ choice).of_eq he
  refine ⟨mirrored.symm.trans upright, ?_, e, he, target⟩
  obtain ⟨e', offers, he', told, offered⟩ := waits.offered
  obtain rfl : e = e' := Except.ok.inj (he.symm.trans he')
  have component : (world p).grammar.component plaza = .ok c := hc
  rw [target, Search.offered, component] at told
  exact Except.ok.inj told ▸ offered _ List.mem_cons_self

/-- It creates the plaza at the origin. -/
theorem creates_plaza (waits : a.Waits (world p) s.arena s.plan.seed (root origin)) :
    ∃ c n x, Creates (world p).forgetful a s plaza c n .zero x ∧ x.origin = origin := by
  obtain ⟨c, hc, center⟩ := tables.center
  obtain ⟨upright, attached, e, he, target⟩ := targets_plaza hc waits
  obtain ⟨n, hn, position, still⟩ := center a.attachment attached
  obtain ⟨y, hy, top, _⟩ := waits.stands.frame
  obtain ⟨u, hu, _, below⟩ := waits.chosen.frame
  have located : ((world p).forgetful.samplePos s.arena a.context n.position).answer = .ok .zero := by
    have zero : (world p).forgetful.Amounts s.arena a.context 0 (.float3 ⟨0, 0, 0⟩) :=
      amounts_constant hu (by decide)
    rw [position, World.Worth.samplePos zero built.marked hu, origin_value]
  have above : s.arena.parentContext (some a.context) = .ok (some (a.context, u)) := by
    rw [Arena.parentContext, hu]
    rfl
  obtain ⟨_, params⟩ := tables.plazaSymbol.of_eq hc
  let placement := attach a.entry a.attachment (n.joint a.candidate.reflected) .zero
  obtain ⟨x, prepared⟩ := Arena.prepare_of_defaults above (Grammar.symbol_component hc)
    (by simp [params]) placement s.plan.seed
  have unmoved : placement.origin = .zero := by
    show (a.attachment.orientation.alignTo a.entry.orientation.adjacent _ * _).origin = _
    rw [waits.orientation, upright]
    exact still
  refine ⟨c, n, x, ⟨⟨e, _, he, target⟩, hc, Fault.lookup_eq_ok_iff.1 hn, located, prepared⟩, ?_⟩
  calc x.origin = (u.toWorld * placement).origin :=
        congrArg Transform.origin ((Arena.frame_of_prepare prepared).2.2 _ u rfl hu)
    _ = u.toWorld.apply placement.origin := rfl
    _ = u.toWorld.origin := by rw [unmoved, Transform.apply_zero]
    _ = y.toWorld.apply .zero := congrArg Transform.origin (below _ y rfl hy)
    _ = origin := by rw [Transform.apply_zero, top rfl]; rfl

/-! ### What it calls for -/

theorem amounts_given {id : FieldId} (live : z.get h = .ok x)
    (given : Succeeds (fun f => isGiven f = true) (grammar.field id)) :
    ∃ v, (world p).forgetful.Amounts z h id v := by
  obtain ⟨f, hf, given⟩ := given
  unfold isGiven at given
  split at given
  · next v kind => exact ⟨v, .constant live hf kind⟩
  · cases given

theorem candidates_cons {id : RuleId} {r : Rule} (hr : grammar.rule id = .ok r) (seed : Seed) :
    ∃ c later, r.candidates seed = c :: later := by
  obtain ⟨_, arranges⟩ := Grammar.arranges_of_built built hr seed
  obtain ⟨x, _, e, he, owner⟩ := tables.present id (rule_lt hr)
  refine List.exists_cons_of_ne_nil fun none => ?_
  have once := arranges.once x e he owner
  rw [none] at once
  cases once

theorem ends_of_sane {z : Arena} (sane : z.Sane grammar) : (world p).Ends z :=
  ⟨built.marked, closed.tiered, sane.numbered, sane.ground⟩

section

variable {id : RuleId} {orientation : Orientation} {parent : Option Handle} {b : Bool}

/-- A rule whose conditions hold is entered. -/
theorem enterRule_of_holds {r : Rule} {y : Context} (numbered : s.arena.Numbered)
    (hr : grammar.rule id = .ok r)
    (prepared : s.arena.prepare grammar parent (.rule id) (.shift origin) s.plan.seed = .ok y)
    (holds : ((world p).forgetful.holds (s.arena.push y).2 (s.arena.push y).1 r.symbol.conditions).answer =
      .ok true)
    (run : (enterRule (world p).forgetful id origin orientation parent).run s = (.ok b, s')) :
    b = true := by
  obtain ⟨c, later, candidates⟩ := candidates_cons hr (Seed.hash candidateSalt y.seed)
  obtain ⟨_, e, he, _⟩ := closed.tiered id r hr (Seed.hash candidateSalt y.seed) c (by simp [candidates])
  obtain ⟨o, plain⟩ := plain_expansions p he
  exact enterRule_enters (w := (world p).forgetful) numbered hr prepared holds candidates he plain run

/-- Rules other than streets are entered wherever there is a parent for them. -/
theorem enterRule_quiet {above : Option (Handle × Context)} (known : id < 4) (quiet : id ≠ street)
    (numbered : s.arena.Numbered) (hp : s.arena.parentContext parent = .ok above)
    (run : (enterRule (world p).forgetful id origin orientation parent).run s = (.ok b, s')) :
    b = true := by
  obtain ⟨r, hr, conditions, params, _⟩ := tables.quietRules id known quiet
  obtain ⟨y, prepared⟩ := Arena.prepare_of_defaults hp (Grammar.symbol_rule hr)
    (by simp [params]) (.shift origin) s.plan.seed
  refine enterRule_of_holds numbered hr prepared ?_ run
  rw [conditions]
  rfl

/-- Where streets start at the surface, a street or a grove is entered in any case. -/
theorem enterRule_succeeds (sane : s.arena.Sane grammar) (live : s.arena.get h = .ok x)
    (after : ∀ z, (world p).Ends z → s.arena.live <+: z.live → After p z (some h) 0)
    (known : id = street ∨ id = grove)
    (run : (enterRule (world p).forgetful id origin orientation (some h)).run s = (.ok b, s')) :
    b = true := by
  have above : s.arena.parentContext (some h) = .ok (some (h, x)) := by
    rw [Arena.parentContext, live]
    rfl
  rcases known with rfl | rfl
  · obtain ⟨r, hr, conditions, params, _⟩ := tables.streetSymbol
    obtain ⟨y, prepared⟩ := Arena.prepare_of_defaults above (Grammar.symbol_rule hr)
      (by simp [params, Symbol.default?, Parameter.key]) (.shift origin) s.plan.seed
    refine enterRule_of_holds sane.numbered hr prepared ?_ run
    have pushed := sane.push closed prepared
    have seats := World.seats_push (w := world p) sane.numbered prepared (Grammar.symbol_rule hr)
    have kept : s.arena.live <+: (s.arena.push y).2.live := by
      rw [Arena.live_push sane.numbered]
      exact List.prefix_append _ _
    have depth := (after _ (ends_of_sane pushed) kept).amounts pushed.ground params seats (by decide)
    rw [conditions, World.Worth.holds (amounts_shallow seats.live depth) built.marked seats.live]
    rfl
  · exact enterRule_quiet (by decide) (by decide) sane.numbered above run

end

/-- The area of the plaza can be told in its context. -/
theorem areaOf_given {spec : AreaSpec} (live : z.get h = .ok x)
    (start : Succeeds (fun f => isGiven f = true) (grammar.field spec.start))
    (stop : Succeeds (fun f => isGiven f = true) (grammar.field spec.stop)) :
    ∃ area, (areaOf (world p).forgetful z h spec).answer = .ok area := by
  obtain ⟨u, hu⟩ := amounts_given (p := p) live start
  obtain ⟨v, hv⟩ := amounts_given (p := p) live stop
  refine ⟨⟨spec.nameId, .spanning (x.mapToWorld u.asPos) (x.mapToWorld v.asPos)⟩, ?_⟩
  rw [areaOf, Eval.answer_bind, World.Worth.sampleWorldPos hu built.marked live]
  show Eval.answer (_ >>= _) = _
  rw [Eval.answer_bind, World.Worth.sampleWorldPos hv built.marked live]
  rfl

/-- An attempt at a rule goes on from the depth of its site. -/
theorem After.waits {z : Arena} {site : Site} {n : Nat} (after : After p z site.parent n)
    (ground : z.Grounded) (waits : a.Waits (world p) z seed site) (known : site.rule < 4) :
    After p z (some a.context) n := by
  obtain ⟨e, _, he, _⟩ := waits.offered
  exact (after.rule ground known waits.stands).expansion ground he waits.chosen

/-- Once the plaza stands, what it calls for can be entered in whatever state the search is. -/
theorem plaza_hosts {c : Component} {b : Arena} (hc : grammar.component plaza = .ok c)
    (live : b.get h = .ok x) (numbered : b.Numbered)
    (after : ∀ z, (world p).Ends z → b.live <+: z.live → After p z (some h) 0) :
    Hosts (world p).forgetful b.live h c := by
  have nodes := tables.plazaNodes.of_eq hc
  refine ⟨fun t ht sane hp n hn => ?_, fun t ht sane hp n hn id rule q b t' run => ?_⟩
  · have here := Arena.get_of_isPrefix numbered ht hp live
    obtain ⟨v, hv⟩ := amounts_given (p := p) here (nodes n hn).1
    exact ⟨_, World.Worth.samplePos hv built.marked here⟩
  · have here := Arena.get_of_isPrefix numbered ht hp live
    exact enterRule_succeeds (sane_arena ht sane) here (fun z ends hz => after z ends (hp.trans hz))
      ((nodes n hn).2 id rule) run

section

variable (waits : ∀ z, (world p).Ends z → s.arena.live <+: z.live →
  a.Waits (world p) z s.plan.seed (root origin))

include waits

/-- So it is where it has just been created. -/
theorem created_hosts {c : Component} {n : Node} {q : Pos} (numbered : s.arena.Numbered)
    (creates : Creates (world p).forgetful a s plaza c n q x)
    (holds : ((world p).forgetful.holds (s.arena.push x).2 (s.arena.push x).1 c.symbol.conditions).answer =
      .ok true) :
    Hosts (world p).forgetful (s.arena.live ++ [((s.arena.push x).1, x.assign c.symbol)])
      (s.arena.push x).1 c := by
  have hc : grammar.component plaza = .ok c := creates.component
  let b := (s.arena.push x).2.assign (s.arena.push x).1 c.symbol
  have live : b.live = s.arena.live ++ [((s.arena.push x).1, x.assign c.symbol)] :=
    Arena.live_assign_push numbered x c.symbol
  have numbered' : b.Numbered := Arena.numbered_modify (Arena.numbered_push numbered x) _ _
  have opens : Search.Opens (world p).forgetful s.plan.seed s.arena (some a.context) (.component plaza)
      _ x c.symbol b :=
    ⟨creates.prepared, Grammar.symbol_component hc, ⟨(), holds⟩, live, numbered'⟩
  rw [← live]
  refine plaza_hosts hc (Arena.get_assign_push numbered x c.symbol) numbered' fun z ends hz => ?_
  have there := waits z ends ((live ▸ List.prefix_append _ _).trans hz)
  have standing := opens.stands built.marked numbered ends.numbered ends.ground hz
  have joined : (plaza, some "center") ∈ joins := by decide
  have inside : After p z (some a.context) 0 :=
    after_root.waits ends.ground there (Nat.zero_lt_succ 3)
  exact inside.component ends.ground joined (by decide) standing

/-- The plaza is placed where the ground is level enough, and nowhere else. -/
theorem attempt_plaza_iff {b : Bool} (total : p.Total) (secure : Secure (world p).forgetful s)
    (first : s.plan.areas = #[])
    (run : (attempt (world p).forgetful a).run s = (.ok b, s')) : b = true ↔ Level p origin := by
  have numbered := secure.kept.numbered
  obtain ⟨c, n, x, creates, rfl⟩ := creates_plaza (waits _ (ends_of_sane secure.arena) (List.prefix_refl _))
  have hc : grammar.component plaza = .ok c := creates.component
  obtain ⟨conditions, params⟩ := tables.plazaSymbol.of_eq hc
  obtain ⟨level, holds, level_iff⟩ := holds_condition total (Arena.get_push numbered x)
  rw [← conditions] at holds
  rw [← level_iff]
  cases level with
  | false =>
      have refused := creates.refused fun _ => holds
      rw [run] at refused
      cases refused
      exact Iff.rfl
  | true =>
      obtain ⟨one, areas⟩ := tables.plazaAreas.of_eq hc
      obtain ⟨spec, single⟩ := List.length_eq_one_iff.1 one
      obtain ⟨policy, start, stop⟩ := areas spec (by simp [single])
      obtain ⟨area, described⟩ := areaOf_given (p := p) (Arena.get_push numbered x) start stop
      have placed := creates.places closed numbered secure.sane first single (by simp [policy]) described
        (created_hosts waits numbered creates holds) holds run
      simp [placed]

end

end Settlement

end VoxelGrammar
