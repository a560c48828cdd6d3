import Mathlib.Algebra.Order.BigOperators.Group.List
import VoxelGrammar.Proofs.Streets

/-!
How much comes of a rule. Whatever placing a component counts for, a rule of the settlement has a share
that covers what it places and the shares of all rules that this calls for. A street has a share for
each road that may follow, and there are no more than three of them. So everything that a settlement
consists of is counted at its plaza.
-/

namespace VoxelGrammar

/-- What a component calls for is called for by its nodes, below the context that it is placed in. -/
theorem World.calls_sites {μ : Type} {w : World μ} {z : Arena} {h : Handle} {c : Component}
    {order : List Nat} {sites : List Site} (calls : List.Forall₂ (Node.Calls w z h c) order sites) :
    sites.map (·.rule) = order.filterMap (fun i => c.nodes[i]?.bind (·.rule)) ∧
      ∀ s ∈ sites, s.parent = some h := by
  induction calls with
  | nil => exact ⟨rfl, nofun⟩
  | cons first _ ih =>
      obtain ⟨n, node, rule, parent, _⟩ := first
      constructor
      · rw [List.filterMap_cons_some (by rw [node]; exact rule), List.map_cons, ih.1]
      · exact List.forall_mem_cons.2 ⟨parent, ih.2⟩

namespace Derivation

def children : Derivation → List Derivation
  | node _ _ _ _ _ children => children

def placed : Derivation → Option Placement
  | node _ _ _ _ placed _ => placed

/-- The derivation places a plaza at its root and nowhere else. It calls for four streets there, no part
has more than three roads, and there are no more than 45 components. -/
structure Settles (plaza road : ComponentId) (street : RuleId) (t : Derivation) : Prop where
  center : t.placed.map (·.component) = some plaza
  plazas : t.placements.countP (·.component = plaza) = 1
  exits : t.children.countP (·.site.rule = street) = 4
  roads : ∀ u ∈ t.children, u.placements.countP (·.component = road) ≤ 3
  components : t.placements.length ≤ 45

/-- The rule of a derivation stands where it is called for. -/
theorem Valid.stands {μ : Type} {w : World μ} {z : Arena} {seed : Seed} {t : Derivation}
    (valid : t.Valid w z seed) :
    ∃ h, w.Stands z seed t.site.parent (.rule t.site.rule) (.shift t.site.origin) h := by
  cases valid with
  | node stands => exact ⟨_, stands⟩

end Derivation

namespace Settlement

variable {p : Provider} {z : Arena} {seed : Seed} {n : Nat}

/-! ### What is called for -/

theorem joins_of_targets {i : RuleId} {id : ComponentId} {name : Option String}
    (target : .component id name ∈ targets i) : (id, name) ∈ joins := by
  unfold targets at target
  split at target <;> simp at target <;> simp [joins] <;> tauto

theorem not_rule {i : RuleId} {id : RuleId} : .rule id ∉ targets i := by
  unfold targets
  split <;> simp

/-! ### Depths below a site -/

theorem After.rule {i : RuleId} {parent : Option Handle} {placement : Transform} {h : Handle}
    (after : After p z parent n) (ground : z.Grounded) (known : i < 4)
    (stands : (world p).Stands z seed parent (.rule i) placement h) : After p z (some h) n := by
  by_cases hi : i = Settlement.street
  · exact (after.street ground (hi ▸ stands)).2
  · obtain ⟨r, hr, _, params, assignments⟩ := tables.quietRules i known hi
    exact after.passes ground stands (Grammar.symbol_rule hr) params assignments

theorem After.expansion {id : ExpansionId} {parent : Option Handle} {placement : Transform}
    {h : Handle} {e : Expansion} (after : After p z parent n) (ground : z.Grounded)
    (he : grammar.expansion id = .ok e)
    (stands : (world p).Stands z seed parent (.expansion id) placement h) : After p z (some h) n := by
  obtain ⟨_, params, assignments⟩ :=
    tables.quietExpansions e (Array.mem_of_getElem? (Fault.lookup_eq_ok_iff.1 he))
  exact after.passes ground stands (Grammar.symbol_expansion he) params assignments

theorem After.component {id : ComponentId} {name : Option String} {parent : Option Handle}
    {placement : Transform} {h : Handle} (after : After p z parent n) (ground : z.Grounded)
    (join : (id, name) ∈ joins) (other : id ≠ Settlement.road)
    (stands : (world p).Stands z seed parent (.component id) placement h) :
    After p z (some h) n := by
  obtain ⟨c, hc, params, assignments⟩ := tables.quietComponents _ join other
  exact after.passes ground stands (Grammar.symbol_component hc) params assignments

/-! ### Shares -/

/-- What a street counts for after `n` roads: a house, and with each road that may still follow, the
houses on either side. -/
def streetShare (gain : Option ComponentId → Nat) (n : Nat) : Nat :=
  gain (some house) + (3 - n) * (gain (some road) + 2 * gain (some house))

/-- What a rule counts for after `n` roads, where `gain` is what placing a component counts for, or
placing none. -/
def share (gain : Option ComponentId → Nat) (n : Nat) : RuleId → Nat
  | settlement => gain (some plaza) + 4 * streetShare gain n + 4 * gain (some tree)
  | street => streetShare gain n
  | alley => gain (some house)
  | grove => gain (some tree)
  | _ => 0

variable {gain : Option ComponentId → Nat} {site : Site} {context inner : Handle} {r : Rule}
  {id : ExpansionId} {e : Expansion} {placed : Option Placement} {sites : List Site}

/-- An expansion of a rule gives up, or it places a component, and what this calls for is called for
below its context. -/
theorem leads_calls {i : RuleId} (target : e.target ∈ targets i)
    (leads : e.Leads (world p) z seed site context inner placed sites) :
    e.target = .nothing ∧ placed = none ∧ sites = [] ∨
      ∃ pl name placement, placed = some pl ∧ e.target = .component pl.component name ∧
        (world p).Stands z seed (some inner) (.component pl.component) placement pl.context ∧
        (∀ s ∈ sites, s.parent = some pl.context) ∧
        (sites.map (·.rule)).Perm (calls pl.component) := by
  cases leads with
  | nothing given => exact .inl ⟨given, rfl, rfl⟩
  | rule given => exact absurd (given ▸ target) not_rule
  | @component name c at_ n p x placed order sites given component attachment node _ _ stands _ _ nodes
      called =>
      obtain ⟨same, below⟩ := World.calls_sites called
      have known := (tables.calls _ (joins_of_targets (given ▸ target))).of_eq component
      refine .inr ⟨placed, name, _, rfl, given, stands, below, ?_⟩
      rw [same, ← known at_ attachment, node]
      exact nodes.filterMap _

def Frugal (gain : Option ComponentId → Nat) : Prop :=
  gain none ≤ gain (some house) ∧ gain none ≤ gain (some tree)

/-- The shares of the rules that a component calls for, and what it counts for itself, are covered by the
share of the rule that it has been placed for. -/
theorem share_covers (gain : Option ComponentId → Nat) {i : RuleId} {id : ComponentId} {name : Option String}
    (target : .component id name ∈ targets i) (room : id = road → n < 3) :
    gain (some id) + ((calls id).map (share gain (if id = road then n + 1 else n))).sum ≤
      share gain n i := by
  unfold targets at target
  split at target <;> simp at target
  · obtain ⟨rfl, -⟩ := target
    simp [calls, share]
    omega
  · rcases target with ⟨rfl, -⟩ | ⟨rfl, -⟩
    · -- A road takes up one of those that may still follow.
      have one_less : 3 - n = 3 - (n + 1) + 1 := by
        have := room rfl
        omega
      simp [calls, share, streetShare, one_less, Nat.succ_mul]
      omega
    · simp [calls, share, streetShare]
  · obtain ⟨rfl, -⟩ := target
    simp [calls, share]
  · obtain ⟨rfl, -⟩ := target
    simp [calls, share]

theorem share_of_nothing {i : RuleId} (frugal : Frugal gain) (target : .nothing ∈ targets i) :
    gain none ≤ share gain n i := by
  obtain ⟨no_house, no_tree⟩ := frugal
  unfold targets at target
  split at target <;> simp at target <;> simp only [share, streetShare] <;> omega

structure Covered (p : Provider) (z : Arena) (n : Nat) (site : Site) : Prop where
  after : After p z site.parent n
  few : n ≤ 3
  known : site.rule < 4

/-- The settlement itself, after no roads. -/
theorem covered_root (z : Arena) (origin : Pos) (orientation : Orientation) :
    Covered p z 0 ⟨none, settlement, origin, orientation⟩ :=
  ⟨after_root, Nat.zero_le 3, Nat.zero_lt_succ 3⟩

theorem known_of_calls {id : ComponentId} {i : RuleId} (hi : i ∈ calls id) : i < 4 ∧ i ≠ settlement := by
  unfold calls at hi
  split at hi <;> simp at hi <;> rcases hi with rfl | rfl <;> decide

/-- A rule that is resolved passes on what it does not count for to the rules that this calls for. -/
theorem Covered.spends (covered : Covered p z n site) (frugal : Frugal gain) (ground : z.Grounded)
    (stands : (world p).Stands z seed site.parent (.rule site.rule) (.shift site.origin) context)
    (rule : grammar.rule site.rule = .ok r) (choice : id ∈ r.expansions)
    (expansion : grammar.expansion id = .ok e)
    (chosen : (world p).Stands z seed (some context) (.expansion id) .identity inner)
    (leads : e.Leads (world p) z seed site context inner placed sites)
    (below : ∀ s ∈ sites, ∃ h, (world p).Stands z seed s.parent (.rule s.rule) (.shift s.origin) h) :
    ∃ m, (∀ s ∈ sites, Covered p z m s ∧ s.rule ≠ settlement) ∧
      gain (placed.map (·.component)) + (sites.map fun s => share gain m s.rule).sum ≤
        share gain n site.rule := by
  obtain ⟨after, few, known⟩ := covered
  have inside := (after.rule ground known stands).expansion ground expansion chosen
  obtain ⟨_, target⟩ := ((tables.targets site.rule known).of_eq rule id choice).of_eq expansion
  rcases leads_calls target leads with ⟨given, rfl, rfl⟩ | ⟨pl, name, _, rfl, given, placing, parents, rules⟩
  · exact ⟨n, nofun, share_of_nothing frugal (given ▸ target)⟩
  · rw [given] at target
    have joined := joins_of_targets target
    have called : ∀ s ∈ sites, s.rule < 4 ∧ s.rule ≠ settlement := fun s hs =>
      known_of_calls (rules.mem_iff.1 (List.mem_map_of_mem hs))
    have after' : After p z (some pl.context) (if pl.component = road then n + 1 else n) := by
      split
      · next is_road => exact inside.road ground (is_road ▸ placing)
      · next other => exact inside.component ground joined other placing
    -- The street at the end of a road stands, so the road was not the fourth one.
    have room : pl.component = road → n < 3 := by
      intro is_road
      obtain ⟨s, hs, next⟩ : ∃ s ∈ sites, s.rule = street := by
        have first : street ∈ calls pl.component := by simp [is_road, calls]
        simpa using rules.mem_iff.2 first
      obtain ⟨h, standing⟩ := below s hs
      rw [parents s hs, next] at standing
      rw [if_pos is_road] at after'
      exact (reach_lt_iff (n + 1) (Nat.succ_le_succ few)).1 (after'.street ground standing).1
    refine ⟨if pl.component = road then n + 1 else n, fun s hs => ⟨⟨parents s hs ▸ after', ?_,
      (called s hs).1⟩, (called s hs).2⟩, ?_⟩
    · split
      · next is_road => exact room is_road
      · exact few
    · have covers := share_covers gain target room
      rw [← ((rules.map _).sum_eq), List.map_map] at covers
      exact covers

/-! ### Derivations -/

def count (P : ComponentId → Bool) : Option ComponentId → Nat
  | some id => if P id then 1 else 0
  | none => 0

theorem frugal_count (P : ComponentId → Bool) : Frugal (count P) := ⟨Nat.zero_le _, Nat.zero_le _⟩

/-- Of every kind of components, no more are placed in a derivation than the share of its rule. -/
theorem placements_le_share {t : Derivation} (valid : t.Valid (world p) z seed) (ground : z.Grounded)
    (covered : Covered p z n t.site) (P : ComponentId → Bool) :
    t.placements.countP (fun pl => P pl.component) ≤ share (count P) n t.site.rule := by
  induction valid generalizing n with
  | @node site context inner r id e placed children stands rule choice expansion chosen leads below ih =>
      obtain ⟨m, sites, spends⟩ := covered.spends (frugal_count P) ground stands rule choice expansion
        chosen leads (List.forall_mem_map.2 fun t ht => (below t ht).stands)
      have here : placed.toList.countP (fun pl => P pl.component) = count P (placed.map (·.component)) := by
        cases placed with
        | none => rfl
        | some pl => simp [count, List.countP_cons]
      have there : (children.flatMap Derivation.placements).countP (fun pl => P pl.component) ≤
          ((children.map (·.site)).map fun s => share (count P) m s.rule).sum := by
        rw [List.countP_flatMap, List.map_map]
        refine List.sum_le_sum fun t ht => ?_
        exact ih t ht (sites t.site (List.mem_map_of_mem ht)).1
      rw [Derivation.placements, List.countP_append, here]
      exact (Nat.add_le_add_left there _).trans spends

/-- No rule but that of the settlement counts for more than three roads. -/
theorem roads_le (m : Nat) {i : RuleId} (other : i ≠ settlement) :
    share (count (· = road)) m i ≤ 3 := by
  unfold share
  split
  · exact absurd rfl other
  · simp [streetShare, count]
  · simp [count]
  · simp [count]
  · exact Nat.zero_le 3

/-- What a settlement consists of. -/
theorem settles_of_valid {t : Derivation} (valid : t.Valid (world p) z seed) (ground : z.Grounded)
    {origin : Pos} {orientation : Orientation} (root : t.site = ⟨none, settlement, origin, orientation⟩) :
    t.Settles plaza road street := by
  have covered : Covered p z 0 t.site := root ▸ covered_root z origin orientation
  have bound : ∀ P : ComponentId → Bool, t.placements.countP (fun pl => P pl.component) ≤
      share (count P) 0 settlement := fun P => by
    have placed := placements_le_share valid ground covered P
    rwa [root] at placed
  cases valid with
  | @node site context inner r id e placed children stands rule choice expansion chosen leads below =>
      obtain rfl : site = _ := root
      obtain ⟨_, target⟩ := ((tables.targets settlement (by decide)).of_eq rule id choice).of_eq expansion
      obtain ⟨m, sites, -⟩ := covered.spends (frugal_count fun _ => true) ground stands rule choice
        expansion chosen leads (List.forall_mem_map.2 fun t ht => (below t ht).stands)
      rcases leads_calls target leads with ⟨given, -⟩ | ⟨pl, name, _, rfl, given, _, _, rules⟩
      · rw [given] at target
        simp [targets] at target
      obtain ⟨is_plaza, -⟩ : pl.component = plaza ∧ name = some "center" := by
        rw [given] at target
        simpa [targets] using target
      rw [is_plaza] at rules
      refine ⟨congrArg some is_plaza, ?_, ?_, fun u hu => ?_, ?_⟩
      · refine le_antisymm (bound (· = plaza)) (List.countP_pos_iff.2 ⟨pl, ?_, by simp [is_plaza]⟩)
        simp [Derivation.placements]
      · have exits := rules.countP_eq (· = street)
        rw [List.map_map, List.countP_map] at exits
        exact exits
      · obtain ⟨covered', other⟩ := sites u.site (List.mem_map_of_mem hu)
        exact (placements_le_share (below u hu) ground covered' (· = road)).trans
          (roads_le m other)
      · have all := bound fun _ => true
        rwa [List.countP_true] at all

end Settlement

end VoxelGrammar
