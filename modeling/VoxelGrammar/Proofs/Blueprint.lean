import Mathlib.Tactic.MkIffOfInductiveProp
import VoxelGrammar.Proofs.Acyclicity
import VoxelGrammar.Proofs.Placing
import VoxelGrammar.Settlement.Grammar

/-!
The grammar of settlements. What is written down as a program of its own operations is made by
statements, so the grammar is well built; it refers to nothing that there is not, and every symbol
declares a parameter once. The rest is what its tables say.
-/

namespace VoxelGrammar

deriving instance DecidableEq for Parameter, Assignment, Vec3, Sample, FieldKind, Field

/-! ### Programs that make a draft -/

namespace Draft

variable {α β : Type}

/-- Whenever the computation does not fail, it leads from `P` to `Q`. -/
def Ensures (P : Draft → Prop) (x : Drafting α) (Q : α → Draft → Prop) : Prop :=
  ∀ d a d', P d → x.run d = .ok (a, d') → Q a d'

namespace Ensures

variable {P : Draft → Prop} {Q : α → Draft → Prop}

theorem pure {a : α} (h : ∀ d, P d → Q a d) : Ensures P (pure a) Q := by
  intro d _ _ hd hr
  cases hr
  exact h d hd

theorem bind {x : Drafting α} {f : α → Drafting β} {R : β → Draft → Prop} (hx : Ensures P x Q)
    (hf : ∀ a, Ensures (Q a) (f a) R) : Ensures P (x >>= f) R := by
  intro d b d'' hd hr
  obtain ⟨a, d', first, rest⟩ := bind_ok hr
  exact hf a d' b d'' (hx d a d' hd first) rest

theorem forIn {xs : List α} {f : α → β → Drafting (ForInStep β)}
    (hf : ∀ a b, Ensures P (f a b) fun _ => P) (b : β) :
    Ensures P (ForIn.forIn xs b f) fun _ => P := by
  induction xs generalizing b with
  | nil => exact .pure fun _ h => h
  | cons a xs ih =>
      rw [List.forIn_cons]
      refine .bind (hf a b) fun step => ?_
      cases step with
      | done b => exact .pure fun _ h => h
      | yield b => exact ih b

end Ensures

def Stated (x : Drafting α) : Prop := Ensures (Reached False) x fun _ => Reached False

namespace Stated

theorem pure (a : α) : Stated (Pure.pure a : Drafting α) := Ensures.pure fun _ h => h

theorem bind {x : Drafting α} {f : α → Drafting β} (hx : Stated x) (hf : ∀ a, Stated (f a)) :
    Stated (x >>= f) := Ensures.bind hx hf

theorem forIn {xs : List α} {f : α → β → Drafting (ForInStep β)} (hf : ∀ a b, Stated (f a b)) (b : β) :
    Stated (ForIn.forIn xs b f) := Ensures.forIn hf b

/-- An operation that hands out an identifier is a statement. -/
theorem handing {x : Drafting Nat} (s : Statement) (hs : s.run = some <$> x) : Stated x := by
  intro d id d' reached hr
  have run : s.run.run d = .ok (some id, d') := by
    rw [hs]
    simp only [StateT.run_map, hr]
    rfl
  exact reached.next s False.elim run

/-- An operation that hands out nothing is a statement. -/
theorem silent {x : Drafting Unit} (s : Statement) (hs : s.run = Statement.silent x) : Stated x := by
  intro d _ d' reached hr
  have run : s.run.run d = .ok (none, d') := by
    rw [hs]
    simp only [Statement.silent, StateT.run_bind, hr]
    rfl
  exact reached.next s False.elim run

section Operations

variable (symbol : SymbolRef) (name : String) (c : ComponentId) (r : RuleId) (f i j : FieldId)

theorem rule : Stated (Draft.rule name) := handing (.rule name) rfl

theorem component : Stated (Draft.component name) := handing (.component name) rfl

theorem condition : Stated (Draft.condition symbol f) := silent (.condition symbol f) rfl

theorem pragma (v : PragmaValue) : Stated (Draft.pragma symbol name v) :=
  silent (.pragma symbol name v) rfl

theorem param (type : ValueType) (default : Option FieldId) :
    Stated (Draft.param symbol name type default) := handing (.param symbol name type default) rfl

theorem assign : Stated (Draft.assign symbol name f) := silent (.assign symbol name f) rfl

theorem toNothing : Stated (Draft.toNothing r) := handing (.toNothing r) rfl

theorem toComponent (node : Option String) (reflected : Bool) :
    Stated (Draft.toComponent r c node reflected) := handing (.toComponent r c node reflected) rfl

theorem node (orientation : Orientation) (rule : Option RuleId) :
    Stated (Draft.node c name f orientation rule) := handing (.node c name f orientation rule) rfl

theorem nodePragma (n : Nat) (v : PragmaValue) : Stated (Draft.nodePragma c n name v) :=
  silent (.nodePragma c n name v) rfl

theorem area (policy : OverlapPolicy) (virtualOnly : Bool) :
    Stated (Draft.area c name i j policy virtualOnly) := silent (.area c name i j policy virtualOnly) rfl

theorem fillBox (stop : Option FieldId) : Stated (Draft.fillBox c i j stop) :=
  silent (.fillBox c i j stop) rfl

theorem fillPositions (positions : List Pos) (offset : Option FieldId) :
    Stated (Draft.fillPositions c f positions offset) := silent (.fillPositions c f positions offset) rfl

theorem constant (v : Sample) : Stated (Draft.constant v) := handing (.constant v) rfl

theorem worldPosition : Stated Draft.worldPosition := handing .worldPosition rfl

theorem contextRandom (salt : UInt32) : Stated (Draft.contextRandom salt) :=
  handing (.contextRandom salt) rfl

theorem blockRandom (salt : UInt32) : Stated (Draft.blockRandom salt) := handing (.blockRandom salt) rfl

theorem external (id : Nat) (type : ValueType) : Stated (Draft.external id type) :=
  handing (.external id type) rfl

theorem arithmetic (op : Arithmetic) : Stated (Draft.arithmetic op i j) := handing (.arithmetic op i j) rfl

theorem compare (op : Comparison) : Stated (Draft.compare op i j) := handing (.compare op i j) rfl

theorem and : Stated (Draft.and i j) := handing (.and i j) rfl

theorem select : Stated (Draft.select f i j) := handing (.select f i j) rfl

theorem axis (a : Axis) : Stated (Draft.axis f a) := handing (.axis f a) rfl

end Operations

end Stated

end Draft

/-- The rules that a component calls for when it is attached by the node. -/
def Component.calls (c : Component) (node : Nat) : List RuleId :=
  (c.carriers node).filterMap fun i => c.nodes[i]?.bind (·.rule)

/-! ### The settlement -/

namespace Settlement

open Draft

theorem stated_lot (c : ComponentId) (start stop : Pos) : Stated (lot c start stop) :=
  .bind (.constant _) fun _ => .bind (.constant _) fun _ => .area _ _ _ _ _ _

theorem stated_fillBox (c : ComponentId) (block : FieldId) (start stop : Pos) :
    Stated (fillBox c block start stop) :=
  .bind (.constant _) fun _ => .bind (.constant _) fun _ => .fillBox _ _ _ _

theorem stated_onSurface : Stated onSurface :=
  .bind .worldPosition fun _ => .bind (.axis _ _) fun _ => .bind (.external _ _) fun _ =>
    .bind (.constant _) fun _ => .bind (.arithmetic _ _ _) fun _ => .bind (.arithmetic _ _ _) fun _ =>
    .bind (.compare _ _ _) fun _ => .bind (.compare _ _ _) fun _ => .and _ _

/-- The grammar is written down in operations alone, one after the other. -/
theorem stated_statements : Stated statements := by
  unfold statements ratio noRotation Draft.float Draft.position Draft.float3 Draft.block
  repeat' with_reducible first
    | exact .pure _
    | exact .rule _
    | exact .component _
    | exact .condition _ _
    | exact .pragma _ _ _
    | exact .param _ _ _ _
    | exact .assign _ _ _
    | exact .toNothing _
    | exact .toComponent _ _ _ _
    | exact .node _ _ _ _ _
    | exact .nodePragma _ _ _ _
    | exact .fillPositions _ _ _ _
    | exact .constant _
    | exact .contextRandom _
    | exact .blockRandom _
    | exact .arithmetic _ _ _
    | exact .compare _ _ _
    | exact .select _ _ _
    | exact stated_lot _ _ _
    | exact stated_fillBox _ _ _ _
    | exact stated_onSurface
    | refine Stated.forIn (fun _ _ => ?_) _
    | refine Stated.bind ?_ fun _ => ?_

theorem built : grammar.Built False := by
  obtain ⟨⟨_, d⟩, run, sound⟩ : Succeeds (fun r : Unit × Draft => r.2.error? = none)
      (statements.run .empty) := by decide +kernel
  have reached : Reached False d := stated_statements .empty () d .empty run
  refine ⟨d, reached, ?_⟩
  have compiled : grammar = d.compile := by
    rw [grammar, Drafting.grammar, run]
    simp only [Except.map, Draft.build_of_error? sound]
  rw [compiled, Draft.build_of_error? sound]

/-- The rule that a settlement grows from, the street at an exit of the plaza and at the end of a road, the
alley at the side of a road, and the grove at a corner of the plaza. -/
@[match_pattern] abbrev settlement : RuleId := 0
@[match_pattern] abbrev street : RuleId := 1
@[match_pattern] abbrev alley : RuleId := 2
@[match_pattern] abbrev grove : RuleId := 3

@[match_pattern] abbrev plaza : ComponentId := 0
@[match_pattern] abbrev road : ComponentId := 1
@[match_pattern] abbrev house : ComponentId := 2
@[match_pattern] abbrev tree : ComponentId := 3

def targets : RuleId → List Target
  | settlement => [.component plaza (some "center")]
  | street => [.component road (some "start"), .component house (some "door"), .nothing]
  | alley => [.component house (some "door"), .nothing]
  | grove => [.component tree none, .nothing]
  | _ => []

instance (t : Target) (rules components : Nat) : Decidable (t.Within rules components) :=
  match t with
  | .nothing => .isTrue trivial
  | .rule id => inferInstanceAs (Decidable (id < rules))
  | .component id _ => inferInstanceAs (Decidable (id < components))

def calls : ComponentId → List RuleId
  | plaza => [street, street, street, street, grove, grove, grove, grove]
  | road => [street, alley, alley]
  | _ => []

def joins : List (ComponentId × Option String) :=
  [(plaza, some "center"), (road, some "start"), (house, some "door"), (tree, none)]

def kinds : List (FieldId × FieldKind) :=
  [(0, .constant (.float3 ⟨0, 0, 0⟩)), (1, .worldPosition), (2, .axis 1 .y), (3, .external terrainHeight),
    (4, .constant (.float 4)), (5, .arithmetic .sub 3 4), (6, .arithmetic .add 3 4), (7, .compare .ge 2 5),
    (8, .compare .le 2 6), (9, .and 7 8), (24, .constant (.float 0)), (25, .param "depth"),
    (26, .constant (.float streetDepth)), (27, .compare .lt 25 26), (28, .param "depth"),
    (29, .constant (.float 1)), (30, .arithmetic .add 28 29)]

def isGiven (f : Field) : Bool :=
  match f.kind with
  | .constant _ => true
  | _ => false

@[mk_iff]
structure Tables : Prop where
  names : grammar.findRule entryRule = some settlement ∧ grammar.findRule "street" = some street ∧
    grammar.findComponent "plaza" = some plaza ∧ grammar.findComponent "road" = some road
  rules : grammar.rules.size = 4
  fields : ∀ e ∈ kinds, Succeeds (fun f : Field => f.kind = e.2) (grammar.field e.1)
  /-- References are in range. -/
  within : (∀ e ∈ grammar.expansions, e.target.Within grammar.rules.size grammar.components.size) ∧
    ∀ c ∈ grammar.components, ∀ n ∈ c.nodes, ∀ id, n.rule = some id → id < grammar.rules.size
  /-- Parameters are declared once. -/
  distinct : (∀ r ∈ grammar.rules, (r.symbol.params.map Parameter.key).Nodup) ∧
    (∀ e ∈ grammar.expansions, (e.symbol.params.map Parameter.key).Nodup) ∧
    ∀ c ∈ grammar.components, (c.symbol.params.map Parameter.key).Nodup
  targets : ∀ i < 4, Succeeds (fun r : Rule => ∀ x ∈ r.expansions,
    Succeeds (fun e : Expansion => e.owner = i ∧ e.target ∈ targets i) (grammar.expansion x))
      (grammar.rule i)
  calls : ∀ j ∈ joins, Succeeds (fun c : Component => ∀ o ∈ c.attachments j.2,
    c.calls o.node = calls j.1) (grammar.component j.1)
  /-- Only the plaza and streets have conditions, and only streets and roads have a depth. -/
  quietRules : ∀ i < 4, i ≠ street → Succeeds (fun r : Rule => r.symbol.conditions = [] ∧
    r.symbol.params = [] ∧ r.symbol.assignments = []) (grammar.rule i)
  quietExpansions : ∀ e ∈ grammar.expansions, e.symbol.conditions = [] ∧
    e.symbol.params = [] ∧ e.symbol.assignments = []
  quietComponents : ∀ j ∈ joins, j.1 ≠ road → Succeeds (fun c : Component =>
    c.symbol.params = [] ∧ c.symbol.assignments = []) (grammar.component j.1)
  streetSymbol : Succeeds (fun r : Rule => r.symbol.conditions = [27] ∧
    r.symbol.params = [⟨"depth", .float, some 24, 25⟩] ∧ r.symbol.assignments = [])
    (grammar.rule street)
  roadSymbol : Succeeds (fun c : Component => c.symbol.params = [⟨"depth", .float, some 24, 28⟩] ∧
    c.symbol.assignments = [⟨"depth", .float, 30⟩]) (grammar.component road)
  plazaSymbol : Succeeds (fun c : Component => c.symbol.conditions = [9] ∧ c.symbol.params = [])
    (grammar.component plaza)
  /-- Every expansion offers one way to attach. -/
  single : ∀ e ∈ grammar.expansions, Succeeds (fun offers : List Attachment => offers.length = 1)
    (Search.offered (.remembering grammar .none : World Memory) e.target)
  /-- A rule has few candidates, but has some. -/
  few : ∀ i < 4, Succeeds (fun r : Rule => r.expansions.length ≤ if i = settlement then 1 else 3)
    (grammar.rule i)
  present : ∀ i < 4, ∃ x < grammar.expansions.size,
    Succeeds (fun e : Expansion => e.owner = i) (grammar.expansion x)
  /-- A rule below the plaza may give up, and does so last. -/
  givingUp : ∀ i < 4, i ≠ settlement → ∃ x < grammar.expansions.size,
    Succeeds (fun e : Expansion => e.owner = i ∧ e.target = .nothing) (grammar.expansion x)
  ranks : ∀ e ∈ grammar.expansions, ∀ f ∈ grammar.expansions, e.owner = f.owner → e.target = .nothing →
    f.target ≠ .nothing → f.priority.rank < e.priority.rank
  /-- The plaza is attached by its center, which is its origin and not turned. -/
  center : Succeeds (fun c : Component => ∀ o ∈ c.attachments (some "center"),
    Succeeds (fun n : Node => n.position = 0 ∧ (o.orientation.alignTo Orientation.unspecified
      (n.joint false) * Transform.shift (-Pos.zero)).origin = .zero) (Fault.lookup c.nodes o.node))
    (grammar.component plaza)
  upright : Succeeds (fun r : Rule => ∀ x ∈ r.expansions, Succeeds (fun e : Expansion =>
    e.target = .component plaza (some "center") ∧ e.reflected = false) (grammar.expansion x))
    (grammar.rule settlement)
  plazaNodes : Succeeds (fun c : Component => ∀ n ∈ c.nodes,
    Succeeds (fun f => isGiven f = true) (grammar.field n.position) ∧
      ∀ i ∈ n.rule, i = street ∨ i = grove) (grammar.component plaza)
  plazaAreas : Succeeds (fun c : Component => c.areas.length = 1 ∧
    ∀ a ∈ c.areas, a.policy = .mustNot ∧
      Succeeds (fun f => isGiven f = true) (grammar.field a.start) ∧
      Succeeds (fun f => isGiven f = true) (grammar.field a.stop)) (grammar.component plaza)

set_option synthInstance.maxSize 512 in
instance : Decidable Tables := decidable_of_iff _ tables_iff.symm

theorem tables : Tables := by decide +kernel

/-- What a field is made of. -/
theorem field_of_kinds {id : FieldId} {kind : FieldKind} (known : (id, kind) ∈ kinds) :
    Succeeds (fun f : Field => f.kind = kind) (grammar.field id) := tables.fields _ known

theorem rule_lt {id : RuleId} {r : Rule} (hr : grammar.rule id = .ok r) : id < 4 :=
  tables.rules ▸ (Array.getElem?_eq_some_iff.1 (Fault.lookup_eq_ok_iff.1 hr)).1

/-- Targets and rules of nodes are in range, too. -/
theorem closed : grammar.Closed True where
  fields := built.closed.fields
  rules := built.closed.rules
  expansions id e he := ⟨(built.closed.expansions id e he).1, fun _ =>
    tables.within.1 e (Array.mem_of_getElem? (Fault.lookup_eq_ok_iff.1 he))⟩
  components id c hc :=
    { built.closed.components id c hc with
      rules := fun _ n hn => tables.within.2 c (Array.mem_of_getElem? (Fault.lookup_eq_ok_iff.1 hc)) n hn }
  tiered := built.closed.tiered

theorem acyclic : grammar.Acyclic := by
  refine Grammar.acyclic_of_nodup closed fun ref s hs => ?_
  obtain ⟨rules, expansions, components⟩ := tables.distinct
  exact Grammar.symbol_induction (P := fun s => (s.params.map Parameter.key).Nodup)
    (fun _ r hr => rules r (Array.mem_of_getElem? (Fault.lookup_eq_ok_iff.1 hr)))
    (fun _ e he => expansions e (Array.mem_of_getElem? (Fault.lookup_eq_ok_iff.1 he)))
    (fun _ c hc => components c (Array.mem_of_getElem? (Fault.lookup_eq_ok_iff.1 hc))) hs

end Settlement

end VoxelGrammar
