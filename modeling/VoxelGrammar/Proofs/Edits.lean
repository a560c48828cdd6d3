import Mathlib.Logic.Relation
import VoxelGrammar.Grammar.Statement
import VoxelGrammar.Proofs.Meaning

/-!
What statements do to a draft. However much a statement checks first, all that it changes in the end
is one of a few things: it keeps a mistake, appends a field, refers to a rule or a component for the
first time or declares one, changes the symbol that it is about, or adds an expansion to a rule. An
edit comes with what is known when it is made, in particular with the types that have been checked,
unless there was a mistake. So whatever is kept by every edit is true of every draft.
-/

namespace VoxelGrammar

variable {α β : Type}

/-! ### What is known of an edit -/

def OfType (fields : Array Field) (id : FieldId) (t : ValueType) : Prop :=
  ∃ f, fields[id]? = some f ∧ f.type = t

inductive FieldKind.HasType (fields : Array Field) : FieldKind → ValueType → Prop
  | constant (s : Sample) : HasType fields (.constant s) s.type
  | worldPosition : HasType fields .worldPosition .float3
  | localPosition : HasType fields .localPosition .float3
  | contextRandom (salt : UInt32) : HasType fields (.contextRandom salt) .float
  | blockRandom (salt : UInt32) : HasType fields (.blockRandom salt) .float
  /-- A placeholder has the type that its parameter is declared with. -/
  | param (name : String) (t : ValueType) : HasType fields (.param name) t
  | external (e : Nat) (t : ValueType) : HasType fields (.external e) t
  /-- A scalar is spread over the components of a vector. -/
  | arithmetic (op : Arithmetic) {a b : FieldId} {s t : ValueType} (lhs : OfType fields a s)
      (rhs : OfType fields b t) (left : s = .float ∨ s = .float3) (right : t = .float ∨ t = .float3) :
      HasType fields (.arithmetic op a b) (if s = .float3 ∨ t = .float3 then .float3 else .float)
  | compare (op : Comparison) {a b : FieldId} {t : ValueType} (lhs : OfType fields a t)
      (rhs : OfType fields b t) (comparable : t = .float ∨ t = .block) :
      HasType fields (.compare op a b) .bool
  | and {a b : FieldId} (lhs : OfType fields a .bool) (rhs : OfType fields b .bool) :
      HasType fields (.and a b) .bool
  | or {a b : FieldId} (lhs : OfType fields a .bool) (rhs : OfType fields b .bool) :
      HasType fields (.or a b) .bool
  | not {a : FieldId} (value : OfType fields a .bool) : HasType fields (.not a) .bool
  | select {c a b : FieldId} {t : ValueType} (condition : OfType fields c .bool)
      (whenTrue : OfType fields a t) (whenFalse : OfType fields b t) :
      HasType fields (.select c a b) t
  | vector {x y z : FieldId} (hx : OfType fields x .float) (hy : OfType fields y .float)
      (hz : OfType fields z .float) : HasType fields (.vector x y z) .float3
  | axis {v : FieldId} (axis : Axis) (vector : OfType fields v .float3) :
      HasType fields (.axis v axis) .float

theorem OfType.lt {fields : Array Field} {id : FieldId} {t : ValueType} (h : OfType fields id t) :
    id < fields.size := by
  obtain ⟨f, hf, _⟩ := h
  exact (Array.getElem?_eq_some_iff.1 hf).1

theorem getElem?_push_of_some {xs : Array α} {i : Nat} {x : α} (h : xs[i]? = some x) (y : α) :
    (xs.push y)[i]? = some x := by
  have hlt := (Array.getElem?_eq_some_iff.1 h).1
  rw [Array.getElem?_push, if_neg (by omega), h]

theorem modify_congr {xs : Array α} {i : Nat} {f g : α → α}
    (h : ∀ x, xs[i]? = some x → f x = g x) : xs.modify i f = xs.modify i g := by
  refine Array.ext_getElem? fun j => ?_
  rw [Array.getElem?_modify, Array.getElem?_modify]
  split
  · next hj =>
    subst hj
    cases hx : xs[i]? with
    | none => rfl
    | some x => exact congrArg some (h x hx)
  · rfl

theorem OfType.push {fields : Array Field} {id : FieldId} {t : ValueType} (h : OfType fields id t)
    (f : Field) : OfType (fields.push f) id t := by
  obtain ⟨f', hf', ht⟩ := h
  exact ⟨f', getElem?_push_of_some hf' f, ht⟩

def Target.Within (rules components : Nat) : Target → Prop
  | .nothing => True
  | .rule id => id < rules
  | .component id _ => id < components

namespace Statement

/-- The statement names no rule and no component as a target that the draft has not handed out.
For all other identifiers the draft sees to that itself. -/
def Owned (d : Draft) : Statement → Prop
  | .toRule _ target => target < d.rules.size
  | .toComponent _ target _ _ => target < d.components.size
  | .node _ _ _ _ attached => ∀ id, attached = some id → id < d.rules.size
  | _ => True

/-- The symbol that the statement adds to, if it adds to one that has been handed out. -/
def subject : Statement → Option SymbolRef
  | .condition s _ | .pragma s _ _ | .param s _ _ _ | .assign s _ _ => some s
  | .toNothing r | .toRule r _ | .toComponent r _ _ _ => some (.rule r)
  | .node c _ _ _ _ | .nodePragma c _ _ _ | .area c _ _ _ _ _ | .fillBox c _ _ _
  | .fillPositions c _ _ _ => some (.component c)
  | _ => none

end Statement

namespace Draft

/-- The drafts that some statements lead to, with only `own` identifiers as targets if so wanted. -/
inductive Reached (own : Prop) : Draft → Prop
  | empty : Reached own .empty
  | next {d d' : Draft} {id : Option Nat} (s : Statement) (reached : Reached own d)
    (owned : own → s.Owned d) (run : s.run.run d = .ok (id, d')) : Reached own d'

/-! ### Edits -/

def marks (fields : Array Field) (kind : FieldKind) : Bool :=
  kind.readsContext || kind.inputs.any fun i => fields[i]?.any (·.contextual)

inductive SymbolEdit (d : Draft) : (Symbol → Symbol) → Prop
  | condition {id : FieldId} (known : id < d.fields.size)
      (typed : d.error = none → OfType d.fields id .bool) :
      SymbolEdit d fun s => { s with conditions := s.conditions ++ [id] }
  | pragma (name : String) (value : PragmaValue) :
      SymbolEdit d fun s => { s with pragmas := s.pragmas.set name value }
  /-- The placeholder of a parameter comes after the default. -/
  | param {name : String} {type : ValueType} {default : Option FieldId} {placeholder : FieldId}
      {f : Field} (older : ∀ id, default = some id → id < placeholder)
      (found : d.fields[placeholder]? = some f) (type_eq : f.type = type) (kind : f.kind = .param name)
      (typed : d.error = none → ∀ id, default = some id → OfType d.fields id type) :
      SymbolEdit d fun s => { s with params := s.params ++ [⟨name, type, default, placeholder⟩] }
  | assign (name : String) {type : ValueType} {value : FieldId} (typed : OfType d.fields value type) :
      SymbolEdit d fun s => { s with assignments := s.assignments ++ [⟨name, type, value⟩] }

inductive ComponentEdit (own : Prop) (d : Draft) : (Component → Component) → Prop
  | node (name : String) {position : FieldId} {orientation : Orientation} {attached : Option RuleId}
      (known : position < d.fields.size)
      (owned : own → ∀ id, attached = some id → id < d.rules.size)
      (typed : d.error = none → OfType d.fields position .float3 ∧ orientation.isValid = true) :
      ComponentEdit own d fun c =>
        { c with nodes := c.nodes.push ⟨name, position, orientation, attached, .empty⟩ }
  | nodePragma (node : Nat) (name : String) (value : PragmaValue) :
      ComponentEdit own d fun c =>
        { c with nodes := c.nodes.modify node fun n => { n with pragmas := n.pragmas.set name value } }
  | area (name : String) {start stop : FieldId} (policy : OverlapPolicy) (virtualOnly : Bool)
      (known : start < d.fields.size ∧ stop < d.fields.size)
      (typed : d.error = none → OfType d.fields start .float3 ∧ OfType d.fields stop .float3) :
      ComponentEdit own d fun c =>
        { c with areas := c.areas ++ [⟨name, 0, start, stop, policy, virtualOnly⟩] }
  | fill {f : Fill} (known : f.block < d.fields.size)
      (corners : ∀ id, f.start = some id ∨ f.stop = some id → id < d.fields.size)
      (typed : d.error = none → OfType d.fields f.block .block ∧
        ∀ id, f.start = some id ∨ f.stop = some id → OfType d.fields id .float3) :
      ComponentEdit own d fun c => { c with fills := c.fills ++ [f] }

def modifySymbol (d : Draft) (f : Symbol → Symbol) : SymbolRef → Draft
  | .rule id => { d with rules := d.rules.modify id fun e =>
      { e with value := { e.value with symbol := f e.value.symbol } } }
  | .expansion id => { d with expansions := d.expansions.modify id fun e =>
      { e with symbol := f e.symbol } }
  | .component id => { d with components := d.components.modify id fun e =>
      { e with value := { e.value with symbol := f e.value.symbol } } }

/-- One change of a draft by a statement that adds to the symbol `subject`. -/
inductive Edit (own : Prop) (subject : Option SymbolRef) : Draft → Draft → Prop
  | complain (d : Draft) (e : GrammarError) :
      Edit own subject d { d with error := d.error.or (some e) }
  | field {d : Draft} {type : ValueType} {kind : FieldKind}
      (inputs : ∀ i ∈ kind.inputs, i < d.fields.size)
      (typed : d.error = none → kind.HasType d.fields type) :
      Edit own subject d { d with fields := d.fields.push ⟨type, kind, marks d.fields kind⟩ }
  | referRule {d : Draft} {name : String} (fresh : ∀ e ∈ d.rules, e.value.symbol.name ≠ name) :
      Edit own subject d { d with rules := d.rules.push ⟨⟨.named name, [], []⟩, false⟩ }
  | declareRule (d : Draft) (id : RuleId) :
      Edit own subject d { d with rules := d.rules.modify id fun e => { e with declared := true } }
  | referComponent {d : Draft} {name : String}
      (fresh : ∀ e ∈ d.components, e.value.symbol.name ≠ name) :
      Edit own subject d
        { d with components := d.components.push ⟨⟨.named name, #[], [], []⟩, false⟩ }
  | declareComponent (d : Draft) (id : ComponentId) :
      Edit own subject d
        { d with components := d.components.modify id fun e => { e with declared := true } }
  | symbol {d : Draft} {s : SymbolRef} (here : subject = some s) {f : Symbol → Symbol}
      (edit : SymbolEdit d f) : Edit own subject d (d.modifySymbol f s)
  | component {d : Draft} {id : ComponentId} (here : subject = some (.component id))
      {f : Component → Component} (edit : ComponentEdit own d f) :
      Edit own subject d
        { d with components := d.components.modify id fun e => { e with value := f e.value } }
  /-- A rule is declared by giving it an expansion. -/
  | expand {d : Draft} {owner : RuleId} (here : subject = some (.rule owner)) (name : String)
      {target : Target} (reflected : Bool) (known : owner < d.rules.size)
      (owned : own → target.Within d.rules.size d.components.size) :
      Edit own subject d { d with
        rules := d.rules.modify owner fun e =>
          ⟨{ e.value with expansions := e.value.expansions ++ [d.expansions.size] }, true⟩
        expansions := d.expansions.push ⟨.named name, owner, target, reflected⟩ }

def Edits (own : Prop) (subject : Option SymbolRef) : Draft → Draft → Prop :=
  Relation.ReflTransGen (Edit own subject)

theorem Edits.keep {own : Prop} {subject : Option SymbolRef} {I : Draft → Prop} {d d' : Draft}
    (edits : Edits own subject d d')
    (edit : ∀ {d d'}, Edit own subject d d' → I d → I d') (h : I d) : I d' := by
  induction edits with
  | refl => exact h
  | tail _ last ih => exact edit last ih

/-! ### Reading a run -/

variable {own : Prop} {subject : Option SymbolRef} {d d' d₀ : Draft} {u : PUnit}

theorem bind_ok {x : Drafting α} {f : α → Drafting β} {b : β}
    (run : (x >>= f).run d = .ok (b, d')) :
    ∃ a d₁, x.run d = .ok (a, d₁) ∧ (f a).run d₁ = .ok (b, d') := by
  rw [StateT.run_bind] at run
  obtain ⟨⟨a, d₁⟩, first, rest⟩ := bind_ok_iff.1 run
  exact ⟨a, d₁, first, rest⟩

/-- What a statement hands out is what has been handed to it. -/
theorem handed_ok {x : Drafting Nat} {r : Option Nat} (run : (some <$> x).run d = .ok (r, d')) :
    x.run d = .ok (r.getD 0, d') := by
  rw [← bind_pure_comp] at run
  obtain ⟨id, d₁, first, rest⟩ := bind_ok run
  cases rest
  exact first

theorem silent_ok {x : Drafting Unit} {b : Option Nat}
    (run : (Statement.silent x).run d = .ok (b, d')) : x.run d = .ok ((), d') := by
  obtain ⟨_, d₁, first, rest⟩ := bind_ok run
  cases rest
  exact first

theorem lift_ok {x : Except Fault α} {a : α}
    (run : (liftM x : Drafting α).run d = .ok (a, d')) : x = .ok a ∧ d = d' := by
  cases x with
  | error e => cases run
  | ok b =>
      cases run
      exact ⟨rfl, rfl⟩

theorem amend_ok {table table' : Array α} {id : Nat} {f : α → α}
    (h : amend table id f = .ok table') : id < table.size ∧ table' = table.modify id f := by
  unfold amend at h
  split at h
  · cases h
    exact ⟨‹_›, rfl⟩
  · cases h

/-- Changing one entry of a table. -/
theorem update_ok {table : Draft → Array α} {put : Draft → Array α → Draft} {id : Nat} {f : α → α}
    (run : (do
      let d ← get
      set (put d (← amend (table d) id f)) : Drafting PUnit).run d = .ok (u, d')) :
    id < (table d).size ∧ d' = put d ((table d).modify id f) := by
  obtain ⟨_, d₁, read, run⟩ := bind_ok run
  cases read
  obtain ⟨t, d₂, lifted, run⟩ := bind_ok run
  obtain ⟨amended, rfl⟩ := lift_ok lifted
  obtain ⟨known, rfl⟩ := amend_ok amended
  cases run
  exact ⟨known, rfl⟩

theorem amendComponent_ok {id : ComponentId} {f : Component → Component}
    (run : (amendComponent id f).run d = .ok (u, d')) : id < d.components.size ∧
      d' = { d with components := d.components.modify id fun e => { e with value := f e.value } } :=
  update_ok run

theorem amendSymbol_ok {f : Symbol → Symbol} {s : SymbolRef}
    (run : (amendSymbol f s).run d = .ok (u, d')) : d' = d.modifySymbol f s := by
  cases s with
  | rule id => exact (update_ok run).2
  | expansion id => exact (update_ok run).2
  | component id => exact (update_ok run).2

/-- Reading something off an entry of a table. -/
theorem entry_ok {table : Draft → Array α} {id : Nat} {f : α → β} {b : β}
    (run : (do
      let d ← get
      let a ← Fault.lookup (table d) id
      return f a : Drafting β).run d = .ok (b, d')) :
    d = d' ∧ ∃ a, (table d)[id]? = some a ∧ b = f a := by
  obtain ⟨_, d₁, read, run⟩ := bind_ok run
  cases read
  obtain ⟨a, d₂, lifted, run⟩ := bind_ok run
  obtain ⟨found, rfl⟩ := lift_ok lifted
  cases run
  exact ⟨rfl, a, Fault.lookup_eq_ok_iff.1 found, rfl⟩

theorem getSymbol_ok {s : SymbolRef} {symbol : Symbol}
    (run : (getSymbol s).run d = .ok (symbol, d')) : d = d' := by
  cases s with
  | rule id | component id =>
      obtain ⟨_, d₁, read, run⟩ := bind_ok run
      cases run
      exact (entry_ok read).1
  | expansion id => exact (entry_ok run).1

/-! ### Checks -/

/-- After checking the draft at most a mistake has been kept, and `R` holds if there is none. -/
def Checked (own : Prop) (subject : Option SymbolRef) (d : Draft) (R : Prop) (d' : Draft) : Prop :=
  ∃ e, d' = { d with error := e } ∧ Edits own subject d d' ∧ (e = none → d.error = none ∧ R)

section Checks

variable {R : Prop} (checked : Checked own subject d₀ R d)

theorem Checked.refl (d : Draft) : Checked own subject d True d :=
  ⟨d.error, rfl, .refl, fun he => ⟨he, trivial⟩⟩

include checked

theorem Checked.and {S : Prop} (hS : S) : Checked own subject d₀ (R ∧ S) d := by
  obtain ⟨e, same, edits, fine⟩ := checked
  exact ⟨e, same, edits, fun he => ⟨(fine he).1, (fine he).2, hS⟩⟩

/-- After a complaint nothing is left to be shown. -/
theorem Checked.complain {e : GrammarError} (run : (complain e).run d = .ok (u, d')) (S : Prop) :
    Checked own subject d₀ S d' := by
  obtain ⟨e₀, rfl, edits, _⟩ := checked
  cases run
  exact ⟨_, rfl, edits.tail (.complain _ e), fun none => by cases e₀ <;> cases none⟩

theorem Checked.typeOf {id : FieldId} {f : ValueType → Drafting β} {b : β}
    (run : (typeOf id >>= f).run d = .ok (b, d')) :
    ∃ t, OfType d₀.fields id t ∧ (f t).run d = .ok (b, d') := by
  obtain ⟨e, rfl, _, _⟩ := checked
  obtain ⟨t, d₁, read, run⟩ := bind_ok run
  obtain ⟨rfl, field, found, rfl⟩ := entry_ok read
  exact ⟨_, ⟨field, found, rfl⟩, run⟩

theorem Checked.expect {place : FieldUse} {t : ValueType} {id : FieldId} {f : PUnit → Drafting β}
    {b : β} (run : (expect place t id >>= f).run d = .ok (b, d')) :
    id < d₀.fields.size ∧ ∃ d₁, Checked own subject d₀ (R ∧ OfType d₀.fields id t) d₁ ∧
      (f ⟨⟩).run d₁ = .ok (b, d') := by
  obtain ⟨_, d₁, read, run⟩ := bind_ok run
  obtain ⟨found, known, read⟩ := checked.typeOf read
  refine ⟨known.lt, d₁, ?_, run⟩
  split at read
  · exact checked.complain read _
  · next heq =>
    rw [ne_eq, not_not] at heq
    cases read
    exact checked.and (heq ▸ known)

/-- Checking one type after the other. -/
theorem Checked.forIn {P : ValueType → Prop} {types : List ValueType}
    {check : ValueType → PUnit → Drafting (ForInStep PUnit)}
    (each : ∀ {t R d d' step}, Checked own subject d₀ R d → (check t ⟨⟩).run d = .ok (step, d') →
      step = .yield ⟨⟩ ∧ Checked own subject d₀ (R ∧ P t) d')
    (run : (ForIn.forIn types ⟨⟩ check).run d = .ok (u, d')) :
    Checked own subject d₀ (R ∧ ∀ t ∈ types, P t) d' := by
  induction types generalizing R d with
  | nil =>
      cases run
      exact checked.and fun _ h => nomatch h
  | cons t types ih =>
      rw [List.forIn_cons] at run
      obtain ⟨step, d₁, first, run⟩ := bind_ok run
      obtain ⟨rfl, checked⟩ := each checked first
      obtain ⟨e, same, edits, fine⟩ := ih checked run
      refine ⟨e, same, edits, fun he => ?_⟩
      obtain ⟨fine, ⟨hR, ht⟩, rest⟩ := fine he
      exact ⟨fine, hR, List.forall_mem_cons.2 ⟨ht, rest⟩⟩

end Checks

theorem lookups_ok {fields : Array Field} {ids : List FieldId} {fs : List Field}
    (run : (ids.mapM fun id => (liftM (Fault.lookup fields id) : Drafting Field)).run d =
      .ok (fs, d')) : d = d' ∧ fs.map some = ids.map (fields[·]?) := by
  induction ids generalizing fs d' with
  | nil =>
      cases run
      exact ⟨rfl, rfl⟩
  | cons id ids ih =>
      rw [List.mapM_cons] at run
      obtain ⟨f, d₁, first, run⟩ := bind_ok run
      obtain ⟨found, rfl⟩ := lift_ok first
      obtain ⟨rest, d₂, others, run⟩ := bind_ok run
      obtain ⟨rfl, same⟩ := ih others
      cases run
      exact ⟨rfl, by rw [List.map_cons, List.map_cons, same, Fault.lookup_eq_ok_iff.1 found]⟩

theorem field_ok {type : ValueType} {kind : FieldKind} {id : FieldId}
    (run : (field type kind).run d = .ok (id, d')) :
    (∀ i ∈ kind.inputs, i < d.fields.size) ∧ id = d.fields.size ∧
      d' = { d with fields := d.fields.push ⟨type, kind, marks d.fields kind⟩ } := by
  obtain ⟨_, d₁, read, run⟩ := bind_ok run
  cases read
  obtain ⟨fs, d₂, lookups, run⟩ := bind_ok run
  obtain ⟨rfl, found⟩ := lookups_ok lookups
  obtain ⟨_, d₃, pushed, run⟩ := bind_ok run
  cases pushed
  cases run
  have inputs : ∀ i ∈ kind.inputs, i < d.fields.size := by
    intro i hi
    have hmem : d.fields[i]? ∈ fs.map some := found ▸ List.mem_map_of_mem hi
    obtain ⟨f, _, hf⟩ := List.mem_map.1 hmem
    exact (Array.getElem?_eq_some_iff.1 hf.symm).1
  have mark : (kind.readsContext || fs.any (·.contextual)) = marks d.fields kind := by
    have any : fs.any (·.contextual) = (fs.map some).any (·.any (·.contextual)) := by
      rw [List.any_map]
      rfl
    rw [any, found, List.any_map]
    rfl
  exact ⟨inputs, rfl, by rw [mark]⟩

/-! ### Statements -/

section Checked

variable {R : Prop} (checked : Checked own subject d₀ R d)

include checked

/-- Appending a field whose operands have been checked. -/
theorem Checked.field {type : ValueType} {kind : FieldKind} {id : FieldId}
    (typed : R → kind.HasType d₀.fields type)
    (run : (Draft.field type kind).run d = .ok (id, d')) : Edits own subject d₀ d' := by
  obtain ⟨e, rfl, edits, fine⟩ := checked
  obtain ⟨inputs, _, rfl⟩ := field_ok run
  exact edits.tail (.field inputs fun he => typed (fine he).2)

theorem Checked.symbol {s : SymbolRef} (here : subject = some s) {f : Symbol → Symbol}
    (edit : ∀ e, (e = none → R) → SymbolEdit { d₀ with error := e } f)
    (run : (amendSymbol f s).run d = .ok (u, d')) : Edits own subject d₀ d' := by
  obtain ⟨e, rfl, edits, fine⟩ := checked
  obtain rfl := amendSymbol_ok run
  exact edits.tail (.symbol here (edit e fun he => (fine he).2))

theorem Checked.component {id : ComponentId} (here : subject = some (.component id))
    {f : Component → Component}
    (edit : ∀ e, (e = none → R) → ComponentEdit own { d₀ with error := e } f)
    (run : (amendComponent id f).run d = .ok (u, d')) : Edits own subject d₀ d' := by
  obtain ⟨e, rfl, edits, fine⟩ := checked
  obtain ⟨_, rfl⟩ := amendComponent_ok run
  exact edits.tail (.component here (edit e fun he => (fine he).2))

/-- Declaring a parameter whose default has been checked. -/
theorem Checked.param {s : SymbolRef} (here : subject = some s) {name : String} {type : ValueType}
    {default : Option FieldId} (known : ∀ id, default = some id → id < d₀.fields.size)
    (typed : R → ∀ id, default = some id → OfType d₀.fields id type) {b : FieldId}
    (run : (do
      let placeholder ← Draft.field type (.param name)
      amendSymbol (fun s => { s with params := s.params ++ [⟨name, type, default, placeholder⟩] }) s
      return placeholder : Drafting FieldId).run d = .ok (b, d')) : Edits own subject d₀ d' := by
  obtain ⟨placeholder, d₁, appended, run⟩ := bind_ok run
  obtain ⟨_, d₂, amended, run⟩ := bind_ok run
  cases run
  obtain ⟨e, rfl, edits, fine⟩ := checked
  obtain ⟨inputs, rfl, rfl⟩ := field_ok appended
  obtain rfl := amendSymbol_ok amended
  refine (edits.tail (.field inputs fun _ => .param name type)).tail (.symbol here (.param known
    (Array.getElem?_push_size ..) rfl rfl fun he id hid => ?_))
  exact (typed (fine he).2 id hid).push _

end Checked

section Statements

variable {s : SymbolRef} {id : Nat} {name : String} {b : Nat}

theorem edits_ruleRef (run : (ruleRef name).run d = .ok (b, d')) : Edits own subject d d' := by
  obtain ⟨_, d₁, read, run⟩ := bind_ok run
  cases read
  split at run
  · cases run
    exact .refl
  · next hnone =>
    obtain ⟨_, d₂, pushed, run⟩ := bind_ok run
    cases pushed
    cases run
    have fresh := Array.findIdx?_eq_none_iff.1 hnone
    exact .single (.referRule fun e he => by simpa using fresh e he)

theorem edits_rule (run : (rule name).run d = .ok (b, d')) : Edits own subject d d' := by
  obtain ⟨r, d₁, referred, run⟩ := bind_ok run
  obtain ⟨_, d₂, amended, run⟩ := bind_ok run
  cases run
  obtain ⟨_, rfl⟩ := update_ok amended
  exact (edits_ruleRef referred).tail (.declareRule d₁ b)

theorem edits_componentRef (run : (componentRef name).run d = .ok (b, d')) :
    Edits own subject d d' := by
  obtain ⟨_, d₁, read, run⟩ := bind_ok run
  cases read
  split at run
  · cases run
    exact .refl
  · next hnone =>
    obtain ⟨_, d₂, pushed, run⟩ := bind_ok run
    cases pushed
    cases run
    have fresh := Array.findIdx?_eq_none_iff.1 hnone
    exact .single (.referComponent fun e he => by simpa using fresh e he)

theorem edits_component (run : (component name).run d = .ok (b, d')) : Edits own subject d d' := by
  obtain ⟨c, d₁, referred, run⟩ := bind_ok run
  simp only [← bind_assoc] at run
  obtain ⟨_, d₂, amended, run⟩ := bind_ok run
  cases run
  obtain ⟨_, rfl⟩ := update_ok amended
  exact (edits_componentRef referred).tail (.declareComponent d₁ b)

theorem edits_condition {id : FieldId} (run : (condition s id).run d = .ok (u, d')) :
    Edits own (some s) d d' := by
  have checked : Checked own (some s) d True d := .refl d
  obtain ⟨symbol, d₁, read, run⟩ := bind_ok run
  obtain rfl := getSymbol_ok read
  obtain ⟨known, d₂, checked, run⟩ := checked.expect run
  exact checked.symbol rfl (fun e fine => .condition known fun he => (fine he).2) run

theorem edits_pragma {value : PragmaValue} (run : (pragma s name value).run d = .ok (u, d')) :
    Edits own (some s) d d' :=
  (Checked.refl d).symbol rfl (fun _ _ => .pragma name value) run

theorem edits_param {type : ValueType} {default : Option FieldId}
    (run : (param s name type default).run d = .ok (b, d')) : Edits own (some s) d d' := by
  have checked : Checked own (some s) d True d := .refl d
  unfold param at run
  cases default with
  | none => refine checked.param rfl ?_ ?_ run <;> simp
  | some id =>
      obtain ⟨known, d₁, checked, run⟩ := checked.expect run
      refine checked.param rfl (fun i hi => ?_) (fun typed i hi => ?_) run
      · exact Option.some.inj hi ▸ known
      · exact Option.some.inj hi ▸ typed.2

theorem edits_assign {value : FieldId} (run : (assign s name value).run d = .ok (u, d')) :
    Edits own (some s) d d' := by
  have checked : Checked own (some s) d True d := .refl d
  obtain ⟨t, typed, run⟩ := checked.typeOf run
  exact checked.symbol rfl (fun _ _ => .assign name typed) run

theorem edits_expand {owner : RuleId} (target : Target) {reflected : Bool}
    (owned : own → target.Within d.rules.size d.components.size)
    (run : (expand owner target reflected).run d = .ok (b, d')) :
    Edits own (some (.rule owner)) d d' := by
  obtain ⟨r, d₁, entry, run⟩ := bind_ok run
  obtain ⟨rfl, _⟩ := entry_ok entry
  obtain ⟨_, d₂, read, run⟩ := bind_ok run
  cases read
  obtain ⟨_, d₃, amended, run⟩ := bind_ok run
  obtain ⟨known, rfl⟩ := update_ok amended
  obtain ⟨_, d₄, pushed, run⟩ := bind_ok run
  cases pushed
  cases run
  exact .single (.expand rfl _ reflected known owned)

theorem edits_node {position : FieldId} {orientation : Orientation} {attached : Option RuleId}
    (owned : own → ∀ r, attached = some r → r < d.rules.size)
    (run : (node id name position orientation attached).run d = .ok (b, d')) :
    Edits own (some (.component id)) d d' := by
  have checked : Checked own (some (.component id)) d True d := .refl d
  obtain ⟨c, d₁, entry, run⟩ := bind_ok run
  obtain ⟨rfl, _⟩ := entry_ok entry
  obtain ⟨known, d₂, checked, run⟩ := checked.expect run
  have added : ∀ {R d₁}, (R → OfType d.fields position .float3 ∧ orientation.isValid = true) →
      Checked own (some (.component id)) d R d₁ → (do
        amendComponent id fun c =>
          { c with nodes := c.nodes.push ⟨name, position, orientation, attached, .empty⟩ }
        return c.nodes.size : Drafting Nat).run d₁ = .ok (b, d') →
      Edits own (some (.component id)) d d' := by
    intro R d₁ typed checked run
    obtain ⟨_, d₂, amended, run⟩ := bind_ok run
    cases run
    exact checked.component rfl (fun e fine => .node name known owned fun he => typed (fine he))
      amended
  split at run
  · next valid => exact added (fun hR => ⟨hR.2, valid⟩) checked run
  · obtain ⟨_, d₃, complained, run⟩ := bind_ok run
    exact added (fun hR => hR) (checked.complain complained _) run

theorem edits_nodePragma {k : Nat} {value : PragmaValue}
    (run : (nodePragma id k name value).run d = .ok (u, d')) :
    Edits own (some (.component id)) d d' := by
  obtain ⟨c, d₁, entry, run⟩ := bind_ok run
  obtain ⟨rfl, e, he, rfl⟩ := entry_ok entry
  obtain ⟨nodes, d₂, lifted, run⟩ := bind_ok run
  obtain ⟨amended, rfl⟩ := lift_ok lifted
  obtain ⟨_, rfl⟩ := amend_ok amended
  obtain ⟨_, rfl⟩ := amendComponent_ok run
  -- The nodes that have been read are those of the component that is changed.
  rw [modify_congr (g := fun e => { e with value := { e.value with
    nodes := e.value.nodes.modify k fun n => { n with pragmas := n.pragmas.set name value } } })]
  · exact .single (.component rfl (.nodePragma k name value))
  · intro e' he'
    cases he.symm.trans he'
    rfl

theorem edits_area {start stop : FieldId} {policy : OverlapPolicy} {virtualOnly : Bool}
    (run : (area id name start stop policy virtualOnly).run d = .ok (u, d')) :
    Edits own (some (.component id)) d d' := by
  have checked : Checked own (some (.component id)) d True d := .refl d
  obtain ⟨hstart, d₁, checked, run⟩ := checked.expect run
  obtain ⟨hstop, d₂, checked, run⟩ := checked.expect run
  exact checked.component rfl (fun e fine => .area name policy virtualOnly ⟨hstart, hstop⟩ fun he =>
    ⟨(fine he).1.2, (fine he).2⟩) run

theorem edits_fillBox {block start : FieldId} {stop : Option FieldId}
    (run : (fillBox id block start stop).run d = .ok (u, d')) :
    Edits own (some (.component id)) d d' := by
  have checked : Checked own (some (.component id)) d True d := .refl d
  obtain ⟨hblock, d₁, checked, run⟩ := checked.expect run
  obtain ⟨hstart, d₂, checked, run⟩ := checked.expect run
  cases stop with
  | none =>
      refine checked.component rfl (fun e fine => .fill hblock ?_ fun he => ?_) run
      · simpa using hstart
      · obtain ⟨⟨_, tblock⟩, tstart⟩ := fine he
        exact ⟨tblock, by simpa using tstart⟩
  | some stop =>
      obtain ⟨hstop, d₃, checked, run⟩ := checked.expect run
      refine checked.component rfl (fun e fine => .fill hblock ?_ fun he => ?_) run
      · simpa [or_imp, forall_and] using ⟨hstart, hstop⟩
      · obtain ⟨⟨⟨_, tblock⟩, tstart⟩, tstop⟩ := fine he
        exact ⟨tblock, by simpa [or_imp, forall_and] using ⟨tstart, tstop⟩⟩

theorem edits_fillPositions {block : FieldId} {positions : List Pos} {offset : Option FieldId}
    (run : (fillPositions id block positions offset).run d = .ok (u, d')) :
    Edits own (some (.component id)) d d' := by
  have checked : Checked own (some (.component id)) d True d := .refl d
  obtain ⟨hblock, d₁, checked, run⟩ := checked.expect run
  cases offset with
  | none =>
      exact checked.component rfl (fun e fine => .fill hblock (by simp) fun he =>
        ⟨(fine he).2, by simp⟩) run
  | some offset =>
      obtain ⟨hoffset, d₂, checked, run⟩ := checked.expect run
      refine checked.component rfl (fun e fine => .fill hblock ?_ fun he => ?_) run
      · simpa using hoffset
      · obtain ⟨⟨_, tblock⟩, toffset⟩ := fine he
        exact ⟨tblock, by simpa using toffset⟩

theorem edits_arithmetic {op : Arithmetic} {lhs rhs : FieldId}
    (run : (arithmetic op lhs rhs).run d = .ok (b, d')) : Edits own subject d d' := by
  have checked : Checked own subject d True d := .refl d
  obtain ⟨s, hlhs, run⟩ := checked.typeOf run
  obtain ⟨t, hrhs, run⟩ := checked.typeOf run
  obtain ⟨_, d₁, each, run⟩ := bind_ok run
  have checked := checked.forIn (P := fun t => t = .float ∨ t = .float3) (fun checked run => ?_) each
  · refine checked.field (fun ⟨_, scalars⟩ => ?_) run
    exact .arithmetic op hlhs hrhs (scalars s List.mem_cons_self) (scalars t (by simp))
  · split at run
    · next scalar =>
      cases run
      exact ⟨rfl, checked.and scalar⟩
    · obtain ⟨_, d₂, complained, run⟩ := bind_ok run
      cases run
      exact ⟨rfl, checked.complain complained _⟩

theorem edits_compare {op : Comparison} {lhs rhs : FieldId}
    (run : (compare op lhs rhs).run d = .ok (b, d')) : Edits own subject d d' := by
  have checked : Checked own subject d True d := .refl d
  obtain ⟨t, _, run⟩ := checked.typeOf run
  obtain ⟨_, d₁, checked, run⟩ := checked.expect run
  obtain ⟨_, d₂, checked, run⟩ := checked.expect run
  have comparable : (if t = .block then ValueType.block else .float) = .float ∨
      (if t = .block then ValueType.block else .float) = .block := by
    split <;> simp
  exact checked.field (fun ⟨⟨_, hlhs⟩, hrhs⟩ => .compare op hlhs hrhs comparable) run

theorem edits_and {lhs rhs : FieldId} (run : (Draft.and lhs rhs).run d = .ok (b, d')) :
    Edits own subject d d' := by
  have checked : Checked own subject d True d := .refl d
  obtain ⟨_, d₁, checked, run⟩ := checked.expect run
  obtain ⟨_, d₂, checked, run⟩ := checked.expect run
  exact checked.field (fun ⟨⟨_, hlhs⟩, hrhs⟩ => .and hlhs hrhs) run

theorem edits_or {lhs rhs : FieldId} (run : (Draft.or lhs rhs).run d = .ok (b, d')) :
    Edits own subject d d' := by
  have checked : Checked own subject d True d := .refl d
  obtain ⟨_, d₁, checked, run⟩ := checked.expect run
  obtain ⟨_, d₂, checked, run⟩ := checked.expect run
  exact checked.field (fun ⟨⟨_, hlhs⟩, hrhs⟩ => .or hlhs hrhs) run

theorem edits_not {value : FieldId} (run : (Draft.not value).run d = .ok (b, d')) :
    Edits own subject d d' := by
  have checked : Checked own subject d True d := .refl d
  obtain ⟨_, d₁, checked, run⟩ := checked.expect run
  exact checked.field (fun typed => .not typed.2) run

theorem edits_select {condition whenTrue whenFalse : FieldId}
    (run : (select condition whenTrue whenFalse).run d = .ok (b, d')) : Edits own subject d d' := by
  have checked : Checked own subject d True d := .refl d
  obtain ⟨_, d₁, checked, run⟩ := checked.expect run
  obtain ⟨t, ht, run⟩ := checked.typeOf run
  obtain ⟨_, d₂, checked, run⟩ := checked.expect run
  exact checked.field (fun ⟨⟨_, hcondition⟩, hf⟩ => .select hcondition ht hf) run

theorem edits_vector {x y z : FieldId} (run : (vector x y z).run d = .ok (b, d')) :
    Edits own subject d d' := by
  have checked : Checked own subject d True d := .refl d
  obtain ⟨_, d₁, checked, run⟩ := checked.expect run
  obtain ⟨_, d₂, checked, run⟩ := checked.expect run
  obtain ⟨_, d₃, checked, run⟩ := checked.expect run
  exact checked.field (fun ⟨⟨⟨_, hx⟩, hy⟩, hz⟩ => .vector hx hy hz) run

theorem edits_axis {v : FieldId} {component : Axis}
    (run : (axis v component).run d = .ok (b, d')) : Edits own subject d d' := by
  have checked : Checked own subject d True d := .refl d
  obtain ⟨_, d₁, checked, run⟩ := checked.expect run
  exact checked.field (fun typed => .axis component typed.2) run

/-- A leaf has a type of its kind whatever the table is. -/
theorem edits_leaf {type : ValueType} {kind : FieldKind} (hk : ∀ fields, kind.HasType fields type)
    (run : (field type kind).run d = .ok (b, d')) : Edits own subject d d' :=
  (Checked.refl d).field (fun _ => hk _) run

end Statements

/-- All that a statement does is edits of what it is about. -/
theorem edits_run {s : Statement} {r : Option Nat} (owned : own → s.Owned d)
    (run : s.run.run d = .ok (r, d')) : Edits own s.subject d d' := by
  cases s with
  | rule name => exact edits_rule (handed_ok run)
  | ruleRef name => exact edits_ruleRef (handed_ok run)
  | component name => exact edits_component (handed_ok run)
  | componentRef name => exact edits_componentRef (handed_ok run)
  | condition s id => exact edits_condition (silent_ok run)
  | pragma s name v => exact edits_pragma (silent_ok run)
  | param s name t i => exact edits_param (handed_ok run)
  | assign s name id => exact edits_assign (silent_ok run)
  | toNothing r => exact edits_expand .nothing (fun _ => trivial) (handed_ok run)
  | toRule r t => exact edits_expand (.rule t) owned (handed_ok run)
  | toComponent r c n m => exact edits_expand (.component c n) owned (handed_ok run)
  | node c name p o r => exact edits_node owned (handed_ok run)
  | nodePragma c k name v => exact edits_nodePragma (silent_ok run)
  | area c name i j p v => exact edits_area (silent_ok run)
  | fillBox c i j k => exact edits_fillBox (silent_ok run)
  | fillPositions c i ps o => exact edits_fillPositions (silent_ok run)
  | constant v => exact edits_leaf (fun _ => .constant v) (handed_ok run)
  | worldPosition => exact edits_leaf (fun _ => .worldPosition) (handed_ok run)
  | localPosition => exact edits_leaf (fun _ => .localPosition) (handed_ok run)
  | contextRandom salt => exact edits_leaf (fun _ => .contextRandom salt) (handed_ok run)
  | blockRandom salt => exact edits_leaf (fun _ => .blockRandom salt) (handed_ok run)
  | external e t => exact edits_leaf (fun _ => .external e t) (handed_ok run)
  | arithmetic op i j => exact edits_arithmetic (handed_ok run)
  | compare op i j => exact edits_compare (handed_ok run)
  | and i j => exact edits_and (handed_ok run)
  | or i j => exact edits_or (handed_ok run)
  | not i => exact edits_not (handed_ok run)
  | select i j k => exact edits_select (handed_ok run)
  | vector i j k => exact edits_vector (handed_ok run)
  | axis i component => exact edits_axis (handed_ok run)

/-- Whatever an empty draft has and every edit keeps, every draft has. -/
theorem Reached.holds {I : Draft → Prop} (empty : I .empty)
    (edit : ∀ {subject d d'}, Edit own subject d d' → I d → I d') (reached : Reached own d) : I d := by
  induction reached with
  | empty => exact empty
  | next s _ owned run ih => exact (edits_run owned run).keep edit ih

end Draft

end VoxelGrammar
