import VoxelGrammar.Proofs.Closure

/-!
The types of fields. A field gives the type it is declared with if its operands give the types that its
kind calls for, and a field that a symbol or a component names gives the type that is called for
there. A draft goes on after a mistake with whatever it was told, so this is true of the drafts that
hold none, which are the ones that compile.
-/

namespace VoxelGrammar

structure Symbol.Typed (fields : Array Field) (s : Symbol) : Prop where
  conditions : ∀ id ∈ s.conditions, OfType fields id .bool
  defaults : ∀ p ∈ s.params, ∀ id, p.default = some id → OfType fields id p.type
  placeholders : ∀ p ∈ s.params, ∃ f, fields[p.placeholder]? = some f ∧ f.type = p.type ∧
    f.kind = .param p.name
  assignments : ∀ a ∈ s.assignments, OfType fields a.value a.type

structure Component.Typed (fields : Array Field) (c : Component) : Prop where
  symbol : c.symbol.Typed fields
  positions : ∀ n ∈ c.nodes, OfType fields n.position .float3
  orientations : ∀ n ∈ c.nodes, n.orientation.isValid = true
  areas : ∀ a ∈ c.areas, OfType fields a.start .float3 ∧ OfType fields a.stop .float3
  blocks : ∀ f ∈ c.fills, OfType fields f.block .block
  corners : ∀ f ∈ c.fills, ∀ id, f.start = some id ∨ f.stop = some id → OfType fields id .float3

/-! ### Longer tables -/

section Push

variable {fields : Array Field} (f : Field)

theorem FieldKind.HasType.push {kind : FieldKind} {t : ValueType} (h : kind.HasType fields t) :
    kind.HasType (fields.push f) t := by
  cases h with
  | constant s => exact .constant s
  | worldPosition => exact .worldPosition
  | localPosition => exact .localPosition
  | contextRandom salt => exact .contextRandom salt
  | blockRandom salt => exact .blockRandom salt
  | param name => exact .param name t
  | external e => exact .external e t
  | arithmetic op ha hb hs ht => exact .arithmetic op (ha.push f) (hb.push f) hs ht
  | compare op ha hb ht => exact .compare op (ha.push f) (hb.push f) ht
  | and ha hb => exact .and (ha.push f) (hb.push f)
  | or ha hb => exact .or (ha.push f) (hb.push f)
  | not ha => exact .not (ha.push f)
  | select hc ha hb => exact .select (hc.push f) (ha.push f) (hb.push f)
  | vector hx hy hz => exact .vector (hx.push f) (hy.push f) (hz.push f)
  | axis component hv => exact .axis component (hv.push f)

theorem Symbol.Typed.push {s : Symbol} (h : s.Typed fields) : s.Typed (fields.push f) where
  conditions id hid := (h.conditions id hid).push f
  defaults p hp id hid := (h.defaults p hp id hid).push f
  placeholders p hp := by
    obtain ⟨f', hf', rest⟩ := h.placeholders p hp
    exact ⟨f', getElem?_push_of_some hf' f, rest⟩
  assignments a ha := (h.assignments a ha).push f

theorem Component.Typed.push {c : Component} (h : c.Typed fields) : c.Typed (fields.push f) where
  symbol := h.symbol.push f
  positions n hn := (h.positions n hn).push f
  orientations := h.orientations
  areas a ha := ⟨(h.areas a ha).1.push f, (h.areas a ha).2.push f⟩
  blocks g hg := (h.blocks g hg).push f
  corners g hg id hid := (h.corners g hg id hid).push f

end Push

theorem Symbol.typed_named (fields : Array Field) (name : String) :
    (Symbol.named name).Typed fields := by
  constructor <;> intro _ h <;> cases h

theorem Component.typed_empty (fields : Array Field) (name : String) :
    Component.Typed fields ⟨.named name, #[], [], []⟩ := by
  refine ⟨Symbol.typed_named fields name, ?_, ?_, ?_, ?_, ?_⟩ <;> simp

namespace Draft

structure Typed (d : Draft) : Prop where
  fields : ∀ f ∈ d.fields, f.kind.HasType d.fields f.type
  rules : ∀ e ∈ d.rules, e.value.symbol.Typed d.fields
  expansions : ∀ e ∈ d.expansions, e.symbol.Typed d.fields
  components : ∀ e ∈ d.components, e.value.Typed d.fields

def Meets (I : Draft → Prop) (d : Draft) : Prop := d.error = none → I d

theorem Typed.pushField {d : Draft} (h : d.Typed) {t : ValueType} {kind : FieldKind} (c : Bool)
    (hk : kind.HasType d.fields t) :
    Typed { d with fields := d.fields.push ⟨t, kind, c⟩ } where
  fields := forall_mem_push (fun f hf => (h.fields f hf).push _) (hk.push _)
  rules e he := (h.rules e he).push _
  expansions e he := (h.expansions e he).push _
  components e he := (h.components e he).push _

theorem Typed.pushExpansion {d : Draft} (h : d.Typed) {e : Expansion}
    (he : e.symbol.Typed d.fields) : Typed { d with expansions := d.expansions.push e } :=
  ⟨h.fields, h.rules, forall_mem_push h.expansions he, h.components⟩

theorem Typed.modifyRule {d : Draft} (h : d.Typed) (id : RuleId) {f : Entry Rule → Entry Rule}
    (hf : ∀ e, e.value.symbol.Typed d.fields → (f e).value.symbol.Typed d.fields) :
    Typed { d with rules := d.rules.modify id f } :=
  ⟨h.fields, forall_mem_modify h.rules hf, h.expansions, h.components⟩

theorem Typed.modifyExpansion {d : Draft} (h : d.Typed) (id : ExpansionId) {f : Expansion → Expansion}
    (hf : ∀ e, e.symbol.Typed d.fields → (f e).symbol.Typed d.fields) :
    Typed { d with expansions := d.expansions.modify id f } :=
  ⟨h.fields, h.rules, forall_mem_modify h.expansions hf, h.components⟩

theorem Typed.modifyComponent {d : Draft} (h : d.Typed) (id : ComponentId)
    {f : Entry Component → Entry Component}
    (hf : ∀ e, e.value.Typed d.fields → (f e).value.Typed d.fields) :
    Typed { d with components := d.components.modify id f } :=
  ⟨h.fields, h.rules, h.expansions, forall_mem_modify h.components hf⟩

/-! ### Edits -/

section Edits

variable {own : Prop} {subject : Option SymbolRef} {d d' : Draft}

theorem SymbolEdit.typed {f : Symbol → Symbol} (edit : SymbolEdit d f) (fine : d.error = none)
    {s : Symbol} (h : s.Typed d.fields) : (f s).Typed d.fields := by
  cases edit with
  | condition _ typed =>
      exact { h with
        conditions := List.forall_mem_append.2
          ⟨h.conditions, List.forall_mem_singleton.2 (typed fine)⟩ }
  | pragma name value => exact ⟨h.conditions, h.defaults, h.placeholders, h.assignments⟩
  | param _ found type_eq kind typed =>
      exact { h with
        defaults := List.forall_mem_append.2
          ⟨h.defaults, List.forall_mem_singleton.2 (typed fine)⟩
        placeholders := List.forall_mem_append.2
          ⟨h.placeholders, List.forall_mem_singleton.2 ⟨_, found, type_eq, kind⟩⟩ }
  | assign name typed =>
      exact { h with
        assignments := List.forall_mem_append.2 ⟨h.assignments, List.forall_mem_singleton.2 typed⟩ }

theorem ComponentEdit.typed {f : Component → Component} (edit : ComponentEdit own d f)
    (fine : d.error = none) {c : Component} (h : c.Typed d.fields) : (f c).Typed d.fields := by
  cases edit with
  | node name _ _ typed =>
      exact { h with
        positions := forall_mem_push h.positions (typed fine).1
        orientations := forall_mem_push h.orientations (typed fine).2 }
  | nodePragma node name value =>
      refine { h with positions := fun n hn => ?_, orientations := fun n hn => ?_ } <;>
        dsimp only at hn
      · obtain ⟨n, hmem, rfl | rfl⟩ := mem_modify hn <;> exact h.positions n hmem
      · obtain ⟨n, hmem, rfl | rfl⟩ := mem_modify hn <;> exact h.orientations n hmem
  | area name policy virtualOnly _ typed =>
      exact { h with
        areas := List.forall_mem_append.2 ⟨h.areas, List.forall_mem_singleton.2 (typed fine)⟩ }
  | fill _ _ typed =>
      exact { h with
        blocks := List.forall_mem_append.2
          ⟨h.blocks, List.forall_mem_singleton.2 (typed fine).1⟩
        corners := List.forall_mem_append.2
          ⟨h.corners, List.forall_mem_singleton.2 (typed fine).2⟩ }

theorem Typed.modifySymbol (h : d.Typed) (fine : d.error = none) {f : Symbol → Symbol}
    (edit : SymbolEdit d f) (s : SymbolRef) : (d.modifySymbol f s).Typed := by
  cases s with
  | rule id => exact h.modifyRule id fun _ he => edit.typed fine he
  | expansion id => exact h.modifyExpansion id fun _ he => edit.typed fine he
  | component id =>
      exact h.modifyComponent id fun _ he => { he with symbol := edit.typed fine he.symbol }

/-- After a complaint nothing is left to be shown, and before one all types have been right. -/
theorem Edit.typed (edit : Edit own subject d d') (h : Meets Typed d) : Meets Typed d' := by
  intro fine
  cases edit with
  | complain e => cases hd : d.error <;> simp [hd] at fine
  | field _ typed => exact (h fine).pushField _ (typed fine)
  | referRule _ =>
      exact { h fine with rules := forall_mem_push (h fine).rules (Symbol.typed_named _ _) }
  | declareRule id => exact (h fine).modifyRule id fun _ he => he
  | referComponent _ =>
      exact { h fine with components := forall_mem_push (h fine).components (Component.typed_empty _ _) }
  | declareComponent id => exact (h fine).modifyComponent id fun _ he => he
  | @symbol s _ f edit => cases s <;> exact (h fine).modifySymbol fine edit _
  | component _ edit => exact (h fine).modifyComponent _ fun _ he => edit.typed fine he
  | @expand owner _ name target reflected _ _ =>
      have pushed := (h fine).pushExpansion (e := ⟨.named name, owner, target, reflected⟩)
        (Symbol.typed_named _ name)
      exact pushed.modifyRule owner fun _ he => he

theorem typed_of_reached (h : Reached own d) : Meets Typed d :=
  h.holds (fun _ => by constructor <;> simp [empty]) Edit.typed

end Edits

end Draft

end VoxelGrammar
