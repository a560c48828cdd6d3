import VoxelGrammar.Proofs.Drafts
import VoxelGrammar.Proofs.Orders

/-!
Compiled grammars are closed: whatever an entry of one of their tables refers to is in its table.
Compiling fills in defaults, which refer to nothing, and groups candidates, which stand for the
expansions of their rule.
-/

namespace VoxelGrammar

/-- Every reference of the grammar leads to an entry of the grammar, that of a target at least if
it is an `own` one. The inputs of a field are older than the field. -/
structure Grammar.Closed (own : Prop) (g : Grammar) : Prop where
  fields : ∀ id f, g.field id = .ok f → ∀ i ∈ f.kind.inputs, i < id
  rules : ∀ id r, g.rule id = .ok r → r.symbol.Within g.fields.size
  expansions : ∀ id e, g.expansion id = .ok e → e.symbol.Within g.fields.size ∧
    (own → e.target.Within g.rules.size g.components.size)
  components : ∀ id c, g.component id = .ok c → c.Within own g.fields.size g.rules.size
  tiered : g.Tiered

namespace Fault

theorem lookup_map {α β : Type} {xs : Array α} {f : α → β} {i : Nat} {y : β}
    (h : lookup (xs.map f) i = .ok y) : ∃ x ∈ xs, f x = y := by
  have hy := Fault.lookup_eq_ok_iff.1 h
  rw [Array.getElem?_map] at hy
  obtain ⟨x, hx, heq⟩ := Option.map_eq_some_iff.1 hy
  exact ⟨x, Array.mem_of_getElem? hx, heq⟩

/-- Whatever is in range is found. -/
theorem lookup_of_lt {α : Type} {xs : Array α} {i : Nat} (h : i < xs.size) :
    ∃ x, lookup xs i = .ok x := by
  refine ⟨xs[i], ?_⟩
  rw [lookup, Array.getElem?_eq_getElem h]

end Fault

theorem Grammar.lt_of_field {g : Grammar} {id : FieldId} {f : Field} (hf : g.field id = .ok f) :
    id < g.fields.size :=
  (Array.getElem?_eq_some_iff.1 (Fault.lookup_eq_ok_iff.1 hf)).1

namespace Draft

/-- The pragmas of a symbol refer to nothing. -/
theorem within_pragmas {n : Nat} {s : Symbol} (h : s.Within n) (pragmas : Pragmas) :
    Symbol.Within n { s with pragmas := pragmas } :=
  ⟨h.conditions, h.defaults, h.placeholders, h.older, h.assignments⟩

theorem within_completeComponent {own : Prop} {fields rules : Nat} {c : Component}
    (h : c.Within own fields rules) (names : List String) :
    (completeComponent names c).Within own fields rules where
  symbol := h.symbol
  positions := by
    intro n hn
    obtain ⟨m, hm, rfl⟩ := Array.mem_map.1 hn
    exact h.positions m hm
  rules := by
    intro ho n hn id hid
    obtain ⟨m, hm, rfl⟩ := Array.mem_map.1 hn
    exact h.rules ho m hm id hid
  areas := by
    intro a ha
    obtain ⟨b, hb, rfl⟩ := List.mem_map.1 ha
    exact h.areas b hb
  fills := h.fills

@[simp] theorem size_compile_rules (d : Draft) : d.compile.rules.size = d.rules.size :=
  Array.size_map

@[simp] theorem size_compile_components (d : Draft) :
    d.compile.components.size = d.components.size := Array.size_map

theorem Sound.closed {own : Prop} {d : Draft} (h : d.Sound own) : d.compile.Closed own where
  fields id f hf := (h.fields id f (Fault.lookup_eq_ok_iff.1 hf)).inputs
  rules := by
    intro id r hr
    obtain ⟨e, he, rfl⟩ := Fault.lookup_map hr
    exact within_pragmas (h.rules e he).1 _
  expansions := by
    intro id x hx
    obtain ⟨e, he, rfl⟩ := Fault.lookup_map hx
    obtain ⟨symbol, target⟩ := h.expansions e he
    refine ⟨within_pragmas symbol _, ?_⟩
    rw [size_compile_rules, size_compile_components]
    exact target
  components := by
    intro id c hc
    obtain ⟨e, he, rfl⟩ := Fault.lookup_map hc
    rw [size_compile_rules]
    exact within_completeComponent (h.components e he) d.areaNames
  tiered := d.tiered_compile

end Draft

theorem Grammar.Built.closed {own : Prop} {g : Grammar} (h : g.Built own) : g.Closed own := by
  obtain ⟨d, sound, rfl⟩ := h.compiled
  exact sound.closed

end VoxelGrammar
