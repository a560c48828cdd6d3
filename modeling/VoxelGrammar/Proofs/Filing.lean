import VoxelGrammar.Proofs.Typing

/-!
How the tables of a draft hang together, whatever mistakes it holds. No two rules and no two components
have one name, every expansion is listed by its owner, once, and by no other rule, and a field is
marked as contextual if it reads the context or one of its inputs is so marked.
-/

namespace VoxelGrammar

variable {α : Type}

/-! ### Names -/

def Distinct (name : α → String) (table : Array α) : Prop :=
  ∀ (i j : Nat) (a b : α), table[i]? = some a → table[j]? = some b → name a = name b → i = j

namespace Distinct

variable {name : α → String} {table : Array α}

theorem modify (h : Distinct name table) (id : Nat) {f : α → α} (hf : ∀ a, name (f a) = name a) :
    Distinct name (table.modify id f) := by
  have old : ∀ (i : Nat) (a : α), (table.modify id f)[i]? = some a →
      ∃ a₀, table[i]? = some a₀ ∧ name a₀ = name a := by
    intro i a ha
    rw [Array.getElem?_modify] at ha
    split at ha
    · obtain ⟨a₀, ha₀, rfl⟩ := Option.map_eq_some_iff.1 ha
      exact ⟨a₀, ha₀, (hf a₀).symm⟩
    · exact ⟨a, ha, rfl⟩
  intro i j a b ha hb heq
  obtain ⟨a₀, ha₀, hna⟩ := old i a ha
  obtain ⟨b₀, hb₀, hnb⟩ := old j b hb
  exact h i j a₀ b₀ ha₀ hb₀ (hna.trans (heq.trans hnb.symm))

theorem push (h : Distinct name table) {x : α} (fresh : ∀ a ∈ table, name a ≠ name x) :
    Distinct name (table.push x) := by
  intro i j a b ha hb heq
  rw [Array.getElem?_push] at ha hb
  split at ha <;> split at hb
  · omega
  · cases ha
    exact absurd heq.symm (fresh b (Array.mem_of_getElem? hb))
  · cases hb
    exact absurd heq (fresh a (Array.mem_of_getElem? ha))
  · exact h i j a b ha hb heq

theorem map {β : Type} (h : Distinct name table) (f : α → β) (name' : β → String)
    (hf : ∀ a, name' (f a) = name a) : Distinct name' (table.map f) := by
  intro i j a b ha hb heq
  rw [Array.getElem?_map] at ha hb
  obtain ⟨a₀, ha₀, rfl⟩ := Option.map_eq_some_iff.1 ha
  obtain ⟨b₀, hb₀, rfl⟩ := Option.map_eq_some_iff.1 hb
  exact h i j a₀ b₀ ha₀ hb₀ ((hf a₀).symm.trans (heq.trans (hf b₀)))

/-- Looking a name up and looking an entry up are inverse to each other. -/
theorem findIdx?_eq_some_iff (h : Distinct name table) {n : String} {i : Nat} :
    table.findIdx? (fun a => name a == n) = some i ↔ ∃ a, table[i]? = some a ∧ name a = n := by
  rw [Array.findIdx?_eq_some_iff_getElem]
  constructor
  · rintro ⟨hi, hn, _⟩
    exact ⟨table[i], Array.getElem?_eq_getElem hi, beq_iff_eq.1 hn⟩
  · rintro ⟨a, ha, rfl⟩
    obtain ⟨hi, rfl⟩ := Array.getElem?_eq_some_iff.1 ha
    refine ⟨hi, beq_self_eq_true _, fun j hj hn => ?_⟩
    have same := h j i _ _ (Array.getElem?_eq_getElem (by omega)) ha (beq_iff_eq.1 hn)
    omega

end Distinct

namespace Draft

structure Listed (rules : Array (Entry Rule)) (expansions : Array Expansion) : Prop where
  nodup : ∀ e ∈ rules, e.value.expansions.Nodup
  owner : ∀ (r : RuleId) (e : Entry Rule), rules[r]? = some e → ∀ x ∈ e.value.expansions,
    ∃ y, expansions[x]? = some y ∧ y.owner = r
  owned : ∀ (x : ExpansionId) (y : Expansion), expansions[x]? = some y →
    ∃ e, rules[y.owner]? = some e ∧ x ∈ e.value.expansions

structure Filed (d : Draft) : Prop where
  marked : ∀ f ∈ d.fields, (∀ i ∈ f.kind.inputs, i < d.fields.size) ∧
    f.contextual = marks d.fields f.kind
  rules : Distinct (fun e : Entry Rule => e.value.symbol.name) d.rules
  components : Distinct (fun e : Entry Component => e.value.symbol.name) d.components
  listed : Listed d.rules d.expansions

namespace Listed

variable {rules : Array (Entry Rule)} {expansions : Array Expansion}

theorem modifyRule (h : Listed rules expansions) (id : RuleId) {f : Entry Rule → Entry Rule}
    (hf : ∀ e, (f e).value.expansions = e.value.expansions) :
    Listed (rules.modify id f) expansions := by
  refine ⟨forall_mem_modify h.nodup fun e he => (hf e).symm ▸ he, fun r e he x hx => ?_,
    fun x y hy => ?_⟩
  · rw [Array.getElem?_modify] at he
    split at he
    · obtain ⟨e₀, he₀, rfl⟩ := Option.map_eq_some_iff.1 he
      exact h.owner r e₀ he₀ x (hf e₀ ▸ hx)
    · exact h.owner r e he x hx
  · obtain ⟨e, he, hx⟩ := h.owned x y hy
    rw [Array.getElem?_modify, he]
    split
    · exact ⟨f e, rfl, (hf e).symm ▸ hx⟩
    · exact ⟨e, rfl, hx⟩

theorem modifyExpansion (h : Listed rules expansions) (id : ExpansionId) {f : Expansion → Expansion}
    (hf : ∀ y, (f y).owner = y.owner) : Listed rules (expansions.modify id f) := by
  refine ⟨h.nodup, fun r e he x hx => ?_, fun x y hy => ?_⟩
  · obtain ⟨y, hy, howner⟩ := h.owner r e he x hx
    rw [Array.getElem?_modify, hy]
    split
    · exact ⟨f y, rfl, (hf y).trans howner⟩
    · exact ⟨y, rfl, howner⟩
  · rw [Array.getElem?_modify] at hy
    split at hy
    · obtain ⟨y₀, hy₀, rfl⟩ := Option.map_eq_some_iff.1 hy
      exact (hf y₀).symm ▸ h.owned x y₀ hy₀
    · exact h.owned x y hy

theorem pushRule (h : Listed rules expansions) {e : Entry Rule} (he : e.value.expansions = []) :
    Listed (rules.push e) expansions := by
  refine ⟨forall_mem_push h.nodup (he ▸ .nil), fun r e' he' x hx => ?_, fun x y hy => ?_⟩
  · rw [Array.getElem?_push] at he'
    split at he'
    · cases he'
      rw [he] at hx
      cases hx
    · exact h.owner r e' he' x hx
  · obtain ⟨e', he', hx⟩ := h.owned x y hy
    exact ⟨e', getElem?_push_of_some he' e, hx⟩

/-- A new expansion, listed by its owner. -/
theorem expand (h : Listed rules expansions) {id : RuleId} (known : id < rules.size)
    {f : Entry Rule → Entry Rule}
    (hf : ∀ e, (f e).value.expansions = e.value.expansions ++ [expansions.size]) {y : Expansion}
    (howner : y.owner = id) : Listed (rules.modify id f) (expansions.push y) := by
  subst howner
  have old : ∀ (r : RuleId) (e : Entry Rule), rules[r]? = some e → ∀ x ∈ e.value.expansions,
      ∃ y', (expansions.push y)[x]? = some y' ∧ y'.owner = r := by
    intro r e he x hx
    obtain ⟨y', hy', howner⟩ := h.owner r e he x hx
    exact ⟨y', getElem?_push_of_some hy' y, howner⟩
  refine ⟨fun e he => ?_, fun r e he x hx => ?_, fun x y' hy' => ?_⟩
  · obtain ⟨e₀, he₀, rfl | rfl⟩ := mem_modify he
    · exact h.nodup e he₀
    · -- The rule has listed only expansions that came before.
      obtain ⟨r, he₀'⟩ := Array.mem_iff_getElem?.1 he₀
      rw [hf]
      refine List.nodup_append.2 ⟨h.nodup e₀ he₀, List.nodup_singleton _, fun x hx z hz heq => ?_⟩
      obtain ⟨y', hy', _⟩ := h.owner r e₀ he₀' x hx
      have hlt := (Array.getElem?_eq_some_iff.1 hy').1
      rw [heq, List.mem_singleton.1 hz] at hlt
      exact Nat.lt_irrefl _ hlt
  · rw [Array.getElem?_modify] at he
    split at he
    · next hr =>
      obtain ⟨e₀, he₀, rfl⟩ := Option.map_eq_some_iff.1 he
      rw [hf] at hx
      rcases List.mem_append.1 hx with hx | hx
      · exact old r e₀ he₀ x hx
      · exact ⟨y, by simp [List.mem_singleton.1 hx], hr⟩
    · exact old r e he x hx
  · rw [Array.getElem?_push] at hy'
    split at hy'
    · next hx =>
      cases hy'
      refine ⟨f rules[y.owner], ?_, ?_⟩
      · rw [Array.getElem?_modify, if_pos rfl, Array.getElem?_eq_getElem known]
        rfl
      · rw [hf, hx]
        exact List.mem_append_right _ List.mem_cons_self
    · obtain ⟨e, he, hx⟩ := h.owned x y' hy'
      rw [Array.getElem?_modify, he]
      split
      · exact ⟨f e, rfl, (hf e).symm ▸ List.mem_append_left _ hx⟩
      · exact ⟨e, rfl, hx⟩

end Listed

/-! ### Changes of a draft -/

/-- The inputs of a field are older than the field, so later fields do not touch its mark. -/
theorem marks_push {fields : Array Field} {kind : FieldKind} (h : ∀ i ∈ kind.inputs, i < fields.size)
    (f : Field) : marks (fields.push f) kind = marks fields kind := by
  have same : ∀ i ∈ kind.inputs, (fields.push f)[i]? = fields[i]? := by
    intro i hi
    rw [Array.getElem?_push, if_neg (Nat.ne_of_lt (h i hi))]
  unfold marks
  congr 1
  rw [Bool.eq_iff_iff, List.any_eq_true, List.any_eq_true]
  exact exists_congr fun i => and_congr_right fun hi => by rw [same i hi]

namespace Filed

variable {d : Draft} (h : d.Filed)

include h

theorem setError (e : Option GrammarError) : Filed { d with error := e } :=
  ⟨h.marked, h.rules, h.components, h.listed⟩

theorem pushField {t : ValueType} {kind : FieldKind} (inputs : ∀ i ∈ kind.inputs, i < d.fields.size) :
    Filed { d with fields := d.fields.push ⟨t, kind, marks d.fields kind⟩ } := by
  have grown : ∀ i, i < d.fields.size →
      i < (d.fields.push ⟨t, kind, marks d.fields kind⟩).size := by
    intro i hi
    rw [Array.size_push]
    exact hi.trans (Nat.lt_succ_self _)
  refine ⟨forall_mem_push (fun f hf => ?_) ?_, h.rules, h.components, h.listed⟩
  · obtain ⟨older, marked⟩ := h.marked f hf
    exact ⟨fun i hi => grown i (older i hi), marked.trans (marks_push older _).symm⟩
  · exact ⟨fun i hi => grown i (inputs i hi), (marks_push inputs _).symm⟩

theorem modifyRule (id : RuleId) {f : Entry Rule → Entry Rule}
    (name : ∀ e, (f e).value.symbol.name = e.value.symbol.name)
    (expansions : ∀ e, (f e).value.expansions = e.value.expansions) :
    Filed { d with rules := d.rules.modify id f } :=
  ⟨h.marked, h.rules.modify id name, h.components, h.listed.modifyRule id expansions⟩

theorem modifyExpansion (id : ExpansionId) {f : Expansion → Expansion}
    (owner : ∀ y, (f y).owner = y.owner) :
    Filed { d with expansions := d.expansions.modify id f } :=
  ⟨h.marked, h.rules, h.components, h.listed.modifyExpansion id owner⟩

theorem modifyComponent (id : ComponentId) {f : Entry Component → Entry Component}
    (name : ∀ e, (f e).value.symbol.name = e.value.symbol.name) :
    Filed { d with components := d.components.modify id f } :=
  ⟨h.marked, h.rules, h.components.modify id name, h.listed⟩

theorem expand {id : RuleId} (known : id < d.rules.size) {f : Entry Rule → Entry Rule}
    (name : ∀ e, (f e).value.symbol.name = e.value.symbol.name)
    (hf : ∀ e, (f e).value.expansions = e.value.expansions ++ [d.expansions.size]) {y : Expansion}
    (howner : y.owner = id) :
    Filed { d with rules := d.rules.modify id f, expansions := d.expansions.push y } :=
  ⟨h.marked, h.rules.modify id name, h.components, h.listed.expand known hf howner⟩

end Filed

/-! ### Edits -/

section Edits

variable {own : Prop} {subject : Option SymbolRef} {d d' : Draft}

theorem SymbolEdit.name {f : Symbol → Symbol} (edit : SymbolEdit d f) (s : Symbol) :
    (f s).name = s.name := by
  cases edit <;> rfl

theorem ComponentEdit.symbol {f : Component → Component} (edit : ComponentEdit own d f)
    (c : Component) : (f c).symbol = c.symbol := by
  cases edit <;> rfl

theorem Filed.modifySymbol (h : d.Filed) {f : Symbol → Symbol} (edit : SymbolEdit d f)
    (s : SymbolRef) : (d.modifySymbol f s).Filed := by
  cases s with
  | rule id => exact h.modifyRule id (fun e => edit.name e.value.symbol) fun _ => rfl
  | expansion id => exact h.modifyExpansion id fun _ => rfl
  | component id => exact h.modifyComponent id fun e => edit.name e.value.symbol

theorem Edit.filed (edit : Edit own subject d d') (h : d.Filed) : d'.Filed := by
  cases edit with
  | complain e => exact h.setError _
  | field inputs _ => exact h.pushField inputs
  | referRule fresh =>
      exact ⟨h.marked, h.rules.push fresh, h.components, h.listed.pushRule rfl⟩
  | declareRule id => exact h.modifyRule id (fun _ => rfl) fun _ => rfl
  | referComponent fresh => exact ⟨h.marked, h.rules, h.components.push fresh, h.listed⟩
  | declareComponent id => exact h.modifyComponent id fun _ => rfl
  | symbol _ edit => exact h.modifySymbol edit _
  | component _ edit =>
      exact h.modifyComponent _ fun e => congrArg Symbol.name (edit.symbol e.value)
  | @expand owner _ name target reflected known _ =>
      exact h.expand known (y := ⟨.named name, owner, target, reflected⟩)
        (f := fun e => ⟨{ e.value with expansions := e.value.expansions ++ [d.expansions.size] }, true⟩)
        (fun _ => rfl) (fun _ => rfl) rfl

theorem filed_of_reached (h : Reached own d) : d.Filed := by
  refine h.holds ?_ Edit.filed
  refine ⟨by simp [empty], ?_, ?_, ⟨by simp [empty], ?_, ?_⟩⟩ <;> intro i <;> simp [empty]

end Edits

end Draft

end VoxelGrammar
