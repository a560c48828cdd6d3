import Mathlib.Logic.Relation
import VoxelGrammar.Proofs.Areas
import VoxelGrammar.Proofs.Filing

/-!
What a compiled grammar can be relied on for. Its references are in range and its fields well typed
wherever they are used, contextual fields are those that depend on the context, and its tables agree
with each other: expansions are filed with their owners, in the tier of their priority, and names and
entries can be found from each other.
-/

namespace VoxelGrammar

open Relation

/-! ### Tiers -/

namespace Tier

theorem mem_place {priority : Binary32} {c d : Candidate} {tiers : List Tier} {t : Tier}
    (ht : t ∈ place priority c tiers) (hd : d ∈ t.candidates) :
    (t.priority = priority ∧ d = c) ∨ ∃ u ∈ tiers, u.priority = t.priority ∧ d ∈ u.candidates := by
  induction tiers with
  | nil =>
      obtain rfl := List.mem_singleton.1 ht
      exact .inl ⟨rfl, List.mem_singleton.1 hd⟩
  | cons u rest ih =>
      rw [place] at ht
      split at ht
      · next heq =>
        rcases List.mem_cons.1 ht with rfl | ht
        · rcases List.mem_append.1 hd with hd | hd
          · exact .inr ⟨u, List.mem_cons_self, rfl, hd⟩
          · exact .inl ⟨heq, List.mem_singleton.1 hd⟩
        · exact .inr ⟨t, List.mem_cons_of_mem _ ht, rfl, hd⟩
      · rcases List.mem_cons.1 ht with rfl | ht
        · exact .inr ⟨t, List.mem_cons_self, rfl, hd⟩
        · rcases ih ht with h | ⟨v, hv, h⟩
          · exact .inl h
          · exact .inr ⟨v, List.mem_cons_of_mem _ hv, h⟩

/-- Placing a candidate opens a tier for its priority unless there is one. -/
theorem priorities_place (priority : Binary32) (c : Candidate) (tiers : List Tier) :
    (place priority c tiers).map (·.priority) =
      if priority ∈ tiers.map (·.priority) then tiers.map (·.priority)
      else tiers.map (·.priority) ++ [priority] := by
  induction tiers with
  | nil => rfl
  | cons t rest ih =>
      rw [place]
      by_cases heq : t.priority = priority
      · rw [if_pos heq, if_pos (by simp [heq])]
        rfl
      · have hne : priority ≠ t.priority := Ne.symm heq
        rw [if_neg heq, List.map_cons, ih, List.map_cons]
        by_cases hmem : priority ∈ rest.map (·.priority)
        · rw [if_pos hmem, if_pos (List.mem_cons_of_mem _ hmem)]
        · rw [if_neg hmem, if_neg (by rw [List.mem_cons, not_or]; exact ⟨hne, hmem⟩)]
          rfl

/-- The tiers of a list of candidates before they are sorted. -/
theorem group_perm_foldl (candidates : List (Binary32 × Candidate)) :
    (group candidates).Perm (candidates.foldl (fun tiers c => place c.1 c.2 tiers) []) :=
  List.mergeSort_perm _ _

/-- A candidate is in the tier of its priority. -/
theorem mem_group {candidates : List (Binary32 × Candidate)} {t : Tier} {c : Candidate}
    (ht : t ∈ group candidates) (hc : c ∈ t.candidates) : (t.priority, c) ∈ candidates := by
  have placed : ∀ tiers : List Tier,
      t ∈ candidates.foldl (fun tiers c => place c.1 c.2 tiers) tiers →
        (t.priority, c) ∈ candidates ∨ ∃ u ∈ tiers, u.priority = t.priority ∧ c ∈ u.candidates := by
    clear ht
    induction candidates with
    | nil => exact fun tiers ht => .inr ⟨t, ht, rfl, hc⟩
    | cons d rest ih =>
        intro tiers ht
        rcases ih _ ht with h | ⟨u, hu, hp, hcu⟩
        · exact .inl (List.mem_cons_of_mem _ h)
        · rcases mem_place hu hcu with ⟨hd, rfl⟩ | ⟨v, hv, hvp, hcv⟩
          · exact .inl (List.mem_cons.2 (.inl (Prod.ext (hp.symm.trans hd) rfl)))
          · exact .inr ⟨v, hv, hvp.trans hp, hcv⟩
  rcases placed [] ((group_perm_foldl candidates).mem_iff.1 ht) with h | ⟨_, hu, _⟩
  · exact h
  · cases hu

/-- Every priority has one tier. -/
theorem nodup_priorities (candidates : List (Binary32 × Candidate)) :
    ((group candidates).map (·.priority)).Nodup := by
  have placed : ∀ tiers : List Tier, (tiers.map (·.priority)).Nodup →
      ((candidates.foldl (fun tiers c => place c.1 c.2 tiers) tiers).map (·.priority)).Nodup := by
    induction candidates with
    | nil => exact fun _ h => h
    | cons c rest ih =>
        refine fun tiers h => ih _ ?_
        rw [priorities_place]
        split
        · exact h
        · next hnew => exact List.nodup_append.2 ⟨h, List.nodup_singleton _, fun p hp q hq heq =>
            hnew (List.mem_singleton.1 hq ▸ heq ▸ hp)⟩
  exact ((group_perm_foldl candidates).map _).nodup_iff.2 (placed [] List.nodup_nil)

end Tier

/-! ### Well-formed grammars -/

/-- The rule has the expansion on its list once and in its tiers once, in the tier of its priority. -/
structure Rule.Files (r : Rule) (x : ExpansionId) (priority : Binary32) : Prop where
  listed : r.expansions.count x = 1
  tiered : (r.tiers.flatMap fun t => t.candidates.map (·.expansion)).count x = 1
  tier : ∀ t ∈ r.tiers, x ∈ t.candidates.map (·.expansion) → t.priority = priority

namespace Grammar

def MadeOf (g : Grammar) (id i : FieldId) : Prop := ∃ f, g.field id = .ok f ∧ i ∈ f.kind.inputs

/-- A leaf whose value depends on the context it is read in. -/
def IsContextLeaf (g : Grammar) (id : FieldId) : Prop :=
  ∃ f, g.field id = .ok f ∧
    (f.kind = .localPosition ∨ (∃ salt, f.kind = .contextRandom salt) ∨ ∃ name, f.kind = .param name)

/-- The entries of the tables refer to each other by their types, names and owners as they should. -/
structure WellFormed (g : Grammar) : Prop where
  /-- Fields, rules, components and nodes refer to entries of their tables, composite fields to older
  fields, and defaults are older than their placeholders. -/
  closed : g.Closed True
  contextual : ∀ id f, g.field id = .ok f →
    (f.contextual = true ↔ ∃ leaf, ReflTransGen g.MadeOf id leaf ∧ g.IsContextLeaf leaf)
  fields : ∀ id f, g.field id = .ok f → f.kind.HasType g.fields f.type
  symbols : ∀ ref s, g.symbol ref = .ok s → s.Typed g.fields
  components : ∀ id c, g.component id = .ok c → c.Typed g.fields
  perpendicular : ∀ id c, g.component id = .ok c → ∀ n ∈ c.nodes, ∀ forward up,
    n.orientation = .facing forward up → forward.vector.dot up.vector = 0
  owned : ∀ x e, g.expansion x = .ok e → ∃ r, g.rule e.owner = .ok r ∧ r.Files x e.priority
  listed : ∀ id r, g.rule id = .ok r → ∀ x ∈ r.expansions, ∃ e, g.expansion x = .ok e ∧ e.owner = id
  tiered : ∀ id r, g.rule id = .ok r → (r.tiers.map (·.priority)).Nodup ∧
    ∀ t ∈ r.tiers, ∀ c ∈ t.candidates, c.expansion ∈ r.expansions
  findRule : ∀ name id, g.findRule name = some id ↔ ∃ r, g.rule id = .ok r ∧ r.symbol.name = name
  findComponent : ∀ name id,
    g.findComponent name = some id ↔ ∃ c, g.component id = .ok c ∧ c.symbol.name = name
  areas : g.NumbersAreas
  areaNames : ∀ id c, g.component id = .ok c → ∀ a ∈ c.areas, g.areaName a.nameId = some a.name

end Grammar

/-! ### Compiled drafts -/

theorem FieldKind.readsContext_iff (kind : FieldKind) : kind.readsContext = true ↔
    kind = .localPosition ∨ (∃ salt, kind = .contextRandom salt) ∨ ∃ name, kind = .param name := by
  cases kind <;> simp [readsContext]

theorem Symbol.Typed.pragmas {fields : Array Field} {s : Symbol} (h : s.Typed fields)
    (pragmas : Pragmas) : Symbol.Typed fields { s with pragmas := pragmas } :=
  ⟨h.conditions, h.defaults, h.placeholders, h.assignments⟩

namespace Draft

variable {d : Draft}

theorem field_compile {id : FieldId} {f : Field} :
    d.compile.field id = .ok f ↔ d.fields[id]? = some f := Fault.lookup_eq_ok_iff

theorem rule_compile {id : RuleId} {r : Rule} : d.compile.rule id = .ok r ↔
    ∃ e, d.rules[id]? = some e ∧ completeRule d.compile.expansions e.value = r := by
  rw [Grammar.rule, Fault.lookup_eq_ok_iff]
  simp [compile]

theorem expansion_compile {x : ExpansionId} {e : Expansion} : d.compile.expansion x = .ok e ↔
    ∃ y, d.expansions[x]? = some y ∧ completeExpansion y = e := by
  rw [Grammar.expansion, Fault.lookup_eq_ok_iff]
  simp [compile]

theorem component_compile {id : ComponentId} {c : Component} : d.compile.component id = .ok c ↔
    ∃ e, d.components[id]? = some e ∧ completeComponent d.areaNames e.value = c := by
  rw [Grammar.component, Fault.lookup_eq_ok_iff]
  simp [compile]

/-- A field is marked for being a leaf that reads the context or for one of its inputs. -/
theorem Filed.contextual_iff (filed : d.Filed) {id : FieldId} {f : Field}
    (hf : d.fields[id]? = some f) : f.contextual = true ↔ f.kind.readsContext = true ∨
      ∃ i ∈ f.kind.inputs, ∃ f' : Field, d.fields[i]? = some f' ∧ f'.contextual = true := by
  rw [(filed.marked f (Array.mem_of_getElem? hf)).2, marks, Bool.or_eq_true, List.any_eq_true]
  simp only [Option.any_eq_true]

/-- The marks of fields follow their inputs down to the leaves. -/
theorem contextual_compile (sound : d.Sound True) (filed : d.Filed) (id : FieldId) (f : Field)
    (hf : d.compile.field id = .ok f) : f.contextual = true ↔
      ∃ leaf, ReflTransGen d.compile.MadeOf id leaf ∧ d.compile.IsContextLeaf leaf := by
  constructor
  · intro contextual
    induction id using Nat.strongRecOn generalizing f with
    | ind id ih =>
        rcases (filed.contextual_iff (field_compile.1 hf)).1 contextual with
          reads | ⟨i, hi, f', hf', hc⟩
        · exact ⟨id, .refl, f, hf, f.kind.readsContext_iff.1 reads⟩
        · have older := (sound.fields id f (field_compile.1 hf)).inputs i hi
          obtain ⟨leaf, path, reads⟩ := ih i older f' (field_compile.2 hf') hc
          exact ⟨leaf, .head ⟨f, hf, hi⟩ path, reads⟩
  · rintro ⟨leaf, path, reads⟩
    induction path using ReflTransGen.head_induction_on generalizing f with
    | refl =>
        obtain ⟨l, hl, hkind⟩ := reads
        cases hf.symm.trans hl
        exact (filed.contextual_iff (field_compile.1 hf)).2 (.inl (f.kind.readsContext_iff.2 hkind))
    | @head id i step _ ih =>
        obtain ⟨f', hf', hi⟩ := step
        cases hf.symm.trans hf'
        have known := (filed.marked f (Array.mem_of_getElem? (field_compile.1 hf))).1 i hi
        have hin : d.fields[i]? = some d.fields[i] := Array.getElem?_eq_getElem known
        exact (filed.contextual_iff (field_compile.1 hf)).2
          (.inr ⟨i, hi, _, hin, ih _ (field_compile.2 hin)⟩)

theorem typed_completeComponent {fields : Array Field} {c : Component} (h : c.Typed fields)
    (names : List String) : (completeComponent names c).Typed fields where
  symbol := h.symbol
  positions n hn := by
    obtain ⟨m, hm, rfl⟩ := Array.mem_map.1 hn
    exact h.positions m hm
  orientations n hn := by
    obtain ⟨m, hm, rfl⟩ := Array.mem_map.1 hn
    exact h.orientations m hm
  areas a ha := by
    obtain ⟨b, hb, rfl⟩ := List.mem_map.1 ha
    exact h.areas b hb
  blocks := h.blocks
  corners := h.corners

theorem Typed.component (typed : d.Typed) {id : ComponentId} {c : Component}
    (hc : d.compile.component id = .ok c) : c.Typed d.fields := by
  obtain ⟨e, he, rfl⟩ := component_compile.1 hc
  exact typed_completeComponent (typed.components e (Array.mem_of_getElem? he)) d.areaNames

theorem Typed.symbol (typed : d.Typed) {ref : SymbolRef} {s : Symbol}
    (hs : d.compile.symbol ref = .ok s) : s.Typed d.fields := by
  cases ref with
  | rule id =>
      obtain ⟨r, hr, hs⟩ := bind_ok_iff.1 hs
      cases hs
      obtain ⟨e, he, rfl⟩ := rule_compile.1 hr
      exact (typed.rules e (Array.mem_of_getElem? he)).pragmas _
  | expansion id =>
      obtain ⟨x, hx, hs⟩ := bind_ok_iff.1 hs
      cases hs
      obtain ⟨y, hy, rfl⟩ := expansion_compile.1 hx
      exact (typed.expansions y (Array.mem_of_getElem? hy)).pragmas _
  | component id =>
      obtain ⟨c, hc, hs⟩ := bind_ok_iff.1 hs
      cases hs
      exact (typed.component hc).symbol

/-- The candidates of a rule are its expansions in their order. -/
theorem candidatesOf_expansions {expansions : Array Expansion} {r : Rule}
    (known : ∀ x ∈ r.expansions, x < expansions.size) :
    (candidatesOf expansions r).map (·.2.expansion) = r.expansions := by
  unfold candidatesOf
  rw [List.map_filterMap]
  refine (List.filterMap_congr fun x hx => ?_).trans List.filterMap_some
  rw [Array.getElem?_eq_getElem (known x hx)]
  rfl

theorem mem_candidatesOf {expansions : Array Expansion} {r : Rule} {p : Binary32} {c : Candidate}
    (h : (p, c) ∈ candidatesOf expansions r) : c.expansion ∈ r.expansions ∧
      ∃ e : Expansion, expansions[c.expansion]? = some e ∧ e.priority = p := by
  obtain ⟨x, hx, h⟩ := List.mem_filterMap.1 h
  obtain ⟨e, he, heq⟩ := Option.map_eq_some_iff.1 h
  cases heq
  exact ⟨hx, e, he, rfl⟩

section Tiers

variable {expansions : Array Expansion} {r : Rule}
  (known : ∀ x ∈ r.expansions, x < expansions.size)

include known

/-- The tiers of a rule hold its expansions in some order. -/
theorem tiers_perm : ((completeRule expansions r).tiers.flatMap fun t =>
    t.candidates.map (·.expansion)).Perm r.expansions := by
  have perm := (Tier.group_perm (candidatesOf expansions r)).map (·.expansion)
  rw [List.map_map] at perm
  have flat : ((completeRule expansions r).tiers.flatMap (·.candidates)).map (·.expansion) =
      (completeRule expansions r).tiers.flatMap fun t => t.candidates.map (·.expansion) :=
    List.map_flatMap
  rw [← flat]
  refine perm.trans (.of_eq ?_)
  exact candidatesOf_expansions known

/-- A rule that lists an expansion once files it once, by its priority. -/
theorem files_of_listed {x : ExpansionId} {e : Expansion} (nodup : r.expansions.Nodup)
    (hx : x ∈ r.expansions) (he : expansions[x]? = some e) :
    (completeRule expansions r).Files x e.priority where
  listed := List.count_eq_one_of_mem nodup hx
  tiered := ((tiers_perm known).count_eq x).trans (List.count_eq_one_of_mem nodup hx)
  tier t ht hmem := by
    obtain ⟨c, hc, rfl⟩ := List.mem_map.1 hmem
    obtain ⟨_, e', he', hp⟩ := mem_candidatesOf (Tier.mem_group ht hc)
    cases he.symm.trans he'
    exact hp.symm

end Tiers

theorem wellFormed_compile (sound : d.Sound True) (typed : d.Typed) (filed : d.Filed) :
    d.compile.WellFormed where
  closed := sound.closed
  contextual := contextual_compile sound filed
  fields id f hf := typed.fields f (Array.mem_of_getElem? (field_compile.1 hf))
  symbols ref s hs := typed.symbol hs
  components id c hc := typed.component hc
  perpendicular id c hc n hn forward up ho := by
    have valid := (typed.component hc).orientations n hn
    rw [ho] at valid
    exact beq_iff_eq.1 valid
  owned x e he := by
    obtain ⟨y, hy, rfl⟩ := expansion_compile.1 he
    obtain ⟨r, hr, hx⟩ := filed.listed.owned x y hy
    refine ⟨_, rule_compile.2 ⟨r, hr, rfl⟩, files_of_listed (fun x hx => ?_)
      (filed.listed.nodup r (Array.mem_of_getElem? hr)) hx (Fault.lookup_eq_ok_iff.1 he)⟩
    simpa [compile] using (sound.rules r (Array.mem_of_getElem? hr)).2 x hx
  listed id r hr x hx := by
    obtain ⟨e, he, rfl⟩ := rule_compile.1 hr
    obtain ⟨y, hy, howner⟩ := filed.listed.owner id e he x hx
    exact ⟨_, expansion_compile.2 ⟨y, hy, rfl⟩, howner⟩
  tiered id r hr := by
    obtain ⟨e, he, rfl⟩ := rule_compile.1 hr
    exact ⟨Tier.nodup_priorities _, fun t ht c hc => (mem_candidatesOf (Tier.mem_group ht hc)).1⟩
  findRule name id := by
    have names := filed.rules.map (fun e => completeRule d.compile.expansions e.value)
      (fun r => r.symbol.name) fun _ => rfl
    simp only [Grammar.rule, Fault.lookup_eq_ok_iff]
    exact names.findIdx?_eq_some_iff
  findComponent name id := by
    have names := filed.components.map (fun e => completeComponent d.areaNames e.value)
      (fun c => c.symbol.name) fun _ => rfl
    simp only [Grammar.component, Fault.lookup_eq_ok_iff]
    exact names.findIdx?_eq_some_iff
  areas := numbersAreas_compile d
  areaNames id c hc a ha := by
    obtain ⟨e, he, rfl⟩ := component_compile.1 hc
    obtain ⟨b, hb, rfl⟩ := List.mem_map.1 ha
    exact List.getElem?_idxOf (mem_areaNames (Array.mem_of_getElem? he) hb)

end Draft

/-- What is compiled holds no mistake. -/
theorem Grammar.Built.drafted {own : Prop} {g : Grammar} (h : g.Built own) :
    ∃ d, Draft.Reached own d ∧ d.error = none ∧ g = d.compile := by
  obtain ⟨d, reached, built⟩ := h
  obtain ⟨fine, rfl⟩ := Draft.build_ok built
  refine ⟨d, reached, ?_, rfl⟩
  unfold Draft.error? at fine
  cases herr : d.error with
  | none => rfl
  | some e =>
      rw [herr] at fine
      cases fine

/-- The symbols of a released grammar name fields of the types called for. -/
theorem Grammar.Built.symbol_typed {own : Prop} {g : Grammar} (h : g.Built own) {ref : SymbolRef}
    {s : Symbol} (hs : g.symbol ref = .ok s) : s.Typed g.fields := by
  obtain ⟨d, reached, noMistake, rfl⟩ := h.drafted
  exact (Draft.typed_of_reached reached noMistake).symbol hs

theorem Grammar.Built.component_typed {own : Prop} {g : Grammar} (h : g.Built own) {id : ComponentId}
    {c : Component} (hc : g.component id = .ok c) : c.Typed g.fields := by
  obtain ⟨d, reached, noMistake, rfl⟩ := h.drafted
  exact (Draft.typed_of_reached reached noMistake).component hc

theorem Grammar.Built.field_typed {own : Prop} {g : Grammar} (h : g.Built own) {id : FieldId}
    {f : Field} (hf : g.field id = .ok f) : f.kind.HasType g.fields f.type := by
  obtain ⟨d, reached, noMistake, rfl⟩ := h.drafted
  exact (Draft.typed_of_reached reached noMistake).fields f
    (Array.mem_of_getElem? (Draft.field_compile.1 hf))

/-- Only well-formed grammars are released. -/
theorem Grammar.wellFormed_of_built {g : Grammar} (h : g.Built True) : g.WellFormed := by
  obtain ⟨d, reached, noMistake, rfl⟩ := h.drafted
  exact Draft.wellFormed_compile (Draft.sound_of_reached reached)
    (Draft.typed_of_reached reached noMistake) (Draft.filed_of_reached reached)

/-! ### A house -/

def house : Draft :=
  .ofStatements
    [.rule "house", .ruleRef "room", .component "hall", .constant (.float3 ⟨0, 0, 0⟩),
      .localPosition, .axis 1 .y, .constant (.float 4), .compare .lt 2 3, .condition (.component 0) 4,
      .constant (.block 7), .fillBox 0 5 0 (some 1), .area 0 "floor" 0 1 .mustNot false,
      .node 0 "door" 0 (.facing .posZ .posY) (some 1), .toComponent 0 0 (some "door") false,
      .toNothing 0, .rule "room", .param (.rule 1) "depth" .float (some 3), .toRule 1 0]

theorem built_house : house.compile.Built True :=
  Draft.built_ofStatements (by decide +kernel) (by decide +kernel)

theorem Grammar.wellFormed_of_built_house :
    house.compile.Built True ∧ house.compile.WellFormed ∧ house.compile.expansions.size = 3 :=
  ⟨built_house, Grammar.wellFormed_of_built built_house, by decide +kernel⟩

end VoxelGrammar
