import VoxelGrammar.Proofs.Edits
import VoxelGrammar.Proofs.Recall

/-!
What holds of every grammar that a draft compiles to. A draft is made by edits, one after the other,
so it is enough that each edit keeps to it; most of them do no more than to change one entry of a
table.
-/

namespace VoxelGrammar

variable {α : Type}

/-! ### Identifiers in range -/

/-- The symbol refers to the first `n` fields only, and its defaults are older than the placeholders
they are declared with. -/
structure Symbol.Within (n : Nat) (s : Symbol) : Prop where
  conditions : ∀ id ∈ s.conditions, id < n
  defaults : ∀ p ∈ s.params, ∀ id, p.default = some id → id < n
  placeholders : ∀ p ∈ s.params, p.placeholder < n
  older : ∀ p ∈ s.params, ∀ id, p.default = some id → id < p.placeholder
  assignments : ∀ a ∈ s.assignments, a.value < n

theorem Symbol.within_named (n : Nat) (name : String) : (Symbol.named name).Within n := by
  constructor <;> intro _ h <;> cases h

theorem Symbol.Within.mono {m n : Nat} {s : Symbol} (h : s.Within m) (hmn : m ≤ n) : s.Within n :=
  ⟨fun id hid => (h.conditions id hid).trans_le hmn,
    fun p hp id hid => (h.defaults p hp id hid).trans_le hmn,
    fun p hp => (h.placeholders p hp).trans_le hmn, h.older,
    fun a ha => (h.assignments a ha).trans_le hmn⟩

structure Component.Within (own : Prop) (fields rules : Nat) (c : Component) : Prop where
  symbol : c.symbol.Within fields
  positions : ∀ n ∈ c.nodes, n.position < fields
  rules : own → ∀ n ∈ c.nodes, ∀ id, n.rule = some id → id < rules
  areas : ∀ a ∈ c.areas, a.start < fields ∧ a.stop < fields
  fills : ∀ f ∈ c.fills, f.block < fields ∧ (∀ id, f.start = some id → id < fields) ∧
    ∀ id, f.stop = some id → id < fields

theorem Component.Within.mono {own : Prop} {fields fields' rules rules' : Nat} {c : Component}
    (h : c.Within own fields rules) (hf : fields ≤ fields') (hr : rules ≤ rules') :
    c.Within own fields' rules' where
  symbol := h.symbol.mono hf
  positions n hn := (h.positions n hn).trans_le hf
  rules ho n hn id hid := (h.rules ho n hn id hid).trans_le hr
  areas a ha := ⟨(h.areas a ha).1.trans_le hf, (h.areas a ha).2.trans_le hf⟩
  fills f hfl := ⟨(h.fills f hfl).1.trans_le hf,
    fun id hid => ((h.fills f hfl).2.1 id hid).trans_le hf,
    fun id hid => ((h.fills f hfl).2.2 id hid).trans_le hf⟩

theorem Target.Within.mono {rules rules' components components' : Nat} {t : Target}
    (h : t.Within rules components) (hr : rules ≤ rules') (hc : components ≤ components') :
    t.Within rules' components' := by
  cases t with
  | nothing => trivial
  | rule id => exact Nat.lt_of_lt_of_le h hr
  | component id node => exact Nat.lt_of_lt_of_le h hc

namespace Draft

/-- The field in place `id` is made of earlier ones, and what reads no context of what reads none. -/
structure FieldSound (fields : Array Field) (id : FieldId) (f : Field) : Prop where
  inputs : ∀ i ∈ f.kind.inputs, i < id
  marked : f.contextual = false → f.kind.readsContext = false ∧
    ∀ i ∈ f.kind.inputs, ∃ f' : Field, fields[i]? = some f' ∧ f'.contextual = false

structure Sound (own : Prop) (d : Draft) : Prop where
  fields : ∀ (id : Nat) (f : Field), d.fields[id]? = some f → FieldSound d.fields id f
  rules : ∀ e ∈ d.rules, e.value.symbol.Within d.fields.size ∧
    ∀ id ∈ e.value.expansions, id < d.expansions.size
  expansions : ∀ e ∈ d.expansions, e.symbol.Within d.fields.size ∧
    (own → e.target.Within d.rules.size d.components.size)
  components : ∀ e ∈ d.components, e.value.Within own d.fields.size d.rules.size

/-! ### What edits keep to -/

theorem mem_modify {table : Array α} {id : Nat} {f : α → α} {e : α}
    (he : e ∈ table.modify id f) : ∃ e₀ ∈ table, e = e₀ ∨ e = f e₀ := by
  obtain ⟨i, hi, rfl⟩ := Array.getElem_of_mem he
  have hi' : i < table.size := by simpa using hi
  refine ⟨table[i], Array.getElem_mem hi', ?_⟩
  rw [Array.getElem_modify]
  split
  · exact .inr rfl
  · exact .inl rfl

theorem forall_mem_modify {table : Array α} {R : α → Prop} {id : Nat} {f : α → α}
    (h : ∀ e ∈ table, R e) (hf : ∀ e, R e → R (f e)) : ∀ e ∈ table.modify id f, R e := by
  intro e he
  obtain ⟨e₀, he₀, rfl | rfl⟩ := mem_modify he
  · exact h e he₀
  · exact hf e₀ (h e₀ he₀)

theorem forall_mem_push {table : Array α} {R : α → Prop} {x : α}
    (h : ∀ e ∈ table, R e) (hx : R x) : ∀ e ∈ table.push x, R e := by
  intro e he
  rcases Array.mem_push.1 he with he | rfl
  · exact h e he
  · exact hx

section Edits

variable {own : Prop} {subject : Option SymbolRef} {d d' : Draft}

theorem SymbolEdit.within {f : Symbol → Symbol} (edit : SymbolEdit d f) {s : Symbol}
    (h : s.Within d.fields.size) : (f s).Within d.fields.size := by
  cases edit with
  | condition known _ =>
      exact { h with
        conditions := List.forall_mem_append.2 ⟨h.conditions, List.forall_mem_singleton.2 known⟩ }
  | pragma name value =>
      exact ⟨h.conditions, h.defaults, h.placeholders, h.older, h.assignments⟩
  | param older found _ _ _ =>
      have last := (Array.getElem?_eq_some_iff.1 found).1
      exact { h with
        defaults := List.forall_mem_append.2 ⟨h.defaults, List.forall_mem_singleton.2 fun id hid =>
          (older id hid).trans last⟩
        placeholders := List.forall_mem_append.2 ⟨h.placeholders, List.forall_mem_singleton.2 last⟩
        older := List.forall_mem_append.2 ⟨h.older, List.forall_mem_singleton.2 older⟩ }
  | assign name typed =>
      exact { h with
        assignments := List.forall_mem_append.2
          ⟨h.assignments, List.forall_mem_singleton.2 typed.lt⟩ }

theorem ComponentEdit.within {f : Component → Component} (edit : ComponentEdit own d f)
    {c : Component} (h : c.Within own d.fields.size d.rules.size) :
    (f c).Within own d.fields.size d.rules.size := by
  cases edit with
  | node name known owned _ =>
      exact { h with
        positions := forall_mem_push h.positions known
        rules := fun ho => forall_mem_push (h.rules ho) (owned ho) }
  | nodePragma node name value =>
      refine { h with positions := fun n hn => ?_, rules := fun ho n hn => ?_ } <;> dsimp only at hn
      · obtain ⟨n, hmem, rfl | rfl⟩ := mem_modify hn <;> exact h.positions n hmem
      · obtain ⟨n, hmem, rfl | rfl⟩ := mem_modify hn <;> exact h.rules ho n hmem
  | area name policy virtualOnly known _ =>
      exact { h with
        areas := List.forall_mem_append.2 ⟨h.areas, List.forall_mem_singleton.2 known⟩ }
  | fill known corners _ =>
      have within := And.intro known <| And.intro (fun id hid => corners id (.inl hid)) fun id hid =>
        corners id (.inr hid)
      exact { h with
        fills := List.forall_mem_append.2 ⟨h.fills, List.forall_mem_singleton.2 within⟩ }

/-- A mark that is not set tells that neither the kind nor an input reads the context. -/
theorem fieldSound_marks {fields : Array Field} {type : ValueType} {kind : FieldKind}
    (inputs : ∀ i ∈ kind.inputs, i < fields.size) :
    FieldSound fields fields.size ⟨type, kind, marks fields kind⟩ := by
  refine ⟨inputs, fun unmarked => ?_⟩
  obtain ⟨reads, others⟩ := Bool.or_eq_false_iff.1 unmarked
  refine ⟨reads, fun i hi => ?_⟩
  have found := Array.getElem?_eq_getElem (inputs i hi)
  have other := List.any_eq_false.1 others i hi
  rw [found, Option.any_some, Bool.not_eq_true] at other
  exact ⟨_, found, other⟩

theorem Sound.modifyRule (h : d.Sound own) (id : RuleId) {f : Entry Rule → Entry Rule}
    (hf : ∀ e, (e.value.symbol.Within d.fields.size ∧
        ∀ id ∈ e.value.expansions, id < d.expansions.size) →
      (f e).value.symbol.Within d.fields.size ∧
        ∀ id ∈ (f e).value.expansions, id < d.expansions.size) :
    Sound own { d with rules := d.rules.modify id f } where
  fields := h.fields
  rules := forall_mem_modify h.rules hf
  expansions := by simpa using h.expansions
  components := by simpa using h.components

theorem Sound.modifyExpansion (h : d.Sound own) (id : ExpansionId) {f : Expansion → Expansion}
    (hf : ∀ e, (e.symbol.Within d.fields.size ∧
        (own → e.target.Within d.rules.size d.components.size)) →
      (f e).symbol.Within d.fields.size ∧
        (own → (f e).target.Within d.rules.size d.components.size)) :
    Sound own { d with expansions := d.expansions.modify id f } where
  fields := h.fields
  rules := by simpa using h.rules
  expansions := forall_mem_modify h.expansions hf
  components := h.components

theorem Sound.modifyComponent (h : d.Sound own) (id : ComponentId)
    {f : Entry Component → Entry Component}
    (hf : ∀ e, e.value.Within own d.fields.size d.rules.size →
      (f e).value.Within own d.fields.size d.rules.size) :
    Sound own { d with components := d.components.modify id f } where
  fields := h.fields
  rules := h.rules
  expansions := by simpa using h.expansions
  components := forall_mem_modify h.components hf

theorem Sound.modifySymbol (h : d.Sound own) {f : Symbol → Symbol} (edit : SymbolEdit d f)
    (s : SymbolRef) : (d.modifySymbol f s).Sound own := by
  cases s with
  | rule id => exact h.modifyRule id fun _ he => ⟨edit.within he.1, he.2⟩
  | expansion id => exact h.modifyExpansion id fun _ he => ⟨edit.within he.1, he.2⟩
  | component id => exact h.modifyComponent id fun _ he => { he with symbol := edit.within he.symbol }

theorem Sound.setError (h : d.Sound own) (e : Option GrammarError) :
    Sound own { d with error := e } := ⟨h.fields, h.rules, h.expansions, h.components⟩

theorem Sound.pushField (h : d.Sound own) {f : Field}
    (hf : FieldSound d.fields d.fields.size f) :
    Sound own { d with fields := d.fields.push f } := by
  have grow : ∀ {id : FieldId} {g : Field}, FieldSound d.fields id g →
      FieldSound (d.fields.push f) id g := by
    intro id g hg
    refine ⟨hg.inputs, fun hc => ⟨(hg.marked hc).1, fun i hi => ?_⟩⟩
    obtain ⟨g', hg', hc'⟩ := (hg.marked hc).2 i hi
    exact ⟨g', getElem?_push_of_some hg' f, hc'⟩
  have hle : d.fields.size ≤ (d.fields.push f).size := by simp
  refine ⟨fun id g hg => ?_, fun e he => ?_, fun e he => ?_, fun e he => ?_⟩
  · rw [Array.getElem?_push] at hg
    split at hg
    · next hid =>
      cases hg
      exact hid ▸ grow hf
    · exact grow (h.fields id g hg)
  · exact ⟨(h.rules e he).1.mono hle, (h.rules e he).2⟩
  · exact ⟨(h.expansions e he).1.mono hle, (h.expansions e he).2⟩
  · exact (h.components e he).mono hle (Nat.le_refl _)

theorem Sound.pushRule (h : d.Sound own) (name : String) (declared : Bool) :
    Sound own { d with rules := d.rules.push ⟨⟨.named name, [], []⟩, declared⟩ } := by
  have hle : d.rules.size ≤ (d.rules.push ⟨⟨.named name, [], []⟩, declared⟩).size := by simp
  refine ⟨h.fields, fun e he => ?_, fun e he => ?_, fun e he => ?_⟩
  · exact forall_mem_push h.rules ⟨Symbol.within_named _ name, by simp⟩ e he
  · exact ⟨(h.expansions e he).1, fun ho => ((h.expansions e he).2 ho).mono hle (Nat.le_refl _)⟩
  · exact (h.components e he).mono (Nat.le_refl _) hle

theorem Sound.pushComponent (h : d.Sound own) (name : String) (declared : Bool) :
    Sound own { d with
      components := d.components.push ⟨⟨.named name, #[], [], []⟩, declared⟩ } := by
  have hle : d.components.size ≤
      (d.components.push ⟨⟨.named name, #[], [], []⟩, declared⟩).size := by simp
  refine ⟨h.fields, h.rules, fun e he => ?_, fun e he => ?_⟩
  · exact ⟨(h.expansions e he).1, fun ho => ((h.expansions e he).2 ho).mono (Nat.le_refl _) hle⟩
  · rcases Array.mem_push.1 he with he | rfl
    · exact h.components e he
    · refine ⟨Symbol.within_named _ name, ?_, ?_, ?_, ?_⟩ <;> simp

theorem Sound.pushExpansion (h : d.Sound own) {e : Expansion}
    (hs : e.symbol.Within d.fields.size)
    (ht : own → e.target.Within d.rules.size d.components.size) :
    Sound own { d with expansions := d.expansions.push e } := by
  refine ⟨h.fields, fun r hr => ⟨(h.rules r hr).1, fun id hid => ?_⟩, fun x hx => ?_, h.components⟩
  · rw [Array.size_push]
    exact ((h.rules r hr).2 id hid).trans (Nat.lt_succ_self _)
  · rcases Array.mem_push.1 hx with hx | rfl
    · exact h.expansions x hx
    · exact ⟨hs, ht⟩

theorem Edit.sound (edit : Edit own subject d d') (h : d.Sound own) : d'.Sound own := by
  cases edit with
  | complain e => exact h.setError _
  | field inputs _ => exact h.pushField (fieldSound_marks inputs)
  | referRule _ => exact h.pushRule _ false
  | declareRule id => exact h.modifyRule id fun _ he => he
  | referComponent _ => exact h.pushComponent _ false
  | declareComponent id => exact h.modifyComponent id fun _ he => he
  | symbol _ edit => exact h.modifySymbol edit _
  | component _ edit => exact h.modifyComponent _ fun _ he => edit.within he
  | @expand owner _ name target reflected _ owned =>
      -- The rule may list the expansion once the table has it.
      have pushed := h.pushExpansion (e := ⟨.named name, owner, target, reflected⟩)
        (Symbol.within_named _ name) owned
      refine pushed.modifyRule owner fun e he => ⟨he.1, ?_⟩
      exact List.forall_mem_append.2 ⟨he.2, List.forall_mem_singleton.2 (by simp)⟩

theorem sound_of_reached (h : Reached own d) : d.Sound own :=
  h.holds (by refine ⟨?_, ?_, ?_, ?_⟩ <;> simp [empty]) Edit.sound

end Edits

end Draft

/-! ### Compiled grammars -/

theorem Draft.build_ok {d : Draft} {g : Grammar} (built : d.build = .ok g) :
    d.error? = none ∧ g = d.compile := by
  unfold build at built
  split at built
  · cases built
  · next fine =>
    cases built
    exact ⟨fine, rfl⟩

theorem Draft.build_of_error? {d : Draft} (fine : d.error? = none) : d.build = .ok d.compile := by
  rw [build, fine]

/-- The grammar is what some draft compiles to, with only `own` targets if so wanted. -/
def Grammar.Built (own : Prop) (g : Grammar) : Prop :=
  ∃ d, Draft.Reached own d ∧ d.build = .ok g

namespace Grammar

variable {own : Prop} {g : Grammar}

theorem Built.compiled (h : g.Built own) : ∃ d, Draft.Sound own d ∧ g = d.compile := by
  obtain ⟨d, reached, built⟩ := h
  exact ⟨d, Draft.sound_of_reached reached, (Draft.build_ok built).2⟩

theorem Built.marked (h : g.Built own) : g.Marked := by
  obtain ⟨d, sound, rfl⟩ := h.compiled
  intro id f hf hc
  have hfield : d.fields[id]? = some f := Fault.lookup_eq_ok_iff.1 hf
  obtain ⟨hr, hin⟩ := (sound.fields id f hfield).marked hc
  refine ⟨hr, fun i hi => ?_⟩
  obtain ⟨f', hf', hc'⟩ := hin i hi
  refine ⟨f', ?_, hc'⟩
  show Fault.lookup d.fields i = .ok f'
  rw [Fault.lookup, hf']

end Grammar

/-! ### Scripts -/

instance Statement.decidableOwned (d : Draft) : (s : Statement) → Decidable (s.Owned d)
  | .toRule _ target => inferInstanceAs (Decidable (target < d.rules.size))
  | .toComponent _ target _ _ => inferInstanceAs (Decidable (target < d.components.size))
  | .node _ _ _ _ none => .isTrue fun _ h => nomatch h
  | .node _ _ _ _ (some id) =>
    decidable_of_iff (id < d.rules.size) ⟨fun h _ heq => Option.some.inj heq ▸ h, fun h => h id rfl⟩
  | .rule _ | .ruleRef _ | .component _ | .componentRef _ | .condition _ _ | .pragma _ _ _
  | .param _ _ _ _ | .assign _ _ _ | .toNothing _ | .nodePragma _ _ _ _ | .area _ _ _ _ _ _
  | .fillBox _ _ _ _ | .fillPositions _ _ _ _ | .constant _ | .worldPosition | .localPosition
  | .contextRandom _ | .blockRandom _ | .external _ _ | .arithmetic _ _ _ | .compare _ _ _
  | .and _ _ | .or _ _ | .not _ | .select _ _ _ | .vector _ _ _ | .axis _ _ => .isTrue trivial

namespace Draft

/-- The draft that statements lead to, if each names only what has been handed out before. -/
def script : List Statement → Draft → Option Draft
  | [], d => some d
  | s :: rest, d =>
    if s.Owned d then
      match s.run.run d with
      | .ok (_, d') => script rest d'
      | .error _ => none
    else none

/-- A script makes its first statement and goes on from there. -/
theorem script_cons {s : Statement} {rest : List Statement} {d d' : Draft}
    (h : script (s :: rest) d = some d') :
    s.Owned d ∧ ∃ r d₁, s.run.run d = .ok (r, d₁) ∧ script rest d₁ = some d' := by
  rw [script] at h
  split at h
  · next owned =>
    split at h
    · next run => exact ⟨owned, _, _, run, h⟩
    · cases h
  · cases h

theorem Reached.script {statements : List Statement} {d d' : Draft} (reached : Reached True d)
    (h : Draft.script statements d = some d') : Reached True d' := by
  induction statements generalizing d with
  | nil =>
      cases h
      exact reached
  | cons s rest ih =>
      obtain ⟨owned, _, _, run, h⟩ := script_cons h
      exact ih (.next s reached (fun _ => owned) run) h

def ofStatements (statements : List Statement) : Draft := (script statements .empty).getD .empty

section

variable {statements : List Statement} (written : (script statements .empty).isSome = true)

include written

theorem reached_ofStatements : Reached True (ofStatements statements) := by
  obtain ⟨d, hd⟩ := Option.isSome_iff_exists.1 written
  rw [ofStatements, hd, Option.getD_some]
  exact Reached.empty.script hd

theorem built_ofStatements (sound : (ofStatements statements).error? = none) :
    (ofStatements statements).compile.Built True :=
  ⟨_, reached_ofStatements written, build_of_error? sound⟩

end

end Draft

end VoxelGrammar
