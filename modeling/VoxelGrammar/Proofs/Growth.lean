import VoxelGrammar.Proofs.Sanity
import VoxelGrammar.Proofs.Writes

/-!
Arenas that have grown from nothing: symbols have been entered, contexts have handed on what they
assign, and later contexts have been dropped, in any order. What a context is entered with and keeps
when it assigns is true of all contexts of such an arena. The inputs of a context are the defaults of
its symbol, the last one of each parameter, or lead to its parent.
-/

namespace VoxelGrammar

variable {own : Prop} {g : Grammar} {a : Arena} {h : Handle} {s : Symbol}

/-! ### Bindings -/

namespace Bindings

theorem get?_set (b : Bindings) (k k' : ParamKey) (v : Binding) :
    (b.set k v).get? k' = if k' = k then some v else b.get? k' := by
  obtain ⟨entries⟩ := b
  simp only [get?, set, List.lookup_cons]
  by_cases hk : k' = k
  · simp [hk]
  · have hne : (k' == k) = false := beq_eq_false_iff_ne.2 hk
    simp only [hne, if_neg hk]
    induction entries with
    | nil => rfl
    | cons e rest ih =>
        obtain ⟨l, u⟩ := e
        by_cases hl : l = k
        · subst hl
          simpa [List.lookup_cons, hne] using ih
        · simp [List.lookup_cons, hl, ih]

/-- The last binding of a key is the one in force. -/
theorem get?_setAll (b : Bindings) (more : List (ParamKey × Binding)) (k : ParamKey) :
    (b.setAll more).get? k = (more.reverse.lookup k).or (b.get? k) := by
  simp only [setAll]
  induction more generalizing b with
  | nil => rfl
  | cons e rest ih =>
      obtain ⟨l, u⟩ := e
      rw [List.foldl_cons, ih, get?_set, List.reverse_cons, List.lookup_append, Option.or_assoc]
      congr 1
      by_cases hk : k = l
      · simp [hk]
      · simp [hk, List.lookup_cons, beq_eq_false_iff_ne.2 hk]

end Bindings

/-! ### Defaults -/

/-- What a parameter defaults to: of several defaults that are declared for it, to the last. -/
def Symbol.default? (s : Symbol) (k : ParamKey) : Option FieldId :=
  s.params.reverse.findSome? fun p => if p.key = k then p.default else none

theorem Symbol.mem_of_default? {k : ParamKey} {id : FieldId} (hd : s.default? k = some id) :
    ∃ p ∈ s.params, p.key = k ∧ p.default = some id := by
  obtain ⟨p, hp, hd⟩ := List.exists_of_findSome?_eq_some hd
  split at hd
  · next hk => exact ⟨p, List.mem_reverse.1 hp, hk, hd⟩
  · cases hd

namespace Context

theorem get?_defaults (s : Symbol) (k : ParamKey) :
    (Bindings.empty.setAll (defaults s)).get? k = (s.default? k).map .own := by
  rw [Bindings.get?_setAll, defaults, ← List.filterMap_reverse, Symbol.default?]
  induction s.params.reverse with
  | nil => rfl
  | cons p rest ih =>
      rw [List.findSome?_cons]
      cases hd : p.default with
      | none => simpa [hd] using ih
      | some id =>
          by_cases hk : p.key = k
          · simp [hd, hk]
          · simpa [hd, hk, List.lookup_cons, beq_eq_false_iff_ne.2 (Ne.symm hk)] using ih

/-- Whatever a context does not have from its parent is a default of its symbol. -/
theorem default_of_inputsOf {parent : Option (Handle × Context)} {k : ParamKey} {id : FieldId}
    (hin : (inputsOf s parent).get? k = some (.own id)) : s.default? k = some id := by
  have own : (Bindings.empty.setAll (defaults s)).get? k = some (.own id) := by
    cases parent with
    | none => exact hin
    | some e =>
        rw [inputsOf, Bindings.get?_setAll, Option.or_eq_some_iff] at hin
        rcases hin with hin | ⟨_, hin⟩
        · have handed := mem_of_lookup hin
          simp at handed
        · exact hin
  rw [get?_defaults] at own
  obtain ⟨_, hd, heq⟩ := Option.map_eq_some_iff.1 own
  cases heq
  exact hd

structure Declares (s : Symbol) (c : Context) : Prop where
  placeholders : ∀ id k, c.placeholder? id = some k → ∃ p ∈ s.params, p.placeholder = id ∧ p.key = k
  inputs : ∀ k id, c.inputs.get? k = some (.own id) → s.default? k = some id

theorem declares_of_enter {parent : Option (Handle × Context)} {ref : SymbolRef}
    {placement : Transform} {seed : Seed} {x : Context}
    (he : enter parent ref s placement seed = .ok x) : x.Declares s := by
  unfold enter at he
  dsimp only at he
  split at he
  · cases he
  · cases he
    refine ⟨fun id k hk => ?_, fun k id hid => default_of_inputsOf hid⟩
    obtain ⟨p, hp, heq⟩ := List.mem_map.1 (List.mem_reverse.1 (mem_of_lookup hk))
    cases heq
    exact ⟨p, hp, rfl, rfl⟩

def Bridged (c : Context) : Prop :=
  ∀ e ∈ c.inputs.entries ++ c.outputs.entries, ∀ p, e.2 = .bridge p → c.parent = some p

theorem bridged_of_enter {parent : Option (Handle × Context)} {ref : SymbolRef}
    {placement : Transform} {seed : Seed} {x : Context}
    (he : enter parent ref s placement seed = .ok x) : x.Bridged := by
  have own : ∀ e ∈ (Bindings.empty.setAll (defaults s)).entries, ∀ p, e.2 ≠ .bridge p := by
    intro e he p
    rcases Bindings.mem_setAll he with he | he
    · cases he
    · obtain ⟨q, _, hq⟩ := List.mem_filterMap.1 he
      obtain ⟨id, _, rfl⟩ := Option.map_eq_some_iff.1 hq
      exact nofun
  have inputs : ∀ e ∈ (inputsOf s parent).entries, ∀ p, e.2 = .bridge p →
      parent.map (·.1) = some p := by
    intro e he p hp
    cases parent with
    | none => exact absurd hp (own e he p)
    | some d =>
        rcases Bindings.mem_setAll he with he | he
        · exact absurd hp (own e he p)
        · obtain ⟨k, _, rfl⟩ := List.mem_map.1 he
          cases hp
          rfl
  unfold enter at he
  dsimp only at he
  split at he
  · cases he
  · cases he
    intro e he
    rcases List.mem_append.1 he with he | he <;> exact inputs e he

theorem Bridged.assign {c : Context} (bridged : c.Bridged) (s : Symbol) : (c.assign s).Bridged := by
  intro e he p hp
  rcases List.mem_append.1 he with he | he
  · exact bridged e (List.mem_append_left _ he) p hp
  · rcases Bindings.mem_setAll he with he | he
    · exact bridged e (List.mem_append_right _ he) p hp
    · obtain ⟨v, _, rfl⟩ := List.mem_map.1 he
      cases hp

end Context

/-! ### Arenas -/

namespace Arena

/-- The arenas that come from entering symbols, from handing on what a context assigns and from
dropping contexts. -/
inductive Grown (g : Grammar) : Arena → Prop
  | empty : Grown g .empty
  | create {a b : Arena} {parent : Option Handle} {ref : SymbolRef} {placement : Transform}
      {seed : Seed} {h : Handle} (grown : Grown g a)
      (run : a.create g parent ref placement seed = .ok (h, b)) : Grown g b
  | assign {a : Arena} {h : Handle} {x : Context} {s : Symbol} (grown : Grown g a)
      (live : a.get h = .ok x) (symbol : g.symbol x.symbol = .ok s) : Grown g (a.assign h s)
  | truncate {a : Arena} (grown : Grown g a) (n : Nat) : Grown g (a.truncate n)

theorem create_ok {b : Arena} {parent : Option Handle} {ref : SymbolRef} {placement : Transform}
    {seed : Seed} (run : a.create g parent ref placement seed = .ok (h, b)) :
    ∃ x, a.prepare g parent ref placement seed = .ok x ∧ a.push x = (h, b) := by
  rw [create] at run
  cases hx : a.prepare g parent ref placement seed with
  | error e =>
      rw [hx] at run
      cases run
  | ok x =>
      rw [hx] at run
      exact ⟨x, rfl, Except.ok.inj run⟩

theorem sane_empty (g : Grammar) : Arena.empty.Sane g := by
  refine ⟨numbered_empty, fun h c hc => ?_, fun e he => ?_⟩
  · cases slot_lt_of_get hc
  · cases he

theorem Grown.sane (grown : a.Grown g) (closed : g.Closed own) : a.Sane g := by
  induction grown with
  | empty => exact sane_empty g
  | create _ run ih =>
      obtain ⟨x, hx, hpush⟩ := create_ok run
      have pushed := ih.push closed hx
      rwa [hpush] at pushed
  | assign _ live symbol ih => exact ih.assign (closed.symbol symbol) (isLive_of_get live)
  | truncate _ n ih => exact ih.truncate n

/-- What contexts are entered with and keep when they assign is true of all of them. -/
theorem Grown.forall_live {P : Context → Prop} (grown : a.Grown g) (closed : g.Closed own)
    (enter : ∀ {p ref s placement seed x}, g.symbol ref = .ok s →
      Context.enter p ref s placement seed = .ok x → x.symbol = ref → P x)
    (assign : ∀ {x s}, g.symbol x.symbol = .ok s → P x → P (x.assign s)) : ∀ e ∈ a.live, P e.2 := by
  induction grown with
  | empty =>
      intro e he
      cases he
  | create grown run ih =>
      obtain ⟨x, hx, hpush⟩ := create_ok run
      obtain ⟨p, s, _, hs, he⟩ := prepare_ok hx
      have live := @mem_live_push _ (grown.sane closed).numbered x
      rw [hpush] at live
      intro e hmem
      rcases live.1 hmem with hmem | rfl
      · exact ih e hmem
      · exact enter hs he (symbol_of_prepare hx)
  | @assign a h x s grown hx symbol ih =>
      intro e he
      obtain ⟨c, hc, same⟩ := mem_live_modify he
      have old := ih _ hc
      rcases same with same | ⟨here, same⟩ <;> rw [same]
      · exact old
      · have found := (mem_live_iff (grown.sane closed).numbered).1 hc
        rw [here, hx] at found
        cases found
        exact assign symbol old
  | truncate _ n ih =>
      exact fun e he => ih e (mem_of_mem_truncate he)

def Declared (g : Grammar) (a : Arena) : Prop :=
  ∀ e ∈ a.live, ∃ s, g.symbol e.2.symbol = .ok s ∧ e.2.Declares s

theorem Grown.declared (grown : a.Grown g) (closed : g.Closed own) : a.Declared g := by
  refine grown.forall_live (P := fun x => ∃ s, g.symbol x.symbol = .ok s ∧ x.Declares s) closed
    (fun hs he hx => ⟨_, hx ▸ hs, Context.declares_of_enter he⟩) ?_
  rintro x s - ⟨s', hs', declares⟩
  exact ⟨s', hs', declares.placeholders, declares.inputs⟩

theorem Grown.bridged (grown : a.Grown g) (closed : g.Closed own) : ∀ e ∈ a.live, e.2.Bridged :=
  grown.forall_live closed (fun _ he _ => Context.bridged_of_enter he) fun _ h => h.assign _

end Arena

/-! ### A parameter that is declared twice -/

def redeclared (second : FieldId) : Draft where
  rules := #[⟨⟨⟨"rule", [], [⟨"depth", .float, some 0, 1⟩, ⟨"depth", .float, some second, 2⟩], [],
    .empty⟩, [], []⟩, true⟩]
  expansions := #[]
  components := #[]
  fields := #[⟨.float, .constant (.float 0), false⟩, ⟨.float, .param "depth", true⟩,
    ⟨.float, .param "depth", true⟩]
  error := none

def redeclaring (second : FieldId) : Context where
  parent := none
  symbol := .rule 0
  toWorld := .identity
  toLocal := Transform.identity.inverse
  seed := 7
  inputs := ⟨[(⟨"depth", .float⟩, .own second)]⟩
  outputs := ⟨[(⟨"depth", .float⟩, .own second)]⟩
  placeholders := [(2, ⟨"depth", .float⟩), (1, ⟨"depth", .float⟩)]

theorem built_redeclared {second : FieldId} (h : second < 2) :
    (redeclared second).compile.Built True := by
  let bare : Draft := ⟨#[⟨⟨.named "rule", [], []⟩, true⟩], #[], #[], #[], none⟩
  let constant : Draft := { bare with fields := #[⟨.float, .constant (.float 0), false⟩] }
  let once : Draft :=
    { constant with
      rules := #[⟨⟨⟨"rule", [], [⟨"depth", .float, some 0, 1⟩], [], .empty⟩, [], []⟩, true⟩]
      fields := constant.fields.push ⟨.float, .param "depth", true⟩ }
  have rule : (Statement.rule "rule").run.run .empty = .ok (some 0, bare) := by
    simp [Statement.run, Draft.rule, Draft.ruleRef, Draft.amendRule, Draft.amend, Draft.empty, bare]
  have zero : (Statement.constant (.float 0)).run.run bare = .ok (some 0, constant) := rfl
  have first : (Statement.param (.rule 0) "depth" .float (some 0)).run.run constant =
      .ok (some 1, once) := rfl
  have again : (Statement.param (.rule 0) "depth" .float (some second)).run.run once =
      .ok (some 2, redeclared second) := by
    obtain rfl | rfl := Nat.le_one_iff_eq_zero_or_eq_one.1 (Nat.le_of_lt_succ h)
    · rfl
    · rfl
  have started : Draft.Reached True bare := .next (.rule "rule") .empty (fun _ => trivial) rule
  have filled : Draft.Reached True constant :=
    .next (.constant (.float 0)) started (fun _ => trivial) zero
  have declared : Draft.Reached True once :=
    .next (.param (.rule 0) "depth" .float (some 0)) filled (fun _ => trivial) first
  have reached : Draft.Reached True (redeclared second) :=
    .next (.param (.rule 0) "depth" .float (some second)) declared (fun _ => trivial) again
  exact ⟨redeclared second, reached, rfl⟩

theorem create_redeclared {second : FieldId} (h : second < 2) :
    Arena.empty.create (redeclared second).compile none (.rule 0) .identity 7 =
      .ok (Arena.empty.push (redeclaring second)) := by
  obtain rfl | rfl := Nat.le_one_iff_eq_zero_or_eq_one.1 (Nat.le_of_lt_succ h)
  · with_unfolding_all rfl
  · with_unfolding_all rfl

theorem grown_redeclared {second : FieldId} (h : second < 2) :
    (Arena.empty.push (redeclaring second)).2.Grown (redeclared second).compile :=
  .create .empty (create_redeclared h)

end VoxelGrammar
