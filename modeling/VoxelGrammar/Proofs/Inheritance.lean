import VoxelGrammar.Proofs.Derivation
import VoxelGrammar.Proofs.Handles
import VoxelGrammar.Proofs.Scoping
import VoxelGrammar.Proofs.Worth

/-!
What parameters are worth from context to context. A context hands on what its symbol assigns, and
else what it has been handed itself, or the default that its symbol declares. So what a placeholder is
worth in a context follows from the symbol of the context and from what its parent hands on.
-/

namespace VoxelGrammar

variable {μ : Type}

namespace World

variable {w : World μ} {z : Arena} {h p : Handle} {name : String} {k : ParamKey} {seed : Seed}
  {parent : Option Handle} {ref : SymbolRef} {placement : Transform} {s : Symbol} {x : Context}

/-! ### Bindings and their values -/

def Brings (w : World μ) (z : Arena) (name : String) (k : ParamKey) (h : Handle) (b : Option Binding)
    (v : Option Sample) : Prop :=
  ∃ r, z.Supplies name k h b r ∧ Option.Rel (fun s v => w.forgetful.Amounts z s.1 s.2 v) r v

theorem Brings.or {b b' : Option Binding} {v v' : Option Sample} (first : w.Brings z name k h b v)
    (second : w.Brings z name k h b' v') : w.Brings z name k h (b.or b') (v.or v') := by
  obtain ⟨r, supplies, worth⟩ := first
  obtain ⟨r', supplies', worth'⟩ := second
  refine ⟨r.or r', supplies.or supplies', ?_⟩
  cases worth with
  | some worth => exact .some worth
  | none => exact worth'

/-- A field of the context itself brings what it amounts to. -/
theorem brings_own {id : Option FieldId} {v : Option Sample}
    (worth : Option.Rel (fun id v => w.forgetful.Amounts z h id v) id v) :
    w.Brings z name k h (id.map .own) v := by
  refine ⟨_, Arena.supplies_own z name k h id, ?_⟩
  cases worth with
  | some worth => exact .some worth
  | none => exact .none

def Hands (w : World μ) (z : Arena) (name : String) (k : ParamKey) (parent : Option Handle)
    (v : Option Sample) : Prop :=
  match parent with
  | none => v = none
  | some p => ∃ c, z.get p = .ok c ∧ w.Brings z name k p (c.outputs.get? k) v

/-! ### Contexts and their symbols -/

/-- The context `x` at `h` has been entered for the symbol below the parent. -/
structure Seats (z : Arena) (parent : Option Handle) (s : Symbol) (h : Handle) (x : Context) :
    Prop where
  live : z.get h = .ok x
  below : x.parent = parent
  placeholders : x.placeholders = Context.placeholdersOf s
  inputs : ∃ above, z.parentContext parent = .ok above ∧ x.inputs = Context.inputsOf s above

theorem seats_of_prepare {y : Context}
    (prepared : z.prepare w.grammar parent ref placement seed = .ok y)
    (symbol : w.grammar.symbol ref = .ok s) (live : z.get h = .ok x)
    (kept : x = y ∨ x = y.assign s) : Seats z parent s h x ∧ y.outputs = x.inputs := by
  obtain ⟨above, s', hp, hs, entered⟩ := Arena.prepare_ok prepared
  obtain rfl := Except.ok.inj (symbol.symm.trans hs)
  obtain ⟨_, _, placeholders, inputs, outputs, _⟩ := Context.enter_ok entered
  have parent := (Arena.parent_of_prepare prepared).1
  rcases kept with rfl | rfl
  · exact ⟨⟨live, parent, placeholders, above, hp, inputs⟩, outputs⟩
  · exact ⟨⟨live, parent, placeholders, above, hp, inputs⟩, outputs⟩

/-- A context that has just been entered is seated. -/
theorem seats_push {a : Arena} (numbered : a.Numbered)
    (prepared : a.prepare w.grammar parent ref placement seed = .ok x)
    (symbol : w.grammar.symbol ref = .ok s) : Seats (a.push x).2 parent s (a.push x).1 x := by
  have kept : a.live <+: (a.push x).2.live := by
    rw [Arena.live_push numbered]
    exact List.prefix_append _ _
  have prepared' := Arena.prepare_of_isPrefix numbered (Arena.numbered_push numbered x) kept prepared
  exact (seats_of_prepare prepared' symbol (Arena.get_push numbered x) (.inl rfl)).1

section

variable (seats : Seats z parent s h x)

include seats

/-- What comes in is what the parent hands on, or else the default of the symbol. -/
theorem Seats.brings (ground : z.Grounded) {v d : Option Sample} (hands : w.Hands z name k parent v)
    (default : Option.Rel (fun id v => w.forgetful.Amounts z h id v) (s.default? k) d) :
    w.Brings z name k h (x.inputs.get? k) (v.or d) := by
  obtain ⟨above, hp, inputs⟩ := seats.inputs
  rw [inputs, Context.get?_inputsOf]
  refine .or ?_ (brings_own default)
  obtain ⟨same, found⟩ := Arena.parentContext_ok hp
  cases parent with
  | none =>
      obtain rfl : above = none := Option.map_eq_none_iff.1 same
      obtain rfl : v = none := hands
      exact ⟨none, .inl ⟨rfl, rfl⟩, .none⟩
  | some p =>
      obtain ⟨⟨_, c⟩, rfl, rfl⟩ := Option.map_eq_some_iff.1 same
      have hc := found _ rfl
      obtain ⟨c', hc', r, supplies, worth⟩ := hands
      obtain rfl := Except.ok.inj (hc.symm.trans hc')
      have lower := (ground h x seats.live).parent _ seats.below
      exact ⟨r, supplies.bridge (Arena.get_ok_iff.1 hc) rfl lower, worth⟩

/-- A placeholder is worth what its parameter is. -/
theorem Seats.amounts {id : FieldId} {f : Field} {v : Sample} (hf : w.grammar.field id = .ok f)
    (kind : f.kind = .param name) (introduced : s.Introduces id)
    (agree : ∀ p ∈ s.params, p.placeholder = id → p.key = k)
    (brings : w.Brings z name k h (x.inputs.get? k) (some v)) : w.forgetful.Amounts z h id v := by
  obtain ⟨_, ⟨_, rfl⟩ | ⟨b, r, hb, rfl, leads⟩, worth⟩ := brings
  · cases worth
  obtain ⟨amounts⟩ := worth
  have live := Arena.get_ok_iff.1 seats.live
  have placeholder := (Context.placeholder?_eq seats.placeholders agree).1 introduced
  refine Amounts.param (w := w.forgetful) seats.live hf kind ?_ amounts
  unfold Arena.resolve
  rw [Arena.declaring_step live, placeholder]
  show (liftM (z.get h) >>= fun c => _ : Except EvalError _) = _
  rw [seats.live]
  dsimp only [liftM, monadLift, MonadLift.monadLift, Except.mapError, bind, Except.bind]
  rw [hb]
  exact leads _ (Nat.lt_succ_self _)

end

/-- A context that stands has its symbol, whose conditions hold there, and has handed on what that
assigns. -/
theorem Stands.seats (stands : w.Stands z seed parent ref placement h) :
    ∃ s x, w.grammar.symbol ref = .ok s ∧ Seats z parent s h x ∧
      (∀ k, x.outputs.get? k = ((s.assigned? k).map .own).or (x.inputs.get? k)) ∧
      ∀ id ∈ s.conditions, (w.forgetful.sampleBool z h id).answer = .ok true := by
  obtain ⟨y, s, prepared, symbol, live, conditions⟩ := stands
  obtain ⟨seats, outputs⟩ := seats_of_prepare prepared symbol live (.inr rfl)
  refine ⟨s, _, symbol, seats, fun k => ?_, conditions⟩
  rw [Context.get?_assign, outputs]

/-- What a context that stands hands on is what its symbol assigns, or else what comes in. -/
theorem Stands.hands (stands : w.Stands z seed parent ref placement h) (ground : z.Grounded)
    (symbol : w.grammar.symbol ref = .ok s) {v d a : Option Sample} (hands : w.Hands z name k parent v)
    (default : Option.Rel (fun id v => w.forgetful.Amounts z h id v) (s.default? k) d)
    (assigned : Option.Rel (fun id v => w.forgetful.Amounts z h id v) (s.assigned? k) a) :
    w.Hands z name k (some h) (a.or (v.or d)) := by
  obtain ⟨s', x, hs, seats, outputs, _⟩ := stands.seats
  obtain rfl := Except.ok.inj (symbol.symm.trans hs)
  refine ⟨x, seats.live, ?_⟩
  rw [outputs]
  exact (brings_own assigned).or (seats.brings ground hands default)

end World

end VoxelGrammar
