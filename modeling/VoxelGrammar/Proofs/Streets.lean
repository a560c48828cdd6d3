import VoxelGrammar.Proofs.Blueprint
import VoxelGrammar.Proofs.Inheritance

/-!
How far streets go. A street has the depth that is handed on to it, and none at the plaza; a road hands
the depth of its street on, increased by one, and nothing else touches it. So a road leads to a street
one deeper, and a street of full depth stands nowhere.
-/

namespace VoxelGrammar.Settlement

variable {p : Provider} {z : Arena} {seed : Seed} {parent : Option Handle} {ref : SymbolRef}
  {placement : Transform} {s : Symbol} {h : Handle} {x : Context} {n : Nat}

abbrev world (p : Provider) : World Memory := .remembering grammar p

/-! ### Depths -/

def depthKey : ParamKey := ⟨"depth", .float⟩

def reach : Nat → Float32
  | 0 => 0
  | n + 1 => reach n + 1

theorem reach_lt_iff : ∀ n ≤ 4, reach n < streetDepth ↔ n ≤ 3 := by decide

/-- Below the parent, streets start after `n` roads: that is what is handed on, and nothing at the
plaza. -/
def After (p : Provider) (z : Arena) (parent : Option Handle) (n : Nat) : Prop :=
  ∃ v, (world p).Hands z "depth" depthKey parent v ∧ v.or (some (.float 0)) = some (.float (reach n))

theorem after_root : After p z none 0 := ⟨none, rfl, rfl⟩

theorem amounts_constant {id : FieldId} {v : Sample} (live : z.get h = .ok x)
    (known : (id, .constant v) ∈ kinds) : (world p).forgetful.Amounts z h id v := by
  obtain ⟨f, hf, kind⟩ := field_of_kinds known
  exact .constant live hf kind

theorem amounts_surface (live : z.get h = .ok x) :
    (world p).forgetful.Amounts z h 24 (.float 0) := amounts_constant live (by decide)

theorem default_of_params {id : FieldId} (params : s.params = [⟨"depth", .float, some 24, id⟩])
    (live : z.get h = .ok x) : Option.Rel (fun id v => (world p).forgetful.Amounts z h id v)
      (s.default? depthKey) (some (.float 0)) := by
  have default : s.default? depthKey = some 24 := by
    rw [Symbol.default?, params]
    rfl
  rw [default]
  exact .some (amounts_surface live)

section

variable (after : After p z parent n) (ground : z.Grounded) {id : FieldId}
  (params : s.params = [⟨"depth", .float, some 24, id⟩])

include after ground params

/-- Where a symbol declares the depth, its placeholder is worth what streets start with. -/
theorem After.amounts (seats : World.Seats z parent s h x)
    (known : (id, .param "depth") ∈ kinds) :
    (world p).forgetful.Amounts z h id (.float (reach n)) := by
  obtain ⟨v, hands, total⟩ := after
  obtain ⟨f, hf, kind⟩ := field_of_kinds known
  have brings := seats.brings ground hands (default_of_params params seats.live)
  rw [total] at brings
  refine seats.amounts hf kind ?_ ?_ brings <;> simp [Symbol.Introduces, params, Parameter.key, depthKey]

/-- It is also what the symbol passes on, unless it assigns something itself. -/
theorem After.hands (stands : (world p).Stands z seed parent ref placement h)
    (symbol : grammar.symbol ref = .ok s) {v : Option Sample}
    (assigned : Option.Rel (fun id v => (world p).forgetful.Amounts z h id v) (s.assigned? depthKey) v) :
    (world p).Hands z "depth" depthKey (some h) (v.or (some (.float (reach n)))) := by
  obtain ⟨_, x, _, seats, _⟩ := stands.seats
  obtain ⟨_, hands, total⟩ := after
  rw [← total]
  exact stands.hands ground symbol hands (default_of_params params seats.live) assigned

end

theorem amounts_shallow (live : z.get h = .ok x)
    (depth : (world p).forgetful.Amounts z h 25 (.float (reach n))) :
    (world p).forgetful.Amounts z h 27 (.bool (reach n < streetDepth)) := by
  obtain ⟨f, hf, kind⟩ : Succeeds (fun f : Field => f.kind = .compare .lt 25 26) (grammar.field 27) :=
    field_of_kinds (by decide)
  have deepest : (world p).forgetful.Amounts z h 26 (.float streetDepth) :=
    amounts_constant live (by decide)
  have worth := World.Worth.binary live hf (kind ▸ rfl) depth deepest
  rw [kind] at worth
  exact worth

theorem amounts_deeper (live : z.get h = .ok x)
    (depth : (world p).forgetful.Amounts z h 28 (.float (reach n))) :
    (world p).forgetful.Amounts z h 30 (.float (reach (n + 1))) := by
  obtain ⟨f, hf, kind⟩ : Succeeds (fun f : Field => f.kind = .arithmetic .add 28 29) (grammar.field 30) :=
    field_of_kinds (by decide)
  have one : (world p).forgetful.Amounts z h 29 (.float 1) := amounts_constant live (by decide)
  have worth := World.Worth.binary live hf (kind ▸ rfl) depth one
  rw [kind] at worth
  exact worth

/-! ### From context to context -/

/-- A symbol that neither declares nor assigns anything passes on what comes in. -/
theorem After.passes (after : After p z parent n) (ground : z.Grounded)
    (stands : (world p).Stands z seed parent ref placement h) (symbol : grammar.symbol ref = .ok s)
    (params : s.params = []) (assignments : s.assignments = []) : After p z (some h) n := by
  obtain ⟨v, hands, total⟩ := after
  have default : s.default? depthKey = none := by simp [Symbol.default?, params]
  have assigned : s.assigned? depthKey = none := by simp [Symbol.assigned?, assignments]
  have passed := stands.hands ground symbol hands (d := none) (a := none) (by rw [default]; exact .none)
    (by rw [assigned]; exact .none)
  rw [Option.none_or, Option.or_none] at passed
  exact ⟨v, passed, total⟩

/-- A street that stands is not of full depth, and passes its depth on. -/
theorem After.street (after : After p z parent n) (ground : z.Grounded)
    (stands : (world p).Stands z seed parent (.rule street) placement h) :
    reach n < streetDepth ∧ After p z (some h) n := by
  obtain ⟨s, x, symbol, seats, _, conditions⟩ := stands.seats
  obtain ⟨r, hr, only, params, assignments⟩ := tables.streetSymbol
  obtain rfl : r.symbol = s := Except.ok.inj ((Grammar.symbol_rule hr).symm.trans symbol)
  constructor
  · have worth := amounts_shallow seats.live (after.amounts ground params seats (by decide))
    have holds := conditions 27 (by simp [only])
    rw [World.Worth.sampleBool worth built.marked seats.live] at holds
    simpa [Sample.asBool] using Except.ok.inj holds
  · have assigned : r.symbol.assigned? depthKey = none := by simp [Symbol.assigned?, assignments]
    have passed := after.hands ground params stands symbol (v := none) (by rw [assigned]; exact .none)
    exact ⟨_, passed, rfl⟩

/-- A road leads one deeper. -/
theorem After.road (after : After p z parent n) (ground : z.Grounded)
    (stands : (world p).Stands z seed parent (.component road) placement h) :
    After p z (some h) (n + 1) := by
  obtain ⟨s, x, symbol, seats, _, _⟩ := stands.seats
  obtain ⟨c, hc, params, assignments⟩ := tables.roadSymbol
  obtain rfl : c.symbol = s := Except.ok.inj ((Grammar.symbol_component hc).symm.trans symbol)
  have worth := amounts_deeper seats.live (after.amounts ground params seats (by decide))
  have assigned : c.symbol.assigned? depthKey = some 30 := by
    rw [Symbol.assigned?, assignments]
    rfl
  have passed := after.hands ground params stands symbol (by rw [assigned]; exact .some worth)
  exact ⟨_, passed, rfl⟩

end VoxelGrammar.Settlement
