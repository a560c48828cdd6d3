import VoxelGrammar.Proofs.Handles
import VoxelGrammar.Proofs.WellFormed

/-!
The scope of parameters. Where every context hands on what it assigns before anything is entered below
it, a placeholder stands for what the contexts above the nearest one that declares it say: for the
nearest assignment among them, and where there is none for the outermost default. The chain of
bindings that a lookup follows from context to context leads to just that.
-/

namespace VoxelGrammar

/-- What a symbol assigns to a parameter: of several values that it assigns, the last. -/
def Symbol.assigned? (s : Symbol) (k : ParamKey) : Option FieldId :=
  s.assignments.reverse.findSome? fun a => if a.key = k then some a.value else none

def Symbol.Introduces (s : Symbol) (id : FieldId) : Prop := ∃ p ∈ s.params, p.placeholder = id

/-- What a parameter stands for that the first context of a path declares, the path leading from there
to the root: what the nearest context above assigns to it, or else the default of the outermost
context that declares one. -/
def supply (k : ParamKey) (path : List (Handle × Symbol)) : Option (Handle × FieldId) :=
  (path.tail.findSome? fun e => (e.2.assigned? k).map (e.1, ·)).or
    (path.reverse.findSome? fun e => (e.2.default? k).map (e.1, ·))

def handOn (k : ParamKey) (path : List (Handle × Symbol)) : Option (Handle × FieldId) :=
  (path.findSome? fun e => (e.2.assigned? k).map (e.1, ·)).or
    (path.reverse.findSome? fun e => (e.2.default? k).map (e.1, ·))

theorem supply_cons (k : ParamKey) (h : Handle) (s : Symbol) (path : List (Handle × Symbol)) :
    supply k ((h, s) :: path) = (handOn k path).or ((s.default? k).map (h, ·)) := by
  simp [supply, handOn, List.findSome?_append, Option.or_assoc]

theorem handOn_cons (k : ParamKey) (h : Handle) (s : Symbol) (path : List (Handle × Symbol)) :
    handOn k ((h, s) :: path) = ((s.assigned? k).map (h, ·)).or (supply k ((h, s) :: path)) := by
  simp only [supply, handOn, List.tail_cons, List.findSome?_cons]
  cases s.assigned? k <;> simp

namespace Bindings

theorem mem_keys {b : Bindings} {k : ParamKey} : k ∈ b.keys ↔ (b.get? k).isSome = true := by
  obtain ⟨entries⟩ := b
  simp only [keys, get?]
  induction entries with
  | nil => simp
  | cons e rest ih =>
      by_cases hk : k = e.1
      · simp [hk]
      · simp [hk, ih]

theorem lookup_same (keys : List ParamKey) (v : Binding) (k : ParamKey) :
    (keys.map fun k => (k, v)).lookup k = if k ∈ keys then some v else none := by
  induction keys with
  | nil => rfl
  | cons l rest ih =>
      by_cases hk : k = l
      · simp [hk]
      · simp [List.lookup_cons, hk, beq_eq_false_iff_ne.2 hk, ih]

end Bindings

namespace Context

/-- What a context hands on once it has been told to. -/
theorem get?_assign (c : Context) (s : Symbol) (k : ParamKey) :
    (c.assign s).outputs.get? k = ((s.assigned? k).map .own).or (c.outputs.get? k) := by
  rw [assign, Bindings.get?_setAll, ← List.map_reverse, Symbol.assigned?]
  congr 1
  induction s.assignments.reverse with
  | nil => rfl
  | cons a rest ih =>
      rw [List.map_cons, List.findSome?_cons]
      by_cases hk : a.key = k
      · simp [hk]
      · simpa [hk, List.lookup_cons, beq_eq_false_iff_ne.2 (Ne.symm hk)] using ih

/-- The inputs of a context lead to its parent where this hands something on. -/
theorem get?_inputsOf (s : Symbol) (parent : Option (Handle × Context)) (k : ParamKey) :
    (inputsOf s parent).get? k =
      (parent.bind fun p => (p.2.outputs.get? k).map fun _ => Binding.bridge p.1).or
        ((s.default? k).map .own) := by
  cases parent with
  | none => exact get?_defaults s k
  | some p =>
      rw [inputsOf, Bindings.get?_setAll, get?_defaults, Option.bind_some, ← List.map_reverse,
        Bindings.lookup_same]
      congr 1
      simp only [List.mem_reverse, Bindings.mem_keys]
      cases p.2.outputs.get? k <;> rfl

def placeholdersOf (s : Symbol) : List (FieldId × ParamKey) :=
  (s.params.map fun p => (p.placeholder, p.key)).reverse

/-- A placeholder stands for its parameter where it is declared, and for nothing elsewhere. -/
theorem placeholder?_eq {x : Context} {s : Symbol} {id : FieldId} {k : ParamKey}
    (placeholders : x.placeholders = placeholdersOf s)
    (agree : ∀ p ∈ s.params, p.placeholder = id → p.key = k) :
    (s.Introduces id → x.placeholder? id = some k) ∧
      (¬ s.Introduces id → x.placeholder? id = none) := by
  have found : ∀ v, x.placeholder? id = some v → s.Introduces id ∧ v = k := by
    intro v hv
    rw [placeholder?, placeholders] at hv
    obtain ⟨p, hp, heq⟩ := List.mem_map.1 (List.mem_reverse.1 (mem_of_lookup hv))
    cases heq
    exact ⟨⟨p, hp, rfl⟩, agree p hp rfl⟩
  refine ⟨?_, fun absent => ?_⟩
  · rintro ⟨p, hp, hid⟩
    have bound : (x.placeholder? id).isSome = true := by
      rw [placeholder?, placeholders, List.lookup_isSome_iff]
      exact ⟨_, List.mem_reverse.2 (List.mem_map_of_mem hp), beq_iff_eq.2 hid.symm⟩
    obtain ⟨v, hv⟩ := Option.isSome_iff_exists.1 bound
    rw [hv, (found v hv).2]
  · cases hv : x.placeholder? id with
    | none => rfl
    | some v => exact absurd (found v hv).1 absent

/-- What a context is entered with. All parameters of its symbol are bound. -/
theorem enter_ok {parent : Option (Handle × Context)} {ref : SymbolRef} {s : Symbol}
    {placement : Transform} {seed : Seed} {x : Context}
    (entered : enter parent ref s placement seed = .ok x) :
    x.symbol = ref ∧ x.parent = parent.map (·.1) ∧ x.placeholders = placeholdersOf s ∧
      x.inputs = inputsOf s parent ∧ x.outputs = x.inputs ∧
        ∀ p ∈ s.params, (x.inputs.get? p.key).isSome = true := by
  unfold enter at entered
  dsimp only at entered
  split at entered
  · cases entered
  · next bound =>
    cases entered
    refine ⟨rfl, rfl, rfl, rfl, rfl, fun p hp => ?_⟩
    have := List.find?_eq_none.1 bound p hp
    simpa [Option.isSome_iff_ne_none] using this

end Context

/-! ### Contexts that hand on before anything is entered below them -/

namespace Arena

variable {g : Grammar} {a b : Arena} {h : Handle} {x y : Context} {s : Symbol} {k : ParamKey}
  {ready : List Handle}

/-- The arenas in which symbols are only entered below contexts that have handed on what they assign,
together with the handles of these contexts. -/
inductive Staged (g : Grammar) : List Handle → Arena → Prop
  | empty : Staged g [] .empty
  | create {ready : List Handle} {a b : Arena} {parent : Option Handle} {ref : SymbolRef}
      {placement : Transform} {seed : Seed} {h : Handle} (staged : Staged g ready a)
      (above : ∀ p, parent = some p → p ∈ ready)
      (run : a.create g parent ref placement seed = .ok (h, b)) : Staged g ready b
  | assign {ready : List Handle} {a : Arena} {h : Handle} {x : Context} {s : Symbol}
      (staged : Staged g ready a) (live : a.get h = .ok x) (symbol : g.symbol x.symbol = .ok s) :
      Staged g (h :: ready) (a.assign h s)
  | truncate {ready : List Handle} {a : Arena} (staged : Staged g ready a) (n : Nat) :
      Staged g (ready.filter (a.truncate n).isLive) (a.truncate n)

def handed (a : Arena) (parent : Option Handle) (k : ParamKey) : Option Binding :=
  parent.bind fun p => (a.get? p).bind fun c => (c.outputs.get? k).map fun _ => .bridge p

theorem get_ok_iff : a.get h = .ok x ↔ a.get? h = some x := by
  rw [get]
  cases a.get? h <;> simp

/-! ### What is found -/

theorem get?_push (numbered : a.Numbered) (x : Context) :
    (a.push x).2.get? h = some y ↔ a.get? h = some y ∨ h = (a.push x).1 ∧ y = x := by
  rw [← get_ok_iff, ← get_ok_iff, ← mem_live_iff (numbered_push numbered x), ← mem_live_iff numbered,
    live_push numbered]
  simp

theorem get?_truncate (numbered : a.Numbered) (n : Nat) :
    (a.truncate n).get? h = some y ↔ a.get? h = some y ∧ h.slot < n := by
  rw [← get_ok_iff, ← get_ok_iff, get_eq_ok_iff (numbered_truncate numbered n),
    get_eq_ok_iff numbered, live_truncate, List.getElem?_take]
  split
  · next below => simp [below]
  · next beyond => simp [beyond]

/-- A live context is told to hand on what its symbol assigns, and no other changes. -/
theorem get?_assign (live : a.isLive h = true) (s : Symbol) (h' : Handle) :
    (a.assign h s).get? h' = (a.get? h').map fun c => if h' = h then c.assign s else c := by
  have same : (a.assign h s).isLive h' = a.isLive h' := by
    rw [assign, modify, if_pos live]
    simp only [isLive, Array.size_modify]
  rw [get?, get?, same]
  split
  · next live' =>
    rw [assign, modify, if_pos live, Array.getElem?_modify]
    by_cases hs : h.slot = h'.slot
    · obtain ⟨x, hx⟩ := get_of_isLive live
      obtain ⟨y, hy⟩ := get_of_isLive live'
      have heq : h' = h := eq_of_slot hx hy hs.symm
      subst heq
      simp
    · have hne : h' ≠ h := fun heq => hs (heq ▸ rfl)
      simp [hs, hne]
  · rfl

theorem isLive_of_get? (hx : a.get? h = some x) : a.isLive h = true := isLive_of_get (get_ok_iff.2 hx)

theorem slot_lt_of_get? (hx : a.get? h = some x) : h.slot < a.size := slot_lt_of_get (get_ok_iff.2 hx)

/-! ### What every context keeps to -/

/-- The context goes by the declarations of its symbol, and by what its parent hands on. -/
structure Tied (g : Grammar) (ready : List Handle) (a : Arena) (h : Handle) (x : Context)
    (s : Symbol) : Prop where
  symbol : g.symbol x.symbol = .ok s
  placeholders : x.placeholders = Context.placeholdersOf s
  bound : ∀ p ∈ s.params, (x.inputs.get? p.key).isSome = true
  above : ∀ p, x.parent = some p → p ∈ ready ∧ p.slot < h.slot
  inputs : ∀ k, x.inputs.get? k = (a.handed x.parent k).or ((s.default? k).map .own)
  outputs : ∀ k, x.outputs.get? k = x.inputs.get? k ∨
    x.outputs.get? k = ((s.assigned? k).map .own).or (x.inputs.get? k)
  handedOn : h ∈ ready → ∀ k, x.outputs.get? k = ((s.assigned? k).map .own).or (x.inputs.get? k)

structure Settled (g : Grammar) (ready : List Handle) (a : Arena) : Prop where
  numbered : a.Numbered
  live : ∀ h ∈ ready, ∃ x, a.get? h = some x
  contexts : ∀ h x, a.get? h = some x → ∃ s, a.Tied g ready h x s

/-- Children keep to their parents as long as these hand on the same. -/
theorem handed_congr {parent : Option Handle}
    (same : ∀ p, parent = some p → ∃ x y, a.get? p = some x ∧ b.get? p = some y ∧
      ∀ k, y.outputs.get? k = x.outputs.get? k) (k : ParamKey) :
    b.handed parent k = a.handed parent k := by
  cases parent with
  | none => rfl
  | some p =>
      obtain ⟨x, y, hx, hy, heq⟩ := same p rfl
      simp only [handed, Option.bind_some, hx, hy, heq]

namespace Settled

theorem empty : Settled g [] .empty where
  numbered := numbered_empty
  live _ hh := nomatch hh
  contexts _ _ hx := absurd (slot_lt_of_get? hx) (Nat.not_lt_zero _)

variable (settled : Settled g ready a)

include settled

theorem push {parent : Option Handle} {ref : SymbolRef} {placement : Transform} {seed : Seed}
    (above : ∀ p, parent = some p → p ∈ ready)
    (prepared : a.prepare g parent ref placement seed = .ok x) : Settled g ready (a.push x).2 := by
  have kept : ∀ {h y}, a.get? h = some y → (a.push x).2.get? h = some y :=
    fun hy => (get?_push settled.numbered x).2 (.inl hy)
  have same : ∀ parent : Option Handle, (∀ p, parent = some p → p ∈ ready) → ∀ k,
      (a.push x).2.handed parent k = a.handed parent k := by
    intro parent above
    refine handed_congr fun p hp => ?_
    obtain ⟨y, hy⟩ := settled.live p (above p hp)
    exact ⟨y, y, hy, kept hy, fun _ => rfl⟩
  refine ⟨numbered_push settled.numbered x, fun h hh => ?_, fun h y hy => ?_⟩
  · obtain ⟨y, hy⟩ := settled.live h hh
    exact ⟨y, kept hy⟩
  · rcases (get?_push settled.numbered x).1 hy with hy | ⟨rfl, rfl⟩
    · obtain ⟨s, hs⟩ := settled.contexts h y hy
      refine ⟨s, { hs with inputs := fun k => ?_ }⟩
      rw [same y.parent fun p hp => (hs.above p hp).1]
      exact hs.inputs k
    · obtain ⟨p, s, hp, symbol, entered⟩ := prepare_ok prepared
      obtain ⟨parentIs, found⟩ := parentContext_ok hp
      obtain ⟨ref', parent', placeholders, inputs, outputs, bound⟩ := Context.enter_ok entered
      have hparent : y.parent = parent := parent'.trans parentIs
      refine ⟨s, ref' ▸ symbol, placeholders, bound, fun q hq => ?_, fun k => ?_,
        fun k => .inl (by rw [outputs]), fun hready => ?_⟩
      · have hq' := above q (hparent ▸ hq)
        obtain ⟨z, hz⟩ := settled.live q hq'
        exact ⟨hq', slot_lt_of_get? hz⟩
      · rw [same y.parent fun q hq => above q (hparent ▸ hq), inputs, Context.get?_inputsOf, parent']
        congr 1
        cases p with
        | none => rfl
        | some e => simp [handed, get_ok_iff.1 (found e rfl)]
      · obtain ⟨z, hz⟩ := settled.live _ hready
        exact absurd (slot_lt_of_get? hz) (Nat.lt_irrefl _)

theorem assign (live : a.get? h = some x) (symbol : g.symbol x.symbol = .ok s) :
    Settled g (h :: ready) (a.assign h s) := by
  have found := get?_assign (isLive_of_get? live) s
  have same : ∀ parent : Option Handle, (∀ p, parent = some p → p ∈ ready) → ∀ k,
      (a.assign h s).handed parent k = a.handed parent k := by
    intro parent above
    refine handed_congr fun p hp => ?_
    obtain ⟨y, hy⟩ := settled.live p (above p hp)
    refine ⟨y, _, hy, by rw [found, hy]; rfl, fun k => ?_⟩
    split
    · next heq =>
      -- A context that has handed on before hands the same on again.
      subst heq
      cases live.symm.trans hy
      obtain ⟨t, ht⟩ := settled.contexts p x hy
      cases symbol.symm.trans ht.symbol
      rw [Context.get?_assign, ht.handedOn (above p hp), ← Option.or_assoc, Option.or_self]
    · rfl
  refine ⟨numbered_modify settled.numbered h _, fun h' hh' => ?_, fun h' y hy => ?_⟩
  · rcases List.mem_cons.1 hh' with rfl | hh'
    · exact ⟨_, by rw [found, live]; rfl⟩
    · obtain ⟨y, hy⟩ := settled.live h' hh'
      exact ⟨_, by rw [found, hy]; rfl⟩
  · rw [found] at hy
    obtain ⟨c, hc, rfl⟩ := Option.map_eq_some_iff.1 hy
    obtain ⟨t, ht⟩ := settled.contexts h' c hc
    have above : ∀ p, c.parent = some p → p ∈ h :: ready ∧ p.slot < h'.slot := fun p hp =>
      ⟨List.mem_cons_of_mem _ (ht.above p hp).1, (ht.above p hp).2⟩
    have inputs : ∀ k, c.inputs.get? k =
        ((a.assign h s).handed c.parent k).or ((t.default? k).map .own) := fun k => by
      rw [same c.parent fun p hp => (ht.above p hp).1]
      exact ht.inputs k
    split
    · next heq =>
      subst heq
      cases live.symm.trans hc
      cases symbol.symm.trans ht.symbol
      have handsOn : ∀ k, (x.assign s).outputs.get? k =
          ((s.assigned? k).map .own).or (x.inputs.get? k) := by
        intro k
        rw [Context.get?_assign]
        rcases ht.outputs k with h | h
        · rw [h]
        · rw [h, ← Option.or_assoc, Option.or_self]
      exact ⟨s, ht.symbol, ht.placeholders, ht.bound, above, inputs, fun k => .inr (handsOn k),
        fun _ => handsOn⟩
    · next hne =>
      exact ⟨t, ht.symbol, ht.placeholders, ht.bound, above, inputs, ht.outputs, fun hready =>
        ht.handedOn ((List.mem_cons.1 hready).resolve_left hne)⟩

theorem truncate (n : Nat) :
    Settled g (ready.filter (a.truncate n).isLive) (a.truncate n) := by
  have found {h : Handle} {y : Context} := get?_truncate (h := h) (y := y) settled.numbered n
  refine ⟨numbered_truncate settled.numbered n, fun h hh => ?_, fun h y hy => ?_⟩
  · obtain ⟨x, hx⟩ := get_of_isLive (List.mem_filter.1 hh).2
    exact ⟨x, get_ok_iff.1 hx⟩
  · obtain ⟨hy, below⟩ := found.1 hy
    obtain ⟨s, hs⟩ := settled.contexts h y hy
    -- The parent of a context that stays is in a lower slot, so it stays too.
    have stays : ∀ p, y.parent = some p → ∃ z, a.get? p = some z ∧ (a.truncate n).get? p = some z := by
      intro p hp
      obtain ⟨z, hz⟩ := settled.live p (hs.above p hp).1
      exact ⟨z, hz, found.2 ⟨hz, (hs.above p hp).2.trans below⟩⟩
    refine ⟨s, hs.symbol, hs.placeholders, hs.bound, fun p hp => ?_, fun k => ?_, hs.outputs,
      fun hready => hs.handedOn (List.mem_filter.1 hready).1⟩
    · obtain ⟨z, _, hz⟩ := stays p hp
      exact ⟨List.mem_filter.2 ⟨(hs.above p hp).1, isLive_of_get? hz⟩, (hs.above p hp).2⟩
    · rw [hs.inputs k, handed_congr (b := a.truncate n) fun p hp => ?_]
      obtain ⟨z, hz, hz'⟩ := stays p hp
      exact ⟨z, z, hz, hz', fun _ => rfl⟩

end Settled

theorem Settled.above (settled : Settled g ready a) (hx : a.get? h = some x) {p : Handle}
    (hp : x.parent = some p) : p ∈ ready ∧ p.slot < h.slot := by
  obtain ⟨_, tied⟩ := settled.contexts h x hx
  exact tied.above p hp

theorem Staged.settled (staged : Staged g ready a) : Settled g ready a := by
  induction staged with
  | empty => exact .empty
  | create _ above run ih =>
      obtain ⟨x, prepared, pushed⟩ := create_ok run
      cases pushed
      exact ih.push above prepared
  | assign _ live symbol ih => exact ih.assign (get_ok_iff.1 live) symbol
  | truncate _ n ih => exact ih.truncate n

/-! ### From a context up to the root -/

inductive Lineage (g : Grammar) (a : Arena) : Handle → List (Handle × Symbol) → Prop
  | root {h : Handle} {x : Context} {s : Symbol} (live : a.get? h = some x)
      (symbol : g.symbol x.symbol = .ok s) (top : x.parent = none) : Lineage g a h [(h, s)]
  | child {h p : Handle} {x : Context} {s : Symbol} {path : List (Handle × Symbol)}
      (live : a.get? h = some x) (symbol : g.symbol x.symbol = .ok s) (parent : x.parent = some p)
      (above : Lineage g a p path) : Lineage g a h ((h, s) :: path)

variable {path : List (Handle × Symbol)}

theorem Settled.lineage (settled : Settled g ready a) (hx : a.get? h = some x) :
    ∃ path, Lineage g a h path := by
  induction hslot : h.slot using Nat.strongRecOn generalizing h x with
  | ind slot ih =>
      obtain ⟨s, hs⟩ := settled.contexts h x hx
      cases hp : x.parent with
      | none => exact ⟨_, .root hx hs.symbol hp⟩
      | some p =>
          obtain ⟨hready, lower⟩ := hs.above p hp
          obtain ⟨y, hy⟩ := settled.live p hready
          obtain ⟨path, above⟩ := ih p.slot (hslot ▸ lower) hy rfl
          exact ⟨_, .child hx hs.symbol hp above⟩

theorem Lineage.starts (lineage : Lineage g a h path) : ∃ x s rest, a.get? h = some x ∧
    g.symbol x.symbol = .ok s ∧ path = (h, s) :: rest := by
  cases lineage with
  | root live symbol _ => exact ⟨_, _, _, live, symbol, rfl⟩
  | child live symbol _ _ => exact ⟨_, _, _, live, symbol, rfl⟩

/-- Every context of a lineage has the rest of it as its own. -/
theorem Lineage.suffix {inner outer : List (Handle × Symbol)} {o : Handle × Symbol}
    (lineage : Lineage g a h path) (split : path = inner ++ o :: outer) :
    Lineage g a o.1 (o :: outer) := by
  induction inner generalizing h path with
  | nil =>
      subst split
      cases lineage with
      | root live symbol top => exact .root live symbol top
      | child live symbol parent above => exact .child live symbol parent above
  | cons e inner ih =>
      cases lineage with
      | root _ _ _ =>
          obtain ⟨_, hnil⟩ := List.cons.inj split
          exact absurd hnil.symm (by simp)
      | child _ _ _ above => exact ih above (List.cons.inj split).2

/-! ### Lookups -/

def Supplies (a : Arena) (name : String) (k : ParamKey) (h : Handle) (binding : Option Binding)
    (value : Option (Handle × FieldId)) : Prop :=
  (binding = none ∧ value = none) ∨ ∃ b r, binding = some b ∧ value = some r ∧
    ∀ n, h.slot < n → a.follow name k n h b = .ok r

theorem follow_own (a : Arena) (name : String) (k : ParamKey) (n : Nat) (h : Handle) (id : FieldId) :
    a.follow name k n h (.own id) = .ok (h, id) := by
  cases n <;> rfl

theorem supplies_own (a : Arena) (name : String) (k : ParamKey) (h : Handle) (id : Option FieldId) :
    a.Supplies name k h (id.map .own) (id.map (h, ·)) := by
  cases id with
  | none => exact .inl ⟨rfl, rfl⟩
  | some id => exact .inr ⟨_, _, rfl, rfl, fun n _ => follow_own a name k n h id⟩

theorem Supplies.or {name : String} {b b' : Option Binding} {r r' : Option (Handle × FieldId)}
    (first : a.Supplies name k h b r) (second : a.Supplies name k h b' r') :
    a.Supplies name k h (b.or b') (r.or r') := by
  rcases first with ⟨rfl, rfl⟩ | ⟨v, w, rfl, rfl, leads⟩
  · exact second
  · exact .inr ⟨v, w, rfl, rfl, leads⟩

theorem follow_bridge {name : String} {p : Handle} {b : Binding} (hy : a.get? p = some y)
    (outputs : y.outputs.get? k = some b) (n : Nat) :
    a.follow name k (n + 1) h (.bridge p) = a.follow name k n p b := by
  have found : (liftM (a.get p) : Except EvalError Context) = .ok y := lift_ok.2 (get_ok_iff.2 hy)
  rw [follow, found]
  simp only [bind, Except.bind, outputs]

/-- A bridge leads wherever the binding on its far side does. -/
theorem Supplies.bridge {name : String} {p : Handle} {b : Option Binding}
    {r : Option (Handle × FieldId)} (hy : a.get? p = some y) (outputs : y.outputs.get? k = b)
    (supplies : a.Supplies name k p b r) (lower : p.slot < h.slot) :
    a.Supplies name k h (b.map fun _ => .bridge p) r := by
  rcases supplies with ⟨rfl, rfl⟩ | ⟨v, w, rfl, rfl, leads⟩
  · exact .inl ⟨rfl, rfl⟩
  · refine .inr ⟨_, w, rfl, rfl, fun n hn => ?_⟩
    obtain ⟨n, rfl⟩ : ∃ m, n = m + 1 := ⟨n - 1, by omega⟩
    rw [follow_bridge hy outputs]
    exact leads n (by omega)

/-- What a context is bound to leads where the scope of the parameter says. -/
theorem Settled.supplies (settled : Settled g ready a) (lineage : Lineage g a h path)
    (hx : a.get? h = some x) (name : String) (k : ParamKey) :
    a.Supplies name k h (x.inputs.get? k) (supply k path) := by
  induction lineage generalizing x with
  | @root h c s live symbol top =>
      cases live.symm.trans hx
      obtain ⟨t, ht⟩ := settled.contexts h c hx
      cases symbol.symm.trans ht.symbol
      rw [ht.inputs, top, supply_cons]
      exact supplies_own a name k h (s.default? k)
  | @child h p c s path live symbol parent above ih =>
      cases live.symm.trans hx
      obtain ⟨t, ht⟩ := settled.contexts h c hx
      cases symbol.symm.trans ht.symbol
      obtain ⟨hready, lower⟩ := ht.above p parent
      obtain ⟨y, u, rest, hy, hu, rfl⟩ := above.starts
      obtain ⟨v, hv⟩ := settled.contexts p y hy
      cases hu.symm.trans hv.symbol
      have outputs : a.Supplies name k p (y.outputs.get? k) (handOn k ((p, u) :: rest)) := by
        rw [hv.handedOn hready, handOn_cons]
        exact (supplies_own a name k p (u.assigned? k)).or (ih hy)
      have bridged := outputs.bridge hy rfl lower
      rw [ht.inputs, supply_cons]
      refine .or ?_ (supplies_own a name k h (s.default? k))
      simpa [handed, parent, hy] using bridged

/-! ### Placeholders -/

theorem declaring_step (hx : a.get? h = some x) (name : String) (id : FieldId) (n : Nat) :
    a.declaring name id (n + 1) h = match x.placeholder? id, x.parent with
      | some key, _ => .ok (h, key)
      | none, some p => a.declaring name id n p
      | none, none => .error (.grammar (.unboundParam name)) := by
  have found : (liftM (a.get h) : Except EvalError Context) = .ok x := lift_ok.2 (get_ok_iff.2 hx)
  rw [declaring, found]
  rfl

section Declaring

variable {id : FieldId} {inner outer : List (Handle × Symbol)} {o : Handle × Symbol}
  (settled : Settled g ready a)
  (agree : ∀ ref s, g.symbol ref = .ok s → ∀ p ∈ s.params, p.placeholder = id → p.key = k)

include settled agree

theorem Settled.placeholder (hx : a.get? h = some x) (symbol : g.symbol x.symbol = .ok s) :
    (s.Introduces id → x.placeholder? id = some k) ∧
      (¬ s.Introduces id → x.placeholder? id = none) := by
  obtain ⟨t, ht⟩ := settled.contexts h x hx
  cases symbol.symm.trans ht.symbol
  exact Context.placeholder?_eq ht.placeholders (agree x.symbol s symbol)

/-- The walk up the lineage stops at the first context that declares the placeholder. -/
theorem Settled.declaring_first (lineage : Lineage g a h (inner ++ o :: outer))
    (skipped : ∀ e ∈ inner, ¬ e.2.Introduces id) (introduced : o.2.Introduces id) (name : String)
    {n : Nat} (hn : h.slot < n) : a.declaring name id n h = .ok (o.1, k) := by
  induction inner generalizing h n with
  | nil =>
      obtain ⟨n, rfl⟩ : ∃ m, n = m + 1 := ⟨n - 1, by omega⟩
      obtain ⟨x, s, rest, hx, hs, heq⟩ := lineage.starts
      cases heq
      rw [declaring_step hx, (settled.placeholder agree hx hs).1 introduced]
  | cons e inner ih =>
      obtain ⟨n, rfl⟩ : ∃ m, n = m + 1 := ⟨n - 1, by omega⟩
      rw [List.cons_append] at lineage
      generalize hrest : inner ++ o :: outer = rest at lineage
      cases lineage with
      | root => exact absurd hrest (by simp)
      | child live symbol parent above =>
          subst hrest
          have lower := (settled.above live parent).2
          rw [declaring_step live,
            (settled.placeholder agree live symbol).2 (skipped _ List.mem_cons_self), parent]
          exact ih above (fun e he => skipped e (List.mem_cons_of_mem _ he)) (by omega)

theorem Settled.declaring_none (lineage : Lineage g a h path)
    (skipped : ∀ e ∈ path, ¬ e.2.Introduces id) (name : String) {n : Nat} (hn : h.slot < n) :
    a.declaring name id n h = .error (.grammar (.unboundParam name)) := by
  induction lineage generalizing n with
  | root live symbol top =>
      obtain ⟨n, rfl⟩ : ∃ m, n = m + 1 := ⟨n - 1, by omega⟩
      rw [declaring_step live,
        (settled.placeholder agree live symbol).2 (skipped _ List.mem_cons_self), top]
  | @child h p x s path live symbol parent above ih =>
      obtain ⟨n, rfl⟩ : ∃ m, n = m + 1 := ⟨n - 1, by omega⟩
      rw [declaring_step live,
        (settled.placeholder agree live symbol).2 (skipped _ List.mem_cons_self), parent]
      have lower := (settled.above live parent).2
      exact ih (fun e he => skipped e (List.mem_cons_of_mem _ he)) (by omega)

/-- A lookup comes to what the scope of the parameter supplies. -/
theorem Settled.resolve_first (lineage : Lineage g a h (inner ++ o :: outer))
    (skipped : ∀ e ∈ inner, ¬ e.2.Introduces id) (introduced : o.2.Introduces id) (name : String) :
    ∃ r, supply k (o :: outer) = some r ∧ a.resolve name id h = .ok r := by
  have above := lineage.suffix rfl
  obtain ⟨x, s, rest, hx, symbol, heq⟩ := above.starts
  obtain ⟨h', s'⟩ := o
  cases heq
  obtain ⟨t, tied⟩ := settled.contexts h' x hx
  cases symbol.symm.trans tied.symbol
  -- A declared parameter is bound, or the context could not have been entered.
  obtain ⟨p, hp, hid⟩ := introduced
  have bound := tied.bound p hp
  rw [agree x.symbol s symbol p hp hid] at bound
  rcases settled.supplies above hx name k with ⟨unbound, _⟩ | ⟨b, r, hb, hr, leads⟩
  · rw [unbound] at bound
    cases bound
  · refine ⟨r, hr, ?_⟩
    have declared := settled.declaring_first agree lineage skipped ⟨p, hp, hid⟩ name
      (Nat.lt_succ_self _)
    have found : (liftM (a.get h') : Except EvalError Context) = .ok x := lift_ok.2 (get_ok_iff.2 hx)
    rw [resolve, declared]
    simp only [bind, Except.bind, found, hb]
    exact leads _ (Nat.lt_succ_self _)

theorem Settled.resolve_none (lineage : Lineage g a h path)
    (skipped : ∀ e ∈ path, ¬ e.2.Introduces id) (name : String) :
    a.resolve name id h = .error (.grammar (.unboundParam name)) := by
  rw [resolve, settled.declaring_none agree lineage skipped name (Nat.lt_succ_self _)]
  rfl

end Declaring

/-! ### Entering -/

/-- A symbol cannot be entered for the first of its parameters that has no default and gets nothing from
the parent, and for no other reason. -/
theorem create_error_iff {parent : Option Handle} {ref : SymbolRef}
    (above : ∀ p, parent = some p → a.isLive p = true) (symbol : g.symbol ref = .ok s)
    (placement : Transform) (seed : Seed) (e : EvalError) :
    a.create g parent ref placement seed = .error e ↔
      ∃ p, s.params.find? (fun p => (s.default? p.key).isNone && (a.handed parent p.key).isNone) =
        some p ∧ e = .grammar (.missingParamValue p.name) := by
  obtain ⟨above', hparent, handed⟩ : ∃ above' : Option (Handle × Context),
      a.parentContext parent = .ok above' ∧ ∀ k, a.handed parent k =
        above'.bind fun p => (p.2.outputs.get? k).map fun _ => Binding.bridge p.1 := by
    cases parent with
    | none => exact ⟨none, rfl, fun _ => rfl⟩
    | some p =>
        obtain ⟨x, hx⟩ := get_of_isLive (above p rfl)
        refine ⟨some (p, x), by rw [parentContext, hx]; rfl, fun k => ?_⟩
        simp [Arena.handed, get_ok_iff.1 hx]
  have missing : Context.missing? s (Context.inputsOf s above') =
      s.params.find? fun p => (s.default? p.key).isNone && (a.handed parent p.key).isNone := by
    unfold Context.missing?
    congr 1
    funext p
    rw [Context.get?_inputsOf, ← handed, Option.isNone_or, Option.isNone_map, Bool.and_comm]
  have entering : a.prepare g parent ref placement seed =
      (Context.enter above' ref s placement seed).mapError .grammar := by
    rw [prepare, hparent, symbol]
    rfl
  rw [create, entering, ← missing]
  unfold Context.enter
  dsimp only
  cases Context.missing? s (Context.inputsOf s above') with
  | none => simp [Except.map, Except.mapError]
  | some p => simp [Except.map, Except.mapError, eq_comm]

/-! ### The scope of parameters -/

/-- Parameters are scoped. A placeholder is found where the context or one above it declares its parameter,
and then stands for what the scope of the parameter supplies from the nearest such context on; and a
symbol is refused only for the first parameter that would have no value. -/
theorem parameters_are_scoped {own : Prop} (built : g.Built own) (staged : Staged g ready a) :
    (∀ h, a.isLive h = true → ∃ path, Lineage g a h path ∧
      ∀ id f name, g.field id = .ok f → f.kind = .param name →
        ((∃ r, a.resolve name id h = .ok r) ↔ ∃ e ∈ path, e.2.Introduces id) ∧
        ∀ inner o outer, path = inner ++ o :: outer → (∀ e ∈ inner, ¬ e.2.Introduces id) →
          o.2.Introduces id → ∃ r, supply ⟨name, f.type⟩ (o :: outer) = some r ∧
            a.resolve name id h = .ok r) ∧
    ∀ parent ref s placement seed e, (∀ p, parent = some p → a.isLive p = true) →
      g.symbol ref = .ok s → (a.create g parent ref placement seed = .error e ↔
        ∃ p, s.params.find? (fun p => (s.default? p.key).isNone && (a.handed parent p.key).isNone) =
          some p ∧ e = .grammar (.missingParamValue p.name)) := by
  have settled := staged.settled
  refine ⟨fun h live => ?_, fun parent ref s placement seed e above symbol =>
    create_error_iff above symbol placement seed e⟩
  obtain ⟨x, hx⟩ := get_of_isLive live
  obtain ⟨path, lineage⟩ := settled.lineage (get_ok_iff.1 hx)
  refine ⟨path, lineage, fun id f name hf hkind => ?_⟩
  have agree : ∀ ref s, g.symbol ref = .ok s → ∀ p ∈ s.params, p.placeholder = id →
      p.key = ⟨name, f.type⟩ := by
    intro ref s hs p hp hid
    obtain ⟨f', hf', htype, hkind'⟩ := (built.symbol_typed hs).placeholders p hp
    cases (Fault.lookup_eq_ok_iff.1 hf).symm.trans (hid ▸ hf')
    cases hkind.symm.trans hkind'
    rw [Parameter.key, htype]
  have supplied : ∀ inner o outer, path = inner ++ o :: outer →
      (∀ e ∈ inner, ¬ e.2.Introduces id) → o.2.Introduces id →
        ∃ r, supply ⟨name, f.type⟩ (o :: outer) = some r ∧ a.resolve name id h = .ok r := by
    rintro inner o outer rfl skipped introduced
    exact settled.resolve_first agree lineage skipped introduced name
  refine ⟨⟨fun ⟨r, hr⟩ => ?_, fun declared => ?_⟩, supplied⟩
  · by_contra! skipped
    rw [settled.resolve_none agree lineage skipped name] at hr
    cases hr
  · classical
    -- The first context on the way up that declares the placeholder.
    obtain ⟨o, ho⟩ : ∃ o, path.find? (fun e => decide (e.2.Introduces id)) = some o := by
      rw [← Option.isSome_iff_exists, List.find?_isSome]
      obtain ⟨e, he, introduced⟩ := declared
      exact ⟨e, he, decide_eq_true introduced⟩
    obtain ⟨introduced, inner, outer, split, skipped⟩ := List.find?_eq_some_iff_append.1 ho
    obtain ⟨r, _, hr⟩ := supplied inner o outer split
      (fun e he => by simpa using skipped e he) (of_decide_eq_true introduced)
    exact ⟨r, hr⟩

/-- A tower is lit, and the rooms in it are what the tower is, though dark by themselves. -/
def tower : Draft :=
  .ofStatements
    [.rule "tower", .rule "room", .constant (.bool true), .constant (.bool false),
      .assign (.rule 0) "lit" 0, .param (.rule 1) "lit" .bool (some 1), .toRule 0 1, .toNothing 1]

theorem built_tower : tower.compile.Built True :=
  Draft.built_ofStatements (by decide +kernel) (by decide +kernel)

def towering : Except EvalError (Handle × Arena) := do
  let (h, a) ← Arena.empty.create tower.compile none (.rule 0) .identity 7
  let s ← tower.compile.symbol (.rule 0)
  (a.assign h s).create tower.compile (some h) (.rule 1) .identity 7

theorem parameters_are_scoped_tower :
    ∃ h a, towering = .ok (h, a) ∧ tower.compile.Built True ∧ a.isLive h = true ∧
      (∃ ready, Staged tower.compile ready a) ∧ a.resolve "lit" 2 h = .ok (⟨0, 0⟩, 0) ∧
      ∃ path, Lineage tower.compile a h path ∧ ∃ e ∈ path, e.2.Introduces 2 := by
  have lookup : (towering.bind fun (h, a) => a.resolve "lit" 2 h) = .ok (⟨0, 0⟩, 0) := by
    decide +kernel
  have alive : (towering.map fun (h, a) => a.isLive h) = .ok true := by decide +kernel
  have declared : (tower.compile.symbol (.rule 1)).map
      (fun s => s.params.map fun p => (p.placeholder, p.name)) = .ok [(2, "lit")] := by decide +kernel
  obtain ⟨f, hf, hkind⟩ : ∃ f, tower.compile.field 2 = .ok f ∧ f.kind = .param "lit" := by
    cases hs : tower.compile.symbol (.rule 1) with
    | error e =>
        rw [hs] at declared
        cases declared
    | ok s =>
        rw [hs] at declared
        obtain ⟨p, hp, heq⟩ := List.map_eq_singleton_iff.1 (Except.ok.inj declared)
        obtain ⟨hid, hname⟩ := Prod.mk.inj heq
        obtain ⟨f, hf, _, hkind⟩ := (built_tower.symbol_typed hs).placeholders p
          (hp ▸ List.mem_singleton_self p)
        exact ⟨f, Fault.lookup_eq_ok_iff.2 (hid ▸ hf), hname ▸ hkind⟩
  rcases run : towering with e | ⟨h, a⟩
  · rw [run] at alive
    cases alive
  rw [run] at lookup alive
  have live : a.isLive h = true := Except.ok.inj alive
  have staged : ∃ ready, Staged tower.compile ready a := by
    unfold towering at run
    obtain ⟨⟨h₀, a₀⟩, created, run⟩ := bind_ok_iff.1 run
    obtain ⟨s, symbol, run⟩ := bind_ok_iff.1 run
    obtain ⟨x, prepared, pushed⟩ := create_ok created
    cases pushed
    have found := get_push numbered_empty x
    have staged : Staged tower.compile [(empty.push x).1]
        ((empty.push x).2.assign (empty.push x).1 s) :=
      .assign (.create .empty (fun _ hp => by cases hp) created) found
        (symbol_of_prepare prepared ▸ lift_ok.1 symbol)
    exact ⟨_, .create staged (fun p hp => by cases hp; exact List.mem_cons_self) run⟩
  obtain ⟨ready, staged⟩ := staged
  obtain ⟨path, lineage, lookups⟩ := (parameters_are_scoped built_tower staged).1 h live
  exact ⟨h, a, rfl, built_tower, live, ⟨ready, staged⟩, lookup, path, lineage,
    (lookups 2 f "lit" hf hkind).1.1 ⟨_, lookup⟩⟩

end Arena

end VoxelGrammar
