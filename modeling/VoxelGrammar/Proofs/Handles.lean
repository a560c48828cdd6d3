import VoxelGrammar.Proofs.Growth

/-!
Handles tell contexts apart. The slot of a dropped context is used again, so a handle that was given
out earlier may lead to an empty slot, or to one that has been filled again any number of times. What
has been made and what of it still stands can be told without slots, by a ledger of the operations on
an arena, and as long as no slot runs out of generations the live handles are those of the contexts
that stand.
-/

namespace VoxelGrammar.Arena

inductive Operation
  | create (g : Grammar) (parent : Option Handle) (ref : SymbolRef) (placement : Transform)
    (seed : Seed)
  /-- Hands on the assignments of the symbol of a context. -/
  | assign (g : Grammar) (h : Handle)
  | truncate (n : Nat)
  | clear

inductive Outcome
  | entered (h : Handle)
  | refused (e : GrammarError)
  | done

def perform (a : Arena) : Operation → Except Fault (Outcome × Arena)
  | .create g parent ref placement seed =>
    match a.create g parent ref placement seed with
    | .ok (h, b) => .ok (.entered h, b)
    | .error (.grammar e) => .ok (.refused e, a)
    | .error (.fault f) => .error f
  | .assign g h => do
    let c ← a.get h
    let s ← g.symbol c.symbol
    return (.done, a.assign h s)
  | .truncate n => .ok (.done, a.truncate n)
  | .clear => .ok (.done, a.clear)

/-! ### The ledger -/

structure Creation where
  handle : Handle
  context : Option Context

/-- What has become of an arena, slots and generations aside. -/
structure Ledger where
  /-- All that has been made, the earliest first. -/
  made : List Creation
  /-- What of it has not been dropped. -/
  standing : List Creation

namespace Ledger

def empty : Ledger := ⟨[], []⟩

/-- Rolling back to `n` contexts drops all that were made after the first `n`. -/
def note (l : Ledger) (b : Arena) : Operation → Outcome → Ledger
  | .create .., .entered h =>
    ⟨l.made ++ [⟨h, b.get? h⟩], l.standing ++ [⟨h, b.get? h⟩]⟩
  | .truncate n, _ => { l with standing := l.standing.take n }
  | .clear, _ => { l with standing := [] }
  | _, _ => l

def inSlot (l : Ledger) (slot : Nat) : List Creation := l.made.filter (·.handle.slot == slot)

end Ledger

/-- The ledger of some operations on an empty arena, and the arena that they lead to. -/
def history (operations : List Operation) : Except Fault (Ledger × Arena) :=
  operations.foldlM (fun s operation => do
    let (outcome, b) ← s.2.perform operation
    return (s.1.note b operation outcome, b)) (.empty, .empty)

/-! ### What one operation does -/

variable {a b : Arena} {l l' : Ledger} {operation : Operation} {outcome : Outcome} {h : Handle}

inductive Performs (l : Ledger) (a : Arena) : Ledger → Arena → Prop
  | enter {g : Grammar} {parent : Option Handle} {ref : SymbolRef} {placement : Transform}
      {seed : Seed} {x : Context} (prepared : a.prepare g parent ref placement seed = .ok x) :
      Performs l a ⟨l.made ++ [⟨(a.push x).1, (a.push x).2.get? (a.push x).1⟩],
        l.standing ++ [⟨(a.push x).1, (a.push x).2.get? (a.push x).1⟩]⟩ (a.push x).2
  | refuse : Performs l a l a
  | assign {h : Handle} (live : a.isLive h = true) (s : Symbol) : Performs l a l (a.assign h s)
  | truncate (n : Nat) : Performs l a { l with standing := l.standing.take n } (a.truncate n)

theorem performs_of_perform (run : a.perform operation = .ok (outcome, b)) :
    Performs l a (l.note b operation outcome) b := by
  cases operation with
  | create g parent ref placement seed =>
      simp only [perform] at run
      split at run
      · next created =>
        cases run
        obtain ⟨x, prepared, pushed⟩ := create_ok created
        cases pushed
        exact .enter prepared
      · cases run
        exact .refuse
      · cases run
  | assign g h =>
      obtain ⟨c, hc, run⟩ := bind_ok_iff.1 run
      obtain ⟨s, _, run⟩ := bind_ok_iff.1 run
      cases run
      exact .assign (isLive_of_get hc) s
  | truncate n =>
      cases run
      exact .truncate n
  | clear =>
      cases run
      exact .truncate 0

/-- What holds of an empty arena and stays so whatever is done holds in the end. -/
theorem history_induction {P : Ledger → Arena → Prop} (empty : P .empty .empty)
    (step : ∀ {l a l' b}, P l a → Performs l a l' b → P l' b) {operations : List Operation}
    (run : history operations = .ok (l, a)) : P l a := by
  induction operations using List.reverseRecOn generalizing l a with
  | nil =>
      cases run
      exact empty
  | append_singleton operations operation ih =>
      rw [history, List.foldlM_append] at run
      obtain ⟨⟨l', a'⟩, before, last⟩ := bind_ok_iff.1 run
      rw [List.foldlM_cons] at last
      obtain ⟨_, done, ends⟩ := bind_ok_iff.1 last
      obtain ⟨⟨outcome, b⟩, performed, noted⟩ := bind_ok_iff.1 done
      cases noted
      cases ends
      exact step (ih before) (performs_of_perform performed)

/-! ### What every history keeps -/

def generationsOf (n : Nat) : List UInt32 := (List.range n).map UInt32.ofNat

/-- The context is what the creation made, but for what it hands on. -/
def Stands (e : Handle × Context) (m : Creation) : Prop :=
  m.handle = e.1 ∧ ∃ x outputs, m.context = some x ∧ e.2 = { x with outputs }

def Rooted (a : Arena) : Prop :=
  ∀ e ∈ a.live, ∀ p, e.2.parent = some p → p.slot < e.1.slot ∧ Lives a.live p

structure Traced (l : Ledger) (a : Arena) : Prop where
  numbered : a.Numbered
  rooted : a.Rooted
  /-- The contexts that stand are the live ones. -/
  live : List.Forall₂ Stands a.live l.standing
  standing : l.standing ⊆ l.made
  /-- A slot has given its generations out in their order, and the arena knows the last one. -/
  generations : ∀ slot, (l.inSlot slot).map (·.handle.generation) =
      generationsOf (l.inSlot slot).length ∧
    a.generations[slot]? = ((l.inSlot slot).map (·.handle.generation)).getLast?

theorem generationsOf_succ (n : Nat) : generationsOf (n + 1) = generationsOf n ++ [UInt32.ofNat n] := by
  simp [generationsOf, List.range_succ]

/-- Generations repeat only after all of them have been given out. -/
theorem generationsOf_nodup {n : Nat} (h : n ≤ 2 ^ 32) : (generationsOf n).Nodup := by
  refine List.Nodup.map_on (fun i hi j hj heq => ?_) List.nodup_range
  have hi : i < 2 ^ 32 := (List.mem_range.1 hi).trans_le h
  have hj : j < 2 ^ 32 := (List.mem_range.1 hj).trans_le h
  have same : (UInt32.ofNat i).toNat = (UInt32.ofNat j).toNat := congrArg UInt32.toNat heq
  rwa [UInt32.toNat_ofNat_of_lt' hi, UInt32.toNat_ofNat_of_lt' hj] at same

theorem parentContext_ok {parent : Option Handle} {p : Option (Handle × Context)}
    (hp : a.parentContext parent = .ok p) :
    p.map (·.1) = parent ∧ ∀ e, p = some e → a.get e.1 = .ok e.2 := by
  cases parent with
  | none =>
      cases hp
      refine ⟨rfl, fun e he => ?_⟩
      cases he
  | some h =>
      obtain ⟨c, hc, hp⟩ := bind_ok_iff.1 hp
      cases hp
      refine ⟨rfl, fun e he => ?_⟩
      cases he
      exact hc

/-- A new context has the parent it is entered below, which is live. -/
theorem parent_of_prepare {g : Grammar} {parent : Option Handle} {ref : SymbolRef}
    {placement : Transform} {seed : Seed} {x : Context}
    (prepared : a.prepare g parent ref placement seed = .ok x) :
    x.parent = parent ∧ ∀ p, x.parent = some p → ∃ c, a.get p = .ok c := by
  obtain ⟨p, s, hp, _, entered⟩ := prepare_ok prepared
  obtain ⟨same, live⟩ := parentContext_ok hp
  have parent : x.parent = p.map (·.1) := by
    unfold Context.enter at entered
    dsimp only at entered
    split at entered
    · cases entered
    · cases entered
      rfl
  refine ⟨parent.trans same, fun q hq => ?_⟩
  rw [parent] at hq
  obtain ⟨e, he, rfl⟩ := Option.map_eq_some_iff.1 hq
  exact ⟨e.2, live e he⟩

namespace Rooted

variable (rooted : a.Rooted) (numbered : a.Numbered)

include rooted numbered

theorem push {g : Grammar} {parent : Option Handle} {ref : SymbolRef} {placement : Transform}
    {seed : Seed} {x : Context} (prepared : a.prepare g parent ref placement seed = .ok x) :
    (a.push x).2.Rooted := by
  have kept := subset_push numbered x
  intro e he p hp
  rcases (mem_live_push numbered).1 he with he | rfl
  · obtain ⟨lower, lives⟩ := rooted e he p hp
    exact ⟨lower, lives.mono kept⟩
  · obtain ⟨c, hc⟩ := (parent_of_prepare prepared).2 p hp
    exact ⟨slot_lt_of_get hc, c, kept ((mem_live_iff numbered).2 hc)⟩

omit numbered in
theorem assign (live : a.isLive h = true) (s : Symbol) : (a.assign h s).Rooted := by
  intro e he p hp
  obtain ⟨c, hc, same⟩ := mem_live_modify he
  have parent : c.parent = some p := by
    rw [← hp]
    rcases same with same | ⟨_, same⟩ <;> rw [same]
    rfl
  obtain ⟨lower, lives⟩ := rooted _ hc p parent
  exact ⟨lower, lives_assign live lives⟩

/-- A context that stays has its parent in a lower slot, so the parent stays as well. -/
theorem truncate (n : Nat) : (a.truncate n).Rooted := by
  intro e he p hp
  obtain ⟨lower, lives⟩ := rooted e (mem_of_mem_truncate he) p hp
  exact ⟨lower, lives_truncate numbered (Nat.lt_trans lower (slot_lt_of_mem_truncate he)) lives⟩

end Rooted

/-- What is related to an element stays so if the element is changed in a harmless way. -/
theorem forall₂_modify {α β : Type} {r : α → β → Prop} {f : α → α} {xs : List α} {ys : List β}
    (h : List.Forall₂ r xs ys) (hf : ∀ x y, r x y → r (f x) y) (i : Nat) :
    List.Forall₂ r (xs.modify i f) ys := by
  induction h generalizing i with
  | nil => cases i <;> exact .nil
  | cons hxy hrest ih =>
      cases i with
      | zero => exact .cons (hf _ _ hxy) hrest
      | succ i => exact .cons hxy (ih i)

/-- In related lists every element has a partner. -/
theorem forall₂_partners {α β : Type} {r : α → β → Prop} {xs : List α} {ys : List β}
    (h : List.Forall₂ r xs ys) : (∀ x ∈ xs, ∃ y ∈ ys, r x y) ∧ ∀ y ∈ ys, ∃ x ∈ xs, r x y := by
  induction h with
  | nil => simp
  | @cons x y xs ys hxy _ ih =>
      refine ⟨List.forall_mem_cons.2 ⟨⟨y, List.mem_cons_self, hxy⟩, fun x' hx' => ?_⟩,
        List.forall_mem_cons.2 ⟨⟨x, List.mem_cons_self, hxy⟩, fun y' hy' => ?_⟩⟩
      · obtain ⟨y', hy', h⟩ := ih.1 x' hx'
        exact ⟨y', List.mem_cons_of_mem _ hy', h⟩
      · obtain ⟨x', hx', h⟩ := ih.2 y' hy'
        exact ⟨x', List.mem_cons_of_mem _ hx', h⟩

/-- A slot goes on with the generation after its last one. -/
theorem nextGeneration_eq {slot n : Nat} (h : a.generations[slot]? = (generationsOf n).getLast?) :
    a.nextGeneration slot = UInt32.ofNat n := by
  rw [nextGeneration, h]
  cases n with
  | zero => rfl
  | succ n => simp [generationsOf_succ]

namespace Traced

theorem empty : Traced .empty .empty where
  numbered := numbered_empty
  rooted := by
    intro e he
    cases he
  live := .nil
  standing := List.Subset.refl _
  generations slot := ⟨rfl, rfl⟩

variable (traced : Traced l a)

include traced

theorem enter {g : Grammar} {parent : Option Handle} {ref : SymbolRef} {placement : Transform}
    {seed : Seed} {x : Context} (prepared : a.prepare g parent ref placement seed = .ok x) :
    Traced ⟨l.made ++ [⟨(a.push x).1, (a.push x).2.get? (a.push x).1⟩],
      l.standing ++ [⟨(a.push x).1, (a.push x).2.get? (a.push x).1⟩]⟩ (a.push x).2 where
  numbered := numbered_push traced.numbered x
  rooted := traced.rooted.push traced.numbered prepared
  live := by
    rw [live_push traced.numbered]
    refine List.rel_append traced.live (.cons ⟨rfl, x, x.outputs, ?_, rfl⟩ .nil)
    have found := get_push traced.numbered x
    rw [get] at found
    cases hx : (a.push x).2.get? (a.push x).1 with
    | none =>
        rw [hx] at found
        cases found
    | some y =>
        rw [hx] at found
        exact congrArg some (Except.ok.inj found)
  standing := by
    intro m hm
    rcases List.mem_append.1 hm with hm | hm
    · exact List.mem_append_left _ (traced.standing hm)
    · exact List.mem_append_right _ hm
  generations slot := by
    obtain ⟨given, last⟩ := traced.generations slot
    rw [generations_push traced.numbered]
    by_cases here : slot = a.size
    · subst here
      rw [given] at last
      have next : (a.push x).1.generation = UInt32.ofNat (l.inSlot a.size).length :=
        nextGeneration_eq last
      have inSlot : ∀ m : Creation, m.handle = (a.push x).1 → ∀ standing,
          (Ledger.mk (l.made ++ [m]) standing).inSlot a.size = l.inSlot a.size ++ [m] := by
        intro m hm _
        simp [Ledger.inSlot, List.filter_append, hm]
      rw [inSlot _ rfl, List.map_append, given, if_pos rfl]
      simp [generationsOf_succ, next]
    · have inSlot : ∀ m : Creation, m.handle = (a.push x).1 → ∀ standing,
          (Ledger.mk (l.made ++ [m]) standing).inSlot slot = l.inSlot slot := by
        intro m hm _
        simp [Ledger.inSlot, List.filter_append, hm, Ne.symm here]
      rw [inSlot _ rfl, if_neg here]
      exact ⟨given, last⟩

theorem assign (live : a.isLive h = true) (s : Symbol) : Traced l (a.assign h s) where
  numbered := numbered_modify traced.numbered h _
  rooted := traced.rooted.assign live s
  live := by
    rw [live_assign live]
    refine forall₂_modify traced.live ?_ _
    rintro e m ⟨hm, x, outputs, hx, he⟩
    exact ⟨hm, x, (e.2.assign s).outputs, hx, by rw [he]; rfl⟩
  standing := traced.standing
  generations slot := by
    rw [Arena.assign, modify, if_pos live]
    exact traced.generations slot

theorem truncate (n : Nat) :
    Traced { l with standing := l.standing.take n } (a.truncate n) where
  numbered := numbered_truncate traced.numbered n
  rooted := traced.rooted.truncate traced.numbered n
  live := by
    rw [live_truncate]
    exact List.forall₂_take n traced.live
  standing := List.Subset.trans (List.take_subset _ _) traced.standing
  generations := traced.generations

theorem performs (performs : Performs l a l' b) : Traced l' b := by
  cases performs with
  | enter prepared => exact traced.enter prepared
  | refuse => exact traced
  | assign live s => exact traced.assign live s
  | truncate n => exact traced.truncate n

end Traced

theorem traced_of_history {operations : List Operation} (run : history operations = .ok (l, a)) :
    Traced l a :=
  history_induction .empty (fun traced performs => traced.performs performs) run

/-! ### Handles -/

/-- Creations with different handles in every slot have different handles. -/
theorem nodup_handles {made : List Creation}
    (h : ∀ slot, ((made.filter (·.handle.slot == slot)).map (·.handle.generation)).Nodup) :
    (made.map (·.handle)).Nodup := by
  induction made with
  | nil => exact .nil
  | cons m made ih =>
      rw [List.map_cons, List.nodup_cons]
      refine ⟨fun again => ?_, ih fun slot => ?_⟩
      · obtain ⟨m', hm', same⟩ := List.mem_map.1 again
        have own := h m.handle.slot
        rw [List.filter_cons_of_pos (by simp), List.map_cons, List.nodup_cons] at own
        refine own.1 (List.mem_map.2 ⟨m', List.mem_filter.2 ⟨hm', ?_⟩, ?_⟩)
        · simp [same]
        · rw [same]
      · exact (h slot).sublist (((List.sublist_cons_self m made).filter _).map _)

/-- In the course of any operations no handle is given out twice, and the live handles are those of
the contexts that have not been dropped. They lead to the contexts that they were given out for,
whose parents are live. -/
theorem handles_tell_contexts_apart {operations : List Operation}
    (run : history operations = .ok (l, a))
    (unspent : ∀ slot, (l.inSlot slot).length ≤ 2 ^ 32) :
    (l.made.map (·.handle)).Nodup ∧
      (∀ m ∈ l.made, (a.isLive m.handle = true ↔ m ∈ l.standing) ∧
        (a.isLive m.handle = true → ∃ x outputs, m.context = some x ∧
          a.get m.handle = .ok { x with outputs })) ∧
      (∀ h x p, a.get h = .ok x → x.parent = some p → p.slot < h.slot ∧ a.isLive p = true) ∧
      ∀ operation e b, a.perform operation = .ok (.refused e, b) → b = a := by
  have traced := traced_of_history run
  have distinct : (l.made.map (·.handle)).Nodup := nodup_handles fun slot =>
    (traced.generations slot).1 ▸ generationsOf_nodup (unspent slot)
  have stands : ∀ m ∈ l.standing, ∃ x outputs, m.context = some x ∧
      a.get m.handle = .ok { x with outputs } := by
    intro m hm
    obtain ⟨e, he, same, x, outputs, hx, hout⟩ := (forall₂_partners traced.live).2 m hm
    refine ⟨x, outputs, hx, (mem_live_iff traced.numbered).1 ?_⟩
    rw [same, ← hout]
    exact he
  have standing : ∀ m ∈ l.made, a.isLive m.handle = true → m ∈ l.standing := by
    intro m hm live
    obtain ⟨x, hx⟩ := get_of_isLive live
    obtain ⟨m', hm', same, _⟩ :=
      (forall₂_partners traced.live).1 _ ((mem_live_iff traced.numbered).2 hx)
    obtain rfl := List.inj_on_of_nodup_map distinct (traced.standing hm') hm same
    exact hm'
  refine ⟨distinct, fun m hm => ⟨⟨standing m hm, fun hs => ?_⟩, fun live => ?_⟩, ?_, ?_⟩
  · obtain ⟨_, _, _, found⟩ := stands m hs
    exact isLive_of_get found
  · exact stands m (standing m hm live)
  · intro h x p hx hp
    have mem := (mem_live_iff traced.numbered).2 hx
    obtain ⟨lower, c, hc⟩ := traced.rooted (h, x) mem p hp
    exact ⟨lower, isLive_of_get ((mem_live_iff traced.numbered).1 hc)⟩
  · intro operation e b refused
    cases operation with
    | create g parent ref placement seed =>
        simp only [perform] at refused
        split at refused <;> cases refused
        rfl
    | assign g h =>
        obtain ⟨c, _, refused⟩ := bind_ok_iff.1 refused
        obtain ⟨s, _, refused⟩ := bind_ok_iff.1 refused
        cases refused
    | truncate n => cases refused
    | clear => cases refused

/-- A rule that asks for nothing, and one with a parameter that has to come from above. -/
def needy : Grammar where
  rules := #[⟨.named "rule", [], []⟩,
    ⟨⟨"needy", [], [⟨"depth", .float, none, 0⟩], [], .empty⟩, [], []⟩]
  expansions := #[]
  components := #[]
  fields := #[⟨.float, .param "depth", true⟩]
  areaNames := []

theorem handles_tell_contexts_apart_refilled :
    let create parent rule := Operation.create needy parent (.rule rule) .identity 7
    let operations := [create none 0, .truncate 0, create none 0, .assign needy ⟨0, 1⟩,
      create (some ⟨0, 1⟩) 1, create (some ⟨0, 1⟩) 0]
    ∃ l a, history operations = .ok (l, a) ∧ (∀ slot, (l.inSlot slot).length ≤ 2 ^ 32) ∧
      l.made.map (·.handle) = [⟨0, 0⟩, ⟨0, 1⟩, ⟨1, 0⟩] ∧
      l.standing.map (·.handle) = [⟨0, 1⟩, ⟨1, 0⟩] ∧ (l.made.map (·.handle)).Nodup ∧
      ∀ m ∈ l.made, a.isLive m.handle = true ↔ m ∈ l.standing := by
  intro create operations
  have handles : (history operations).map (fun s => (s.1.made.map (·.handle),
      s.1.standing.map (·.handle))) = .ok ([⟨0, 0⟩, ⟨0, 1⟩, ⟨1, 0⟩], [⟨0, 1⟩, ⟨1, 0⟩]) := by
    decide +kernel
  rcases run : history operations with e | ⟨l, a⟩
  · rw [run] at handles
    cases handles
  rw [run] at handles
  obtain ⟨made, standing⟩ := Prod.mk.inj (Except.ok.inj handles)
  have unspent : ∀ slot, (l.inSlot slot).length ≤ 2 ^ 32 := by
    intro slot
    have three : l.made.length = 3 := by simpa using congrArg List.length made
    exact (List.length_filter_le _ _).trans (three.trans_le (by decide))
  have told := handles_tell_contexts_apart run unspent
  exact ⟨l, a, rfl, unspent, made, standing, told.1, fun m hm => (told.2.1 m hm).1⟩

end VoxelGrammar.Arena
