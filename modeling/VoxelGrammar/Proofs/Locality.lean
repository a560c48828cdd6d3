import VoxelGrammar.Proofs.Meaning

/-!
What a field means in a context depends on that context and those below its slot, and not on what
the context itself hands on. So entering further contexts, dropping later ones and handing on the
assignments of the latest one leave every meaning as it was. The generations in handles only tell
contexts apart, so shifting them slot by slot changes no meaning either.
-/

namespace VoxelGrammar

variable {μ ε α β α' β' : Type}

def Agree (r : α → β → Prop) : Except ε α → Except ε β → Prop
  | .ok a, .ok b => r a b
  | .error e, .error e' => e = e'
  | _, _ => False

namespace Agree

variable {r : α → β → Prop} {x : Except ε α} {y : Except ε β}

theorem of_eq {x y : Except ε α} (h : x = y) : Agree Eq x y := by
  subst h
  cases x <;> rfl

theorem eq {x y : Except ε α} (h : Agree Eq x y) : x = y := by
  cases x <;> cases y <;> first | exact congrArg _ h | exact h.elim

theorem error_iff {e : ε} (h : Agree r x y) : x = .error e ↔ y = .error e := by
  cases x <;> cases y <;> simp_all [Agree]

theorem ok_left {a : α} (h : Agree r (.ok a) y) : ∃ b, y = .ok b ∧ r a b := by
  cases y with
  | error e => exact h.elim
  | ok b => exact ⟨b, rfl, h⟩

theorem bind {s : α' → β' → Prop} {f : α → Except ε α'} {g : β → Except ε β'} (h : Agree r x y)
    (hfg : ∀ a b, x = .ok a → r a b → Agree s (f a) (g b)) : Agree s (x >>= f) (y >>= g) := by
  cases x <;> cases y
  · exact h
  · exact h.elim
  · exact h.elim
  · exact hfg _ _ rfl h

theorem mono {s : α → β → Prop} (h : Agree r x y) (hrs : ∀ a b, r a b → s a b) : Agree s x y := by
  cases x <;> cases y
  · exact h
  · exact h
  · exact h
  · exact hrs _ _ h

theorem lift {x : Except Fault α} {y : Except Fault β} (h : Agree r x y) :
    Agree r (liftM x : Except EvalError α) (liftM y) := by
  cases x <;> cases y
  · exact congrArg EvalError.fault h
  · exact h
  · exact h
  · exact h

theorem mapM {f : α → Except ε α'} {g : β → Except ε α'} {xs : List α} {ys : List β}
    (h : List.Forall₂ (fun a b => f a = g b) xs ys) : xs.mapM f = ys.mapM g := by
  induction h with
  | nil => rfl
  | cons hab _ ih => rw [List.mapM_cons, List.mapM_cons, hab, ih]

theorem foldlM {f : α' → α → Except ε α'} {g : α' → β → Except ε α'} {xs : List α} {ys : List β}
    (h : List.Forall₂ (fun a b => ∀ c, f c a = g c b) xs ys) (c : α') :
    xs.foldlM f c = ys.foldlM g c := by
  induction h generalizing c with
  | nil => rfl
  | cons hab _ ih =>
      rw [List.foldlM_cons, List.foldlM_cons, hab c]
      exact congrArg _ (funext ih)

end Agree

/-! ### Shifting generations -/

/-- The handle with its generation moved by what is given for its slot. -/
def Handle.shift (σ : Nat → UInt32) (h : Handle) : Handle := ⟨h.slot, h.generation + σ h.slot⟩

def Binding.shift (σ : Nat → UInt32) : Binding → Binding
  | .own field => .own field
  | .bridge h => .bridge (h.shift σ)

def Bindings.shift (σ : Nat → UInt32) (b : Bindings) : Bindings :=
  ⟨b.entries.map fun e => (e.1, e.2.shift σ)⟩

def Context.shift (σ : Nat → UInt32) (c : Context) : Context :=
  { c with
    parent := c.parent.map (·.shift σ)
    inputs := c.inputs.shift σ
    outputs := c.outputs.shift σ }

variable {σ : Nat → UInt32} {a b : Arena} {h : Handle} {n : Nat}

@[simp] theorem Handle.shift_slot (σ : Nat → UInt32) (h : Handle) : (h.shift σ).slot = h.slot := rfl

@[simp] theorem Handle.shift_zero (h : Handle) : h.shift (fun _ => 0) = h := by
  simp [Handle.shift]

theorem Handle.shift_injective (σ : Nat → UInt32) : Function.Injective (Handle.shift σ) := by
  intro h h' heq
  obtain ⟨hslot, hgen⟩ := Handle.mk.inj heq
  rw [hslot] at hgen
  cases h
  cases h'
  simp_all

@[simp] theorem Binding.shift_zero (b : Binding) : b.shift (fun _ => 0) = b := by
  cases b <;> simp [Binding.shift]

@[simp] theorem Bindings.shift_zero (b : Bindings) : b.shift (fun _ => 0) = b := by
  simp [Bindings.shift]

@[simp] theorem Context.shift_zero (c : Context) : c.shift (fun _ => 0) = c := by
  simp [Context.shift]

theorem Bindings.set_shift (b : Bindings) (k : ParamKey) (v : Binding) :
    (b.set k v).shift σ = (b.shift σ).set k (v.shift σ) := by
  simp [Bindings.set, Bindings.shift, List.filter_map, Function.comp_def]

theorem Bindings.setAll_shift (b : Bindings) (more : List (ParamKey × Binding)) :
    (b.setAll more).shift σ = (b.shift σ).setAll (more.map fun e => (e.1, e.2.shift σ)) := by
  simp only [Bindings.setAll]
  induction more generalizing b with
  | nil => rfl
  | cons e rest ih => rw [List.foldl_cons, ih, Bindings.set_shift, List.map_cons, List.foldl_cons]

theorem Bindings.keys_shift (b : Bindings) : (b.shift σ).keys = b.keys := by
  simp [Bindings.keys, Bindings.shift, Function.comp_def]

theorem Bindings.get?_shift (b : Bindings) (k : ParamKey) :
    (b.shift σ).get? k = (b.get? k).map (·.shift σ) := by
  obtain ⟨entries⟩ := b
  simp only [Bindings.get?, Bindings.shift]
  induction entries with
  | nil => rfl
  | cons e rest ih =>
      rw [List.map_cons, List.lookup_cons, List.lookup_cons]
      cases k == e.1
      · exact ih
      · rfl

theorem Context.inputsOf_shift (s : Symbol) (parent : Option (Handle × Context)) :
    Context.inputsOf s (parent.map fun e => (e.1.shift σ, e.2.shift σ)) =
      (Context.inputsOf s parent).shift σ := by
  have own : (Bindings.empty.setAll (Context.defaults s)).shift σ =
      Bindings.empty.setAll (Context.defaults s) := by
    rw [Bindings.setAll_shift]
    simp [Context.defaults, List.map_filterMap, Bindings.shift, Bindings.empty, Binding.shift,
      Option.map_map, Function.comp_def]
  cases parent with
  | none => exact own.symm
  | some e =>
      simp only [Context.inputsOf, Option.map_some, Bindings.setAll_shift, own, List.map_map]
      rw [Context.shift, Bindings.keys_shift]
      rfl

theorem Context.enter_shift (parent : Option (Handle × Context)) (ref : SymbolRef) (s : Symbol)
    (placement : Transform) (seed : Seed) :
    Context.enter (parent.map fun e => (e.1.shift σ, e.2.shift σ)) ref s placement seed =
      (Context.enter parent ref s placement seed).map (·.shift σ) := by
  have missing : Context.missing? s ((Context.inputsOf s parent).shift σ) =
      Context.missing? s (Context.inputsOf s parent) := by
    simp [Context.missing?, Bindings.get?_shift]
  unfold Context.enter
  rw [Context.inputsOf_shift]
  dsimp only
  rw [missing]
  cases Context.missing? s (Context.inputsOf s parent) with
  | some p => rfl
  | none => cases parent <;> rfl

theorem Context.assign_shift (c : Context) (s : Symbol) :
    (c.assign s).shift σ = (c.shift σ).assign s := by
  simp [Context.assign, Context.shift, Bindings.setAll_shift, Binding.shift, Function.comp_def]

/-! ### Contexts on solid ground -/

def Binding.Below (n : Nat) : Binding → Prop
  | .own _ => True
  | .bridge h => h.slot < n

structure Context.Below (n : Nat) (c : Context) : Prop where
  parent : ∀ h, c.parent = some h → h.slot < n
  inputs : ∀ e ∈ c.inputs.entries, e.2.Below n
  outputs : ∀ e ∈ c.outputs.entries, e.2.Below n

def Arena.Grounded (a : Arena) : Prop := ∀ h c, a.get h = .ok c → c.Below h.slot

theorem Bindings.mem_setAll {v : Bindings} {more : List (ParamKey × Binding)}
    {e : ParamKey × Binding} (he : e ∈ (v.setAll more).entries) : e ∈ v.entries ∨ e ∈ more := by
  simp only [Bindings.setAll] at he
  induction more generalizing v with
  | nil => exact .inl he
  | cons d rest ih =>
      rw [List.foldl_cons] at he
      rcases ih he with he | he
      · rcases List.mem_cons.1 he with rfl | he
        · exact .inr List.mem_cons_self
        · exact .inl (List.mem_filter.1 he).1
      · exact .inr (List.mem_cons_of_mem _ he)

theorem Bindings.mem_of_get? {b : Bindings} {k : ParamKey} {v : Binding} (hv : b.get? k = some v) :
    ∃ e ∈ b.entries, e.2 = v := by
  obtain ⟨entries⟩ := b
  simp only [Bindings.get?] at hv
  induction entries with
  | nil => cases hv
  | cons e rest ih =>
      rw [List.lookup_cons] at hv
      split at hv
      · exact ⟨e, List.mem_cons_self, Option.some.inj hv⟩
      · obtain ⟨e', he', heq⟩ := ih hv
        exact ⟨e', List.mem_cons_of_mem _ he', heq⟩

/-- The contexts are alike but for their handles and for what they hand on. -/
structure Context.Like (σ : Nat → UInt32) (c c' : Context) : Prop where
  parent : c'.parent = c.parent.map (·.shift σ)
  symbol : c'.symbol = c.symbol
  toWorld : c'.toWorld = c.toWorld
  toLocal : c'.toLocal = c.toLocal
  seed : c'.seed = c.seed
  inputs : c'.inputs = c.inputs.shift σ
  placeholders : c'.placeholders = c.placeholders

theorem Context.Like.shift (c : Context) : c.Like σ (c.shift σ) := ⟨rfl, rfl, rfl, rfl, rfl, rfl, rfl⟩

theorem Context.like_self (c : Context) : c.Like (fun _ => 0) c := by
  have like := Context.Like.shift (σ := fun _ => 0) c
  rwa [Context.shift_zero] at like

theorem Context.like_assign (c : Context) (s : Symbol) : c.Like (fun _ => 0) (c.assign s) := by
  refine ⟨?_, rfl, rfl, rfl, rfl, ?_, rfl⟩ <;> simp [Context.assign]

namespace Arena

/-- Below slot `n`, the contexts of `b` are those of `a`, the outputs of the last one aside. -/
def Alike (σ : Nat → UInt32) (n : Nat) (a b : Arena) : Prop :=
  ∀ h, h.slot < n → Agree (fun c c' => c.Like σ c' ∧ (h.slot + 1 < n → c' = c.shift σ))
    (a.get h) (b.get (h.shift σ))

namespace Alike

variable (alike : Alike σ n a b) (ground : a.Grounded)

include alike ground

theorem declaring (name : String) (id : FieldId) (k : Nat) (hn : h.slot < n) :
    Agree (fun s s' => s' = (s.1.shift σ, s.2) ∧ s.1.slot ≤ h.slot)
      (a.declaring name id k h) (b.declaring name id k (h.shift σ)) := by
  induction k generalizing h with
  | zero => rfl
  | succ k ih =>
      unfold Arena.declaring
      refine .bind (alike h hn).lift fun c c' hc related => ?_
      have like := related.1
      rw [Context.placeholder?, Context.placeholder?, like.placeholders, like.parent]
      cases c.placeholders.lookup id with
      | some key => exact ⟨rfl, Nat.le_refl _⟩
      | none =>
          cases hcp : c.parent with
          | none => rfl
          | some parent =>
              have hlt := (ground h c (lift_ok.1 hc)).parent parent hcp
              refine (ih (h := parent) (by omega)).mono fun s s' resolved => ?_
              exact ⟨resolved.1, resolved.2.trans hlt.le⟩

theorem follow (name : String) (key : ParamKey) (k : Nat) {v : Binding} (hn : h.slot < n)
    (hv : v.Below h.slot) :
    Agree (fun s s' => s' = (s.1.shift σ, s.2) ∧ s.1.slot ≤ h.slot)
      (a.follow name key k h v) (b.follow name key k (h.shift σ) (v.shift σ)) := by
  induction k generalizing h v with
  | zero => cases v with
    | own field => exact ⟨rfl, Nat.le_refl _⟩
    | bridge parent => rfl
  | succ k ih => cases v with
    | own field => exact ⟨rfl, Nat.le_refl _⟩
    | bridge parent =>
        have hlt : parent.slot < h.slot := hv
        unfold Arena.follow
        refine .bind (alike parent (by omega)).lift fun c c' hc related => ?_
        rw [related.2 (by omega), Context.shift, Bindings.get?_shift]
        cases hout : c.outputs.get? key with
        | none => rfl
        | some v =>
            obtain ⟨e, he, rfl⟩ := Bindings.mem_of_get? hout
            have below := (ground parent c (lift_ok.1 hc)).outputs e he
            refine (ih (h := parent) (by omega) below).mono fun s s' resolved => ?_
            exact ⟨resolved.1, resolved.2.trans hlt.le⟩

theorem resolve (name : String) (id : FieldId) (hn : h.slot < n) :
    Agree (fun s s' => s' = (s.1.shift σ, s.2) ∧ s.1.slot ≤ h.slot)
      (a.resolve name id h) (b.resolve name id (h.shift σ)) := by
  unfold Arena.resolve
  refine .bind (declaring alike ground name id _ hn) ?_
  rintro ⟨owner, key⟩ _ _ ⟨rfl, howner⟩
  refine .bind (alike owner (Nat.lt_of_le_of_lt howner hn)).lift fun c c' hc ⟨like, _⟩ => ?_
  rw [like.inputs, Bindings.get?_shift]
  cases hin : c.inputs.get? key with
  | none => rfl
  | some v =>
      obtain ⟨e, he, rfl⟩ := Bindings.mem_of_get? hin
      have below := (ground owner c (lift_ok.1 hc)).inputs e he
      refine (follow alike ground name key _ (Nat.lt_of_le_of_lt howner hn) below).mono
        fun s s' ⟨heq, hle⟩ => ?_
      exact ⟨heq, Nat.le_trans hle howner⟩

/-- The sources of a field are read in the same places, none of them above the context. -/
theorem sources (id : FieldId) (f : Field) (hn : h.slot < n) :
    Agree (List.Forall₂ fun s s' => s' = (s.1.shift σ, s.2) ∧ s.1.slot ≤ h.slot)
      (a.sources h id f) (b.sources (h.shift σ) id f) := by
  rw [Arena.sources.eq_def, Arena.sources.eq_def]
  cases f.kind with
  | param name =>
      refine .bind (resolve alike ground name id hn) fun s s' _ hs => ?_
      exact .cons hs .nil
  | _ =>
      refine List.forall₂_map_left_iff.2 (List.forall₂_map_right_iff.2 ?_)
      exact List.forall₂_same.2 fun _ _ => ⟨rfl, Nat.le_refl _⟩

omit ground in
theorem live (hn : h.slot < n) {y : Context} (hy : b.get (h.shift σ) = .ok y) :
    ∃ x, a.get h = .ok x := by
  have agree := alike h hn
  rw [hy] at agree
  cases hx : a.get h with
  | error e =>
      rw [hx] at agree
      exact agree.elim
  | ok x => exact ⟨x, rfl⟩

omit ground in
theorem page (f : Field) (hn : h.slot < n) : b.page (h.shift σ) f = a.page h f := by
  unfold Arena.page
  split
  · refine (Agree.eq (.bind (alike h hn).lift fun c c' _ _ => ?_)).symm
    exact rfl
  · rfl

omit ground in
theorem compute (w : World μ) (key : RecordKey) (kind : FieldKind) (inputs : List Record)
    (hn : h.slot < n) : w.compute b (h.shift σ) key kind inputs = w.compute a h key kind inputs := by
  unfold World.compute
  split
  · rfl
  · rfl
  · refine (Agree.eq (.bind (alike h hn).lift fun c c' _ ⟨like, _⟩ => ?_)).symm
    rw [like.toLocal]
    rfl
  · refine (Agree.eq (.bind (alike h hn).lift fun c c' _ ⟨like, _⟩ => ?_)).symm
    rw [like.seed]
    rfl
  all_goals rfl

/-- Alike arenas give fields the same dimensionality. -/
theorem dimensionIn (w : World μ) (k : Nat) (id : FieldId) (hn : h.slot < n) :
    w.dimensionIn a k h id = w.dimensionIn b k (h.shift σ) id := by
  induction k generalizing h id with
  | zero => rfl
  | succ k ih =>
      refine Agree.eq (.bind (.of_eq rfl) fun f f' _ hf => ?_)
      subst hf
      refine .bind (.of_eq (page alike f hn).symm) fun _ _ _ _ =>
        .bind (.of_eq rfl) fun own own' _ hown => ?_
      subst hown
      refine .bind (sources alike ground id f hn) fun ss ss' _ hss => .of_eq ?_
      refine Agree.foldlM (hss.imp fun s s' ⟨heq, hle⟩ d => ?_) own
      rw [heq, ih s.2 (Nat.lt_of_le_of_lt hle hn)]

theorem recordStep (w : World μ) {sub sub' : Handle → FieldId → Pos → Extent → Except EvalError Record}
    (key : RecordKey) (hn : h.slot < n) (hsub : ∀ h', h'.slot < n → ∀ id origin extent,
      sub h' id origin extent = sub' (h'.shift σ) id origin extent) :
    w.recordStep a sub h key = w.recordStep b sub' (h.shift σ) key := by
  refine Agree.eq (.bind (.of_eq rfl) fun f f' _ hf => ?_)
  subst hf
  refine .bind (.of_eq (page alike f hn).symm) fun _ _ _ _ =>
    .bind (sources alike ground key.field f hn) fun ss ss' _ hss => ?_
  have inputs : ss.mapM (fun s => sub s.1 s.2 key.origin key.extent) =
      ss'.mapM fun s => sub' s.1 s.2 key.origin key.extent := by
    refine Agree.mapM (hss.imp fun s s' ⟨heq, hle⟩ => ?_)
    rw [heq, hsub s.1 (Nat.lt_of_le_of_lt hle hn)]
  refine .bind (.of_eq inputs) fun rs rs' _ hrs => ?_
  rw [hrs, compute alike w key f.kind rs' hn]
  exact .of_eq rfl

/-- Alike arenas give fields the same records. -/
theorem recordIn (w : World μ) (k : Nat) (id : FieldId) (origin : Pos) (extent : Extent)
    (hn : h.slot < n) :
    w.recordIn a k h id origin extent = w.recordIn b k (h.shift σ) id origin extent := by
  induction k generalizing h id origin extent with
  | zero => rfl
  | succ k ih =>
      refine Agree.eq (.bind (.of_eq (dimensionIn alike ground w (k + 1) id hn)) fun d d' _ hd => ?_)
      subst hd
      exact .of_eq (recordStep alike ground w _ hn fun h' hn' id origin extent =>
        ih id origin extent hn')

end Alike

/-! ### Arenas that are alike -/

theorem get_eq (a : Arena) (h : Handle) : a.get h = .error .staleContext ∨ ∃ x, a.get h = .ok x := by
  rw [get]
  cases a.get? h with
  | none => exact .inl rfl
  | some x => exact .inr ⟨x, rfl⟩

theorem alike_of_live (ha : a.Numbered) (hb : b.Numbered)
    (hlive : ∀ i < n, Option.Rel (fun e e' => e'.1 = e.1.shift σ ∧ e.2.Like σ e'.2 ∧
      (i + 1 < n → e'.2 = e.2.shift σ)) a.live[i]? b.live[i]?) : Alike σ n a b := by
  intro h hn
  have rel := hlive h.slot hn
  rcases get_eq a h with hx | ⟨x, hx⟩ <;> rw [hx]
  · rcases get_eq b (h.shift σ) with hy | ⟨y, hy⟩ <;> rw [hy]
    · rfl
    · -- A live context of `b` has its counterpart at the same slot of `a`.
      rw [get_eq_ok_iff hb, Handle.shift_slot] at hy
      rw [hy] at rel
      generalize hl : a.live[h.slot]? = found at rel
      cases rel with
      | some rel =>
          rename_i e
          obtain rfl : h = e.1 := Handle.shift_injective σ rel.1
          rw [(get_eq_ok_iff ha).2 hl] at hx
          cases hx
  · rw [(get_eq_ok_iff ha).1 hx] at rel
    generalize hl : b.live[h.slot]? = found at rel
    cases rel with
    | some rel =>
        rename_i e
        obtain ⟨heq, like, exactly⟩ := rel
        have hy : b.get (h.shift σ) = .ok e.2 := by
          rw [get_eq_ok_iff hb, Handle.shift_slot, hl, ← heq]
        rw [hy]
        exact ⟨like, exactly⟩

theorem Keeps.alike (keeps : Keeps n a b) (ha : a.Numbered) (hb : b.Numbered) :
    Alike (fun _ => 0) n a b := by
  refine alike_of_live ha hb fun i hi => ?_
  have hlive := congrArg (·[i]?) keeps.live
  simp only [List.getElem?_take, hi, if_true] at hlive
  rw [hlive]
  cases a.live[i]? with
  | none => exact .none
  | some e => exact .some ⟨by simp, Context.like_self e.2, fun _ => by simp⟩

/-- Handing on the assignments of a context changes no meaning in it and below its slot. -/
theorem alike_assign (ha : a.Numbered) (hl : a.isLive h = true) (s : Symbol) :
    Alike (fun _ => 0) (h.slot + 1) a (a.assign h s) := by
  refine alike_of_live ha (numbered_modify ha _ _) fun i hi => ?_
  rw [live_assign hl, List.getElem?_modify]
  cases a.live[i]? with
  | none => exact .none
  | some e =>
      by_cases hs : h.slot = i
      · simp only [hs, if_true]
        exact .some ⟨by simp, Context.like_assign e.2 s, fun hlt => absurd hlt (by omega)⟩
      · simp only [hs, if_false]
        exact .some ⟨by simp, Context.like_self e.2, fun _ => by simp⟩

/-! ### Staying on solid ground -/

theorem slot_of_live {i : Nat} {e : Handle × Context} (he : a.live[i]? = some e) : e.1.slot = i := by
  rw [getElem?_live] at he
  cases hc : a.contexts[i]? with
  | none =>
      rw [hc] at he
      cases he
  | some c =>
      rw [hc] at he
      cases he
      rfl

theorem grounded_iff (ha : a.Numbered) :
    a.Grounded ↔ ∀ i (e : Handle × Context), a.live[i]? = some e → e.2.Below i := by
  constructor
  · intro ground i e he
    have hslot := slot_of_live he
    rw [← hslot]
    refine ground e.1 e.2 ((get_eq_ok_iff ha).2 ?_)
    rw [hslot]
    exact he
  · intro ground h c hc
    exact ground h.slot (h, c) ((get_eq_ok_iff ha).1 hc)

theorem below_of_prepare {g : Grammar} {parent : Option Handle} {ref : SymbolRef}
    {placement : Transform} {seed : Seed} {x : Context}
    (hx : a.prepare g parent ref placement seed = .ok x) : x.Below a.size := by
  obtain ⟨p, s, hp, _, he⟩ := prepare_ok hx
  have hlt : ∀ e, p = some e → e.1.slot < a.size := by
    intro e heq
    cases parent with
    | none =>
        cases hp
        cases heq
    | some h =>
        simp only [parentContext] at hp
        cases hc : a.get h with
        | error f =>
            rw [hc] at hp
            cases hp
        | ok c =>
            rw [hc] at hp
            cases hp
            cases heq
            exact slot_lt_of_get hc
  have hin : ∀ e ∈ (Context.inputsOf s p).entries, e.2.Below a.size := by
    intro e hmem
    have own : ∀ e ∈ (Bindings.empty.setAll (Context.defaults s)).entries, e.2.Below a.size := by
      intro e hmem
      rcases Bindings.mem_setAll hmem with hmem | hmem
      · cases hmem
      · obtain ⟨q, _, hq⟩ := List.mem_filterMap.1 hmem
        obtain ⟨id, _, rfl⟩ := Option.map_eq_some_iff.1 hq
        exact True.intro
    cases hpe : p with
    | none =>
        rw [hpe] at hmem
        exact own e hmem
    | some d =>
        rw [hpe] at hmem
        rcases Bindings.mem_setAll hmem with hmem | hmem
        · exact own e hmem
        · obtain ⟨k, _, rfl⟩ := List.mem_map.1 hmem
          exact hlt d hpe
  unfold Context.enter at he
  dsimp only at he
  split at he
  · cases he
  · cases he
    refine ⟨fun h hh => ?_, hin, hin⟩
    obtain ⟨e, hpe, rfl⟩ := Option.map_eq_some_iff.1 hh
    exact hlt e hpe

theorem grounded_push (ha : a.Numbered) (ground : a.Grounded) {x : Context} (hx : x.Below a.size) :
    (a.push x).2.Grounded := by
  rw [grounded_iff (numbered_push ha x), live_push ha]
  intro i e he
  rw [List.getElem?_append] at he
  split at he
  · exact (grounded_iff ha).1 ground i e he
  · next hi =>
    obtain ⟨rfl, hz⟩ : (((a.push x).1, x) : Handle × Context) = e ∧ i = a.size := by
      rw [length_live] at hi he
      cases hk : i - a.size with
      | zero =>
          rw [hk] at he
          exact ⟨Option.some.inj he, by omega⟩
      | succ k =>
          rw [hk] at he
          cases he
    exact hz ▸ hx

theorem grounded_truncate (ha : a.Numbered) (ground : a.Grounded) (n : Nat) :
    (a.truncate n).Grounded := by
  rw [grounded_iff (numbered_truncate ha n), live_truncate]
  intro i e he
  rw [List.getElem?_take] at he
  split at he
  · exact (grounded_iff ha).1 ground i e he
  · cases he

theorem grounded_assign (ha : a.Numbered) (ground : a.Grounded) (hl : a.isLive h = true)
    (s : Symbol) : (a.assign h s).Grounded := by
  have hnum : (a.assign h s).Numbered := numbered_modify ha _ _
  rw [grounded_iff hnum, live_assign hl]
  intro i e he
  rw [List.getElem?_modify] at he
  obtain ⟨d, hd, rfl⟩ := Option.map_eq_some_iff.1 he
  have below := (grounded_iff ha).1 ground i d hd
  split
  · refine ⟨below.parent, below.inputs, fun e he => ?_⟩
    rcases Bindings.mem_setAll he with he | he
    · exact below.outputs e he
    · obtain ⟨q, _, rfl⟩ := List.mem_map.1 he
      exact True.intro
  · exact below

/-! ### Mirrored arenas -/

theorem get_of_isLive (hl : a.isLive h = true) : ∃ x, a.get h = .ok x := by
  have hlt := slot_lt_of_isLive hl
  refine ⟨a.contexts[h.slot], ?_⟩
  rw [get, get?, if_pos hl, Array.getElem?_eq_getElem hlt]

/-- The arena `b` is `a` with its generations shifted, and stays so whatever is entered. -/
structure Mirrors (σ : Nat → UInt32) (a b : Arena) : Prop where
  numbered : a.Numbered
  numbered' : b.Numbered
  live : b.live = a.live.map fun e => (e.1.shift σ, e.2.shift σ)
  next : ∀ i, b.nextGeneration i = a.nextGeneration i + σ i

theorem nextGeneration_push (ha : a.Numbered) (x : Context) (i : Nat) :
    (a.push x).2.nextGeneration i =
      if i = a.size then a.nextGeneration i + 1 else a.nextGeneration i := by
  simp only [nextGeneration, generations_push ha]
  by_cases hi : i = a.size
  · subst hi
    simp [push, nextGeneration, size]
  · simp [hi]

namespace Mirrors

theorem refl (ha : a.Numbered) : Mirrors (fun _ => 0) a a := ⟨ha, ha, by simp, by simp⟩

theorem grounded (m : Mirrors σ a b) (ground : a.Grounded) : b.Grounded := by
  rw [grounded_iff m.numbered', m.live]
  intro i e he
  rw [List.getElem?_map] at he
  obtain ⟨d, hd, rfl⟩ := Option.map_eq_some_iff.1 he
  have below := (grounded_iff m.numbered).1 ground i d hd
  have shifted : ∀ v : Bindings, (∀ e ∈ v.entries, e.2.Below i) →
      ∀ e ∈ (v.shift σ).entries, e.2.Below i := by
    intro v hv e he
    obtain ⟨⟨k, c⟩, hmem, rfl⟩ := List.mem_map.1 he
    have hc := hv _ hmem
    cases c with
    | own field => exact trivial
    | bridge parent => exact hc
  refine ⟨fun h hh => ?_, shifted _ below.inputs, shifted _ below.outputs⟩
  obtain ⟨h, hp, rfl⟩ := Option.map_eq_some_iff.1 hh
  exact below.parent h hp

theorem alike (m : Mirrors σ a b) (n : Nat) : Alike σ n a b := by
  refine alike_of_live m.numbered m.numbered' fun i _ => ?_
  rw [m.live, List.getElem?_map]
  cases a.live[i]? with
  | none => exact .none
  | some e => exact .some ⟨rfl, .shift e.2, fun _ => rfl⟩

theorem get (m : Mirrors σ a b) (h : Handle) :
    Agree (fun c c' => c' = c.shift σ) (a.get h) (b.get (h.shift σ)) :=
  (m.alike (h.slot + 2) h (by omega)).mono fun _ _ ⟨_, exactly⟩ => exactly (by omega)

theorem size (m : Mirrors σ a b) : b.size = a.size := by
  rw [← length_live, m.live, List.length_map, length_live]

theorem isLive (m : Mirrors σ a b) (h : Handle) (hl : a.isLive h = true) :
    b.isLive (h.shift σ) = true := by
  obtain ⟨c, hc⟩ := get_of_isLive hl
  have agree := m.get h
  rw [hc] at agree
  obtain ⟨c', hc', _⟩ := agree.ok_left
  exact isLive_of_get hc'

theorem prepare (m : Mirrors σ a b) (g : Grammar) (parent : Option Handle) (ref : SymbolRef)
    (placement : Transform) (seed : Seed) :
    Agree (fun x y => y = x.shift σ) (a.prepare g parent ref placement seed)
      (b.prepare g (parent.map (·.shift σ)) ref placement seed) := by
  have parents : Agree (fun p p' => p' = p.map fun e => (e.1.shift σ, e.2.shift σ))
      (a.parentContext parent) (b.parentContext (parent.map (·.shift σ))) := by
    cases parent with
    | none => rfl
    | some h => exact (m.get h).bind fun c c' _ hc => by rw [hc]; rfl
  refine .bind parents.lift fun p p' _ hp => .bind (.of_eq rfl) fun s s' _ hs => ?_
  subst hp hs
  rw [Context.enter_shift]
  cases Context.enter p ref s placement seed <;> rfl

theorem push (m : Mirrors σ a b) (x : Context) :
    (b.push (x.shift σ)).1 = (a.push x).1.shift σ ∧ Mirrors σ (a.push x).2 (b.push (x.shift σ)).2 := by
  have hsize : b.contexts.size = a.contexts.size := m.size
  have handle : (b.push (x.shift σ)).1 = (a.push x).1.shift σ := by
    simp only [Arena.push, Handle.shift, hsize, m.next]
  refine ⟨handle, numbered_push m.numbered x, numbered_push m.numbered' _, ?_, fun i => ?_⟩
  · rw [live_push m.numbered', live_push m.numbered, m.live, handle, List.map_append]
    rfl
  · rw [nextGeneration_push m.numbered', nextGeneration_push m.numbered, m.size, m.next]
    split
    · rw [UInt32.add_assoc, UInt32.add_comm (σ i), ← UInt32.add_assoc]
    · rfl

theorem truncate (m : Mirrors σ a b) (n : Nat) : Mirrors σ (a.truncate n) (b.truncate n) := by
  refine ⟨numbered_truncate m.numbered n, numbered_truncate m.numbered' n, ?_, m.next⟩
  rw [live_truncate, live_truncate, m.live, List.map_take]

theorem assign (m : Mirrors σ a b) (hl : a.isLive h = true) (s : Symbol) :
    Mirrors σ (a.assign h s) (b.assign (h.shift σ) s) := by
  have hl' := m.isLive h hl
  refine ⟨numbered_modify m.numbered _ _, numbered_modify m.numbered' _ _, ?_, fun i => ?_⟩
  · rw [live_assign hl, live_assign hl', m.live, Handle.shift_slot]
    apply List.ext_getElem?
    intro i
    simp only [List.getElem?_modify, List.getElem?_map]
    cases a.live[i]? with
    | none => rfl
    | some e => by_cases hs : h.slot = i <;> simp [hs, Context.assign_shift]
  · simp only [Arena.assign, Arena.modify, if_pos hl, if_pos hl']
    exact m.next i

end Mirrors

end Arena

end VoxelGrammar
