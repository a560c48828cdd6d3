import VoxelGrammar.Proofs.Acyclicity
import VoxelGrammar.Proofs.Operands
import VoxelGrammar.Proofs.Refinement
import VoxelGrammar.Proofs.Scoping

/-!
The types of values. Whatever contexts have been entered and whatever is remembered, the samples of a
field of a released grammar have its type: placeholders stand for fields of their own type, however long
the chain of bindings, and what is remembered has been worked out before. An evaluator that is stuck
where a sample would have to be coerced therefore comes to the same records.
-/

namespace VoxelGrammar

variable {μ α β : Type}

/-! ### Placeholders -/

structure Context.Typed (fields : Array Field) (x : Context) : Prop where
  placeholders : ∀ id k, x.placeholder? id = some k → OfType fields id k.type
  inputs : ∀ k id, x.inputs.get? k = some (.own id) → OfType fields id k.type
  outputs : ∀ k id, x.outputs.get? k = some (.own id) → OfType fields id k.type

namespace Context

variable {fields : Array Field} {s : Symbol} {x : Context}

theorem typed_of_enter (typed : s.Typed fields) {parent : Option (Handle × Context)} {ref : SymbolRef}
    {placement : Transform} {seed : Seed} (entered : enter parent ref s placement seed = .ok x) :
    x.Typed fields := by
  have declares := declares_of_enter entered
  have inputs : ∀ k id, x.inputs.get? k = some (.own id) → OfType fields id k.type := by
    intro k id hk
    obtain ⟨p, hp, rfl, hd⟩ := s.mem_of_default? (declares.inputs k id hk)
    exact typed.defaults p hp id hd
  refine ⟨fun id k hk => ?_, inputs, fun k id hk => inputs k id ?_⟩
  · obtain ⟨p, hp, rfl, rfl⟩ := declares.placeholders id k hk
    obtain ⟨f, hf, htype, _⟩ := typed.placeholders p hp
    exact ⟨f, hf, htype⟩
  · rwa [(enter_ok entered).2.2.2.2.1] at hk

theorem Typed.assign (hx : x.Typed fields) (typed : s.Typed fields) : (x.assign s).Typed fields := by
  refine ⟨hx.placeholders, hx.inputs, fun k id hk => ?_⟩
  rw [get?_assign, Option.or_eq_some_iff] at hk
  rcases hk with hk | ⟨_, hk⟩
  · obtain ⟨id', assigned, heq⟩ := Option.map_eq_some_iff.1 hk
    cases heq
    obtain ⟨v, hv, hvalue⟩ := List.exists_of_findSome?_eq_some assigned
    split at hvalue
    · next hkey =>
      cases hvalue
      exact hkey ▸ typed.assignments v (List.mem_reverse.1 hv)
    · cases hvalue
  · exact hx.outputs k id hk

end Context

namespace Arena

variable {own : Prop} {g : Grammar} {a : Arena} {h : Handle} {x : Context}

theorem Grown.typed (grown : a.Grown g) (built : g.Built own) :
    ∀ h x, a.get h = .ok x → x.Typed g.fields := by
  have typed := grown.forall_live (P := Context.Typed g.fields) built.closed
    (fun hs he _ => Context.typed_of_enter (built.symbol_typed hs) he)
    fun hs hx => hx.assign (built.symbol_typed hs)
  intro h x hx
  exact typed (h, x) ((mem_live_iff (grown.sane built.closed).numbered).2 hx)

variable {fields : Array Field} (typed : ∀ h x, a.get h = .ok x → x.Typed fields)

include typed

/-- Along a chain of bindings the type of the parameter stays the same. -/
theorem follow_typed {name : String} {key : ParamKey} {k : Nat} {b : Binding} {r : Handle × FieldId}
    (hb : ∀ id, b = .own id → OfType fields id key.type) (found : a.follow name key k h b = .ok r) :
    OfType fields r.2 key.type := by
  induction k generalizing h b with
  | zero =>
      cases b with
      | own id =>
          cases found
          exact hb id rfl
      | bridge parent => cases found
  | succ k ih =>
      cases b with
      | own id =>
          cases found
          exact hb id rfl
      | bridge parent =>
          unfold follow at found
          obtain ⟨x, hx, found⟩ := bind_ok_iff.1 found
          split at found
          · next b hout =>
            refine ih (fun id hid => ?_) found
            exact (typed parent x (lift_ok.1 hx)).outputs key id (hid ▸ hout)
          · cases found

/-- A placeholder stands for a field of its own type. -/
theorem resolve_typed (ground : a.Grounded) {name : String} {id : FieldId} {r : Handle × FieldId}
    (found : a.resolve name id h = .ok r) : ∃ t, OfType fields id t ∧ OfType fields r.2 t := by
  unfold resolve at found
  obtain ⟨⟨owner, key⟩, howner, found⟩ := bind_ok_iff.1 found
  obtain ⟨_, x, hx, hplaceholder⟩ :=
    (declaring_lands ground name id _ (Nat.lt_succ_self _)).2 _ howner
  obtain ⟨y, hy, found⟩ := bind_ok_iff.1 found
  cases hx.symm.trans (lift_ok.1 hy)
  split at found
  · next b hin =>
    exact ⟨key.type, (typed owner x hx).placeholders id key hplaceholder,
      follow_typed typed (fun i hi => (typed owner x hx).inputs key i (hi ▸ hin)) found⟩
  · cases found

end Arena

/-! ### Evaluation without coercions -/

/-- Evaluations that are stuck where a sample would have to be coerced. -/
abbrev Strict (μ : Type) := ExceptT EvalError (StateT μ Option)

instance : MonadLift (Eval μ) (Strict μ) := ⟨fun x m => some (x m)⟩

namespace World

def recordStrictlyWithin (w : World μ) (a : Arena) :
    (depth : Nat) → Handle → FieldId → Pos → Extent → Strict μ Record
  | 0, _, _, _, _ => throw (.fault .endlessEvaluation)
  | depth + 1, h, id, origin, extent => do
    let d ← w.dimensionality a h id
    let f ← w.grammar.field id
    let page ← a.page h f
    let key := RecordKey.across d id origin extent
    match ← modifyGet fun m => w.notebook.record? m page key with
    | some r => return r
    | none =>
      let sources ← a.sources h id f
      let inputs ← sources.mapM fun s =>
        recordStrictlyWithin w a depth s.1 s.2 key.origin key.extent
      let r ← (fun m => return (← w.computeStrictly a h key f.kind inputs, m) : Strict μ Record)
      modify fun m => w.notebook.noteRecord m page key r
      return r

def recordStrictly (w : World μ) (a : Arena) (h : Handle) (id : FieldId) (origin : Pos)
    (extent : Extent) : Strict μ Record :=
  w.recordStrictlyWithin a (w.depth a) h id origin extent

end World

theorem Strict.run_bind (x : Strict μ α) (f : α → Strict μ β) (m : μ) :
    (x >>= f).run m =
      match x.run m with
      | some (.ok a, m) => (f a).run m
      | some (.error e, m) => some (.error e, m)
      | none => none := by
  simp only [ExceptT.run, bind, ExceptT.bind, ExceptT.mk, StateT.bind]
  rcases x m with _ | ⟨_ | a, m'⟩ <;> rfl

def Ensured (P : μ → Prop) (R : α → Prop) (x : Eval μ α) : Prop :=
  ∀ m, P m → P (x.run m).2 ∧ ∀ v, (x.run m).1 = .ok v → R v

/-- Where `P` holds, the first evaluation is not stuck and comes to what the second one comes to. -/
structure Follows (P : μ → Prop) (R : α → Prop) (y : Strict μ α) (x : Eval μ α) : Prop where
  ensured : Ensured P R x
  run : ∀ m, P m → y.run m = some (x.run m)

section Rules

variable {P : μ → Prop} {Q R : α → Prop} {S : β → Prop} {x : Eval μ α} {y : Strict μ α}

namespace Ensured

theorem pure {v : α} (h : R v) : Ensured P R (Pure.pure v) := by
  refine fun m hm => ⟨hm, fun u hu => ?_⟩
  cases hu
  exact h

theorem mono (h : Ensured P Q x) (hQR : ∀ v, Q v → R v) : Ensured P R x :=
  fun m hm => ⟨(h m hm).1, fun v hv => hQR v ((h m hm).2 v hv)⟩

theorem lift (c : Except EvalError α) : Ensured P (fun v => c = .ok v) (liftM c) :=
  fun _ hm => ⟨hm, fun _ hv => hv⟩

theorem fault (c : Except Fault α) : Ensured P (fun v => c = .ok v) (liftM c) := by
  refine fun m hm => ⟨hm, fun v hv => ?_⟩
  cases c <;> cases hv
  rfl

theorem get : Ensured P P MonadState.get := by
  refine fun m hm => ⟨hm, fun v hv => ?_⟩
  cases hv
  exact hm

theorem modifyGet {f : μ → α × μ} (h : ∀ m, P m → P (f m).2 ∧ R (f m).1) :
    Ensured P R (MonadStateOf.modifyGet f) := by
  refine fun m hm => ⟨(h m hm).1, fun v hv => ?_⟩
  cases hv
  exact (h m hm).2

theorem modify {f : μ → μ} (h : ∀ m, P m → P (f m)) :
    Ensured P (fun _ => True) (modify f : Eval μ Unit) :=
  modifyGet fun m hm => ⟨h m hm, trivial⟩

theorem bind {f : α → Eval μ β} (h : Ensured P R x) (hf : ∀ v, R v → Ensured P S (f v)) :
    Ensured P S (x >>= f) := by
  intro m hm
  obtain ⟨kept, answers⟩ := h m hm
  rw [Eval.run_bind]
  rcases hx : x.run m with ⟨e | v, m'⟩
  · rw [hx] at kept
    exact ⟨kept, fun u hu => nomatch hu⟩
  · rw [hx] at kept answers
    exact hf v (answers v rfl) m' kept

theorem foldlM {f : β → α → Eval μ β} (xs : List α)
    (hf : ∀ b, ∀ a ∈ xs, Ensured P (fun _ => True) (f b a)) (b : β) :
    Ensured P (fun _ => True) (xs.foldlM f b) := by
  induction xs generalizing b with
  | nil => exact pure trivial
  | cons a xs ih =>
      rw [List.foldlM_cons]
      exact (hf b a List.mem_cons_self).bind fun b _ =>
        ih (fun b a ha => hf b a (List.mem_cons_of_mem _ ha)) b

end Ensured

namespace Follows

theorem pure {v : α} (h : R v) : Follows P R (Pure.pure v) (Pure.pure v) := ⟨.pure h, fun _ _ => rfl⟩

theorem mono (h : Follows P Q y x) (hQR : ∀ v, Q v → R v) : Follows P R y x :=
  ⟨h.ensured.mono hQR, h.run⟩

theorem lift (h : Ensured P R x) : Follows P R (liftM x) x := ⟨h, fun _ _ => rfl⟩

theorem except (c : Except EvalError α) : Follows P (fun v => c = .ok v) (liftM c) (liftM c) :=
  ⟨.lift c, fun _ _ => rfl⟩

theorem fault (c : Except Fault α) : Follows P (fun v => c = .ok v) (liftM c) (liftM c) := by
  refine ⟨.fault c, fun m _ => ?_⟩
  cases c <;> rfl

theorem modifyGet {f : μ → α × μ} (h : ∀ m, P m → P (f m).2 ∧ R (f m).1) :
    Follows P R (MonadStateOf.modifyGet f) (MonadStateOf.modifyGet f) :=
  ⟨.modifyGet h, fun _ _ => rfl⟩

theorem modify {f : μ → μ} (h : ∀ m, P m → P (f m)) :
    Follows P (fun _ => True) (modify f : Strict μ Unit) (modify f : Eval μ Unit) :=
  ⟨.modify h, fun _ _ => rfl⟩

theorem bind {f : α → Strict μ β} {g : α → Eval μ β} (h : Follows P R y x)
    (hf : ∀ v, R v → Follows P S (f v) (g v)) : Follows P S (y >>= f) (x >>= g) := by
  refine ⟨h.ensured.bind fun v hv => (hf v hv).ensured, fun m hm => ?_⟩
  obtain ⟨kept, answers⟩ := h.ensured m hm
  rw [Strict.run_bind, Eval.run_bind, h.run m hm]
  rcases hx : x.run m with ⟨e | v, m'⟩
  · rfl
  · rw [hx] at kept answers
    exact (hf v (answers v rfl)).run m' kept

theorem mapM {T : α → β → Prop} {f : α → Strict μ β} {g : α → Eval μ β} (xs : List α)
    (hf : ∀ a ∈ xs, Follows P (T a) (f a) (g a)) :
    Follows P (fun ys => List.Forall₂ T xs ys) (xs.mapM f) (xs.mapM g) := by
  induction xs with
  | nil => exact pure .nil
  | cons a xs ih =>
      rw [List.mapM_cons, List.mapM_cons]
      exact (hf a List.mem_cons_self).bind fun b hb =>
        (ih fun a ha => hf a (List.mem_cons_of_mem _ ha)).bind fun bs hbs => pure (.cons hb hbs)

end Follows

end Rules

/-! ### Records of the types of their fields -/

def Record.Suits (r : Record) (g : Grammar) (id : FieldId) (extent : Extent) : Prop :=
  ∃ f, g.field id = .ok f ∧ r.HasType f.type extent

def Grammar.typing (g : Grammar) : Facts where
  dimension _ _ _ := True
  record _ key r := r.Suits g key.field key.extent

namespace World

variable {w : World μ} {a : Arena} {h : Handle} {holds : Facts → Nat → μ → Prop} {n : Nat}

/-- Finding out whether a field varies leaves the remembered records alone. -/
theorem dimensionalityWithin_keeps (honest : w.notebook.Honest holds) (k : Nat) (h : Handle)
    (id : FieldId) : Ensured (holds w.grammar.typing n) (fun _ => True)
      (w.dimensionalityWithin a k h id) := by
  induction k generalizing h id with
  | zero => exact fun m hm => ⟨hm, fun _ _ => trivial⟩
  | succ k ih =>
      refine (Ensured.fault _).bind fun f hf => (Ensured.lift _).bind fun page hp =>
        Ensured.get.bind fun m hm => ?_
      split
      · exact .pure trivial
      · refine (Ensured.lift _).bind fun own _ => (Ensured.lift _).bind fun sources _ => ?_
        refine (Ensured.foldlM sources (fun d s _ => ?_) own).bind fun d _ =>
          (Ensured.modify fun m hm => honest.noteDimension hm trivial).bind fun _ _ => .pure trivial
        exact (ih s.1 s.2).bind fun _ _ => .pure trivial

structure Typed (w : World μ) (a : Arena) : Prop where
  fields : ∀ id f, w.grammar.field id = .ok f → f.kind.HasType w.grammar.fields f.type
  provider : w.provider.Honours w.grammar
  ground : a.Grounded
  contexts : ∀ h x, a.get h = .ok x → x.Typed w.grammar.fields

/-- Records of the sources of a field are put together without coercion. -/
theorem Typed.compute (typed : w.Typed a) {key : RecordKey} {f : Field}
    (hf : w.grammar.field key.field = .ok f) {sources : List (Handle × FieldId)}
    (hs : a.sources h key.field f = .ok sources) {rs : List Record}
    (hrs : List.Forall₂ (fun s r => r.Suits w.grammar s.2 key.extent) sources rs) :
    w.computeStrictly a h key f.kind rs = some (w.compute a h key f.kind rs) ∧
      ∀ r, w.compute a h key f.kind rs = .ok r → r.HasType f.type key.extent := by
  have ofType : ∀ {id : FieldId} {f : Field}, w.grammar.field id = .ok f →
      OfType w.grammar.fields id f.type := fun hf => ⟨_, Fault.lookup_eq_ok_iff.1 hf, rfl⟩
  refine computeStrictly_typed typed.provider hf (typed.fields _ f hf) (fun composite => ?_)
    fun name hkind => ?_
  · have inputs : sources = f.kind.inputs.map (h, ·) := by
      rw [Arena.sources.eq_def] at hs
      split at hs
      · next hkind => exact absurd (by rw [hkind]; rfl) composite
      · exact (Except.ok.inj hs).symm
    rw [inputs, List.forall₂_map_left_iff] at hrs
    refine hrs.imp ?_
    rintro i r ⟨f', hf', hr⟩
    exact ⟨f'.type, ofType hf', hr⟩
  · rw [Arena.sources.eq_def, hkind] at hs
    obtain ⟨s, resolved, hs⟩ := bind_ok_iff.1 hs
    cases hs
    obtain _ | ⟨⟨f', hf', hr⟩, _ | _⟩ := hrs
    obtain ⟨t, hid, hsource⟩ := Arena.resolve_typed typed.contexts typed.ground resolved
    refine ⟨_, rfl, ?_⟩
    rwa [(ofType hf).unique hid, ← (ofType hf').unique hsource]

/-- Where the remembered records are of the types of their fields, evaluation is never stuck for want of
a coercion, and the records it works out and remembers are of these types again. -/
theorem recordStrictlyWithin_follows (honest : w.notebook.Honest holds) (typed : w.Typed a) (k : Nat)
    (h : Handle) (id : FieldId) (origin : Pos) (extent : Extent) :
    Follows (holds w.grammar.typing n) (fun r => r.Suits w.grammar id extent)
      (w.recordStrictlyWithin a k h id origin extent) (w.recordWithin a k h id origin extent) := by
  induction k generalizing h id origin extent with
  | zero => exact ⟨fun m hm => ⟨hm, fun v hv => nomatch hv⟩, fun _ _ => rfl⟩
  | succ k ih =>
      unfold recordStrictlyWithin recordWithin
      refine .bind (.lift (dimensionalityWithin_keeps honest _ h id)) fun d _ => ?_
      -- A field that does not vary has a single sample, whatever the extent.
      suffices Follows (holds w.grammar.typing n)
          (Record.Suits · w.grammar id (RecordKey.across d id origin extent).extent) _ _ from
        this.mono fun r ⟨f, hf, hr⟩ => ⟨f, hf, by
          cases d with
          | constant => exact hr.of_point extent
          | varying => exact hr⟩
      generalize hkey : RecordKey.across d id origin extent = key
      obtain rfl : key.field = id := by rw [← hkey, RecordKey.across_field]
      refine .bind (.fault _) fun f hf => .bind (.except _) fun page hp => ?_
      refine .bind (.modifyGet (R := fun o => ∀ r, o = some r → r.Suits w.grammar key.field key.extent)
        fun m hm => ⟨honest.look hm page key, fun r hr => honest.record hm hr⟩) fun o ho => ?_
      cases o with
      | some r => exact .pure (ho r rfl)
      | none =>
          refine .bind (.except _) fun sources hs => .bind (.mapM sources fun s _ => ih s.1 s.2 _ _)
            fun rs hrs => ?_
          obtain ⟨strict, result⟩ := typed.compute hf hs hrs
          have computed : Follows (holds w.grammar.typing n) (fun r => r.HasType f.type key.extent)
            (fun m => return (← w.computeStrictly a h key f.kind rs, m) : Strict μ Record)
            (liftM (w.compute a h key f.kind rs)) := by
            rw [strict]
            exact (Follows.except _).mono result
          exact .bind computed fun r hr => .bind (.modify fun m hm =>
            honest.noteRecord hm ⟨f, hf, hr⟩) fun _ _ => .pure ⟨f, hf, hr⟩

end World

/-! ### Type safety -/

/-- A field of the type is called for: a condition is to be a truth value, the place of a node, an area
or a fill a vector, and what a fill puts there a block. -/
inductive Grammar.Demands (g : Grammar) : FieldId → ValueType → Prop
  | condition {ref : SymbolRef} {s : Symbol} {id : FieldId} (symbol : g.symbol ref = .ok s)
      (mem : id ∈ s.conditions) : Demands g id .bool
  | node {k : ComponentId} {c : Component} {n : Node} (component : g.component k = .ok c)
      (mem : n ∈ c.nodes) : Demands g n.position .float3
  | areaStart {k : ComponentId} {c : Component} {a : AreaSpec} (component : g.component k = .ok c)
      (mem : a ∈ c.areas) : Demands g a.start .float3
  | areaStop {k : ComponentId} {c : Component} {a : AreaSpec} (component : g.component k = .ok c)
      (mem : a ∈ c.areas) : Demands g a.stop .float3
  | block {k : ComponentId} {c : Component} {f : Fill} (component : g.component k = .ok c)
      (mem : f ∈ c.fills) : Demands g f.block .block
  | corner {k : ComponentId} {c : Component} {f : Fill} {id : FieldId}
      (component : g.component k = .ok c) (mem : f ∈ c.fills)
      (place : f.start = some id ∨ f.stop = some id) : Demands g id .float3

/-- What is called for is there. -/
theorem Grammar.Demands.ofType {own : Prop} {g : Grammar} (built : g.Built own) {id : FieldId}
    {t : ValueType} (h : g.Demands id t) : OfType g.fields id t := by
  cases h with
  | condition symbol mem => exact (built.symbol_typed symbol).conditions id mem
  | node component mem => exact (built.component_typed component).positions _ mem
  | areaStart component mem => exact ((built.component_typed component).areas _ mem).1
  | areaStop component mem => exact ((built.component_typed component).areas _ mem).2
  | block component mem => exact (built.component_typed component).blocks _ mem
  | corner component mem place => exact (built.component_typed component).corners _ mem id place

/-- What can come of an arena and of a memory when contexts hand on what they assign at any time. -/
inductive Course (w : World Memory) : Arena → Memory → Prop
  | start (draws : Nat → UInt32) (capacity : Nat) (policy : EvictionPolicy) :
      Course w .empty (.ofCache (.create draws capacity policy))
  | create {a b : Arena} {m : Memory} {parent : Option Handle} {ref : SymbolRef}
      {placement : Transform} {seed : Seed} {h : Handle} (course : Course w a m)
      (run : a.create w.grammar parent ref placement seed = .ok (h, b)) :
      Course w b (w.notebook.addPage m)
  | assign {a : Arena} {m : Memory} {h : Handle} {x : Context} {s : Symbol} (course : Course w a m)
      (live : a.get h = .ok x) (symbol : w.grammar.symbol x.symbol = .ok s) :
      Course w (a.assign h s) m
  | truncate {a : Arena} {m : Memory} (course : Course w a m) (n : Nat) :
      Course w (a.truncate n) (w.notebook.truncate m n)
  | dimensionality {a : Arena} {m : Memory} (course : Course w a m) (h : Handle) (id : FieldId) :
      Course w a ((w.dimensionality a h id).run m).2
  | sample {a : Arena} {m : Memory} (course : Course w a m) (h : Handle) (id : FieldId) (q : Pos) :
      Course w a ((w.sample a h id q).run m).2
  | subchunkRecord {a : Arena} {m : Memory} (course : Course w a m) (h : Handle) (id : FieldId)
      (q : Pos) : Course w a ((w.subchunkRecord a h id q).run m).2
  | clearCache {a : Arena} {m : Memory} (course : Course w a m) :
      Course w a { m with cache := m.cache.clear }
  | renew {a : Arena} {m : Memory} (course : Course w a m) : Course w .empty (.ofCache m.cache)

theorem Session.course {w : World Memory} {a : Arena} {m : Memory} (session : Session w a m) :
    Course w a m := by
  induction session with
  | start draws capacity policy => exact .start draws capacity policy
  | create _ run ih => exact ih.create run
  | assign _ live symbol _ ih => exact ih.assign live symbol
  | truncate _ n ih => exact ih.truncate n
  | dimensionality _ h id ih => exact ih.dimensionality h id
  | sample _ h id q ih => exact ih.sample h id q
  | subchunkRecord _ h id q ih => exact ih.subchunkRecord h id q
  | clearCache _ ih => exact ih.clearCache
  | renew _ ih => exact ih.renew

/-- A sample is the one cell of a record. -/
theorem World.sample_ok_iff {w : World μ} {a : Arena} {h : Handle} {id : FieldId} {q : Pos} {m : μ}
    {s : Sample} : ((w.sample a h id q).run m).1 = .ok s ↔
      ∃ r, ((w.record a h id q .point).run m).1 = .ok r ∧ r.get? 0 = some s := by
  rw [World.sample, Eval.run_bind]
  rcases (w.record a h id q .point).run m with ⟨e | r, m'⟩
  · simp
  · simp only [Except.ok.injEq, exists_eq_left']
    cases r.get? 0 with
    | none => constructor <;> (intro h; cases h)
    | some s' => constructor <;> (intro h; cases h; rfl)

namespace Course

variable {own : Prop} {g : Grammar} {p : Provider} {a : Arena} {m : Memory}

theorem grown {w : World Memory} (course : Course w a m) : a.Grown w.grammar := by
  induction course with
  | start | renew => exact .empty
  | create _ run ih => exact ih.create run
  | assign _ live symbol ih => exact ih.assign live symbol
  | truncate _ n ih => exact ih.truncate n
  | dimensionality _ _ _ ih | sample _ _ _ _ ih | subchunkRecord _ _ _ _ ih => exact ih
  | clearCache _ ih => exact ih

theorem typed (built : g.Built own) (honours : p.Honours g) (course : Course (.remembering g p) a m) :
    (World.remembering g p).Typed a where
  fields _ _ hf := built.field_typed hf
  provider := honours
  ground := (course.grown.sane built.closed).ground
  contexts := course.grown.typed built

/-- Whatever is remembered has the type of its field. -/
theorem holds (built : g.Built own) (honours : p.Honours g)
    (course : Course (.remembering g p) a m) : m.Holds g.typing a.size := by
  have honest := Memory.honest_notebook
  have records : ∀ {a m} h id origin extent, Course (.remembering g p) a m → m.Holds g.typing a.size →
      (((World.remembering g p).record a h id origin extent).run m).2.Holds g.typing a.size :=
    fun h id origin extent course held => ((World.recordStrictlyWithin_follows honest
      (course.typed built honours) _ h id origin extent).ensured _ held).1
  induction course with
  | start draws capacity policy => exact Memory.holds_ofCache (Cache.holds_create _ _ _)
  | create _ run ih =>
      obtain ⟨x, _, hpush⟩ := Arena.create_ok run
      have pushed := honest.addPage ih
      rwa [← Arena.size_push, hpush] at pushed
  | assign _ live symbol ih =>
      rw [Arena.assign, Arena.size_modify]
      exact ih
  | truncate _ n ih =>
      rw [Arena.size_truncate]
      exact honest.truncate ih n
  | dimensionality _ h id ih => exact (World.dimensionalityWithin_keeps honest _ h id _ ih).1
  | sample course h id q ih =>
      rw [Session.memory_sample]
      exact records h id q .point course ih
  | subchunkRecord course h id q ih => exact records h id q.subchunk .subchunk course ih
  | clearCache _ ih => exact ⟨ih.size, ih.tables, Cache.holds_clear _⟩
  | renew _ ih => exact Memory.holds_ofCache ih.cache

/-- The evaluation of a released grammar is typed, whatever contexts have been entered, whatever they
have handed on and whatever is remembered. Samples have the type of their field, no operand of a
composite is ever coerced but for the spread of a scalar over a vector, and what is read for conditions,
places and fills has the type that is called for. -/
theorem evaluation_is_typed (built : g.Built own) (honours : p.Honours g)
    (course : Course (.remembering g p) a m) {id : FieldId} {f : Field} (hf : g.field id = .ok f)
    (h : Handle) :
    let w := World.remembering g p
    (∀ q s, ((w.sample a h id q).run m).1 = .ok s → s.type = f.type) ∧
    (∀ q r, ((w.subchunkRecord a h id q).run m).1 = .ok r →
      ∀ i < subchunkVolume, ∃ s, r.get? i = some s ∧ s.type = f.type) ∧
    (∀ origin extent, (w.recordStrictly a h id origin extent).run m =
      some ((w.record a h id origin extent).run m)) ∧
    ∀ t, g.Demands id t → f.type = t := by
  intro w
  have held := course.holds built honours
  have follows := fun origin extent => World.recordStrictlyWithin_follows (n := a.size)
    Memory.honest_notebook (course.typed built honours) (w.depth a) h id origin extent
  have typed : ∀ origin extent r, ((w.record a h id origin extent).run m).1 = .ok r →
      r.HasType f.type extent := by
    intro origin extent r hr
    obtain ⟨f', hf', typed⟩ := ((follows origin extent).ensured m held).2 r hr
    cases hf.symm.trans hf'
    exact typed
  refine ⟨fun q s hs => ?_, fun q r hr i hi => (typed _ _ r hr).get? hi,
    fun origin extent => (follows origin extent).run m held, fun t ht => ?_⟩
  · obtain ⟨r, hr, hs⟩ := World.sample_ok_iff.1 hs
    obtain ⟨s', hs', ht⟩ := (typed q .point r hr).get? Nat.zero_lt_one
    cases hs.symm.trans hs'
    exact ht
  · exact OfType.unique ⟨f, Fault.lookup_eq_ok_iff.1 hf, rfl⟩ (ht.ofType built)

def hill : Draft :=
  .ofStatements
    [.component "hill", .external 0 .float, .constant (.float3 ⟨0, 1, 0⟩),
      .param (.component 0) "height" .float (some 0), .arithmetic .mul 2 1,
      .node 0 "peak" 3 (.facing .posZ .posY) none]

theorem built_hill : hill.compile.Built True :=
  Draft.built_ofStatements (by decide +kernel) (by decide +kernel)

theorem honours_hill : Provider.none.Honours hill.compile := by
  have scalar : hill.compile.fields.all (fun f => match f.kind with
      | .external _ => f.type == .float
      | _ => true) = true := by decide +kernel
  intro id f e hf hkind q s hs
  cases hs
  have := Array.all_eq_true_iff_forall_mem.1 scalar f
    (Array.mem_of_getElem? (Fault.lookup_eq_ok_iff.1 hf))
  rw [hkind] at this
  exact (beq_iff_eq.1 this).symm

theorem evaluation_is_typed_hill :
    let w := World.remembering hill.compile .none
    ∃ h a m f s, Arena.empty.create hill.compile none (.component 0) .identity 7 = .ok (h, a) ∧
      hill.compile.Built True ∧ Provider.none.Honours hill.compile ∧ Course w a m ∧
      hill.compile.field 3 = .ok f ∧ hill.compile.Demands 3 .float3 ∧
      ((w.sample a h 3 .zero).run m).1 = .ok s ∧ s.type = f.type ∧ f.type = .float3 := by
  intro w
  have peak : (hill.compile.component 0).map (fun c => c.nodes.toList.map (·.position)) = .ok [3] := by
    decide +kernel
  have sampled : (Arena.empty.create hill.compile none (.component 0) .identity 7 >>= fun e =>
      (w.forgetful.recordIn e.2 (w.depth e.2) e.1 3 .zero .point).map fun r =>
        (r.get? 0).map Sample.type) = .ok (some .float3) := by decide +kernel
  obtain ⟨⟨h, a⟩, created, sampled⟩ := bind_ok_iff.1 sampled
  let begun := w.notebook.addPage (.ofCache (.new 100 .standard))
  have session : Session w a ((w.sample a h 2 .zero).run begun).2 :=
    (Session.start _ 100 .standard |>.create created).sample h 2 .zero
  have demanded : hill.compile.Demands 3 .float3 := by
    cases hc : hill.compile.component 0 with
    | error e =>
        rw [hc] at peak
        cases peak
    | ok c =>
        rw [hc] at peak
        obtain ⟨n, hn, heq⟩ := List.map_eq_singleton_iff.1 (Except.ok.inj peak)
        exact heq ▸ .node hc (Array.mem_toList_iff.1 (hn ▸ List.mem_singleton_self n))
  obtain ⟨f, hf, htype⟩ := demanded.ofType built_hill
  have hf : hill.compile.field 3 = .ok f := Fault.lookup_eq_ok_iff.2 hf
  obtain ⟨s, hs⟩ : ∃ s,
      ((w.sample a h 3 .zero).run ((w.sample a h 2 .zero).run begun).2).1 = .ok s := by
    have known := (World.run_record Memory.honest_notebook built_hill.marked h 3 .zero .point
      (session.holds built_hill)).1
    dsimp only at sampled
    cases hr : w.forgetful.recordIn a (w.depth a) h 3 .zero .point with
    | error e =>
        rw [hr] at sampled
        cases sampled
    | ok r =>
        rw [hr] at sampled
        obtain ⟨s, hs, _⟩ := Option.map_eq_some_iff.1 (Except.ok.inj sampled)
        exact ⟨s, World.sample_ok_iff.2 ⟨r, known.trans hr, hs⟩⟩
  refine ⟨h, a, _, f, s, created, built_hill, honours_hill, session.course, hf, demanded, hs, ?_, htype⟩
  exact (evaluation_is_typed built_hill honours_hill session.course hf h).1 .zero s hs

end Course

end VoxelGrammar
