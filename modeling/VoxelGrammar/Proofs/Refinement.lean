import VoxelGrammar.Proofs.Denotation
import VoxelGrammar.Proofs.Growth

/-!
Evaluation with memory answers the values of fields. Contexts may be entered and dropped, hand on what
they assign as long as nothing has been entered below them, and be evaluated in, in any order and
with any outcome; the cache may drop what it likes and may outlive the arena. Whatever is remembered
then, a sample is the value of its field, and the record of a subchunk holds the values of its cells.
-/

namespace VoxelGrammar

variable {own : Prop} {g : Grammar} {a b : Arena} {h : Handle}

/-! ### Arenas that cannot be told apart -/

structure Arena.Indistinct (a b : Arena) : Prop where
  live : ∀ h, b.isLive h = a.isLive h
  page : ∀ h f, b.page h f = a.page h f
  sources : ∀ h id f, b.sources h id f = a.sources h id f
  compute : ∀ (w : World Unit) h key kind inputs,
    w.compute b h key kind inputs = w.compute a h key kind inputs

namespace Arena.Indistinct

variable (same : a.Indistinct b) (w : World Unit)

include same

theorem dimensionIn (k : Nat) : w.dimensionIn b k = w.dimensionIn a k := by
  induction k with
  | zero => rfl
  | succ k ih =>
      funext h id
      simp only [World.dimensionIn, World.dimensionStep, same.page, same.sources, ih]

theorem recordStep (sub : Handle → FieldId → Pos → Extent → Except EvalError Record) :
    w.recordStep b sub = w.recordStep a sub := by
  funext h key
  simp only [World.recordStep, same.page, same.sources, same.compute]

theorem recordIn (k : Nat) : w.recordIn b k = w.recordIn a k := by
  induction k with
  | zero => rfl
  | succ k ih =>
      funext h id origin extent
      simp only [World.recordIn, same.dimensionIn, ih, same.recordStep]

omit w in
theorem facts_imply {μ : Type} (w : World μ) (n : Nat) : (w.facts a).Imply n (w.facts b) where
  dimension := by
    intro page id d _ hd
    cases page with
    | shared => exact hd
    | context slot =>
        intro h x hx hs
        obtain ⟨y, hy⟩ := Arena.get_of_isLive ((same.live h).symm.trans (Arena.isLive_of_get hx))
        simp only [same.dimensionIn]
        exact hd h y hy hs
  record := by
    intro page key r _ hr
    cases page with
    | shared => exact hr
    | context slot =>
        intro h x hx hs
        obtain ⟨y, hy⟩ := Arena.get_of_isLive ((same.live h).symm.trans (Arena.isLive_of_get hx))
        simp only [same.recordIn, same.recordStep]
        exact hr h y hy hs

end Arena.Indistinct

/-! ### Handing on before anything is entered below -/

namespace Arena

section Childless

variable (numbered : a.Numbered) (live : a.isLive h = true) (s : Symbol)

include live in
theorem isLive_assign (h' : Handle) : (a.assign h s).isLive h' = a.isLive h' := by
  rw [assign, modify, if_pos live]
  simp only [isLive, Array.size_modify]

include numbered live

/-- Only the context itself changes when it hands on what it assigns. -/
theorem get_assign (h' : Handle) :
    Agree (fun c c' => c' = c ∨ h' = h ∧ c' = c.assign s) (a.get h') ((a.assign h s).get h') := by
  have numbered' : (a.assign h s).Numbered := numbered_modify numbered h _
  rcases get_eq a h' with hx | ⟨x, hx⟩ <;> rw [hx]
  · rcases get_eq (a.assign h s) h' with hy | ⟨y, hy⟩ <;> rw [hy]
    · rfl
    · have live' := isLive_of_get hy
      rw [isLive_assign live] at live'
      obtain ⟨x, hx'⟩ := get_of_isLive live'
      rw [hx] at hx'
      cases hx'
  · have found : (a.assign h s).live[h'.slot]? =
        some (if h.slot = h'.slot then (h', x.assign s) else (h', x)) := by
      rw [live_assign live, List.getElem?_modify, (get_eq_ok_iff numbered).1 hx]
      split <;> simp [*]
    by_cases hs : h.slot = h'.slot
    · obtain ⟨y, hy⟩ := get_of_isLive live
      rw [if_pos hs] at found
      rw [(get_eq_ok_iff numbered').2 found]
      exact .inr ⟨(eq_of_slot hx hy hs).symm, rfl⟩
    · rw [if_neg hs] at found
      rw [(get_eq_ok_iff numbered').2 found]
      exact .inl rfl

theorem declaring_assign (name : String) (id : FieldId) (k : Nat) (h' : Handle) :
    (a.assign h s).declaring name id k h' = a.declaring name id k h' := by
  induction k generalizing h' with
  | zero => rfl
  | succ k ih =>
      refine (Agree.eq (.bind (get_assign numbered live s h').lift fun c c' _ hc => .of_eq ?_)).symm
      obtain rfl | ⟨_, rfl⟩ := hc
      · simp only [ih]
      · simp only [Context.placeholder?, Context.assign, ih]

variable (bridged : ∀ e ∈ a.live, e.2.Bridged) (childless : ∀ e ∈ a.live, e.2.parent ≠ some h)

include bridged childless

/-- No binding leads to a context below which nothing has been entered. -/
theorem follow_assign (name : String) (key : ParamKey) (k : Nat) (h' : Handle) {v : Binding}
    (hv : v ≠ .bridge h) :
    (a.assign h s).follow name key k h' v = a.follow name key k h' v := by
  induction k generalizing h' v with
  | zero => cases v <;> rfl
  | succ k ih =>
      cases v with
      | own id => rfl
      | bridge parent =>
          refine (Agree.eq (.bind (get_assign numbered live s parent).lift
            fun c c' hc related => .of_eq ?_)).symm
          have hne : parent ≠ h := fun heq => hv (heq ▸ rfl)
          obtain rfl : c' = c := related.resolve_right fun h => hne h.1
          cases hout : c'.outputs.get? key with
          | none => rfl
          | some v =>
              obtain ⟨e, he, rfl⟩ := Bindings.mem_of_get? hout
              have mem := (mem_live_iff numbered).2 (lift_ok.1 hc)
              refine (ih parent fun heq => ?_).symm
              exact childless _ mem (bridged _ mem e (List.mem_append_right _ he) h heq)

theorem resolve_assign (name : String) (id : FieldId) (h' : Handle) :
    (a.assign h s).resolve name id h' = a.resolve name id h' := by
  unfold resolve
  rw [declaring_assign numbered live]
  refine congrArg _ (funext fun owner => ?_)
  refine (Agree.eq (.bind (get_assign numbered live s owner.1).lift
    fun c c' hc related => .of_eq ?_)).symm
  have inputs : c'.inputs = c.inputs := by
    obtain rfl | ⟨_, rfl⟩ := related <;> rfl
  rw [inputs]
  cases hin : c.inputs.get? owner.2 with
  | none => rfl
  | some v =>
      obtain ⟨e, he, rfl⟩ := Bindings.mem_of_get? hin
      have mem := (mem_live_iff numbered).2 (lift_ok.1 hc)
      refine (follow_assign numbered live s bridged childless _ _ _ _ fun heq => ?_).symm
      exact childless _ mem (bridged _ mem e (List.mem_append_left _ he) h heq)

/-- Handing on assignments changes no meaning anywhere as long as nothing has been entered below. -/
theorem indistinct_assign : a.Indistinct (a.assign h s) where
  live := isLive_assign live s
  page := by
    intro h' f
    unfold page
    split
    · exact (Agree.eq (.bind (get_assign numbered live s h').lift fun _ _ _ _ => .of_eq rfl)).symm
    · rfl
  sources := by
    intro h' id f
    rw [sources.eq_def, sources.eq_def]
    simp only [resolve_assign numbered live s bridged childless]
  compute := by
    intro w h' key kind inputs
    have get := (get_assign numbered live s h').lift
    cases kind with
    | localPosition | contextRandom _ =>
        refine (Agree.eq (get.bind fun c c' _ hc => .of_eq ?_)).symm
        obtain rfl | ⟨_, rfl⟩ := hc <;> rfl
    | param _ => rcases inputs with _ | ⟨r, _ | ⟨s, rs⟩⟩ <;> rfl
    | _ => rfl

end Childless

end Arena

/-! ### Sessions -/

/-- What can come of an arena and of a memory: contexts are entered, hand on what they assign before
anything is entered below them, and are dropped; fields are evaluated in any of them, whatever comes
of it; the cache is emptied, or put to use with a new arena. -/
inductive Session (w : World Memory) : Arena → Memory → Prop
  | start (draws : Nat → UInt32) (capacity : Nat) (policy : EvictionPolicy) :
      Session w .empty (.ofCache (.create draws capacity policy))
  | create {a b : Arena} {m : Memory} {parent : Option Handle} {ref : SymbolRef}
      {placement : Transform} {seed : Seed} {h : Handle} (session : Session w a m)
      (run : a.create w.grammar parent ref placement seed = .ok (h, b)) :
      Session w b (w.notebook.addPage m)
  | assign {a : Arena} {m : Memory} {h : Handle} {x : Context} {s : Symbol} (session : Session w a m)
      (live : a.get h = .ok x) (symbol : w.grammar.symbol x.symbol = .ok s)
      (childless : ∀ e ∈ a.live, e.2.parent ≠ some h) : Session w (a.assign h s) m
  | truncate {a : Arena} {m : Memory} (session : Session w a m) (n : Nat) :
      Session w (a.truncate n) (w.notebook.truncate m n)
  | dimensionality {a : Arena} {m : Memory} (session : Session w a m) (h : Handle) (id : FieldId) :
      Session w a ((w.dimensionality a h id).run m).2
  | sample {a : Arena} {m : Memory} (session : Session w a m) (h : Handle) (id : FieldId) (q : Pos) :
      Session w a ((w.sample a h id q).run m).2
  | subchunkRecord {a : Arena} {m : Memory} (session : Session w a m) (h : Handle) (id : FieldId)
      (q : Pos) : Session w a ((w.subchunkRecord a h id q).run m).2
  | clearCache {a : Arena} {m : Memory} (session : Session w a m) :
      Session w a { m with cache := m.cache.clear }
  | renew {a : Arena} {m : Memory} (session : Session w a m) : Session w .empty (.ofCache m.cache)

namespace Session

variable {w : World Memory} {p : Provider} {m : Memory} {id : FieldId}

theorem grown (session : Session w a m) : a.Grown w.grammar := by
  induction session with
  | start | renew => exact .empty
  | create _ run ih => exact ih.create run
  | assign _ live symbol _ ih => exact ih.assign live symbol
  | truncate _ n ih => exact ih.truncate n
  | dimensionality _ _ _ ih | sample _ _ _ _ ih | subchunkRecord _ _ _ _ ih | clearCache _ ih => exact ih

/-- A sample is read off a record and leaves what that leaves. -/
theorem memory_sample (w : World Memory) (a : Arena) (h : Handle) (id : FieldId) (q : Pos)
    (m : Memory) : ((w.sample a h id q).run m).2 = ((w.record a h id q .point).run m).2 := by
  unfold World.sample
  rw [Eval.run_bind]
  rcases (w.record a h id q .point).run m with ⟨e | r, m'⟩
  · rfl
  · dsimp only
    cases r.get? 0 <;> rfl

/-- Whatever is remembered is true. -/
theorem holds (built : g.Built own) (session : Session (.remembering g p) a m) :
    m.Holds ((World.remembering g p).facts a) a.size := by
  have honest := Memory.honest_notebook
  have sane : ∀ {a m}, Session (.remembering g p) a m → a.Sane g :=
    fun session => session.grown.sane built.closed
  induction session with
  | start draws capacity policy => exact Memory.holds_ofCache (Cache.holds_create _ _ _)
  | create session run ih =>
      obtain ⟨x, hx, hpush⟩ := Arena.create_ok run
      have pushed := honest.addPage (honest.imply ih
        (World.facts_push (sane session).numbered (sane session).ground x))
      rw [hpush] at pushed
      rw [← congrArg (fun r => r.2.size) hpush, Arena.size_push]
      exact pushed
  | @assign a m h x s session live symbol childless ih =>
      have same := Arena.indistinct_assign (sane session).numbered (Arena.isLive_of_get live) s
        (session.grown.bridged built.closed) childless
      rw [Arena.assign, Arena.size_modify]
      exact honest.imply ih (same.facts_imply _ _)
  | truncate session n ih =>
      rw [Arena.size_truncate]
      exact honest.imply (honest.truncate ih n)
        (World.facts_truncate (sane session).numbered (sane session).ground n)
  | dimensionality _ h id ih => exact (World.run_dimensionality honest built.marked h id ih).2
  | sample _ h id q ih =>
      rw [memory_sample]
      exact (World.run_record honest built.marked h id q .point ih).2
  | subchunkRecord _ h id q ih =>
      exact (World.run_record honest built.marked h id q.subchunk .subchunk ih).2
  | clearCache _ ih => exact ⟨ih.size, ih.tables, Cache.holds_clear _⟩
  | renew _ ih => exact Memory.holds_ofCache ih.cache

/-- In the course of a session evaluation answers what the recursion over the kinds of fields comes
to, where this comes to an end: a value, or the reason why there is none. -/
theorem answers_denotation (built : g.Built own) (total : p.Total) (steady : p.Steady)
    (session : Session (.remembering g p) a m) (live : a.isLive h = true)
    (known : id < g.fields.size) (q : Pos) :
    let w := World.remembering g p
    (∀ r, w.Denotes a h id q r → ((w.sample a h id q).run m).1 = r) ∧
      ∀ i < subchunkVolume, ∀ r, w.Denotes a h id (q.subchunk + Pos.ofCell i) r →
        ((w.subchunkRecord a h id q).run m).1.map (·.get? i) = r.map some := by
  intro w
  have sane : a.Sane g := session.grown.sane built.closed
  have lives : Lives a.live h := by
    obtain ⟨x, hx⟩ := Arena.get_of_isLive live
    exact ⟨x, (Arena.mem_live_iff sane.numbered).2 hx⟩
  have record := World.record_denotes (w := w) built.closed total sane Memory.honest_notebook
    built.marked steady (session.holds built) lives known
  refine ⟨fun r hr => ?_, fun i hi r hr => ?_⟩
  · have agrees := record q .point Nat.zero_lt_one hr
    unfold World.sample
    rw [Eval.run_bind]
    revert agrees
    rcases (w.record a h id q .point).run m with ⟨e | s, m'⟩
    · exact fun agrees => (agrees.error_iff.1 rfl).symm
    · intro agrees
      obtain ⟨v, rfl, hv⟩ := agrees.ok_left
      dsimp only
      rw [hv]
      rfl
  · have agrees := record q.subchunk .subchunk hi hr
    revert agrees
    show _ → (((w.record a h id q.subchunk .subchunk).run m).1.map _ = _)
    rcases ((w.record a h id q.subchunk .subchunk).run m).1 with e | s
    · intro agrees
      rw [agrees.error_iff.1 rfl]
      rfl
    · intro agrees
      obtain ⟨v, rfl, hv⟩ := agrees.ok_left
      exact congrArg Except.ok hv

theorem answers_denotation_redeclared :
    let w := World.remembering (redeclared 0).compile .none
    let a := (Arena.empty.push (redeclaring 0)).2
    let begun := w.notebook.addPage (.ofCache (.new 100 .standard))
    let m := ((w.sample a ⟨0, 0⟩ 2 .zero).run begun).2
    w.grammar.Built True ∧ Provider.none.Total ∧ Provider.none.Steady ∧ Session w a m ∧
      a.isLive ⟨0, 0⟩ = true ∧ 1 < w.grammar.fields.size ∧
        w.Denotes a ⟨0, 0⟩ 1 .zero (.ok (.float 0)) ∧
        ((w.sample a ⟨0, 0⟩ 1 .zero).run m).1 = .ok (.float 0) := by
  intro w a begun m
  have built := built_redeclared Nat.two_pos
  have total := Provider.total_none
  have steady := Provider.steady_none
  have session : Session w a m :=
    (Session.start _ 100 .standard |>.create (create_redeclared Nat.two_pos)).sample ⟨0, 0⟩ 2 .zero
  have live : a.isLive ⟨0, 0⟩ = true := rfl
  have denotes : w.Denotes a ⟨0, 0⟩ 1 .zero (.ok (.float 0)) := ⟨.ok _, 2, rfl⟩
  have known : 1 < w.grammar.fields.size := by decide
  have answers := answers_denotation built total steady session live known .zero
  exact ⟨built, total, steady, session, live, known, denotes, answers.1 _ denotes⟩

end Session

end VoxelGrammar
