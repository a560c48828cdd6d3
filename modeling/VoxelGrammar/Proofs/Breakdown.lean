import VoxelGrammar.Proofs.Closure
import VoxelGrammar.Proofs.Lockstep

/-!
Evaluations that break down. In a closed grammar, with contexts that only refer to live ones and a
provider that never breaks down, an evaluation can break down for want of steps alone; and it runs
out of steps only if no number of steps is enough.
-/

namespace VoxelGrammar

variable {μ α β : Type}

/-! ### Contexts that refer to live ones -/

def Lives (live : List (Handle × Context)) (h : Handle) : Prop := ∃ x, (h, x) ∈ live

def Binding.Leads (g : Grammar) (live : List (Handle × Context)) : Binding → Prop
  | .own id => id < g.fields.size
  | .bridge parent => Lives live parent

structure Context.Sane (g : Grammar) (live : List (Handle × Context)) (c : Context) : Prop where
  symbol : ∃ s, g.symbol c.symbol = .ok s
  parent : ∀ h, c.parent = some h → Lives live h
  inputs : ∀ e ∈ c.inputs.entries, e.2.Leads g live
  outputs : ∀ e ∈ c.outputs.entries, e.2.Leads g live

theorem Binding.Leads.mono {g : Grammar} {live more : List (Handle × Context)} {b : Binding}
    (h : b.Leads g live) (hsub : live ⊆ more) : b.Leads g more := by
  cases b with
  | own id => exact h
  | bridge parent =>
      obtain ⟨x, hx⟩ := h
      exact ⟨x, hsub hx⟩

theorem Binding.Below.mono {m n : Nat} {b : Binding} (h : b.Below m) (hmn : m ≤ n) : b.Below n := by
  cases b with
  | own id => trivial
  | bridge parent => exact Nat.lt_of_lt_of_le h hmn

theorem Context.Below.mono {m n : Nat} {c : Context} (h : c.Below m) (hmn : m ≤ n) : c.Below n :=
  ⟨fun p hp => (h.parent p hp).trans_le hmn, fun e he => (h.inputs e he).mono hmn,
    fun e he => (h.outputs e he).mono hmn⟩

theorem Context.Sane.mono {g : Grammar} {live more : List (Handle × Context)} {c : Context}
    (h : c.Sane g live) (hsub : live ⊆ more) : c.Sane g more where
  symbol := h.symbol
  parent := fun p hp => (h.parent p hp).imp fun _ hx => hsub hx
  inputs := fun e he => (h.inputs e he).mono hsub
  outputs := fun e he => (h.outputs e he).mono hsub

theorem Arena.mem_live_iff {a : Arena} (ha : a.Numbered) {h : Handle} {x : Context} :
    (h, x) ∈ a.live ↔ a.get h = .ok x := by
  rw [Arena.get_eq_ok_iff ha]
  constructor
  · intro hmem
    obtain ⟨i, hi⟩ := List.mem_iff_getElem?.1 hmem
    have hslot : h.slot = i := Arena.slot_of_live hi
    rw [hslot]
    exact hi
  · exact List.mem_of_getElem?

/-- The contexts refer to live ones in lower slots and to nothing but what there is. -/
structure Arena.Sane (g : Grammar) (a : Arena) : Prop where
  numbered : a.Numbered
  ground : a.Grounded
  contexts : ∀ e ∈ a.live, e.2.Sane g a.live

theorem Arena.Sane.below {g : Grammar} {a : Arena} (sane : a.Sane g) {e : Handle × Context}
    (he : e ∈ a.live) : e.2.Below e.1.slot :=
  sane.ground e.1 e.2 ((mem_live_iff sane.numbered).1 he)

structure Provider.Total (p : Provider) : Prop where
  dimensionality : ∀ e, ∃ d, p.dimensionality e = some d
  sample : ∀ e q, ∃ s, p.sample e q = some s

theorem Provider.total_none : Provider.none.Total := ⟨fun _ => ⟨_, rfl⟩, fun _ _ => ⟨_, rfl⟩⟩

/-- A world in which nothing can break down but for want of steps. -/
structure World.Sturdy (w : World μ) : Prop where
  closed : w.grammar.Closed True
  marked : w.grammar.Marked
  total : w.provider.Total

theorem World.Sturdy.forgetful {w : World μ} (h : w.Sturdy) : w.forgetful.Sturdy :=
  ⟨h.closed, h.marked, h.total⟩

/-! ### Answers and breakdowns -/

theorem Terminates.foldlM {f : β → α → Except EvalError β} {xs : List α}
    (h : ∀ b, ∀ a ∈ xs, Terminates (f b a)) (b : β) : Terminates (xs.foldlM f b) := by
  induction xs generalizing b with
  | nil => exact .ok _
  | cons x xs ih =>
      rw [List.foldlM_cons]
      exact .bind (h b x List.mem_cons_self) fun b _ =>
        ih (fun b a ha => h b a (List.mem_cons_of_mem _ ha)) b

/-- Every answer has the property, and every breakdown is one of those allowed. -/
def Gives (E : Fault → Prop) (P : α → Prop) (x : Except EvalError α) : Prop :=
  (∀ f, x = .error (.fault f) → E f) ∧ ∀ v, x = .ok v → P v

namespace Gives

variable {E E' : Fault → Prop} {P Q : α → Prop} {x : Except EvalError α}

theorem ok {v : α} (h : P v) : Gives E P (.ok v) := by
  refine ⟨fun f hf => ?_, fun u hu => ?_⟩
  · cases hf
  · cases hu
    exact h

theorem grammar (e : GrammarError) : Gives E P (.error (.grammar e)) := by
  constructor <;> intro _ h <;> cases h

theorem fault {f : Fault} (hf : E f) : Gives E P (.error (.fault f)) := by
  refine ⟨fun k hk => ?_, fun u hu => ?_⟩
  · cases hk
    exact hf
  · cases hu

theorem bind {R : β → Prop} {f : α → Except EvalError β} (h : Gives E P x)
    (hf : ∀ v, P v → Gives E R (f v)) : Gives E R (x >>= f) := by
  cases x with
  | error e =>
      refine ⟨fun k hk => h.1 k ?_, fun u hu => ?_⟩
      · cases hk
        rfl
      · cases hu
  | ok v => exact hf v (h.2 v rfl)

theorem mono (h : Gives E P x) (hPQ : ∀ v, P v → Q v) : Gives E Q x :=
  ⟨h.1, fun v hv => hPQ v (h.2 v hv)⟩

theorem foldlM {f : β → α → Except EvalError β} (xs : List α)
    (h : ∀ b, ∀ a ∈ xs, Gives E (fun _ => True) (f b a)) (b : β) :
    Gives E (fun _ => True) (xs.foldlM f b) := by
  induction xs generalizing b with
  | nil => exact ok trivial
  | cons a xs ih =>
      rw [List.foldlM_cons]
      exact (h b a List.mem_cons_self).bind fun b _ =>
        ih (fun b a ha => h b a (List.mem_cons_of_mem _ ha)) b

theorem mapM {R : β → Prop} {f : α → Except EvalError β} (xs : List α)
    (h : ∀ a ∈ xs, Gives E R (f a)) :
    Gives E (fun ys : List β => ys.length = xs.length ∧ ∀ y ∈ ys, R y) (xs.mapM f) := by
  induction xs with
  | nil => exact ok ⟨rfl, by simp⟩
  | cons a xs ih =>
      rw [List.mapM_cons]
      refine (h a List.mem_cons_self).bind fun y hy =>
        (ih fun a ha => h a (List.mem_cons_of_mem _ ha)).bind fun ys hys => ok ?_
      exact ⟨congrArg (· + 1) hys.1, List.forall_mem_cons.2 ⟨hy, hys.2⟩⟩

end Gives

/-! ### Placeholders -/

namespace Arena

variable {E : Fault → Prop} {g : Grammar} {a : Arena} {h : Handle}

theorem Sane.get (sane : a.Sane g) (hl : Lives a.live h) : ∃ x, (h, x) ∈ a.live ∧ a.get h = .ok x := by
  obtain ⟨x, hx⟩ := hl
  exact ⟨x, hx, (mem_live_iff sane.numbered).1 hx⟩

variable (sane : a.Sane g)

include sane

/-- A live context is there. -/
theorem get_gives (hl : Lives a.live h) :
    Gives E (fun x => (h, x) ∈ a.live) (liftM (a.get h)) := by
  obtain ⟨x, hx, hget⟩ := sane.get hl
  rw [hget]
  exact .ok hx

/-- Parents lie in lower slots, so the walk upward does not run out of steps. -/
theorem declaring_gives (name : String) (id : FieldId) (k : Nat) (hl : Lives a.live h)
    (hk : h.slot < k) : Gives E (fun s => Lives a.live s.1) (a.declaring name id k h) := by
  induction k generalizing h with
  | zero => exact absurd hk (Nat.not_lt_zero _)
  | succ k ih =>
      unfold declaring
      refine (get_gives sane hl).bind fun c hc => ?_
      split
      · exact .ok hl
      · next parent _ hparent =>
        have below := (sane.below hc).parent parent hparent
        exact ih ((sane.contexts _ hc).parent parent hparent)
          (Nat.lt_of_lt_of_le below (Nat.le_of_lt_succ hk))
      · exact .grammar _

/-- Nor does the walk along bindings. -/
theorem follow_gives (name : String) (key : ParamKey) (k : Nat) (hl : Lives a.live h) {b : Binding}
    (hb : b.Leads g a.live) (hk : b.Below k) :
    Gives E (fun s => Lives a.live s.1 ∧ s.2 < g.fields.size) (a.follow name key k h b) := by
  induction k generalizing h b with
  | zero =>
      cases b with
      | own id => exact .ok ⟨hl, hb⟩
      | bridge parent => exact absurd hk (Nat.not_lt_zero _)
  | succ k ih =>
      cases b with
      | own id => exact .ok ⟨hl, hb⟩
      | bridge parent =>
          unfold follow
          refine (get_gives sane hb).bind fun c hc => ?_
          cases hout : c.outputs.get? key with
          | none => exact .grammar _
          | some b =>
              obtain ⟨e, he, rfl⟩ := Bindings.mem_of_get? hout
              have below := (sane.below hc).outputs e he
              exact ih hb ((sane.contexts _ hc).outputs e he) (below.mono (Nat.le_of_lt_succ hk))

theorem resolve_gives (name : String) (id : FieldId) (hl : Lives a.live h) :
    Gives E (fun s => Lives a.live s.1 ∧ s.2 < g.fields.size) (a.resolve name id h) := by
  unfold resolve
  refine (declaring_gives sane name id _ hl (Nat.lt_succ_self _)).bind
    fun owner howner => (get_gives sane howner).bind fun c hc => ?_
  cases hin : c.inputs.get? owner.2 with
  | none => exact .grammar _
  | some b =>
      obtain ⟨e, he, rfl⟩ := Bindings.mem_of_get? hin
      have below := (sane.below hc).inputs e he
      exact follow_gives sane name owner.2 _ howner ((sane.contexts _ hc).inputs e he)
        (below.mono (Nat.le_succ _))

/-- The sources of a field are fields of the grammar in live contexts; a placeholder has one. -/
theorem sources_gives {own : Prop} (closed : g.Closed own) {id : FieldId} {f : Field}
    (hf : g.field id = .ok f) (hl : Lives a.live h) :
    Gives E (fun ss => (∀ s ∈ ss, Lives a.live s.1 ∧ s.2 < g.fields.size) ∧
      ∀ name, f.kind = .param name → ss.length = 1) (a.sources h id f) := by
  rw [sources.eq_def]
  have inputs := closed.fields id f hf
  cases hk : f.kind with
  | param name =>
      refine (resolve_gives sane name id hl).bind fun s hs => .ok ⟨?_, fun _ _ => rfl⟩
      simpa using hs
  | _ =>
      refine .ok ⟨fun s hs => ?_, fun _ h => by cases h⟩
      obtain ⟨i, hi, rfl⟩ := List.mem_map.1 hs
      exact ⟨hl, (inputs i (hk ▸ hi)).trans (Grammar.lt_of_field hf)⟩

theorem page_ok (f : Field) (hl : Lives a.live h) : ∃ page, a.page h f = .ok page := by
  unfold page
  split
  · obtain ⟨x, _, hx⟩ := sane.get hl
    rw [hx]
    exact ⟨_, rfl⟩
  · exact ⟨_, rfl⟩

theorem page_gives (f : Field) (hl : Lives a.live h) : Gives E (fun _ => True) (a.page h f) := by
  obtain ⟨page, hpage⟩ := page_ok sane f hl
  rw [hpage]
  exact .ok trivial

end Arena

/-! ### Records -/

def Record.Fits (r : Record) (extent : Extent) : Prop :=
  r.samples.size = 1 ∨ r.samples.size = extent.cells

namespace Record

theorem fits_uniform (s : Sample) (extent : Extent) : (uniform s).Fits extent := .inl rfl

theorem fits_tabulate (extent : Extent) (f : Nat → Sample) : (tabulate extent.cells f).Fits extent :=
  .inr (by simp [tabulate])

theorem Fits.covers {r : Record} {extent : Extent} (h : r.Fits extent) :
    r.covers extent.cells = true := by
  rcases h with h | h <;> simp [Record.covers, isUniform, h]

/-- Every cell of the extent has a sample. -/
theorem Fits.get? {r : Record} {extent : Extent} (h : r.Fits extent) {i : Nat}
    (hi : i < extent.cells) : ∃ s, r.get? i = some s := by
  unfold Record.get?
  split
  · next huniform =>
    have hsize : r.samples.size = 1 := by simpa [isUniform] using huniform
    exact ⟨_, Array.getElem?_eq_getElem (by omega)⟩
  · next hnot =>
    have hsize : r.samples.size = extent.cells := by
      rcases h with h | h
      · exact absurd h (by simpa [isUniform] using hnot)
      · exact h
    exact ⟨_, Array.getElem?_eq_getElem (by omega)⟩

/-- Where all samples can be had, so can the record. -/
theorem tabulate?_eq {n : Nat} {f : Nat → Option Sample} {g : Nat → Sample}
    (h : ∀ i, f i = some (g i)) : tabulate? n f = some (tabulate n g) := by
  obtain rfl : f = fun i => pure (g i) := funext h
  rw [tabulate?, Array.mapM_pure]
  refine congrArg (fun xs => some (Record.mk xs)) (Array.ext (by simp) fun i _ _ => ?_)
  simp

/-- Records that fit can be combined. -/
theorem combine?_fits {extent : Extent} {inputs : List Record} (h : ∀ r ∈ inputs, r.Fits extent)
    (f : List Sample → Sample) : ∃ r, combine? extent.cells inputs f = some r ∧ r.Fits extent := by
  unfold combine?
  by_cases huniform : inputs.all isUniform = true
  · have hcovers : inputs.all (·.covers 1) = true := by
      rw [List.all_eq_true] at huniform ⊢
      intro r hr
      simp [Record.covers, huniform r hr]
    simp only [huniform, hcovers, if_true]
    exact ⟨_, rfl, .inl (by simp [tabulate])⟩
  · have hcovers : inputs.all (·.covers extent.cells) = true :=
      List.all_eq_true.2 fun r hr => (h r hr).covers
    simp only [huniform, hcovers, if_true, Bool.false_eq_true, if_false]
    exact ⟨_, rfl, fits_tabulate _ _⟩

end Record

/-! ### Meanings -/

namespace World

variable {E : Fault → Prop} {w : World μ} {a : Arena} {h : Handle}

theorem field_gives {id : FieldId} (hid : id < w.grammar.fields.size) :
    Gives E (fun f => w.grammar.field id = .ok f) (liftM (w.grammar.field id)) := by
  obtain ⟨f, hf⟩ := Fault.lookup_of_lt hid
  have hfield : w.grammar.field id = .ok f := hf
  rw [hfield]
  exact .ok rfl

variable (sturdy : w.Sturdy) (sane : a.Sane w.grammar)

include sturdy

theorem ownDimensionality_gives (kind : FieldKind) :
    Gives E (fun _ => True) (w.ownDimensionality kind) := by
  cases kind with
  | external e =>
      obtain ⟨d, hd⟩ := sturdy.total.dimensionality e
      simp only [ownDimensionality, hd]
      exact .ok trivial
  | _ => exact .ok trivial

include sane

theorem compute_gives (hl : Lives a.live h) (key : RecordKey) (kind : FieldKind)
    {inputs : List Record} (hin : ∀ r ∈ inputs, r.Fits key.extent)
    (hparam : ∀ name, kind = .param name → inputs.length = 1) :
    Gives E (fun r => r.Fits key.extent) (w.compute a h key kind inputs) := by
  have combined := Record.combine?_fits hin kind.combine
  cases kind with
  | constant s => exact .ok (Record.fits_uniform s _)
  | worldPosition => exact .ok (Record.fits_tabulate _ _)
  | localPosition => exact (Arena.get_gives sane hl).bind fun _ _ => .ok (Record.fits_tabulate _ _)
  | contextRandom salt =>
      exact (Arena.get_gives sane hl).bind fun _ _ => .ok (Record.fits_uniform _ _)
  | blockRandom salt => exact .ok (Record.fits_tabulate _ _)
  | external e =>
      choose sample hsample using fun i => sturdy.total.sample e (key.position i)
      simp only [compute, Record.tabulate?_eq hsample]
      exact .ok (Record.fits_tabulate _ _)
  | param name =>
      obtain ⟨r, rfl⟩ := List.length_eq_one_iff.1 (hparam name rfl)
      exact .ok (hin r List.mem_cons_self)
  | arithmetic _ _ _ | compare _ _ _ | and _ _ | or _ _ | not _ | select _ _ _ | vector _ _ _
  | axis _ _ =>
      obtain ⟨r, hr, fits⟩ := combined
      simp only [compute, RecordKey.cells, hr]
      exact .ok fits

theorem dimensionIn_gives (hE : E .endlessEvaluation) (k : Nat) {id : FieldId}
    (hl : Lives a.live h) (hid : id < w.grammar.fields.size) :
    Gives E (fun _ => True) (w.dimensionIn a k h id) := by
  induction k generalizing h id with
  | zero => exact .fault hE
  | succ k ih =>
      refine (field_gives hid).bind fun f hf => (Arena.page_gives sane f hl).bind fun _ _ =>
        (ownDimensionality_gives sturdy f.kind).bind fun d _ =>
        (Arena.sources_gives sane sturdy.closed hf hl).bind fun ss hss => ?_
      refine .foldlM ss (fun d s hs => ?_) d
      obtain ⟨hl, hid⟩ := hss.1 s hs
      exact (ih hl hid).bind fun _ _ => .ok trivial

theorem recordIn_gives (hE : E .endlessEvaluation) (k : Nat) {id : FieldId} (hl : Lives a.live h)
    (hid : id < w.grammar.fields.size) (origin : Pos) (extent : Extent) :
    Gives E (fun r => r.Fits extent) (w.recordIn a k h id origin extent) := by
  induction k generalizing h id origin extent with
  | zero => exact .fault hE
  | succ k ih =>
      refine (dimensionIn_gives sturdy sane hE (k + 1) hl hid).bind fun d _ => ?_
      -- A field that does not vary has a single sample, whatever the extent.
      suffices Gives E (fun r => r.Fits (RecordKey.across d id origin extent).extent)
          (w.recordStep a (w.recordIn a k) h (.across d id origin extent)) from this.mono fun r fits => by
        cases d with
        | constant => exact .inl (fits.elim (fun h => h) fun h => h)
        | varying => exact fits
      generalize hkey : RecordKey.across d id origin extent = key
      obtain rfl : key.field = id := by rw [← hkey, RecordKey.across_field]
      refine (field_gives hid).bind fun f hf => (Arena.page_gives sane f hl).bind fun _ _ =>
        (Arena.sources_gives sane sturdy.closed hf hl).bind fun ss hss => ?_
      refine (Gives.mapM (R := fun r => r.Fits key.extent) ss fun s hs => ?_).bind
        fun inputs hin => ?_
      · obtain ⟨hl, hid⟩ := hss.1 s hs
        exact ih hl hid _ _
      · exact compute_gives sturdy sane hl key f.kind hin.2 fun name hname =>
          hin.1.trans (hss.2 name hname)

end World

/-! ### Evaluations without end -/

/-- The field cannot be evaluated in any number of steps. -/
def World.Loops (w : World μ) (a : Arena) (s : Handle × FieldId) : Prop :=
  ∀ k, ¬ Terminates (w.dimensionIn a k s.1 s.2)

def World.Endless (w : World μ) (a : Arena) : Prop :=
  ∃ s, a.isLive s.1 = true ∧ s.2 < w.grammar.fields.size ∧ w.forgetful.Loops a s

/-! ### Evaluations -/

def World.RunsOn (w : World μ) (a : Arena) (f : Fault) : Prop :=
  f = .endlessEvaluation ∧ w.Endless a

/-- The evaluation only breaks down by going on forever, and its answers have the property. -/
def World.Answers (w : World μ) (a : Arena) (P : α → Prop) (x : Eval Unit α) : Prop :=
  ∀ m, Gives (w.RunsOn a) P (x.run m).1

namespace World

variable {w : World μ} {a : Arena} {h : Handle}

namespace Answers

variable {P : α → Prop} {Q : β → Prop} {x : Eval Unit α}

theorem pure {v : α} (h : P v) : w.Answers a P (Pure.pure v) := fun _ => .ok h

theorem bind {f : α → Eval Unit β} (h : w.Answers a P x) (hf : ∀ v, P v → w.Answers a Q (f v)) :
    w.Answers a Q (x >>= f) := by
  intro m
  have hx := h m
  rw [Eval.run_bind]
  cases hrun : x.run m with
  | mk result m' =>
      rw [hrun] at hx
      cases result with
      | error e =>
          refine ⟨fun k hk => hx.1 k ?_, fun u hu => ?_⟩
          · cases hk
            rfl
          · cases hu
      | ok v => exact hf v (hx.2 v rfl) m'

end Answers

variable (sturdy : w.Sturdy) (sane : a.Sane w.grammar)

include sane

theorem get_answers (hl : Lives a.live h) :
    w.Answers a (fun x => (h, x) ∈ a.live) (liftM (a.get h)) := by
  intro m
  obtain ⟨x, hx, hget⟩ := sane.get hl
  rw [hget]
  exact .ok hx

include sturdy

theorem record_answers {id : FieldId} (hl : Lives a.live h) (hid : id < w.grammar.fields.size)
    (origin : Pos) (extent : Extent) :
    w.Answers a (fun r => r.Fits extent) (w.forgetful.record a h id origin extent) := by
  intro m
  have means := (run_record (w := w.forgetful) Notebook.honest_blank sturdy.marked h id origin extent
    (a := a) (m := m) trivial).1
  have gives := recordIn_gives (E := (· = .endlessEvaluation)) sturdy.forgetful sane rfl
    (w.depth a) hl hid origin extent
  rw [means]
  refine ⟨fun f hf => ⟨gives.1 f hf, (h, id), ?_, hid, fun k hk => ?_⟩, gives.2⟩
  · obtain ⟨x, _, hx⟩ := sane.get hl
    exact Arena.isLive_of_get hx
  · obtain rfl := gives.1 f hf
    have ends : Terminates (w.forgetful.dimensionIn a (w.forgetful.depth a) h id) := by
      rw [← (dimensionIn_depth (w := w.forgetful) k h id).eq hk]
      exact hk
    exact recordIn_terminates origin extent ends hf

variable {id : FieldId} (hl : Lives a.live h) (hid : id < w.grammar.fields.size)

include hl hid

theorem sample_answers (p : Pos) : w.Answers a (fun _ => True) (w.forgetful.sample a h id p) := by
  refine (record_answers sturdy sane hl hid p .point).bind fun r fits => ?_
  obtain ⟨s, hs⟩ := fits.get? Nat.zero_lt_one
  rw [hs]
  exact .pure trivial

theorem subchunkRecord_answers (p : Pos) :
    w.Answers a (fun r => r.Fits .subchunk) (w.forgetful.subchunkRecord a h id p) :=
  record_answers sturdy sane hl hid p.subchunk .subchunk

theorem sampleOrigin_answers :
    w.Answers a (fun _ => True) (w.forgetful.sampleOrigin a h id) :=
  (get_answers sane hl).bind fun c _ => sample_answers sturdy sane hl hid c.origin

theorem sampleBool_answers : w.Answers a (fun _ => True) (w.forgetful.sampleBool a h id) :=
  (sampleOrigin_answers sturdy sane hl hid).bind fun _ _ => .pure trivial

theorem samplePos_answers : w.Answers a (fun _ => True) (w.forgetful.samplePos a h id) :=
  (sampleOrigin_answers sturdy sane hl hid).bind fun _ _ => .pure trivial

theorem sampleWorldPos_answers :
    w.Answers a (fun _ => True) (w.forgetful.sampleWorldPos a h id) :=
  (samplePos_answers sturdy sane hl hid).bind fun _ _ =>
    (get_answers sane hl).bind fun _ _ => .pure trivial

omit hid in
theorem holds_answers {cs : List FieldId} (hcs : ∀ id ∈ cs, id < w.grammar.fields.size) :
    w.Answers a (fun _ => True) (w.forgetful.holds a h cs) := by
  induction cs with
  | nil => exact .pure trivial
  | cons id rest ih =>
      refine (sampleBool_answers sturdy sane hl (hcs id List.mem_cons_self)).bind fun b _ => ?_
      cases b with
      | false => exact .pure trivial
      | true => exact ih fun id hid => hcs id (List.mem_cons_of_mem _ hid)

omit hid in
theorem areaOf_answers {spec : AreaSpec} (hstart : spec.start < w.grammar.fields.size)
    (hstop : spec.stop < w.grammar.fields.size) :
    w.Answers a (fun _ => True) (Search.areaOf w.forgetful a h spec) :=
  (sampleWorldPos_answers sturdy sane hl hstart).bind fun _ _ =>
    (sampleWorldPos_answers sturdy sane hl hstop).bind fun _ _ => .pure trivial

end World

end VoxelGrammar
