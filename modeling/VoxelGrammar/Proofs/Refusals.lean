import VoxelGrammar.Proofs.Fills
import VoxelGrammar.Proofs.Placing

/-!
Fills that the grammar leaves open. Whether a field can be evaluated in a context is decided before any
position is looked at: by the placeholders on the way to its sources, which are the same for all
positions, for points and for subchunks, and whatever is remembered. So a fill that is refused is refused
at its first sample, and nothing has been painted by then.
-/

namespace VoxelGrammar

variable {own : Prop} {μ α β : Type} {w : World μ} {a : Arena} {h : Handle} {id : FieldId}

/-! ### Answers that are not refused -/

/-- The grammar does not leave the answer open, though a contract may have been broken. -/
def Allowed (x : Except EvalError α) : Prop := ∀ e, x ≠ .error (.grammar e)

namespace Allowed

theorem ok (v : α) : Allowed (.ok v) := fun _ hx => nomatch hx

theorem fault (f : Fault) : Allowed (.error (.fault f) : Except EvalError α) := fun _ hx => nomatch hx

theorem lift (x : Except Fault α) : Allowed (liftM x : Except EvalError α) := by
  cases x with
  | error f => exact fault f
  | ok v => exact ok v

theorem bind {x : Except EvalError α} {f : α → Except EvalError β} (hx : Allowed x)
    (hf : ∀ v, x = .ok v → Allowed (f v)) : Allowed (x >>= f) := by
  cases x with
  | error e =>
      intro e' he
      cases he
      exact hx e' rfl
  | ok v => exact hf v rfl

theorem mapM {f : α → Except EvalError β} {xs : List α} (hf : ∀ v ∈ xs, Allowed (f v)) :
    Allowed (xs.mapM f) := by
  induction xs with
  | nil => exact ok []
  | cons v xs ih =>
      obtain ⟨hv, hxs⟩ := List.forall_mem_cons.1 hf
      rw [List.mapM_cons]
      exact bind hv fun _ _ => bind (ih hxs) fun _ _ => ok _

end Allowed

namespace World

/-- Putting the sources of a field together is never refused. -/
theorem compute_allowed (key : RecordKey) (kind : FieldKind) (inputs : List Record) :
    Allowed (w.compute a h key kind inputs) := by
  unfold compute
  split
  · exact .ok _
  · exact .ok _
  · exact .bind (.lift _) fun _ _ => .ok _
  · exact .bind (.lift _) fun _ _ => .ok _
  · exact .ok _
  · split
    · exact .ok _
    · exact .fault _
  · exact .ok _
  · split
    · exact .ok _
    · exact .fault _

/-- A record is refused where its dimensionality is, and for the same reason. -/
theorem recordIn_refused_iff (k : Nat) (origin : Pos) (extent : Extent) (e : GrammarError) :
    w.recordIn a k h id origin extent = .error (.grammar e) ↔
      w.dimensionIn a k h id = .error (.grammar e) := by
  refine ⟨fun refused => ?_, fun refused => recordIn_error refused origin extent⟩
  induction k generalizing h id origin extent e with
  | zero => cases refused
  | succ k ih =>
      cases hd : w.dimensionIn a (k + 1) h id with
      | error e' =>
          rw [recordIn_error hd] at refused
          exact congrArg _ (Except.error.inj refused)
      | ok d =>
          obtain ⟨f, page, _, ss, hf, hpage, _, hss, _, sub⟩ := dimensionStep_ok hd
          have inputs : ∀ s ∈ ss, ∀ origin extent, Allowed (w.recordIn a k s.1 s.2 origin extent) := by
            intro s hs origin extent e' refused'
            obtain ⟨d', hd'⟩ := sub s hs
            cases hd'.symm.trans (ih origin extent e' refused')
          have allowed : Allowed (w.recordIn a (k + 1) h id origin extent) := by
            rw [recordIn_of_dimensionIn hd, recordStep_eq (by simpa using hf) hpage
              (by simpa using hss)]
            exact .bind (.mapM fun s hs => inputs s hs _ _) fun _ _ => compute_allowed _ _ _
          exact (allowed e refused).elim

/-- Where no contract is broken, a record can be had if its dimensionality can. -/
theorem exists_recordIn_iff (closed : w.grammar.Closed own) (total : w.provider.Total)
    (sane : a.Sane w.grammar) (hl : Lives a.live h) (hid : id < w.grammar.fields.size) (k : Nat)
    (origin : Pos) (extent : Extent) : (∃ r, w.recordIn a k h id origin extent = .ok r) ↔
      ∃ d, w.dimensionIn a k h id = .ok d := by
  refine ⟨fun ⟨r, hr⟩ => ?_, fun ⟨d, hd⟩ => ?_⟩
  · cases hd : w.dimensionIn a k h id with
    | error e => cases (recordIn_error hd origin extent).symm.trans hr
    | ok d => exact ⟨d, rfl⟩
  · obtain ⟨_, values⟩ := exists_values closed total sane k hl hid hd
    obtain ⟨r, hr, _⟩ := values origin extent
    exact ⟨r, hr⟩

/-- Whether a field is refused is the same for all positions and extents. -/
theorem record_refused_or_allowed (marked : w.grammar.Marked) (a : Arena) (h : Handle) (id : FieldId) :
    (∃ e, ∀ origin extent, (w.forgetful.record a h id origin extent).answer = .error (.grammar e)) ∨
      ∀ origin extent, Allowed (w.forgetful.record a h id origin extent).answer := by
  have means : ∀ origin extent, (w.forgetful.record a h id origin extent).answer =
      w.forgetful.recordIn a (w.depth a) h id origin extent := fun origin extent =>
    (run_record (w := w.forgetful) Notebook.honest_blank marked h id origin extent
      (a := a) (m := ()) trivial).1
  simp only [means, Allowed, ne_eq, recordIn_refused_iff]
  by_cases refused : ∃ e, w.forgetful.dimensionIn a (w.depth a) h id = .error (.grammar e)
  · exact .inl (refused.imp fun e he _ _ => he)
  · exact .inr fun _ _ e he => refused ⟨e, he⟩

end World

/-! ### Paintings that are refused -/

def Assured (x : Painting Unit α) : Prop :=
  ∀ m : BlockMap, ∃ r m', (x.run m).run () = ((r, m'), ()) ∧ Allowed r

def Traceless (x : Painting Unit α) : Prop :=
  ∀ (m m' : BlockMap) (e : GrammarError), (x.run m).run () = ((.error (.grammar e), m'), ()) → m' = m

theorem Idle.traceless {x : Painting Unit α} (hx : Idle x) : Traceless x := by
  intro m m' e refused
  obtain ⟨r, hr⟩ := hx m
  cases hr.symm.trans refused
  rfl

namespace Assured

theorem traceless {x : Painting Unit α} (hx : Assured x) : Traceless x := by
  intro m m' e refused
  obtain ⟨r, m₁, hr, allowed⟩ := hx m
  cases hr.symm.trans refused
  exact (allowed e rfl).elim

theorem pure (v : α) : Assured (Pure.pure v : Painting Unit α) := fun m => ⟨_, m, rfl, .ok v⟩

theorem bind {x : Painting Unit α} {f : α → Painting Unit β} (hx : Assured x)
    (hf : ∀ v, Assured (f v)) : Assured (x >>= f) := by
  intro m
  obtain ⟨r, m₁, hr, allowed⟩ := hx m
  rw [Paints.run_bind, hr]
  cases r with
  | error e => exact ⟨_, m₁, rfl, fun e' he => allowed e' (congrArg _ (Except.error.inj he))⟩
  | ok v => exact hf v m₁

theorem evaluate {y : Eval Unit α} (hy : Allowed y.answer) : Assured (liftM y : Painting Unit α) :=
  fun m => ⟨y.answer, m, rfl, hy⟩

theorem lift (y : Except Fault α) : Assured (liftM y : Painting Unit α) := by
  intro m
  cases y with
  | error f => exact ⟨_, m, rfl, .fault f⟩
  | ok v => exact ⟨_, m, rfl, .ok v⟩

theorem change (f : BlockMap → Except Fault BlockMap) : Assured (Painting.change f) := by
  intro m
  cases hf : f m with
  | error e =>
      refine ⟨.error (.fault e), .empty, ?_, .fault e⟩
      simp only [Painting.change, ExceptT.run_mk, StateT.run, hf]
      rfl
  | ok m' =>
      refine ⟨.ok (), m', ?_, .ok ()⟩
      simp only [Painting.change, ExceptT.run_mk, StateT.run, hf]
      rfl

theorem forM {xs : List α} {f : α → Painting Unit Unit} (hf : ∀ v, Assured (f v)) :
    Assured (xs.forM f) := by
  induction xs with
  | nil => exact pure ()
  | cons v xs ih => exact bind (hf v) fun _ => ih

end Assured

namespace Traceless

/-- An evaluation paints nothing, so what follows it decides. -/
theorem evaluate {y : Eval Unit α} {f : α → Painting Unit β} (hf : ∀ v, Traceless (f v)) :
    Traceless (liftM y >>= f) := by
  intro m m' e refused
  rw [run_evaluate_bind] at refused
  cases hy : y.answer with
  | error e' =>
      rw [hy] at refused
      cases refused
      rfl
  | ok v =>
      rw [hy] at refused
      exact hf v m m' e refused

end Traceless

namespace Painting

variable {block : FieldId} (marked : w.grammar.Marked)

include marked

/-- A box is refused at its first subchunk or at none. -/
theorem paintBox_traceless (box : Box) : Traceless (paintBox w.forgetful a h block box) := by
  rcases World.record_refused_or_allowed marked a h block with ⟨e, refused⟩ | allowed
  · have idle : Idle (paintBox w.forgetful a h block box) := .forM fun origin =>
      .evaluate fun r hr => by
        rw [World.subchunkRecord, refused] at hr
        cases hr
    exact idle.traceless
  · have assured : Assured (paintBox w.forgetful a h block box) := .forM fun origin =>
      .bind (.evaluate (allowed _ _)) fun _ => .bind (.lift _) fun _ => .change _
    exact assured.traceless

/-- A list of positions is refused at the first one or at none. -/
theorem paintPositions_traceless (positions : List Pos) (offset : Pos) :
    Traceless (paintPositions w.forgetful a h block positions offset) := by
  rcases World.record_refused_or_allowed marked a h block with ⟨e, refused⟩ | allowed
  · have idle : Idle (paintPositions w.forgetful a h block positions offset) := .forM fun q =>
      .lift fun c _ => .evaluate fun s hs => by
        rw [World.sample, Eval.answer_bind, refused] at hs
        cases hs
    exact idle.traceless
  · have sampled : ∀ p, Allowed (w.forgetful.sample a h block p).answer := by
      intro p
      rw [World.sample, Eval.answer_bind]
      refine .bind (allowed p .point) fun r _ => ?_
      cases r.get? 0 with
      | none => exact .fault _
      | some s => exact .ok s
    have assured : Assured (paintPositions w.forgetful a h block positions offset) := .forM fun q =>
      .bind (.lift _) fun c => .bind (.evaluate (sampled _)) fun s => by
        dsimp only
        split
        · exact .pure ()
        · exact .change _
    exact assured.traceless

theorem paintFill_traceless (f : Fill) : Traceless (paintFill w.forgetful a h f) := by
  unfold paintFill
  split
  · cases f.start with
    | none => exact (Idle.pure ()).traceless
    | some start =>
        refine .evaluate fun p => ?_
        cases f.stop with
        | none => exact paintBox_traceless marked _
        | some stop => exact .evaluate fun q => paintBox_traceless marked _
  · cases f.start with
    | none => exact paintPositions_traceless marked _ _
    | some start =>
        dsimp only
        split
        · exact .evaluate fun offset => paintPositions_traceless marked _ _
        · exact paintPositions_traceless marked _ _

end Painting

/-! ### Searches -/

namespace Search

theorem Underway.secure {s s' : Search μ} (closed : w.grammar.Closed own)
    (underway : Underway w s s') : Secure w s' := by
  induction underway with
  | setup run => exact setup_secure closed run
  | step _ run ih => exact (step_ok ih.kept.numbered run).secure closed ih

/-- The states in which a fill can be painted: those between two attempts of a search and, from there
on, those that other fills leave. -/
inductive InUse (w : World Memory) : Search Memory → Prop
  | underway {s s' : Search Memory} (used : Used w s) (underway : Underway w s s') : InUse w s'
  | painted {s : Search Memory} (inUse : InUse w s) (h : Handle) (map : BlockMap) (f : Fill) :
    InUse w ((paint w h map f).run s).2

variable {g : Grammar} {p : Provider} {s : Search Memory}

theorem InUse.trusted (hg : g.Built own) (inUse : InUse (.remembering g p) s) :
    Trusted (.remembering g p) Memory.Holds s := by
  induction inUse with
  | underway used underway =>
      obtain ⟨_, _, mirror⟩ := underway.forgotten hg.marked (used.trusted hg)
      exact mirror.trusted
  | painted _ h map f ih => exact (paint_matches (mirror_forgotten hg.marked ih) h map f).2.trusted

theorem InUse.secure (hg : g.Built own) (inUse : InUse (.remembering g p) s) :
    Secure (.remembering g p) s := by
  induction inUse with
  | underway _ underway => exact underway.secure hg.closed
  | painted _ h map f ih => exact (paint_painted h map f).secure ih

/-- A fill that the grammar leaves open leaves the map as it was, and the painting goes on with that.
This is so because a field that is refused, or evaluated, is so at every position, over points and over
subchunks, and whatever true values are remembered. -/
theorem refused_fills_leave_no_trace (hg : g.Built own) (inUse : InUse (.remembering g p) s) :
    let w := World.remembering g p
    (∀ h f map e, (((Painting.paintFill w s.arena h f).run map).run s.memory).1.1 = .error (.grammar e) →
      (((Painting.paintFill w s.arena h f).run map).run s.memory).1.2 = map ∧
        ((paint w h map f).run s).1 = .ok map) ∧
    ∀ h id origin origin' extent extent' m m', Memory.Holds (w.facts s.arena) s.arena.size m →
      Memory.Holds (w.facts s.arena) s.arena.size m' →
      (∀ e, ((w.record s.arena h id origin extent).run m).1 = .error (.grammar e) ↔
        ((w.record s.arena h id origin' extent').run m').1 = .error (.grammar e)) ∧
      (p.Total → id < g.fields.size → Lives s.arena.live h →
        ((∃ r, ((w.record s.arena h id origin extent).run m).1 = .ok r) ↔
          ∃ r, ((w.record s.arena h id origin' extent').run m').1 = .ok r)) := by
  intro w
  refine ⟨fun h f map e refused => ?_, fun h id origin origin' extent extent' m m' hm hm' => ?_⟩
  · have mirror := mirror_forgotten hg.marked (inUse.trusted hg)
    have same := ((mirror.counterparts h).paintFill f map s.memory () mirror.memory trivial).1
    rw [Handle.shift_zero] at same
    rcases hr : ((Painting.paintFill w s.arena h f).run map).run s.memory with ⟨⟨r, map'⟩, m'⟩
    rw [hr] at same refused
    obtain rfl : r = .error (.grammar e) := refused
    obtain rfl : map' = map := Painting.paintFill_traceless hg.marked f map map' e
      (Prod.ext same.symm rfl)
    refine ⟨rfl, ?_⟩
    rw [StateT.run] at hr
    rw [paint, ExceptT.run_mk, hr]
  · have means := fun origin extent =>
      (World.run_record Memory.honest_notebook hg.marked h id origin extent hm).1
    have means' := fun origin extent =>
      (World.run_record Memory.honest_notebook hg.marked h id origin extent hm').1
    rw [means, means']
    refine ⟨fun e => ?_, fun total hid hl => ?_⟩
    · rw [World.recordIn_refused_iff, World.recordIn_refused_iff]
    · have evaluated := World.exists_recordIn_iff (w := w.forgetful) hg.closed total
        (inUse.secure hg).arena hl hid (w.depth s.arena)
      rw [evaluated, evaluated]

/-- A garden, in which nothing says what the flower of a bed is. -/
def garden : Draft :=
  .ofStatements
    [.rule "garden", .toNothing 0, .rule "bed", .toNothing 1, .constant (.block 3),
      .param (.rule 1) "flower" .block (some 0)]

theorem built_garden : garden.compile.Built True :=
  Draft.built_ofStatements (by decide +kernel) (by decide +kernel)

theorem refused_fills_leave_no_trace_garden :
    let world := World.remembering garden.compile .none
    let fresh := Search.new (.ofCache (.new 0 .standard))
    let begun := ((setup world 0 .zero 7).run fresh).2
    let map := (BlockMap.empty.write ⟨1, 0, 0⟩ 7).toOption.getD .empty
    let flower : Fill := ⟨1, none, none, [⟨0, 0, 0⟩, ⟨1, 0, 0⟩], false⟩
    garden.compile.Built True ∧ InUse world begun ∧
      (((Painting.paintFill world begun.arena ⟨0, 0⟩ flower).run map).run begun.memory).1 =
        (.error (.grammar (.unboundParam "flower")), map) ∧
      ((paint world ⟨0, 0⟩ map flower).run begun).1 = .ok map := by
  intro world fresh begun map flower
  have inUse : InUse world begun := .underway (.new Cache.standardDraws 0 .standard)
    (.setup (Prod.ext (by decide +kernel) rfl : (setup world 0 .zero 7).run fresh = (.ok (), begun)))
  have mirror := mirror_forgotten built_garden.marked (inUse.trusted built_garden)
  have same := ((mirror.counterparts ⟨0, 0⟩).paintFill flower map begun.memory () mirror.memory
    trivial).1
  rw [Handle.shift_zero] at same
  have refused : (((Painting.paintFill world begun.arena ⟨0, 0⟩ flower).run map).run begun.memory).1.1 =
      .error (.grammar (.unboundParam "flower")) := by
    rw [same]
    decide +kernel
  obtain ⟨left, painted⟩ :=
    (refused_fills_leave_no_trace built_garden inUse).1 ⟨0, 0⟩ flower map _ refused
  exact ⟨built_garden, inUse, Prod.ext refused left, painted⟩

end Search

end VoxelGrammar
