import VoxelGrammar.Proofs.Canvas
import VoxelGrammar.Proofs.Denotation

/-!
What a structure looks like. A generator paints whole subchunks at a time and reads the blocks off
records, but every position ends up with what the fills declare for it: the value of the block field
there, evaluated by itself, of the last fill that covers the position with a defined one.
-/

namespace VoxelGrammar

variable {μ ν α β ε : Type}

/-! ### Values in records -/

theorem mapM_eq_ok {f : α → Except ε β} {g : α → β} {xs : List α}
    (h : ∀ x ∈ xs, f x = .ok (g x)) : xs.mapM f = .ok (xs.map g) := by
  induction xs with
  | nil => rfl
  | cons x xs ih =>
      obtain ⟨hx, hxs⟩ := List.forall_mem_cons.1 h
      rw [List.mapM_cons, hx, ih hxs]
      rfl

namespace World

variable {own : Prop} {w : World μ} {a : Arena} {h : Handle} {id : FieldId}

def Tells (v : Pos → Sample) (key : RecordKey) (r : Record) : Prop :=
  r.Fits key.extent ∧ ∀ i < key.cells, r.get? i = some (v (key.position i))

variable (closed : w.grammar.Closed own) (total : w.provider.Total) (sane : a.Sane w.grammar)

include total sane in
theorem compute_tells (hl : Lives a.live h) (key : RecordKey) {kind : FieldKind}
    {ss : List (Handle × FieldId)} {vs : Handle × FieldId → Pos → Sample}
    {rs : Handle × FieldId → Record} (hrs : ∀ s ∈ ss, Tells (vs s) key (rs s))
    (hparam : ∀ name, kind = .param name → ss.length = 1) {v : Pos → Sample}
    (hv : ∀ p, w.value a h p kind (ss.map fun s => vs s p) = .ok (v p)) :
    ∃ r, w.compute a h key kind (ss.map rs) = .ok r ∧ Tells v key r := by
  have cell : ∀ i < key.cells, ∃ r, w.compute a h key kind (ss.map rs) = .ok r ∧
      r.Fits key.extent ∧ r.get? i = some (v (key.position i)) := by
    intro i hi
    have inputs : List.Forall₂ (fun r u => r.Fits key.extent ∧ r.get? i = some u) (ss.map rs)
        (ss.map fun s => vs s (key.position i)) := by
      rw [List.forall₂_map_left_iff, List.forall₂_map_right_iff, List.forall₂_same]
      exact fun s hs => ⟨(hrs s hs).1, (hrs s hs).2 i hi⟩
    have agrees := compute_agrees total sane hi hl kind inputs fun name hname =>
      (List.length_map rs).trans (hparam name hname)
    rw [hv] at agrees
    obtain ⟨r, hr, holds⟩ := agrees.symm.ok_left
    exact ⟨r, hr, holds⟩
  have some_cell : 0 < key.cells := by
    rw [RecordKey.cells]
    cases key.extent <;> decide
  obtain ⟨r, hr, fits, _⟩ := cell 0 some_cell
  refine ⟨r, hr, fits, fun i hi => ?_⟩
  obtain ⟨r', hr', _, holds⟩ := cell i hi
  rw [hr] at hr'
  cases hr'
  exact holds

theorem recordIn_of_dimensionIn {k : Nat} {d : Dimensionality}
    (hd : w.dimensionIn a (k + 1) h id = .ok d) (origin : Pos) (extent : Extent) :
    w.recordIn a (k + 1) h id origin extent =
      w.recordStep a (w.recordIn a k) h (.across d id origin extent) := by
  show (w.dimensionIn a (k + 1) h id >>= fun d => _) = _
  rw [hd]
  rfl

/-- Where the dimensionality of a field cannot be had, neither can its records. -/
theorem recordIn_error {k : Nat} {e : EvalError} (hd : w.dimensionIn a k h id = .error e)
    (origin : Pos) (extent : Extent) : w.recordIn a k h id origin extent = .error e := by
  cases k with
  | zero =>
      cases hd
      rfl
  | succ k =>
      show (w.dimensionIn a (k + 1) h id >>= fun d => _) = _
      rw [hd]
      rfl

include closed total sane

/-- If the sources of a field have values, so has the field, and its records tell them. -/
theorem exists_step_values {k : Nat} (hl : Lives a.live h) {f : Field} {page : Page}
    {ss : List (Handle × FieldId)} (hf : w.grammar.field id = .ok f) (hpage : a.page h f = .ok page)
    (hss : a.sources h id f = .ok ss) {vs : Handle × FieldId → Pos → Sample}
    (hvs : ∀ s ∈ ss, ∀ origin extent, ∃ r, w.recordIn a k s.1 s.2 origin extent = .ok r ∧
      Tells (vs s) ⟨s.2, origin, extent⟩ r) :
    ∃ v : Pos → Sample, ∀ key : RecordKey, key.field = id →
      ∃ r, w.recordStep a (w.recordIn a k) h key = .ok r ∧ Tells v key r := by
  obtain ⟨_, hparam⟩ := (Arena.sources_gives (E := fun _ => True) sane closed hf hl).2 ss hss
  have value : ∀ p, ∃ v, w.value a h p f.kind (ss.map fun s => vs s p) = .ok v := fun p =>
    value_ok total sane hl p f.kind fun name hname =>
      (List.length_map _).trans (hparam name hname)
  choose v hv using value
  refine ⟨v, ?_⟩
  rintro key rfl
  have inputs : ∀ s ∈ ss, ∃ r, w.recordIn a k s.1 s.2 key.origin key.extent = .ok r ∧
      Tells (vs s) key r := fun s hs => hvs s hs key.origin key.extent
  choose! rs hrs using inputs
  obtain ⟨r, hr, tells⟩ := compute_tells total sane hl key (fun s hs => (hrs s hs).2) hparam hv
  refine ⟨r, ?_, tells⟩
  rw [recordStep_eq hf hpage hss, mapM_eq_ok fun s hs => (hrs s hs).1]
  exact hr

/-- A field whose dimensionality can be had has a value at every position, and all its records tell
these values. -/
theorem exists_values (k : Nat) (hl : Lives a.live h) (hid : id < w.grammar.fields.size)
    {d : Dimensionality} (hd : w.dimensionIn a k h id = .ok d) :
    ∃ v : Pos → Sample, ∀ origin extent, ∃ r, w.recordIn a k h id origin extent = .ok r ∧
      Tells v ⟨id, origin, extent⟩ r := by
  induction k generalizing h id d with
  | zero => cases hd
  | succ k ih =>
      obtain ⟨f, page, own, ss, hf, hpage, _, hss, _, sub⟩ := dimensionStep_ok hd
      obtain ⟨hsource, _⟩ := (Arena.sources_gives (E := fun _ => True) sane closed hf hl).2 ss hss
      have sources : ∀ s ∈ ss, ∃ v : Pos → Sample, ∀ origin extent, ∃ r,
          w.recordIn a k s.1 s.2 origin extent = .ok r ∧ Tells v ⟨s.2, origin, extent⟩ r := by
        intro s hs
        obtain ⟨d', hd'⟩ := sub s hs
        exact ih (hsource s hs).1 (hsource s hs).2 hd'
      choose! vs hvs using sources
      obtain ⟨v, step⟩ := exists_step_values closed total sane hl hf hpage hss hvs
      have unfolded := recordIn_of_dimensionIn hd
      cases d with
      | varying => exact ⟨v, fun origin extent => unfolded origin extent ▸ step _ rfl⟩
      | constant =>
          -- All records are that of one point, and its value counts for all positions.
          obtain ⟨r, hr, fits, tells⟩ := step (.constant id) rfl
          have single : r.Fits .point := fits
          refine ⟨fun _ => v Pos.zero, fun origin extent => ⟨r, (unfolded origin extent).trans hr,
            Or.inl (single.elim (fun h => h) fun h => h), fun i _ => ?_⟩⟩
          rw [single.get?_of_point]
          exact tells 0 Nat.zero_lt_one

end World

/-! ### What fills declare -/

def Eval.answer (x : Eval Unit α) : Except EvalError α := (x.run ()).1

theorem Eval.answer_bind (x : Eval Unit α) (f : α → Eval Unit β) :
    (x >>= f).answer = x.answer >>= fun v => (f v).answer := by
  unfold answer
  rw [run_bind]
  rcases x.run () with ⟨_ | v, ⟨⟩⟩ <;> rfl

namespace World

/-- The value of a field at a world position, worked out with nothing remembered. -/
def valueAt (w : World μ) (a : Arena) (h : Handle) (id : FieldId) (p : Pos) :
    Except EvalError Sample :=
  (w.forgetful.sample a h id p).answer

def blockAt (w : World μ) (a : Arena) (h : Handle) (id : FieldId) (p : Pos) : Option Block :=
  match w.valueAt a h id p with
  | .ok s => if Block.isUndefined s.asBlock then none else some s.asBlock
  | .error _ => none

end World

namespace Fill

/-- The positions that a fill covers, if its own fields can be evaluated: the listed ones, moved by
the offset if there is to be one, or the cell of its start, or the box between its corners. -/
def covers (w : World μ) (a : Arena) (h : Handle) (f : Fill) (p : Pos) : Bool :=
  let corner id := (w.forgetful.sampleWorldPos a h id).answer
  if f.positions.isEmpty then
    match f.start.map corner, f.stop.map corner with
    | some (.ok q), none => p = q
    | some (.ok q), some (.ok q') => p ∈ Box.spanning q q'
    | _, _ => false
  else
    let offset := match f.start with
      | some start => if f.shifted then (w.forgetful.samplePos a h start).answer else .ok .zero
      | none => .ok .zero
    match a.get h, offset with
    | .ok c, .ok offset => p ∈ f.positions.map fun q => c.mapToWorld (q + offset)
    | _, _ => false

/-- What a fill paints at a position: the block there, if the fill covers the position and the
block is defined. -/
def layer (w : World μ) (a : Arena) (h : Handle) (f : Fill) (p : Pos) : Option Block :=
  if f.covers w a h p then w.blockAt a h f.block p else none

variable {w : World μ} {a : Arena} {h : Handle} {f : Fill}

theorem layer_eq {covered : Pos → Prop} [DecidablePred covered]
    (hf : ∀ p, f.covers w a h p = decide (covered p)) :
    f.layer w a h = fun p => if covered p then w.blockAt a h f.block p else none := by
  funext p
  simp only [layer, hf, decide_eq_true_eq]

theorem layer_eq_none (hf : ∀ p, f.covers w a h p = false) (p : Pos) : f.layer w a h p = none := by
  rw [layer, hf]
  rfl

end Fill

namespace Search

def fillsOf (g : Grammar) (p : Placement) : List (Handle × Fill) :=
  match g.component p.component with
  | .ok c => c.fills.map fun f => (p.context, f)
  | .error _ => []

/-- The fills of a structure, component by component in the order in which these were accepted. -/
def fills (g : Grammar) (s : Search ν) : List (Handle × Fill) :=
  s.plan.placements.toList.flatMap (fillsOf g)

def declared (w : World μ) (s : Search ν) (p : Pos) : Block :=
  ((s.fills w.grammar).reverse.findSome? fun e => e.2.layer w s.arena e.1 p).getD Block.undefined

end Search

/-! ### Paintings -/

def Idle (x : Painting Unit α) : Prop :=
  ∀ m : BlockMap, ∃ r, (x.run m).run () = ((r, m), ())

def Draws (writes : List (Pos × Block)) (x : Painting Unit Unit) : Prop :=
  ∀ m : BlockMap, m.Addressed → ∃ m' : BlockMap, (x.run m).run () = ((.ok (), m'), ()) ∧
    m'.Addressed ∧ m'.view = overlay m.view writes

def Coats (layer : Pos → Option Block) (x : Painting Unit Unit) : Prop :=
  ∀ m : BlockMap, m.Addressed → ∃ (r : Except EvalError Unit) (m' : BlockMap),
    (x.run m).run () = ((r, m'), ()) ∧ m'.Addressed ∧ ∀ p, m'.view p = (layer p).getD (m.view p)

theorem run_evaluate_bind (y : Eval Unit α) (f : α → Painting Unit β) (m : BlockMap) :
    ((liftM y >>= f : Painting Unit β).run m).run () =
      match y.answer with
      | .ok v => ((f v).run m).run ()
      | .error e => ((.error e, m), ()) := by
  have evaluated : ((liftM y : Painting Unit α).run m).run () = ((y.answer, m), ()) := rfl
  rw [Paints.run_bind, evaluated]
  cases y.answer <;> rfl

theorem evaluate_of_ok {y : Eval Unit α} {v : α} (hy : y.answer = .ok v) (f : α → Painting Unit β) :
    (liftM y >>= f : Painting Unit β) = f v := by
  funext m u
  have run := run_evaluate_bind y f m
  rw [hy] at run
  exact run

namespace Idle

theorem pure (v : α) : Idle (Pure.pure v : Painting Unit α) := fun _ => ⟨_, rfl⟩

theorem evaluate {y : Eval Unit α} {f : α → Painting Unit β} (h : ∀ v, y.answer = .ok v → Idle (f v)) :
    Idle (liftM y >>= f) := by
  intro m
  rw [run_evaluate_bind]
  cases hy : y.answer with
  | error e => exact ⟨_, rfl⟩
  | ok v => exact h v hy m

theorem of_error {y : Eval Unit α} {e : EvalError} (hy : y.answer = .error e)
    {f : α → Painting Unit β} : Idle (liftM y >>= f) :=
  evaluate fun v hv => by
    rw [hy] at hv
    cases hv

theorem lift {y : Except Fault α} {f : α → Painting Unit β} (h : ∀ v, y = .ok v → Idle (f v)) :
    Idle (liftM y >>= f) := by
  intro m
  cases y with
  | error e => exact ⟨_, rfl⟩
  | ok v => exact h v rfl m

theorem forM {xs : List α} {f : α → Painting Unit Unit} (h : ∀ v, Idle (f v)) :
    Idle (xs.forM f) := by
  induction xs with
  | nil => exact pure ()
  | cons v xs ih =>
      intro m
      obtain ⟨r, hr⟩ := h v m
      show ∃ r, ((f v >>= fun _ => xs.forM f).run m).run () = _
      rw [Paints.run_bind, hr]
      cases r with
      | error e => exact ⟨_, rfl⟩
      | ok _ => exact ih m

theorem coats {x : Painting Unit Unit} (hx : Idle x) {layer : Pos → Option Block}
    (h : ∀ p, layer p = none) : Coats layer x := by
  intro m hm
  obtain ⟨r, hr⟩ := hx m
  exact ⟨r, m, hr, hm, fun p => by rw [h p]; rfl⟩

end Idle

namespace Draws

variable {writes : List (Pos × Block)}

theorem pure : Draws [] (Pure.pure ()) := fun m hm => ⟨m, rfl, hm, rfl⟩

theorem evaluate {y : Eval Unit α} {v : α} (hy : y.answer = .ok v) {f : α → Painting Unit Unit}
    (h : Draws writes (f v)) : Draws writes (liftM y >>= f) := by
  intro m hm
  rw [run_evaluate_bind, hy]
  exact h m hm

theorem lift {y : Except Fault α} {v : α} (hy : y = .ok v) {f : α → Painting Unit Unit}
    (h : Draws writes (f v)) : Draws writes (liftM y >>= f) := by
  subst hy
  exact h

theorem change {f : BlockMap → Except Fault BlockMap} (h : ∀ m : BlockMap, m.Addressed →
    Succeeds (fun m' => m'.Addressed ∧ m'.view = overlay m.view writes) (f m)) :
    Draws writes (Painting.change f) := by
  intro m hm
  obtain ⟨m', hm', holds⟩ := h m hm
  refine ⟨m', ?_, holds⟩
  simp only [Painting.change, ExceptT.run_mk, StateT.run, hm']
  rfl

theorem forM {xs : List α} {f : α → Painting Unit Unit} {ws : α → List (Pos × Block)}
    (h : ∀ v ∈ xs, Draws (ws v) (f v)) : Draws (xs.flatMap ws) (xs.forM f) := by
  induction xs with
  | nil => exact pure
  | cons v xs ih =>
      obtain ⟨hv, hxs⟩ := List.forall_mem_cons.1 h
      intro m hm
      obtain ⟨m₁, run, h₁, shows⟩ := hv m hm
      obtain ⟨m₂, run', h₂, shows'⟩ := ih hxs m₁ h₁
      refine ⟨m₂, ?_, h₂, ?_⟩
      · show ((f v >>= fun _ => xs.forM f).run m).run () = _
        rw [Paints.run_bind, run]
        exact run'
      · rw [shows', shows, List.flatMap_cons, overlay_append]

/-- Writes that are just those of a layer put it on top. -/
theorem coats {x : Painting Unit Unit} (hx : Draws writes x) {layer : Pos → Option Block}
    (h : ∀ p b, (p, b) ∈ writes ↔ layer p = some b) : Coats layer x := by
  intro m hm
  obtain ⟨m', run, hm', shows⟩ := hx m hm
  refine ⟨_, m', run, hm', fun p => ?_⟩
  rw [shows, overlay_apply]
  cases hl : writes.reverse.lookup p with
  | some b =>
      have mem := List.mem_reverse.1 (mem_of_lookup hl)
      simp only [(h p b).1 mem, Option.getD_some]
  | none =>
      rw [List.lookup_eq_none_iff] at hl
      cases hp : layer p with
      | none => rfl
      | some b => simpa using hl _ (List.mem_reverse.2 ((h p b).2 hp))

end Draws

/-! ### Painting one fill -/

namespace World

variable {w : World μ} {a : Arena} {h : Handle} {id : FieldId} {v : Pos → Sample}

def Records (w : World μ) (a : Arena) (h : Handle) (id : FieldId) (v : Pos → Sample) : Prop :=
  ∀ origin extent, ∃ r, (w.forgetful.record a h id origin extent).answer = .ok r ∧
    Tells v ⟨id, origin, extent⟩ r

/-- A field either has a value everywhere or none anywhere. -/
theorem records_or_error (sturdy : w.Sturdy) (sane : a.Sane w.grammar) (hl : Lives a.live h)
    (hid : id < w.grammar.fields.size) : (∃ v, w.Records a h id v) ∨
      ∃ e, ∀ origin extent, (w.forgetful.record a h id origin extent).answer = .error e := by
  have means : ∀ origin extent, (w.forgetful.record a h id origin extent).answer =
      w.forgetful.recordIn a (w.depth a) h id origin extent := fun origin extent =>
    (run_record (w := w.forgetful) Notebook.honest_blank sturdy.marked h id origin extent
      (a := a) (m := ()) trivial).1
  simp only [Records, means]
  cases hd : w.forgetful.dimensionIn a (w.depth a) h id with
  | ok d => exact .inl (exists_values sturdy.forgetful.closed sturdy.forgetful.total sane _ hl hid hd)
  | error e => exact .inr ⟨e, recordIn_error hd⟩

theorem Records.valueAt (hv : w.Records a h id v) (p : Pos) : w.valueAt a h id p = .ok (v p) := by
  obtain ⟨r, hr, _, tells⟩ := hv p .point
  have here : r.get? 0 = some (v p) := tells 0 Nat.zero_lt_one
  rw [World.valueAt, sample, Eval.answer_bind, hr]
  show Eval.answer _ = _
  rw [here]
  rfl

/-- The record that a box is painted from in one of its subchunks. -/
theorem Records.subchunk (hv : w.Records a h id v) {origin : Pos} (ho : origin.Aligned) :
    ∃ r, (w.forgetful.subchunkRecord a h id origin).answer = .ok r ∧
      Tells v ⟨id, origin, .subchunk⟩ r := by
  have here : origin.subchunk = origin := ho
  rw [subchunkRecord, here]
  exact hv origin .subchunk

theorem Records.blockAt_eq_some (hv : w.Records a h id v) {p : Pos} {b : Block} :
    w.blockAt a h id p = some b ↔ b = (v p).asBlock ∧ Block.isUndefined b = false := by
  rw [blockAt, hv.valueAt]
  dsimp only
  split
  · next undefined =>
    simp only [reduceCtorEq, false_iff, not_and, Bool.not_eq_false]
    rintro rfl
    exact undefined
  · next defined =>
    rw [Option.some_inj]
    constructor
    · rintro rfl
      exact ⟨rfl, by simpa using defined⟩
    · exact fun h => h.1.symm

theorem valueAt_of_error {e : EvalError}
    (he : ∀ origin extent, (w.forgetful.record a h id origin extent).answer = .error e) (p : Pos) :
    w.valueAt a h id p = .error e := by
  rw [valueAt, sample, Eval.answer_bind, he]
  rfl

theorem blockAt_of_error {e : EvalError}
    (he : ∀ origin extent, (w.forgetful.record a h id origin extent).answer = .error e) (p : Pos) :
    w.blockAt a h id p = none := by
  rw [blockAt, valueAt_of_error he]

end World

namespace Painting

variable {w : World μ} {a : Arena} {h : Handle} {block : FieldId} {v : Pos → Sample}

def strokes (v : Pos → Sample) (ps : List Pos) : List (Pos × Block) :=
  (ps.map fun p => (p, (v p).asBlock)).filter fun e => !Block.isUndefined e.2

theorem mem_strokes {ps : List Pos} {p : Pos} {b : Block} :
    (p, b) ∈ strokes v ps ↔ p ∈ ps ∧ b = (v p).asBlock ∧ Block.isUndefined b = false := by
  simp only [strokes, List.mem_filter, List.mem_map, Prod.mk.injEq, Bool.not_eq_true']
  constructor
  · rintro ⟨⟨q, hq, rfl, rfl⟩, defined⟩
    exact ⟨hq, rfl, defined⟩
  · rintro ⟨hp, rfl, defined⟩
    exact ⟨⟨p, hp, rfl, rfl⟩, defined⟩

def cellStrokes (v : Pos → Sample) (ps : List Pos) : List (UInt16 × Block) :=
  (ps.map fun p => (p.cell, (v p).asBlock)).filter fun e => !Block.isUndefined e.2

theorem lt_of_mem_cellStrokes {ps : List Pos} {e : UInt16 × Block} (he : e ∈ cellStrokes v ps) :
    e.1.toNat < subchunkVolume := by
  obtain ⟨p, _, rfl⟩ := List.mem_map.1 (List.mem_of_mem_filter he)
  exact p.cell_lt

theorem placed_cellStrokes {origin : Pos} {ps : List Pos} (hps : ∀ p ∈ ps, p.subchunk = origin) :
    BlockMap.placed origin (cellStrokes v ps) = strokes v ps := by
  rw [BlockMap.placed, cellStrokes, strokes, List.filter_map, List.filter_map, List.map_map]
  refine List.map_congr_left fun p hp => ?_
  have here := p.subchunk_add_ofCell_cell
  rw [hps p (List.mem_of_mem_filter hp)] at here
  exact Prod.ext here rfl

theorem defined_eq {origin : Pos} {r : Record} (tells : World.Tells v ⟨block, origin, .subchunk⟩ r)
    {box : Box} (hbox : ∀ p ∈ box.cells, p.subchunk = origin) :
    defined r box = .ok (cellStrokes v box.cells) := by
  unfold defined
  rw [mapM_eq_ok (g := fun p => (p.cell, (v p).asBlock))]
  · rfl
  · intro p hp
    have here : (⟨block, origin, .subchunk⟩ : RecordKey).position p.cell.toNat = p := by
      rw [← hbox p hp]
      exact p.subchunk_add_ofCell_cell
    have value := tells.2 p.cell.toNat p.cell_lt
    rw [here] at value
    rw [value]

section

variable {e : EvalError}
  (he : ∀ origin extent, (w.forgetful.record a h block origin extent).answer = .error e)

include he

theorem paintBox_idle (box : Box) : Idle (paintBox w.forgetful a h block box) :=
  .forM fun origin => .evaluate fun r hr => by
    rw [World.subchunkRecord, he] at hr
    cases hr

theorem paintPositions_idle (positions : List Pos) (offset : Pos) :
    Idle (paintPositions w.forgetful a h block positions offset) :=
  .forM fun q => .lift fun c _ => .evaluate fun s hs => by
    rw [World.sample, Eval.answer_bind, he] at hs
    cases hs

end

section

variable (hv : w.Records a h block v)

include hv

theorem paintSlice_draws {origin : Pos} (ho : origin.Aligned) (box : Box) :
    Draws (strokes v (box.clip ⟨origin, origin + .splat 15⟩).cells)
      (paintSlice w.forgetful a h block box origin) := by
  have slice := fun p => Box.subchunk_of_mem_slice ho (b := box) (p := p)
  obtain ⟨r, record, tells⟩ := hv.subchunk ho
  have ho : origin.subchunk = origin := ho
  refine .evaluate record (.lift (defined_eq tells slice) (.change fun m hm => ?_))
  rw [← placed_cellStrokes slice]
  nth_rewrite 1 [← ho]
  exact BlockMap.writeAll_succeeds hm origin _ fun _ => lt_of_mem_cellStrokes

theorem paintCell_draws (p : Pos) :
    Draws (strokes v [p]) (paintCell w.forgetful a h block p) := by
  refine .evaluate (hv.valueAt p) ?_
  dsimp only
  split
  · next undefined =>
    have nothing : strokes v [p] = [] := by simp [strokes, undefined]
    rw [nothing]
    exact .pure
  · next defined =>
    have one : strokes v [p] = [(p, (v p).asBlock)] := by simp [strokes, defined]
    rw [one]
    exact .change fun m hm => (BlockMap.write_succeeds hm p _).imp fun m' hm' => ⟨hm'.1, hm'.2.1⟩

end

variable (sturdy : w.Sturdy) (sane : a.Sane w.grammar) (hl : Lives a.live h)
  (hblock : block < w.grammar.fields.size)

include sturdy sane hl hblock

theorem paintBox_coats (box : Box) :
    Coats (fun p => if p ∈ box then w.blockAt a h block p else none)
      (paintBox w.forgetful a h block box) := by
  rcases World.records_or_error sturdy sane hl hblock with ⟨v, hv⟩ | ⟨e, he⟩
  · have draws : Draws (((Box.mk box.low.subchunk box.high).grid subchunkSize).flatMap fun origin =>
        strokes v (box.clip ⟨origin, origin + .splat 15⟩).cells)
        (paintBox w.forgetful a h block box) :=
      .forM fun _ horigin => paintSlice_draws hv (Box.aligned_of_mem_grid horigin) box
    -- A position of the box lies in the slice of its own subchunk and in no other one.
    refine draws.coats fun p b => ?_
    rw [List.mem_flatMap, Option.ite_none_right_eq_some, hv.blockAt_eq_some]
    constructor
    · rintro ⟨origin, horigin, hp⟩
      obtain ⟨hp, value⟩ := mem_strokes.1 hp
      rw [Box.mem_cells, Box.mem_slice (Box.aligned_of_mem_grid horigin)] at hp
      exact ⟨hp.1, value⟩
    · rintro ⟨hp, value⟩
      refine ⟨p.subchunk, Box.subchunk_mem_grid hp, mem_strokes.2 ⟨?_, value⟩⟩
      rw [Box.mem_cells, Box.mem_slice p.aligned_subchunk]
      exact ⟨hp, rfl⟩
  · refine (paintBox_idle he box).coats fun p => ?_
    rw [World.blockAt_of_error he, ite_self]

theorem paintPositions_coats {c : Context} (hc : a.get h = .ok c) (positions : List Pos)
    (offset : Pos) :
    Coats (fun p => if p ∈ positions.map fun q => c.mapToWorld (q + offset) then
        w.blockAt a h block p else none)
      (paintPositions w.forgetful a h block positions offset) := by
  rcases World.records_or_error sturdy sane hl hblock with ⟨v, hv⟩ | ⟨e, he⟩
  · have draws : Draws (positions.flatMap fun q => strokes v [c.mapToWorld (q + offset)])
        (paintPositions w.forgetful a h block positions offset) :=
      .forM fun _ _ => .lift hc (paintCell_draws hv _)
    refine draws.coats fun p b => ?_
    simp only [List.mem_flatMap, mem_strokes, List.mem_singleton, Option.ite_none_right_eq_some,
      hv.blockAt_eq_some, List.mem_map]
    constructor
    · rintro ⟨q, hq, rfl, value⟩
      exact ⟨⟨q, hq, rfl⟩, value⟩
    · rintro ⟨⟨q, hq, rfl⟩, value⟩
      exact ⟨q, hq, rfl, value⟩
  · refine (paintPositions_idle he positions offset).coats fun p => ?_
    rw [World.blockAt_of_error he, ite_self]

omit hblock

omit sturdy in
/-- A fill is painted as a box or at a list of positions, unless its own fields cannot be evaluated. -/
theorem paintFill_cases (f : Fill) :
    (Idle (paintFill w.forgetful a h f) ∧ ∀ p, f.covers w a h p = false) ∨
    (f.positions.isEmpty = true ∧ ∃ q q', (∀ p, f.covers w a h p = decide (p ∈ Box.spanning q q')) ∧
      paintFill w.forgetful a h f = paintBox w.forgetful a h f.block (.spanning q q')) ∨
    (f.positions.isEmpty = false ∧ ∃ c offset, a.get h = .ok c ∧
      (∀ p, f.covers w a h p = decide (p ∈ f.positions.map fun q => c.mapToWorld (q + offset))) ∧
      paintFill w.forgetful a h f = paintPositions w.forgetful a h f.block f.positions offset) := by
  obtain ⟨c, _, hc⟩ := sane.get hl
  rw [paintFill]
  cases listed : f.positions.isEmpty with
  | true =>
      rw [if_pos rfl]
      cases hs : f.start with
      | none => exact .inl ⟨.pure (), fun p => by simp [Fill.covers, listed, hs]⟩
      | some start =>
          cases hq : (w.forgetful.sampleWorldPos a h start).answer with
          | error e =>
              exact .inl ⟨.of_error hq, fun p => by simp [Fill.covers, listed, hs, hq]⟩
          | ok q =>
              cases ht : f.stop with
              | none =>
                  refine .inr (.inl ⟨rfl, q, q, fun p => ?_, evaluate_of_ok hq _⟩)
                  simp [Fill.covers, listed, hs, ht, hq, Box.mem_spanning_self]
              | some stop =>
                  cases hq' : (w.forgetful.sampleWorldPos a h stop).answer with
                  | error e =>
                      refine .inl ⟨.evaluate fun _ _ => .of_error hq', fun p => ?_⟩
                      simp [Fill.covers, listed, hs, ht, hq, hq']
                  | ok q' =>
                      refine .inr (.inl ⟨rfl, q, q', fun p => ?_,
                        (evaluate_of_ok hq _).trans (evaluate_of_ok hq' _)⟩)
                      simp [Fill.covers, listed, hs, ht, hq, hq']
  | false =>
      rw [if_neg Bool.false_ne_true]
      cases hs : f.start with
      | none =>
          refine .inr (.inr ⟨rfl, c, .zero, hc, fun p => ?_, rfl⟩)
          simp [Fill.covers, listed, hs, hc]
      | some start =>
          cases shifted : f.shifted with
          | false =>
              refine .inr (.inr ⟨rfl, c, .zero, hc, fun p => ?_, rfl⟩)
              simp [Fill.covers, listed, hs, hc, shifted]
          | true =>
              cases ho : (w.forgetful.samplePos a h start).answer with
              | error e =>
                  refine .inl ⟨.of_error ho, fun p => ?_⟩
                  simp [Fill.covers, listed, hs, shifted, hc, ho]
              | ok offset =>
                  refine .inr (.inr ⟨rfl, c, offset, hc, fun p => ?_, evaluate_of_ok ho _⟩)
                  simp [Fill.covers, listed, hs, shifted, hc, ho]

theorem paintFill_coats {f : Fill} (hf : f.block < w.grammar.fields.size) :
    Coats (f.layer w a h) (paintFill w.forgetful a h f) := by
  obtain ⟨idle, nowhere⟩ | ⟨_, q, q', covered, painted⟩ | ⟨_, c, offset, hc, covered, painted⟩ :=
    paintFill_cases sane hl f
  · exact idle.coats (Fill.layer_eq_none nowhere)
  · rw [painted, Fill.layer_eq covered]
    exact paintBox_coats sturdy sane hl hf _
  · rw [painted, Fill.layer_eq covered]
    exact paintPositions_coats sturdy sane hl hf hc f.positions offset

end Painting

/-! ### Painting a structure -/

/-- The blocks under the layers, the last of which is on top. -/
def coated (blocks : Pos → Block) (layers : List (Pos → Option Block)) : Pos → Block :=
  layers.foldl (fun blocks layer p => (layer p).getD (blocks p)) blocks

theorem coated_append (blocks : Pos → Block) (first rest : List (Pos → Option Block)) :
    coated blocks (first ++ rest) = coated (coated blocks first) rest := List.foldl_append

theorem coated_apply (blocks : Pos → Block) (layers : List (Pos → Option Block)) (p : Pos) :
    coated blocks layers p = (layers.reverse.findSome? (· p)).getD (blocks p) := by
  induction layers generalizing blocks with
  | nil => rfl
  | cons layer layers ih =>
      -- The first layer is the lowest one, so the rest has been asked before it.
      show coated (fun p => (layer p).getD (blocks p)) layers p = _
      rw [ih, List.reverse_cons, List.findSome?_append]
      cases layers.reverse.findSome? (· p) with
      | some b => rfl
      | none => cases hp : layer p <;> simp [hp]

namespace Search

/-- If the painting comes to an end, it has put the layers on top of the map. -/
def Finishes (s : Search Unit) (m : BlockMap) (layers : List (Pos → Option Block))
    (x : SearchM Unit BlockMap) : Prop :=
  ∀ m' s', x.run s = (.ok m', s') →
    s'.arena = s.arena ∧ m'.Addressed ∧ m'.view = coated m.view layers

section

variable {w : World μ} {s : Search Unit} {m : BlockMap}

theorem foldlM_finishes {f : BlockMap → α → SearchM Unit BlockMap} {xs : List α}
    {layers : α → List (Pos → Option Block)}
    (h : ∀ m v, v ∈ xs → ∀ s' : Search Unit, s'.arena = s.arena → m.Addressed →
      Finishes s' m (layers v) (f m v)) (hm : m.Addressed) :
    Finishes s m (xs.flatMap layers) (xs.foldlM f m) := by
  suffices ∀ s' : Search Unit, s'.arena = s.arena →
      Finishes s' m (xs.flatMap layers) (xs.foldlM f m) from this s rfl
  induction xs generalizing m with
  | nil =>
      rintro s' hs' m' s'' hrun
      cases hrun
      exact ⟨rfl, hm, rfl⟩
  | cons v xs ih =>
      rintro s' hs' m' s'' hrun
      rw [List.foldlM_cons] at hrun
      obtain ⟨m₁, s₁, hfirst, hrun⟩ := SearchM.bind_ok hrun
      obtain ⟨same, h₁, shows⟩ := h m v List.mem_cons_self s' hs' hm m₁ s₁ hfirst
      obtain ⟨same', h', shows'⟩ := ih (fun m v hv => h m v (List.mem_cons_of_mem _ hv)) h₁ s₁
        (same.trans hs') m' s'' hrun
      exact ⟨same'.trans same, h', by rw [shows', shows, List.flatMap_cons, coated_append]⟩

variable (sturdy : w.Sturdy) (sane : s.arena.Sane w.grammar)

include sturdy sane

omit sturdy sane in
/-- A fill that the grammar leaves open is passed over, and only a fault stops the painting. -/
theorem paint_ok {h : Handle} {f : Fill} {m' : BlockMap} {s' : Search Unit}
    (hrun : (paint w.forgetful h m f).run s = (.ok m', s')) : s' = s ∧
      ∃ r, ((Painting.paintFill w.forgetful s.arena h f).run m).run () = ((r, m'), ()) := by
  rcases run : ((Painting.paintFill w.forgetful s.arena h f).run m).run s.memory with ⟨⟨r, m₁⟩, ⟨⟩⟩
  rw [StateT.run] at run
  rw [paint, ExceptT.run_mk, run] at hrun
  cases r with
  | ok v =>
      cases hrun
      exact ⟨rfl, _, rfl⟩
  | error e =>
      cases e with
      | grammar e =>
          cases hrun
          exact ⟨rfl, _, rfl⟩
      | fault e => cases hrun

theorem paint_finishes {h : Handle} (hl : Lives s.arena.live h) {f : Fill}
    (hf : f.block < w.grammar.fields.size) (hm : m.Addressed) :
    Finishes s m [f.layer w s.arena h] (paint w.forgetful h m f) := by
  intro m' s' hrun
  obtain ⟨r, m₁, run, h₁, shows⟩ := Painting.paintFill_coats sturdy sane hl hf m hm
  obtain ⟨rfl, _, run'⟩ := paint_ok hrun
  rw [run] at run'
  cases run'
  exact ⟨rfl, h₁, funext shows⟩

theorem paintPlacement_finishes {p : Placement} (hp : p.Sane w.grammar s.arena.live)
    (hm : m.Addressed) :
    Finishes s m ((fillsOf w.grammar p).map fun e => e.2.layer w s.arena e.1)
      (paintPlacement w.forgetful m p) := by
  obtain ⟨hl, c, hc⟩ := hp
  intro m' s' hrun
  obtain ⟨c', hc', hrun⟩ := lift_bind_ok hrun
  obtain rfl : c = c' := Except.ok.inj (hc.symm.trans hc')
  have layers : (fillsOf w.grammar p).map (fun e => e.2.layer w s.arena e.1) =
      c.fills.flatMap fun f => [f.layer w s.arena p.context] := by
    rw [fillsOf, hc, ← List.map_eq_flatMap, List.map_map]
    rfl
  rw [layers]
  refine foldlM_finishes (fun m f hf s₁ hs₁ hm => ?_) hm m' s' hrun
  rw [← hs₁] at hl sane ⊢
  exact paint_finishes sturdy sane hl ((sturdy.closed.components _ c hc).fills f hf).1 hm

omit sane in
theorem output_finishes (secure : Secure w.forgetful s) (solved : s.plan.solved = true) :
    Finishes s .empty ((s.fills w.grammar).map fun e => e.2.layer w s.arena e.1) (output w.forgetful) := by
  intro m' s' hrun
  obtain ⟨t, s₁, hget, hrun⟩ := SearchM.bind_ok hrun
  cases hget
  rw [if_pos solved] at hrun
  rw [fills, List.map_flatMap]
  refine foldlM_finishes (fun m p hp s₁ hs₁ hm => ?_) BlockMap.addressed_empty m' s' hrun
  have placed := secure.sane.placements p (Array.mem_toList_iff.1 hp)
  rw [← hs₁]
  exact paintPlacement_finishes sturdy (hs₁ ▸ secure.arena) (hs₁ ▸ placed) hm

omit sane in
theorem view_output (secure : Secure w.forgetful s) (solved : s.plan.solved = true) {s' : Search Unit}
    (hrun : (output w.forgetful).run s = (.ok m, s')) (p : Pos) : m.view p = s.declared w p := by
  obtain ⟨_, _, shows⟩ := output_finishes sturdy secure solved m s' hrun
  rw [shows, coated_apply, declared, ← List.map_reverse, List.findSome?_map]
  rfl

end

/-- What is remembered never shows: a generator paints the map of one without a memory, unless an
evaluation goes on forever. -/
theorem output_forgotten {g : Grammar} (hg : g.Built True) {p : Provider} (hp : p.Total)
    {s : Search Memory} (due : Due (.remembering g p) .output s) :
    Secure (World.remembering g p).forgetful s.forgotten ∧ s.forgotten.plan.solved = true ∧
    ((∃ m s' t, (output (.remembering g p)).run s = (.ok m, s') ∧
        (output (World.remembering g p).forgetful).run s.forgotten = (.ok m, t)) ∨
      ∃ s', (output (.remembering g p)).run s = (.error .endlessEvaluation, s') ∧
        (World.remembering g p).Endless s.arena) := by
  have sturdy := World.sturdy_remembering hg hp
  obtain ⟨trusted, ready⟩ := due.ready hg
  obtain ⟨secure, solved⟩ := ready.forgetful
  have mirrored := output_matches (mirror_forgotten hg.marked trusted)
  have same := mirrored.1.eq
  refine ⟨secure, solved, ?_⟩
  rcases hrun : (output (.remembering g p)).run s with ⟨f | m, s'⟩
  · rw [hrun] at same mirrored
    obtain ⟨rfl, endless⟩ := output_unbroken sturdy secure solved f same.symm
    have painted := output_painted (w := .remembering g p) (s := s)
    rw [hrun] at painted
    refine .inr ⟨s', rfl, painted.1 ▸ ?_⟩
    exact endless.mirror mirrored.2.arena mirrored.2.trusted.ground
  · rw [hrun] at same
    exact .inl ⟨m, s', _, rfl, Prod.ext same.symm rfl⟩

/-- Asked for the structure it has found, a generator gives a map that has at every position the
block that the fills declare for it, unless an evaluation goes on forever. -/
theorem output_shows_declared {g : Grammar} (hg : g.Built True) {p : Provider} (hp : p.Total)
    {s : Search Memory} (due : Due (.remembering g p) .output s) :
    (∃ m s', (output (.remembering g p)).run s = (.ok m, s') ∧
        ∀ q, m.block q = .ok (s.declared (.remembering g p) q)) ∨
      ∃ s', (output (.remembering g p)).run s = (.error .endlessEvaluation, s') ∧
        (World.remembering g p).Endless s.arena := by
  have sturdy := World.sturdy_remembering hg hp
  obtain ⟨secure, solved, ⟨m, s', t, run, painted⟩ | endless⟩ := output_forgotten hg hp due
  · refine .inl ⟨m, s', run, fun q => ?_⟩
    rw [BlockMap.block_eq, view_output sturdy secure solved painted]
    rfl
  · exact .inr endless

/-- The yard of a farm reaches over a subchunk face, with a block of a list on either side of it, and
the hut stands in its corner. -/
theorem output_shows_declared_farm :
    let world := World.remembering farm.compile .none
    let fresh := Search.new (.ofCache (.new 0 .standard))
    let found := ((do setup world 0 .zero 1; process world ⟨10, 10⟩ : SearchM Memory _).run fresh).2
    let cells : List (Pos × Block) := [(⟨14, 0, 1⟩, 7), (⟨15, 0, 1⟩, 5), (⟨16, 0, 1⟩, 5),
      (⟨17, 0, 1⟩, 7), (⟨18, 0, 2⟩, 5), (⟨18, 1, 2⟩, 5), (⟨18, 1, 1⟩, Block.undefined)]
    farm.compile.Built True ∧ Provider.none.Total ∧ Due world .output found ∧
      ∃ m s', (output world).run found = (.ok m, s') ∧
        (∀ q, m.block q = .ok (found.declared world q)) ∧
        ∀ e ∈ cells, found.declared world e.1 = e.2 := by
  intro world fresh found cells
  have total := Provider.total_none
  obtain ⟨ends, solved, _⟩ := farm_found
  have used : Used world fresh := .new Cache.standardDraws 0 .standard
  have due : Due world .output found :=
    due_output used (by decide +kernel) (Prod.ext ends rfl) solved
  have same := search_forgotten built_farm.marked (used.trusted built_farm) ⟨10, 10⟩ 0 .zero 1
  have painted : ((output world).run found).1 = _ := (output_matches same.2).1.eq
  have blocks : ∀ e ∈ cells, ((output world).run found).1.bind (·.block e.1) = .ok e.2 := by
    rw [painted]
    decide +kernel
  rcases output_shows_declared built_farm total due with ⟨m, s', run, shows⟩ | ⟨s', run, _⟩
  · refine ⟨built_farm, total, due, m, s', run, shows, fun e he => ?_⟩
    have block := blocks e he
    rw [run] at block
    exact Except.ok.inj ((shows e.1).symm.trans block)
  · rw [run] at blocks
    cases blocks _ List.mem_cons_self

end Search

end VoxelGrammar
