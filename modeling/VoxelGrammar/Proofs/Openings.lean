import Mathlib.Data.Set.Card
import VoxelGrammar.Proofs.Foreign
import VoxelGrammar.Proofs.Listings

/-!
Which subchunks a structure lists. A block that is written to a map has its subchunk listed, but a box
opens the subchunk of each of its slices before it looks at the blocks. If the block field is undefined
all over a slice, and nothing else is written there, the subchunk stays listed with nothing in it.
-/

namespace VoxelGrammar

variable {μ α : Type}

/-! ### The subchunks that a map lists -/

namespace BlockMap

variable {m m' : BlockMap} {p o : Pos}

def origins (m : BlockMap) : Set Pos := {o | (m.cells? o).isSome}

theorem ne_of_precedes (h : p.Precedes o) : p ≠ o := by
  rintro rfl
  exact Pos.precedes_irrefl p h

theorem mem_origins_iff : o ∈ m.origins ↔ o ∈ m.entries.map Prod.fst := by
  show (m.entries.lookup o).isSome = true ↔ _
  rw [List.mem_map, Option.isSome_iff_exists]
  constructor
  · rintro ⟨c, hc⟩
    exact ⟨(o, c), mem_of_lookup hc, rfl⟩
  · rintro ⟨⟨_, c⟩, hc, rfl⟩
    exact ⟨c, lookup_of_mem m.ordered hc⟩

theorem origins_empty : empty.origins = ∅ := Set.eq_empty_of_forall_notMem fun _ h => by cases h

/-- The size of a map is the number of subchunks that it lists. -/
theorem ncard_origins (m : BlockMap) : m.origins.ncard = m.size := by
  have distinct : (m.entries.map Prod.fst).Nodup :=
    List.pairwise_map.2 (m.ordered.imp fun before => ne_of_precedes before)
  have listed : m.origins = ((m.entries.map Prod.fst).toFinset : Set Pos) := by
    ext o
    rw [mem_origins_iff, List.coe_toFinset, Set.mem_ofPred_eq]
  rw [listed, Set.ncard_coe_finset, List.toFinset_card_of_nodup distinct, List.length_map, size]

theorem isEmpty_iff_origins : m.isEmpty = true ↔ m.origins = ∅ := by
  rw [isEmpty, List.isEmpty_iff, Set.eq_empty_iff_forall_notMem]
  simp only [mem_origins_iff]
  constructor
  · rintro none o ho
    rw [none] at ho
    cases ho
  · exact fun h => List.map_eq_nil_iff.1 (List.eq_nil_iff_forall_not_mem.2 h)

/-- A subchunk is listed from the first access on, whatever is done to its cells. -/
theorem origins_of_updateAt {f : Cells → Except Fault Cells} (h : m.updateAt p f = .ok m') :
    m'.origins = insert p.subchunk m.origins := by
  obtain ⟨d, _, cells⟩ := of_updateAt_eq_ok h
  ext o
  rw [origins, Set.mem_ofPred_eq, cells, Set.mem_insert_iff]
  by_cases ho : o = p.subchunk <;> simp [ho, origins]

end BlockMap

namespace Box

/-- Of the words between two others, one is in each of the steps of the grid that starts below them. -/
theorem exists_word_of_mem_span {low high v : Int32} (le : low ≤ high)
    (hv : v ∈ span (low &&& ~~~15) high subchunkSize) :
    ∃ u, low ≤ u ∧ u ≤ high ∧ u &&& ~~~15 = v := by
  rw [mem_span (by decide), Pos.floor_toInt] at hv
  simp only [subchunkSize, Int32.le_iff_toInt_le, ← Int32.toInt_inj, Pos.floor_toInt] at *
  rcases Int.le_total low.toInt v.toInt with h | h
  · exact ⟨v, by omega⟩
  · exact ⟨low, by omega⟩

/-- A box has a cell in each subchunk that it is sliced into. -/
theorem exists_mem_of_mem_grid {b : Box} {q o : Pos} (hq : q ∈ b)
    (ho : o ∈ (Box.mk b.low.subchunk b.high).grid subchunkSize) : ∃ p ∈ b, p.subchunk = o := by
  obtain ⟨⟨x₁, y₁, z₁⟩, x₂, y₂, z₂⟩ := hq
  obtain ⟨hx, hy, hz⟩ := mem_grid.1 ho
  obtain ⟨x, lx, xh, rx⟩ := exists_word_of_mem_span (Int32.le_trans x₁ x₂) hx
  obtain ⟨y, ly, yh, ry⟩ := exists_word_of_mem_span (Int32.le_trans y₁ y₂) hy
  obtain ⟨z, lz, zh, rz⟩ := exists_word_of_mem_span (Int32.le_trans z₁ z₂) hz
  exact ⟨⟨x, y, z⟩, ⟨⟨lx, ly, lz⟩, xh, yh, zh⟩, Pos.ext rx ry rz⟩

theorem low_mem_spanning (p q : Pos) : (spanning p q).low ∈ spanning p q := by
  have word : ∀ u v : Int32, (if u ≤ v then u else v) ≤ (if u ≤ v then u else v) ∧
      (if u ≤ v then u else v) ≤ (if u ≤ v then v else u) := by
    intro u v
    split <;> simp only [Int32.le_iff_toInt_le] at * <;> omega
  have x := word p.x q.x
  have y := word p.y q.y
  have z := word p.z q.z
  exact ⟨⟨x.1, y.1, z.1⟩, x.2, y.2, z.2⟩

end Box

/-! ### Paintings that open subchunks -/

/-- The painting comes to its end, and the subchunks it has opened are listed then. -/
def Opens (os : Set Pos) (x : Painting Unit Unit) : Prop :=
  ∀ m : BlockMap, m.Addressed → ∃ m' : BlockMap, (x.run m).run () = ((.ok (), m'), ()) ∧
    m'.Addressed ∧ m'.origins = m.origins ∪ os

namespace Opens

variable {os : Set Pos}

theorem pure : Opens ∅ (Pure.pure ()) := fun m hm => ⟨m, rfl, hm, (Set.union_empty _).symm⟩

theorem forM {xs : List α} {f : α → Painting Unit Unit} {os : α → Set Pos}
    (h : ∀ v ∈ xs, Opens (os v) (f v)) : Opens (⋃ v ∈ xs, os v) (xs.forM f) := by
  induction xs with
  | nil => simpa using pure
  | cons v xs ih =>
      obtain ⟨hv, hxs⟩ := List.forall_mem_cons.1 h
      intro m hm
      obtain ⟨m₁, run, h₁, lists⟩ := hv m hm
      obtain ⟨m₂, run', h₂, lists'⟩ := ih hxs m₁ h₁
      refine ⟨m₂, ?_, h₂, ?_⟩
      · show ((f v >>= fun _ => xs.forM f).run m).run () = _
        rw [Paints.run_bind, run]
        exact run'
      · rw [lists', lists, Set.union_assoc]
        simp

/-- What is written through the cells of one subchunk opens that subchunk only. -/
theorem change {p o : Pos} (ho : p.subchunk = o) {f : Cells → Except Fault Cells}
    (h : ∀ m : BlockMap, m.Addressed → Succeeds BlockMap.Addressed (m.updateAt p f)) :
    Opens {o} (Painting.change fun m => m.updateAt p f) := by
  intro m hm
  obtain ⟨m', hm', addressed⟩ := h m hm
  refine ⟨m', ?_, addressed, ?_⟩
  · simp only [Painting.change, ExceptT.run_mk, StateT.run, hm']
    rfl
  · rw [BlockMap.origins_of_updateAt hm', ho, Set.union_singleton]

/-- Evaluations open nothing. -/
theorem evaluate {y : Eval Unit α} {v : α} (hy : y.answer = .ok v) {f : α → Painting Unit Unit}
    (h : Opens os (f v)) : Opens os (liftM y >>= f) := by
  rw [evaluate_of_ok hy]
  exact h

theorem lift {y : Except Fault α} {v : α} (hy : y = .ok v) {f : α → Painting Unit Unit}
    (h : Opens os (f v)) : Opens os (liftM y >>= f) := by
  subst hy
  exact h

end Opens

/-- The subchunks that the painting has opened are listed, whether or not it comes to its end. -/
def Lists (os : Set Pos) (x : Painting Unit Unit) : Prop :=
  ∀ m : BlockMap, m.Addressed → ∃ (r : Except EvalError Unit) (m' : BlockMap),
    (x.run m).run () = ((r, m'), ()) ∧ m'.Addressed ∧ m'.origins = m.origins ∪ os

theorem Opens.lists {os os' : Set Pos} {x : Painting Unit Unit} (hx : Opens os x) (same : os = os') :
    Lists os' x := fun m hm => ⟨_, same ▸ hx m hm⟩

theorem Idle.lists {os : Set Pos} {x : Painting Unit Unit} (hx : Idle x) (none : os = ∅) :
    Lists os x := by
  intro m hm
  obtain ⟨r, hr⟩ := hx m
  exact ⟨r, m, hr, hm, by rw [none, Set.union_empty]⟩

/-! ### What a fill opens -/

namespace Fill

/-- The subchunks that a fill opens. For listed positions these are the ones it paints in; a box opens
all subchunks that it meets, if only the block field can be evaluated. -/
def opened (w : World μ) (a : Arena) (h : Handle) (f : Fill) : Set Pos :=
  {o | ∃ p : Pos, p.subchunk = o ∧ f.covers w a h p = true ∧
    if f.positions.isEmpty then (w.valueAt a h f.block p).isOk = true
    else (w.blockAt a h f.block p).isSome = true}

def painted (w : World μ) (a : Arena) (h : Handle) (f : Fill) : Set Pos :=
  {o | ∃ p : Pos, p.subchunk = o ∧ (f.layer w a h p).isSome = true}

variable {w : World μ} {a : Arena} {h : Handle} {f : Fill}

theorem mem_painted_iff {o : Pos} : o ∈ f.painted w a h ↔ ∃ p : Pos, p.subchunk = o ∧
    f.covers w a h p = true ∧ (w.blockAt a h f.block p).isSome = true := by
  refine exists_congr fun p => and_congr_right fun _ => ?_
  rw [layer]
  cases f.covers w a h p <;> simp

theorem painted_subset_opened : f.painted w a h ⊆ f.opened w a h := by
  intro o ho
  obtain ⟨p, hp, covered, defined⟩ := mem_painted_iff.1 ho
  refine ⟨p, hp, covered, ?_⟩
  split
  · rw [World.blockAt] at defined
    cases hv : w.valueAt a h f.block p with
    | ok v => rfl
    | error e => simp [hv] at defined
  · exact defined

/-- A list of positions opens no more than it paints in. -/
theorem opened_eq_painted (listed : f.positions.isEmpty = false) :
    f.opened w a h = f.painted w a h := by
  ext o
  rw [mem_painted_iff]
  simp only [opened, listed, Bool.false_eq_true, if_false]
  rfl

/-- A box of a field that has values, but no defined ones, opens all that it meets and paints nowhere. -/
theorem opened_of_undefined (box : f.positions.isEmpty = true)
    (values : ∀ p, ∃ v, w.valueAt a h f.block p = .ok v ∧ Block.isUndefined v.asBlock = true) :
    f.opened w a h = {o | ∃ p : Pos, p.subchunk = o ∧ f.covers w a h p = true} ∧
      f.painted w a h = ∅ := by
  have value : ∀ p, (w.valueAt a h f.block p).isOk = true ∧ w.blockAt a h f.block p = none := by
    intro p
    obtain ⟨v, hv, undefined⟩ := values p
    rw [World.blockAt, hv]
    exact ⟨rfl, if_pos undefined⟩
  constructor
  · simp [opened, box, value]
  · refine Set.eq_empty_of_forall_notMem fun o ho => ?_
    obtain ⟨p, _, _, defined⟩ := mem_painted_iff.1 ho
    simp [value] at defined

end Fill

namespace Painting

variable {w : World μ} {a : Arena} {h : Handle} {block : FieldId} {v : Pos → Sample}

section

variable (hv : w.Records a h block v)

include hv

theorem paintSlice_opens {origin : Pos} (ho : origin.Aligned) (box : Box) :
    Opens {origin} (paintSlice w.forgetful a h block box origin) := by
  obtain ⟨r, record, tells⟩ := hv.subchunk ho
  have defined := defined_eq tells fun p => Box.subchunk_of_mem_slice ho (b := box) (p := p)
  exact .evaluate record (.lift defined (.change ho fun m hm =>
    (BlockMap.writeAll_succeeds hm origin _ fun _ => lt_of_mem_cellStrokes).imp fun _ hm' => hm'.1))

theorem paintCell_opens (p : Pos) :
    Opens {o | p.subchunk = o ∧ (w.blockAt a h block p).isSome = true}
      (paintCell w.forgetful a h block p) := by
  refine .evaluate (hv.valueAt p) ?_
  rw [World.blockAt, hv.valueAt]
  dsimp only
  split
  · next undefined =>
    simp only [Option.isSome_none, Bool.false_eq_true, and_false]
    exact .pure
  · next defined =>
    simp only [Option.isSome_some, and_true]
    have one : {o | p.subchunk = o} = ({p.subchunk} : Set Pos) := Set.ext fun _ => eq_comm
    rw [one]
    exact .change rfl fun m hm =>
      (BlockMap.write_succeeds hm p (v p).asBlock).imp fun _ hm' => hm'.1

end

variable (sturdy : w.Sturdy) (sane : a.Sane w.grammar) (hl : Lives a.live h)
  (hblock : block < w.grammar.fields.size)

include sturdy sane hl hblock

/-- A box opens the subchunks that it meets, with or without blocks to write there. -/
theorem paintBox_lists {box : Box} {q : Pos} (hq : q ∈ box) :
    Lists {o | ∃ p : Pos, p.subchunk = o ∧ p ∈ box ∧ (w.valueAt a h block p).isOk = true}
      (paintBox w.forgetful a h block box) := by
  rcases World.records_or_error sturdy sane hl hblock with ⟨v, hv⟩ | ⟨e, he⟩
  · have opens : Opens (⋃ origin ∈ (Box.mk box.low.subchunk box.high).grid subchunkSize, {origin})
        (paintBox w.forgetful a h block box) :=
      .forM fun _ horigin => paintSlice_opens hv (Box.aligned_of_mem_grid horigin) box
    refine opens.lists (Set.ext fun o => ?_)
    simp only [Set.mem_iUnion, Set.mem_singleton_iff, exists_prop, exists_eq_right', hv.valueAt]
    constructor
    · intro ho
      obtain ⟨p, hp, rfl⟩ := Box.exists_mem_of_mem_grid hq ho
      exact ⟨p, rfl, hp, rfl⟩
    · rintro ⟨p, rfl, hp, _⟩
      exact Box.subchunk_mem_grid hp
  · refine (paintBox_idle he box).lists (Set.eq_empty_of_forall_notMem ?_)
    rintro o ⟨p, _, _, ok⟩
    rw [World.valueAt_of_error he] at ok
    cases ok

theorem paintPositions_lists {c : Context} (hc : a.get h = .ok c) (positions : List Pos)
    (offset : Pos) :
    Lists {o | ∃ p : Pos, p.subchunk = o ∧ p ∈ positions.map (fun q => c.mapToWorld (q + offset)) ∧
        (w.blockAt a h block p).isSome = true}
      (paintPositions w.forgetful a h block positions offset) := by
  rcases World.records_or_error sturdy sane hl hblock with ⟨v, hv⟩ | ⟨e, he⟩
  · refine Opens.lists (.forM fun _ _ => .lift hc (paintCell_opens hv _)) (Set.ext fun o => ?_)
    simp only [Set.mem_iUnion, List.mem_map]
    constructor
    · rintro ⟨q, hq, rfl, defined⟩
      exact ⟨_, rfl, ⟨q, hq, rfl⟩, defined⟩
    · rintro ⟨_, rfl, ⟨q, hq, rfl⟩, defined⟩
      exact ⟨q, hq, rfl, defined⟩
  · refine (paintPositions_idle he positions offset).lists (Set.eq_empty_of_forall_notMem ?_)
    rintro o ⟨p, _, _, defined⟩
    rw [World.blockAt_of_error he] at defined
    cases defined

omit hblock

theorem paintFill_lists {f : Fill} (hf : f.block < w.grammar.fields.size) :
    Lists (f.opened w a h) (paintFill w.forgetful a h f) := by
  obtain ⟨idle, nowhere⟩ | ⟨box, q, q', covered, painting⟩ | ⟨listed, c, offset, hc, covered, painting⟩ :=
    paintFill_cases sane hl f
  · refine idle.lists (Set.eq_empty_of_forall_notMem ?_)
    rintro o ⟨p, _, here, _⟩
    rw [nowhere] at here
    cases here
  · have lists := paintBox_lists sturdy sane hl hf (Box.low_mem_spanning q q')
    rw [painting]
    simpa only [Fill.opened, covered, decide_eq_true_eq, box, if_true] using lists
  · have lists := paintPositions_lists sturdy sane hl hf hc f.positions offset
    rw [painting]
    simpa only [Fill.opened, covered, decide_eq_true_eq, listed, Bool.false_eq_true, if_false] using lists

end Painting

/-! ### What a structure opens -/

namespace Search

variable {ν : Type} {w : World μ}

def opened (w : World μ) (s : Search ν) : Set Pos :=
  {o | ∃ e ∈ s.fills w.grammar, o ∈ e.2.opened w s.arena e.1}

def painted (w : World μ) (s : Search ν) : Set Pos :=
  {o | ∃ e ∈ s.fills w.grammar, o ∈ e.2.painted w s.arena e.1}

theorem painted_subset_opened (w : World μ) (s : Search ν) : s.painted w ⊆ s.opened w :=
  fun _ ⟨e, he, ho⟩ => ⟨e, he, Fill.painted_subset_opened ho⟩

/-- Only a box opens what it does not paint in. -/
theorem opened_eq_painted {s : Search ν}
    (listed : ∀ e ∈ s.fills w.grammar, e.2.positions.isEmpty = false) :
    s.opened w = s.painted w :=
  Set.ext fun _ => exists_congr fun e => and_congr_right fun he => by
    rw [Fill.opened_eq_painted (listed e he)]

theorem layer_defined {a : Arena} {h : Handle} {f : Fill} {q : Pos} {b : Block}
    (hb : f.layer w a h q = some b) : b ≠ Block.undefined := by
  rw [Fill.layer] at hb
  split at hb
  · rw [World.blockAt] at hb
    split at hb
    · split at hb
      · cases hb
      · next defined =>
        cases hb
        simpa [Block.isUndefined] using defined
    · cases hb
  · cases hb

/-- A structure declares a block for a position if one of its fills paints there. -/
theorem declared_ne_undefined_iff {s : Search ν} {q : Pos} : s.declared w q ≠ Block.undefined ↔
    ∃ e ∈ s.fills w.grammar, (e.2.layer w s.arena e.1 q).isSome = true := by
  rw [declared]
  cases hb : (s.fills w.grammar).reverse.findSome? fun e => e.2.layer w s.arena e.1 q with
  | none =>
      rw [List.findSome?_eq_none_iff] at hb
      simp only [Option.getD_none, ne_eq, not_true_eq_false, false_iff, not_exists, not_and]
      intro e he
      simp [hb e (List.mem_reverse.2 he)]
  | some b =>
      obtain ⟨e, he, hb⟩ := List.exists_of_findSome?_eq_some hb
      simp only [Option.getD_some]
      exact ⟨fun _ => ⟨e, List.mem_reverse.1 he, by rw [hb]; rfl⟩, fun _ => layer_defined hb⟩

section

variable {s : Search Unit} (sturdy : w.Sturdy) (sane : s.arena.Sane w.grammar)

include sturdy sane

theorem foldlM_paint_lists {es : List (Handle × Fill)}
    (hes : ∀ e ∈ es, Lives s.arena.live e.1 ∧ e.2.block < w.grammar.fields.size) {m m' : BlockMap}
    {s' : Search Unit} (hm : m.Addressed)
    (hrun : (es.foldlM (fun m e => paint w.forgetful e.1 m e.2) m).run s = (.ok m', s')) :
    m'.origins = m.origins ∪ {o | ∃ e ∈ es, o ∈ e.2.opened w s.arena e.1} := by
  induction es generalizing m with
  | nil =>
      cases hrun
      simp
  | cons e es ih =>
      obtain ⟨⟨hl, hf⟩, hes⟩ := List.forall_mem_cons.1 hes
      rw [List.foldlM_cons] at hrun
      obtain ⟨m₁, s₁, hfirst, hrest⟩ := SearchM.bind_ok hrun
      obtain ⟨rfl, _, painting⟩ := paint_ok hfirst
      obtain ⟨_, _, run, addressed, lists⟩ := Painting.paintFill_lists sturdy sane hl hf m hm
      rw [run] at painting
      cases painting
      rw [ih hes addressed hrest, lists, Set.union_assoc]
      simp only [List.exists_mem_cons_iff]
      rfl

omit sane in
theorem origins_output (secure : Secure w.forgetful s) (solved : s.plan.solved = true) {m : BlockMap}
    {s' : Search Unit} (hrun : (output w.forgetful).run s = (.ok m, s')) : m.origins = s.opened w := by
  have within : ∀ e ∈ s.fills w.grammar, Lives s.arena.live e.1 ∧ e.2.block < w.grammar.fields.size := by
    intro e he
    obtain ⟨p, hp, hf⟩ := List.mem_flatMap.1 he
    obtain ⟨hl, c, hc⟩ := secure.sane.placements p (Array.mem_toList_iff.1 hp)
    replace hc : w.grammar.component p.component = .ok c := hc
    simp only [fillsOf, hc, List.mem_map] at hf
    obtain ⟨f, hf, rfl⟩ := hf
    exact ⟨hl, ((sturdy.closed.components _ c hc).fills f hf).1⟩
  rw [output_eq_paint_fills secure solved] at hrun
  rw [foldlM_paint_lists sturdy secure.arena within BlockMap.addressed_empty hrun,
    BlockMap.origins_empty, Set.empty_union]
  rfl

end

/-- The map of a structure lists the subchunks that the fills open, and has blocks in those they paint
in. There are as many subchunks in it as are opened, and it is empty if none is. If all fills are lists of
positions, these are the subchunks that were written to, but a box opens all that it meets. -/
theorem output_lists_opened {g : Grammar} (hg : g.Built True) {p : Provider} (hp : p.Total)
    {s : Search Memory} (due : Due (.remembering g p) .output s) :
    let w := World.remembering g p
    (∃ m s', (output w).run s = (.ok m, s') ∧ m.origins = s.opened w ∧
        (∀ o, (∃ q : Pos, q.subchunk = o ∧ m.block q ≠ .ok Block.undefined) ↔ o ∈ s.painted w) ∧
        m.size = (s.opened w).ncard ∧ (m.isEmpty = true ↔ s.opened w = ∅) ∧
        s.painted w ⊆ s.opened w ∧
        ((∀ e ∈ s.fills g, e.2.positions.isEmpty = false) → s.opened w = s.painted w)) ∨
      ∃ s', (output w).run s = (.error .endlessEvaluation, s') ∧ w.Endless s.arena := by
  intro w
  have sturdy : w.Sturdy := World.sturdy_remembering hg hp
  obtain ⟨secure, solved, ⟨m, s', t, run, painted⟩ | endless⟩ := output_forgotten hg hp due
  · have lists : m.origins = s.opened w := origins_output sturdy secure solved painted
    refine .inl ⟨m, s', run, lists, fun o => ?_, lists ▸ m.ncard_origins.symm,
      lists ▸ BlockMap.isEmpty_iff_origins, painted_subset_opened w s,
      opened_eq_painted (w := w)⟩
    have shows : ∀ q, m.block q ≠ .ok Block.undefined ↔
        ∃ e ∈ s.fills g, (e.2.layer w s.arena e.1 q).isSome = true := by
      intro q
      rw [BlockMap.block_eq, view_output sturdy secure solved painted]
      exact (not_congr (Except.ok.injEq _ _).to_iff).trans (declared_ne_undefined_iff (s := s))
    simp only [shows]
    constructor
    · rintro ⟨q, rfl, e, he, defined⟩
      exact ⟨e, he, q, rfl, defined⟩
    · rintro ⟨e, he, q, rfl, defined⟩
      exact ⟨q, rfl, e, he, defined⟩
  · exact .inr endless

theorem output_lists_opened_lodge :
    let world := World.remembering lodge.compile .none
    ∃ found, lodge.compile.Built True ∧ Provider.none.Total ∧ Due world .output found ∧
      ((∃ m s', (output world).run found = (.ok m, s') ∧ m.origins = found.opened world ∧
          (∀ o, (∃ q : Pos, q.subchunk = o ∧ m.block q ≠ .ok Block.undefined) ↔
            o ∈ found.painted world) ∧
          m.size = (found.opened world).ncard ∧ (m.isEmpty = true ↔ found.opened world = ∅) ∧
          found.painted world ⊆ found.opened world ∧
          ((∀ e ∈ found.fills lodge.compile, e.2.positions.isEmpty = false) →
            found.opened world = found.painted world)) ∨
        ∃ s', (output world).run found = (.error .endlessEvaluation, s') ∧
          world.Endless found.arena) := by
  intro world
  obtain ⟨found, _, _, _, _, run, solved, _⟩ := lodge_found
  have total := Provider.total_none
  have due : Due world .output found :=
    due_output (.new Cache.standardDraws 0 .standard) (by decide +kernel) run solved
  exact ⟨found, built_lodge, total, due, output_lists_opened built_lodge total due⟩

end Search

end VoxelGrammar
