import VoxelGrammar.Proofs.Refusals
import VoxelGrammar.Proofs.TypeSafety

/-!
What becomes of listed positions. A fill that is declared by a list of positions stays with its component
through all later statements and through the compilation, and for every placement of the component it is
painted at the listed positions, moved by the offset, where the block is defined. The list may be empty:
then nothing is painted without an offset, but an offset without positions is painted as a single cell.
-/

namespace VoxelGrammar

variable {own : Prop} {μ α : Type}

/-- The fill that a list of positions is kept as. -/
def Fill.listing (block : FieldId) (positions : List Pos) (offset : Option FieldId) : Fill :=
  ⟨block, offset, none, positions, offset.isSome⟩

namespace Draft

/-! ### What is declared stays -/

def Has (id : ComponentId) (f : Fill) (d : Draft) : Prop :=
  ∃ e, d.components[id]? = some e ∧ f ∈ e.value.fills

section

variable {id : ComponentId} {f : Fill} {d : Draft}

theorem Has.push (h : d.Has id f) (e : Entry Component) :
    Has id f { d with components := d.components.push e } := by
  obtain ⟨e', he, hf⟩ := h
  exact ⟨e', getElem?_push_of_some he e, hf⟩

theorem Has.modify (h : d.Has id f) (k : ComponentId) {g : Entry Component → Entry Component}
    (hg : ∀ e, e.value.fills ⊆ (g e).value.fills) :
    Has id f { d with components := d.components.modify k g } := by
  obtain ⟨e, he, hf⟩ := h
  by_cases same : k = id
  · exact ⟨g e, by simp [Array.getElem?_modify, same, he], hg e hf⟩
  · exact ⟨e, by simp [Array.getElem?_modify, same, he], hf⟩

theorem ComponentEdit.fills {g : Component → Component} (edit : ComponentEdit own d g)
    (c : Component) : c.fills ⊆ (g c).fills := by
  cases edit with
  | fill _ _ _ => exact List.subset_append_left _ _
  | _ => exact List.Subset.refl _

/-- No edit takes a fill away. -/
theorem Edit.has {subject : Option SymbolRef} {d' : Draft} (edit : Edit own subject d d')
    (h : d.Has id f) : d'.Has id f := by
  cases edit with
  | complain e => exact h
  | field _ _ => exact h
  | referRule _ => exact h
  | declareRule k => exact h
  | referComponent _ => exact h.push _
  | declareComponent k => exact h.modify k fun _ => List.Subset.refl _
  | @symbol s _ _ _ =>
      cases s with
      | rule k => exact h
      | expansion k => exact h
      | component k => exact h.modify k fun _ => List.Subset.refl _
  | component _ edit => exact h.modify _ fun e => edit.fills e.value
  | expand _ _ _ _ _ => exact h

end

/-! ### Where a list is declared -/

/-- A list of positions is kept as a fill. -/
theorem has_fillPositions {id : ComponentId} {block : FieldId} {positions : List Pos}
    {offset : Option FieldId} {d d' : Draft} {u : Unit}
    (run : (fillPositions id block positions offset).run d = .ok (u, d')) :
    d'.Has id (Fill.listing block positions offset) := by
  have added : ∀ {d}, (addFill id (Fill.listing block positions offset)).run d = .ok (u, d') →
      d'.Has id (Fill.listing block positions offset) := by
    intro d run
    obtain ⟨known, rfl⟩ := amendComponent_ok run
    refine ⟨_, by rw [Array.getElem?_modify, if_pos rfl, Array.getElem?_eq_getElem known]; rfl, ?_⟩
    exact List.mem_append_right _ List.mem_cons_self
  obtain ⟨_, d₁, _, run⟩ := bind_ok run
  cases offset with
  | none => exact added run
  | some offset =>
      obtain ⟨_, d₂, _, run⟩ := bind_ok run
      exact added run

/-- The drafts that the statement leads to, whatever has been said before it and is said after it. -/
inductive Declares (own : Prop) (t : Statement) : Draft → Prop
  | now {d d' : Draft} {r : Option Nat} (reached : Reached own d) (owned : own → t.Owned d)
    (run : t.run.run d = .ok (r, d')) : Declares own t d'
  | later {d d' : Draft} {r : Option Nat} (declares : Declares own t d) (s : Statement)
    (owned : own → s.Owned d) (run : s.run.run d = .ok (r, d')) : Declares own t d'

namespace Declares

variable {t : Statement} {d d' : Draft}

theorem reached (declares : Declares own t d) : Reached own d := by
  induction declares with
  | now reached owned run => exact .next t reached owned run
  | later _ s owned run ih => exact .next s ih owned run

theorem script {statements : List Statement} (declares : Declares True t d)
    (h : Draft.script statements d = some d') : Declares True t d' := by
  induction statements generalizing d with
  | nil =>
      cases h
      exact declares
  | cons s rest ih =>
      obtain ⟨owned, _, _, run, h⟩ := script_cons h
      exact ih (declares.later s (fun _ => owned) run) h

/-- A list that has been declared is there in the end. -/
theorem has {id : ComponentId} {block : FieldId} {positions : List Pos} {offset : Option FieldId}
    (declares : Declares own (.fillPositions id block positions offset) d) :
    d.Has id (Fill.listing block positions offset) := by
  induction declares with
  | now _ _ run => exact has_fillPositions (silent_ok run)
  | later _ s owned run ih => exact (edits_run owned run).keep Edit.has ih

end Declares

/-- What is one of the statements of a script is declared by it. -/
theorem Reached.declares {statements : List Statement} {t : Statement} {d d' : Draft}
    (reached : Reached True d) (ht : t ∈ statements) (h : Draft.script statements d = some d') :
    Declares True t d' := by
  induction statements generalizing d with
  | nil => cases ht
  | cons s rest ih =>
      obtain ⟨owned, _, _, run, written⟩ := script_cons h
      rcases List.mem_cons.1 ht with rfl | ht
      · exact (Declares.now reached (fun _ => owned) run).script written
      · exact ih (.next s reached (fun _ => owned) run) ht written

theorem declares_ofStatements {statements : List Statement} {t : Statement}
    (written : (script statements .empty).isSome = true) (ht : t ∈ statements) :
    Declares True t (ofStatements statements) := by
  obtain ⟨d, hd⟩ := Option.isSome_iff_exists.1 written
  rw [ofStatements, hd, Option.getD_some]
  exact Reached.empty.declares ht hd

theorem Has.compile {id : ComponentId} {f : Fill} {d : Draft} (h : d.Has id f) :
    ∃ c, d.compile.component id = .ok c ∧ f ∈ c.fills := by
  obtain ⟨e, he, hf⟩ := h
  exact ⟨_, component_compile.2 ⟨e, he, rfl⟩, hf⟩

end Draft

/-! ### What a list covers -/

namespace Fill

/-- The world positions that a list of positions stands for in a context, if the offset can be
evaluated there. -/
def cells (w : World μ) (a : Arena) (h : Handle) (positions : List Pos) (offset : Option FieldId) :
    List Pos :=
  let moved := match offset with
    | some id => (w.forgetful.samplePos a h id).answer
    | none => .ok .zero
  match a.get h, moved with
  | .ok c, .ok v => positions.map fun p => c.mapToWorld (p + v)
  | _, _ => []

variable {w : World μ} {a : Arena} {h : Handle} {block : FieldId} {positions : List Pos}
  {offset : Option FieldId}

/-- A list covers its positions, unless it is an empty one with an offset. -/
theorem covers_listing (plain : positions ≠ [] ∨ offset = none) (p : Pos) :
    (listing block positions offset).covers w a h p =
      decide (p ∈ cells w a h positions offset) := by
  cases positions with
  | nil =>
      obtain rfl : offset = none := plain.resolve_left fun nonempty => nonempty rfl
      have nowhere : cells w a h [] none = [] := by
        unfold cells
        cases a.get h <;> rfl
      rw [nowhere]
      rfl
  | cons q rest =>
      cases hc : a.get h with
      | error e => cases offset <;> simp [covers, cells, listing, hc]
      | ok c =>
          cases offset with
          | none => simp [covers, cells, listing, hc]
          | some id =>
              cases hv : (w.forgetful.samplePos a h id).answer <;>
                simp [covers, cells, listing, hc, hv]

/-- An empty list with an offset covers the position of the offset. -/
theorem covers_empty_listing (offset : FieldId) (p : Pos) :
    (listing block [] (some offset)).covers w a h p =
      decide (p ∈ cells w a h [.zero] (some offset)) := by
  have corner : (w.forgetful.sampleWorldPos a h offset).answer =
      (w.forgetful.samplePos a h offset).answer >>= fun v =>
        (liftM (a.get h) : Except EvalError Context) >>= fun c => .ok (c.mapToWorld v) := by
    rw [World.sampleWorldPos, Eval.answer_bind]
    congr 1
    funext v
    rw [Eval.answer_bind]
    rfl
  cases hv : (w.forgetful.samplePos a h offset).answer with
  | error e =>
      have nowhere : (w.forgetful.sampleWorldPos a h offset).answer = .error e := by
        rw [corner, hv]
        rfl
      cases hc : a.get h <;> simp [covers, cells, listing, hc, hv, nowhere]
  | ok v =>
      cases hc : a.get h with
      | error e =>
          have nowhere : (w.forgetful.sampleWorldPos a h offset).answer = .error (.fault e) := by
            rw [corner, hv, hc]
            rfl
          simp [covers, cells, listing, hc, nowhere]
      | ok c =>
          have there : (w.forgetful.sampleWorldPos a h offset).answer = .ok (c.mapToWorld v) := by
            rw [corner, hv, hc]
            rfl
          have start : Pos.zero + v = v := by
            ext <;> exact Int32.zero_add _
          simp [covers, cells, listing, hc, hv, there, start]

end Fill

/-! ### Painting a list -/

def FieldKind.constant? : FieldKind → Option Sample
  | .constant v => some v
  | _ => none

theorem FieldKind.constant?_eq_some_iff {kind : FieldKind} {v : Sample} :
    kind.constant? = some v ↔ kind = .constant v := by
  cases kind <;> simp [constant?]

namespace World

section

variable {w : World μ} {a : Arena} {h : Handle} {id : FieldId} {f : Field} {v : Sample}
  (sturdy : w.Sturdy) (steady : w.provider.Steady) (sane : a.Sane w.grammar) (hl : Lives a.live h)
  (hf : w.grammar.field id = .ok f) (kind : f.kind = .constant v)

include sturdy steady sane hl hf kind

/-- A constant has the same value everywhere. -/
theorem valueAt_constant (p : Pos) : w.valueAt a h id p = .ok v := by
  have known : id < w.grammar.fields.size := (Array.getElem?_eq_some_iff.1 (Fault.lookup_eq_ok_iff.1 hf)).1
  have sources : a.sources h id f = .ok [] := by
    rw [Arena.sources.eq_def, kind]
    rfl
  have denotes : w.forgetful.Denotes a h id p (.ok v) := by
    refine ⟨.ok _, 1, (denoteIn_sources hf sources p 0).trans ?_⟩
    rw [kind]
    rfl
  have agrees := record_denotes (w := w.forgetful) sturdy.closed sturdy.total sane Notebook.honest_blank
    sturdy.marked steady (m := ()) trivial hl known p .point (i := 0) Nat.zero_lt_one denotes
  obtain ⟨r, hr, hv⟩ := agrees.symm.ok_left
  exact (sample_ok_iff (w := w.forgetful) (m := ())).2 ⟨r, hr, hv⟩

theorem samplePos_constant : (w.forgetful.samplePos a h id).answer = .ok v.asPos := by
  obtain ⟨x, _, hx⟩ := sane.get hl
  have origin : (w.forgetful.sampleOrigin a h id).answer = .ok v := by
    rw [sampleOrigin, Eval.answer_bind, hx]
    exact valueAt_constant sturdy steady sane hl hf kind x.origin
  rw [samplePos, Eval.answer_bind, origin]
  rfl

end

end World

namespace Search

theorem paintPlacement_eq {w : World μ} {p : Placement} {c : Component}
    (hc : w.grammar.component p.component = .ok c) (m : BlockMap) :
    paintPlacement w m p = (fillsOf w.grammar p).foldlM (fun m e => paint w e.1 m e.2) m := by
  rw [fillsOf, hc, paintPlacement, hc]
  dsimp only
  rw [List.foldlM_map]
  rfl

theorem foldlM_paintPlacement {w : World μ} {ps : List Placement}
    (h : ∀ p ∈ ps, ∃ c, w.grammar.component p.component = .ok c) (m : BlockMap) :
    ps.foldlM (paintPlacement w) m =
      (ps.flatMap (fillsOf w.grammar)).foldlM (fun m e => paint w e.1 m e.2) m := by
  induction ps generalizing m with
  | nil => rfl
  | cons p ps ih =>
      obtain ⟨⟨c, hc⟩, rest⟩ := List.forall_mem_cons.1 h
      rw [List.foldlM_cons, List.flatMap_cons, List.foldlM_append, paintPlacement_eq hc]
      exact congrArg _ (funext fun m => ih rest m)

/-- A structure is painted fill by fill. -/
theorem output_eq_paint_fills {w : World μ} {s : Search μ} (secure : Secure w s)
    (solved : s.plan.solved = true) : (output w).run s =
      ((s.fills w.grammar).foldlM (fun m e => paint w e.1 m e.2) .empty).run s := by
  rw [output, SearchM.run_bind, SearchM.run_get]
  dsimp only
  rw [if_pos solved, fills]
  refine congrArg (fun x : SearchM μ BlockMap => x.run s) (foldlM_paintPlacement (fun p hp => ?_) _)
  exact (secure.sane.placements p (Array.mem_toList_iff.1 hp)).2

/-- The painting writes a block field into the cells, wherever the field has a block that is defined,
and leaves all other cells alone, unless an evaluation goes on forever. -/
def FillsExactly (w : World Memory) (s : Search Memory) (h : Handle) (block : FieldId)
    (cells : List Pos) (m : BlockMap) (x : SearchM Memory BlockMap) : Prop :=
  (∃ m' s', x.run s = (.ok m', s') ∧ m'.Addressed ∧ ∀ q, m'.block q =
    (if q ∈ cells then w.blockAt s.arena h block q else none).elim (m.block q) .ok) ∨
  ∃ s', x.run s = (.error .endlessEvaluation, s') ∧ w.Endless s.arena

variable {g : Grammar} {p : Provider} {s : Search Memory}

/-- A fill of a component that was placed is painted where it covers something. -/
theorem paint_fillsExactly (hg : g.Built True) (hp : p.Total) (inUse : InUse (.remembering g p) s)
    {q : Placement} (placed : q ∈ s.plan.placements) {c : Component}
    (hc : g.component q.component = .ok c) {f : Fill} (hf : f ∈ c.fills) {m : BlockMap}
    (hm : m.Addressed) {cells : List Pos}
    (covered : ∀ r, f.covers (.remembering g p) s.arena q.context r = decide (r ∈ cells)) :
    FillsExactly (.remembering g p) s q.context f.block cells m
      (paint (.remembering g p) q.context m f) := by
  have sturdy := World.sturdy_remembering hg hp
  have secure := inUse.secure hg
  have lives : Lives s.arena.live q.context := (secure.sane.placements q placed).1
  have within := (sturdy.closed.components _ c hc).fills f hf
  have mirror := mirror_forgotten hg.marked (inUse.trusted hg)
  have mirrored := paint_matches mirror q.context m f
  have same := mirrored.1.eq
  rw [Handle.shift_zero] at same mirrored
  rcases hrun : (paint (.remembering g p) q.context m f).run s with ⟨e | m', s'⟩
  · rw [hrun] at same mirrored
    obtain ⟨unbroken, _⟩ := paint_paintable (s := s.forgotten) sturdy secure.arena lives within hm
    obtain ⟨rfl, endless⟩ := unbroken e same.symm
    have painted := paint_painted (w := .remembering g p) (s := s) q.context m f
    rw [hrun] at painted
    exact .inr ⟨s', hrun, painted.1 ▸ endless.mirror mirrored.2.arena mirrored.2.trusted.ground⟩
  · rw [hrun] at same
    obtain ⟨_, addressed, shows⟩ := paint_finishes (s := s.forgotten) sturdy secure.arena lives within.1
      hm m' _ (Prod.ext same.symm rfl)
    refine .inl ⟨m', s', hrun, addressed, fun r => ?_⟩
    have layer : f.layer (.remembering g p) s.arena q.context r =
        if r ∈ cells then (World.remembering g p).blockAt s.arena q.context f.block r else none :=
      congrFun (Fill.layer_eq covered) r
    rw [BlockMap.block_eq, BlockMap.block_eq, shows, ← layer]
    show Except.ok ((f.layer (.remembering g p) s.arena q.context r).getD (m.view r)) = _
    cases f.layer (.remembering g p) s.arena q.context r <;> rfl

/-- A list of positions that a grammar declares for a component is among the fills that are painted for
every placement of it, one after the other. It is painted at the positions moved by the offset, each in
the place that the context gives it, where the block is defined, and nowhere else. An empty list without
an offset paints nothing, but one with an offset paints the cell of the offset. -/
theorem listings_fill_their_cells {d : Draft} {id : ComponentId} {block : FieldId} {positions : List Pos}
    {offset : Option FieldId}
    (declares : Draft.Declares True (.fillPositions id block positions offset) d)
    (built : d.build = .ok g) (hp : p.Total) (inUse : InUse (.remembering g p) s) {q : Placement}
    (placed : q ∈ s.plan.placements) (here : q.component = id) :
    let w := World.remembering g p
    let fill := Fill.listing block positions offset
    (q.context, fill) ∈ s.fills g ∧
    (s.plan.solved = true → (output w).run s =
      ((s.fills g).foldlM (fun m e => paint w e.1 m e.2) .empty).run s) ∧
    ∀ m : BlockMap, m.Addressed →
      (positions ≠ [] ∨ offset = none →
        FillsExactly w s q.context block (Fill.cells w s.arena q.context positions offset) m
          (paint w q.context m fill)) ∧
      (positions = [] → ∀ o, offset = some o →
        FillsExactly w s q.context block (Fill.cells w s.arena q.context [.zero] (some o)) m
          (paint w q.context m fill)) := by
  intro w fill
  have hg : g.Built True := ⟨d, declares.reached, built⟩
  obtain ⟨_, rfl⟩ := Draft.build_ok built
  obtain ⟨c, hc, hf⟩ := declares.has.compile
  rw [← here] at hc
  refine ⟨?_, output_eq_paint_fills (inUse.secure hg), fun m hm => ⟨fun plain => ?_, ?_⟩⟩
  · refine List.mem_flatMap.2 ⟨q, Array.mem_toList_iff.2 placed, ?_⟩
    rw [fillsOf, hc]
    exact List.mem_map_of_mem hf
  · exact paint_fillsExactly hg hp inUse placed hc hf hm (Fill.covers_listing plain)
  · rintro rfl o rfl
    exact paint_fillsExactly hg hp inUse placed hc hf hm (Fill.covers_empty_listing o)

/-- A lodge has two lists of positions, and the empty one of them has an offset, so each of them paints a
cell. -/
theorem listings_fill_their_cells_lodge :
    let world := World.remembering lodge.compile .none
    ∃ found x cell, Draft.Declares True (.fillPositions 0 1 [⟨1, 0, 0⟩] (some 0)) lodge ∧
      Draft.Declares True (.fillPositions 0 1 [] (some 0)) lodge ∧
      lodge.build = .ok lodge.compile ∧ Provider.none.Total ∧ InUse world found ∧
      ⟨0, 0, ⟨2, 0⟩, x⟩ ∈ found.plan.placements ∧
      FillsExactly world found ⟨2, 0⟩ 1
        (Fill.cells world found.arena ⟨2, 0⟩ [⟨1, 0, 0⟩] (some 0)) .empty
        (paint world ⟨2, 0⟩ .empty (.listing 1 [⟨1, 0, 0⟩] (some 0))) ∧
      FillsExactly world found ⟨2, 0⟩ 1 [cell] .empty
        (paint world ⟨2, 0⟩ .empty (.listing 1 [] (some 0))) ∧
      world.blockAt found.arena ⟨2, 0⟩ 1 cell = some 5 := by
  intro world
  obtain ⟨found, _, _, x, underway, _, _, _, _, ⟨yard, _⟩, placements⟩ := lodge_found
  have inUse : InUse world found := .underway (.new Cache.standardDraws 0 .standard) underway
  have placed : ⟨0, 0, ⟨2, 0⟩, x.toWorld⟩ ∈ found.plan.placements := by
    rw [← Array.mem_toList_iff, placements]
    exact List.mem_singleton.2 rfl
  have total := Provider.total_none
  have steady := Provider.steady_none
  have sturdy := World.sturdy_remembering built_lodge total
  have sane := (inUse.secure built_lodge).arena
  have lives : (⟨2, 0⟩, x) ∈ found.arena.live := (Arena.mem_live_iff sane.numbered).2 yard
  have first : Draft.Declares True (.fillPositions 0 1 [⟨1, 0, 0⟩] (some 0)) lodge :=
    Draft.declares_ofStatements (by decide +kernel) (by simp)
  have second : Draft.Declares True (.fillPositions 0 1 [] (some 0)) lodge :=
    Draft.declares_ofStatements (by decide +kernel) (by simp)
  have built : lodge.build = .ok lodge.compile := Draft.build_of_error? (by decide +kernel)
  obtain ⟨f, hf, constant⟩ : Succeeds (fun f : Field => f.kind.constant?.isSome = true)
      (lodge.compile.field 0) := by decide +kernel
  obtain ⟨v, hv⟩ := Option.isSome_iff_exists.1 constant
  obtain ⟨f', hf', stone⟩ : Succeeds (fun f : Field => f.kind.constant?.map Sample.asBlock = some 5)
      (lodge.compile.field 1) := by decide +kernel
  obtain ⟨b, hb, five⟩ := Option.map_eq_some_iff.1 stone
  have value := World.valueAt_constant sturdy steady sane ⟨x, lives⟩ hf'
    (FieldKind.constant?_eq_some_iff.1 hb)
  have offset : (world.forgetful.samplePos found.arena ⟨2, 0⟩ 0).answer = .ok v.asPos :=
    World.samplePos_constant sturdy steady sane ⟨x, lives⟩ hf (FieldKind.constant?_eq_some_iff.1 hv)
  have cells : Fill.cells world found.arena ⟨2, 0⟩ [.zero] (some 0) =
      [x.mapToWorld (.zero + v.asPos)] := by
    simp only [Fill.cells, yard, offset, List.map_singleton]
  obtain ⟨_, _, listed⟩ := listings_fill_their_cells first built total inUse placed rfl
  obtain ⟨_, _, empty⟩ := listings_fill_their_cells second built total inUse placed rfl
  refine ⟨found, _, _, first, second, built, total, inUse, placed,
    (listed .empty BlockMap.addressed_empty).1 (.inl (by simp)),
    cells ▸ (empty .empty BlockMap.addressed_empty).2 rfl 0 rfl, ?_⟩
  rw [World.blockAt, value]
  dsimp only
  rw [five]
  rfl

end Search

end VoxelGrammar
