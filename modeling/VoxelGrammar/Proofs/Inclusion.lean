import VoxelGrammar.Proofs.Breakdown
import VoxelGrammar.Proofs.Frame
import VoxelGrammar.Proofs.Independence

/-!
A world that another one contains. What is found in it is found in the other one, too, and what is
missing from it is a fault of a known kind. So whatever is computed in the smaller world is what the
larger one computes, or it has failed with one of these faults: evaluations, searches and paintings
follow their text in both worlds, and part only where the smaller one has no answer.
-/

namespace VoxelGrammar

variable {μ α β ε σ : Type}

/-! ### Falling short -/

/-- `x` is `y` or has failed in one of the ways `E`. -/
def Short (E : ε → Prop) (x y : Except ε α) : Prop := (∃ e, E e ∧ x = .error e) ∨ x = y

namespace Short

variable {E : ε → Prop} {x y : Except ε α}

theorem refl (x : Except ε α) : Short E x x := .inr rfl

theorem error {e : ε} (he : E e) : Short E (.error e) y := .inl ⟨e, he, rfl⟩

theorem bind {f g : α → Except ε β} (hxy : Short E x y) (hfg : ∀ a, Short E (f a) (g a)) :
    Short E (x >>= f) (y >>= g) := by
  rcases hxy with ⟨e, he, rfl⟩ | rfl
  · exact error he
  · cases x with
    | error e => exact refl _
    | ok a => exact hfg a

theorem mapM {f g : α → Except ε β} (xs : List α) (h : ∀ a, Short E (f a) (g a)) :
    Short E (xs.mapM f) (xs.mapM g) := by
  induction xs with
  | nil => exact refl _
  | cons a xs ih =>
      rw [List.mapM_cons, List.mapM_cons]
      exact bind (h a) fun _ => bind ih fun _ => refl _

theorem foldlM {f g : β → α → Except ε β} (xs : List α) (h : ∀ b a, Short E (f b a) (g b a)) (b : β) :
    Short E (xs.foldlM f b) (xs.foldlM g b) := by
  induction xs generalizing b with
  | nil => exact refl _
  | cons a xs ih =>
      rw [List.foldlM_cons, List.foldlM_cons]
      exact bind (h b a) ih

end Short

def Lags (E : ε → Prop) (p q : Except ε α × σ) : Prop := (∃ e, E e ∧ p.1 = .error e) ∨ p = q

theorem Lags.eq {E : ε → Prop} {p q : Except ε α × σ} (h : Lags E p q)
    (fine : ∀ e, E e → p.1 ≠ .error e) : p = q :=
  h.resolve_left fun ⟨e, he, failed⟩ => fine e he failed

theorem Lags.of_short {E : ε → Prop} {x y : Except ε α} (h : Short E x y) (s : σ) :
    Lags E (x, s) (y, s) := h.imp_right fun heq => congrArg (·, s) heq

def EvalError.Breaks (E : Fault → Prop) : EvalError → Prop
  | .grammar _ => False
  | .fault f => E f

section

variable {E : Fault → Prop} {x y : Except Fault α}

theorem Short.lift (h : Short E x y) : Short (EvalError.Breaks E)
    (liftM x : Except EvalError α) (liftM y) := by
  rcases h with ⟨f, hf, rfl⟩ | rfl
  · exact .error (e := EvalError.fault f) hf
  · exact .refl _

end

/-! ### Worlds -/

/-- What the world `v` has the world `w` has, too; what it does not have is a fault `E`. -/
structure World.Part (E : Fault → Prop) (v w : World μ) : Prop where
  rule : ∀ id, Short E (v.grammar.rule id) (w.grammar.rule id)
  expansion : ∀ id, Short E (v.grammar.expansion id) (w.grammar.expansion id)
  component : ∀ id, Short E (v.grammar.component id) (w.grammar.component id)
  field : ∀ id, Short E (v.grammar.field id) (w.grammar.field id)
  provides : ∀ e, (E .brokenProvider ∧ v.provider.dimensionality e = none) ∨
    v.provider.dimensionality e = w.provider.dimensionality e
  samples : ∀ e p, (E .brokenProvider ∧ v.provider.sample e p = none) ∨
    v.provider.sample e p = w.provider.sample e p
  size : v.grammar.fields.size ≤ w.grammar.fields.size

/-- Samples that may be missing make up the same record, or none. -/
theorem Record.tabulate?_short {P : Prop} (n : Nat) {f g : Nat → Option Sample}
    (h : ∀ i, (P ∧ f i = none) ∨ f i = g i) :
    (P ∧ tabulate? n f = none) ∨ tabulate? n f = tabulate? n g := by
  have listed : ∀ xs : List Nat, (P ∧ xs.mapM f = none) ∨ xs.mapM f = xs.mapM g := by
    intro xs
    induction xs with
    | nil => exact .inr rfl
    | cons i xs ih =>
        rw [List.mapM_cons, List.mapM_cons]
        rcases h i with ⟨hp, hi⟩ | hi
        · rw [hi]
          exact .inl ⟨hp, rfl⟩
        · rw [hi]
          rcases ih with ⟨hp, hxs⟩ | hxs
          · rw [hxs]
            cases g i with
            | none => exact .inr rfl
            | some s => exact .inl ⟨hp, rfl⟩
          · rw [hxs]
            exact .inr rfl
  unfold tabulate?
  rw [Array.mapM_eq_mapM_toList, Array.mapM_eq_mapM_toList]
  rcases listed (Array.range n).toList with ⟨hp, hf⟩ | hf
  · rw [hf]
    exact .inl ⟨hp, rfl⟩
  · rw [hf]
    exact .inr rfl

namespace World.Part

variable {E : Fault → Prop} {v w : World μ} (part : World.Part E v w) (a : Arena)

include part

theorem symbol (ref : SymbolRef) : Short E (v.grammar.symbol ref) (w.grammar.symbol ref) := by
  cases ref with
  | rule id => exact .bind (part.rule id) fun _ => .refl _
  | expansion id => exact .bind (part.expansion id) fun _ => .refl _
  | component id => exact .bind (part.component id) fun _ => .refl _

theorem ownDimensionality (kind : FieldKind) : Short (EvalError.Breaks E)
    (v.ownDimensionality kind) (w.ownDimensionality kind) := by
  unfold World.ownDimensionality
  split
  case h_4 e =>
    rcases part.provides e with ⟨he, hv⟩ | heq
    · rw [hv]
      exact .error (e := EvalError.fault .brokenProvider) he
    · rw [heq]
      exact .refl _
  all_goals exact .refl _

theorem compute (h : Handle) (key : RecordKey) (kind : FieldKind) (inputs : List Record) :
    Short (EvalError.Breaks E) (v.compute a h key kind inputs) (w.compute a h key kind inputs) := by
  unfold World.compute
  split
  case h_6 inputs e =>
    rcases Record.tabulate?_short key.cells fun i => part.samples e (key.position i) with
      ⟨he, hv⟩ | heq
    · rw [hv]
      exact .error (e := EvalError.fault .brokenProvider) he
    · rw [heq]
      exact .refl _
  all_goals exact .refl _

theorem dimensionIn (k : Nat) (h : Handle) (id : FieldId) :
    Short (EvalError.Breaks E) (v.dimensionIn a k h id) (w.dimensionIn a k h id) := by
  induction k generalizing h id with
  | zero => exact .refl _
  | succ k ih =>
      refine .bind (part.field id).lift fun f => .bind (.refl _) fun _ =>
        .bind (part.ownDimensionality f.kind) fun own => .bind (.refl _) fun sources => ?_
      exact .foldlM sources (fun d s => .bind (ih s.1 s.2) fun _ => .refl _) own

theorem recordIn (k : Nat) (h : Handle) (id : FieldId) (origin : Pos) (extent : Extent) :
    Short (EvalError.Breaks E) (v.recordIn a k h id origin extent)
      (w.recordIn a k h id origin extent) := by
  induction k generalizing h id origin extent with
  | zero => exact .refl _
  | succ k ih =>
      refine .bind (part.dimensionIn a (k + 1) h id) fun d => .bind (part.field _).lift fun f =>
        .bind (.refl _) fun _ => .bind (.refl _) fun sources =>
          .bind (.mapM sources fun s => ih s.1 s.2 _ _) fun inputs => part.compute a h _ _ inputs

/-- The larger world allows more steps, which the smaller one has no use for. -/
theorem recordIn_depth (h : Handle) (id : FieldId) (origin : Pos) (extent : Extent) :
    Short (EvalError.Breaks E) (v.recordIn a (v.depth a) h id origin extent)
      (w.recordIn a (w.depth a) h id origin extent) := by
  have enough : v.depth a ≤ w.depth a := by
    have := Nat.mul_le_mul_left a.size part.size
    have := part.size
    unfold World.depth
    omega
  have same : v.recordIn a (v.depth a) h id origin extent =
      v.recordIn a (w.depth a) h id origin extent :=
    (World.recordIn_mono enough h id origin extent).antisymm
      (World.recordIn_depth (w.depth a) h id origin extent)
  rw [same]
  exact part.recordIn a (w.depth a) h id origin extent

end World.Part

/-! ### Providers that answer everything -/

def Provider.filled (p : Provider) : Provider where
  dimensionality e := some ((p.dimensionality e).getD .constant)
  sample e q := some ((p.sample e q).getD default)

theorem Provider.total_filled (p : Provider) : p.filled.Total :=
  ⟨fun _ => ⟨_, rfl⟩, fun _ _ => ⟨_, rfl⟩⟩

theorem Provider.part_filled (p : Provider) (g : Grammar) (notebook : Notebook μ) :
    World.Part (· = .brokenProvider) ⟨g, p, notebook⟩ ⟨g, p.filled, notebook⟩ where
  rule _ := .refl _
  expansion _ := .refl _
  component _ := .refl _
  field _ := .refl _
  provides e := by
    show _ ∨ p.dimensionality e = some ((p.dimensionality e).getD .constant)
    cases p.dimensionality e with
    | none => exact .inl ⟨rfl, rfl⟩
    | some d => exact .inr rfl
  samples e q := by
    show _ ∨ p.sample e q = some ((p.sample e q).getD default)
    cases p.sample e q with
    | none => exact .inl ⟨rfl, rfl⟩
    | some s => exact .inr rfl
  size := Nat.le_refl _

/-! ### Evaluations without a memory -/

def Eval.Short (E : Fault → Prop) (x y : Eval Unit α) : Prop :=
  VoxelGrammar.Short (EvalError.Breaks E) (x.run ()).1 (y.run ()).1

namespace Eval.Short

variable {E : Fault → Prop} {x y : Eval Unit α}

theorem refl (x : Eval Unit α) : Eval.Short E x x := VoxelGrammar.Short.refl _

theorem bind {f g : α → Eval Unit β} (hxy : Eval.Short E x y) (hfg : ∀ a, Eval.Short E (f a) (g a)) :
    Eval.Short E (x >>= f) (y >>= g) := by
  unfold Eval.Short at *
  rw [Eval.run_bind, Eval.run_bind]
  rcases hx : x.run () with ⟨e | a, m⟩ <;> rcases hy : y.run () with ⟨e' | b, m'⟩ <;>
    rw [hx, hy] at hxy <;> rcases hxy with ⟨e, he, heq⟩ | heq <;> cases heq
  · exact .error he
  · exact .refl _
  · exact .error he
  · exact hfg a

end Eval.Short

section

variable {E : Fault → Prop} {v w : World μ} (part : World.Part E v w)
  (marked : v.grammar.Marked) (marked' : w.grammar.Marked) (a : Arena) (h : Handle) (id : FieldId)

include part marked marked'

namespace World.Part

theorem record (origin : Pos) (extent : Extent) :
    Eval.Short E (v.forgetful.record a h id origin extent)
      (w.forgetful.record a h id origin extent) := by
  have means := (World.run_record (w := v.forgetful) Notebook.honest_blank marked h id origin extent
    (a := a) (m := ()) trivial).1
  have means' := (World.run_record (w := w.forgetful) Notebook.honest_blank marked' h id origin extent
    (a := a) (m := ()) trivial).1
  unfold Eval.Short
  rw [means, means']
  have within : World.Part E v.forgetful w.forgetful :=
    ⟨part.rule, part.expansion, part.component, part.field, part.provides, part.samples, part.size⟩
  exact within.recordIn_depth a h id origin extent

theorem sample (p : Pos) :
    Eval.Short E (v.forgetful.sample a h id p) (w.forgetful.sample a h id p) :=
  .bind (part.record marked marked' a h id p .point) fun _ => .refl _

theorem sampleOrigin :
    Eval.Short E (v.forgetful.sampleOrigin a h id) (w.forgetful.sampleOrigin a h id) :=
  .bind (.refl _) fun _ => part.sample marked marked' a h id _

theorem sampleBool : Eval.Short E (v.forgetful.sampleBool a h id) (w.forgetful.sampleBool a h id) :=
  .bind (part.sampleOrigin marked marked' a h id) fun _ => .refl _

theorem samplePos : Eval.Short E (v.forgetful.samplePos a h id) (w.forgetful.samplePos a h id) :=
  .bind (part.sampleOrigin marked marked' a h id) fun _ => .refl _

theorem sampleWorldPos :
    Eval.Short E (v.forgetful.sampleWorldPos a h id) (w.forgetful.sampleWorldPos a h id) :=
  .bind (part.samplePos marked marked' a h id) fun _ => .refl _

omit id in
theorem holds (cs : List FieldId) :
    Eval.Short E (v.forgetful.holds a h cs) (w.forgetful.holds a h cs) := by
  induction cs with
  | nil => exact .refl (pure true)
  | cons c rest ih =>
      refine .bind (part.sampleBool marked marked' a h c) fun b => ?_
      cases b with
      | false => exact .refl (pure false)
      | true => exact ih

omit id in
theorem areaOf (spec : AreaSpec) :
    Eval.Short E (Search.areaOf v.forgetful a h spec) (Search.areaOf w.forgetful a h spec) :=
  .bind (part.sampleWorldPos marked marked' a h _) fun _ =>
    .bind (part.sampleWorldPos marked marked' a h _) fun _ => .refl _

theorem subchunkRecord (p : Pos) :
    Eval.Short E (v.forgetful.subchunkRecord a h id p) (w.forgetful.subchunkRecord a h id p) :=
  part.record marked marked' a h id p.subchunk .subchunk

end World.Part

end

/-! ### Paintings -/

def Painting.Lags (E : Fault → Prop) (x y : Painting Unit α) : Prop :=
  ∀ map, VoxelGrammar.Lags (EvalError.Breaks E) ((x.run map).run ()).1 ((y.run map).run ()).1

namespace Painting.Lags

variable {E : Fault → Prop} {x y : Painting Unit α}

theorem refl (x : Painting Unit α) : Painting.Lags E x x := fun _ => .inr rfl

theorem bind {f g : α → Painting Unit β} (hxy : Painting.Lags E x y)
    (hfg : ∀ a, Painting.Lags E (f a) (g a)) : Painting.Lags E (x >>= f) (y >>= g) := by
  intro map
  have first := hxy map
  rw [Paints.run_bind, Paints.run_bind]
  rcases hx : (x.run map).run () with ⟨⟨e | a, map₁⟩, m⟩ <;>
    rcases hy : (y.run map).run () with ⟨⟨e' | b, map₁'⟩, m'⟩ <;> rw [hx, hy] at first <;>
    rcases first with ⟨e, he, heq⟩ | heq <;> cases heq
  · exact .inl ⟨_, he, rfl⟩
  · exact .inr rfl
  · exact .inl ⟨_, he, rfl⟩
  · exact hfg a map₁

theorem evaluate {x y : Eval Unit α} (h : Eval.Short E x y) :
    Painting.Lags E (liftM x) (liftM y) := fun map => .of_short h map

theorem forM {xs : List α} {f g : α → Painting Unit Unit} (h : ∀ a, Painting.Lags E (f a) (g a)) :
    Painting.Lags E (xs.forM f) (xs.forM g) := by
  induction xs with
  | nil => exact refl (Pure.pure ())
  | cons a xs ih => exact bind (h a) fun _ => ih

end Painting.Lags

section

variable {E : Fault → Prop} {v w : World μ} (part : World.Part E v w)
  (marked : v.grammar.Marked) (marked' : w.grammar.Marked) (a : Arena) (h : Handle)

include part marked marked'

namespace World.Part

theorem paintSlice (block : FieldId) (box : Box) (origin : Pos) :
    Painting.Lags E (Painting.paintSlice v.forgetful a h block box origin)
      (Painting.paintSlice w.forgetful a h block box origin) :=
  .bind (.evaluate (part.subchunkRecord marked marked' a h block origin)) fun _ => .refl _

theorem paintBox (block : FieldId) (box : Box) :
    Painting.Lags E (Painting.paintBox v.forgetful a h block box)
      (Painting.paintBox w.forgetful a h block box) :=
  .forM fun origin => part.paintSlice marked marked' a h block box origin

theorem paintCell (block : FieldId) (p : Pos) :
    Painting.Lags E (Painting.paintCell v.forgetful a h block p)
      (Painting.paintCell w.forgetful a h block p) :=
  .bind (.evaluate (part.sample marked marked' a h block p)) fun _ => .refl _

theorem paintPositions (block : FieldId) (positions : List Pos) (offset : Pos) :
    Painting.Lags E (Painting.paintPositions v.forgetful a h block positions offset)
      (Painting.paintPositions w.forgetful a h block positions offset) :=
  .forM fun _ => .bind (.refl _) fun _ => part.paintCell marked marked' a h block _

theorem paintFill (f : Fill) : Painting.Lags E (Painting.paintFill v.forgetful a h f)
    (Painting.paintFill w.forgetful a h f) := by
  unfold Painting.paintFill
  have corner := fun id => part.sampleWorldPos marked marked' a h id
  split
  · cases f.start with
    | none => exact .refl (pure ())
    | some start =>
        refine .bind (.evaluate (corner start)) fun p => ?_
        cases f.stop with
        | none => exact part.paintBox marked marked' a h f.block _
        | some stop =>
            exact .bind (.evaluate (corner stop)) fun q => part.paintBox marked marked' a h f.block _
  · have positions := part.paintPositions marked marked' a h f.block f.positions
    cases f.start with
    | none => exact positions _
    | some start =>
        dsimp only
        split
        · exact .bind (.evaluate (part.samplePos marked marked' a h start)) fun offset =>
            positions offset
        · exact positions _

end World.Part

end

/-! ### Searches -/

namespace Search

def Lags (E : Fault → Prop) {α : Type} (x y : SearchM Unit α) : Prop :=
  ∀ s, VoxelGrammar.Lags E (x.run s) (y.run s)

namespace Lags

variable {E : Fault → Prop} {x y : SearchM Unit α}

theorem refl (x : SearchM Unit α) : Lags E x x := fun _ => .inr rfl

theorem bind {f g : α → SearchM Unit β} (hxy : Lags E x y) (hfg : ∀ a, Lags E (f a) (g a)) :
    Lags E (x >>= f) (y >>= g) := by
  intro s
  have first := hxy s
  rw [SearchM.run_bind, SearchM.run_bind]
  rcases hx : x.run s with ⟨e | a, s₁⟩ <;> rcases hy : y.run s with ⟨e' | b, s₁'⟩ <;>
    rw [hx, hy] at first <;> rcases first with ⟨e, he, heq⟩ | heq <;> cases heq
  · exact .inl ⟨_, he, rfl⟩
  · exact .inr rfl
  · exact .inl ⟨_, he, rfl⟩
  · exact hfg a s₁

theorem lift {x y : Except Fault α} (h : Short E x y) :
    Lags E (liftM x : SearchM Unit α) (liftM y) := fun s => .of_short h s

theorem get_bind {f g : Search Unit → SearchM Unit β} (hfg : ∀ s, Lags E (f s) (g s)) :
    Lags E (get >>= f) (get >>= g) := fun s => hfg s s

theorem foldlM {f g : β → α → SearchM Unit β} (xs : List α) (h : ∀ b a, Lags E (f b a) (g b a))
    (b : β) : Lags E (xs.foldlM f b) (xs.foldlM g b) := by
  induction xs generalizing b with
  | nil => exact refl (Pure.pure b)
  | cons a xs ih =>
      rw [List.foldlM_cons, List.foldlM_cons]
      exact bind (h b a) ih

theorem evaluate {x y : Arena → Eval Unit α} (h : ∀ a, Eval.Short E (x a) (y a)) :
    Lags E (Search.evaluate x) (Search.evaluate y) := by
  intro s
  rw [run_evaluate, run_evaluate]
  rcases h s.arena with ⟨e | f, he, hx⟩ | heq
  · exact he.elim
  · refine .inl ⟨f, he, ?_⟩
    rw [show ((x s.arena).run s.memory).1 = _ from hx]
    rfl
  · rw [show ((x s.arena).run s.memory).1 = _ from heq]
    exact .inr rfl

end Lags

section

variable {E : Fault → Prop} {v w : World μ} (part : World.Part E v w)

include part

theorem enter_lags (parent : Option Handle) (ref : SymbolRef) (placement : Transform) :
    Lags E (enter v.forgetful parent ref placement) (enter w.forgetful parent ref placement) := by
  intro s
  have prepared : Short (EvalError.Breaks E)
      (s.arena.prepare v.grammar parent ref placement s.plan.seed)
      (s.arena.prepare w.grammar parent ref placement s.plan.seed) :=
    .bind (.refl _) fun _ => .bind (part.symbol ref).lift fun _ => .refl _
  have created : ∀ u : World μ, s.arena.create u.forgetful.grammar parent ref placement s.plan.seed =
      (s.arena.prepare u.grammar parent ref placement s.plan.seed).map s.arena.push := fun _ => rfl
  unfold enter
  rw [SearchM.run_bind, SearchM.run_bind, SearchM.run_get]
  dsimp only
  rw [created, created]
  rcases prepared with ⟨e | f, he, hx⟩ | heq
  · exact he.elim
  · rw [hx]
    exact .inl ⟨f, he, rfl⟩
  · rw [heq]
    exact .inr rfl

variable (marked : v.grammar.Marked) (marked' : w.grammar.Marked)

include marked marked'

theorem lags_free : Abreast.Free v.forgetful w.forgetful (Lags E) where
  pure _ := .refl _
  throw _ := .refl _
  lift _ := .refl _
  bind := .bind
  get_bind _ _ hfg := .get_bind hfg
  rule id := .lift (part.rule id)
  expansion id := .lift (part.expansion id)
  component id := .lift (part.component id)
  symbol ref := .lift (part.symbol ref)
  holds h cs := .evaluate fun a => part.holds marked marked' a h cs
  samplePos h id := .evaluate fun a => part.samplePos marked marked' a h id
  areaOf h spec := .evaluate fun a => part.areaOf marked marked' a h spec
  enter := enter_lags part
  truncateContexts _ := .refl _
  hand _ _ := .refl _
  redraw _ _ := .refl _
  replan _ _ := .refl _
  look_bind hfg := .get_bind hfg
  modifyPlan _ := .refl _
  reset _ _ := .refl _

theorem paint_lags (h : Handle) (map : BlockMap) (f : Fill) :
    Lags E (paint v.forgetful h map f) (paint w.forgetful h map f) := by
  rintro ⟨arena, ⟨⟩, plan⟩
  have painted := part.paintFill marked marked' arena h f map
  rw [paint, paint, ExceptT.run_mk, ExceptT.run_mk]
  rcases hx : ((Painting.paintFill v.forgetful arena h f).run map).run () with ⟨⟨x, map₁⟩, ⟨⟩⟩
  rcases hy : ((Painting.paintFill w.forgetful arena h f).run map).run () with ⟨⟨y, map₂⟩, ⟨⟩⟩
  rw [hx, hy] at painted
  rw [StateT.run] at hx hy
  rw [hx, hy]
  rcases painted with ⟨e | e, he, rfl⟩ | heq
  · exact he.elim
  · exact .inl ⟨e, he, rfl⟩
  · cases heq
    exact .inr rfl

theorem paintPlacement_lags (map : BlockMap) (p : Placement) :
    Lags E (paintPlacement v.forgetful map p) (paintPlacement w.forgetful map p) :=
  .bind (.lift (part.component p.component)) fun c =>
    .foldlM c.fills (fun map f => paint_lags part marked marked' p.context map f) map

theorem output_lags : Lags E (output v.forgetful) (output w.forgetful) := by
  refine .get_bind fun s => ?_
  dsimp only
  split
  · exact .foldlM _ (fun map p => paintPlacement_lags part marked marked' map p) _
  · exact .refl _

/-- A generator of the smaller world makes what one of the larger world makes, or breaks down. -/
theorem generate_lags (limits : Limits) (rule : RuleId) (origin : Pos) (seed : Seed) :
    Lags E (generate v.forgetful limits rule origin seed)
      (generate w.forgetful limits rule origin seed) := by
  have free := lags_free part marked marked'
  refine .bind (free.setup rule origin seed) fun _ => .bind (free.process limits) fun result => ?_
  cases result with
  | error failure => exact .refl (pure _)
  | ok _ => exact .bind (output_lags part marked marked') fun _ => .refl _

end

end Search

end VoxelGrammar
