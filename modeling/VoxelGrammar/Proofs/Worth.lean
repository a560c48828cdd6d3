import VoxelGrammar.Proofs.Fills
import VoxelGrammar.Proofs.TypeSafety

/-!
What fields are worth in a context. A field is worth what it is made of, put together: if its sources
have values in their contexts, so has the field, however deep the sources lie. A field that does not
vary has the value that it has at the origin of the world.
-/

namespace VoxelGrammar

variable {μ α : Type}

def Dimensionality.anchor (d : Dimensionality) (p : Pos) : Pos :=
  match d with
  | .constant => .zero
  | .varying => p

theorem RecordKey.across_point (d : Dimensionality) (id : FieldId) (p : Pos) :
    RecordKey.across d id p .point = ⟨id, d.anchor p, .point⟩ := by
  cases d <;> rfl

/-- Uniform records are combined sample by sample. -/
theorem Record.combine?_uniform (n : Nat) (vs : List Sample) (f : List Sample → Sample) :
    combine? n (vs.map uniform) f = some (uniform (f vs)) := by
  have all : (vs.map uniform).all isUniform = true := by simp [isUniform, uniform]
  have covered : (vs.map uniform).all (·.covers 1) = true := by simp [covers, isUniform, uniform]
  have read : (vs.map uniform).map (·.get 0) = vs := by
    rw [List.map_map]
    exact List.map_id _
  rw [combine?, all, if_pos rfl, if_pos covered]
  show some (uniform (f ((vs.map uniform).map (·.get 0)))) = _
  rw [read]

namespace World

variable {w : World μ} {a : Arena} {h : Handle} {id : FieldId} {f : Field}

/-- In the context, the field varies or not as `d` says, and it has the value `v p` at each position
`p`. -/
def Worth (w : World μ) (a : Arena) (h : Handle) (id : FieldId) (d : Dimensionality)
    (v : Pos → Sample) : Prop :=
  ∃ k, w.dimensionIn a k h id = .ok d ∧ ∀ p, w.recordIn a k h id p .point = .ok (.uniform (v p))

/-- The field has this one value in the context, wherever it is read. -/
def Amounts (w : World μ) (a : Arena) (h : Handle) (id : FieldId) (v : Sample) : Prop :=
  w.Worth a h id .constant fun _ => v

/-! ### Values from sources -/

def WorthIn (w : World μ) (a : Arena) (k : Nat) (s : Handle × FieldId)
    (e : Dimensionality × (Pos → Sample)) : Prop :=
  w.dimensionIn a k s.1 s.2 = .ok e.1 ∧
    ∀ p, w.recordIn a k s.1 s.2 p .point = .ok (.uniform (e.2 p))

theorem WorthIn.mono {k l : Nat} (hkl : k ≤ l) {s : Handle × FieldId}
    {e : Dimensionality × (Pos → Sample)} (worth : w.WorthIn a k s e) : w.WorthIn a l s e := by
  obtain ⟨hd, hv⟩ := worth
  refine ⟨?_, fun p => ?_⟩
  · rw [← (dimensionIn_mono hkl s.1 s.2).eq (hd ▸ .ok e.1), hd]
  · rw [← (recordIn_mono hkl s.1 s.2 p .point).eq (hv p ▸ .ok _), hv p]

section

variable {ss : List (Handle × FieldId)} {t : List (Dimensionality × (Pos → Sample))}

/-- As many steps as any of the sources takes are enough for all of them. -/
theorem exists_worthIn (worth : List.Forall₂ (fun s e => w.Worth a s.1 s.2 e.1 e.2) ss t) :
    ∃ k, List.Forall₂ (w.WorthIn a k) ss t := by
  induction worth with
  | nil => exact ⟨0, .nil⟩
  | cons first _ ih =>
      obtain ⟨k, first⟩ := first
      obtain ⟨l, others⟩ := ih
      exact ⟨max k l, .cons (WorthIn.mono (Nat.le_max_left k l) first)
        (others.imp fun _ _ => .mono (Nat.le_max_right k l))⟩

theorem foldlM_join {k : Nat} (worth : List.Forall₂ (w.WorthIn a k) ss t) (own : Dimensionality) :
    ss.foldlM (fun d s => return d.join (← w.dimensionIn a k s.1 s.2)) own =
      .ok (t.foldl (fun d e => d.join e.1) own) := by
  induction worth generalizing own with
  | nil => rfl
  | @cons s e _ _ first _ ih =>
      rw [List.foldlM_cons, first.1, List.foldl_cons]
      exact ih (own.join e.1)

theorem mapM_uniform {k : Nat} (worth : List.Forall₂ (w.WorthIn a k) ss t) (p : Pos) :
    ss.mapM (fun s => w.recordIn a k s.1 s.2 p .point) =
      .ok ((t.map fun e => e.2 p).map .uniform) := by
  induction worth with
  | nil => rfl
  | cons first _ ih =>
      rw [List.mapM_cons, first.2 p, ih]
      rfl

/-- What the sources are worth is put together. -/
theorem Worth.of_sources {page : Page} {own : Dimensionality} {v : Pos → Sample}
    (hf : w.grammar.field id = .ok f) (hpage : a.page h f = .ok page)
    (hown : w.ownDimensionality f.kind = .ok own) (hss : a.sources h id f = .ok ss)
    (worth : List.Forall₂ (fun s e => w.Worth a s.1 s.2 e.1 e.2) ss t)
    (hv : ∀ p, w.compute a h ⟨id, p, .point⟩ f.kind ((t.map fun e => e.2 p).map .uniform) =
      .ok (.uniform (v p))) :
    let d := t.foldl (fun d e => d.join e.1) own
    w.Worth a h id d fun p => v (d.anchor p) := by
  intro d
  obtain ⟨k, sub⟩ := exists_worthIn worth
  have dimension : w.dimensionIn a (k + 1) h id = .ok d := by
    show w.dimensionStep a (w.dimensionIn a k) h id = _
    rw [dimensionStep_eq hf hpage hss, hown]
    exact foldlM_join sub own
  refine ⟨k + 1, dimension, fun p => ?_⟩
  rw [recordIn_of_dimensionIn dimension, RecordKey.across_point, recordStep_eq hf hpage hss,
    mapM_uniform sub]
  exact hv (d.anchor p)

end

/-! ### Kinds of fields -/

section

variable {c : Context} (live : a.get h = .ok c) (hf : w.grammar.field id = .ok f)

include live

theorem page_of_live (f : Field) : ∃ page, a.page h f = .ok page := by
  unfold Arena.page
  split
  · rw [live]
    exact ⟨_, rfl⟩
  · exact ⟨_, rfl⟩

include hf

/-- A field without sources is worth what it is by itself. -/
theorem Worth.leaf {own : Dimensionality} {v : Pos → Sample} (hss : a.sources h id f = .ok [])
    (hown : w.ownDimensionality f.kind = .ok own)
    (hv : ∀ p, w.compute a h ⟨id, p, .point⟩ f.kind [] = .ok (.uniform (v p))) :
    w.Worth a h id own fun p => v (own.anchor p) := by
  obtain ⟨page, hpage⟩ := page_of_live live f
  exact .of_sources (t := []) hf hpage hown hss .nil hv

theorem Amounts.constant {s : Sample} (kind : f.kind = .constant s) : w.Amounts a h id s :=
  .leaf live hf (v := fun _ => s) (by rw [Arena.sources.eq_def, kind]; rfl) (by rw [kind]; rfl)
    fun p => by rw [kind]; rfl

theorem Worth.worldPosition (kind : f.kind = .worldPosition) :
    w.Worth a h id .varying fun p => .float3 p.toVec3 :=
  .leaf live hf (v := fun p => .float3 p.toVec3) (by rw [Arena.sources.eq_def, kind]; rfl)
    (by rw [kind]; rfl) fun p => by rw [kind]; rfl

/-- An external field is what the provider says. -/
theorem Worth.external {e : Nat} {d : Dimensionality} {v : Pos → Sample} (kind : f.kind = .external e)
    (hd : w.provider.dimensionality e = some d) (hv : ∀ p, w.provider.sample e p = some (v p)) :
    w.Worth a h id d fun p => v (d.anchor p) := by
  refine .leaf live hf (by rw [Arena.sources.eq_def, kind]; rfl) (by rw [kind, ownDimensionality, hd])
    fun p => ?_
  have sampled : Record.tabulate? 1 (fun i =>
      w.provider.sample e (RecordKey.position ⟨id, p, .point⟩ i)) = some (.uniform (v p)) :=
    Record.tabulate?_eq (g := fun _ => v p) fun _ => hv p
  rw [kind]
  simp only [compute, RecordKey.cells, Extent.cells, sampled]

/-- A placeholder is worth what it stands for. -/
theorem Amounts.param {name : String} {s : Handle × FieldId} {v : Sample} (kind : f.kind = .param name)
    (hs : a.resolve name id h = .ok s) (amounts : w.Amounts a s.1 s.2 v) : w.Amounts a h id v := by
  obtain ⟨page, hpage⟩ := page_of_live live f
  have sources : a.sources h id f = .ok [s] := by
    rw [Arena.sources.eq_def, kind]
    show (a.resolve name id h >>= fun s => pure [s]) = _
    rw [hs]
    rfl
  exact .of_sources (t := [(.constant, fun _ => v)]) (v := fun _ => v) hf hpage (by rw [kind]; rfl)
    sources (.cons amounts .nil) fun p => by rw [kind]; rfl

/-- A composite is worth what its inputs are, combined. -/
theorem Worth.composite {es : List (Dimensionality × (Pos → Sample))} (composite : f.kind.inputs ≠ [])
    (worth : List.Forall₂ (fun i e => w.Worth a h i e.1 e.2) f.kind.inputs es) :
    let d := es.foldl (fun d e => d.join e.1) .constant
    w.Worth a h id d fun p => f.kind.combine (es.map fun e => e.2 (d.anchor p)) := by
  obtain ⟨page, hpage⟩ := page_of_live live f
  have inputs : List.Forall₂ (fun s e => w.Worth a s.1 s.2 e.1 e.2) (f.kind.inputs.map (h, ·)) es :=
    List.forall₂_map_left_iff.2 worth
  have combined : ∀ p, Record.combine? 1 ((es.map fun e => e.2 p).map .uniform) f.kind.combine = _ :=
    fun p => Record.combine?_uniform 1 (es.map fun e => e.2 p) f.kind.combine
  refine .of_sources (v := fun p => f.kind.combine (es.map fun e => e.2 p)) hf hpage ?_ ?_ inputs
    fun p => ?_
  · cases hk : f.kind <;> rw [hk] at composite <;> first | rfl | exact absurd rfl composite
  · rw [Arena.sources.eq_def]
    cases hk : f.kind <;> first | rfl | exact absurd (congrArg FieldKind.inputs hk) composite
  · cases hk : f.kind <;> rw [hk] at composite combined <;>
      first
      | exact absurd rfl composite
      | simp only [compute, RecordKey.cells, Extent.cells, combined]

/-- A field that is made of another one. -/
theorem Worth.unary {i : FieldId} {d : Dimensionality} {u : Pos → Sample}
    (inputs : f.kind.inputs = [i]) (hu : w.Worth a h i d u) :
    w.Worth a h id d fun p => f.kind.combine [u (d.anchor p)] := by
  have worth : List.Forall₂ (fun i e => w.Worth a h i e.1 e.2) f.kind.inputs [(d, u)] := by
    rw [inputs]
    exact .cons hu .nil
  exact .composite live hf (by simp [inputs]) worth

/-- A field that is put together from two others. -/
theorem Worth.binary {i j : FieldId} {d e : Dimensionality} {u v : Pos → Sample}
    (inputs : f.kind.inputs = [i, j]) (hu : w.Worth a h i d u) (hv : w.Worth a h j e v) :
    w.Worth a h id (d.join e) fun p =>
      f.kind.combine [u ((d.join e).anchor p), v ((d.join e).anchor p)] := by
  have worth : List.Forall₂ (fun i e => w.Worth a h i e.1 e.2) f.kind.inputs [(d, u), (e, v)] := by
    rw [inputs]
    exact .cons hu (.cons hv .nil)
  exact .composite live hf (by simp [inputs]) worth

end

/-! ### Samples -/

section

variable {d : Dimensionality} {v : Pos → Sample} {c : Context} (worth : w.forgetful.Worth a h id d v)
  (marked : w.grammar.Marked) (live : a.get h = .ok c)

include worth marked

theorem Worth.sample (p : Pos) : (w.forgetful.sample a h id p).answer = .ok (v p) := by
  obtain ⟨k, _, hv⟩ := worth
  have means := (run_record (w := w.forgetful) Notebook.honest_blank marked h id p .point
    (a := a) (m := ()) trivial).1
  have ends : Terminates (w.forgetful.recordIn a k h id p .point) := by
    rw [hv p]
    exact .ok _
  have told := (recordIn_depth (w := w.forgetful) k h id p .point).eq ends
  have record := means.trans (told.symm.trans (hv p))
  exact (sample_ok_iff (w := w.forgetful) (m := ())).2 ⟨.uniform (v p), record, rfl⟩

include live

theorem Worth.sampleOrigin : (w.forgetful.sampleOrigin a h id).answer = .ok (v c.origin) := by
  rw [World.sampleOrigin, Eval.answer_bind, live]
  exact worth.sample marked c.origin

theorem Worth.sampleBool : (w.forgetful.sampleBool a h id).answer = .ok (v c.origin).asBool := by
  rw [World.sampleBool, Eval.answer_bind, worth.sampleOrigin marked live]
  rfl

theorem Worth.samplePos : (w.forgetful.samplePos a h id).answer = .ok (v c.origin).asPos := by
  rw [World.samplePos, Eval.answer_bind, worth.sampleOrigin marked live]
  rfl

theorem Worth.sampleWorldPos :
    (w.forgetful.sampleWorldPos a h id).answer = .ok (c.mapToWorld (v c.origin).asPos) := by
  rw [World.sampleWorldPos, Eval.answer_bind, worth.samplePos marked live]
  show ((liftM (a.get h) : Eval Unit Context) >>= fun c => _).answer = _
  rw [Eval.answer_bind, live]
  rfl

/-- A condition holds where its field is worth a truth. -/
theorem Worth.holds : (w.forgetful.holds a h [id]).answer = .ok (v c.origin).asBool := by
  rw [World.holds, Eval.answer_bind, worth.sampleBool marked live]
  cases (v c.origin).asBool <;> rfl

end

end World

end VoxelGrammar
