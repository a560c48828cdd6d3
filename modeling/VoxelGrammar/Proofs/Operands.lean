import VoxelGrammar.Proofs.Breakdown
import VoxelGrammar.Proofs.Typing

/-!
Operators without coercions. Evaluation can read every sample as any of the four types and so never
refuses an operand. Here the operators take operands of the types called for and no others, a scalar
where arithmetic calls for a vector excepted. On operands that go with the type of a composite they come
to the same sample, and records of such samples are put together to the same record.
-/

namespace VoxelGrammar

variable {μ α β : Type}

/-! ### Operators without coercions -/

namespace Sample

def float? : Sample → Option Float32
  | float v => some v
  | _ => none

def bool? : Sample → Option Bool
  | bool b => some b
  | _ => none

def vec3? : Sample → Option Vec3
  | float3 v => some v
  | _ => none

def spread? : Sample → Option Vec3
  | float3 v => some v
  | float v => some ⟨v, v, v⟩
  | _ => none

end Sample

def Arithmetic.combine? (op : Arithmetic) : Sample → Sample → Option Sample
  | .float a, .float b => some (.float (op.apply a b))
  | s, t => do
    let v ← s.spread?
    let w ← t.spread?
    return .float3 ⟨op.apply v.x w.x, op.apply v.y w.y, op.apply v.z w.z⟩

/-- Scalars are compared with scalars, and blocks with blocks by their numbers. -/
def Comparison.holds? (op : Comparison) : Sample → Sample → Option Bool
  | .float a, .float b => some (op.holds (.float a) (.float b))
  | .block a, .block b => some (op.holds (.float a.toFloat32) (.float b.toFloat32))
  | _, _ => none

namespace FieldKind

/-- The sample of a composite, given those of its inputs, if they have the types it works on. -/
def combine? : FieldKind → List Sample → Option Sample
  | arithmetic op _ _, [a, b] => op.combine? a b
  | compare op _ _, [a, b] => return .bool (← op.holds? a b)
  | and _ _, [a, b] => return .bool ((← a.bool?) && (← b.bool?))
  | or _ _, [a, b] => return .bool ((← a.bool?) || (← b.bool?))
  | not _, [a] => return .bool !(← a.bool?)
  | select _ _ _, [c, a, b] => return if ← c.bool? then a else b
  | vector _ _ _, [x, y, z] => return .float3 ⟨← x.float?, ← y.float?, ← z.float?⟩
  | axis _ a, [v] => return .float ((← v.vec3?).component a)
  | _, _ => none

end FieldKind

/-! ### Typed operands -/

namespace Sample

variable {s : Sample}

theorem eq_float (h : s.type = .float) : ∃ v, s = float v := by
  cases s with
  | float v => exact ⟨v, rfl⟩
  | _ => cases h

theorem eq_bool (h : s.type = .bool) : ∃ b, s = bool b := by
  cases s with
  | bool b => exact ⟨b, rfl⟩
  | _ => cases h

theorem eq_float3 (h : s.type = .float3) : ∃ v, s = float3 v := by
  cases s with
  | float3 v => exact ⟨v, rfl⟩
  | _ => cases h

theorem eq_block (h : s.type = .block) : ∃ b, s = block b := by
  cases s with
  | block b => exact ⟨b, rfl⟩
  | _ => cases h

end Sample

theorem OfType.unique {fields : Array Field} {id : FieldId} {s t : ValueType}
    (hs : OfType fields id s) (ht : OfType fields id t) : s = t := by
  obtain ⟨f, hf, rfl⟩ := hs
  obtain ⟨f', hf', rfl⟩ := ht
  rw [Option.some.inj (hf.symm.trans hf')]

theorem Arithmetic.combine?_eq (op : Arithmetic) {a b : Sample}
    (left : a.type = .float ∨ a.type = .float3) (right : b.type = .float ∨ b.type = .float3) :
    op.combine? a b = some (op.combine a b) ∧
      (op.combine a b).type = if a.type = .float3 ∨ b.type = .float3 then .float3 else .float := by
  obtain ⟨v, rfl⟩ | ⟨v, rfl⟩ := left.imp Sample.eq_float Sample.eq_float3 <;>
    obtain ⟨w, rfl⟩ | ⟨w, rfl⟩ := right.imp Sample.eq_float Sample.eq_float3 <;>
    exact ⟨rfl, rfl⟩

theorem Comparison.holds?_eq (op : Comparison) {a b : Sample} (same : a.type = b.type)
    (comparable : a.type = .float ∨ a.type = .block) : op.holds? a b = some (op.holds a b) := by
  rcases comparable with h | h
  · obtain ⟨⟨v, rfl⟩, w, rfl⟩ := And.intro (Sample.eq_float h) (Sample.eq_float (same.symm.trans h))
    rfl
  · obtain ⟨⟨v, rfl⟩, w, rfl⟩ := And.intro (Sample.eq_block h) (Sample.eq_block (same.symm.trans h))
    rfl

/-- Operands of the types called for are combined without coercion, to a sample of the type of the
composite. -/
theorem FieldKind.HasType.combine {fields : Array Field} {kind : FieldKind} {t : ValueType}
    (h : kind.HasType fields t) {ss : List Sample}
    (operands : List.Forall₂ (fun i s => OfType fields i s.type) kind.inputs ss)
    (composite : kind.inputs ≠ []) :
    kind.combine? ss = some (kind.combine ss) ∧ (kind.combine ss).type = t := by
  cases h with
  | constant | worldPosition | localPosition | contextRandom | blockRandom | param | external =>
      exact absurd rfl composite
  | arithmetic op lhs rhs left right =>
      obtain _ | ⟨ha, _ | ⟨hb, _ | _⟩⟩ := operands
      obtain rfl := ha.unique lhs
      obtain rfl := hb.unique rhs
      exact op.combine?_eq left right
  | compare op lhs rhs comparable =>
      obtain _ | ⟨ha, _ | ⟨hb, _ | _⟩⟩ := operands
      obtain rfl := ha.unique lhs
      have read := op.holds?_eq (hb.unique rhs).symm comparable
      exact ⟨by rw [combine?, read]; rfl, rfl⟩
  | and lhs rhs | or lhs rhs =>
      obtain _ | ⟨ha, _ | ⟨hb, _ | _⟩⟩ := operands
      obtain ⟨b, rfl⟩ := Sample.eq_bool (ha.unique lhs)
      obtain ⟨c, rfl⟩ := Sample.eq_bool (hb.unique rhs)
      exact ⟨rfl, rfl⟩
  | not value =>
      obtain _ | ⟨ha, _ | _⟩ := operands
      obtain ⟨b, rfl⟩ := Sample.eq_bool (ha.unique value)
      exact ⟨rfl, rfl⟩
  | select condition whenTrue whenFalse =>
      obtain _ | ⟨hc, _ | ⟨ha, _ | ⟨hb, _ | _⟩⟩⟩ := operands
      obtain ⟨c, rfl⟩ := Sample.eq_bool (hc.unique condition)
      obtain rfl := ha.unique whenTrue
      cases c with
      | true => exact ⟨rfl, rfl⟩
      | false => exact ⟨rfl, hb.unique whenFalse⟩
  | vector hx hy hz =>
      obtain _ | ⟨ha, _ | ⟨hb, _ | ⟨hc, _ | _⟩⟩⟩ := operands
      obtain ⟨x, rfl⟩ := Sample.eq_float (ha.unique hx)
      obtain ⟨y, rfl⟩ := Sample.eq_float (hb.unique hy)
      obtain ⟨z, rfl⟩ := Sample.eq_float (hc.unique hz)
      exact ⟨rfl, rfl⟩
  | axis component hv =>
      obtain _ | ⟨ha, _ | _⟩ := operands
      obtain ⟨v, rfl⟩ := Sample.eq_float3 (ha.unique hv)
      exact ⟨rfl, rfl⟩

/-! ### Records -/

theorem Extent.cells_pos (extent : Extent) : 0 < extent.cells := by
  cases extent <;> decide

namespace Record

structure HasType (r : Record) (t : ValueType) (extent : Extent) : Prop where
  fits : r.Fits extent
  samples : ∀ s ∈ r.samples, s.type = t

variable {r : Record} {t : ValueType} {extent : Extent} {n : Nat}

theorem HasType.get? (h : r.HasType t extent) {i : Nat} (hi : i < extent.cells) :
    ∃ s, r.get? i = some s ∧ s.type = t := by
  obtain ⟨s, hs⟩ := h.fits.get? hi
  refine ⟨s, hs, h.samples s ?_⟩
  unfold Record.get? at hs
  split at hs <;> exact Array.mem_of_getElem? hs

/-- The record of a single point stands for every extent. -/
theorem HasType.of_point (h : r.HasType t .point) (extent : Extent) : r.HasType t extent :=
  ⟨.inl (h.fits.elim (fun h => h) fun h => h), h.samples⟩

theorem hasType_uniform {s : Sample} (hs : s.type = t) : (uniform s).HasType t extent :=
  ⟨fits_uniform s extent, by simpa [uniform] using hs⟩

theorem hasType_tabulate {f : Nat → Sample} (hf : ∀ i, (f i).type = t) :
    (tabulate extent.cells f).HasType t extent := by
  refine ⟨fits_tabulate extent f, fun s hs => ?_⟩
  obtain ⟨i, rfl⟩ := Array.mem_ofFn.1 hs
  exact hf i

theorem toList_tabulate (n : Nat) (f : Nat → Sample) :
    (tabulate n f).samples.toList = (List.range n).map f := by
  rw [tabulate, Array.toList_ofFn]
  exact List.ext_getElem (by simp) fun i _ _ => by simp

theorem mapM_eq_some_iff {f : α → Option β} {xs : List α} {ys : List β} :
    xs.mapM f = some ys ↔ List.Forall₂ (fun x y => f x = some y) xs ys := by
  induction xs generalizing ys with
  | nil => cases ys <;> simp
  | cons x xs ih =>
      rw [List.mapM_cons, List.forall₂_cons_left_iff]
      simp only [Option.bind_eq_bind, Option.bind_eq_some_iff, ih, Option.pure_def, Option.some.injEq]
      constructor
      · rintro ⟨y, hy, ys, hys, rfl⟩
        exact ⟨y, ys, hy, hys, rfl⟩
      · rintro ⟨y, ys, hy, hys, rfl⟩
        exact ⟨y, hy, ys, hys, rfl⟩

/-- A record that can be had at all has the samples of its cells. -/
theorem tabulate?_eq_some_iff {f : Nat → Option Sample} : tabulate? n f = some r ↔
    List.Forall₂ (fun i s => f i = some s) (List.range n) r.samples.toList := by
  rw [tabulate?, Array.mapM_eq_mapM_toList, Array.toList_range, ← mapM_eq_some_iff]
  obtain ⟨⟨samples⟩⟩ := r
  cases (List.range n).mapM f <;> simp

theorem hasType_of_tabulate? {f : Nat → Option Sample} (hf : ∀ i s, f i = some s → s.type = t)
    (hr : tabulate? extent.cells f = some r) : r.HasType t extent := by
  have cells := tabulate?_eq_some_iff.1 hr
  have size : r.samples.size = extent.cells := by simpa using cells.length_eq.symm
  refine ⟨.inr size, fun s hs => ?_⟩
  obtain ⟨i, hi, rfl⟩ := Array.mem_iff_getElem.1 hs
  exact hf i _ (by simpa using cells.get (i := i) (by simpa [← size] using hi) (by simpa using hi))

end Record

/-- The provider has samples of the types that the external fields of the grammar are declared with. -/
def Provider.Honours (p : Provider) (g : Grammar) : Prop :=
  ∀ id f e, g.field id = .ok f → f.kind = .external e → ∀ q s, p.sample e q = some s → s.type = f.type

namespace World

/-- The record of a field, given those of its sources, if no sample has to be coerced for it. -/
def computeStrictly (w : World μ) (a : Arena) (h : Handle) (key : RecordKey) (kind : FieldKind)
    (inputs : List Record) : Option (Except EvalError Record) :=
  if kind.inputs = [] then some (w.compute a h key kind inputs)
  else
    let n := if inputs.all Record.isUniform then 1 else key.cells
    if inputs.all (·.covers n) then
      return .ok (← Record.tabulate? n fun i => kind.combine? (inputs.map (·.get i)))
    else some (.error (.fault .cellOutOfRange))

theorem compute_composite {w : World μ} {a : Arena} {h : Handle} {kind : FieldKind}
    (composite : kind.inputs ≠ []) (key : RecordKey) (rs : List Record) :
    w.compute a h key kind rs =
      let n := if rs.all Record.isUniform then 1 else key.cells
      if rs.all (·.covers n) then .ok (.tabulate n fun i => kind.combine (rs.map (·.get i)))
      else .error (.fault .cellOutOfRange) := by
  have combined : w.compute a h key kind rs =
      (Record.combine? key.cells rs kind.combine).elim (.error (.fault .cellOutOfRange)) .ok := by
    cases kind with
    | constant | worldPosition | localPosition | contextRandom | blockRandom | param | external =>
        exact absurd rfl composite
    | _ =>
        simp only [compute]
        cases Record.combine? key.cells rs _ <;> rfl
  rw [combined, Record.combine?]
  dsimp only
  generalize (if rs.all Record.isUniform = true then 1 else key.cells) = n
  by_cases covered : rs.all (·.covers n) = true
  · rw [if_pos covered, if_pos covered]
    rfl
  · rw [if_neg covered, if_neg covered]
    rfl

/-- Records of the operands called for are combined without coercion. -/
theorem computeStrictly_composite {w : World μ} {a : Arena} {h : Handle} {kind : FieldKind}
    {t : ValueType} {fields : Array Field} (typed : kind.HasType fields t)
    (composite : kind.inputs ≠ []) {key : RecordKey} {rs : List Record}
    (operands : List.Forall₂ (fun i r => ∃ u, OfType fields i u ∧ r.HasType u key.extent)
      kind.inputs rs) :
    w.computeStrictly a h key kind rs = some (w.compute a h key kind rs) ∧
      ∀ r, w.compute a h key kind rs = .ok r → r.HasType t key.extent := by
  rw [computeStrictly, if_neg composite, compute_composite composite]
  dsimp only
  generalize hn : (if rs.all Record.isUniform = true then 1 else key.cells) = n
  have size : n = 1 ∨ n = key.extent.cells := by
    rw [← hn]
    split
    · exact .inl rfl
    · exact .inr rfl
  have within : n ≤ key.extent.cells := by
    have := key.extent.cells_pos
    omega
  have cells : ∀ i < n, kind.combine? (rs.map (·.get i)) = some (kind.combine (rs.map (·.get i))) ∧
      (kind.combine (rs.map (·.get i))).type = t := by
    intro i hi
    refine typed.combine (List.forall₂_map_right_iff.2 (operands.imp ?_)) composite
    rintro id r ⟨u, hid, hr⟩
    obtain ⟨s, hs, rfl⟩ := hr.get? (Nat.lt_of_lt_of_le hi within)
    rw [Record.get, hs]
    exact hid
  have tabulated : Record.tabulate? n (fun i => kind.combine? (rs.map (·.get i))) =
      some (.tabulate n fun i => kind.combine (rs.map (·.get i))) := by
    rw [Record.tabulate?_eq_some_iff, Record.toList_tabulate]
    refine List.forall₂_map_right_iff.2 (List.forall₂_same.2 fun i hi => ?_)
    exact (cells i (List.mem_range.1 hi)).1
  rw [tabulated]
  split
  · refine ⟨rfl, fun r hr => ?_⟩
    cases hr
    refine ⟨by simpa [Record.Fits, Record.tabulate] using size, fun s hs => ?_⟩
    obtain ⟨i, rfl⟩ := Array.mem_ofFn.1 hs
    exact (cells i i.isLt).2
  · exact ⟨rfl, fun r hr => by cases hr⟩

/-- A record worked out from records of the sources called for has the type of its field. -/
theorem computeStrictly_typed {w : World μ} (honours : w.provider.Honours w.grammar) {a : Arena}
    {h : Handle} {key : RecordKey} {f : Field} (hf : w.grammar.field key.field = .ok f)
    (typed : f.kind.HasType w.grammar.fields f.type) {rs : List Record}
    (operands : f.kind.inputs ≠ [] → List.Forall₂ (fun i r =>
      ∃ u, OfType w.grammar.fields i u ∧ r.HasType u key.extent) f.kind.inputs rs)
    (bound : ∀ name, f.kind = .param name → ∃ r, rs = [r] ∧ r.HasType f.type key.extent) :
    w.computeStrictly a h key f.kind rs = some (w.compute a h key f.kind rs) ∧
      ∀ r, w.compute a h key f.kind rs = .ok r → r.HasType f.type key.extent := by
  by_cases composite : f.kind.inputs = []
  · rw [computeStrictly, if_pos composite]
    refine ⟨rfl, fun r hr => ?_⟩
    obtain ⟨t, kind, c⟩ := f
    cases typed with
    | constant s =>
        cases hr
        exact Record.hasType_uniform rfl
    | worldPosition =>
        cases hr
        exact Record.hasType_tabulate fun _ => rfl
    | localPosition =>
        obtain ⟨c, _, hr⟩ := bind_ok_iff.1 hr
        cases hr
        exact Record.hasType_tabulate fun _ => rfl
    | contextRandom salt =>
        obtain ⟨c, _, hr⟩ := bind_ok_iff.1 hr
        cases hr
        exact Record.hasType_uniform rfl
    | blockRandom salt =>
        cases hr
        exact Record.hasType_tabulate fun _ => rfl
    | external e t =>
        rw [compute] at hr
        split at hr
        · next r' hr' =>
          cases hr
          exact Record.hasType_of_tabulate? (fun i s hs => honours _ _ e hf rfl _ s hs) hr'
        · cases hr
    | param name t =>
        obtain ⟨r', rfl, typed⟩ := bound name rfl
        cases hr
        exact typed
    | _ => cases composite
  · exact computeStrictly_composite typed composite (operands composite)

end World

end VoxelGrammar
