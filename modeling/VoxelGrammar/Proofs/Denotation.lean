import VoxelGrammar.Proofs.Breakdown

/-!
Fields as functions of the position. The value of a field at a position is what its kind makes of the
values of its sources there; nothing is remembered, no field is taken to be constant, and a record
plays no part. The record of a field holds these values cell by cell. A field of which evaluation has
found out that it does not vary indeed has the same value at all positions, so that one of them can
stand for all.
-/

namespace VoxelGrammar

variable {μ α β α' β' ε : Type}

namespace Agree

variable {r : α → β → Prop} {x : Except ε α} {y : Except ε β}

theorem symm (h : Agree r x y) : Agree (fun b a => r a b) y x := by
  cases x <;> cases y
  · exact h.symm
  · exact h
  · exact h
  · exact h

/-- Computing with two lists in step gives related lists, or the same error. -/
theorem traverse {f : α' → Except ε α} {g : α' → Except ε β} {xs : List α'}
    (h : ∀ a ∈ xs, Agree r (f a) (g a)) :
    Agree (fun as bs => List.Forall₂ r as bs ∧ as.length = xs.length) (xs.mapM f) (xs.mapM g) := by
  induction xs with
  | nil => exact ⟨.nil, rfl⟩
  | cons a xs ih =>
      rw [List.mapM_cons, List.mapM_cons]
      refine (h a List.mem_cons_self).bind fun b c _ hbc => ?_
      refine (ih fun a ha => h a (List.mem_cons_of_mem _ ha)).bind fun bs cs _ hbcs => ?_
      exact ⟨.cons hbc hbcs.1, congrArg (· + 1) hbcs.2⟩

/-- Folding one answer for each element into another, and listing them. -/
theorem fold_traverse {γ : Type} {D : α → Except ε β} {V : α → Except ε α'} {xs : List α}
    (h : ∀ x ∈ xs, Agree (fun _ _ => True) (D x) (V x)) (f : γ → β → γ) (c : γ) :
    Agree (fun _ vs => vs.length = xs.length) (xs.foldlM (fun c x => return f c (← D x)) c)
      (xs.mapM V) := by
  induction xs generalizing c with
  | nil => rfl
  | cons x xs ih =>
      rw [List.foldlM_cons, List.mapM_cons, bind_assoc]
      refine (h x List.mem_cons_self).bind fun b v _ _ => ?_
      rw [pure_bind, ← bind_pure (xs.foldlM (m := Except ε) _ _)]
      refine (ih (fun x hx => h x (List.mem_cons_of_mem _ hx)) (f c b)).bind fun _ vs _ hvs => ?_
      exact congrArg (· + 1) hvs

end Agree

/-! ### Values -/

namespace World

def value (w : World μ) (a : Arena) (h : Handle) (p : Pos) :
    FieldKind → List Sample → Except EvalError Sample
  | .constant s, _ => .ok s
  | .worldPosition, _ => .ok (.float3 p.toVec3)
  | .localPosition, _ => do
    let c ← a.get h
    return .float3 (c.toLocal.apply p).toVec3
  | .contextRandom salt, _ => do
    let c ← a.get h
    return .float (Seed.unit (Seed.hash salt c.seed))
  | .blockRandom salt, _ => .ok (.float (Seed.unit (Seed.hashPos p salt)))
  | .external e, _ =>
    match w.provider.sample e p with
    | some s => .ok s
    | none => .error (.fault .brokenProvider)
  | .param _, [s] => .ok s
  | kind, inputs => .ok (kind.combine inputs)

/-- The value of a field at a position, by at most `k` steps; all its sources are looked at. -/
def denoteIn (w : World μ) (a : Arena) (p : Pos) :
    (k : Nat) → Handle → FieldId → Except EvalError Sample
  | 0 => fun _ _ => .error (.fault .endlessEvaluation)
  | k + 1 => fun h id => do
    let f ← w.grammar.field id
    let sources ← a.sources h id f
    let inputs ← sources.mapM fun s => denoteIn w a p k s.1 s.2
    w.value a h p f.kind inputs

/-- The recursion for the value of a field at a position comes to an end, with the answer `r`. -/
def Denotes (w : World μ) (a : Arena) (h : Handle) (id : FieldId) (p : Pos)
    (r : Except EvalError Sample) : Prop :=
  Terminates r ∧ ∃ k, w.denoteIn a p k h id = r

variable {w : World μ} {a : Arena} {h : Handle} {id : FieldId}

theorem denoteIn_field {f : Field} (hf : w.grammar.field id = .ok f) (p : Pos) (k : Nat) :
    w.denoteIn a p (k + 1) h id = a.sources h id f >>= fun sources =>
      sources.mapM (fun s => w.denoteIn a p k s.1 s.2) >>= fun vs => w.value a h p f.kind vs := by
  show (liftM (w.grammar.field id) >>= fun f => _) = _
  rw [hf]
  rfl

theorem denoteIn_sources {f : Field} {sources : List (Handle × FieldId)}
    (hf : w.grammar.field id = .ok f) (hs : a.sources h id f = .ok sources) (p : Pos) (k : Nat) :
    w.denoteIn a p (k + 1) h id =
      sources.mapM (fun s => w.denoteIn a p k s.1 s.2) >>= fun vs => w.value a h p f.kind vs := by
  rw [denoteIn_field hf, hs]
  rfl

theorem denoteIn_succ (p : Pos) (k : Nat) (h : Handle) (id : FieldId) :
    Approximates (w.denoteIn a p k h id) (w.denoteIn a p (k + 1) h id) := by
  induction k generalizing h id with
  | zero => exact .inl rfl
  | succ k ih =>
      exact .bind (.refl _) fun _ _ => .bind (.refl _) fun sources _ =>
        .bind (.mapM sources fun s _ => ih s.1 s.2) fun _ _ => .refl _

/-- More steps keep every value. -/
theorem denoteIn_mono {k l : Nat} (hkl : k ≤ l) (p : Pos) (h : Handle) (id : FieldId) :
    Approximates (w.denoteIn a p k h id) (w.denoteIn a p l h id) := by
  induction hkl with
  | refl => exact .refl _
  | step _ ih => exact ih.trans (denoteIn_succ p _ h id)

/-- A field has one value at a position. -/
theorem Denotes.unique {p : Pos} {r r' : Except EvalError Sample} (hr : w.Denotes a h id p r)
    (hr' : w.Denotes a h id p r') : r = r' := by
  obtain ⟨ht, k, rfl⟩ := hr
  obtain ⟨ht', l, rfl⟩ := hr'
  rcases Nat.le_total k l with hkl | hlk
  · exact (denoteIn_mono hkl p h id).eq ht
  · exact ((denoteIn_mono hlk p h id).eq ht').symm

end World

/-! ### Cells -/

namespace Record

theorem get?_tabulate {n i : Nat} (hi : i < n) (f : Nat → Sample) :
    (tabulate n f).get? i = some (f i) := by
  have size : (tabulate n f).samples.size = n := by simp [tabulate]
  unfold Record.get?
  split
  · next uniform =>
    have hn : n = 1 := by simpa [isUniform, size] using uniform
    obtain rfl : i = 0 := by omega
    simp [tabulate, hn]
  · simp [tabulate, hi]

theorem Fits.get?_of_point {r : Record} (fits : r.Fits .point) (i : Nat) : r.get? i = r.get? 0 := by
  have uniform : r.isUniform = true := by
    rcases fits with h | h <;> simp [isUniform, h, Extent.cells]
  simp [Record.get?, uniform]

/-- Combining records combines their cells; of uniform records, the first cell stands for all. -/
theorem get?_combine? {extent : Extent} {rs : List Record} {vs : List Sample} {i : Nat}
    (hi : i < extent.cells) (h : List.Forall₂ (fun r v => r.get? i = some v) rs vs)
    (f : List Sample → Sample) {r : Record} (hr : combine? extent.cells rs f = some r) :
    r.get? i = some (f vs) := by
  have cells : ∀ j, (∀ r ∈ rs, r.get? j = r.get? i) → rs.map (·.get j) = vs := by
    clear hr
    intro j same
    induction h with
    | nil => rfl
    | cons hv _ ih =>
        obtain ⟨hr, hrest⟩ := List.forall_mem_cons.1 same
        rw [List.map_cons, ih hrest, Record.get, hr, hv]
        rfl
  by_cases uniform : rs.all isUniform = true
  · have first : ∀ r ∈ rs, r.get? 0 = r.get? i := by
      intro r hr
      simp only [Record.get?, List.all_eq_true.1 uniform r hr, if_true]
    simp only [combine?, uniform, if_true, Option.ite_none_right_eq_some, Option.some.injEq] at hr
    have fits : (tabulate 1 fun i => f (rs.map (·.get i))).Fits .point := fits_tabulate .point _
    rw [← hr.2, fits.get?_of_point, get?_tabulate Nat.zero_lt_one, cells 0 first]
  · simp only [combine?, uniform, if_false, Option.ite_none_right_eq_some, Option.some.injEq,
      Bool.false_eq_true] at hr
    rw [← hr.2, get?_tabulate hi, cells i fun _ _ => rfl]

end Record

/-! ### Fields that do not vary -/

/-- The provider has one sample for all positions where it says that a field does not vary. -/
def Provider.Steady (p : Provider) : Prop :=
  ∀ e, p.dimensionality e = some .constant → ∀ q q', p.sample e q = p.sample e q'

theorem Provider.steady_none : Provider.none.Steady := fun _ _ _ _ => rfl

/-- What joins to a field that does not vary does not vary itself. -/
theorem constant_of_foldlM {f : α → Except EvalError Dimensionality} {xs : List α}
    {d : Dimensionality} (h : xs.foldlM (fun d x => return d.join (← f x)) d = .ok .constant) :
    d = .constant ∧ ∀ x ∈ xs, f x = .ok .constant := by
  induction xs generalizing d with
  | nil =>
      cases h
      exact ⟨rfl, by simp⟩
  | cons x xs ih =>
      rw [List.foldlM_cons, bind_ok_iff] at h
      obtain ⟨e, he, h⟩ := h
      obtain ⟨d', hd', he⟩ := bind_ok_iff.1 he
      cases he
      obtain ⟨joined, rest⟩ := ih h
      obtain ⟨rfl, rfl⟩ : d = .constant ∧ d' = .constant := by
        cases d with
        | constant => exact ⟨rfl, joined⟩
        | varying => cases joined
      exact ⟨rfl, List.forall_mem_cons.2 ⟨hd', rest⟩⟩

namespace World

variable {w : World μ} {a : Arena} {h : Handle} {id : FieldId}

theorem value_of_constant (steady : w.provider.Steady) {kind : FieldKind}
    (hown : w.ownDimensionality kind = .ok .constant) (p q : Pos) (vs : List Sample) :
    w.value a h p kind vs = w.value a h q kind vs := by
  cases kind with
  | worldPosition | localPosition | blockRandom _ => cases hown
  | external e =>
      have constant : w.provider.dimensionality e = some .constant := by
        unfold ownDimensionality at hown
        dsimp only at hown
        split at hown
        · next hd => exact Except.ok.inj hown ▸ hd
        · cases hown
      simp only [value, steady e constant p q]
  | param name => rcases vs with _ | ⟨v, _ | ⟨u, vs⟩⟩ <;> rfl
  | _ => rfl

/-- A field that does not vary has the same value everywhere. -/
theorem denoteIn_of_constant (steady : w.provider.Steady) {k : Nat}
    (hd : w.dimensionIn a k h id = .ok .constant) (p q : Pos) :
    w.denoteIn a p k h id = w.denoteIn a q k h id := by
  induction k generalizing h id with
  | zero => rfl
  | succ k ih =>
      obtain ⟨f, page, own, sources, hf, _, hown, hsources, joined, _⟩ := dimensionStep_ok hd
      obtain ⟨rfl, constant⟩ := constant_of_foldlM joined
      have inputs : (sources.mapM fun s => w.denoteIn a p k s.1 s.2) =
          sources.mapM fun s => w.denoteIn a q k s.1 s.2 :=
        Agree.mapM (List.forall₂_same.2 fun s hs => ih (constant s hs))
      rw [denoteIn_sources hf hsources, denoteIn_sources hf hsources, inputs]
      exact congrArg _ (funext fun vs => value_of_constant steady hown p q vs)

end World

/-! ### Records and values -/

namespace World

variable {own : Prop} {w : World μ} {a : Arena} {h : Handle} {id : FieldId}

variable (closed : w.grammar.Closed own) (total : w.provider.Total) (sane : a.Sane w.grammar)

include total in
theorem ownDimensionality_ok (kind : FieldKind) : ∃ d, w.ownDimensionality kind = .ok d := by
  cases kind with
  | external e =>
      obtain ⟨d, hd⟩ := total.dimensionality e
      exact ⟨d, by simp only [ownDimensionality, hd]⟩
  | _ => exact ⟨_, rfl⟩

include total sane in
theorem value_ok (hl : Lives a.live h) (p : Pos) (kind : FieldKind) {vs : List Sample}
    (hparam : ∀ name, kind = .param name → vs.length = 1) : ∃ v, w.value a h p kind vs = .ok v := by
  obtain ⟨x, _, hx⟩ := sane.get hl
  cases kind with
  | localPosition | contextRandom _ =>
      simp only [value, hx]
      exact ⟨_, rfl⟩
  | external e =>
      obtain ⟨s, hs⟩ := total.sample e p
      exact ⟨s, by simp only [value, hs]⟩
  | param name =>
      obtain ⟨v, rfl⟩ := List.length_eq_one_iff.1 (hparam name rfl)
      exact ⟨v, rfl⟩
  | _ => exact ⟨_, rfl⟩

include closed total sane

/-- The dimensionality of a field cannot be had for the same reason as its values. -/
theorem dimensionIn_agrees (p : Pos) (k : Nat) (hl : Lives a.live h)
    (hid : id < w.grammar.fields.size) :
    Agree (fun _ _ => True) (w.dimensionIn a k h id) (w.denoteIn a p k h id) := by
  induction k generalizing h id with
  | zero => rfl
  | succ k ih =>
      obtain ⟨f, hf⟩ := Fault.lookup_of_lt hid
      have hf : w.grammar.field id = .ok f := hf
      obtain ⟨page, hpage⟩ := Arena.page_ok sane f hl
      obtain ⟨d, hown⟩ := ownDimensionality_ok total f.kind
      rw [dimensionIn, dimensionStep_page hf hpage, hown, denoteIn_field hf]
      show Agree _ (a.sources h id f >>= _) _
      refine .bind (.of_eq rfl) fun ss ss' hss heq => ?_
      subst heq
      obtain ⟨hsource, hparam⟩ := (Arena.sources_gives (E := fun _ => True) sane closed hf hl).2 ss hss
      have inputs : Agree (fun (_ : Dimensionality) (vs : List Sample) => vs.length = ss.length)
          (ss.foldlM (fun d s => return d.join (← w.dimensionIn a k s.1 s.2)) d)
          (ss.mapM fun s => w.denoteIn a p k s.1 s.2) :=
        .fold_traverse (fun s hs => ih (hsource s hs).1 (hsource s hs).2) _ _
      rw [← bind_pure (ss.foldlM _ d)]
      refine inputs.bind fun _ vs _ hlength => ?_
      obtain ⟨v, hv⟩ := value_ok total sane hl p f.kind fun name hname =>
        hlength.trans (hparam name hname)
      rw [hv]
      trivial

omit closed in
theorem compute_agrees {key : RecordKey} {i : Nat} (hi : i < key.cells) (hl : Lives a.live h)
    (kind : FieldKind) {rs : List Record} {vs : List Sample}
    (hrs : List.Forall₂ (fun r v => r.Fits key.extent ∧ r.get? i = some v) rs vs)
    (hparam : ∀ name, kind = .param name → rs.length = 1) :
    Agree (fun r v => r.Fits key.extent ∧ r.get? i = some v) (w.compute a h key kind rs)
      (w.value a h (key.position i) kind vs) := by
  obtain ⟨x, _, hx⟩ := sane.get hl
  have uniform : ∀ s : Sample, (Record.uniform s).Fits key.extent ∧
      (Record.uniform s).get? i = some s := fun s => ⟨Record.fits_uniform s _, rfl⟩
  have tabulated : ∀ f : Nat → Sample, (Record.tabulate key.cells f).Fits key.extent ∧
      (Record.tabulate key.cells f).get? i = some (f i) :=
    fun f => ⟨Record.fits_tabulate _ f, Record.get?_tabulate hi f⟩
  have fits : ∀ r ∈ rs, r.Fits key.extent := by
    clear hparam
    induction hrs with
    | nil => simp
    | cons hr _ ih => exact List.forall_mem_cons.2 ⟨hr.1, ih⟩
  obtain ⟨combined, hcombined, hfits⟩ := Record.combine?_fits fits kind.combine
  have cells := Record.get?_combine? hi (hrs.imp fun _ _ h => h.2) kind.combine hcombined
  cases kind with
  | constant s => exact uniform s
  | worldPosition => exact tabulated _
  | localPosition =>
      simp only [compute, value, hx]
      exact tabulated _
  | contextRandom salt =>
      simp only [compute, value, hx]
      exact uniform _
  | blockRandom salt => exact tabulated _
  | external e =>
      choose sample hsample using fun i => total.sample e (key.position i)
      have hr : w.compute a h key (.external e) rs = .ok (.tabulate key.cells sample) := by
        simp only [compute, Record.tabulate?_eq hsample]
      have hv : w.value a h (key.position i) (.external e) vs = .ok (sample i) := by
        simp only [value, hsample]
      rw [hr, hv]
      exact tabulated sample
  | param name =>
      obtain ⟨r, rfl⟩ := List.length_eq_one_iff.1 (hparam name rfl)
      obtain ⟨v, _, hv, hnil, rfl⟩ := List.forall₂_cons_left_iff.1 hrs
      cases hnil
      exact hv
  | arithmetic _ _ _ | compare _ _ _ | and _ _ | or _ _ | not _ | select _ _ _ | vector _ _ _
  | axis _ _ =>
      simp only [compute, RecordKey.cells, hcombined]
      exact ⟨hfits, cells⟩

/-- One step of working out a record gives the values of its cells. -/
theorem recordStep_agrees {key : RecordKey} {i k : Nat} (hi : i < key.cells) (hl : Lives a.live h)
    (hid : key.field < w.grammar.fields.size)
    (sources : ∀ h id, Lives a.live h → id < w.grammar.fields.size →
      Agree (fun r v => r.Fits key.extent ∧ r.get? i = some v)
        (w.recordIn a k h id key.origin key.extent) (w.denoteIn a (key.position i) k h id)) :
    Agree (fun r v => r.Fits key.extent ∧ r.get? i = some v)
      (w.recordStep a (w.recordIn a k) h key)
      (w.denoteIn a (key.position i) (k + 1) h key.field) := by
  obtain ⟨f, hf⟩ := Fault.lookup_of_lt hid
  have hf : w.grammar.field key.field = .ok f := hf
  obtain ⟨page, hpage⟩ := Arena.page_ok sane f hl
  rw [recordStep_page hf hpage, denoteIn_field hf]
  refine .bind (.of_eq rfl) fun ss ss' hss heq => ?_
  subst heq
  obtain ⟨hsource, hparam⟩ := (Arena.sources_gives (E := fun _ => True) sane closed hf hl).2 ss hss
  have inputs : Agree (fun rs vs => List.Forall₂ (fun r v => r.Fits key.extent ∧ r.get? i = some v)
      rs vs ∧ rs.length = ss.length)
      (ss.mapM fun s => w.recordIn a k s.1 s.2 key.origin key.extent)
      (ss.mapM fun s => w.denoteIn a (key.position i) k s.1 s.2) :=
    .traverse fun s hs => sources s.1 s.2 (hsource s hs).1 (hsource s hs).2
  refine inputs.bind fun rs vs _ hrs => ?_
  exact compute_agrees total sane hi hl f.kind hrs.1 fun name hname =>
    hrs.2.trans (hparam name hname)

/-- The record of a field holds its values, cell by cell. -/
theorem recordIn_agrees (steady : w.provider.Steady) (k : Nat) (hl : Lives a.live h)
    (hid : id < w.grammar.fields.size) (origin : Pos) (extent : Extent) {i : Nat}
    (hi : i < extent.cells) :
    Agree (fun r v => r.Fits extent ∧ r.get? i = some v) (w.recordIn a k h id origin extent)
      (w.denoteIn a (RecordKey.position ⟨id, origin, extent⟩ i) k h id) := by
  induction k generalizing h id origin extent i with
  | zero => rfl
  | succ k ih =>
      have step : ∀ (key : RecordKey) (j : Nat), key.field = id → j < key.cells →
          Agree (fun r v => r.Fits key.extent ∧ r.get? j = some v)
            (w.recordStep a (w.recordIn a k) h key)
            (w.denoteIn a (key.position j) (k + 1) h id) := by
        rintro key j rfl hj
        exact recordStep_agrees closed total sane hj hl hid fun h id hl hid =>
          ih hl hid key.origin key.extent hj
      have agrees := dimensionIn_agrees closed total sane
        (RecordKey.position ⟨id, origin, extent⟩ i) (k + 1) hl hid
      unfold recordIn
      cases hd : w.dimensionIn a (k + 1) h id with
      | error e =>
          rw [agrees.error_iff.1 hd]
          rfl
      | ok d =>
          cases d with
          | varying => exact step ⟨id, origin, extent⟩ i rfl hi
          | constant =>
              -- The record is that of one point, which stands for all cells.
              refine Agree.mono (r := fun r v => r.Fits .point ∧ r.get? 0 = some v) ?_ ?_
              · rw [denoteIn_of_constant steady hd _ Pos.zero]
                exact step (.constant id) 0 rfl Nat.zero_lt_one
              · intro r v hr
                refine ⟨.inl (hr.1.elim (fun h => h) fun h => h), ?_⟩
                rw [hr.1.get?_of_point]
                exact hr.2

omit closed total sane in
theorem denoteIn_forgetful (p : Pos) (k : Nat) (h : Handle) (id : FieldId) :
    w.forgetful.denoteIn a p k h id = w.denoteIn a p k h id := by
  induction k generalizing h id with
  | zero => rfl
  | succ k ih =>
      have inputs : w.forgetful.denoteIn a p k = w.denoteIn a p k :=
        funext fun h => funext fun id => ih h id
      show (liftM (w.grammar.field id) >>= fun f => _) = (liftM (w.grammar.field id) >>= fun f => _)
      rw [inputs]
      rfl

/-- Working a record out comes to the values of its cells, whatever is remembered. -/
theorem record_denotes {holds : Facts → Nat → μ → Prop} (honest : w.notebook.Honest holds)
    (marked : w.grammar.Marked) (steady : w.provider.Steady) {m : μ}
    (hm : holds (w.facts a) a.size m) (hl : Lives a.live h) (hid : id < w.grammar.fields.size)
    (origin : Pos) (extent : Extent) {i : Nat} (hi : i < extent.cells)
    {r : Except EvalError Sample}
    (hr : w.Denotes a h id (RecordKey.position ⟨id, origin, extent⟩ i) r) :
    Agree (fun rec v => rec.get? i = some v) ((w.record a h id origin extent).run m).1 r := by
  rw [(run_record honest marked h id origin extent hm).1]
  obtain ⟨ends, k, hk⟩ := hr
  have agrees := recordIn_agrees (w := w.forgetful) closed total sane steady k hl hid origin extent hi
  rw [denoteIn_forgetful, hk] at agrees
  have settled : Terminates (w.forgetful.recordIn a k h id origin extent) :=
    fun hend => ends (agrees.error_iff.1 hend)
  rw [(recordIn_depth (w := w.forgetful) k h id origin extent).eq settled] at agrees
  exact agrees.mono fun _ _ h => h.2

end World

end VoxelGrammar
