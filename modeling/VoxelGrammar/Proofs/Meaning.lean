import Mathlib.Data.Finset.Card
import Mathlib.Data.Finset.Prod
import VoxelGrammar.Evaluate
import VoxelGrammar.Proofs.Contexts

/-!
The meaning of fields: what evaluations come to when nothing is remembered. The meaning is taken
with a number of steps, like the evaluation itself; with more steps an answer can only replace the
complaint that the steps have run out. There are finitely many pairs of a live context and a field,
and each further step that settles nothing new settles nothing ever after, so the bound that
evaluations use is as good as any larger one.
-/

namespace VoxelGrammar

variable {μ α β : Type}

/-- `x` is `y` or has run out of steps. -/
def Approximates (x y : Except EvalError α) : Prop :=
  x = .error (.fault .endlessEvaluation) ∨ x = y

def Terminates (x : Except EvalError α) : Prop := x ≠ .error (.fault .endlessEvaluation)

namespace Approximates

theorem refl (x : Except EvalError α) : Approximates x x := .inr rfl

theorem eq {x y : Except EvalError α} (h : Approximates x y) (hx : Terminates x) : x = y :=
  h.resolve_left hx

theorem trans {x y z : Except EvalError α} (hxy : Approximates x y) (hyz : Approximates y z) :
    Approximates x z := by
  rcases hxy with hx | rfl
  · exact .inl hx
  · exact hyz

theorem antisymm {x y : Except EvalError α} (hxy : Approximates x y) (hyx : Approximates y x) :
    x = y := by
  rcases hxy with rfl | rfl
  · rcases hyx with rfl | rfl <;> rfl
  · rfl

theorem bind {x y : Except EvalError α} {f g : α → Except EvalError β} (hxy : Approximates x y)
    (hfg : ∀ a, y = .ok a → Approximates (f a) (g a)) : Approximates (x >>= f) (y >>= g) := by
  rcases hxy with rfl | rfl
  · exact .inl rfl
  · cases x with
    | error e => exact refl _
    | ok a => exact hfg a rfl

theorem foldlM {f g : β → α → Except EvalError β} (xs : List α)
    (h : ∀ b, ∀ a ∈ xs, Approximates (f b a) (g b a)) (b : β) :
    Approximates (xs.foldlM f b) (xs.foldlM g b) := by
  induction xs generalizing b with
  | nil => exact refl _
  | cons a xs ih =>
      rw [List.foldlM_cons, List.foldlM_cons]
      exact bind (h b a List.mem_cons_self) fun b _ =>
        ih (fun b a ha => h b a (List.mem_cons_of_mem _ ha)) b

theorem mapM {f g : α → Except EvalError β} (xs : List α)
    (h : ∀ a ∈ xs, Approximates (f a) (g a)) : Approximates (xs.mapM f) (xs.mapM g) := by
  induction xs with
  | nil => exact refl _
  | cons a xs ih =>
      rw [List.mapM_cons, List.mapM_cons]
      exact bind (h a List.mem_cons_self) fun _ _ =>
        bind (ih fun a ha => h a (List.mem_cons_of_mem _ ha)) fun _ _ => refl _

end Approximates

namespace Terminates

theorem ok (a : α) : Terminates (.ok a) := fun h => nomatch h

theorem bind {x : Except EvalError α} {f : α → Except EvalError β} (hx : Terminates x)
    (hf : ∀ a, x = .ok a → Terminates (f a)) : Terminates (x >>= f) := by
  cases x with
  | error e => exact fun h => hx (by cases h; rfl)
  | ok a => exact hf a rfl

theorem mapM {f : α → Except EvalError β} {xs : List α} (h : ∀ a ∈ xs, Terminates (f a)) :
    Terminates (xs.mapM f) := by
  induction xs with
  | nil => exact ok _
  | cons x xs ih =>
      rw [List.mapM_cons]
      exact bind (h x List.mem_cons_self) fun _ _ =>
        bind (ih fun a ha => h a (List.mem_cons_of_mem _ ha)) fun _ _ => ok _

end Terminates

theorem bind_ok_iff {ε : Type} {x : Except ε α} {f : α → Except ε β} {b : β} :
    x >>= f = .ok b ↔ ∃ a, x = .ok a ∧ f a = .ok b := by
  cases x with
  | error e =>
      constructor
      · intro h
        cases h
      · rintro ⟨a, h, _⟩
        cases h
  | ok a =>
      constructor
      · intro h
        exact ⟨a, rfl, h⟩
      · rintro ⟨b, h, h'⟩
        cases h
        exact h'

theorem lift_ok {x : Except Fault α} {v : α} :
    (liftM x : Except EvalError α) = .ok v ↔ x = .ok v := by
  cases x with
  | error e => exact ⟨(fun h => nomatch h), fun h => nomatch h⟩
  | ok u =>
      constructor
      · intro h
        cases h
        rfl
      · intro h
        cases h
        rfl

@[simp] theorem RecordKey.across_field (d : Dimensionality) (id : FieldId) (origin : Pos)
    (extent : Extent) : (RecordKey.across d id origin extent).field = id := by
  cases d <;> rfl

namespace World

variable (w : World μ) (a : Arena)

def dimensionStep (sub : Handle → FieldId → Except EvalError Dimensionality) (h : Handle)
    (id : FieldId) : Except EvalError Dimensionality := do
  let f ← w.grammar.field id
  let _ ← a.page h f
  let own ← w.ownDimensionality f.kind
  let sources ← a.sources h id f
  sources.foldlM (fun d s => return d.join (← sub s.1 s.2)) own

def dimensionIn : (k : Nat) → Handle → FieldId → Except EvalError Dimensionality
  | 0 => fun _ _ => .error (.fault .endlessEvaluation)
  | k + 1 => w.dimensionStep a (dimensionIn k)

def recordStep (sub : Handle → FieldId → Pos → Extent → Except EvalError Record) (h : Handle)
    (key : RecordKey) : Except EvalError Record := do
  let f ← w.grammar.field key.field
  let _ ← a.page h f
  let sources ← a.sources h key.field f
  let inputs ← sources.mapM fun s => sub s.1 s.2 key.origin key.extent
  w.compute a h key f.kind inputs

def recordIn : (k : Nat) → Handle → FieldId → Pos → Extent → Except EvalError Record
  | 0 => fun _ _ _ _ => .error (.fault .endlessEvaluation)
  | k + 1 => fun h id origin extent => do
    let d ← w.dimensionIn a (k + 1) h id
    w.recordStep a (recordIn k) h (.across d id origin extent)

variable {w a}

theorem dimensionStep_page {sub : Handle → FieldId → Except EvalError Dimensionality} {h : Handle}
    {id : FieldId} {f : Field} {page : Page} (hf : w.grammar.field id = .ok f)
    (hp : a.page h f = .ok page) :
    w.dimensionStep a sub h id = w.ownDimensionality f.kind >>= fun own =>
      a.sources h id f >>= fun sources =>
        sources.foldlM (fun d s => return d.join (← sub s.1 s.2)) own := by
  unfold dimensionStep
  rw [hf]
  show (a.page h f >>= fun _ => _) = _
  rw [hp]
  rfl

theorem dimensionStep_eq {sub : Handle → FieldId → Except EvalError Dimensionality} {h : Handle}
    {id : FieldId} {f : Field} {page : Page} {sources : List (Handle × FieldId)}
    (hf : w.grammar.field id = .ok f) (hp : a.page h f = .ok page)
    (hs : a.sources h id f = .ok sources) :
    w.dimensionStep a sub h id = w.ownDimensionality f.kind >>= fun own =>
      sources.foldlM (fun d s => return d.join (← sub s.1 s.2)) own := by
  rw [dimensionStep_page hf hp, hs]
  rfl

theorem recordStep_page {sub : Handle → FieldId → Pos → Extent → Except EvalError Record}
    {h : Handle} {key : RecordKey} {f : Field} {page : Page}
    (hf : w.grammar.field key.field = .ok f) (hp : a.page h f = .ok page) :
    w.recordStep a sub h key = a.sources h key.field f >>= fun sources =>
      sources.mapM (fun s => sub s.1 s.2 key.origin key.extent) >>=
        fun inputs => w.compute a h key f.kind inputs := by
  unfold recordStep
  rw [hf]
  show (a.page h f >>= fun _ => _) = _
  rw [hp]
  rfl

theorem recordStep_eq {sub : Handle → FieldId → Pos → Extent → Except EvalError Record} {h : Handle}
    {key : RecordKey} {f : Field} {page : Page} {sources : List (Handle × FieldId)}
    (hf : w.grammar.field key.field = .ok f) (hp : a.page h f = .ok page)
    (hs : a.sources h key.field f = .ok sources) :
    w.recordStep a sub h key = sources.mapM (fun s => sub s.1 s.2 key.origin key.extent) >>=
      fun inputs => w.compute a h key f.kind inputs := by
  rw [recordStep_page hf hp, hs]
  rfl

theorem dimensionStep_approximates {sub sub' : Handle → FieldId → Except EvalError Dimensionality}
    {h : Handle} {id : FieldId} (hsub : ∀ f sources, w.grammar.field id = .ok f →
      a.sources h id f = .ok sources → ∀ s ∈ sources, Approximates (sub s.1 s.2) (sub' s.1 s.2)) :
    Approximates (w.dimensionStep a sub h id) (w.dimensionStep a sub' h id) := by
  refine .bind (.refl _) fun f hf => .bind (.refl _) fun _ _ => .bind (.refl _) fun own _ =>
    .bind (.refl _) fun sources hsources => ?_
  exact .foldlM sources (fun d s hs => .bind (hsub f sources (lift_ok.1 hf) hsources s hs)
    fun _ _ => .refl _) own

theorem recordStep_approximates
    {sub sub' : Handle → FieldId → Pos → Extent → Except EvalError Record}
    (hsub : ∀ h id origin extent, Approximates (sub h id origin extent) (sub' h id origin extent))
    (h : Handle) (key : RecordKey) :
    Approximates (w.recordStep a sub h key) (w.recordStep a sub' h key) := by
  refine .bind (.refl _) fun _ _ => .bind (.refl _) fun _ _ => .bind (.refl _) fun sources _ =>
    .bind (.mapM sources fun s _ => hsub ..) fun _ _ => .refl _

theorem dimensionIn_succ (k : Nat) (h : Handle) (id : FieldId) :
    Approximates (w.dimensionIn a k h id) (w.dimensionIn a (k + 1) h id) := by
  induction k generalizing h id with
  | zero => exact .inl rfl
  | succ k ih => exact dimensionStep_approximates fun _ _ _ _ s _ => ih s.1 s.2

/-- More steps keep every answer. -/
theorem dimensionIn_mono {k l : Nat} (hkl : k ≤ l) (h : Handle) (id : FieldId) :
    Approximates (w.dimensionIn a k h id) (w.dimensionIn a l h id) := by
  induction hkl with
  | refl => exact .refl _
  | step _ ih => exact ih.trans (dimensionIn_succ _ h id)

theorem recordIn_succ (k : Nat) (h : Handle) (id : FieldId) (origin : Pos) (extent : Extent) :
    Approximates (w.recordIn a k h id origin extent) (w.recordIn a (k + 1) h id origin extent) := by
  induction k generalizing h id origin extent with
  | zero => exact .inl rfl
  | succ k ih =>
      exact .bind (dimensionIn_succ (k + 1) h id) fun d _ =>
        recordStep_approximates ih h _

theorem recordIn_mono {k l : Nat} (hkl : k ≤ l) (h : Handle) (id : FieldId) (origin : Pos)
    (extent : Extent) :
    Approximates (w.recordIn a k h id origin extent) (w.recordIn a l h id origin extent) := by
  induction hkl with
  | refl => exact .refl _
  | step _ ih => exact ih.trans (recordIn_succ _ h id origin extent)

/-! ### Records come to an end where dimensions do -/

theorem ok_of_foldlM {f : β → α → Except EvalError β} {xs : List α} {b c : β}
    (h : xs.foldlM f b = .ok c) : ∀ a ∈ xs, ∃ b' c', f b' a = .ok c' := by
  induction xs generalizing b with
  | nil => exact fun a ha => nomatch ha
  | cons x xs ih =>
      rw [List.foldlM_cons, bind_ok_iff] at h
      obtain ⟨b', hb', h⟩ := h
      intro a ha
      rcases List.mem_cons.1 ha with rfl | ha
      · exact ⟨b, b', hb'⟩
      · exact ih h a ha

theorem dimensionStep_ok {sub : Handle → FieldId → Except EvalError Dimensionality} {h : Handle}
    {id : FieldId} {d : Dimensionality} (hd : w.dimensionStep a sub h id = .ok d) :
    ∃ f page own sources, w.grammar.field id = .ok f ∧ a.page h f = .ok page ∧
      w.ownDimensionality f.kind = .ok own ∧ a.sources h id f = .ok sources ∧
      sources.foldlM (fun d s => return d.join (← sub s.1 s.2)) own = .ok d ∧
      ∀ s ∈ sources, ∃ d', sub s.1 s.2 = .ok d' := by
  unfold dimensionStep at hd
  obtain ⟨f, hf, hd⟩ := bind_ok_iff.1 hd
  obtain ⟨page, hpage, hd⟩ := bind_ok_iff.1 hd
  obtain ⟨own, hown, hd⟩ := bind_ok_iff.1 hd
  obtain ⟨sources, hsources, hd⟩ := bind_ok_iff.1 hd
  refine ⟨f, page, own, sources, lift_ok.1 hf, hpage, hown, hsources, hd, fun s hs => ?_⟩
  obtain ⟨_, _, hs⟩ := ok_of_foldlM hd s hs
  obtain ⟨d', hd', _⟩ := bind_ok_iff.1 hs
  exact ⟨d', hd'⟩

theorem get_terminates (a : Arena) (h : Handle) :
    Terminates (liftM (a.get h) : Except EvalError Context) := by
  rw [Arena.get]
  cases a.get? h with
  | none =>
      intro h
      cases h
  | some c => exact .ok c

theorem compute_terminates (h : Handle) (key : RecordKey) (kind : FieldKind)
    (inputs : List Record) : Terminates (w.compute a h key kind inputs) := by
  unfold compute
  split
  case h_3 | h_4 => exact .bind (get_terminates a h) fun _ _ => .ok _
  all_goals first | exact .ok _ | (split <;> first | exact .ok _ | exact fun h => nomatch h)

/-- A record is only given up for want of steps if the dimensionality is. -/
theorem recordIn_terminates {k : Nat} {h : Handle} {id : FieldId} (origin : Pos) (extent : Extent)
    (hd : Terminates (w.dimensionIn a k h id)) :
    Terminates (w.recordIn a k h id origin extent) := by
  induction k generalizing h id origin extent with
  | zero => exact absurd rfl hd
  | succ k ih =>
      refine .bind hd fun d hd => ?_
      obtain ⟨f, page, own, sources, hf, hpage, _, hsources, _, hsub⟩ := dimensionStep_ok hd
      rw [recordStep_eq (by rwa [RecordKey.across_field]) hpage (by rwa [RecordKey.across_field])]
      refine .bind (.mapM fun s hs => ih _ _ ?_) fun _ _ => compute_terminates h _ _ _
      obtain ⟨d', hd'⟩ := hsub s hs
      rw [hd']
      exact .ok d'

end World

/-! ### The bound of evaluations -/

namespace Arena

variable {a : Arena}

theorem follow_ok {name : String} {key : ParamKey} {n : Nat} {h : Handle} {b : Binding}
    {s : Handle × FieldId} (hlive : ∃ x, a.get h = .ok x)
    (hs : a.follow name key n h b = .ok s) : ∃ x, a.get s.1 = .ok x := by
  induction n generalizing h b with
  | zero =>
      cases b with
      | own field =>
          cases hs
          exact hlive
      | bridge parent => cases hs
  | succ n ih =>
      cases b with
      | own field =>
          cases hs
          exact hlive
      | bridge parent =>
          unfold follow at hs
          obtain ⟨x, hx, hs⟩ := bind_ok_iff.1 hs
          split at hs
          · exact ih ⟨x, lift_ok.1 hx⟩ hs
          · cases hs

theorem resolve_ok {name : String} {id : FieldId} {h : Handle} {s : Handle × FieldId}
    (hs : a.resolve name id h = .ok s) : ∃ x, a.get s.1 = .ok x := by
  unfold resolve at hs
  obtain ⟨⟨owner, key⟩, howner, hs⟩ := bind_ok_iff.1 hs
  obtain ⟨x, hx, hs⟩ := bind_ok_iff.1 hs
  split at hs
  · exact follow_ok ⟨x, lift_ok.1 hx⟩ hs
  · cases hs

/-- The sources of a field in a context are read there or in a live context. -/
theorem sources_ok {h : Handle} {id : FieldId} {f : Field} {sources : List (Handle × FieldId)}
    (hs : a.sources h id f = .ok sources) : ∀ s ∈ sources, s.1 = h ∨ ∃ x, a.get s.1 = .ok x := by
  intro s hmem
  rw [Arena.sources.eq_def] at hs
  split at hs
  · obtain ⟨t, ht, hs⟩ := bind_ok_iff.1 hs
    cases hs
    rw [List.mem_singleton.1 hmem]
    exact .inr (resolve_ok ht)
  · cases hs
    obtain ⟨id, _, rfl⟩ := List.mem_map.1 hmem
    exact .inl rfl

/-- The handles of the live contexts and one more. -/
def handles (a : Arena) (h : Handle) : Finset Handle :=
  insert h ((Finset.range a.size).image fun i => ⟨i, (a.generations[i]?).getD 0⟩)

theorem card_handles_le (a : Arena) (h : Handle) : (a.handles h).card ≤ a.size + 1 := by
  refine (Finset.card_insert_le _ _).trans (Nat.add_le_add_right ?_ 1)
  exact Finset.card_image_le.trans (Finset.card_range _).le

theorem mem_handles_of_get {h h' : Handle} {x : Context} (hx : a.get h' = .ok x) :
    h' ∈ a.handles h := by
  have hlive := isLive_of_get hx
  simp only [isLive, Bool.and_eq_true, decide_eq_true_eq, beq_iff_eq] at hlive
  refine Finset.mem_insert_of_mem (Finset.mem_image.2 ⟨h'.slot, Finset.mem_range.2 hlive.1, ?_⟩)
  rw [hlive.2]
  rfl

end Arena

/-- Among sets of elements of `u` that only grow, one is no smaller than the next. -/
theorem exists_stable {u : Finset α} {f : Nat → Finset α} (grows : ∀ k, f k ⊆ f (k + 1))
    (bound : ∀ k, f k ⊆ u) : ∃ k ≤ u.card, f (k + 1) = f k := by
  by_contra! never
  have large : ∀ k ≤ u.card + 1, k ≤ (f k).card := by
    intro k hk
    induction k with
    | zero => exact Nat.zero_le _
    | succ k ih =>
        have strict : f k ⊂ f (k + 1) :=
          (grows k).ssubset_of_ne (Ne.symm (never k (by omega)))
        have smaller := Finset.card_lt_card strict
        have := ih (by omega)
        omega
  have := large (u.card + 1) (Nat.le_refl _)
  have := Finset.card_le_card (bound (u.card + 1))
  omega

namespace World

variable {w : World μ} {a : Arena}

theorem dimensionIn_out_of_range {id : FieldId} (hid : w.grammar.fields.size ≤ id) (k : Nat)
    (h : Handle) : w.dimensionIn a (k + 1) h id = .error (.fault .unknownId) := by
  have hfield : w.grammar.field id = .error .unknownId := by
    rw [Grammar.field, Fault.lookup, Array.getElem?_eq_none hid]
  rw [dimensionIn, dimensionStep, hfield]
  rfl

/-- From some number of steps on within the bound, no further step settles anything. -/
theorem exists_settled (w : World μ) (a : Arena) (h : Handle) :
    ∃ k < w.depth a, ∀ h' ∈ a.handles h, ∀ id,
      w.dimensionIn a (k + 2) h' id = w.dimensionIn a (k + 1) h' id := by
  classical
  let pairs := a.handles h ×ˢ Finset.range w.grammar.fields.size
  let settled k := pairs.filter fun p => Terminates (w.dimensionIn a (k + 1) p.1 p.2)
  have hcard : pairs.card < w.depth a := by
    rw [Finset.card_product, Finset.card_range, depth]
    have := Nat.mul_le_mul_right w.grammar.fields.size (a.card_handles_le h)
    rw [Nat.add_mul, Nat.one_mul] at this
    omega
  have grows : ∀ k, settled k ⊆ settled (k + 1) := by
    intro k p hp
    obtain ⟨hp, ht⟩ := Finset.mem_filter.1 hp
    refine Finset.mem_filter.2 ⟨hp, ?_⟩
    rw [← (dimensionIn_succ (k + 1) p.1 p.2).eq ht]
    exact ht
  obtain ⟨k, hk, stable⟩ := exists_stable grows fun k => Finset.filter_subset _ pairs
  refine ⟨k, by omega, fun h' hh' id => ?_⟩
  by_cases hid : id < w.grammar.fields.size
  · have hp : (h', id) ∈ pairs := Finset.mem_product.2 ⟨hh', Finset.mem_range.2 hid⟩
    rcases dimensionIn_succ (w := w) (a := a) (k + 1) h' id with hend | heq
    · by_contra hne
      have hmem : (h', id) ∈ settled (k + 1) :=
        Finset.mem_filter.2 ⟨hp, fun h => hne (h.trans hend.symm)⟩
      rw [stable] at hmem
      exact (Finset.mem_filter.1 hmem).2 hend
    · exact heq.symm
  · rw [dimensionIn_out_of_range (Nat.le_of_not_lt hid), dimensionIn_out_of_range (Nat.le_of_not_lt hid)]

/-- The bound of evaluations is as good as any other number of steps. -/
theorem dimensionIn_depth (k : Nat) (h : Handle) (id : FieldId) :
    Approximates (w.dimensionIn a k h id) (w.dimensionIn a (w.depth a) h id) := by
  obtain ⟨k₀, hk₀, stable⟩ := exists_settled w a h
  have settled : ∀ l, ∀ h' ∈ a.handles h, ∀ id,
      w.dimensionIn a (k₀ + 1 + l) h' id = w.dimensionIn a (k₀ + 1) h' id := by
    intro l
    induction l with
    | zero => exact fun _ _ _ => rfl
    | succ l ih =>
        intro h' hh' id
        rw [← stable h' hh' id]
        have sources : ∀ f sources, w.grammar.field id = .ok f → a.sources h' id f = .ok sources →
            ∀ s ∈ sources, s.1 ∈ a.handles h := by
          intro f sources _ hs s hmem
          rcases Arena.sources_ok hs s hmem with heq | ⟨x, hx⟩
          · exact heq ▸ hh'
          · exact Arena.mem_handles_of_get hx
        refine Approximates.antisymm ?_ ?_
        · exact dimensionStep_approximates fun f ss hf hs s hmem =>
            .inr (ih s.1 (sources f ss hf hs s hmem) s.2)
        · exact dimensionStep_approximates fun f ss hf hs s hmem =>
            .inr (ih s.1 (sources f ss hf hs s hmem) s.2).symm
  have hself : h ∈ a.handles h := Finset.mem_insert_self ..
  rcases Nat.le_total k (w.depth a) with hle | hle
  · exact dimensionIn_mono hle h id
  · have hdepth := settled (w.depth a - (k₀ + 1)) h hself id
    have hk := settled (k - (k₀ + 1)) h hself id
    rw [show k₀ + 1 + (w.depth a - (k₀ + 1)) = w.depth a by omega] at hdepth
    rw [show k₀ + 1 + (k - (k₀ + 1)) = k by omega] at hk
    rw [hk, hdepth]
    exact .refl _

theorem recordIn_depth (k : Nat) (h : Handle) (id : FieldId) (origin : Pos) (extent : Extent) :
    Approximates (w.recordIn a k h id origin extent)
      (w.recordIn a (w.depth a) h id origin extent) := by
  rcases Nat.le_total k (w.depth a) with hle | hle
  · exact recordIn_mono hle h id origin extent
  · rcases recordIn_mono hle h id origin extent with hend | heq
    · left
      have hdepth : w.dimensionIn a (w.depth a) h id = .error (.fault .endlessEvaluation) := by
        by_contra hne
        exact recordIn_terminates origin extent hne hend
      have hk : w.dimensionIn a k h id = .error (.fault .endlessEvaluation) := by
        rcases dimensionIn_depth (w := w) (a := a) k h id with hk | hk
        · exact hk
        · exact hk.trans hdepth
      cases k with
      | zero => rfl
      | succ k =>
          unfold recordIn
          rw [hk]
          rfl
    · exact .inr heq.symm

end World

end VoxelGrammar
