import VoxelGrammar.Proofs.Locality
import VoxelGrammar.Proofs.Notes

/-!
Evaluation with a notebook comes to the meaning of a field. Everything that evaluation writes down
is what the field means, in the context of the page or, on the shared page, in any context at all;
so what it reads there is what it would have worked out. Only the number of steps can differ, since
what is remembered needs no steps, and the bound on the steps is chosen such that this never shows.
-/

namespace VoxelGrammar

variable {μ α β : Type}

/-! ### Fields that read no context -/

/-- The fields that are marked as reading no context are made of such fields only. -/
def Grammar.Marked (g : Grammar) : Prop :=
  ∀ id f, g.field id = .ok f → f.contextual = false → f.kind.readsContext = false ∧
    ∀ i ∈ f.kind.inputs, ∃ f', g.field i = .ok f' ∧ f'.contextual = false

namespace World

variable {w : World μ} {a b : Arena} {h h' : Handle} {f : Field}

theorem page_of_free (hc : f.contextual = false) : a.page h f = .ok .shared := by
  rw [Arena.page, hc]
  rfl

theorem sources_of_free (hr : f.kind.readsContext = false) (id : FieldId) :
    a.sources h id f = .ok (f.kind.inputs.map (h, ·)) := by
  rw [Arena.sources.eq_def]
  cases hk : f.kind with
  | param name =>
      rw [hk] at hr
      cases hr
  | _ => rfl

theorem compute_of_free {kind : FieldKind} (hr : kind.readsContext = false) (key : RecordKey)
    (inputs : List Record) : w.compute a h key kind inputs = w.compute b h' key kind inputs := by
  cases kind with
  | localPosition | contextRandom _ | param _ => cases hr
  | _ => rfl

/-- A field that reads no context varies everywhere or nowhere. -/
theorem dimensionIn_of_free (marked : w.grammar.Marked) (k : Nat) {id : FieldId}
    (hf : w.grammar.field id = .ok f) (hc : f.contextual = false) :
    w.dimensionIn a k h id = w.dimensionIn b k h' id := by
  induction k generalizing id f with
  | zero => rfl
  | succ k ih =>
      obtain ⟨hr, hin⟩ := marked id f hf hc
      unfold dimensionIn
      rw [dimensionStep_eq hf (page_of_free hc) (sources_of_free hr id),
        dimensionStep_eq hf (page_of_free hc) (sources_of_free hr id)]
      refine congrArg _ (funext fun own => Agree.foldlM ?_ own)
      refine List.forall₂_map_left_iff.2 (List.forall₂_map_right_iff.2 (List.forall₂_same.2 ?_))
      intro i hi d
      obtain ⟨f', hf', hc'⟩ := hin i hi
      rw [ih hf' hc']

theorem recordStep_of_free (marked : w.grammar.Marked)
    {sub sub' : Handle → FieldId → Pos → Extent → Except EvalError Record} {key : RecordKey}
    (hf : w.grammar.field key.field = .ok f) (hc : f.contextual = false)
    (hsub : ∀ i f', w.grammar.field i = .ok f' → f'.contextual = false →
      ∀ origin extent, sub h i origin extent = sub' h' i origin extent) :
    w.recordStep a sub h key = w.recordStep b sub' h' key := by
  obtain ⟨hr, hin⟩ := marked key.field f hf hc
  rw [recordStep_eq hf (page_of_free hc) (sources_of_free hr key.field),
    recordStep_eq hf (page_of_free hc) (sources_of_free hr key.field)]
  have inputs : (f.kind.inputs.map (h, ·)).mapM (fun s => sub s.1 s.2 key.origin key.extent) =
      (f.kind.inputs.map (h', ·)).mapM fun s => sub' s.1 s.2 key.origin key.extent := by
    refine Agree.mapM ?_
    refine List.forall₂_map_left_iff.2 (List.forall₂_map_right_iff.2 (List.forall₂_same.2 ?_))
    intro i hi
    obtain ⟨f', hf', hc'⟩ := hin i hi
    exact hsub i f' hf' hc' _ _
  rw [inputs]
  exact congrArg _ (funext fun rs => compute_of_free hr key rs)

/-- A field that reads no context has the same records everywhere. -/
theorem recordIn_of_free (marked : w.grammar.Marked) (k : Nat) {id : FieldId}
    (hf : w.grammar.field id = .ok f) (hc : f.contextual = false) (origin : Pos) (extent : Extent) :
    w.recordIn a k h id origin extent = w.recordIn b k h' id origin extent := by
  induction k generalizing id f origin extent with
  | zero => rfl
  | succ k ih =>
      unfold recordIn
      have same : w.dimensionIn a (k + 1) h id = w.dimensionIn b (k + 1) h' id :=
        dimensionIn_of_free marked (k + 1) hf hc
      rw [same]
      refine congrArg _ (funext fun d => recordStep_of_free marked ?_ hc fun i f' hf' hc' => ?_)
      · rwa [RecordKey.across_field]
      · exact ih hf' hc'

end World

/-! ### Truth -/

theorem Arena.eq_of_slot {a : Arena} {h h' : Handle} {x y : Context} (hx : a.get h = .ok x)
    (hy : a.get h' = .ok y) (hs : h'.slot = h.slot) : h' = h := by
  have hl := Arena.isLive_of_get hx
  have hl' := Arena.isLive_of_get hy
  simp only [Arena.isLive, Bool.and_eq_true, decide_eq_true_eq, beq_iff_eq] at hl hl'
  have hgen := hl'.2
  rw [hs, hl.2] at hgen
  cases h
  cases h'
  simp_all

namespace World

def facts (w : World μ) (a : Arena) : Facts where
  dimension
    | .shared, id, d => ∃ k, ∀ b h, w.forgetful.dimensionIn b k h id = .ok d
    | .context slot, id, d => ∀ h x, a.get h = .ok x → h.slot = slot →
      ∃ k, w.forgetful.dimensionIn a k h id = .ok d
  record
    | .shared, key, r => ∃ k, ∀ b h,
      w.forgetful.recordStep b (w.forgetful.recordIn b k) h key = .ok r
    | .context slot, key, r => ∀ h x, a.get h = .ok x → h.slot = slot →
      ∃ k, w.forgetful.recordStep a (w.forgetful.recordIn a k) h key = .ok r

variable {w : World μ} {a b : Arena} {h : Handle} {n : Nat}

/-- What is true in the first contexts stays true in alike ones. -/
theorem facts_imply (alike : Arena.Alike (fun _ => 0) n a b) (ground : a.Grounded) :
    (w.facts a).Imply n (w.facts b) where
  dimension := by
    intro page id d hpage hd
    cases page with
    | shared => exact hd
    | context slot =>
        intro h x hx hs
        subst hs
        obtain ⟨y, hy⟩ := alike.live hpage (y := x) (by rwa [Handle.shift_zero])
        obtain ⟨k, hk⟩ := hd h y hy rfl
        have same := alike.dimensionIn ground w.forgetful k id hpage
        rw [Handle.shift_zero] at same
        exact ⟨k, same ▸ hk⟩
  record := by
    intro page key r hpage hr
    cases page with
    | shared => exact hr
    | context slot =>
        intro h x hx hs
        subst hs
        obtain ⟨y, hy⟩ := alike.live hpage (y := x) (by rwa [Handle.shift_zero])
        obtain ⟨k, hk⟩ := hr h y hy rfl
        have subs : ∀ h' : Handle, h'.slot < n → ∀ id origin extent,
            w.forgetful.recordIn a k h' id origin extent =
              w.forgetful.recordIn b k (h'.shift fun _ => 0) id origin extent :=
          fun h' hn' id origin extent => alike.recordIn ground w.forgetful k id origin extent hn'
        have same := alike.recordStep ground w.forgetful key hpage subs
        rw [Handle.shift_zero] at same
        exact ⟨k, same ▸ hk⟩

theorem facts_push (ha : a.Numbered) (ground : a.Grounded) (x : Context) :
    (w.facts a).Imply a.size (w.facts (a.push x).2) :=
  facts_imply (Arena.Keeps.alike (.of_append (Arena.live_push ha x)) ha (Arena.numbered_push ha x))
    ground

theorem facts_truncate (ha : a.Numbered) (ground : a.Grounded) (n : Nat) :
    (w.facts a).Imply (min n a.size) (w.facts (a.truncate n)) := by
  refine facts_imply (Arena.Keeps.alike ⟨?_, ?_⟩ ha (Arena.numbered_truncate ha n)) ground
  · rw [Arena.size_truncate]
  · rw [Arena.live_truncate, List.take_take]
    congr 1
    omega

end World

/-! ### Evaluation -/

/-- With more steps, nothing but the lack of steps is replaced. -/
def Rising (X : Nat → Except EvalError α) : Prop := ∀ k l, k ≤ l → Approximates (X k) (X l)

/-- The answer `r` is that of `n` steps at least, and that of some number of steps. -/
structure Tracks (X : Nat → Except EvalError α) (n : Nat) (r : Except EvalError α) : Prop where
  reached : Approximates (X n) r
  honest : Terminates r → ∃ k, X k = r

namespace Tracks

variable {X : Nat → Except EvalError α} {n : Nat} {r : Except EvalError α}

theorem const (r : Except EvalError α) : Tracks (fun _ => r) n r := ⟨.refl r, fun _ => ⟨n, rfl⟩⟩

theorem of_eq (rising : Rising X) {k : Nat} (hk : X k = r) (hr : Terminates r) : Tracks X n r := by
  refine ⟨?_, fun _ => ⟨k, hk⟩⟩
  rcases Nat.le_total n k with hle | hle
  · exact hk ▸ rising n k hle
  · exact .inr ((rising k n hle).eq (hk ▸ hr) ▸ hk)

/-- Where `n` steps are as good as any larger number, they give the answer. -/
theorem eq (h : Tracks X n r) (bound : ∀ k, Approximates (X k) (X n)) : r = X n := by
  rcases h.reached with hend | heq
  · by_contra hne
    obtain ⟨k, hk⟩ := h.honest fun hr => hne (hr.trans hend.symm)
    have hr : Terminates r := fun hr => hne (hr.trans hend.symm)
    exact hne (hk.symm.trans ((bound k).eq (hk ▸ hr)))
  · exact heq.symm

theorem succ (h : Tracks (fun k => X (k + 1)) n r) : Tracks X (n + 1) r :=
  ⟨h.reached, fun ht => (h.honest ht).elim fun k hk => ⟨k + 1, hk⟩⟩

theorem bind {Y : α → Nat → Except EvalError β} {s : Except EvalError β} {a : α}
    (hX : Rising X) (hY : Rising (Y a)) (h : Tracks X n (.ok a)) (hs : Tracks (Y a) n s) :
    Tracks (fun k => X k >>= fun a => Y a k) n s := by
  constructor
  · rcases h.reached with hend | heq
    · left
      simp only [hend]
      rfl
    · simp only [heq]
      exact hs.reached
  · intro ht
    obtain ⟨k, hk⟩ := h.honest (.ok a)
    obtain ⟨l, hl⟩ := hs.honest ht
    refine ⟨max k l, ?_⟩
    have hk' := (hX k (max k l) (Nat.le_max_left k l)).eq (hk ▸ .ok a)
    have hl' := (hY l (max k l) (Nat.le_max_right k l)).eq (hl ▸ ht)
    simp only [← hk', hk]
    exact hl'.symm.trans hl

theorem bind_error {Y : α → Nat → Except EvalError β} {e : EvalError}
    (h : Tracks X n (.error e)) : Tracks (fun k => X k >>= fun a => Y a k) n (.error e) := by
  constructor
  · rcases h.reached with hend | heq
    · left
      simp only [hend]
      rfl
    · right
      simp only [heq]
      rfl
  · intro ht
    obtain ⟨k, hk⟩ := h.honest fun he => ht (by cases he; rfl)
    refine ⟨k, ?_⟩
    simp only [hk]
    rfl

end Tracks

theorem Eval.run_bind (x : Eval μ α) (f : α → Eval μ β) (m : μ) :
    (x >>= f).run m =
      match x.run m with
      | (.ok a, m) => (f a).run m
      | (.error e, m) => (.error e, m) := by
  simp only [ExceptT.run, bind, ExceptT.bind, ExceptT.mk, StateT.bind]
  rcases x m with ⟨_ | a, m'⟩ <;> rfl

theorem Eval.run_get_bind (f : μ → Eval μ β) (m : μ) : (get >>= f).run m = (f m).run m := rfl

theorem Eval.run_modifyGet_bind (g : μ → α × μ) (f : α → Eval μ β) (m : μ) :
    (modifyGet g >>= f).run m = (f (g m).1).run (g m).2 := rfl

/-- The outcome of an evaluation: what is written down is true, and the answer tracks the meaning. -/
def Recalls (P : μ → Prop) (X : Nat → Except EvalError α) (n : Nat)
    (p : Except EvalError α × μ) : Prop :=
  P p.2 ∧ Tracks X n p.1

namespace Recalls

variable {P : μ → Prop} {X : Nat → Except EvalError α} {n : Nat} {x : Eval μ α} {m : μ}

theorem bind {Y : α → Nat → Except EvalError β} {f : α → Eval μ β} (hX : Rising X)
    (hY : ∀ a, Rising (Y a)) (h : Recalls P X n (x.run m))
    (hf : ∀ a m', P m' → (∃ k, X k = .ok a) → Recalls P (Y a) n ((f a).run m')) :
    Recalls P (fun k => X k >>= fun a => Y a k) n ((x >>= f).run m) := by
  rw [Eval.run_bind]
  rcases hx : x.run m with ⟨e | a, m'⟩
  · rw [hx] at h
    exact ⟨h.1, h.2.bind_error⟩
  · rw [hx] at h
    have next := hf a m' h.1 (h.2.honest (.ok a))
    exact ⟨next.1, h.2.bind hX (hY a) next.2⟩

theorem congr {X' : Nat → Except EvalError α} {p : Except EvalError α × μ} (hX : ∀ k, X' k = X k)
    (h : Recalls P X' n p) : Recalls P X n p := by
  obtain rfl : X' = X := funext hX
  exact h

theorem lift_bind {c : Except EvalError α} {Y : α → Nat → Except EvalError β} {f : α → Eval μ β}
    (hm : P m) (h : ∀ a, c = .ok a → Recalls P (Y a) n ((f a).run m)) :
    Recalls P (fun k => c >>= fun a => Y a k) n ((liftM c >>= f : Eval μ β).run m) := by
  cases c with
  | error e => exact ⟨hm, .const _⟩
  | ok a => exact h a rfl

theorem fault_bind {c : Except Fault α} {Y : α → Nat → Except EvalError β} {f : α → Eval μ β}
    (hm : P m) (h : ∀ a, c = .ok a → Recalls P (Y a) n ((f a).run m)) :
    Recalls P (fun k => (liftM c : Except EvalError α) >>= fun a => Y a k) n
      ((liftM c >>= f : Eval μ β).run m) := by
  cases c with
  | error e => exact ⟨hm, .const _⟩
  | ok a => exact h a rfl

theorem foldlM {X : β → α → Nat → Except EvalError β} {f : β → α → Eval μ β} (xs : List α)
    (hX : ∀ b a, Rising (X b a))
    (hf : ∀ b, ∀ a ∈ xs, ∀ m, P m → Recalls P (X b a) n ((f b a).run m)) (b : β) (hm : P m) :
    Recalls P (fun k => xs.foldlM (fun b a => X b a k) b) n ((xs.foldlM f b).run m) := by
  induction xs generalizing b m with
  | nil => exact ⟨hm, .const _⟩
  | cons a xs ih =>
      simp only [List.foldlM_cons]
      refine bind (hX b a) (fun c k l hkl => .foldlM xs (fun b a _ => hX b a k l hkl) c)
        (hf b a List.mem_cons_self m hm) fun c m' hm' _ => ?_
      exact ih (fun b a ha => hf b a (List.mem_cons_of_mem _ ha)) c hm'

theorem mapM {X : α → Nat → Except EvalError β} {f : α → Eval μ β} (xs : List α)
    (hX : ∀ a, Rising (X a))
    (hf : ∀ a ∈ xs, ∀ m, P m → Recalls P (X a) n ((f a).run m)) (hm : P m) :
    Recalls P (fun k => xs.mapM fun a => X a k) n ((xs.mapM f).run m) := by
  induction xs generalizing m with
  | nil => exact ⟨hm, .const _⟩
  | cons a xs ih =>
      simp only [List.mapM_cons]
      have rising : Rising fun k => xs.mapM fun a => X a k :=
        fun k l hkl => .mapM xs fun a _ => hX a k l hkl
      refine bind (hX a) (fun b k l hkl => .bind (rising k l hkl) fun _ _ => .refl _)
        (hf a List.mem_cons_self m hm) fun b m' hm' _ => ?_
      refine bind rising (fun _ _ _ _ => .refl _)
        (ih (fun a ha => hf a (List.mem_cons_of_mem _ ha)) hm') fun bs m'' hm'' _ => ?_
      exact ⟨hm'', .const _⟩

end Recalls

namespace World

variable {w : World μ} {holds : Facts → Nat → μ → Prop} {a : Arena} {h : Handle}

theorem dimensionIn_rising (w : World μ) (a : Arena) (h : Handle) (id : FieldId) :
    Rising fun k => w.dimensionIn a k h id := fun _ _ hkl => dimensionIn_mono hkl h id

theorem recordIn_rising (w : World μ) (a : Arena) (h : Handle) (id : FieldId) (origin : Pos)
    (extent : Extent) : Rising fun k => w.recordIn a k h id origin extent :=
  fun _ _ hkl => recordIn_mono hkl h id origin extent

theorem recordStep_rising (w : World μ) (a : Arena) (h : Handle) (key : RecordKey) :
    Rising fun k => w.recordStep a (w.recordIn a k) h key :=
  fun _ _ hkl => recordStep_approximates (fun h id origin extent =>
    recordIn_mono hkl h id origin extent) h key

/-- What has been found out about a field may be written down on its page. -/
theorem dimension_fact (marked : w.grammar.Marked) {id : FieldId} {f : Field} {page : Page}
    {d : Dimensionality} (hf : w.grammar.field id = .ok f) (hp : a.page h f = .ok page)
    (hd : ∃ k, w.forgetful.dimensionIn a k h id = .ok d) : (w.facts a).dimension page id d := by
  obtain ⟨k, hk⟩ := hd
  cases hc : f.contextual with
  | false =>
      rw [page_of_free hc] at hp
      cases hp
      refine ⟨k, fun b h' => ?_⟩
      have same : w.forgetful.dimensionIn b k h' id = w.forgetful.dimensionIn a k h id :=
        dimensionIn_of_free (w := w.forgetful) marked k hf hc
      rw [same, hk]
  | true =>
      unfold Arena.page at hp
      rw [hc] at hp
      obtain ⟨x, hx, hp⟩ := bind_ok_iff.1 hp
      cases hp
      intro h' x' hx' hslot
      rw [Arena.eq_of_slot (lift_ok.1 hx) hx' hslot]
      exact ⟨k, hk⟩

theorem record_fact (marked : w.grammar.Marked) {key : RecordKey} {f : Field} {page : Page}
    {r : Record} (hf : w.grammar.field key.field = .ok f) (hp : a.page h f = .ok page)
    (hr : ∃ k, w.forgetful.recordStep a (w.forgetful.recordIn a k) h key = .ok r) :
    (w.facts a).record page key r := by
  obtain ⟨k, hk⟩ := hr
  cases hc : f.contextual with
  | false =>
      rw [page_of_free hc] at hp
      cases hp
      refine ⟨k, fun b h' => ?_⟩
      rw [← hk]
      exact recordStep_of_free (w := w.forgetful) marked hf hc fun i f' hf' hc' origin extent =>
        recordIn_of_free (w := w.forgetful) marked k hf' hc' origin extent
  | true =>
      unfold Arena.page at hp
      rw [hc] at hp
      obtain ⟨x, hx, hp⟩ := bind_ok_iff.1 hp
      cases hp
      intro h' x' hx' hslot
      rw [Arena.eq_of_slot (lift_ok.1 hx) hx' hslot]
      exact ⟨k, hk⟩

/-- What is written down about a field on its page is what it means. -/
theorem dimension_of_fact {id : FieldId} {f : Field} {page : Page} {d : Dimensionality}
    (hp : a.page h f = .ok page) (hd : (w.facts a).dimension page id d) :
    ∃ k, w.forgetful.dimensionIn a k h id = .ok d := by
  unfold Arena.page at hp
  split at hp
  · obtain ⟨x, hx, hp⟩ := bind_ok_iff.1 hp
    cases hp
    exact hd h x (lift_ok.1 hx) rfl
  · cases hp
    exact hd.imp fun k hk => hk a h

theorem record_of_fact {key : RecordKey} {f : Field} {page : Page} {r : Record}
    (hp : a.page h f = .ok page) (hr : (w.facts a).record page key r) :
    ∃ k, w.forgetful.recordStep a (w.forgetful.recordIn a k) h key = .ok r := by
  unfold Arena.page at hp
  split at hp
  · obtain ⟨x, hx, hp⟩ := bind_ok_iff.1 hp
    cases hp
    exact hr h x (lift_ok.1 hx) rfl
  · cases hp
    exact hr.imp fun k hk => hk a h

/-- Finding out whether a field varies comes to what it means. -/
theorem dimensionalityWithin_recalls (honest : w.notebook.Honest holds)
    (marked : w.grammar.Marked) (n : Nat) (h : Handle) (id : FieldId) {m : μ}
    (hm : holds (w.facts a) a.size m) :
    Recalls (holds (w.facts a) a.size) (fun k => w.forgetful.dimensionIn a k h id) n
      ((w.dimensionalityWithin a n h id).run m) := by
  induction n generalizing h id m with
  | zero => exact ⟨hm, .inl rfl, fun ht => absurd rfl ht⟩
  | succ n ih =>
      suffices Recalls (holds (w.facts a) a.size) (fun k => w.forgetful.dimensionIn a (k + 1) h id) n
          ((w.dimensionalityWithin a (n + 1) h id).run m) from ⟨this.1, this.2.succ⟩
      refine .fault_bind hm fun f hf => .lift_bind hm fun page hp => ?_
      have means : ∀ k, w.forgetful.dimensionIn a (k + 1) h id = _ :=
        fun k => dimensionStep_page (w := w.forgetful) hf hp
      rw [Eval.run_get_bind]
      cases hnote : w.notebook.dimensionality? m page id with
      | some d =>
          obtain ⟨k, hk⟩ := dimension_of_fact hp (honest.dimension hm hnote)
          refine .congr means ⟨hm, .of_eq (k := k) ?_ ?_ (.ok d)⟩
          · exact fun k l hkl => dimensionIn_mono (Nat.succ_le_succ hkl) h id
          · exact (dimensionIn_succ (w := w.forgetful) (a := a) k h id).eq (hk ▸ .ok d) ▸ hk
      | none =>
          refine .lift_bind hm fun own hown => .lift_bind hm fun sources hsources => ?_
          have rising : ∀ (d : Dimensionality) (s : Handle × FieldId), Rising fun k =>
              (do return d.join (← w.forgetful.dimensionIn a k s.1 s.2) :
                Except EvalError Dimensionality) :=
            fun d s k l hkl => .bind (dimensionIn_mono hkl s.1 s.2) fun _ _ => .refl _
          have folded : Recalls (holds (w.facts a) a.size)
              (fun k => sources.foldlM (fun d s => do
                return d.join (← w.forgetful.dimensionIn a k s.1 s.2)) own) n
              ((sources.foldlM (fun d s => do
                return d.join (← w.dimensionalityWithin a n s.1 s.2)) own : Eval μ _).run m) := by
            refine .foldlM sources rising (fun d s _ m hm => ?_) own hm
            refine .bind (dimensionIn_rising w.forgetful a s.1 s.2) (fun _ _ _ _ => .refl _)
              (ih s.1 s.2 hm) fun d' m' hm' _ => ?_
            exact ⟨hm', .const _⟩
          refine .congr (fun k => bind_pure _) (.bind (fun k l hkl => .foldlM sources
            (fun d s _ => rising d s k l hkl) own) (fun _ _ _ _ => .refl _) folded ?_)
          rintro d m' hm' ⟨k, hk⟩
          refine ⟨honest.noteDimension hm' (dimension_fact marked hf hp ⟨k + 1, ?_⟩), .const _⟩
          rw [means, hown, hsources]
          exact hk

/-- Working a record out comes to what it means. -/
theorem recordWithin_recalls (honest : w.notebook.Honest holds) (marked : w.grammar.Marked) (n : Nat)
    (h : Handle) (id : FieldId) (origin : Pos) (extent : Extent) {m : μ}
    (hm : holds (w.facts a) a.size m) :
    Recalls (holds (w.facts a) a.size) (fun k => w.forgetful.recordIn a k h id origin extent) n
      ((w.recordWithin a n h id origin extent).run m) := by
  induction n generalizing h id origin extent m with
  | zero => exact ⟨hm, .inl rfl, fun ht => absurd rfl ht⟩
  | succ n ih =>
      suffices Recalls (holds (w.facts a) a.size)
          (fun k => w.forgetful.recordIn a (k + 1) h id origin extent) n
          ((w.recordWithin a (n + 1) h id origin extent).run m) from ⟨this.1, this.2.succ⟩
      -- The dimensionality is worked out with the bound of evaluations, whatever `n` is.
      have dimension : Recalls (holds (w.facts a) a.size)
          (fun k => w.forgetful.dimensionIn a (k + 1) h id) n ((w.dimensionality a h id).run m) := by
        obtain ⟨hm', reached, truth⟩ :=
          dimensionalityWithin_recalls honest marked (w.depth a) h id hm
        refine ⟨hm', (dimensionIn_depth (w := w.forgetful) (n + 1) h id).trans reached, fun ht => ?_⟩
        obtain ⟨k, hk⟩ := truth ht
        exact ⟨k, (dimensionIn_succ (w := w.forgetful) (a := a) k h id).eq (hk ▸ ht) ▸ hk⟩
      refine .bind (fun k l hkl => dimensionIn_mono (Nat.succ_le_succ hkl) h id)
        (fun d => fun k l hkl => recordStep_rising w.forgetful a h _ k l hkl) dimension ?_
      intro d m hm _
      generalize hkey : RecordKey.across d id origin extent = key
      obtain rfl : key.field = id := by rw [← hkey, RecordKey.across_field]
      refine .fault_bind hm fun f hf => .lift_bind hm fun page hp => ?_
      have means : ∀ k, w.forgetful.recordStep a (w.forgetful.recordIn a k) h key = _ :=
        fun k => recordStep_page (w := w.forgetful) hf hp
      rw [Eval.run_modifyGet_bind]
      have hm' := honest.look hm page key
      cases hnote : (w.notebook.record? m page key).1 with
      | some r =>
          obtain ⟨k, hk⟩ := record_of_fact hp (honest.record hm hnote)
          exact .congr means ⟨hm', .of_eq (recordStep_rising w.forgetful a h key) hk (.ok r)⟩
      | none =>
          refine .lift_bind hm' fun sources hsources => ?_
          have rising : Rising fun k => sources.mapM fun s =>
              w.forgetful.recordIn a k s.1 s.2 key.origin key.extent :=
            fun k l hkl => .mapM sources fun s _ => recordIn_mono hkl s.1 s.2 _ _
          refine .bind rising (fun _ _ _ _ => .refl _) (.mapM sources
            (fun s => recordIn_rising w.forgetful a s.1 s.2 _ _)
            (fun s _ m hm => ih s.1 s.2 _ _ hm) hm') ?_
          rintro inputs m'' hm'' ⟨k, hk⟩
          refine .congr (fun _ => bind_pure _) (.lift_bind hm'' fun r hr => ?_)
          refine ⟨honest.noteRecord hm'' (record_fact marked hf hp ⟨k, ?_⟩), .const _⟩
          rw [means, hsources]
          exact bind_ok_iff.2 ⟨sources, rfl, bind_ok_iff.2 ⟨inputs, hk, hr⟩⟩

/-- Evaluation with a notebook answers what a field means. -/
theorem run_dimensionality (honest : w.notebook.Honest holds) (marked : w.grammar.Marked)
    (h : Handle) (id : FieldId) {m : μ} (hm : holds (w.facts a) a.size m) :
    ((w.dimensionality a h id).run m).1 = w.forgetful.dimensionIn a (w.depth a) h id ∧
      holds (w.facts a) a.size ((w.dimensionality a h id).run m).2 := by
  obtain ⟨hm', tracks⟩ := dimensionalityWithin_recalls honest marked (w.depth a) h id hm
  exact ⟨tracks.eq fun k => dimensionIn_depth (w := w.forgetful) k h id, hm'⟩

theorem run_record (honest : w.notebook.Honest holds) (marked : w.grammar.Marked)
    (h : Handle) (id : FieldId) (origin : Pos) (extent : Extent) {m : μ}
    (hm : holds (w.facts a) a.size m) :
    ((w.record a h id origin extent).run m).1 =
        w.forgetful.recordIn a (w.depth a) h id origin extent ∧
      holds (w.facts a) a.size ((w.record a h id origin extent).run m).2 := by
  obtain ⟨hm', tracks⟩ := recordWithin_recalls honest marked (w.depth a) h id origin extent hm
  exact ⟨tracks.eq fun k => recordIn_depth (w := w.forgetful) k h id origin extent, hm'⟩

end World

end VoxelGrammar
