import VoxelGrammar.Proofs.Breakdown
import VoxelGrammar.Proofs.Lockstep

/-!
The same context in two slots. What a field means in a context has nothing to do with the slot that
the context is in, as long as the contexts it refers to are where they were: a context that is dropped
and entered again after others have come and gone means what it meant before.
-/

namespace VoxelGrammar

variable {μ ν : Type}

namespace Arena

variable {a b : Arena} {n : Nat}

/-! ### Steps to spare -/

theorem declaring_steady (ground : a.Grounded) (name : String) (id : FieldId) {k l : Nat} {q : Handle}
    (hk : q.slot < k) (hl : q.slot < l) : a.declaring name id k q = a.declaring name id l q := by
  induction k generalizing l q with
  | zero => omega
  | succ k ih =>
      obtain ⟨l, rfl⟩ := Nat.exists_eq_succ_of_ne_zero (Nat.ne_zero_of_lt hl)
      refine Agree.eq (.bind (.of_eq rfl) fun c c' hc heq => ?_)
      subst heq
      cases c.placeholder? id with
      | some key => exact .of_eq rfl
      | none =>
          cases hp : c.parent with
          | none => exact .of_eq rfl
          | some p =>
              have below := (ground q c (lift_ok.1 hc)).parent p hp
              exact .of_eq (ih (by omega) (by omega))

theorem follow_steady (ground : a.Grounded) (name : String) (key : ParamKey) {k l : Nat} (q : Handle)
    {v : Binding} (hk : v.Below k) (hl : v.Below l) :
    a.follow name key k q v = a.follow name key l q v := by
  induction k generalizing l q v with
  | zero =>
      cases v with
      | own field => simp only [follow]
      | bridge p => exact absurd hk (Nat.not_lt_zero _)
  | succ k ih =>
      cases v with
      | own field => simp only [follow]
      | bridge p =>
          obtain ⟨l, rfl⟩ := Nat.exists_eq_succ_of_ne_zero (Nat.ne_zero_of_lt hl)
          refine Agree.eq (.bind (.of_eq rfl) fun c c' hc heq => ?_)
          subst heq
          cases hv : c.outputs.get? key with
          | none => exact .of_eq rfl
          | some v =>
              obtain ⟨e, he, rfl⟩ := Bindings.mem_of_get? hv
              have below := (ground p c (lift_ok.1 hc)).outputs e he
              exact .of_eq (ih p (below.mono (Nat.le_of_lt_succ hk)) (below.mono (Nat.le_of_lt_succ hl)))

/-! ### A context that has been moved -/

/-- The context `x`, which only refers to slots below `n`, is at `h` in the one arena and at `h'` in
the other one. Below `n` the arenas are the same. -/
structure Relocates (n : Nat) (x : Context) (a b : Arena) (h h' : Handle) : Prop where
  ground : a.Grounded
  ground' : b.Grounded
  same : ∀ q, q.slot < n → b.get q = a.get q
  here : a.get h = .ok x
  there : b.get h' = .ok x
  above : n ≤ h.slot
  above' : n ≤ h'.slot
  below : x.Below n

def Moves (n : Nat) (h h' q q' : Handle) : Prop := q.slot < n ∧ q' = q ∨ q = h ∧ q' = h'

namespace Relocates

variable {x : Context} {h h' : Handle} (moved : Relocates n x a b h h')

include moved

theorem symm : Relocates n x b a h' h :=
  ⟨moved.ground', moved.ground, fun q hq => (moved.same q hq).symm, moved.there, moved.here,
    moved.above', moved.above, moved.below⟩

theorem get {q q' : Handle} (hq : Moves n h h' q q') :
    Agree (fun c c' => c' = c ∧ c.Below n) (a.get q) (b.get q') := by
  rcases hq with ⟨hlt, rfl⟩ | ⟨rfl, rfl⟩
  · rw [moved.same q' hlt]
    cases hc : a.get q' with
    | error e => rfl
    | ok c =>
        exact ⟨rfl, (moved.ground q' c hc).mono hlt.le⟩
  · rw [moved.here, moved.there]
    exact ⟨rfl, moved.below⟩

/-- As many steps as there are slots to refer to suffice. -/
theorem declaring_steps (name : String) (id : FieldId) {q : Handle} (hq : q.slot < n ∨ q = h) :
    a.declaring name id (q.slot + 1) q = a.declaring name id (n + 1) q := by
  rcases hq with hlt | rfl
  · exact declaring_steady moved.ground name id (Nat.lt_succ_self _) (by omega)
  · refine Agree.eq (.bind (.of_eq rfl) fun c c' hc heq => ?_)
    subst heq
    obtain rfl := Except.ok.inj (moved.here.symm.trans (lift_ok.1 hc))
    cases x.placeholder? id with
    | some key => exact .of_eq rfl
    | none =>
        cases hp : x.parent with
        | none => exact .of_eq rfl
        | some p =>
            have hlt := moved.below.parent p hp
            exact .of_eq (declaring_steady moved.ground name id (hlt.trans_le moved.above) hlt)

theorem declaring (name : String) (id : FieldId) (k : Nat) {q q' : Handle} (hq : Moves n h h' q q') :
    Agree (fun s s' => Moves n h h' s.1 s'.1 ∧ s'.2 = s.2)
      (a.declaring name id k q) (b.declaring name id k q') := by
  induction k generalizing q q' with
  | zero => rfl
  | succ k ih =>
      refine .bind (moved.get hq).lift fun c c' _ ⟨heq, below⟩ => ?_
      subst heq
      cases c'.placeholder? id with
      | some key => exact ⟨hq, rfl⟩
      | none =>
          cases hp : c'.parent with
          | none => rfl
          | some p => exact ih (.inl ⟨below.parent p hp, rfl⟩)

theorem follow (name : String) (key : ParamKey) (k : Nat) {q q' : Handle} (hq : Moves n h h' q q')
    {v : Binding} (hv : v.Below n) : Agree (fun s s' => Moves n h h' s.1 s'.1 ∧ s'.2 = s.2)
      (a.follow name key k q v) (b.follow name key k q' v) := by
  induction k generalizing q q' v with
  | zero =>
      cases v with
      | own field => exact ⟨hq, rfl⟩
      | bridge p => rfl
  | succ k ih =>
      cases v with
      | own field => exact ⟨hq, rfl⟩
      | bridge p =>
          have hp : Moves n h h' p p := .inl ⟨hv, rfl⟩
          refine .bind (moved.get hp).lift fun c c' _ ⟨heq, below⟩ => ?_
          subst heq
          cases hv : c'.outputs.get? key with
          | none => rfl
          | some v =>
              obtain ⟨e, he, rfl⟩ := Bindings.mem_of_get? hv
              exact ih hp (below.outputs e he)

theorem resolve (name : String) (id : FieldId) {q q' : Handle} (hq : Moves n h h' q q') :
    Agree (fun s s' => Moves n h h' s.1 s'.1 ∧ s'.2 = s.2)
      (a.resolve name id q) (b.resolve name id q') := by
  have left : q.slot < n ∨ q = h := hq.imp And.left And.left
  have right : q'.slot < n ∨ q' = h' := hq.imp (fun ⟨hlt, heq⟩ => heq ▸ hlt) And.right
  -- The two searches are given steps by their own slots, which differ; `n + 1` steps do for either.
  unfold Arena.resolve
  rw [moved.declaring_steps name id left, moved.symm.declaring_steps name id right]
  refine .bind (moved.declaring name id (n + 1) hq) ?_
  rintro ⟨owner, key⟩ ⟨owner', key'⟩ _ ⟨howner, hkey⟩
  obtain rfl : key' = key := hkey
  have found := moved.get howner
  refine .bind found.lift fun c c' hc ⟨heq, below⟩ => ?_
  subst heq
  cases hv : c'.inputs.get? key' with
  | none => exact rfl
  | some v =>
      rw [lift_ok.1 hc] at found
      obtain ⟨_, hc', rfl, _⟩ := found.ok_left
      obtain ⟨e, he, rfl⟩ := Bindings.mem_of_get? hv
      have kept := below.inputs e he
      have lower := (moved.ground owner _ (lift_ok.1 hc)).inputs e he
      have lower' := (moved.ground' owner' _ hc').inputs e he
      have steps : a.follow name key' (owner.slot + 1) owner e.2 = a.follow name key' n owner e.2 :=
        follow_steady moved.ground name key' owner (lower.mono (Nat.le_succ _)) kept
      have steps' : b.follow name key' (owner'.slot + 1) owner' e.2 =
          b.follow name key' n owner' e.2 :=
        follow_steady moved.ground' name key' owner' (lower'.mono (Nat.le_succ _)) kept
      dsimp only
      rw [steps, steps']
      exact moved.follow name key' n howner kept

theorem sources (id : FieldId) (f : Field) {q q' : Handle} (hq : Moves n h h' q q') :
    Agree (List.Forall₂ fun s s' => Moves n h h' s.1 s'.1 ∧ s'.2 = s.2)
      (a.sources q id f) (b.sources q' id f) := by
  rw [Arena.sources.eq_def, Arena.sources.eq_def]
  cases f.kind with
  | param name => exact .bind (moved.resolve name id hq) fun s s' _ hs => .cons hs .nil
  | _ =>
      refine List.forall₂_map_left_iff.2 (List.forall₂_map_right_iff.2 ?_)
      exact List.forall₂_same.2 fun _ _ => ⟨hq, rfl⟩

/-- A field that reads the context has a page in both arenas or in neither. -/
theorem page (f : Field) {q q' : Handle} (hq : Moves n h h' q q') :
    Agree (fun _ _ => True) (a.page q f) (b.page q' f) := by
  unfold Arena.page
  split
  · exact .bind (moved.get hq).lift fun _ _ _ _ => trivial
  · exact trivial

theorem compute (w : World μ) (key : RecordKey) (kind : FieldKind) (inputs : List Record)
    {q q' : Handle} (hq : Moves n h h' q q') :
    w.compute a q key kind inputs = w.compute b q' key kind inputs := by
  unfold World.compute
  split
  · rfl
  · rfl
  · exact Agree.eq (.bind (moved.get hq).lift fun c c' _ ⟨heq, _⟩ => .of_eq (heq ▸ rfl))
  · exact Agree.eq (.bind (moved.get hq).lift fun c c' _ ⟨heq, _⟩ => .of_eq (heq ▸ rfl))
  all_goals rfl

theorem dimensionIn (w : World μ) (k : Nat) (id : FieldId) {q q' : Handle} (hq : Moves n h h' q q') :
    w.dimensionIn a k q id = w.dimensionIn b k q' id := by
  induction k generalizing q q' id with
  | zero => rfl
  | succ k ih =>
      refine Agree.eq (.bind (.of_eq rfl) fun f f' _ hf => ?_)
      subst hf
      refine .bind (moved.page f hq) fun _ _ _ _ => .bind (.of_eq rfl) fun own own' _ hown => ?_
      subst hown
      refine .bind (moved.sources id f hq) fun ss ss' _ hss => .of_eq ?_
      refine Agree.foldlM (hss.imp fun s s' ⟨hs, heq⟩ d => ?_) own
      rw [heq, ih s.2 hs]

theorem recordIn (w : World μ) (k : Nat) (id : FieldId) (origin : Pos) (extent : Extent)
    {q q' : Handle} (hq : Moves n h h' q q') :
    w.recordIn a k q id origin extent = w.recordIn b k q' id origin extent := by
  induction k generalizing q q' id origin extent with
  | zero => rfl
  | succ k ih =>
      refine Agree.eq (.bind (.of_eq (moved.dimensionIn w (k + 1) id hq)) fun d d' _ hd => ?_)
      subst hd
      refine .bind (.of_eq rfl) fun f f' _ hf => ?_
      subst hf
      refine .bind (moved.page f hq) fun _ _ _ _ => .bind (moved.sources _ f hq) fun ss ss' _ hss => ?_
      have inputs : ∀ origin extent, ss.mapM (fun s => w.recordIn a k s.1 s.2 origin extent) =
          ss'.mapM fun s => w.recordIn b k s.1 s.2 origin extent := by
        intro origin extent
        refine Agree.mapM (hss.imp fun s s' ⟨hs, heq⟩ => ?_)
        rw [heq, ih s.2 _ _ hs]
      refine .bind (.of_eq (inputs _ _)) fun rs rs' _ hrs => ?_
      subst hrs
      exact .of_eq (moved.compute w _ f.kind rs hq)

/-- Evaluations in the context come to the same in both places. -/
theorem counterparts {w : World μ} {v : World ν} (t : Twins w v) : t.Counterparts a b h h' := by
  have here : Moves n h h' h h' := .inr ⟨rfl, rfl⟩
  exact t.counterparts_of_means ((moved.get here).mono fun _ _ ⟨heq, _⟩ => congrArg _ heq)
    fun k id origin extent => moved.recordIn w.forgetful k id origin extent here

end Relocates

/-! ### Entering a symbol again -/

theorem get_congr (ha : a.Numbered) (hb : b.Numbered) {q : Handle}
    (h : b.live[q.slot]? = a.live[q.slot]?) : b.get q = a.get q := by
  rcases get_eq b q with stale | ⟨y, hy⟩
  · rcases get_eq a q with stale' | ⟨x, hx⟩
    · rw [stale, stale']
    · rw [hx]
      exact (get_eq_ok_iff hb).2 (h.trans ((get_eq_ok_iff ha).1 hx))
  · rw [hy]
    exact ((get_eq_ok_iff ha).2 (h.symm.trans ((get_eq_ok_iff hb).1 hy))).symm

theorem Keeps.get (keeps : Keeps n a b) (ha : a.Numbered) (hb : b.Numbered) {q : Handle}
    (hq : q.slot < n) : b.get q = a.get q := by
  have kept := congrArg (·[q.slot]?) keeps.live
  simp only [List.getElem?_take, hq, if_true] at kept
  exact get_congr ha hb kept

/-- Below a parent, the context of a symbol only goes by that parent. -/
theorem prepare_congr {h : Handle} (same : b.get h = a.get h) (g : Grammar) (ref : SymbolRef)
    (placement : Transform) (seed seed' : Seed) :
    b.prepare g (some h) ref placement seed = a.prepare g (some h) ref placement seed' := by
  simp only [prepare, parentContext, same]
  cases a.get h <;> rfl

theorem below_parent_of_prepare (ha : a.Numbered) {g : Grammar} {h : Handle} {ref : SymbolRef}
    {placement : Transform} {seed : Seed} {x : Context}
    (hx : a.prepare g (some h) ref placement seed = .ok x) : x.Below (h.slot + 1) := by
  -- What is above the parent might as well not be there.
  have same : (a.truncate (h.slot + 1)).get h = a.get h := by
    refine get_congr ha (numbered_truncate ha _) ?_
    rw [live_truncate, List.getElem?_take, if_pos (Nat.lt_succ_self _)]
  have below := below_of_prepare ((prepare_congr same g ref placement seed seed).trans hx)
  exact below.mono ((size_truncate a _).trans_le (Nat.min_le_left _ _))

/-- A context that only refers to what two arenas have in common can be put on top of both. -/
theorem Keeps.relocates (keeps : Keeps n a b) (ha : a.Numbered) (hb : b.Numbered)
    (ground : a.Grounded) (ground' : b.Grounded) {x : Context} (below : x.Below n) :
    Relocates n x (a.push x).2 (b.push x).2 (a.push x).1 (b.push x).1 := by
  have le : n ≤ a.size := by
    have lengths := congrArg List.length keeps.live
    simp only [List.length_take, length_live] at lengths
    have := keeps.le
    omega
  have pushed : Keeps n (a.push x).2 (b.push x).2 := by
    refine ⟨?_, ?_⟩
    · rw [size_push]
      exact keeps.le.trans (Nat.le_succ _)
    · rw [live_push ha, live_push hb, List.take_append_of_le_length (by simpa using keeps.le),
        List.take_append_of_le_length (by simpa using le), keeps.live]
  exact {
    ground := grounded_push ha ground (below.mono le)
    ground' := grounded_push hb ground' (below.mono keeps.le)
    same := fun q hq => pushed.get (numbered_push ha x) (numbered_push hb x) hq
    here := get_push ha x
    there := get_push hb x
    above := le
    above' := keeps.le
    below }

end Arena

end VoxelGrammar
