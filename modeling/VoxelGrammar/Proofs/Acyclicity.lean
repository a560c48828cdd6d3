import Mathlib.Data.Fintype.EquivFin
import VoxelGrammar.Proofs.Growth

/-!
Evaluations that come to an end. What the value of a field is made of lies in a lower slot, or is an
older field in the same context, or is what a parameter defaults to that nothing above hands on. A
default is older than the placeholder it is declared with, so an evaluation goes on forever only if
a parameter is declared again, with a default that leads back to an earlier placeholder of it.
-/

namespace VoxelGrammar

variable {own : Prop} {g : Grammar} {a : Arena} {h : Handle} {s : Symbol}

/-! ### Where placeholders lead -/

namespace Arena

section Walks

variable (ground : a.Grounded)

omit ground in
theorem get_ends (a : Arena) (h : Handle) :
    Gives (· ≠ .endlessEvaluation) (fun c => a.get h = .ok c) (liftM (a.get h)) := by
  rcases get_eq a h with hx | ⟨x, hx⟩ <;> rw [hx]
  · exact .fault nofun
  · exact .ok rfl

include ground

/-- A placeholder is declared where it is read or in a lower slot. -/
theorem declaring_lands (name : String) (id : FieldId) (k : Nat) (hk : h.slot < k) :
    Gives (· ≠ .endlessEvaluation)
      (fun s => (s.1 = h ∨ s.1.slot < h.slot) ∧ ∃ c, a.get s.1 = .ok c ∧
        c.placeholder? id = some s.2) (a.declaring name id k h) := by
  induction k generalizing h with
  | zero => exact absurd hk (Nat.not_lt_zero _)
  | succ k ih =>
      unfold declaring
      refine (get_ends a h).bind fun c hc => ?_
      split
      · next key _ hkey => exact .ok ⟨.inl rfl, c, hc, hkey⟩
      · next parent _ hparent =>
        have below := (ground h c hc).parent parent hparent
        refine (ih (Nat.lt_of_lt_of_le below (Nat.le_of_lt_succ hk))).mono fun s hs => ?_
        refine ⟨.inr ?_, hs.2⟩
        rcases hs.1 with rfl | hlt
        · exact below
        · exact hlt.trans below
      · exact .grammar _

/-- A binding that is not a field itself leads to a lower slot. -/
theorem follow_lands (name : String) (key : ParamKey) (k : Nat) {n : Nat} {b : Binding}
    (hn : b.Below n) (hk : b.Below k) :
    Gives (· ≠ .endlessEvaluation) (fun s => s.1 = h ∧ b = .own s.2 ∨ s.1.slot < n)
      (a.follow name key k h b) := by
  induction k generalizing h n b with
  | zero =>
      cases b with
      | own id => exact .ok (.inl ⟨rfl, rfl⟩)
      | bridge parent => exact absurd hk (Nat.not_lt_zero _)
  | succ k ih =>
      cases b with
      | own id => exact .ok (.inl ⟨rfl, rfl⟩)
      | bridge parent =>
          have hlt : parent.slot < n := hn
          unfold follow
          refine (get_ends a parent).bind fun c hc => ?_
          cases hout : c.outputs.get? key with
          | none => exact .grammar _
          | some b =>
              obtain ⟨e, he, rfl⟩ := Bindings.mem_of_get? hout
              have below := (ground parent c hc).outputs e he
              refine (ih below (below.mono (Nat.le_of_lt_succ hk))).mono fun s hs => .inr ?_
              rcases hs with ⟨rfl, _⟩ | hs
              · exact hlt
              · exact hs.trans hlt

/-- A placeholder stands for a field in a lower slot, or for an input of the context itself. -/
theorem resolve_lands (name : String) (id : FieldId) :
    Gives (· ≠ .endlessEvaluation) (fun s => s.1.slot < h.slot ∨ s.1 = h ∧ ∃ c k, a.get h = .ok c ∧
      c.placeholder? id = some k ∧ c.inputs.get? k = some (.own s.2)) (a.resolve name id h) := by
  unfold resolve
  refine (declaring_lands ground name id _ (Nat.lt_succ_self _)).bind ?_
  rintro ⟨owner, key⟩ ⟨howner, c, hc, hkey⟩
  refine (get_ends a owner).bind fun d hd => ?_
  obtain rfl : c = d := Except.ok.inj (hc.symm.trans hd)
  cases hin : c.inputs.get? key with
  | none => exact .grammar _
  | some b =>
      obtain ⟨e, he, rfl⟩ := Bindings.mem_of_get? hin
      have below := (ground owner c hc).inputs e he
      refine (follow_lands ground name key _ below (below.mono (Nat.le_succ _))).mono fun s hs => ?_
      rcases hs with ⟨rfl, hown⟩ | hlt
      · rcases howner with rfl | hlt
        · exact .inr ⟨rfl, c, key, hc, hkey, hown ▸ hin⟩
        · exact .inl hlt
      · rcases howner with rfl | hlt'
        · exact .inl hlt
        · exact .inl (hlt.trans hlt')

end Walks

end Arena

/-! ### Paths of sources -/

/-- Within a context of the symbol, field `i` is made of field `j`: it is a composite with this
input, or a placeholder whose parameter defaults to it. -/
inductive Symbol.RestsOn (g : Grammar) (s : Symbol) : FieldId → FieldId → Prop
  | input {i j : FieldId} {f : Field} (field : g.field i = .ok f) (input : j ∈ f.kind.inputs) :
      RestsOn g s i j
  | default {p : Parameter} {j : FieldId} (declared : p ∈ s.params)
      (default : s.default? p.key = some j) : RestsOn g s p.placeholder j

def Grammar.Acyclic (g : Grammar) : Prop :=
  ∀ ref s, g.symbol ref = .ok s → ∀ i, ¬ Relation.TransGen (s.RestsOn g) i i

/-- The field `s.2` in the context `s.1` has the source `t`. -/
def Grammar.Reads (g : Grammar) (a : Arena) (s t : Handle × FieldId) : Prop :=
  ∃ f ss, g.field s.2 = .ok f ∧ a.sources s.1 s.2 f = .ok ss ∧ t ∈ ss

/-- Where every parameter is declared once, fields are made of older ones. -/
theorem Symbol.RestsOn.lt (closed : g.Closed own) (within : s.Within g.fields.size)
    (distinct : (s.params.map Parameter.key).Nodup) {i j : FieldId} (rests : s.RestsOn g i j) :
    j < i := by
  cases rests with
  | input field input => exact closed.fields _ _ field _ input
  | @default p _ declared hd =>
      obtain ⟨q, hq, hkey, hdefault⟩ := mem_of_default? hd
      obtain rfl := List.inj_on_of_nodup_map distinct hq declared hkey
      exact within.older q hq j hdefault

theorem Symbol.acyclic_of_lt (older : ∀ i j, s.RestsOn g i j → j < i) (i : FieldId) :
    ¬ Relation.TransGen (s.RestsOn g) i i := by
  have descends : ∀ {i j}, Relation.TransGen (s.RestsOn g) i j → j < i := by
    intro i j path
    induction path with
    | single rests => exact older _ _ rests
    | tail _ rests ih => exact (older _ _ rests).trans ih
  exact fun path => Nat.lt_irrefl i (descends path)

/-- A grammar whose symbols declare every parameter once is acyclic. -/
theorem Grammar.acyclic_of_nodup (closed : g.Closed own)
    (distinct : ∀ ref s, g.symbol ref = .ok s → (s.params.map Parameter.key).Nodup) :
    g.Acyclic := fun ref s hs => s.acyclic_of_lt fun _ _ rests =>
  rests.lt closed (closed.symbol hs) (distinct ref s hs)

/-- There are finitely many fields, so a way back is the only way to go on forever. -/
theorem Symbol.restsOn_wellFounded (closed : g.Closed own) (within : s.Within g.fields.size)
    (acyclic : ∀ i, ¬ Relation.TransGen (s.RestsOn g) i i) :
    WellFounded fun j i => s.RestsOn g i j := by
  have range : ∀ {i j}, s.RestsOn g i j → i < g.fields.size ∧ j < g.fields.size := by
    intro i j rests
    cases rests with
    | input field input =>
        have hlt := Grammar.lt_of_field field
        exact ⟨hlt, (closed.fields _ _ field _ input).trans hlt⟩
    | default declared hd =>
        obtain ⟨q, hq, _, hdefault⟩ := mem_of_default? hd
        exact ⟨within.placeholders _ declared, within.defaults q hq j hdefault⟩
  let path (j i : Fin g.fields.size) : Prop := Relation.TransGen (s.RestsOn g) i j
  have trans : IsTrans _ path := ⟨fun _ _ _ hij hjk => hjk.trans hij⟩
  have irrefl : Std.Irrefl path := ⟨fun i => acyclic i⟩
  have finite : WellFounded path := Finite.wellFounded_of_trans_of_irrefl path
  have inRange : ∀ i : Fin g.fields.size, Acc (fun j i => s.RestsOn g i j) i.val := by
    intro i
    induction i using finite.induction with
    | h i ih => exact ⟨_, fun j rests => ih ⟨j, (range rests).2⟩ (.single rests)⟩
  exact ⟨fun i => ⟨i, fun j rests => inRange ⟨j, (range rests).2⟩⟩⟩

/-- A source lies in a lower slot, or the field rests on it by what one symbol declares. -/
theorem Grammar.reads_cases (closed : g.Closed own) (acyclic : g.Acyclic) (numbered : a.Numbered)
    (ground : a.Grounded) (declared : a.Declared g) (h : Handle) :
    ∃ s : Symbol, s.Within g.fields.size ∧ (∀ i, ¬ Relation.TransGen (s.RestsOn g) i i) ∧
      ∀ i t, g.Reads a (h, i) t → t.1.slot < h.slot ∨ t.1 = h ∧ s.RestsOn g i t.2 := by
  have composite : ∀ (s : Symbol) (i : FieldId) (f : Field) (t : Handle × FieldId),
      g.field i = .ok f → t ∈ f.kind.inputs.map (h, ·) → t.1 = h ∧ s.RestsOn g i t.2 := by
    intro s i f t hf ht
    obtain ⟨j, hj, rfl⟩ := List.mem_map.1 ht
    exact ⟨rfl, .input hf hj⟩
  suffices ∃ s : Symbol, s.Within g.fields.size ∧
      (∀ i, ¬ Relation.TransGen (s.RestsOn g) i i) ∧ ∀ c, a.get h = .ok c → c.Declares s by
    obtain ⟨s, within, acyclic, declares⟩ := this
    refine ⟨s, within, acyclic, fun i t ⟨f, ss, hf, hss, ht⟩ => ?_⟩
    rw [Arena.sources.eq_def] at hss
    split at hss
    · next name _ =>
      obtain ⟨u, hu, hss⟩ := bind_ok_iff.1 hss
      cases hss
      obtain rfl := List.mem_singleton.1 ht
      refine ((Arena.resolve_lands ground name i).2 t hu).imp_right ?_
      rintro ⟨rfl, c, k, hc, hk, hin⟩
      obtain ⟨p, hp, rfl, rfl⟩ := (declares c hc).placeholders i k hk
      exact ⟨rfl, .default hp ((declares c hc).inputs _ _ hin)⟩
    · cases hss
      exact .inr (composite s i f t hf ht)
  rcases Arena.get_eq a h with hx | ⟨x, hx⟩
  · -- In a context that has been dropped there are composites alone.
    have within := Symbol.within_named g.fields.size ""
    refine ⟨.named "", within, Symbol.acyclic_of_lt fun _ _ rests =>
      rests.lt closed within List.nodup_nil, fun c hc => ?_⟩
    rw [hx] at hc
    cases hc
  · obtain ⟨s, hs, declares⟩ := declared _ ((Arena.mem_live_iff numbered).2 hx)
    refine ⟨s, closed.symbol hs, acyclic _ s hs, fun c hc => ?_⟩
    obtain rfl := Except.ok.inj (hx.symm.trans hc)
    exact declares

/-- No path of sources goes on forever. -/
theorem Grammar.reads_wellFounded_of_declared (closed : g.Closed own) (acyclic : g.Acyclic)
    (numbered : a.Numbered) (ground : a.Grounded) (declared : a.Declared g) :
    WellFounded fun t s => g.Reads a s t := by
  suffices ∀ n (h : Handle), h.slot = n → ∀ i, Acc (fun t s => g.Reads a s t) (h, i) from
    ⟨fun s => this _ s.1 rfl s.2⟩
  intro n
  -- By the slot of the context, then by what the fields of one context rest on.
  induction n using Nat.strong_induction_on with
  | h n lower =>
      rintro h rfl i
      obtain ⟨s, within, acyclic, cases⟩ := reads_cases closed acyclic numbered ground declared h
      induction i using (s.restsOn_wellFounded closed within acyclic).induction with
      | h i older =>
          refine ⟨_, fun t reads => ?_⟩
          rcases cases i t reads with hlt | ⟨rfl, rests⟩
          · exact lower _ hlt t.1 rfl t.2
          · exact older t.2 rests

theorem Grammar.reads_wellFounded (closed : g.Closed own) (acyclic : g.Acyclic) (sane : a.Sane g)
    (declared : a.Declared g) : WellFounded fun t s => g.Reads a s t :=
  reads_wellFounded_of_declared closed acyclic sane.numbered sane.ground declared

/-! ### Evaluations -/

theorem Gives.ends {α : Type} {P : α → Prop} {x : Except EvalError α}
    (gives : Gives (· ≠ .endlessEvaluation) P x) : Terminates x :=
  fun hx => gives.1 _ hx rfl

theorem Eval.run_bind_ends {μ α β : Type} {x : Eval μ α} {f : α → Eval μ β} {m : μ}
    (hx : Terminates (x.run m).1) (hf : ∀ v m', Terminates ((f v).run m').1) :
    Terminates ((x >>= f).run m).1 := by
  rw [Eval.run_bind]
  revert hx
  rcases x.run m with ⟨e | v, m'⟩
  · exact fun hx => fun he => hx (by cases he; rfl)
  · exact fun _ => hf v m'

namespace World

variable {μ : Type} {w : World μ}

theorem sources_end (ground : a.Grounded) (h : Handle) (id : FieldId) (f : Field) :
    Terminates (a.sources h id f) := by
  rw [Arena.sources.eq_def]
  split
  · next name _ => exact .bind (Arena.resolve_lands ground name id).ends fun _ _ => .ok _
  · exact .ok _

theorem page_ends (a : Arena) (h : Handle) (f : Field) : Terminates (a.page h f) := by
  unfold Arena.page
  split
  · exact .bind (get_terminates a h) fun _ _ => .ok _
  · exact .ok _

theorem field_ends (w : World μ) (id : FieldId) :
    Terminates (liftM (w.grammar.field id) : Except EvalError Field) := by
  rw [Grammar.field, Fault.lookup]
  cases w.grammar.fields[id]? with
  | none =>
      intro endless
      cases endless
  | some f => exact .ok f

theorem ownDimensionality_ends (w : World μ) (kind : FieldKind) :
    Terminates (w.ownDimensionality kind) := by
  unfold ownDimensionality
  split
  · exact .ok _
  · exact .ok _
  · exact .ok _
  · split
    · exact .ok _
    · exact nofun
  · exact .ok _

/-- Fields that are each settled within some number of steps are so within one number. -/
theorem exists_common {ss : List (Handle × FieldId)}
    (settled : ∀ t ∈ ss, ∃ k, Terminates (w.dimensionIn a k t.1 t.2)) :
    ∃ k, ∀ t ∈ ss, Terminates (w.dimensionIn a k t.1 t.2) := by
  induction ss with
  | nil => exact ⟨0, by simp⟩
  | cons t ss ih =>
      obtain ⟨⟨k, hk⟩, settled⟩ := List.forall_mem_cons.1 settled
      obtain ⟨l, hl⟩ := ih settled
      refine ⟨max k l, List.forall_mem_cons.2 ⟨?_, fun u hu => ?_⟩⟩
      · exact (dimensionIn_mono (Nat.le_max_left k l) t.1 t.2).eq hk ▸ hk
      · exact (dimensionIn_mono (Nat.le_max_right k l) u.1 u.2).eq (hl u hu) ▸ hl u hu

/-- Where no path of sources goes on forever, every field is settled within some number of steps. -/
theorem dimensionIn_ends (ground : a.Grounded)
    (wellFounded : WellFounded fun t s => w.grammar.Reads a s t) (s : Handle × FieldId) :
    ∃ k, Terminates (w.dimensionIn a k s.1 s.2) := by
  induction s using wellFounded.induction with
  | h s ih =>
      have settled : ∃ k, ∀ f ss, w.grammar.field s.2 = .ok f → a.sources s.1 s.2 f = .ok ss →
          ∀ t ∈ ss, Terminates (w.dimensionIn a k t.1 t.2) := by
        by_cases sourced : ∃ f ss, w.grammar.field s.2 = .ok f ∧ a.sources s.1 s.2 f = .ok ss
        · obtain ⟨f, ss, hf, hss⟩ := sourced
          obtain ⟨k, hk⟩ := exists_common fun t ht => ih t ⟨f, ss, hf, hss, ht⟩
          refine ⟨k, fun f' ss' hf' hss' => ?_⟩
          obtain rfl := Except.ok.inj (hf.symm.trans hf')
          obtain rfl := Except.ok.inj (hss.symm.trans hss')
          exact hk
        · exact ⟨0, fun f ss hf hss => absurd ⟨f, ss, hf, hss⟩ sourced⟩
      obtain ⟨k, hk⟩ := settled
      refine ⟨k + 1, .bind (field_ends w s.2) fun f hf => .bind (page_ends a s.1 f) fun _ _ =>
        .bind (ownDimensionality_ends w _) fun own _ =>
        .bind (sources_end ground s.1 s.2 f) fun ss hss => .foldlM (fun d t ht => ?_) own⟩
      exact .bind (hk f ss (lift_ok.1 hf) hss t ht) fun _ _ => .ok _

/-- In an acyclic grammar no path of sources goes on forever, so evaluations come to an end whatever
is remembered. -/
theorem evaluation_ends (built : g.Built own) (acyclic : g.Acyclic) (grown : a.Grown g)
    (p : Provider) :
    WellFounded (fun t s => g.Reads a s t) ∧
      ∀ m : Memory, m.Holds ((remembering g p).facts a) a.size → ∀ h id q,
        Terminates (((remembering g p).dimensionality a h id).run m).1 ∧
          Terminates (((remembering g p).sample a h id q).run m).1 ∧
            Terminates (((remembering g p).subchunkRecord a h id q).run m).1 := by
  have sane := grown.sane built.closed
  have wellFounded : WellFounded fun t s => g.Reads a s t :=
    Grammar.reads_wellFounded built.closed acyclic sane (grown.declared built.closed)
  refine ⟨wellFounded, fun m hm h id q => ?_⟩
  let w := remembering g p
  have dimension : Terminates (w.forgetful.dimensionIn a (w.depth a) h id) := by
    obtain ⟨k, hk⟩ := dimensionIn_ends (w := w.forgetful) sane.ground wellFounded (h, id)
    exact (dimensionIn_depth (w := w.forgetful) k h id).eq hk ▸ hk
  have record : ∀ origin extent, Terminates ((w.record a h id origin extent).run m).1 := by
    intro origin extent
    rw [(run_record Memory.honest_notebook built.marked h id origin extent hm).1]
    exact recordIn_terminates origin extent dimension
  refine ⟨?_, ?_, record _ _⟩
  · rw [(run_dimensionality Memory.honest_notebook built.marked h id hm).1]
    exact dimension
  · refine Eval.run_bind_ends (record q .point) fun r m' => ?_
    cases r.get? 0 with
    | none => exact nofun
    | some s => exact .ok s

end World

/-! ### Parameters that are declared again -/

/-- The second declaration does no harm if its default is older than both placeholders. -/
theorem acyclic_redeclared : (redeclared 0).compile.Acyclic := by
  intro ref s hs
  have closed := (built_redeclared Nat.two_pos).closed
  let declared : List Parameter := [⟨"depth", .float, some 0, 1⟩, ⟨"depth", .float, some 0, 2⟩]
  have params : s.params = declared := by
    refine Grammar.symbol_induction (P := fun s => s.params = declared) (fun id r hr => ?_)
      (fun id e he => ?_) (fun id c hc => ?_) hs
    · obtain ⟨e, he, rfl⟩ := Fault.lookup_map hr
      obtain rfl := Array.mem_singleton.1 he
      rfl
    · obtain ⟨_, hmem, _⟩ := Fault.lookup_map he
      cases Array.not_mem_empty _ hmem
    · obtain ⟨_, hmem, _⟩ := Fault.lookup_map hc
      cases Array.not_mem_empty _ hmem
  refine s.acyclic_of_lt fun i j rests => ?_
  cases rests with
  | input field input => exact closed.fields _ _ field _ input
  | default declared hd =>
      obtain ⟨q, hq, _, hdefault⟩ := Symbol.mem_of_default? hd
      rw [params] at declared hq
      rcases List.mem_pair.1 declared with rfl | rfl <;>
        rcases List.mem_pair.1 hq with rfl | rfl <;> cases hdefault <;> decide

theorem evaluation_ends_redeclared :
    let g := (redeclared 0).compile
    let a := (Arena.empty.push (redeclaring 0)).2
    let w := World.remembering g .none
    let m := (Memory.ofCache (.new 0 .standard)).addPage
    g.Built True ∧ g.Acyclic ∧ a.Grown g ∧ m.Holds (w.facts a) a.size ∧
      Terminates ((w.sample a ⟨0, 0⟩ 1 .zero).run m).1 := by
  intro g a w m
  have holds : m.Holds (w.facts a) a.size :=
    Memory.honest_notebook.addPage (Memory.holds_ofCache (Cache.holds_create _ _ _))
  have built := built_redeclared Nat.two_pos
  have grown := grown_redeclared Nat.two_pos
  have ends := World.evaluation_ends built acyclic_redeclared grown .none
  exact ⟨built, acyclic_redeclared, grown, holds, (ends.2 m holds ⟨0, 0⟩ 1 .zero).2.1⟩

/-- A second declaration whose default is the first placeholder makes this placeholder stand for
itself. -/
theorem redeclared_default_is_circular :
    let g := (redeclared 1).compile
    let a := (Arena.empty.push (redeclaring 1)).2
    g.Built True ∧ a.Grown g ∧ ¬ WellFounded fun t s => g.Reads a s t := by
  refine ⟨built_redeclared Nat.one_lt_two, grown_redeclared Nat.one_lt_two, fun wellFounded => ?_⟩
  have reads : (redeclared 1).compile.Reads (Arena.empty.push (redeclaring 1)).2
      (⟨0, 0⟩, 1) (⟨0, 0⟩, 1) := ⟨_, _, rfl, rfl, List.mem_cons_self⟩
  exact wellFounded.asymmetric _ _ reads reads

end VoxelGrammar
