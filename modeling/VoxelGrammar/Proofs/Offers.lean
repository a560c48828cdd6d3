import Mathlib.Data.List.Nodup
import Mathlib.Data.List.Sigma
import VoxelGrammar.Proofs.Inclusion
import VoxelGrammar.Proofs.Progress
import VoxelGrammar.Proofs.Relocation
import VoxelGrammar.Proofs.WellFormed

/-!
What a candidate of a rule entry comes to. It offers a way to attach for each node that its expansion
may be attached by, turned or not, or a single one if it places no component; and nothing at all if it
cannot be entered. This is settled by the contexts up to the one of the entry, whatever else has been
entered or dropped by the time the candidate is looked at.
-/

namespace VoxelGrammar

variable {μ α β : Type}

/-! ### Attachments -/

/-- The four quarter turns of a valid orientation differ, and have its up axis in common. -/
theorem Orientation.turns (forward up : Facing) (h : forward.vector.dot up.vector = 0) :
    let o := Orientation.facing forward up
    [o, o.turn, o.turn.turn, o.turn.turn.turn].Nodup ∧
      ∀ o' ∈ [o, o.turn, o.turn.turn, o.turn.turn.turn], ∃ f, o' = .facing f up := by
  refine ⟨?_, by simp [turn]⟩
  revert h
  cases forward <;> cases up <;> decide

/-- The elements of a flattened list that belong to one of its parts. -/
theorem filter_flatMap_of_key {γ : Type} [DecidableEq γ] {f : α → List β} {key : β → γ}
    {k : α → γ} (h : ∀ a, ∀ b ∈ f a, key b = k a) (i : γ) (xs : List α) :
    (xs.flatMap f).filter (key · = i) = (xs.filter (k · = i)).flatMap f := by
  induction xs with
  | nil => rfl
  | cons a xs ih =>
      rw [List.flatMap_cons, List.filter_append, ih, List.filter_cons]
      by_cases ha : k a = i
      · have all : (f a).filter (key · = i) = f a :=
          List.filter_eq_self.2 fun b hb => decide_eq_true ((h a b hb).trans ha)
        rw [all, if_pos (decide_eq_true ha), List.flatMap_cons]
      · have none : (f a).filter (key · = i) = [] :=
          List.filter_eq_nil_iff.2 fun b hb hi => ha ((h a b hb).symm.trans (of_decide_eq_true hi))
        rw [none, if_neg (by simpa using ha), List.nil_append]

namespace Component

/-- The attachments are by nodes of that name, each in its own orientation, or in four that differ and
share its up axis if it has one and may be turned. -/
structure Attaches (c : Component) (name : Option String) (offers : List Attachment) : Prop where
  named : ∀ o ∈ offers, ∃ n, c.nodes[o.node]? = some n ∧ name.all (n.name == ·)
  fixed : ∀ (i : Nat) (n : Node), c.nodes[i]? = some n → name.all (n.name == ·) →
    (n.orientation.isSpecified = false ∨ n.allowRotation = false) →
      offers.filter (·.node = i) = [⟨i, n.orientation⟩]
  turned : ∀ (i : Nat) (n : Node) (forward up : Facing), c.nodes[i]? = some n →
    name.all (n.name == ·) → n.orientation = .facing forward up → n.allowRotation = true →
      let orientations := (offers.filter (·.node = i)).map (·.orientation)
      orientations.length = 4 ∧ orientations.Nodup ∧ ∀ o ∈ orientations, ∃ f, o = .facing f up

variable {c : Component} {name : Option String}

theorem mem_attachments {o : Attachment} : o ∈ c.attachments name ↔
    ∃ n, c.nodes[o.node]? = some n ∧ name.all (n.name == ·) ∧ o.orientation ∈ n.orientations := by
  unfold attachments
  simp only [List.mem_flatMap, List.mem_filter, List.mem_map, List.mem_zipIdx_iff_getElem?,
    Array.getElem?_toList]
  constructor
  · rintro ⟨⟨n, i⟩, ⟨hn, named⟩, orientation, ho, rfl⟩
    exact ⟨n, hn, named, ho⟩
  · rintro ⟨n, hn, named, ho⟩
    exact ⟨(n, o.node), ⟨hn, named⟩, o.orientation, ho, rfl⟩

/-- The attachments by one node are its orientations. -/
theorem attachments_by {i : Nat} {n : Node} (hn : c.nodes[i]? = some n)
    (named : name.all (n.name == ·)) :
    (c.attachments name).filter (·.node = i) = n.orientations.map (⟨i, ·⟩) := by
  unfold attachments
  rw [filter_flatMap_of_key (k := Prod.snd)]
  · -- One element of the numbered list has this number.
    have nodup : c.nodes.toList.zipIdx.Nodup := (List.nodup_zipIdx_map_snd _).of_map
    have only : ((c.nodes.toList.zipIdx.filter fun e => name.all (e.1.name == ·)).filter
        (·.2 = i)) = [(n, i)] := by
      refine List.perm_singleton.1 ((List.perm_ext_iff_of_nodup ((nodup.filter _).filter _)
        (List.nodup_singleton _)).2 fun e => ?_)
      simp only [List.mem_filter, List.mem_zipIdx_iff_getElem?, Array.getElem?_toList,
        List.mem_singleton, decide_eq_true_eq]
      constructor
      · rintro ⟨⟨he, _⟩, rfl⟩
        rw [hn] at he
        exact Prod.ext (Option.some.inj he).symm rfl
      · rintro rfl
        exact ⟨⟨hn, named⟩, rfl⟩
    rw [only, List.flatMap_singleton]
  · rintro ⟨m, j⟩ o ho
    obtain ⟨_, _, rfl⟩ := List.mem_map.1 ho
    rfl

variable (valid : ∀ n ∈ c.nodes, ∀ forward up,
  n.orientation = .facing forward up → forward.vector.dot up.vector = 0)

include valid

theorem nodup_orientations {i : Nat} {n : Node} (hn : c.nodes[i]? = some n) :
    n.orientations.Nodup := by
  unfold Node.orientations
  dsimp only
  split
  · cases ho : n.orientation with
    | unspecified => simp_all [Orientation.isSpecified]
    | facing forward up =>
        exact (Orientation.turns forward up (valid n (Array.mem_of_getElem? hn) forward up ho)).1
  · exact List.nodup_singleton _

theorem nodup_attachments : (c.attachments name).Nodup := by
  refine List.nodup_flatMap.2 ⟨fun e he => ?_, ?_⟩
  · have found := List.mem_zipIdx_iff_getElem?.1 (List.mem_of_mem_filter he)
    rw [Array.getElem?_toList] at found
    exact (nodup_orientations valid found).map fun _ _ h => (Attachment.mk.inj h).2
  · refine ((List.pairwise_map.1 (List.nodup_zipIdx_map_snd c.nodes.toList)).filter _).imp ?_
    intro e e' hne o ho ho'
    obtain ⟨_, _, rfl⟩ := List.mem_map.1 ho
    obtain ⟨_, _, heq⟩ := List.mem_map.1 ho'
    exact hne (Attachment.mk.inj heq).1.symm

/-- In whatever order they are tried, the attachments of a component are what they should be. -/
theorem attaches_of_perm {offers : List Attachment} (perm : offers.Perm (c.attachments name)) :
    c.Attaches name offers where
  named o ho := by
    obtain ⟨n, hn, named, _⟩ := mem_attachments.1 (perm.mem_iff.1 ho)
    exact ⟨n, hn, named⟩
  fixed i n hn named still := by
    have by_node := perm.filter (·.node = i)
    rw [attachments_by hn named] at by_node
    have alone : n.orientations = [n.orientation] := by
      unfold Node.orientations
      rcases still with h | h <;> simp [h]
    rw [alone] at by_node
    exact List.perm_singleton.1 by_node
  turned i n forward up hn named ho turns := by
    have by_node := (perm.filter (·.node = i)).map (·.orientation)
    have itself : (n.orientations.map fun o => Attachment.mk i o).map (·.orientation) =
        n.orientations := by simp [Function.comp_def]
    rw [attachments_by hn named, itself] at by_node
    have all : n.orientations = [.facing forward up, (Orientation.facing forward up).turn,
        (Orientation.facing forward up).turn.turn, (Orientation.facing forward up).turn.turn.turn] := by
      unfold Node.orientations
      simp [ho, turns, Orientation.isSpecified]
    refine ⟨by_node.length_eq.trans (congrArg List.length all),
      by_node.nodup_iff.2 (nodup_orientations valid hn), fun o hmem => ?_⟩
    have perpendicular := valid n (Array.mem_of_getElem? hn) forward up ho
    exact (Orientation.turns forward up perpendicular).2 o (all ▸ by_node.mem_iff.1 hmem)

end Component

/-! ### Candidates -/

def Expansion.Offers (g : Grammar) (e : Expansion) (offers : List Attachment) : Prop :=
  match e.target with
  | .nothing | .rule _ => offers = [Search.inPlace]
  | .component id name => ∃ c, g.component id = .ok c ∧ c.Attaches name offers

namespace World

/-- The expansion of the candidate has that context below `h`. -/
structure Prepares (w : World μ) (a : Arena) (h : Handle) (k : Candidate) (e : Expansion)
    (x : Context) : Prop where
  expansion : w.grammar.expansion k.expansion = .ok e
  -- Below a parent, the seed of the run has no say.
  prepared : a.prepare w.grammar (some h) (.expansion k.expansion) .identity 0 = .ok x

def verdict (w : World μ) (a : Arena) (e : Expansion) (x : Context) : Except EvalError Bool :=
  ((w.forgetful.holds (a.push x).2 (a.push x).1 e.symbol.conditions).run ()).1

/-- The candidate can be entered below `h`: it has a context, in which its conditions hold, and a
component that it places has a node by that name. -/
structure Enterable (w : World μ) (a : Arena) (h : Handle) (k : Candidate) (e : Expansion)
    (x : Context) : Prop where
  prepares : w.Prepares a h k e x
  conditions : ∀ id ∈ e.symbol.conditions,
    ((w.forgetful.sampleBool (a.push x).2 (a.push x).1 id).run ()).1 = .ok true
  node : ∀ id name, e.target = .component id name →
    ∃ c, w.grammar.component id = .ok c ∧ ∃ n ∈ c.nodes, name.all (n.name == ·)

/-- The conditions of the candidate come to nothing below `h`: looking at them goes on forever, or the
provider does not answer. -/
def Undecided (w : World μ) (a : Arena) (h : Handle) (k : Candidate) (f : Fault) : Prop :=
  (f = .endlessEvaluation ∨ f = .brokenProvider) ∧
    ∃ e x, w.Prepares a h k e x ∧ w.verdict a e x = .error (.fault f)

/-- What a candidate comes to below `h`: what its expansion offers, nothing, or a breakdown. -/
inductive Settles (w : World μ) (a : Arena) (h : Handle) (k : Candidate) :
    Except Fault (List Attachment) → Prop
  | entered {e : Expansion} {x : Context} {offers : List Attachment}
      (enterable : w.Enterable a h k e x) (offered : e.Offers w.grammar offers) :
      Settles w a h k (.ok offers)
  | skipped (closed : ∀ e x, ¬ w.Enterable a h k e x) (decided : ∀ f, ¬ w.Undecided a h k f) :
      Settles w a h k (.ok [])
  | undecided {f : Fault} (undecided : w.Undecided a h k f) : Settles w a h k (.error f)

section

variable {w : World μ} {a : Arena} {h : Handle} {k : Candidate} {e e' : Expansion} {x x' : Context}

theorem Prepares.unique (prepares : w.Prepares a h k e x) (prepares' : w.Prepares a h k e' x') :
    e = e' ∧ x = x' :=
  ⟨Except.ok.inj (prepares.expansion.symm.trans prepares'.expansion),
    Except.ok.inj (prepares.prepared.symm.trans prepares'.prepared)⟩

/-- The conditions hold together where each of them holds. -/
theorem verdict_iff : w.verdict a e x = .ok true ↔ ∀ id ∈ e.symbol.conditions,
    ((w.forgetful.sampleBool (a.push x).2 (a.push x).1 id).run ()).1 = .ok true := by
  refine ⟨sampleBool_of_holds, ?_⟩
  unfold verdict
  induction e.symbol.conditions with
  | nil => exact fun _ => rfl
  | cons id rest ih =>
      intro each
      obtain ⟨first, others⟩ := List.forall_mem_cons.1 each
      rw [holds, Eval.run_bind]
      rcases hb : (w.forgetful.sampleBool (a.push x).2 (a.push x).1 id).run () with ⟨_ | b, m⟩ <;>
        rw [hb] at first <;> cases first
      exact ih others

/-- Nothing comes of a candidate whose expansion has no context. -/
theorem settles_of_unprepared (unprepared : ∀ e x, ¬ w.Prepares a h k e x) :
    w.Settles a h k (.ok []) :=
  .skipped (fun e x enterable => unprepared e x enterable.prepares)
    fun _ ⟨_, e, x, prepares, _⟩ => unprepared e x prepares

/-- Nothing comes of a candidate whose conditions do not hold. -/
theorem settles_of_verdict (prepares : w.Prepares a h k e x) (fails : w.verdict a e x ≠ .ok true)
    (decided : ∀ f, w.verdict a e x ≠ .error (.fault f)) : w.Settles a h k (.ok []) := by
  refine .skipped (fun e' x' enterable => ?_) fun f ⟨_, e', x', prepares', hf⟩ => ?_
  · obtain ⟨rfl, rfl⟩ := prepares.unique enterable.prepares
    exact fails (verdict_iff.2 enterable.conditions)
  · obtain ⟨rfl, rfl⟩ := prepares.unique prepares'
    exact decided f hf

/-- Conditions only come to nothing by going on forever or for want of an answer by the provider. -/
theorem fault_of_verdict (built : w.grammar.Built True) (sane : a.Sane w.grammar)
    (prepares : w.Prepares a h k e x) {f : Fault} (hf : w.verdict a e x = .error (.fault f)) :
    f = .endlessEvaluation ∨ f = .brokenProvider := by
  have pushed := sane.push built.closed prepares.prepared
  have last := Arena.lives_push sane.numbered x
  have within := (built.closed.expansions _ e prepares.expansion).1.conditions
  -- With the gaps of the provider filled in, only a lack of steps is left to break down for.
  have part := w.provider.part_filled w.grammar w.notebook
  rcases part.holds built.marked built.marked (a.push x).2 (a.push x).1 e.symbol.conditions with
    ⟨err, broken, failed⟩ | same
  · cases hf.symm.trans failed
    exact .inr broken
  · have sturdy : World.Sturdy ⟨w.grammar, w.provider.filled, w.notebook⟩ :=
      ⟨built.closed, built.marked, w.provider.total_filled⟩
    have answers := World.holds_answers sturdy pushed last within ()
    exact .inl (answers.1 f (same ▸ hf)).1

end

end World

namespace Search

/-! ### What comes of a candidate -/

def look (w : World μ) (e : Expansion) (x : Context) :
    Except EvalError Bool → Except Fault (List Attachment)
  | .ok true => (offered w e.target).map (ordered e.target x.seed)
  | .ok false => .ok []
  | .error (.grammar _) => .ok []
  | .error (.fault f) => .error f

/-- The attachments of a candidate in their order, none if it cannot be entered. -/
def block (w : World μ) (a : Arena) (h : Handle) (k : Candidate) :
    Except Fault (List Attachment) := do
  let e ← w.grammar.expansion k.expansion
  match a.prepare w.grammar (some h) (.expansion k.expansion) .identity 0 with
  | .ok x => look w e x (w.verdict a e x)
  | .error (.grammar _) => .ok []
  | .error (.fault f) => .error f

section

variable {w : World μ} {a : Arena} {h : Handle} {k : Candidate} {e : Expansion} {x : Context}

theorem block_of_prepares (prepares : w.Prepares a h k e x) :
    block w a h k = look w e x (w.verdict a e x) := by
  unfold block
  rw [prepares.expansion, prepares.prepared]
  rfl

/-- Nothing comes of a candidate that cannot be given a context. -/
theorem block_of_error (he : w.grammar.expansion k.expansion = .ok e) {err : GrammarError}
    (hx : a.prepare w.grammar (some h) (.expansion k.expansion) .identity 0 = .error (.grammar err)) :
    block w a h k = .ok [] := by
  unfold block
  rw [he, hx]
  rfl

theorem block_of_fault (he : w.grammar.expansion k.expansion = .ok e) {f : Fault}
    (hx : a.prepare w.grammar (some h) (.expansion k.expansion) .identity 0 = .error (.fault f)) :
    block w a h k = .error f := by
  unfold block
  rw [he, hx]
  rfl

variable (built : w.grammar.Built True)

include built

/-- Where the conditions hold, the candidate comes to what its expansion offers, if that is something. -/
theorem offered_settles (prepares : w.Prepares a h k e x) (holds : w.verdict a e x = .ok true) :
    ∃ offers, (offered w e.target).map (ordered e.target x.seed) = .ok offers ∧ offers.Nodup ∧
      w.Settles a h k (.ok offers) := by
  have conditions := World.verdict_iff.1 holds
  obtain ⟨_, target⟩ := built.closed.expansions _ e prepares.expansion
  cases ht : e.target with
  | nothing =>
      refine ⟨[inPlace], rfl, List.nodup_singleton _, .entered ⟨prepares, conditions, ?_⟩ ?_⟩
      · simp [ht]
      · simp [Expansion.Offers, ht]
  | rule id =>
      refine ⟨[inPlace], rfl, List.nodup_singleton _, .entered ⟨prepares, conditions, ?_⟩ ?_⟩
      · simp [ht]
      · simp [Expansion.Offers, ht]
  | component id name =>
      rw [ht] at target
      obtain ⟨c, hlookup⟩ := Fault.lookup_of_lt (target trivial)
      have hc : w.grammar.component id = .ok c := hlookup
      have valid := (Grammar.wellFormed_of_built built).perpendicular id c hc
      have perm : (ordered (.component id name) x.seed (c.attachments name)).Perm
          (c.attachments name) := Seed.shuffle_perm _ _
      refine ⟨ordered (.component id name) x.seed (c.attachments name), by rw [offered, hc]; rfl,
        perm.nodup_iff.2 (Component.nodup_attachments valid), ?_⟩
      by_cases node : ∃ n ∈ c.nodes, name.all (n.name == ·)
      · refine .entered ⟨prepares, conditions, fun id' name' ht' => ?_⟩ ?_
        · cases ht.symm.trans ht'
          exact ⟨c, hc, node⟩
        · simp only [Expansion.Offers, ht]
          exact ⟨c, hc, Component.attaches_of_perm valid perm⟩
      · -- The conditions hold, but there is no node to attach by: this is no way to enter it either.
        have empty : c.attachments name = [] := by
          refine List.eq_nil_iff_forall_not_mem.2 fun o ho => node ?_
          obtain ⟨n, hn, named, _⟩ := Component.mem_attachments.1 ho
          exact ⟨n, Array.mem_of_getElem? hn, named⟩
        rw [empty] at perm ⊢
        rw [perm.eq_nil]
        refine .skipped (fun e' x' enterable => ?_) ?_
        · obtain ⟨rfl, rfl⟩ := prepares.unique enterable.prepares
          obtain ⟨c', hc', node'⟩ := enterable.node id name ht
          cases hc.symm.trans hc'
          exact node node'
        · rintro f ⟨_, e', x', prepares', hf⟩
          obtain ⟨rfl, rfl⟩ := prepares.unique prepares'
          cases holds.symm.trans hf

/-- What a candidate comes to is as it should be, and repeats no attachment. -/
theorem block_settles (sane : a.Sane w.grammar) (live : Lives a.live h)
    (known : ∃ e, w.grammar.expansion k.expansion = .ok e) :
    w.Settles a h k (block w a h k) ∧ ∀ offers, block w a h k = .ok offers → offers.Nodup := by
  obtain ⟨e, he⟩ := known
  have nothing : ∀ offers : List Attachment, Except.ok [] = (.ok offers : Except Fault _) →
      offers.Nodup := fun _ heq => Except.ok.inj heq ▸ List.nodup_nil
  cases hx : a.prepare w.grammar (some h) (.expansion k.expansion) .identity 0 with
  | error err =>
      cases err with
      | fault f =>
          have parent : ∀ q, some h = some q → Lives a.live q := fun _ heq =>
            Option.some.inj heq ▸ live
          have gives := Arena.prepare_gives (E := fun _ => False) sane parent
            (Grammar.symbol_expansion he) .identity 0
          exact (gives.1 f hx).elim
      | grammar err =>
          rw [block_of_error he hx]
          refine ⟨World.settles_of_unprepared fun e' x' prepares => ?_, nothing⟩
          cases hx.symm.trans prepares.prepared
  | ok x =>
      have prepares : w.Prepares a h k e x := ⟨he, hx⟩
      rw [block_of_prepares prepares]
      rcases hv : w.verdict a e x with (err | f) | b
      · exact ⟨World.settles_of_verdict prepares (by simp [hv]) (by simp [hv]), nothing⟩
      · have failed := World.fault_of_verdict built sane prepares hv
        exact ⟨.undecided ⟨failed, e, x, prepares, hv⟩, nofun⟩
      · cases b with
        | false => exact ⟨World.settles_of_verdict prepares (by simp [hv]) (by simp [hv]), nothing⟩
        | true =>
            obtain ⟨offers, ho, nodup, settles⟩ := offered_settles built prepares hv
            rw [look, ho]
            exact ⟨settles, fun _ heq => Except.ok.inj heq ▸ nodup⟩

end

/-- What comes of a candidate is settled by the contexts up to the one it is entered below. -/
theorem block_congr {w : World μ} (marked : w.grammar.Marked) {a b : Arena} {h : Handle}
    (keeps : Arena.Keeps (h.slot + 1) a b) (ha : a.Numbered) (hb : b.Numbered) (ground : a.Grounded)
    (ground' : b.Grounded) (k : Candidate) : block w b h k = block w a h k := by
  have prepared := Arena.prepare_congr (keeps.get ha hb (Nat.lt_succ_self _)) w.grammar
    (.expansion k.expansion) .identity 0 0
  unfold block
  rw [prepared]
  refine bind_congr fun e => ?_
  cases hx : a.prepare w.grammar (some h) (.expansion k.expansion) .identity 0 with
  | error err => cases err <;> rfl
  | ok x =>
      have moved := keeps.relocates ha hb ground ground' (Arena.below_parent_of_prepare ha hx)
      have same : w.verdict a e x = w.verdict b e x :=
        ((moved.counterparts (w.alone marked)).conditions e.symbol.conditions () () trivial
          trivial).1.eq
      dsimp only
      rw [same]

end Search

end VoxelGrammar
