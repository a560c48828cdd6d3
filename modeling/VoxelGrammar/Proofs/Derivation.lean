import Mathlib.Data.List.Forall2
import Mathlib.Data.List.Perm.Basic
import VoxelGrammar.Proofs.Lockstep

/-!
Derivations of structures. A derivation is a tree of rules, each at a site and resolved by one of
its expansions; the expansion places a component or none and calls for rules at further sites,
which the children derive. What a derivation says about contexts and fields is said of the contexts
there are in the end, where fields mean what they meant when the search looked at them.
-/

namespace VoxelGrammar

variable {μ : Type}

structure Site where
  parent : Option Handle
  rule : RuleId
  origin : Pos
  orientation : Orientation

/-- A rule at a site in its context, the expansion that resolves it in another one, the component
that this places and the derivations of the rules that this calls for. -/
inductive Derivation
  | node (site : Site) (context : Handle) (expansion : ExpansionId) (inner : Handle)
    (placed : Option Placement) (children : List Derivation)

namespace Derivation

def site : Derivation → Site
  | node site _ _ _ _ _ => site

def placements : Derivation → List Placement
  | node _ _ _ _ placed children => placed.toList ++ children.flatMap placements

end Derivation

def Component.carriers (c : Component) (node : Nat) : List Nat :=
  (List.range c.nodes.size).filter fun i => i ≠ node ∧ (c.nodes[i]?.bind (·.rule)).isSome

namespace World

def Locates (w : World μ) (a : Arena) (h : Handle) (id : FieldId) (p : Pos) : Prop :=
  ((w.forgetful.samplePos a h id).run ()).1 = .ok p

/-- The context is what entering the symbol below the parent gives, with the assignments of the
symbol handed on, and the conditions of the symbol hold in it. -/
def Stands (w : World μ) (a : Arena) (seed : Seed) (parent : Option Handle) (ref : SymbolRef)
    (placement : Transform) (h : Handle) : Prop :=
  ∃ c s, a.prepare w.grammar parent ref placement seed = .ok c ∧ w.grammar.symbol ref = .ok s ∧
    a.get h = .ok (c.assign s) ∧
    ∀ id ∈ s.conditions, ((w.forgetful.sampleBool a h id).run ()).1 = .ok true

end World

def Node.Calls (w : World μ) (a : Arena) (h : Handle) (c : Component) (i : Nat) (site : Site) :
    Prop :=
  ∃ n, c.nodes[i]? = some n ∧ n.rule = some site.rule ∧ site.parent = some h ∧
    w.Locates a h n.position site.origin ∧ site.orientation = n.orientation

/-- What an expansion, entered in `inner`, makes of a rule at a site. -/
inductive Expansion.Leads (w : World μ) (a : Arena) (seed : Seed) (site : Site) (context : Handle)
    (e : Expansion) (inner : Handle) : Option Placement → List Site → Prop
  | nothing (target : e.target = .nothing) : Leads w a seed site context e inner none []
  | rule {id : RuleId} (target : e.target = .rule id) :
      Leads w a seed site context e inner none [⟨some inner, id, .zero, site.orientation⟩]
  | component {name : Option String} {c : Component} {at_ : Attachment} {n : Node} {p : Pos}
      {x : Context} {placed : Placement} {order : List Nat} {sites : List Site}
      (target : e.target = .component placed.component name)
      (component : w.grammar.component placed.component = .ok c)
      (attachment : at_ ∈ c.attachments name) (node : at_.node = placed.node)
      (found : c.nodes[placed.node]? = some n) (position : w.Locates a inner n.position p)
      (stands : w.Stands a seed (some inner) (.component placed.component)
        (Search.attach ⟨site.orientation, context⟩ at_ (n.joint e.reflected) p) placed.context)
      (frame : a.get placed.context = .ok x) (toWorld : placed.toWorld = x.toWorld)
      (nodes : order.Perm (c.carriers placed.node))
      (calls : List.Forall₂ (Node.Calls w a placed.context c) order sites) :
      Leads w a seed site context e inner (some placed) sites

inductive Derivation.Valid (w : World μ) (a : Arena) (seed : Seed) : Derivation → Prop
  | node {site : Site} {context inner : Handle} {r : Rule} {id : ExpansionId} {e : Expansion}
      {placed : Option Placement} {children : List Derivation}
      (stands : w.Stands a seed site.parent (.rule site.rule) (.shift site.origin) context)
      (rule : w.grammar.rule site.rule = .ok r) (choice : id ∈ r.expansions)
      (expansion : w.grammar.expansion id = .ok e)
      (chosen : w.Stands a seed (some context) (.expansion id) .identity inner)
      (leads : e.Leads w a seed site context inner placed (children.map (·.site)))
      (below : ∀ t ∈ children, Valid w a seed t) :
      Valid w a seed (.node site context id inner placed children)

/-! ### Contexts that are still there in the end -/

namespace Arena

variable {a z : Arena} {h : Handle} {x : Context}

theorem getElem?_of_isPrefix {α : Type} {xs ys : List α} {i : Nat} {v : α} (hp : xs <+: ys)
    (hv : xs[i]? = some v) : ys[i]? = some v := by
  obtain ⟨more, rfl⟩ := hp
  have hlt := (List.getElem?_eq_some_iff.1 hv).1
  rwa [List.getElem?_append_left hlt]

theorem get_of_isPrefix (ha : a.Numbered) (hz : z.Numbered) (hp : a.live <+: z.live)
    (hx : a.get h = .ok x) : z.get h = .ok x :=
  (get_eq_ok_iff hz).2 (getElem?_of_isPrefix hp ((get_eq_ok_iff ha).1 hx))

theorem keeps_of_isPrefix (hp : a.live <+: z.live) : Keeps a.size a z := by
  obtain ⟨more, hz⟩ := hp
  exact .of_append hz.symm

theorem grounded_of_isPrefix (ha : a.Numbered) (hz : z.Numbered) (ground : z.Grounded)
    (hp : a.live <+: z.live) : a.Grounded :=
  (grounded_iff ha).2 fun i e he =>
    (grounded_iff hz).1 ground i e (getElem?_of_isPrefix hp he)

theorem prepare_of_isPrefix {g : Grammar} {parent : Option Handle} {ref : SymbolRef}
    {placement : Transform} {seed : Seed} (ha : a.Numbered) (hz : z.Numbered)
    (hp : a.live <+: z.live) (hx : a.prepare g parent ref placement seed = .ok x) :
    z.prepare g parent ref placement seed = .ok x := by
  obtain ⟨p, symbol, hparent, _, _⟩ := prepare_ok hx
  have same : z.parentContext parent = a.parentContext parent := by
    cases parent with
    | none => rfl
    | some h =>
        simp only [parentContext] at hparent ⊢
        cases hc : a.get h with
        | error f =>
            rw [hc] at hparent
            cases hparent
        | ok c => rw [get_of_isPrefix ha hz hp hc]
  rw [← hx, prepare, prepare, same]

end Arena

namespace World

variable {w : World μ} {a z : Arena} {h : Handle} {n : Nat}

def alone (w : World μ) (marked : w.grammar.Marked) : Twins w.forgetful w.forgetful :=
  ⟨fun _ _ _ => True, fun _ _ _ => True, Notebook.honest_blank, Notebook.honest_blank, rfl, marked⟩

theorem sampleBool_alike (marked : w.grammar.Marked) (alike : Arena.Alike (fun _ => 0) n a z)
    (ground : a.Grounded) (hn : h.slot < n) (id : FieldId) :
    ((w.forgetful.sampleBool a h id).run ()).1 = ((w.forgetful.sampleBool z h id).run ()).1 := by
  obtain ⟨agree, _⟩ := ((w.alone marked).counterparts alike ground hn).sampleBool id () () trivial trivial
  rw [Handle.shift_zero] at agree
  exact agree.eq

theorem samplePos_alike (marked : w.grammar.Marked) (alike : Arena.Alike (fun _ => 0) n a z)
    (ground : a.Grounded) (hn : h.slot < n) (id : FieldId) :
    ((w.forgetful.samplePos a h id).run ()).1 = ((w.forgetful.samplePos z h id).run ()).1 := by
  obtain ⟨agree, _⟩ := ((w.alone marked).counterparts alike ground hn).samplePos id () () trivial trivial
  rw [Handle.shift_zero] at agree
  exact agree.eq

theorem sampleWorldPos_alike (marked : w.grammar.Marked) (alike : Arena.Alike (fun _ => 0) n a z)
    (ground : a.Grounded) (hn : h.slot < n) (id : FieldId) :
    ((w.forgetful.sampleWorldPos a h id).run ()).1 =
      ((w.forgetful.sampleWorldPos z h id).run ()).1 := by
  obtain ⟨agree, _⟩ := ((w.alone marked).counterparts alike ground hn).sampleWorldPos id () () trivial trivial
  rw [Handle.shift_zero] at agree
  exact agree.eq

theorem Locates.of_isPrefix {p : Pos} {id : FieldId} (hl : w.Locates a h id p)
    (marked : w.grammar.Marked) (ha : a.Numbered) (hz : z.Numbered) (ground : z.Grounded)
    (hp : a.live <+: z.live) (hn : h.slot < a.size) : w.Locates z h id p := by
  have alike := (Arena.keeps_of_isPrefix hp).alike ha hz
  rw [Locates, ← samplePos_alike marked alike (Arena.grounded_of_isPrefix ha hz ground hp) hn]
  exact hl

/-- Conditions that hold together hold each. -/
theorem sampleBool_of_holds {cs : List FieldId}
    (hh : ((w.forgetful.holds a h cs).run ()).1 = .ok true) :
    ∀ id ∈ cs, ((w.forgetful.sampleBool a h id).run ()).1 = .ok true := by
  induction cs with
  | nil => exact fun _ hid => nomatch hid
  | cons c rest ih =>
      rw [holds, Eval.run_bind] at hh
      rcases hc : (w.forgetful.sampleBool a h c).run () with ⟨_ | b, _⟩ <;> rw [hc] at hh
      · cases hh
      · cases b with
        | false => cases hh
        | true =>
            intro id hid
            rcases List.mem_cons.1 hid with rfl | hid
            · rw [hc]
            · exact ih hh id hid

end World

namespace Search.Opens

variable {w : World μ} {seed : Seed} {a b z : Arena} {parent : Option Handle} {ref : SymbolRef}
  {placement : Transform} {x : Context} {sym : Symbol}

/-- In a context that has been opened, fields go on meaning what they meant at first, as long as it
is there. -/
theorem alike (opens : Opens w seed a parent ref placement x sym b) (ha : a.Numbered)
    (hz : z.Numbered) (hp : b.live <+: z.live) :
    Arena.Alike (fun _ => 0) (a.size + 1) (a.push x).2 z := by
  refine Arena.alike_of_live (Arena.numbered_push ha x) hz fun i hi => ?_
  have hlive : z.live[i]? = (a.live ++ [((a.push x).1, x.assign sym)])[i]? := by
    obtain ⟨more, hmore⟩ := hp
    rw [← hmore, opens.live, List.getElem?_append_left]
    simpa [Arena.length_live] using hi
  rw [Arena.live_push ha, hlive]
  rcases Nat.lt_succ_iff_lt_or_eq.1 hi with hlt | rfl
  · rw [← Arena.length_live] at hlt
    rw [List.getElem?_append_left hlt, List.getElem?_append_left hlt]
    cases a.live[i]? with
    | none => exact .none
    | some e => exact .some ⟨by simp, Context.like_self e.2, fun _ => by simp⟩
  · -- The last context has handed on its assignments.
    rw [← Arena.length_live, List.getElem?_concat_length, List.getElem?_concat_length]
    exact .some ⟨by simp, Context.like_assign x sym, fun hlt => absurd hlt (Nat.lt_irrefl _)⟩

/-- A context that has been opened is on solid ground. -/
theorem grounded (opens : Opens w seed a parent ref placement x sym b) (ha : a.Numbered)
    (hz : z.Numbered) (ground : z.Grounded) (hp : b.live <+: z.live) : (a.push x).2.Grounded := by
  have hpa : a.live <+: z.live := (opens.live ▸ List.prefix_append _ _).trans hp
  exact Arena.grounded_push ha (Arena.grounded_of_isPrefix ha hz ground hpa)
    (Arena.below_of_prepare opens.prepared)

/-- A context that has been opened stands, as long as it is there. -/
theorem stands (opens : Opens w.forgetful seed a parent ref placement x sym b)
    (marked : w.grammar.Marked) (ha : a.Numbered) (hz : z.Numbered) (ground : z.Grounded)
    (hp : b.live <+: z.live) : w.Stands z seed parent ref placement (a.push x).1 := by
  have hpa : a.live <+: z.live := (opens.live ▸ List.prefix_append _ _).trans hp
  refine ⟨x, sym, Arena.prepare_of_isPrefix ha hz hpa opens.prepared, opens.symbol, ?_, ?_⟩
  · rw [Arena.get_eq_ok_iff hz]
    refine Arena.getElem?_of_isPrefix hp ?_
    rw [opens.live, Arena.push_slot, ← Arena.length_live]
    exact List.getElem?_concat_length
  · intro id hid
    obtain ⟨_, hh⟩ := opens.holds
    rw [← World.sampleBool_alike marked (opens.alike ha hz hp) (opens.grounded ha hz ground hp)
      (Nat.lt_succ_self _) id]
    exact World.sampleBool_of_holds hh id hid

end Search.Opens

end VoxelGrammar
