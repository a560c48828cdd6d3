import VoxelGrammar.Proofs.Closure
import VoxelGrammar.Proofs.Soundness

/-!
The areas of a search. A component lays out a tract for each of its area specifications; a tract is
checked against the areas recorded before it and is recorded itself unless it is virtual. Branches
take components back together with their areas, so what is recorded between two attempts are the
tracts of the components that are there, and every tract still gets on with those before it.
-/

namespace VoxelGrammar

variable {μ : Type}

/-! ### Boxes -/

namespace Pos

variable {a b c : Pos}

theorem Below.trans (hab : a.Below b) (hbc : b.Below c) : a.Below c := by
  simp only [Below, Int32.le_iff_toInt_le] at *
  omega

theorem below_sup_left (a b : Pos) : a.Below (a.sup b) := by
  simp only [Below, sup, Int32.le_iff_toInt_le]
  grind

theorem below_sup_right (a b : Pos) : b.Below (a.sup b) := by
  simp only [Below, sup, Int32.le_iff_toInt_le]
  grind

theorem inf_below_left (a b : Pos) : (a.inf b).Below a := by
  simp only [Below, inf, Int32.le_iff_toInt_le]
  grind

theorem sup_below (ha : a.Below c) (hb : b.Below c) : (a.sup b).Below c := by
  simp only [Below, sup, Int32.le_iff_toInt_le] at *
  grind

end Pos

namespace Box

def Meets (a b : Box) : Prop := ∃ p, p ∈ a ∧ p ∈ b

theorem low_below_spanning (p q : Pos) : (spanning p q).low.Below (spanning p q).high :=
  (Pos.inf_below_left p q).trans (Pos.below_sup_left p q)

/-- Boxes that are not empty overlap if and only if they share a cell. -/
theorem overlaps_iff {a b : Box} (ha : a.low.Below a.high) (hb : b.low.Below b.high) :
    a.overlaps b = true ↔ a.Meets b := by
  simp only [overlaps, Bool.decide_and, Bool.and_eq_true, decide_eq_true_eq]
  constructor
  · rintro ⟨hab, hba⟩
    exact ⟨a.low.sup b.low, ⟨Pos.below_sup_left _ _, Pos.sup_below ha hba⟩,
      ⟨Pos.below_sup_right _ _, Pos.sup_below hab hb⟩⟩
  · rintro ⟨p, ⟨hap, hpa⟩, ⟨hbp, hpb⟩⟩
    exact ⟨hap.trans hpb, hbp.trans hpa⟩

end Box

/-! ### Names -/

def Grammar.NumbersAreas (g : Grammar) : Prop :=
  ∀ i c j d, g.component i = .ok c → g.component j = .ok d → ∀ s ∈ c.areas, ∀ t ∈ d.areas,
    (s.nameId = t.nameId ↔ s.name = t.name)

namespace Draft

theorem mem_foldl_names (names used : List String) (name : String) :
    name ∈ names.foldl (fun used n => if used.contains n then used else used ++ [n]) used ↔
      name ∈ used ∨ name ∈ names := by
  induction names generalizing used with
  | nil => simp
  | cons n names ih =>
      rw [List.foldl_cons, ih]
      by_cases h : used.contains n
      · have hn : n ∈ used := List.contains_iff_mem.1 h
        rw [if_pos h, List.mem_cons]
        constructor
        · rintro (h | h)
          · exact .inl h
          · exact .inr (.inr h)
        · rintro (h | rfl | h)
          · exact .inl h
          · exact .inl hn
          · exact .inr h
      · rw [if_neg h, List.mem_append, List.mem_singleton, List.mem_cons, or_assoc]

theorem mem_areaNames {d : Draft} {e : Entry Component} {s : AreaSpec} (he : e ∈ d.components)
    (hs : s ∈ e.value.areas) : s.name ∈ d.areaNames := by
  rw [areaNames, mem_foldl_names]
  exact .inr (List.mem_flatMap.2 ⟨e, Array.mem_toList_iff.2 he, List.mem_map_of_mem hs⟩)

theorem numbersAreas_compile (d : Draft) : d.compile.NumbersAreas := by
  intro i c j c' hc hc' s hs t ht
  obtain ⟨e, he, rfl⟩ := Fault.lookup_map hc
  obtain ⟨e', he', rfl⟩ := Fault.lookup_map hc'
  obtain ⟨s', hs', rfl⟩ := List.mem_map.1 hs
  obtain ⟨t', _, rfl⟩ := List.mem_map.1 ht
  exact List.idxOf_inj (mem_areaNames he hs')

end Draft

/-! ### Tracts -/

/-- A box together with the area specification that describes it. -/
structure Tract where
  spec : AreaSpec
  box : Box

namespace Tract

/-- What a tract is checked and recorded as. -/
def area (t : Tract) : Area := ⟨t.spec.nameId, t.box⟩

def recorded (ts : List Tract) : List Area := (ts.filter fun t => !t.spec.virtualOnly).map area

/-- A recorded tract has the name of another one and a cell in common with it. -/
def Touches (d t : Tract) : Prop :=
  d.spec.virtualOnly = false ∧ d.spec.name = t.spec.name ∧ d.box.Meets t.box

structure Fits (before : List Tract) (t : Tract) : Prop where
  mustNot : t.spec.policy = .mustNot → ∀ d ∈ before, ¬ d.Touches t
  must : t.spec.policy = .must → ∃ d ∈ before, d.Touches t

def Lies (w : World μ) (a : Arena) (h : Handle) (t : Tract) : Prop :=
  ∃ p q, ((w.forgetful.sampleWorldPos a h t.spec.start).run ()).1 = .ok p ∧
    ((w.forgetful.sampleWorldPos a h t.spec.stop).run ()).1 = .ok q ∧ t.box = .spanning p q

structure Proper (g : Grammar) (t : Tract) : Prop where
  spec : ∃ id c, g.component id = .ok c ∧ t.spec ∈ c.areas
  box : t.box.low.Below t.box.high

@[simp] theorem recorded_append (ts us : List Tract) :
    recorded (ts ++ us) = recorded ts ++ recorded us := by
  simp [recorded]

end Tract

def Placement.LaysOut (w : World μ) (a : Arena) (p : Placement) (ts : List Tract) : Prop :=
  ∃ c, w.grammar.component p.component = .ok c ∧ ts.map (·.spec) = c.areas ∧
    ∀ t ∈ ts, t.Lies w a p.context

/-- Each element of the list has the property `P`, together with the elements before it. -/
def Throughout {α : Type} (P : List α → α → Prop) (xs : List α) : Prop :=
  ∀ before x after, xs = before ++ x :: after → P before x

namespace Throughout

variable {α : Type} {P Q : List α → α → Prop} {x : α} {xs ys : List α}

theorem nil : Throughout P [] := by simp [Throughout]

theorem cons (hx : P [] x) (hxs : Throughout (fun before => P (x :: before)) xs) :
    Throughout P (x :: xs) := by
  intro before y after heq
  cases before with
  | nil =>
      cases heq
      exact hx
  | cons z before =>
      obtain ⟨rfl, rest⟩ := List.cons.inj heq
      exact hxs before y after rest

theorem append (hxs : Throughout P xs) (hys : Throughout (fun before => P (xs ++ before)) ys) :
    Throughout P (xs ++ ys) := by
  intro before y after heq
  rcases List.append_eq_append_iff.1 heq with ⟨more, rfl, rest⟩ | ⟨more, rfl, rest⟩
  · exact hys more y after rest
  · cases more with
    | nil => simpa using hys [] y after rest.symm
    | cons z more =>
        obtain ⟨rfl, rfl⟩ := List.cons.inj rest
        exact hxs before y more rfl

end Throughout

def Tract.Admitted (before : List Tract) (t : Tract) : Prop :=
  Search.admits t.spec.policy (recorded before).toArray t.area = true

namespace Tract

variable {g : Grammar} {d t : Tract} {before : List Tract}

theorem overlaps_iff_touches (numbers : g.NumbersAreas) (hd : d.Proper g) (ht : t.Proper g)
    (recorded : d.spec.virtualOnly = false) :
    (d.area.name == t.area.name && d.area.box.overlaps t.area.box) = true ↔ d.Touches t := by
  obtain ⟨i, c, hc, hds⟩ := hd.spec
  obtain ⟨j, c', hc', hts⟩ := ht.spec
  rw [Bool.and_eq_true, beq_iff_eq, area, area, numbers i c j c' hc hc' _ hds _ hts,
    Box.overlaps_iff hd.box ht.box, Touches]
  exact ⟨fun h => ⟨recorded, h⟩, fun h => h.2⟩

/-- A check against the recorded areas is one against the recorded tracts. -/
theorem any_overlaps_iff (numbers : g.NumbersAreas) (hbefore : ∀ d ∈ before, d.Proper g)
    (ht : t.Proper g) :
    ((recorded before).toArray.any fun b => b.name == t.area.name && b.box.overlaps t.area.box) =
      true ↔ ∃ d ∈ before, d.Touches t := by
  rw [List.any_toArray, List.any_eq_true]
  constructor
  · rintro ⟨b, hb, overlaps⟩
    obtain ⟨d, hd, rfl⟩ := List.mem_map.1 hb
    obtain ⟨hd, kept⟩ := List.mem_filter.1 hd
    exact ⟨d, hd, (overlaps_iff_touches numbers (hbefore d hd) ht (by simpa using kept)).1 overlaps⟩
  · rintro ⟨d, hd, touches⟩
    refine ⟨d.area, List.mem_map_of_mem (List.mem_filter.2 ⟨hd, by simp [touches.1]⟩), ?_⟩
    exact (overlaps_iff_touches numbers (hbefore d hd) ht touches.1).2 touches

theorem Admitted.fits (h : t.Admitted before) (numbers : g.NumbersAreas)
    (hbefore : ∀ d ∈ before, d.Proper g) (ht : t.Proper g) : t.Fits before := by
  have check := any_overlaps_iff numbers hbefore ht
  unfold Admitted Search.admits at h
  refine ⟨fun policy d hd touches => ?_, fun policy => ?_⟩
  · simp only [policy, check.2 ⟨d, hd, touches⟩] at h
    cases h
  · simp only [policy] at h
    exact check.1 h

end Tract

/-! ### Laying tracts out -/

theorem Tract.Lies.alike {w : World μ} {a z : Arena} {h : Handle} {n : Nat} {t : Tract}
    (lies : t.Lies w a h) (marked : w.grammar.Marked) (alike : Arena.Alike (fun _ => 0) n a z)
    (ground : a.Grounded) (hn : h.slot < n) : t.Lies w z h := by
  obtain ⟨p, q, hp, hq, hbox⟩ := lies
  rw [World.sampleWorldPos_alike marked alike ground hn] at hp hq
  exact ⟨p, q, hp, hq, hbox⟩

namespace Search

theorem areaOf_ok {w : World μ} {a : Arena} {h : Handle} {spec : AreaSpec} {area : Area}
    (hr : ((areaOf w.forgetful a h spec).run ()).1 = .ok area) :
    ∃ t : Tract, t.spec = spec ∧ t.area = area ∧ t.Lies w a h := by
  rw [areaOf, Eval.run_bind] at hr
  rcases hp : (w.forgetful.sampleWorldPos a h spec.start).run () with ⟨_ | p, _⟩ <;> rw [hp] at hr
  · cases hr
  · dsimp only at hr
    rw [Eval.run_bind] at hr
    rcases hq : (w.forgetful.sampleWorldPos a h spec.stop).run () with ⟨_ | q, _⟩ <;> rw [hq] at hr
    · cases hr
    · cases hr
      exact ⟨⟨spec, .spanning p q⟩, rfl, rfl, p, q, congrArg Prod.fst hp, congrArg Prod.fst hq, rfl⟩

/-- Areas that have been recorded one after the other come from tracts that are admitted. -/
theorem PlacesAreas.tracts {w : World μ} {a : Arena} {h : Handle} {specs : List AreaSpec}
    {areas areas' : Array Area} (places : PlacesAreas w.forgetful a h specs areas areas') :
    ∃ ts : List Tract, ts.map (·.spec) = specs ∧ (∀ t ∈ ts, t.Lies w a h) ∧
      areas'.toList = areas.toList ++ Tract.recorded ts ∧
      Throughout (fun before t =>
        admits t.spec.policy (areas.toList ++ Tract.recorded before).toArray t.area = true) ts := by
  induction places with
  | nil areas => exact ⟨[], rfl, by simp, by simp [Tract.recorded], .nil⟩
  | @cons spec rest areas areas' area described admitted _ ih =>
      obtain ⟨_, described⟩ := described
      obtain ⟨t, rfl, rfl, lies⟩ := areaOf_ok described
      obtain ⟨ts, hspecs, hlie, hareas, hfit⟩ := ih
      have first : (if t.spec.virtualOnly then areas else areas.push t.area).toList =
          areas.toList ++ Tract.recorded [t] := by
        cases hv : t.spec.virtualOnly <;> simp [Tract.recorded, hv]
      have recorded : ∀ ts, Tract.recorded [t] ++ Tract.recorded ts = Tract.recorded (t :: ts) :=
        fun ts => (Tract.recorded_append [t] ts).symm
      refine ⟨t :: ts, by rw [List.map_cons, hspecs], List.forall_mem_cons.2 ⟨lies, hlie⟩, ?_, ?_⟩
      · rw [hareas, first, List.append_assoc, recorded]
      · refine .cons (by simpa [Tract.recorded] using admitted) ?_
        simpa only [first, List.append_assoc, recorded] using hfit

end Search

/-- If the contexts last to the end, the components lay out tracts that have been admitted one after
the other, and what is recorded are these. -/
def Snapshot.Surveyed (w : World μ) (z : Arena) (k : Snapshot) : Prop :=
  k.contexts <+: z.live → ∃ ts : List (List Tract),
    List.Forall₂ (Placement.LaysOut w z) k.placements.toList ts ∧
      k.areas.toList = Tract.recorded ts.flatten ∧ Throughout Tract.Admitted ts.flatten

theorem Snapshot.Surveyed.mono {w : World μ} {z : Arena} {k l : Snapshot} (h : k.Surveyed w z)
    (areas : l.areas = k.areas) (placements : l.placements = k.placements)
    (contexts : k.contexts <+: l.contexts) : l.Surveyed w z := by
  intro hp
  rw [areas, placements]
  exact h (contexts.trans hp)

namespace Search

section

variable {w : World μ} {z : Arena} {s s' : Search Unit} {a : Attempt}

/-- The component that an attempt places lays out its tracts after those that are there. -/
theorem PlacesComponent.lays {id : ComponentId} {c : Component} {n : Node} {p : Pos} {x : Context}
    (places : PlacesComponent w.forgetful id a s c n p x s') (ends : w.Ends z)
    (hs : s.arena.Numbered) (h : s.snapshot.Surveyed w z) : s'.snapshot.Surveyed w z := by
  intro hp
  obtain ⟨s₁, areas, opens, _, hplan, enters⟩ := places.populated
  obtain ⟨new, specs, lie, recorded, fit⟩ := places.surveyed.tracts
  have hp₁ : s₁.arena.live <+: z.live := (enters.grows (Nat.le_refl _)).isPrefix.trans hp
  obtain ⟨ts, laid, hareas, admitted⟩ := h ((opens.live ▸ List.prefix_append _ _).trans hp₁)
  have placements : s'.plan.placements = s.plan.placements.push
      ⟨id, a.attachment.node, (s.arena.push x).1, x.toWorld⟩ := by
    rw [enters.accepted.1, hplan]
  have flat : (ts ++ [new]).flatten = ts.flatten ++ new := by simp
  have there : ∀ t ∈ new, t.Lies w z (s.arena.push x).1 := fun t ht =>
    (lie t ht).alike ends.marked (opens.alike hs ends.numbered hp₁)
      (opens.grounded hs ends.numbered ends.ground hp₁) (Nat.lt_succ_self _)
  refine ⟨ts ++ [new], ?_, ?_, ?_⟩
  · rw [snapshot, placements, Array.toList_push]
    exact List.rel_append laid (.cons ⟨c, places.component, specs, there⟩ .nil)
  · rw [snapshot, recorded, flat, Tract.recorded_append, ← hareas]
    rfl
  · rw [flat]
    refine admitted.append ?_
    intro before t after heq
    rw [Tract.Admitted, Tract.recorded_append, ← hareas]
    exact fit before t after heq

theorem Carries.surveyed {e : Expansion} (carries : Carries w.forgetful a s s' e) (ends : w.Ends z)
    (hs : s.arena.Numbered) (h : s.snapshot.Surveyed w z) : s'.snapshot.Surveyed w z := by
  have contexts := carries.isPrefix
  cases carries with
  | nothing _ same => exact same ▸ h
  | rule _ enters =>
      obtain ⟨placements, areas⟩ := enters.accepted
      exact h.mono areas placements contexts
  | component _ places => exact places.lays ends hs h

def Surveyed (w : World μ) (z : Arena) (s : Search Unit) : Prop :=
  Kept (Snapshot.Surveyed w z) s ∧ s.snapshot.Surveyed w z

theorem Resolves.surveyed {entry : Option Attempt} (ends : w.Ends z)
    (hr : Resolves w.forgetful s entry s') (h : s.Surveyed w z) : s'.Surveyed w z := by
  obtain ⟨kept, surveyed⟩ := h
  have looked : ∀ {a following s₁}, (next w.forgetful a).run s = (.ok following, s₁) →
      (advanced following s₁).snapshot.Surveyed w z := by
    intro a following s₁ hnext
    obtain ⟨grows, hplan⟩ := next_grows kept.numbered (Nat.le_refl _) hnext
    have areas : s₁.plan.areas = s.plan.areas := congrArg Plan.areas hplan
    have placements : s₁.plan.placements = s.plan.placements := congrArg Plan.placements hplan
    exact surveyed.mono areas placements grows.isPrefix
  refine kept_resolves kept (fun a following s₁ _ hnext => looked hnext)
    (fun a following s₁ s₂ e _ hnext _ carries => ?_) hr
  have numbered : (advanced following s₁).arena.Numbered :=
    (next_grows kept.numbered (Nat.le_refl _) hnext).1.numbered
  exact carries.surveyed ends numbered (looked hnext)

theorem Steps.surveyed {r : Option (Except SearchFailure Unit)} (ends : w.Ends z)
    (hstep : Steps w.forgetful s r s') (h : s.Surveyed w z) : s'.Surveyed w z := by
  have changed : ∀ plan : Plan, plan.areas = s.plan.areas → plan.placements = s.plan.placements →
      plan.checkpoints = s.plan.checkpoints → Surveyed w z { s with plan } := by
    intro plan areas placements checkpoints
    exact ⟨h.1.replan rfl areas placements checkpoints,
      h.2.mono areas placements (List.prefix_refl _)⟩
  cases hstep with
  | finished => exact changed _ rfl rfl rfl
  | exhausted => exact h
  | stopped => exact changed _ rfl rfl rfl
  | tried _ resolves => exact resolves.surveyed ends (changed _ rfl rfl rfl)

theorem setup_surveyed {rule : RuleId} {origin : Pos} {seed : Seed}
    (hr : (setup w.forgetful rule origin seed).run s = (.ok (), s')) : s'.Surveyed w z := by
  have nothing : (started w.forgetful origin seed s).snapshot.Surveyed w z :=
    fun _ => ⟨[], .nil, rfl, .nil⟩
  have kept := Kept.started w.forgetful origin seed s nothing
  rcases setup_ok hr with same | ⟨r, x, a, enters⟩
  · have grows := same.grows (Nat.le_refl _)
    exact ⟨kept.same same, nothing.mono (congrArg Plan.areas same.plan)
      (congrArg Plan.placements same.plan) grows.isPrefix⟩
  · have grows := enters.grows (Nat.le_refl _)
    obtain ⟨placements, areas⟩ := enters.accepted
    exact ⟨kept.grows_all grows, nothing.mono areas placements grows.isPrefix⟩

end

/-! ### Searches under way -/

/-- The states between two attempts of a search that starts over in `s`, whatever the limits of its
attempts. -/
inductive Underway (w : World μ) (s : Search μ) : Search μ → Prop
  | setup {s₁ : Search μ} {rule : RuleId} {origin : Pos} {seed : Seed}
      (run : (setup w rule origin seed).run s = (.ok (), s₁)) : Underway w s s₁
  | step {s₁ s₂ : Search μ} {limits : Limits} {r : Option (Except SearchFailure Unit)}
      (underway : Underway w s s₁) (run : (step w limits).run s₁ = (.ok r, s₂)) : Underway w s s₂

theorem Underway.steps {w : World μ} {s s₁ s₂ : Search μ} {limits : Limits} {n : Nat}
    {r : Except SearchFailure Unit} (underway : Underway w s s₁)
    (run : (Search.steps w limits n).run s₁ = (.ok r, s₂)) : Underway w s s₂ := by
  induction n generalizing s₁ with
  | zero =>
      cases run
      exact underway
  | succ n ih =>
      rw [Search.steps] at run
      obtain ⟨result, s', first, rest⟩ := SearchM.bind_ok run
      cases result with
      | none => exact ih (underway.step first) rest
      | some result =>
          cases rest
          exact underway.step first

theorem Underway.search {w : World μ} {s s' : Search μ} {rule : RuleId} {origin : Pos} {seed : Seed}
    {limits : Limits} {n : Nat} {r : Except SearchFailure Unit}
    (run : (do Search.setup w rule origin seed; Search.steps w limits n).run s = (.ok r, s')) :
    Underway w s s' := by
  obtain ⟨_, _, start, run⟩ := SearchM.bind_ok run
  exact (Underway.setup start).steps run

theorem Underway.surveyed {w : World μ} {z : Arena} {s s' : Search Unit} (ends : w.Ends z)
    (underway : Underway w.forgetful s s') : s'.Surveyed w z := by
  induction underway with
  | setup run => exact setup_surveyed run
  | step _ run ih => exact (step_ok ih.1.numbered run).surveyed ends ih

/-- A search goes the same way without a memory. -/
theorem Underway.forgotten {g : Grammar} (marked : g.Marked) {p : Provider} {s s' : Search Memory}
    (trusted : Trusted (.remembering g p) Memory.Holds s)
    (underway : Underway (.remembering g p) s s') :
    ∃ u, Underway (World.remembering g p).forgetful s.forgotten u ∧
      Mirror (.forgetting marked p) (fun _ => 0) s' u := by
  induction underway with
  | @setup s₁ rule origin seed run =>
      obtain ⟨_, u, hrun, _, mirror⟩ := (setup_forgotten marked trusted rule origin seed).ok run
      exact ⟨u, .setup hrun, mirror⟩
  | @step s₁ s₂ limits r _ run ih =>
      obtain ⟨u, underway, mirror⟩ := ih
      obtain ⟨_, u', hrun, rfl, mirror⟩ := (step_matches mirror limits).ok run
      exact ⟨u', .step underway hrun, mirror⟩

end Search

theorem Placement.LaysOut.proper {w : World μ} {a : Arena} {p : Placement} {ts : List Tract}
    (laysOut : p.LaysOut w a ts) : ∀ t ∈ ts, t.Proper w.grammar := by
  obtain ⟨c, hc, specs, lie⟩ := laysOut
  intro t ht
  obtain ⟨p, q, _, _, hbox⟩ := lie t ht
  refine ⟨⟨_, c, hc, specs ▸ List.mem_map_of_mem ht⟩, ?_⟩
  rw [hbox]
  exact Box.low_below_spanning p q

theorem proper_of_forall₂ {w : World μ} {a : Arena} {ps : List Placement} {ts : List (List Tract)}
    (laid : List.Forall₂ (Placement.LaysOut w a) ps ts) : ∀ t ∈ ts.flatten, t.Proper w.grammar := by
  induction laid with
  | nil => simp
  | cons laysOut _ ih =>
      rw [List.flatten_cons]
      exact List.forall_mem_append.2 ⟨laysOut.proper, ih⟩

namespace Search

/-- Between any two attempts of a search, the recorded areas are the tracts of the components that
are there, the virtual ones left out, and every tract gets on with those before it. -/
theorem areas_keep_policies {g : Grammar} {own : Prop} (hg : g.Built own) (p : Provider)
    {s s' : Search Memory} (used : Used (.remembering g p) s)
    (underway : Underway (.remembering g p) s s') :
    ∃ ts : List (List Tract),
      List.Forall₂ (Placement.LaysOut (.remembering g p) s'.arena) s'.plan.placements.toList ts ∧
        s'.plan.areas.toList = Tract.recorded ts.flatten ∧ Throughout Tract.Fits ts.flatten := by
  obtain ⟨u, forgetting, mirror⟩ := underway.forgotten hg.marked (used.trusted hg)
  have live : u.arena.live = s'.arena.live := mirror.live_eq
  have plan : u.plan = s'.plan := mirror.plan_eq
  obtain ⟨d, _, compiled⟩ := hg.compiled
  have ends : (World.remembering g p).Ends s'.arena :=
    ⟨hg.marked, compiled ▸ d.tiered_compile, mirror.arena.numbered, mirror.ground⟩
  obtain ⟨ts, laid, recorded, admitted⟩ :=
    (forgetting.surveyed ends).2 (live ▸ List.prefix_refl _)
  rw [snapshot, plan] at laid recorded
  have proper : ∀ t ∈ ts.flatten, t.Proper g := proper_of_forall₂ laid
  refine ⟨ts, laid, recorded, fun before t after heq => ?_⟩
  have numbers : g.NumbersAreas := compiled ▸ d.numbersAreas_compile
  refine (admitted before t after heq).fits numbers (fun d hd => proper d ?_) (proper t ?_)
  · rw [heq]
    exact List.mem_append_left _ hd
  · rw [heq]
    exact List.mem_append_right _ List.mem_cons_self

/-- After two attempts the barn of a farm is there, with its wall beside that of the yard, and after six
the hut is there instead. -/
theorem areas_keep_policies_farm :
    let world := World.remembering farm.compile .none
    let fresh := Search.new (.ofCache (.new 0 .standard))
    let left (n : Nat) := ((do setup world 0 .zero 1; steps world ⟨10, 10⟩ n).run fresh).2
    let corner : Pos := ⟨18, 0, 2⟩
    farm.compile.Built True ∧ Used world fresh ∧ (∀ n ∈ [2, 6], Underway world fresh (left n) ∧
      ∃ ts : List (List Tract),
        List.Forall₂ (Placement.LaysOut world (left n).arena) (left n).plan.placements.toList ts ∧
          (left n).plan.areas.toList = Tract.recorded ts.flatten ∧ Throughout Tract.Fits ts.flatten) ∧
      (left 2).plan.placements.toList.map (·.component) = [0, 1] ∧
      (left 2).plan.areas.toList =
        [⟨0, ⟨.zero, corner⟩⟩, ⟨1, ⟨.zero, .zero⟩⟩, ⟨1, ⟨corner, corner⟩⟩] ∧
      (left 6).plan.placements.toList.map (·.component) = [0, 2] ∧
      (left 6).plan.areas.toList =
        [⟨0, ⟨.zero, corner⟩⟩, ⟨1, ⟨.zero, .zero⟩⟩, ⟨1, ⟨corner, ⟨18, 1, 2⟩⟩⟩] := by
  intro world fresh left corner
  have used : Used world fresh := .new Cache.standardDraws 0 .standard
  have same := steps_forgotten built_farm.marked (used.trusted built_farm) ⟨10, 10⟩ 0 .zero 1
  have plan (n : Nat) : (left n).plan = _ := (same n).2.plan_eq.symm
  refine ⟨built_farm, used, fun n hn => ?_, ?_⟩
  · have ends : ((do setup world 0 .zero 1; steps world ⟨10, 10⟩ n : SearchM Memory _).run fresh).1 =
        .ok (.error (.expansionLimit 10)) := by
      rw [(same n).1.eq]
      revert n
      decide +kernel
    have underway : Underway world fresh (left n) := .search (Prod.ext ends rfl)
    exact ⟨underway, areas_keep_policies built_farm .none used underway⟩
  · rw [plan, plan]
    decide +kernel

end Search

end VoxelGrammar
