import VoxelGrammar.Proofs.Growth
import VoxelGrammar.Proofs.Offers
import VoxelGrammar.Proofs.Priorities

/-!
The attempts of a rule entry, one after the other. A search does not go through them at one time: it
tries one, enters and drops other contexts, and comes back for the next. However it interrupts the
enumeration, it gets what one candidate offers after what the other one does, all of it and each
attempt once.
-/

namespace VoxelGrammar

variable {μ : Type}

namespace Search

/-! ### Opening a candidate -/

inductive Heads (entry : RuleEntry) (k : Candidate) (later : List Candidate) :
    List Attachment → Option Attempt → Prop
  | nothing : Heads entry k later [] none
  | attempt (context : Handle) (o : Attachment) (rest : List Attachment) :
      Heads entry k later (o :: rest) (some ⟨entry, k, context, o, rest, later⟩)

section

variable {w : World μ} {s : Search Unit} {entry : RuleEntry} {k : Candidate} {later : List Candidate}

theorem run_enter (h : Handle) (ref : SymbolRef) (placement : Transform) :
    (enter w.forgetful (some h) ref placement).run s =
      match settle (s.arena.prepare w.grammar (some h) ref placement 0) with
      | .ok (.ok x) => (.ok (.ok (s.arena.push x).1), entered w.forgetful x s)
      | .ok (.error e) => (.ok (.error e), s)
      | .error f => (.error f, s) := by
  have prepared : s.arena.prepare w.forgetful.grammar (some h) ref placement s.plan.seed =
      s.arena.prepare w.grammar (some h) ref placement 0 := Arena.prepare_congr rfl _ _ _ _ _
  simp only [enter, SearchM.run_bind, SearchM.run_get, Arena.create, prepared]
  rcases s.arena.prepare w.grammar (some h) ref placement 0 with (e | f) | x <;> rfl

theorem run_meets (h : Handle) (cs : List FieldId) :
    (meets w.forgetful h cs).run s =
      match settle ((w.forgetful.holds s.arena h cs).run ()).1 with
      | .ok (.ok b) => (.ok b, s)
      | .ok (.error _) => (.ok false, s)
      | .error f => (.error f, s) := by
  unfold meets
  rw [SearchM.run_bind, run_evaluate]
  have forgotten : evaluated (fun a => w.forgetful.holds a h cs) s = s := rfl
  rw [forgotten]
  rcases ((w.forgetful.holds s.arena h cs).run ()).1 with (e | f) | b <;> rfl

/-- Without a memory, opening a candidate comes to the first of its attachments. -/
theorem openCandidate_heads (hs : s.arena.Numbered) :
    Agree (Heads entry k later) (block w s.arena entry.context k)
      ((openCandidate w.forgetful entry k later).run s).1 := by
  unfold openCandidate
  rw [SearchM.run_bind, SearchM.run_lift]
  have same : w.forgetful.grammar.expansion k.expansion = w.grammar.expansion k.expansion := rfl
  rw [same]
  cases he : w.grammar.expansion k.expansion with
  | error f =>
      unfold block
      rw [he]
      rfl
  | ok e =>
      dsimp only
      rw [SearchM.run_bind, run_contextCount]
      dsimp only
      rw [SearchM.run_bind, run_enter]
      cases hx : s.arena.prepare w.grammar (some entry.context) (.expansion k.expansion) .identity 0 with
      | error err =>
          cases err with
          | grammar err =>
              rw [block_of_error he hx]
              exact .nothing
          | fault f =>
              rw [block_of_fault he hx]
              rfl
      | ok x =>
          rw [block_of_prepares ⟨he, hx⟩]
          dsimp only [settle]
          rw [SearchM.run_bind, run_meets]
          have verdict : ((w.forgetful.holds (entered w.forgetful x s).arena (s.arena.push x).1
            e.symbol.conditions).run ()).1 = w.verdict s.arena e x := rfl
          rw [verdict]
          rcases w.verdict s.arena e x with (_ | f) | b
          · exact .nothing
          · exact rfl
          · cases b with
            | false => exact .nothing
            | true =>
                have here : (entered w.forgetful x s).arena.get (s.arena.push x).1 = .ok x :=
                  Arena.get_push hs x
                dsimp only [settle, look]
                rw [if_pos rfl, SearchM.run_bind, run_context, here]
                dsimp only
                rw [SearchM.run_bind, SearchM.run_lift]
                have offers : offered w.forgetful e.target = offered w e.target := rfl
                rw [offers]
                cases offered w e.target with
                | error f => rfl
                | ok offers =>
                    dsimp only [Except.map]
                    cases ordered e.target x.seed offers with
                    | nil => exact .nothing
                    | cons o rest =>
                        have symbol : w.grammar.symbol x.symbol = .ok e.symbol := by
                          rw [Arena.symbol_of_prepare hx]
                          exact Grammar.symbol_expansion he
                        dsimp only
                        rw [SearchM.run_bind, run_assign here symbol]
                        exact .attempt _ o rest

end

/-! ### Enumerating -/

/-- The states of a search in which an entry whose context is at `h` may be asked for an attempt: the
contexts up to that one are those of the arena `a`. -/
structure Keeping (w : World Memory) (a : Arena) (h : Handle) (s : Search Memory) : Prop where
  trusted : Trusted w Memory.Holds s
  keeps : Arena.Keeps (h.slot + 1) a s.arena

/-- Asking for an attempt by `x`, and then over and over for the one after it, comes to the attempts of
a script, in whatever fitting states it is asked for them, and then to none. Where the script breaks
down, so does asking. -/
def Yields (w : World μ) (entry : RuleEntry) (Fits : Search μ → Prop) (x : SearchM μ (Option Attempt)) :
    List (Except Fault (Candidate × Attachment)) → Prop
  | [] => ∀ s, Fits s → ∃ s', Fits s' ∧ x.run s = (.ok none, s')
  | .error f :: _ => ∀ s, Fits s → (x.run s).1 = .error f
  | .ok o :: rest => ∀ s, Fits s → ∃ a s', Fits s' ∧ x.run s = (.ok (some a), s') ∧ a.entry = entry ∧
      (a.candidate, a.attachment) = o ∧ Yields w entry Fits (next w a) rest

def script (k : Candidate) : Except Fault (List Attachment) → List (Except Fault (Candidate × Attachment))
  | .ok offers => offers.map fun o => .ok (k, o)
  | .error f => [.error f]

namespace Yields

variable {w : World μ} {entry : RuleEntry} {Fits : Search μ → Prop}

/-- What can be asked for in a further fitting state can be asked for at once. -/
theorem of_run {x y : SearchM μ (Option Attempt)} {steps : List (Except Fault (Candidate × Attachment))}
    (hy : Yields w entry Fits y steps) (hxy : ∀ s, Fits s → ∃ s', Fits s' ∧ x.run s = y.run s') :
    Yields w entry Fits x steps := by
  cases steps with
  | nil =>
      intro s fits
      obtain ⟨s', fits', same⟩ := hxy s fits
      rw [same]
      exact hy s' fits'
  | cons step rest =>
      cases step with
      | error f =>
          intro s fits
          obtain ⟨s', fits', same⟩ := hxy s fits
          rw [same]
          exact hy s' fits'
      | ok o =>
          intro s fits
          obtain ⟨s', fits', same⟩ := hxy s fits
          rw [same]
          exact hy s' fits'

/-- An attempt is followed by its alternatives, and these by the attempts of the later candidates. -/
theorem next {later : List Candidate} {rest : List (Except Fault (Candidate × Attachment))}
    (hrest : Yields w entry Fits (openFirst w entry later) rest) (k : Candidate) (context : Handle)
    (o : Attachment) (alternatives : List Attachment) :
    Yields w entry Fits (Search.next w ⟨entry, k, context, o, alternatives, later⟩)
      (alternatives.map (fun o => .ok (k, o)) ++ rest) := by
  induction alternatives generalizing o with
  | nil => exact hrest
  | cons b alternatives ih => exact fun s fits => ⟨_, s, fits, rfl, rfl, rfl, ih b⟩

end Yields

section

variable {g : Grammar} {own : Prop} (hg : g.Built own) {p : Provider} {a : Arena} {entry : RuleEntry}
  (ha : a.Numbered) (ground : a.Grounded)

include hg ha ground

theorem Keeping.openCandidate {s : Search Memory}
    (keeping : Keeping (.remembering g p) a entry.context s) (k : Candidate) (later : List Candidate) :
    let run := (openCandidate (.remembering g p) entry k later).run s
    Agree (Heads entry k later) (block (.remembering g p) a entry.context k) run.1 ∧
      ∀ r s', run = (.ok r, s') → Keeping (.remembering g p) a entry.context s' := by
  intro run
  obtain ⟨trusted, keeps⟩ := keeping
  obtain ⟨agree, mirror⟩ := openCandidate_matches (mirror_forgotten hg.marked trusted) entry k later
  constructor
  · have heads : Agree (Heads entry k later) (block (.remembering g p) s.arena entry.context k) _ :=
      openCandidate_heads (s := s.forgotten) trusted.numbered
    have same : run.1 = _ := (agree.mono fun r r' (hr : r' = _) => by simpa using hr.symm).eq
    rw [same, RuleEntry.shift_zero, ← block_congr hg.marked keeps ha trusted.numbered ground
      trusted.ground]
    exact heads
  · intro r s' hr
    have grows : Grows (entry.context.slot + 1) s s' := by
      rcases openCandidate_ok trusted.numbered hr with ⟨_, same⟩ | ⟨b, e, x, _, opens⟩
      · exact same.grows keeps.le
      · exact opens.opens.grows keeps.le opens.plan
    have after : Trusted (.remembering g p) Memory.Holds run.2 := mirror.trusted
    rw [hr] at after
    exact ⟨after, keeps.trans grows.contexts⟩

/-- Entering one candidate after the other yields the attempts of each. -/
theorem openFirst_yields (candidates : List Candidate) :
    Yields (.remembering g p) entry (Keeping (.remembering g p) a entry.context)
      (openFirst (.remembering g p) entry candidates)
      (candidates.flatMap fun k => script k (block (.remembering g p) a entry.context k)) := by
  -- Induction on the candidates that are left: an attempt carries those after its own, so the script of
  -- the rest is what comes after the last alternative.
  induction candidates with
  | nil => exact fun s keeping => ⟨s, keeping, rfl⟩
  | cons k later ih =>
      rw [List.flatMap_cons]
      cases hb : block (.remembering g p) a entry.context k with
      | error f =>
          intro s keeping
          obtain ⟨heads, _⟩ := keeping.openCandidate hg ha ground k later
          rw [hb] at heads
          rw [openFirst, SearchM.run_bind]
          rcases hr : (openCandidate (.remembering g p) entry k later).run s with ⟨_ | r, s'⟩ <;>
            rw [hr] at heads
          · exact congrArg _ (heads : f = _).symm
          · exact heads.elim
      | ok offers =>
          -- There is an answer, which the first attachment decides on.
          have answered : ∀ s, Keeping (.remembering g p) a entry.context s → ∃ r s',
              Heads entry k later offers r ∧ Keeping (.remembering g p) a entry.context s' ∧
                (openCandidate (.remembering g p) entry k later).run s = (.ok r, s') := by
            intro s keeping
            obtain ⟨heads, keeps⟩ := keeping.openCandidate hg ha ground k later
            rw [hb] at heads
            obtain ⟨r, hr, heads⟩ := heads.ok_left
            exact ⟨r, _, heads, keeps r _ (Prod.ext hr rfl), Prod.ext hr rfl⟩
          cases offers with
          | nil =>
              refine ih.of_run fun s keeping => ?_
              obtain ⟨_, s', ⟨⟩, keeping', hr⟩ := answered s keeping
              exact ⟨s', keeping', by rw [openFirst, SearchM.run_bind, hr]⟩
          | cons o rest =>
              intro s keeping
              obtain ⟨r, s', heads, keeping', hr⟩ := answered s keeping
              cases heads with
              | attempt inner =>
                  refine ⟨_, s', keeping', ?_, rfl, rfl, ih.next k inner o rest⟩
                  rw [openFirst, SearchM.run_bind, hr]
                  rfl

end

/-! ### Nothing is repeated -/

/-- No attempt of a script comes up twice where no candidate does and none repeats an attachment. -/
theorem script_pairwise {candidates : List Candidate} (distinct : candidates.Nodup)
    {outcome : Candidate → Except Fault (List Attachment)}
    (nodup : ∀ k ∈ candidates, ∀ offers, outcome k = .ok offers → offers.Nodup) :
    (candidates.flatMap fun k => script k (outcome k)).Pairwise
      fun x y => ∀ o, x = .ok o → y ≠ .ok o := by
  have own : ∀ k r o, .ok o ∈ script k r → o.1 = k := by
    intro k r o ho
    cases r with
    | error f => simp [script] at ho
    | ok offers =>
        obtain ⟨_, _, heq⟩ := List.mem_map.1 ho
        cases heq
        rfl
  -- Within a block the attachments tell attempts apart, and the candidates do between two blocks.
  refine List.pairwise_flatMap.2 ⟨fun k hk => ?_, distinct.imp fun hne x hx y hy o hxo hyo => ?_⟩
  · cases hr : outcome k with
    | error f => exact List.pairwise_singleton _ _
    | ok offers =>
        refine List.pairwise_map.2 ((nodup k hk offers hr).imp fun hne o hx hy => hne ?_)
        cases hx
        cases hy
        rfl
  · subst hxo hyo
    exact hne ((own _ _ o hx).symm.trans (own _ _ o hy))

/-- A search that has just entered the first rule of a grammar on its own. -/
theorem rooted {g : Grammar} {own : Prop} (hg : g.Built own) (p : Provider) {c : Context}
    (hc : Arena.empty.prepare g none (.rule 0) .identity 0 = .ok c) :
    ∃ s : Search Memory, s.arena = (Arena.empty.push c).2 ∧ s.arena.Grown g ∧
      s.memory.Holds ((World.remembering g p).facts s.arena) s.arena.size ∧
      s.arena.get ⟨0, 0⟩ = .ok c := by
  let w := World.remembering g p
  let fresh : Search Memory := .new (.ofCache (.new 0 .standard))
  have used : Used w fresh := .new Cache.standardDraws 0 .standard
  have create : Arena.empty.create g none (.rule 0) .identity 0 = .ok (Arena.empty.push c) :=
    congrArg (Except.map Arena.empty.push) hc
  have run : (enter w none (.rule 0) .identity).run fresh =
      (.ok (.ok ⟨0, 0⟩), entered w c fresh) := by
    have created : fresh.arena.create w.grammar none (.rule 0) .identity fresh.plan.seed = _ := create
    simp only [enter, SearchM.run_bind, SearchM.run_get, created]
    rfl
  have trusted := (enter_matches (mirror_forgotten hg.marked (used.trusted hg)) none (.rule 0)
    .identity).2.trusted
  rw [run] at trusted
  exact ⟨entered w c fresh, rfl, .create .empty create, trusted.memory,
    Arena.get_push Arena.numbered_empty c⟩

/-- Whenever and however often a rule entry is asked for its next attempt, the attempts are those of
its candidates in their order, each once: those of a candidate that can be entered are what it offers,
and no other candidate has any. Asking ends, unless it breaks down at a candidate whose conditions come
to nothing. -/
theorem attempts_are_enumerated {g : Grammar} (hg : g.Built True) (p : Provider) {s : Search Memory}
    (grown : s.arena.Grown g)
    (holds : s.memory.Holds ((World.remembering g p).facts s.arena) s.arena.size)
    {entry : RuleEntry} {c : Context} {id : RuleId} {r : Rule}
    (live : s.arena.get entry.context = .ok c) (rule : g.rule id = .ok r) :
    let world := World.remembering g p
    let candidates := r.candidates (Seed.hash candidateSalt c.seed)
    let Fits := Keeping world s.arena entry.context
    Fits s ∧ ∃ outcome : Candidate → Except Fault (List Attachment),
      (∀ k ∈ candidates, world.Settles s.arena entry.context k (outcome k)) ∧
      (candidates.flatMap fun k => script k (outcome k)).Pairwise
        (fun x y => ∀ o, x = .ok o → y ≠ .ok o) ∧
      Yields world entry Fits (openFirst world entry candidates)
        (candidates.flatMap fun k => script k (outcome k)) := by
  intro world candidates Fits
  have sane := grown.sane hg.closed
  have lives : Lives s.arena.live entry.context :=
    ⟨c, (Arena.mem_live_iff sane.numbered).2 live⟩
  have known := known_candidates (w := world) hg.closed rule (Seed.hash candidateSalt c.seed)
  have settles := fun k hk => block_settles (w := world) hg sane lives (known k hk)
  have distinct : candidates.Nodup := Grammar.nodup_candidates hg rule _
  refine ⟨⟨⟨sane.numbered, sane.ground, holds⟩, .refl (Arena.slot_lt_of_get live)⟩,
    block world s.arena entry.context, fun k hk => (settles k hk).1, ?_, ?_⟩
  · exact script_pairwise distinct fun k hk => (settles k hk).2
  · exact openFirst_yields hg sane.numbered sane.ground candidates

theorem attempts_are_enumerated_house :
    let world := World.remembering house.compile .none
    ∃ (s : Search Memory) (c : Context) (r : Rule), s.arena.Grown house.compile ∧
      s.memory.Holds (world.facts s.arena) s.arena.size ∧ s.arena.get ⟨0, 0⟩ = .ok c ∧
      house.compile.rule 0 = .ok r ∧ ∃ outcome : Candidate → Except Fault (List Attachment),
        (∀ k ∈ r.candidates (Seed.hash candidateSalt c.seed),
          world.Settles s.arena ⟨0, 0⟩ k (outcome k)) ∧
        Yields world ⟨.unspecified, ⟨0, 0⟩⟩ (Keeping world s.arena ⟨0, 0⟩)
          (openFirst world ⟨.unspecified, ⟨0, 0⟩⟩ (r.candidates (Seed.hash candidateSalt c.seed)))
          ((r.candidates (Seed.hash candidateSalt c.seed)).flatMap fun k => script k (outcome k)) := by
  intro world
  obtain ⟨c, hc⟩ : ∃ c, Arena.empty.prepare house.compile none (.rule 0) .identity 0 = .ok c := by
    have made : (Arena.empty.prepare house.compile none (.rule 0) .identity 0).toOption.isSome := by
      decide +kernel
    cases hx : Arena.empty.prepare house.compile none (.rule 0) .identity 0 with
    | error e =>
        rw [hx] at made
        cases made
    | ok c => exact ⟨c, rfl⟩
  obtain ⟨r, hr⟩ : ∃ r, house.compile.rule 0 = .ok r := Fault.lookup_of_lt (by decide +kernel)
  obtain ⟨s, _, grown, holds, live⟩ := rooted built_house .none hc
  have here : s.arena.get (RuleEntry.mk .unspecified ⟨0, 0⟩).context = .ok c := live
  obtain ⟨_, outcome, settles, _, yields⟩ :=
    attempts_are_enumerated built_house .none grown holds here hr
  exact ⟨s, c, r, grown, holds, live, hr, outcome, settles, yields⟩

/-- A site that is never left empty: what the provider knows is looked at before the false condition. -/
def gated : Draft :=
  .ofStatements
    [.rule "site", .toNothing 0, .external 0 .bool, .constant (.bool false),
      .condition (.expansion 0) 0, .condition (.expansion 0) 1]

def BreaksOff (g : Grammar) (p : Provider) (f : Fault) : Prop :=
  let world := World.remembering g p
  g.Built True ∧ ∃ (s : Search Memory) (entry : RuleEntry) (c : Context) (id : RuleId) (r : Rule),
    s.arena.Grown g ∧ s.memory.Holds (world.facts s.arena) s.arena.size ∧
      s.arena.get entry.context = .ok c ∧ g.rule id = .ok r ∧
      ((openFirst world entry (r.candidates (Seed.hash candidateSalt c.seed))).run s).1 = .error f

theorem breaksOff_of_block {g : Grammar} (hg : g.Built True) {p : Provider} {c : Context} {r : Rule}
    {k : Candidate} {later : List Candidate} {f : Fault}
    (hc : Arena.empty.prepare g none (.rule 0) .identity 0 = .ok c) (hr : g.rule 0 = .ok r)
    (first : r.candidates (Seed.hash candidateSalt c.seed) = k :: later)
    (hb : block (.remembering g p) (Arena.empty.push c).2 ⟨0, 0⟩ k = .error f) : BreaksOff g p f := by
  obtain ⟨s, arena, grown, holds, live⟩ := rooted hg p hc
  let entry : RuleEntry := ⟨.unspecified, ⟨0, 0⟩⟩
  have sane := grown.sane hg.closed
  have yields : Yields (.remembering g p) entry _ _ _ :=
    openFirst_yields hg sane.numbered sane.ground (k :: later)
  rw [List.flatMap_cons, arena, hb, ← arena] at yields
  refine ⟨hg, s, entry, c, 0, r, grown, holds, live, hr, ?_⟩
  rw [first]
  exact yields s ⟨⟨sane.numbered, sane.ground, holds⟩, .refl (Arena.slot_lt_of_get live)⟩

/-- Asking breaks off at a condition that the provider does not answer, although another condition of
the candidate is false. -/
theorem attempts_may_break_off :
    BreaksOff gated.compile ⟨fun _ => some .varying, fun _ _ => none⟩ .brokenProvider := by
  have built : gated.compile.Built True :=
    Draft.built_ofStatements (by decide +kernel) (by decide +kernel)
  exact breaksOff_of_block built (by with_unfolding_all rfl) (by with_unfolding_all rfl)
    (by with_unfolding_all rfl) (by decide +kernel)

end Search

end VoxelGrammar
