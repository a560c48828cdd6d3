import Mathlib.Logic.Relation
import VoxelGrammar.Proofs.Entries
import VoxelGrammar.Proofs.Independence
import VoxelGrammar.Proofs.Resumption

/-!
What it means that there is no solution. A search that may choose resolves the entry at its cursor
by any attempt and never takes a choice back. A search that tries one attempt after the other opens
a branch before an attempt is carried out, so that the attempts after it are still to come. Only an
attempt to place nothing opens no branch; the attempts after it are lost. So when the search has run
out of branches, no choices lead to the end of the queue, as long as no attempt to place nothing is
passed over. In a grammar whose rules give up last there is nothing to be had by passing one over,
and no choices lead to the end of the queue at all.
-/

namespace VoxelGrammar

open Relation

variable {μ ν : Type}

def Attempt.Demands (g : Grammar) (a : Attempt) : Prop :=
  ∀ e, g.expansion a.candidate.expansion = .ok e → e.target ≠ .nothing

def Grammar.GivesUpLast (g : Grammar) : Prop :=
  ∀ id r seed c later e, g.rule id = .ok r → c :: later <:+ r.candidates seed →
    g.expansion c.expansion = .ok e → e.target = .nothing → later = []

/-- The attempt goes with all candidates that its rule tries after its own. There is one way only to
place nothing. -/
structure Attempt.Listed (g : Grammar) (a : Attempt) : Prop where
  order : ∃ id r seed, g.rule id = .ok r ∧ a.candidate :: a.later <:+ r.candidates seed
  once : ∀ e, g.expansion a.candidate.expansion = .ok e → e.target = .nothing → a.alternatives = []

/-- Where giving up comes last, nothing comes after an attempt to place nothing. -/
theorem Attempt.Listed.last {g : Grammar} {a : Attempt} (h : a.Listed g) (last : g.GivesUpLast)
    (idle : ¬ a.Demands g) : a.alternatives = [] ∧ a.later = [] := by
  obtain ⟨⟨id, r, seed, rule, order⟩, once⟩ := h
  unfold Attempt.Demands at idle
  push Not at idle
  obtain ⟨e, he, target⟩ := idle
  exact ⟨once e he target, last id r seed _ _ e rule order he target⟩

namespace Search

/-! ### Choosing attempts -/

/-- One move of a search that may choose: the attempt at the cursor is passed over for the next one,
or it is carried out and the entry is resolved. Only some attempts may be passed over. -/
inductive Chooses (w : World μ) (passable : Attempt → Prop) (s : Search μ) : Search μ → Prop
  | pass {a : Attempt} {following : Option Attempt} {s₁ : Search μ}
      (current : s.plan.queue[s.plan.cursor]? = some (some a)) (left : passable a)
      (next : (next w a).run s = (.ok following, s₁)) : Chooses w passable s (advanced following s₁)
  | take {a : Attempt} {following : Option Attempt} {s₁ s₂ : Search μ}
      (current : s.plan.queue[s.plan.cursor]? = some (some a))
      (next : (next w a).run s = (.ok following, s₁))
      (attempt : (attempt w a).run (advanced following s₁) = (.ok true, s₂)) :
      Chooses w passable s (passed s₂)

def Completed (s : Search μ) : Prop := s.plan.queue ≠ #[] ∧ s.plan.queue[s.plan.cursor]? = none

def Hopeful (w : World μ) (passable : Attempt → Prop) (s : Search μ) : Prop :=
  ∃ t, ReflTransGen (Chooses w passable) s t ∧ t.Completed

namespace Hopeful

variable {w : World μ} {passable : Attempt → Prop} {s s' : Search μ}

theorem head (move : Chooses w passable s s') (h : Hopeful w passable s') : Hopeful w passable s := by
  obtain ⟨t, run, completed⟩ := h
  exact ⟨t, .head move run, completed⟩

/-- While there is hope, the entry at the cursor has not run out of attempts. -/
theorem not_given_up (h : Hopeful w passable s) : s.plan.queue[s.plan.cursor]? ≠ some none := by
  obtain ⟨t, run, completed⟩ := h
  intro given
  rcases ReflTransGen.cases_head run with rfl | ⟨u, move, _⟩
  · cases completed.2.symm.trans given
  · cases move with
    | pass current => cases given.symm.trans current
    | take current => cases given.symm.trans current

/-- The hope lies in passing the present attempt over or in carrying it out. -/
theorem at_cursor (h : Hopeful w passable s) {a : Attempt} {following : Option Attempt}
    {s₁ : Search μ} (current : s.plan.queue[s.plan.cursor]? = some (some a))
    (next : (next w a).run s = (.ok following, s₁)) :
    passable a ∧ Hopeful w passable (advanced following s₁) ∨
      ∃ s₂, (attempt w a).run (advanced following s₁) = (.ok true, s₂) ∧
        Hopeful w passable (passed s₂) := by
  obtain ⟨t, run, completed⟩ := h
  rcases ReflTransGen.cases_head run with rfl | ⟨u, move, rest⟩
  · cases completed.2.symm.trans current
  · cases move with
    | pass current' left next' =>
        obtain rfl := Option.some.inj (Option.some.inj (current.symm.trans current'))
        cases next.symm.trans next'
        exact .inl ⟨left, t, rest, completed⟩
    | take current' next' attempt =>
        obtain rfl := Option.some.inj (Option.some.inj (current.symm.trans current'))
        cases next.symm.trans next'
        exact .inr ⟨_, attempt, t, rest, completed⟩

/-- While the queue is empty, there is nothing to hope for. -/
theorem filled (h : Hopeful w passable s) : s.plan.queue ≠ #[] := by
  obtain ⟨t, run, completed⟩ := h
  rcases ReflTransGen.cases_head run with rfl | ⟨u, move, _⟩
  · exact completed.1
  · intro empty
    cases move with
    | pass current => simp [empty] at current
    | take current => simp [empty] at current

/-- Whether there is hope does not depend on how many attempts there were. -/
theorem recount (h : Hopeful w passable s) : ∀ n, Hopeful w passable (recount n s) := by
  obtain ⟨t, run, completed⟩ := h
  intro n
  induction run using ReflTransGen.head_induction_on with
  | refl => exact ⟨_, .refl, completed⟩
  | @head s u move _ ih =>
      cases move with
      | @pass a following s₁ current left next =>
          have counted := ((Countless.frame w).abreast.next a).2 s n
          rw [next] at counted
          exact head (.pass current left counted) ih
      | @take a following s₁ s₂ current next attempt =>
          have counted := ((Countless.frame w).abreast.next a).2 s n
          rw [next] at counted
          have counted' := attempt_countless w a (advanced following s₁) n
          rw [attempt] at counted'
          exact head (.take current counted counted') ih

end Hopeful

end Search

section

variable {w : World μ} {v : World ν} {t : Twins w v} {σ : Nat → UInt32} {s : Search μ}
  {s' : Search ν}

theorem Mirror.advanced (hs : Mirror t σ s s') (following : Option Attempt) :
    Mirror t σ (Search.advanced following s) (Search.advanced (following.map (·.shift σ)) s') := by
  refine ⟨hs.arena, hs.ground, ?_, hs.memory, hs.memory'⟩
  rw [Search.advanced, Search.advanced, hs.plan]
  simp [Plan.shift, Queue.shift]

theorem Mirror.passed (hs : Mirror t σ s s') : Mirror t σ (Search.passed s) (Search.passed s') := by
  refine ⟨hs.arena, hs.ground, ?_, hs.memory, hs.memory'⟩
  rw [Search.passed, Search.passed, hs.plan]
  rfl

theorem Mirror.completed (hs : Mirror t σ s s') (completed : s.Completed) : s'.Completed := by
  refine ⟨fun empty => completed.1 ?_, ?_⟩
  · have size : s'.plan.queue.size = s.plan.queue.size := by
      rw [hs.plan]
      exact Search.Queue.size_shift _
    rw [empty] at size
    exact Array.eq_empty_of_size_eq_zero size.symm
  · rw [hs.current, completed.2]
    rfl

/-- Searches that have come the same way may choose alike. -/
theorem Search.Hopeful.mirror {passable : Attempt → Prop}
    (indifferent : ∀ a, passable a → passable (a.shift σ)) (h : Search.Hopeful w passable s)
    (hs : Mirror t σ s s') : Search.Hopeful v passable s' := by
  obtain ⟨u, run, completed⟩ := h
  induction run using ReflTransGen.head_induction_on generalizing s' with
  | refl => exact ⟨s', .refl, hs.completed completed⟩
  | head move _ ih =>
      cases move with
      | @pass a following s₁ current left next =>
          obtain ⟨_, s₁', next', rfl, hs₁⟩ := (Search.next_matches hs a).ok next
          refine head (.pass ?_ (indifferent a left) next') (ih (hs₁.advanced _))
          rw [hs.current, current]
          rfl
      | @take a following s₁ s₂ current next attempt =>
          obtain ⟨_, s₁', next', rfl, hs₁⟩ := (Search.next_matches hs a).ok next
          obtain ⟨_, s₂', attempt', rfl, hs₂⟩ :=
            (Search.attempt_matches (hs₁.advanced following) a).ok attempt
          refine head (.take ?_ next' attempt') (ih hs₂.passed)
          rw [hs.current, current]
          rfl

end

namespace Search

/-! ### Giving up -/

section

variable {own : Prop} {w : World μ} {s s' : Search Unit}

/-- Some choices lead to the end of the queue, and no attempt to place nothing is passed over. -/
abbrev Promising (w : World μ) (s : Search Unit) : Prop :=
  Hopeful w.forgetful (Attempt.Demands w.grammar) s

/-- There is as much hope as in a search with the same plan and live contexts, whatever the count
of attempts. -/
theorem promising_of_same (marked : w.grammar.Marked) (secure : Secure w.forgetful s) {n : Nat}
    (same : Same (recount n s) s') (h : Promising w s) : Promising w s' := by
  have secure' : Secure w.forgetful (recount n s) := secure.replan rfl rfl rfl rfl rfl
  exact (h.recount n).mirror (fun _ demands => demands) (secure'.mirror marked same)

structure Hopeless (w : World μ) (s : Search Unit) : Prop where
  present : ¬ Promising w s
  undone : ∀ c rest, c :: rest <:+ s.plan.checkpoints → ¬ Promising w (undone w.forgetful c rest s)

structure Deepens (s s' : Search Unit) : Prop where
  numbered : s'.arena.Numbered
  found : ∀ c ∈ s.plan.checkpoints, s'.foundBy c = s.foundBy c
  seed : s'.plan.seed = s.plan.seed
  solved : s'.plan.solved = s.plan.solved
  checkpoints : s.plan.checkpoints <:+ s'.plan.checkpoints

theorem Deepens.trans {s₁ : Search Unit} (h : Deepens s s₁) (h' : Deepens s₁ s') : Deepens s s' where
  numbered := h'.numbered
  found c hc := (h'.found c (h.checkpoints.subset hc)).trans (h.found c hc)
  seed := h'.seed.trans h.seed
  solved := h'.solved.trans h.solved
  checkpoints := h.checkpoints.trans h'.checkpoints

theorem Deepens.passed (h : Deepens s s') : Deepens s (passed s') :=
  ⟨h.numbered, h.found, h.seed, h.solved, h.checkpoints⟩

theorem deepens_of_grows (secure : Secure w.forgetful s) (grows : Grows s.arena.size s s') :
    Deepens s s' where
  numbered := grows.numbered
  found c hc := foundBy_grows grows (secure.kept.fits c hc).contexts (secure.kept.fits c hc)
  seed := grows.seed
  solved := grows.solved
  checkpoints := grows.checkpoints ▸ List.suffix_refl _

theorem deepens_of_next (secure : Secure w.forgetful s) {a : Attempt} {following : Option Attempt}
    (hr : (next w.forgetful a).run s = (.ok following, s')) : Deepens s (advanced following s') := by
  obtain ⟨grows, _⟩ := next_grows secure.kept.numbered (Nat.le_refl _) hr
  obtain ⟨numbered, found, seed, solved, checkpoints⟩ := deepens_of_grows secure grows
  exact ⟨numbered, found, seed, solved, checkpoints⟩

theorem deepens_of_attempt (secure : Secure w.forgetful s) {a : Attempt} {done : Bool}
    (hr : (attempt w.forgetful a).run s = (.ok done, s')) : Deepens s s' := by
  rcases attempt_ok secure.kept.numbered hr with ⟨_, same⟩ | ⟨_, e, _, carries⟩
  · exact deepens_of_grows secure (same.grows (Nat.le_refl _))
  · rcases carries.grows with rfl | grows
    · exact ⟨secure.kept.numbered, fun _ _ => rfl, rfl, rfl, List.suffix_refl _⟩
    · refine ⟨grows.numbered, fun c hc => ?_, grows.seed, grows.solved, carries.checkpoints⟩
      have fits := secure.kept.fits c hc
      exact foundBy_grows (s := branched s.arena.size s) grows fits.contexts fits

/-- If the branches are hopeless later on, they are so now. -/
theorem Hopeless.earlier (h : Hopeless w s') (marked : w.grammar.Marked)
    (secure : Secure w.forgetful s) (deepens : Deepens s s') (present : ¬ Promising w s) :
    Hopeless w s where
  present := present
  undone := by
    intro c rest hsuffix promising
    have same := same_undone w.forgetful rest deepens.numbered
      (deepens.found c (hsuffix.subset List.mem_cons_self)) deepens.seed deepens.solved
    exact h.undone c rest (hsuffix.trans deepens.checkpoints)
      (promising_of_same marked (secure.undone hsuffix) same promising)

/-- An attempt that demands something opens a branch, and undoing it leads back to where it was. -/
theorem Carries.branch {a : Attempt} {e : Expansion} (carries : Carries w.forgetful a s s' e)
    (demands : e.target ≠ .nothing) :
    ∃ c, s'.plan.checkpoints = c :: s.plan.checkpoints ∧
      Same s (undone w.forgetful c s.plan.checkpoints s') := by
  have grows : Grows s.arena.size (branched s.arena.size s) s' := by
    cases carries with
    | nothing target _ => exact absurd target demands
    | rule _ enters => exact enters.grows (Nat.le_refl _)
    | component _ places => exact places.grows
  refine ⟨_, grows.checkpoints, same_undo grows rfl ?_ (run_undo grows.checkpoints)⟩
  rw [← Arena.length_live, List.take_length]

/-- Where trying an attempt leads to a hopeless search, the search has been hopeless before: what
passing the attempt over leads to is there once its branch has been undone, if not at once. -/
theorem hopeless_of_attempt (closed : w.grammar.Closed own) (marked : w.grammar.Marked)
    (secure : Secure w.forgetful s) {a : Attempt} {following : Option Attempt} {s₁ s₂ : Search Unit}
    {done : Bool} (current : s.plan.queue[s.plan.cursor]? = some (some a))
    (hnext : (next w.forgetful a).run s = (.ok following, s₁))
    (hattempt : (attempt w.forgetful a).run (advanced following s₁) = (.ok done, s₂))
    (h : Hopeless w (if done then passed s₂ else s₂)) : Hopeless w s := by
  have secure₁ : Secure w.forgetful (advanced following s₁) :=
    Secure.advanced (w := w.forgetful) closed secure current hnext
  have deepens := (deepens_of_next secure hnext).trans (deepens_of_attempt secure₁ hattempt)
  rcases attempt_ok secure₁.kept.numbered hattempt with ⟨rfl, same⟩ | ⟨rfl, e, he, carries⟩
  · -- A failed attempt leaves what passing it over leads to.
    refine h.earlier marked secure deepens fun promising => ?_
    rcases promising.at_cursor current hnext with ⟨_, promising⟩ | ⟨s₂', hrun, _⟩
    · exact h.present (promising_of_same marked secure₁ (n := _) same promising)
    · cases hattempt.symm.trans hrun
  · -- One that succeeds has opened a branch, unless it is to place nothing.
    refine h.earlier marked secure deepens.passed fun promising => ?_
    rcases promising.at_cursor current hnext with ⟨demands, promising⟩ | ⟨s₂', hrun, promising⟩
    · obtain ⟨c, opened, same⟩ := carries.branch (demands e he)
      refine h.undone c (advanced following s₁).plan.checkpoints ?_ ?_
      · exact opened ▸ List.suffix_refl _
      · exact promising_of_same marked secure₁ (n := _) same promising
    · cases hattempt.symm.trans hrun
      exact h.present promising

/-- Where undoing a branch leads to a hopeless search, the search has been hopeless before. -/
theorem hopeless_of_undone (marked : w.grammar.Marked) (secure : Secure w.forgetful s)
    {c : Checkpoint} {rest : List Checkpoint} (hc : s.plan.checkpoints = c :: rest)
    (current : s.plan.queue[s.plan.cursor]? = some none)
    (h : Hopeless w (undone w.forgetful c rest s)) : Hopeless w s where
  present promising := promising.not_given_up current
  undone := by
    intro d more hsuffix promising
    rcases List.suffix_cons_iff.1 (hc ▸ hsuffix) with heq | earlier
    · obtain ⟨rfl, rfl⟩ := List.cons.inj heq
      exact h.present promising
    · have nested := secure.kept.nested
      rw [hc] at nested
      have fits := (List.pairwise_cons.1 nested).1 d (earlier.subset List.mem_cons_self)
      have found : (Search.undone w.forgetful c rest s).foundBy d = s.foundBy d :=
        foundBy_undone fits
      have same := same_undone w.forgetful more (Arena.numbered_truncate secure.kept.numbered _)
        found rfl rfl
      exact h.undone d more earlier (promising_of_same marked (secure.undone hsuffix) same promising)

/-- Where a step leads to a hopeless search, the search has been hopeless before. -/
theorem hopeless_of_step (closed : w.grammar.Closed own) (marked : w.grammar.Marked)
    (secure : Secure w.forgetful s) {limits : Limits}
    (hr : (step w.forgetful limits).run s = (.ok none, s')) (h : Hopeless w s') : Hopeless w s := by
  obtain ⟨entry, current, hresolve⟩ := step_resolves hr
  have counts : Secure w.forgetful (counted s) := secure.replan rfl rfl rfl rfl rfl
  have hopeless : Hopeless w (counted s) := by
    cases entry with
    | none =>
        obtain ⟨c, rest, hc, rfl⟩ := undo_ok hresolve
        exact hopeless_of_undone marked counts hc current h
    | some a =>
        obtain ⟨following, s₁, done, s₂, hnext, hattempt, rfl⟩ := resolve_tries hresolve
        exact hopeless_of_attempt closed marked counts current hnext hattempt h
  exact ⟨fun promising => hopeless.present (promising.recount _),
    fun c rest hs promising => hopeless.undone c rest hs (promising.recount _)⟩

/-! ### Running out of branches -/

/-- The queue has not been shorter when the open branches were opened, later ones no longer than
it is. -/
def Stacked (s : Search Unit) : Prop :=
  (s.plan.queue.size :: s.plan.checkpoints.map (·.queue.size)).Pairwise (· ≥ ·)

theorem Stacked.grows {n : Nat} (h : s.Stacked) (grows : Grows n s s') : s'.Stacked := by
  obtain ⟨top, rest⟩ := List.pairwise_cons.1 h
  rw [Stacked, grows.checkpoints]
  exact List.pairwise_cons.2 ⟨fun k hk => Nat.le_trans (top k hk) grows.queue, rest⟩

theorem Stacked.branched (h : s.Stacked) (n : Nat) : (branched n s).Stacked :=
  List.pairwise_cons.2 ⟨List.forall_mem_cons.2 ⟨Nat.le_refl _, (List.pairwise_cons.1 h).1⟩, h⟩

theorem Steps.stacked {r : Option (Except SearchFailure Unit)} (hs : s.arena.Numbered)
    (hstep : Steps w.forgetful s r s') (h : s.Stacked) : s'.Stacked := by
  cases hstep with
  | finished => exact h
  | exhausted => exact h
  | stopped => exact h
  | tried current resolves =>
      have looked : ∀ {a following s₁},
          (next w.forgetful a).run (counted s) = (.ok following, s₁) →
          (advanced following s₁).Stacked := by
        intro a following s₁ hnext
        have hplan := (next_grows (s := counted s) hs (Nat.le_refl _) hnext).2
        simpa [Stacked, advanced, hplan, counted] using h
      cases resolves with
      | undone run =>
          obtain ⟨c, rest, hc, rfl⟩ := undo_ok run
          have hc : s.plan.checkpoints = c :: rest := hc
          rw [Stacked, hc] at h
          exact (List.pairwise_cons.1 h).2
      | failed hnext same => exact (looked hnext).grows (same.grows (Nat.zero_le _))
      | @carried _ _ _ s₂ _ hnext _ carries =>
          have stacked : s₂.Stacked := by
            rcases carries.grows with rfl | grows
            · exact looked hnext
            · exact ((looked hnext).branched _).grows grows
          exact stacked

theorem setup_stacked {rule : RuleId} {origin : Pos} {seed : Seed}
    (hr : (setup w.forgetful rule origin seed).run s = (.ok (), s')) : s'.Stacked := by
  have starts : (started w.forgetful origin seed s).Stacked := by
    simp [Stacked, started, branched, Plan.blank]
  rcases setup_ok hr with same | ⟨r, x, a, enters⟩
  · exact starts.grows (same.grows (Nat.zero_le _))
  · exact starts.grows (enters.grows (Nat.zero_le _))

/-- Once the queue is empty, all hope is gone. -/
theorem Stacked.hopeless (h : s.Stacked) (empty : s.plan.queue = #[]) : Hopeless w s where
  present promising := promising.filled empty
  undone := by
    intro c rest hsuffix promising
    have shorter := (List.pairwise_cons.1 h).1 c.queue.size
      (List.mem_map_of_mem (hsuffix.subset List.mem_cons_self))
    rw [empty] at shorter
    exact promising.filled (Array.eq_empty_of_size_eq_zero (Nat.le_zero.1 shorter))

/-- A search that finds no solution has been hopeless from its first attempt on. -/
theorem hopeless_of_process (closed : w.grammar.Closed own) (marked : w.grammar.Marked)
    (secure : Secure w.forgetful s) (stacked : s.Stacked) {limits : Limits} {n : Nat}
    (hr : (process w.forgetful limits).run s = (.ok (.error (.noSolution n)), s')) :
    Hopeless w s := by
  unfold process at hr
  revert hr
  induction limits.expansions + 1 generalizing s with
  | zero =>
      intro hr
      cases hr
  | succ k ih =>
      intro hr
      obtain ⟨result, s₁, hstep, hr⟩ := SearchM.bind_ok hr
      have steps := step_ok secure.kept.numbered hstep
      cases result with
      | none =>
          have stacked₁ := steps.stacked secure.kept.numbered stacked
          have hopeless := ih (steps.secure closed secure) stacked₁ hr
          exact hopeless_of_step closed marked secure hstep hopeless
      | some result =>
          cases hr
          cases steps with
          | exhausted empty => exact stacked.hopeless empty
          | stopped limit =>
              unfold stopped? at limit
              split at limit
              · cases limit
              · split at limit <;> cases limit

end

/-! ### Giving up last -/

section

variable {w : World μ} {s s' : Search μ}

theorem OpensFirst.listed {entry : RuleEntry} {candidates : List Candidate} {a : Attempt}
    (h : OpensFirst w entry candidates s a s') {id : RuleId} {r : Rule} {seed : Seed}
    (rule : w.grammar.rule id = .ok r) (order : candidates <:+ r.candidates seed) :
    a.Listed w.grammar := by
  obtain ⟨s₁, c, later, e, x, _, suffix, opens⟩ := h
  have candidate : a.candidate = c := congrArg Attempt.candidate opens.attempt
  have rest : a.later = later := congrArg Attempt.later opens.attempt
  refine ⟨⟨id, r, seed, rule, ?_⟩, fun e' he target => ?_⟩
  · rw [candidate, rest]
    exact suffix.trans order
  · obtain ⟨offers, offered, ordered⟩ := opens.attachments
    rw [candidate, opens.expansion] at he
    cases he
    rw [target] at offered ordered
    cases offered
    exact (List.cons.inj ordered).2.symm

theorem Follows.listed {a b : Attempt} (h : Follows w a s b s') (listed : a.Listed w.grammar) :
    b.Listed w.grammar := by
  obtain ⟨⟨id, r, seed, rule, order⟩, once⟩ := listed
  cases h with
  | alternative first attempt _ =>
      rw [attempt]
      refine ⟨⟨id, r, seed, rule, order⟩, fun e he target => ?_⟩
      rw [once e he target] at first
      cases first
  | candidate opens => exact opens.listed rule ((List.suffix_cons _ _).trans order)

def Listed (g : Grammar) (s : Search μ) : Prop := ∀ a, some a ∈ s.plan.queue → a.Listed g

theorem lasting_listed : Lasting w (Attempt.Listed w.grammar) where
  first first rule order := first.listed rule order
  follows follows := follows.listed

theorem setup_listed {rule : RuleId} {origin : Pos} {seed : Seed}
    (hr : (setup w rule origin seed).run s = (.ok (), s')) :
    s'.arena.Numbered ∧ s'.Listed w.grammar := by
  refine ⟨?_, setup_queues lasting_listed hr⟩
  rcases setup_ok hr with same | ⟨_, _, _, enters⟩
  · exact same.numbered
  · exact (enters.grows (Nat.le_refl _)).numbered

/-- Where giving up comes last, passing over an attempt to place nothing leads nowhere, so choices
that lead to the end of the queue do without. -/
theorem demanding (last : w.grammar.GivesUpLast) {t : Search μ}
    (run : ReflTransGen (Chooses w fun _ => True) s t) (completed : t.Completed)
    (numbered : s.arena.Numbered) (listed : s.Listed w.grammar) :
    ReflTransGen (Chooses w (Attempt.Demands w.grammar)) s t := by
  induction run using ReflTransGen.head_induction_on with
  | refl => exact .refl
  | @head s u move rest ih =>
      cases move with
      | @pass a following s₁ current left next =>
          have grows := (next_grows numbered (Nat.le_refl _) next).1
          have later := ih grows.numbered (advanced_queues lasting_listed numbered current next listed)
          by_cases demands : a.Demands w.grammar
          · exact .head (.pass current demands next) later
          · obtain ⟨alternatives, others⟩ :=
              (listed a (Array.mem_of_getElem? current)).last last demands
            obtain ⟨rfl, rfl⟩ : following = none ∧ s = s₁ := by
              unfold Search.next at next
              rw [alternatives, others] at next
              cases next
              exact ⟨rfl, rfl⟩
            have given : (advanced none s).plan.queue[s.plan.cursor]? = some none := by
              simp [advanced, (Array.getElem?_eq_some_iff.1 current).1]
            exact (Hopeful.not_given_up ⟨t, later, completed⟩ given).elim
      | @take a following s₁ s₂ current next attempt =>
          have grows := (next_grows numbered (Nat.le_refl _) next).1
          have listed₁ := advanced_queues lasting_listed numbered current next listed
          obtain ⟨e, _, carries⟩ := attempt_true (s := advanced following s₁) grows.numbered attempt
          have listed₂ : s₂.Listed w.grammar := carries.queues lasting_listed listed₁
          exact .head (.take current next attempt) (ih (carries.numbered grows.numbered) listed₂)

end

/-- If a search finds no solution, then no choices lead to the end of the queue as long as no
attempt to place nothing is passed over. Where giving up comes last, no choices do at all. -/
theorem no_solution_is_exhaustive {g : Grammar} {own : Prop} (hg : g.Built own) (p : Provider)
    {rule : RuleId} {origin : Pos} {seed : Seed} {limits : Limits} {s begun s' : Search Memory}
    {n : Nat} (used : Used (.remembering g p) s)
    (start : (setup (.remembering g p) rule origin seed).run s = (.ok (), begun))
    (run : (process (.remembering g p) limits).run begun = (.ok (.error (.noSolution n)), s')) :
    (∀ t, ReflTransGen (Chooses (.remembering g p) (Attempt.Demands g)) begun t → ¬ t.Completed) ∧
      (g.GivesUpLast →
        ∀ t, ReflTransGen (Chooses (.remembering g p) fun _ => True) begun t → ¬ t.Completed) := by
  let w := World.remembering g p
  -- The same search without a memory fails in the same way.
  obtain ⟨_, u, setup', _, mirror⟩ :=
    (setup_forgotten hg.marked (used.trusted hg) rule origin seed).ok start
  obtain ⟨_, u', process', rfl, _⟩ := (process_matches mirror limits).ok run
  have hopeless := hopeless_of_process hg.closed hg.marked
    (setup_secure (w := w.forgetful) hg.closed setup') (setup_stacked setup') process'
  have exhaustive : ∀ t, ReflTransGen (Chooses w (Attempt.Demands g)) begun t → ¬ t.Completed := by
    intro t choices completed
    have hopeful : Hopeful w (Attempt.Demands g) begun := ⟨t, choices, completed⟩
    exact hopeless.present (hopeful.mirror (fun _ demands => demands) mirror)
  refine ⟨exhaustive, fun last t choices completed => ?_⟩
  obtain ⟨numbered, listed⟩ := setup_listed (w := w) start
  exact exhaustive t (demanding (w := w) last choices completed numbered listed) completed

/-- Stairs that can only lead to an attic, and an attic that can lead nowhere. -/
def stairs : Draft where
  rules := #[⟨⟨.named "stairs", [0], []⟩, true⟩, ⟨⟨.named "attic", [], []⟩, true⟩]
  expansions := #[⟨.named "stairs#0", 0, .rule 1, false⟩]
  components := #[]
  fields := #[]
  error := none

theorem built_stairs : stairs.compile.Built True := by
  let lower : Draft := ⟨#[⟨⟨.named "stairs", [], []⟩, true⟩], #[], #[], #[], none⟩
  let both : Draft := { lower with rules := lower.rules.push ⟨⟨.named "attic", [], []⟩, true⟩ }
  have first : (Statement.rule "stairs").run.run .empty = .ok (some 0, lower) := by
    simp [Statement.run, Draft.rule, Draft.ruleRef, Draft.amendRule, Draft.amend, Draft.empty, lower]
  have second : (Statement.rule "attic").run.run lower = .ok (some 1, both) := by
    simp [Statement.run, Draft.rule, Draft.ruleRef, Draft.amendRule, Draft.amend, Symbol.named,
      both, lower]
  have led : (Statement.toRule 0 1).run.run both = .ok (some 0, stairs) := by
    simp [Statement.run, Draft.toRule, Draft.expand, Draft.getRule, Draft.amendRule, Draft.amend,
      Fault.lookup, both, lower, stairs]
    rfl
  have begun : Draft.Reached True lower := .next (.rule "stairs") .empty (fun _ => trivial) first
  have reached : Draft.Reached True both := .next (.rule "attic") begun (fun _ => trivial) second
  exact ⟨stairs, .next (.toRule 0 1) reached (fun _ => Nat.lt_succ_self 1) led, rfl⟩

theorem stairs_givesUpLast : stairs.compile.GivesUpLast := by
  intro id r seed c later e _ _ he target
  obtain ⟨e', he', rfl⟩ := Option.map_eq_some_iff.1 (Array.getElem?_map ▸ Fault.lookup_eq_ok_iff.1 he)
  obtain rfl := Array.mem_singleton.1 (Array.mem_of_getElem? he')
  cases target

theorem no_solution_is_exhaustive_stairs :
    let world := World.remembering stairs.compile .none
    let fresh := Search.new (.ofCache (.new 0 .standard))
    let begun := ((setup world 0 .zero 7).run fresh).2
    let failed := (process world ⟨10, 10⟩).run begun
    stairs.compile.Built True ∧ Used world fresh ∧ failed.1 = .ok (.error (.noSolution 2)) ∧
      ∀ t, ReflTransGen (Chooses world fun _ => True) begun t → ¬ t.Completed := by
  intro world fresh begun failed
  have used : Used world fresh := .new Cache.standardDraws 0 .standard
  have starts : ((setup world 0 .zero 7).run fresh).1 = .ok () := by decide +kernel
  have fails : failed.1 = .ok (.error (.noSolution 2)) := by decide +kernel
  have exhaustive := no_solution_is_exhaustive built_stairs .none used (Prod.ext starts rfl)
    (Prod.ext fails rfl)
  exact ⟨built_stairs, used, fails, exhaustive.2 stairs_givesUpLast⟩

end Search

end VoxelGrammar
