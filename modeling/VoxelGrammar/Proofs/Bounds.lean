import VoxelGrammar.Proofs.Canvas
import VoxelGrammar.Proofs.Frame

/-!
Every search is bounded. All that the limits are about is kept in four numbers: how many components
are placed, how many of them each open branch found, how many attempts there were, and whether a
structure was found. Most of what a search does leaves these numbers alone, wherever it ends; the
rest opens a branch, places the one component of an open branch, or undoes the latest branch. So
there are never more components than branches, never more branches than a step may open, and, as
every step that goes on counts one attempt, never more steps than attempts allowed.
-/

namespace VoxelGrammar

variable {μ α β : Type}

/-! ### The numbers that are bounded -/

structure Tally where
  placements : Nat
  /-- How many placements each open branch found, the latest one first. -/
  opened : List Nat
  expansions : Nat
  solved : Bool

def Search.tally (s : Search μ) : Tally :=
  ⟨s.plan.placements.size, s.plan.checkpoints.map (·.placements), s.plan.expansions, s.plan.solved⟩

namespace Tally

variable {t : Tally} {limits : Limits}

/-- Branches that are open, the outermost one aside. -/
def depth (t : Tally) : Nat := t.opened.length - 1

def branched (t : Tally) : Tally := { t with opened := t.placements :: t.opened }

def accepted (t : Tally) : Tally := { t with placements := t.placements + 1 }

def counted (t : Tally) : Tally := { t with expansions := t.expansions + 1 }

/-- A branch that found `n` placements has been undone. -/
def undone (n : Nat) (rest : List Nat) (t : Tally) : Tally :=
  { t with placements := min t.placements n, opened := rest }

/-- Each branch found no more placements than there were branches below the outermost one. -/
def Graded : List Nat → Prop
  | [] => True
  | n :: rest => n ≤ rest.length - 1 ∧ Graded rest

structure Bounded (limits : Limits) (t : Tally) : Prop where
  expansions : t.expansions ≤ limits.expansions
  depth : t.depth ≤ limits.depth
  placements : t.placements ≤ t.depth
  graded : Graded t.opened

namespace Bounded

theorem branched (h : t.Bounded limits) (room : t.depth < limits.depth) (hopen : t.opened ≠ []) :
    t.branched.Bounded limits := by
  have one := List.length_pos_of_ne_nil hopen
  have placements := h.placements
  unfold Tally.depth at room placements
  refine ⟨h.expansions, ?_, ?_, placements, h.graded⟩ <;>
    simp only [Tally.depth, Tally.branched, List.length_cons] <;> omega

/-- An open branch has room for one component. -/
theorem accepted (h : t.Bounded limits) (room : t.depth < limits.depth) (hopen : t.opened ≠ []) :
    t.branched.accepted.Bounded limits := by
  have opened := h.branched room hopen
  have one := List.length_pos_of_ne_nil hopen
  have placements := h.placements
  unfold Tally.depth at placements
  refine ⟨opened.expansions, opened.depth, ?_, opened.graded⟩
  simp only [Tally.depth, Tally.accepted, Tally.branched, List.length_cons]
  omega

theorem undone {n : Nat} {rest : List Nat} (h : t.Bounded limits) (hopen : t.opened = n :: rest) :
    (t.undone n rest).Bounded limits := by
  have depth := h.depth
  have graded := h.graded
  rw [Tally.depth, hopen, List.length_cons] at depth
  rw [hopen] at graded
  refine ⟨h.expansions, ?_, ?_, graded.2⟩
  · simp only [Tally.depth, Tally.undone]
    omega
  · have found : n ≤ rest.length - 1 := graded.1
    simp only [Tally.depth, Tally.undone]
    omega

end Bounded

end Tally

/-! ### Computations that leave the numbers alone -/

/-- Wherever the computation ends, it leaves the numbers as they were. -/
def Balanced (x : SearchM μ α) : Prop := ∀ s, (x.run s).2.tally = s.tally

namespace Balanced

theorem pure (a : α) : Balanced (pure a : SearchM μ α) := fun _ => rfl

theorem bind {x : SearchM μ α} {f : α → SearchM μ β} (hx : Balanced x) (hf : ∀ a, Balanced (f a)) :
    Balanced (x >>= f) := by
  intro s
  have hs := hx s
  rw [SearchM.run_bind]
  rcases hr : x.run s with ⟨e | a, s₁⟩ <;> rw [hr] at hs
  · exact hs
  · exact (hf a s₁).trans hs

theorem enter (w : World μ) (parent : Option Handle) (ref : SymbolRef) (placement : Transform) :
    Balanced (Search.enter w parent ref placement) := by
  intro s
  simp only [Search.enter, SearchM.run_bind, SearchM.run_get]
  rcases s.arena.create w.grammar parent ref placement s.plan.seed with (_ | _) | ⟨h, a⟩ <;> rfl

theorem frame (w : World μ) : Frame w (@Balanced μ) where
  pure := pure
  throw _ _ := rfl
  lift _ _ := rfl
  bind := bind
  get_bind _ hf s := hf s s
  evaluate _ _ := rfl
  enter := enter w
  truncateContexts _ _ := rfl
  hand _ _ _ := rfl
  redraw _ _ _ := rfl

end Balanced

/-! ### Computations that keep within bounds -/

/-- The property `I` holds of the numbers wherever the computation ends, and `Q` if it has come to
an answer. -/
def Leaves (I : Tally → Prop) (Q : α → Tally → Prop) (p : Except Fault α × Search μ) : Prop :=
  I p.2.tally ∧ ∀ a, p.1 = .ok a → Q a p.2.tally

namespace Leaves

variable {I : Tally → Prop} {Q Q' : α → Tally → Prop} {R : β → Tally → Prop} {s : Search μ}

theorem mono {p : Except Fault α × Search μ} (h : Leaves I Q p) (hQ : ∀ a t, Q a t → Q' a t) :
    Leaves I Q' p := ⟨h.1, fun a ha => hQ a _ (h.2 a ha)⟩

theorem pure {a : α} (hI : I s.tally) (hQ : Q a s.tally) :
    Leaves I Q ((pure a : SearchM μ α).run s) := by
  refine ⟨hI, fun b hb => ?_⟩
  cases hb
  exact hQ

theorem bind {x : SearchM μ α} {f : α → SearchM μ β} (hx : Leaves I Q (x.run s))
    (hf : ∀ a s', Q a s'.tally → Leaves I R ((f a).run s')) : Leaves I R ((x >>= f).run s) := by
  rw [SearchM.run_bind]
  rcases hr : x.run s with ⟨e | a, s'⟩ <;> rw [hr] at hx
  · exact ⟨hx.1, fun b hb => nomatch hb⟩
  · exact hf a s' (hx.2 a rfl)

theorem balanced {x : SearchM μ α} (hx : Balanced x) (hI : I s.tally) :
    Leaves I (fun _ t => t = s.tally) (x.run s) := by
  have same := hx s
  exact ⟨same ▸ hI, fun _ _ => same⟩

/-- What leaves the numbers alone may come first. -/
theorem balanced_bind {x : SearchM μ α} {f : α → SearchM μ β} (hx : Balanced x) (hI : I s.tally)
    (hf : ∀ a s', s'.tally = s.tally → Leaves I R ((f a).run s')) : Leaves I R ((x >>= f).run s) :=
  .bind (.balanced hx hI) hf

end Leaves

namespace Search

variable {w : World μ} {s : Search μ} {I : Tally → Prop}

theorem branchAt_leaves (n : Nat) (opened : I s.tally.branched) :
    Leaves I (fun _ t => t = s.tally.branched) ((branchAt n).run s) := ⟨opened, fun _ _ => rfl⟩

theorem accept_leaves {id : ComponentId} {node : Nat} {h : Handle} (hI : I s.tally)
    (accepted : I s.tally.accepted) :
    Leaves I (fun _ t => t = s.tally.accepted) ((accept id node h).run s) := by
  unfold accept
  refine .balanced_bind (fun _ => rfl) hI fun x s₁ same => ?_
  have pushed : ∀ p : Placement, ({ s₁ with plan := { s₁.plan with
      placements := s₁.plan.placements.push p } } : Search μ).tally = s.tally.accepted := by
    intro p
    rw [← same]
    simp [tally, Tally.accepted]
  rw [run_modifyPlan]
  exact ⟨(pushed _).symm ▸ accepted, fun _ _ => pushed _⟩

theorem undo_leaves {n : Nat} {rest : List Nat} (hopen : s.tally.opened = n :: rest)
    (undone : I (s.tally.undone n rest)) :
    Leaves I (fun _ t => t = s.tally.undone n rest) ((undo w).run s) := by
  obtain ⟨c, cs, hc, rfl, rfl⟩ := List.map_eq_cons_iff.1 hopen
  have left : (Search.undone w c cs s).tally =
      s.tally.undone c.placements (cs.map (·.placements)) := by
    simp [tally, Tally.undone, Search.undone, Array.take, Nat.min_comm]
  rw [run_undo hc]
  exact ⟨left.symm ▸ undone, fun _ _ => left⟩

/-- Undoing the branch of a component, or of a rule, brings the numbers back. -/
theorem undo_leaves_back {t : Tally} (hs : s.tally = t.branched ∨ s.tally = t.branched.accepted)
    (hI : I t) : Leaves I (fun _ t' => t' = t) ((undo w).run s) := by
  have back : s.tally.opened = t.placements :: t.opened ∧
      s.tally.undone t.placements t.opened = t := by
    rcases hs with hs | hs <;> rw [hs] <;> simp [Tally.undone, Tally.branched, Tally.accepted]
  have left := undo_leaves (w := w) (I := I) back.1 (back.2.symm ▸ hI)
  rwa [back.2] at left

theorem replaceRule_leaves {target : RuleId} {a : Attempt} (hI : I s.tally)
    (opened : I s.tally.branched) :
    Leaves I (fun done t => t = if done then s.tally.branched else s.tally)
      ((replaceRule w target a).run s) := by
  unfold replaceRule
  have abreast := (Balanced.frame w).abreast
  refine .bind (branchAt_leaves _ opened) fun _ s₁ h₁ =>
    .balanced_bind (abreast.enterRule _ _ _ _).2 (h₁ ▸ opened) fun done s₂ h₂ => ?_
  cases done with
  | true => exact .pure (h₂ ▸ h₁ ▸ opened) (h₂.trans h₁)
  | false =>
      exact .bind (undo_leaves_back (.inl (h₂.trans h₁)) hI) fun _ _ h₃ => .pure (h₃ ▸ hI) h₃

theorem placeComponent_leaves {id : ComponentId} {a : Attempt} (hI : I s.tally)
    (opened : I s.tally.branched) (accepted : I s.tally.branched.accepted) :
    Leaves I (fun done t => t = if done then s.tally.branched.accepted else s.tally)
      ((placeComponent w id a).run s) := by
  unfold placeComponent
  have frame := Balanced.frame w
  have abreast := frame.abreast
  refine .balanced_bind (frame.lift _) hI fun c s₁ h₁ => .balanced_bind (frame.lift _) (h₁ ▸ hI)
    fun n s₂ h₂ => .balanced_bind (frame.evaluate _) (h₂ ▸ h₁ ▸ hI) fun position s₃ h₃ => ?_
  have h₃ : s₃.tally = s.tally := h₃.trans (h₂.trans h₁)
  cases position with
  | error e => exact .pure (h₃ ▸ hI) h₃
  | ok position =>
      refine .balanced_bind abreast.contextCount.2 (h₃ ▸ hI) fun mark s₄ h₄ =>
        .balanced_bind (frame.enter _ _ _) (h₄ ▸ h₃ ▸ hI) fun entered s₅ h₅ => ?_
      have h₅ : s₅.tally = s.tally := h₅.trans (h₄.trans h₃)
      cases entered with
      | error e => exact .pure (h₅ ▸ hI) h₅
      | ok h =>
          refine .balanced_bind (abreast.meets h _).2 (h₅ ▸ hI) fun holds s₆ h₆ => ?_
          have h₆ : s₆.tally = s.tally := h₆.trans h₅
          cases holds with
          | false =>
              exact .balanced_bind (frame.truncateContexts _) (h₆ ▸ hI) fun _ s₇ h₇ =>
                .pure (h₇ ▸ h₆ ▸ hI) (h₇.trans h₆)
          | true =>
              -- From here on the branch is open, and what fails undoes it again.
              refine .bind (branchAt_leaves mark (h₆ ▸ opened)) fun _ s₇ h₇ => ?_
              rw [h₆] at h₇
              refine .bind (accept_leaves (h₇ ▸ opened) (h₇ ▸ accepted)) fun _ s₈ h₈ => ?_
              rw [h₇] at h₈
              refine .balanced_bind (abreast.populate c h _).2 (h₈ ▸ accepted) fun populated s₉ h₉ => ?_
              have h₉ : s₉.tally = s.tally.branched.accepted := h₉.trans h₈
              cases populated with
              | true => exact .pure (h₉ ▸ accepted) h₉
              | false => exact .bind (undo_leaves_back (.inr h₉) hI) fun _ _ h => .pure (h ▸ hI) h

theorem attempt_leaves {a : Attempt} (hI : I s.tally) (opened : I s.tally.branched)
    (accepted : I s.tally.branched.accepted) : Leaves I (fun _ => I) ((attempt w a).run s) := by
  unfold attempt
  refine .balanced_bind ((Balanced.frame w).lift _) hI fun e s₁ h₁ => ?_
  rw [← h₁] at hI opened accepted
  split
  · exact .pure hI hI
  · refine (replaceRule_leaves hI opened).mono fun done t ht => ?_
    cases done with
    | true => exact ht ▸ opened
    | false => exact ht ▸ hI
  · refine (placeComponent_leaves hI opened accepted).mono fun done t ht => ?_
    cases done with
    | true => exact ht ▸ accepted
    | false => exact ht ▸ hI

theorem resolve_leaves {entry : Option Attempt} (hI : I s.tally) (hopen : s.tally.opened ≠ [])
    (opened : I s.tally.branched) (accepted : I s.tally.branched.accepted)
    (undone : ∀ n rest, s.tally.opened = n :: rest → I (s.tally.undone n rest)) :
    Leaves I (fun _ => I) ((resolve w entry).run s) := by
  cases entry with
  | none =>
      obtain ⟨n, rest, hs⟩ := List.exists_cons_of_ne_nil hopen
      exact (undo_leaves hs (undone n rest hs)).mono fun _ t ht => ht ▸ undone n rest hs
  | some a =>
      unfold resolve
      refine .balanced_bind ((Balanced.frame w).abreast.next a).2 hI fun following s₁ h₁ =>
        .balanced_bind (fun _ => rfl) (h₁ ▸ hI) fun _ s₂ h₂ => ?_
      rw [← h₁, ← h₂] at hI opened accepted
      refine .bind (attempt_leaves hI opened accepted) fun done s₃ h₃ => ?_
      cases done with
      | true => exact ⟨h₃, fun _ _ => h₃⟩
      | false => exact .pure h₃ h₃

/-! ### Steps -/

structure Within (limits : Limits) (s : Search μ) : Prop where
  expansions : s.plan.expansions ≤ limits.expansions
  depth : s.depth ≤ limits.depth
  placements : s.plan.placements.size ≤ s.depth

theorem within_of_tally {limits : Limits} (h : s.tally.Bounded limits) : s.Within limits := by
  obtain ⟨expansions, depth, placements, _⟩ := h
  simp only [Tally.depth, tally, List.length_map] at depth placements
  exact ⟨expansions, depth, placements⟩

structure Running (limits : Limits) (n : Nat) (s : Search μ) : Prop where
  kept : Kept (fun _ => True) s
  outermost : s.outermost = #[]
  bounded : s.tally.Bounded limits
  few : n < limits.expansions
  count : s.plan.expansions = n
  unsolved : s.plan.solved = false

structure Ends (limits : Limits) (r : Except Fault (Except SearchFailure Unit)) (s : Search μ) :
    Prop where
  within : s.Within limits
  solved : s.plan.solved = true ↔ r = .ok (.ok ())
  found : r = .ok (.ok ()) → s.plan.expansions < limits.expansions
  exhausted : ∀ n, r = .ok (.error (.noSolution n)) →
    n = s.plan.expansions ∧ s.plan.expansions < limits.expansions
  stopped : ∀ n, r = .ok (.error (.expansionLimit n)) ↔
    n = limits.expansions ∧ s.plan.expansions = limits.expansions

namespace Ends

variable {limits : Limits} {r : Except Fault (Except SearchFailure Unit)}

/-- A search that could not go on breaks down, or gives up for want of depth. -/
theorem broken (within : s.Within limits) (few : s.plan.expansions < limits.expansions)
    (unsolved : s.plan.solved = false) (found : r ≠ .ok (.ok ()))
    (exhausted : ∀ n, r ≠ .ok (.error (.noSolution n)))
    (stopped : ∀ n, r ≠ .ok (.error (.expansionLimit n))) : Ends limits r s where
  within := within
  solved := by simp [unsolved, found]
  found h := absurd h found
  exhausted n h := absurd h (exhausted n)
  stopped n := ⟨fun h => absurd h (stopped n), fun h => absurd h.2 (Nat.ne_of_lt few)⟩

end Ends

theorem Running.opened {limits : Limits} {n : Nat} (h : Running limits n s) {entry : Option Attempt}
    (current : s.plan.queue[s.plan.cursor]? = some entry) : s.plan.checkpoints ≠ [] := by
  have filled : s.plan.queue ≠ #[] := by
    intro empty
    rw [empty] at current
    cases current
  obtain ⟨c, rest, hc⟩ := branch_of_outermost h.outermost filled
  exact hc ▸ List.cons_ne_nil c rest

/-- What a step that tries an entry leads to, wherever it ends. -/
theorem resolve_running {limits : Limits} {n : Nat} {entry : Option Attempt}
    (h : Running limits n s) (current : s.plan.queue[s.plan.cursor]? = some entry)
    (goes : stopped? limits (counted s) = none) :
    match (resolve w entry).run (counted s) with
    | (.ok _, s') => Running limits (n + 1) s'
    | (.error e, s') => Ends limits (.error e) s' := by
  have hcount := h.count
  obtain ⟨few, room⟩ : n + 1 < limits.expansions ∧ s.tally.counted.depth < limits.depth := by
    have depth : s.tally.counted.depth = (counted s).depth := by
      simp [Tally.depth, Tally.counted, tally, Search.depth, counted]
    have count : (counted s).plan.expansions = n + 1 := congrArg (· + 1) hcount
    unfold stopped? at goes
    grind
  have hopen := h.opened current
  have opened : s.tally.counted.opened ≠ [] := by simpa [Tally.counted, tally] using hopen
  have counts : s.tally.counted.expansions = n + 1 := congrArg (· + 1) hcount
  have bounded : s.tally.counted.Bounded limits :=
    ⟨counts ▸ Nat.le_of_lt few, h.bounded.depth, h.bounded.placements, h.bounded.graded⟩
  -- The limits leave room for one more branch, which is all that one attempt opens.
  let I : Tally → Prop := fun t => t.Bounded limits ∧ t.expansions = n + 1 ∧ t.solved = false
  have leaves : Leaves I (fun _ => I) ((resolve w entry).run (counted s)) :=
    resolve_leaves ⟨bounded, counts, h.unsolved⟩ opened
      ⟨bounded.branched room opened, counts, h.unsolved⟩
      ⟨bounded.accepted room opened, counts, h.unsolved⟩
      fun _ _ hs => ⟨bounded.undone hs, counts, h.unsolved⟩
  have kept : Kept (fun _ => True) (counted s) := h.kept.replan rfl rfl rfl rfl
  rcases hr : (resolve w entry).run (counted s) with ⟨e | _, s'⟩ <;> rw [hr] at leaves <;>
    obtain ⟨⟨bounded', count', unsolved'⟩, _⟩ := leaves
  · refine .broken (within_of_tally bounded') ?_ unsolved' ?_ ?_ ?_
    · exact count'.trans_lt few
    all_goals simp
  · have resolves := resolve_ok kept.numbered hr
    refine ⟨?_, ?_, bounded', few, count', unsolved'⟩
    · exact (kept_resolves kept (fun _ _ _ _ _ => trivial) (fun _ _ _ _ _ _ _ _ _ => trivial)
        resolves).1
    · exact (resolves.outermost kept.numbered hopen).trans h.outermost

def Arrives (limits : Limits) (n : Nat) :
    Except Fault (Option (Except SearchFailure Unit)) × Search μ → Prop
  | (.ok none, s) => Running limits n s
  | (.ok (some r), s) => Ends limits (.ok r) s
  | (.error e, s) => Ends limits (.error e) s

/-- A step makes one more attempt, or it ends the search. -/
theorem step_arrives (w : World μ) {limits : Limits} {n : Nat} (h : Running limits n s) :
    Arrives limits (n + 1) ((step w limits).run s) := by
  have within := within_of_tally h.bounded
  have few : s.plan.expansions < limits.expansions := h.count ▸ h.few
  have other := Nat.ne_of_lt few
  have unsolved := h.unsolved
  rw [run_step]
  cases current : s.plan.queue[s.plan.cursor]? with
  | none =>
      cases s.plan.queue.isEmpty with
      | true => exact ⟨within, by simp [unsolved], by simp, by simp [few], by simp [other]⟩
      | false =>
          exact ⟨⟨within.expansions, within.depth, within.placements⟩, by simp, fun _ => few, by simp,
            by simp [other]⟩
  | some entry =>
      dsimp only
      cases goes : stopped? limits (counted s) with
      | none =>
          have resolved := resolve_running (w := w) h current goes
          dsimp only
          rw [SearchM.run_bind]
          rcases hr : (resolve w entry).run (counted s) with ⟨e | _, s'⟩ <;> rw [hr] at resolved <;>
            exact resolved
      | some failure =>
          have within' : (counted s).Within limits := ⟨few, within.depth, within.placements⟩
          unfold stopped? at goes
          split at goes
          · next reached =>
            cases goes
            have met : (counted s).plan.expansions = limits.expansions := Nat.le_antisymm few reached
            exact ⟨within', by simp [counted, unsolved], by simp, by simp, by simp [met, eq_comm]⟩
          · next below =>
            split at goes
            · cases goes
              exact .broken within' (Nat.lt_of_not_le below) unsolved (by simp) (by simp) (by simp)
            · cases goes

/-! ### Runs -/

/-- `n` steps, none of which has ended the search. -/
inductive Path (w : World μ) (limits : Limits) : Nat → Search μ → Search μ → Prop
  | none (s : Search μ) : Path w limits 0 s s
  | step {n : Nat} {s t u : Search μ} (first : (step w limits).run s = (.ok none, t))
      (rest : Path w limits n t u) : Path w limits (n + 1) s u

theorem Path.running {w : World μ} {limits : Limits} {m n : Nat} {t : Search μ}
    (path : Path w limits n s t) (h : Running limits m s) : Running limits (m + n) t := by
  induction path generalizing m with
  | none => exact h
  | step first _ ih =>
      have arrives := step_arrives w h
      rw [first] at arrives
      have later := ih arrives
      rwa [Nat.add_right_comm, Nat.add_assoc] at later

/-- With a step for each attempt that is left, and one more, a run comes to its end by steps of the
search. -/
theorem steps_end (w : World μ) {limits : Limits} {m k : Nat} (h : Running limits m s)
    (enough : limits.expansions < m + k) :
    ∃ n t, Path w limits n s t ∧
      (step w limits).run t =
        (((steps w limits k).run s).1.map some, ((steps w limits k).run s).2) := by
  induction k generalizing m s with
  | zero => exact absurd h.few (Nat.not_lt_of_lt enough)
  | succ k ih =>
      have arrives := step_arrives w h
      have unfolded : (steps w limits (k + 1)).run s = _ := SearchM.run_bind (step w limits) _ s
      rw [unfolded]
      rcases hr : (step w limits).run s with ⟨e | _ | r, s'⟩ <;> rw [hr] at arrives
      · exact ⟨0, s, .none s, hr⟩
      · obtain ⟨n, t, path, last⟩ := ih arrives (by omega)
        exact ⟨n + 1, t, .step hr path, last⟩
      · exact ⟨0, s, .none s, hr⟩

/-- A search that has just started over has its limits before it. -/
theorem setup_arrives (w : World μ) {limits : Limits} (hl : 1 ≤ limits.expansions) (rule : RuleId)
    (origin : Pos) (seed : Seed) (s : Search μ) :
    match (setup w rule origin seed).run s with
    | (.ok _, s') => Running limits 0 s'
    | (.error e, s') => Ends limits (.error e) s' := by
  have tally : ((setup w rule origin seed).run s).2.tally = (started w origin seed s).tally :=
    ((Balanced.frame w).bind ((Balanced.frame w).abreast.enterRule _ _ _ _).2 fun _ => .pure ()) _
  have bounded : (started w origin seed s).tally.Bounded limits :=
    ⟨Nat.zero_le _, Nat.zero_le _, Nat.le_refl _, Nat.le_refl _, trivial⟩
  rw [← tally] at bounded
  have count : ((setup w rule origin seed).run s).2.plan.expansions = 0 :=
    congrArg Tally.expansions tally
  have unsolved : ((setup w rule origin seed).run s).2.plan.solved = false :=
    congrArg Tally.solved tally
  rcases hr : (setup w rule origin seed).run s with ⟨e | _, s'⟩ <;>
    rw [hr] at bounded count unsolved
  · exact .broken (within_of_tally bounded) (count.trans_lt hl) unsolved (by simp) (by simp) (by simp)
  · obtain ⟨kept, outermost⟩ := setup_kept (P := fun _ => True) trivial hr
    exact ⟨kept, outermost, bounded, hl, count, unsolved⟩

/-- A search with a memory is answered like one without, which breaks down only where an evaluation
does not end. -/
theorem answers_of_matches {g : Grammar} (marked : g.Marked) {p : Provider}
    {run : Except Fault α × Search Memory} {run' : Except Fault α × Search Unit}
    (same : Matches (.forgetting marked p) (fun _ => 0) Eq run run')
    (unbroken : Unbroken (World.remembering g p) run') :
    (∃ v, run.1 = .ok v) ∨
      run.1 = .error .endlessEvaluation ∧ (World.remembering g p).Endless run.2.arena := by
  have agree : run.1 = run'.1 := same.1.eq
  rcases hrun : run.1 with f | v
  · obtain ⟨rfl, endless⟩ := unbroken f (agree.symm.trans hrun)
    exact .inr ⟨rfl, endless.mirror same.2.arena same.2.trusted.ground⟩
  · exact .inl ⟨v, rfl⟩

/-- A search that starts over and is run, within limits that allow one attempt at least, takes fewer
steps than there are attempts allowed, each of them one more attempt. It stays within its limits
wherever it is, and has no more components than open branches; where it ends tells how it was
answered. It is answered unless an evaluation does not end, in a grammar that has been built and with
a provider that does not break down; and whatever breaks down, it does so within the limits. -/
theorem search_is_bounded (g : Grammar) (p : Provider) {limits : Limits}
    (hl : 1 ≤ limits.expansions) (rule : RuleId) (origin : Pos) (seed : Seed) (s : Search Memory) :
    let w := World.remembering g p
    let run := (do setup w rule origin seed; process w limits).run s
    (∀ begun, (setup w rule origin seed).run s = (.ok (), begun) →
      (∀ n t, Path w limits n begun t →
        n < limits.expansions ∧ t.plan.expansions = n ∧ t.Within limits) ∧
      ∃ n t, Path w limits n begun t ∧ (step w limits).run t = (run.1.map some, run.2)) ∧
    Ends limits run.1 run.2 ∧
    (g.Built True → p.Total → Used w s → rule < g.rules.size →
      (∃ r, run.1 = .ok r) ∨ run.1 = .error .endlessEvaluation ∧ w.Endless run.2.arena) := by
  intro w run
  have arrives := setup_arrives w hl rule origin seed s
  have unfolded : run = _ := SearchM.run_bind (setup w rule origin seed) _ s
  refine ⟨fun begun start => ?_, ?_, fun built total used known => ?_⟩
  · rw [start] at arrives unfolded
    refine ⟨fun n t path => ?_, unfolded ▸ steps_end w arrives (by omega)⟩
    have running := path.running arrives
    rw [Nat.zero_add] at running
    exact ⟨running.few, running.count, within_of_tally running.bounded⟩
  · rcases start : (setup w rule origin seed).run s with ⟨e | _, begun⟩ <;>
      rw [start] at arrives unfolded
    · exact unfolded ▸ arrives
    · -- The last step of the run tells how it has ended.
      obtain ⟨n, t, path, last⟩ := steps_end w arrives (k := limits.expansions + 1) (by omega)
      have arrived := step_arrives w (path.running arrives)
      have ended : run = (process w limits).run begun := unfolded
      rw [last] at arrived
      rw [ended]
      unfold process
      generalize (steps w limits (limits.expansions + 1)).run begun = final at arrived
      obtain ⟨e | r, u⟩ := final <;> exact arrived
  · have sturdy := World.sturdy_remembering built total
    -- Without a memory the run goes the same way, and there breakdowns are understood.
    exact answers_of_matches built.marked
      (search_forgotten built.marked (used.trusted built) limits rule origin seed)
      (.bind (setup_unbroken sturdy known origin seed s.forgotten) fun _ _ start =>
        process_unbroken sturdy (setup_secure (w := w.forgetful) built.closed start) limits)

theorem search_is_bounded_farm :
    let w := World.remembering farm.compile .none
    let fresh := Search.new (.ofCache (.new 0 .standard))
    let begun := ((setup w 0 .zero 1).run fresh).2
    let run := (do setup w 0 .zero 1; process w ⟨7, 3⟩).run fresh
    1 ≤ (Limits.mk 7 3).expansions ∧ (setup w 0 .zero 1).run fresh = (.ok (), begun) ∧
      farm.compile.Built True ∧ Provider.none.Total ∧ Used w fresh ∧ 0 < farm.compile.rules.size ∧
      (∃ n t, Path w ⟨7, 3⟩ n begun t ∧ (step w ⟨7, 3⟩).run t = (run.1.map some, run.2)) ∧
      run.1 = .ok (.ok ()) ∧ run.2.plan.solved = true ∧
      ((∃ r, run.1 = .ok r) ∨ run.1 = .error .endlessEvaluation ∧ w.Endless run.2.arena) := by
  intro w fresh begun run
  have hl : 1 ≤ (Limits.mk 7 3).expansions := by decide
  have used : Used w fresh := .new Cache.standardDraws 0 .standard
  have trusted := used.trusted built_farm
  have starts : (setup w 0 .zero 1).run fresh = (.ok (), begun) :=
    Prod.ext ((setup_forgotten built_farm.marked trusted 0 .zero 1).1.eq.trans (by decide +kernel)) rfl
  have known : 0 < farm.compile.rules.size := by decide +kernel
  have found : run.1 = .ok (.ok ()) :=
    (search_forgotten built_farm.marked trusted ⟨7, 3⟩ 0 .zero 1).1.eq.trans (by decide +kernel)
  have bounded := search_is_bounded farm.compile .none hl 0 .zero 1 fresh
  exact ⟨hl, starts, built_farm, Provider.total_none, used, known, (bounded.1 begun starts).2, found,
    bounded.2.1.solved.2 found, bounded.2.2 built_farm Provider.total_none used known⟩

end Search

end VoxelGrammar
