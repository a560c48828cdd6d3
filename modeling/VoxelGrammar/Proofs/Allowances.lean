import VoxelGrammar.Proofs.Fallbacks

/-!
What a settlement may cost. A rule is allowed three attempts, and as many for each rule that may come of
it. Each attempt that fails uses up one of those of its own entry; one that succeeds leaves to the rules
that it calls for what they are allowed. So all attempts together are paid for out of what is allowed to
the settlement itself, and while there is an entry left, there is something left to pay for it.
-/

namespace VoxelGrammar.Settlement

open Search

variable {p : Provider} {z : Arena} {seed : Seed} {site : Site} {a : Attempt} {e : Expansion}
  {n spent : Nat} {rest : List (Option Attempt)}

/-! ### What attempts cost -/

def tries : Option ComponentId → Nat := fun _ => 3

theorem frugal_tries : Frugal tries := ⟨Nat.le_refl 3, Nat.le_refl 3⟩

def allowance : Nat := share tries 0 settlement

theorem tries_le_share {i : Nat} (known : i < 4) : 3 ≤ share tries n i := by
  obtain rfl | rfl | rfl | rfl : i = 0 ∨ i = 1 ∨ i = 2 ∨ i = 3 := by omega
  all_goals
    simp only [share, streetShare, tries]
    omega

/-- What an attempt after `n` roads may cost, with those after it and with what comes of them. -/
def toll (a : Attempt) (n : Nat) (i : RuleId) : Nat := share tries n i - 3 + (a.later.length + 1)

structure Rests (p : Provider) (z : Arena) (seed : Seed) (a : Attempt) (site : Site) (n : Nat) :
    Prop where
  waits : a.Waits (world p) z seed site
  covered : Covered p z n site
  below : site.rule ≠ settlement

/-- An entry costs no more than what its rule is allowed. -/
theorem Rests.toll_le (rests : Rests p z seed a site n) (sole : Sole a) :
    toll a n site.rule ≤ share tries n site.rule := by
  have few := sole.few rests.waits
  rw [if_neg rests.below] at few
  have enough := tries_le_share (n := n) rests.covered.known
  unfold toll
  omega

/-- With `spent` attempts made, what waits is paid for. -/
def Affords (p : Provider) (z : Arena) (seed : Seed) (waiting : List (Option Attempt)) (spent : Nat) :
    Prop :=
  ∃ at_ : List (Attempt × Site × Nat), waiting.Perm (at_.map fun e => some e.1) ∧
    (∀ e ∈ at_, Rests p z seed e.1 e.2.1 e.2.2) ∧
    spent + (at_.map fun e => toll e.1 e.2.2 e.2.1.rule).sum ≤ allowance

namespace Affords

theorem perm {waiting : List (Option Attempt)} (h : Affords p z seed waiting spent)
    (hp : rest.Perm waiting) : Affords p z seed rest spent := by
  obtain ⟨at_, perm, rests, paid⟩ := h
  exact ⟨at_, hp.trans perm, rests, paid⟩

theorem mono {less : Nat} (h : Affords p z seed rest spent) (hl : less ≤ spent) :
    Affords p z seed rest less := by
  obtain ⟨at_, perm, rests, paid⟩ := h
  exact ⟨at_, perm, rests, (Nat.add_le_add_right hl _).trans paid⟩

theorem spent_le (h : Affords p z seed rest spent) : spent ≤ allowance := by
  obtain ⟨_, _, _, paid⟩ := h
  exact (Nat.le_add_right _ _).trans paid

/-- What waits first is an attempt, and what it costs is set aside. -/
theorem split {entry : Option Attempt} (h : Affords p z seed (entry :: rest) spent) :
    ∃ a site n, entry = some a ∧ Rests p z seed a site n ∧
      Affords p z seed rest (spent + toll a n site.rule) := by
  obtain ⟨at_, perm, rests, paid⟩ := h
  obtain ⟨parts, split, hparts⟩ := (congrFun₂ (List.eq_map_comp_perm _) _ _).mpr perm
  obtain ⟨⟨a, site, n⟩, others, rfl, rfl, rfl⟩ := List.map_eq_cons_iff.1 split.symm
  have all : ∀ e ∈ (a, site, n) :: others, Rests p z seed e.1 e.2.1 e.2.2 :=
    fun e he => rests e (hparts.mem_iff.1 he)
  refine ⟨a, site, n, rfl, all _ List.mem_cons_self, others, .refl _, fun e he =>
    all e (List.mem_cons_of_mem _ he), ?_⟩
  rw [← (hparts.map _).sum_eq, List.map_cons, List.sum_cons, ← Nat.add_assoc] at paid
  exact paid

/-- Attempts may wait in addition if they are paid for. -/
theorem join {at_ : List (Attempt × Site × Nat)} (rests : ∀ e ∈ at_, Rests p z seed e.1 e.2.1 e.2.2)
    (h : Affords p z seed rest (spent + (at_.map fun e => toll e.1 e.2.2 e.2.1.rule).sum)) :
    Affords p z seed (at_.map (fun e => some e.1) ++ rest) spent := by
  obtain ⟨others, perm, rests', paid⟩ := h
  refine ⟨at_ ++ others, ?_, fun e he => ?_, ?_⟩
  · rw [List.map_append]
    exact perm.append_left _
  · rcases List.mem_append.1 he with he | he
    · exact rests e he
    · exact rests' e he
  · rw [List.map_append, List.sum_append]
    omega

end Affords

/-! ### Attempts that succeed -/

variable {s s' : Search Unit}

/-- What an attempt calls for is allowed no more than its own rule has left. -/
theorem carries_affords (carries : Carries (world p).forgetful a s s' e)
    (he : grammar.expansion a.candidate.expansion = .ok e) (ends : (world p).Ends z)
    (hs : s.arena.Numbered) (hcursor : s.plan.cursor < s.plan.queue.size)
    (hp : s'.arena.live <+: z.live) (waits : a.Waits (world p) z s.plan.seed site)
    (covered : Covered p z n site) (queues : Queues Sole s')
    (others : Affords p z s.plan.seed s.ahead (spent + toll a n site.rule)) :
    Affords p z s.plan.seed s'.ahead (spent + 1) := by
  obtain ⟨placed, at_, _, perm, waiting, leads⟩ := carries.leads he ends hs hcursor hp waits
  obtain ⟨r, hr, listed⟩ := waits.rule
  obtain ⟨m, sites, spends⟩ := covered.spends frugal_tries ends.ground waits.stands hr
    (listed _ List.mem_cons_self).1 he waits.chosen leads
    (List.forall_mem_map.2 fun e he => ⟨_, (waiting e he).stands⟩)
  have rests : ∀ e ∈ at_, Rests p z s.plan.seed e.1 e.2 m := fun e he =>
    ⟨waiting e he, (sites _ (List.mem_map_of_mem he)).1, (sites _ (List.mem_map_of_mem he)).2⟩
  have sole : ∀ e ∈ at_, Sole e.1 := fun e he => by
    refine queues e.1 (Array.mem_toList_iff.1 (List.mem_of_mem_drop (perm.mem_iff.2 ?_)))
    exact List.mem_append_left _ (List.mem_map_of_mem (f := fun e : Attempt × Site => some e.1) he)
  have tolls : (at_.map fun e => toll e.1 m e.2.rule).sum ≤
      ((at_.map (·.2)).map fun s => share tries m s.rule).sum := by
    rw [List.map_map]
    exact List.sum_le_sum fun e he => (rests e he).toll_le (sole e he)
  let at' := at_.map fun e => (e.1, e.2, m)
  have joined : Affords p z s.plan.seed (at'.map (fun e => some e.1) ++ s.ahead) (spent + 1) := by
    refine .join (List.forall_mem_map.2 rests) (others.mono ?_)
    rw [List.map_map]
    change spent + 1 + (at_.map fun e => toll e.1 m e.2.rule).sum ≤ _
    have three : tries (placed.map (·.component)) = 3 := rfl
    have own : toll a n site.rule = share tries n site.rule - 3 + (a.later.length + 1) := rfl
    omega
  refine joined.perm ?_
  rw [List.map_map]
  exact perm

end VoxelGrammar.Settlement
