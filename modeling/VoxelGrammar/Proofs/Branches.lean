import VoxelGrammar.Proofs.Journal

/-!
Properties of what the branches of a search find. A branch finds what its checkpoint remembers the
length of, so a property that holds of it keeps holding of it while the search only adds to what
there is; when the branch is undone, the property holds of what is left.
-/

namespace VoxelGrammar

variable {μ : Type}

/-- What the branch of a checkpoint has found, as far as it is still there. -/
def Search.foundBy (s : Search μ) (c : Checkpoint) : Snapshot :=
  ⟨s.plan.areas.take c.areas, s.plan.placements.take c.placements, c.queue, c.cursor,
    s.arena.live.take c.contexts⟩

structure Checkpoint.Fits (c : Checkpoint) (areas placements contexts : Nat) : Prop where
  areas : c.areas ≤ areas
  placements : c.placements ≤ placements
  contexts : c.contexts ≤ contexts

namespace Search

variable {w : World μ} {s s' : Search μ} {n : Nat} {P : Snapshot → Prop}

theorem take_of_isPrefix {α : Type} {xs ys : Array α} {k : Nat} (h : xs.toList <+: ys.toList)
    (hk : k ≤ xs.size) : ys.take k = xs.take k := by
  obtain ⟨more, hmore⟩ := h
  apply Array.toList_inj.1
  have hk' : k ≤ xs.toList.length := hk
  simp [Array.take, ← hmore, List.take_append_of_le_length hk']

/-- What a branch has found is not changed by what is added later. -/
theorem foundBy_grows {c : Checkpoint} (grows : Grows n s s') (hn : c.contexts ≤ n)
    (fits : c.Fits s.plan.areas.size s.plan.placements.size s.arena.size) :
    s'.foundBy c = s.foundBy c := by
  have hlive : s'.arena.live.take c.contexts = s.arena.live.take c.contexts :=
    (grows.contexts.mono hn).live
  rw [foundBy, foundBy, take_of_isPrefix grows.areas fits.areas,
    take_of_isPrefix grows.placements fits.placements, hlive]

/-- Undoing the latest branch leaves what it has found. -/
theorem snapshot_undone (w : World μ) (c : Checkpoint) (rest : List Checkpoint) (s : Search μ) :
    (undone w c rest s).snapshot = s.foundBy c := by
  rw [snapshot, foundBy, undone, Arena.live_truncate]

/-- Undoing a branch leaves what an earlier one has found. -/
theorem foundBy_undone {c d : Checkpoint} {rest : List Checkpoint}
    (fits : d.Fits c.areas c.placements c.contexts) :
    (undone w c rest s).foundBy d = s.foundBy d := by
  simp [foundBy, undone, Arena.live_truncate, List.take_take, fits.areas, fits.placements,
    fits.contexts]

structure Kept (P : Snapshot → Prop) (s : Search μ) : Prop where
  numbered : s.arena.Numbered
  fits : ∀ c ∈ s.plan.checkpoints,
    c.Fits s.plan.areas.size s.plan.placements.size s.arena.size
  nested : s.plan.checkpoints.Pairwise fun later earlier =>
    earlier.Fits later.areas later.placements later.contexts
  found : ∀ c ∈ s.plan.checkpoints, P (s.foundBy c)

namespace Kept

theorem grows (h : Kept P s) (grows : Grows n s s') (hn : ∀ c ∈ s.plan.checkpoints, c.contexts ≤ n) :
    Kept P s' where
  numbered := grows.numbered
  fits := by
    intro c hc
    rw [grows.checkpoints] at hc
    have fits := h.fits c hc
    exact ⟨Nat.le_trans fits.areas grows.areas.length_le,
      Nat.le_trans fits.placements grows.placements.length_le,
      Nat.le_trans (hn c hc) grows.contexts.le⟩
  nested := grows.checkpoints ▸ h.nested
  found := by
    intro c hc
    rw [grows.checkpoints] at hc
    rw [foundBy_grows grows (hn c hc) (h.fits c hc)]
    exact h.found c hc

theorem grows_all (h : Kept P s) (grows : Grows s.arena.size s s') : Kept P s' :=
  h.grows grows fun c hc => (h.fits c hc).contexts

theorem same (h : Kept P s) (same : Same s s') : Kept P s' :=
  h.grows_all (same.grows (Nat.le_refl _))

/-- The branches do not depend on the queue, the cursor and the memory. -/
theorem replan (h : Kept P s) (arena : s'.arena = s.arena) (areas : s'.plan.areas = s.plan.areas)
    (placements : s'.plan.placements = s.plan.placements)
    (checkpoints : s'.plan.checkpoints = s.plan.checkpoints) : Kept P s' := by
  obtain ⟨numbered, fits, nested, found⟩ := h
  rw [← checkpoints] at fits nested found
  simp only [foundBy, ← arena, ← areas, ← placements] at numbered fits found
  exact ⟨numbered, fits, nested, found⟩

/-- A branch may be opened where `P` holds. -/
theorem branched (h : Kept P s) (hs : P s.snapshot) : Kept P (branched s.arena.size s) where
  numbered := h.numbered
  fits := by
    intro c hc
    rcases List.mem_cons.1 hc with rfl | hc
    · exact ⟨Nat.le_refl _, Nat.le_refl _, Nat.le_refl _⟩
    · exact h.fits c hc
  nested := List.pairwise_cons.2 ⟨h.fits, h.nested⟩
  found := by
    intro c hc
    rcases List.mem_cons.1 hc with rfl | hc
    · have all : s.arena.live.take s.arena.size = s.arena.live := by
        rw [← Arena.length_live, List.take_length]
      simpa [foundBy, Search.branched, all, snapshot] using hs
    · exact h.found c hc

/-- A search that starts over has found nothing. -/
theorem started (w : World μ) (origin : Pos) (seed : Seed) (s : Search μ)
    (h : P (started w origin seed s).snapshot) : Kept P (started w origin seed s) := by
  refine .branched ⟨numbered_started w origin seed s, ?_, .nil, ?_⟩ h <;> simp [Plan.blank]

theorem undone {c : Checkpoint} {rest : List Checkpoint} (h : Kept P s)
    (hc : s.plan.checkpoints = c :: rest) :
    Kept P (undone w c rest s) ∧ P (undone w c rest s).snapshot := by
  obtain ⟨numbered, fits, nested, found⟩ := h
  rw [hc] at fits nested found
  obtain ⟨latest, nested⟩ := List.pairwise_cons.1 nested
  have bound := fits c List.mem_cons_self
  refine ⟨⟨Arena.numbered_truncate numbered _, fun d hd => ?_, nested, fun d hd => ?_⟩, ?_⟩
  · have fitsd := latest d hd
    have harena : c.contexts ≤ s.arena.size := bound.contexts
    simp only [Search.undone, Array.take, Array.size_extract, Arena.size_truncate]
    have hareas := bound.areas
    have hplacements := bound.placements
    refine ⟨?_, ?_, ?_⟩
    · have := fitsd.areas
      omega
    · have := fitsd.placements
      omega
    · have := fitsd.contexts
      omega
  · rw [foundBy_undone (latest d hd)]
    exact found d (List.mem_cons_of_mem _ hd)
  · rw [snapshot_undone]
    exact found c List.mem_cons_self

/-- Carrying an attempt out opens at most one branch, which finds what there was. -/
theorem carries {a : Attempt} {e : Expansion} (h : Kept P s) (hs : P s.snapshot)
    (hc : Carries w a s s' e) : Kept P s' := by
  rcases hc.grows with rfl | grows
  · exact h
  · exact (h.branched hs).grows_all grows

end Kept

/-- What is left of trying an entry has the property `P` if it has it once the next attempt has
been looked for and once the attempt has been carried out. -/
theorem kept_resolves {entry : Option Attempt} (h : Kept P s)
    (advances : ∀ a following s₁, entry = some a → (next w a).run s = (.ok following, s₁) →
      P (advanced following s₁).snapshot)
    (carried : ∀ a following s₁ s₂ e, entry = some a → (next w a).run s = (.ok following, s₁) →
      w.grammar.expansion a.candidate.expansion = .ok e →
      Carries w a (advanced following s₁) s₂ e → P (passed s₂).snapshot)
    (hr : Resolves w s entry s') : Kept P s' ∧ P s'.snapshot := by
  have looked : ∀ {a following s₁}, (next w a).run s = (.ok following, s₁) →
      Kept P (advanced following s₁) := by
    intro a following s₁ hnext
    have grows := (next_grows h.numbered (Nat.le_refl _) hnext).1
    exact (h.grows_all grows).replan rfl rfl rfl rfl
  cases hr with
  | undone run =>
      obtain ⟨c, rest, hc, rfl⟩ := undo_ok run
      exact h.undone hc
  | @failed a following s₁ _ hnext same =>
      refine ⟨(looked hnext).same same, ?_⟩
      have restored : s'.snapshot = (advanced following s₁).snapshot := by
        rw [snapshot, same.plan, same.live]
        rfl
      rw [restored]
      exact advances a following s₁ rfl hnext
  | @carried a following s₁ s₂ e hnext expansion hcarries =>
      have kept := (looked hnext).carries (advances a following s₁ rfl hnext) hcarries
      exact ⟨kept.replan rfl rfl rfl rfl,
        carried a following s₁ s₂ e rfl hnext expansion hcarries⟩

end Search

end VoxelGrammar
