import VoxelGrammar.Proofs.Sanity

/-!
What all queued attempts have in common. An attempt that a search queues is the first one of some
candidates of a rule, or it comes after another one of the same entry. So a property of attempts that is
there with the first one and passes from each to the next is one of all queued attempts, whatever the
search does.
-/

namespace VoxelGrammar.Search

variable {μ : Type} {w : World μ} {s s' : Search μ} {P : Attempt → Prop}

/-- The property is there with the first attempt of candidates, and passes from each attempt to the next
one of its entry. -/
structure Lasting (w : World μ) (P : Attempt → Prop) : Prop where
  first : ∀ {entry : RuleEntry} {candidates : List Candidate} {s s' : Search μ} {a : Attempt}
    {id : RuleId} {r : Rule} {seed : Seed}, OpensFirst w entry candidates s a s' →
      w.grammar.rule id = .ok r → candidates <:+ r.candidates seed → P a
  follows : ∀ {s s' : Search μ} {a b : Attempt}, Follows w a s b s' → P a → P b

def Queues (P : Attempt → Prop) (s : Search μ) : Prop := ∀ a, some a ∈ s.plan.queue → P a

theorem Queues.replan (h : Queues P s) (queue : s'.plan.queue = s.plan.queue) : Queues P s' := by
  rw [Queues, queue]
  exact h

section

variable (lasting : Lasting w P)

include lasting

theorem EntersRule.queues {id : RuleId} {origin : Pos} {orientation : Orientation}
    {parent : Option Handle} {r : Rule} {x : Context} {a : Attempt}
    (h : EntersRule w id origin orientation parent s r x a s') (queues : Queues P s) :
    Queues P s' := by
  obtain ⟨s₁, s₂, _, _, first, _⟩ := h.opens
  obtain ⟨q, hq, hplan⟩ := h.queued
  intro b hb
  rw [hplan] at hb
  rcases mem_queued hq hb with hb | rfl
  · exact queues b hb
  · exact lasting.first first h.rule (List.suffix_refl _)

theorem EntersNodes.queues {h : Handle} {nodes : Array Node} {is : List Nat}
    (enters : EntersNodes w h nodes is s s') (queues : Queues P s) : Queues P s' := by
  induction enters with
  | nil same => exact queues.replan (congrArg Plan.queue same.plan)
  | skip _ _ _ ih => exact ih queues
  | enter _ _ _ enters _ ih => exact ih (enters.queues lasting queues)

theorem Carries.queues {a : Attempt} {e : Expansion} (h : Carries w a s s' e)
    (queues : Queues P s) : Queues P s' := by
  cases h with
  | nothing _ same => exact same ▸ queues
  | rule _ enters => exact enters.queues lasting queues
  | component _ places =>
      obtain ⟨s₁, areas, _, _, hplan, enters⟩ := places.populated
      exact enters.queues lasting (queues.replan (by rw [hplan]))

theorem advanced_queues {a : Attempt} {following : Option Attempt} (numbered : s.arena.Numbered)
    (current : s.plan.queue[s.plan.cursor]? = some (some a))
    (hnext : (next w a).run s = (.ok following, s')) (queues : Queues P s) :
    Queues P (advanced following s') := by
  have hplan := (next_grows numbered (Nat.le_refl _) hnext).2
  intro b hb
  rw [advanced, hplan] at hb
  rcases Array.mem_or_eq_of_mem_setIfInBounds hb with hb | rfl
  · exact queues b hb
  · rcases next_ok numbered hnext with ⟨hnone, _⟩ | ⟨b', hb', follows⟩
    · cases hnone
    · cases hb'
      exact lasting.follows follows (queues a (Array.mem_of_getElem? current))

theorem setup_queues {rule : RuleId} {origin : Pos} {seed : Seed}
    (hr : (setup w rule origin seed).run s = (.ok (), s')) : Queues P s' := by
  have starts : Queues P (started w origin seed s) := fun a ha => by
    simp [started, branched, Plan.blank] at ha
  rcases setup_ok hr with same | ⟨r, x, a, enters⟩
  · exact starts.replan (congrArg Plan.queue same.plan)
  · exact enters.queues lasting starts

end

end VoxelGrammar.Search
