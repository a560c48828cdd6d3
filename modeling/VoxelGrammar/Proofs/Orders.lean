import Mathlib.Data.List.Basic
import Mathlib.Data.List.Flatten
import VoxelGrammar.Grammar.Compile
import VoxelGrammar.Search.Attempt

/-!
Random orders leave nothing out and repeat nothing. A shuffle only exchanges elements, and the
candidates of a rule, in whatever order they are drawn, are those that went into its tiers.
-/

namespace VoxelGrammar

variable {α : Type}

namespace Seed

theorem exchange_perm (seed : Seed) {n : Nat} (k : Nat) (h : k ≤ n) (xs : Vector α n) :
    (exchange seed xs k h).toList.Perm xs.toList := by
  induction k generalizing xs with
  | zero => exact .refl _
  | succ k ih =>
      rw [exchange]
      refine (ih _ _).trans ?_
      rw [← Vector.perm_iff_toList_perm]
      exact Vector.swap_perm _ _

theorem shuffle_perm (seed : Seed) (xs : List α) : (shuffle seed xs).Perm xs := by
  have perm := exchange_perm seed xs.toArray.size (Nat.le_refl _) xs.toArray.toVector
  exact perm

end Seed

namespace Tier

theorem pick_perm (point sum : Float32) (c : Candidate) (rest : List Candidate) :
    ((pick point sum c rest).1 :: (pick point sum c rest).2).Perm (c :: rest) := by
  induction rest generalizing sum c with
  | nil => exact .refl _
  | cons d rest ih =>
      rw [pick]
      split
      · exact .refl _
      · exact (List.Perm.swap _ _ _).trans ((ih (sum + c.ratio) d).cons c)

theorem drain_perm (n : Nat) (seed : Seed) (sum : Float32) (candidates : List Candidate)
    (h : candidates.length = n) : (drain n seed sum candidates).1.Perm candidates := by
  induction n generalizing seed sum candidates with
  | zero =>
      rw [List.length_eq_zero_iff.1 h]
      exact .refl _
  | succ n ih =>
      cases candidates with
      | nil => cases h
      | cons c rest =>
          have perm := pick_perm ((Seed.rehash seed &&& 0xffff).toFloat32 / 65535 * sum) 0 c rest
          have others := perm.length_eq
          simp only [List.length_cons] at others h
          exact ((ih _ _ _ (by omega)).cons _).trans perm

/-- The candidates of a list of tiers are drawn in some order. -/
theorem order_perm (seed : Seed) (tiers : List Tier) :
    (order seed tiers).Perm (tiers.flatMap (·.candidates)) := by
  induction tiers generalizing seed with
  | nil => exact .refl _
  | cons t rest ih => exact (drain_perm _ _ _ _ rfl).append (ih _)

theorem place_perm (priority : Binary32) (c : Candidate) (tiers : List Tier) :
    ((place priority c tiers).flatMap (·.candidates)).Perm (c :: tiers.flatMap (·.candidates)) := by
  induction tiers with
  | nil => exact .refl _
  | cons t rest ih =>
      rw [place]
      split
      · rw [List.flatMap_cons, List.flatMap_cons, List.append_assoc]
        exact List.perm_middle
      · rw [List.flatMap_cons, List.flatMap_cons]
        exact (ih.append_left _).trans List.perm_middle

/-- Grouping into tiers keeps all candidates. -/
theorem group_perm (candidates : List (Binary32 × Candidate)) :
    ((group candidates).flatMap (·.candidates)).Perm (candidates.map (·.2)) := by
  have placed : ∀ tiers, ((candidates.foldl (fun tiers c => place c.1 c.2 tiers) tiers).flatMap
      (·.candidates)).Perm (tiers.flatMap (·.candidates) ++ candidates.map (·.2)) := by
    induction candidates with
    | nil =>
        intro tiers
        simp
    | cons c rest ih =>
        intro tiers
        refine (ih _).trans (((place_perm c.1 c.2 tiers).append_right _).trans ?_)
        exact List.perm_middle.symm
  exact ((List.mergeSort_perm _ _).flatMap_right _).trans (placed [])

end Tier

/-- The attachments of a target are tried in some order. -/
theorem Search.mem_ordered {target : Target} {seed : Seed} {offers : List Attachment} {o : Attachment}
    (h : o ∈ ordered target seed offers) : o ∈ offers := by
  cases target with
  | component id node => exact (Seed.shuffle_perm _ _).mem_iff.1 h
  | nothing => exact h
  | rule id => exact h

/-! ### Candidates of rules -/

def Grammar.Lists (g : Grammar) (r : Rule) (c : Candidate) : Prop :=
  c.expansion ∈ r.expansions ∧
    ∃ e, g.expansion c.expansion = .ok e ∧ e.reflected = c.reflected

def Grammar.Tiered (g : Grammar) : Prop :=
  ∀ id r, g.rule id = .ok r → ∀ seed, ∀ c ∈ r.candidates seed, g.Lists r c

theorem Draft.tiered_compile (d : Draft) : d.compile.Tiered := by
  intro id r hr seed c hc
  obtain ⟨e, he, rfl⟩ : ∃ e : Draft.Entry Rule, d.rules[id]? = some e ∧
      completeRule (d.expansions.map completeExpansion) e.value = r := by
    simp only [Grammar.rule, Fault.lookup, compile, Array.getElem?_map] at hr
    cases hd : d.rules[id]? with
    | none =>
        rw [hd] at hr
        cases hr
    | some e =>
        rw [hd] at hr
        cases hr
        exact ⟨e, rfl, rfl⟩
  have listed := (Tier.group_perm _).mem_iff.1 ((Tier.order_perm seed _).mem_iff.1 hc)
  obtain ⟨⟨priority, _⟩, hmem, rfl⟩ := List.mem_map.1 listed
  obtain ⟨i, hi, hx⟩ := List.mem_filterMap.1 hmem
  obtain ⟨x, found, heq⟩ := Option.map_eq_some_iff.1 hx
  cases heq
  have found : d.compile.expansions[i]? = some x := found
  refine ⟨hi, x, ?_, rfl⟩
  rw [Grammar.expansion, Fault.lookup, found]

end VoxelGrammar
