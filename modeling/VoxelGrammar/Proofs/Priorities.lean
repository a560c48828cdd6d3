import VoxelGrammar.Proofs.Orders
import VoxelGrammar.Proofs.WellFormed

/-!
The order in which the expansions of a rule come up. Whatever the weights are, numbers or not, draws
without replacement only rearrange a tier, and the tiers follow one another in the total order of
their priorities. So the groups of expansions of one priority are a matter of the grammar, and only
the order within a group is a matter of the seed.
-/

namespace VoxelGrammar

variable {α β : Type}

namespace Tier

/-- The candidates of every tier are drawn in some order, one tier after the other. -/
theorem order_parts (seed : Seed) (tiers : List Tier) : ∃ parts : List (List Candidate),
    order seed tiers = parts.flatten ∧
      List.Forall₂ (fun part (t : Tier) => part.Perm t.candidates) parts tiers := by
  induction tiers generalizing seed with
  | nil => exact ⟨[], rfl, .nil⟩
  | cons t rest ih =>
      obtain ⟨parts, flat, perms⟩ := ih (drain t.candidates.length seed t.ratioSum t.candidates).2
      refine ⟨(drain t.candidates.length seed t.ratioSum t.candidates).1 :: parts, ?_,
        .cons (drain_perm _ _ _ _ rfl) perms⟩
      rw [List.flatten_cons, ← flat]
      rfl

/-- The tiers come in the order of their priorities. -/
theorem ascending_group (candidates : List (Binary32 × Candidate)) :
    (group candidates).Pairwise fun s t => s.priority.rank < t.priority.rank := by
  have sorted : (group candidates).Pairwise fun s t => s.priority.rank ≤ t.priority.rank := by
    have trans : ∀ a b c : Tier, decide (a.priority.rank ≤ b.priority.rank) = true →
        decide (b.priority.rank ≤ c.priority.rank) = true →
        decide (a.priority.rank ≤ c.priority.rank) = true := by
      intro a b c hab hbc
      rw [decide_eq_true_eq] at *
      omega
    have total : ∀ a b : Tier, (decide (a.priority.rank ≤ b.priority.rank) ||
        decide (b.priority.rank ≤ a.priority.rank)) = true := by
      intro a b
      rw [Bool.or_eq_true, decide_eq_true_eq, decide_eq_true_eq]
      omega
    exact (List.pairwise_mergeSort trans total _).imp of_decide_eq_true
  have apart := List.pairwise_map.1 (nodup_priorities candidates)
  refine (sorted.and apart).imp fun ⟨le, hne⟩ => ?_
  exact lt_of_le_of_ne le fun heq => hne (Binary32.rank_injective heq)

theorem place_nonempty (priority : Binary32) (c : Candidate) {tiers : List Tier}
    (h : ∀ t ∈ tiers, t.candidates ≠ []) : ∀ t ∈ place priority c tiers, t.candidates ≠ [] := by
  induction tiers with
  | nil =>
      rw [place]
      simp
  | cons u rest ih =>
      rw [List.forall_mem_cons] at h
      rw [place]
      split
      · exact List.forall_mem_cons.2 ⟨by simp, h.2⟩
      · exact List.forall_mem_cons.2 ⟨h.1, ih h.2⟩

/-- A tier is opened for a candidate. -/
theorem group_nonempty (candidates : List (Binary32 × Candidate)) :
    ∀ t ∈ group candidates, t.candidates ≠ [] := by
  have placed : ∀ tiers : List Tier, (∀ t ∈ tiers, t.candidates ≠ []) →
      ∀ t ∈ candidates.foldl (fun tiers c => place c.1 c.2 tiers) tiers, t.candidates ≠ [] := by
    induction candidates with
    | nil => exact fun _ h => h
    | cons c rest ih => exact fun tiers h => ih _ (place_nonempty c.1 c.2 h)
  intro t ht
  exact placed [] (fun _ h => nomatch h) t ((group_perm_foldl candidates).mem_iff.1 ht)

/-- Where every two candidates of tiers that follow one another, and every two of one tier, stand in a
relation, so do those that are drawn. -/
theorem order_pairwise {R : Candidate → Candidate → Prop} (seed : Seed) {tiers : List Tier}
    (within : ∀ t ∈ tiers, ∀ c ∈ t.candidates, ∀ d ∈ t.candidates, R c d)
    (across : tiers.Pairwise fun s t => ∀ c ∈ s.candidates, ∀ d ∈ t.candidates, R c d) :
    (order seed tiers).Pairwise R := by
  induction tiers generalizing seed with
  | nil => exact .nil
  | cons t rest ih =>
      rw [List.pairwise_cons] at across
      rw [List.forall_mem_cons] at within
      have drawn := drain_perm _ seed t.ratioSum t.candidates rfl
      refine List.pairwise_append.2 ⟨?_, ih _ within.2 across.2, fun c hc d hd => ?_⟩
      · exact List.pairwise_of_forall_mem_list fun c hc d hd =>
          within.1 c (drawn.mem_iff.1 hc) d (drawn.mem_iff.1 hd)
      · obtain ⟨u, hu, hd⟩ := List.mem_flatMap.1 ((order_perm _ rest).mem_iff.1 hd)
        exact across.1 u hu c (drawn.mem_iff.1 hc) d hd

end Tier

/-! ### Expansions of a rule -/

structure Candidate.For (c : Candidate) (x : ExpansionId) (e : Expansion) : Prop where
  expansion : c.expansion = x
  ratio : c.ratio = e.ratio.value
  reflected : c.reflected = e.reflected

namespace Draft

/-- The candidates of a rule carry the data of their expansions. -/
theorem for_of_mem_candidatesOf {expansions : Array Expansion} {r : Rule} {p : Binary32}
    {c : Candidate} (h : (p, c) ∈ candidatesOf expansions r) :
    ∃ e : Expansion, expansions[c.expansion]? = some e ∧ c.For c.expansion e := by
  obtain ⟨x, _, h⟩ := List.mem_filterMap.1 h
  obtain ⟨e, he, heq⟩ := Option.map_eq_some_iff.1 h
  cases heq
  exact ⟨e, he, rfl, rfl, rfl⟩

end Draft

def Rule.groups (r : Rule) : List (Binary32 × List ExpansionId) :=
  r.tiers.map fun t => (t.priority, t.candidates.map (·.expansion))

namespace Grammar

structure Groups (g : Grammar) (id : RuleId) (groups : List (Binary32 × List ExpansionId)) :
    Prop where
  ascending : groups.Pairwise fun s t => s.1.rank < t.1.rank
  nonempty : ∀ s ∈ groups, s.2 ≠ []
  members : ∀ s ∈ groups, ∀ x,
    x ∈ s.2 ↔ ∃ e, g.expansion x = .ok e ∧ e.owner = id ∧ e.priority = s.1

/-- The candidates are the expansions of the rule, group by group. -/
structure Arranges (g : Grammar) (id : RuleId) (groups : List (Binary32 × List ExpansionId))
    (candidates : List Candidate) : Prop where
  /-- Every expansion of the rule comes up once. -/
  once : ∀ x e, g.expansion x = .ok e → e.owner = id →
    (candidates.map (·.expansion)).count x = 1
  /-- Nothing else comes up, and what does has its own weight and turn. -/
  own : ∀ c ∈ candidates, ∃ e, g.expansion c.expansion = .ok e ∧ e.owner = id ∧
    c.For c.expansion e
  sorted : candidates.Pairwise fun c d => ∀ e f, g.expansion c.expansion = .ok e →
    g.expansion d.expansion = .ok f → e.priority.rank ≤ f.priority.rank
  /-- The groups follow one another, each rearranged in itself. -/
  grouped : ∃ parts : List (List Candidate), candidates = parts.flatten ∧
    List.Forall₂ (fun part group => (part.map (·.expansion)).Perm group.2) parts groups

section Compiled

variable {d : Draft} (filed : d.Filed) {id : RuleId} {entry : Draft.Entry Rule}
  (hentry : d.rules[id]? = some entry)

include filed hentry

/-- A rule lists what it owns. -/
theorem mem_expansions_iff (x : ExpansionId) : x ∈ entry.value.expansions ↔
    ∃ e, d.compile.expansion x = .ok e ∧ e.owner = id := by
  constructor
  · intro hx
    obtain ⟨y, hy, owner⟩ := filed.listed.owner id entry hentry x hx
    exact ⟨_, Draft.expansion_compile.2 ⟨y, hy, rfl⟩, owner⟩
  · rintro ⟨e, he, rfl⟩
    obtain ⟨y, hy, rfl⟩ := Draft.expansion_compile.1 he
    obtain ⟨entry', hentry', hx⟩ := filed.listed.owned x y hy
    cases hentry.symm.trans hentry'
    exact hx

theorem known_expansions : ∀ x ∈ entry.value.expansions, x < d.compile.expansions.size := by
  intro x hx
  obtain ⟨e, he, _⟩ := (mem_expansions_iff filed hentry x).1 hx
  exact (Array.getElem?_eq_some_iff.1 (Fault.lookup_eq_ok_iff.1 he)).1

/-- A candidate is in the tier of its expansion's priority. -/
theorem mem_tier_iff {t : Tier}
    (ht : t ∈ (Draft.completeRule d.compile.expansions entry.value).tiers) (x : ExpansionId) :
    x ∈ t.candidates.map (·.expansion) ↔
      ∃ e, d.compile.expansion x = .ok e ∧ e.owner = id ∧ e.priority = t.priority := by
  constructor
  · intro hx
    obtain ⟨c, hc, rfl⟩ := List.mem_map.1 hx
    obtain ⟨listed, e, he, priority⟩ := Draft.mem_candidatesOf (Tier.mem_group ht hc)
    obtain ⟨e', he', owner⟩ := (mem_expansions_iff filed hentry _).1 listed
    cases he'.symm.trans (Fault.lookup_eq_ok_iff.2 he)
    exact ⟨_, he', owner, priority⟩
  · rintro ⟨e, he, owner, priority⟩
    have listed := (mem_expansions_iff filed hentry x).2 ⟨e, he, owner⟩
    have known := known_expansions filed hentry
    obtain ⟨u, hu, hx⟩ := List.mem_flatMap.1 ((Draft.tiers_perm known).mem_iff.2 listed)
    have files := Draft.files_of_listed known
      (filed.listed.nodup entry (Array.mem_of_getElem? hentry)) listed (Fault.lookup_eq_ok_iff.1 he)
    have same : t.priority = u.priority := priority.symm.trans (files.tier u hu hx).symm
    obtain rfl := List.inj_on_of_nodup_map (Tier.nodup_priorities _) ht hu same
    exact hx

theorem groups_compile :
    d.compile.Groups id (Draft.completeRule d.compile.expansions entry.value).groups where
  ascending := List.pairwise_map.2 (Tier.ascending_group _)
  nonempty := by
    refine List.forall_mem_map.2 fun t ht hnil => ?_
    exact Tier.group_nonempty _ t ht (List.map_eq_nil_iff.1 hnil)
  members := List.forall_mem_map.2 fun t ht => mem_tier_iff filed hentry ht

theorem arranges_compile (seed : Seed) :
    d.compile.Arranges id (Draft.completeRule d.compile.expansions entry.value).groups
      ((Draft.completeRule d.compile.expansions entry.value).candidates seed) where
  once x e he owner := by
    have listed := (mem_expansions_iff filed hentry x).2 ⟨e, he, owner⟩
    have drawn := ((Tier.order_perm seed (Draft.completeRule d.compile.expansions
      entry.value).tiers).map (·.expansion)).trans (.of_eq List.map_flatMap)
    have all := drawn.trans (Draft.tiers_perm (known_expansions filed hentry))
    refine (all.count_eq x).trans ?_
    exact List.count_eq_one_of_mem (filed.listed.nodup entry (Array.mem_of_getElem? hentry)) listed
  own c hc := by
    obtain ⟨t, ht, hc⟩ := List.mem_flatMap.1 ((Tier.order_perm seed _).mem_iff.1 hc)
    obtain ⟨e, he, owner, _⟩ :=
      (mem_tier_iff filed hentry ht _).1 (List.mem_map_of_mem hc)
    obtain ⟨e', he', stands⟩ := Draft.for_of_mem_candidatesOf (Tier.mem_group ht hc)
    cases he.symm.trans (Fault.lookup_eq_ok_iff.2 he')
    exact ⟨e, he, owner, stands⟩
  sorted := by
    have priority : ∀ t ∈ (Draft.completeRule d.compile.expansions entry.value).tiers,
        ∀ c ∈ t.candidates, ∀ e, d.compile.expansion c.expansion = .ok e →
          e.priority = t.priority := by
      intro t ht c hc e he
      obtain ⟨e', he', _, priority⟩ :=
        (mem_tier_iff filed hentry ht _).1 (List.mem_map_of_mem hc)
      cases he.symm.trans he'
      exact priority
    refine Tier.order_pairwise seed (fun t ht c hc c' hc' e f he hf => ?_)
      ((Tier.ascending_group _).imp_of_mem fun ht hu lt c hc c' hc' e f he hf => ?_)
    · rw [priority t ht c hc e he, priority t ht c' hc' f hf]
    · rw [priority _ ht c hc e he, priority _ hu c' hc' f hf]
      exact lt.le
  grouped := by
    obtain ⟨parts, flat, perms⟩ := Tier.order_parts seed
      (Tier.group (Draft.candidatesOf d.compile.expansions entry.value))
    exact ⟨parts, flat, List.forall₂_map_right_iff.2 (perms.imp fun _ _ perm => perm.map _)⟩

end Compiled

/-- No expansion comes up twice. -/
theorem Arranges.nodup {g : Grammar} {id : RuleId} {groups : List (Binary32 × List ExpansionId)}
    {candidates : List Candidate} (arranges : g.Arranges id groups candidates) :
    (candidates.map (·.expansion)).Nodup := by
  refine List.nodup_iff_count_le_one.2 fun x => ?_
  by_cases hx : x ∈ candidates.map (·.expansion)
  · obtain ⟨c, hc, rfl⟩ := List.mem_map.1 hx
    obtain ⟨e, he, owner, _⟩ := arranges.own c hc
    exact (arranges.once _ e he owner).le
  · exact (List.count_eq_zero_of_not_mem hx).trans_le (Nat.zero_le 1)

section

variable {own : Prop} {g : Grammar} (built : g.Built own) {id : RuleId} {r : Rule}
  (hr : g.rule id = .ok r) (seed : Seed)

include built hr

theorem arranges_of_built : ∃ groups, g.Arranges id groups (r.candidates seed) := by
  obtain ⟨d, reached, _, rfl⟩ := built.drafted
  obtain ⟨entry, hentry, rfl⟩ := Draft.rule_compile.1 hr
  exact ⟨_, arranges_compile (Draft.filed_of_reached reached) hentry seed⟩

/-- No candidate of a rule comes up twice. -/
theorem nodup_candidates : (r.candidates seed).Nodup := by
  obtain ⟨_, arranges⟩ := arranges_of_built built hr seed
  exact .of_map _ arranges.nodup

end

end Grammar

/-- The candidates of a rule are its expansions, each once and with its own weight and turn, in the
total order of their priorities, and the groups of one priority do not depend on the seed. -/
theorem Rule.candidates_arranged {own : Prop} {g : Grammar} (built : g.Built own) {id : RuleId}
    {r : Rule} (hr : g.rule id = .ok r) :
    g.Groups id r.groups ∧ ∀ seed, g.Arranges id r.groups (r.candidates seed) := by
  obtain ⟨d, reached, _, rfl⟩ := built.drafted
  obtain ⟨entry, hentry, rfl⟩ := Draft.rule_compile.1 hr
  have filed := Draft.filed_of_reached reached
  exact ⟨Grammar.groups_compile filed hentry, Grammar.arranges_compile filed hentry⟩

/-- Priorities of minus zero, zero and no number, with weights that are infinite, negative and no
numbers. -/
def medley : Draft :=
  .ofStatements
    [.rule "medley", .toNothing 0, .toRule 0 0, .toNothing 0, .toRule 0 0, .toNothing 0,
      .pragma (.expansion 0) "priority" (.number ⟨0x7fc00000⟩),
      .pragma (.expansion 1) "priority" (.number ⟨0⟩),
      .pragma (.expansion 1) "probabilityRatio" (.number ⟨0xbf800000⟩),
      .pragma (.expansion 2) "priority" (.number ⟨0⟩),
      .pragma (.expansion 2) "probabilityRatio" (.number ⟨0x7f800000⟩),
      .pragma (.expansion 3) "priority" (.number ⟨0⟩),
      .pragma (.expansion 3) "probabilityRatio" (.number ⟨0x7fc00000⟩),
      .pragma (.expansion 4) "priority" (.number ⟨0x80000000⟩)]

theorem built_medley : medley.compile.Built True :=
  Draft.built_ofStatements (by decide +kernel) (by decide +kernel)

theorem Rule.candidates_arranged_medley :
    (medley.compile.expansions.map fun e => e.priority.rank).toList =
      [0x7fc00000, 0, 0, 0, -1] ∧
    ∃ r, medley.compile.rule 0 = .ok r ∧ medley.compile.Groups 0 r.groups ∧
      ∀ seed, medley.compile.Arranges 0 r.groups (r.candidates seed) := by
  refine ⟨by decide +kernel, ?_⟩
  have known : (medley.compile.rule 0).toOption.isSome := by decide +kernel
  cases hr : medley.compile.rule 0 with
  | error f =>
      rw [hr] at known
      cases known
  | ok r => exact ⟨r, rfl, Rule.candidates_arranged built_medley hr⟩

end VoxelGrammar
