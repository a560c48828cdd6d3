import VoxelGrammar.Proofs.Entrances
import VoxelGrammar.Proofs.Exhaustion
import VoxelGrammar.Proofs.Priorities
import VoxelGrammar.Proofs.Shares

/-!
Why a settlement always goes on. Every rule below the plaza may give up, and does so last; every expansion
can be taken up, whatever there is beside. So an entry of such a rule runs through its candidates, one
attempt each, and the last attempt succeeds.
-/

namespace VoxelGrammar.Settlement

open Search

variable {p : Provider} {id : RuleId} {r : Rule} {c : Candidate} {e : Expansion}

/-! ### Candidates -/

theorem length_candidates (hr : grammar.rule id = .ok r) (seed : Seed) :
    (r.candidates seed).length ≤ if id = settlement then 1 else 3 := by
  obtain ⟨_, arranges⟩ := Grammar.arranges_of_built built hr seed
  refine le_trans ?_ ((tables.few id (rule_lt hr)).of_eq hr)
  rw [← List.length_map (·.expansion)]
  refine (arranges.nodup.subperm fun x hx => ?_).length_le
  obtain ⟨c, hc, rfl⟩ := List.mem_map.1 hx
  exact (closed.tiered id r hr seed c hc).1

/-- The last candidate of a rule below the plaza gives up. -/
theorem gives_up_last (hr : grammar.rule id = .ok r) (other : id ≠ settlement) {seed : Seed}
    (last : [c] <:+ r.candidates seed) (he : grammar.expansion c.expansion = .ok e) :
    e.target = .nothing := by
  obtain ⟨_, arranges⟩ := Grammar.arranges_of_built built hr seed
  obtain ⟨x, _, f, hf, owner, gives⟩ := tables.givingUp id (rule_lt hr) other
  obtain ⟨d, hd, rfl⟩ : ∃ d ∈ r.candidates seed, d.expansion = x := by
    have once := arranges.once x f hf owner
    exact List.mem_map.1 (List.count_pos_iff.1 (once ▸ Nat.one_pos))
  obtain ⟨e', he', own, _⟩ := arranges.own c (last.mem (List.mem_singleton_self c))
  obtain rfl : e = e' := Except.ok.inj (he.symm.trans he')
  by_contra demands
  have ranks := tables.ranks f (Array.mem_of_getElem? (Fault.lookup_eq_ok_iff.1 hf)) e
    (Array.mem_of_getElem? (Fault.lookup_eq_ok_iff.1 he)) (owner.trans own.symm) gives demands
  -- So the expansion that gives up would come before the last one, whose priority is lower.
  obtain ⟨front, split⟩ := last
  have sorted := arranges.sorted
  rw [← split] at hd sorted
  rcases List.mem_append.1 hd with before | here
  · have le := (List.pairwise_append.1 sorted).2.2 d before c (List.mem_singleton_self c) f e hf he
    omega
  · obtain rfl := List.mem_singleton.1 here
    obtain rfl : e = f := Except.ok.inj (he.symm.trans hf)
    exact demands gives

/-! ### Attempts -/

/-- Every expansion can be taken up wherever its rule has been entered. -/
theorem plain_expansions (p : Provider) (he : grammar.expansion id = .ok e) :
    ∃ o, Plain (world p).forgetful e o := by
  have mem : e ∈ grammar.expansions := Array.mem_of_getElem? (Fault.lookup_eq_ok_iff.1 he)
  obtain ⟨conditions, params, _⟩ := tables.quietExpansions e mem
  obtain ⟨offers, told, one⟩ := tables.single e mem
  obtain ⟨o, rfl⟩ := List.length_eq_one_iff.1 one
  refine ⟨o, params, conditions, ?_⟩
  cases ht : e.target with
  | nothing | rule | component => exact ht ▸ told

structure Sole (a : Attempt) : Prop where
  listed : a.Listed grammar
  single : a.alternatives = []

theorem lasting_sole (p : Provider) : Lasting (world p).forgetful Sole := by
  have opened : ∀ {entry : RuleEntry} {candidates : List Candidate} {s s' : Search Unit} {a : Attempt},
      OpensFirst (world p).forgetful entry candidates s a s' → a.alternatives = [] := by
    rintro entry candidates s s' a ⟨_, c, later, e, x, _, _, opens⟩
    obtain ⟨o, plain⟩ := plain_expansions p opens.expansion
    obtain ⟨offers, told, order⟩ := opens.attachments
    obtain rfl : [o] = offers := Except.ok.inj (plain.offers.symm.trans told)
    rw [ordered_singleton] at order
    exact (List.cons.inj order).2.symm
  refine ⟨fun first rule order => ⟨first.listed rule order, opened first⟩, fun follows sole => ?_⟩
  refine ⟨follows.listed sole.listed, ?_⟩
  cases follows with
  | alternative first =>
      rw [sole.single] at first
      cases first
  | candidate opens => exact opened opens

section

variable {s s' : Search Unit} {a : Attempt} {following : Option Attempt}

/-- An attempt with further candidates is followed by one for the next of them. -/
theorem next_of_later {c : Candidate} {later : List Candidate} (sole : Sole a)
    (secure : Secure (world p).forgetful s) (current : s.plan.queue[s.plan.cursor]? = some (some a))
    (more : a.later = c :: later)
    (hr : (next (world p).forgetful a).run s = (.ok following, s')) :
    ∃ b, following = some b ∧ b.later = later := by
  have sane := secure.attempt current
  obtain ⟨e, he⟩ := sane.later c (by simp [more])
  obtain ⟨o, plain⟩ := plain_expansions p he
  obtain ⟨x, _, live⟩ := secure.arena.get sane.entry
  obtain ⟨h, s'', opens⟩ := openFirst_plain he plain secure.kept.numbered live later
  rw [next, sole.single] at hr
  dsimp only at hr
  rw [more, opens] at hr
  cases hr
  exact ⟨_, rfl, rfl⟩

/-- An attempt to place nothing succeeds. -/
theorem attempt_of_nothing {w : World Unit} (he : w.grammar.expansion a.candidate.expansion = .ok e)
    (gives : e.target = .nothing) : (attempt w a).run s = (.ok true, s) := by
  rw [attempt, SearchM.run_bind, SearchM.run_lift, he]
  dsimp only
  rw [gives]
  rfl

end

section

variable {z : Arena} {seed : Seed} {site : Site} {a : Attempt} (sole : Sole a)
  (waits : a.Waits (world p) z seed site)

include sole waits

/-- A waiting attempt is one of the rule at its site, and of no other one. -/
theorem Sole.rule_of_waits : ∃ r seed, grammar.rule site.rule = .ok r ∧
    a.candidate :: a.later <:+ r.candidates seed := by
  obtain ⟨id, r, seed', hr, order⟩ := sole.listed.order
  obtain ⟨r', hr', lists⟩ := waits.rule
  obtain ⟨_, arranges⟩ := Grammar.arranges_of_built built hr seed'
  obtain ⟨e, he, rfl, _⟩ := arranges.own _ (order.mem List.mem_cons_self)
  have known := (tables.targets site.rule (rule_lt hr')).of_eq hr'
  obtain ⟨owner, _⟩ := (known _ (lists _ List.mem_cons_self).1).of_eq he
  exact ⟨r, seed', owner ▸ hr, order⟩

/-- There are no more attempts than candidates. -/
theorem Sole.few : a.later.length + 1 ≤ if site.rule = settlement then 1 else 3 := by
  obtain ⟨r, seed', hr, order⟩ := sole.rule_of_waits waits
  exact order.length_le.trans (length_candidates hr seed')

/-- The last attempt at a rule below the plaza is to place nothing. -/
theorem Sole.gives_up (other : site.rule ≠ settlement) (last : a.later = [])
    (he : grammar.expansion a.candidate.expansion = .ok e) : e.target = .nothing := by
  obtain ⟨r, seed', hr, order⟩ := sole.rule_of_waits waits
  exact gives_up_last hr other (last ▸ order) he

end

end VoxelGrammar.Settlement
