import VoxelGrammar.Pool
import VoxelGrammar.Proofs.Independence

/-!
What becomes of the jobs of a pool. A job is announced, queued, held by a worker and delivered, and
every event moves one job by one place or none at all. So whatever the events are interleaved like,
each job that has been submitted is in one place, and the counter of outstanding jobs tells how many
there are that no worker has counted off. Workers leave an empty queue behind, so those that are
asked to leave serve what was submitted before. What a worker searched for earlier has no influence
on a result.
-/

namespace VoxelGrammar

/-! ### Where the jobs are -/

/-- The job that a worker holds, its result not delivered yet. -/
@[simp] def Activity.held? : Activity → Option Job
  | .searching j => some j
  | .delivering r => some r.job
  | _ => none

/-- The job that a worker has not counted off yet. -/
@[simp] def Activity.unsettled? : Activity → Option Job
  | .settling j => some j
  | a => a.held?

namespace PoolEvent

@[simp] def begun? : PoolEvent → Option Job
  | .announce j => some j
  | _ => none

@[simp] def submitted? : PoolEvent → Option Job
  | .enqueue j => some j
  | _ => none

@[simp] def settles : PoolEvent → Bool
  | .settle _ => true
  | _ => false

end PoolEvent

namespace Job

def reported? {μ : Type} (j : Job) (run : Except Fault (Except SearchFailure BlockMap) × Search μ) :
    Option JobResult :=
  (report? run.1).map (⟨j, ·, run.2.plan.expansions, run.2.plan.placements.size⟩)

variable {j : Job} {w : World Memory} {limits : Limits} {s s' : Search Memory}

theorem report?_eq_none {x : Except Fault (Except SearchFailure BlockMap)}
    (h : report? x = none) : x = .error .endlessEvaluation := by
  rcases x with f | outcome
  · cases f <;> first | rfl | cases h
  · cases h

theorem report?_eq_some {x : Except Fault (Except SearchFailure BlockMap)}
    {outcome : Except SearchFailure BlockMap} (h : report? x = some outcome) :
    x = .ok outcome ∨ (∃ f, x = .error f ∧ f ≠ .endlessEvaluation) ∧ outcome = .error .broken := by
  rcases x with f | outcome'
  · refine .inr ⟨⟨f, rfl, ?_⟩, ?_⟩
    · rintro rfl
      cases h
    · cases f <;> cases h <;> rfl
  · cases h
    exact .inl rfl

/-- A result tells of the search for its job. -/
theorem serve_some {r : JobResult} (h : j.serve w limits s = (some r, s')) :
    (Search.generate w limits j.rule j.origin j.seed).run s =
        (((Search.generate w limits j.rule j.origin j.seed).run s).1, s') ∧
      report? ((Search.generate w limits j.rule j.origin j.seed).run s).1 = some r.outcome ∧
      r.job = j ∧ r.expansions = s'.plan.expansions ∧ r.components = s'.plan.placements.size := by
  rw [serve] at h
  generalize (Search.generate w limits j.rule j.origin j.seed).run s = run at h ⊢
  obtain ⟨reported, rfl⟩ := Prod.ext_iff.1 h
  obtain ⟨outcome, houtcome, rfl⟩ := Option.map_eq_some_iff.1 reported
  exact ⟨rfl, houtcome, rfl, rfl, rfl⟩

theorem serve_none (h : j.serve w limits s = (none, s')) :
    ((Search.generate w limits j.rule j.origin j.seed).run s).1 = .error .endlessEvaluation := by
  rw [serve] at h
  exact report?_eq_none (Option.map_eq_none_iff.1 (congrArg Prod.fst h))

end Job

/-- The result is what every fresh generator comes to when it is asked for the job: the outcome, unless
a fault breaks it off, and the attempts and components that there are in the end. -/
def JobResult.Fresh (w : World Memory) (limits : Limits) (r : JobResult) : Prop :=
  ∀ (draws : Nat → UInt32) (capacity : Nat) (policy : EvictionPolicy),
    let run := (Search.generate w limits r.job.rule r.job.origin r.job.seed).run
      (.new (.ofCache (.create draws capacity policy)))
    (run.1 = .ok r.outcome ∨
      (∃ f, run.1 = .error f ∧ f ≠ .endlessEvaluation) ∧ r.outcome = .error .broken) ∧
    r.expansions = run.2.plan.expansions ∧ r.components = run.2.plan.placements.size

namespace Pool

def begun (events : List PoolEvent) : List Job := events.filterMap (·.begun?)

def submitted (events : List PoolEvent) : List Job := events.filterMap (·.submitted?)

def settled (events : List PoolEvent) : Nat := events.countP (·.settles)

def held (workers : List Worker) : List Job := workers.filterMap (·.activity.held?)

def unsettled (workers : List Worker) : List Job := workers.filterMap (·.activity.unsettled?)

def Staffed (p : Pool) : Prop := ∃ x ∈ p.workers, x.activity ≠ .gone

def Deserted (p : Pool) : Prop := ∀ x ∈ p.workers, x.activity = .gone

/-- The pool after events all of which can happen, one after the other. -/
def after? (w : World Memory) (limits : Limits) (p : Pool) (events : List PoolEvent) :
    Option Pool :=
  events.foldlM (fun p e => p.step? w limits e) p

/-! ### Events -/

inductive Happens (w : World Memory) (limits : Limits) (p : Pool) : PoolEvent → Pool → Prop
  | announce (j : Job) : Happens w limits p (.announce j)
      { p with announced := j :: p.announced, outstanding := p.outstanding + 1 }
  | enqueue {j : Job} (announced : j ∈ p.announced) : Happens w limits p (.enqueue j)
      { p with announced := p.announced.erase j, queue := p.queue ++ [j] }
  | take {k : Nat} {s : Search Memory} {j : Job} {rest : List Job}
      (worker : p.workers[k]? = some ⟨.waiting, s⟩) (queue : p.queue = j :: rest) :
      Happens w limits p (.take k) ({ p with queue := rest }.setWorker k (.searching j) s)
  | search {k : Nat} {s s' : Search Memory} {j : Job} {r : JobResult}
      (worker : p.workers[k]? = some ⟨.searching j, s⟩) (answers : j.serve w limits s = (some r, s')) :
      Happens w limits p (.search k) (p.setWorker k (.delivering r) s')
  | breakDown {k : Nat} {s s' : Search Memory} {j : Job}
      (worker : p.workers[k]? = some ⟨.searching j, s⟩) (silent : j.serve w limits s = (none, s')) :
      Happens w limits p (.search k) { p with down := true }
  | deliver {k : Nat} {s : Search Memory} {r : JobResult}
      (worker : p.workers[k]? = some ⟨.delivering r, s⟩) : Happens w limits p (.deliver k)
      ({ p with delivered := p.delivered ++ [r] }.setWorker k (.settling r.job) s)
  | settle {k : Nat} {s : Search Memory} {j : Job}
      (worker : p.workers[k]? = some ⟨.settling j, s⟩) : Happens w limits p (.settle k)
      ({ p with outstanding := p.outstanding - 1 }.setWorker k .waiting s)
  | close : Happens w limits p .close { p with closed := true }
  | leave {k : Nat} {s : Search Memory} (worker : p.workers[k]? = some ⟨.waiting, s⟩)
      (queue : p.queue = []) (closed : p.closed = true) :
      Happens w limits p (.leave k) (p.setWorker k .gone s)

variable {w : World Memory} {limits : Limits} {p q : Pool} {e : PoolEvent}
  {events more : List PoolEvent}

theorem up_of_step (h : p.step? w limits e = some q) : p.down = false := by
  unfold step? at h
  split at h
  · cases h
  · next up => exact Bool.eq_false_of_not_eq_true up

theorem happens_of_step (h : p.step? w limits e = some q) : Happens w limits p e q := by
  have up := up_of_step h
  unfold step? at h
  rw [if_neg (Bool.eq_false_iff.1 up)] at h
  cases e with
  | announce j =>
      cases h
      exact .announce j
  | enqueue j =>
      dsimp only at h
      split at h
      · next announced =>
        cases h
        exact .enqueue announced
      · cases h
  | take k =>
      dsimp only at h
      split at h
      · next worker queue =>
        cases h
        exact .take worker queue
      · cases h
  | search k =>
      dsimp only at h
      split at h
      · next worker =>
        split at h
        · next answers =>
          cases h
          exact .search worker answers
        · next silent =>
          cases h
          exact .breakDown worker silent
      · cases h
  | deliver k =>
      dsimp only at h
      split at h
      · next worker =>
        cases h
        exact .deliver worker
      · cases h
  | settle k =>
      dsimp only at h
      split at h
      · next worker =>
        cases h
        exact .settle worker
      · cases h
  | close =>
      cases h
      exact .close
  | leave k =>
      dsimp only at h
      split at h
      · next worker queue =>
        split at h
        · next closed =>
          cases h
          exact .leave worker queue closed
        · cases h
      · cases h

theorem step_of_happens (up : p.down = false) (h : Happens w limits p e q) :
    p.step? w limits e = some q := by
  unfold step?
  rw [if_neg (Bool.eq_false_iff.1 up)]
  cases h with
  | announce => rfl
  | enqueue announced => exact if_pos announced
  | take worker queue => simp only [worker, queue]
  | search worker answers => simp only [worker, answers]
  | breakDown worker silent => simp only [worker, silent]
  | deliver worker => simp only [worker]
  | settle worker => simp only [worker]
  | close => rfl
  | leave worker queue closed => simp only [worker, queue, closed, if_true]

theorem after?_append :
    p.after? w limits (events ++ more) = (p.after? w limits events).bind (·.after? w limits more) :=
  List.foldlM_append

theorem after?_cons : p.after? w limits (e :: events) =
    (p.step? w limits e).bind (·.after? w limits events) := List.foldlM_cons

/-- What holds in the beginning and stays so whatever happens holds after all events. -/
theorem after_induction {P : List PoolEvent → Pool → Prop} (h : p.after? w limits events = some q)
    (nil : P [] p)
    (step : ∀ events e q r, P events q → Happens w limits q e r → P (events ++ [e]) r) :
    P events q := by
  induction events using List.reverseRecOn generalizing q with
  | nil =>
      cases h
      exact nil
  | append_singleton events e ih =>
      rw [after?_append] at h
      obtain ⟨r, before, last⟩ := Option.bind_eq_some_iff.1 h
      obtain ⟨q', happens, ends⟩ := Option.bind_eq_some_iff.1 last
      cases ends
      exact step events e r q (ih before) (happens_of_step happens)

/-- Events that cannot happen aside, a run is made of events that do. -/
theorem after_run (w : World Memory) (limits : Limits) (p : Pool) (events : List PoolEvent) :
    ∃ those, those.Sublist events ∧ p.after? w limits those = some (p.run w limits events) := by
  induction events generalizing p with
  | nil => exact ⟨[], .slnil, rfl⟩
  | cons e rest ih =>
      cases h : p.step? w limits e with
      | none =>
          obtain ⟨those, sub, ends⟩ := ih p
          refine ⟨those, .cons e sub, ends.trans ?_⟩
          rw [run, run, List.foldl_cons, h]
          rfl
      | some q =>
          obtain ⟨those, sub, ends⟩ := ih q
          refine ⟨e :: those, .cons_cons e sub, ?_⟩
          rw [after?, List.foldlM_cons, h, run, List.foldl_cons, h]
          exact ends

/-! ### Accounts -/

/-- What one entry has been mapped to is given up for what the other one is. -/
theorem filterMap_set_perm {α β : Type} {f : α → Option β} {l : List α} {k : Nat} {a : α} (b : α)
    (h : l[k]? = some a) :
    ((f a).toList ++ (l.set k b).filterMap f).Perm ((f b).toList ++ l.filterMap f) := by
  obtain ⟨bound, rfl⟩ := List.getElem?_eq_some_iff.1 h
  have first : ∀ x (l : List α), (x :: l).filterMap f = (f x).toList ++ l.filterMap f := by
    intro x l
    rw [List.filterMap_cons]
    cases f x <;> rfl
  have old : ((f l[k]).toList ++ (l.eraseIdx k).filterMap f).Perm (l.filterMap f) :=
    first _ _ ▸ (List.getElem_cons_eraseIdx_perm bound).filterMap f
  have new : ((l.set k b).filterMap f).Perm ((f b).toList ++ (l.eraseIdx k).filterMap f) :=
    first _ _ ▸ (List.set_perm_cons_eraseIdx bound b).filterMap f
  calc ((f l[k]).toList ++ (l.set k b).filterMap f).Perm
        ((f l[k]).toList ++ ((f b).toList ++ (l.eraseIdx k).filterMap f)) := new.append_left _
    List.Perm _ ((f b).toList ++ ((f l[k]).toList ++ (l.eraseIdx k).filterMap f)) :=
      List.perm_append_comm_assoc _ _ _
    List.Perm _ ((f b).toList ++ l.filterMap f) := old.append_left _

section

variable {k : Nat} {x : Worker} {workers : List Worker} (worker : workers[k]? = some x)
  (a : Activity) (s : Search Memory)

include worker

/-- A worker gives up the job it held for another one. -/
theorem count_held_set (j : Job) :
    x.activity.held?.toList.count j + (held (workers.set k ⟨a, s⟩)).count j =
      a.held?.toList.count j + (held workers).count j := by
  rw [← List.count_append, ← List.count_append]
  exact (filterMap_set_perm (f := fun x : Worker => x.activity.held?) ⟨a, s⟩ worker).count_eq j

theorem length_unsettled_set :
    x.activity.unsettled?.toList.length + (unsettled (workers.set k ⟨a, s⟩)).length =
      a.unsettled?.toList.length + (unsettled workers).length := by
  rw [← List.length_append, ← List.length_append]
  exact (filterMap_set_perm (f := fun x : Worker => x.activity.unsettled?) ⟨a, s⟩ worker).length_eq

end

structure Accounts (events : List PoolEvent) (p : Pool) : Prop where
  /-- A submission that has begun has ended or is still announced. -/
  begun : (begun events).Perm (p.announced ++ submitted events)
  /-- A job that has been submitted is in one place. -/
  submitted : (submitted events).Perm (p.queue ++ held p.workers ++ p.delivered.map (·.job))
  /-- The jobs that are outstanding are those that have not been counted off. -/
  outstanding : p.outstanding + settled events = (Pool.begun events).length
  unsettled : p.outstanding = p.announced.length + p.queue.length + (unsettled p.workers).length

theorem accounts_new (n : Nat) (s : Search Memory) : (new n s).Accounts [] := by
  have nothing : held (new n s).workers = [] := by simp [held, new]
  have unsettled : Pool.unsettled (new n s).workers = [] := by
    simp [Pool.unsettled, new]
  exact ⟨.rfl, by rw [nothing]; exact .rfl, rfl, by rw [unsettled]; rfl⟩

theorem begun_snoc : begun (events ++ [e]) = begun events ++ e.begun?.toList := by
  cases e <;> simp [begun]

theorem submitted_snoc : submitted (events ++ [e]) = submitted events ++ e.submitted?.toList := by
  cases e <;> simp [submitted]

theorem settled_snoc : settled (events ++ [e]) = settled events + e.settles.toNat := by
  cases e <;> simp [settled]

section

variable (k : Nat) (a : Activity) (s : Search Memory)

@[simp] theorem setWorker_announced : (p.setWorker k a s).announced = p.announced := rfl

@[simp] theorem setWorker_queue : (p.setWorker k a s).queue = p.queue := rfl

@[simp] theorem setWorker_outstanding : (p.setWorker k a s).outstanding = p.outstanding := rfl

@[simp] theorem setWorker_closed : (p.setWorker k a s).closed = p.closed := rfl

@[simp] theorem setWorker_workers : (p.setWorker k a s).workers = p.workers.set k ⟨a, s⟩ := rfl

@[simp] theorem setWorker_delivered : (p.setWorker k a s).delivered = p.delivered := rfl

end

namespace Accounts

/-- A submission begins by being announced, and ends by not being so any longer. -/
theorem begun_step (h : p.Accounts events) (happens : Happens w limits p e q) :
    (Pool.begun (events ++ [e])).Perm (q.announced ++ Pool.submitted (events ++ [e])) := by
  rw [begun_snoc, submitted_snoc]
  refine List.perm_iff_count.2 fun i => ?_
  have before := h.begun.count_eq i
  cases happens with
  | announce j =>
      simp [List.count_cons] at before ⊢
      omega
  | @enqueue j announced =>
      -- The same job may be announced more than once; one of these goes.
      have erased := (List.perm_cons_erase announced).count_eq i
      simp [List.count_cons] at before erased ⊢
      omega
  | _ => simpa using before

/-- A job that has been submitted goes from one place to the next. -/
theorem submitted_step (h : p.Accounts events) (happens : Happens w limits p e q) :
    (Pool.submitted (events ++ [e])).Perm (q.queue ++ held q.workers ++ q.delivered.map (·.job)) := by
  rw [submitted_snoc]
  refine List.perm_iff_count.2 fun i => ?_
  have before := h.submitted.count_eq i
  cases happens with
  | announce j => simpa using before
  | @enqueue j announced =>
      simp [List.count_cons] at before ⊢
      omega
  | @take k s j rest worker queue =>
      have moved := count_held_set worker (.searching j) s i
      rw [queue] at before
      simp [List.count_cons] at moved before ⊢
      omega
  | @search k s s' j r worker answers =>
      have moved := count_held_set worker (.delivering r) s' i
      simp [(Job.serve_some answers).2.2.1] at moved before ⊢
      omega
  | breakDown => simpa using before
  | @deliver k s r worker =>
      have moved := count_held_set worker (.settling r.job) s i
      simp [List.count_cons] at moved before ⊢
      omega
  | @settle k s j worker =>
      have moved := count_held_set worker .waiting s i
      simp at moved before ⊢
      omega
  | close => simpa using before
  | @leave k s worker queue closed =>
      have moved := count_held_set worker .gone s i
      simp at moved before ⊢
      omega

/-- The counter goes up when a submission begins and down when a job is counted off. -/
theorem outstanding_step (h : p.Accounts events) (happens : Happens w limits p e q) :
    q.outstanding + settled (events ++ [e]) = (Pool.begun (events ++ [e])).length ∧
      q.outstanding = q.announced.length + q.queue.length + (Pool.unsettled q.workers).length := by
  have outstanding := h.outstanding
  have unsettled := h.unsettled
  rw [begun_snoc, settled_snoc]
  cases happens with
  | announce j =>
      simp
      omega
  | @enqueue j announced =>
      have one := List.length_pos_of_mem announced
      simp [List.length_erase_of_mem announced]
      omega
  | @take k s j rest worker queue =>
      have moved := length_unsettled_set worker (.searching j) s
      rw [queue] at unsettled
      simp at moved unsettled ⊢
      omega
  | @search k s s' j r worker answers =>
      have moved := length_unsettled_set worker (.delivering r) s'
      simp at moved ⊢
      omega
  | breakDown => exact ⟨by simpa using outstanding, unsettled⟩
  | @deliver k s r worker =>
      have moved := length_unsettled_set worker (.settling r.job) s
      simp at moved ⊢
      omega
  | @settle k s j worker =>
      have moved := length_unsettled_set worker .waiting s
      simp at moved ⊢
      omega
  | close => exact ⟨by simpa using outstanding, unsettled⟩
  | @leave k s worker queue closed =>
      have moved := length_unsettled_set worker .gone s
      simp at moved ⊢
      omega

theorem step (h : p.Accounts events) (happens : Happens w limits p e q) :
    q.Accounts (events ++ [e]) :=
  ⟨h.begun_step happens, h.submitted_step happens, (h.outstanding_step happens).1,
    (h.outstanding_step happens).2⟩

/-- Once nothing is outstanding, all submissions have ended and all results are delivered. -/
theorem idle (h : p.Accounts events) (idle : p.isIdle = true) :
    (Pool.begun events).Perm (Pool.submitted events) ∧
      (Pool.submitted events).Perm (p.delivered.map (·.job)) := by
  have none : p.outstanding = 0 := by simpa [isIdle] using idle
  have unsettled := h.unsettled
  have announced : p.announced = [] := List.eq_nil_of_length_eq_zero (by omega)
  have queue : p.queue = [] := List.eq_nil_of_length_eq_zero (by omega)
  have settled : Pool.unsettled p.workers = [] := List.eq_nil_of_length_eq_zero (by omega)
  have free : held p.workers = [] := by
    refine List.filterMap_eq_nil_iff.2 fun x hx => ?_
    have counted := List.filterMap_eq_nil_iff.1 settled x hx
    cases ha : x.activity <;> rw [ha] at counted <;> first | rfl | cases counted
  have begun := h.begun
  have submitted := h.submitted
  rw [announced] at begun
  rw [queue, free] at submitted
  exact ⟨begun, submitted⟩

end Accounts

theorem accounts_after {n : Nat} {s : Search Memory}
    (h : (new n s).after? w limits events = some q) : q.Accounts events :=
  after_induction h (accounts_new n s) fun _ _ _ _ accounts happens => accounts.step happens

/-! ### Breaking down -/

def Doomed (w : World Memory) (limits : Limits) (p : Pool) : Prop :=
  ∃ (k : Nat) (j : Job) (s : Search Memory), p.workers[k]? = some ⟨.searching j, s⟩ ∧
    ((Search.generate w limits j.rule j.origin j.seed).run s).1 = .error .endlessEvaluation

/-- Nothing else takes the pool down. -/
theorem doomed_of_down (h : p.after? w limits events = some q) (up : p.down = false)
    (down : q.down = true) : q.Doomed w limits := by
  rcases List.eq_nil_or_concat events with rfl | ⟨before, e, rfl⟩
  · cases h
    exact absurd (up.symm.trans down) Bool.false_ne_true
  · rw [List.concat_eq_append, after?_append] at h
    obtain ⟨r, _, last⟩ := Option.bind_eq_some_iff.1 h
    obtain ⟨q', step, ends⟩ := Option.bind_eq_some_iff.1 last
    cases ends
    have still := up_of_step step
    cases happens_of_step step with
    | breakDown worker silent => exact ⟨_, _, _, worker, Job.serve_none silent⟩
    | _ => exact absurd (still.symm.trans down) Bool.false_ne_true

/-! ### Leaving -/

/-- At most one worker goes on to something else; it only leaves a closed pool and an empty queue. -/
theorem workers_cases (h : Happens w limits p e q) :
    q.workers = p.workers ∨ ∃ k a s, q.workers = p.workers.set k ⟨a, s⟩ ∧
      (a = .gone → p.queue = [] ∧ p.closed = true) := by
  cases h with
  | announce => exact .inl rfl
  | enqueue => exact .inl rfl
  | take => exact .inr ⟨_, _, _, rfl, by simp⟩
  | search => exact .inr ⟨_, _, _, rfl, by simp⟩
  | breakDown => exact .inl rfl
  | deliver => exact .inr ⟨_, _, _, rfl, by simp⟩
  | settle => exact .inr ⟨_, _, _, rfl, by simp⟩
  | close => exact .inl rfl
  | leave _ queue closed => exact .inr ⟨_, _, _, rfl, fun _ => ⟨queue, closed⟩⟩

theorem length_workers (h : Happens w limits p e q) : q.workers.length = p.workers.length := by
  rcases workers_cases h with same | ⟨k, a, s, set, _⟩
  · rw [same]
  · rw [set, List.length_set]

/-- A pool that is open has been open before. -/
theorem open_of_happens (h : Happens w limits p e q) (closed : q.closed = false) :
    p.closed = false := by
  cases h with
  | close => cases closed
  | _ => exact closed

/-- As long as the pool is open, no worker leaves it. -/
theorem open_staffed {n : Nat} {s : Search Memory} (h : (new n s).after? w limits events = some q) :
    q.workers.length = n ∧ (q.closed = false → ∀ x ∈ q.workers, x.activity ≠ .gone) := by
  refine after_induction (P := fun _ q => q.workers.length = n ∧
    (q.closed = false → ∀ x ∈ q.workers, x.activity ≠ .gone)) h ⟨?_, ?_⟩ ?_
  · simp [new]
  · intro _ x hx
    rw [(List.mem_replicate.1 hx).2]
    simp
  · rintro _ e p q ⟨length, staffed⟩ happens
    refine ⟨(length_workers happens).trans length, fun closed x hx => ?_⟩
    have before := open_of_happens happens closed
    rcases workers_cases happens with same | ⟨k, a, s, set, leaves⟩
    · exact staffed before x (same ▸ hx)
    · rw [set] at hx
      rcases List.mem_or_eq_of_mem_set hx with hx | rfl
      · exact staffed before x hx
      · intro gone
        rw [(leaves gone).2] at before
        cases before

/-- Jobs are taken in the order of their submission. -/
theorem queue_isSuffix (h : p.after? w limits events = some q) :
    q.queue <:+ p.queue ++ submitted events := by
  refine after_induction (P := fun events q => q.queue <:+ p.queue ++ submitted events) h ?_ ?_
  · simp [submitted]
  · intro events e q r ih happens
    rw [submitted_snoc, ← List.append_assoc]
    cases happens with
    | @enqueue j announced =>
        obtain ⟨taken, same⟩ := ih
        exact ⟨taken, by simp [← same]⟩
    | @take k s j rest worker queue =>
        rw [queue] at ih
        simpa using (List.suffix_cons j rest).trans ih
    | _ => simpa using ih

/-- A worker only leaves an empty queue behind. -/
theorem queue_of_leaving (h : Happens w limits p e q) {k : Nat} {x y : Worker}
    (worker : p.workers[k]? = some x) (here : x.activity ≠ .gone)
    (left : q.workers[k]? = some y) (gone : y.activity = .gone) : p.queue = [] := by
  rcases workers_cases h with same | ⟨i, a, s, set, leaves⟩
  · rw [same, worker] at left
    cases left
    exact absurd gone here
  · rw [set, List.getElem?_set] at left
    split at left
    · split at left
      · cases left
        exact (leaves gone).1
      · cases left
    · rw [worker] at left
      cases left
      exact absurd gone here

/-- Where a worker has left since, the queue has been empty. -/
theorem queue_emptied {k : Nat} {x : Worker} (h : p.after? w limits events = some q)
    (worker : p.workers[k]? = some x) (here : x.activity ≠ .gone)
    (gone : ∀ y, q.workers[k]? = some y → y.activity = .gone) :
    ∃ before later, ∃ r : Pool, events = before ++ later ∧ r.queue = [] ∧
      r.after? w limits later = some q := by
  induction events generalizing p x with
  | nil =>
      cases h
      exact absurd (gone x worker) here
  | cons e rest ih =>
      rw [after?_cons] at h
      obtain ⟨r, step, ends⟩ := Option.bind_eq_some_iff.1 h
      have happens := happens_of_step step
      have bound : k < r.workers.length := by
        rw [length_workers happens]
        exact (List.getElem?_eq_some_iff.1 worker).1
      have next := List.getElem?_eq_getElem bound
      by_cases left : (r.workers[k]).activity = .gone
      · refine ⟨[], e :: rest, p, rfl, queue_of_leaving happens worker here next left, ?_⟩
        rw [after?_cons, step]
        exact ends
      · obtain ⟨before, later, r', rfl, empty, ends⟩ := ih ends next left
        exact ⟨e :: before, later, r', rfl, empty, ends⟩

/-- When all workers of a pool have left that had some, what was submitted to it before has been
delivered, and of what was submitted since as much as came first. -/
theorem deserted_delivered {n : Nat} {s : Search Memory}
    (before : (new n s).after? w limits events = some p) (staffed : p.Staffed)
    (after : p.after? w limits more = some q) (deserted : q.Deserted) :
    ∃ later, later <+: submitted more ∧
      (q.delivered.map (·.job)).Perm (submitted events ++ later) := by
  obtain ⟨x, hx, here⟩ := staffed
  obtain ⟨k, worker⟩ := List.mem_iff_getElem?.1 hx
  -- One worker has left since, so all that had been submitted by then had been taken.
  obtain ⟨early, late, r, rfl, empty, ends⟩ := queue_emptied after worker here
    fun y hy => deserted y (List.mem_of_getElem? hy)
  have reached : (new n s).after? w limits (events ++ (early ++ late)) = some q := by
    rw [after?_append, before]
    exact after
  have free : held q.workers = [] := List.filterMap_eq_nil_iff.2 fun x hx => by
    rw [deserted x hx]
    rfl
  -- The jobs that are still queued were submitted after the queue had been empty.
  obtain ⟨taken, queued⟩ := queue_isSuffix ends
  rw [empty, List.nil_append] at queued
  have all : ∀ es es' : List PoolEvent, submitted (es ++ es') = submitted es ++ submitted es' :=
    fun _ _ => List.filterMap_append
  refine ⟨submitted early ++ taken, ?_, ?_⟩
  · rw [all, ← queued, ← List.append_assoc]
    exact List.prefix_append _ _
  · have accounts := (accounts_after reached).submitted
    rw [all, all, ← queued, free, List.append_nil] at accounts
    have same : (submitted events ++ (submitted early ++ taken) ++ q.queue).Perm
        (q.delivered.map (·.job) ++ q.queue) := by
      simpa only [List.append_assoc] using accounts.trans List.perm_append_comm
    exact ((List.perm_append_right_iff _).1 same).symm

/-! ### Results -/

section

variable {g : Grammar} {own : Prop} {provider : Provider}

/-- Whatever a search for a structure leads to, it is the search of a generator. -/
theorem used_generate {s : Search Memory} (used : Search.Used w s) (limits : Limits) (rule : RuleId)
    (origin : Pos) (seed : Seed) :
    Search.Used w ((Search.generate w limits rule origin seed).run s).2 := by
  have started := used.after (.setup rule origin seed)
  unfold Search.generate
  rw [SearchM.run_bind]
  rcases start : (Search.setup w rule origin seed).run s with ⟨e | _, begun⟩ <;>
    rw [Search.Request.after, start] at started
  · exact started
  · have ended := started.after (.process limits)
    dsimp only
    rw [SearchM.run_bind]
    rcases run : (Search.process w limits).run begun with ⟨e | r, found⟩ <;>
      rw [Search.Request.after, run] at ended
    · exact ended
    · cases r with
      | error failure => exact ended
      | ok _ =>
          have painted := ended.after .output
          dsimp only
          rw [SearchM.run_bind]
          rcases paint : (Search.output w).run found with ⟨e | m, s'⟩ <;>
            rw [Search.Request.after, paint] at painted <;> exact painted

/-- A worker is left with the search of a generator. -/
theorem used_serve {s s' : Search Memory} (used : Search.Used w s) {j : Job} {r : JobResult}
    (served : j.serve w limits s = (some r, s')) : Search.Used w s' := by
  have left := used_generate used limits j.rule j.origin j.seed
  rwa [(Job.serve_some served).1] at left

/-- What a search in step with that of the worker comes to tells what the worker reports. -/
theorem serve_matches {ν : Type} {v : World ν} {t : Twins w v} {σ : Nat → UInt32} {j : Job}
    {s : Search Memory} {run : Except Fault (Except SearchFailure BlockMap) × Search ν}
    (same : Matches t σ Eq ((Search.generate w limits j.rule j.origin j.seed).run s) run) :
    (j.serve w limits s).1 = j.reported? run := by
  obtain ⟨agree, mirror⟩ := same
  have components : run.2.plan.placements.size = _ :=
    (congrArg (·.placements.size) mirror.plan).trans Array.size_map
  have expansions : run.2.plan.expansions = _ := congrArg (·.expansions) mirror.plan
  rw [Job.reported?, ← agree.eq, components, expansions]
  rfl

/-- What has been searched for before has no influence on a result, not even where a search breaks
down. -/
theorem serve_ignores_history (hg : g.Built own) {s s' : Search Memory}
    (used : Search.Used (.remembering g provider) s) (used' : Search.Used (.remembering g provider) s')
    (j : Job) : (j.serve (.remembering g provider) limits s).1 =
      (j.serve (.remembering g provider) limits s').1 :=
  serve_matches (t := .remembering hg.marked provider)
    (Search.generate_matches (used.trusted hg) (used'.trusted hg) limits j.rule j.origin j.seed)

/-- A worker reports what a fresh search without a memory comes to. -/
theorem serve_forgotten (hg : g.Built own) {s : Search Memory}
    (used : Search.Used (.remembering g provider) s) (j : Job) :
    (j.serve (.remembering g provider) limits s).1 =
      j.reported? ((Search.generate (World.remembering g provider).forgetful limits j.rule j.origin
        j.seed).run (.new ())) := by
  have fresh := Search.Used.new (w := .remembering g provider) Cache.standardDraws 0 .standard
  exact (serve_ignores_history hg used fresh j).trans (serve_matches
    (Search.generate_forgotten hg.marked (fresh.trusted hg) limits j.rule j.origin j.seed))

theorem serve_fresh (hg : g.Built own) {s : Search Memory}
    (used : Search.Used (.remembering g provider) s) {j : Job} {r : JobResult}
    (answers : (j.serve (.remembering g provider) limits s).1 = some r) :
    r.Fresh (.remembering g provider) limits := by
  intro draws capacity policy run
  rw [serve_ignores_history hg used (.new draws capacity policy)] at answers
  obtain ⟨searched, reported, rfl, expansions, components⟩ := Job.serve_some (Prod.ext answers rfl)
  have ended : run.2 = _ := congrArg Prod.snd searched
  exact ⟨Job.report?_eq_some reported, ended ▸ expansions, ended ▸ components⟩

end

structure Honest (w : World Memory) (limits : Limits) (x : Worker) : Prop where
  used : Search.Used w x.search
  result : ∀ r, x.activity = .delivering r → r.Fresh w limits

theorem honest_step {g : Grammar} {own : Prop} (hg : g.Built own) {provider : Provider}
    (happens : Happens (.remembering g provider) limits p e q)
    (workers : ∀ x ∈ p.workers, Honest (.remembering g provider) limits x)
    (delivered : ∀ r ∈ p.delivered, r.Fresh (.remembering g provider) limits) :
    (∀ x ∈ q.workers, Honest (.remembering g provider) limits x) ∧
      ∀ r ∈ q.delivered, r.Fresh (.remembering g provider) limits := by
  have put : ∀ {k x}, Honest (.remembering g provider) limits x →
      ∀ y ∈ p.workers.set k x, Honest (.remembering g provider) limits y := by
    intro k x hx y hy
    rcases List.mem_or_eq_of_mem_set hy with hy | rfl
    · exact workers y hy
    · exact hx
  have honest : ∀ {k x}, p.workers[k]? = some x → Honest (.remembering g provider) limits x :=
    fun worker => workers _ (List.mem_of_getElem? worker)
  cases happens with
  | announce => exact ⟨workers, delivered⟩
  | enqueue => exact ⟨workers, delivered⟩
  | take worker => exact ⟨put ⟨(honest worker).used, by simp⟩, delivered⟩
  | @search k s s' j r worker answers =>
      have used : Search.Used (.remembering g provider) s := (honest worker).used
      refine ⟨put ⟨used_serve used answers, ?_⟩, delivered⟩
      rintro r ⟨⟩
      exact serve_fresh hg used (congrArg Prod.fst answers)
  | breakDown => exact ⟨workers, delivered⟩
  | @deliver k s r worker =>
      refine ⟨put ⟨(honest worker).used, by simp⟩, List.forall_mem_append.2 ⟨delivered, ?_⟩⟩
      exact List.forall_mem_singleton.2 ((honest worker).result r rfl)
  | settle worker => exact ⟨put ⟨(honest worker).used, by simp⟩, delivered⟩
  | close => exact ⟨workers, delivered⟩
  | leave worker => exact ⟨put ⟨(honest worker).used, by simp⟩, delivered⟩

/-! ### Taking turns -/

structure Rested (w : World Memory) (p : Pool) : Prop where
  up : p.down = false
  waiting : ∀ x ∈ p.workers, x.activity = .waiting
  used : ∀ x ∈ p.workers, Search.Used w x.search

theorem rested_new {s : Search Memory} (used : Search.Used w s) (n : Nat) : (new n s).Rested w :=
  ⟨rfl, fun _ hx => (List.mem_replicate.1 hx).2 ▸ rfl, fun _ hx => (List.mem_replicate.1 hx).2 ▸ used⟩

theorem Rested.worker (rested : p.Rested w) {k : Nat} (hk : k < p.workers.length) :
    ∃ s, p.workers[k]? = some ⟨.waiting, s⟩ ∧ Search.Used w s := by
  have here := List.getElem_mem hk
  refine ⟨p.workers[k].search, ?_, rested.used _ here⟩
  rw [List.getElem?_eq_getElem hk, ← rested.waiting _ here]

theorem after_submissions (up : p.down = false) (jobs : List Job) :
    p.after? w limits (jobs.flatMap fun j => [.announce j, .enqueue j]) =
      some { p with queue := p.queue ++ jobs, outstanding := p.outstanding + jobs.length } := by
  induction jobs generalizing p with
  | nil => simp [after?]
  | cons j jobs ih =>
      have first : p.after? w limits [.announce j, .enqueue j] =
          some { p with queue := p.queue ++ [j], outstanding := p.outstanding + 1 } := by
        simp [after?, step?, up]
      have rest := ih (p := { p with queue := p.queue ++ [j], outstanding := p.outstanding + 1 }) up
      rw [List.flatMap_cons, after?_append, first, Option.bind_some, rest]
      simp [Nat.add_assoc, Nat.add_comm 1]

/-- A worker takes the oldest job and serves it. -/
theorem after_turn (rested : p.Rested w) {k : Nat} (hk : k < p.workers.length) {j : Job}
    {rest : List Job} (queue : p.queue = j :: rest) {r : JobResult}
    (answers : ∀ s, Search.Used w s → (j.serve w limits s).1 = some r) :
    ∃ s, Search.Used w s ∧
      p.after? w limits [.take k, .search k, .deliver k, .settle k] =
        some { p with
          queue := rest, outstanding := p.outstanding - 1, delivered := p.delivered ++ [r],
          workers := p.workers.set k ⟨.waiting, s⟩ } := by
  obtain ⟨s, worker, used⟩ := rested.worker hk
  obtain ⟨s', served⟩ : ∃ s', j.serve w limits s = (some r, s') := ⟨_, Prod.ext (answers s used) rfl⟩
  refine ⟨s', used_serve used served, ?_⟩
  let p₁ := { p with queue := rest }.setWorker k (.searching j) s
  let p₂ := p₁.setWorker k (.delivering r) s'
  let p₃ := { p₂ with delivered := p.delivered ++ [r] }.setWorker k (.settling r.job) s'
  have take : p.step? w limits (.take k) = some p₁ := step_of_happens rested.up (.take worker queue)
  have search : p₁.step? w limits (.search k) = some p₂ :=
    step_of_happens rested.up (.search (List.getElem?_set_self hk) served)
  have deliver : p₂.step? w limits (.deliver k) = some p₃ :=
    step_of_happens rested.up (.deliver (List.getElem?_set_self (by simpa [p₁] using hk)))
  have settle : p₃.step? w limits (.settle k) = _ :=
    step_of_happens rested.up (.settle (List.getElem?_set_self (by simpa [p₂, p₁] using hk)))
  rw [after?_cons, take, Option.bind_some, after?_cons, search, Option.bind_some, after?_cons, deliver,
    Option.bind_some, after?_cons, settle]
  simp [after?, setWorker, p₁, p₂, p₃]

theorem after_turns {jobs : List Job} {results : List JobResult}
    (answers : List.Forall₂
      (fun j r => ∀ s, Search.Used w s → (Job.serve j w limits s).1 = some r) jobs results)
    (rested : p.Rested w) (staffed : 0 < p.workers.length) (queue : p.queue = jobs) (m : Nat) :
    ∃ workers, Rested w { p with workers } ∧ workers.length = p.workers.length ∧
      p.after? w limits ((List.range' m jobs.length).flatMap fun i =>
        [.take (i % p.workers.length), .search (i % p.workers.length),
          .deliver (i % p.workers.length), .settle (i % p.workers.length)]) =
        some { p with
          queue := [], outstanding := p.outstanding - jobs.length,
          delivered := p.delivered ++ results, workers } := by
  induction answers generalizing p m with
  | nil =>
      have same : { p with queue := [] } = p := by rw [← queue]
      exact ⟨p.workers, rested, rfl, by simp [after?, same]⟩
  | @cons j r jobs results first _ ih =>
      obtain ⟨s, used, turn⟩ := after_turn rested (Nat.mod_lt m staffed) queue first
      let p' : Pool := { p with
        queue := jobs, outstanding := p.outstanding - 1, delivered := p.delivered ++ [r],
        workers := p.workers.set (m % p.workers.length) ⟨.waiting, s⟩ }
      have length : p'.workers.length = p.workers.length := List.length_set
      have rested' : p'.Rested w := by
        refine ⟨rested.up, fun x hx => ?_, fun x hx => ?_⟩ <;>
          rcases List.mem_or_eq_of_mem_set hx with hx | rfl
        · exact rested.waiting x hx
        · rfl
        · exact rested.used x hx
        · exact used
      obtain ⟨workers, resting, same, turns⟩ := ih rested' (length ▸ staffed) rfl (m + 1)
      rw [length] at same turns
      refine ⟨workers, ⟨rested.up, resting.waiting, resting.used⟩, same, ?_⟩
      rw [List.length_cons, List.range'_succ, List.flatMap_cons, after?_append, turn,
        Option.bind_some, turns]
      simp [p', Nat.sub_sub, Nat.add_comm 1]

/-- From a closed pool with an empty queue all workers may leave. -/
theorem after_leaving (w : World Memory) (limits : Limits) (up : p.down = false)
    (closed : p.closed = true) (queue : p.queue = []) {m n : Nat}
    (waiting : ∀ k, m ≤ k → k < m + n → ∃ s, p.workers[k]? = some ⟨.waiting, s⟩) :
    ∃ workers, p.after? w limits ((List.range' m n).map .leave) = some { p with workers } := by
  induction n generalizing p m with
  | zero => exact ⟨p.workers, rfl⟩
  | succ n ih =>
      obtain ⟨s, worker⟩ := waiting m (Nat.le_refl m) (by omega)
      have leaves : p.step? w limits (.leave m) = some (p.setWorker m .gone s) :=
        step_of_happens up (.leave worker queue closed)
      obtain ⟨workers, rest⟩ := ih (p := p.setWorker m .gone s) (m := m + 1) up closed queue
        fun k hm hn => by
          rw [setWorker_workers, List.getElem?_set_ne (by omega)]
          exact waiting k (by omega) (by omega)
      refine ⟨workers, ?_⟩
      rw [List.range'_succ, List.map_cons, after?_cons, leaves, Option.bind_some, rest]
      rfl

/-- When workers take turns, all that is scheduled happens, and each job is delivered, unless an
evaluation does not end. -/
theorem schedule_delivers {s : Search Memory} (used : Search.Used w s) {n : Nat} (hn : 0 < n)
    {jobs : List Job} {results : List JobResult}
    (answers : List.Forall₂
      (fun j r => ∀ s, Search.Used w s → (Job.serve j w limits s).1 = some r) jobs results) :
    ∃ q, (new n s).after? w limits (schedule n jobs) = some q ∧ q.isIdle = true ∧
      q.delivered = results := by
  let p : Pool := { new n s with queue := jobs, outstanding := jobs.length }
  have length : p.workers.length = n := List.length_replicate
  have submitted : (new n s).after? w limits (jobs.flatMap fun j => [.announce j, .enqueue j]) =
      some p := by
    rw [after_submissions rfl]
    simp [p, new]
  have rested : p.Rested w := ⟨rfl, (rested_new used n).waiting, (rested_new used n).used⟩
  obtain ⟨workers, resting, same, turns⟩ :=
    after_turns answers rested (length.symm ▸ hn) rfl 0
  rw [length, ← List.range_eq_range'] at turns
  let q : Pool := { p with
    queue := [], outstanding := p.outstanding - jobs.length, delivered := p.delivered ++ results,
    workers, closed := true }
  have waiting : ∀ k, 0 ≤ k → k < 0 + n → ∃ s, q.workers[k]? = some ⟨.waiting, s⟩ := by
    intro k _ hk
    have bound : k < workers.length := by omega
    obtain ⟨s, worker, _⟩ := resting.worker bound
    exact ⟨s, worker⟩
  obtain ⟨left, leaving⟩ := after_leaving w limits (p := q) rfl rfl rfl waiting
  refine ⟨{ q with workers := left }, ?_, by simp [isIdle, q, p], rfl⟩
  rw [schedule, after?_append, after?_append, submitted, Option.bind_some, turns, Option.bind_some,
    after?_cons, List.range_eq_range']
  exact leaving

/-- A pool loses, doubles and mixes up no job, whatever its events are interleaved like. Each job
that has been submitted is in one place, and the counter tells how many are not counted off. Once it
is at zero, there is one result for each job; so there is, for each job that was submitted while the
pool had workers, once all of them have left; an open pool has all its workers, and they only leave
an empty queue behind. Each result is what a fresh generator comes to. The pool goes on unless it
serves a job for which some evaluation does not end. -/
theorem jobs_are_accounted_for {g : Grammar} {own : Prop} (hg : g.Built own) (provider : Provider)
    (limits : Limits) {s : Search Memory} (used : Search.Used (.remembering g provider) s) (n : Nat)
    {events : List PoolEvent} {q : Pool}
    (happened : (new n s).after? (.remembering g provider) limits events = some q) :
    let w := World.remembering g provider
    q.Accounts events ∧
    (q.isIdle = true → (begun events).Perm (submitted events) ∧
      (submitted events).Perm (q.delivered.map (·.job))) ∧
    (∀ k r, q.step? w limits (.leave k) = some r → q.queue = [] ∧ q.closed = true) ∧
    (q.closed = false → q.workers.length = n ∧ ∀ x ∈ q.workers, x.activity ≠ .gone) ∧
    (q.Staffed → ∀ more r, q.after? w limits more = some r → r.Deserted →
      ∃ later, later <+: submitted more ∧
        (r.delivered.map (·.job)).Perm (submitted events ++ later)) ∧
    (∀ r ∈ q.delivered, r.Fresh w limits) ∧
    (q.down = true → q.Doomed w limits) := by
  intro w
  have accounts := accounts_after happened
  refine ⟨accounts, accounts.idle, fun k r leaves => ?_, fun closed => ?_,
    fun staffed more r after deserted => deserted_delivered happened staffed after deserted, ?_,
    doomed_of_down happened rfl⟩
  · cases happens_of_step leaves with
    | leave _ queue closed => exact ⟨queue, closed⟩
  · exact ⟨(open_staffed happened).1, (open_staffed happened).2 closed⟩
  · refine (after_induction (P := fun _ q => (∀ x ∈ q.workers, Honest w limits x) ∧
      ∀ r ∈ q.delivered, r.Fresh w limits) happened ⟨?_, ?_⟩ ?_).2
    · intro x hx
      obtain rfl := (List.mem_replicate.1 hx).2
      exact ⟨used, by simp⟩
    · simp [new]
    · exact fun _ _ _ _ ih happens => honest_step hg happens ih.1 ih.2

/-- Three jobs for two workers, the second one for a rule that there is not. -/
theorem jobs_are_accounted_for_farm :
    let w := World.remembering Search.farm.compile .none
    let s := Search.new (.ofCache (.new 0 .standard))
    let jobs : List Job := [⟨1, 0, .zero, 1⟩, ⟨2, 5, .zero, 1⟩, ⟨3, 0, .zero, 1⟩]
    Search.farm.compile.Built True ∧ Search.Used w s ∧
      ∃ q, (new 2 s).after? w ⟨10, 10⟩ (schedule 2 jobs) = some q ∧ q.isIdle = true ∧
        q.delivered.map (fun r => (r.outcome.isOk, r.expansions, r.components)) =
          [(true, 6, 2), (false, 0, 0), (true, 6, 2)] ∧
        jobs.Perm (q.delivered.map (·.job)) ∧ ∀ r ∈ q.delivered, r.Fresh w ⟨10, 10⟩ := by
  intro w s jobs
  have used : Search.Used w s := .new Cache.standardDraws 0 .standard
  have serves (j : Job) (x : Bool × Nat × Nat)
      (told : (j.reported? ((Search.generate w.forgetful ⟨10, 10⟩ j.rule j.origin j.seed).run
        (.new ()))).map (fun r => (r.outcome.isOk, r.expansions, r.components)) = some x) :
      ∃ r : JobResult,
      (∀ s', Search.Used w s' → (j.serve w ⟨10, 10⟩ s').1 = some r) ∧
        (r.outcome.isOk, r.expansions, r.components) = x := by
    obtain ⟨r, answers, tells⟩ := Option.map_eq_some_iff.1 told
    exact ⟨r, fun s' used' => (serve_forgotten Search.built_farm used' j).trans answers, tells⟩
  obtain ⟨r₁, answers₁, tells₁⟩ := serves ⟨1, 0, .zero, 1⟩ (true, 6, 2) (by decide +kernel)
  obtain ⟨r₂, answers₂, tells₂⟩ := serves ⟨2, 5, .zero, 1⟩ (false, 0, 0) (by decide +kernel)
  obtain ⟨r₃, answers₃, tells₃⟩ := serves ⟨3, 0, .zero, 1⟩ (true, 6, 2) (by decide +kernel)
  obtain ⟨q, happened, idle, delivered⟩ := schedule_delivers used (by decide : 0 < 2)
    (.cons answers₁ (.cons answers₂ (.cons answers₃ .nil)))
  have accounts := jobs_are_accounted_for Search.built_farm .none ⟨10, 10⟩ used 2 happened
  refine ⟨Search.built_farm, used, q, happened, idle, ?_, (accounts.2.1 idle).2,
    accounts.2.2.2.2.2.1⟩
  rw [delivered, List.map_cons, List.map_cons, List.map_cons, List.map_nil, tells₁, tells₂, tells₃]

end Pool

end VoxelGrammar
