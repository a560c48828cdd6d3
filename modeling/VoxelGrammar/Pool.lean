import VoxelGrammar.Search.Paint

/-!
A pool of workers that place structures. A submission first counts the job as outstanding and then
queues it; a worker takes the oldest job of the queue, searches, delivers the result and then
counts the job off. A closed pool lets a worker go once the queue is empty. What the workers do is
interleaved in any way, one event at a time; an event that nothing is ready for changes nothing.

A fault in a search unwinds to the worker, which reports it. An evaluation that does not end does not: it
runs out of stack, which takes the whole program down.
-/

namespace VoxelGrammar

/-- A structure to place. -/
structure Job where
  /-- Chosen by whoever submits it. -/
  id : Nat
  rule : RuleId
  origin : Pos
  seed : Seed
deriving DecidableEq

structure JobResult where
  job : Job
  outcome : Except SearchFailure BlockMap
  /-- Attempts of the search, also of one that broke off. -/
  expansions : Nat
  /-- Components that were placed in the end. -/
  components : Nat

/-- What is reported of a search that ended so, if anything is. -/
def Job.report? : Except Fault (Except SearchFailure BlockMap) →
    Option (Except SearchFailure BlockMap)
  | .ok outcome => some outcome
  | .error .endlessEvaluation => none
  | .error _ => some (.error .broken)

/-- Searches for a job. A fault breaks the search off, and what it had come to is counted. -/
def Job.serve (j : Job) (w : World Memory) (limits : Limits) (s : Search Memory) :
    Option JobResult × Search Memory :=
  let (result, s) := (Search.generate w limits j.rule j.origin j.seed).run s
  ((report? result).map (⟨j, ·, s.plan.expansions, s.plan.placements.size⟩), s)

/-- What a worker is at. -/
inductive Activity
  | waiting
  | searching (job : Job)
  | delivering (result : JobResult)
  /-- Its result is delivered, but the job still counts as outstanding. -/
  | settling (job : Job)
  | gone

/-- A worker goes on from its last search, whose cache it keeps. -/
structure Worker where
  activity : Activity
  search : Search Memory

structure Pool where
  /-- Submissions that are counted and not queued yet. -/
  announced : List Job
  queue : List Job
  outstanding : Nat
  closed : Bool
  workers : List Worker
  /-- In the order of completion. -/
  delivered : List JobResult
  /-- The program that it belongs to has broken down. -/
  down : Bool

inductive PoolEvent
  /-- A submission begins. -/
  | announce (job : Job)
  /-- It ends. -/
  | enqueue (job : Job)
  | take (worker : Nat)
  | search (worker : Nat)
  | deliver (worker : Nat)
  | settle (worker : Nat)
  | close
  | leave (worker : Nat)

namespace Pool

/-- `n` workers with searches that start alike. -/
def new (n : Nat) (s : Search Memory) : Pool :=
  ⟨[], [], 0, false, List.replicate n ⟨.waiting, s⟩, [], false⟩

def setWorker (p : Pool) (k : Nat) (a : Activity) (s : Search Memory) : Pool :=
  { p with workers := p.workers.set k ⟨a, s⟩ }

/-- The pool after an event, if it can happen. -/
def step? (w : World Memory) (limits : Limits) (p : Pool) (e : PoolEvent) : Option Pool :=
  if p.down then none else
  match e with
  | .announce j => some { p with announced := j :: p.announced, outstanding := p.outstanding + 1 }
  | .enqueue j =>
    if j ∈ p.announced then
      some { p with announced := p.announced.erase j, queue := p.queue ++ [j] }
    else none
  | .take k =>
    match p.workers[k]?, p.queue with
    | some ⟨.waiting, s⟩, j :: rest => some ({ p with queue := rest }.setWorker k (.searching j) s)
    | _, _ => none
  | .search k =>
    match p.workers[k]? with
    | some ⟨.searching j, s⟩ =>
      match j.serve w limits s with
      | (some r, s) => some (p.setWorker k (.delivering r) s)
      | (none, _) => some { p with down := true }
    | _ => none
  | .deliver k =>
    match p.workers[k]? with
    | some ⟨.delivering r, s⟩ =>
      some ({ p with delivered := p.delivered ++ [r] }.setWorker k (.settling r.job) s)
    | _ => none
  | .settle k =>
    match p.workers[k]? with
    | some ⟨.settling _, s⟩ =>
      some ({ p with outstanding := p.outstanding - 1 }.setWorker k .waiting s)
    | _ => none
  | .close => some { p with closed := true }
  | .leave k =>
    match p.workers[k]?, p.queue with
    | some ⟨.waiting, s⟩, [] => if p.closed then some (p.setWorker k .gone s) else none
    | _, _ => none

/-- The pool after some events; those that cannot happen are passed over. -/
def run (w : World Memory) (limits : Limits) (p : Pool) (events : List PoolEvent) : Pool :=
  events.foldl (fun p e => (p.step? w limits e).getD p) p

/-- Whether waiting for all submitted jobs ends here. -/
def isIdle (p : Pool) : Bool := p.outstanding = 0

/-- Everything that happens to `jobs` when `n` workers take turns, from the first submission until
all workers have left. -/
def schedule (n : Nat) (jobs : List Job) : List PoolEvent :=
  jobs.flatMap (fun j => [.announce j, .enqueue j]) ++
    (List.range jobs.length).flatMap (fun i =>
      [.take (i % n), .search (i % n), .deliver (i % n), .settle (i % n)]) ++
    .close :: (List.range n).map .leave

/-- The results of a pool's jobs, those with the smaller numbers first. -/
def results (p : Pool) : List JobResult :=
  p.delivered.mergeSort fun a b => a.job.id ≤ b.job.id

/-- Serves jobs with a pool of `n` workers. -/
def serve (w : World Memory) (g : GeneratorConfig) (n : Nat) (jobs : List Job) : List JobResult :=
  let p := new n (.new (.ofCache (.new g.cacheCapacity g.eviction)))
  (p.run w g.limits (schedule n jobs)).results

end Pool

end VoxelGrammar
