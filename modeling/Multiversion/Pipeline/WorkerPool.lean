import Multiversion.Pipeline.Error

/-!
# Worker pools

A pool runs queued jobs on a bounded number of workers.  Every critical section is one step, so that
any interleaving of callers and workers is a list of steps:

* callers `execute` a job, `resize` the pool, or `stop` it;
* a worker that is starting takes its turn (`turn`): it retires, takes the oldest job, or goes to sleep;
* a worker that was woken gets up and takes its turn at once (`rise`);
* a worker `finish`es its job, and is then as good as starting again.

Sleeping workers are woken one at a time by new jobs, and all together when the limit changes or the
pool is stopped.
-/

namespace Multiversion

/-- A pool of workers for jobs of one type. -/
structure WorkerPool (α : Type) where
  limit : Nat
  queue : List α := []
  -- Workers about to look for a job.
  starting : Nat := 0
  asleep : Nat := 0
  -- Workers that were woken and have not yet looked for a job.
  woken : Nat := 0
  running : List α := []
  stopped : Bool := false
  deriving DecidableEq, Repr

namespace WorkerPool

variable {α : Type}

/-- A pool without workers; a limit of zero counts as one. -/
def ofLimit (limit : Nat) : WorkerPool α := { limit := max limit 1 }

/-- The number of live workers. -/
def workers (p : WorkerPool α) : Nat := p.starting + p.asleep + p.woken + p.running.length

/-- The number of workers that count as free: they sleep or have just been woken. -/
def idle (p : WorkerPool α) : Nat := p.asleep + p.woken

/-- Wakes one sleeping worker, if there is one. -/
def wakeOne (p : WorkerPool α) : WorkerPool α :=
  match p.asleep with
  | 0 => p
  | n + 1 => { p with asleep := n, woken := p.woken + 1 }

/-- Wakes every sleeping worker. -/
def wakeAll (p : WorkerPool α) : WorkerPool α := { p with asleep := 0, woken := p.woken + p.asleep }

/-- Queues a job.  Without a free worker, and below the limit, a new worker starts. -/
def execute (p : WorkerPool α) (job : α) : Except PipelineError Unit × WorkerPool α :=
  if p.stopped then (.error .shutdown, p)
  else
    let p := { p with queue := p.queue ++ [job] }
    if p.idle = 0 && p.workers < p.limit then (.ok (), { p with starting := p.starting + 1 })
    else (.ok (), p.wakeOne)

/-- Changes the limit; zero counts as one. -/
def resize (p : WorkerPool α) (limit : Nat) : WorkerPool α := wakeAll { p with limit := max limit 1 }

/-- Refuses later jobs; what is queued is still carried out. -/
def stop (p : WorkerPool α) : WorkerPool α := wakeAll { p with stopped := true }

/-- Whether a worker that looks for a job must retire. -/
def retires (p : WorkerPool α) : Bool := p.limit < p.workers || (p.stopped && p.queue.isEmpty)

/-- A starting worker takes its turn. -/
def turn (p : WorkerPool α) : WorkerPool α :=
  match p.starting with
  | 0 => p
  | n + 1 =>
      if p.retires then { p with starting := n }
      else
        match p.queue with
        | [] => { p with starting := n, asleep := p.asleep + 1 }
        | job :: rest => { p with starting := n, queue := rest, running := p.running ++ [job] }

/-- A woken worker gets up and takes its turn. -/
def rise (p : WorkerPool α) : WorkerPool α :=
  match p.woken with
  | 0 => p
  | n + 1 => turn { p with woken := n, starting := p.starting + 1 }

/-- A job ends, in success or not. -/
def finish [BEq α] (p : WorkerPool α) (job : α) : WorkerPool α :=
  if p.running.contains job then
    { p with running := p.running.erase job, starting := p.starting + 1 }
  else p

/-- Lets workers that are awake take their turns until all of them have a job or sleep. -/
def settle (p : WorkerPool α) : WorkerPool α :=
  let p := Nat.repeat rise p.woken p
  Nat.repeat turn p.starting p

end WorkerPool

end Multiversion
