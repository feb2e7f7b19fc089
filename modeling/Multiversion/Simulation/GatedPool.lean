import Multiversion.Pipeline.WorkerPool

/-!
# A pool of gated jobs

Numbered jobs that run until they are released, so that every state of a worker pool can be looked at
while it is at rest.  A job that is released before it starts ends as soon as it has started.
-/

namespace Multiversion

/-- A pool of numbered jobs. -/
structure GatedPool where
  pool : WorkerPool Nat
  released : List Nat := []
  -- Jobs that end in failure, and report nothing.
  failing : List Nat := []
  nextJob : Nat := 0
  ended : List Nat := []

namespace GatedPool

/-- A pool without jobs. -/
def ofLimit (limit : Nat) : GatedPool := { pool := .ofLimit limit }

/-- Lets the workers look for jobs, and the first released job that runs end. -/
def advance (g : GatedPool) : GatedPool :=
  let pool := g.pool.settle
  match pool.running.find? g.released.contains with
  | none => { g with pool }
  | some job =>
      { g with
        pool := pool.finish job
        ended := if g.failing.contains job then g.ended else g.ended ++ [job] }

/-- Lets everything happen that can happen without a further release. -/
def settle (g : GatedPool) : GatedPool :=
  Nat.repeat advance (g.pool.queue.length + g.pool.running.length + 1) g

/-- Submits a job; its number counts refused jobs too. -/
def execute (g : GatedPool) (gated failing : Bool) : Except PipelineError Nat × GatedPool :=
  let job := g.nextJob
  let g := { g with
    nextJob := job + 1
    released := if gated then g.released else job :: g.released
    failing := if failing then job :: g.failing else g.failing }
  match g.pool.execute job with
  | (.error e, pool) => (.error e, { g with pool })
  | (.ok (), pool) => (.ok job, settle { g with pool })

/-- Releases a job. -/
def release (g : GatedPool) (job : Nat) : GatedPool := settle { g with released := job :: g.released }

/-- Changes the limit of workers. -/
def resize (g : GatedPool) (limit : Nat) : GatedPool := settle { g with pool := g.pool.resize limit }

/-- Stops the pool and releases every job. -/
def shutdown (g : GatedPool) : GatedPool :=
  settle { g with pool := g.pool.stop, released := g.released ++ List.range g.nextJob }

/-- Hands out the jobs that have ended since the last time. -/
def takeEnded (g : GatedPool) : List Nat × GatedPool := (g.ended, { g with ended := [] })

end GatedPool

end Multiversion
