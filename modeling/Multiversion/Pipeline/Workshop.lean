import Multiversion.Pipeline.CallBuffer
import Multiversion.Pipeline.Transport
import Multiversion.Pipeline.WorkerPool

/-!
# Carrying out flushes

A workshop carries out the flushes of many buffers over one transport, either at once or as jobs of a
worker pool.  The jobs that run may end in any order.

* `Workshop.sendNow`, `Workshop.sendLater` — the two ways to hand a flush over;
* `Workshop.deliver` — a running job sends its rows and ends;
* `Workshop.rest` — everything that is queued is carried out;
* `Workshop.delivery` — the workshop as the world of a buffer.
-/

namespace Multiversion

/-- A flush that waits for a worker. -/
structure FlushJob where
  ticket : Ticket
  txn : View
  rows : List Mutation
  deriving DecidableEq, Repr

/-- The two ways to carry out flushes. -/
inductive Route where
  | direct
  | pooled
  deriving DecidableEq, Repr

/-- What carries out flushes, over a transport with state `τ`. -/
structure Workshop (τ : Type) where
  maxRetries : Nat
  world : τ
  pool : WorkerPool FlushJob
  directStats : WriterStats := {}
  pooledStats : WriterStats := {}
  results : List (Ticket × FlushResult) := []
  nextTicket : Ticket := 0

namespace Workshop

variable {τ : Type}

/-- The result of a flush, if it has finished. -/
def result? (w : Workshop τ) (ticket : Ticket) : Option FlushResult := w.results.lookup ticket

/-- Stores the result of a flush. -/
def store (w : Workshop τ) (ticket : Ticket) (result : FlushResult) : Workshop τ :=
  { w with results := w.results ++ [(ticket, result)] }

/-- Hands out the result of a flush. -/
def collect (w : Workshop τ) (ticket : Ticket) : FlushResult × Workshop τ :=
  ((w.result? ticket).getD (.error .workerLost),
    { w with results := w.results.filter (·.1 ≠ ticket) })

/-- Sends rows while the caller waits. -/
def sendNow (t : Transport τ) (txn : View) (rows : List Mutation) (w : Workshop τ) :
    Ticket × Workshop τ :=
  let f := Flush.run t w.maxRetries txn rows w.directStats w.world
  let w := { w with world := f.world, directStats := f.stats, nextTicket := w.nextTicket + 1 }
  (w.nextTicket - 1, w.store (w.nextTicket - 1) (.ok f.statuses))

/-- Queues rows for the workers. -/
def sendLater (txn : View) (rows : List Mutation) (w : Workshop τ) :
    Except PipelineError Ticket × Workshop τ :=
  match w.pool.execute ⟨w.nextTicket, txn, rows⟩ with
  | (.error e, pool) => (.error e, { w with pool })
  | (.ok (), pool) => (.ok w.nextTicket, { w with pool, nextTicket := w.nextTicket + 1 })

/-- A running job sends its rows and ends. -/
def deliver (t : Transport τ) (job : FlushJob) (w : Workshop τ) : Workshop τ :=
  if w.pool.running.contains job then
    let f := Flush.run t w.maxRetries job.txn job.rows w.pooledStats w.world
    { w with world := f.world, pooledStats := f.stats, pool := w.pool.finish job }.store job.ticket
      (.ok f.statuses)
  else w

/-- Lets the workers look for jobs, and the job that has run for the longest end. -/
def advance (t : Transport τ) (w : Workshop τ) : Workshop τ :=
  let w := { w with pool := w.pool.settle }
  match w.pool.running with
  | [] => w
  | job :: _ => deliver t job w

/-- Carries out everything that is queued. -/
def rest (t : Transport τ) (w : Workshop τ) : Workshop τ :=
  let w := Nat.repeat (advance t) (w.pool.queue.length + w.pool.running.length) w
  { w with pool := w.pool.settle }

/-- Stops the pool; everything that is queued is carried out first. -/
def shutdown (t : Transport τ) (w : Workshop τ) : Workshop τ := rest t { w with pool := w.pool.stop }

/-- The workshop as the world of a buffer, with the buffer's route and hook, and with whoever is told
about flushes held back. -/
def delivery (t : Transport τ) (route : Route)
    (hook : List PendingRow → Except PipelineError (List PendingRow))
    (told : RejectionEvent → τ → τ) : Delivery (Workshop τ) where
  prepare rows w := (hook rows, w)
  submit txn rows w :=
    match route with
    | .direct => let (ticket, w) := sendNow t txn rows w; (.ok ticket, w)
    | .pooled => sendLater txn rows w
  isDone ticket w := ((w.result? ticket).isSome, w)
  wait ticket w := (if (w.result? ticket).isSome then w else rest t w).collect ticket
  rejected event w := { w with world := told event w.world }

end Workshop

end Multiversion
