import Multiversion.Pipeline.Workshop

/-!
# The write coordinator

A coordinator opens buffers over one transport and owns what they share: the workshop, the settings
and the monitor.

* `Coordinator.openBuffer` — a buffer of one of the two routes, with or without a hook;
* `Coordinator.onBuffer` — an operation of an open buffer;
* `Coordinator.metrics` — everything there is to know for management.
-/

namespace Multiversion

/-- A hook that may change a batch right before it is sent. -/
abbrev Hook := List PendingRow → Except PipelineError (List PendingRow)

namespace Hook

/-- The hook that sends every batch as it is. -/
def keep : Hook := .ok

end Hook

/-- A buffer with the way its flushes take. -/
structure Channel where
  buffer : CallBuffer
  route : Route
  hook : Hook := Hook.keep

/-- A coordinator over a transport with state `τ`. -/
structure Coordinator (τ : Type) where
  config : PipelineConfig
  workshop : Workshop τ
  monitor : Monitor := {}
  closed : Bool := false

/-- A reading of everything that a coordinator counts. -/
structure PipelineMetrics where
  monitor : Monitor
  pooled : WriterStats
  direct : WriterStats
  maxWorkers : Nat
  queuedFlushes : Nat
  deriving DecidableEq, Repr

namespace PipelineMetrics

/-- The counters of both routes together. -/
def total (m : PipelineMetrics) : WriterStats := m.pooled.add m.direct

end PipelineMetrics

namespace Coordinator

variable {τ : Type}

/-- A coordinator over a transport in the given state. -/
def ofConfig (config : PipelineConfig) (world : τ) : Coordinator τ where
  config
  workshop := { maxRetries := config.maxRetries, world, pool := .ofLimit config.maxAsyncThreads }

/-- Opens a buffer.  A coordinator that has been shut down refuses, and counts nothing. -/
def openBuffer (c : Coordinator τ) (destination : String) (txn : View) (route : Route)
    (limits : BufferLimits) (hook : Hook) : Except PipelineError Channel × Coordinator τ :=
  if c.closed then (.error .shutdown, c)
  else
    let (buffer, monitor) :=
      CallBuffer.opening destination txn limits c.config.backpressure c.monitor
    (.ok { buffer, route, hook }, { c with monitor })

/-- Lets a buffer work with the coordinator's workshop and monitor. -/
def onBuffer {α : Type} (c : Coordinator τ) (t : Transport τ) (ch : Channel)
    (operate : Delivery (Workshop τ) → Buffering (Workshop τ) → α × Buffering (Workshop τ)) :
    α × Channel × Coordinator τ :=
  let d := Workshop.delivery t ch.route ch.hook fun _ world => world
  let (answer, s) := operate d ⟨ch.buffer, c.monitor, c.workshop⟩
  (answer, { ch with buffer := s.buffer }, { c with monitor := s.monitor, workshop := s.world })

/-- The state of the transport after a change to it. -/
def mapWorld (c : Coordinator τ) (change : τ → τ) : Coordinator τ :=
  { c with workshop := { c.workshop with world := change c.workshop.world } }

/-- The state of the transport. -/
def world (c : Coordinator τ) : τ := c.workshop.world

/-- Carries out every queued flush. -/
def rest (c : Coordinator τ) (t : Transport τ) : Coordinator τ :=
  { c with workshop := c.workshop.rest t }

/-- Changes the limit of workers. -/
def resize (c : Coordinator τ) (limit : Nat) : Coordinator τ :=
  { c with workshop := { c.workshop with pool := c.workshop.pool.resize limit } }

/-- Opens no more buffers, and carries out every queued flush.  Buffers that are still open can no
longer send rows to the workers. -/
def shutdown (c : Coordinator τ) (t : Transport τ) : Coordinator τ :=
  if c.closed then c else { c with closed := true, workshop := c.workshop.shutdown t }

/-- A reading of all counters. -/
def metrics (c : Coordinator τ) : PipelineMetrics where
  monitor := c.monitor
  pooled := c.workshop.pooledStats
  direct := c.workshop.directStats
  maxWorkers := c.workshop.pool.limit
  queuedFlushes := c.workshop.pool.queue.length

end Coordinator

end Multiversion
