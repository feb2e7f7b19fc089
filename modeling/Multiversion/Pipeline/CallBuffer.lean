import Std.Data.ExtTreeMap
import Multiversion.Pipeline.Config
import Multiversion.Pipeline.Error
import Multiversion.Pipeline.Monitor
import Multiversion.Status
import Multiversion.Storage.Mutation

/-!
# Call buffers

A call buffer gathers the mutations of one transaction for one destination.  It flushes once enough
rows or bytes are pending, keeps the flushes in flight below a limit, and ends with exactly one status
per submitted row.

* `Delivery` — the outside world: a hook that may change a batch, the delivery of a flush, and who is
  told about flushes held back;
* `CallBuffer.add`, `flush`, `takeCompleted`, `close`, `drop` — the operations;
* `Flight.settle` — the statuses that a finished flush gives to the rows submitted with it.
-/

namespace Multiversion

/-- A row with its position among all rows submitted to a buffer. -/
structure PendingRow where
  seq : Nat
  row : Mutation
  deriving DecidableEq, Repr

/-- The final status of a submitted row. -/
structure RowStatus where
  seq : Nat
  status : Status
  deriving DecidableEq, Repr

/-- Names a flush that was handed over for delivery. -/
abbrev Ticket := Nat

/-- The result of a flush: the statuses of its rows, or the error that lost them. -/
abbrev FlushResult := Except PipelineError (List Status)

/-- The outside world of a buffer, as functions of its state. -/
structure Delivery (ω : Type) where
  -- Changes a batch right before it is sent.  It may drop, add and multiply rows.
  prepare : List PendingRow → ω → Except PipelineError (List PendingRow) × ω
  submit : View → List Mutation → ω → Except PipelineError Ticket × ω
  isDone : Ticket → ω → Bool × ω
  wait : Ticket → ω → FlushResult × ω
  rejected : RejectionEvent → ω → ω

/-- A flush on its way. -/
structure Flight where
  -- Sequence numbers of the rows submitted with it.
  submitted : List Nat
  -- Sequence numbers of the rows that were sent.
  sent : List Nat
  ticket : Ticket
  deriving DecidableEq, Repr

namespace Flight

/-- One status for every row that was sent. -/
def statuses (f : Flight) : FlushResult → List Status
  | .ok statuses =>
      if statuses.length = f.sent.length then statuses
      else List.replicate f.sent.length
        (.generic s!"writer returned {statuses.length} statuses for {f.sent.length} rows")
  | .error e => List.replicate f.sent.length (.generic e.message)

/-- The outcomes of the rows that were sent under a sequence number, in sent order. -/
def outcomesOf (f : Flight) (result : FlushResult) (seq : Nat) : List Status :=
  ((f.sent.zip (f.statuses result)).filter (·.1 = seq)).map (·.2)

/-- The status of every submitted row: the first failure among what was sent for it, or success. -/
def settle (f : Flight) (result : FlushResult) : List RowStatus :=
  f.submitted.map fun seq => ⟨seq, Status.settled (f.outcomesOf result seq)⟩

end Flight

/-- A buffer for the rows of one transaction. -/
structure CallBuffer where
  destination : String
  txn : View
  -- Limits, with zeros raised to one.
  limits : BufferLimits
  policy : Backpressure := .block
  pending : List PendingRow := []
  heapSize : Nat := 0
  nextSeq : Nat := 0
  inFlight : List Flight := []
  -- Statuses collected and not yet handed out.
  completed : Std.ExtTreeMap Nat Status compare := ∅
  closed : Bool := false

/-- A buffer with the monitor and the world that it works with. -/
structure Buffering (ω : Type) where
  buffer : CallBuffer
  monitor : Monitor
  world : ω

namespace CallBuffer

/-- Opens a buffer and counts it. -/
def opening (destination : String) (txn : View) (limits : BufferLimits) (policy : Backpressure)
    (monitor : Monitor) : CallBuffer × Monitor :=
  ({ destination, txn, limits := limits.normalized, policy }, monitor.bufferOpened)

/-- The rows pending after a submission. -/
def enqueue (b : CallBuffer) (row : Mutation) : CallBuffer :=
  { b with
    pending := b.pending ++ [⟨b.nextSeq, row⟩]
    heapSize := b.heapSize + row.heapSize
    nextSeq := b.nextSeq + 1 }

/-- Whether enough is pending for a flush. -/
def isFull (b : CallBuffer) : Bool :=
  b.limits.maxEntries ≤ b.pending.length || b.limits.maxHeapSize ≤ b.heapSize

/-- Records final statuses. -/
def record (b : CallBuffer) (rows : List RowStatus) : CallBuffer :=
  { b with completed := rows.foldl (fun done r => done.insert r.seq r.status) b.completed }

/-- Hands out the recorded statuses, by sequence number. -/
def drain (b : CallBuffer) : List RowStatus × CallBuffer :=
  (b.completed.toList.map fun (seq, status) => ⟨seq, status⟩, { b with completed := ∅ })

/-- The buffer after its pending rows have been handed over as a flush. -/
def launch (b : CallBuffer) (sent : List Nat) (ticket : Ticket) : CallBuffer :=
  { b with
    pending := []
    heapSize := 0
    inFlight := b.inFlight ++ [⟨b.pending.map (·.seq), sent, ticket⟩] }

/-- The event of a flush held back. -/
def rejection (b : CallBuffer) : RejectionEvent where
  destination := b.destination
  inFlight := b.inFlight.length
  limit := b.limits.maxFlushes
  pendingEntries := b.pending.length

end CallBuffer

namespace Buffering

variable {ω : Type}

/-- Waits for the oldest flush in flight and records the statuses of its rows. -/
def completeOldest (d : Delivery ω) (s : Buffering ω) : Buffering ω :=
  match s.buffer.inFlight with
  | [] => s
  | flight :: rest =>
      let (result, world) := d.wait flight.ticket s.world
      { s with buffer := { s.buffer with inFlight := rest }.record (flight.settle result), world }

/-- Collects flushes from the oldest on, as long as they have finished; `fuel` bounds their number. -/
def reapWithin (d : Delivery ω) : (fuel : Nat) → Buffering ω → Buffering ω
  | 0, s => s
  | fuel + 1, s =>
      match s.buffer.inFlight with
      | [] => s
      | flight :: _ =>
          match d.isDone flight.ticket s.world with
          | (true, world) => reapWithin d fuel (completeOldest d { s with world })
          | (false, world) => { s with world }

/-- Collects flushes from the oldest on, as long as they have finished. -/
def reap (d : Delivery ω) (s : Buffering ω) : Buffering ω :=
  reapWithin d s.buffer.inFlight.length s

/-- Makes room for one more flush.  Each time the limit is found reached, the flush is held back; then
the policy waits for the oldest flush, or gives up.  `fuel` bounds the number of flushes waited for. -/
def makeRoomWithin (d : Delivery ω) (policy : Backpressure) :
    (fuel : Nat) → Buffering ω → Except PipelineError Unit × Buffering ω
  | 0, s => (.ok (), s)
  | fuel + 1, s =>
      if s.buffer.inFlight.length < s.buffer.limits.maxFlushes then (.ok (), s)
      else
        let s := { s with
          monitor := s.monitor.flushRejected
          world := d.rejected s.buffer.rejection s.world }
        match policy with
        | .block => makeRoomWithin d policy fuel (completeOldest d s)
        | .reject =>
            (.error (.rejected s.buffer.destination s.buffer.inFlight.length
              s.buffer.limits.maxFlushes), s)

/-- Makes room for one more flush. -/
def makeRoom (d : Delivery ω) (policy : Backpressure) (s : Buffering ω) :
    Except PipelineError Unit × Buffering ω :=
  makeRoomWithin d policy (s.buffer.inFlight.length + 1) s

/-- Hands the pending rows over, with room made for their flush.  On an error they stay pending. -/
def handOver (d : Delivery ω) (s : Buffering ω) : Except PipelineError Unit × Buffering ω :=
  match d.prepare s.buffer.pending s.world with
  | (.error e, world) => (.error e, { s with world })
  | (.ok rows, world) =>
      match d.submit s.buffer.txn (rows.map (·.row)) world with
      | (.error e, world) => (.error e, { s with world })
      | (.ok ticket, world) =>
          (.ok (), { s with buffer := s.buffer.launch (rows.map (·.seq)) ticket, world })

/-- Sends the pending rows, if there are any. -/
def sendPending (d : Delivery ω) (policy : Backpressure) (s : Buffering ω) :
    Except PipelineError Unit × Buffering ω :=
  if s.buffer.pending.isEmpty then (.ok (), s)
  else
    match makeRoom d policy (reap d s) with
    | (.error e, s) => (.error e, s)
    | (.ok (), s) => handOver d s

/-- Sends the pending rows of an open buffer. -/
def flush (d : Delivery ω) (s : Buffering ω) : Except PipelineError Unit × Buffering ω :=
  if s.buffer.closed then (.error (.closed s.buffer.destination), s)
  else sendPending d s.buffer.policy s

/-- Submits a row and returns its sequence number; flushes if enough is pending.  If that flush fails,
the row is pending all the same. -/
def add (d : Delivery ω) (s : Buffering ω) (row : Mutation) : Except PipelineError Nat × Buffering ω :=
  if s.buffer.closed then (.error (.closed s.buffer.destination), s)
  else
    let seq := s.buffer.nextSeq
    let s := { s with buffer := s.buffer.enqueue row }
    if s.buffer.isFull then
      match flush d s with
      | (.error e, s) => (.error e, s)
      | (.ok (), s) => (.ok seq, s)
    else
      (.ok seq, s)

/-- Submits rows in order, up to the first error. -/
def addAll (d : Delivery ω) (s : Buffering ω) : List Mutation → Except PipelineError Unit × Buffering ω
  | [] => (.ok (), s)
  | row :: rest =>
      match add d s row with
      | (.error e, s) => (.error e, s)
      | (.ok _, s) => addAll d s rest

/-- Hands out the recorded statuses. -/
def drain (s : Buffering ω) : List RowStatus × Buffering ω :=
  let (rows, buffer) := s.buffer.drain
  (rows, { s with buffer })

/-- Hands out the statuses of the rows whose flush has finished. -/
def takeCompleted (d : Delivery ω) (s : Buffering ω) : List RowStatus × Buffering ω :=
  drain (reap d s)

/-- Gives every pending row the same failure. -/
def failPending (e : PipelineError) (s : Buffering ω) : Buffering ω :=
  let failed := s.buffer.pending.map fun p : PendingRow => ⟨p.seq, .generic e.message⟩
  { s with buffer := { s.buffer with pending := [], heapSize := 0 }.record failed }

/-- Waits for all flushes in flight; `fuel` bounds their number. -/
def completeAllWithin (d : Delivery ω) : (fuel : Nat) → Buffering ω → Buffering ω
  | 0, s => s
  | fuel + 1, s => completeAllWithin d fuel (completeOldest d s)

/-- Waits for all flushes in flight. -/
def completeAll (d : Delivery ω) (s : Buffering ω) : Buffering ω :=
  completeAllWithin d s.buffer.inFlight.length s

/-- Sends what is pending, waits for every flush and hands out the remaining statuses.  Rows that
cannot be sent fail.  Closing again hands out nothing. -/
def close (d : Delivery ω) (s : Buffering ω) : List RowStatus × Buffering ω :=
  if s.buffer.closed then ([], s)
  else
    let s := { s with buffer := { s.buffer with closed := true } }
    let s :=
      match sendPending d .block s with
      | (.error e, s) => failPending e s
      | (.ok (), s) => s
    let s := completeAll d s
    drain { s with monitor := s.monitor.bufferClosed }

/-- Closes an open buffer and forgets its statuses. -/
def drop (d : Delivery ω) (s : Buffering ω) : Buffering ω := (close d s).2

end Buffering

end Multiversion
