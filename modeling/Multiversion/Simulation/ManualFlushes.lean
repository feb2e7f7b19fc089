import Multiversion.Simulation.ScriptedTransport

/-!
# Flushes ended by hand

A world for buffers in which a flush stays open until somebody ends it, in any order and with any
result.  A flush that is held back may end the oldest open one, so that a waiting buffer goes on.
-/

namespace Multiversion

/-- How a flush ends. -/
inductive Ending where
  | success
  -- With these statuses, however many there are.
  | statuses (answers : List Status)
  | error (cause : PipelineError)
  | lost
  deriving DecidableEq, Repr

namespace Ending

/-- The result of a flush of `n` rows. -/
def result (n : Nat) : Ending → FlushResult
  | success => .ok (List.replicate n .success)
  | statuses answers => .ok answers
  | error cause => .error cause
  | lost => .error .workerLost

end Ending

/-- A flush that nobody has ended yet. -/
structure OpenFlush where
  ticket : Ticket
  rows : Nat
  deriving DecidableEq, Repr

/-- Flushes ended by hand. -/
structure ManualFlushes where
  policy : Backpressure := .block
  opened : List OpenFlush := []
  results : List (Ticket × FlushResult) := []
  nextTicket : Ticket := 0
  refusing : Bool := false
  instant : Bool := false
  -- How the oldest open flush ends each time a flush is held back; success when there is none left.
  endings : List Ending := []
  calls : List BatchCall := []
  rejections : List RejectionEvent := []

namespace ManualFlushes

/-- Ends the open flush at an index. -/
def finish (m : ManualFlushes) (index : Nat) (ending : Ending) : ManualFlushes :=
  match m.opened[index]? with
  | none => m
  | some f =>
      { m with
        opened := m.opened.eraseIdx index
        results := m.results ++ [(f.ticket, ending.result f.rows)] }

/-- Ends every open flush with success. -/
def finishAll (m : ManualFlushes) : ManualFlushes :=
  { m with
    opened := []
    results := m.results ++ m.opened.map fun f => (f.ticket, Ending.success.result f.rows) }

/-- Receives a flush. -/
def submit (txn : View) (rows : List Mutation) (m : ManualFlushes) :
    Except PipelineError Ticket × ManualFlushes :=
  if m.refusing then (.error .shutdown, m)
  else
    let ticket := m.nextTicket
    let m := { m with
      nextTicket := ticket + 1
      opened := m.opened ++ [{ ticket, rows := rows.length : OpenFlush }]
      calls := m.calls ++ [BatchCall.ofRows "manual" txn rows] }
    (.ok ticket, if m.instant then m.finishAll else m)

/-- The result of a flush, if it has ended. -/
def result? (m : ManualFlushes) (ticket : Ticket) : Option FlushResult := m.results.lookup ticket

/-- Hands out the result of a flush.  One that nobody ended counts as lost. -/
def collect (m : ManualFlushes) (ticket : Ticket) : FlushResult × ManualFlushes :=
  ((m.result? ticket).getD (.error .workerLost),
    { m with results := m.results.filter (·.1 ≠ ticket) })

/-- Is told about a flush held back, and ends the oldest open one if the buffer is going to wait. -/
def hearRejection (event : RejectionEvent) (m : ManualFlushes) : ManualFlushes :=
  let m := { m with rejections := m.rejections ++ [event] }
  match m.policy with
  | .reject => m
  | .block => { m.finish 0 (m.endings.headD .success) with endings := m.endings.tail }

/-- Flushes ended by hand as the world of a buffer with a hook. -/
def delivery (hook : Hook) : Delivery ManualFlushes where
  prepare rows m := (hook rows, m)
  submit := submit
  isDone ticket m := ((m.result? ticket).isSome, m)
  wait ticket m := m.collect ticket
  rejected := hearRejection

/-- Ends all open flushes with success, and from now on every later one at once. -/
def hurry (m : ManualFlushes) : ManualFlushes := { m.finishAll with instant := true }

/-- Lets later flushes stay open again. -/
def relax (m : ManualFlushes) : ManualFlushes := { m with instant := false }

/-- The flushes with an empty record. -/
def clearRecord (m : ManualFlushes) : ManualFlushes := { m with calls := [], rejections := [] }

end ManualFlushes

end Multiversion
