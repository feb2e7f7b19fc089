/-!
# Buffer accounting

One monitor is shared by all buffers of a pipeline.
-/

namespace Multiversion

/-- A flush was held back at the limit of flushes in flight. -/
structure RejectionEvent where
  destination : String
  inFlight : Nat
  limit : Nat
  pendingEntries : Nat
  deriving DecidableEq, Repr

/-- Counters of buffers. -/
structure Monitor where
  outstanding : Nat := 0
  opened : Nat := 0
  closed : Nat := 0
  rejections : Nat := 0
  deriving DecidableEq, Repr

namespace Monitor

/-- Counts a buffer that opens. -/
def bufferOpened (m : Monitor) : Monitor :=
  { m with outstanding := m.outstanding + 1, opened := m.opened + 1 }

/-- Counts a buffer that closes; without an outstanding buffer nothing is counted. -/
def bufferClosed (m : Monitor) : Monitor :=
  match m.outstanding with
  | 0 => m
  | n + 1 => { m with outstanding := n, closed := m.closed + 1 }

/-- Counts a flush that is held back. -/
def flushRejected (m : Monitor) : Monitor := { m with rejections := m.rejections + 1 }

end Monitor

end Multiversion
