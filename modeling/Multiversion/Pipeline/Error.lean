import Multiversion.Transaction.Error

/-!
# Errors of the write pipeline

Outcomes of single rows are never reported here; they travel as statuses.
-/

namespace Multiversion

/-- Why an operation of the write pipeline failed. -/
inductive PipelineError where
  | core (cause : TxnError)
  | io (detail : String)
  -- As many flushes as permitted are in flight, and the buffer was told not to wait.
  | rejected (destination : String) (inFlight limit : Nat)
  | shutdown
  | closed (destination : String)
  -- A flush ended without a result.
  | workerLost
  | hook (detail : String)
  | locate (detail : String)
  | transport (destination : String) (detail : String)
  deriving DecidableEq, Repr

namespace PipelineError

/-- The text of a pipeline error. -/
def message : PipelineError → String
  | core cause => s!"core error: {cause}"
  | io detail => s!"I/O error: {detail}"
  | rejected destination inFlight limit =>
      s!"flush to {destination} rejected: {inFlight} flushes in flight, limit {limit}"
  | shutdown => "write pipeline is shut down"
  | closed destination => s!"call buffer for {destination} is closed"
  | workerLost => "flush worker exited without a result"
  | hook detail => s!"pre-flush hook failed: {detail}"
  | locate detail => s!"cannot locate partition: {detail}"
  | transport destination detail => s!"bulk write to {destination} failed: {detail}"

/-- The name of the cause, without its particulars. -/
def kind : PipelineError → String
  | core _ => "Core"
  | io _ => "Io"
  | rejected .. => "Rejected"
  | shutdown => "Shutdown"
  | closed _ => "Closed"
  | workerLost => "WorkerLost"
  | hook _ => "Hook"
  | locate _ => "Locate"
  | transport .. => "Transport"

instance : ToString PipelineError := ⟨message⟩

end PipelineError

end Multiversion
