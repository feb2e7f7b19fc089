import Multiversion.Pipeline.Coordinator
import Multiversion.Simulation.Script

/-!
# Scripted transports

A transport whose answers are laid down in advance.  It keeps a record of the batches it was sent and
of the flushes that were held back.
-/

namespace Multiversion

/-- A batch that was sent. -/
structure BatchCall where
  partition : String
  txn : TxnId
  keys : List Bytes
  deriving DecidableEq, Repr

namespace BatchCall

/-- The record of a batch. -/
def ofRows (partition : String) (txn : View) (rows : List Mutation) : BatchCall where
  partition
  txn := txn.id
  keys := rows.map Mutation.key

end BatchCall

/-- The state of a scripted transport. -/
structure ScriptedTransport where
  locations : Script Bytes (Except PipelineError String) := {}
  -- The partition of all other keys; if none, each first byte has a partition of its own.
  home : Option String := none
  batches : List (String × Except PipelineError (List Status)) := []
  -- Statuses of rows, by key; success when there is none left.
  rows : Script Bytes Status := {}
  calls : List BatchCall := []
  rejections : List RejectionEvent := []

namespace ScriptedTransport

/-- The partition named after the first byte of a key. -/
def byFirstByte : Bytes → Except PipelineError String
  | [] => .error (.locate "empty key")
  | b :: _ => .ok (String.ofList ['p', Char.ofNat b.toNat])

/-- Names the partition of a key. -/
def locate (key : Bytes) (s : ScriptedTransport) : Except PipelineError String × ScriptedTransport :=
  match s.locations.take key with
  | (some answer, locations) => (answer, { s with locations })
  | (none, locations) =>
      let s := { s with locations }
      match s.home with
      | some partition => (.ok partition, s)
      | none => (byFirstByte key, s)

/-- The statuses that the script has for rows, in order. -/
def answerRows : List Mutation → Script Bytes Status → List Status × Script Bytes Status
  | [], script => ([], script)
  | row :: rest, script =>
      let (status, script) := script.take row.key
      let (others, script) := answerRows rest script
      (status.getD .success :: others, script)

/-- Answers a batch. -/
def write (partition : String) (txn : View) (rows : List Mutation) (s : ScriptedTransport) :
    Except PipelineError (List Status) × ScriptedTransport :=
  let s := { s with calls := s.calls ++ [BatchCall.ofRows partition txn rows] }
  match s.batches.find? (·.1 = partition) with
  | some (_, answer) => (answer, { s with batches := s.batches.eraseP (·.1 = partition) })
  | none =>
      let (statuses, script) := answerRows rows s.rows
      (.ok statuses, { s with rows := script })

/-- The scripted transport. -/
def transport : Transport ScriptedTransport where
  locate := locate
  write := write

/-- Keeps a record of a flush held back. -/
def noteRejection (event : RejectionEvent) (s : ScriptedTransport) : ScriptedTransport :=
  { s with rejections := s.rejections ++ [event] }

/-- The transport with an empty record. -/
def clearRecord (s : ScriptedTransport) : ScriptedTransport := { s with calls := [], rejections := [] }

end ScriptedTransport

end Multiversion
