import Multiversion.Status
import Multiversion.Visibility.Basic

/-!
# Regions

A region holds the rows of one key range and applies batches of mutations to them.  Every row is
handled on its own and gets its own status:

* a key outside the range is not run, so that the writer looks for the right region;
* a row whose lock a concurrent batch holds is not run;
* a row with a version that the writer may not overwrite is a conflict;
* otherwise the version is written at the writer's begin timestamp.

Additive transactions may insert over each other's work.
-/

namespace Multiversion

/-- The rows of one key range. -/
structure Region where
  name : String
  range : KeyRange := {}
  -- The rows whose locks concurrent batches hold.  A batch gives back the lock of a row before it goes on
  -- to its next one, so it never finds a lock of its own here.
  locked : List Bytes := []
  deriving DecidableEq, Repr

namespace Region

/-- Whether a row belongs to the region. -/
def contains (r : Region) (key : Bytes) : Bool := r.range.contains key

/-- Whether the lock of a row is held. -/
def isLocked (r : Region) (key : Bytes) : Bool := r.locked.contains key

/-- What stands in the way of a write. -/
inductive Obstacle where
  | none
  -- The version of a writer that must not be overwritten.
  | conflict (writer : TxnId)
  -- A writer that could not be read.
  | unreadable (cause : TxnError)
  deriving DecidableEq, Repr

/-- The first version, newest first, that conflicts with a write. -/
def obstacle (d : Directory) (txn : View) (key : Bytes) :
    (v : Visibility) → List Cell → Obstacle × Visibility
  | v, [] => (.none, v)
  | v, cell :: rest =>
      match v.fate d key cell with
      | (.error e, v) => (.unreadable e, v)
      | (.ok fate, v) =>
          if fate.conflictsWith txn then (.conflict cell.writer, v) else obstacle d txn key v rest

/-- The version that a mutation writes. -/
def cellOf (txn : View) (m : Mutation) : Cell where
  timestamp := txn.begin
  writer := txn.id
  value := if m.kind = .delete then none else some m.value

/-- The outcome of a write that meets a conflicting version. -/
def conflictStatus (d : Directory) (txn : View) (m : Mutation) (other : TxnId) : Status :=
  match d.get other with
  | .error e => .generic e.message
  | .ok view =>
      if txn.additive && view.additive then
        if m.kind.isInsertLike then .success else .additiveWriteConflict
      else
        .writeConflict s!"{txn.id} conflicts with {other} on row {Bytes.quoted m.key}"

/-- Applies one mutation. -/
def applyOne (r : Region) (d : Directory) (txn : View) (v : Visibility) (cells : CellStore)
    (m : Mutation) : Status × Visibility × CellStore :=
  if !r.contains m.key then (.notRun, v, cells)
  else if r.isLocked m.key then (.notRun, v, cells)
  else
    match obstacle d txn m.key v (cells.get m.key .everything) with
    | (.unreadable e, v) => (.generic e.message, v, cells)
    | (.none, v) => (.success, v, cells.put m.key (cellOf txn m))
    | (.conflict other, v) =>
        let status := conflictStatus d txn m other
        (status, v, if status.isSuccess then cells.put m.key (cellOf txn m) else cells)

/-- Applies mutations in order. -/
def applyEach (r : Region) (d : Directory) (txn : View) :
    (v : Visibility) → (cells : CellStore) → List Mutation → List Status × Visibility × CellStore
  | v, cells, [] => ([], v, cells)
  | v, cells, m :: rest =>
      let (status, v, cells) := r.applyOne d txn v cells m
      let (statuses, v, cells) := applyEach r d txn v cells rest
      (status :: statuses, v, cells)

/-- Why a whole batch is refused, if it is: its transaction is unknown or finished, or its lineage
cannot be loaded. -/
def openBatch (d : Directory) (txn : View) : Except Status Visibility :=
  match d.phase txn.id with
  | .error e => .error (.sanityCheckFailure e.message)
  | .ok phase =>
      if phase.isTerminal then
        .error (.sanityCheckFailure s!"{txn.id} is {phase}, writes need an active transaction")
      else
        match Visibility.load d txn with
        | .error e => .error (.generic e.message)
        | .ok v => .ok v

/-- Applies a batch on behalf of a transaction: one status per mutation, requests for the resolver, and
the cells afterwards. -/
def applyBatch (r : Region) (d : Directory) (txn : View) (cells : CellStore) (batch : List Mutation) :
    List Status × List Request × CellStore :=
  match openBatch d txn with
  | .error status => (batch.map fun _ => status, [], cells)
  | .ok v =>
      let (statuses, v, cells) := r.applyEach d txn v cells batch
      (statuses, v.outbox.requests, cells)

end Region

end Multiversion
