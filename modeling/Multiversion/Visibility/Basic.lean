import Multiversion.Resolution.Request
import Multiversion.Visibility.HandOff

/-!
# Visibility

Decides which versions one reading transaction sees.  The reader's lineage is loaded once, and what is
learnt about a writer is remembered.  On the way, stale state goes into an `Outbox`: requests for the
resolver when a writer is first seen, and hand-offs for the sweeper each time a cell is examined.

* `Visibility.fate` — the fate of one cell's writer;
* `Visibility.filterRow` — the version that the reader sees as the row's value;
* `Visibility.visibleVersions` — every version that the reader sees.
-/

namespace Multiversion

/-- What reads leave behind for background work, oldest first. -/
structure Outbox where
  requests : List Request := []
  handOffs : List HandOff := []
  deriving DecidableEq, Repr

/-- The view of one reader, with its memory of writers. -/
structure Visibility where
  lineage : Lineage
  memory : Std.ExtTreeMap TxnId Fate compare := ∅
  outbox : Outbox := {}

namespace Visibility

/-- The view of a reader. -/
def load (d : Directory) (reader : View) : Except TxnError Visibility :=
  match Lineage.load d reader with
  | .error e => .error e
  | .ok lineage => .ok { lineage }

/-- The reading transaction. -/
def reader (v : Visibility) : View := v.lineage.view

/-- The view with an empty outbox. -/
def clearOutbox (v : Visibility) : Visibility := { v with outbox := {} }

/-- The request that a writer of this fate calls for when it is first seen. -/
def requestFor (writer : TxnId) : Fate → Option Request
  | .committed _ true => some ⟨.globalCommit, writer⟩
  | .active id true => some ⟨.timedOut, id⟩
  | _ => none

/-- The hand-off that a cell of a writer of this fate calls for. -/
def handOffFor (key : Bytes) (writer : TxnId) : Fate → Option HandOff
  | .rolledBack => some (.rolledBack key writer)
  | .committed commit _ => some (.committed key writer commit)
  | _ => none

/-- Leaves a request for background work. -/
def post (v : Visibility) (r : Option Request) : Visibility :=
  { v with outbox := { v.outbox with requests := v.outbox.requests ++ r.toList } }

/-- Leaves a hand-off for background work. -/
def handOver (v : Visibility) (h : Option HandOff) : Visibility :=
  { v with outbox := { v.outbox with handOffs := v.outbox.handOffs ++ h.toList } }

/-- The fate of a writer, from memory if it has been seen before. -/
def learn (d : Directory) (v : Visibility) (writer : TxnId) : Except TxnError Fate × Visibility :=
  match v.memory[writer]? with
  | some fate => (.ok fate, v)
  | none =>
      match v.lineage.resolveWriter d writer with
      | .error e => (.error e, v)
      | .ok fate =>
          (.ok fate, { v.post (requestFor writer fate) with memory := v.memory.insert writer fate })

/-- The commit timestamp cached on a cell, unless the writer is on the reader's own lineage. -/
def cachedCommit (v : Visibility) (cell : Cell) : Option Timestamp :=
  if v.lineage.contains cell.writer then none else cell.commit

/-- The fate of a cell's writer.  A cached commit timestamp is believed. -/
def fate (d : Directory) (v : Visibility) (key : Bytes) (cell : Cell) :
    Except TxnError Fate × Visibility :=
  match v.cachedCommit cell with
  | some commit => (.ok (.committed commit false), v)
  | none =>
      match v.learn d cell.writer with
      | (.error e, v) => (.error e, v)
      | (.ok fate, v) => (.ok fate, v.handOver (handOffFor key cell.writer fate))

/-- Whether the reader sees a cell. -/
def isVisible (d : Directory) (v : Visibility) (key : Bytes) (cell : Cell) :
    Except TxnError Bool × Visibility :=
  match v.fate d key cell with
  | (.error e, v) => (.error e, v)
  | (.ok fate, v) => (.ok (fate.isVisibleTo v.reader), v)

/-- The version that the reader sees as the row's value, out of all versions, newest first; none if
there is none or it marks a deletion.  Versions older than it are not examined. -/
def filterRow (d : Directory) (v : Visibility) (key : Bytes) :
    List Cell → Except TxnError (Option Cell) × Visibility
  | [] => (.ok none, v)
  | cell :: rest =>
      match v.isVisible d key cell with
      | (.error e, v) => (.error e, v)
      | (.ok true, v) => (.ok (if cell.isTombstone then none else some cell), v)
      | (.ok false, v) => filterRow d v key rest

/-- Every version that the reader sees, newest first, deletions included. -/
def visibleVersions (d : Directory) (v : Visibility) (key : Bytes) :
    List Cell → Except TxnError (List Cell) × Visibility
  | [] => (.ok [], v)
  | cell :: rest =>
      match v.isVisible d key cell with
      | (.error e, v) => (.error e, v)
      | (.ok visible, v) =>
          match visibleVersions d v key rest with
          | (.error e, v) => (.error e, v)
          | (.ok others, v) => (.ok (if visible then cell :: others else others), v)

/-- The fates of the writers of several versions; stops at the first error. -/
def fates (d : Directory) (v : Visibility) (key : Bytes) :
    List Cell → Except TxnError (List Fate) × Visibility
  | [] => (.ok [], v)
  | cell :: rest =>
      match v.fate d key cell with
      | (.error e, v) => (.error e, v)
      | (.ok fate, v) =>
          match fates d v key rest with
          | (.error e, v) => (.error e, v)
          | (.ok others, v) => (.ok (fate :: others), v)

/-- Whether the reader sees each of several versions; stops at the first error. -/
def visibilities (d : Directory) (v : Visibility) (key : Bytes) (cells : List Cell) :
    Except TxnError (List Bool) × Visibility :=
  let (fates, v) := v.fates d key cells
  (fates.map fun fs => fs.map (·.isVisibleTo v.reader), v)

end Visibility

end Multiversion
