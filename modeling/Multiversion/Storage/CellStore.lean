import Std.Data.ExtTreeMap
import Multiversion.Storage.Mutation
import Multiversion.Transaction.Basic

/-!
# The cell store

Rows in key order; each row holds its versions (`Cell`), newest first, at most one per transaction.

* `Cell.place` — where a version goes among the versions of its row;
* `Selection` — which versions a read returns;
* `CellStore.put`, `removeVersion`, `setCommit` — the three changes;
* `CellStore.get`, `scan` — the two reads.
-/

namespace Multiversion

/-- One version of a row. -/
structure Cell where
  timestamp : Timestamp
  writer : TxnId
  -- The value written; none for a delete marker.
  value : Option Bytes
  -- The writer's commit timestamp, once someone has cached it here.
  commit : Option Timestamp := none
  deriving DecidableEq, Repr, Inhabited

namespace Cell

/-- Whether the version marks a deletion. -/
def isTombstone (c : Cell) : Bool := c.value.isNone

/-- Puts a version before the first strictly older one. -/
def place (c : Cell) : List Cell → List Cell
  | [] => [c]
  | d :: rest => if d.timestamp < c.timestamp then c :: d :: rest else d :: place c rest

/-- The versions of a row after a write: the writer's earlier version is replaced. -/
def replace (c : Cell) (versions : List Cell) : List Cell :=
  c.place (versions.filter (·.writer ≠ c.writer))

/-- Caches a commit timestamp on the first version of a writer. -/
def markCommitted (writer : TxnId) (ts : Timestamp) : List Cell → List Cell
  | [] => []
  | c :: rest =>
      if c.writer = writer then { c with commit := some ts } :: rest
      else c :: markCommitted writer ts rest

end Cell

/-- Which versions of a row a read returns. -/
structure Selection where
  -- Every version within the bounds, or only the newest of them.
  allVersions : Bool := false
  -- Inclusive lower bound on version timestamps.
  lower : Timestamp := .earliest
  -- Exclusive upper bound on version timestamps.
  upper : Timestamp := .latest
  deriving DecidableEq, Repr

namespace Selection

/-- Whether a version lies within the bounds. -/
def covers (s : Selection) (c : Cell) : Bool := s.lower ≤ c.timestamp && c.timestamp < s.upper

/-- The versions that a read returns, out of all versions of a row. -/
def select (s : Selection) (versions : List Cell) : List Cell :=
  let covered := versions.filter s.covers
  if s.allVersions then covered else covered.take 1

/-- Every version at any timestamp below the latest one. -/
def everything : Selection := { allVersions := true }

end Selection

/-- A range of row keys: from `start` on, and below `stop` if there is one. -/
structure KeyRange where
  -- Inclusive lower bound.
  start : Bytes := []
  -- Exclusive upper bound.
  stop : Option Bytes := none
  deriving DecidableEq, Repr

namespace KeyRange

/-- Whether a key lies in the range. -/
def contains (r : KeyRange) (key : Bytes) : Bool :=
  (compare r.start key).isLE && r.stop.all fun stop => (compare key stop).isLT

/-- Whether the bounds of the range are in order.  A range whose start lies above its stop is no
range, and a scan over it is a mistake of the caller. -/
def isOrdered (r : KeyRange) : Bool :=
  r.stop.all fun stop => (compare r.start stop).isLE

end KeyRange

/-- The versions of all rows of one storage partition. -/
structure CellStore where
  rows : Std.ExtTreeMap Bytes (List Cell) compare := ∅
  -- Whether a version was ever written.  Only such a store looks at the bounds of a scan.
  everWritten : Bool := false

namespace CellStore

/-- All versions of a row, newest first. -/
def versions (s : CellStore) (key : Bytes) : List Cell := s.rows[key]?.getD []

/-- The store in which a row has the given versions. -/
def setVersions (s : CellStore) (key : Bytes) (cells : List Cell) : CellStore :=
  match cells with
  | [] => { s with rows := s.rows.erase key }
  | c :: rest => { s with rows := s.rows.insert key (c :: rest) }

/-- The versions of a row after its versions have been set. -/
theorem versions_setVersions (s : CellStore) (key other : Bytes) (cells : List Cell) :
    (s.setVersions key cells).versions other = if key = other then cells else s.versions other := by
  cases cells with
  | nil =>
      simp only [setVersions, versions, Std.ExtTreeMap.getElem?_erase, Std.compare_eq_iff_eq]
      split <;> rfl
  | cons c rest =>
      simp only [setVersions, versions, Std.ExtTreeMap.getElem?_insert, Std.compare_eq_iff_eq]
      split <;> rfl

/-- Writes a version. -/
def put (s : CellStore) (key : Bytes) (cell : Cell) : CellStore :=
  { s.setVersions key (cell.replace (s.versions key)) with everWritten := true }

/-- The versions of one row that a selection returns, newest first. -/
def get (s : CellStore) (key : Bytes) (selection : Selection) : List Cell :=
  selection.select (s.versions key)

/-- The rows of a range in key order, each with the versions that a selection returns; rows without
such a version are left out. -/
def scan (s : CellStore) (range : KeyRange) (selection : Selection) : List (Bytes × List Cell) :=
  (s.rows.toList.filter fun row => range.contains row.1).filterMap fun row =>
    match selection.select row.2 with
    | [] => none
    | cells => some (row.1, cells)

/-- The rows of a range, unless its bounds are out of order.  A store into which nothing was ever
written has nothing to search, and returns no rows for any bounds. -/
def scan? (s : CellStore) (range : KeyRange) (selection : Selection) :
    Option (List (Bytes × List Cell)) :=
  if s.everWritten && !range.isOrdered then none else some (s.scan range selection)

/-- Removes the version of a writer from a row, and reports whether there was one. -/
def removeVersion (s : CellStore) (key : Bytes) (writer : TxnId) : Bool × CellStore :=
  let before := s.versions key
  let after := before.filter (·.writer ≠ writer)
  (after.length ≠ before.length, s.setVersions key after)

/-- Caches the commit timestamp of a writer on its version of a row, and reports whether there was
one. -/
def setCommit (s : CellStore) (key : Bytes) (writer : TxnId) (ts : Timestamp) : Bool × CellStore :=
  let before := s.versions key
  (before.any (·.writer = writer), s.setVersions key (Cell.markCommitted writer ts before))

/-- The number of rows that have a version. -/
def rowCount (s : CellStore) : Nat := s.rows.size

/-- The number of versions of a row. -/
def versionCount (s : CellStore) (key : Bytes) : Nat := (s.versions key).length

end CellStore

end Multiversion
