import Multiversion.Pipeline.Config
import Multiversion.Pipeline.Error
import Multiversion.Status
import Multiversion.Storage.Mutation

/-!
# Delivering a flush

A flush sends rows to the partitions that hold them and tries the rows again that may be tried again.

* `Transport` — the outside world: where a row is, and what a partition answers;
* `Flush.batches` — the rows of one round, grouped by partition;
* `Flush.round` — one attempt at every pending row;
* `Flush.run` — all rounds of a flush: the last outcome of a row is its status.
-/

namespace Multiversion

/-- Where rows are and what partitions answer, as functions of a state of the world. -/
structure Transport (τ : Type) where
  locate : Bytes → τ → Except PipelineError String × τ
  -- Sends a batch to a partition, which answers with one status per row.
  write : String → View → List Mutation → τ → Except PipelineError (List Status) × τ

/-- Counters of flushes. -/
structure WriterStats where
  flushes : Nat := 0
  -- Batches sent, retries included.
  batches : Nat := 0
  rowsWritten : Nat := 0
  retriedRows : Nat := 0
  -- Rows whose last outcome was not a success.
  failedRows : Nat := 0
  deriving DecidableEq, Repr

namespace WriterStats

/-- Counts a flush. -/
def countFlush (s : WriterStats) : WriterStats := { s with flushes := s.flushes + 1 }

/-- Counts a batch. -/
def countBatch (s : WriterStats) (rows : Nat) : WriterStats :=
  { s with batches := s.batches + 1, rowsWritten := s.rowsWritten + rows }

/-- Counts rows sent again. -/
def countRetries (s : WriterStats) (rows : Nat) : WriterStats :=
  { s with retriedRows := s.retriedRows + rows }

/-- Counts rows that failed for good. -/
def countFailures (s : WriterStats) (rows : Nat) : WriterStats :=
  { s with failedRows := s.failedRows + rows }

/-- The counters of two writers together. -/
def add (s t : WriterStats) : WriterStats where
  flushes := s.flushes + t.flushes
  batches := s.batches + t.batches
  rowsWritten := s.rowsWritten + t.rowsWritten
  retriedRows := s.retriedRows + t.retriedRows
  failedRows := s.failedRows + t.failedRows

end WriterStats

/-- Rows of a flush, by their index, that go to one partition. -/
structure Batch where
  partition : String
  indexes : List Nat
  deriving DecidableEq, Repr

/-- A flush in progress. -/
structure FlushState (τ : Type) where
  statuses : List Status
  stats : WriterStats
  world : τ

namespace Flush

variable {τ : Type}

/-- Locates pending rows, in order. -/
def locateAll (t : Transport τ) (rows : List Mutation) :
    List Nat → τ → List (Nat × Except PipelineError String) × τ
  | [], world => ([], world)
  | index :: rest, world =>
      let key := (rows[index]?.map Mutation.key).getD []
      let (answer, world) := t.locate key world
      let (others, world) := locateAll t rows rest world
      ((index, answer) :: others, world)

/-- The partitions that were named, in order of their names. -/
def partitions (located : List (Nat × Except PipelineError String)) : List String :=
  ((located.filterMap fun row => row.2.toOption).eraseDups).mergeSort fun a b => a ≤ b

/-- The rows that go to one partition, in submission order. -/
def batchFor (located : List (Nat × Except PipelineError String)) (partition : String) : Batch where
  partition
  indexes := located.filterMap fun row => if row.2.toOption = some partition then some row.1 else none

/-- The rows that were located, grouped by partition. -/
def batches (located : List (Nat × Except PipelineError String)) : List Batch :=
  (partitions located).map (batchFor located)

/-- The outcomes of the rows that could not be located. -/
def unlocated (located : List (Nat × Except PipelineError String)) : List (Nat × Status) :=
  located.filterMap fun row =>
    match row.2 with
    | .error e => some (row.1, .generic e.message)
    | .ok _ => none

/-- The statuses that a partition's answer to a batch of `n` rows stands for. -/
def answerStatuses (partition : String) (n : Nat) : Except PipelineError (List Status) → List Status
  | .ok statuses =>
      if statuses.length = n then statuses
      else List.replicate n (.generic s!"{partition} returned {statuses.length} statuses for {n} rows")
  | .error e => List.replicate n (.generic e.message)

/-- Sends batches in order and collects the outcomes of their rows. -/
def sendAll (t : Transport τ) (txn : View) (rows : List Mutation) :
    List Batch → WriterStats → τ → List (Nat × Status) × WriterStats × τ
  | [], stats, world => ([], stats, world)
  | b :: rest, stats, world =>
      let batch := b.indexes.filterMap fun index => rows[index]?
      let (answer, world) := t.write b.partition txn batch world
      let outcomes := b.indexes.zip (answerStatuses b.partition batch.length answer)
      let (others, stats, world) := sendAll t txn rows rest (stats.countBatch batch.length) world
      (outcomes ++ others, stats, world)

/-- One attempt at every pending row: the outcomes, and the flush with them recorded. -/
def round (t : Transport τ) (txn : View) (rows : List Mutation) (pending : List Nat)
    (f : FlushState τ) : List (Nat × Status) × FlushState τ :=
  let (located, world) := locateAll t rows pending f.world
  let (sent, stats, world) := sendAll t txn rows (batches located) f.stats world
  let outcomes := unlocated located ++ sent
  let statuses := outcomes.foldl (fun statuses o => statuses.set o.1 o.2) f.statuses
  (outcomes, { statuses, stats, world })

/-- The rows to try again, in submission order. -/
def retries (outcomes : List (Nat × Status)) : List Nat :=
  ((outcomes.filter (·.2.isRetryable)).map (·.1)).mergeSort fun a b => a ≤ b

/-- An attempt at every pending row, and at most `budget` further rounds for rows to try again. -/
def rounds (t : Transport τ) (txn : View) (rows : List Mutation) :
    (budget : Nat) → (pending : List Nat) → FlushState τ → FlushState τ
  | budget, pending, f =>
      let (outcomes, f) := round t txn rows pending f
      match budget, retries outcomes with
      | _, [] => f
      | 0, _ => f
      | budget + 1, again =>
          rounds t txn rows budget again { f with stats := f.stats.countRetries again.length }

/-- Sends rows until every row has its final status. -/
def run (t : Transport τ) (maxRetries : Nat) (txn : View) (rows : List Mutation) (stats : WriterStats)
    (world : τ) : FlushState τ :=
  let start : FlushState τ :=
    { statuses := rows.map fun _ => .notRun, stats := stats.countFlush, world }
  let f := rounds t txn rows maxRetries (List.range rows.length) start
  { f with stats := f.stats.countFailures (f.statuses.filter (!·.isSuccess)).length }

end Flush

end Multiversion
