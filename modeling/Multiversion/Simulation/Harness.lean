import Multiversion.Store.TxnStore

/-!
# A harness for transactions

Begins, commits and rolls back transactions of one store.  Ids and timestamps come from one counter, so
the id of a transaction is its begin timestamp.  A timestamp is used up even if the change it was meant
for is then refused.
-/

namespace Multiversion

/-- A store with the counter of its transactions. -/
structure Harness where
  store : TxnStore
  timestamps : TimestampSource := {}

namespace Harness

/-- The number of partitions of a harness in memory. -/
def memoryPartitions : Nat := 4

/-- A harness over a partitioned store in memory. -/
def memory : Except TxnError Harness := do
  let store ← PartitionedStore.empty { partitions := memoryPartitions }
  return { store := .partitioned store }

/-- A harness over a single store on an empty log. -/
def onFile : Harness := { store := .single (Store.empty {}) }

/-- Opens the log again; timestamps go on after the last one issued.  Only a single store can be
opened again. -/
def reopen? (h : Harness) : Option Harness :=
  match h.store with
  | .partitioned _ => none
  | .single s =>
      match Store.openOn s.log.device s.config with
      | (.ok store, _) => some { h with store := .single store }
      | (.error _, _) => none

/-- Submits a change of the transaction table. -/
def submit (h : Harness) (change : Change) : Except TxnError Bool × Harness :=
  let (answer, store) := h.store.submit 0 change
  (answer, { h with store })

/-- Read access. -/
def directory (h : Harness) : Directory := h.store.directory 0

/-- Issues a timestamp. -/
def nextTimestamp (h : Harness) : Timestamp × Harness :=
  let (ts, timestamps) := h.timestamps.next
  (ts, { h with timestamps })

/-- Records a transaction and returns its view. -/
def record (h : Harness) (view : View) : Except TxnError View × Harness :=
  match h.submit (.begin view) with
  | (.error e, h) => (.error e, h)
  | (.ok _, h) => (.ok view, h)

/-- Begins a transaction without a parent. -/
def begin (h : Harness) (additive : Bool) : Except TxnError View × Harness :=
  let (ts, h) := h.nextTimestamp
  h.record { id := ⟨ts.val⟩, begin := ts, additive }

/-- Begins a child, which takes over the isolation level of its parent and whether it is additive. -/
def beginChild (h : Harness) (parent : View) : Except TxnError View × Harness :=
  let (ts, h) := h.nextTimestamp
  h.record
    { id := ⟨ts.val⟩, begin := ts, parent := some parent.id, isolation := parent.isolation,
      additive := parent.additive }

/-- Commits a transaction at the next timestamp. -/
def commit (h : Harness) (id : TxnId) : Except TxnError Timestamp × Harness :=
  let (ts, h) := h.nextTimestamp
  match h.submit (.commit id ts) with
  | (.error e, h) => (.error e, h)
  | (.ok _, h) => (.ok ts, h)

/-- Rolls a transaction back. -/
def rollback (h : Harness) (id : TxnId) : Except TxnError Unit × Harness :=
  match h.submit (.rollback id) with
  | (.error e, h) => (.error e, h)
  | (.ok _, h) => (.ok (), h)

end Harness

end Multiversion
