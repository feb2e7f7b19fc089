import Std.Data.ExtTreeMap
import Std.Data.ExtTreeSet
import Multiversion.Log.Record
import Multiversion.Transaction.Error

/-!
# The ledger

The transaction table as a value: the record of every transaction, and an index of the records by
begin timestamp.  `Ledger.apply` is what one log record does to it; replaying a log is the fold of
`apply` (`Ledger.replay`).

The index is kept by insertion only.  A second begin record for an id overwrites the record and leaves
the earlier index entry behind.
-/

namespace Multiversion

/-- The record of one transaction. -/
structure Entry where
  view : View
  -- The clock reading of its last keep-alive.
  lastAlive : Millis
  deriving DecidableEq, Repr

namespace Entry

/-- Whether an active transaction has been silent for longer than permitted. -/
def isExpired (e : Entry) (now : Millis) (timeout : Nat) : Bool :=
  e.view.isActive && timeout < (Clock.elapsed now e.lastAlive).toNat

end Entry

/-- A key of the begin index: records are ordered by begin timestamp, and by id among equals. -/
structure BeginKey where
  begin : Timestamp
  id : TxnId
  deriving DecidableEq, Repr

namespace BeginKey

instance : Ord BeginKey := ⟨compareLex (compareOn BeginKey.begin) (compareOn BeginKey.id)⟩

instance : Std.TransOrd BeginKey :=
  inferInstanceAs (Std.TransCmp (compareLex (compareOn BeginKey.begin) (compareOn BeginKey.id)))

theorem compare_def (a b : BeginKey) :
    compare a b = (compare a.begin b.begin).then (compare a.id b.id) := rfl

instance : Std.LawfulEqOrd BeginKey where
  compare_self {a} := by
    simp
  eq_of_compare {a b} h := by
    rw [compare_def, Ordering.then_eq_eq] at h
    obtain ⟨hbegin, hid⟩ := h
    cases a; cases b
    cases Std.LawfulEqCmp.eq_of_compare hbegin
    cases Std.LawfulEqCmp.eq_of_compare hid
    rfl

theorem compare_eq_lt_iff {a b : BeginKey} :
    compare a b = .lt ↔ a.begin < b.begin ∨ a.begin = b.begin ∧ a.id.val < b.id.val := by
  rw [compare_def, Ordering.then_eq_lt, Timestamp.compare_def, TxnId.compare_def, Std.compare_eq_lt,
    Std.compare_eq_lt, Std.LawfulEqCmp.compare_eq_iff_eq]
  cases a.begin; cases b.begin
  simp only [Timestamp.mk.injEq]
  rfl

/-- The least key of a begin timestamp. -/
def least (ts : Timestamp) : BeginKey := ⟨ts, ⟨0⟩⟩

theorem isLE_least {ts : Timestamp} {key : BeginKey} :
    (compare (least ts) key).isLE = true ↔ ts ≤ key.begin := by
  have hid : (compare (⟨0⟩ : TxnId) key.id).isLE = true := by
    rw [TxnId.compare_def, Std.isLE_compare]
    exact UInt64.zero_le
  rw [compare_def, Ordering.isLE_then_iff_and]
  simp only [least, hid, or_true, and_true]
  rw [Timestamp.compare_def, Std.isLE_compare]
  rfl

theorem isLT_least {ts : Timestamp} {key : BeginKey} :
    (compare key (least ts)).isLT = true ↔ key.begin < ts := by
  rw [Ordering.isLT_iff_eq_lt, compare_eq_lt_iff]
  simp [least]

end BeginKey

/-- The transaction table. -/
structure Ledger where
  entries : Std.ExtTreeMap TxnId Entry compare := ∅
  byBegin : Std.ExtTreeSet BeginKey compare := ∅

namespace Ledger

/-- The record of a transaction, if there is one. -/
def find? (l : Ledger) (id : TxnId) : Option Entry := l.entries[id]?

/-- The number of records. -/
def size (l : Ledger) : Nat := l.entries.size

/-- The record of a transaction that has one. -/
def get (l : Ledger) (id : TxnId) : Except TxnError Entry :=
  match l.find? id with
  | some e => .ok e
  | none => .error (.notFound id)

/-- Overwrites the record of a transaction. -/
def put (l : Ledger) (id : TxnId) (e : Entry) : Ledger := { l with entries := l.entries.insert id e }

theorem find?_put (l : Ledger) (id other : TxnId) (e : Entry) :
    (l.put id e).find? other = if id = other then some e else l.find? other := by
  simp [put, find?, Std.ExtTreeMap.getElem?_insert]

/-- Changes what callers see of a transaction. -/
def amend (l : Ledger) (id : TxnId) (change : Entry → Entry) : Except TxnError Ledger :=
  match l.find? id with
  | some e => .ok (l.put id (change e))
  | none => .error (.notFound id)

/-- What a log record does to the table.  Every record but a begin needs the record that it is
about. -/
def apply (l : Ledger) : LogRecord → Except TxnError Ledger
  | .begin view aliveAt =>
      .ok { entries := l.entries.insert view.id ⟨view, aliveAt⟩
            byBegin := l.byBegin.insert ⟨view.begin, view.id⟩ }
  | .commit id ts =>
      l.amend id fun e => { e with view := { e.view with phase := .committed, commit := some ts } }
  | .rollback id => l.amend id fun e => { e with view := { e.view with phase := .rolledBack } }
  | .globalCommit id ts => l.amend id fun e => { e with view := { e.view with globalCommit := some ts } }
  | .keepAlive id aliveAt => l.amend id fun e => { e with lastAlive := aliveAt }

/-- What a list of log records does to the table. -/
def replay (l : Ledger) : List LogRecord → Except TxnError Ledger
  | [] => .ok l
  | r :: rest =>
      match l.apply r with
      | .ok l => l.replay rest
      | .error e => .error e

/-- The keys of the index from one key up to another one, in order. -/
def keysBetween (l : Ledger) (first past : BeginKey) : List BeginKey :=
  l.byBegin.toList.filter fun key => (compare first key).isLE && (compare key past).isLT

/-- The active transactions with a begin timestamp in `[lower, upper)`, by begin timestamp and id;
with a table, only those that write to it.  The index tells where to look, and the record of a
transaction whether it is still active. -/
def active (l : Ledger) (lower upper : Timestamp) (table : Option String) : List BeginKey :=
  if upper ≤ lower then []
  else
    (l.keysBetween (.least lower) (.least upper)).filter fun key =>
      (l.find? key.id).any fun e => e.view.isActive && table.all e.view.writesTo

end Ledger

end Multiversion
