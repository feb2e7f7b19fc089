/-!
# Transactions

The nouns of the transaction table: ids and timestamps (64-bit, printed with a tag), isolation
levels, the three phases of a transaction's life, and the `View` — a snapshot of one transaction's
record.

Main statement: none; `View.effectiveCommit` is the commit timestamp that readers outside the
transaction's own lineage compare against, and it exists only for committed transactions.
-/

namespace Multiversion

/-- Unique identifier of a transaction. -/
structure TxnId where
  val : UInt64
  deriving DecidableEq, Repr, Inhabited

namespace TxnId

instance : Ord TxnId := ⟨fun a b => compare a.val b.val⟩

instance : ToString TxnId := ⟨fun id => s!"txn:{id.val}"⟩

theorem compare_def (a b : TxnId) : compare a b = compare a.val b.val := rfl

instance : Std.TransOrd TxnId where
  eq_swap {a b} := by
    rw [compare_def, compare_def]
    exact Std.OrientedCmp.eq_swap
  isLE_trans {a b c} := by
    rw [compare_def, compare_def, compare_def]
    exact Std.TransCmp.isLE_trans

instance : Std.LawfulEqOrd TxnId where
  compare_self {a} := by
    rw [compare_def]
    exact Std.ReflCmp.compare_self
  eq_of_compare {a b} h := by
    rw [compare_def] at h
    cases a; cases b
    exact congrArg TxnId.mk (Std.LawfulEqCmp.eq_of_compare h)

end TxnId

/-- A logical timestamp on the common line of begins and commits. -/
structure Timestamp where
  val : UInt64
  deriving DecidableEq, Repr, Inhabited

namespace Timestamp

/-- The earliest timestamp. -/
def earliest : Timestamp := ⟨0⟩

/-- The latest timestamp. -/
def latest : Timestamp := ⟨0xFFFFFFFFFFFFFFFF⟩

instance : LE Timestamp := ⟨fun a b => a.val ≤ b.val⟩

instance : LT Timestamp := ⟨fun a b => a.val < b.val⟩

instance (a b : Timestamp) : Decidable (a ≤ b) := inferInstanceAs (Decidable (a.val ≤ b.val))

instance (a b : Timestamp) : Decidable (a < b) := inferInstanceAs (Decidable (a.val < b.val))

theorem le_iff_toNat_le {a b : Timestamp} : a ≤ b ↔ a.val.toNat ≤ b.val.toNat :=
  UInt64.le_iff_toNat_le

theorem lt_iff_toNat_lt {a b : Timestamp} : a < b ↔ a.val.toNat < b.val.toNat :=
  UInt64.lt_iff_toNat_lt

instance : Ord Timestamp := ⟨fun a b => compare a.val b.val⟩

instance : ToString Timestamp := ⟨fun ts => s!"ts:{ts.val}"⟩

theorem compare_def (a b : Timestamp) : compare a b = compare a.val b.val := rfl

instance : Std.TransOrd Timestamp where
  eq_swap {a b} := by
    rw [compare_def, compare_def]
    exact Std.OrientedCmp.eq_swap
  isLE_trans {a b c} := by
    rw [compare_def, compare_def, compare_def]
    exact Std.TransCmp.isLE_trans

instance : Std.LawfulEqOrd Timestamp where
  compare_self {a} := by
    rw [compare_def]
    exact Std.ReflCmp.compare_self
  eq_of_compare {a b} h := by
    rw [compare_def] at h
    cases a; cases b
    exact congrArg Timestamp.mk (Std.LawfulEqCmp.eq_of_compare h)

end Timestamp

/-- How much of other transactions' work a reader observes. -/
inductive Isolation where
  -- Work committed at or before the reader's begin.
  | snapshotIsolation
  -- All committed work.
  | readCommitted
  -- Committed work and work still in progress.
  | readUncommitted
  deriving DecidableEq, Repr, Inhabited

namespace Isolation

/-- The name under which a level is stored. -/
def name : Isolation → String
  | snapshotIsolation => "SnapshotIsolation"
  | readCommitted => "ReadCommitted"
  | readUncommitted => "ReadUncommitted"

/-- All levels, weakest view of others first. -/
def all : List Isolation := [snapshotIsolation, readCommitted, readUncommitted]

/-- The level stored under a name. -/
def ofName? (s : String) : Option Isolation := all.find? (·.name = s)

@[simp] theorem ofName?_name (i : Isolation) : ofName? i.name = some i := by
  cases i <;> decide

end Isolation

/-- The phases of a transaction's life.  `committed` and `rolledBack` are final. -/
inductive Phase where
  | active
  | committed
  | rolledBack
  deriving DecidableEq, Repr, Inhabited

namespace Phase

/-- The name under which a phase is stored. -/
def name : Phase → String
  | active => "Active"
  | committed => "Committed"
  | rolledBack => "RolledBack"

/-- All phases. -/
def all : List Phase := [active, committed, rolledBack]

/-- The phase stored under a name. -/
def ofName? (s : String) : Option Phase := all.find? (·.name = s)

@[simp] theorem ofName?_name (p : Phase) : ofName? p.name = some p := by
  cases p <;> decide

/-- The word for a phase in messages. -/
def label : Phase → String
  | active => "ACTIVE"
  | committed => "COMMITTED"
  | rolledBack => "ROLLEDBACK"

instance : ToString Phase := ⟨label⟩

/-- A transaction in a terminal phase never leaves it. -/
def isTerminal : Phase → Bool
  | active => false
  | committed | rolledBack => true

end Phase

/-- A snapshot of one transaction's record. -/
structure View where
  id : TxnId
  -- Begin timestamp; also the timestamp of every cell the transaction writes.
  begin : Timestamp
  parent : Option TxnId := none
  commit : Option Timestamp := none
  -- The root's commit timestamp, cached once the whole lineage has committed.
  globalCommit : Option Timestamp := none
  isolation : Isolation := .snapshotIsolation
  -- Additive transactions do not conflict with each other on inserts.
  additive : Bool := false
  phase : Phase := .active
  tables : List String := []
  deriving DecidableEq, Repr, Inhabited

namespace View

/-- Whether the transaction is still running. -/
def isActive (v : View) : Bool := v.phase = .active

/-- Whether the transaction lists a table among those it writes to. -/
def writesTo (v : View) (table : String) : Bool := v.tables.contains table

/-- The commit timestamp that readers outside the lineage compare against: the transaction's own
for a root, the cached one of the root for a nested transaction. -/
def effectiveCommit (v : View) : Option Timestamp :=
  if v.phase = .committed then
    match v.parent with
    | none => v.commit
    | some _ => v.globalCommit
  else
    none

end View

end Multiversion
