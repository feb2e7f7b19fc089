import Multiversion.Transaction.Basic

/-!
# Fates

Where the lineage of a writer ends up, seen from one transaction, and what that means:

* `Fate.isVisibleTo` — whether a reader sees the work;
* `Fate.conflictsWith` — whether writing over the work is a conflict, always judged under snapshot
  isolation;
* `Fate.isDead` — whether the work is gone.
-/

namespace Multiversion

/-- Where the lineage of a writer ends up. -/
inductive Fate where
  -- The writer is the transaction itself or one of its ancestors.
  | own
  -- The lineage committed up into an ancestor of the transaction; `commit` is the commit timestamp of
  -- the element directly below that ancestor.
  | committedInto (ancestor : TxnId) (commit : Timestamp)
  -- Every element up to the root committed, the root at `commit`; found by walking parents, or from a
  -- cached timestamp.
  | committed (commit : Timestamp) (viaParents : Bool)
  -- An element is still active, perhaps past its deadline.
  | active (id : TxnId) (timedOut : Bool)
  | rolledBack
  deriving DecidableEq, Repr

namespace Fate

/-- Whether a reader sees work with this fate. -/
def isVisibleTo (reader : View) : Fate → Bool
  | own => true
  | committedInto ancestor commit =>
      ancestor = reader.id || reader.isolation ≠ .snapshotIsolation || commit ≤ reader.begin
  | committed commit _ => reader.isolation ≠ .snapshotIsolation || commit ≤ reader.begin
  | active _ timedOut => !timedOut && reader.isolation = .readUncommitted
  | rolledBack => false

/-- Whether writing over work with this fate is a conflict. -/
def conflictsWith (writer : View) : Fate → Bool
  | own | rolledBack => false
  | committedInto ancestor commit => ancestor ≠ writer.id && writer.begin < commit
  | committed commit _ => writer.begin < commit
  | active _ timedOut => !timedOut

/-- Whether the work is gone: rolled back, or left behind by a transaction that timed out. -/
def isDead : Fate → Bool
  | rolledBack => true
  | active _ timedOut => timedOut
  | _ => false

end Fate

end Multiversion
