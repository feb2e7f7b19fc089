import Multiversion.Ledger.Basic

/-!
# Changes of the ledger

What callers ask of the transaction table, and what the table makes of it.  A request is refused, or
it is already fulfilled, or it becomes one log record (`Ledger.decide`): the same record that is
written to the log and then applied.
-/

namespace Multiversion

/-- A request to change the transaction table. -/
inductive Change where
  | begin (view : View)
  | commit (id : TxnId) (ts : Timestamp)
  | rollback (id : TxnId)
  | globalCommit (id : TxnId) (ts : Timestamp)
  | keepAlive (id : TxnId)
  deriving DecidableEq, Repr

namespace Change

/-- The transaction that a request is about. -/
def txn : Change → TxnId
  | begin view => view.id
  | commit id _ => id
  | rollback id => id
  | globalCommit id _ => id
  | keepAlive id => id

end Change

namespace Ledger

/-- The record that a new transaction leaves, if it may be recorded. -/
def decideBegin (l : Ledger) (now : Millis) (view : View) : Except TxnError (Option LogRecord) :=
  if !view.isActive || view.commit.isSome then .error (.invalidOperation (.notFresh view.id))
  else if (l.find? view.id).isSome then .error (.alreadyExists view.id)
  else .ok (some (.begin { view with globalCommit := none } now))

/-- The record that a commit leaves.  Repeating a commit is no change. -/
def decideCommit (id : TxnId) (ts : Timestamp) (view : View) : Except TxnError (Option LogRecord) :=
  match view.phase with
  | .active =>
      if ts < view.begin then .error (.invalidOperation (.commitBeforeBegin id ts view.begin))
      else .ok (some (.commit id ts))
  | .committed =>
      if view.commit = some ts then .ok none
      else .error (.invalidTransition id .committed .committed)
  | .rolledBack => .error (.invalidTransition id .rolledBack .committed)

/-- The record that a rollback leaves.  Repeating a rollback is no change. -/
def decideRollback (id : TxnId) (view : View) : Except TxnError (Option LogRecord) :=
  match view.phase with
  | .active => .ok (some (.rollback id))
  | .rolledBack => .ok none
  | .committed => .error (.invalidTransition id .committed .rolledBack)

/-- The record that caching the root's commit timestamp leaves. -/
def decideGlobalCommit (id : TxnId) (ts : Timestamp) (view : View) :
    Except TxnError (Option LogRecord) :=
  if view.phase ≠ .committed then .error (.invalidOperation (.notCommitted id view.phase))
  else
    match view.globalCommit with
    | some existing =>
        if existing = ts then .ok none else .error (.conflictingTimestamp id existing ts)
    | none => .ok (some (.globalCommit id ts))

/-- The record that a keep-alive leaves.  A finished transaction needs none. -/
def decideKeepAlive (id : TxnId) (now : Millis) (view : View) : Except TxnError (Option LogRecord) :=
  if view.phase.isTerminal then .ok none else .ok (some (.keepAlive id now))

/-- What the table makes of a request: a refusal, no change, or one log record. -/
def decide (l : Ledger) (now : Millis) : Change → Except TxnError (Option LogRecord)
  | .begin view => l.decideBegin now view
  | .commit id ts => do decideCommit id ts (← l.get id).view
  | .rollback id => do decideRollback id (← l.get id).view
  | .globalCommit id ts => do decideGlobalCommit id ts (← l.get id).view
  | .keepAlive id => do decideKeepAlive id now (← l.get id).view

end Ledger

end Multiversion
