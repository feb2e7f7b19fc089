import Multiversion.Ledger.Basic

/-!
# Directories

What a reader needs of the transaction table at one moment: the record of an id, and whether its
transaction has missed its deadline.  Walks along parents, fates and background resolution are
functions of a directory, whatever store it comes from.
-/

namespace Multiversion

/-- Read access to transaction records at one moment. -/
structure Directory where
  find? : TxnId → Option View
  isExpired : TxnId → Bool

namespace Directory

/-- The record of a transaction that has one. -/
def get (d : Directory) (id : TxnId) : Except TxnError View :=
  match d.find? id with
  | some view => .ok view
  | none => .error (.notFound id)

/-- The phase of a recorded transaction. -/
def phase (d : Directory) (id : TxnId) : Except TxnError Phase := View.phase <$> d.get id

/-- The commit timestamp of a recorded transaction. -/
def commit (d : Directory) (id : TxnId) : Except TxnError (Option Timestamp) := View.commit <$> d.get id

/-- Whether a recorded transaction is active and past its deadline. -/
def timedOut (d : Directory) (id : TxnId) : Except TxnError Bool := do
  let _ ← d.get id
  return d.isExpired id

end Directory

namespace Ledger

/-- The directory of a ledger at a clock reading. -/
def directory (l : Ledger) (now : Millis) (timeout : Nat) : Directory where
  find? id := (l.find? id).map Entry.view
  isExpired id := (l.find? id).any (·.isExpired now timeout)

end Ledger

end Multiversion
