import Multiversion.Clock
import Multiversion.Transaction.Basic

/-!
# Log records

One record per accepted change of the transaction table.
-/

namespace Multiversion

/-- The type of a log record. -/
inductive RecordType where
  | begin
  | commit
  | rollback
  | globalCommit
  | keepAlive
  deriving DecidableEq, Repr

namespace RecordType

/-- The byte that stands for a record type in a frame. -/
def toByte : RecordType → UInt8
  | begin => 1
  | commit => 2
  | rollback => 3
  | globalCommit => 4
  | keepAlive => 5

/-- The record type that a byte stands for. -/
def ofByte? (b : UInt8) : Option RecordType :=
  if b = 1 then some begin
  else if b = 2 then some commit
  else if b = 3 then some rollback
  else if b = 4 then some globalCommit
  else if b = 5 then some keepAlive
  else none

@[simp] theorem ofByte?_toByte (t : RecordType) : ofByte? t.toByte = some t := by
  cases t <;> decide

/-- The name of a record type. -/
def name : RecordType → String
  | begin => "Begin"
  | commit => "Commit"
  | rollback => "Rollback"
  | globalCommit => "GlobalCommit"
  | keepAlive => "KeepAlive"

end RecordType

/-- One accepted change of the transaction table. -/
inductive LogRecord where
  -- A transaction was recorded, with the time of its first keep-alive.
  | begin (view : View) (aliveAt : Millis)
  | commit (id : TxnId) (ts : Timestamp)
  | rollback (id : TxnId)
  -- The root's commit timestamp was cached on a nested transaction.
  | globalCommit (id : TxnId) (ts : Timestamp)
  | keepAlive (id : TxnId) (aliveAt : Millis)
  deriving DecidableEq, Repr

namespace LogRecord

/-- The type of a record. -/
def type : LogRecord → RecordType
  | begin .. => .begin
  | commit .. => .commit
  | rollback _ => .rollback
  | globalCommit .. => .globalCommit
  | keepAlive .. => .keepAlive

/-- The transaction that a record is about. -/
def txn : LogRecord → TxnId
  | begin view _ => view.id
  | commit id _ => id
  | rollback id => id
  | globalCommit id _ => id
  | keepAlive id _ => id

end LogRecord

end Multiversion
