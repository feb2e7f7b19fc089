import Multiversion.Bytes
import Multiversion.Storage.Error
import Multiversion.Transaction.Basic

/-!
# Errors of the transaction layer

Every refusal names its cause; `TxnError.message` is the only place where causes become text.

`TxnError.isProtocolViolation` singles out misuse by the caller: a second record for one id, a
second and different outcome, a second and different timestamp.
-/

namespace Multiversion

/-- What is wrong with an encoded value. -/
inductive CodecFault where
  -- A record payload is not an encoding of its record type.
  | malformedPayload
  -- A packed row ends inside an entry header that starts at the given byte.
  | truncatedEntry (position : Nat)
  -- The value of a packed column is longer than what is left of its row.
  | columnOverrun (column : Nat)
  -- The value of a packed column does not fit its length field.
  | columnTooLarge (column : Nat)
  | described (text : String)
  deriving DecidableEq, Repr

namespace CodecFault

/-- The text of a codec fault. -/
def message : CodecFault → String
  | malformedPayload => "malformed record payload"
  | truncatedEntry position => s!"packed row truncated in entry header at byte {position}"
  | columnOverrun column => s!"packed column {column} overruns the row"
  | columnTooLarge column => s!"column {column} too large"
  | described text => text

end CodecFault

/-- What is wrong with the bytes of a log. -/
inductive Corruption where
  | badMagic (offset : Nat)
  -- A frame carries a format version that this library does not read.
  | unsupportedVersion (version offset : Nat)
  -- A frame carries a type byte that no record type has.
  | unknownRecordType (byte : UInt8) (offset : Nat)
  | described (text : String)
  deriving DecidableEq, Repr

namespace Corruption

/-- The text of a log corruption. -/
def message : Corruption → String
  | badMagic offset => s!"bad magic at offset {offset}"
  | unsupportedVersion version offset => s!"unsupported log version {version} at offset {offset}"
  | unknownRecordType byte offset => s!"unknown record type {byte} at offset {offset}"
  | described text => text

end Corruption

/-- Why an operation is not permitted in the current state. -/
inductive Misuse where
  -- A transaction must be recorded as active and without a commit timestamp.
  | notFresh (id : TxnId)
  -- A commit timestamp may not lie before the transaction's begin.
  | commitBeforeBegin (id : TxnId) (commit begin : Timestamp)
  -- Only committed transactions have a global commit timestamp.
  | notCommitted (id : TxnId) (phase : Phase)
  -- A committed record lacks its commit timestamp.
  | missingCommit (id : TxnId)
  -- The parents of a transaction form a cycle or an implausibly long chain.
  | endlessLineage (id : TxnId)
  | noPartitions
  -- The payload of a log record does not fit the length field of its frame.
  | payloadTooLarge
  | described (text : String)
  deriving DecidableEq, Repr

namespace Misuse

/-- The text of a refusal. -/
def message : Misuse → String
  | notFresh id => s!"{id} must be recorded as a fresh active transaction"
  | commitBeforeBegin id commit begin => s!"{id} cannot commit at {commit}, before its begin {begin}"
  | notCommitted id phase =>
      s!"{id} is {phase}, only committed transactions have a global commit timestamp"
  | missingCommit id => s!"{id} is committed without a commit timestamp"
  | endlessLineage id => s!"parent chain of {id} is cyclic or too deep"
  | noPartitions => "a partitioned store needs at least one partition"
  | payloadTooLarge => "log record payload too large"
  | described text => text

end Misuse

/-- Why an operation of the transaction layer failed. -/
inductive TxnError where
  | storage (cause : StorageError)
  | io (detail : String)
  | codec (fault : CodecFault)
  | logCorruption (corruption : Corruption)
  -- The checksum stored in a frame is not the checksum of its bytes.
  | checksumMismatch (expected actual : UInt32)
  | alreadyExists (id : TxnId)
  | notFound (id : TxnId)
  -- A finished transaction was asked for another outcome.
  | invalidTransition (id : TxnId) (source target : Phase)
  -- A global commit timestamp that is set was asked to change.
  | conflictingTimestamp (id : TxnId) (existing requested : Timestamp)
  | invalidOperation (misuse : Misuse)
  -- A row lock could not be had.
  | notRun
  -- A write collided with another transaction's write.
  | writeConflict (detail : String)
  -- Two additive transactions collided on a write that is not an insert.
  | additiveWriteConflict (detail : String)
  | badFamily (detail : String)
  | sanityCheck (detail : String)
  -- A failure of one row that the partition could not classify.
  | writeFailed (detail : String)
  | shutdown (component : String)
  deriving DecidableEq, Repr

namespace TxnError

/-- A 32-bit word as eight lower-case hexadecimal digits. -/
def hexWord (w : UInt32) : String :=
  String.ofList ((Bytes.bigEndian 4 w.toNat).flatMap Bytes.hexByte)

/-- The text of a transaction layer error. -/
def message : TxnError → String
  | storage cause => s!"storage error: {cause}"
  | io detail => s!"I/O error: {detail}"
  | codec fault => "codec error: " ++ fault.message
  | logCorruption corruption => "transaction log corruption: " ++ corruption.message
  | checksumMismatch expected actual =>
      "checksum mismatch: expected " ++ hexWord expected ++ ", got " ++ hexWord actual
  | alreadyExists id => s!"transaction {id} already exists"
  | notFound id => s!"transaction {id} not found"
  | invalidTransition id source target => s!"transaction {id} cannot move from {source} to {target}"
  | conflictingTimestamp id existing requested =>
      s!"transaction {id} already has global commit timestamp {existing}, refusing {requested}"
  | invalidOperation misuse => "invalid operation: " ++ misuse.message
  | notRun => "could not acquire lock"
  | writeConflict detail => s!"write conflict: {detail}"
  | additiveWriteConflict detail => s!"additive write conflict: {detail}"
  | badFamily detail => s!"no such column family: {detail}"
  | sanityCheck detail => s!"sanity check failure: {detail}"
  | writeFailed detail => detail
  | shutdown component => s!"{component} is shut down"

instance : ToString TxnError := ⟨message⟩

/-- The name of the cause, without its particulars. -/
def kind : TxnError → String
  | storage _ => "Storage"
  | io _ => "Io"
  | codec _ => "Codec"
  | logCorruption _ => "LogCorruption"
  | checksumMismatch .. => "ChecksumMismatch"
  | alreadyExists _ => "AlreadyExists"
  | notFound _ => "NotFound"
  | invalidTransition .. => "InvalidStateTransition"
  | conflictingTimestamp .. => "ConflictingTimestamp"
  | invalidOperation _ => "InvalidOperation"
  | notRun => "NotRun"
  | writeConflict _ => "WriteConflict"
  | additiveWriteConflict _ => "AdditiveWriteConflict"
  | badFamily _ => "BadFamily"
  | sanityCheck _ => "SanityCheck"
  | writeFailed _ => "WriteFailed"
  | shutdown _ => "Shutdown"

/-- Whether the caller misused the transaction table. -/
def isProtocolViolation : TxnError → Bool
  | alreadyExists _ | invalidTransition .. | conflictingTimestamp .. => true
  | _ => false

end TxnError

end Multiversion
