import Multiversion.Cbor.Reader
import Multiversion.Log.Record
import Multiversion.Transaction.Error

/-!
# Record payloads

The body of a log record is CBOR: a pair of a transaction record and its keep-alive time for a begin,
a pair of integers for a commit, a global commit and a keep-alive, a bare integer for a rollback.

* `LogRecord.payload` — what is written: definite lengths, shortest heads, fields in a fixed order;
* `LogRecord.ofPayload?` — what is read: fields in any order, unknown fields passed over, absent
  optional fields read as none, a repeated field refused, and whatever follows the item ignored.
-/

namespace Multiversion
namespace Cbor

/-- An unsigned integer. -/
def unsigned (n : UInt64) : Bytes := Head.encode 0 n.toNat

/-- A text. -/
def text (s : String) : Bytes := Head.encode 3 (Bytes.ofText s).length ++ Bytes.ofText s

/-- The head of a sequence. -/
def array (length : Nat) : Bytes := Head.encode 4 length

/-- The head of a record. -/
def map (length : Nat) : Bytes := Head.encode 5 length

/-- A truth value. -/
def bool (b : Bool) : Bytes := Head.encode 7 (if b then trueValue else falseValue)

/-- An item that may be absent. -/
def optional (n : Option UInt64) : Bytes :=
  match n with
  | some n => unsigned n
  | none => Head.encode 7 nullValue

end Cbor

namespace View

/-- The fields of a stored transaction record. -/
inductive Field where
  | id
  | begin
  | parent
  | commit
  | globalCommit
  | isolation
  | additive
  | phase
  | tables
  deriving DecidableEq, Repr

namespace Field

/-- All fields in the order in which they are stored. -/
def all : List Field :=
  [id, begin, parent, commit, globalCommit, isolation, additive, phase, tables]

/-- The stored name of a field. -/
def name : Field → String
  | id => "txn_id"
  | begin => "begin_timestamp"
  | parent => "parent"
  | commit => "commit_timestamp"
  | globalCommit => "global_commit_timestamp"
  | isolation => "isolation"
  | additive => "additive"
  | phase => "state"
  | tables => "destination_tables"

/-- The field of a stored name. -/
def ofName? (s : String) : Option Field := all.find? (·.name = s)

@[simp] theorem ofName?_name (f : Field) : ofName? f.name = some f := by
  cases f <;> decide

end Field

/-- A transaction record of which some fields have been read. -/
structure Draft where
  id : Option TxnId := none
  begin : Option Timestamp := none
  -- The parent; present and none are told apart.
  parent : Option (Option TxnId) := none
  commit : Option (Option Timestamp) := none
  globalCommit : Option (Option Timestamp) := none
  isolation : Option Isolation := none
  additive : Option Bool := none
  phase : Option Phase := none
  tables : Option (List String) := none

namespace Draft

/-- Whether a field has been read. -/
def has (d : Draft) : Field → Bool
  | .id => d.id.isSome
  | .begin => d.begin.isSome
  | .parent => d.parent.isSome
  | .commit => d.commit.isSome
  | .globalCommit => d.globalCommit.isSome
  | .isolation => d.isolation.isSome
  | .additive => d.additive.isSome
  | .phase => d.phase.isSome
  | .tables => d.tables.isSome

/-- The finished record.  Only the optional timestamps and the parent may be missing. -/
def finish (d : Draft) : Option View := do
  return {
    id := ← d.id
    begin := ← d.begin
    parent := d.parent.getD none
    commit := d.commit.getD none
    globalCommit := d.globalCommit.getD none
    isolation := ← d.isolation
    additive := ← d.additive
    phase := ← d.phase
    tables := ← d.tables }

end Draft

/-- The stored value of a field. -/
def encodeField (v : View) : Field → Bytes
  | .id => Cbor.unsigned v.id.val
  | .begin => Cbor.unsigned v.begin.val
  | .parent => Cbor.optional (v.parent.map (·.val))
  | .commit => Cbor.optional (v.commit.map (·.val))
  | .globalCommit => Cbor.optional (v.globalCommit.map (·.val))
  | .isolation => Cbor.text v.isolation.name
  | .additive => Cbor.bool v.additive
  | .phase => Cbor.text v.phase.name
  | .tables => Cbor.array v.tables.length ++ v.tables.flatMap Cbor.text

/-- The stored form of a transaction record. -/
def encode (v : View) : Bytes :=
  Cbor.map Field.all.length ++ Field.all.flatMap fun f => Cbor.text f.name ++ v.encodeField f

open Cbor (Reader)

/-- Reads a transaction id. -/
def readId : Reader TxnId := TxnId.mk <$> Reader.unsigned

/-- Reads a timestamp. -/
def readTimestamp : Reader Timestamp := Timestamp.mk <$> Reader.unsigned

/-- Reads the value of a field into a draft. -/
def readField (d : Draft) : Field → Reader Draft
  | .id => do return { d with id := some (← readId) }
  | .begin => do return { d with begin := some (← readTimestamp) }
  | .parent => do return { d with parent := some (← Reader.optional readId) }
  | .commit => do return { d with commit := some (← Reader.optional readTimestamp) }
  | .globalCommit => do return { d with globalCommit := some (← Reader.optional readTimestamp) }
  | .isolation => do return { d with isolation := some (← Reader.variant Isolation.ofName?) }
  | .additive => do return { d with additive := some (← Reader.bool) }
  | .phase => do return { d with phase := some (← Reader.variant Phase.ofName?) }
  | .tables => do return { d with tables := some (← Reader.texts) }

/-- How many levels of nesting an unknown field of a transaction record may have: 256 levels in all,
of which the pair and the record take one each. -/
def unknownFieldDepth : Nat := 254

/-- Reads the field of a given name into a draft: an unknown one is passed over, a repeated one is
refused. -/
def readNamed (d : Draft) (name : Bytes) : Reader Draft :=
  match (Reader.decodeText name).bind Field.ofName? with
  | none => do
      Reader.skip unknownFieldDepth
      return d
  | some f => if d.has f then failure else readField d f

/-- Reads a transaction record. -/
def read : Reader View := do
  let d ← Reader.fields readNamed {}
  match d.finish with
  | some v => pure v
  | none => failure

end View

namespace LogRecord

open Cbor (Reader)

/-- The stored body of a record. -/
def payload : LogRecord → Bytes
  | begin view aliveAt => Cbor.array 2 ++ view.encode ++ Cbor.unsigned aliveAt
  | commit id ts => Cbor.array 2 ++ Cbor.unsigned id.val ++ Cbor.unsigned ts.val
  | rollback id => Cbor.unsigned id.val
  | globalCommit id ts => Cbor.array 2 ++ Cbor.unsigned id.val ++ Cbor.unsigned ts.val
  | keepAlive id aliveAt => Cbor.array 2 ++ Cbor.unsigned id.val ++ Cbor.unsigned aliveAt

/-- Reads the body of a record of a given type. -/
def read : RecordType → Reader LogRecord
  | .begin => do
      let (view, aliveAt) ← Reader.pair View.read Reader.unsigned
      return begin view aliveAt
  | .commit => do
      let (id, ts) ← Reader.pair View.readId View.readTimestamp
      return commit id ts
  | .rollback => do return rollback (← View.readId)
  | .globalCommit => do
      let (id, ts) ← Reader.pair View.readId View.readTimestamp
      return globalCommit id ts
  | .keepAlive => do
      let (id, aliveAt) ← Reader.pair View.readId Reader.unsigned
      return keepAlive id aliveAt

/-- The record of a given type that a stored body holds. -/
def ofPayload? (type : RecordType) (body : Bytes) : Option LogRecord :=
  ((read type).run body).map (·.1)

/-- The record of a given type that a stored body holds, or the reason for refusing it. -/
def ofPayload (type : RecordType) (body : Bytes) : Except TxnError LogRecord :=
  match ofPayload? type body with
  | some record => .ok record
  | none => .error (.codec .malformedPayload)

end LogRecord

end Multiversion
