import Multiversion.Bytes
import Multiversion.Storage.Error

/-!
# Log devices

A device holds the bytes of one log.  It can be closed, and it can be told to fail: `Faults` makes
single kinds of call fail before they do anything, or lets the next append write only its first
bytes before it fails.

The view of a device is its list of bytes (`Device.bytes`); each operation has one lemma about it.
-/

namespace Multiversion

/-- Failures that a device was told to produce. -/
structure Faults where
  -- Appends fail without writing.
  append : Bool := false
  sync : Bool := false
  flush : Bool := false
  -- Truncations fail without cutting.
  truncate : Bool := false
  -- The next append writes this many bytes at most, and fails.
  tear : Option Nat := none
  deriving DecidableEq, Repr

/-- A device that holds the bytes of one log. -/
structure Device where
  content : ByteArray := .empty
  -- A closed device refuses changes; reads keep working.
  closed : Bool := false
  faults : Faults := {}

namespace Device

/-- The bytes on the device. -/
def bytes (d : Device) : Bytes := d.content.data.toList

/-- The number of bytes on the device. -/
def size (d : Device) : Nat := d.content.size

@[simp] theorem length_bytes (d : Device) : d.bytes.length = d.size := rfl

/-- A device that holds the given bytes. -/
def ofBytes (bs : Bytes) : Device := { content := bs.toByteArray }

@[simp] theorem bytes_ofBytes (bs : Bytes) : (ofBytes bs).bytes = bs := by
  simp [ofBytes, bytes]

/-- The device with its bytes replaced. -/
def withBytes (d : Device) (bs : Bytes) : Device := { d with content := bs.toByteArray }

/-- The device with bytes added at its end. -/
def extend (d : Device) (bs : Bytes) : Device := { d with content := d.content ++ bs.toByteArray }

@[simp] theorem bytes_extend (d : Device) (bs : Bytes) : (d.extend bs).bytes = d.bytes ++ bs := by
  simp [extend, bytes, ByteArray.data_append]

/-- The range check of reads and truncations. -/
def checkRange (offset length logLength : Nat) : Except StorageError Unit :=
  if offset + length ≤ logLength then .ok () else .error (.outOfRange offset length logLength)

/-- Appends a record and returns the offset at which it starts. -/
def append (d : Device) (record : Bytes) : Except StorageError Nat × Device :=
  if d.closed || d.faults.append then
    (.error .closed, d)
  else
    match d.faults.tear with
    | some kept =>
        (.error .closed, { d.extend (record.take kept) with faults := { d.faults with tear := none } })
    | none => (.ok d.size, d.extend record)

/-- Reads `length` bytes from `offset` on. -/
def read (d : Device) (offset length : Nat) : Except StorageError Bytes := do
  checkRange offset length d.size
  return (d.content.extract offset (offset + length)).data.toList

/-- Reads everything. -/
def readAll (d : Device) : Except StorageError Bytes := .ok d.bytes

/-- Cuts the log back to its first `length` bytes. -/
def truncate (d : Device) (length : Nat) : Except StorageError Unit × Device :=
  if d.closed || d.faults.truncate then
    (.error .closed, d)
  else
    match checkRange length 0 d.size with
    | .error e => (.error e, d)
    | .ok () => (.ok (), { d with content := d.content.extract 0 length })

/-- Hands buffered bytes on. -/
def flush (d : Device) : Except StorageError Unit :=
  if d.closed || d.faults.flush then .error .closed else .ok ()

/-- Makes everything appended durable. -/
def sync (d : Device) : Except StorageError Unit :=
  if d.closed || d.faults.sync then .error .closed else .ok ()

/-- Refuses later changes. -/
def close (d : Device) : Device := { d with closed := true }

end Device

end Multiversion
