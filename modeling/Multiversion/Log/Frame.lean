import Multiversion.Checksum
import Multiversion.Log.Payload

/-!
# Log frames

Each record of a log stands in a frame

```text
| magic "STXL" (4) | version (2) | type (1) | length (4) | payload | CRC-32 (4) |
```

with little-endian integers; the checksum covers everything before it.

* `Frame.encode` writes a record;
* `Frame.next` reads the frame at the front of the rest of a log: a frame cut short is no frame, and
  anything else that is not a frame is an error;
* `Frame.scan` reads all frames, with the offset at which each starts and the offset past the last.
-/

namespace Multiversion
namespace Frame

/-- The bytes that every frame starts with. -/
def magic : Bytes := [0x53, 0x54, 0x58, 0x4C]

/-- The format version that is written and read. -/
def version : Nat := 1

/-- Length of magic, version, type and length. -/
def headerSize : Nat := 11

/-- Length of the checksum. -/
def checksumSize : Nat := 4

/-- The checksummed part of a frame. -/
def body (type : RecordType) (payload : Bytes) : Bytes :=
  magic ++ Bytes.littleEndian 2 version ++ type.toByte :: Bytes.littleEndian 4 payload.length ++ payload

/-- A body followed by its checksum. -/
def withChecksum (body : Bytes) : Bytes :=
  body ++ Bytes.littleEndian checksumSize (Checksum.crc32 body).toNat

/-- The frame of a record. -/
def ofRecord (r : LogRecord) : Bytes := withChecksum (body r.type r.payload)

/-- The frame of a record, unless its payload is too long for the length field. -/
def encode (r : LogRecord) : Except TxnError Bytes :=
  if r.payload.length < 4294967296 then .ok (ofRecord r)
  else .error (.invalidOperation .payloadTooLarge)

/-- A frame found at the front of a log. -/
structure Found where
  record : LogRecord
  payloadLength : Nat
  deriving DecidableEq, Repr

/-- The length of the frame. -/
def Found.size (f : Found) : Nat := headerSize + f.payloadLength + checksumSize

/-- Reads a complete frame of known type and length. -/
def openSealed (type : RecordType) (payloadLength : Nat) (rest : Bytes) : Except TxnError Found :=
  let covered := rest.take (headerSize + payloadLength)
  let expected := UInt32.ofNat
    (Bytes.ofLittleEndian ((rest.drop (headerSize + payloadLength)).take checksumSize))
  let actual := Checksum.crc32 covered
  if expected = actual then
    match LogRecord.ofPayload type (covered.drop headerSize) with
    | .ok record => .ok { record, payloadLength }
    | .error e => .error e
  else
    .error (.checksumMismatch expected actual)

/-- Reads the frame at the front of the rest of a log that starts at an offset.  There is none if the
rest is shorter than a header, or shorter than the frame that the header announces. -/
def next (offset : Nat) (rest : Bytes) : Except TxnError (Option Found) :=
  if rest.length < headerSize then .ok none
  else if rest.take 4 ≠ magic then .error (.logCorruption (.badMagic offset))
  else
    let found := Bytes.ofLittleEndian ((rest.drop 4).take 2)
    if found ≠ version then .error (.logCorruption (.unsupportedVersion found offset))
    else
      let typeByte := rest.getD 6 0
      match RecordType.ofByte? typeByte with
      | none => .error (.logCorruption (.unknownRecordType typeByte offset))
      | some type =>
          let payloadLength := Bytes.ofLittleEndian ((rest.drop 7).take 4)
          if rest.length < headerSize + payloadLength + checksumSize then .ok none
          else
            match openSealed type payloadLength rest with
            | .ok f => .ok (some f)
            | .error e => .error e

theorem payloadLength_of_openSealed {type : RecordType} {n : Nat} {rest : Bytes} {f : Found}
    (h : openSealed type n rest = .ok f) : f.payloadLength = n := by
  simp only [openSealed] at h
  split at h
  · split at h
    · cases h
      rfl
    · contradiction
  · contradiction

/-- A frame that was found lies within the rest of the log. -/
theorem size_le_of_next {offset : Nat} {rest : Bytes} {f : Found}
    (h : next offset rest = .ok (some f)) : f.size ≤ rest.length := by
  unfold next at h
  split at h
  · simp at h
  split at h
  · simp at h
  dsimp only at h
  split at h
  · simp at h
  split at h
  · simp at h
  split at h
  · simp at h
  split at h
  · rename_i hlen _ g hopen
    cases h
    rw [Found.size, payloadLength_of_openSealed hopen]
    exact Nat.le_of_not_lt hlen
  · simp at h

/-- Reads the frames of the rest of a log that starts at an offset. -/
def scan (offset : Nat) (rest : Bytes) : Except TxnError (List (Nat × LogRecord) × Nat) :=
  match _h : next offset rest with
  | .error e => .error e
  | .ok none => .ok ([], offset)
  | .ok (some f) =>
      match scan (offset + f.size) (rest.drop f.size) with
      | .error e => .error e
      | .ok (records, stop) => .ok ((offset, f.record) :: records, stop)
termination_by rest.length
decreasing_by
  have hle := size_le_of_next _h
  have hpos : 0 < f.size := by simp only [Found.size, headerSize]; omega
  rw [List.length_drop]
  omega

end Frame
end Multiversion
