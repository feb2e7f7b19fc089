import Multiversion.Log.Frame
import Multiversion.Storage.Device

/-!
# The transaction log

An append-only sequence of frames on a device.

* `Log.append` — writes one frame, and syncs the device if the log was set up so;
* `Log.readAll` — the records of all complete frames;
* `Log.recover` — the same, and cuts off a frame that was cut short, so that the next append starts
  where the last complete frame ends.
-/

namespace Multiversion

/-- A log on a device. -/
structure Log where
  device : Device := {}
  syncOnWrite : Bool := true

namespace Log

/-- The length of the log in bytes. -/
def size (l : Log) : Nat := l.device.size

/-- Appends a record and returns the offset at which its frame starts.  If the sync fails, the frame
stays on the device. -/
def append (l : Log) (r : LogRecord) : Except TxnError Nat × Log :=
  match Frame.encode r with
  | .error e => (.error e, l)
  | .ok frame =>
      match l.device.append frame with
      | (.error e, device) => (.error (.storage e), { l with device })
      | (.ok offset, device) =>
          if l.syncOnWrite then
            match device.sync with
            | .error e => (.error (.storage e), { l with device })
            | .ok () => (.ok offset, { l with device })
          else
            (.ok offset, { l with device })

/-- Hands buffered bytes on. -/
def flush (l : Log) : Except TxnError Unit :=
  match l.device.flush with
  | .error e => .error (.storage e)
  | .ok () => .ok ()

/-- The records of all complete frames, with their offsets. -/
def readAll (l : Log) : Except TxnError (List (Nat × LogRecord)) := do
  let (records, _) ← Frame.scan 0 l.device.bytes
  return records

/-- The records of all complete frames; a partial frame at the end is cut off. -/
def recover (l : Log) : Except TxnError (List (Nat × LogRecord)) × Log :=
  match Frame.scan 0 l.device.bytes with
  | .error e => (.error e, l)
  | .ok (records, stop) =>
      if stop < l.size then
        match l.device.truncate stop with
        | (.error e, device) => (.error (.storage e), { l with device })
        | (.ok (), device) => (.ok records, { l with device })
      else
        (.ok records, l)

end Log

end Multiversion
