/-!
# Errors of a log device

A device refuses a range that it does not hold, and every change once it is closed.
-/

namespace Multiversion

/-- Why a log device refused an operation. -/
inductive StorageError where
  | io (detail : String)
  -- The range `offset + length` does not lie inside a log of `logLength` bytes.
  | outOfRange (offset length logLength : Nat)
  -- The device no longer accepts changes.
  | closed
  deriving DecidableEq, Repr

namespace StorageError

/-- The text of a device error. -/
def message : StorageError → String
  | io detail => s!"log I/O failed: {detail}"
  | outOfRange offset length logLength =>
      s!"range {offset}+{length} is outside a log of {logLength} bytes"
  | closed => "log backend is closed"

/-- The name of the cause, without its particulars. -/
def kind : StorageError → String
  | io _ => "Io"
  | outOfRange .. => "OutOfRange"
  | closed => "Closed"

instance : ToString StorageError := ⟨message⟩

end StorageError

end Multiversion
