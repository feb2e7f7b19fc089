import Multiversion.Transaction.Basic

/-!
# Time

Keep-alive bookkeeping reads a clock in milliseconds; begin and commit timestamps come from a
counter.  Both are 64-bit.  A clock that is moved past its range starts over; a counter that has issued
its last timestamp issues no more.
-/

namespace Multiversion

/-- A reading of the clock, or a span of time, in milliseconds. -/
abbrev Millis := UInt64

/-- A clock that only moves when told to. -/
structure Clock where
  now : Millis := 0
  deriving DecidableEq, Repr

namespace Clock

/-- Moves the clock forward, modulo its 64-bit range. -/
def advance (c : Clock) (span : Millis) : Clock := ⟨c.now + span⟩

/-- Sets the clock to a reading. -/
def set (_ : Clock) (reading : Millis) : Clock := ⟨reading⟩

/-- The time since an earlier reading; zero if that reading lies in the future. -/
def elapsed (now since : Millis) : Millis := if since ≤ now then now - since else 0

end Clock

/-- The counter that begin and commit timestamps and fresh ids come from. -/
structure TimestampSource where
  current : Timestamp := .earliest
  deriving DecidableEq, Repr

namespace TimestampSource

/-- Whether the last timestamp there is has been issued. -/
def isExhausted (s : TimestampSource) : Bool := s.current = .latest

/-- Issues the timestamp after the last one, of a counter that is not exhausted. -/
def next (s : TimestampSource) : Timestamp × TimestampSource :=
  let issued : Timestamp := ⟨s.current.val + 1⟩
  (issued, ⟨issued⟩)

/-- Issues the next `count` timestamps, if there are that many left. -/
def take? : (count : Nat) → TimestampSource → Option (List Timestamp × TimestampSource)
  | 0, s => some ([], s)
  | count + 1, s =>
      if s.isExhausted then none
      else do
        let (issued, s) := s.next
        let (later, s) ← take? count s
        return (issued :: later, s)

end TimestampSource

end Multiversion
