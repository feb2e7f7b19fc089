import Multiversion.Pipeline.Transport

/-!
# Injected faults

A transport wrapped so that single rows or whole batches fail on demand.  Each fault is used once, and
a row that is hit by one is not sent on.
-/

namespace Multiversion

/-- A fault to be injected. -/
inductive Fault where
  -- The next row with this key gets this status.
  | row (key : Bytes) (status : Status)
  -- The next batch for this partition is lost.
  | batch (partition : String)
  deriving DecidableEq, Repr

/-- A transport state with the faults that are still to be injected. -/
structure FaultInjection (τ : Type) where
  inner : τ
  faults : List Fault := []
  batches : Nat := 0
  injected : Nat := 0

namespace FaultInjection

variable {τ : Type}

/-- Orders a fault. -/
def order (f : FaultInjection τ) (fault : Fault) : FaultInjection τ :=
  { f with faults := f.faults ++ [fault] }

/-- The status that the first fault for a row gives it, and the faults that are left. -/
def takeRow (key : Bytes) : List Fault → Option Status × List Fault
  | [] => (none, [])
  | .row k status :: rest =>
      if k = key then (some status, rest)
      else let (found, rest) := takeRow key rest; (found, .row k status :: rest)
  | fault :: rest => let (found, rest) := takeRow key rest; (found, fault :: rest)

/-- What faults give to the rows of a batch, and the faults that are left. -/
def takeRows : List Mutation → List Fault → List (Option Status) × List Fault
  | [], faults => ([], faults)
  | row :: rest, faults =>
      let (found, faults) := takeRow row.key faults
      let (others, faults) := takeRows rest faults
      (found :: others, faults)

/-- Puts the answers of the wrapped transport between the statuses that faults have given. -/
def merge : List (Option Status) → (answers : List Status) → List Status
  | [], _ => []
  | some status :: rest, answers => status :: merge rest answers
  | none :: rest, status :: answers => status :: merge rest answers
  | none :: rest, [] => .generic "transport returned too few statuses" :: merge rest []

/-- Sends rows on, if there are any. -/
def forward (t : Transport τ) (partition : String) (txn : View) (rows : List Mutation) (world : τ) :
    Except PipelineError (List Status) × τ :=
  if rows.isEmpty then (.ok [], world) else t.write partition txn rows world

/-- Sends a batch, unless a fault hits it. -/
def write (t : Transport τ) (partition : String) (txn : View) (rows : List Mutation)
    (f : FaultInjection τ) : Except PipelineError (List Status) × FaultInjection τ :=
  let f := { f with batches := f.batches + 1 }
  if f.faults.contains (.batch partition) then
    (.error (.transport partition "injected transport failure"),
      { f with faults := f.faults.erase (.batch partition), injected := f.injected + 1 })
  else
    let (given, faults) := takeRows rows f.faults
    let f := { f with faults, injected := f.injected + given.countP Option.isSome }
    let kept := ((rows.zip given).filter (·.2.isNone)).map (·.1)
    match forward t partition txn kept f.inner with
    | (.error e, inner) => (.error e, { f with inner })
    | (.ok answers, inner) => (.ok (merge given answers), { f with inner })

/-- The wrapped transport with its faults. -/
def transport (t : Transport τ) : Transport (FaultInjection τ) where
  locate key f := let (answer, inner) := t.locate key f.inner; (answer, { f with inner })
  write := write t

end FaultInjection

end Multiversion
