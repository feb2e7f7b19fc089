import Multiversion.Transaction.Error

/-!
# Statuses of single rows

Every mutation sent to a partition comes back with a `Status`.  When one submitted row has several
outcomes, they are folded with `Status.settle`: the first outcome that is not a success stands.

* `Status.errorClass` — the taxonomy; exactly the transient and the unclassified failures may be
  tried again (`Status.isRetryable`).
* `Status.settled` — the fold of a list of outcomes.
-/

namespace Multiversion

/-- The kinds of failure of a row. -/
inductive FailureKind where
  -- A failure that the partition could not classify.
  | generic
  | writeConflict
  | additiveWriteConflict
  deriving DecidableEq, Repr

namespace FailureKind

/-- The name of a kind. -/
def name : FailureKind → String
  | generic => "Generic"
  | writeConflict => "WriteConflict"
  | additiveWriteConflict => "AdditiveWriteConflict"

end FailureKind

/-- The taxonomy of outcomes other than success. -/
inductive ErrorClass where
  | transient
  | failure
  | conflict
  | schema
  | internalInvariant
  deriving DecidableEq, Repr

namespace ErrorClass

/-- The name of a class. -/
def name : ErrorClass → String
  | transient => "Transient"
  | failure => "Failure"
  | conflict => "Conflict"
  | schema => "Schema"
  | internalInvariant => "InternalInvariant"

end ErrorClass

/-- The outcome of one attempt at one row. -/
inductive Status where
  | success
  -- The row was not attempted.
  | notRun
  | failure (kind : FailureKind) (detail : String)
  -- The row names a column family that the partition does not have.
  | badFamily (detail : String)
  -- The partition failed a check of its own.
  | sanityCheckFailure (detail : String)
  deriving DecidableEq, Repr, Inhabited

namespace Status

/-- A failure that the partition could not classify. -/
def generic (detail : String) : Status := failure .generic detail

/-- A collision with another transaction's write. -/
def writeConflict (detail : String) : Status := failure .writeConflict detail

/-- A collision between two additive transactions. -/
def additiveWriteConflict : Status :=
  failure .additiveWriteConflict "additive transactions wrote the same row"

/-- Whether the row was written. -/
def isSuccess : Status → Bool
  | success => true
  | _ => false

/-- The class of an outcome; none for a success. -/
def errorClass : Status → Option ErrorClass
  | success => none
  | notRun => some .transient
  | failure .generic _ => some .failure
  | failure .writeConflict _ | failure .additiveWriteConflict _ => some .conflict
  | badFamily _ => some .schema
  | sanityCheckFailure _ => some .internalInvariant

/-- Whether another attempt could succeed. -/
def isRetryable (s : Status) : Bool :=
  match s.errorClass with
  | some .transient | some .failure => true
  | _ => false

/-- A success, or the error that the status stands for. -/
def toExcept : Status → Except TxnError Unit
  | success => .ok ()
  | notRun => .error .notRun
  | failure .generic detail => .error (.writeFailed detail)
  | failure .writeConflict detail => .error (.writeConflict detail)
  | failure .additiveWriteConflict detail => .error (.additiveWriteConflict detail)
  | badFamily detail => .error (.badFamily detail)
  | sanityCheckFailure detail => .error (.sanityCheck detail)

/-- The text of a status. -/
def label : Status → String
  | success => "SUCCESS"
  | notRun => "NOT_RUN"
  | failure _ detail => s!"FAILURE({detail})"
  | badFamily detail => s!"BAD_FAMILY({detail})"
  | sanityCheckFailure detail => s!"SANITY_CHECK_FAILURE({detail})"

instance : ToString Status := ⟨label⟩

/-- Folds a further outcome of a row into the recorded one: a recorded success gives way, any other
recorded outcome stands. -/
def settle (recorded further : Status) : Status :=
  match recorded with
  | success => further
  | _ => recorded

@[simp] theorem settle_success (s : Status) : settle success s = s := rfl

/-- The outcome that a row ends with after a list of outcomes. -/
def settled (outcomes : List Status) : Status := outcomes.foldl settle success

end Status

end Multiversion
