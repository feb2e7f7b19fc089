import Multiversion.Lineage.Basic
import Multiversion.Store.TxnStore

/-!
# Resolution requests

Two kinds of work keep reads short: caching the commit timestamp of the root on a committed nested
transaction, and rolling back a transaction that missed its deadline.  A request is decided on a
directory (`Request.decide`) and then becomes an ordinary change of the store, or nothing.
-/

namespace Multiversion

/-- The kinds of background work on a transaction record. -/
inductive ResolveKind where
  | globalCommit
  | timedOut
  deriving DecidableEq, Repr

/-- A request for background work on one transaction. -/
structure Request where
  kind : ResolveKind
  id : TxnId
  deriving DecidableEq, Repr

/-- How a request ended. -/
inductive Outcome where
  | resolved
  | skipped
  | failed
  deriving DecidableEq, Repr

namespace Request

/-- Walks from a committed element to the root of its lineage over at most `room` parents, as long as
every element is committed; none if one is not. -/
def rootOf (d : Directory) (subject : TxnId) :
    (room : Nat) → (current : View) → Except TxnError (Option View)
  | room, current =>
      match current.parent with
      | none => .ok (some current)
      | some parent =>
          match room with
          | 0 => .error (.invalidOperation (.endlessLineage subject))
          | room + 1 =>
              match d.get parent with
              | .error e => .error e
              | .ok view =>
                  if view.phase = .committed then rootOf d subject room view else .ok none

/-- The change that caches the root's commit timestamp, if the whole lineage has committed and nothing
is cached yet. -/
def decideGlobalCommit (d : Directory) (id : TxnId) : Except TxnError (Option Change) := do
  let view ← d.get id
  if view.phase ≠ .committed || view.parent.isNone || view.globalCommit.isSome then
    return none
  let root ← rootOf d id maxAncestors view
  return (root.bind View.commit).map (Change.globalCommit id)

/-- The change that rolls a transaction back, if it is active and past its deadline. -/
def decideTimedOut (d : Directory) (id : TxnId) : Except TxnError (Option Change) := do
  let phase ← d.phase id
  return if phase = .active && d.isExpired id then some (.rollback id) else none

/-- The change that a request asks for at this moment. -/
def decide (r : Request) (d : Directory) : Except TxnError (Option Change) :=
  match r.kind with
  | .globalCommit => decideGlobalCommit d r.id
  | .timedOut => decideTimedOut d r.id

/-- Carries out a request.  A time-out that loses against a commit is nothing to do. -/
def execute (r : Request) (t : TxnStore) (now : Millis) : Outcome × TxnStore :=
  match r.decide (t.directory now) with
  | .error _ => (.failed, t)
  | .ok none => (.skipped, t)
  | .ok (some change) =>
      match t.submit now change with
      | (.ok _, t) => (.resolved, t)
      | (.error e, t) =>
          (if r.kind = .timedOut && e.isProtocolViolation then .skipped else .failed, t)

end Request

end Multiversion
