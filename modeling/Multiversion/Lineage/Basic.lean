import Multiversion.Ledger.Directory
import Multiversion.Lineage.Fate

/-!
# Lineages

A transaction together with the ids of its ancestors, nearest first.

* `Lineage.load` collects the ancestors; a repeated id, or more than `maxAncestors` of them, is
  refused, so the walk ends on every directory;
* `Lineage.resolveWriter` walks from a writer towards its root until its fate is decided, over at most
  `maxAncestors` parents.
-/

namespace Multiversion

/-- The longest chain of ancestors that is taken for genuine. -/
def maxAncestors : Nat := 1024

/-- A transaction with the ids of its ancestors. -/
structure Lineage where
  view : View
  ids : List TxnId
  deriving DecidableEq, Repr

namespace Lineage

/-- Whether an id is that of the transaction or of one of its ancestors. -/
def contains (l : Lineage) (id : TxnId) : Bool := l.ids.contains id

/-- Adds the ancestors from `parent` on to the ids found so far; `room` bounds their number. -/
def collect (d : Directory) (subject : TxnId) :
    (room : Nat) → (ids : List TxnId) → (parent : Option TxnId) → Except TxnError (List TxnId)
  | _, ids, none => .ok ids
  | 0, _, some _ => .error (.invalidOperation (.endlessLineage subject))
  | room + 1, ids, some parent =>
      if ids.contains parent then .error (.invalidOperation (.endlessLineage subject))
      else
        match d.get parent with
        | .error e => .error e
        | .ok view => collect d subject room (ids ++ [parent]) view.parent

/-- The lineage of a transaction. -/
def load (d : Directory) (view : View) : Except TxnError Lineage :=
  match collect d view.id maxAncestors [view.id] view.parent with
  | .error e => .error e
  | .ok ids => .ok { view, ids }

/-- Decides the fate of `writer` from one element of its lineage on; `below` is the commit timestamp of
the element below, if this is not the writer itself, and `room` bounds the number of parents. -/
def walk (l : Lineage) (d : Directory) (writer : TxnId) :
    (room : Nat) → (below : Option Timestamp) → (current : View) → Except TxnError Fate
  | room, below, current =>
      match below.filter fun _ => l.contains current.id with
      | some commit => .ok (.committedInto current.id commit)
      | none =>
          match current.phase with
          | .rolledBack => .ok .rolledBack
          | .active => .ok (.active current.id (d.isExpired current.id))
          | .committed =>
              match current.globalCommit, current.commit, current.parent with
              | some root, _, _ => .ok (.committed root false)
              | none, none, _ => .error (.invalidOperation (.missingCommit current.id))
              | none, some commit, none => .ok (.committed commit below.isSome)
              | none, some commit, some parent =>
                  match room with
                  | 0 => .error (.invalidOperation (.endlessLineage writer))
                  | room + 1 =>
                      match d.get parent with
                      | .error e => .error e
                      | .ok view => walk l d writer room (some commit) view

/-- The fate of a writer's work, seen from the transaction. -/
def resolveWriter (l : Lineage) (d : Directory) (writer : TxnId) : Except TxnError Fate :=
  if l.contains writer then .ok .own
  else
    match d.get writer with
    | .error e => .error e
    | .ok view => l.walk d writer maxAncestors none view

end Lineage

end Multiversion
