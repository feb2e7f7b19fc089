import Multiversion.Storage.CellStore

/-!
# Cleaning up cells

Readers hand over what they find stale: cells of rolled-back writers, to be removed, and commit
timestamps, to be cached on the cells they belong to.  A `Sweeper` receives the hand-offs and ignores
them, applies them at once, or queues them.
-/

namespace Multiversion

/-- A cell that a reader found stale. -/
inductive HandOff where
  | rolledBack (key : Bytes) (writer : TxnId)
  -- The writer of a row's version committed, and the version does not carry the timestamp yet.
  | committed (key : Bytes) (writer : TxnId) (ts : Timestamp)
  deriving DecidableEq, Repr

namespace HandOff

/-- Applies a hand-off, and reports whether it changed a cell. -/
def applyTo (h : HandOff) (cells : CellStore) : Bool × CellStore :=
  match h with
  | rolledBack key writer => cells.removeVersion key writer
  | committed key writer ts => cells.setCommit key writer ts

end HandOff

/-- What becomes of hand-offs. -/
inductive Sweeper where
  | ignoring
  | prompt
  -- They are queued; `applied` counts those that changed a cell.
  | queued (queue : List HandOff) (accepting : Bool) (applied : Nat)
  deriving DecidableEq, Repr

namespace Sweeper

/-- A background sweeper with nothing to do. -/
def background : Sweeper := queued [] true 0

/-- Receives a hand-off. -/
def receive (s : Sweeper) (cells : CellStore) (h : HandOff) : Sweeper × CellStore :=
  match s with
  | ignoring => (s, cells)
  | prompt => (s, (h.applyTo cells).2)
  | queued queue accepting applied =>
      if accepting then (queued (queue ++ [h]) accepting applied, cells) else (s, cells)

/-- Receives hand-offs in order. -/
def receiveAll (s : Sweeper) (cells : CellStore) : List HandOff → Sweeper × CellStore
  | [] => (s, cells)
  | h :: rest => let (s, cells) := s.receive cells h; s.receiveAll cells rest

/-- Applies hand-offs in order and counts those that changed a cell. -/
def applyAll (cells : CellStore) : List HandOff → Nat × CellStore
  | [] => (0, cells)
  | h :: rest =>
      let (changed, cells) := h.applyTo cells
      let (count, cells) := applyAll cells rest
      ((if changed then 1 else 0) + count, cells)

/-- Applies everything that is queued. -/
def drain (s : Sweeper) (cells : CellStore) : Sweeper × CellStore :=
  match s with
  | queued queue accepting applied =>
      let (count, cells) := applyAll cells queue
      (queued [] accepting (applied + count), cells)
  | _ => (s, cells)

/-- Applies everything that is queued, and drops later hand-offs. -/
def shutdown (s : Sweeper) (cells : CellStore) : Sweeper × CellStore :=
  match s.drain cells with
  | (queued queue _ applied, cells) => (queued queue false applied, cells)
  | unchanged => unchanged

/-- How many hand-offs changed a cell, where this is counted. -/
def applied? : Sweeper → Option Nat
  | queued _ _ applied => some applied
  | _ => none

end Sweeper

end Multiversion
