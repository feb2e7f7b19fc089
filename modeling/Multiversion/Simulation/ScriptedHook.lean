import Multiversion.Pipeline.Coordinator

/-!
# Scripted hooks

A hook made of rules: each rule tells which rows stand in place of the rows with one key.
-/

namespace Multiversion

/-- A row that a rule produces in place of another. -/
structure Emission where
  -- The mutation; if none, that of the row it stands for.
  row : Option Mutation := none
  -- The sequence number; if none, that of the row it stands for.
  seq : Option Nat := none
  shift : Nat := 0
  deriving DecidableEq, Repr

/-- What stands in place of the rows with a key. -/
structure HookRule where
  key : Bytes
  emissions : List Emission
  deriving DecidableEq, Repr

/-- A hook made of rules. -/
structure ScriptedHook where
  failure : Option String := none
  -- If there is a key, only batches with a row of this key are refused.
  failKey : Option Bytes := none
  -- The rules; the first one for a key counts.
  rules : List HookRule := []
  reversed : Bool := false
  deriving DecidableEq, Repr

namespace ScriptedHook

/-- The row that an emission puts in place of another. -/
def emit (p : PendingRow) (e : Emission) : PendingRow where
  seq := e.seq.getD (p.seq + e.shift)
  row := e.row.getD p.row

/-- The rows that stand in place of a row. -/
def expand (h : ScriptedHook) (p : PendingRow) : List PendingRow :=
  match h.rules.find? (·.key = p.row.key) with
  | none => [p]
  | some rule => rule.emissions.map (emit p)

/-- Whether a batch is refused. -/
def refuses (h : ScriptedHook) (rows : List PendingRow) : Bool :=
  match h.failKey with
  | none => true
  | some key => rows.any (·.row.key = key)

/-- Changes a batch. -/
def prepare (h : ScriptedHook) (rows : List PendingRow) : List PendingRow :=
  let rows := rows.flatMap h.expand
  if h.reversed then rows.reverse else rows

/-- The hook that follows the rules. -/
def toHook (h : ScriptedHook) : Hook := fun rows =>
  match h.failure with
  | none => .ok (h.prepare rows)
  | some text => if h.refuses rows then .error (.hook text) else .ok (h.prepare rows)

end ScriptedHook

end Multiversion
