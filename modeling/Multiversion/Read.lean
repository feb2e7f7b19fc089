import Multiversion.Storage.Mutation
import Multiversion.Visibility.Basic

/-!
# Transactional reads

Point reads and scans on behalf of a reader.  Visibility is decided from all versions of a row, never
by the cell store's own choice of versions, so every read first widens its selection.
-/

namespace Multiversion

/-- Why a read failed. -/
inductive ReadError where
  | txn (cause : TxnError)
  | unorderedRange
  deriving DecidableEq, Repr

namespace Selection

/-- The selection that a transactional read uses in place of the caller's. -/
def widen (_ : Selection) : Selection := everything

end Selection

namespace Read

/-- Read results are handed back as upserts of the visible value. -/
def pairOf (key : Bytes) (cell : Option Cell) : Option Mutation :=
  (cell.bind Cell.value).map fun value => { kind := .upsert, key, value }

/-- Reads the value of one row as a reader sees it. -/
def get (d : Directory) (reader : View) (cells : CellStore) (key : Bytes) :
    Except TxnError (Option Mutation) × Outbox :=
  match Visibility.load d reader with
  | .error e => (.error e, {})
  | .ok v =>
      match v.filterRow d key (cells.get key (Selection.widen {})) with
      | (.error e, v) => (.error e, v.outbox)
      | (.ok cell, v) => (.ok (pairOf key cell), v.outbox)

/-- Reads the values of rows fetched with all their versions. -/
def rows (d : Directory) :
    (v : Visibility) → List (Bytes × List Cell) → Except TxnError (List Mutation) × Visibility
  | v, [] => (.ok [], v)
  | v, (key, versions) :: rest =>
      match v.filterRow d key versions with
      | (.error e, v) => (.error e, v)
      | (.ok cell, v) =>
          match rows d v rest with
          | (.error e, v) => (.error e, v)
          | (.ok others, v) => (.ok ((pairOf key cell).toList ++ others), v)

/-- Reads the values of the rows of a range as a reader sees them, in key order. -/
def scan (d : Directory) (reader : View) (cells : CellStore) (range : KeyRange) :
    Except ReadError (List Mutation) × Outbox :=
  match Visibility.load d reader with
  | .error e => (.error (.txn e), {})
  | .ok v =>
      match cells.scan? range (Selection.widen {}) with
      | none => (.error .unorderedRange, {})
      | some found =>
          match rows d v found with
          | (.error e, v) => (.error (.txn e), v.outbox)
          | (.ok pairs, v) => (.ok pairs, v.outbox)

end Read

end Multiversion
