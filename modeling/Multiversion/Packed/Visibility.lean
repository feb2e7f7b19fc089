import Multiversion.Packed.Row
import Multiversion.Visibility.Basic

/-!
# Reading packed rows

Assembles the row that a reader sees from the versions visible to it, newest first, up to the first
visible deletion.  The walk stops early once every wanted column is there, and when only the existence
of the row is asked for.
-/

namespace Multiversion

/-- How packed rows are read. -/
structure PackedQuery where
  mask : ColumnMask := .all
  -- Only the existence of the row is asked for.
  countOnly : Bool := false
  keeps : PackedRow → Bool := fun _ => true

namespace PackedQuery

/-- The columns of the visible versions; none if there is no visible version but deletions. -/
def assemble (q : PackedQuery) (d : Directory) (key : Bytes) :
    (v : Visibility) → (found : Option PackedRow) → List Cell →
      Except TxnError (Option PackedRow) × Visibility
  | v, found, [] => (.ok found, v)
  | v, found, cell :: rest =>
      match v.isVisible d key cell with
      | (.error e, v) => (.error e, v)
      | (.ok false, v) => assemble q d key v found rest
      | (.ok true, v) =>
          match cell.value with
          | none => (.ok found, v)
          | some value =>
              let row := found.getD {}
              if q.countOnly then (.ok (some row), v)
              else
                match row.absorb q.mask value with
                | .error e => (.error e, v)
                | .ok row =>
                    if q.mask.isSatisfiedBy row then (.ok (some row), v)
                    else assemble q d key v (some row) rest

/-- The row that the reader sees, out of all versions, newest first; none if there is none or it is not
kept. -/
def accumulate (q : PackedQuery) (d : Directory) (v : Visibility) (key : Bytes) (cells : List Cell) :
    Except TxnError (Option PackedRow) × Visibility :=
  match q.assemble d key v none cells with
  | (.error e, v) => (.error e, v)
  | (.ok found, v) => (.ok (found.filter q.keeps), v)

end PackedQuery

end Multiversion
