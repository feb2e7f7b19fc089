import Std.Data.ExtTreeMap
import Multiversion.Transaction.Error

/-!
# Packed rows

A packed value is a run of entries `(column : 2 bytes, length : 4 bytes, value)`, little-endian.  A row
is assembled from several packed values, newest first: each column keeps the first value it gets.

* `Packed.encode` and `Packed.entries` — writing and reading the run of entries;
* `ColumnMask` — which columns a read wants;
* `PackedRow.absorb` — merging one packed value into a row.
-/

namespace Multiversion
namespace Packed

/-- One column with its value. -/
structure Entry where
  column : UInt16
  value : Bytes
  deriving DecidableEq, Repr

/-- Length of an entry's column and length fields. -/
def headerSize : Nat := 6

/-- The bytes of one entry. -/
def Entry.encode (e : Entry) : Bytes :=
  Bytes.littleEndian 2 e.column.toNat ++ Bytes.littleEndian 4 e.value.length ++ e.value

/-- The packed value of a list of columns; a value must fit its length field. -/
def encode (entries : List Entry) : Except TxnError Bytes :=
  match entries.find? fun e => 4294967296 ≤ e.value.length with
  | some e => .error (.codec (.columnTooLarge e.column.toNat))
  | none => .ok (entries.flatMap Entry.encode)

/-- The entries in the rest of a packed value that starts at a position. -/
def entriesFrom (position : Nat) (rest : Bytes) : Except TxnError (List Entry) :=
  if rest.isEmpty then .ok []
  else if _short : rest.length < headerSize then .error (.codec (.truncatedEntry position))
  else
    let column := UInt16.ofNat (Bytes.ofLittleEndian (rest.take 2))
    let length := Bytes.ofLittleEndian ((rest.drop 2).take 4)
    if rest.length < headerSize + length then .error (.codec (.columnOverrun column.toNat))
    else
      match entriesFrom (position + headerSize + length) (rest.drop (headerSize + length)) with
      | .error e => .error e
      | .ok others => .ok (⟨column, (rest.drop headerSize).take length⟩ :: others)
termination_by rest.length
decreasing_by
  simp only [headerSize] at _short
  simp only [List.length_drop, headerSize]
  omega

/-- The entries of a packed value. -/
def entries (value : Bytes) : Except TxnError (List Entry) := entriesFrom 0 value

end Packed

/-- Which columns a read wants. -/
inductive ColumnMask where
  | all
  | only (columns : List UInt16)
  deriving DecidableEq, Repr

/-- The columns assembled for one row. -/
structure PackedRow where
  -- Columns with their values, in column order.
  columns : Std.ExtTreeMap UInt16 Bytes compare := ∅

namespace ColumnMask

/-- Whether a column is wanted. -/
def selects : ColumnMask → UInt16 → Bool
  | all, _ => true
  | only columns, column => columns.contains column

/-- Whether older versions can add nothing that is wanted. -/
def isSatisfiedBy : ColumnMask → PackedRow → Bool
  | all, _ => false
  | only columns, row => columns.all fun column => row.columns.contains column

end ColumnMask

namespace PackedRow

/-- The value of a column. -/
def get? (row : PackedRow) (column : UInt16) : Option Bytes := row.columns[column]?

/-- The number of columns. -/
def size (row : PackedRow) : Nat := row.columns.size

/-- Gives a wanted column a value, unless it has one. -/
def add (row : PackedRow) (mask : ColumnMask) (e : Packed.Entry) : PackedRow :=
  if mask.selects e.column then ⟨row.columns.insertIfNew e.column e.value⟩ else row

/-- Merges a packed value into a row. -/
def absorb (row : PackedRow) (mask : ColumnMask) (value : Bytes) : Except TxnError PackedRow :=
  match Packed.entries value with
  | .error e => .error e
  | .ok entries => .ok (entries.foldl (fun row e => row.add mask e) row)

end PackedRow

end Multiversion
