import Multiversion.Packed.Row

/-!
# The format of packed values

A packed value is entries one after the other, and nothing else: reading accepts exactly this format, whatever
columns are wanted, and writing produces it.

* `Packed.Holds` — a byte string is the layout of a list of entries;
* `Packed.entries_eq_ok_iff` — reading accepts exactly such byte strings;
* `Packed.holds_flatMap_encode` — writing produces them;
* `Packed.firstOf` — the value that a list of entries gives to a column;
* `PackedRow.get?_absorb` — the row after a value was merged into it.

Main statement: `PackedRow.absorb_exact`.
-/

namespace Multiversion
namespace Packed

/-- A byte string is the layout of a list of entries: for each of them two bytes with its column, four with
the length of its value, and the value. -/
inductive Holds : Bytes → List Entry → Prop
  | nil : Holds [] []
  | cons {column length value rest : Bytes} {others : List Entry} (hcolumn : column.length = 2)
      (hlength : length.length = 4) (hvalue : value.length = Bytes.ofLittleEndian length)
      (hrest : Holds rest others) :
      Holds (column ++ length ++ value ++ rest)
        (⟨UInt16.ofNat (Bytes.ofLittleEndian column), value⟩ :: others)

/-- The value that entries give to a column: that of its first entry. -/
def firstOf (column : UInt16) (es : List Entry) : Option Bytes :=
  (es.find? (·.column = column)).map (·.value)

@[simp] theorem firstOf_nil (column : UInt16) : firstOf column [] = none := rfl

theorem firstOf_cons (column : UInt16) (e : Entry) (es : List Entry) :
    firstOf column (e :: es) = if e.column = column then some e.value else firstOf column es := by
  by_cases h : e.column = column <;> simp [firstOf, h]

/-- **Whatever is in the format is read**, wherever it stands. -/
theorem entriesFrom_of_holds {value : Bytes} {es : List Entry} (h : Holds value es) (position : Nat) :
    entriesFrom position value = .ok es := by
  induction h generalizing position with
  | nil => rw [entriesFrom]; rfl
  | @cons column length value rest others hcolumn hlength hvalue _ ih =>
      generalize hbytes : column ++ length ++ value ++ rest = bytes
      have hsize : bytes.length = headerSize + value.length + rest.length := by
        rw [← hbytes, headerSize]
        simp only [List.length_append]
        omega
      have hcolumn' : bytes.take 2 = column := by
        rw [← hbytes, List.append_assoc, List.append_assoc, List.take_left' hcolumn]
      have hlength' : (bytes.drop 2).take 4 = length := by
        rw [← hbytes, List.append_assoc, List.append_assoc, List.drop_left' hcolumn,
          List.take_left' hlength]
      have hheader : (column ++ length).length = headerSize := by
        rw [List.length_append, hcolumn, hlength]
        rfl
      have hvalue' : (bytes.drop headerSize).take value.length = value := by
        rw [← hbytes, List.append_assoc, List.drop_left' hheader, List.take_left]
      have hrest' : bytes.drop (headerSize + value.length) = rest := by
        rw [← hbytes, List.drop_left']
        rw [List.length_append, hheader]
      have hne : bytes.isEmpty = false := by
        rw [List.isEmpty_eq_false_iff_exists_mem]
        exact List.exists_mem_of_length_pos (by rw [hsize, headerSize]; omega)
      rw [entriesFrom, hne, if_neg Bool.false_ne_true, dif_neg (by omega)]
      simp only [hcolumn', hlength', ← hvalue, hvalue', hrest', ih]
      rw [if_neg (by omega)]

/-- **Whatever is read is in the format.** -/
theorem holds_of_entriesFrom {position : Nat} {value : Bytes} {es : List Entry}
    (h : entriesFrom position value = .ok es) : Holds value es := by
  fun_induction entriesFrom position value generalizing es with
  | case1 position rest hempty =>
      cases h
      rw [List.isEmpty_iff.1 hempty]
      exact .nil
  | case2 => cases h
  | case3 => cases h
  | case4 => cases h
  | case5 position rest _ hheader column length hroom others hothers =>
      rename_i ih
      cases h
      have hlayout : rest = rest.take 2 ++ (rest.drop 2).take 4 ++ (rest.drop headerSize).take length ++
          rest.drop (headerSize + length) := by
        rw [← List.take_add, show 2 + 4 = headerSize from rfl, ← List.take_add, List.take_append_drop]
      have hentry : Holds (rest.take 2 ++ (rest.drop 2).take 4 ++ (rest.drop headerSize).take length ++
          rest.drop (headerSize + length))
          (⟨UInt16.ofNat (Bytes.ofLittleEndian (rest.take 2)), (rest.drop headerSize).take length⟩ ::
            others) := by
        rw [headerSize] at hheader hroom
        refine .cons ?_ ?_ ?_ (ih hothers)
        · rw [List.length_take]
          omega
        · rw [List.length_take, List.length_drop]
          omega
        · rw [List.length_take, List.length_drop, headerSize]
          omega
      rwa [← hlayout] at hentry

/-- **Reading accepts exactly the format.** -/
theorem entries_eq_ok_iff {value : Bytes} {es : List Entry} : entries value = .ok es ↔ Holds value es :=
  ⟨holds_of_entriesFrom, fun h => entriesFrom_of_holds h 0⟩

/-- What is written for an entry is in the format, and so is what follows it. -/
theorem Holds.encode_append {e : Entry} {rest : Bytes} {es : List Entry}
    (he : e.value.length < 4294967296) (h : Holds rest es) : Holds (e.encode ++ rest) (e :: es) := by
  have hcolumn : UInt16.ofNat (Bytes.ofLittleEndian (Bytes.littleEndian 2 e.column.toNat)) = e.column := by
    rw [Bytes.ofLittleEndian_littleEndian,
      Nat.mod_eq_of_lt (show _ < Bytes.bound 2 from UInt16.toNat_lt _), UInt16.ofNat_toNat]
  have hlength : e.value.length = Bytes.ofLittleEndian (Bytes.littleEndian 4 e.value.length) := by
    rw [Bytes.ofLittleEndian_littleEndian]
    exact (Nat.mod_eq_of_lt he).symm
  have hentry := Holds.cons (Bytes.length_littleEndian 2 e.column.toNat)
    (Bytes.length_littleEndian 4 e.value.length) hlength h
  rwa [hcolumn] at hentry

/-- **Writing produces the format.** -/
theorem holds_flatMap_encode {es : List Entry} (h : ∀ e ∈ es, e.value.length < 4294967296) :
    Holds (es.flatMap Entry.encode) es := by
  induction es with
  | nil => exact .nil
  | cons e rest ih =>
      rw [List.flatMap_cons]
      exact (ih fun x hx => h x (List.mem_cons_of_mem _ hx)).encode_append (h e List.mem_cons_self)

theorem encode_of_fits {es : List Entry} (h : ∀ e ∈ es, e.value.length < 4294967296) :
    encode es = .ok (es.flatMap Entry.encode) := by
  have hnone : es.find? (fun e => 4294967296 ≤ e.value.length) = none :=
    List.find?_eq_none.2 fun e he => by simpa using h e he
  rw [encode, hnone]

end Packed

namespace PackedRow

open Packed (Holds firstOf firstOf_cons firstOf_nil)

@[simp] theorem get?_empty (column : UInt16) : ({} : PackedRow).get? column = none :=
  Std.ExtTreeMap.getElem?_empty

/-- An entry that is wanted counts for its column, unless the column has a value. -/
theorem get?_add (row : PackedRow) (mask : ColumnMask) (e : Packed.Entry) (column : UInt16) :
    (row.add mask e).get? column =
      (row.get? column).or (if mask.selects column then firstOf column [e] else none) := by
  rw [firstOf_cons, firstOf_nil, add]
  by_cases hcolumn : e.column = column
  · subst hcolumn
    cases hselects : mask.selects e.column with
    | false => simp
    | true =>
        have hmem : e.column ∈ row.columns ↔ (row.columns[e.column]?).isSome :=
          Std.ExtTreeMap.mem_iff_isSome_getElem?
        simp only [if_true, get?, Std.ExtTreeMap.getElem?_insertIfNew, Std.ReflCmp.compare_self, hmem]
        cases row.columns[e.column]? with
        | none => rfl
        | some value => rfl
  · have hother : compare e.column column ≠ .eq := fun h => hcolumn (Std.LawfulEqCmp.eq_of_compare h)
    cases hselects : mask.selects e.column with
    | false => simp [hcolumn]
    | true => simp [get?, Std.ExtTreeMap.getElem?_insertIfNew, hother, hcolumn]

theorem get?_foldl_add (row : PackedRow) (mask : ColumnMask) (es : List Packed.Entry) (column : UInt16) :
    (es.foldl (fun row e => row.add mask e) row).get? column =
      (row.get? column).or (if mask.selects column then firstOf column es else none) := by
  induction es generalizing row with
  | nil => simp
  | cons e rest ih =>
      rw [List.foldl_cons, ih, get?_add, Option.or_assoc]
      congr 1
      rw [firstOf_cons, firstOf_cons, firstOf_nil]
      cases mask.selects column with
      | false => rfl
      | true => by_cases h : e.column = column <;> simp [h]

/-- **A value that was merged** adds the columns that are wanted and that the row did not have, each with
its first entry. -/
theorem get?_absorb {value : Bytes} {es : List Packed.Entry} (h : Holds value es) (mask : ColumnMask)
    (row : PackedRow) :
    ∃ row', row.absorb mask value = .ok row' ∧ ∀ column, row'.get? column =
      (row.get? column).or (if mask.selects column then firstOf column es else none) := by
  rw [absorb, Packed.entries_eq_ok_iff.2 h]
  exact ⟨_, rfl, get?_foldl_add row mask es⟩

theorem holds_of_absorb {row row' : PackedRow} {mask : ColumnMask} {value : Bytes}
    (h : row.absorb mask value = .ok row') : ∃ es, Holds value es := by
  unfold absorb at h
  split at h
  · cases h
  · rename_i es hread
    exact ⟨es, Packed.entries_eq_ok_iff.1 hread⟩

/-- **Merging a packed value accepts exactly the format.**  It succeeds if and only if the value is the layout
of some entries, whatever columns are wanted and whatever the row holds; then each column that is wanted and
that the row does not have gets the value of its first entry, and nothing else changes.  And what is written
for a list of columns, none of them too long for its length field, is the layout of this list, so that merging
it into an empty row with all columns wanted gives the first value that is listed for each column. -/
theorem absorb_exact (row : PackedRow) (mask : ColumnMask) (value : Bytes) :
    ((∃ row', row.absorb mask value = .ok row') ↔ ∃ es, Holds value es) ∧
      (∀ es, Holds value es → ∃ row', row.absorb mask value = .ok row' ∧ ∀ column,
        row'.get? column =
          (row.get? column).or (if mask.selects column then firstOf column es else none)) ∧
      ∀ es : List Packed.Entry, (∀ e ∈ es, e.value.length < 4294967296) →
        ∃ packed, Packed.encode es = .ok packed ∧ Holds packed es ∧
          ∃ row', ({} : PackedRow).absorb .all packed = .ok row' ∧
            ∀ column, row'.get? column = firstOf column es := by
  refine ⟨⟨fun ⟨_, h⟩ => holds_of_absorb h, fun ⟨_, h⟩ => ?_⟩, fun es h => get?_absorb h mask row,
    fun es hes => ?_⟩
  · obtain ⟨row', habsorb, -⟩ := get?_absorb h mask row
    exact ⟨row', habsorb⟩
  · have hholds := Packed.holds_flatMap_encode hes
    obtain ⟨row', habsorb, hget⟩ := get?_absorb hholds .all {}
    refine ⟨_, Packed.encode_of_fits hes, hholds, row', habsorb, fun column => ?_⟩
    rw [hget, get?_empty]
    rfl

end PackedRow

/-- A column that is listed twice has the first value, and a value may be empty. -/
theorem absorb_exact_repeatedColumn :
    ∃ packed row, Packed.encode [⟨1, [0x61, 0x62]⟩, ⟨513, []⟩, ⟨1, [0x63]⟩] = .ok packed ∧
      ({} : PackedRow).absorb .all packed = .ok row ∧
      row.get? 1 = some [0x61, 0x62] ∧ row.get? 513 = some [] ∧ row.get? 2 = none := by
  obtain ⟨packed, hencode, -, row, habsorb, hrow⟩ := (PackedRow.absorb_exact {} .all []).2.2
    [⟨1, [0x61, 0x62]⟩, ⟨513, []⟩, ⟨1, [0x63]⟩] (by decide)
  exact ⟨packed, row, hencode, habsorb, hrow 1, hrow 513, hrow 2⟩

end Multiversion
