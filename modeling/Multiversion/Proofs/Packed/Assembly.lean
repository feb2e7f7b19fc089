import Mathlib.Data.List.Forall2
import Multiversion.Packed.Visibility
import Multiversion.Proofs.Packed.Format

/-!
# Assembled rows

Reading a packed row walks the versions of a row, newest first, and stops as soon as it can.  What it returns
is what it would return without stopping: each wanted column with its first entry in the newest version that
has it, among the versions that the reader sees and that are newer than the first deletion it sees.

* `Visibility.fateOf` — the fate of a cell's writer as a view stands, whatever its memory holds: looking at
  cells does not change it;
* `Visibility.sees`, `Visibility.live` — what the reader sees, and that up to the first deletion;
* `Visibility.visibleVersions_eq`, `Visibility.filterRow_eq` — the answers about whole versions: all that
  the reader sees, and the first of the live ones;
* `PackedQuery.gather` — the walk over the live values only;
* `PackedRow.restrict` — a row with the columns of a mask only.

Main statement: `PackedQuery.accumulate_assembles`.
-/

namespace Multiversion

namespace Visibility

variable {d : Directory} {v : Visibility} {cells : List Cell}

/-- The fate of a writer as the view stands: remembered, or read off the records. -/
def lookUp (d : Directory) (v : Visibility) (writer : TxnId) : Except TxnError Fate :=
  match v.memory[writer]? with
  | some fate => .ok fate
  | none => v.lineage.resolveWriter d writer

/-- The fate of a cell's writer as the view stands.  A cached commit timestamp is believed. -/
def fateOf (d : Directory) (v : Visibility) (cell : Cell) : Except TxnError Fate :=
  match v.cachedCommit cell with
  | some commit => .ok (.committed commit false)
  | none => v.lookUp d cell.writer

/-- Whether the reader sees a cell. -/
def sees (d : Directory) (v : Visibility) (cell : Cell) : Bool :=
  match v.fateOf d cell with
  | .ok fate => fate.isVisibleTo v.reader
  | .error _ => false

/-- Whether the writers of some cells can all be resolved. -/
def Resolves (d : Directory) (v : Visibility) (cells : List Cell) : Prop :=
  ∀ c ∈ cells, ∃ fate, v.fateOf d c = .ok fate

/-- The versions that the reader sees, newest first, up to the first one that marks a deletion. -/
def live (d : Directory) (v : Visibility) (cells : List Cell) : List Cell :=
  (cells.filter (v.sees d)).takeWhile fun c => !c.isTombstone

/-- What is learnt about a writer is what was known or could be known of it before. -/
theorem learn_eq_lookUp (d : Directory) (v : Visibility) (writer : TxnId) :
    ∃ v', v.learn d writer = (v.lookUp d writer, v') ∧ v'.lineage = v.lineage ∧
      v'.lookUp d = v.lookUp d := by
  rw [learn, lookUp]
  cases hmemory : v.memory[writer]? with
  | some fate => exact ⟨v, rfl, rfl, rfl⟩
  | none =>
      cases hresolve : v.lineage.resolveWriter d writer with
      | error e => exact ⟨v, rfl, rfl, rfl⟩
      | ok fate =>
          refine ⟨_, rfl, rfl, ?_⟩
          funext other
          by_cases hsame : compare writer other = .eq
          · obtain rfl := Std.LawfulEqCmp.eq_of_compare hsame
            simp only [lookUp, Std.ExtTreeMap.getElem?_insert_self, hmemory, hresolve]
          · simp only [lookUp, post, Std.ExtTreeMap.getElem?_insert, hsame, if_false]

/-- **Looking at a cell** answers the fate of its writer, and changes no fate. -/
theorem fate_eq_fateOf (d : Directory) (v : Visibility) (key : Bytes) (cell : Cell) :
    ∃ v', v.fate d key cell = (v.fateOf d cell, v') ∧ v'.lineage = v.lineage ∧
      v'.fateOf d = v.fateOf d := by
  rw [fate, fateOf]
  cases v.cachedCommit cell with
  | some commit => exact ⟨v, rfl, rfl, rfl⟩
  | none =>
      obtain ⟨v', hlearn, hlineage, hlookUp⟩ := learn_eq_lookUp d v cell.writer
      have hfateOf : v'.fateOf d = v.fateOf d := by
        funext other
        rw [fateOf, fateOf, cachedCommit, cachedCommit, hlineage, hlookUp]
      rw [hlearn]
      cases v.lookUp d cell.writer with
      | error e => exact ⟨v', rfl, hlineage, hfateOf⟩
      | ok fate => exact ⟨v'.handOver (handOffFor key cell.writer fate), rfl, hlineage, hfateOf⟩

/-- A look at a cell whose writer can be resolved. -/
theorem isVisible_of_resolves {cell : Cell} (h : v.Resolves d (cell :: cells)) (key : Bytes) :
    ∃ v', v.isVisible d key cell = (.ok (v.sees d cell), v') ∧ v'.Resolves d cells ∧
      v'.sees d = v.sees d := by
  obtain ⟨v', hfate, hlineage, hfateOf⟩ := fate_eq_fateOf d v key cell
  obtain ⟨fate, hresolved⟩ := h cell List.mem_cons_self
  have hreader : v'.reader = v.reader := congrArg Lineage.view hlineage
  refine ⟨v', ?_, fun c hc => ?_, ?_⟩
  · rw [isVisible, hfate, sees, hresolved, ← hreader]
  · rw [hfateOf]
    exact h c (List.mem_cons_of_mem _ hc)
  · funext c
    rw [sees, sees, hfateOf, hreader]

/-- **The visible versions** are those that the view as it stands sees. -/
theorem visibleVersions_eq (h : v.Resolves d cells) (key : Bytes) :
    (v.visibleVersions d key cells).1 = .ok (cells.filter (v.sees d)) := by
  induction cells generalizing v with
  | nil => rfl
  | cons cell rest ih =>
      obtain ⟨v', hlook, hresolves, hsees⟩ := isVisible_of_resolves h key
      have hrest := ih hresolves
      rw [visibleVersions, hlook, List.filter_cons]
      dsimp only
      split
      · rename_i hothers
        rw [hothers] at hrest
        cases hrest
      · rename_i hothers
        rw [hothers, hsees] at hrest
        rw [Except.ok.inj hrest]

theorem live_congr {v' : Visibility} (h : v'.sees d = v.sees d) (cells : List Cell) :
    v'.live d cells = v.live d cells := by
  rw [live, live, h]

theorem live_cons (d : Directory) (v : Visibility) (cell : Cell) (rest : List Cell) :
    v.live d (cell :: rest) =
      if v.sees d cell then if cell.isTombstone then [] else cell :: v.live d rest
      else v.live d rest := by
  rw [live, List.filter_cons]
  split
  · rw [List.takeWhile_cons]
    cases cell.isTombstone <;> rfl
  · rfl

theorem live_values_head? {α : Type} (d : Directory) (v : Visibility) (cells : List Cell) (a : α) :
    (((v.live d cells).filterMap (·.value)).head?.map fun _ => a) =
      (v.live d cells).head?.map fun _ => a := by
  cases hlive : v.live d cells with
  | nil => rfl
  | cons cell rest =>
      have hmem : cell ∈ v.live d cells := hlive ▸ List.mem_cons_self
      have hput : (!cell.isTombstone) = true := List.all_eq_true.1 List.all_takeWhile cell hmem
      cases hvalue : cell.value with
      | none => simp [Cell.isTombstone, hvalue] at hput
      | some value => rw [List.filterMap_cons_some hvalue]; rfl

/-- **The value of a row** is the first of its live versions. -/
theorem filterRow_eq (h : v.Resolves d cells) (key : Bytes) :
    (v.filterRow d key cells).1 = .ok (v.live d cells).head? := by
  induction cells generalizing v with
  | nil => rfl
  | cons cell rest ih =>
      obtain ⟨v', hlook, hresolves, hsees⟩ := isVisible_of_resolves h key
      rw [filterRow, hlook, live_cons]
      cases v.sees d cell with
      | false =>
          rw [← live_congr hsees rest]
          exact ih hresolves
      | true => cases cell.isTombstone <;> rfl

end Visibility

namespace PackedRow

/-- A row with the columns of a mask only. -/
def restrict (row : PackedRow) (mask : ColumnMask) : PackedRow :=
  ⟨row.columns.filter fun column _ => mask.selects column⟩

theorem get?_restrict (row : PackedRow) (mask : ColumnMask) (column : UInt16) :
    (row.restrict mask).get? column = if mask.selects column then row.get? column else none := by
  rw [get?, restrict, Std.ExtTreeMap.getElem?_filter', get?]
  cases mask.selects column <;> cases row.columns[column]? <;> rfl

theorem ext_get? {row row' : PackedRow} (h : ∀ column, row.get? column = row'.get? column) :
    row = row' := by
  cases row
  cases row'
  exact congrArg mk (Std.ExtTreeMap.ext_getElem? h)

end PackedRow

theorem ColumnMask.get?_of_isSatisfiedBy {mask : ColumnMask} {row : PackedRow} {column : UInt16}
    (h : mask.isSatisfiedBy row = true) (hselects : mask.selects column = true) :
    ∃ value, row.get? column = some value := by
  cases mask with
  | all => cases h
  | only columns =>
      have hmem : row.columns.contains column = true :=
        List.all_eq_true.1 h column (List.contains_iff_mem.1 hselects)
      rw [Std.ExtTreeMap.contains_eq_isSome_getElem?] at hmem
      exact Option.isSome_iff_exists.1 hmem

namespace PackedQuery

open Packed (Holds firstOf)
open Visibility (live_values_head?)

variable {d : Directory} {v : Visibility} {cells : List Cell} {q : PackedQuery}

/-- The walk over the values of live versions. -/
def gather (q : PackedQuery) : (found : Option PackedRow) → List Bytes →
    Except TxnError (Option PackedRow)
  | found, [] => .ok found
  | found, value :: rest =>
      if q.countOnly then .ok (some (found.getD {}))
      else
        match (found.getD {}).absorb q.mask value with
        | .error e => .error e
        | .ok row => if q.mask.isSatisfiedBy row then .ok (some row) else gather q (some row) rest

/-- **Only the live values matter.** -/
theorem assemble_eq_gather (h : v.Resolves d cells) (key : Bytes) (found : Option PackedRow) :
    (q.assemble d key v found cells).1 = q.gather found ((v.live d cells).filterMap (·.value)) := by
  induction cells generalizing v found with
  | nil => rfl
  | cons cell rest ih =>
      obtain ⟨v', hlook, hresolves, hsees⟩ := Visibility.isVisible_of_resolves h key
      rw [assemble, hlook, Visibility.live_cons]
      cases v.sees d cell with
      | false =>
          rw [← Visibility.live_congr hsees rest]
          exact ih hresolves found
      | true =>
          cases hvalue : cell.value with
          | none => simp [Cell.isTombstone, hvalue, gather]
          | some value =>
              simp only [Cell.isTombstone, hvalue, Option.isNone_some, Bool.false_eq_true, if_true, if_false,
                List.filterMap_cons_some hvalue, gather]
              split
              · rfl
              · cases (found.getD {}).absorb q.mask value with
                | error e => rfl
                | ok row =>
                    dsimp only
                    split
                    · rfl
                    · rw [← Visibility.live_congr hsees rest]
                      exact ih hresolves (some row)

/-- **Stopping early loses nothing**: the row has each wanted column with its first entry in the newest value
that has it. -/
theorem gather_of_holds (hcount : q.countOnly = false) {values : List Bytes}
    {contents : List (List Packed.Entry)} (h : List.Forall₂ Holds values contents)
    (found : Option PackedRow) :
    ∃ found', q.gather found values = .ok found' ∧ found'.isSome = (found.isSome || !values.isEmpty) ∧
      ∀ column, (found'.getD {}).get? column = ((found.getD {}).get? column).or
        (if q.mask.selects column then contents.findSome? (firstOf column) else none) := by
  induction h generalizing found with
  | nil => exact ⟨found, rfl, by simp, fun column => by simp⟩
  | @cons value es values contents hvalue _ ih =>
      obtain ⟨row, habsorb, hrow⟩ := PackedRow.get?_absorb hvalue q.mask (found.getD {})
      simp only [gather, hcount, Bool.false_eq_true, if_false, habsorb]
      split
      · -- The row has every column that is wanted, so older values cannot add one.
        rename_i hsatisfied
        refine ⟨some row, rfl, by simp, fun column => ?_⟩
        rw [Option.getD_some, List.findSome?_cons]
        cases hselects : q.mask.selects column with
        | false => simpa [hselects] using hrow column
        | true =>
            obtain ⟨present, hpresent⟩ := ColumnMask.get?_of_isSatisfiedBy hsatisfied hselects
            have hcolumn := hrow column
            rw [hpresent, hselects, if_pos rfl] at hcolumn
            rw [hpresent, if_pos rfl]
            cases hfirst : firstOf column es with
            | some first => rwa [hfirst] at hcolumn
            | none =>
                rw [hfirst, Option.or_none] at hcolumn
                rw [← hcolumn, Option.some_or]
      · obtain ⟨found', hgather, hsome, hcolumns⟩ := ih (some row)
        refine ⟨found', hgather, by simpa using hsome, fun column => ?_⟩
        rw [hcolumns, Option.getD_some, hrow, Option.or_assoc, List.findSome?_cons]
        cases q.mask.selects column with
        | false => rfl
        | true => cases firstOf column es <;> rfl

/-- Only the existence of a live value is asked for. -/
theorem gather_of_countOnly (hcount : q.countOnly = true) (values : List Bytes) :
    q.gather none values = .ok (values.head?.map fun _ => {}) := by
  cases values with
  | nil => rfl
  | cons value rest => rw [gather, hcount]; rfl

theorem accumulate_eq_gather (h : v.Resolves d cells) (hkeeps : q.keeps = fun _ => true) (key : Bytes) :
    (q.accumulate d v key cells).1 = q.gather none ((v.live d cells).filterMap (·.value)) := by
  rw [← assemble_eq_gather h key, accumulate]
  split
  · rename_i hassemble
    rw [hassemble]
  · rename_i found _ hassemble
    rw [hassemble, hkeeps]
    cases found <;> rfl

/-- The row that a read of some columns gives. -/
theorem accumulate_of_holds (h : v.Resolves d cells) (mask : ColumnMask) (key : Bytes)
    {contents : List (List Packed.Entry)}
    (hcontents : List.Forall₂ Holds ((v.live d cells).filterMap (·.value)) contents) :
    ∃ row : PackedRow,
      (({ mask } : PackedQuery).accumulate d v key cells).1 = .ok ((v.live d cells).head?.map fun _ => row) ∧
      ∀ column, row.get? column =
        if mask.selects column then contents.findSome? (firstOf column) else none := by
  obtain ⟨found, hgather, hsome, hcolumns⟩ :=
    gather_of_holds (q := { mask }) rfl hcontents none
  refine ⟨found.getD {}, ?_, fun column => by simpa using hcolumns column⟩
  rw [accumulate_eq_gather h rfl, hgather, ← live_values_head?]
  congr 1
  cases found with
  | none =>
      cases hvalues : (v.live d cells).filterMap (·.value) with
      | nil => rfl
      | cons value rest => simp [hvalues] at hsome
  | some row =>
      cases hvalues : (v.live d cells).filterMap (·.value) with
      | nil => simp [hvalues] at hsome
      | cons value rest => rfl

/-- **Assembling packed rows**, when the writers of all versions of a row can be resolved.  Let the row's live
versions be those that the reader sees and that are newer than the first deletion it sees.  The row has a
value if and only if it has a live version.  Then, and only then, counting gives an empty row, whatever is
wanted and whether or not the values can be read; and if the live values hold entries, reading gives a row,
which has the columns that are wanted and that occur in some live version, each with its first entry in the
newest of these.  So what some columns' read gives is what the read of all columns gives, without the other
columns, although it may stop early. -/
theorem accumulate_assembles (h : v.Resolves d cells) (key : Bytes) :
    (v.filterRow d key cells).1 = .ok (v.live d cells).head? ∧
      (∀ mask, (({ mask, countOnly := true } : PackedQuery).accumulate d v key cells).1 =
        .ok ((v.live d cells).head?.map fun _ => {})) ∧
      ∀ contents, List.Forall₂ Holds ((v.live d cells).filterMap (·.value)) contents → ∀ mask,
        (∃ row : PackedRow,
          (({ mask } : PackedQuery).accumulate d v key cells).1 =
            .ok ((v.live d cells).head?.map fun _ => row) ∧
          ∀ column, row.get? column =
            if mask.selects column then contents.findSome? (firstOf column) else none) ∧
        (({ mask } : PackedQuery).accumulate d v key cells).1 =
          (({} : PackedQuery).accumulate d v key cells).1.map (Option.map (·.restrict mask)) := by
  refine ⟨Visibility.filterRow_eq h key, fun mask => ?_, fun contents hcontents mask => ?_⟩
  · rw [accumulate_eq_gather h rfl, gather_of_countOnly rfl, live_values_head?]
  · obtain ⟨row, hread, hrow⟩ := accumulate_of_holds h mask key hcontents
    obtain ⟨whole, hreadAll, hwhole⟩ := accumulate_of_holds h .all key hcontents
    have hrestrict : row = whole.restrict mask := by
      refine PackedRow.ext_get? fun column => ?_
      rw [hrow, PackedRow.get?_restrict, hwhole]
      rfl
    refine ⟨⟨row, hread, hrow⟩, ?_⟩
    rw [hread, hreadAll, hrestrict]
    cases (v.live d cells).head? <;> rfl

end PackedQuery

namespace OverwrittenColumn

/-- A reader that began at 10. -/
def view : Visibility := { lineage := ⟨{ id := ⟨1⟩, begin := ⟨10⟩ }, [⟨1⟩]⟩ }

/-- No transaction has a record: every version below says when its writer committed. -/
def records : Directory := ⟨fun _ => none, fun _ => false⟩

/-- A packed version of a transaction that committed. -/
def version (writer commit : UInt64) (columns : List Packed.Entry) : Cell where
  timestamp := ⟨writer⟩
  writer := ⟨writer⟩
  value := some (columns.flatMap Packed.Entry.encode)
  commit := some ⟨commit⟩

/-- A version that is too new, two that the reader sees, and a deletion with a version under it. -/
def cells : List Cell :=
  [version 7 20 [⟨2, [0x7A]⟩], version 5 9 [⟨1, [0x61]⟩], version 4 8 [⟨1, [0x62]⟩, ⟨2, [0x63]⟩],
    { timestamp := ⟨3⟩, writer := ⟨3⟩, value := none, commit := some ⟨7⟩ }, version 2 6 [⟨3, [0x64]⟩]]

theorem resolves : view.Resolves records cells := by
  simp only [Visibility.Resolves, cells, List.forall_mem_cons]
  exact ⟨⟨_, rfl⟩, ⟨_, rfl⟩, ⟨_, rfl⟩, ⟨_, rfl⟩, ⟨_, rfl⟩, fun c hc => nomatch hc⟩

theorem holds : List.Forall₂ Packed.Holds ((view.live records cells).filterMap (·.value))
    [[⟨1, [0x61]⟩], [⟨1, [0x62]⟩, ⟨2, [0x63]⟩]] :=
  .cons (Packed.holds_flatMap_encode (by decide)) (.cons (Packed.holds_flatMap_encode (by decide)) .nil)

end OverwrittenColumn

/-- A read of two columns finds the one that stands above the deletion. -/
theorem accumulate_assembles_overwrittenColumn :
    OverwrittenColumn.view.Resolves OverwrittenColumn.records OverwrittenColumn.cells ∧
      ∃ row : PackedRow,
        (({ mask := .only [2, 3] } : PackedQuery).accumulate OverwrittenColumn.records
          OverwrittenColumn.view [0x72] OverwrittenColumn.cells).1 = .ok (some row) ∧
        row.get? 1 = none ∧ row.get? 2 = some [0x63] ∧ row.get? 3 = none := by
  obtain ⟨-, -, hreads⟩ := PackedQuery.accumulate_assembles OverwrittenColumn.resolves [0x72]
  obtain ⟨⟨row, hread, hrow⟩, -⟩ := hreads _ OverwrittenColumn.holds (.only [2, 3])
  exact ⟨OverwrittenColumn.resolves, row, hread, hrow 1, hrow 2, hrow 3⟩

end Multiversion
