import Multiversion.Proofs.Storage.Versions
import Multiversion.Visibility.HandOff

/-!
# Changes of single rows

Every change of a cell store replaces the versions of one row by a function of the versions that stood
there.  Two changes can change places if these functions can, or if they are about different rows.

* `CellStore.Reachable` — the cells that changes can lead to;
* `CellStore.changeRow` — a change of one row, with `put_eq` and `HandOff.applyTo_eq` for the changes that
  there are;
* `HandOff.tidy` — what a hand-off does to the versions of its row.

Main statements: rows of reachable cells are in order (`CellStore.Reachable.ordered`) with at most one
version of each writer (`CellStore.Reachable.single`); a hand-off changes places with a write of another
transaction (`HandOff.tidy_replace`) and with a hand-off about another cell (`HandOff.tidy_comm`).
-/

namespace Multiversion

namespace Cell

theorem place_of_forall_lt {c : Cell} {cells : List Cell} (h : ∀ x ∈ cells, x.timestamp < c.timestamp) :
    c.place cells = c :: cells := by
  cases cells with
  | nil => rfl
  | cons d rest => rw [place, if_pos (h d List.mem_cons_self)]

/-- Among versions in order, a version is placed alike before and after some of them are dropped. -/
theorem place_filter {cells : List Cell} (h : NewestFirst cells) {p : Cell → Bool} {c : Cell}
    (hc : p c = true) : (c.place cells).filter p = c.place (cells.filter p) := by
  induction cells with
  | nil => simp [place, hc]
  | cons d rest ih =>
      obtain ⟨hd, hrest⟩ := List.pairwise_cons.1 h
      rw [place]
      split
      · rename_i holder
        rw [List.filter_cons_of_pos hc, place_of_forall_lt fun x hx => ?_]
        rcases List.mem_cons.1 (List.mem_filter.1 hx).1 with rfl | hx
        · exact holder
        · exact Timestamp.lt_of_le_of_lt (hd x hx) holder
      · rename_i hnewer
        rw [List.filter_cons, List.filter_cons, ih hrest]
        split
        · rw [place, if_neg hnewer]
        · rfl

theorem markCommitted_place {c : Cell} {writer : TxnId} (hc : c.writer ≠ writer) (ts : Timestamp)
    (cells : List Cell) :
    markCommitted writer ts (c.place cells) = c.place (markCommitted writer ts cells) := by
  induction cells with
  | nil => simp [place, markCommitted, hc]
  | cons d rest ih =>
      by_cases holder : d.timestamp < c.timestamp <;> by_cases hd : d.writer = writer <;>
        simp [place, markCommitted, holder, hd, hc, ih]

/-- A mark on the version of a writer does not matter to a filter that looks at writers only. -/
theorem filter_markCommitted {p : TxnId → Bool} {writer : TxnId} (hp : p writer = true) (ts : Timestamp)
    (cells : List Cell) :
    (markCommitted writer ts cells).filter (fun c => p c.writer) =
      markCommitted writer ts (cells.filter fun c => p c.writer) := by
  induction cells with
  | nil => rfl
  | cons c rest ih =>
      by_cases hc : c.writer = writer
      · simp [markCommitted, hc, hp]
      · cases hkept : p c.writer <;> simp [markCommitted, hc, hkept, ih]

theorem markCommitted_comm {writer other : TxnId} (h : writer ≠ other) (ts ts' : Timestamp)
    (cells : List Cell) :
    markCommitted writer ts (markCommitted other ts' cells) =
      markCommitted other ts' (markCommitted writer ts cells) := by
  induction cells with
  | nil => rfl
  | cons c rest ih =>
      by_cases hc : c.writer = writer
      · have hother : c.writer ≠ other := hc ▸ h
        simp [markCommitted, hc, h]
      · by_cases hother : c.writer = other <;> simp [markCommitted, hc, hother, h.symm, ih]

theorem markCommitted_idem (writer : TxnId) (ts : Timestamp) (cells : List Cell) :
    markCommitted writer ts (markCommitted writer ts cells) = markCommitted writer ts cells := by
  induction cells with
  | nil => rfl
  | cons c rest ih => by_cases hc : c.writer = writer <;> simp [markCommitted, hc, ih]

end Cell

namespace HandOff

/-- The row that a hand-off is about. -/
@[simp]
def key : HandOff → Bytes
  | rolledBack key _ => key
  | committed key _ _ => key

/-- The transaction whose version a hand-off is about. -/
@[simp]
def writer : HandOff → TxnId
  | rolledBack _ writer => writer
  | committed _ writer _ => writer

/-- What a hand-off does to the versions of its row. -/
def tidy : HandOff → List Cell → List Cell
  | rolledBack _ writer => List.filter (·.writer ≠ writer)
  | committed _ writer ts => Cell.markCommitted writer ts

theorem tidy_idem (h : HandOff) (cells : List Cell) : h.tidy (h.tidy cells) = h.tidy cells := by
  cases h with
  | rolledBack key writer =>
      show (cells.filter _).filter _ = cells.filter _
      rw [List.filter_filter]
      exact List.filter_congr fun c _ => Bool.and_self _
  | committed key writer ts => exact Cell.markCommitted_idem writer ts cells

/-- **Hand-offs about different transactions** change places. -/
theorem tidy_comm {h h' : HandOff} (hne : h.writer ≠ h'.writer) (cells : List Cell) :
    h.tidy (h'.tidy cells) = h'.tidy (h.tidy cells) := by
  cases h with
  | rolledBack key writer =>
      cases h' with
      | rolledBack key' writer' => exact List.filter_comm _ _ cells
      | committed key' writer' ts =>
          exact Cell.filter_markCommitted (p := (· ≠ writer)) (by simpa using hne.symm) ts
            cells
  | committed key writer ts =>
      cases h' with
      | rolledBack key' writer' =>
          exact (Cell.filter_markCommitted (p := (· ≠ writer')) (by simpa using hne) ts cells).symm
      | committed key' writer' ts' => exact Cell.markCommitted_comm hne ts ts' cells

/-- **A write of another transaction** changes places with a hand-off, if the versions are in order. -/
theorem tidy_replace {h : HandOff} {c : Cell} (hne : h.writer ≠ c.writer) {cells : List Cell}
    (hcells : Cell.NewestFirst cells) : h.tidy (c.replace cells) = c.replace (h.tidy cells) := by
  cases h with
  | rolledBack key writer =>
      show (c.place _).filter _ = c.place _
      rw [Cell.place_filter (hcells.filter _) (by simpa using hne.symm)]
      exact congrArg c.place (List.filter_comm _ _ cells)
  | committed key writer ts =>
      show Cell.markCommitted writer ts (c.place _) = c.place _
      have hne' : c.writer ≠ writer := hne.symm
      rw [Cell.markCommitted_place hne']
      exact congrArg c.place
        (Cell.filter_markCommitted (p := (· ≠ c.writer)) (by simpa using hne) ts cells).symm

end HandOff

namespace CellStore

variable {s : CellStore}

theorem getElem?_setVersions (s : CellStore) (key other : Bytes) (cells : List Cell) :
    (s.setVersions key cells).rows[other]? =
      if key = other then (if cells = [] then none else some cells) else s.rows[other]? := by
  cases cells with
  | nil => simp [setVersions, Std.ExtTreeMap.getElem?_erase]
  | cons c rest => simp [setVersions, Std.ExtTreeMap.getElem?_insert]

theorem ext_rows {s s' : CellStore} (hrows : ∀ key : Bytes, s.rows[key]? = s'.rows[key]?)
    (hwritten : s.everWritten = s'.everWritten) : s = s' := by
  obtain ⟨rows, written⟩ := s
  obtain ⟨rows', written'⟩ := s'
  obtain rfl : rows = rows' := Std.ExtTreeMap.ext_getElem? fun {key} => hrows key
  obtain rfl : written = written' := hwritten
  rfl

/-- A change of the versions of one row. -/
def changeRow (s : CellStore) (key : Bytes) (change : List Cell → List Cell) : CellStore :=
  s.setVersions key (change (s.versions key))

theorem everWritten_changeRow (s : CellStore) (key : Bytes) (change : List Cell → List Cell) :
    (s.changeRow key change).everWritten = s.everWritten := everWritten_setVersions ..

theorem versions_changeRow (s : CellStore) (key other : Bytes) (change : List Cell → List Cell) :
    (s.changeRow key change).versions other =
      if key = other then change (s.versions other) else s.versions other := by
  rw [changeRow, versions_setVersions]
  split
  · rename_i hkey
    rw [hkey]
  · rfl

/-- Two changes of one row are one change. -/
theorem changeRow_changeRow (s : CellStore) (key : Bytes) (change next : List Cell → List Cell) :
    (s.changeRow key change).changeRow key next = s.changeRow key (next ∘ change) := by
  refine ext_rows (fun other => ?_) (by simp only [everWritten_changeRow])
  rw [changeRow, versions_changeRow, if_pos rfl, getElem?_setVersions, changeRow, changeRow,
    getElem?_setVersions, getElem?_setVersions]
  split <;> rfl

/-- **Two changes** change places if they are about different rows, or agree on the row. -/
theorem changeRow_comm {key other : Bytes} {change next : List Cell → List Cell}
    (h : key = other → next (change (s.versions key)) = change (next (s.versions key))) :
    (s.changeRow key change).changeRow other next = (s.changeRow other next).changeRow key change := by
  by_cases hkey : key = other
  · subst hkey
    rw [changeRow_changeRow, changeRow_changeRow, changeRow, changeRow, Function.comp_apply,
      Function.comp_apply, h rfl]
  · refine ext_rows (fun third => ?_) (by simp only [everWritten_changeRow])
    have hother : other ≠ key := Ne.symm hkey
    simp only [changeRow, versions_setVersions, getElem?_setVersions, if_neg hkey, if_neg hother]
    by_cases hthird : key = third
    · subst hthird
      simp [hother]
    · simp [hthird]

theorem put_eq (s : CellStore) (key : Bytes) (c : Cell) :
    s.put key c = { s.changeRow key c.replace with everWritten := true } := rfl

/-- Changes of rows have nothing to do with the memory of having been written. -/
theorem changeRow_written (s : CellStore) (key : Bytes) (change : List Cell → List Cell) :
    { s with everWritten := true }.changeRow key change =
      { s.changeRow key change with everWritten := true } :=
  ext_rows
    (fun other => (getElem?_setVersions _ key other _).trans (getElem?_setVersions s key other _).symm)
    (everWritten_changeRow ..)

/-- The cells that changes can lead to, from a store into which nothing was written. -/
inductive Reachable : CellStore → Prop
  | empty : Reachable {}
  | put {s : CellStore} (h : Reachable s) (key : Bytes) (c : Cell) : Reachable (s.put key c)
  | removeVersion {s : CellStore} (h : Reachable s) (key : Bytes) (writer : TxnId) :
      Reachable (s.removeVersion key writer).2
  | setCommit {s : CellStore} (h : Reachable s) (key : Bytes) (writer : TxnId) (ts : Timestamp) :
      Reachable (s.setCommit key writer ts).2

/-- What an empty row has and every change of a row keeps, every row of reachable cells has. -/
theorem Reachable.versions {P : List Cell → Prop} (hnil : P [])
    (hreplace : ∀ {cells}, P cells → ∀ c : Cell, P (c.replace cells))
    (hfilter : ∀ {cells}, P cells → ∀ writer : TxnId, P (cells.filter (·.writer ≠ writer)))
    (hmark : ∀ {cells}, P cells → ∀ writer ts, P (Cell.markCommitted writer ts cells))
    (hs : s.Reachable) (key : Bytes) : P (s.versions key) := by
  induction hs with
  | empty => exact hnil
  | put _ row c ih =>
      rw [versions_put]
      split
      · exact hreplace ih c
      · exact ih
  | removeVersion _ row writer ih =>
      rw [versions_removeVersion]
      split
      · exact hfilter ih writer
      · exact ih
  | setCommit _ row writer ts ih =>
      rw [versions_setCommit]
      split
      · exact hmark ih writer ts
      · exact ih

/-- **Rows are in order.** -/
theorem Reachable.ordered (hs : s.Reachable) (key : Bytes) : Cell.NewestFirst (s.versions key) :=
  hs.versions .nil (fun h c => h.replace c) (fun h _ => h.filter _)
    (fun h writer ts => h.markCommitted writer ts) key

/-- **No transaction has two versions of a row.** -/
theorem Reachable.single (hs : s.Reachable) (key : Bytes) :
    ((s.versions key).map Cell.writer).Nodup := by
  refine hs.versions (P := fun cells => (cells.map Cell.writer).Nodup) .nil
    (fun h c => Cell.nodup_writers_replace h c) (fun h _ => (List.filter_sublist.map _).nodup h)
    (fun h writer ts => ?_) key
  rwa [Cell.map_markCommitted fun _ _ => rfl]

end CellStore

namespace HandOff

variable {s : CellStore}

theorem applyTo_eq (h : HandOff) (s : CellStore) : (h.applyTo s).2 = s.changeRow h.key h.tidy := by
  cases h <;> rfl

theorem reachable_applyTo (hs : s.Reachable) (h : HandOff) : (h.applyTo s).2.Reachable := by
  cases h with
  | rolledBack key writer => exact hs.removeVersion key writer
  | committed key writer ts => exact hs.setCommit key writer ts

/-- A hand-off that is applied again changes nothing. -/
theorem applyTo_idem (h : HandOff) (s : CellStore) :
    (h.applyTo (h.applyTo s).2).2 = (h.applyTo s).2 := by
  rw [applyTo_eq, applyTo_eq, CellStore.changeRow_changeRow]
  exact congrArg (s.changeRow h.key) (funext h.tidy_idem)

/-- Hand-offs change places, unless they say different things about one version. -/
theorem applyTo_comm {h h' : HandOff} (hagree : h.key = h'.key → h.writer = h'.writer → h = h')
    (s : CellStore) : (h'.applyTo (h.applyTo s).2).2 = (h.applyTo (h'.applyTo s).2).2 := by
  by_cases hsame : h = h'
  · rw [hsame]
  · simp only [applyTo_eq]
    exact CellStore.changeRow_comm fun hkey => tidy_comm (fun hwriter => hsame (hagree hkey hwriter.symm)) _

/-- A hand-off changes places with a write of another transaction. -/
theorem applyTo_put {h : HandOff} {c : Cell} (hne : h.writer ≠ c.writer) (hs : s.Reachable)
    (key : Bytes) : (h.applyTo (s.put key c)).2 = (h.applyTo s).2.put key c := by
  simp only [applyTo_eq, CellStore.put_eq, CellStore.changeRow_written]
  rw [CellStore.changeRow_comm fun _ => tidy_replace hne (hs.ordered key)]

end HandOff

end Multiversion
