import Mathlib.Data.List.Sort
import Multiversion.Read

/-!
# The versions of a row under changes

What the three changes of a cell store do to the versions of each row, and in which order the versions
stand.

* `Cell.NewestFirst` — versions by descending timestamp;
* `CellStore.versions_put`, `versions_removeVersion`, `versions_setCommit` — one row changes;
* `CellStore.storedIn` — the stored keys of a range, from which a scan is made (`CellStore.scan_eq`);
* `CellStore.filterMap_scan_congr` — what a scan makes of its rows is determined by what is made of
  each single row.
-/

namespace Multiversion

namespace Timestamp

theorem not_lt {a b : Timestamp} : ¬ a < b ↔ b ≤ a := by
  rw [lt_iff_toNat_lt, le_iff_toNat_le]
  omega

theorem le_of_lt {a b : Timestamp} (h : a < b) : a ≤ b := by
  rw [lt_iff_toNat_lt] at h
  rw [le_iff_toNat_le]
  omega

theorem le_refl (a : Timestamp) : a ≤ a := by
  rw [le_iff_toNat_le]

theorem earliest_le (a : Timestamp) : earliest ≤ a := by
  rw [le_iff_toNat_le]
  exact Nat.zero_le _

theorem le_latest (a : Timestamp) : a ≤ latest := by
  rw [le_iff_toNat_le]
  exact Nat.le_of_lt_succ a.val.toNat_lt

theorem lt_of_le_of_lt {a b c : Timestamp} (h : a ≤ b) (h' : b < c) : a < c := by
  rw [le_iff_toNat_le] at h
  rw [lt_iff_toNat_lt] at *
  omega

theorem lt_of_lt_of_le {a b c : Timestamp} (h : a < b) (h' : b ≤ c) : a < c := by
  rw [le_iff_toNat_le] at h'
  rw [lt_iff_toNat_lt] at *
  omega

theorem lt_of_le_of_ne {a b : Timestamp} (h : a ≤ b) (hne : a ≠ b) : a < b := by
  have hval : a.val.toNat ≠ b.val.toNat := by
    intro hsame
    obtain ⟨x⟩ := a
    obtain ⟨y⟩ := b
    exact hne (congrArg mk (UInt64.toNat_inj.1 hsame))
  rw [le_iff_toNat_le] at h
  rw [lt_iff_toNat_lt]
  omega

theorem lt_asymm {a b : Timestamp} (h : a < b) : ¬ b < a := not_lt.2 (le_of_lt h)

theorem le_trans {a b c : Timestamp} (h : a ≤ b) (h' : b ≤ c) : a ≤ c := by
  rw [le_iff_toNat_le] at *
  omega

end Timestamp

namespace Cell

/-- Versions in descending order of their timestamps. -/
def NewestFirst (cells : List Cell) : Prop := cells.Pairwise fun a b => b.timestamp ≤ a.timestamp

theorem mem_place {c x : Cell} {cells : List Cell} : x ∈ c.place cells ↔ x = c ∨ x ∈ cells := by
  induction cells with
  | nil => simp [place]
  | cons d rest ih =>
      unfold place
      split
      · exact List.mem_cons
      · rw [List.mem_cons, ih, List.mem_cons]
        exact or_left_comm

theorem mem_replace {c x : Cell} {cells : List Cell} :
    x ∈ c.replace cells ↔ x = c ∨ x ∈ cells ∧ x.writer ≠ c.writer := by
  simp [replace, mem_place]

/-- A placed version that a filter drops leaves no trace behind the filter. -/
theorem filter_place {p : Cell → Bool} {c : Cell} (hc : p c = false) (cells : List Cell) :
    (c.place cells).filter p = cells.filter p := by
  induction cells with
  | nil => simp [place, hc]
  | cons d rest ih =>
      unfold place
      split
      · rw [List.filter_cons_of_neg (by simp [hc])]
      · rw [List.filter_cons, List.filter_cons, ih]

theorem NewestFirst.place {cells : List Cell} (h : NewestFirst cells) (c : Cell) :
    NewestFirst (c.place cells) := by
  induction cells with
  | nil => exact List.pairwise_singleton _ _
  | cons d rest ih =>
      obtain ⟨hd, hrest⟩ := List.pairwise_cons.1 h
      unfold Cell.place
      split
      · rename_i holder
        refine List.pairwise_cons.2 ⟨fun x hx => ?_, h⟩
        have hle : d.timestamp ≤ c.timestamp := Timestamp.le_of_lt holder
        rcases List.mem_cons.1 hx with rfl | hx
        · exact hle
        · exact Timestamp.le_trans (hd x hx) hle
      · rename_i hnewer
        refine List.pairwise_cons.2 ⟨fun x hx => ?_, ih hrest⟩
        rcases mem_place.1 hx with rfl | hx
        · exact Timestamp.not_lt.1 hnewer
        · exact hd x hx

theorem NewestFirst.replace {cells : List Cell} (h : NewestFirst cells) (c : Cell) :
    NewestFirst (c.replace cells) :=
  NewestFirst.place (h.filter _) c

/-- The first of some versions is the one with the greatest timestamp. -/
theorem NewestFirst.head?_filter {cells : List Cell} (h : NewestFirst cells) {p : Cell → Bool}
    {c : Cell} (hc : c ∈ cells) (hp : p c = true)
    (hmax : ∀ x ∈ cells, p x = true → x ≠ c → x.timestamp < c.timestamp) :
    (cells.filter p).head? = some c := by
  have hmem : c ∈ cells.filter p := List.mem_filter.2 ⟨hc, hp⟩
  have hordered : NewestFirst (cells.filter p) := List.Pairwise.filter p h
  cases hfilter : cells.filter p with
  | nil => simp [hfilter] at hmem
  | cons first rest =>
      rw [hfilter] at hmem hordered
      rcases List.mem_cons.1 hmem with rfl | hrest
      · rfl
      · by_contra hother
        have hfirst : first ∈ cells.filter p := by simp [hfilter]
        obtain ⟨hstored, hpfirst⟩ := List.mem_filter.1 hfirst
        have hlt := hmax first hstored hpfirst fun hsame => hother (congrArg some hsame)
        exact Timestamp.not_lt.2 ((List.pairwise_cons.1 hordered).1 c hrest) hlt

theorem perm_place (c : Cell) (cells : List Cell) : (c.place cells).Perm (c :: cells) := by
  induction cells with
  | nil => exact .refl _
  | cons d rest ih =>
      unfold place
      split
      · exact .refl _
      · exact (ih.cons d).trans (.swap c d rest)

/-- After a write the writer has this one version. -/
theorem filter_replace_self (c : Cell) (cells : List Cell) :
    (c.replace cells).filter (·.writer = c.writer) = [c] := by
  have hperm := (perm_place c (cells.filter (·.writer ≠ c.writer))).filter (·.writer = c.writer)
  have hnone : (cells.filter (·.writer ≠ c.writer)).filter (·.writer = c.writer) = [] := by
    simp [List.filter_filter]
  rw [List.filter_cons_of_pos (by simp), hnone] at hperm
  exact List.perm_singleton.1 hperm

/-- A write leaves one version for each writer. -/
theorem nodup_writers_replace {cells : List Cell} (h : (cells.map writer).Nodup) (c : Cell) :
    ((c.replace cells).map writer).Nodup := by
  have hperm := (perm_place c (cells.filter (·.writer ≠ c.writer))).map writer
  refine hperm.symm.nodup (List.nodup_cons.2 ⟨fun hmem => ?_, ?_⟩)
  · obtain ⟨x, hx, hwriter⟩ := List.mem_map.1 hmem
    simp [hwriter] at hx
  · exact (List.filter_sublist.map writer).nodup h

/-- The writer's version, with the timestamp cached on it, and every other version as it was. -/
theorem mem_markCommitted {writer : TxnId} {ts : Timestamp} {x : Cell} {cells : List Cell}
    (h : x ∈ markCommitted writer ts cells) :
    x ∈ cells ∨ ∃ c ∈ cells, c.writer = writer ∧ x = { c with commit := some ts } := by
  induction cells with
  | nil => exact .inl h
  | cons c rest ih =>
      unfold markCommitted at h
      split at h
      · rename_i hwriter
        rcases List.mem_cons.1 h with rfl | hx
        · exact .inr ⟨c, List.mem_cons_self, hwriter, rfl⟩
        · exact .inl (List.mem_cons_of_mem _ hx)
      · rcases List.mem_cons.1 h with rfl | hx
        · exact .inl List.mem_cons_self
        · rcases ih hx with hx | ⟨d, hd, hx⟩
          · exact .inl (List.mem_cons_of_mem _ hx)
          · exact .inr ⟨d, List.mem_cons_of_mem _ hd, hx⟩

theorem map_markCommitted {α : Type} {view : Cell → α}
    (hview : ∀ (c : Cell) (ts : Timestamp), view { c with commit := some ts } = view c)
    (writer : TxnId) (ts : Timestamp) (cells : List Cell) :
    (markCommitted writer ts cells).map view = cells.map view := by
  induction cells with
  | nil => rfl
  | cons c rest ih =>
      unfold markCommitted
      split
      · simp [hview]
      · simp [ih]

theorem NewestFirst.markCommitted {cells : List Cell} (h : NewestFirst cells) (writer : TxnId)
    (ts : Timestamp) : NewestFirst (Cell.markCommitted writer ts cells) := by
  have hmap : ∀ cells : List Cell, NewestFirst cells ↔
      (cells.map timestamp).Pairwise fun a b => b ≤ a := by
    intro cells
    rw [List.pairwise_map]
    rfl
  have hsame : (Cell.markCommitted writer ts cells).map timestamp = cells.map timestamp :=
    map_markCommitted (fun _ _ => rfl) writer ts cells
  rw [hmap] at h ⊢
  rwa [hsame]

end Cell

namespace CellStore

theorem versions_put (s : CellStore) (key other : Bytes) (c : Cell) :
    (s.put key c).versions other =
      if key = other then c.replace (s.versions other) else s.versions other := by
  show (s.setVersions key (c.replace (s.versions key))).versions other = _
  rw [versions_setVersions]
  split
  · rename_i hkey
    rw [hkey]
  · rfl

theorem versions_removeVersion (s : CellStore) (key other : Bytes) (writer : TxnId) :
    (s.removeVersion key writer).2.versions other =
      if key = other then (s.versions other).filter (·.writer ≠ writer) else s.versions other := by
  show (s.setVersions key ((s.versions key).filter (·.writer ≠ writer))).versions other = _
  rw [versions_setVersions]
  split
  · rename_i hkey
    rw [hkey]
  · rfl

theorem versions_setCommit (s : CellStore) (key other : Bytes) (writer : TxnId) (ts : Timestamp) :
    (s.setCommit key writer ts).2.versions other =
      if key = other then Cell.markCommitted writer ts (s.versions other) else s.versions other := by
  show (s.setVersions key (Cell.markCommitted writer ts (s.versions key))).versions other = _
  rw [versions_setVersions]
  split
  · rename_i hkey
    rw [hkey]
  · rfl

theorem everWritten_setVersions (s : CellStore) (key : Bytes) (cells : List Cell) :
    (s.setVersions key cells).everWritten = s.everWritten := by
  cases cells <;> rfl

/-- What a read fetches of a row: every version, but for those at the last timestamp there is. -/
theorem get_everything (s : CellStore) (key : Bytes) :
    s.get key .everything = (s.versions key).filter Selection.everything.covers := rfl

/-- The stored keys of a range, in order. -/
def storedIn (s : CellStore) (range : KeyRange) : List Bytes :=
  (s.rows.toList.filter fun row => range.contains row.1).map Prod.fst

/-- A row that a read fetches something of is stored. -/
theorem mem_storedIn_of_get {s : CellStore} {range : KeyRange} {selection : Selection} {key : Bytes}
    (hrange : range.contains key = true) (h : s.get key selection ≠ []) : key ∈ s.storedIn range := by
  cases hrow : s.rows[key]? with
  | none => simp [get, versions, hrow, Selection.select] at h
  | some cells =>
      refine List.mem_map.2 ⟨(key, cells), List.mem_filter.2 ⟨?_, hrange⟩, rfl⟩
      exact Std.ExtTreeMap.mem_toList_iff_getElem?_eq_some.2 hrow

theorem contains_of_mem_storedIn {s : CellStore} {range : KeyRange} {key : Bytes}
    (h : key ∈ s.storedIn range) : range.contains key = true := by
  obtain ⟨row, hrow, rfl⟩ := List.mem_map.1 h
  exact (List.mem_filter.1 hrow).2

/-- What is computed from the stored keys of a range comes in strictly ascending key order. -/
theorem ordered_filterMap_storedIn {α : Type} (s : CellStore) (range : KeyRange)
    {result : Bytes → Option α} {keyOf : α → Bytes}
    (hkey : ∀ {key a}, result key = some a → keyOf a = key) :
    ((s.storedIn range).filterMap result).Pairwise fun a b => compare (keyOf a) (keyOf b) = .lt := by
  rw [storedIn, List.filterMap_map, List.pairwise_filterMap]
  refine (Std.ExtTreeMap.ordered_keys_toList.filter _).imp fun {row other} hlt a ha b hb => ?_
  rw [hkey ha, hkey hb]
  exact hlt

/-- A scan of a range in order is not refused. -/
theorem scan?_of_isOrdered (s : CellStore) {range : KeyRange} (h : range.isOrdered = true)
    (selection : Selection) : s.scan? range selection = some (s.scan range selection) := by
  simp [scan?, h]

/-- A scan that is not refused has the rows of the range. -/
theorem eq_scan_of_scan? {s : CellStore} {range : KeyRange} {selection : Selection}
    {rows : List (Bytes × List Cell)} (h : s.scan? range selection = some rows) :
    s.scan range selection = rows := by
  rw [scan?] at h
  split at h
  · contradiction
  · exact Option.some.inj h

/-- The rows of a scan, key by key. -/
theorem scan_eq (s : CellStore) (range : KeyRange) (selection : Selection) :
    s.scan range selection = (s.storedIn range).filterMap fun key =>
      match s.get key selection with
      | [] => none
      | cells => some (key, cells) := by
  unfold scan storedIn
  rw [List.filterMap_map]
  refine List.filterMap_congr fun row hrow => ?_
  have hversions : s.get row.1 selection = selection.select row.2 := by
    rw [get, versions, Std.ExtTreeMap.mem_toList_iff_getElem?_eq_some.1 (List.mem_filter.1 hrow).1,
      Option.getD_some]
  cases hcells : selection.select row.2 <;> simp [hversions, hcells]

/-- The rows of a scan are those of the range that a point read fetches something of. -/
theorem mem_scan_iff {s : CellStore} {range : KeyRange} {selection : Selection}
    {row : Bytes × List Cell} :
    row ∈ s.scan range selection ↔
      range.contains row.1 = true ∧ row.2 = s.get row.1 selection ∧ row.2 ≠ [] := by
  rw [scan_eq, List.mem_filterMap]
  constructor
  · rintro ⟨key, hstored, hrow⟩
    split at hrow
    · contradiction
    · rename_i hget
      cases hrow
      exact ⟨contains_of_mem_storedIn hstored, rfl, hget⟩
  · rintro ⟨hrange, hrow, hne⟩
    rw [hrow] at hne
    refine ⟨row.1, mem_storedIn_of_get hrange hne, ?_⟩
    split
    · contradiction
    · rw [← hrow]

/-- A scan returns of each row what a point read returns of it. -/
theorem get_of_mem_scan {s : CellStore} {range : KeyRange} {selection : Selection}
    {row : Bytes × List Cell} (h : row ∈ s.scan range selection) :
    row.2 = s.get row.1 selection := (mem_scan_iff.1 h).2.1

/-- A scan that computes at most one result from each row, and nothing from a row without versions, is
one computation for each stored key of the range. -/
theorem filterMap_scan {α : Type} (s : CellStore) (range : KeyRange) (selection : Selection)
    (result : Bytes → List Cell → Option α) (hnil : ∀ key, result key [] = none) :
    (s.scan range selection).filterMap (fun row => result row.1 row.2) =
      (s.storedIn range).filterMap fun key => result key (s.get key selection) := by
  rw [scan_eq, List.filterMap_filterMap]
  refine List.filterMap_congr fun key _ => ?_
  split
  · rename_i hget
    rw [hget, hnil]
    rfl
  · rfl

/-- **A scan is determined by its rows.**  If every key gives the same result over two cell stores, then
so does a scan: results come in ascending key order, and rows without a result leave no trace. -/
theorem filterMap_scan_congr {α : Type} {s s' : CellStore} (range : KeyRange)
    (selection : Selection) {result result' : Bytes → List Cell → Option α} {keyOf : α → Bytes}
    (hnil : ∀ key, result key [] = none) (hnil' : ∀ key, result' key [] = none)
    (hkey : ∀ {key cells a}, result key cells = some a → keyOf a = key)
    (hkey' : ∀ {key cells a}, result' key cells = some a → keyOf a = key)
    (heq : ∀ key, result key (s.get key selection) = result' key (s'.get key selection)) :
    (s.scan range selection).filterMap (fun row => result row.1 row.2) =
      (s'.scan range selection).filterMap fun row => result' row.1 row.2 := by
  rw [filterMap_scan s range selection result hnil,
    filterMap_scan s' range selection result' hnil']
  -- Both sides ascend strictly by key, so it is enough that they have the same members.
  have hmem : ∀ (s : CellStore) (result : Bytes → List Cell → Option α),
      (∀ key, result key [] = none) → ∀ a,
      (a ∈ (s.storedIn range).filterMap fun key => result key (s.get key selection)) ↔
        ∃ key, range.contains key = true ∧ result key (s.get key selection) = some a := by
    intro s result hnil a
    rw [List.mem_filterMap]
    constructor
    · rintro ⟨key, hstored, hresult⟩
      exact ⟨key, contains_of_mem_storedIn hstored, hresult⟩
    · rintro ⟨key, hrange, hresult⟩
      have hne : s.get key selection ≠ [] := fun hempty => by
        rw [hempty, hnil] at hresult
        contradiction
      exact ⟨key, mem_storedIn_of_get hrange hne, hresult⟩
  have : Std.Irrefl fun a b : α => compare (keyOf a) (keyOf b) = .lt := ⟨fun a => by simp⟩
  have : Std.Antisymm fun a b : α => compare (keyOf a) (keyOf b) = .lt :=
    ⟨fun a b hab hba => by
      have hswap : compare (keyOf a) (keyOf b) = (compare (keyOf b) (keyOf a)).swap :=
        Std.OrientedCmp.eq_swap
      rw [hswap, hba] at hab
      simp at hab⟩
  refine (ordered_filterMap_storedIn s range hkey).eq_of_mem_iff
    (ordered_filterMap_storedIn s' range hkey') fun a => ?_
  rw [hmem s result hnil, hmem s' result' hnil']
  simp only [heq]

end CellStore

end Multiversion
