import Mathlib.Data.Set.Card
import Multiversion.Proofs.Storage.RowChanges

/-!
# What a cell store holds

A cell store keeps of each row, for each transaction, the version that was put last, unless it has been
removed since.  This is a map from rows and transactions, read off the history of changes; the store adds to
it nothing but an order: newest first, and versions of one timestamp in the order in which they were put.

* `CellChange` — the three changes; `CellStore.after` — the store after a history of them;
* `posted` — the reference map: what a history has left of a transaction's version of a row;
* `Posting.Before` — the order of the versions of a row;
* `Lists` — a row listed from the reference map, one lemma for what each change does to it;
* `CellStore.Holds`, `CellStore.Touches` — what the reads report, and what a change leaves alone.

Main statements: `CellStore.versions_after` — every row is listed from the reference map;
`CellStore.content_after` — with it, the reads report the reference map and changes reach one version of one
row.
-/

namespace Multiversion

/-- A change of a cell store. -/
inductive CellChange where
  | put (key : Bytes) (cell : Cell)
  | removeVersion (key : Bytes) (writer : TxnId)
  | setCommit (key : Bytes) (writer : TxnId) (ts : Timestamp)
  deriving DecidableEq, Repr

namespace CellChange

/-- The row that a change names. -/
def key : CellChange → Bytes
  | put key _ => key
  | removeVersion key _ => key
  | setCommit key _ _ => key

/-- The transaction that a change names. -/
def writer : CellChange → TxnId
  | put _ cell => cell.writer
  | removeVersion _ writer => writer
  | setCommit _ writer _ => writer

end CellChange

/-- A version on record, with the number of changes that had been made when it was put. -/
structure Posting where
  number : Nat
  cell : Cell
  deriving DecidableEq, Repr

namespace Posting

/-- The version with a commit timestamp cached on it. -/
def marked (p : Posting) (ts : Timestamp) : Posting := { p with cell := { p.cell with commit := some ts } }

/-- The order of the versions of a row: newest first, and at one timestamp by their puts. -/
def Before (p q : Posting) : Prop :=
  q.cell.timestamp < p.cell.timestamp ∨ p.cell.timestamp = q.cell.timestamp ∧ p.number < q.number

end Posting

/-- What is on record about a transaction's version of a row after a history of changes, the latest change
first: the version that was put last, if it has not been removed since, with the commit timestamp that was
cached last since then. -/
def posted : (history : List CellChange) → (key : Bytes) → (writer : TxnId) → Option Posting
  | [], _, _ => none
  | .put row cell :: earlier, key, writer =>
      if row = key ∧ cell.writer = writer then some ⟨earlier.length, cell⟩
      else posted earlier key writer
  | .removeVersion row named :: earlier, key, writer =>
      if row = key ∧ named = writer then none else posted earlier key writer
  | .setCommit row named ts :: earlier, key, writer =>
      if row = key ∧ named = writer then (posted earlier key writer).map (·.marked ts)
      else posted earlier key writer

/-- A row listed from the reference map: everything on record about it, in order. -/
structure Lists (history : List CellChange) (key : Bytes) (postings : List Posting) : Prop where
  mem : ∀ p, p ∈ postings ↔ posted history key p.cell.writer = some p
  ordered : postings.Pairwise Posting.Before

section Posted

variable {history : List CellChange} {change : CellChange} {key : Bytes} {writer : TxnId} {p : Posting}

/-- A change leaves the record of other rows and of other transactions as it is. -/
theorem posted_cons_other (h : ¬ (change.key = key ∧ change.writer = writer)) :
    posted (change :: history) key writer = posted history key writer := by
  cases change <;> exact if_neg h

theorem posted_put (key : Bytes) (cell : Cell) :
    posted (.put key cell :: history) key cell.writer = some ⟨history.length, cell⟩ :=
  if_pos ⟨rfl, rfl⟩

theorem posted_removeVersion (key : Bytes) (writer : TxnId) :
    posted (.removeVersion key writer :: history) key writer = none :=
  if_pos ⟨rfl, rfl⟩

theorem posted_setCommit (key : Bytes) (writer : TxnId) (ts : Timestamp) :
    posted (.setCommit key writer ts :: history) key writer =
      (posted history key writer).map (·.marked ts) :=
  if_pos ⟨rfl, rfl⟩

/-- What is on record about a transaction is a version of its own, put before now. -/
theorem posted_spec (h : posted history key writer = some p) :
    p.cell.writer = writer ∧ p.number < history.length := by
  induction history generalizing p with
  | nil => cases h
  | cons change earlier ih =>
      by_cases hnamed : change.key = key ∧ change.writer = writer
      · obtain ⟨rfl, rfl⟩ := hnamed
        cases change with
        | put key cell =>
            obtain rfl := Option.some.inj ((posted_put key cell).symm.trans h)
            exact ⟨rfl, Nat.lt_succ_self _⟩
        | removeVersion key writer => cases (posted_removeVersion key writer).symm.trans h
        | setCommit key writer ts =>
            obtain ⟨q, hq, rfl⟩ := Option.map_eq_some_iff.1 ((posted_setCommit key writer ts).symm.trans h)
            obtain ⟨hwriter, hnumber⟩ := ih hq
            exact ⟨hwriter, Nat.lt_succ_of_lt hnumber⟩
      · rw [posted_cons_other hnamed] at h
        obtain ⟨hwriter, hnumber⟩ := ih h
        exact ⟨hwriter, Nat.lt_succ_of_lt hnumber⟩

end Posted

namespace Cell

/-- Among versions in order, a version is placed behind those that are not older. -/
theorem place_eq {cells : List Cell} (h : NewestFirst cells) (c : Cell) :
    c.place cells = cells.filter (fun d => c.timestamp ≤ d.timestamp) ++
      c :: cells.filter (fun d => d.timestamp < c.timestamp) := by
  induction cells with
  | nil => rfl
  | cons d rest ih =>
      obtain ⟨hd, hrest⟩ := List.pairwise_cons.1 h
      rw [place]
      split
      · -- The first version is older, and so are all others.
        rename_i holder
        have hall : ∀ x ∈ d :: rest, x.timestamp < c.timestamp := by
          intro x hx
          rcases List.mem_cons.1 hx with rfl | hx
          · exact holder
          · exact Timestamp.lt_of_le_of_lt (hd x hx) holder
        rw [List.filter_eq_nil_iff.2 fun x hx => by simpa using fun hle => Timestamp.not_lt.2 hle (hall x hx),
          List.filter_eq_self.2 fun x hx => by simpa using hall x hx, List.nil_append]
      · rename_i hnewer
        rw [List.filter_cons_of_pos (by simpa using Timestamp.not_lt.1 hnewer),
          List.filter_cons_of_neg (by simpa using hnewer), ih hrest, List.cons_append]

theorem filter_writer_filter_writer (writer : TxnId) (cells : List Cell) :
    (cells.filter (·.writer ≠ writer)).filter (·.writer ≠ writer) = cells.filter (·.writer ≠ writer) := by
  rw [List.filter_filter]
  exact List.filter_congr fun c _ => Bool.and_self _

/-- A commit timestamp that is cached on the version of a writer is not seen on the others. -/
theorem filter_writer_markCommitted (writer : TxnId) (ts : Timestamp) (cells : List Cell) :
    (markCommitted writer ts cells).filter (·.writer ≠ writer) = cells.filter (·.writer ≠ writer) := by
  induction cells with
  | nil => rfl
  | cons c rest ih => by_cases hc : c.writer = writer <;> simp_all [markCommitted]

/-- Where no transaction has two versions, a commit timestamp is cached on all versions of its writer. -/
theorem markCommitted_eq_map {cells : List Cell} (h : (cells.map writer).Nodup) (writer : TxnId)
    (ts : Timestamp) :
    markCommitted writer ts cells =
      cells.map fun c => if c.writer = writer then { c with commit := some ts } else c := by
  induction cells with
  | nil => rfl
  | cons c rest ih =>
      obtain ⟨hc, hrest⟩ := List.nodup_cons.1 h
      rw [markCommitted, List.map_cons]
      split
      · rename_i hwriter
        have hothers : ∀ x ∈ rest, (if x.writer = writer then { x with commit := some ts } else x) = x :=
          fun x hx => if_neg fun hx' => hc (List.mem_map.2 ⟨x, hx, hx'.trans hwriter.symm⟩)
        rw [List.map_congr_left hothers, List.map_id']
      · rw [ih hrest]

end Cell

namespace Posting

theorem Before.irrefl (p : Posting) : ¬ p.Before p := by
  rintro (hlt | ⟨-, hlt⟩)
  · exact Timestamp.lt_asymm hlt hlt
  · exact Nat.lt_irrefl _ hlt

theorem Before.le {p q : Posting} (h : p.Before q) : q.cell.timestamp ≤ p.cell.timestamp := by
  rcases h with hlt | ⟨heq, -⟩
  · exact Timestamp.le_of_lt hlt
  · exact heq ▸ Timestamp.le_refl _

end Posting

namespace Lists

variable {history : List CellChange} {key : Bytes} {postings : List Posting}

theorem nil (key : Bytes) : Lists [] key [] where
  mem _ := iff_of_false List.not_mem_nil nofun
  ordered := .nil

theorem newestFirst (h : Lists history key postings) : Cell.NewestFirst (postings.map Posting.cell) :=
  List.pairwise_map.2 (h.ordered.imp Posting.Before.le)

/-- No transaction is listed twice. -/
theorem nodup_writers (h : Lists history key postings) :
    ((postings.map Posting.cell).map Cell.writer).Nodup := by
  have hnodup : postings.Nodup := h.ordered.imp fun hbefore => by
    rintro rfl
    exact Posting.Before.irrefl _ hbefore
  rw [List.map_map]
  refine hnodup.map_on fun p hp q hq hwriter => ?_
  have hsame := (h.mem q).1 hq
  rw [← show p.cell.writer = q.cell.writer from hwriter, (h.mem p).1 hp] at hsame
  exact Option.some.inj hsame

/-- A transaction has a version in a listed row when one is on record. -/
theorem any_writer (h : Lists history key postings) (writer : TxnId) :
    (postings.map Posting.cell).any (·.writer = writer) = (posted history key writer).isSome := by
  rw [Bool.eq_iff_iff, List.any_map, List.any_eq_true, Option.isSome_iff_exists]
  refine exists_congr fun p => ⟨fun ⟨hp, hwriter⟩ => ?_, fun hp => ?_⟩
  · obtain rfl : p.cell.writer = writer := of_decide_eq_true hwriter
    exact (h.mem p).1 hp
  · obtain ⟨rfl, -⟩ := posted_spec hp
    exact ⟨(h.mem p).2 hp, decide_eq_true rfl⟩

/-- A change of another row leaves the listing of a row as it is. -/
theorem other (h : Lists history key postings) {change : CellChange} (hother : change.key ≠ key) :
    Lists (change :: history) key postings where
  mem p := by rw [h.mem, posted_cons_other fun hnamed => hother hnamed.1]
  ordered := h.ordered

/-- A version that is put is listed behind those that are not older, and replaces the one its writer had. -/
theorem put (h : Lists history key postings) (cell : Cell) :
    ∃ next, Lists (.put key cell :: history) key next ∧
      next.map Posting.cell = cell.replace (postings.map Posting.cell) := by
  let new : Posting := ⟨history.length, cell⟩
  let kept := postings.filter fun p => p.cell.writer ≠ cell.writer
  have hkept : ∀ p, p ∈ kept ↔ posted history key p.cell.writer = some p ∧ p.cell.writer ≠ cell.writer := by
    intro p
    rw [List.mem_filter, h.mem, decide_eq_true_iff]
  have hordered : kept.Pairwise Posting.Before := h.ordered.filter _
  refine ⟨kept.filter (fun p => cell.timestamp ≤ p.cell.timestamp) ++
    new :: kept.filter (fun p => p.cell.timestamp < cell.timestamp), ⟨fun p => ?_, ?_⟩, ?_⟩
  · have hsplit : p ∈ kept.filter (fun p => cell.timestamp ≤ p.cell.timestamp) ++
        new :: kept.filter (fun p => p.cell.timestamp < cell.timestamp) ↔ p = new ∨ p ∈ kept := by
      have htotal := Classical.em (p.cell.timestamp < cell.timestamp)
      simp only [List.mem_append, List.mem_cons, List.mem_filter, decide_eq_true_eq,
        ← Timestamp.not_lt]
      tauto
    rw [hsplit, hkept]
    by_cases hwriter : p.cell.writer = cell.writer
    · rw [hwriter, posted_put]
      simp [new, eq_comm]
    · rw [posted_cons_other fun hnamed => hwriter hnamed.2.symm]
      have hne : p ≠ new := fun heq => hwriter (by rw [heq])
      simp [hne, hwriter]
  · refine List.pairwise_append.2 ⟨hordered.filter _,
      List.pairwise_cons.2 ⟨fun q hq => ?_, hordered.filter _⟩, fun p hp q hq => ?_⟩
    · exact .inl (of_decide_eq_true (List.mem_filter.1 hq).2)
    · obtain ⟨hpkept, hple⟩ := List.mem_filter.1 hp
      have hle : cell.timestamp ≤ p.cell.timestamp := of_decide_eq_true hple
      rcases List.mem_cons.1 hq with rfl | hq
      · -- Every version that stands there was put before this one.
        by_cases heq : p.cell.timestamp = cell.timestamp
        · exact .inr ⟨heq, (posted_spec ((hkept p).1 hpkept).1).2⟩
        · exact .inl (Timestamp.lt_of_le_of_ne hle (Ne.symm heq))
      · exact .inl (Timestamp.lt_of_lt_of_le (of_decide_eq_true (List.mem_filter.1 hq).2) hle)
  · have hrow : (postings.map Posting.cell).filter (·.writer ≠ cell.writer) = kept.map Posting.cell :=
      List.filter_map
    rw [Cell.replace, hrow, Cell.place_eq (hrow ▸ h.newestFirst.filter _), List.filter_map, List.filter_map,
      List.map_append, List.map_cons]
    rfl

theorem removeVersion (h : Lists history key postings) (writer : TxnId) :
    Lists (.removeVersion key writer :: history) key
      (postings.filter fun p => p.cell.writer ≠ writer) where
  mem p := by
    rw [List.mem_filter, h.mem, decide_eq_true_iff]
    by_cases hwriter : p.cell.writer = writer
    · rw [hwriter, posted_removeVersion]
      simp
    · rw [posted_cons_other fun hnamed => hwriter hnamed.2.symm]
      simp [hwriter]
  ordered := h.ordered.filter _

/-- A cached commit timestamp moves no version. -/
theorem setCommit (h : Lists history key postings) (writer : TxnId) (ts : Timestamp) :
    Lists (.setCommit key writer ts :: history) key
      (postings.map fun p => if p.cell.writer = writer then p.marked ts else p) := by
  have hplace : ∀ p : Posting,
      (if p.cell.writer = writer then p.marked ts else p).cell.writer = p.cell.writer ∧
      (if p.cell.writer = writer then p.marked ts else p).cell.timestamp = p.cell.timestamp ∧
      (if p.cell.writer = writer then p.marked ts else p).number = p.number := by
    intro p
    split <;> exact ⟨rfl, rfl, rfl⟩
  refine ⟨fun p => ?_, List.pairwise_map.2 (h.ordered.imp fun {p q} hbefore => ?_)⟩
  · rw [List.mem_map]
    by_cases hwriter : p.cell.writer = writer
    · rw [hwriter, posted_setCommit, Option.map_eq_some_iff]
      refine exists_congr fun q => ?_
      rw [h.mem]
      constructor
      · rintro ⟨hq, rfl⟩
        rw [(hplace q).1] at hwriter
        rw [if_pos hwriter]
        exact ⟨hwriter ▸ hq, rfl⟩
      · rintro ⟨hq, rfl⟩
        obtain ⟨hself, -⟩ := posted_spec hq
        exact ⟨hself ▸ hq, if_pos hself⟩
    · rw [posted_cons_other fun hnamed => hwriter hnamed.2.symm, ← h.mem]
      constructor
      · rintro ⟨q, hq, rfl⟩
        rw [(hplace q).1] at hwriter
        rwa [if_neg hwriter]
      · exact fun hp => ⟨p, hp, if_neg hwriter⟩
  · simp only [Posting.Before, (hplace p).2.1, (hplace q).2.1, (hplace p).2.2, (hplace q).2.2]
    exact hbefore

end Lists

namespace CellStore

/-- The store after a change. -/
def change (s : CellStore) : CellChange → CellStore
  | .put key cell => s.put key cell
  | .removeVersion key writer => (s.removeVersion key writer).2
  | .setCommit key writer ts => (s.setCommit key writer ts).2

/-- The store after a history of changes, the latest change first. -/
def after : (history : List CellChange) → CellStore
  | [] => {}
  | change :: earlier => (after earlier).change change

/-- A change leaves other rows as they are. -/
theorem getElem?_change_other (s : CellStore) {change : CellChange} {key : Bytes} (h : change.key ≠ key) :
    (s.change change).rows[key]? = s.rows[key]? := by
  cases change <;> exact (getElem?_setVersions ..).trans (if_neg h)

/-- **Every row is listed from the reference map.** -/
theorem versions_after (history : List CellChange) (key : Bytes) :
    ∃ postings, Lists history key postings ∧ (after history).versions key = postings.map Posting.cell := by
  induction history with
  | nil => exact ⟨[], .nil key, rfl⟩
  | cons change earlier ih =>
      obtain ⟨postings, hlists, hversions⟩ := ih
      by_cases hkey : change.key = key
      · cases change with
        | put row cell =>
            obtain rfl : row = key := hkey
            obtain ⟨next, hnext, hcells⟩ := hlists.put cell
            refine ⟨next, hnext, ?_⟩
            rw [after, CellStore.change, versions_put, if_pos rfl, hversions, hcells]
        | removeVersion row writer =>
            obtain rfl : row = key := hkey
            refine ⟨_, hlists.removeVersion writer, ?_⟩
            rw [after, CellStore.change, versions_removeVersion, if_pos rfl, hversions]
            exact List.filter_map
        | setCommit row writer ts =>
            obtain rfl : row = key := hkey
            refine ⟨_, hlists.setCommit writer ts, ?_⟩
            rw [after, CellStore.change, versions_setCommit, if_pos rfl, hversions,
              Cell.markCommitted_eq_map hlists.nodup_writers, List.map_map, List.map_map]
            refine List.map_congr_left fun p _ => ?_
            show (if p.cell.writer = writer then { p.cell with commit := some ts } else p.cell) = _
            rw [Function.comp_apply]
            split <;> rfl
      · refine ⟨postings, hlists.other hkey, ?_⟩
        rw [← hversions, versions, versions, after, getElem?_change_other _ hkey]

/-- No stored row is empty. -/
theorem getElem?_after_ne (history : List CellChange) (key : Bytes) :
    (after history).rows[key]? ≠ some [] := by
  induction history with
  | nil => simp [after]
  | cons change earlier ih =>
      by_cases hkey : change.key = key
      · have hset : ∀ (s : CellStore) (cells : List Cell),
            (s.setVersions change.key cells).rows[key]? ≠ some [] := by
          intro s cells
          rw [getElem?_setVersions, if_pos hkey]
          split
          · exact nofun
          · rename_i hne
            exact fun hnil => hne (Option.some.inj hnil)
        cases change <;> exact hset _ _
      · rw [after, getElem?_change_other _ hkey]
        exact ih

theorem everWritten_after (history : List CellChange) :
    (after history).everWritten = true ↔ ∃ key cell, .put key cell ∈ history := by
  induction history with
  | nil => simp [after]
  | cons change earlier ih =>
      cases change with
      | put key cell => exact iff_of_true rfl ⟨key, cell, List.mem_cons_self⟩
      | removeVersion key writer =>
          rw [after, CellStore.change, removeVersion, everWritten_setVersions, ih]
          simp
      | setCommit key writer ts =>
          rw [after, CellStore.change, setCommit, everWritten_setVersions, ih]
          simp

/-- A row is stored when something is on record about it. -/
theorem mem_rows_after (history : List CellChange) (key : Bytes) :
    key ∈ (after history).rows ↔ ∃ writer, (posted history key writer).isSome = true := by
  obtain ⟨postings, hlists, hversions⟩ := versions_after history key
  rw [Std.ExtTreeMap.mem_iff_isSome_getElem?]
  cases hrow : (after history).rows[key]? with
  | none =>
      rw [versions, hrow] at hversions
      obtain rfl : postings = [] := List.map_eq_nil_iff.1 hversions.symm
      refine iff_of_false Bool.false_ne_true ?_
      rintro ⟨writer, hsome⟩
      obtain ⟨p, hp⟩ := Option.isSome_iff_exists.1 hsome
      obtain ⟨rfl, -⟩ := posted_spec hp
      exact List.not_mem_nil ((hlists.mem p).2 hp)
  | some cells =>
      refine iff_of_true rfl ?_
      rw [versions, hrow, Option.getD_some] at hversions
      cases postings with
      | nil => exact absurd (hrow.trans (congrArg some hversions)) (getElem?_after_ne history key)
      | cons p rest =>
          exact ⟨p.cell.writer, by rw [(hlists.mem p).1 List.mem_cons_self]; rfl⟩

/-- The number of versions of a row is the number of transactions that something is on record about. -/
theorem versionCount_after (history : List CellChange) (key : Bytes) :
    ((after history).versionCount key : ℕ∞) =
      Set.encard {writer | (posted history key writer).isSome = true} := by
  obtain ⟨postings, hlists, hversions⟩ := versions_after history key
  have hwriters : {writer | (posted history key writer).isSome = true} =
      (((postings.map Posting.cell).map Cell.writer).toFinset : Set TxnId) := by
    ext writer
    rw [Set.mem_ofPred_eq, ← hlists.any_writer, List.coe_toFinset, Set.mem_ofPred_eq, List.any_eq_true,
      List.mem_map]
    simp only [decide_eq_true_eq]
  rw [hwriters, Set.encard_coe_eq_coe_finsetCard, List.toFinset_card_of_nodup hlists.nodup_writers,
    List.length_map, versionCount, hversions]

/-- The number of stored rows is the number of rows that something is on record about. -/
theorem rowCount_after (history : List CellChange) :
    ((after history).rowCount : ℕ∞) =
      Set.encard {key : Bytes | ∃ writer, (posted history key writer).isSome = true} := by
  have hkeys : {key : Bytes | ∃ writer, (posted history key writer).isSome = true} =
      ((after history).rows.keys.toFinset : Set Bytes) := by
    ext key
    rw [Set.mem_ofPred_eq, ← mem_rows_after, List.coe_toFinset, Set.mem_ofPred_eq, Std.ExtTreeMap.mem_keys]
  rw [hkeys, Set.encard_coe_eq_coe_finsetCard, List.toFinset_card_of_nodup Std.ExtTreeMap.nodup_keys,
    Std.ExtTreeMap.length_keys, rowCount]

/-- In the row that it names, a change leaves the versions of other transactions as they are, in their
order. -/
theorem filter_versions_change (s : CellStore) (change : CellChange) (key : Bytes) :
    ((s.change change).versions key).filter (·.writer ≠ change.writer) =
      (s.versions key).filter (·.writer ≠ change.writer) := by
  cases change with
  | put row cell =>
      rw [CellStore.change, versions_put]
      split
      · rw [Cell.replace, Cell.filter_place (by simp [CellChange.writer])]
        exact Cell.filter_writer_filter_writer ..
      · rfl
  | removeVersion row writer =>
      rw [CellStore.change, versions_removeVersion]
      split
      · exact Cell.filter_writer_filter_writer ..
      · rfl
  | setCommit row writer ts =>
      rw [CellStore.change, versions_setCommit]
      split
      · exact Cell.filter_writer_markCommitted ..
      · rfl

/-- Removing a version reports whether one was on record. -/
theorem removeVersion_after (history : List CellChange) (key : Bytes) (writer : TxnId) :
    ((after history).removeVersion key writer).1 = (posted history key writer).isSome := by
  obtain ⟨postings, hlists, hversions⟩ := versions_after history key
  rw [← hlists.any_writer, ← hversions, removeVersion, Bool.eq_iff_iff, decide_eq_true_iff, ne_eq,
    List.length_filter_eq_length_iff]
  simp

/-- Caching a commit timestamp reports whether there was a version to cache it on. -/
theorem setCommit_after (history : List CellChange) (key : Bytes) (writer : TxnId) (ts : Timestamp) :
    ((after history).setCommit key writer ts).1 = (posted history key writer).isSome := by
  obtain ⟨postings, hlists, hversions⟩ := versions_after history key
  rw [← hlists.any_writer, ← hversions, setCommit]

/-- A cell store that holds what a history of changes has left, and whose reads report it. -/
structure Holds (s : CellStore) (history : List CellChange) : Prop where
  -- No stored row is empty, and every row is listed from the reference map.
  nonempty : ∀ key : Bytes, s.rows[key]? ≠ some []
  listed : ∀ key, ∃ postings, Lists history key postings ∧ s.versions key = postings.map Posting.cell
  newestFirst : ∀ key, Cell.NewestFirst (s.versions key)
  single : ∀ key, ((s.versions key).map Cell.writer).Nodup
  -- A read returns what its options admit, all of it or the newest.
  get_eq : ∀ (key : Bytes) (selection : Selection),
    let admitted := (s.versions key).filter fun c =>
      selection.lower ≤ c.timestamp ∧ c.timestamp < selection.upper
    s.get key selection = if selection.allVersions then admitted else admitted.head?.toList
  -- A scan is refused for bounds out of order, once something was put; otherwise it has, in key order, the
  -- rows of the range of which a read returns something.
  refused_iff : ∀ (range : KeyRange) (selection : Selection), s.scan? range selection = none ↔
    (∃ key cell, .put key cell ∈ history) ∧ range.isOrdered = false
  ascending : ∀ {range : KeyRange} {selection : Selection} {rows}, s.scan? range selection = some rows →
    rows.Pairwise fun row next => compare row.1 next.1 = .lt
  mem_scan : ∀ {range : KeyRange} {selection : Selection} {rows}, s.scan? range selection = some rows →
    ∀ row, row ∈ rows ↔ range.contains row.1 = true ∧ row.2 = s.get row.1 selection ∧ row.2 ≠ []
  -- The changes that look for a version report whether one is on record.
  removed_eq : ∀ (key : Bytes) (writer : TxnId),
    (s.removeVersion key writer).1 = (posted history key writer).isSome
  committed_eq : ∀ (key : Bytes) (writer : TxnId) (ts : Timestamp),
    (s.setCommit key writer ts).1 = (posted history key writer).isSome
  -- The numbers count what is on record.
  versionCount_eq : ∀ key, (s.versionCount key : ℕ∞) =
    Set.encard {writer | (posted history key writer).isSome = true}
  rowCount_eq : (s.rowCount : ℕ∞) =
    Set.encard {key : Bytes | ∃ writer, (posted history key writer).isSome = true}

/-- What a further change of a cell store with a history does: it reaches the version of one transaction in
one row. -/
structure Touches (change : CellChange) (history : List CellChange) : Prop where
  row : ∀ key : Bytes, key ≠ change.key →
    (after (change :: history)).rows[key]? = (after history).rows[key]?
  others : ∀ key, ((after (change :: history)).versions key).filter (·.writer ≠ change.writer) =
    ((after history).versions key).filter (·.writer ≠ change.writer)

theorem holds_after (history : List CellChange) : (after history).Holds history where
  nonempty := getElem?_after_ne history
  listed := versions_after history
  newestFirst key := by
    obtain ⟨postings, hlists, hversions⟩ := versions_after history key
    exact hversions ▸ hlists.newestFirst
  single key := by
    obtain ⟨postings, hlists, hversions⟩ := versions_after history key
    exact hversions ▸ hlists.nodup_writers
  get_eq key selection := by
    have hcovers : selection.covers =
        fun c => decide (selection.lower ≤ c.timestamp ∧ c.timestamp < selection.upper) :=
      funext fun c => (Bool.decide_and ..).symm
    rw [get, Selection.select, hcovers]
    split
    · rfl
    · exact List.take_one
  refused_iff range selection := by
    rw [← everWritten_after, scan?]
    cases (after history).everWritten <;> cases range.isOrdered <;> simp
  ascending hrows := by
    rw [← eq_scan_of_scan? hrows, scan_eq]
    refine ordered_filterMap_storedIn _ _ fun {key row} hrow => ?_
    split at hrow
    · contradiction
    · rw [← Option.some.inj hrow]
  mem_scan hrows row := by
    rw [← eq_scan_of_scan? hrows]
    exact mem_scan_iff
  removed_eq := removeVersion_after history
  committed_eq := setCommit_after history
  versionCount_eq := versionCount_after history
  rowCount_eq := rowCount_after history

/-- **What a cell store holds and what it reports.**  After any history of puts, removals and cached commit
timestamps, every row is listed from the reference map — the version that each transaction put last and that
was not removed since, with the commit timestamp cached last since then, newest first, equal timestamps in
the order of their puts, one version for each transaction.  A further change leaves other rows and other
transactions alone, and every read reports exactly what is listed. -/
theorem content_after (history : List CellChange) :
    (after history).Holds history ∧ ∀ change, Touches change history :=
  ⟨holds_after history, fun change =>
    ⟨fun _ hkey => getElem?_change_other _ hkey.symm, fun key => filter_versions_change _ change key⟩⟩

end CellStore

end Multiversion
