import Multiversion.Proofs.Pipeline.RowOutcomes
import Multiversion.Proofs.Visibility.Scans

/-!
# The versions that are fetched

Reads and writes decide about a row from versions that they fetch with the widest selection there is.  It is
bounded all the same: its upper bound is the last timestamp, which it does not include.  So the versions of a
transaction that began at that timestamp are never looked at.

* `CellStore.fetched` — the versions that are looked at;
* `Read.ofVersions` — what a reader makes of given versions of a row;
* `Lineage.obstacle_eq_none_iff` — when nothing stands in the way of a write.

Main statement: `CellStore.fetched_decides` — reads and writes are decided by all versions below the last
timestamp, and by no other.  `not_all_versions_decide` says that this is not every version.
-/

namespace Multiversion

namespace CellStore

/-- The versions of a row that reads and writes fetch. -/
def fetched (s : CellStore) (key : Bytes) : List Cell :=
  (s.versions key).filter fun c => c.timestamp < .latest

theorem get_everything_eq_fetched (s : CellStore) (key : Bytes) : s.get key .everything = s.fetched key := by
  refine List.filter_congr fun c _ => ?_
  show (decide (Timestamp.earliest ≤ c.timestamp) && decide (c.timestamp < .latest)) = _
  rw [decide_eq_true (Timestamp.earliest_le c.timestamp), Bool.true_and]

/-- Nothing is left out exactly if no version stands at the last timestamp. -/
theorem fetched_eq_versions_iff {s : CellStore} {key : Bytes} :
    s.fetched key = s.versions key ↔ ∀ c ∈ s.versions key, c.timestamp ≠ .latest := by
  rw [fetched, List.filter_eq_self]
  refine forall₂_congr fun c _ => ?_
  rw [decide_eq_true_iff]
  constructor
  · intro hlt hsame
    rw [hsame] at hlt
    exact Timestamp.not_lt.2 (Timestamp.le_refl _) hlt
  · exact Timestamp.lt_of_le_of_ne (Timestamp.le_latest _)

end CellStore

namespace Read

variable {d : Directory} {reader : View}

/-- What a reader makes of given versions of a row. -/
def ofVersions (d : Directory) (reader : View) (key : Bytes) (versions : List Cell) :
    Except TxnError (Option Mutation) :=
  match Visibility.load d reader with
  | .error e => .error e
  | .ok v => (v.filterRow d key versions).1.map (pairOf key)

theorem ofVersions_of_load {v : Visibility} (hview : Visibility.load d reader = .ok v) (key : Bytes)
    (versions : List Cell) : ofVersions d reader key versions = v.lineage.readRow d key versions := by
  obtain ⟨-, hfaithful⟩ := Visibility.faithful_load hview
  rw [ofVersions, hview, Lineage.readRow, ← (Visibility.filterRow_of_remembers hfaithful.memory key versions).1]

theorem get_eq_ofVersions (d : Directory) (reader : View) (cells : CellStore) (key : Bytes) :
    (get d reader cells key).1 = ofVersions d reader key (cells.fetched key) := by
  cases hview : Visibility.load d reader with
  | error e => simp [get, ofVersions, hview]
  | ok v =>
      obtain ⟨hload, -⟩ := Visibility.faithful_load hview
      rw [ofVersions_of_load hview, (get_spec hload cells key).1, CellStore.get_everything_eq_fetched]
      rfl

theorem scan_eq_ofVersions {cells : CellStore} {range : KeyRange} (hrange : range.isOrdered = true)
    {rows : List Mutation} :
    (scan d reader cells range).1 = .ok rows ↔
      (∃ v, Visibility.load d reader = .ok v) ∧
        (∀ key ∈ cells.storedIn range, ∃ m, ofVersions d reader key (cells.fetched key) = .ok m) ∧
        rows = (cells.storedIn range).filterMap fun key =>
          (ofVersions d reader key (cells.fetched key)).toOption.join := by
  cases hview : Visibility.load d reader with
  | error e => simp [scan, hview]
  | ok v =>
      obtain ⟨hload, -⟩ := Visibility.faithful_load hview
      rw [scan_eq_ok_iff hload hrange]
      simp only [ofVersions_of_load hview, Lineage.reads, CellStore.get_everything_eq_fetched]
      simp

end Read

/-- Nothing stands in the way of a write exactly if all versions can be resolved and none conflicts. -/
theorem Lineage.obstacle_eq_none_iff {l : Lineage} {d : Directory} {txn : View} {cells : List Cell} :
    l.obstacle d txn cells = .none ↔
      ∀ c ∈ cells, ∃ f, l.fateOf d c = .ok f ∧ f.conflictsWith txn = false := by
  induction cells with
  | nil => simp [obstacle]
  | cons c rest ih =>
      rw [obstacle, List.forall_mem_cons, ← ih]
      cases l.fateOf d c with
      | error e => simp
      | ok f => cases hconflict : f.conflictsWith txn <;> simp [hconflict]

namespace Region

variable {d : Directory} {txn : View} {m : Mutation} {r : Region}

/-- A conflict is no success, unless two additive transactions insert. -/
theorem conflictStatus_ne_success (hplain : txn.additive = false ∨ m.kind.isInsertLike = false)
    (other : TxnId) : conflictStatus d txn m other ≠ .success := by
  unfold conflictStatus
  cases d.get other with
  | error e => simp [Status.generic]
  | ok view =>
      rcases hplain with hadditive | hkind
      · simp [hadditive, Status.writeConflict]
      · dsimp only
        rw [hkind]
        split <;> simp [Status.additiveWriteConflict, Status.writeConflict]

theorem statusAt_eq_success_iff (hplain : txn.additive = false ∨ m.kind.isInsertLike = false)
    {o : Obstacle} : statusAt d txn m o = .success ↔ o = .none := by
  cases o with
  | none => simp [statusAt]
  | conflict other => simp [statusAt, conflictStatus_ne_success hplain other]
  | unreadable e => simp [statusAt, Status.generic]

/-- **A plain write succeeds** exactly if its row belongs to the region and its lock is free, its transaction
may write, and no version that is fetched conflicts with it. -/
theorem applyBatch_eq_success_iff {cells : CellStore} {batch : List Mutation} {i : Nat}
    (hm : batch[i]? = some m) (hplain : txn.additive = false ∨ m.kind.isInsertLike = false) :
    (r.applyBatch d txn cells batch).1[i]? = some .success ↔
      r.contains m.key = true ∧ r.isLocked m.key = false ∧ ∃ v, openBatch d txn = .ok v ∧
        ∀ c ∈ cells.fetched m.key, ∃ f, v.lineage.fateOf d c = .ok f ∧ f.conflictsWith txn = false := by
  rw [(applyBatch_eq r d txn cells batch).1, List.getElem?_map, hm, Option.map_some,
    Option.some.injEq, ← and_assoc, ← takes_eq_true_iff]
  cases hopen : openBatch d txn with
  | error status =>
      have hrefused : status ≠ .success := by
        rintro rfl
        exact absurd (isSuccess_refusal hopen) (by decide)
      simp [answer_of_refused hopen, hrefused]
  | ok v =>
      cases htaken : r.takes m.key with
      | false => simp [answer_of_not_takes hopen htaken]
      | true =>
          rw [answer_of_takes hopen htaken, statusAt_eq_success_iff hplain,
            Lineage.obstacle_eq_none_iff, CellStore.get_everything_eq_fetched]
          simp

end Region

/-- **All versions below the last timestamp decide, and no other.**  Point reads, scans and the statuses of
plain writes are what the versions of each row below the last timestamp call for.  These are all versions of
the row exactly if none of them stands at that timestamp. -/
theorem CellStore.fetched_decides (cells : CellStore) (d : Directory) :
    (∀ reader key, (Read.get d reader cells key).1 = Read.ofVersions d reader key (cells.fetched key)) ∧
    (∀ (reader : View) (range : KeyRange) (rows : List Mutation), range.isOrdered = true →
      ((Read.scan d reader cells range).1 = .ok rows ↔
        (∃ v, Visibility.load d reader = .ok v) ∧
          (∀ key ∈ cells.storedIn range, ∃ m, Read.ofVersions d reader key (cells.fetched key) = .ok m) ∧
          rows = (cells.storedIn range).filterMap fun key =>
            (Read.ofVersions d reader key (cells.fetched key)).toOption.join)) ∧
    (∀ (r : Region) (txn : View) (batch : List Mutation) (i : Nat) (m : Mutation), batch[i]? = some m →
      (txn.additive = false ∨ m.kind.isInsertLike = false) →
      ((r.applyBatch d txn cells batch).1[i]? = some .success ↔
        r.contains m.key = true ∧ r.isLocked m.key = false ∧ ∃ v, Region.openBatch d txn = .ok v ∧
          ∀ c ∈ cells.fetched m.key, ∃ f,
            v.lineage.fateOf d c = .ok f ∧ f.conflictsWith txn = false)) ∧
    ∀ key, cells.fetched key = cells.versions key ↔ ∀ c ∈ cells.versions key, c.timestamp ≠ .latest :=
  ⟨fun reader key => Read.get_eq_ofVersions d reader cells key,
    fun _ _ _ hrange => Read.scan_eq_ofVersions hrange,
    fun _ _ _ _ _ hm hplain => Region.applyBatch_eq_success_iff hm hplain,
    fun _ => CellStore.fetched_eq_versions_iff⟩

namespace LastMoment

def region : Region := { name := "r" }

/-- A transaction that begins at the last timestamp there is, and one that begins before it. -/
def late : View := { id := ⟨1⟩, begin := .latest }

def early : View := { id := ⟨2⟩, begin := ⟨5⟩ }

def upsert (value : Bytes) : Mutation := { kind := .upsert, key := [107], value }

def directory : Directory :=
  TxnStore.directory
    ([Change.begin late, .begin early].foldl (fun t change => (t.submit 0 change).2) (.single (.empty {}))) 0

/-- The row that the late transaction has written. -/
def cells : CellStore := ({} : CellStore).put [107] (Region.cellOf late (upsert [1]))

/-- The late transaction has written its row, reads nothing, and the early one writes over it. -/
theorem answers :
    (region.applyBatch directory late {} [upsert [1]]).1 = [.success] ∧
    cells.fetched [107] = [] ∧
    (Read.get directory late cells [107]).1 = .ok none ∧
    Read.ofVersions directory late [107] (cells.versions [107]) = .ok (some (upsert [1])) ∧
    (region.applyBatch directory early cells [upsert [2]]).1 = [.success] := by
  decide +kernel

theorem reachable : cells.Reachable := .put .empty _ _

/-- The early transaction may write, and the version that it does not look at conflicts with it. -/
theorem opened : ∃ v, Region.openBatch directory early = .ok v ∧ ∀ c ∈ cells.versions [107],
    ∃ f, v.lineage.fateOf directory c = .ok f ∧ f.conflictsWith early = true := by
  have hopen : (Region.openBatch directory early).map (·.lineage) = .ok (.ofRoot early) := by
    decide +kernel
  have hfates : ∀ c ∈ cells.versions [107],
      ((Lineage.ofRoot early).fateOf directory c).map (·.conflictsWith early) = .ok true := by
    decide +kernel
  cases hview : Region.openBatch directory early with
  | error status => simp [hview, Except.map] at hopen
  | ok v =>
      rw [hview] at hopen
      refine ⟨v, rfl, fun c hc => ?_⟩
      have hconflicts := hfates c hc
      rw [← Except.ok.inj hopen] at hconflicts
      cases hfate : v.lineage.fateOf directory c with
      | error e => simp [hfate, Except.map] at hconflicts
      | ok f =>
          rw [hfate] at hconflicts
          exact ⟨f, rfl, Except.ok.inj hconflicts⟩

end LastMoment

/-- A row with a version at the last timestamp only is read and written as if it were empty. -/
theorem fetched_decides_lastMoment :
    LastMoment.cells.fetched [107] = [] ∧
    (Read.get LastMoment.directory LastMoment.late LastMoment.cells [107]).1 =
      Read.ofVersions LastMoment.directory LastMoment.late [107] [] ∧
    (LastMoment.region.applyBatch LastMoment.directory LastMoment.early LastMoment.cells
      [LastMoment.upsert [2]]).1[0]? = some .success := by
  obtain ⟨-, hfetched, -⟩ := LastMoment.answers
  obtain ⟨v, hopen, -⟩ := LastMoment.opened
  obtain ⟨hget, -, hbatch, -⟩ := CellStore.fetched_decides LastMoment.cells LastMoment.directory
  refine ⟨hfetched, hfetched ▸ hget LastMoment.late [107], ?_⟩
  refine (hbatch LastMoment.region LastMoment.early [LastMoment.upsert [2]] 0 _ rfl (.inl rfl)).2
    ⟨rfl, rfl, v, hopen, ?_⟩
  rw [show (LastMoment.upsert [2]).key = [107] from rfl, hfetched]
  nofun

/-- **Not every version decides**: a transaction that began at the last timestamp does not read what it has
written, and others write over it. -/
theorem not_all_versions_decide :
    (¬ ∀ (d : Directory) (reader : View) (cells : CellStore) (key : Bytes), cells.Reachable →
      (Read.get d reader cells key).1 = Read.ofVersions d reader key (cells.versions key)) ∧
    ¬ ∀ (d : Directory) (r : Region) (txn : View) (cells : CellStore) (m : Mutation), cells.Reachable →
      txn.additive = false →
      (∃ v, Region.openBatch d txn = .ok v ∧ ∃ c ∈ cells.versions m.key, ∃ f,
        v.lineage.fateOf d c = .ok f ∧ f.conflictsWith txn = true) →
      (r.applyBatch d txn cells [m]).1 ≠ [.success] := by
  obtain ⟨-, -, hget, hall, hwritten⟩ := LastMoment.answers
  constructor
  · intro h
    have hsame := h LastMoment.directory LastMoment.late LastMoment.cells [107] LastMoment.reachable
    rw [hget, hall] at hsame
    cases hsame
  · intro h
    obtain ⟨v, hopen, hconflicts⟩ := LastMoment.opened
    have hc : Region.cellOf LastMoment.late (LastMoment.upsert [1]) ∈ LastMoment.cells.versions [107] := by
      decide +kernel
    exact h LastMoment.directory LastMoment.region LastMoment.early LastMoment.cells
      (LastMoment.upsert [2]) LastMoment.reachable rfl ⟨v, hopen, _, hc, hconflicts _ hc⟩ hwritten

end Multiversion
