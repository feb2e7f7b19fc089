import Mathlib.Data.List.Induction
import Multiversion.Proofs.Isolation.Batches
import Multiversion.Proofs.Storage.Versions

/-!
# The outcomes of single rows

A region decides about a row from the versions that other transactions have written to it.  What the
writing transaction has written there itself does not count, and what its view remembers does not change
a decision.  So the rows of a batch have no influence on each other.

* `Lineage.obstacle` — what stands in the way of a write, from the records alone;
* `Region.takes` — whether a region takes a row: it belongs there, and its lock is free;
* `Region.answer` — the status of a mutation that is sent to a region, over given cells;
* `Region.answer_putAll` — the rows that a transaction has written leave every status as it is.

Main statement: `Region.applyBatch_eq` — a batch gives each mutation its own status and writes the rows
that succeed, in order.
-/

namespace Multiversion

namespace Lineage

/-- The first version, newest first, that conflicts with a write, or whose writer cannot be read. -/
def obstacle (l : Lineage) (d : Directory) (txn : View) : List Cell → Region.Obstacle
  | [] => .none
  | cell :: rest =>
      match l.fateOf d cell with
      | .error e => .unreadable e
      | .ok fate => if fate.conflictsWith txn then .conflict cell.writer else obstacle l d txn rest

variable {d : Directory} {txn : View} {l : Lineage}

theorem mem_of_collect {subject : TxnId} {room : Nat} {ids ids' : List TxnId} {parent : Option TxnId}
    (h : collect d subject room ids parent = .ok ids') {id : TxnId} (hid : id ∈ ids) : id ∈ ids' := by
  induction room generalizing ids parent with
  | zero =>
      cases parent with
      | none =>
          cases h
          exact hid
      | some parent => cases h
  | succ room ih =>
      cases parent with
      | none =>
          cases h
          exact hid
      | some parent =>
          rw [collect] at h
          split at h
          · cases h
          · split at h
            · cases h
            · exact ih h (List.mem_append_left _ hid)

/-- A transaction is on its own lineage. -/
theorem contains_of_load (h : load d txn = .ok l) : l.contains txn.id = true := by
  unfold load at h
  split at h
  · contradiction
  · rename_i ids hcollect
    cases h
    exact List.contains_iff_mem.2 (mem_of_collect hcollect List.mem_cons_self)

/-- The transaction's own versions do not stand in its way. -/
theorem obstacle_filter (hown : l.contains txn.id = true) (cells : List Cell) :
    l.obstacle d txn (cells.filter (·.writer ≠ txn.id)) = l.obstacle d txn cells := by
  induction cells with
  | nil => rfl
  | cons cell rest ih =>
      by_cases hwriter : cell.writer = txn.id
      · -- The lineage is asked before any cached timestamp, so the version is called own.
        have hfate : l.fateOf d cell = .ok .own := by
          simp [fateOf, resolveWriter, hwriter, hown]
        rw [List.filter_cons_of_neg (by simp [hwriter]), ih, obstacle, hfate]
        rfl
      · rw [List.filter_cons_of_pos (by simp [hwriter]), obstacle, obstacle, ih]

end Lineage

namespace Region

variable {d : Directory} {txn : View}

/-- The memory does not change what stands in the way of a write. -/
theorem obstacle_of_remembers (txn : View) {v : Visibility} (hv : v.Remembers d) (key : Bytes)
    (cells : List Cell) :
    (obstacle d txn key v cells).1 = v.lineage.obstacle d txn cells ∧
      (obstacle d txn key v cells).2.Remembers d ∧
      (obstacle d txn key v cells).2.lineage = v.lineage := by
  induction cells generalizing v with
  | nil => exact ⟨rfl, hv, rfl⟩
  | cons cell rest ih =>
      obtain ⟨hanswer, hremembers, hlineage⟩ := Visibility.fate_of_remembers hv key cell
      simp only [obstacle, Lineage.obstacle, ← hanswer]
      cases hfate : v.fate d key cell with
      | mk answer v' =>
          rw [hfate] at hremembers hlineage
          dsimp only at hremembers hlineage
          cases answer with
          | error e => exact ⟨rfl, hremembers, hlineage⟩
          | ok fate =>
              dsimp only
              split
              · exact ⟨rfl, hremembers, hlineage⟩
              · obtain ⟨hrest, hremembers', hlineage'⟩ := ih hremembers
                rw [hlineage] at hrest hlineage'
                exact ⟨hrest, hremembers', hlineage'⟩

/-- The status that an obstacle makes of a write. -/
def statusAt (d : Directory) (txn : View) (m : Mutation) : Obstacle → Status
  | .none => .success
  | .conflict other => conflictStatus d txn m other
  | .unreadable e => .generic e.message

/-- Whether a region takes a row: it belongs to the region, and its lock is free. -/
def takes (r : Region) (key : Bytes) : Bool := r.contains key && !r.isLocked key

theorem takes_eq_true_iff {r : Region} {key : Bytes} :
    r.takes key = true ↔ r.contains key = true ∧ r.isLocked key = false := by
  simp [takes]

theorem takes_eq_false_iff {r : Region} {key : Bytes} :
    r.takes key = false ↔ r.contains key = false ∨ r.isLocked key = true := by
  rw [takes, Bool.and_eq_false_iff, Bool.not_eq_false']

/-- The status of a mutation that is sent to a region, over given cells: that of the refusal, if the
transaction may not write at all; otherwise it is not run if the region does not take its row. -/
def answer (r : Region) (d : Directory) (txn : View) (cells : CellStore) (m : Mutation) : Status :=
  match openBatch d txn with
  | .error status => status
  | .ok v =>
      if r.takes m.key then statusAt d txn m (v.lineage.obstacle d txn (cells.get m.key .everything))
      else .notRun

/-- Rows written one after the other. -/
def putAll (txn : View) (rows : List Mutation) (cells : CellStore) : CellStore :=
  rows.foldl (fun cells m => cells.put m.key (cellOf txn m)) cells

theorem putAll_append (txn : View) (rows rows' : List Mutation) (cells : CellStore) :
    putAll txn (rows ++ rows') cells = putAll txn rows' (putAll txn rows cells) :=
  List.foldl_append

/-- Two stores in which other transactions have written the same. -/
def SameOthers (txn : View) (cells cells' : CellStore) : Prop :=
  ∀ key, (cells.versions key).filter (·.writer ≠ txn.id) =
    (cells'.versions key).filter (·.writer ≠ txn.id)

theorem sameOthers_put (txn : View) (m : Mutation) (cells : CellStore) :
    SameOthers txn (cells.put m.key (cellOf txn m)) cells := by
  intro key
  rw [CellStore.versions_put]
  split
  · rw [Cell.replace, Cell.filter_place (by simp [cellOf]), List.filter_filter]
    exact List.filter_congr fun c _ => Bool.and_self _
  · rfl

theorem sameOthers_putAll (txn : View) (rows : List Mutation) (cells : CellStore) :
    SameOthers txn (putAll txn rows cells) cells := by
  induction rows generalizing cells with
  | nil => exact fun _ => rfl
  | cons m rest ih =>
      intro key
      exact (ih _ key).trans (sameOthers_put txn m cells key)

/-- Of the rows that a transaction has written with one key, the last one is its version. -/
theorem own_putAll (txn : View) (rows : List Mutation) (cells : CellStore) {key : Bytes} {m : Mutation}
    (hlast : (rows.filter (·.key = key)).getLast? = some m) :
    ((putAll txn rows cells).versions key).filter (·.writer = txn.id) = [cellOf txn m] := by
  induction rows using List.reverseRecOn with
  | nil => simp at hlast
  | append_singleton rows row ih =>
      rw [putAll_append]
      show (((putAll txn rows cells).put row.key (cellOf txn row)).versions key).filter _ = _
      rw [CellStore.versions_put]
      by_cases hkey : row.key = key
      · rw [List.filter_append, List.filter_cons_of_pos (by simp [hkey])] at hlast
        obtain rfl : row = m := by simpa using hlast
        rw [if_pos hkey]
        exact Cell.filter_replace_self (cellOf txn row) _
      · rw [List.filter_append, List.filter_cons_of_neg (by simp [hkey]), List.filter_nil,
          List.append_nil] at hlast
        rw [if_neg hkey, ih hlast]

variable {r : Region} {v v' : Visibility}

/-- **A status depends on what other transactions have written only.** -/
theorem answer_congr {cells cells' : CellStore} (h : SameOthers txn cells cells') (m : Mutation) :
    r.answer d txn cells m = r.answer d txn cells' m := by
  unfold answer
  cases hopen : openBatch d txn with
  | error status => rfl
  | ok v =>
      obtain ⟨-, -, -, hview⟩ := of_openBatch hopen
      have hown := Lineage.contains_of_load (Visibility.faithful_load hview).1
      have hothers : (cells.get m.key .everything).filter (·.writer ≠ txn.id) =
          (cells'.get m.key .everything).filter (·.writer ≠ txn.id) := by
        rw [CellStore.get_everything, CellStore.get_everything, List.filter_comm, h m.key,
          List.filter_comm]
      dsimp only
      rw [← Lineage.obstacle_filter hown, hothers, Lineage.obstacle_filter hown]

theorem answer_putAll (r : Region) (txn : View) (rows : List Mutation) (cells : CellStore)
    (m : Mutation) : r.answer d txn (putAll txn rows cells) m = r.answer d txn cells m :=
  answer_congr (sameOthers_putAll txn rows cells) m

theorem answer_of_refused {status : Status} (hopen : openBatch d txn = .error status)
    (cells : CellStore) (m : Mutation) : r.answer d txn cells m = status := by
  simp [answer, hopen]

theorem answer_of_not_takes (hopen : openBatch d txn = .ok v) {m : Mutation}
    (hm : r.takes m.key = false) (cells : CellStore) : r.answer d txn cells m = .notRun := by
  simp [answer, hopen, hm]

theorem answer_of_takes (hopen : openBatch d txn = .ok v) {m : Mutation} (hm : r.takes m.key = true)
    (cells : CellStore) : r.answer d txn cells m =
      statusAt d txn m (v.lineage.obstacle d txn (cells.get m.key .everything)) := by
  simp [answer, hopen, hm]

/-- Only rows that the region takes succeed. -/
theorem takes_of_answer {cells : CellStore} {m : Mutation}
    (h : (r.answer d txn cells m).isSuccess = true) : r.takes m.key = true := by
  cases hopen : openBatch d txn with
  | error status =>
      rw [answer_of_refused hopen, isSuccess_refusal hopen] at h
      contradiction
  | ok v =>
      by_contra hm
      rw [answer_of_not_takes hopen (by simpa using hm)] at h
      contradiction

/-- A mutation whose row the region does not take changes nothing. -/
theorem applyOne_of_not_takes {m : Mutation} (hm : r.takes m.key = false) (v : Visibility)
    (cells : CellStore) : r.applyOne d txn v cells m = (.notRun, v, cells) := by
  rcases takes_eq_false_iff.1 hm with houtside | hlocked
  · simp [applyOne, houtside]
  · simp [applyOne, hlocked]

/-- One mutation of a batch: its status, and its version if it succeeds. -/
theorem applyOne_eq (hopen : openBatch d txn = .ok v) (hremembers : v'.Remembers d)
    (hlineage : v'.lineage = v.lineage) (cells : CellStore) (m : Mutation) :
    (r.applyOne d txn v' cells m).1 = r.answer d txn cells m ∧
      (r.applyOne d txn v' cells m).2.1.Remembers d ∧
      (r.applyOne d txn v' cells m).2.1.lineage = v.lineage ∧
      (r.applyOne d txn v' cells m).2.2 =
        if (r.answer d txn cells m).isSuccess then cells.put m.key (cellOf txn m) else cells := by
  cases hm : r.takes m.key with
  | false =>
      rw [applyOne_of_not_takes hm, answer_of_not_takes hopen hm]
      exact ⟨rfl, hremembers, hlineage, rfl⟩
  | true =>
      obtain ⟨hinside, hfree⟩ := takes_eq_true_iff.1 hm
      obtain ⟨hobstacle, hremembers', hlineage'⟩ :=
        obstacle_of_remembers txn hremembers m.key (cells.get m.key .everything)
      rw [hlineage] at hobstacle hlineage'
      rw [answer_of_takes hopen hm, ← hobstacle, applyOne, if_neg (by simp [hinside]),
        if_neg (by simp [hfree])]
      cases hmet : obstacle d txn m.key v' (cells.get m.key .everything) with
      | mk o v'' =>
          rw [hmet] at hremembers' hlineage'
          cases o with
          | none => exact ⟨rfl, hremembers', hlineage', rfl⟩
          | conflict other => exact ⟨rfl, hremembers', hlineage', rfl⟩
          | unreadable e => exact ⟨rfl, hremembers', hlineage', rfl⟩

/-- The mutations of a batch: what those before one have written does not change its status. -/
theorem applyEach_eq (hopen : openBatch d txn = .ok v) (hremembers : v'.Remembers d)
    (hlineage : v'.lineage = v.lineage) {cells before : CellStore} (hbefore : SameOthers txn cells before)
    (batch : List Mutation) :
    (r.applyEach d txn v' cells batch).1 = batch.map (r.answer d txn before) ∧
      (r.applyEach d txn v' cells batch).2.2 =
        putAll txn (batch.filter fun m => (r.answer d txn before m).isSuccess) cells := by
  induction batch generalizing v' cells with
  | nil => exact ⟨rfl, rfl⟩
  | cons m rest ih =>
      obtain ⟨hstatus, hremembers', hlineage', hcells⟩ := applyOne_eq (r := r) hopen hremembers hlineage
        cells m
      rw [answer_congr hbefore m] at hstatus hcells
      -- What has been written so far is the transaction's own, so the statuses stay what they were.
      have hafter : SameOthers txn (r.applyOne d txn v' cells m).2.2 before := by
        rw [hcells]
        split
        · exact fun key => (sameOthers_put txn m cells key).trans (hbefore key)
        · exact hbefore
      obtain ⟨hstatuses, hwritten⟩ := ih hremembers' hlineage' hafter
      obtain ⟨hfirst, hrest⟩ := applyEach_cons d txn r v' cells m rest
      rw [hfirst, hrest, hstatus, hstatuses, hwritten, hcells, List.filter_cons]
      refine ⟨rfl, ?_⟩
      split <;> rfl

/-- **The mutations of a batch stand alone.**  Each of them has its own status over the cells before the
batch, and those that succeed are written in order. -/
theorem applyBatch_eq (r : Region) (d : Directory) (txn : View) (cells : CellStore)
    (batch : List Mutation) :
    (r.applyBatch d txn cells batch).1 = batch.map (r.answer d txn cells) ∧
      (r.applyBatch d txn cells batch).2.2 =
        putAll txn (batch.filter fun m => (r.answer d txn cells m).isSuccess) cells := by
  cases hopen : openBatch d txn with
  | error status =>
      have hnone : (batch.filter fun m => (r.answer d txn cells m).isSuccess) = [] :=
        List.filter_eq_nil_iff.2 fun m _ => by
          simp [answer_of_refused hopen, isSuccess_refusal hopen]
      simp only [applyBatch, hopen, hnone]
      exact ⟨List.map_congr_left fun m _ => (answer_of_refused hopen cells m).symm, rfl⟩
  | ok v =>
      obtain ⟨-, -, -, hview⟩ := of_openBatch hopen
      have hremembers : v.Remembers d := (Visibility.faithful_load hview).2.memory
      simp only [applyBatch, hopen]
      exact applyEach_eq hopen hremembers rfl (fun _ => rfl) batch

end Region

end Multiversion
