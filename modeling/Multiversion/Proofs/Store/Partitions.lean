import Mathlib.Data.List.Perm.Lattice
import Multiversion.Proofs.Log.Appending
import Multiversion.Proofs.Store.StrayRecords

/-!
# A partitioned store behaves as one store

A partitioned store splits the records, the index by begin timestamp and the counters of a single store
over its partitions, and each request goes to the partition that owns its id.  What a store makes of a
request depends on the record of that id only, so the partition answers as the single store does.

* `Ledger.verdict` — what a store makes of a request if its log device does not fail;
* `Store.Heeds` — what becomes of a store by a verdict;
* `PartitionedStore.Mirrors` — a partitioned store holds what a single one holds;
* `PartitionedStore.active_eq` — merging the active transactions of all partitions gives those of the
  single store, in its order.

Main statement: `TxnStore.answerAll_partitioned` — both kinds of store give the same replies to every
list of operations, and count the same.
-/

namespace Multiversion

/-- An operation of a transaction store. -/
inductive StoreQuery where
  | submit (change : Change)
  | get (id : TxnId)
  | active (lower upper : Timestamp) (table : Option String)
  | timedOut (id : TxnId)

/-- What a transaction store answers. -/
inductive StoreReply where
  | submitted (answer : Except TxnError Bool)
  | found (answer : Except TxnError View)
  | active (ids : List TxnId)
  | timedOut (answer : Except TxnError Bool)

namespace TxnStore

/-- One operation at a clock reading. -/
def answer (t : TxnStore) (now : Millis) : StoreQuery → StoreReply × TxnStore
  | .submit change => (.submitted (t.submit now change).1, (t.submit now change).2)
  | .get id => (.found ((t.directory now).get id), t)
  | .active lower upper table => (.active (t.activeIds lower upper table), t)
  | .timedOut id => (.timedOut ((t.directory now).timedOut id), t)

/-- The replies to a list of operations, each at its clock reading, and the store after them. -/
def answerAll (t : TxnStore) : List (Millis × StoreQuery) → List StoreReply × TxnStore
  | [] => ([], t)
  | (now, query) :: rest =>
      ((t.answer now query).1 :: ((t.answer now query).2.answerAll rest).1,
        ((t.answer now query).2.answerAll rest).2)

end TxnStore

namespace StoreStats

/-- What a verdict on a request adds to the counters. -/
def ofVerdict : Except TxnError (Option LogRecord) → StoreStats
  | .error e => countRefusal {} e
  | .ok none => {}
  | .ok (some r) => countRecord {} r.type

theorem add_zero (s : StoreStats) : s.add {} = s := by
  simp [add]

theorem add_right_comm (s t u : StoreStats) : (s.add t).add u = (s.add u).add t := by
  simp only [add, Nat.add_right_comm]

theorem add_assoc (s t u : StoreStats) : (s.add t).add u = s.add (t.add u) := by
  simp only [add, Nat.add_assoc]

theorem countRecord_eq (s : StoreStats) (type : RecordType) :
    s.countRecord type = s.add (countRecord {} type) := by
  cases type <;> simp [countRecord, add]

theorem countRefusal_eq (s : StoreStats) (e : TxnError) :
    s.countRefusal e = s.add (countRefusal {} e) := by
  unfold countRefusal
  split
  · simp [add]
  · exact s.add_zero.symm

/-- What is added at first is added in the end. -/
theorem foldl_add_add (l : List Store) (total more : StoreStats) :
    l.foldl (fun total s => total.add s.stats) (total.add more) =
      (l.foldl (fun total s => total.add s.stats) total).add more := by
  induction l generalizing total with
  | nil => rfl
  | cons s rest ih =>
      rw [List.foldl_cons, List.foldl_cons, add_right_comm]
      exact ih _

/-- What one store counts more, all together count more. -/
theorem foldl_add_set {l : List Store} {i : Nat} (hi : i < l.length) {s : Store} {more : StoreStats}
    (hs : s.stats = l[i].stats.add more) (total : StoreStats) :
    (l.set i s).foldl (fun total s => total.add s.stats) total =
      (l.foldl (fun total s => total.add s.stats) total).add more := by
  induction l generalizing i total with
  | nil => contradiction
  | cons first rest ih =>
      cases i with
      | zero =>
          rw [List.getElem_cons_zero] at hs
          rw [List.set_cons_zero, List.foldl_cons, List.foldl_cons, hs, ← add_assoc]
          exact foldl_add_add rest _ more
      | succ i => exact ih (Nat.lt_of_succ_lt_succ hi) hs _

/-- Stores that have counted nothing add nothing. -/
theorem foldl_add_replicate (n : Nat) {s : Store} (hs : s.stats = {}) (total : StoreStats) :
    (List.replicate n s).foldl (fun total s => total.add s.stats) total = total := by
  induction n with
  | zero => rfl
  | succ n ih => rw [List.replicate_succ, List.foldl_cons, hs, add_zero, ih]

end StoreStats

/-- The record that a log record leaves of its transaction. -/
def LogRecord.revise : LogRecord → Option Entry → Option Entry
  | .begin view aliveAt, _ => some ⟨view, aliveAt⟩
  | .commit _ ts, e =>
      e.map fun e => { e with view := { e.view with phase := .committed, commit := some ts } }
  | .rollback _, e => e.map fun e => { e with view := { e.view with phase := .rolledBack } }
  | .globalCommit _ ts, e => e.map fun e => { e with view := { e.view with globalCommit := some ts } }
  | .keepAlive _ aliveAt, e => e.map fun e => { e with lastAlive := aliveAt }

/-- What a log record adds to the index by begin timestamp. -/
def LogRecord.indexes : LogRecord → Option BeginKey
  | .begin view _ => some ⟨view.begin, view.id⟩
  | _ => none

theorem LogRecord.id_of_indexes {r : LogRecord} {key : BeginKey} (h : r.indexes = some key) :
    key.id = r.txn := by
  cases r with
  | begin view aliveAt =>
      cases h
      rfl
  | commit | rollback | globalCommit | keepAlive => contradiction

namespace Ledger

variable {l l' m : Ledger} {now : Millis} {change : Change} {r : LogRecord}

/-- **What a log record does to the table**, record by record and key by key. -/
theorem of_apply (h : l.apply r = .ok l') :
    (∀ id, l'.find? id = if r.txn = id then r.revise (l.find? id) else l.find? id) ∧
      ∀ key, key ∈ l'.byBegin ↔ r.indexes = some key ∨ key ∈ l.byBegin := by
  have hamend : ∀ (other : TxnId) (revise : Entry → Entry), l.amend other revise = .ok l' →
      (∀ id, l'.find? id = if other = id then (l.find? id).map revise else l.find? id) ∧
        l'.byBegin = l.byBegin := by
    intro other revise h
    unfold amend at h
    split at h
    · rename_i e hfind
      cases h
      refine ⟨fun id => ?_, rfl⟩
      rw [find?_put]
      split
      · rename_i heq
        rw [← heq, hfind]
        rfl
      · rfl
    · contradiction
  cases r with
  | begin view aliveAt =>
      cases h
      refine ⟨find?_begin l view aliveAt, fun key => ?_⟩
      rw [Std.ExtTreeSet.mem_insert, Std.compare_eq_iff_eq, LogRecord.indexes, Option.some.injEq]
  | commit | rollback | globalCommit | keepAlive =>
      obtain ⟨hfind, hkeys⟩ := hamend _ _ h
      exact ⟨hfind, fun key => by simp [hkeys, LogRecord.indexes]⟩

/-- What a store makes of a request if its device does not fail: a refusal, no change, or one record
that fits a frame. -/
def verdict (l : Ledger) (now : Millis) (change : Change) : Except TxnError (Option LogRecord) :=
  match l.decide now change with
  | .ok (some r) => (fun _ => some r) <$> Frame.encode r
  | other => other

/-- **The verdict depends on the record of the transaction only.** -/
theorem verdict_congr (h : l.find? change.txn = m.find? change.txn) :
    l.verdict now change = m.verdict now change := by
  have hdecide : l.decide now change = m.decide now change := by
    cases change with
    | begin view => simp only [decide, decideBegin, show l.find? view.id = m.find? view.id from h]
    | commit id | rollback id | globalCommit id | keepAlive id =>
        simp only [decide, get, show l.find? id = m.find? id from h]
  rw [verdict, verdict, hdecide]

theorem decide_of_verdict (h : l.verdict now change = .ok (some r)) :
    l.decide now change = .ok (some r) := by
  unfold verdict at h
  split at h
  · rename_i r' hdecide
    unfold Frame.encode at h
    split at h
    · cases h
      exact hdecide
    · contradiction
  · rename_i hother
    exact absurd h (hother r)

/-- A record is about the transaction of the request. -/
theorem txn_of_verdict (h : l.verdict now change = .ok (some r)) : r.txn = change.txn := by
  rw [record_of_decide (decide_of_verdict h)]
  cases change <;> rfl

theorem mem_active {lower upper : Timestamp} {table : Option String} {key : BeginKey} :
    key ∈ l.active lower upper table ↔ key ∈ l.byBegin ∧
      (lower ≤ key.begin && key.begin < upper &&
        (l.find? key.id).any fun e => e.view.isActive && table.all e.view.writesTo) = true := by
  unfold active
  split
  · rename_i hempty
    simp only [List.not_mem_nil, false_iff, Bool.and_eq_true, decide_eq_true_eq]
    rintro ⟨-, ⟨hlower, hupper⟩, -⟩
    rw [Timestamp.le_iff_toNat_le] at hempty hlower
    rw [Timestamp.lt_iff_toNat_lt] at hupper
    omega
  · simp only [keysBetween, List.mem_filter, Std.ExtTreeSet.mem_toList, Bool.and_eq_true,
      BeginKey.isLE_least, BeginKey.isLT_least, decide_eq_true_eq, and_assoc]

/-- Active transactions are listed in the order of the index. -/
theorem pairwise_active (l : Ledger) (lower upper : Timestamp) (table : Option String) :
    (l.active lower upper table).Pairwise fun a b => compare a b = .lt := by
  unfold active
  split
  · exact .nil
  · exact (Std.ExtTreeSet.ordered_toList.filter _).filter _

theorem nodup_active (l : Ledger) (lower upper : Timestamp) (table : Option String) :
    (l.active lower upper table).Nodup :=
  (l.pairwise_active lower upper table).imp fun hlt heq => by simp [heq] at hlt

end Ledger

/-- What becomes of a store by a verdict. -/
structure Store.Heeds (s s' : Store) (verdict : Except TxnError (Option LogRecord)) : Prop where
  healthy : s'.log.Healthy
  config : s'.config = s.config
  entries : ∀ id, s'.ledger.find? id =
    match verdict with
    | .ok (some r) => if r.txn = id then r.revise (s.ledger.find? id) else s.ledger.find? id
    | _ => s.ledger.find? id
  keys : ∀ key, key ∈ s'.ledger.byBegin ↔
    (∃ r, verdict = .ok (some r) ∧ r.indexes = some key) ∨ key ∈ s.ledger.byBegin
  stats : s'.stats = s.stats.add (.ofVerdict verdict)

namespace Store

/-- **A store whose device does not fail heeds its verdict.** -/
theorem heeds_submit {s : Store} (h : s.log.Healthy) (now : Millis) (change : Change) :
    (s.submit now change).1 = Option.isSome <$> s.ledger.verdict now change ∧
      s.Heeds (s.submit now change).2 (s.ledger.verdict now change) := by
  unfold submit
  cases hdecide : s.ledger.decide now change with
  | error e =>
      have hverdict : s.ledger.verdict now change = .error e := by simp [Ledger.verdict, hdecide]
      rw [hverdict]
      exact ⟨rfl, h, rfl, fun _ => rfl, by simp, s.stats.countRefusal_eq e⟩
  | ok decision =>
      cases decision with
      | none =>
          have hverdict : s.ledger.verdict now change = .ok none := by simp [Ledger.verdict, hdecide]
          rw [hverdict]
          exact ⟨rfl, h, rfl, fun _ => rfl, by simp, s.stats.add_zero.symm⟩
      | some r =>
          obtain ⟨log, hlog, happend⟩ := Log.append_of_healthy h r
          obtain ⟨_, ledger, _, happly, _⟩ := Ledger.apply_of_decide hdecide
          have hverdict : s.ledger.verdict now change = (fun _ => some r) <$> Frame.encode r := by
            simp [Ledger.verdict, hdecide]
          by_cases hfits : r.payload.length < 4294967296
          · obtain ⟨hentries, hkeys⟩ := Ledger.of_apply happly
            rw [Frame.encode, if_pos hfits] at happend hverdict
            rw [hverdict]
            simp only [commitRecord, happend, happly, Functor.map, Except.map]
            exact ⟨rfl, hlog, rfl, hentries, by simp [hkeys], s.stats.countRecord_eq r.type⟩
          · -- The refusal of a record that is too large is not counted.
            rw [Frame.encode, if_neg hfits] at happend hverdict
            rw [hverdict]
            simp only [commitRecord, happend, Functor.map, Except.map]
            exact ⟨trivial, hlog, rfl, fun _ => rfl, by simp, s.stats.add_zero.symm⟩

end Store

namespace PartitionedStore

/-- A partitioned store holds what a single store holds, each record and each key of the index in the
partition that owns its id. -/
structure Mirrors (p : PartitionedStore) (s : Store) : Prop where
  healthy : ∀ id, (p.partition id).log.Healthy
  singleHealthy : s.log.Healthy
  timeout : ∀ id, (p.partition id).config.timeout = s.config.timeout
  entries : ∀ id, (p.partition id).ledger.find? id = s.ledger.find? id
  keys : ∀ key, key ∈ (p.partition key.id).ledger.byBegin ↔ key ∈ s.ledger.byBegin
  placed : ∀ (i : Nat) (hi : i < p.partitions.size) key,
    key ∈ p.partitions[i].ledger.byBegin → (p.owner key.id).val = i
  stats : p.stats = s.stats

variable {p : PartitionedStore} {s : Store}

theorem getElem_setPartition (p : PartitionedStore) (id : TxnId) (s : Store) {i : Nat}
    (hi : i < (p.setPartition id s).partitions.size) (hold : i < p.partitions.size) :
    (p.setPartition id s).partitions[i] =
      if (p.owner id).val = i then s else p.partitions[i] := by
  simp only [setPartition, Array.getElem_set]

theorem owner_setPartition (p : PartitionedStore) (id other : TxnId) (s : Store) :
    ((p.setPartition id s).owner other).val = (p.owner other).val := by
  simp [owner, setPartition]

theorem stats_setPartition (p : PartitionedStore) (id : TxnId) {s : Store} {more : StoreStats}
    (hs : s.stats = (p.partition id).stats.add more) :
    (p.setPartition id s).stats = p.stats.add more := by
  unfold stats setPartition
  rw [Array.toList_set]
  exact StoreStats.foldl_add_set (by simp) hs {}

/-- **If both stores heed one verdict** on a transaction, they hold the same afterwards. -/
theorem Mirrors.of_heeds (h : p.Mirrors s) {txn : TxnId} {part s' : Store}
    {verdict : Except TxnError (Option LogRecord)} (hpart : (p.partition txn).Heeds part verdict)
    (hs : s.Heeds s' verdict) (htxn : ∀ r, verdict = .ok (some r) → r.txn = txn) :
    (p.setPartition txn part).Mirrors s' where
  healthy id := by
    rw [partition_setPartition]
    split
    · exact hpart.healthy
    · exact h.healthy id
  singleHealthy := hs.healthy
  timeout id := by
    rw [partition_setPartition, hs.config]
    split
    · rw [hpart.config]
      exact h.timeout txn
    · exact h.timeout id
  entries id := by
    rw [partition_setPartition, hs.entries]
    split
    · rename_i howner
      rw [hpart.entries, p.partition_congr howner, h.entries]
    · rename_i howner
      -- The record of another partition is not that of the transaction.
      rw [h.entries]
      split
      · rename_i r
        rw [if_neg]
        rw [htxn r rfl]
        exact fun heq => howner (by rw [heq])
      · rfl
  keys key := by
    rw [partition_setPartition, hs.keys]
    split
    · rename_i howner
      rw [hpart.keys, p.partition_congr howner, h.keys]
    · rename_i howner
      rw [h.keys, iff_or_self]
      rintro ⟨r, hr, hindexes⟩
      rw [LogRecord.id_of_indexes hindexes, htxn r hr] at howner
      exact absurd rfl howner
  placed i hi key hkey := by
    have hold : i < p.partitions.size := by
      simpa [setPartition] using hi
    rw [owner_setPartition]
    rw [getElem_setPartition p txn part hi hold] at hkey
    split at hkey
    · rename_i howner
      subst howner
      rcases (hpart.keys key).1 hkey with ⟨r, hr, hindexes⟩ | hkey
      · rw [LogRecord.id_of_indexes hindexes, htxn r hr]
      · exact h.placed _ _ key hkey
    · exact h.placed i _ key hkey
  stats := by
    rw [hs.stats, ← h.stats]
    exact p.stats_setPartition txn hpart.stats

/-- **A request** gets the same answer from both stores, and they hold the same afterwards. -/
theorem Mirrors.submit (h : p.Mirrors s) (now : Millis) (change : Change) :
    (p.submit now change).1 = (s.submit now change).1 ∧
      (p.submit now change).2.Mirrors (s.submit now change).2 := by
  obtain ⟨hanswer, hheeds⟩ := Store.heeds_submit (h.healthy change.txn) now change
  obtain ⟨hanswer', hheeds'⟩ := Store.heeds_submit h.singleHealthy now change
  have hverdict : (p.partition change.txn).ledger.verdict now change = s.ledger.verdict now change :=
    Ledger.verdict_congr (h.entries change.txn)
  rw [hverdict] at hanswer hheeds
  exact ⟨hanswer.trans hanswer'.symm, h.of_heeds hheeds hheeds' fun r => Ledger.txn_of_verdict⟩

variable {lower upper : Timestamp} {table : Option String}

/-- The active transactions of all partitions are merged in the order of the index. -/
theorem pairwise_active (p : PartitionedStore) :
    (p.active lower upper table).Pairwise fun a b => (compare a b).isLE = true := by
  refine List.pairwise_mergeSort (fun _ _ _ => Std.TransCmp.isLE_trans) (fun a b => ?_) _
  rw [show compare b a = (compare a b).swap from Std.OrientedCmp.eq_swap]
  cases compare a b <;> rfl

/-- Every key of an index is in the partition that owns its id. -/
def Placed (p : PartitionedStore) : Prop :=
  ∀ (i : Nat) (hi : i < p.partitions.size) key,
    key ∈ p.partitions[i].ledger.byBegin → (p.owner key.id).val = i

/-- No key is listed by two partitions. -/
theorem nodup_active (h : p.Placed) : (p.active lower upper table).Nodup := by
  refine (List.mergeSort_perm _ _).nodup_iff.2 (List.nodup_flatMap.2 ⟨fun part _ => ?_, ?_⟩)
  · exact part.ledger.nodup_active lower upper table
  · rw [List.pairwise_iff_getElem]
    intro i j hi hj hij key hkey hkey'
    rw [Array.getElem_toList] at hkey hkey'
    have howner := h i (by simpa using hi) key (Ledger.mem_active.1 hkey).1
    have howner' := h j (by simpa using hj) key (Ledger.mem_active.1 hkey').1
    omega

/-- A key is listed by the partition that owns its id. -/
theorem mem_active (h : p.Placed) {key : BeginKey} :
    key ∈ p.active lower upper table ↔ key ∈ (p.partition key.id).active lower upper table := by
  rw [active, List.mem_mergeSort, List.mem_flatMap]
  constructor
  · rintro ⟨part, hpart, hkey⟩
    obtain ⟨i, hi, rfl⟩ := List.getElem_of_mem hpart
    rw [Array.getElem_toList] at hkey
    have hsize : i < p.partitions.size := by simpa using hi
    obtain rfl : (p.owner key.id).val = i := h i hsize key (Ledger.mem_active.1 hkey).1
    exact hkey
  · exact fun hkey => ⟨p.partition key.id, Array.getElem_mem_toList _, hkey⟩

/-- **The active transactions of all partitions**, merged and sorted, are those of the single store. -/
theorem Mirrors.active_eq (h : p.Mirrors s) (lower upper : Timestamp) (table : Option String) :
    p.active lower upper table = s.active lower upper table := by
  have hsorted : (s.active lower upper table).Pairwise fun a b => (compare a b).isLE = true :=
    (s.ledger.pairwise_active lower upper table).imp fun hlt => by rw [hlt]; rfl
  refine List.Perm.eq_of_pairwise (fun a b _ _ hab hba => ?_) p.pairwise_active hsorted ?_
  · exact Std.LawfulEqCmp.eq_of_compare (Std.OrientedCmp.isLE_antisymm hab hba)
  · refine (List.perm_ext_iff_of_nodup (nodup_active h.placed)
      (s.ledger.nodup_active lower upper table)).2 fun key => ?_
    rw [mem_active h.placed, Store.active, Ledger.mem_active, Ledger.mem_active,
      h.keys, h.entries]

/-- **Empty stores** of either kind hold the same: nothing. -/
theorem mirrors_empty {config : StoreConfig} (hcount : 0 < config.partitions) :
    ∃ p, PartitionedStore.empty config = .ok p ∧ p.count = config.partitions ∧
      p.Mirrors (Store.empty config) := by
  have hsize : (List.replicate config.partitions (Store.empty config)).toArray.size =
      config.partitions := by simp
  refine ⟨⟨(List.replicate config.partitions (Store.empty config)).toArray, by rwa [hsize]⟩, ?_, hsize, ?_⟩
  · rw [PartitionedStore.empty, ofList, dif_pos (by rwa [hsize])]
  · have hpart : ∀ id, partition ⟨(List.replicate config.partitions (Store.empty config)).toArray,
        by rwa [hsize]⟩ id = Store.empty config := by
      intro id
      simp [partition]
    have hhealthy : (Store.empty config).log.Healthy := ⟨rfl, rfl⟩
    exact
      { healthy := fun id => by rwa [hpart]
        singleHealthy := hhealthy
        timeout := fun id => by rw [hpart]
        entries := fun id => by rw [hpart]
        keys := fun key => by rw [hpart]
        placed := fun i hi key hkey => by simp [Store.empty] at hkey
        stats := StoreStats.foldl_add_replicate config.partitions rfl {} }

end PartitionedStore

namespace TxnStore

variable {p : PartitionedStore} {s : Store}

/-- **One operation** gets the same reply from both stores, and they hold the same afterwards. -/
theorem answer_of_mirrors (h : p.Mirrors s) (now : Millis) (query : StoreQuery) :
    ((partitioned p).answer now query).1 = ((single s).answer now query).1 ∧
      ∃ p' s', ((partitioned p).answer now query).2 = partitioned p' ∧
        ((single s).answer now query).2 = single s' ∧ p'.Mirrors s' := by
  have hget : ∀ id, ((partitioned p).directory now).get id = ((single s).directory now).get id := by
    intro id
    have hfind : ((partitioned p).directory now).find? id = ((single s).directory now).find? id :=
      congrArg (Option.map Entry.view) (h.entries id)
    rw [Directory.get, Directory.get, hfind]
  cases query with
  | submit change =>
      obtain ⟨hanswer, hmirrors⟩ := h.submit now change
      exact ⟨congrArg StoreReply.submitted hanswer, _, _, rfl, rfl, hmirrors⟩
  | get id => exact ⟨congrArg StoreReply.found (hget id), p, s, rfl, rfl, h⟩
  | active lower upper table =>
      have hids : (partitioned p).activeIds lower upper table =
          (single s).activeIds lower upper table :=
        congrArg (List.map BeginKey.id) (h.active_eq lower upper table)
      exact ⟨congrArg StoreReply.active hids, p, s, rfl, rfl, h⟩
  | timedOut id =>
      have hexpired : ((partitioned p).directory now).isExpired id =
          ((single s).directory now).isExpired id := by
        show ((p.partition id).ledger.find? id).any _ = (s.ledger.find? id).any _
        rw [h.entries, h.timeout]
      refine ⟨congrArg StoreReply.timedOut ?_, p, s, rfl, rfl, h⟩
      rw [Directory.timedOut, Directory.timedOut, hget, hexpired]

/-- **All operations** do, and the counters agree in the end. -/
theorem answerAll_of_mirrors (h : p.Mirrors s) (queries : List (Millis × StoreQuery)) :
    ((partitioned p).answerAll queries).1 = ((single s).answerAll queries).1 ∧
      ((partitioned p).answerAll queries).2.stats = ((single s).answerAll queries).2.stats := by
  induction queries generalizing p s with
  | nil => exact ⟨rfl, h.stats⟩
  | cons first rest ih =>
      obtain ⟨now, query⟩ := first
      obtain ⟨hreply, p', s', hp', hs', hmirrors⟩ := answer_of_mirrors h now query
      obtain ⟨hreplies, hstats⟩ := ih hmirrors
      rw [answerAll, answerAll, hp', hs', hreply]
      exact ⟨congrArg (List.cons _) hreplies, hstats⟩

/-- **A partitioned store behaves as one store.**  For every number of partitions but zero: started
empty, a partitioned store and a single one give the same replies and the same errors, operation by
operation, to every list of operations under the same clock readings, if no device fails; and the
counters of all partitions together are those of the single store. -/
theorem answerAll_partitioned (config : StoreConfig) (hcount : 0 < config.partitions)
    (queries : List (Millis × StoreQuery)) :
    ∃ p, PartitionedStore.empty config = .ok p ∧ p.count = config.partitions ∧
      ((partitioned p).answerAll queries).1 = ((single (.empty config)).answerAll queries).1 ∧
      ((partitioned p).answerAll queries).2.stats =
        ((single (.empty config)).answerAll queries).2.stats := by
  obtain ⟨p, hempty, hsize, hmirrors⟩ := PartitionedStore.mirrors_empty hcount
  exact ⟨p, hempty, hsize, answerAll_of_mirrors hmirrors queries⟩

end TxnStore

namespace ThreePartitions

def config : StoreConfig := { partitions := 3 }

/-- Transactions of two partitions are recorded, the later one first, and one of them twice. -/
def queries : List (Millis × StoreQuery) :=
  [(0, .submit (.begin { id := ⟨1⟩, begin := ⟨7⟩ })), (0, .submit (.begin { id := ⟨2⟩, begin := ⟨3⟩ })),
    (1, .submit (.begin { id := ⟨1⟩, begin := ⟨8⟩ })), (1, .active .earliest .latest none)]

theorem stats_single :
    ((TxnStore.single (.empty config)).answerAll queries).2.stats =
      { begun := 2, protocolViolations := 1 } := by
  decide +kernel

end ThreePartitions

/-- Three partitions and one store, with what they count. -/
theorem answerAll_partitioned_three :
    0 < ThreePartitions.config.partitions ∧
      ∃ p, PartitionedStore.empty ThreePartitions.config = .ok p ∧ p.count = 3 ∧
        ((TxnStore.partitioned p).answerAll ThreePartitions.queries).1 =
          ((TxnStore.single (.empty ThreePartitions.config)).answerAll ThreePartitions.queries).1 ∧
        ((TxnStore.partitioned p).answerAll ThreePartitions.queries).2.stats =
          { begun := 2, protocolViolations := 1 } := by
  have hcount : 0 < ThreePartitions.config.partitions := by decide
  obtain ⟨p, hempty, hsize, hreplies, hstats⟩ :=
    TxnStore.answerAll_partitioned ThreePartitions.config hcount ThreePartitions.queries
  exact ⟨hcount, p, hempty, hsize, hreplies, hstats.trans ThreePartitions.stats_single⟩

end Multiversion
