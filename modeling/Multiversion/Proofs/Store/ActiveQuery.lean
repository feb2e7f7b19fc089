import Multiversion.Proofs.Store.Calls
import Multiversion.Proofs.Store.Partitions

/-!
# The query for active transactions

Active transactions are looked up in an index by begin timestamp that is never shrunk, and each key that
is found there is checked against the record of its transaction.  A transaction is recorded once, and keeps
its begin timestamp, so the index holds exactly one key for each record, whatever the devices under the
logs do.

* `Ledger.Indexed` — the keys of the index are the begin timestamps of the records;
* `TxnStore.Indexed` — the same for all partitions, each of which holds the ids that it owns;
* `View.ActiveWithin` — the transactions that a query asks for.

Main statement: `TxnStore.activeIds_runCalls` — along every run from an empty store, the query lists
exactly these, each once, by begin timestamp and id.
-/

namespace Multiversion

/-- An active transaction that has begun in `[lower, upper)` and, if a table is given, lists it among those
that it writes to. -/
structure View.ActiveWithin (v : View) (lower upper : Timestamp) (table : Option String) : Prop where
  active : v.phase = .active
  lower : lower ≤ v.begin
  upper : v.begin < upper
  writes : ∀ name ∈ table, name ∈ v.tables

namespace Change.Accepted

variable {now : Millis} {change : Change} {old : Option Entry} {e : Entry}

/-- **What an accepted request adds to the index**: the key of a new record; a record that is changed
keeps its begin timestamp. -/
theorem indexes_cases (h : Accepted now change old e) :
    (old = none ∧ (change.record now).indexes = some ⟨e.view.begin, change.txn⟩) ∨
      ∃ o, old = some o ∧ o.view.begin = e.view.begin ∧ (change.record now).indexes = none := by
  cases h with
  | begin _ _ => exact .inl ⟨rfl, rfl⟩
  | commit | rollback | globalCommit | keepAlive => exact .inr ⟨_, rfl, rfl, rfl⟩

end Change.Accepted

namespace Ledger

variable {l l' : Ledger} {now : Millis} {change : Change} {r : LogRecord}
variable {lower upper : Timestamp} {table : Option String} {key : BeginKey}

/-- The keys of the index are the begin timestamps of the records. -/
def Indexed (l : Ledger) : Prop :=
  ∀ key, key ∈ l.byBegin ↔ ∃ e, l.find? key.id = some e ∧ e.view.begin = key.begin

theorem indexed_empty : Indexed {} := by
  intro key
  simp [find?]

/-- **An accepted request** keeps the index in step with the records. -/
theorem Indexed.apply (h : l.Indexed) (hdecide : l.decide now change = .ok (some r))
    (happly : l.apply r = .ok l') : l'.Indexed := by
  obtain ⟨e, _, haccepted, happly', hfind⟩ := apply_of_decide hdecide
  cases Except.ok.inj (happly.symm.trans happly')
  obtain rfl := record_of_decide hdecide
  intro key
  rw [(of_apply happly).2, hfind, h key]
  rcases haccepted.indexes_cases with ⟨hnone, hindexes⟩ | ⟨o, hold, hbegin, hindexes⟩
  · rw [hindexes, Option.some.injEq]
    split
    · rename_i hid
      -- There was no record of this transaction, hence no key.
      obtain ⟨begin, id⟩ := key
      obtain rfl : change.txn = id := hid
      simp [hnone]
    · rename_i hid
      refine or_iff_right fun hkey => hid ?_
      rw [← hkey]
  · rw [hindexes]
    split
    · rename_i hid
      rw [← hid, hold]
      simp [hbegin]
    · simp

/-- What a query lists of one table of records: the keys whose transaction, taken to have begun where the
key says, is one that the query asks for. -/
theorem mem_active_iff :
    key ∈ l.active lower upper table ↔ key ∈ l.byBegin ∧ ∃ e, l.find? key.id = some e ∧
      { e.view with begin := key.begin : View }.ActiveWithin lower upper table := by
  have hwanted : ∀ e : Entry,
      (lower ≤ key.begin && key.begin < upper && (e.view.isActive && table.all e.view.writesTo)) = true ↔
        { e.view with begin := key.begin : View }.ActiveWithin lower upper table := by
    intro e
    simp only [Bool.and_eq_true, decide_eq_true_eq, View.isActive, View.writesTo, Option.all_eq_true,
      List.contains_iff_mem]
    constructor
    · rintro ⟨⟨hlower, hupper⟩, hactive, hwrites⟩
      exact ⟨hactive, hlower, hupper, hwrites⟩
    · rintro ⟨hactive, hlower, hupper, hwrites⟩
      exact ⟨⟨hlower, hupper⟩, hactive, hwrites⟩
  rw [Ledger.mem_active]
  cases l.find? key.id with
  | none => simp
  | some e => simp only [Option.any_some, hwanted, Option.some.injEq, exists_eq_left']

/-- If the index is in step with the records, a query lists the keys of those that it asks for. -/
theorem Indexed.mem_active (h : l.Indexed) :
    key ∈ l.active lower upper table ↔
      ∃ e, l.find? key.id = some e ∧ e.view.begin = key.begin ∧ e.view.ActiveWithin lower upper table := by
  rw [mem_active_iff, h key]
  constructor
  · rintro ⟨⟨e, hfind, hbegin⟩, e', hfind', hwithin⟩
    cases hfind.symm.trans hfind'
    rw [← hbegin] at hwithin
    exact ⟨e, hfind, hbegin, hwithin⟩
  · rintro ⟨e, hfind, hbegin, hwithin⟩
    refine ⟨⟨e, hfind, hbegin⟩, e, hfind, ?_⟩
    rwa [← hbegin]

end Ledger

namespace Store

/-- A request adds no key but that of its transaction. -/
theorem id_of_submit (s : Store) (now : Millis) (change : Change) {key : BeginKey}
    (h : key ∈ (s.submit now change).2.ledger.byBegin) :
    key.id = change.txn ∨ key ∈ s.ledger.byBegin := by
  rcases s.submit_cases now change with hsame | ⟨r, l', hdecide, happly, hledger⟩
  · exact .inr (hsame ▸ h)
  · rw [hledger] at h
    refine ((Ledger.of_apply happly).2 key).1 h |>.imp_left fun hindexes => ?_
    rw [LogRecord.id_of_indexes hindexes, Ledger.record_of_decide hdecide]
    cases change <;> rfl

theorem indexed_submit {s : Store} (h : s.ledger.Indexed) (now : Millis) (change : Change) :
    (s.submit now change).2.ledger.Indexed := by
  rcases s.submit_cases now change with hsame | ⟨r, l', hdecide, happly, hledger⟩
  · rwa [hsame]
  · rw [hledger]
    exact h.apply hdecide happly

end Store

namespace PartitionedStore

variable {p : PartitionedStore}

/-- Every partition has its index in step with its records, and holds the ids that it owns. -/
structure Indexed (p : PartitionedStore) : Prop where
  parts : ∀ (i : Nat) (hi : i < p.partitions.size), p.partitions[i].ledger.Indexed
  placed : p.Placed

theorem Indexed.submit (h : p.Indexed) (now : Millis) (change : Change) :
    (p.submit now change).2.Indexed := by
  have hsize : ∀ {i}, i < (p.submit now change).2.partitions.size → i < p.partitions.size := by
    intro i hi
    simpa [PartitionedStore.submit, setPartition] using hi
  have hpart : ∀ i (hi : i < (p.submit now change).2.partitions.size) (hi' : i < p.partitions.size),
      (p.submit now change).2.partitions[i] =
        if (p.owner change.txn).val = i then ((p.partition change.txn).submit now change).2
        else p.partitions[i] :=
    fun i hi hi' => getElem_setPartition p change.txn _ hi hi'
  constructor
  · intro i hi
    rw [hpart i hi (hsize hi)]
    split
    · exact Store.indexed_submit (h.parts _ (p.owner change.txn).isLt) now change
    · exact h.parts i (hsize hi)
  · intro i hi key hkey
    rw [hpart i hi (hsize hi)] at hkey
    refine (owner_setPartition p change.txn key.id _).trans ?_
    split at hkey
    · rename_i howner
      rcases Store.id_of_submit _ now change hkey with hid | hkey
      · rw [hid, howner]
      · rw [← howner]
        exact h.placed _ (p.owner change.txn).isLt key hkey
    · exact h.placed i (hsize hi) key hkey

end PartitionedStore

namespace TxnStore

variable {t : TxnStore} {lower upper : Timestamp} {table : Option String}

/-- One call on a store of either kind, with what its devices do wrong meanwhile. -/
def call (t : TxnStore) (c : Call) : Except TxnError Bool × TxnStore :=
  (t.mapDevices fun device => { device with faults := c.faults }).submit c.now c.change

/-- The store after a list of calls. -/
def runCalls (t : TxnStore) : List Call → TxnStore
  | [] => t
  | c :: rest => (t.call c).2.runCalls rest

/-- The active transactions that a query finds, with their begin timestamps. -/
def activeKeys (t : TxnStore) (lower upper : Timestamp) (table : Option String) : List BeginKey :=
  match t with
  | single s => s.active lower upper table
  | partitioned p => p.active lower upper table

theorem activeIds_eq (t : TxnStore) :
    t.activeIds lower upper table = (t.activeKeys lower upper table).map BeginKey.id := by
  cases t <;> rfl

/-- The index of every partition is in step with its records. -/
def Indexed : TxnStore → Prop
  | single s => s.ledger.Indexed
  | partitioned p => p.Indexed

theorem indexed_of_empty (h : ∀ s ∈ t.parts, s.ledger = {}) : t.Indexed := by
  cases t with
  | single s =>
      show s.ledger.Indexed
      rw [h s (List.mem_singleton.2 rfl)]
      exact Ledger.indexed_empty
  | partitioned p =>
      have hempty : ∀ (i : Nat) (hi : i < p.partitions.size), p.partitions[i].ledger = {} :=
        fun i hi => h _ (Array.getElem_mem_toList hi)
      constructor
      · intro i hi
        rw [hempty i hi]
        exact Ledger.indexed_empty
      · intro i hi key hkey
        simp [hempty i hi] at hkey

/-- **One call** keeps the index in step, whether it succeeds or fails. -/
theorem Indexed.call (h : t.Indexed) (c : Call) : (t.call c).2.Indexed := by
  cases t with
  | single s =>
      show (s.call c).2.ledger.Indexed
      refine Store.indexed_submit ?_ c.now c.change
      exact h
  | partitioned p =>
      refine PartitionedStore.Indexed.submit ⟨fun i hi => ?_, fun i hi key hkey => ?_⟩ c.now c.change
      · rw [Array.getElem_map]
        exact h.parts i (by simpa using hi)
      · rw [Array.getElem_map] at hkey
        have howner := h.placed i (by simpa using hi) key hkey
        simpa [PartitionedStore.owner] using howner

theorem Indexed.runCalls (h : t.Indexed) (calls : List Call) : (t.runCalls calls).Indexed := by
  induction calls generalizing t with
  | nil => exact h
  | cons c rest ih => exact ih (h.call c)

/-- **What a query lists**: the keys of the records that it asks for. -/
theorem Indexed.mem_activeKeys (h : t.Indexed) {key : BeginKey} :
    key ∈ t.activeKeys lower upper table ↔
      ∃ e, t.find? key.id = some e ∧ e.view.begin = key.begin ∧ e.view.ActiveWithin lower upper table := by
  cases t with
  | single s => exact Ledger.Indexed.mem_active h
  | partitioned p =>
      refine (PartitionedStore.mem_active h.placed).trans ?_
      exact Ledger.Indexed.mem_active (h.parts _ (p.owner key.id).isLt)

/-- The keys are listed in strictly ascending order. -/
theorem Indexed.pairwise_activeKeys (h : t.Indexed) :
    (t.activeKeys lower upper table).Pairwise fun a b => compare a b = .lt := by
  cases t with
  | single s => exact s.ledger.pairwise_active lower upper table
  | partitioned p =>
      refine p.pairwise_active.imp₂ (fun a b hle hne => ?_) (PartitionedStore.nodup_active h.placed)
      cases hab : compare a b with
      | lt => rfl
      | eq => exact absurd (Std.LawfulEqCmp.eq_of_compare hab) hne
      | gt => simp [hab] at hle

/-- **The query for active transactions is exact.**  Along every run from a store without records, of
either kind, whatever its devices do: the query lists the ids of those records that are active, have begun
in `[lower, upper)` and, if a table is given, list it, and no others; each id once, by begin timestamp and
id; and nothing if the interval is empty. -/
theorem activeIds_runCalls {t : TxnStore} (hempty : ∀ s ∈ t.parts, s.ledger = {}) (calls : List Call)
    (lower upper : Timestamp) (table : Option String) :
    let ran := t.runCalls calls
    let ids := ran.activeIds lower upper table
    (∀ id, id ∈ ids ↔ ∃ e, ran.find? id = some e ∧ e.view.ActiveWithin lower upper table) ∧
      ids.Nodup ∧
      ids.Pairwise (fun a b => ∃ e e', ran.find? a = some e ∧ ran.find? b = some e' ∧
        (e.view.begin < e'.view.begin ∨ e.view.begin = e'.view.begin ∧ a.val < b.val)) ∧
      (upper ≤ lower → ids = []) := by
  intro ran ids
  have hindexed : ran.Indexed := (indexed_of_empty hempty).runCalls calls
  have hkeys : ids = (ran.activeKeys lower upper table).map BeginKey.id := ran.activeIds_eq
  have hmem : ∀ id, id ∈ ids ↔ ∃ e, ran.find? id = some e ∧ e.view.ActiveWithin lower upper table := by
    intro id
    rw [hkeys, List.mem_map]
    constructor
    · rintro ⟨key, hkey, rfl⟩
      obtain ⟨e, hfind, -, hwithin⟩ := hindexed.mem_activeKeys.1 hkey
      exact ⟨e, hfind, hwithin⟩
    · rintro ⟨e, hfind, hwithin⟩
      exact ⟨⟨e.view.begin, id⟩, hindexed.mem_activeKeys.2 ⟨e, hfind, rfl, hwithin⟩, rfl⟩
  have hordered : ids.Pairwise fun a b => ∃ e e', ran.find? a = some e ∧ ran.find? b = some e' ∧
      (e.view.begin < e'.view.begin ∨ e.view.begin = e'.view.begin ∧ a.val < b.val) := by
    rw [hkeys, List.pairwise_map]
    refine hindexed.pairwise_activeKeys.imp_of_mem fun {a b} ha hb hlt => ?_
    obtain ⟨e, hfind, hbegin, -⟩ := hindexed.mem_activeKeys.1 ha
    obtain ⟨e', hfind', hbegin', -⟩ := hindexed.mem_activeKeys.1 hb
    rw [BeginKey.compare_eq_lt_iff, ← hbegin, ← hbegin'] at hlt
    exact ⟨e, e', hfind, hfind', hlt⟩
  refine ⟨hmem, hordered.imp ?_, hordered, fun hle => ?_⟩
  · rintro a _ ⟨e, e', hfind, hfind', hlt⟩ rfl
    cases hfind.symm.trans hfind'
    rcases hlt with hlt | ⟨-, hlt⟩
    · exact absurd hlt (UInt64.lt_irrefl _)
    · exact absurd hlt (UInt64.lt_irrefl _)
  · refine List.eq_nil_iff_forall_not_mem.2 fun id hid => ?_
    obtain ⟨e, -, -, hlower, hupper, -⟩ := (hmem id).1 hid
    exact absurd (UInt64.lt_of_lt_of_le hupper (UInt64.le_trans hle hlower)) (UInt64.lt_irrefl _)

end TxnStore

namespace ThreeBegins

/-- Three empty partitions. -/
def store : TxnStore := .partitioned ⟨#[.empty {}, .empty {}, .empty {}], by decide⟩

/-- Three transactions begin, the latest one first; one commits, and the rollback of another one fails
because its log cannot be synced. -/
def calls : List Call :=
  [{ change := .begin { id := ⟨1⟩, begin := ⟨7⟩, tables := ["orders"] } },
    { change := .begin { id := ⟨2⟩, begin := ⟨3⟩ } }, { change := .begin { id := ⟨3⟩, begin := ⟨5⟩ } },
    { faults := { sync := true }, change := .rollback ⟨2⟩ }, { change := .commit ⟨3⟩ ⟨6⟩ }]

/-- The records at the end of the run. -/
theorem find?_runCalls :
    (store.runCalls calls).find? ⟨1⟩ = some ⟨{ id := ⟨1⟩, begin := ⟨7⟩, tables := ["orders"] }, 0⟩ ∧
      (store.runCalls calls).find? ⟨2⟩ = some ⟨{ id := ⟨2⟩, begin := ⟨3⟩ }, 0⟩ ∧
      ((store.runCalls calls).find? ⟨3⟩).map (·.view.phase) = some .committed := by
  decide +kernel

end ThreeBegins

/-- Of three transactions that have begun one has committed.  The query lists the two others, and for the
table of one of them it lists that one. -/
theorem activeIds_runCalls_threeBegins :
    let ran := ThreeBegins.store.runCalls ThreeBegins.calls
    (∀ s ∈ ThreeBegins.store.parts, s.ledger = {}) ∧
      ⟨2⟩ ∈ ran.activeIds .earliest .latest none ∧ ⟨1⟩ ∈ ran.activeIds .earliest .latest none ∧
      ⟨3⟩ ∉ ran.activeIds .earliest .latest none ∧
      ⟨1⟩ ∈ ran.activeIds .earliest .latest (some "orders") ∧
      ⟨2⟩ ∉ ran.activeIds .earliest .latest (some "orders") := by
  intro ran
  have hempty : ∀ s ∈ ThreeBegins.store.parts, s.ledger = {} := by
    simp [ThreeBegins.store, TxnStore.parts, Store.empty]
  obtain ⟨hfirst, hsecond, hthird⟩ := ThreeBegins.find?_runCalls
  have hlisted := fun id table =>
    (TxnStore.activeIds_runCalls hempty ThreeBegins.calls .earliest .latest table).1 id
  refine ⟨hempty, (hlisted _ _).2 ⟨_, hsecond, rfl, by decide, by decide, by simp⟩,
    (hlisted _ _).2 ⟨_, hfirst, rfl, by decide, by decide, by simp⟩, fun hmem => ?_,
    (hlisted _ _).2 ⟨_, hfirst, rfl, by decide, by decide, by simp⟩, fun hmem => ?_⟩
  · obtain ⟨e, hfind, hwithin⟩ := (hlisted _ _).1 hmem
    rw [hfind, Option.map_some, Option.some.injEq, hwithin.active] at hthird
    cases hthird
  · obtain ⟨e, hfind, hwithin⟩ := (hlisted _ _).1 hmem
    cases hfind.symm.trans hsecond
    exact absurd (hwithin.writes "orders" rfl) (List.not_mem_nil)

end Multiversion
