import Multiversion.Proofs.Storage.Versions
import Multiversion.Proofs.Store.ActiveQuery

/-!
# The index after replay

Replay applies the records of a log without the guards of live requests.  If one transaction has several
begin records, as a begin leaves them that failed after its record was written and was repeated, the last
one of them overwrites the record, and the index keeps a key for each.  A query checks of a key only that
its transaction is active, so it also finds the transaction where it does not begin any more.

* `Ledger.mem_byBegin_replay` — the index holds the keys of all begin records on the log;
* `Ledger.Covered` — every record has its key among them;
* `Ledger.Rebegun` — an active transaction has another key too, where a query can find it;
* `Store.Exact` — queries list the active transactions that begin in their ranges, each once.

Main statement: `Store.openOn_active` — what queries list after a log was opened, whatever it holds; they
are exact if and only if no active transaction was begun again.
-/

namespace Multiversion

/-- The record that a log record leaves of its transaction has its key on the log, or began as the one
before it. -/
theorem LogRecord.begin_of_revise {r : LogRecord} {old : Option Entry} {e : Entry}
    (h : r.revise old = some e) :
    r.indexes = some ⟨e.view.begin, r.txn⟩ ∨ ∃ o, old = some o ∧ o.view.begin = e.view.begin := by
  cases r with
  | begin view aliveAt =>
      cases h
      exact .inl rfl
  | commit | rollback | globalCommit | keepAlive =>
      obtain ⟨o, rfl, rfl⟩ := Option.map_eq_some_iff.1 h
      exact .inr ⟨o, rfl, rfl⟩

namespace Ledger

variable {l l' : Ledger} {r : LogRecord} {rs : List LogRecord} {key : BeginKey}

/-- Every record has its key in the index. -/
def Covered (l : Ledger) : Prop :=
  ∀ id e, l.find? id = some e → (⟨e.view.begin, id⟩ : BeginKey) ∈ l.byBegin

/-- **Any record** that can be applied keeps the records covered. -/
theorem Covered.apply (h : l.Covered) (happly : l.apply r = .ok l') : l'.Covered := by
  intro id e hfind
  rw [(of_apply happly).1] at hfind
  rw [(of_apply happly).2]
  split at hfind
  · rename_i hid
    subst hid
    rcases LogRecord.begin_of_revise hfind with hkey | ⟨o, hold, hbegin⟩
    · exact .inl hkey
    · rw [← hbegin]
      exact .inr (h _ o hold)
  · exact .inr (h id e hfind)

theorem Covered.replay (h : l.Covered) (hreplay : l.replay rs = .ok l') : l'.Covered := by
  induction rs generalizing l with
  | nil =>
      cases hreplay
      exact h
  | cons r rest ih =>
      rw [Ledger.replay] at hreplay
      split at hreplay
      · rename_i happly
        exact ih (h.apply happly) hreplay
      · cases hreplay

/-- **The index after replay** holds the keys of all begin records, and those that it held before. -/
theorem mem_byBegin_replay (hreplay : l.replay rs = .ok l') :
    key ∈ l'.byBegin ↔ key ∈ rs.filterMap LogRecord.indexes ∨ key ∈ l.byBegin := by
  induction rs generalizing l with
  | nil =>
      cases hreplay
      simp
  | cons r rest ih =>
      rw [Ledger.replay] at hreplay
      split at hreplay
      · rename_i happly
        rw [ih hreplay, (of_apply happly).2, List.filterMap_cons]
        cases r.indexes with
        | none => simp
        | some first => simp only [Option.some.injEq, List.mem_cons, eq_comm, or_assoc, or_left_comm]
      · cases hreplay

/-- An active transaction stands on the log with another begin timestamp than in its record, and with one
that a query can ask for. -/
def Rebegun (l : Ledger) (rs : List LogRecord) (id : TxnId) : Prop :=
  ∃ e ts, l.find? id = some e ∧ e.view.phase = .active ∧
    (⟨ts, id⟩ : BeginKey) ∈ rs.filterMap LogRecord.indexes ∧ ts ≠ e.view.begin ∧ ts < .latest

end Ledger

namespace Store

/-- Queries list the active transactions that begin in their ranges, each once. -/
structure Exact (s : Store) : Prop where
  once : ∀ lower upper table, ((TxnStore.single s).activeIds lower upper table).Nodup
  within : ∀ lower upper table id, id ∈ (TxnStore.single s).activeIds lower upper table ↔
    ∃ e, s.ledger.find? id = some e ∧ e.view.ActiveWithin lower upper table

theorem mem_activeIds {s : Store} {lower upper : Timestamp} {table : Option String} {id : TxnId} :
    id ∈ (TxnStore.single s).activeIds lower upper table ↔
      ∃ ts, (⟨ts, id⟩ : BeginKey) ∈ s.active lower upper table := by
  rw [TxnStore.activeIds, List.mem_map]
  constructor
  · rintro ⟨key, hkey, rfl⟩
    exact ⟨key.begin, hkey⟩
  · rintro ⟨ts, hkey⟩
    exact ⟨_, hkey, rfl⟩

variable {s : Store} {rs : List LogRecord}

/-- What queries list after a replay. -/
theorem mem_active_replay (hreplay : Ledger.replay {} rs = .ok s.ledger) {lower upper : Timestamp}
    {table : Option String} {key : BeginKey} :
    key ∈ s.active lower upper table ↔ key ∈ rs.filterMap LogRecord.indexes ∧
      ∃ e, s.ledger.find? key.id = some e ∧
        { e.view with begin := key.begin : View }.ActiveWithin lower upper table := by
  rw [active, Ledger.mem_active_iff, Ledger.mem_byBegin_replay hreplay]
  simp

/-- If nothing was begun again, a query finds each transaction where its record begins. -/
theorem begin_eq_of_active (hreplay : Ledger.replay {} rs = .ok s.ledger)
    (hnone : ∀ id, ¬ s.ledger.Rebegun rs id) {lower upper : Timestamp} {table : Option String}
    {key : BeginKey} (hkey : key ∈ s.active lower upper table) :
    ∃ e, s.ledger.find? key.id = some e ∧ key.begin = e.view.begin := by
  obtain ⟨hlogged, e, hfind, hwithin⟩ := (mem_active_replay hreplay).1 hkey
  refine ⟨e, hfind, ?_⟩
  by_contra hne
  have hasked : key.begin < .latest := Timestamp.lt_of_lt_of_le hwithin.upper (Timestamp.le_latest _)
  exact hnone key.id ⟨e, key.begin, hfind, hwithin.active, hlogged, hne, hasked⟩

theorem exact_of_not_rebegun (hreplay : Ledger.replay {} rs = .ok s.ledger)
    (hnone : ∀ id, ¬ s.ledger.Rebegun rs id) : s.Exact := by
  have hempty : Ledger.Covered {} := fun id e h => by simp [Ledger.find?] at h
  have hcovered : s.ledger.Covered := hempty.replay hreplay
  constructor
  · intro lower upper table
    refine List.Nodup.map_on (fun a ha b hb hid => ?_) (s.ledger.nodup_active lower upper table)
    obtain ⟨e, hfind, hbegin⟩ := begin_eq_of_active hreplay hnone ha
    obtain ⟨e', hfind', hbegin'⟩ := begin_eq_of_active hreplay hnone hb
    rw [hid] at hfind
    cases hfind.symm.trans hfind'
    cases a; cases b
    simp_all
  · intro lower upper table id
    rw [mem_activeIds]
    constructor
    · rintro ⟨ts, hkey⟩
      obtain ⟨e, hfind, hbegin⟩ := begin_eq_of_active hreplay hnone hkey
      obtain ⟨-, e', hfind', hwithin⟩ := (mem_active_replay hreplay).1 hkey
      cases hfind.symm.trans hfind'
      rw [hbegin] at hwithin
      exact ⟨e, hfind, hwithin⟩
    · rintro ⟨e, hfind, hwithin⟩
      exact ⟨e.view.begin, Ledger.mem_active_iff.2 ⟨hcovered id e hfind, e, hfind, hwithin⟩⟩

/-- A transaction that was begun again is found where it does not begin: just before it, or just from the
other timestamp on. -/
theorem Exact.not_rebegun (h : s.Exact) (hreplay : Ledger.replay {} rs = .ok s.ledger) (id : TxnId) :
    ¬ s.ledger.Rebegun rs id := by
  rintro ⟨e, ts, hfind, hactive, hlogged, hne, hasked⟩
  have hlisted : ∀ upper, ts < upper → ts ≤ e.view.begin ∧ e.view.begin < upper := by
    intro upper hupper
    have hkey : (⟨ts, id⟩ : BeginKey) ∈ s.active ts upper none :=
      (mem_active_replay hreplay).2
        ⟨hlogged, e, hfind, hactive, Timestamp.le_refl ts, hupper, fun _ h => nomatch h⟩
    obtain ⟨e', hfind', hwithin⟩ := (h.within ts upper none id).1 (mem_activeIds.2 ⟨ts, hkey⟩)
    cases hfind.symm.trans hfind'
    exact ⟨hwithin.lower, hwithin.upper⟩
  have hbefore : ts < e.view.begin :=
    Timestamp.lt_of_le_of_ne (hlisted .latest hasked).1 hne
  exact Timestamp.not_lt.2 (Timestamp.le_refl _) (hlisted e.view.begin hbefore).2

/-- A store that was opened holds what the log of its device replays to. -/
theorem replay_of_openOn {config : StoreConfig} {device device' : Device} {store : Store}
    (hopen : openOn device config = (.ok store, device')) :
    ∃ records, ({ device, syncOnWrite := config.syncOnCommit } : Log).readAll = .ok records ∧
      Ledger.replay {} (records.map Prod.snd) = .ok store.ledger := by
  unfold openOn at hopen
  dsimp only at hopen
  split at hopen
  · cases hopen
  rename_i records log hrecover
  split at hopen
  · cases hopen
  rename_i ledger hreplay
  cases hopen
  refine ⟨records, ?_, hreplay⟩
  -- Recovery gives what reading the log gives, and cuts off the rest.
  unfold Log.recover at hrecover
  unfold Log.readAll
  split at hrecover
  · cases hrecover
  rename_i scanned stop hscan
  rw [hscan]
  split at hrecover
  · split at hrecover
    · cases hrecover
    · cases hrecover
      rfl
  · cases hrecover
    rfl

/-- **What queries list after a log was opened**, whatever the log holds: the keys of all begin records on
it whose transactions are active in the end, and no others.  Queries are exact if and only if no active
transaction was begun again at another timestamp that a query can ask for. -/
theorem openOn_active {config : StoreConfig} {device device' : Device} {store : Store}
    (hopen : openOn device config = (.ok store, device')) :
    ∃ records, ({ device, syncOnWrite := config.syncOnCommit } : Log).readAll = .ok records ∧
      (∀ lower upper table key, key ∈ store.active lower upper table ↔
        key ∈ (records.map Prod.snd).filterMap LogRecord.indexes ∧
          ∃ e, store.ledger.find? key.id = some e ∧
            { e.view with begin := key.begin : View }.ActiveWithin lower upper table) ∧
      (store.Exact ↔ ∀ id, ¬ store.ledger.Rebegun (records.map Prod.snd) id) := by
  obtain ⟨records, hread, hreplay⟩ := replay_of_openOn hopen
  exact ⟨records, hread, fun _ _ _ _ => mem_active_replay hreplay,
    fun h => h.not_rebegun hreplay, exact_of_not_rebegun hreplay⟩

end Store

namespace RetriedBegin

/-- The begin of a transaction fails after its record was written, and is repeated with a later
timestamp. -/
def calls : List Call :=
  [{ faults := { sync := true }, change := .begin { id := ⟨1⟩, begin := ⟨1⟩ } },
    { change := .begin { id := ⟨1⟩, begin := ⟨2⟩ } }]

/-- The records that the two calls leave. -/
def records : List LogRecord :=
  [.begin { id := ⟨1⟩, begin := ⟨1⟩ } 0, .begin { id := ⟨1⟩, begin := ⟨2⟩ } 0]

/-- What the records replay to. -/
def ledger : Ledger where
  entries := (∅ : Std.ExtTreeMap TxnId Entry compare).insert ⟨1⟩ ⟨{ id := ⟨1⟩, begin := ⟨1⟩ }, 0⟩
    |>.insert ⟨1⟩ ⟨{ id := ⟨1⟩, begin := ⟨2⟩ }, 0⟩
  byBegin := (∅ : Std.ExtTreeSet BeginKey compare).insert ⟨⟨1⟩, ⟨1⟩⟩ |>.insert ⟨⟨2⟩, ⟨1⟩⟩

/-- The device after the calls. -/
def device : Device := .ofBytes ((Store.empty {}).runCalls calls).log.device.bytes

theorem untorn : ∀ c ∈ calls, c.faults.tear = none := by
  decide

theorem record_marks : ((Store.empty {}).marks calls).map Mark.record = records := by
  decide +kernel

theorem recovers : Store.Recovers {} ((Store.empty {}).runCalls calls).log.device.bytes ledger := by
  obtain ⟨logged, htracked⟩ := Store.tracked_runCalls (Store.tracked_empty {}) untorn
  have hreplay := htracked.replay
  rw [List.nil_append, record_marks] at hreplay
  obtain rfl : ledger = logged := Except.ok.inj hreplay
  exact htracked.recovers {}

theorem find?_ledger : ledger.find? ⟨1⟩ = some ⟨{ id := ⟨1⟩, begin := ⟨2⟩ }, 0⟩ := by
  decide +kernel

/-- The transaction is found twice. -/
theorem active_ledger : ledger.active .earliest .latest none = [⟨⟨1⟩, ⟨1⟩⟩, ⟨⟨2⟩, ⟨1⟩⟩] := by
  decide +kernel

end RetriedBegin

/-- After a begin that failed and was repeated, the listing of the opened store shows the key of each of the
two records, so both are on the log and queries are not exact. -/
theorem openOn_active_retriedBegin :
    ∃ store, Store.openOn RetriedBegin.device {} = (.ok store, store.log.device) ∧ ¬ store.Exact := by
  obtain ⟨store, hopen, hledger⟩ := RetriedBegin.recovers
  obtain ⟨records, -, hlisted, hexact⟩ := Store.openOn_active hopen
  refine ⟨store, hopen, fun h => hexact.1 h ⟨1⟩ ?_⟩
  have hfirst : (⟨⟨1⟩, ⟨1⟩⟩ : BeginKey) ∈ store.active .earliest .latest none := by
    rw [Store.active, hledger, RetriedBegin.active_ledger]
    exact List.mem_cons_self
  have hfind := RetriedBegin.find?_ledger
  rw [← hledger] at hfind
  exact ⟨_, ⟨1⟩, hfind, rfl, ((hlisted _ _ _ _).1 hfirst).1, by decide, by decide⟩

/-- **Queries are not exact for every log that can be opened**: of a transaction whose begin was repeated
with another timestamp, the id is listed twice, and in a range in which its record does not begin. -/
theorem not_exact_of_openOn :
    ¬ ∀ (config : StoreConfig) (device device' : Device) (store : Store),
      Store.openOn device config = (.ok store, device') →
      ∀ lower upper : Timestamp,
        ((TxnStore.single store).activeIds lower upper none).Nodup ∧
        ∀ id e, store.ledger.find? id = some e → e.view.phase = .active →
          (id ∈ (TxnStore.single store).activeIds lower upper none ↔
            lower ≤ e.view.begin ∧ e.view.begin < upper) := by
  intro h
  obtain ⟨store, hopen, hledger⟩ := RetriedBegin.recovers
  obtain ⟨hnodup, -⟩ := h {} _ _ store hopen .earliest .latest
  have hids : (TxnStore.single store).activeIds .earliest .latest none = [⟨1⟩, ⟨1⟩] := by
    show (store.ledger.active .earliest .latest none).map BeginKey.id = _
    rw [hledger, RetriedBegin.active_ledger]
    rfl
  rw [hids] at hnodup
  simp at hnodup

end Multiversion
