import Multiversion.Store.TxnStore

/-!
# What a request does to the records of a store

A store of either kind is seen here as one map from ids to records (`TxnStore.find?`).  The whole
effect of a request on that map is said once:

* `Change.Accepted` — the requests that change something, and the record that they leave;
* `TxnStore.submit_cases` — a request leaves every record alone, or it is accepted and changes the
  record of its own transaction only;
* `TxnStore.directory_submit` — the same for the table that readers look at.

A store whose log device fails belongs to the first case, so the later invariants need no assumption
about devices.
-/

namespace Multiversion

/-- The requests that leave a new record, with the record before and after. -/
inductive Change.Accepted (now : Millis) : Change → Option Entry → Entry → Prop
  | begin {view : View} (hactive : view.phase = .active) (hcommit : view.commit = none) :
      Accepted now (.begin view) none ⟨{ view with globalCommit := none }, now⟩
  | commit {id : TxnId} {ts : Timestamp} {e : Entry} (hactive : e.view.phase = .active)
      (hbegin : ¬ ts < e.view.begin) :
      Accepted now (.commit id ts) (some e)
        { e with view := { e.view with phase := .committed, commit := some ts } }
  | rollback {id : TxnId} {e : Entry} (hactive : e.view.phase = .active) :
      Accepted now (.rollback id) (some e) { e with view := { e.view with phase := .rolledBack } }
  | globalCommit {id : TxnId} {ts : Timestamp} {e : Entry} (hcommitted : e.view.phase = .committed)
      (hnone : e.view.globalCommit = none) :
      Accepted now (.globalCommit id ts) (some e)
        { e with view := { e.view with globalCommit := some ts } }
  | keepAlive {id : TxnId} {e : Entry} (hactive : e.view.phase = .active) :
      Accepted now (.keepAlive id) (some e) { e with lastAlive := now }

namespace Ledger

theorem get_eq_ok_iff {l : Ledger} {id : TxnId} {e : Entry} :
    l.get id = .ok e ↔ l.find? id = some e := by
  unfold get
  cases l.find? id <;> simp

theorem find?_begin (l : Ledger) (view : View) (now : Millis) (other : TxnId) :
    Ledger.find? { entries := l.entries.insert view.id ⟨view, now⟩
                   byBegin := l.byBegin.insert ⟨view.begin, view.id⟩ } other =
      if view.id = other then some ⟨view, now⟩ else l.find? other := by
  simp [find?, Std.ExtTreeMap.getElem?_insert]

theorem amend_eq_ok {l : Ledger} {id : TxnId} {e : Entry} (h : l.find? id = some e)
    (change : Entry → Entry) : l.amend id change = .ok (l.put id (change e)) := by
  simp [amend, h]

/-- A decision on a record was taken on a record that exists. -/
theorem of_bind_get {l : Ledger} {id : TxnId} {judge : View → Except TxnError (Option LogRecord)}
    {r : LogRecord} (h : (do judge (← l.get id).view) = Except.ok (some r)) :
    ∃ e, l.find? id = some e ∧ judge e.view = .ok (some r) := by
  cases hget : l.get id with
  | error err => simp [hget, bind, Except.bind] at h
  | ok e =>
      simp only [hget, bind, Except.bind] at h
      exact ⟨e, get_eq_ok_iff.1 hget, h⟩

/-- A log record that the table decides on is applied without fail: the request was accepted, and the
record of its transaction is the only one that changes. -/
theorem apply_of_decide {l : Ledger} {now : Millis} {change : Change} {r : LogRecord}
    (h : l.decide now change = .ok (some r)) :
    ∃ e l', Change.Accepted now change (l.find? change.txn) e ∧ l.apply r = .ok l' ∧
      ∀ id, l'.find? id = if change.txn = id then some e else l.find? id := by
  cases change with
  | begin view =>
      simp only [decide, decideBegin] at h
      split at h
      · contradiction
      · rename_i hfresh
        split at h
        · contradiction
        · rename_i hnone
          cases h
          simp only [Bool.or_eq_true, Bool.not_eq_true', not_or, Bool.not_eq_false,
            Option.not_isSome_iff_eq_none, View.isActive, decide_eq_true_eq] at hfresh hnone
          refine ⟨_, _, ?_, rfl, find?_begin l _ now⟩
          rw [Change.txn, hnone]
          exact .begin hfresh.1 hfresh.2
  | commit id ts =>
      obtain ⟨e, hfind, h⟩ := of_bind_get h
      unfold decideCommit at h
      split at h
      · rename_i hphase
        split at h
        · contradiction
        · rename_i hbegin
          cases h
          refine ⟨_, _, ?_, amend_eq_ok hfind _, fun other => find?_put l id other _⟩
          rw [Change.txn, hfind]
          exact .commit hphase hbegin
      · split at h <;> simp at h
      · contradiction
  | rollback id =>
      obtain ⟨e, hfind, h⟩ := of_bind_get h
      unfold decideRollback at h
      split at h
      · rename_i hphase
        cases h
        refine ⟨_, _, ?_, amend_eq_ok hfind _, fun other => find?_put l id other _⟩
        rw [Change.txn, hfind]
        exact .rollback hphase
      · simp at h
      · contradiction
  | globalCommit id ts =>
      obtain ⟨e, hfind, h⟩ := of_bind_get h
      unfold decideGlobalCommit at h
      split at h
      · contradiction
      · rename_i hphase
        split at h
        · split at h <;> simp at h
        · rename_i hnone
          cases h
          refine ⟨_, _, ?_, amend_eq_ok hfind _, fun other => find?_put l id other _⟩
          rw [Change.txn, hfind]
          exact .globalCommit (Classical.not_not.1 hphase) hnone
  | keepAlive id =>
      obtain ⟨e, hfind, h⟩ := of_bind_get h
      unfold decideKeepAlive at h
      split at h
      · simp at h
      · rename_i hphase
        cases h
        refine ⟨_, _, ?_, amend_eq_ok hfind _, fun other => find?_put l id other _⟩
        rw [Change.txn, hfind]
        refine .keepAlive ?_
        cases hcase : e.view.phase with
        | active => rfl
        | committed => simp [hcase, Phase.isTerminal] at hphase
        | rolledBack => simp [hcase, Phase.isTerminal] at hphase

end Ledger

namespace Store

/-- A request either leaves the ledger alone, or the table decides on a log record for it and applies
that record. -/
theorem submit_cases (s : Store) (now : Millis) (change : Change) :
    (s.submit now change).2.ledger = s.ledger ∨
      ∃ r l', s.ledger.decide now change = .ok (some r) ∧ s.ledger.apply r = .ok l' ∧
        (s.submit now change).2.ledger = l' := by
  unfold submit
  split
  · exact .inl rfl
  · exact .inl rfl
  · rename_i r hdecide
    unfold commitRecord
    cases s.log.append r with
    | mk answer log =>
        cases answer with
        | error e => exact .inl rfl
        | ok offset =>
            cases happly : s.ledger.apply r with
            | error e => exact .inl rfl
            | ok l' => exact .inr ⟨r, l', hdecide, happly, rfl⟩

theorem submit_find? (s : Store) (now : Millis) (change : Change) :
    (∀ id, (s.submit now change).2.ledger.find? id = s.ledger.find? id) ∨
      ∃ e, Change.Accepted now change (s.ledger.find? change.txn) e ∧
        ∀ id, (s.submit now change).2.ledger.find? id =
          if change.txn = id then some e else s.ledger.find? id := by
  rcases s.submit_cases now change with hsame | ⟨r, l', hdecide, happly, hledger⟩
  · left
    intro id
    rw [hsame]
  · right
    obtain ⟨e, l'', haccepted, happly', hfind⟩ := Ledger.apply_of_decide hdecide
    obtain rfl : l' = l'' := Except.ok.inj (happly.symm.trans happly')
    rw [hledger]
    exact ⟨e, haccepted, hfind⟩

end Store

namespace PartitionedStore

theorem partition_setPartition (p : PartitionedStore) (id other : TxnId) (s : Store) :
    (p.setPartition id s).partition other =
      if (p.owner id).val = (p.owner other).val then s else p.partition other := by
  simp only [partition, setPartition, owner, Fin.getElem_fin, Array.size_set, Array.getElem_set]
  rfl

theorem partition_congr (p : PartitionedStore) {id other : TxnId}
    (h : (p.owner id).val = (p.owner other).val) : p.partition id = p.partition other := by
  simp only [partition, Fin.getElem_fin, h]

end PartitionedStore

namespace TxnStore

/-- The record of a transaction, in whichever partition it belongs to. -/
def find? (t : TxnStore) (id : TxnId) : Option Entry := (t.partOf id).ledger.find? id

@[simp] theorem directory_find? (t : TxnStore) (now : Millis) (id : TxnId) :
    (t.directory now).find? id = (t.find? id).map Entry.view := by
  cases t <;> rfl

/-- Records do not depend on the time. -/
theorem directory_find?_congr (t : TxnStore) (now now' : Millis) (id : TxnId) :
    (t.directory now').find? id = (t.directory now).find? id := by
  rw [directory_find?, directory_find?]

/-- Only active transactions miss their deadline. -/
theorem active_of_isExpired {t : TxnStore} {now : Millis} {id : TxnId}
    (h : (t.directory now).isExpired id = true) :
    ∃ v, (t.directory now).find? id = some v ∧ v.phase = .active := by
  have hexpired : ((t.find? id).any fun e => e.isExpired now (t.partOf id).config.timeout) = true := by
    cases t <;> exact h
  rw [directory_find?]
  cases hentry : t.find? id with
  | none => simp [hentry] at hexpired
  | some e =>
      simp only [hentry, Option.any_some, Entry.isExpired, View.isActive, Bool.and_eq_true,
        decide_eq_true_eq] at hexpired
      exact ⟨e.view, rfl, hexpired.1⟩

/-- **What a request can do.**  It leaves every record alone, or it is accepted and changes the record
of its own transaction only. -/
theorem submit_cases (t : TxnStore) (now : Millis) (change : Change) :
    (∀ id, (t.submit now change).2.find? id = t.find? id) ∨
      ∃ e, Change.Accepted now change (t.find? change.txn) e ∧
        ∀ id, (t.submit now change).2.find? id =
          if change.txn = id then some e else t.find? id := by
  cases t with
  | single s => exact s.submit_find? now change
  | partitioned p =>
      -- Ids of other partitions are out of reach; within the partition it is a single store.
      have hentry : ∀ id, (TxnStore.submit (.partitioned p) now change).2.find? id =
          if (p.owner change.txn).val = (p.owner id).val then
            ((p.partition change.txn).submit now change).2.ledger.find? id
          else (p.partition id).ledger.find? id := by
        intro id
        simp only [submit, PartitionedStore.submit, find?, partOf,
          PartitionedStore.partition_setPartition]
        split <;> rfl
      have hown : ∀ id, (p.owner change.txn).val = (p.owner id).val →
          (p.partition change.txn).ledger.find? id = TxnStore.find? (.partitioned p) id := by
        intro id howner
        rw [p.partition_congr howner]
        rfl
      rcases (p.partition change.txn).submit_find? now change with hsame | ⟨e, haccepted, hfind⟩
      · left
        intro id
        rw [hentry]
        split
        · rename_i howner
          rw [hsame, hown id howner]
        · rfl
      · right
        refine ⟨e, haccepted, fun id => ?_⟩
        rw [hentry]
        split
        · rename_i howner
          rw [hfind, hown id howner]
        · rename_i howner
          rw [if_neg]
          · rfl
          · rintro rfl
            exact howner rfl

/-- What a request can do, seen through the table before and after, at any times. -/
theorem directory_submit (t : TxnStore) (now now' : Millis) (change : Change) :
    (∀ id, ((t.submit now change).2.directory now').find? id = (t.directory now).find? id) ∨
      ∃ old e, Change.Accepted now change old e ∧
        (t.directory now).find? change.txn = old.map Entry.view ∧
        ((t.submit now change).2.directory now').find? change.txn = some e.view ∧
        ∀ id, id ≠ change.txn →
          ((t.submit now change).2.directory now').find? id = (t.directory now).find? id := by
  rcases t.submit_cases now change with hsame | ⟨e, haccepted, hentry⟩
  · left
    intro id
    rw [directory_find?, directory_find?, hsame]
  · refine .inr ⟨_, e, haccepted, t.directory_find? now _, ?_, fun id hid => ?_⟩
    · rw [directory_find?, hentry, if_pos rfl]
      rfl
    · rw [directory_find?, directory_find?, hentry, if_neg (Ne.symm hid)]

end TxnStore

/-- Where one record changes, every record found afterwards is that one, or was found before. -/
theorem Directory.find?_cases {d d' : Directory} {txn : TxnId} {w : View}
    (hnew : d'.find? txn = some w) (hothers : ∀ id, id ≠ txn → d'.find? id = d.find? id)
    {id : TxnId} {v : View} (hv : d'.find? id = some v) :
    id = txn ∧ v = w ∨ id ≠ txn ∧ d.find? id = some v := by
  by_cases hid : id = txn
  · subst hid
    exact .inl ⟨rfl, Option.some.inj (hv.symm.trans hnew)⟩
  · exact .inr ⟨hid, (hothers id hid).symm.trans hv⟩

end Multiversion
