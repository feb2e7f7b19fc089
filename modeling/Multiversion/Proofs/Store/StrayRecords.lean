import Multiversion.Proofs.Store.Recovery

/-!
# Records of calls that failed

If the sync after an append fails, the call fails and the ledger stays as it was, but the record stays
on the log.  The store stays in use: the call may be repeated, or be followed by one that contradicts
it.  Opening the log replays every record on it, acknowledged or not.

* `Mark` — a record that a run has left on the log, and whether its call was acknowledged;
* `Standing` — how the record of a transaction in the ledger compares with what its marks replay to;
* `Store.tracked_runCalls` — the comparison holds along every run;
* `Settled` — the marks of a transaction end acknowledged, and hide no commit behind a rollback;
* `Store.reopen_view_iff` — exactly the settled transactions are found again as the store holds them.
-/

namespace Multiversion

/-- A record that a run has left on the log. -/
structure Mark where
  record : LogRecord
  -- Whether the call that has left it was acknowledged.
  accepted : Bool
  deriving DecidableEq, Repr

/-- The record of a request that is granted at a clock reading. -/
def Change.record (now : Millis) : Change → LogRecord
  | .begin view => .begin { view with globalCommit := none } now
  | .commit id ts => .commit id ts
  | .rollback id => .rollback id
  | .globalCommit id ts => .globalCommit id ts
  | .keepAlive id => .keepAlive id now

namespace LogRecord

/-- What a record makes of what callers see of its transaction. -/
def amend : LogRecord → Option View → Option View
  | .begin view _, _ => some view
  | .commit _ ts, v => v.map fun v => { v with phase := .committed, commit := some ts }
  | .rollback _, v => v.map fun v => { v with phase := .rolledBack }
  | .globalCommit _ ts, v => v.map fun v => { v with globalCommit := some ts }
  | .keepAlive _ _, v => v

/-- What a transaction must look like for the table to decide on a record about it. -/
inductive Permitted : LogRecord → Option View → Prop
  | begin {view : View} {aliveAt : Millis} (hactive : view.phase = .active)
      (hcommit : view.commit = none) (hglobal : view.globalCommit = none) :
      Permitted (.begin view aliveAt) none
  | commit {id : TxnId} {ts : Timestamp} {v : View} (hactive : v.phase = .active) :
      Permitted (.commit id ts) (some v)
  | rollback {id : TxnId} {v : View} (hactive : v.phase = .active) :
      Permitted (.rollback id) (some v)
  | globalCommit {id : TxnId} {ts : Timestamp} {v : View} (hcommitted : v.phase = .committed)
      (hnone : v.globalCommit = none) : Permitted (.globalCommit id ts) (some v)
  | keepAlive {id : TxnId} {aliveAt : Millis} {v : View} : Permitted (.keepAlive id aliveAt) (some v)

theorem Permitted.known {r : LogRecord} {v : Option View} (h : r.Permitted v) :
    v.isSome ∨ ∃ view aliveAt, r = .begin view aliveAt := by
  cases h with
  | begin => exact .inr ⟨_, _, rfl⟩
  | commit | rollback | globalCommit | keepAlive => exact .inl rfl

end LogRecord

namespace Ledger

/-- What callers see of a transaction. -/
def view? (l : Ledger) (id : TxnId) : Option View := (l.find? id).map Entry.view

/-- **What a record does to what callers see.** -/
theorem view?_apply {l l' : Ledger} {r : LogRecord} (h : l.apply r = .ok l') (id : TxnId) :
    l'.view? id = if r.txn = id then r.amend (l.view? id) else l.view? id := by
  have hamend : ∀ (other : TxnId) (change : Entry → Entry), l.amend other change = .ok l' →
      l'.view? id = if other = id then ((l.find? id).map change).map Entry.view else l.view? id := by
    intro other change h
    unfold Ledger.amend at h
    split at h
    · rename_i e hfind
      cases h
      rw [view?, find?_put]
      split
      · rename_i heq
        rw [← heq, hfind]
        rfl
      · rfl
    · contradiction
  cases r with
  | begin view aliveAt =>
      cases h
      rw [view?, find?_begin]
      by_cases heq : view.id = id
      · simp [LogRecord.txn, heq, LogRecord.amend]
      · simp [LogRecord.txn, heq, view?]
  | commit other ts =>
      rw [hamend other _ h, LogRecord.txn, LogRecord.amend, view?, Option.map_map, Option.map_map]
      rfl
  | rollback other =>
      rw [hamend other _ h, LogRecord.txn, LogRecord.amend, view?, Option.map_map, Option.map_map]
      rfl
  | globalCommit other ts =>
      rw [hamend other _ h, LogRecord.txn, LogRecord.amend, view?, Option.map_map, Option.map_map]
      rfl
  | keepAlive other aliveAt =>
      rw [hamend other _ h, LogRecord.txn, LogRecord.amend, view?, Option.map_map]
      rfl

/-- The table decides on one record for each request. -/
theorem record_of_decide {l : Ledger} {now : Millis} {change : Change} {r : LogRecord}
    (h : l.decide now change = .ok (some r)) : r = change.record now := by
  cases change with
  | begin view =>
      simp only [decide, decideBegin] at h
      split at h
      · contradiction
      · split at h
        · contradiction
        · cases h
          rfl
  | commit id ts =>
      obtain ⟨e, -, h⟩ := of_bind_get h
      unfold decideCommit at h
      split at h
      · split at h
        · contradiction
        · cases h
          rfl
      · split at h <;> simp at h
      · contradiction
  | rollback id =>
      obtain ⟨e, -, h⟩ := of_bind_get h
      unfold decideRollback at h
      split at h
      · cases h
        rfl
      · simp at h
      · contradiction
  | globalCommit id ts =>
      obtain ⟨e, -, h⟩ := of_bind_get h
      unfold decideGlobalCommit at h
      split at h
      · contradiction
      · split at h
        · split at h <;> simp at h
        · cases h
          rfl
  | keepAlive id =>
      obtain ⟨e, -, h⟩ := of_bind_get h
      unfold decideKeepAlive at h
      split at h
      · simp at h
      · cases h
        rfl

/-- A record that the table decides on is permitted. -/
theorem permitted_of_decide {l : Ledger} {now : Millis} {change : Change} {r : LogRecord}
    (h : l.decide now change = .ok (some r)) : r.Permitted (l.view? r.txn) := by
  obtain ⟨e, _, haccepted, _⟩ := apply_of_decide h
  obtain rfl := record_of_decide h
  have htxn : (change.record now).txn = change.txn := by cases change <;> rfl
  rw [htxn, view?]
  generalize l.find? change.txn = found at haccepted
  cases haccepted with
  | begin hactive hcommit => exact .begin hactive hcommit rfl
  | commit hactive _ => exact .commit hactive
  | rollback hactive => exact .rollback hactive
  | globalCommit hcommitted hnone => exact .globalCommit hcommitted hnone
  | keepAlive _ => exact .keepAlive

/-- Only records about unknown transactions cannot be applied. -/
theorem exists_apply {l : Ledger} {r : LogRecord}
    (h : (l.view? r.txn).isSome ∨ ∃ view aliveAt, r = .begin view aliveAt) :
    ∃ l', l.apply r = .ok l' := by
  have hamend : ∀ (id : TxnId) (change : Entry → Entry), (l.view? id).isSome →
      ∃ l', l.amend id change = .ok l' := by
    intro id change hsome
    rw [view?, Option.isSome_map, Option.isSome_iff_exists] at hsome
    obtain ⟨e, hfind⟩ := hsome
    exact ⟨_, amend_eq_ok hfind change⟩
  rcases h with hsome | ⟨view, aliveAt, rfl⟩
  · cases r with
    | begin view aliveAt => exact ⟨_, rfl⟩
    | commit id ts => exact hamend id _ hsome
    | rollback id => exact hamend id _ hsome
    | globalCommit id ts => exact hamend id _ hsome
    | keepAlive id aliveAt => exact hamend id _ hsome
  · exact ⟨_, rfl⟩

theorem replay_concat {l l' : Ledger} {rs : List LogRecord} (h : l.replay rs = .ok l') (r : LogRecord) :
    l.replay (rs ++ [r]) = l'.apply r := by
  induction rs generalizing l with
  | nil =>
      cases h
      rw [List.nil_append, replay]
      cases l'.apply r <;> rfl
  | cons first rest ih =>
      rw [replay] at h
      rw [List.cons_append, replay]
      cases happly : l.apply first with
      | error e => simp [happly] at h
      | ok next =>
          rw [happly] at h
          exact ih h

end Ledger

/-- The marks about a transaction, without keep-alives: callers do not see those. -/
def ownMarks (marks : List Mark) (id : TxnId) : List Mark :=
  marks.filter fun m => m.record.txn = id ∧ m.record.type ≠ .keepAlive

/-- The last mark was acknowledged, and if it ends the transaction without a commit, no commit was
left on the log. -/
def SettledBy (own : List Mark) : Prop :=
  ∀ last ∈ own.getLast?, last.accepted = true ∧
    (last.record.type = .rollback → ∀ m ∈ own, m.record.type = .commit → m.accepted = true)

instance (own : List Mark) : Decidable (SettledBy own) := by
  unfold SettledBy
  infer_instance

/-- The marks of a transaction say the same with and without those of failed calls. -/
def Settled (marks : List Mark) (id : TxnId) : Prop := SettledBy (ownMarks marks id)

instance (marks : List Mark) (id : TxnId) : Decidable (Settled marks id) :=
  inferInstanceAs (Decidable (SettledBy _))

/-- Every commit on the log was acknowledged. -/
def CommitsAccepted (own : List Mark) : Prop :=
  ∀ m ∈ own, m.record.type = .commit → m.accepted = true

/-- How what callers see of a transaction compares with what its marks replay to. -/
inductive Standing (own : List Mark) : Option View → Option View → Prop
  | unknown (hown : own = []) : Standing own none none
  -- Only failed calls have recorded it.
  | strayBegin {w : View} {m : Mark} (hlast : own.getLast? = some m) (hstray : m.accepted = false)
      (hcommits : CommitsAccepted own) : Standing own none (some w)
  | active {v : View} {m : Mark} (hactive : v.phase = .active) (hcommit : v.commit = none)
      (hlast : own.getLast? = some m) (haccepted : m.accepted = true)
      (htype : m.record.type ≠ .rollback) (hcommits : CommitsAccepted own) :
      Standing own (some v) (some v)
  -- It is active, but a failed call has ended it on the log.
  | strayEnd {v : View} {phase : Phase} {commit : Option Timestamp} {m : Mark}
      (hactive : v.phase = .active) (hcommit : v.commit = none) (hended : phase ≠ .active)
      (hlast : own.getLast? = some m) (hstray : m.accepted = false)
      (hcommits : commit = none ↔ CommitsAccepted own) :
      Standing own (some v) (some { v with phase, commit })
  | committed {v : View} {m : Mark} (hcommitted : v.phase = .committed)
      (hlast : own.getLast? = some m) (haccepted : m.accepted = true)
      (htype : m.record.type ≠ .rollback) : Standing own (some v) (some v)
  | strayGlobalCommit {v : View} {m : Mark} {ts : Timestamp} (hcommitted : v.phase = .committed)
      (hnone : v.globalCommit = none) (hlast : own.getLast? = some m) (hstray : m.accepted = false) :
      Standing own (some v) (some { v with globalCommit := some ts })
  -- It is rolled back, but a failed call may have left a commit timestamp.
  | rolledBack {v : View} {commit : Option Timestamp} {m : Mark} (hrolledBack : v.phase = .rolledBack)
      (hcommit : v.commit = none) (hlast : own.getLast? = some m) (haccepted : m.accepted = true)
      (htype : m.record.type = .rollback) (hcommits : commit = none ↔ CommitsAccepted own) :
      Standing own (some v) (some { v with commit })

theorem commitsAccepted_concat {own : List Mark} {m : Mark} :
    CommitsAccepted (own ++ [m]) ↔
      CommitsAccepted own ∧ (m.record.type = .commit → m.accepted = true) := by
  simp [CommitsAccepted, or_imp, forall_and]

namespace Standing

variable {own : List Mark} {v : View} {seen logged : Option View} {r : LogRecord}

/-- A transaction that the store knows is on the log. -/
theorem isSome (h : Standing own seen logged) (hseen : seen.isSome) : logged.isSome := by
  cases h <;> first | rfl | contradiction

theorem of_none (h : Standing own none logged) : CommitsAccepted own := by
  cases h with
  | unknown hown => simp [hown, CommitsAccepted]
  | strayBegin _ _ hcommits => exact hcommits

/-- The log agrees with the store about an active transaction, but for how it has ended. -/
theorem of_active (h : Standing own (some v) logged) (hactive : v.phase = .active) :
    v.commit = none ∧ ∃ phase commit, logged = some { v with phase, commit } ∧
      (commit = none ↔ CommitsAccepted own) := by
  cases h with
  | active _ hcommit _ _ _ hcommits => exact ⟨hcommit, v.phase, v.commit, rfl, by simp [hcommit, hcommits]⟩
  | strayEnd _ hcommit _ _ _ hcommits => exact ⟨hcommit, _, _, rfl, hcommits⟩
  | committed hcommitted => simp [hactive] at hcommitted
  | strayGlobalCommit hcommitted => simp [hactive] at hcommitted
  | rolledBack hrolledBack => simp [hactive] at hrolledBack

/-- The log agrees with the store about a committed transaction, but for its root's commit. -/
theorem of_committed (h : Standing own (some v) logged) (hcommitted : v.phase = .committed) :
    ∃ globalCommit, logged = some { v with globalCommit } := by
  cases h with
  | active hactive => simp [hcommitted] at hactive
  | strayEnd hactive => simp [hcommitted] at hactive
  | committed => exact ⟨v.globalCommit, rfl⟩
  | strayGlobalCommit => exact ⟨_, rfl⟩
  | rolledBack hrolledBack => simp [hcommitted] at hrolledBack

/-- **An acknowledged record** is applied to both. -/
theorem accept (h : Standing own seen logged) (hr : r.Permitted seen) (htype : r.type ≠ .keepAlive) :
    Standing (own ++ [⟨r, true⟩]) (r.amend seen) (r.amend logged) := by
  have hlast : (own ++ [(⟨r, true⟩ : Mark)]).getLast? = some ⟨r, true⟩ := List.getLast?_concat
  have hcommits : CommitsAccepted (own ++ [⟨r, true⟩]) ↔ CommitsAccepted own := by
    simp [commitsAccepted_concat]
  cases hr with
  | begin hactive hcommit _ =>
      exact .active hactive hcommit hlast rfl (by simp [LogRecord.type]) (hcommits.2 h.of_none)
  | commit hactive =>
      obtain ⟨_, phase, commit, rfl, _⟩ := h.of_active hactive
      exact .committed rfl hlast rfl (by simp [LogRecord.type])
  | rollback hactive =>
      -- The commit timestamp that a failed call has left stays.
      obtain ⟨hcommit, phase, commit, rfl, hkept⟩ := h.of_active hactive
      exact .rolledBack rfl hcommit hlast rfl rfl (hkept.trans hcommits.symm)
  | globalCommit hcommitted _ =>
      obtain ⟨globalCommit, rfl⟩ := h.of_committed hcommitted
      exact .committed hcommitted hlast rfl (by simp [LogRecord.type])
  | keepAlive => exact absurd rfl htype

/-- **The record of a failed call** is applied to the log alone. -/
theorem stray (h : Standing own seen logged) (hr : r.Permitted seen) (htype : r.type ≠ .keepAlive) :
    Standing (own ++ [⟨r, false⟩]) seen (r.amend logged) := by
  have hlast : (own ++ [(⟨r, false⟩ : Mark)]).getLast? = some ⟨r, false⟩ := List.getLast?_concat
  have hcommits : CommitsAccepted (own ++ [⟨r, false⟩]) ↔ CommitsAccepted own ∧ r.type ≠ .commit := by
    simp [commitsAccepted_concat]
  cases hr with
  | begin =>
      exact .strayBegin hlast rfl (hcommits.2 ⟨h.of_none, by simp [LogRecord.type]⟩)
  | commit hactive =>
      obtain ⟨hcommit, phase, commit, rfl, _⟩ := h.of_active hactive
      exact .strayEnd hactive hcommit (by simp) hlast rfl (by simp [hcommits, LogRecord.type])
  | rollback hactive =>
      obtain ⟨hcommit, phase, commit, rfl, hkept⟩ := h.of_active hactive
      exact .strayEnd hactive hcommit (by simp) hlast rfl (by simp [hcommits, hkept, LogRecord.type])
  | globalCommit hcommitted hnone =>
      obtain ⟨globalCommit, rfl⟩ := h.of_committed hcommitted
      exact .strayGlobalCommit hcommitted hnone hlast rfl
  | keepAlive => exact absurd rfl htype

/-- **What callers see agrees** exactly if the marks are settled. -/
theorem eq_iff (h : Standing own seen logged) : logged = seen ↔ SettledBy own := by
  cases h with
  | unknown hown => simp [hown, SettledBy]
  | strayBegin hlast hstray => simp [SettledBy, hlast, hstray]
  | active _ _ hlast haccepted htype => simp [SettledBy, hlast, haccepted, htype]
  | @strayEnd v phase commit m hactive _ hended hlast hstray _ =>
      have hne : ({ v with phase, commit } : View) ≠ v := fun h =>
        hended ((congrArg View.phase h).trans hactive)
      simp [SettledBy, hlast, hstray, hne]
  | committed _ hlast haccepted htype => simp [SettledBy, hlast, haccepted, htype]
  | @strayGlobalCommit v m ts _ hnone hlast hstray =>
      have hne : ({ v with globalCommit := some ts } : View) ≠ v := fun h => by
        have hglobal := congrArg View.globalCommit h
        simp [hnone] at hglobal
      simp [SettledBy, hlast, hstray, hne]
  | @rolledBack v commit m _ hcommit hlast haccepted htype hcommits =>
      have heq : ({ v with commit } : View) = v ↔ commit = none := by
        refine ⟨fun h => (congrArg View.commit h).trans hcommit, fun h => ?_⟩
        rw [h, ← hcommit]
      simp only [SettledBy, hlast, Option.mem_some_iff, forall_eq', haccepted, htype, true_and,
        forall_const, Option.some.injEq, heq]
      exact hcommits

end Standing

theorem ownMarks_concat (marks : List Mark) (m : Mark) (id : TxnId) :
    ownMarks (marks ++ [m]) id =
      if m.record.txn = id ∧ m.record.type ≠ .keepAlive then ownMarks marks id ++ [m]
      else ownMarks marks id := by
  rw [ownMarks, List.filter_append, List.filter_cons, List.filter_nil]
  simp only [decide_eq_true_eq]
  split
  · rfl
  · exact List.append_nil _

namespace Store

/-- The record that a call leaves on the log. -/
def mark? (s : Store) (c : Call) : Option Mark :=
  match s.ledger.decide c.now c.change with
  | .ok (some record) =>
      if (s.call c).2.log.size = s.log.size then none
      else some { record, accepted := acknowledged (s.call c).1 }
  | _ => none

/-- The records that a run leaves on the log. -/
def marks (s : Store) : List Call → List Mark
  | [] => []
  | c :: rest => (s.mark? c).toList ++ (s.call c).2.marks rest

/-- A store, the marks on its log, and the ledger that they replay to. -/
structure Tracked (s : Store) (marks : List Mark) (logged : Ledger) : Prop where
  isOpen : s.log.device.closed = false
  fits : ∀ m ∈ marks, m.record.payload.length < 4294967296
  bytes : s.log.device.bytes = (marks.map Mark.record).flatMap Frame.ofRecord
  replay : Ledger.replay {} (marks.map Mark.record) = .ok logged
  standing : ∀ id, Standing (ownMarks marks id) (s.ledger.view? id) (logged.view? id)

variable {s : Store} {c : Call} {past : List Mark} {logged : Ledger}

theorem tracked_empty (config : StoreConfig) : (empty config).Tracked [] {} where
  isOpen := rfl
  fits := by simp
  bytes := rfl
  replay := rfl
  standing id := by
    have hnone : Ledger.view? {} id = none := by simp [Ledger.view?, Ledger.find?]
    rw [show (empty config).ledger = {} from rfl, hnone]
    exact .unknown rfl

/-- **A call leaves** one record on the log, acknowledged or not, or it leaves nothing. -/
theorem mark_cases (hopen : s.log.device.closed = false) (htear : c.faults.tear = none) :
    (s.call c).2.log.device.closed = false ∧
      ((∃ r accepted, s.mark? c = some ⟨r, accepted⟩ ∧ r.payload.length < 4294967296 ∧
          s.ledger.decide c.now c.change = .ok (some r) ∧
          (s.call c).2.log.device.bytes = s.log.device.bytes ++ Frame.ofRecord r ∧
          if accepted then s.ledger.apply r = .ok (s.call c).2.ledger
          else (s.call c).2.ledger = s.ledger) ∨
        (s.mark? c = none ∧ (s.call c).2.ledger = s.ledger ∧
          (s.call c).2.log.device.bytes = s.log.device.bytes)) := by
  obtain ⟨answer, s', hcall, hopen', houtcome⟩ := outcome_call hopen c
  rw [mark?, hcall]
  refine ⟨hopen', ?_⟩
  -- A frame is never empty, so a record was left exactly if the log has grown.
  have hgrown : ∀ r : LogRecord, s'.log.device.bytes = s.log.device.bytes ++ Frame.ofRecord r →
      s'.log.size ≠ s.log.size := by
    intro r hbytes
    have hlength := congrArg List.length hbytes
    rw [List.length_append, Frame.length_ofRecord, Frame.headerSize] at hlength
    simp only [Log.size, ← Device.length_bytes]
    omega
  cases houtcome with
  | @accepted r hok hdecided happends =>
      rw [hdecided]
      dsimp only
      rw [if_neg (hgrown r happends.bytes), hok]
      exact .inl ⟨r, true, rfl, happends.fits, rfl, happends.bytes, happends.apply⟩
  | @unsynced r hrefused hdecided hfits _ hledger hbytes =>
      rw [hdecided]
      dsimp only
      rw [if_neg (hgrown r hbytes), Bool.eq_false_iff.2 (mt acknowledged_iff.1 hrefused)]
      exact .inl ⟨r, false, rfl, hfits, rfl, hbytes, hledger⟩
  | unchanged _ hledger hbytes =>
      have hsame : s'.log.size = s.log.size := congrArg List.length hbytes
      refine .inr ⟨?_, hledger, hbytes⟩
      split
      · rw [if_pos hsame]
      · rfl
  | torn _ _ _ htorn => simp [htear] at htorn

/-- The comparison goes on with one more record, whether its call was acknowledged or not. -/
theorem standing_concat (h : ∀ id, Standing (ownMarks past id) (s.ledger.view? id) (logged.view? id))
    {r : LogRecord} (hpermitted : r.Permitted (s.ledger.view? r.txn)) {accepted : Bool}
    {ledger logged' : Ledger} (happly : logged.apply r = .ok logged')
    (hledger : if accepted then s.ledger.apply r = .ok ledger else ledger = s.ledger) (id : TxnId) :
    Standing (ownMarks (past ++ [⟨r, accepted⟩]) id) (ledger.view? id) (logged'.view? id) := by
  have hid := h id
  have hseen : ledger.view? id =
      if accepted ∧ r.txn = id then r.amend (s.ledger.view? id) else s.ledger.view? id := by
    cases accepted with
    | true => simpa using Ledger.view?_apply hledger id
    | false => simp [show ledger = s.ledger from hledger]
  rw [ownMarks_concat, hseen, Ledger.view?_apply happly]
  by_cases htxn : r.txn = id
  · subst htxn
    by_cases htype : r.type = .keepAlive
    · -- Callers do not see keep-alives.
      have hamend : ∀ v, r.amend v = v := by
        cases r <;> first | contradiction | exact fun _ => rfl
      simpa [htype, hamend] using hid
    · cases accepted with
      | true => simpa [htype] using hid.accept hpermitted htype
      | false => simpa [htype] using hid.stray hpermitted htype
  · simpa [htxn] using hid

/-- **One call** keeps the comparison between the store and its log. -/
theorem tracked_call (h : s.Tracked past logged) (htear : c.faults.tear = none) :
    ∃ logged', (s.call c).2.Tracked (past ++ (s.mark? c).toList) logged' := by
  obtain ⟨hopen, ⟨r, accepted, hmark, hfits, hdecided, hbytes, hledger⟩ | ⟨hmark, hledger, hbytes⟩⟩ :=
    mark_cases h.isOpen htear
  · have hpermitted := Ledger.permitted_of_decide hdecided
    obtain ⟨logged', happly⟩ : ∃ logged', logged.apply r = .ok logged' := by
      exact Ledger.exists_apply (hpermitted.known.imp_left (h.standing r.txn).isSome)
    refine ⟨logged', hopen, ?_, ?_, ?_, ?_⟩
    · simpa [hmark, or_imp, forall_and, hfits] using h.fits
    · simp [hmark, hbytes, h.bytes]
    · rw [hmark, Option.toList_some, List.map_append, List.map_singleton,
        Ledger.replay_concat h.replay, happly]
    · rw [hmark]
      exact standing_concat h.standing hpermitted happly hledger
  · refine ⟨logged, hopen, ?_, ?_, ?_, ?_⟩
    · simpa [hmark] using h.fits
    · simpa [hmark, hbytes] using h.bytes
    · simpa [hmark] using h.replay
    · simpa [hmark, hledger] using h.standing

/-- **A run** keeps it too. -/
theorem tracked_runCalls (h : s.Tracked past logged) {calls : List Call}
    (htears : ∀ c ∈ calls, c.faults.tear = none) :
    ∃ logged', (s.runCalls calls).Tracked (past ++ s.marks calls) logged' := by
  induction calls generalizing s past logged with
  | nil => exact ⟨logged, by rw [marks, List.append_nil]; exact h⟩
  | cons c rest ih =>
      obtain ⟨htear, hrest⟩ := List.forall_mem_cons.1 htears
      obtain ⟨logged', h'⟩ := tracked_call h htear
      rw [marks, ← List.append_assoc]
      exact ih h' hrest

theorem Tracked.recovers (h : s.Tracked past logged) (config : StoreConfig) :
    Recovers config s.log.device.bytes logged := by
  refine recovers_of_frames config ?_ Frame.next_nil (by rw [List.append_nil]; exact h.bytes) h.replay
  intro r hr
  obtain ⟨m, hm, rfl⟩ := List.mem_map.1 hr
  exact h.fits m hm

/-- **What a failed call leaves behind.**  Calls are made on a store that was opened over an empty
device; appends may fail before they write, and syncs may fail after.  Opening the log succeeds, and
gives for a transaction what the store holds exactly if its marks are settled: the last record about
it, keep-alives aside, was acknowledged; and if that is a rollback, no commit of it was left on the log
by a failed call. -/
theorem reopen_view_iff (config config' : StoreConfig) (calls : List Call)
    (htears : ∀ c ∈ calls, c.faults.tear = none) :
    ∃ logged, Recovers config' ((empty config).runCalls calls).log.device.bytes logged ∧
      ∀ id, logged.view? id = ((empty config).runCalls calls).ledger.view? id ↔
        Settled ((empty config).marks calls) id := by
  obtain ⟨logged, h⟩ := tracked_runCalls (tracked_empty config) htears
  rw [List.nil_append] at h
  exact ⟨logged, h.recovers config', fun id => (h.standing id).eq_iff⟩

end Store

namespace FailedCommit

/-- A transaction is recorded, its commit fails after the record was written, and it is rolled back. -/
def calls : List Call :=
  [{ change := .begin { id := ⟨1⟩, begin := ⟨1⟩ } },
    { faults := { sync := true }, change := .commit ⟨1⟩ ⟨5⟩ },
    { change := .rollback ⟨1⟩ }]

theorem untorn : ∀ c ∈ calls, c.faults.tear = none := by
  decide

theorem not_settled : ¬ Settled ((Store.empty {}).marks calls) ⟨1⟩ := by
  decide +kernel

end FailedCommit

/-- The comparison, where a commit fails and its transaction is rolled back. -/
theorem reopen_view_iff_failedCommit :
    ∃ logged, Store.Recovers {} ((Store.empty {}).runCalls FailedCommit.calls).log.device.bytes logged ∧
      logged.view? ⟨1⟩ ≠ ((Store.empty {}).runCalls FailedCommit.calls).ledger.view? ⟨1⟩ := by
  obtain ⟨logged, hrecovers, hviews⟩ :=
    Store.reopen_view_iff {} {} FailedCommit.calls FailedCommit.untorn
  exact ⟨logged, hrecovers, fun h => FailedCommit.not_settled ((hviews ⟨1⟩).1 h)⟩

/-- **A failed call can have an effect** after the store is opened again. -/
theorem not_reopen_view_of_unsynced :
    ¬ ∀ (config config' : StoreConfig) (calls : List Call), config.syncOnCommit = true →
      (∀ c ∈ calls, c.faults.tear = none) →
      ∃ logged, Store.Recovers config' ((Store.empty config).runCalls calls).log.device.bytes logged ∧
        ∀ id, logged.view? id = ((Store.empty config).runCalls calls).ledger.view? id := by
  intro h
  obtain ⟨logged, hrecovers, hviews⟩ := h {} {} FailedCommit.calls rfl FailedCommit.untorn
  obtain ⟨logged', htracked⟩ := Store.tracked_runCalls (Store.tracked_empty {}) FailedCommit.untorn
  rw [List.nil_append] at htracked
  obtain rfl := hrecovers.unique (htracked.recovers {})
  have hsettled := (htracked.standing ⟨1⟩).eq_iff.1 (hviews ⟨1⟩)
  exact FailedCommit.not_settled hsettled

end Multiversion
